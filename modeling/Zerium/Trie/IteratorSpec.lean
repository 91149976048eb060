import Zerium.Trie.Iterator

/-! # The node iterator's stack

`StackOk` says, from the top down, that every state on the stack but the top has handed out the
state above it and that each `pathlen` is within the path; every call of `Next` keeps it,
whichever database the trie reads and whether the call fails. So after `Next(false)` fails on a
missing node, the parent whose child could not be loaded is on top, and a retry pops it: the
retry's path leaves the failed one's at an earlier nibble, and the missing child and the rest of
its parent's children are skipped.
-/

namespace Zerium.Trie

set_option autoImplicit false

open NodeIterator

/-! ## The invariant -/

def Handed (st : NodeIteratorState) (m : Nat) (path : List UInt8) : Prop :=
  match st.node with
  | .fullNode _ _ => 0 ≤ st.index ∧ path[m]? = some (UInt8.ofNat st.index.toNat)
  | .shortNode _ _ _ => 0 ≤ st.index
  | _ => True

def TopHanded : List NodeIteratorState → Nat → List UInt8 → Prop
  | [], _, _ => True
  | below :: _, m, path => Handed below m path

/-- What the invariant asks of the top of the stack. -/
structure TopOk (top : NodeIteratorState) (rest : List NodeIteratorState) (path : List UInt8) : Prop where
  pathlen_le : top.pathlen ≤ path.length
  index_ge : -1 ≤ top.index
  handed : TopHanded rest top.pathlen path

def StackOk : List NodeIteratorState → List UInt8 → Prop
  | [], _ => True
  | top :: rest, path => TopOk top rest path ∧ StackOk rest (path.take top.pathlen)

theorem StackOk.pop {top : NodeIteratorState} {rest : List NodeIteratorState} {path : List UInt8}
    (h : StackOk (top :: rest) path) : StackOk rest (path.take top.pathlen) := h.2

theorem StackOk.setIndex {top : NodeIteratorState} {rest : List NodeIteratorState} {path : List UInt8}
    (h : StackOk (top :: rest) path) {k : Int} (hk : -1 ≤ k) :
    StackOk ({ top with index := k } :: rest) path :=
  ⟨⟨h.1.pathlen_le, hk, h.1.handed⟩, h.2⟩

@[simp] theorem bumpTop_cons (parent : NodeIteratorState) (rest : List NodeIteratorState) :
    bumpTop (parent :: rest) = { parent with index := parent.index + 1 } :: rest := rfl

/-! ## One child -/

theorem firstChild_eq_some {children : Fin 17 → Node} {start : Int} {i : Fin 17}
    (h : firstChild children start = some i) : start ≤ i.val ∧ (children i).isNil = false := by
  have := List.find?_some h
  simpa using this

theorem nextChild_eq_some {path : List UInt8} {parent parent' st : NodeIteratorState}
    {ancestor childPath : List UInt8}
    (h : nextChild path parent ancestor = some (some (parent', st, childPath))) :
    st.pathlen = path.length ∧ st.index = -1 ∧
      ((∃ children flags, ∃ i : Fin 17, parent.node = .fullNode children flags ∧
          parent.index + 1 ≤ i.val ∧ parent' = { parent with index := i.val - 1 } ∧
          childPath = path ++ [UInt8.ofNat i.val]) ∨
        (∃ key val flags, parent.node = .shortNode key val flags ∧ parent.index < 0 ∧
          parent' = parent ∧ childPath = path ++ key)) := by
  unfold nextChild at h
  split at h
  · rename_i children flags hnode
    split at h
    · cases h
    · split at h
      · cases h
      · rename_i i hi
        obtain ⟨⟨hash, dirty⟩, -, hres⟩ := Option.map_eq_some_iff.mp h
        cases hres
        exact ⟨rfl, rfl, .inl ⟨children, flags, i, hnode, (firstChild_eq_some hi).1, rfl, rfl⟩⟩
  · rename_i key val flags hnode
    split at h
    · rename_i hidx
      obtain ⟨⟨hash, dirty⟩, -, hres⟩ := Option.map_eq_some_iff.mp h
      cases hres
      exact ⟨rfl, rfl, .inr ⟨key, val, flags, hnode, hidx, rfl, rfl⟩⟩
    · cases h
  · cases h

theorem nextChild_prefix {path : List UInt8} {parent parent' st : NodeIteratorState}
    {ancestor childPath : List UInt8}
    (h : nextChild path parent ancestor = some (some (parent', st, childPath))) : path <+: childPath := by
  obtain ⟨-, -, ⟨-, -, i, -, -, -, rfl⟩ | ⟨key, -, -, -, -, -, rfl⟩⟩ := nextChild_eq_some h
  · exact List.prefix_append _ _
  · exact List.prefix_append _ _

theorem resolve_eq_ok {st st' : NodeIteratorState} {tr : Option Trie} {path : List UInt8}
    (h : st.resolve tr path = some (.ok st')) : st'.pathlen = st.pathlen ∧ st'.index = st.index := by
  unfold NodeIteratorState.resolve at h
  split at h
  · split at h
    · cases h
    · split at h
      · cases h
      · cases h
      · cases h
        exact ⟨rfl, rfl⟩
  · cases h
    exact ⟨rfl, rfl⟩

theorem StackOk.push {parent parent' st st' : NodeIteratorState} {rest : List NodeIteratorState}
    {path ancestor childPath : List UInt8} (h : StackOk (parent :: rest) path)
    (hnext : nextChild path parent ancestor = some (some (parent', st, childPath)))
    (hlen : st'.pathlen = st.pathlen) (hidx : st'.index = st.index) :
    StackOk (st' :: bumpTop (parent' :: rest)) childPath := by
  obtain ⟨hpl, hi, hkind⟩ := nextChild_eq_some hnext
  have hprefix := nextChild_prefix hnext
  have htop := h.1.index_ge
  rw [bumpTop_cons]
  rcases hkind with ⟨children, flags, i, hnode, hle, rfl, rfl⟩ | ⟨key, val, flags, hnode, hneg, rfl, rfl⟩
  · -- the full node moves on to the nibble of the child
    refine ⟨⟨by rw [hlen, hpl]; exact hprefix.length_le, by omega, ?_⟩, ?_⟩
    · unfold TopHanded Handed
      rw [hnode]
      dsimp only
      refine ⟨by omega, ?_⟩
      rw [hlen, hpl, List.getElem?_concat_length]
      congr
      omega
    · rw [hlen, hpl, List.take_left]
      exact h.setIndex (k := (i.val : Int) - 1 + 1) (by omega)
  · -- the short node moves past its one child
    refine ⟨⟨by rw [hlen, hpl]; exact hprefix.length_le, by omega, ?_⟩, ?_⟩
    · unfold TopHanded Handed
      rw [hnode]
      dsimp only
      omega
    · rw [hlen, hpl, List.take_left]
      exact h.setIndex (by omega)

/-! ## The loop of `peek` -/

theorem peekLoop_stackOk {tr : Option Trie} :
    ∀ {S : List NodeIteratorState} {q : List UInt8} {S' : List NodeIteratorState} {q' : List UInt8}
      {res : Except IteratorError (NodeIteratorState × List UInt8)},
      StackOk S q → peekLoop tr S q = some (S', q', res) →
        StackOk S' q' ∧ ∀ st childPath, res = .ok (st, childPath) → StackOk (st :: bumpTop S') childPath
  | [], q, S', q', res, _, h => by
    rw [peekLoop] at h
    cases h
    exact ⟨trivial, fun _ _ h => by cases h⟩
  | parent :: rest, q, S', q', res, hok, h => by
    rw [peekLoop] at h
    rcases hnext : nextChild q parent parent.ancestor with _ | _ | ⟨parent', st, childPath⟩
    · rw [hnext] at h
      cases h
    · rw [hnext] at h
      exact peekLoop_stackOk hok.pop h
    · rw [hnext] at h
      simp only at h
      have hset : StackOk (parent' :: rest) q := by
        obtain ⟨-, -, ⟨-, -, i, -, -, rfl, -⟩ | ⟨-, -, -, -, -, rfl, -⟩⟩ := nextChild_eq_some hnext
        · exact hok.setIndex (k := (i.val : Int) - 1) (by omega)
        · exact hok
      split at h
      · cases h
      · cases h
        exact ⟨hset, fun _ _ h => by cases h⟩
      · rename_i st' hres
        cases h
        obtain ⟨hlen, hidx⟩ := resolve_eq_ok hres
        refine ⟨hset, fun st₀ cp₀ h => ?_⟩
        cases h
        exact hok.push hnext hlen hidx

theorem peekLoop_of_found {tr : Option Trie} {parent parent' st st' : NodeIteratorState}
    {rest : List NodeIteratorState} {q childPath : List UInt8}
    (hnext : nextChild q parent parent.ancestor = some (some (parent', st, childPath)))
    (hres : st.resolve tr childPath = some (.ok st')) :
    peekLoop tr (parent :: rest) q = some (parent' :: rest, q, .ok (st', childPath)) := by
  rw [peekLoop, hnext]
  simp only [hres]

/-! ## `peek`, `push` and `Next` -/

section

variable (keccak : List UInt8 → List UInt8)

theorem peek_cons_stackOk {it : NodeIterator} {S' : List NodeIteratorState} {q' : List UInt8}
    {r : Except IteratorError (NodeIteratorState × List UInt8)}
    (h : StackOk S' q' ∧ ∀ st childPath, r = .ok (st, childPath) → StackOk (st :: bumpTop S') childPath) :
    StackOk S' q' ∧ ∀ st hasParent path, r.map (fun (state, childPath) => (state, true, childPath)) =
        .ok (st, hasParent, path) →
      StackOk ({ it with stack := S', path := q' }.push st hasParent path).stack
        ({ it with stack := S', path := q' }.push st hasParent path).path := by
  refine ⟨h.1, fun st hasParent path hr => ?_⟩
  rcases r with err | ⟨st₀, cp₀⟩
  · cases hr
  · simp only [Except.map, Except.ok.injEq, Prod.mk.injEq] at hr
    obtain ⟨rfl, rfl, rfl⟩ := hr
    exact h.2 _ _ rfl

theorem peek_stackOk {it it' : NodeIterator} {descend : Bool}
    {res : Except IteratorError (NodeIteratorState × Bool × List UInt8)}
    (hok : StackOk it.stack it.path) (h : it.peek keccak descend = some (it', res)) :
    StackOk it'.stack it'.path ∧
      ∀ st hasParent path, res = .ok (st, hasParent, path) →
        StackOk (it'.push st hasParent path).stack (it'.push st hasParent path).path := by
  unfold peek at h
  split at h
  · -- the root goes on the empty stack
    rename_i hs
    split at h
    · cases h
    · split at h
      · cases h
      · split at h
        · cases h
        · cases h
          exact ⟨by rw [hs]; trivial, fun _ _ _ h => by cases h⟩
        · rename_i st' hres
          cases h
          obtain ⟨hlen, hidx⟩ := resolve_eq_ok hres
          refine ⟨by rw [hs]; trivial, fun st hasParent path h => ?_⟩
          cases h
          simp only [push, hs, Bool.false_eq_true, if_false]
          exact ⟨⟨by rw [hlen]; exact Nat.zero_le _, by rw [hidx]; exact le_refl _, trivial⟩, trivial⟩
  · rename_i top rest hs
    rw [hs] at hok
    cases descend
    all_goals
      simp only [Bool.false_eq_true, if_false, if_true] at h
      obtain ⟨⟨S', q', r⟩, hloop, hit⟩ := Option.map_eq_some_iff.mp h
      cases hit
    · exact peek_cons_stackOk (peekLoop_stackOk hok.pop hloop)
    · exact peek_cons_stackOk (peekLoop_stackOk hok hloop)

theorem nextStep_stackOk {it it' : NodeIterator} {descend b : Bool} (hok : StackOk it.stack it.path)
    (h : nextStep keccak it descend = some (b, it')) : StackOk it'.stack it'.path := by
  unfold nextStep at h
  rcases hp : it.peek keccak descend with _ | ⟨it₀, _ | ⟨st, hasParent, path⟩⟩
  · rw [hp] at h
    cases h
  · rw [hp] at h
    cases h
    exact (peek_stackOk keccak hok hp).1
  · rw [hp] at h
    cases h
    exact (peek_stackOk keccak hok hp).2 st hasParent path rfl

theorem seekLoop_stackOk {key start : List UInt8} :
    ∀ {fuel : Nat} {it it' : NodeIterator} {err : Option IteratorError}, StackOk it.stack it.path →
      seekLoop keccak key start fuel it = some (err, it') → StackOk it'.stack it'.path
  | 0, _, _, _, _, h => by cases h
  | fuel + 1, it, it', err, hok, h => by
    rw [seekLoop] at h
    rcases hp : it.peek keccak (decide (it.path <+: key)) with _ | ⟨it₀, _ | ⟨st, hasParent, path⟩⟩
    · rw [hp] at h
      cases h
    · rw [hp] at h
      cases h
      exact (peek_stackOk keccak hok hp).1
    · rw [hp] at h
      simp only at h
      split at h
      · cases h
        exact (peek_stackOk keccak hok hp).1
      · exact seekLoop_stackOk ((peek_stackOk keccak hok hp).2 st hasParent path rfl) h

theorem seek_stackOk {fuel : Nat} {it it' : NodeIterator} {start : List UInt8} {err : Option IteratorError}
    (hok : StackOk it.stack it.path) (h : seek keccak fuel it start = some (err, it')) :
    StackOk it'.stack it'.path :=
  seekLoop_stackOk keccak hok h

theorem Next_stackOk {fuel : Nat} {it it' : NodeIterator} {descend b : Bool} (hok : StackOk it.stack it.path)
    (h : Next keccak fuel it descend = some (b, it')) : StackOk it'.stack it'.path := by
  unfold Next at h
  split at h
  · cases h
    exact hok
  · split at h
    · cases h
    · rename_i hseek
      cases h
      exact (seek_stackOk keccak hok hseek :)
    · rename_i it₀ hseek
      have hsought : StackOk it₀.stack it₀.path := seek_stackOk keccak hok hseek
      exact @nextStep_stackOk keccak { it₀ with err := none } _ _ _ hsought h
  · exact nextStep_stackOk keccak hok h

theorem newNodeIterator_stackOk {fuel : Nat} {trie : Trie} {start : List UInt8} {it : NodeIterator}
    (h : newNodeIterator keccak fuel trie start = some it) : StackOk it.stack it.path := by
  unfold newNodeIterator at h
  split at h
  · cases h
  · split at h
    · cases h
      trivial
    · obtain ⟨⟨err, it₀⟩, hseek, rfl⟩ := Option.map_eq_some_iff.mp h
      exact (@seek_stackOk keccak _ ⟨_, [], [], none⟩ _ _ _ trivial hseek :)

/-! ## Runs -/

/-- The calls `Next(descend)` of `calls` one after another, each made while the trie reads the
database given with it: what the calls returned and the iterator after them. -/
def runNext (fuel : Nat) : NodeIterator → List (Option MemDatabase × Bool) → Option (List Bool × NodeIterator)
  | it, [] => some ([], it)
  | it, (db, descend) :: calls =>
    match Next keccak fuel { it with trie := it.trie.map fun tr => { tr with db } } descend with
    | none => none
    | some (b, it) => (runNext fuel it calls).map fun (bs, it) => (b :: bs, it)

theorem runNext_stackOk {fuel : Nat} :
    ∀ {it : NodeIterator} {calls : List (Option MemDatabase × Bool)} {bs : List Bool} {it' : NodeIterator},
      StackOk it.stack it.path → runNext keccak fuel it calls = some (bs, it') → StackOk it'.stack it'.path
  | it, [], bs, it', hok, h => by
    rw [runNext] at h
    cases h
    exact hok
  | it, (db, descend) :: calls, bs, it', hok, h => by
    rw [runNext] at h
    split at h
    · cases h
    · rename_i b it₁ hnext
      obtain ⟨⟨bs₁, it₂⟩, hrun, hit⟩ := Option.map_eq_some_iff.mp h
      cases hit
      exact runNext_stackOk (@Next_stackOk keccak _ { it with trie := it.trie.map fun tr => { tr with db } } _ _ _
        hok hnext) hrun

/-- Every iterator that `NodeIterator` creates and any calls of `Next` then move, on any
databases and through any errors, keeps its stack and path in the invariant. -/
theorem NodeIterator_run_stackOk (fuel : Nat) (trie : Trie) (start : List UInt8) (it : NodeIterator)
    (hnew : newNodeIterator keccak fuel trie start = some it) (calls : List (Option MemDatabase × Bool))
    (bs : List Bool) (it' : NodeIterator) (hrun : runNext keccak fuel it calls = some (bs, it')) :
    StackOk it'.stack it'.path :=
  runNext_stackOk keccak (newNodeIterator_stackOk keccak hnew) hrun

/-! ## Retrying `Next(false)` after a missing node -/

def afterPeek (it : NodeIterator) :
    List NodeIteratorState × List UInt8 × Except IteratorError (NodeIteratorState × List UInt8) →
      Bool × NodeIterator
  | (S, q, .error err) => (false, { it with stack := S, path := q, err := some err })
  | (S, _, .ok (st, childPath)) => (true, { it with stack := st :: bumpTop S, path := childPath, err := none })

theorem nextStep_false_cons (it : NodeIterator) {top : NodeIteratorState} {rest : List NodeIteratorState}
    (hs : it.stack = top :: rest) :
    nextStep keccak it false = (peekLoop it.trie rest (it.path.take top.pathlen)).map (afterPeek it) := by
  unfold nextStep peek
  simp only [hs, Bool.false_eq_true, if_false]
  rcases peekLoop it.trie rest (it.path.take top.pathlen) with _ | ⟨S, q, _ | ⟨st, childPath⟩⟩ <;> rfl

theorem Next_of_trieError {fuel : Nat} {it : NodeIterator}
    (h : it.err = none ∨ ∃ e, it.err = some (.trieError e)) (descend : Bool) :
    Next keccak fuel it descend = nextStep keccak it descend := by
  unfold Next
  rcases h with h | ⟨e, h⟩ <;> rw [h]

theorem peekLoop_fail_ok {tr₁ tr₂ : Option Trie} :
    ∀ {S : List NodeIteratorState} {q : List UInt8} {S₁ S₂ : List NodeIteratorState} {q₁ q₂ : List UInt8}
      {e : TrieError} {st : NodeIteratorState} {r : List UInt8},
      peekLoop tr₁ S q = some (S₁, q₁, .error (.trieError e)) →
        peekLoop tr₂ S q = some (S₂, q₂, .ok (st, r)) → S₁ = S₂ ∧ q₁ = q₂ ∧ S₁ ≠ [] ∧ q₁ <+: r
  | [], _, _, _, _, _, _, _, _, h₁, _ => by
    rw [peekLoop] at h₁
    cases h₁
  | parent :: rest, q, _, _, _, _, _, _, _, h₁, h₂ => by
    rw [peekLoop] at h₁ h₂
    rcases hnext : nextChild q parent parent.ancestor with _ | _ | ⟨parent', st₀, childPath⟩
    · rw [hnext] at h₁
      cases h₁
    · rw [hnext] at h₁ h₂
      exact peekLoop_fail_ok h₁ h₂
    · rw [hnext] at h₁ h₂
      simp only at h₁ h₂
      split at h₁
      · cases h₁
      · cases h₁
        split at h₂
        · cases h₂
        · cases h₂
        · cases h₂
          exact ⟨rfl, rfl, List.cons_ne_nil _ _, nextChild_prefix hnext⟩
      · cases h₁

theorem ofNat_eq_ofNat {a b : Nat} (ha : a < 256) (hb : b < 256) (h : UInt8.ofNat a = UInt8.ofNat b) :
    a = b := by
  have := congrArg UInt8.toNat h
  simp only [UInt8.toNat_ofNat', Nat.reducePow] at this
  omega

/-- Under a top that keeps the invariant, the loop of `peek` on the rest of the stack finds a
child whose path leaves `path`: every state under the top has handed out the child towards the
top, so the next child to come branches off before `path` ends. -/
theorem peekLoop_leaves_path {tr : Option Trie} :
    ∀ {S : List NodeIteratorState} {T : NodeIteratorState} {p : List UInt8} {S' : List NodeIteratorState}
      {q' : List UInt8} {st : NodeIteratorState} {r : List UInt8},
      StackOk (T :: S) p → peekLoop tr S (p.take T.pathlen) = some (S', q', .ok (st, r)) → ¬ p <+: r
  | [], _, _, _, _, _, _, _, h => by
    rw [peekLoop] at h
    cases h
  | A :: S, T, p, S', q', st, r, hok, h => by
    rw [peekLoop] at h
    have hhanded : Handed A T.pathlen p := hok.1.handed
    rcases hnext : nextChild (p.take T.pathlen) A A.ancestor with _ | _ | ⟨A', st₀, childPath⟩
    · rw [hnext] at h
      cases h
    · rw [hnext] at h
      intro hpr
      exact peekLoop_leaves_path hok.pop h ((List.take_prefix _ _).trans hpr)
    · rw [hnext] at h
      simp only at h
      have hr : r = childPath := by
        split at h
        · cases h
        · cases h
        · cases h
          rfl
      subst hr
      obtain ⟨-, -, ⟨children, flags, i, hnode, hle, -, hcp⟩ | ⟨key, val, flags, hnode, hneg, -, -⟩⟩ :=
        nextChild_eq_some hnext
      · -- the full node hands out a later nibble than the one `p` goes on with
        unfold Handed at hhanded
        rw [hnode] at hhanded
        obtain ⟨hidx, hat⟩ := hhanded
        rintro ⟨t, ht⟩
        have hlt : T.pathlen < p.length := (List.getElem?_eq_some_iff.mp hat).1
        have hq : (p.take T.pathlen).length = T.pathlen := List.length_take_of_le hok.1.pathlen_le
        have hnib : (p ++ t)[T.pathlen]? = some (UInt8.ofNat i.val) := by
          have hend : (p.take T.pathlen ++ [UInt8.ofNat i.val])[(p.take T.pathlen).length]? =
              some (UInt8.ofNat i.val) := List.getElem?_concat_length
          rw [hq] at hend
          rw [ht, hcp, hend]
        rw [List.getElem?_append_left hlt, hat, Option.some.injEq] at hnib
        have := ofNat_eq_ofNat (by omega) (by omega) hnib
        omega
      · -- a short node under the top has already handed out its one child
        unfold Handed at hhanded
        rw [hnode] at hhanded
        omega

/-- A call `Next(false)` that fails on a missing node has already popped the current node, and
leaves the parent whose child it could not load on top. Retried once the database has the node
again, the call pops that parent too: it does not return the node that the same call returns on
the database that had it all along, whose path goes on from the failed call's path. -/
theorem Next_false_retry_skips (fuel : Nat) (it : NodeIterator) (tr tr' : Trie)
    (hok : StackOk it.stack it.path) (hstack : it.stack ≠ []) (herr : it.err = none)
    (it₁ it₂ it₃ : NodeIterator) (e : TrieError)
    (hfail : Next keccak fuel { it with trie := some tr' } false = some (false, it₁))
    (hmissing : it₁.err = some (.trieError e))
    (hintact : Next keccak fuel { it with trie := some tr } false = some (true, it₂))
    (hretry : Next keccak fuel { it₁ with trie := some tr } false = some (true, it₃)) :
    it₃.path ≠ it₂.path := by
  obtain ⟨top, rest, hs⟩ := List.exists_cons_of_ne_nil hstack
  rw [hs] at hok
  rw [@Next_of_trieError keccak _ { it with trie := some tr' } (.inl herr),
    nextStep_false_cons keccak { it with trie := some tr' } hs] at hfail
  rw [@Next_of_trieError keccak _ { it with trie := some tr } (.inl herr),
    nextStep_false_cons keccak { it with trie := some tr } hs] at hintact
  obtain ⟨⟨S₁, q₁, res₁⟩, hloop₁, hafter₁⟩ := Option.map_eq_some_iff.mp hfail
  obtain ⟨⟨S₂, q₂, res₂⟩, hloop₂, hafter₂⟩ := Option.map_eq_some_iff.mp hintact
  rcases res₁ with err₁ | ⟨st₁, r₁⟩
  · rcases res₂ with err₂ | ⟨st₂, r₂⟩
    · cases hafter₂
    · cases hafter₁
      cases hafter₂
      cases hmissing
      -- both calls stop at the same parent, and the intact one goes on from its path
      obtain ⟨-, -, hne, hpre⟩ := peekLoop_fail_ok hloop₁ hloop₂
      have hok₁ := (peekLoop_stackOk hok.pop hloop₁).1
      obtain ⟨T, rest₁, hs₁⟩ := List.exists_cons_of_ne_nil hne
      rw [Next_of_trieError keccak (.inr ⟨e, rfl⟩), nextStep_false_cons keccak _ hs₁] at hretry
      obtain ⟨⟨S₃, q₃, res₃⟩, hloop₃, hafter₃⟩ := Option.map_eq_some_iff.mp hretry
      rcases res₃ with err₃ | ⟨st₃, r₃⟩
      · cases hafter₃
      · cases hafter₃
        rw [hs₁] at hok₁
        -- the retry pops the parent and leaves the failed call's path
        intro hpath
        have hr : r₃ = r₂ := hpath
        exact peekLoop_leaves_path hok₁ hloop₃ (hr ▸ hpre)
  · cases hafter₁

end

/-! ### A retry that skips a stored leaf

The root is a full node with a full node at nibble 0 and a leaf at nibble 2; the full node holds
an embedded leaf at nibble 0 and a leaf stored under its hash at nibble 1. The iterator stands
at the embedded leaf, and the database has lost the stored one. -/

def retryStoredLeaf : Tree := .short [1, 16] (.value (List.replicate 32 7))

def retryLeafHash : List UInt8 := List.replicate 32 1

def retryFull : Node :=
  .fullNode (fun i => if i = 0 then .shortNode [3, 16] (.valueNode [1]) ⟨none, 0, false⟩
    else if i = 1 then .hashNode retryLeafHash else .nil) ⟨none, 0, false⟩

def retryRoot : Node :=
  .fullNode (fun i => if i = 0 then retryFull
    else if i = 2 then .shortNode [4, 16] (.valueNode [2]) ⟨none, 0, false⟩ else .nil) ⟨none, 0, false⟩

def retryTrie (db : MemDatabase) : Trie := ⟨retryRoot, some db, zeroHash, 0, 0⟩

def retryDb : MemDatabase := [(retryLeafHash, retryStoredLeaf.enc fun _ => List.replicate 32 0)]

def retryAtLeaf : NodeIterator :=
  ⟨some (retryTrie retryDb),
    [⟨zeroHash, .shortNode [3, 16] (.valueNode [1]) ⟨none, 0, false⟩, zeroHash, -1, 1⟩,
      ⟨zeroHash, retryFull, zeroHash, 0, 0⟩, ⟨zeroHash, retryRoot, zeroHash, 0, 0⟩], [0, 0], none⟩

theorem retryTrie_resolveHash :
    (retryTrie retryDb).resolveHash retryLeafHash [0, 1] =
      some (.ok (retryStoredLeaf.decoded (fun _ => List.replicate 32 0) 0 (some retryLeafHash))) := by
  have hk32 : ∀ b : List UInt8, ((fun _ => List.replicate 32 0) b : List UInt8).length = 32 :=
    fun _ => List.length_replicate
  have hT : retryStoredLeaf.Canon :=
    .inl ⟨⟨[1], fun x hx => by simp only [List.mem_singleton] at hx; subst hx; decide, rfl⟩, _, rfl,
      by simp⟩
  have hlen : (retryStoredLeaf.enc fun _ => List.replicate 32 0).length < 2 ^ 64 := by decide
  have hdec := @decodeNode_enc _ 0 hk32 retryStoredLeaf hT hlen (some retryLeafHash) []
  rw [List.append_nil] at hdec
  have hget : KVStore.get retryDb retryLeafHash = some (retryStoredLeaf.enc fun _ => List.replicate 32 0) :=
    rfl
  unfold Trie.resolveHash
  simp only [retryTrie]
  rw [hget]
  simp only
  rw [hdec]

theorem Next_false_retry_skips_stored_leaf :
    ∃ it₁ it₂ it₃ : NodeIterator, ∃ e : TrieError,
      StackOk retryAtLeaf.stack retryAtLeaf.path ∧ retryAtLeaf.stack ≠ [] ∧ retryAtLeaf.err = none ∧
      Next (fun _ => List.replicate 32 0) 1 { retryAtLeaf with trie := some (retryTrie []) } false =
        some (false, it₁) ∧ it₁.err = some (.trieError e) ∧
      Next (fun _ => List.replicate 32 0) 1 { retryAtLeaf with trie := some (retryTrie retryDb) } false =
        some (true, it₂) ∧
      Next (fun _ => List.replicate 32 0) 1 { it₁ with trie := some (retryTrie retryDb) } false =
        some (true, it₃) ∧
      it₂.path = [0, 1] ∧ it₃.path = [2] ∧ it₃.path ≠ it₂.path := by
  have hok : StackOk retryAtLeaf.stack retryAtLeaf.path :=
    ⟨⟨by decide, by decide, ⟨le_refl _, rfl⟩⟩, ⟨by decide, by decide, ⟨le_refl _, rfl⟩⟩,
      ⟨by decide, by decide, trivial⟩, trivial⟩
  have hfail : Next (fun _ => List.replicate 32 0) 1 { retryAtLeaf with trie := some (retryTrie []) } false =
      some (false, ⟨some (retryTrie []), [⟨zeroHash, retryFull, zeroHash, 0, 0⟩, ⟨zeroHash, retryRoot, zeroHash, 0, 0⟩],
        [0], some (.trieError (.MissingNodeError (bytesToHash retryLeafHash) [0, 1]))⟩) := rfl
  -- on the database that has it, the stored leaf loads and goes on the stack
  have hnext : nextChild ([0, 0].take 1) ⟨zeroHash, retryFull, zeroHash, 0, 0⟩ zeroHash =
      some (some (⟨zeroHash, retryFull, zeroHash, 0, 0⟩,
        ⟨bytesToHash [], .hashNode retryLeafHash, zeroHash, -1, 1⟩, [0, 1])) := rfl
  have hres : (⟨bytesToHash [], .hashNode retryLeafHash, zeroHash, -1, 1⟩ : NodeIteratorState).resolve
      (some (retryTrie retryDb)) [0, 1] =
        some (.ok ⟨bytesToHash retryLeafHash,
          retryStoredLeaf.decoded (fun _ => List.replicate 32 0) 0 (some retryLeafHash), zeroHash, -1, 1⟩) := by
    simp only [NodeIteratorState.resolve, retryTrie_resolveHash]
  have hintact : Next (fun _ => List.replicate 32 0) 1 { retryAtLeaf with trie := some (retryTrie retryDb) } false =
      some (true, ⟨some (retryTrie retryDb),
        [⟨bytesToHash retryLeafHash, retryStoredLeaf.decoded (fun _ => List.replicate 32 0) 0 (some retryLeafHash),
          zeroHash, -1, 1⟩, ⟨zeroHash, retryFull, zeroHash, 1, 0⟩, ⟨zeroHash, retryRoot, zeroHash, 0, 0⟩],
        [0, 1], none⟩) := by
    rw [Next_of_trieError _ (.inl rfl), nextStep_false_cons _ _ rfl]
    dsimp only [retryAtLeaf]
    rw [peekLoop_of_found hnext hres]
    rfl
  -- the retry pops the full node and moves on to the root's leaf at nibble 2
  have hretry : Next (fun _ => List.replicate 32 0) 1
      ⟨some (retryTrie retryDb), [⟨zeroHash, retryFull, zeroHash, 0, 0⟩, ⟨zeroHash, retryRoot, zeroHash, 0, 0⟩],
        [0], some (.trieError (.MissingNodeError (bytesToHash retryLeafHash) [0, 1]))⟩ false =
      some (true, ⟨some (retryTrie retryDb),
        [⟨bytesToHash [], .shortNode [4, 16] (.valueNode [2]) ⟨none, 0, false⟩, zeroHash, -1, 0⟩,
          ⟨zeroHash, retryRoot, zeroHash, 2, 0⟩], [2], none⟩) := rfl
  exact ⟨_, _, _, _, hok, List.cons_ne_nil _ _, rfl, hfail, rfl, hintact, hretry, rfl, rfl,
    Next_false_retry_skips _ 1 retryAtLeaf (retryTrie retryDb) (retryTrie []) hok (List.cons_ne_nil _ _) rfl
      _ _ _ _ hfail rfl hintact hretry⟩

/-! ### A run through a missing node

The root of `retryRoot` with its hash cached, as a hashed trie keeps it, over a database that has
lost the stored leaf: the seek to `[0]` stops under the full node at nibble `0`, the third call
fails to load the leaf, and `Next(false)` goes on to the root's leaf at nibble `2`. -/

def hashedRetryTrie : Trie :=
  ⟨.fullNode (fun i => if i = 0 then retryFull
    else if i = 2 then .shortNode [4, 16] (.valueNode [2]) ⟨none, 0, false⟩ else .nil)
      ⟨some zeroHash, 0, false⟩, some [], zeroHash, 0, 0⟩

theorem hashedRetryTrie_Hash (keccak : List UInt8 → List UInt8) :
    hashedRetryTrie.Hash keccak = some (bytesToHash zeroHash, hashedRetryTrie) := by
  unfold Trie.Hash Trie.hashRoot hashedRetryTrie
  dsimp only
  rw [hash]
  rfl

theorem newNodeIterator_hashedRetryTrie :
    newNodeIterator (fun _ => zeroHash) 3 hashedRetryTrie [0] =
      some ⟨some hashedRetryTrie, [⟨zeroHash, retryFull, zeroHash, -1, 0⟩,
        ⟨zeroHash, hashedRetryTrie.root, zeroHash, 0, 0⟩], [0], none⟩ := by
  simp only [newNodeIterator, hashedRetryTrie_Hash, NodeIterator.seek, NodeIterator.seekLoop,
    NodeIterator.peek]
  rfl

theorem NodeIterator_run_stackOk_missing_node :
    ∃ it bs it', newNodeIterator (fun _ => zeroHash) 3 hashedRetryTrie [0] = some it ∧
      runNext (fun _ => zeroHash) 3 it
          [(some [], true), (some [], true), (some [], true), (some [], false), (some [], true),
            (some [], true)] = some (bs, it') ∧
      bs = [true, true, false, true, true, false] ∧ StackOk it'.stack it'.path := by
  have h : ((newNodeIterator (fun _ => zeroHash) 3 hashedRetryTrie [0]).bind fun it =>
      runNext (fun _ => zeroHash) 3 it
        [(some [], true), (some [], true), (some [], true), (some [], false), (some [], true),
          (some [], true)]).map Prod.fst = some [true, true, false, true, true, false] := by
    rw [newNodeIterator_hashedRetryTrie]
    decide +kernel
  obtain ⟨⟨bs, it'⟩, hb, hbs⟩ := Option.map_eq_some_iff.mp h
  obtain ⟨it, hnew, hrun⟩ := Option.bind_eq_some_iff.mp hb
  exact ⟨it, bs, it', hnew, hrun, hbs,
    NodeIterator_run_stackOk _ 3 hashedRetryTrie [0] it hnew _ bs it' hrun⟩

end Zerium.Trie
