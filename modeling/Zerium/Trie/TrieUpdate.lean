import Zerium.Trie.TrieGet

/-! # Updates of the trie

`insert` and `delete` on nodes do what `Tree.insert` and `Tree.delete` do on the trees the
nodes stand for: the same answer to "did the trie change", and a node for the new tree. The
proofs follow the code and the tree operation case by case, in lockstep. New nodes get fresh
flags (no hash, dirty), so they satisfy the cache invariant whatever is below them; a node
the operation leaves alone keeps its flags.

Two things the tree operations do not have are settled here: a hash node on the way is
loaded, and stands for the same tree afterwards; and where `delete` looks at the shape of a
child (to merge short nodes), that child is never a hash node, as a child that changed is
never one and the single child left in a full node is loaded first.
-/

namespace Zerium.Trie

set_option autoImplicit false

variable {keccak : List UInt8 → List UInt8} {db : MemDatabase}

section

variable (t : Trie)

theorem expands_short_new (top : Bool) {key : List UInt8} {val : Node} {Tc : Tree}
    (h : Expands keccak db false val Tc) : Expands keccak db top (.shortNode key val t.newFlag) (.short key Tc) :=
  .short top key val _ Tc h (flagOk_dirty rfl rfl _) fun hd => absurd hd (by simp [Trie.newFlag])

theorem expands_full_new (top : Bool) {children : Fin 17 → Node} {Ts : Fin 17 → Tree}
    (h : ∀ i, Expands keccak db false (children i) (Ts i)) :
    Expands keccak db top (.fullNode children t.newFlag) (.full Ts) :=
  .full top children _ Ts h (flagOk_dirty rfl rfl _) fun hd => absurd hd (by simp [Trie.newFlag])

theorem expands_leaf_new {k : List UInt8} {n : Node} {T : Tree} (h : Expands keccak db false n T) :
    Expands keccak db false (if k = [] then n else .shortNode k n t.newFlag) (Tree.leaf k T) := by
  unfold Tree.leaf
  split
  · exact h
  · exact expands_short_new t false h

theorem remainingPos_of_expands {children : Fin 17 → Node} {Ts : Fin 17 → Tree}
    (h : ∀ i, Expands keccak db false (children i) (Ts i)) : remainingPos children = Tree.remainingPos Ts := by
  unfold remainingPos Tree.remainingPos
  congr 1
  funext i
  rw [(h i).isNil_eq]

theorem insert_nilNode (fuel : Nat) (pre k : List UInt8) (value : Node) :
    t.insert (fuel + 1) .nil pre k value =
      some (.ok (true, if k = [] then value else .shortNode k value t.newFlag)) := by
  by_cases hk : k = [] <;> simp [Trie.insert, hk]

end

theorem dirty_cases {α : Type} (d : Bool) (a b : α) : (if !d then (false, a) else (true, b)) = (d, if d then b else a) := by
  cases d <;> rfl

theorem dirty_cases_ok {ε α : Type} (d : Bool) (a b : α) :
    (if !d then some (.ok (false, a)) else some (.ok (true, b)) : Option (Except ε (Bool × α))) =
      some (.ok (d, if d then b else a)) := by
  cases d <;> rfl

section

variable (hk32 : ∀ b, (keccak b).length = 32) (hsmall : SmallValues db) {t : Trie} (hdb : t.db = some db)
include hk32 hsmall hdb

theorem insert_spec (v : List UInt8) : ∀ (fuel : Nat) (n : Node) (T : Tree) (top : Bool) (pre key : List UInt8),
    Expands keccak db top n T → T.Fits key → walkFuel n key.length ≤ fuel →
    ∃ n', t.insert fuel n pre key (.valueNode v) = some (.ok ((T.insert key v).1, n')) ∧
      Expands keccak db top n' (T.insert key v).2 := by
  intro fuel
  induction fuel with
  | zero =>
    intro n T top pre key _ _ hfuel
    exact absurd hfuel (by have := walkFuel_pos n key.length; omega)
  | succ fuel ih =>
    intro n T top pre key he hfit hfuel
    by_cases hk : key = []
    · -- the end of the key: the slot of a value
      subst hk
      obtain ⟨-, rfl | ⟨w, rfl⟩⟩ | ⟨hk, -⟩ := hfit
      · obtain rfl := he.eq_nil
        exact ⟨.valueNode v, by simp [Trie.insert, Tree.insert], .value top v⟩
      · obtain rfl := he.eq_valueNode
        exact ⟨.valueNode v, by simp [Trie.insert, Tree.insert], .value top v⟩
      · exact absurd rfl hk.ne_nil
    obtain ⟨hkey, hT⟩ : TermKey key ∧ T.CanonRoot := by
      rcases hfit with ⟨rfl, -⟩ | h
      · exact absurd rfl hk
      · exact h
    cases he with
    | nil =>
      rw [Tree.insert.eq_5 _ _ hk]
      exact ⟨_, by simp [Trie.insert, hk], expands_short_new t top (.value false v)⟩
    | value top w => exact absurd hT (by simp [Tree.CanonRoot, Tree.Canon])
    | short top nkey nval flags Tc hval hflags hclean =>
      have hc : (Tree.short nkey Tc).Canon := hT.resolve_left (by simp)
      rw [Trie.insert, if_neg hk, Tree.insert.eq_3 _ _ _ _ hk]
      dsimp only
      by_cases hm : prefixLen key nkey = nkey.length
      · -- the whole short key matches: insert the rest of the key into the child
        have hpre := (prefixLen_eq_right_iff key nkey).mp hm
        have hlen' : 0 < nkey.length := List.length_pos_iff.mpr hc.key_ne_nil
        have hfuel' : walkFuel nval (key.drop nkey.length).length ≤ fuel := by
          rw [walkFuel_of_isHashNode rfl] at hfuel
          have hw := walkFuel_le nval (key.drop nkey.length).length
          have hl := hpre.length_le
          simp only [List.length_drop] at hw ⊢
          omega
        obtain ⟨nn, hins, he'⟩ := ih nval Tc false (pre ++ key.take nkey.length) _ hval
          (hc.short_child hpre hkey) hfuel'
        rw [if_pos hm, if_pos hm, hm, hins]
        simp only [dirty_cases, dirty_cases_ok]
        refine ⟨_, rfl, ?_⟩
        cases (Tc.insert (key.drop nkey.length) v).1
        · exact .short top nkey nval flags Tc hval hflags hclean
        · exact expands_short_new t top he'
      · -- the keys part inside the short key: a branch with the two rests below it
        have hpre : ¬ nkey <+: key := fun h => hm ((prefixLen_eq_right_iff key nkey).mpr h)
        obtain ⟨c, i₁, i₂, nrest, krest, rfl, rfl, hi⟩ := hc.split hkey hpre
        rw [if_neg hm, if_neg hm]
        have hlen : prefixLen (c ++ nib i₂ :: krest) (c ++ nib i₁ :: nrest) = c.length :=
          prefixLen_append_cons c _ _ krest nrest (fun h => hi (nib_inj h).symm)
        have hdn : (c ++ nib i₁ :: nrest).drop (c.length + 1) = nrest := by simp [List.drop_append]
        have hdk : (c ++ nib i₂ :: krest).drop (c.length + 1) = krest := by simp [List.drop_append]
        obtain ⟨fuel, rfl⟩ : ∃ f, fuel = f + 1 := ⟨fuel - 1, by rw [walkFuel_of_isHashNode rfl] at hfuel; simp at hfuel; omega⟩
        simp only [hlen, List.getElem?_append_right (le_refl _), Nat.sub_self, List.getElem?_cons_zero,
          Option.bind_eq_bind, Option.bind_some, childIndex_nib, hdn, hdk, insert_nilNode, List.take_left' rfl]
        have hslots := Expands.update (Expands.update (fun _ => Expands.nil false)
          (expands_leaf_new t (k := nrest) hval) i₁) (expands_leaf_new t (k := krest) (Expands.value false v)) i₂
        by_cases hc0 : c.length = 0
        · simp only [hc0, if_true]
          exact ⟨_, rfl, expands_full_new t top hslots⟩
        · simp only [hc0, if_false]
          exact ⟨_, rfl, expands_short_new t top (expands_full_new t false hslots)⟩
    | full top children flags Ts hch hflags hclean =>
      have hc : (Tree.full Ts).Canon := hT.resolve_left (by simp)
      -- the first nibble of the key picks the slot
      obtain ⟨j, w, rfl, -⟩ := hkey.cons_nib
      have hfuel' : walkFuel (children j) w.length ≤ fuel := by
        rw [walkFuel_of_isHashNode rfl] at hfuel
        have := walkFuel_le (children j) w.length
        simp only [List.length_cons] at hfuel
        omega
      obtain ⟨nn, hins, he'⟩ := ih (children j) (Ts j) false (pre ++ [nib j]) w (hch j)
        (hc.full_child hkey) hfuel'
      rw [Trie.insert, if_neg hk, Tree.insert.eq_4 _ _ _ hk]
      simp only [List.getElem?_cons_zero, Option.bind_eq_bind, Option.bind_some, childIndex_nib,
        List.take_succ_cons, List.take_zero, List.drop_succ_cons, List.drop_zero, hins, dirty_cases,
        dirty_cases_ok]
      refine ⟨_, rfl, ?_⟩
      cases ((Ts j).insert w v).1
      · exact .full top children flags Ts hch hflags hclean
      · exact expands_full_new t top (Expands.update hch he' j)
    | hash top h T hs =>
      -- load the node and insert into it
      obtain ⟨rn, hrn, he', -, hh⟩ := resolveHash_spec hk32 hsmall hdb hs pre
      have hfuel' : walkFuel rn key.length ≤ fuel := by
        rw [walkFuel_hashNode] at hfuel
        rw [walkFuel_of_isHashNode hh]
        omega
      obtain ⟨nn, hins, he''⟩ := ih rn T top pre key he' (.inr ⟨hkey, hT⟩) hfuel'
      rw [Trie.insert, if_neg hk]
      simp only [hrn, hins, dirty_cases_ok]
      refine ⟨_, rfl, ?_⟩
      cases hd : (T.insert key v).1
      · rw [Tree.insert_unchanged T key v hd]
        exact he'
      · exact he''

theorem delete_spec : ∀ (fuel : Nat) (n : Node) (T : Tree) (top : Bool) (pre key : List UInt8),
    Expands keccak db top n T → T.Fits key → walkFuel n key.length ≤ fuel →
    ∃ n', t.delete fuel n pre key = some (.ok ((T.delete key).1, n')) ∧
      Expands keccak db top n' (T.delete key).2 ∧ ((T.delete key).1 = true → n'.isHashNode = false) := by
  intro fuel
  induction fuel with
  | zero =>
    intro n T top pre key _ _ hfuel
    exact absurd hfuel (by have := walkFuel_pos n key.length; omega)
  | succ fuel ih =>
    intro n T top pre key he hfit hfuel
    cases he with
    | nil => exact ⟨.nil, by simp [Trie.delete, Tree.delete], .nil top, fun _ => rfl⟩
    | value top w => exact ⟨.nil, by simp [Trie.delete, Tree.delete], .nil top, fun _ => rfl⟩
    | short top nkey nval flags Tc hval hflags hclean =>
      obtain ⟨hkey, hc⟩ := hfit.termKey_canon rfl
      rw [Trie.delete]
      simp only [Tree.delete]
      by_cases h1 : prefixLen key nkey < nkey.length
      · -- the key leaves the short key: nothing to delete
        rw [if_pos h1, if_pos h1]
        exact ⟨_, rfl, .short top nkey nval flags Tc hval hflags hclean, fun h => absurd h (by simp)⟩
      rw [if_neg h1, if_neg h1]
      by_cases h2 : prefixLen key nkey = key.length
      · -- the key ends with the short key: the leaf goes
        rw [if_pos h2, if_pos h2]
        exact ⟨_, rfl, .nil top, fun _ => by rfl⟩
      rw [if_neg h2, if_neg h2]
      -- the key goes on below the short key: delete the rest from the child
      have hm : prefixLen key nkey = nkey.length := by have := prefixLen_le_right key nkey; omega
      have hpre := (prefixLen_eq_right_iff key nkey).mp hm
      have hlen' : 0 < nkey.length := List.length_pos_iff.mpr hc.key_ne_nil
      have hfuel' : walkFuel nval (key.drop nkey.length).length ≤ fuel := by
        rw [walkFuel_of_isHashNode rfl] at hfuel
        have hw := walkFuel_le nval (key.drop nkey.length).length
        have hl := hpre.length_le
        simp only [List.length_drop] at hw ⊢
        omega
      obtain ⟨child, hdel, he', hh'⟩ := ih nval Tc false (pre ++ key.take nkey.length) _ hval
        (hc.short_child hpre hkey) hfuel'
      rw [hdel]
      cases hd : (Tc.delete (key.drop nkey.length)).1
      · simp only [Bool.not_false, if_true]
        exact ⟨_, rfl, .short top nkey nval flags Tc hval hflags hclean, fun h => absurd h (by simp)⟩
      · simp only [Bool.not_true, Bool.false_eq_true, if_false]
        -- a short child merges into this short node; the child is not a hash node
        have hh := hh' hd
        generalize (Tc.delete (key.drop nkey.length)).2 = T' at he' ⊢
        cases he' with
        | nil => exact ⟨_, rfl, expands_short_new t top (.nil false), fun _ => by rfl⟩
        | value _ w => exact ⟨_, rfl, expands_short_new t top (.value false w), fun _ => by rfl⟩
        | short _ ckey cval _ Tcv hcval _ _ => exact ⟨_, rfl, expands_short_new t top hcval, fun _ => by rfl⟩
        | full _ cch cflags Ts' hch' hcf hcc =>
          exact ⟨_, rfl, expands_short_new t top (.full false cch cflags Ts' hch' hcf hcc), fun _ => by rfl⟩
        | hash => cases hh
    | full top children flags Ts hch hflags hclean =>
      obtain ⟨hkey, hc⟩ := hfit.termKey_canon rfl
      -- the first nibble of the key picks the slot
      obtain ⟨j, w, rfl, -⟩ := hkey.cons_nib
      have hfuel' : walkFuel (children j) w.length ≤ fuel := by
        rw [walkFuel_of_isHashNode rfl] at hfuel
        have := walkFuel_le (children j) w.length
        simp only [List.length_cons] at hfuel
        omega
      obtain ⟨nn, hdel, he', hh'⟩ := ih (children j) (Ts j) false (pre ++ [nib j]) w (hch j)
        (hc.full_child hkey) hfuel'
      rw [Trie.delete]
      simp only [Tree.delete, List.getElem?_cons_zero, Option.bind_eq_bind, Option.bind_some, childIndex_nib,
        List.take_succ_cons, List.take_zero, List.drop_succ_cons, List.drop_zero, hdel]
      cases hd : ((Ts j).delete w).1
      · simp only [Bool.not_false, if_true]
        exact ⟨_, rfl, .full top children flags Ts hch hflags hclean, fun h => absurd h (by simp)⟩
      simp only [Bool.not_true, Bool.false_eq_true, if_false]
      -- the slots after the deletion, and the position of the only one left, if so
      have hch' := Expands.update hch he' j
      rw [remainingPos_of_expands hch']
      generalize Tree.remainingPos (Function.update Ts j ((Ts j).delete w).2) = pos
      by_cases hpos : pos ≥ 0
      · rw [if_pos hpos, if_pos hpos]
        by_cases h16 : pos ≠ 16
        · -- one nibble slot is left: load it, to merge it if it is a short node
          rw [if_pos h16, if_pos h16]
          obtain ⟨n'', hres, he'', hh'', -⟩ := resolve_spec hk32 hsmall hdb (hch' (Fin.ofNat 17 pos.toNat)) pre
          rw [hres]
          have hslot := hch' (Fin.ofNat 17 pos.toNat)
          generalize Function.update Ts j ((Ts j).delete w).2 (Fin.ofNat 17 pos.toNat) = Tp at he'' hslot ⊢
          cases he'' with
          | nil => exact ⟨_, rfl, expands_short_new t top hslot, fun _ => by rfl⟩
          | value _ v => exact ⟨_, rfl, expands_short_new t top hslot, fun _ => by rfl⟩
          | short _ ckey cval _ Tcv hcval _ _ => exact ⟨_, rfl, expands_short_new t top hcval, fun _ => by rfl⟩
          | full => exact ⟨_, rfl, expands_short_new t top hslot, fun _ => by rfl⟩
          | hash => cases hh''
        · -- only the value slot is left
          rw [if_neg h16, if_neg h16]
          exact ⟨_, rfl, expands_short_new t top (hch' _), fun _ => by rfl⟩
      · -- two slots or more are left
        rw [if_neg hpos, if_neg hpos]
        exact ⟨_, rfl, expands_full_new t top hch', fun _ => by rfl⟩
    | hash top h T hs =>
      -- load the node and delete from it
      obtain ⟨rn, hrn, he', -, hh⟩ := resolveHash_spec hk32 hsmall hdb hs pre
      have hfuel' : walkFuel rn key.length ≤ fuel := by
        rw [walkFuel_hashNode] at hfuel
        rw [walkFuel_of_isHashNode hh]
        omega
      obtain ⟨nn, hdel, he'', hh''⟩ := ih rn T top pre key he' hfit hfuel'
      rw [Trie.delete]
      simp only [hrn, hdel, dirty_cases_ok]
      refine ⟨_, rfl, ?_, ?_⟩
      · cases hd : (T.delete key).1
        · rw [Tree.delete_unchanged T key hd]
          exact he'
        · exact he''
      · intro hd
        rw [if_pos hd]
        exact hh'' hd

end

end Zerium.Trie
