import Zerium.Trie.Expand

/-! # What the hasher computes

`hash_spec`: hashing a node that stands for a canonical tree `T` collapses it to the reference
`T.ref` (to the hash of `T`'s encoding at the root), replaces it by a copy that still stands
for `T` and carries valid cache flags, and writes, when storing, every node that its parent
refers to by hash, each under the hash of its encoding. The proof follows the recursion of
the hasher, on the derivation of `Expands`.
-/

namespace Zerium.Trie

set_option autoImplicit false

open Zerium.Rlp

/-- The hash that `hash` caches in the copy of a node: that of the hash node `store` returned. -/
def hashOf : Node → Option (List UInt8)
  | .hashNode h => some h
  | _ => none

theorem cacheHash_short (key : List UInt8) (val : Node) (flags : NodeFlag) (hashed : Node) (storing : Bool) :
    cacheHash (.shortNode key val flags) hashed storing =
      .shortNode key val { flags with hash := hashOf hashed, dirty := if storing then false else flags.dirty } := by
  cases hashed <;> rfl

theorem cacheHash_full (children : Fin 17 → Node) (flags : NodeFlag) (hashed : Node) (storing : Bool) :
    cacheHash (.fullNode children flags) hashed storing =
      .fullNode children { flags with hash := hashOf hashed, dirty := if storing then false else flags.dirty } := by
  cases hashed <;> rfl

section

variable (keccak : List UInt8 → List UInt8)

/-- `store` on a short or full node whose cached hash, if any, is the hash of its encoding:
below 32 bytes and not forced the node stays, else it becomes the hash of its encoding,
written when storing. -/
theorem store_eq (n : Node) (storing force : Bool) (hnil : n ≠ .nil) (hhash : ∀ h, n ≠ .hashNode h)
    (hcache : ∀ h d, n.cache = some (some h, d) → h = keccak (encodeNode n)) :
    store keccak n storing force =
      if (encodeNode n).length < 32 ∧ force = false then (n, [])
      else (.hashNode (keccak (encodeNode n)),
        if storing then [(keccak (encodeNode n), encodeNode n)] else []) := by
  rw [store.eq_3 keccak n storing force hnil hhash]
  by_cases hsmall : (encodeNode n).length < 32 ∧ force = false
  · rw [if_pos (by simpa using hsmall), if_pos hsmall]
  · rw [if_neg (by simpa using hsmall), if_neg hsmall]
    dsimp only
    -- the hash cached in the node, when there is one, is the hash of its encoding
    split
    · next h d hc => rw [hcache h d hc]
    · rfl

variable (g l : UInt16)

/-- The walk of `hash`: the children first, then `store`, then the hash cached in the copy. -/
def hashWalk (n : Node) (storing force : Bool) : Option (Node × Node × Writes) :=
  (hashChildren keccak g l n storing).map fun (collapsed, cached, w₁) =>
    let (hashed, w₂) := store keccak collapsed storing force
    (hashed, cacheHash cached hashed storing, w₁ ++ w₂)

theorem hash_eq (n : Node) (storing force : Bool) :
    hash keccak g l n storing force =
      match n.cache with
      | none => none
      | some (some h, dirty) =>
        if !storing then some (.hashNode h, n, [])
        else if n.canUnload g l then some (.hashNode h, .hashNode h, [])
        else if !dirty then some (.hashNode h, n, [])
        else hashWalk keccak g l n storing force
      | some (none, _) => hashWalk keccak g l n storing force := by
  rw [hash]
  rfl

end

section

variable (keccak : List UInt8 → List UInt8)

/-- What `hash` returns for a node `n` standing for `T`, hashed as the root (`top`) or as a
child. -/
structure HashSpec (db : MemDatabase) (top storing : Bool) (n : Node) (T : Tree)
    (r : Node × Node × Writes) : Prop where
  collapsed : r.1.toValue = if top then .bytes (keccak (T.enc keccak)) else T.ref keccak
  cached : Expands keccak (KVStore.putAll db r.2.2) top r.2.1 T
  dirty : r.2.1.isDirty = (if storing then false else n.isDirty)
  writes : KVStore.ContentAddressed keccak (T.encodings keccak) r.2.2
  nowrite : storing = false → r.2.2 = []
  stored : storing = true → T.Persisted keccak (KVStore.putAll db r.2.2) ∧
    (top = true ∨ 32 ≤ (T.enc keccak).length →
      KVStore.get (KVStore.putAll db r.2.2) (keccak (T.enc keccak)) = some (T.enc keccak))
  root : top = true → r.1 = .hashNode (keccak (T.enc keccak))

/-- What `hashChildren` returns for a short or full node with flags `flags` standing for `T`:
the collapsed node, and a copy that stands for `T` under any flags that fit it. -/
structure ChildrenSpec (db : MemDatabase) (top storing : Bool) (flags : NodeFlag) (T : Tree)
    (r : Node × Node × Writes) : Prop where
  value : r.1.toValue = T.collapsed keccak
  cache : r.1.cache = some (flags.hash, flags.dirty)
  node : r.1 ≠ .nil ∧ ∀ h, r.1 ≠ .hashNode h
  cached : ∀ db' hashed, KVStore.Extends (KVStore.putAll db r.2.2) db' →
    FlagOk keccak db' top { flags with hash := hashOf hashed, dirty := if storing then false else flags.dirty } T →
    Expands keccak db' top (cacheHash r.2.1 hashed storing) T
  dirty : ∀ hashed, (cacheHash r.2.1 hashed storing).isDirty = if storing then false else flags.dirty
  writes : KVStore.ContentAddressed keccak (T.encodings keccak) r.2.2
  nowrite : storing = false → r.2.2 = []
  persisted : storing = true → T.Persisted keccak (KVStore.putAll db r.2.2)

end

section

variable {keccak : List UInt8 → List UInt8} (g l : UInt16)

theorem toValue_hashNode_eq {top : Bool} {h : List UInt8} {T : Tree} (hT : T.isNode = true)
    (hok : HashOk keccak top h T) :
    (Node.hashNode h).toValue = if top then .bytes (keccak (T.enc keccak)) else T.ref keccak := by
  rw [Node.toValue, hok.1]
  cases top with
  | true => rfl
  | false =>
    have h32 := hok.2 rfl
    rw [if_neg (by simp), Tree.ref_of_isNode keccak hT, refOf]
    simp only [Tree.enc] at h32 ⊢
    rw [if_neg (not_lt.mpr h32)]

theorem hash_cached {db : MemDatabase} {top storing : Bool} {n : Node} {T : Tree} {h : List UInt8}
    {d : Bool} (hc : n.cache = some (some h, d)) (he : Expands keccak db top n T) (hT : T.Canon)
    (hok : HashOk keccak top h T) (hin : d = false → InDb keccak db h T) (hdirty : n.isDirty = d)
    (hunload : n.canUnload g l = true → d = false) (hnot : ¬ (storing = true ∧ d = true)) :
    ∃ r, hash keccak g l n storing top = some r ∧ HashSpec keccak db top storing n T r := by
  have hval := toValue_hashNode_eq (Tree.isNode_of_canon hT) hok
  rw [hash_eq, hc]
  cases storing with
  | false =>
    refine ⟨(.hashNode h, n, []), rfl, ⟨hval, he, by simp, .nil, fun _ => rfl, (fun h => by cases h),
      fun _ => congrArg _ hok.1⟩⟩
  | true =>
    have hd : d = false := by cases d <;> simp_all
    have hinDb := hin hd
    have hstored : T.Persisted keccak (KVStore.putAll db []) ∧
        (top = true ∨ 32 ≤ (T.enc keccak).length →
          KVStore.get (KVStore.putAll db []) (keccak (T.enc keccak)) = some (T.enc keccak)) :=
      ⟨hinDb.2, fun _ => hok.1 ▸ hinDb.1⟩
    by_cases hu : n.canUnload g l = true
    · refine ⟨(.hashNode h, .hashNode h, []), by simp [hu], ⟨hval, .hash top h T ⟨hT, hok, hinDb⟩, rfl, .nil, (fun h => by cases h),
        fun _ => hstored, fun _ => congrArg _ hok.1⟩⟩
    · refine ⟨(.hashNode h, n, []), by simp [hu, hd], ⟨hval, he, by simp [hdirty, hd], .nil, (fun h => by cases h),
        fun _ => hstored, fun _ => congrArg _ hok.1⟩⟩

theorem hashWalk_spec {S : List (List UInt8)} {db : MemDatabase} (hinj : KVStore.HashInjOn keccak S)
    (hdb : KVStore.ContentAddressed keccak S db) {top storing : Bool} {n : Node} {flags : NodeFlag}
    {T : Tree} (hT : T.Canon) (hS : T.encodings keccak ⊆ S)
    (hwalk : flags.hash = none ∨ (storing = true ∧ flags.hash = some (keccak (T.enc keccak))))
    (hsmall : flags.hash = none → flags.dirty = false → top = false ∧ (T.enc keccak).length < 32)
    (hdirty : n.isDirty = flags.dirty) {col cac : Node} {w₁ : Writes}
    (hr₀ : hashChildren keccak g l n storing = some (col, cac, w₁))
    (hc : ChildrenSpec keccak db top storing flags T (col, cac, w₁)) :
    ∃ r, hashWalk keccak g l n storing top = some r ∧ HashSpec keccak db top storing n T r := by
  have hval : col.toValue = T.collapsed keccak := hc.value
  have hcache : col.cache = some (flags.hash, flags.dirty) := hc.cache
  have hcol : col ≠ .nil ∧ ∀ h, col ≠ .hashNode h := hc.node
  have hcached : ∀ db' hashed, KVStore.Extends (KVStore.putAll db w₁) db' →
      FlagOk keccak db' top { flags with hash := hashOf hashed, dirty := if storing then false else flags.dirty } T →
      Expands keccak db' top (cacheHash cac hashed storing) T := hc.cached
  have hcdirty : ∀ hashed, (cacheHash cac hashed storing).isDirty = if storing then false else flags.dirty :=
    hc.dirty
  have hwrites : KVStore.ContentAddressed keccak (T.encodings keccak) w₁ := hc.writes
  have hnowrite : storing = false → w₁ = [] := hc.nowrite
  have hpersisted : storing = true → T.Persisted keccak (KVStore.putAll db w₁) := hc.persisted
  have henc : encodeNode col = T.enc keccak := by rw [encodeNode, hval]; rfl
  have hstore := store_eq keccak col storing top hcol.1 hcol.2 (fun h d hc' => by
    rw [hcache] at hc'
    have hh : flags.hash = some h := (Prod.mk.inj (Option.some.inj hc')).1
    rcases hwalk with hw | ⟨-, hw⟩
    · rw [hw] at hh
      cases hh
    · rw [henc, ← Option.some.inj (hw.symm.trans hh)])
  rw [henc] at hstore
  have hdb₁ : KVStore.ContentAddressed keccak S (KVStore.putAll db w₁) :=
    hdb.after_putAll (hwrites.mono hS)
  have hnode := Tree.isNode_of_canon hT
  unfold hashWalk
  rw [hr₀, Option.map_some]
  dsimp only
  rw [hstore]
  by_cases hsm : (T.enc keccak).length < 32 ∧ top = false
  · -- the node stays embedded in its parent
    rw [if_pos hsm]
    have hnone : hashOf col = none := by
      cases hr : col with
      | hashNode h => exact absurd hr (hcol.2 h)
      | _ => rfl
    refine ⟨_, rfl, ⟨?_, ?_, ?_, ?_, ?_, ?_, fun htop => absurd (hsm.2 ▸ htop) (by simp)⟩⟩
    · show col.toValue = _
      rw [hsm.2, if_neg (by simp), Tree.ref_of_isNode keccak hnode, refOf, hval]
      simp only [Tree.enc] at hsm
      rw [if_pos hsm.1]
    · show Expands keccak (KVStore.putAll db (w₁ ++ [])) top (cacheHash cac col storing) T
      rw [List.append_nil]
      refine hcached _ col (KVStore.Extends.refl _) ⟨fun h hh => ?_, fun _ _ => ⟨hsm.2, hsm.1⟩⟩
      rw [hnone] at hh
      cases hh
    · show (cacheHash cac col storing).isDirty = _
      rw [hcdirty, hdirty]
    · show KVStore.ContentAddressed keccak (T.encodings keccak) (w₁ ++ [])
      rw [List.append_nil]
      exact hwrites
    · intro hs
      show w₁ ++ [] = []
      rw [List.append_nil]
      exact hnowrite hs
    · intro hs
      show T.Persisted keccak (KVStore.putAll db (w₁ ++ [])) ∧ _
      rw [List.append_nil]
      refine ⟨hpersisted hs, fun hbig => ?_⟩
      rcases hbig with htop | hlen
      · rw [hsm.2] at htop
        cases htop
      · exact absurd hsm.1 (not_lt.mpr hlen)
  · -- the node is replaced by the hash of its encoding
    rw [if_neg hsm]
    have hw₂ : KVStore.ContentAddressed keccak (T.encodings keccak)
        (if storing then [(keccak (T.enc keccak), T.enc keccak)] else []) := by
      split
      · exact .single (Tree.enc_mem_encodings keccak hnode)
      · exact .nil
    have hext : KVStore.Extends (KVStore.putAll db w₁) (KVStore.putAll db (w₁ ++
        (if storing then [(keccak (T.enc keccak), T.enc keccak)] else []))) := by
      rw [KVStore.putAll_append]
      exact hdb₁.extends_putAll hinj (hw₂.mono hS)
    have hput : storing = true → KVStore.get (KVStore.putAll db (w₁ ++
        (if storing then [(keccak (T.enc keccak), T.enc keccak)] else []))) (keccak (T.enc keccak)) =
        some (T.enc keccak) := by
      intro hs
      rw [KVStore.putAll_append]
      refine KVStore.ContentAddressed.get_putAll_of_mem _ hinj (hw₂.mono hS) ?_
      simp [hs]
    refine ⟨_, rfl, ⟨?_, ?_, ?_, ?_, ?_, ?_, fun _ => rfl⟩⟩
    · show Value.bytes (keccak (T.enc keccak)) = _
      cases top with
      | true => rfl
      | false =>
        have hlen : 32 ≤ (T.enc keccak).length := not_lt.mp (fun h => hsm ⟨h, rfl⟩)
        rw [if_neg (by simp), Tree.ref_of_isNode keccak hnode, refOf]
        simp only [Tree.enc] at hlen ⊢
        rw [if_neg (not_lt.mpr hlen)]
    · refine hcached _ (.hashNode (keccak (T.enc keccak))) hext ⟨fun h hh => ?_, fun hh => by cases hh⟩
      obtain rfl : keccak (T.enc keccak) = h := Option.some.inj hh
      refine ⟨⟨rfl, fun htop => not_lt.mp (fun hlt => hsm ⟨hlt, htop⟩)⟩, fun hd => ?_⟩
      cases storing with
      | true => exact ⟨hput rfl, (hpersisted rfl).mono hext⟩
      | false =>
        rcases hwalk with hw | ⟨hs, -⟩
        · exact absurd ⟨(hsmall hw hd).2, (hsmall hw hd).1⟩ hsm
        · cases hs
    · show (cacheHash cac (.hashNode (keccak (T.enc keccak))) storing).isDirty = _
      rw [hcdirty, hdirty]
    · exact hwrites.append hw₂
    · intro hs
      show w₁ ++ _ = []
      rw [hnowrite hs, hs]
      rfl
    · intro hs
      exact ⟨(hpersisted hs).mono hext, fun _ => hput hs⟩

theorem hashChildren_short_spec {S : List (List UInt8)} {db : MemDatabase} {top storing : Bool}
    {key : List UInt8} {val : Node} {flags : NodeFlag} {T : Tree}
    (hval : Expands keccak db false val T) (hclean : flags.dirty = false → val.isDirty = false)
    (hT : (Tree.short key T).Canon) (hS : (Tree.short key T).encodings keccak ⊆ S)
    (ih : T.Canon → T.encodings keccak ⊆ S → ∀ storing,
      ∃ r, hash keccak g l val storing false = some r ∧ HashSpec keccak db false storing val T r) :
    ∃ r₀, hashChildren keccak g l (.shortNode key val flags) storing = some r₀ ∧
      ChildrenSpec keccak db top storing flags (.short key T) r₀ := by
  rcases hT with ⟨-, v, rfl, -⟩ | ⟨-, -, ⟨cs, rfl⟩, hcs⟩
  · -- a leaf: its value is part of the collapsed node
    obtain rfl : val = .valueNode v := by
      cases hval with
      | value => rfl
      | hash _ _ _ hs => exact absurd hs.1 (by simp [Tree.Canon])
    refine ⟨(.shortNode (hexToCompact key) (.valueNode v) flags, .shortNode key (.valueNode v) flags, []),
      by rw [hashChildren]; rfl, ⟨?_, rfl, ⟨fun h => (by cases h), fun _ h => (by cases h)⟩,
      fun db' hashed _ hfl => ?_, fun hashed => by rw [cacheHash_short]; rfl, .nil, fun _ => rfl,
      fun _ => ⟨trivial, fun h => by cases h⟩⟩⟩
    · rw [Tree.collapsed_short, Tree.ref_value]
      rfl
    · rw [cacheHash_short]
      exact .short top key _ _ _ (.value false v) hfl (fun _ => rfl)
  · -- an extension: its full node is hashed as a child
    obtain ⟨⟨cv, cd, w⟩, hr, hs⟩ := ih hcs (fun e he => hS (Tree.encodings_short_child keccak key _ he)) storing
    have hcv : cv.toValue = (Tree.full cs).ref keccak := by
      simpa using hs.collapsed
    have hnotnil : cv.isNil = false := by
      cases cv with
      | nil => exact absurd hcv.symm (Tree.ref_ne_nil keccak rfl)
      | _ => rfl
    have hnotval : val.isValue = false := by
      cases hval <;> rfl
    refine ⟨(.shortNode (hexToCompact key) cv flags, .shortNode key cd flags, w),
      by rw [hashChildren, if_neg (by simp [hnotval]), hr, Option.map_some]; dsimp only; rw [hnotnil]; rfl,
      ⟨?_, rfl, ⟨fun h => (by cases h), fun _ h => (by cases h)⟩, fun db' hashed hext hfl => ?_,
      fun hashed => by rw [cacheHash_short]; rfl, hs.writes.mono (Tree.encodings_short_child keccak key _),
      hs.nowrite, fun hst => ⟨(hs.stored hst).1, fun _ h32 => (hs.stored hst).2 (.inr h32)⟩⟩⟩
    · show Value.list [.bytes (hexToCompact key), cv.toValue] = _
      rw [hcv, Tree.collapsed_short]
    · rw [cacheHash_short]
      refine .short top key cd _ _ (hs.cached.mono hext) hfl (fun hd => ?_)
      rw [hs.dirty]
      cases storing with
      | true => rfl
      | false => exact hclean hd

section

variable (keccak)

/-- The state of `hashChildrenLoop` before slot `i`: the slots below `i` are hashed, the
others untouched. -/
structure LoopInv (db : MemDatabase) (storing : Bool) (children : Fin 17 → Node) (Ts : Fin 17 → Tree)
    (i : Nat) (collapsed cached : Fin 17 → Node) (w : Writes) : Prop where
  writes : KVStore.ContentAddressed keccak ((Tree.full Ts).encodings keccak) w
  nowrite : storing = false → w = []
  done : ∀ j : Fin 17, j.val < i → (collapsed j).toValue = (Ts j).ref keccak ∧
    Expands keccak (KVStore.putAll db w) false (cached j) (Ts j) ∧
    (cached j).isDirty = (if storing then false else (children j).isDirty) ∧
    (storing = true → (Ts j).Persisted keccak (KVStore.putAll db w) ∧
      (Ts j).RefStored keccak (KVStore.putAll db w))
  rest : ∀ j : Fin 17, i ≤ j.val → collapsed j = children j ∧ cached j = children j

end

theorem hashChildrenLoop_spec {S : List (List UInt8)} {db : MemDatabase} (hinj : KVStore.HashInjOn keccak S)
    (hdb : KVStore.ContentAddressed keccak S db) {storing : Bool} {children : Fin 17 → Node}
    {Ts : Fin 17 → Tree} (hS : (Tree.full Ts).encodings keccak ⊆ S)
    (hchild : ∀ j : Fin 17, j.val < 16 → (children j = .nil ∧ Ts j = .empty) ∨
      (children j ≠ .nil ∧ ∃ r, hash keccak g l (children j) storing false = some r ∧
        HashSpec keccak db false storing (children j) (Ts j) r)) :
    ∀ k i collapsed cached w, i + k = 16 → LoopInv keccak db storing children Ts i collapsed cached w →
      ∃ r, hashChildrenLoop keccak g l children storing i collapsed cached w = some r ∧
        LoopInv keccak db storing children Ts 16 r.1 r.2.1 r.2.2 := by
  intro k
  induction k with
  | zero =>
    intro i collapsed cached w hik inv
    obtain rfl : i = 16 := by omega
    exact ⟨_, by rw [hashChildrenLoop, dif_neg (by omega)], inv⟩
  | succ k ih =>
    intro i collapsed cached w hik inv
    have hi : i < 16 := by omega
    set c : Fin 17 := ⟨i, by omega⟩ with hc
    have hdb₀ : KVStore.ContentAddressed keccak S (KVStore.putAll db w) :=
      hdb.after_putAll (inv.writes.mono hS)
    rw [hashChildrenLoop, dif_pos hi]
    by_cases hnil : (children c).isNil = true
    · -- an empty slot is collapsed to the empty string
      have hcnil : children c = .nil := by
        cases h : children c <;> simp_all [Node.isNil]
      have hTc : Ts c = .empty := by
        rcases hchild c hi with ⟨-, h⟩ | ⟨h, -⟩
        · exact h
        · exact absurd hcnil h
      rw [if_pos hnil]
      refine ih (i + 1) _ cached w (by omega) ⟨inv.writes, inv.nowrite, fun j hj => ?_, fun j hj => ?_⟩
      · by_cases hjc : j = c
        · subst hjc
          rw [Function.update_self, (inv.rest c (le_refl _)).2, hcnil, hTc]
          exact ⟨rfl, .nil false, by cases storing <;> rfl, fun _ => ⟨trivial, fun h => by cases h⟩⟩
        · rw [Function.update_of_ne hjc]
          exact inv.done j (lt_of_le_of_ne (Nat.lt_succ_iff.mp hj) (fun h => hjc (Fin.ext h)))
      · have hjc : j ≠ c := fun h => by rw [h] at hj; simp [c] at hj
        rw [Function.update_of_ne hjc]
        exact inv.rest j (by omega)
    · -- a node is hashed as a child
      obtain ⟨⟨cc, cd, w'⟩, hr, hs⟩ := (hchild c hi).resolve_left (fun h => hnil (by rw [h.1]; rfl)) |>.2
      rw [if_neg hnil, hr]
      have hw' : KVStore.ContentAddressed keccak S w' :=
        (hs.writes.mono (Tree.encodings_full_child keccak Ts c)).mono hS
      have hext : KVStore.Extends (KVStore.putAll db w) (KVStore.putAll db (w ++ w')) := by
        rw [KVStore.putAll_append]
        exact hdb₀.extends_putAll hinj hw'
      have hdb₁ : KVStore.ContentAddressed keccak S (KVStore.putAll db (w ++ w')) := by
        rw [KVStore.putAll_append]
        exact hdb₀.after_putAll hw'
      have hext' : KVStore.Extends (KVStore.putAll db w') (KVStore.putAll db (w ++ w')) := by
        refine (hdb.after_putAll hw').extends_of_subset hinj hdb₁ fun e he => ?_
        rw [KVStore.putAll_eq] at he ⊢
        rw [List.reverse_append, List.append_assoc]
        rcases List.mem_append.mp he with he | he
        · exact List.mem_append_left _ he
        · exact List.mem_append_right _ (List.mem_append_right _ he)
      refine ih (i + 1) _ _ (w ++ w') (by omega) ⟨inv.writes.append
        (hs.writes.mono (Tree.encodings_full_child keccak Ts c)), fun hst => ?_, fun j hj => ?_,
        fun j hj => ?_⟩
      · rw [inv.nowrite hst, show w' = [] from hs.nowrite hst]
        rfl
      · by_cases hjc : j = c
        · subst hjc
          rw [Function.update_self, Function.update_self]
          refine ⟨by simpa using hs.collapsed, hs.cached.mono hext', hs.dirty, fun hst => ?_⟩
          exact ⟨(hs.stored hst).1.mono hext', fun _ h32 => hext' _ _ ((hs.stored hst).2 (.inr h32))⟩
        · rw [Function.update_of_ne hjc, Function.update_of_ne hjc]
          obtain ⟨h₁, h₂, h₃, h₄⟩ :=
            inv.done j (lt_of_le_of_ne (Nat.lt_succ_iff.mp hj) (fun h => hjc (Fin.ext h)))
          exact ⟨h₁, h₂.mono hext, h₃, fun hst => ⟨(h₄ hst).1.mono hext, (h₄ hst).2.mono hext⟩⟩
      · have hjc : j ≠ c := fun h => by rw [h] at hj; simp [c] at hj
        rw [Function.update_of_ne hjc, Function.update_of_ne hjc]
        exact inv.rest j (by omega)

theorem slot_cases {S : List (List UInt8)} {db : MemDatabase} {storing : Bool}
    {children : Fin 17 → Node} {Ts : Fin 17 → Tree} (hch : ∀ i, Expands keccak db false (children i) (Ts i))
    (hT : (Tree.full Ts).Canon) (hS : (Tree.full Ts).encodings keccak ⊆ S)
    (ih : ∀ i, (Ts i).Canon → (Ts i).encodings keccak ⊆ S → ∀ storing,
      ∃ r, hash keccak g l (children i) storing false = some r ∧
        HashSpec keccak db false storing (children i) (Ts i) r)
    (j : Fin 17) (hj : j.val < 16) :
    (children j = .nil ∧ Ts j = .empty) ∨
      (children j ≠ .nil ∧ ∃ r, hash keccak g l (children j) storing false = some r ∧
        HashSpec keccak db false storing (children j) (Ts j) r) := by
  rcases hT.slot_root hj with he | hc
  · exact .inl ⟨(he ▸ hch j).eq_nil, he⟩
  · exact .inr ⟨(hch j).ne_nil hc, ih j hc (fun e he => hS (Tree.encodings_full_child keccak Ts j he)) storing⟩

theorem slot_value_cases {db : MemDatabase} {children : Fin 17 → Node} {Ts : Fin 17 → Tree}
    (hch : ∀ i, Expands keccak db false (children i) (Ts i)) (hT : (Tree.full Ts).Canon) :
    (children 16 = .nil ∧ Ts 16 = .empty) ∨ ∃ v, children 16 = .valueNode v ∧ Ts 16 = .value v := by
  rcases hT.slot_value with he | ⟨v, hv, -⟩
  · exact .inl ⟨(he ▸ hch 16).eq_nil, he⟩
  · exact .inr ⟨v, (hv ▸ hch 16).eq_valueNode, hv⟩

theorem hashChildren_full_spec {S : List (List UInt8)} {db : MemDatabase} (hinj : KVStore.HashInjOn keccak S)
    (hdb : KVStore.ContentAddressed keccak S db) {top storing : Bool} {children : Fin 17 → Node}
    {flags : NodeFlag} {Ts : Fin 17 → Tree} (hch : ∀ i, Expands keccak db false (children i) (Ts i))
    (hclean : flags.dirty = false → ∀ i, (children i).isDirty = false)
    (hT : (Tree.full Ts).Canon) (hS : (Tree.full Ts).encodings keccak ⊆ S)
    (ih : ∀ i, (Ts i).Canon → (Ts i).encodings keccak ⊆ S → ∀ storing,
      ∃ r, hash keccak g l (children i) storing false = some r ∧
        HashSpec keccak db false storing (children i) (Ts i) r) :
    ∃ r₀, hashChildren keccak g l (.fullNode children flags) storing = some r₀ ∧
      ChildrenSpec keccak db top storing flags (.full Ts) r₀ := by
  have inv₀ : LoopInv keccak db storing children Ts 0 children children [] :=
    ⟨.nil, fun _ => rfl, fun j hj => absurd hj (Nat.not_lt_zero _), fun _ _ => ⟨rfl, rfl⟩⟩
  obtain ⟨⟨col, cac, w⟩, hloop, inv⟩ := hashChildrenLoop_spec g l hinj hdb hS
    (slot_cases g l hch hT hS ih) 16 0 children children [] rfl inv₀
  have hext : KVStore.Extends db (KVStore.putAll db w) :=
    hdb.extends_putAll hinj (inv.writes.mono hS)
  have h16 := slot_value_cases hch hT
  have hcac16 : cac 16 = children 16 := (inv.rest 16 (le_refl _)).2
  have hclean16 : (children 16).isDirty = false := by
    rcases h16 with ⟨h, -⟩ | ⟨v, h, -⟩ <;> rw [h] <;> rfl
  refine ⟨(.fullNode (Function.update col 16 (if (children 16).isNil then .valueNode [] else children 16)) flags,
      .fullNode cac flags, w), by rw [hashChildren, hloop]; rfl,
    ⟨?_, rfl, ⟨fun h => (by cases h), fun _ h => (by cases h)⟩, fun db' hashed hext' hfl => ?_,
      fun hashed => by rw [cacheHash_full]; rfl, inv.writes, inv.nowrite, fun hst j => ?_⟩⟩
  · -- the collapsed node holds every child's reference
    rw [Tree.collapsed_full, Node.toValue]
    congr 1
    refine List.ofFn_inj.mpr (funext fun j => ?_)
    by_cases hj : j = 16
    · subst hj
      rw [Function.update_self]
      rcases h16 with ⟨h, he⟩ | ⟨v, h, hv⟩
      · rw [h, he]
        rfl
      · rw [h, hv]
        rfl
    · rw [Function.update_of_ne hj]
      exact (inv.done j (by have := j.isLt; have : j.val ≠ 16 := fun h => hj (Fin.ext h); omega)).1
  · rw [cacheHash_full]
    refine .full top cac _ Ts (fun j => ?_) hfl (fun hd j => ?_)
    · by_cases hj : j = 16
      · subst hj
        rw [hcac16]
        exact ((hch 16).mono hext).mono hext'
      · exact (inv.done j (by have := j.isLt; have : j.val ≠ 16 := fun h => hj (Fin.ext h); omega)).2.1.mono hext'
    · by_cases hj : j = 16
      · subst hj
        rw [hcac16, hclean16]
      · rw [(inv.done j (by have := j.isLt; have : j.val ≠ 16 := fun h => hj (Fin.ext h); omega)).2.2.1]
        cases storing with
        | true => rfl
        | false => exact hclean hd j
  · by_cases hj : j = 16
    · subst hj
      rcases h16 with ⟨-, he⟩ | ⟨v, -, hv⟩
      · rw [he]
        exact ⟨trivial, fun h => by cases h⟩
      · rw [hv]
        exact ⟨trivial, fun h => by cases h⟩
    · exact (inv.done j (by have := j.isLt; have : j.val ≠ 16 := fun h => hj (Fin.ext h); omega)).2.2.2 hst

theorem hash_node_spec {S : List (List UInt8)} {db : MemDatabase} (hinj : KVStore.HashInjOn keccak S)
    (hdb : KVStore.ContentAddressed keccak S db) {top storing : Bool} {n : Node} {flags : NodeFlag}
    {T : Tree} (he : Expands keccak db top n T) (hT : T.Canon) (hS : T.encodings keccak ⊆ S)
    (hflags : FlagOk keccak db top flags T) (hc : n.cache = some (flags.hash, flags.dirty))
    (hdirty : n.isDirty = flags.dirty) (hunload : n.canUnload g l = true → flags.dirty = false)
    (hchildren : ∃ r₀, hashChildren keccak g l n storing = some r₀ ∧ ChildrenSpec keccak db top storing flags T r₀) :
    ∃ r, hash keccak g l n storing top = some r ∧ HashSpec keccak db top storing n T r := by
  obtain ⟨⟨col, cac, w₁⟩, hr₀, hcs⟩ := hchildren
  rcases hh : flags.hash with _ | h
  · -- no cached hash: the walk
    rw [hh] at hc
    rw [hash_eq, hc]
    exact hashWalk_spec g l hinj hdb hT hS (.inl hh) (hflags.2) hdirty hr₀ hcs
  · have hok := (hflags.1 h hh).1
    by_cases hsd : storing = true ∧ flags.dirty = true
    · -- a dirty node is walked when storing
      obtain ⟨rfl, hd⟩ := hsd
      rw [hh] at hc
      rw [hash_eq, hc, hd]
      have hnu : n.canUnload g l = false := by
        cases hu : n.canUnload g l
        · rfl
        · exact absurd (hunload hu) (by rw [hd]; decide)
      simp only [Bool.not_true, Bool.false_eq_true, if_false, hnu]
      exact hashWalk_spec g l hinj hdb hT hS (.inr ⟨rfl, hh.trans (congrArg some hok.1)⟩) hflags.2 hdirty
        hr₀ hcs
    · rw [hh] at hc
      exact hash_cached g l hc he hT hok (hflags.1 h hh).2 hdirty hunload hsd

theorem hash_hashNode (h : List UInt8) (storing force : Bool) :
    hash keccak g l (.hashNode h) storing force = some (.hashNode h, .hashNode h, []) := by
  rw [hash_eq]
  show hashWalk keccak g l (.hashNode h) storing force = _
  rw [hashWalk, hashChildren.eq_def]
  rfl

theorem hash_spec {S : List (List UInt8)} {db : MemDatabase} (hinj : KVStore.HashInjOn keccak S)
    (hdb : KVStore.ContentAddressed keccak S db) {top : Bool} {n : Node} {T : Tree}
    (he : Expands keccak db top n T) :
    T.Canon → T.encodings keccak ⊆ S → ∀ storing,
      ∃ r, hash keccak g l n storing top = some r ∧ HashSpec keccak db top storing n T r := by
  induction he with
  | nil top => exact fun hT => absurd hT (by simp [Tree.Canon])
  | value top v => exact fun hT => absurd hT (by simp [Tree.Canon])
  | short top key val flags T hval hflags hclean ih =>
    intro hT hS storing
    refine hash_node_spec g l hinj hdb (.short top key val flags T hval hflags hclean) hT hS hflags rfl rfl
      (fun hu => by simp only [Node.canUnload, NodeFlag.canUnload, Bool.and_eq_true] at hu; simpa using hu.1) ?_
    exact hashChildren_short_spec g l hval hclean hT hS ih
  | full top children flags Ts hch hflags hclean ih =>
    intro hT hS storing
    refine hash_node_spec g l hinj hdb (.full top children flags Ts hch hflags hclean) hT hS hflags rfl rfl
      (fun hu => by simp only [Node.canUnload, NodeFlag.canUnload, Bool.and_eq_true] at hu; simpa using hu.1) ?_
    exact hashChildren_full_spec g l hinj hdb hch hclean hT hS (fun i => ih i)
  | hash top h T hs =>
    intro hT hS storing
    refine ⟨(.hashNode h, .hashNode h, []), hash_hashNode g l h storing top, ⟨toValue_hashNode_eq
      (Tree.isNode_of_canon hT) hs.2.1, .hash top h T hs, by cases storing <;> rfl, .nil, fun _ => rfl,
      fun _ => ⟨hs.2.2.2, fun _ => hs.2.1.1 ▸ hs.2.2.1⟩, fun _ => congrArg _ hs.2.1.1⟩⟩

end

end Zerium.Trie
