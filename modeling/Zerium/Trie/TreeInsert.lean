import Zerium.Trie.Tree

/-! # Insertion into the abstract trie

`insert` puts the value at the key and leaves every other key as it was (`get_insert`), keeps
a canonical tree canonical (`canon_insert`), and reports no change only when it made none
(`insert_unchanged`). It recurses down a subtree and the rest of the key, which fit each other
(`Fits`): a key and a canonical subtree, or the end of the key and the slot of a value.
-/

namespace Zerium.Trie

set_option autoImplicit false

theorem TermKey.of_append {p k : List UInt8} (hp : Nibbles p) (h : TermKey (p ++ k)) : TermKey k := by
  have hne : p ≠ p ++ k := by
    intro he
    obtain ⟨ns, -, hns⟩ := h
    have h16 : (16 : UInt8) ∈ p := by
      rw [he, hns]
      simp
    exact absurd (hp 16 h16) (by decide)
  simpa using (h.of_prefix (List.prefix_append p k) hne).2

namespace Tree

/-- A subtree and the rest of the key where `insert` and `delete` recurse. -/
def Fits (t : Tree) (key : List UInt8) : Prop :=
  (key = [] ∧ (t = .empty ∨ ∃ w, t = .value w)) ∨ (TermKey key ∧ t.CanonRoot)

def SameShape (key k : List UInt8) : Prop := (key = [] ∧ k = []) ∨ (TermKey key ∧ TermKey k)

theorem SameShape.of_termKey {key k : List UInt8} (hkey : TermKey key) (hk : SameShape key k) :
    TermKey k := by
  rcases hk with ⟨rfl, -⟩ | ⟨-, hk⟩
  · exact absurd rfl hkey.ne_nil
  · exact hk

theorem SameShape.of_nil {k : List UInt8} (hk : SameShape [] k) : k = [] := by
  rcases hk with ⟨-, rfl⟩ | ⟨h, -⟩
  · rfl
  · exact absurd rfl h.ne_nil

/-- The two-slot full node `insert` builds where a short node's key and the new key part. -/
def branch (i₁ : Fin 17) (t₁ : Tree) (i₂ : Fin 17) (t₂ : Tree) : Tree :=
  .full (Function.update (Function.update (fun _ => .empty) i₁ t₁) i₂ t₂)

theorem branch_slot (i₁ : Fin 17) (t₁ : Tree) (i₂ : Fin 17) (t₂ : Tree) (hne : i₁ ≠ i₂) (j : Fin 17) :
    Function.update (Function.update (fun _ => Tree.empty) i₁ t₁) i₂ t₂ j =
      if j = i₂ then t₂ else if j = i₁ then t₁ else .empty := by
  by_cases h₂ : j = i₂
  · subst h₂
    simp
  · by_cases h₁ : j = i₁
    · subst h₁
      simp [h₂]
    · simp [h₁, h₂]

theorem get_branch (i₁ : Fin 17) (t₁ : Tree) (i₂ : Fin 17) (t₂ : Tree) (hne : i₁ ≠ i₂)
    (j : Fin 17) (w : List UInt8) :
    (branch i₁ t₁ i₂ t₂).get (nib j :: w) =
      if j = i₂ then t₂.get w else if j = i₁ then t₁.get w else none := by
  rw [branch, get_full_cons, branch_slot i₁ t₁ i₂ t₂ hne]
  split_ifs <;> simp [get]

theorem get_short_cons (c : List UInt8) (i j : Fin 17) (nrest w : List UInt8) (nval : Tree) :
    (Tree.short (c ++ nib i :: nrest) nval).get (c ++ nib j :: w) =
      if j = i then (leaf nrest nval).get w else none := by
  rw [get_short, get_leaf_eq]
  by_cases hji : j = i
  · subst hji
    simp only [List.prefix_append_right_inj, List.cons_prefix_cons, true_and, if_true]
    split_ifs
    · rw [List.drop_append, List.drop_eq_nil_of_le (by simp), List.nil_append]
      simp
    · rfl
  · have hne : nib j ≠ nib i := fun h => hji (nib_inj h)
    simp [List.prefix_append_right_inj, hji, Ne.symm hne]

theorem insert_nil (t : Tree) (v : List UInt8) : (t.insert [] v).2 = .value v := by
  cases t <;> simp [Tree.insert]

theorem insert_short_child (nkey : List UInt8) (nval : Tree) (key v : List UInt8) (hm : nkey <+: key)
    (hk : key ≠ []) :
    ((Tree.short nkey nval).insert key v).2 = .short nkey (nval.insert (key.drop nkey.length) v).2 := by
  have hlen : prefixLen key nkey = nkey.length := (prefixLen_eq_right_iff key nkey).mpr hm
  rw [insert.eq_3 _ _ _ _ hk, if_pos hlen, hlen]
  by_cases hr : (nval.insert (key.drop nkey.length) v).1 = true
  · simp [hr]
  · simp only [hr, Bool.not_false, if_true]
    rw [insert_unchanged nval _ v (by simpa using hr)]

theorem insert_full (cs : Fin 17 → Tree) (i : Fin 17) (rest v : List UInt8) :
    ((Tree.full cs).insert (nib i :: rest) v).2 = .full (Function.update cs i ((cs i).insert rest v).2) := by
  rw [insert.eq_4 _ _ _ (List.cons_ne_nil _ _)]
  simp only [List.getElem?_cons_zero, Option.bind_eq_bind, Option.bind_some, childIndex_nib,
    List.drop_succ_cons, List.drop_zero]
  by_cases hr : ((cs i).insert rest v).1 = true
  · simp [hr]
  · simp only [hr, Bool.not_false, if_true]
    rw [insert_unchanged (cs i) rest v (by simpa using hr), Function.update_eq_self]

theorem insert_short_split (c : List UInt8) (i₁ i₂ : Fin 17) (nrest krest : List UInt8) (nval : Tree)
    (v : List UInt8) (hi : i₁ ≠ i₂) :
    (Tree.short (c ++ nib i₁ :: nrest) nval).insert (c ++ nib i₂ :: krest) v =
      (true, leaf c (branch i₁ (leaf nrest nval) i₂ (leaf krest (.value v)))) := by
  have hm : prefixLen (c ++ nib i₂ :: krest) (c ++ nib i₁ :: nrest) = c.length :=
    prefixLen_append_cons c _ _ krest nrest (fun h => hi (nib_inj h).symm)
  rw [insert.eq_3 _ _ _ _ (by simp), hm, if_neg (by simp)]
  simp only [List.getElem?_append_right (le_refl _), Nat.sub_self, List.getElem?_cons_zero,
    Option.bind_eq_bind, Option.bind_some, childIndex_nib]
  have hdn : (c ++ nib i₁ :: nrest).drop (c.length + 1) = nrest := by simp [List.drop_append]
  have hdk : (c ++ nib i₂ :: krest).drop (c.length + 1) = krest := by simp [List.drop_append]
  rw [hdn, hdk, List.take_left' rfl]
  by_cases hc : c.length = 0
  · rw [if_pos hc, List.length_eq_zero_iff.mp hc]
    rfl
  · rw [if_neg hc]
    simp [leaf, branch, List.ne_nil_of_length_pos (Nat.pos_of_ne_zero hc)]

theorem insert_full_isFull (cs : Fin 17 → Tree) (key v : List UInt8) (hk : key ≠ []) :
    ∃ cs', ((Tree.full cs).insert key v).2 = .full cs' := by
  rw [insert.eq_4 _ _ _ hk]
  split
  · dsimp only
    split_ifs <;> exact ⟨_, rfl⟩
  · exact ⟨cs, rfl⟩

/-! ## Shapes of keys below a node -/

theorem Canon.short_child {nkey key : List UInt8} {nval : Tree} (hc : (Tree.short nkey nval).Canon)
    (hm : nkey <+: key) (hkey : TermKey key) : Fits nval (key.drop nkey.length) := by
  rcases hc with ⟨hn, w, rfl, -⟩ | ⟨-, hn, ⟨cs, rfl⟩, hcs⟩
  · obtain rfl := TermKey.eq_of_prefix hn hkey hm
    exact .inl ⟨by simp, .inr ⟨w, rfl⟩⟩
  · have hne : nkey ≠ key := fun h => hkey.not_nibbles (h ▸ hn)
    exact .inr ⟨(hkey.of_prefix hm hne).2, .inr hcs⟩

theorem Canon.short_shape {nkey key k : List UInt8} {nval : Tree} (hc : (Tree.short nkey nval).Canon)
    (hm : nkey <+: key) (hpk : nkey <+: k) (hkey : TermKey key) (hk : TermKey k) :
    SameShape (key.drop nkey.length) (k.drop nkey.length) := by
  rcases hc with ⟨hn, -⟩ | ⟨-, hn, -⟩
  · obtain rfl := TermKey.eq_of_prefix hn hkey hm
    obtain rfl := TermKey.eq_of_prefix hn hk hpk
    exact .inl ⟨by simp, by simp⟩
  · have hne : ∀ {k : List UInt8}, TermKey k → nkey ≠ k := fun hk h => hk.not_nibbles (h ▸ hn)
    exact .inr ⟨(hkey.of_prefix hm (hne hkey)).2, (hk.of_prefix hpk (hne hk)).2⟩

theorem eq_empty_of_isEmpty {t : Tree} (h : t.isEmpty = true) : t = .empty := by
  cases t <;> simp_all [isEmpty]

theorem Canon.slot_root {cs : Fin 17 → Tree} (hc : (Tree.full cs).Canon) {i : Fin 17} (hi : i.val < 16) :
    (cs i).CanonRoot := by
  rcases hc.2.1 i hi with he | h
  · exact .inl (eq_empty_of_isEmpty he)
  · exact .inr h

theorem Canon.slot_value {cs : Fin 17 → Tree} (hc : (Tree.full cs).Canon) :
    cs 16 = .empty ∨ ∃ v, cs 16 = .value v ∧ v ≠ [] := by
  rcases hc.2.2 with he | h
  · exact .inl (eq_empty_of_isEmpty he)
  · exact .inr h

theorem Canon.full_child {cs : Fin 17 → Tree} {i : Fin 17} {rest : List UInt8}
    (hc : (Tree.full cs).Canon) (hkey : TermKey (nib i :: rest)) : Fits (cs i) rest := by
  rcases hkey.of_cons with ⟨hi, rfl⟩ | ⟨hi, hrest⟩
  · obtain rfl : i = 16 := nib_inj (hi.trans nib_sixteen.symm)
    refine .inl ⟨rfl, ?_⟩
    rcases hc.slot_value with he | ⟨w, hw, -⟩
    · exact .inl he
    · exact .inr ⟨w, hw⟩
  · exact .inr ⟨hrest, hc.slot_root ((nib_lt_sixteen_iff i).mp hi)⟩

theorem full_shape {i : Fin 17} {rest w : List UInt8} (hkey : TermKey (nib i :: rest))
    (hk : TermKey (nib i :: w)) : SameShape rest w := by
  rcases hkey.of_cons with ⟨hi, rfl⟩ | ⟨hi, hrest⟩
  · rcases hk.of_cons with ⟨-, rfl⟩ | ⟨hi', -⟩
    · exact .inl ⟨rfl, rfl⟩
    · exact absurd (hi ▸ hi') (by decide)
  · rcases hk.of_cons with ⟨hi', -⟩ | ⟨-, hw⟩
    · exact absurd (hi' ▸ hi) (by decide)
    · exact .inr ⟨hrest, hw⟩

theorem Canon.not_prefix_key {nkey key : List UInt8} {nval : Tree} (hc : (Tree.short nkey nval).Canon)
    (hkey : TermKey key) (hpre : key <+: nkey) : nkey = key := by
  rcases hc with ⟨hn, -⟩ | ⟨-, hn, -⟩
  · exact (TermKey.eq_of_prefix hkey hn hpre).symm
  · exact (hkey.not_nibbles fun x hx => hn x (hpre.subset hx)).elim

theorem Canon.lt_seventeen {nkey : List UInt8} {nval : Tree} (hc : (Tree.short nkey nval).Canon) :
    ∀ x ∈ nkey, x < 17 := by
  rcases hc with ⟨hn, -⟩ | ⟨-, hn, -⟩
  · exact hn.lt_seventeen
  · intro x hx
    have := hn x hx
    simp only [UInt8.lt_iff_toNat_lt] at this ⊢
    simp at this ⊢
    omega

theorem Canon.split {nkey key : List UInt8} {nval : Tree} (hc : (Tree.short nkey nval).Canon)
    (hkey : TermKey key) (hm : ¬ nkey <+: key) :
    ∃ c i₁ i₂ nrest krest, nkey = c ++ nib i₁ :: nrest ∧ key = c ++ nib i₂ :: krest ∧ i₁ ≠ i₂ := by
  have hlt : prefixLen key nkey < nkey.length :=
    lt_of_le_of_ne (prefixLen_le_right _ _) (fun h => hm ((prefixLen_eq_right_iff _ _).mp h))
  have hlt' : prefixLen key nkey < key.length := by
    refine lt_of_le_of_ne (prefixLen_le_left _ _) (fun h => ?_)
    rw [prefixLen_comm] at h
    have hpre := (prefixLen_eq_right_iff nkey key).mp h
    exact hm (hc.not_prefix_key hkey hpre ▸ List.prefix_refl _)
  obtain ⟨c, y, x, krest, nrest, rfl, rfl, hyx⟩ := prefixLen_split key nkey hlt' hlt
  obtain ⟨i₁, h₁⟩ := childIndex_of_lt (hc.lt_seventeen x (by simp))
  obtain ⟨i₂, h₂⟩ := childIndex_of_lt (hkey.lt_seventeen y (by simp))
  obtain rfl := childIndex_eq_some h₁
  obtain rfl := childIndex_eq_some h₂
  exact ⟨c, i₁, i₂, nrest, krest, rfl, rfl, fun h => hyx (h ▸ rfl)⟩

/-! ## Lookups after an insertion -/

theorem get_leaf_value (krest w v : List UInt8) (h : SameShape krest w) :
    (leaf krest (.value v)).get w = if w = krest then some v else none := by
  rw [get_leaf_eq]
  rcases h with ⟨rfl, rfl⟩ | ⟨hkr, hw⟩
  · simp [get]
  · by_cases hp : krest <+: w
    · obtain rfl := TermKey.eq_of_prefix hkr hw hp
      simp [get]
    · have hne : w ≠ krest := fun h => hp (h ▸ List.prefix_refl _)
      simp [hp, hne]

theorem get_insert (t : Tree) (key v : List UInt8) (ht : Fits t key) (k : List UInt8)
    (hk : SameShape key k) : (t.insert key v).2.get k = if k = key then some v else t.get k := by
  induction t generalizing key k with
  | empty =>
    rcases ht with ⟨rfl, -⟩ | ⟨hkey, -⟩
    · obtain rfl := hk.of_nil
      simp [insert_nil, get]
    · have hk' := hk.of_termKey hkey
      rw [insert.eq_5 _ _ hkey.ne_nil, get_short]
      by_cases hp : key <+: k
      · obtain rfl := TermKey.eq_of_prefix hkey hk' hp
        simp [get]
      · have hne : k ≠ key := fun h => hp (h ▸ List.prefix_refl _)
        simp [hp, hne, get]
  | value w =>
    rcases ht with ⟨rfl, -⟩ | ⟨-, hroot⟩
    · obtain rfl := hk.of_nil
      simp [insert_nil, get]
    · rcases hroot with h | h
      · cases h
      · exact absurd h (by simp [Canon])
  | short nkey nval ih =>
    rcases ht with ⟨-, hv⟩ | ⟨hkey, hroot⟩
    · rcases hv with h | ⟨w, h⟩ <;> cases h
    · have hcanon : (Tree.short nkey nval).Canon := hroot.resolve_left (by simp)
      have hk' := hk.of_termKey hkey
      by_cases hm : nkey <+: key
      · rw [insert_short_child nkey nval key v hm hkey.ne_nil, get_short, get_short]
        by_cases hpk : nkey <+: k
        · rw [if_pos hpk, if_pos hpk, ih _ (hcanon.short_child hm hkey) _
            (hcanon.short_shape hm hpk hkey hk')]
          congr 1
          obtain ⟨a, rfl⟩ := hm
          obtain ⟨b, rfl⟩ := hpk
          simp
        · have hne : k ≠ key := fun h => hpk (h ▸ hm)
          rw [if_neg hpk, if_neg hpk, if_neg hne]
      · obtain ⟨c, i₁, i₂, nrest, krest, rfl, rfl, hi⟩ := hcanon.split hkey hm
        rw [insert_short_split c i₁ i₂ nrest krest nval v hi, get_leaf_eq]
        by_cases hck : c <+: k
        · obtain ⟨k₂, rfl⟩ := hck
          have hc : Nibbles c := (hkey.of_prefix (List.prefix_append c _) (by simp)).1
          have hk₂ : TermKey k₂ := TermKey.of_append hc hk'
          have hkey₂ : TermKey (nib i₂ :: krest) := TermKey.of_append hc hkey
          obtain ⟨j, w, rfl, -⟩ := hk₂.cons_nib
          rw [if_pos (List.prefix_append c _), List.drop_left' rfl, get_branch i₁ _ i₂ _ hi,
            get_short_cons]
          by_cases hj₂ : j = i₂
          · subst hj₂
            rw [if_pos rfl, if_neg (Ne.symm hi), get_leaf_value krest w v (full_shape hkey₂ hk₂)]
            simp
          · have hne : c ++ nib j :: w ≠ c ++ nib i₂ :: krest :=
              fun h => hj₂ (nib_inj (List.cons.inj (List.append_cancel_left h)).1)
            rw [if_neg hj₂, if_neg hne]
        · have hne : k ≠ c ++ nib i₂ :: krest := fun h => hck (h ▸ List.prefix_append c _)
          have hnk : ¬ (c ++ nib i₁ :: nrest) <+: k := fun h => hck ((List.prefix_append c _).trans h)
          rw [if_neg hck, if_neg hne, get_short_eq_none _ hnk]
  | full cs ih =>
    rcases ht with ⟨-, hv⟩ | ⟨hkey, hroot⟩
    · rcases hv with h | ⟨w, h⟩ <;> cases h
    · have hcanon : (Tree.full cs).Canon := hroot.resolve_left (by simp)
      have hk' := hk.of_termKey hkey
      obtain ⟨i, rest, rfl, -⟩ := hkey.cons_nib
      obtain ⟨j, w, rfl, -⟩ := hk'.cons_nib
      rw [insert_full, get_full_cons, get_full_cons]
      by_cases hji : j = i
      · rw [hji, Function.update_self, ih i rest (hcanon.full_child hkey) w
          (full_shape hkey (hji ▸ hk'))]
        simp
      · have hne : nib j :: w ≠ nib i :: rest := fun h => hji (nib_inj (List.cons.inj h).1)
        rw [Function.update_of_ne hji, if_neg hne]

/-! ## Canonical form after an insertion -/

def SlotOk (i : Fin 17) (t : Tree) : Prop :=
  if i.val < 16 then t.Canon else ∃ v, t = .value v ∧ v ≠ []

theorem SlotOk.isEmpty {i : Fin 17} {t : Tree} (h : SlotOk i t) : t.isEmpty = false := by
  unfold SlotOk at h
  split at h
  · cases t <;> simp_all [Canon, Tree.isEmpty]
  · obtain ⟨v, rfl, -⟩ := h
    rfl

theorem mem_occupied {cs : Fin 17 → Tree} {i : Fin 17} : i ∈ occupied cs ↔ (cs i).isEmpty = false := by
  simp [occupied]

theorem two_le_occupied {cs : Fin 17 → Tree} {i j : Fin 17} (hij : i ≠ j) (hi : (cs i).isEmpty = false)
    (hj : (cs j).isEmpty = false) : 2 ≤ (occupied cs).length := by
  have hsub : [i, j] ⊆ occupied cs := by
    intro x hx
    rcases List.mem_pair.mp hx with rfl | rfl
    · exact mem_occupied.mpr hi
    · exact mem_occupied.mpr hj
  exact (List.subperm_of_subset (by simp [hij]) hsub).length_le

theorem occupied_update_le (cs : Fin 17 → Tree) (i : Fin 17) (t : Tree) (ht : t.isEmpty = false) :
    (occupied cs).length ≤ (occupied (Function.update cs i t)).length := by
  apply List.Sublist.length_le
  apply List.monotone_filter_right
  intro j hj
  by_cases hji : j = i
  · subst hji
    simp [ht]
  · simpa [Function.update_of_ne hji] using hj

theorem canon_full {cs : Fin 17 → Tree} (hocc : 2 ≤ (occupied cs).length)
    (hslot : ∀ i, (cs i).isEmpty ∨ SlotOk i (cs i)) : (Tree.full cs).Canon := by
  refine ⟨hocc, fun i hi => ?_, ?_⟩
  · rcases hslot i with h | h
    · exact .inl h
    · exact .inr (by simpa [SlotOk, hi] using h)
  · rcases hslot 16 with h | h
    · exact .inl h
    · exact .inr (by simpa [SlotOk] using h)

theorem Canon.slot {cs : Fin 17 → Tree} (hc : (Tree.full cs).Canon) (i : Fin 17) :
    (cs i).isEmpty ∨ SlotOk i (cs i) := by
  obtain ⟨-, hslots, hvalue⟩ := hc
  by_cases hi : i.val < 16
  · rcases hslots i hi with h | h
    · exact .inl h
    · exact .inr (by simpa [SlotOk, hi] using h)
  · obtain rfl : i = 16 := Fin.ext (by have := i.isLt; simp; omega)
    rcases hvalue with h | h
    · exact .inl h
    · exact .inr (by simpa [SlotOk] using h)

theorem Canon.leaf_value {k v : List UInt8} (hk : TermKey k) (hv : v ≠ []) :
    (Tree.short k (.value v)).Canon :=
  .inl ⟨hk, v, rfl, hv⟩

theorem Canon.leaf_full {c : List UInt8} {cs : Fin 17 → Tree} (hc : Nibbles c) (h : (Tree.full cs).Canon) :
    (leaf c (.full cs)).Canon := by
  unfold leaf
  split
  · exact h
  · exact .inr ⟨‹_›, hc, ⟨cs, rfl⟩, h⟩

theorem Canon.of_short_append {c d : List UInt8} {t : Tree} (hc : (Tree.short (c ++ d) t).Canon)
    (hd : d ≠ []) : (Tree.short d t).Canon := by
  rcases hc with ⟨hk, hv⟩ | ⟨-, hn, hfull, ht⟩
  · have hcn : Nibbles c := (hk.of_prefix (List.prefix_append c d) (fun h => hd (by simpa using h))).1
    exact .inl ⟨TermKey.of_append hcn hk, hv⟩
  · exact .inr ⟨hd, (Nibbles.of_append hn).2, hfull, ht⟩

theorem Canon.slot_of_short {i : Fin 17} {r : List UInt8} {t : Tree}
    (hc : (Tree.short (nib i :: r) t).Canon) : SlotOk i (leaf r t) := by
  rcases hc with ⟨hk, w, rfl, hw⟩ | ⟨-, hn, hfull, ht⟩
  · rcases hk.of_cons with ⟨hi, rfl⟩ | ⟨hi, hr⟩
    · obtain rfl : i = 16 := nib_inj (hi.trans nib_sixteen.symm)
      rw [SlotOk, if_neg (by decide)]
      exact ⟨w, rfl, hw⟩
    · rw [SlotOk, if_pos ((nib_lt_sixteen_iff i).mp hi), leaf, if_neg hr.ne_nil]
      exact Canon.leaf_value hr hw
  · obtain ⟨hi, hr⟩ := hn.of_cons
    rw [SlotOk, if_pos ((nib_lt_sixteen_iff i).mp hi)]
    unfold leaf
    split
    · exact ht
    · exact .inr ⟨‹_›, hr, hfull, ht⟩

theorem Canon.branch {i₁ i₂ : Fin 17} {t₁ t₂ : Tree} (hi : i₁ ≠ i₂) (h₁ : SlotOk i₁ t₁)
    (h₂ : SlotOk i₂ t₂) : (branch i₁ t₁ i₂ t₂).Canon := by
  apply canon_full
  · refine two_le_occupied hi ?_ ?_
    · rw [branch_slot _ _ _ _ hi, if_neg hi, if_pos rfl]
      exact h₁.isEmpty
    · rw [branch_slot _ _ _ _ hi, if_pos rfl]
      exact h₂.isEmpty
  · intro j
    rw [branch_slot _ _ _ _ hi]
    split_ifs with hj₂ hj₁
    · subst hj₂
      exact .inr h₂
    · subst hj₁
      exact .inr h₁
    · exact .inl rfl

theorem insert_isEmpty (t : Tree) (key v : List UInt8) : (t.insert key v).2.isEmpty = false := by
  cases t <;> cases key <;> simp only [Tree.insert] <;> (repeat' split) <;> simp_all [Tree.isEmpty]

theorem canon_insert (t : Tree) (key v : List UInt8) (hkey : TermKey key) (ht : t.CanonRoot)
    (hv : v ≠ []) : (t.insert key v).2.Canon := by
  induction t generalizing key with
  | empty =>
    rw [insert.eq_5 _ _ hkey.ne_nil]
    exact Canon.leaf_value hkey hv
  | value w =>
    rcases ht with h | h
    · cases h
    · exact absurd h (by simp [Canon])
  | short nkey nval ih =>
    have hc : (Tree.short nkey nval).Canon := ht.resolve_left (by simp)
    by_cases hm : nkey <+: key
    · rw [insert_short_child nkey nval key v hm hkey.ne_nil]
      rcases hc with ⟨hk, w, rfl, -⟩ | ⟨hne, hn, ⟨cs, rfl⟩, hcs⟩
      · -- a leaf: the key is the leaf's key, and the value is replaced
        obtain rfl := TermKey.eq_of_prefix hk hkey hm
        rw [List.drop_length, insert_nil]
        exact Canon.leaf_value hk hv
      · -- an extension: the insertion goes on into its full node
        have hrest : TermKey (key.drop nkey.length) :=
          (hkey.of_prefix hm (fun h => hkey.not_nibbles (h ▸ hn))).2
        have hnew := ih _ hrest (.inr hcs)
        obtain ⟨cs', hcs'⟩ := insert_full_isFull cs _ v hrest.ne_nil
        rw [hcs'] at hnew ⊢
        exact .inr ⟨hne, hn, ⟨cs', rfl⟩, hnew⟩
    · obtain ⟨c, i₁, i₂, nrest, krest, rfl, rfl, hi⟩ := hc.split hkey hm
      rw [insert_short_split c i₁ i₂ nrest krest nval v hi]
      have hcn : Nibbles c := (hkey.of_prefix (List.prefix_append c _) (by simp)).1
      have hc₁ : (Tree.short (nib i₁ :: nrest) nval).Canon := hc.of_short_append (by simp)
      have hc₂ : (Tree.short (nib i₂ :: krest) (.value v)).Canon :=
        Canon.leaf_value (TermKey.of_append hcn hkey) hv
      exact Canon.leaf_full hcn (Canon.branch hi hc₁.slot_of_short hc₂.slot_of_short)
  | full cs ih =>
    have hc : (Tree.full cs).Canon := ht.resolve_left (by simp)
    obtain ⟨i, rest, rfl, hrest⟩ := hkey.cons_nib
    rw [insert_full]
    have hslot : (Function.update cs i ((cs i).insert rest v).2 i).isEmpty ∨
        SlotOk i (Function.update cs i ((cs i).insert rest v).2 i) := by
      rw [Function.update_self]
      refine .inr ?_
      rcases hrest with ⟨rfl, rfl⟩ | ⟨hi, hrest⟩
      · rw [insert_nil, SlotOk, if_neg (by decide)]
        exact ⟨v, rfl, hv⟩
      · rw [SlotOk, if_pos hi]
        exact ih i rest hrest (hc.slot_root hi)
    apply canon_full (le_trans hc.1 (occupied_update_le cs i _ (insert_isEmpty _ _ _)))
    intro j
    by_cases hji : j = i
    · subst hji
      exact hslot
    · rw [Function.update_of_ne hji]
      exact hc.slot j

end Tree

end Zerium.Trie
