import Zerium.Trie.TreeDelete

/-! # Canonical trees are determined by their contents

Two canonical trees that hold the same value at every key are equal (`canon_ext`). So the
tree the operations leave depends only on the map they leave, not on the order of the
operations; whatever is computed from the tree, the root hash included, is a function of the
map.

The proof reads the shape of a canonical tree off its map: a full node holds two keys that
part at their first nibble, an extension with key `a` two keys that part right after `a`
(`Diverges`), a leaf one key only, and a short node only keys that start with its key.
-/

namespace Zerium.Trie

set_option autoImplicit false

namespace Tree

def SameMap (s t : Tree) : Prop := ∀ k, TermKey k → s.get k = t.get k

theorem SameMap.symm {s t : Tree} (h : SameMap s t) : SameMap t s := fun k hk => (h k hk).symm

theorem prefix_of_get_short {a : List UInt8} {c : Tree} {k : List UInt8}
    (h : (Tree.short a c).get k ≠ none) : a <+: k := by
  by_contra hp
  exact h (get_short_eq_none c hp)

theorem get_leaf_self (a v : List UInt8) : (Tree.short a (.value v)).get a = some v := by
  rw [get_short, if_pos (List.prefix_refl a)]
  rfl

theorem Canon.key_ne_nil {a : List UInt8} {c : Tree} (hc : (Tree.short a c).Canon) : a ≠ [] := by
  rcases hc with ⟨hk, -⟩ | ⟨hne, -⟩
  · exact hk.ne_nil
  · exact hne

theorem SlotOk.exists_get_of {i : Fin 17} {t : Tree} (h : SlotOk i t)
    (hcanon : t.Canon → ∃ k, TermKey k ∧ t.get k ≠ none) :
    ∃ k, TermKey (nib i :: k) ∧ t.get k ≠ none := by
  unfold SlotOk at h
  split at h
  · rename_i hi
    obtain ⟨k, hk, hget⟩ := hcanon h
    exact ⟨k, hk.cons ((nib_lt_sixteen_iff i).mpr hi), hget⟩
  · rename_i hi
    obtain rfl : i = 16 := Fin.ext (by have := i.isLt; omega)
    obtain ⟨v, rfl, -⟩ := h
    exact ⟨[], TermKey.term, by simp [get]⟩

theorem Canon.exists_get {t : Tree} (ht : t.Canon) : ∃ k, TermKey k ∧ t.get k ≠ none := by
  induction t with
  | empty => exact absurd ht (by simp [Canon])
  | value v => exact absurd ht (by simp [Canon])
  | short a c ih =>
    rcases ht with ⟨hk, v, rfl, -⟩ | ⟨-, hn, -, hc⟩
    · exact ⟨a, hk, by simp [get_leaf_self]⟩
    · obtain ⟨k, hk, hget⟩ := ih hc
      exact ⟨a ++ k, TermKey.append hn hk, by rwa [get_short_append]⟩
  | full cs ih =>
    obtain ⟨i, -, hi⟩ := exists_occupied_ne ht.1 0
    have hs := (ht.slot i).resolve_left (by simp [hi])
    obtain ⟨k, hk, hget⟩ := hs.exists_get_of (ih i)
    exact ⟨nib i :: k, hk, by rwa [get_full_cons]⟩

theorem SlotOk.exists_get {i : Fin 17} {t : Tree} (h : SlotOk i t) :
    ∃ k, TermKey (nib i :: k) ∧ t.get k ≠ none :=
  h.exists_get_of Canon.exists_get

def Diverges (t : Tree) (n : Nat) : Prop :=
  ∃ c i j ki kj, c.length = n ∧ i ≠ j ∧ TermKey (c ++ nib i :: ki) ∧ TermKey (c ++ nib j :: kj) ∧
    t.get (c ++ nib i :: ki) ≠ none ∧ t.get (c ++ nib j :: kj) ≠ none

theorem SameMap.diverges {s t : Tree} {n : Nat} (h : SameMap s t) (hd : Diverges t n) :
    Diverges s n := by
  obtain ⟨c, i, j, ki, kj, hc, hij, hi, hj, hgi, hgj⟩ := hd
  exact ⟨c, i, j, ki, kj, hc, hij, hi, hj, by rwa [h _ hi], by rwa [h _ hj]⟩

theorem Canon.diverges {a : List UInt8} {cs : Fin 17 → Tree} (hn : Nibbles a) (hc : (Tree.full cs).Canon) :
    Diverges (Tree.short a (.full cs)) a.length ∧ Diverges (Tree.full cs) 0 := by
  obtain ⟨i, -, hi⟩ := exists_occupied_ne hc.1 0
  obtain ⟨j, hji, hj⟩ := exists_occupied_ne hc.1 i
  obtain ⟨ki, hki, hgi⟩ := ((hc.slot i).resolve_left (by simp [hi])).exists_get
  obtain ⟨kj, hkj, hgj⟩ := ((hc.slot j).resolve_left (by simp [hj])).exists_get
  have hij : i ≠ j := fun h => hji h.symm
  refine ⟨⟨a, i, j, ki, kj, rfl, hij, TermKey.append hn hki, TermKey.append hn hkj, ?_, ?_⟩,
    ⟨[], i, j, ki, kj, rfl, hij, hki, hkj, ?_, ?_⟩⟩
  · rwa [get_short_append, get_full_cons]
  · rwa [get_short_append, get_full_cons]
  · rwa [List.nil_append, get_full_cons]
  · rwa [List.nil_append, get_full_cons]

theorem Diverges.short_length_le {a : List UInt8} {c : Tree} {n : Nat} (hd : Diverges (Tree.short a c) n) :
    a.length ≤ n := by
  obtain ⟨p, i, j, ki, kj, rfl, hij, -, -, hgi, hgj⟩ := hd
  by_contra hle
  have hlt := Nat.lt_of_not_le hle
  have hi := (prefix_of_get_short hgi).getElem hlt
  have hj := (prefix_of_get_short hgj).getElem hlt
  simp only [List.getElem_append_right (le_refl _), Nat.sub_self, List.getElem_cons_zero] at hi hj
  exact hij (nib_inj (hi.symm.trans hj))

theorem Diverges.not_leaf {a v : List UInt8} {n : Nat} (ha : TermKey a)
    (hd : Diverges (Tree.short a (.value v)) n) : False := by
  obtain ⟨p, i, j, ki, kj, -, hij, hi, hj, hgi, hgj⟩ := hd
  have h₁ := TermKey.eq_of_prefix ha hi (prefix_of_get_short hgi)
  have h₂ := TermKey.eq_of_prefix ha hj (prefix_of_get_short hgj)
  exact hij (nib_inj (List.cons.inj (List.append_cancel_left (h₁.symm.trans h₂))).1)

theorem not_sameMap_short_full {a : List UInt8} {c : Tree} {ds : Fin 17 → Tree}
    (hs : (Tree.short a c).Canon) (ht : (Tree.full ds).Canon)
    (h : SameMap (Tree.short a c) (Tree.full ds)) : False := by
  have hlen := (h.diverges (Canon.diverges Nibbles.nil ht).2).short_length_le
  exact hs.key_ne_nil (List.length_eq_zero_iff.mp (Nat.le_zero.mp hlen))

theorem not_sameMap_empty {t : Tree} (ht : t.Canon) (h : SameMap .empty t) : False := by
  obtain ⟨k, hk, hget⟩ := ht.exists_get
  exact hget ((h k hk).symm.trans rfl)

theorem sameMap_short_key {a b : List UInt8} {c d : Tree} (hs : (Tree.short a c).Canon)
    (ht : (Tree.short b d).Canon) (h : SameMap (Tree.short a c) (Tree.short b d)) : a = b := by
  rcases hs with ⟨ha, v, rfl, -⟩ | ⟨hane, hna, ⟨cs, rfl⟩, hcs⟩ <;>
    rcases ht with ⟨hb, w, rfl, -⟩ | ⟨-, hnb, ⟨ds, rfl⟩, hds⟩
  · -- two leaves: each holds the other's key
    have hget : (Tree.short b (.value w)).get a ≠ none := by
      simp [← h a ha, get_leaf_self]
    exact (TermKey.eq_of_prefix hb ha (prefix_of_get_short hget)).symm
  · exact ((h.diverges (Canon.diverges hnb hds).1).not_leaf ha).elim
  · exact ((h.symm.diverges (Canon.diverges hna hcs).1).not_leaf hb).elim
  · -- two extensions: the keys part right after each key, so the keys are as long
    have h₁ := (h.symm.diverges (Canon.diverges hna hcs).1).short_length_le
    have h₂ := (h.diverges (Canon.diverges hnb hds).1).short_length_le
    obtain ⟨k, hk, hget⟩ := Canon.exists_get (show (Tree.short a (.full cs)).Canon from
      .inr ⟨hane, hna, ⟨cs, rfl⟩, hcs⟩)
    have hpa := prefix_of_get_short hget
    have hpb := prefix_of_get_short (h k hk ▸ hget)
    exact (List.prefix_of_prefix_length_le hpa hpb (by omega)).eq_of_length (by omega)

theorem canon_ext (s t : Tree) (hs : s.CanonRoot) (ht : t.CanonRoot) (h : SameMap s t) : s = t := by
  induction s generalizing t with
  | empty =>
    rcases ht with rfl | ht
    · rfl
    · exact (not_sameMap_empty ht h).elim
  | value v =>
    rcases hs with h | h
    · cases h
    · exact absurd h (by simp [Canon])
  | short a c ih =>
    have hs' : (Tree.short a c).Canon := hs.resolve_left (by simp)
    rcases ht with rfl | ht
    · exact (not_sameMap_empty hs' h.symm).elim
    cases t with
    | empty => exact absurd ht (by simp [Canon])
    | value w => exact absurd ht (by simp [Canon])
    | full ds => exact (not_sameMap_short_full hs' ht h).elim
    | short b d =>
      obtain rfl := sameMap_short_key hs' ht h
      rcases hs' with ⟨ha, v, rfl, -⟩ | ⟨-, hna, ⟨cs, rfl⟩, hcs⟩ <;>
        rcases ht with ⟨hb, w, rfl, -⟩ | ⟨-, hnb, ⟨ds, rfl⟩, hds⟩
      · have hv := h a ha
        rw [get_leaf_self, get_leaf_self, Option.some.injEq] at hv
        rw [hv]
      · exact (ha.not_nibbles hnb).elim
      · exact (hb.not_nibbles hna).elim
      · have hcd : SameMap (.full cs) (.full ds) := fun k hk => by
          simpa only [get_short_append] using h (a ++ k) (TermKey.append hna hk)
        rw [ih (.full ds) (.inr hcs) (.inr hds) hcd]
  | full cs ih =>
    have hs' : (Tree.full cs).Canon := hs.resolve_left (by simp)
    rcases ht with rfl | ht
    · exact (not_sameMap_empty hs' h.symm).elim
    cases t with
    | empty => exact absurd ht (by simp [Canon])
    | value w => exact absurd ht (by simp [Canon])
    | short b d => exact (not_sameMap_short_full ht hs' h.symm).elim
    | full ds =>
      have hslot : ∀ i k, TermKey (nib i :: k) → (cs i).get k = (ds i).get k := fun i k hk => by
        simpa only [get_full_cons] using h _ hk
      congr 1
      funext i
      by_cases hi : i.val < 16
      · -- a slot below a nibble: the subtrees have the same map
        exact ih i (ds i) (hs'.slot_root hi) (ht.slot_root hi)
          (fun k hk => hslot i k (hk.cons ((nib_lt_sixteen_iff i).mpr hi)))
      · -- the value slot: the map at the key that ends here
        obtain rfl : i = 16 := Fin.ext (by have := i.isLt; simp; omega)
        have h16 := hslot 16 [] TermKey.term
        rcases hs'.slot_value with he | ⟨v, hv, -⟩ <;> rcases ht.slot_value with he' | ⟨w, hw, -⟩ <;>
          simp_all [get]

end Tree

end Zerium.Trie
