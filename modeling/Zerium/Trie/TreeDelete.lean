import Zerium.Trie.TreeInsert

/-! # Deletion from the abstract trie

`delete` removes the key and leaves every other key as it was (`get_delete`), and brings a
canonical tree back to canonical form on the way up (`canon_delete`): a short node over a
short node is merged into one (`merge`), and a full node left with one occupied slot becomes
a short node (`collapse`).
-/

namespace Zerium.Trie

set_option autoImplicit false

namespace Tree

theorem get_short_append_eq (a b : List UInt8) (t : Tree) (k : List UInt8) :
    (Tree.short (a ++ b) t).get k = (Tree.short a (Tree.short b t)).get k := by
  rw [get_short, get_short]
  by_cases ha : a <+: k
  · obtain ⟨k', rfl⟩ := ha
    rw [if_pos (List.prefix_append a k'), List.drop_left' rfl, get_short]
    simp only [List.prefix_append_right_inj]
    split_ifs
    · simp [List.drop_append, List.drop_eq_nil_of_le]
    · rfl
  · have hab : ¬ (a ++ b) <+: k := fun h => ha ((List.prefix_append a b).trans h)
    rw [if_neg hab, if_neg ha]

/-! ## The slot that remains -/

theorem remainingPos_eq (cs : Fin 17 → Tree) : remainingPos cs = posOf (occupied cs) :=
  slotPos_eq _

theorem isEmpty_of_occupied_eq {cs : Fin 17 → Tree} {p : Fin 17} (h : occupied cs = [p])
    (j : Fin 17) (hj : j ≠ p) : (cs j).isEmpty = true := by
  have hnot : j ∉ occupied cs := by
    rw [h]
    simpa using hj
  rw [mem_occupied] at hnot
  simpa using hnot

theorem exists_occupied_ne {cs : Fin 17 → Tree} (h : 2 ≤ (occupied cs).length) (i : Fin 17) :
    ∃ j, j ≠ i ∧ (cs j).isEmpty = false := by
  rcases hocc : occupied cs with _ | ⟨a, _ | ⟨b, l⟩⟩
  · rw [hocc] at h
    simp at h
  · rw [hocc] at h
    simp at h
  · have hnd : (a :: b :: l).Nodup := hocc ▸ (List.nodup_finRange 17).filter _
    have hab : a ≠ b := fun h => (List.nodup_cons.mp hnd).1 (h ▸ List.mem_cons_self)
    have ha : (cs a).isEmpty = false := mem_occupied.mp (by rw [hocc]; simp)
    have hb : (cs b).isEmpty = false := mem_occupied.mp (by rw [hocc]; simp)
    by_cases hai : a = i
    · exact ⟨b, fun h => hab (hai.trans h.symm), hb⟩
    · exact ⟨a, hai, ha⟩

/-- The node that replaces a full node whose one occupied slot `p` holds `c`. -/
def collapse (p : Fin 17) (c : Tree) : Tree :=
  if p.val ≠ 16 then
    match c with
    | .short ckey cval => .short (nib p :: ckey) cval
    | _ => .short [nib p] c
  else .short [nib p] c

theorem get_collapse_slot {cs : Fin 17 → Tree} {p : Fin 17} (h : occupied cs = [p]) (j : Fin 17)
    (w : List UInt8) : (Tree.short [nib p] (cs p)).get (nib j :: w) = (Tree.full cs).get (nib j :: w) := by
  rw [get_short, get_full_cons]
  by_cases hjp : j = p
  · subst hjp
    simp
  · have hne : ¬ [nib p] <+: nib j :: w := by
      simp only [List.cons_prefix_cons, List.nil_prefix, and_true]
      exact fun h => hjp (nib_inj h).symm
    rw [if_neg hne, eq_empty_of_isEmpty (isEmpty_of_occupied_eq h j hjp)]
    rfl

theorem get_collapse {cs : Fin 17 → Tree} {p : Fin 17} (h : occupied cs = [p]) (j : Fin 17)
    (w : List UInt8) : (collapse p (cs p)).get (nib j :: w) = (Tree.full cs).get (nib j :: w) := by
  rw [← get_collapse_slot h, collapse.eq_def]
  split_ifs
  · split
    · rename_i ckey cval hp
      rw [hp, ← get_short_append_eq, List.singleton_append]
    · rfl
  · rfl

theorem canon_collapse {p : Fin 17} {c : Tree} (hs : SlotOk p c) : (collapse p c).Canon := by
  rw [collapse.eq_def]
  by_cases hp : p.val < 16
  · have hnib : nib p < 16 := (nib_lt_sixteen_iff p).mpr hp
    rw [SlotOk, if_pos hp] at hs
    rw [if_pos (by omega)]
    split
    · rcases hs with ⟨hk, hv⟩ | ⟨-, hn, hfull, hc⟩
      · exact .inl ⟨hk.cons hnib, hv⟩
      · exact .inr ⟨List.cons_ne_nil _ _, hn.cons hnib, hfull, hc⟩
    · rename_i hshort
      have hfull : ∃ cs, c = .full cs := by
        cases c with
        | full cs => exact ⟨cs, rfl⟩
        | short ckey cval => exact absurd rfl (hshort ckey cval)
        | _ => exact absurd hs (by simp [Canon])
      exact .inr ⟨List.cons_ne_nil _ _, Nibbles.nil.cons hnib, hfull, hs⟩
  · obtain rfl : p = 16 := Fin.ext (by have := p.isLt; simp; omega)
    rw [SlotOk, if_neg (by decide)] at hs
    rw [if_neg (by decide)]
    obtain ⟨v, rfl, hv⟩ := hs
    exact .inl ⟨TermKey.term, v, rfl, hv⟩

theorem delete_full_eq (cs : Fin 17 → Tree) (i : Fin 17) (rest : List UInt8)
    (hr : ((cs i).delete rest).1 = true) :
    ((Tree.full cs).delete (nib i :: rest)).2 =
      match occupied (Function.update cs i ((cs i).delete rest).2) with
      | [p] => collapse p (Function.update cs i ((cs i).delete rest).2 p)
      | _ => .full (Function.update cs i ((cs i).delete rest).2) := by
  simp only [delete, List.getElem?_cons_zero, Option.bind_eq_bind, Option.bind_some, childIndex_nib,
    List.drop_succ_cons, List.drop_zero, hr, Bool.not_true, Bool.false_eq_true, if_false]
  rw [remainingPos_eq]
  generalize Function.update cs i ((cs i).delete rest).2 = cs'
  rcases occupied cs' with _ | ⟨p, _ | ⟨q, l⟩⟩
  · simp [posOf]
  · have hp : Fin.ofNat 17 p.val = p := Fin.ext (by simp)
    simp only [posOf, Int.natCast_nonneg, if_true, Int.toNat_natCast, hp, collapse.eq_def]
    by_cases h16 : p.val = 16
    · obtain rfl : p = 16 := Fin.ext h16
      rfl
    · have h16' : (p.val : Int) ≠ 16 := by omega
      simp only [ne_eq, h16', not_false_eq_true, if_true, h16]
      generalize cs' p = c
      cases c <;> rfl
  · simp [posOf]

theorem get_delete_full (cs : Fin 17 → Tree) (i : Fin 17) (rest : List UInt8) (j : Fin 17)
    (w : List UInt8) :
    ((Tree.full cs).delete (nib i :: rest)).2.get (nib j :: w) =
      (Tree.full (Function.update cs i ((cs i).delete rest).2)).get (nib j :: w) := by
  by_cases hr : ((cs i).delete rest).1 = true
  · rw [delete_full_eq cs i rest hr]
    split
    · rename_i p hp
      exact get_collapse hp j w
    · rfl
  · have hu := delete_unchanged (cs i) rest (by simpa using hr)
    have hfalse : ((Tree.full cs).delete (nib i :: rest)).1 = false := by
      simp [delete, childIndex_nib, hr]
    rw [delete_unchanged _ _ hfalse, hu, Function.update_eq_self]

theorem delete_full_isEmpty (cs : Fin 17 → Tree) (key : List UInt8) :
    ((Tree.full cs).delete key).2.isEmpty = false := by
  simp only [Tree.delete]
  (repeat' split) <;> simp [Tree.isEmpty]

/-! ## Below a short node -/

def merge (nkey : List UInt8) (child : Tree) : Tree :=
  match child with
  | .short ckey cval => .short (nkey ++ ckey) cval
  | child => .short nkey child

theorem get_merge (nkey : List UInt8) (child : Tree) (k : List UInt8) :
    (merge nkey child).get k = (Tree.short nkey child).get k := by
  unfold merge
  split
  · exact get_short_append_eq _ _ _ k
  · rfl

theorem canon_merge {nkey : List UInt8} {child : Tree} (hne : nkey ≠ []) (hn : Nibbles nkey)
    (hc : child.Canon) (hshape : (∃ ckey cval, child = .short ckey cval) ∨ ∃ cs, child = .full cs) :
    (merge nkey child).Canon := by
  rcases hshape with ⟨ckey, cval, rfl⟩ | ⟨cs, rfl⟩
  · rcases hc with ⟨hk, hv⟩ | ⟨-, hck, hfull, hcval⟩
    · exact .inl ⟨TermKey.append hn hk, hv⟩
    · exact .inr ⟨by simp [hne], hn.append hck, hfull, hcval⟩
  · exact .inr ⟨hne, hn, ⟨cs, rfl⟩, hc⟩

theorem delete_short_eq (nkey : List UInt8) (nval : Tree) (key : List UInt8) (hm : nkey <+: key)
    (hne : key ≠ nkey) (hr : (nval.delete (key.drop nkey.length)).1 = true) :
    ((Tree.short nkey nval).delete key).2 = merge nkey (nval.delete (key.drop nkey.length)).2 := by
  have hlen : prefixLen key nkey = nkey.length := (prefixLen_eq_right_iff key nkey).mpr hm
  have hkl : nkey.length ≠ key.length := fun h => hne (hm.eq_of_length h).symm
  simp only [delete, hlen, lt_irrefl, if_false, hkl, hr, Bool.not_true, Bool.false_eq_true]
  unfold merge
  generalize (nval.delete (key.drop nkey.length)).2 = c
  cases c <;> rfl

theorem get_delete_short (nkey : List UInt8) (nval : Tree) (key : List UInt8) (hm : nkey <+: key)
    (hne : key ≠ nkey) (k : List UInt8) :
    ((Tree.short nkey nval).delete key).2.get k =
      (Tree.short nkey (nval.delete (key.drop nkey.length)).2).get k := by
  by_cases hr : (nval.delete (key.drop nkey.length)).1 = true
  · rw [delete_short_eq nkey nval key hm hne hr, get_merge]
  · have hu := delete_unchanged nval _ (by simpa using hr)
    have hlen : prefixLen key nkey = nkey.length := (prefixLen_eq_right_iff key nkey).mpr hm
    have hkl : nkey.length ≠ key.length := fun h => hne (hm.eq_of_length h).symm
    have hfalse : ((Tree.short nkey nval).delete key).1 = false := by
      simp only [delete, hlen, lt_irrefl, if_false, hkl]
      simp [hr]
    rw [delete_unchanged _ _ hfalse, hu]

/-! ## Lookups after a deletion -/

theorem get_delete (t : Tree) (key : List UInt8) (ht : Fits t key) (k : List UInt8)
    (hk : SameShape key k) : (t.delete key).2.get k = if k = key then none else t.get k := by
  induction t generalizing key k with
  | empty => simp [delete, get]
  | value w =>
    rcases ht with ⟨rfl, -⟩ | ⟨-, hroot⟩
    · obtain rfl := hk.of_nil
      simp [delete, get]
    · rcases hroot with h | h
      · cases h
      · exact absurd h (by simp [Canon])
  | short nkey nval ih =>
    rcases ht with ⟨-, hv⟩ | ⟨hkey, hroot⟩
    · rcases hv with h | ⟨w, h⟩ <;> cases h
    · have hcanon : (Tree.short nkey nval).Canon := hroot.resolve_left (by simp)
      have hk' := hk.of_termKey hkey
      by_cases hm : nkey <+: key
      · by_cases hne : key = nkey
        · -- the whole short node goes
          subst hne
          have hdel : (Tree.short key nval).delete key = (true, .empty) := by
            simp [delete, prefixLen_eq_right_iff key key |>.mpr (List.prefix_refl key)]
          rw [hdel, get_short]
          by_cases hp : key <+: k
          · obtain rfl := TermKey.eq_of_prefix hkey hk' hp
            simp [get]
          · have hkk : k ≠ key := fun h => hp (h ▸ List.prefix_refl _)
            simp [get, hp, hkk]
        · rw [get_delete_short nkey nval key hm hne, get_short, get_short]
          by_cases hpk : nkey <+: k
          · rw [if_pos hpk, if_pos hpk, ih _ (hcanon.short_child hm hkey) _
              (hcanon.short_shape hm hpk hkey hk')]
            congr 1
            obtain ⟨a, rfl⟩ := hm
            obtain ⟨b, rfl⟩ := hpk
            simp
          · have hkk : k ≠ key := fun h => hpk (h ▸ hm)
            rw [if_neg hpk, if_neg hpk, if_neg hkk]
      · -- the key leaves the short node's key: nothing changes
        have hlt : prefixLen key nkey < nkey.length :=
          lt_of_le_of_ne (prefixLen_le_right _ _) (fun h => hm ((prefixLen_eq_right_iff _ _).mp h))
        have hdel : (Tree.short nkey nval).delete key = (false, .short nkey nval) := by
          simp [delete, hlt]
        rw [hdel]
        by_cases hkk : k = key
        · subst hkk
          rw [if_pos rfl, get_short_eq_none _ hm]
        · rw [if_neg hkk]
  | full cs ih =>
    rcases ht with ⟨-, hv⟩ | ⟨hkey, hroot⟩
    · rcases hv with h | ⟨w, h⟩ <;> cases h
    · have hcanon : (Tree.full cs).Canon := hroot.resolve_left (by simp)
      have hk' := hk.of_termKey hkey
      obtain ⟨i, rest, rfl, -⟩ := hkey.cons_nib
      obtain ⟨j, w, rfl, -⟩ := hk'.cons_nib
      rw [get_delete_full, get_full_cons, get_full_cons]
      by_cases hji : j = i
      · rw [hji, Function.update_self, ih i rest (hcanon.full_child hkey) w
          (full_shape hkey (hji ▸ hk'))]
        simp
      · have hne : nib j :: w ≠ nib i :: rest := fun h => hji (nib_inj (List.cons.inj h).1)
        rw [Function.update_of_ne hji, if_neg hne]

/-! ## Canonical form after a deletion -/

theorem canon_delete (t : Tree) (key : List UInt8) (hkey : TermKey key) (ht : t.CanonRoot) :
    (t.delete key).2.CanonRoot := by
  induction t generalizing key with
  | empty => exact .inl rfl
  | value w =>
    rcases ht with h | h
    · cases h
    · exact absurd h (by simp [Canon])
  | short nkey nval ih =>
    have hc : (Tree.short nkey nval).Canon := ht.resolve_left (by simp)
    by_cases hm : nkey <+: key
    · by_cases hne : key = nkey
      · subst hne
        have hdel : (Tree.short key nval).delete key = (true, .empty) := by
          simp [delete, prefixLen_eq_right_iff key key |>.mpr (List.prefix_refl key)]
        rw [hdel]
        exact .inl rfl
      · by_cases hr : (nval.delete (key.drop nkey.length)).1 = true
        · rw [delete_short_eq nkey nval key hm hne hr]
          rcases hc with ⟨hk, -⟩ | ⟨hnk, hn, ⟨cs, rfl⟩, hcs⟩
          · exact absurd (TermKey.eq_of_prefix hk hkey hm).symm hne
          · have hrest : TermKey (key.drop nkey.length) :=
              (hkey.of_prefix hm (fun h => hne h.symm)).2
            have hnew : ((Tree.full cs).delete (key.drop nkey.length)).2.Canon :=
              (ih _ hrest (.inr hcs)).resolve_left (fun h => by
                have := delete_full_isEmpty cs (key.drop nkey.length)
                rw [h] at this
                cases this)
            refine .inr (canon_merge hnk hn hnew ?_)
            cases hd : ((Tree.full cs).delete (key.drop nkey.length)).2 with
            | short ckey cval => exact .inl ⟨ckey, cval, rfl⟩
            | full cs' => exact .inr ⟨cs', rfl⟩
            | _ => rw [hd] at hnew; exact absurd hnew (by simp [Canon])
        · rw [delete_unchanged _ _ (by
            have hlen : prefixLen key nkey = nkey.length := (prefixLen_eq_right_iff key nkey).mpr hm
            have hkl : nkey.length ≠ key.length := fun h => hne (hm.eq_of_length h).symm
            simp only [delete, hlen, lt_irrefl, if_false, hkl]
            simp [hr])]
          exact .inr hc
    · have hlt : prefixLen key nkey < nkey.length :=
        lt_of_le_of_ne (prefixLen_le_right _ _) (fun h => hm ((prefixLen_eq_right_iff _ _).mp h))
      have hdel : (Tree.short nkey nval).delete key = (false, .short nkey nval) := by
        simp [delete, hlt]
      rw [hdel]
      exact .inr hc
  | full cs ih =>
    have hc : (Tree.full cs).Canon := ht.resolve_left (by simp)
    obtain ⟨i, rest, rfl, hrest⟩ := hkey.cons_nib
    by_cases hr : ((cs i).delete rest).1 = true
    · -- every slot of the new full node is empty or fits its slot
      have hslot : ∀ j, (Function.update cs i ((cs i).delete rest).2 j).isEmpty ∨
          SlotOk j (Function.update cs i ((cs i).delete rest).2 j) := by
        intro j
        by_cases hji : j = i
        · subst hji
          rw [Function.update_self]
          rcases hrest with ⟨rfl, rfl⟩ | ⟨hi, hrest⟩
          · left
            rcases hc.slot_value with he | ⟨v, hv, -⟩
            · rw [he]
              rfl
            · rw [hv]
              rfl
          · rcases ih j rest hrest (hc.slot_root hi) with he | hs
            · exact .inl (by rw [he]; rfl)
            · exact .inr (by rw [SlotOk, if_pos hi]; exact hs)
        · rw [Function.update_of_ne hji]
          exact hc.slot j
      rw [delete_full_eq cs i rest hr]
      obtain ⟨j, hji, hj⟩ := exists_occupied_ne hc.1 i
      have hj' : (Function.update cs i ((cs i).delete rest).2 j).isEmpty = false := by
        rw [Function.update_of_ne hji]
        exact hj
      split
      · rename_i p hp
        refine .inr (canon_collapse ((hslot p).resolve_left ?_))
        have := mem_occupied.mp (show p ∈ occupied _ by rw [hp]; simp)
        simp [this]
      · rename_i hnot
        refine .inr (canon_full ?_ hslot)
        rcases hocc : occupied (Function.update cs i ((cs i).delete rest).2) with _ | ⟨a, _ | ⟨b, l⟩⟩
        · have := mem_occupied.mpr hj'
          rw [hocc] at this
          cases this
        · exact absurd hocc (hnot a)
        · simp
    · rw [delete_unchanged _ _ (by simp [delete, childIndex_nib, hr])]
      exact .inr hc

end Tree

end Zerium.Trie
