import Mathlib

/-! # Copying into a slice

Go's `copy(dst[off:], src)` writes the elements of `src` over `dst` from position `off` on,
as many as fit, and leaves the length of `dst` as it was. `copyAt` is that write on lists, and
its lemmas say what is found at each position afterwards: the element of `src` inside the
window, the old element outside it.
-/

namespace Slice

set_option autoImplicit false

variable {α : Type}

/-- `copy(dst[off:], src)`: the positions from `off` on take the elements of `src`. -/
def copyAt (dst : List α) (off : Nat) (src : List α) : List α :=
  dst.mapIdx fun p x => if off ≤ p ∧ p - off < src.length then src.getD (p - off) x else x

@[simp] theorem length_copyAt (dst : List α) (off : Nat) (src : List α) :
    (copyAt dst off src).length = dst.length := by
  simp [copyAt]

theorem getElem?_copyAt (dst : List α) (off : Nat) (src : List α) (p : Nat) :
    (copyAt dst off src)[p]? =
      if off ≤ p ∧ p - off < src.length ∧ p < dst.length then src[p - off]? else dst[p]? := by
  rw [copyAt, List.getElem?_mapIdx]
  by_cases hp : p < dst.length
  · rw [List.getElem?_eq_getElem hp]
    by_cases hw : off ≤ p ∧ p - off < src.length
    · simp [hw, hp]
    · have hw' : ¬ (off ≤ p ∧ p - off < src.length ∧ p < dst.length) := fun h => hw ⟨h.1, h.2.1⟩
      simp [hw, hw']
  · simp [hp]

theorem getElem?_copyAt_of_not_mem {dst : List α} {off : Nat} {src : List α} {p : Nat}
    (hp : p < off ∨ off + src.length ≤ p) : (copyAt dst off src)[p]? = dst[p]? := by
  rw [getElem?_copyAt, if_neg (by omega)]

theorem getElem?_copyAt_of_mem {dst : List α} {off : Nat} {src : List α} {p : Nat}
    (hoff : off ≤ p) (hsrc : p < off + src.length) (hdst : p < dst.length) :
    (copyAt dst off src)[p]? = src[p - off]? := by
  rw [getElem?_copyAt, if_pos (by omega)]

theorem getElem?_foldl_of_forall {β : Type} (f : List α → β → List α) (p : Nat)
    (hf : ∀ dst b, (f dst b)[p]? = dst[p]?) (l : List β) (dst : List α) :
    (l.foldl f dst)[p]? = dst[p]? := by
  induction l generalizing dst with
  | nil => rfl
  | cons b l ih => rw [List.foldl_cons, ih, hf]

theorem length_foldl_of_forall {β : Type} (f : List α → β → List α)
    (hf : ∀ dst b, (f dst b).length = dst.length) (l : List β) (dst : List α) :
    (l.foldl f dst).length = dst.length := by
  induction l generalizing dst with
  | nil => rfl
  | cons b l ih => rw [List.foldl_cons, ih, hf]

theorem copyAt_eq_append {dst : List α} {off : Nat} {src : List α} (h : off + src.length ≤ dst.length) :
    copyAt dst off src = dst.take off ++ src ++ dst.drop (off + src.length) := by
  apply List.ext_getElem?
  intro p
  rw [getElem?_copyAt]
  rcases Nat.lt_or_ge p off with hlo | hlo
  · rw [if_neg (by omega), List.append_assoc, List.getElem?_append_left (by simp; omega),
      List.getElem?_take_of_lt hlo]
  rcases Nat.lt_or_ge p (off + src.length) with hhi | hhi
  · rw [if_pos ⟨hlo, by omega, by omega⟩, List.getElem?_append_left (by simp; omega),
      List.getElem?_append_right (by simp; omega), List.length_take, Nat.min_eq_left (by omega)]
  · rw [if_neg (by omega), List.getElem?_append_right (by simp; omega), List.getElem?_drop]
    simp only [List.length_append, List.length_take]
    congr 1
    omega

theorem copyAt_zero {dst src : List α} (h : src.length ≤ dst.length) :
    copyAt dst 0 src = src ++ dst.drop src.length := by
  rw [copyAt_eq_append (by omega), List.take_zero, List.nil_append, Nat.zero_add]

theorem take_copyAt_drop_take {dst t : List α} {k m : Nat} (hk : dst.take k = t.take k)
    (hm : k + m ≤ dst.length) (ht : k + m ≤ t.length) :
    (copyAt dst k ((t.drop k).take m)).take (k + m) = t.take (k + m) := by
  have hlen : ((t.drop k).take m).length = m := by simp; omega
  rw [copyAt_eq_append (by omega), hlen, List.take_left' (by simp; omega), hk, List.take_add]

@[simp] theorem copyAt_nil (dst : List α) (off : Nat) : copyAt dst off [] = dst := by
  apply List.ext_getElem?
  intro p
  rw [getElem?_copyAt, if_neg (by simp)]

theorem copyAt_copyAt_append (dst : List α) (off : Nat) (a b : List α) :
    copyAt (copyAt dst off a) (off + a.length) b = copyAt dst off (a ++ b) := by
  apply List.ext_getElem?
  intro p
  rw [getElem?_copyAt, getElem?_copyAt, length_copyAt, getElem?_copyAt, List.length_append]
  by_cases hb : off + a.length ≤ p ∧ p - (off + a.length) < b.length ∧ p < dst.length
  · rw [if_pos hb, if_pos ⟨by omega, by omega, hb.2.2⟩, List.getElem?_append_right (by omega)]
    congr 1
    omega
  · rw [if_neg hb]
    by_cases ha : off ≤ p ∧ p - off < a.length ∧ p < dst.length
    · rw [if_pos ha, if_pos ⟨ha.1, by omega, ha.2.2⟩, List.getElem?_append_left ha.2.1]
    · rw [if_neg ha, if_neg (by omega)]

theorem take_drop_copyAt {dst : List α} {off : Nat} {src : List α} (h : off + src.length ≤ dst.length) :
    ((copyAt dst off src).drop off).take src.length = src := by
  rw [copyAt_eq_append h, List.append_assoc, List.drop_left' (by simp; omega), List.take_left' rfl]

theorem set_copyAt_drop {l : List α} {i : Nat} (hi : i < l.length) (x : α) :
    (copyAt l (i + 1) (l.drop i)).set i x = (l.take i ++ x :: l.drop i).take l.length := by
  apply List.ext_getElem?
  intro p
  rw [List.getElem?_set, length_copyAt, getElem?_copyAt, List.getElem?_take]
  rcases Nat.lt_trichotomy p i with hp | rfl | hp
  · rw [if_neg (by omega), if_neg (by omega), if_pos (by omega),
      List.getElem?_append_left (by simp; omega), List.getElem?_take_of_lt hp]
  · rw [if_pos rfl, if_pos hi, if_pos hi,
      List.getElem?_append_right (by rw [List.length_take]; omega), List.length_take,
      Nat.min_eq_left (Nat.le_of_lt hi), Nat.sub_self, List.getElem?_cons_zero]
  · by_cases hpl : p < l.length
    · rw [if_neg (by omega), if_pos ⟨by omega, by simp; omega, hpl⟩, if_pos hpl,
        List.getElem?_append_right (by simp; omega), List.getElem?_drop]
      simp only [List.length_take, Nat.min_eq_left (Nat.le_of_lt hi)]
      rw [List.getElem?_cons, if_neg (by omega), List.getElem?_drop, Nat.sub_add_eq]
    · rw [if_neg (by omega), if_neg (by omega), if_neg hpl, List.getElem?_eq_none (by omega)]

theorem set_copyAt_take {l : List α} {i : Nat} (hi : i < l.length) (x : α) :
    (copyAt l 1 (l.take i)).set 0 x = x :: l.eraseIdx i := by
  have hlen : (l.take i).length = i := List.length_take_of_le (Nat.le_of_lt hi)
  rw [copyAt_eq_append (by omega), hlen, List.eraseIdx_eq_take_drop_succ]
  obtain ⟨y, l', rfl⟩ := List.exists_cons_of_length_pos (Nat.lt_of_le_of_lt (Nat.zero_le i) hi)
  rw [Nat.add_comm 1 i]
  rfl

/-! ## A slice of slices with one head taken

`buckets[j] = b[1:]` drops the head of one inner slice, and `append(buckets[:j], buckets[j+1:]...)`
then removes that slice once it is empty: the elements of all the inner slices are those before,
less the head. -/

theorem perm_flatten_set_tail : ∀ {bs : List (List α)} {j : Nat} {x : α} {rest : List α},
    bs[j]? = some (x :: rest) → (x :: (bs.set j rest).flatten).Perm bs.flatten
  | [], _, _, _, h => by simp at h
  | b :: bs, 0, x, rest, h => by
    obtain rfl : b = x :: rest := by simpa using h
    simp
  | b :: bs, j + 1, x, rest, h => by
    rw [List.getElem?_cons_succ] at h
    rw [List.set_cons_succ, List.flatten_cons, List.flatten_cons]
    exact List.perm_middle.symm.trans ((perm_flatten_set_tail h).append_left b)

theorem flatten_eraseIdx_of_nil : ∀ {bs : List (List α)} {j : Nat}, bs[j]? = some [] →
    (bs.eraseIdx j).flatten = bs.flatten
  | [], _, h => by simp at h
  | b :: bs, 0, h => by
    obtain rfl : b = [] := by simpa using h
    simp
  | b :: bs, j + 1, h => by
    rw [List.getElem?_cons_succ] at h
    simp [flatten_eraseIdx_of_nil h]

theorem length_flatten_pos {bs : List (List α)} (hne : ∀ b ∈ bs, b ≠ []) (h : 0 < bs.length) :
    0 < bs.flatten.length := by
  obtain ⟨b, hb⟩ := List.exists_mem_of_length_pos h
  obtain ⟨x, xs, rfl⟩ := List.exists_cons_of_ne_nil (hne b hb)
  exact List.length_pos_of_mem (List.mem_flatten_of_mem hb List.mem_cons_self)

end Slice
