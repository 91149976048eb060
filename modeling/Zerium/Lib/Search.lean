import Mathlib

/-! # Binary search for the first index where a predicate holds (`sort.Search`)

`sort.Search(n, f)` finds the smallest index `i` in `[0, n)` at which `f` holds, or `n`, halving
the window `[i, j)` at each step. It assumes that `f` is false up to some index and true from
there on; on such a predicate it returns that index (`searchLoop_eq`). For a predicate read off
the elements of a list that, once it holds of an element, holds of all later ones, that is the
first element where it holds, `List.findIdx` (`Search_eq_findIdx`).
-/

namespace BinarySearch

set_option autoImplicit false

/-- The loop of `sort.Search` on the window `[i, j)`; `int(uint(i+j) >> 1)` does not wrap, and is
the midpoint `(i + j) / 2`. -/
def searchLoop (f : Nat → Bool) (i j : Nat) : Nat :=
  if hij : i < j then
    let h := (i + j) / 2
    if !f h then searchLoop f (h + 1) j else searchLoop f i h
  else i
termination_by j - i

def Search (n : Nat) (f : Nat → Bool) : Nat := searchLoop f 0 n

theorem searchLoop_eq {f : Nat → Bool} {i j k : Nat} (hik : i ≤ k) (hkj : k ≤ j)
    (hbelow : ∀ m, m < k → f m = false) (habove : ∀ m, k ≤ m → m < j → f m = true) :
    searchLoop f i j = k := by
  fun_induction searchLoop f i j with
  | case1 i j hij h hf ih =>
    -- `f` is false at the midpoint, so `k` lies above it
    have hh : h < k := by
      apply Nat.lt_of_not_le
      intro hkh
      have := habove h hkh (by omega)
      simp_all
    exact ih (by omega) hkj habove
  | case2 i j hij h hf ih =>
    have hh : k ≤ h := by
      apply Nat.le_of_not_lt
      intro hhk
      have := hbelow h hhk
      simp_all
    exact ih hik hh (fun m hm hmh => habove m hm (by omega))
  | case3 i j hij => omega

theorem searchLoop_le (f : Nat → Bool) (i j : Nat) : i ≤ j → searchLoop f i j ≤ j := by
  fun_induction searchLoop f i j with
  | case1 i j hij h hf ih =>
    intro _
    exact ih (by omega)
  | case2 i j hij h hf ih =>
    intro _
    have := ih (by omega)
    omega
  | case3 i j hij =>
    intro hle
    exact hle

theorem Search_le (n : Nat) (f : Nat → Bool) : Search n f ≤ n := searchLoop_le f 0 n (Nat.zero_le n)

theorem Search_eq_findIdx {α : Type} (l : List α) (p : α → Bool)
    (hmono : l.Pairwise fun a b => p a = true → p b = true) :
    Search l.length (fun m => l[m]?.any p) = l.findIdx p := by
  apply searchLoop_eq (Nat.zero_le _) List.findIdx_le_length
  · intro m hm
    have hml : m < l.length := Nat.lt_of_lt_of_le hm List.findIdx_le_length
    rw [List.getElem?_eq_getElem hml, Option.any_some]
    exact List.not_of_lt_findIdx hm
  · intro m hkm hml
    have hk : l.findIdx p < l.length := Nat.lt_of_le_of_lt hkm hml
    rw [List.getElem?_eq_getElem hml, Option.any_some]
    rcases Nat.lt_or_eq_of_le hkm with hlt | heq
    · exact List.pairwise_iff_getElem.mp hmono _ _ hk hml hlt List.findIdx_getElem
    · simp only [← heq]
      exact List.findIdx_getElem

end BinarySearch
