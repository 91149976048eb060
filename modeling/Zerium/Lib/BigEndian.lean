import Mathlib

/-! # Big-endian byte strings of natural numbers

Minimal big-endian encodings of natural numbers over `UInt8`, read back by a left fold.
The encoding is the reversed base-256 digit list of Mathlib, so the round trips are
instances of `Nat.ofDigits_digits` and `Nat.digits_ofDigits`.
-/

namespace BigEndian

set_option autoImplicit false

def toNat (bs : List UInt8) : Nat := bs.foldl (fun acc b => acc * 256 + b.toNat) 0

def ofNat (n : Nat) : List UInt8 := ((Nat.digits 256 n).map UInt8.ofNat).reverse

theorem toNat_nil : toNat [] = 0 := rfl

theorem toNat_append_singleton (bs : List UInt8) (b : UInt8) :
    toNat (bs ++ [b]) = toNat bs * 256 + b.toNat := by
  simp only [toNat, List.foldl_append, List.foldl_cons, List.foldl_nil]

theorem toNat_eq_ofDigits (bs : List UInt8) :
    toNat bs = Nat.ofDigits 256 (bs.reverse.map UInt8.toNat) := by
  induction bs using List.reverseRecOn with
  | nil => rfl
  | append_singleton bs b ih =>
    rw [toNat_append_singleton, ih, List.reverse_append, List.reverse_singleton,
      List.singleton_append, List.map_cons, Nat.ofDigits_cons]
    ring

theorem toNat_ofNat (n : Nat) : toNat (ofNat n) = n := by
  have hdigits : ∀ d ∈ Nat.digits 256 n, (UInt8.ofNat d).toNat = d := by
    intro d hd
    exact UInt8.toNat_ofNat_of_lt' (Nat.digits_lt_base (by decide) hd)
  rw [toNat_eq_ofDigits, ofNat, List.reverse_reverse, List.map_map]
  rw [List.map_congr_left (g := id) (by simpa using hdigits), List.map_id]
  exact Nat.ofDigits_digits 256 n

theorem ofNat_toNat (bs : List UInt8) (hHead : bs.head? ≠ some 0) : ofNat (toNat bs) = bs := by
  have hBase : ∀ d ∈ bs.reverse.map UInt8.toNat, d < 256 := by
    intro d hd
    obtain ⟨b, -, rfl⟩ := List.mem_map.mp hd
    exact b.toNat_lt
  have hLast : ∀ h : bs.reverse.map UInt8.toNat ≠ [],
      (bs.reverse.map UInt8.toNat).getLast h ≠ 0 := by
    intro h
    cases bs with
    | nil => simp at h
    | cons b tail =>
      have hb : b ≠ 0 := fun hb => hHead (by simp [hb])
      simp only [List.reverse_cons, List.map_append, List.map_cons, List.map_nil]
      exact fun h0 => hb (UInt8.toNat_inj.mp (by simpa using h0))
  rw [toNat_eq_ofDigits, ofNat, Nat.digits_ofDigits 256 (by decide) _ hBase hLast,
    List.map_map, List.map_congr_left (g := id) (by simp), List.map_id, List.reverse_reverse]

theorem length_ofNat (n : Nat) : (ofNat n).length = (Nat.digits 256 n).length := by
  simp [ofNat]

theorem length_ofNat_le_iff (n k : Nat) : (ofNat n).length ≤ k ↔ n < 256 ^ k := by
  rw [length_ofNat]
  exact Nat.digits_length_le_iff (by decide) n

theorem ofNat_eq_nil_iff (n : Nat) : ofNat n = [] ↔ n = 0 := by
  simp only [ofNat, List.reverse_eq_nil_iff, List.map_eq_nil_iff]
  rw [← not_iff_not]
  exact Nat.digits_ne_nil_iff_ne_zero

theorem ofNat_zero : ofNat 0 = [] := (ofNat_eq_nil_iff 0).mpr rfl

theorem head_ofNat_ne_zero (n : Nat) : (ofNat n).head? ≠ some 0 := by
  intro h
  have hn : n ≠ 0 := by
    rintro rfl
    simp [ofNat_zero] at h
  have hLast := Nat.getLast_digit_ne_zero 256 hn
  have hLt : (Nat.digits 256 n).getLast (Nat.digits_ne_nil_iff_ne_zero.mpr hn) < 256 :=
    Nat.digits_lt_base (by decide) (List.getLast_mem _)
  rw [ofNat, List.head?_reverse, List.getLast?_map,
    List.getLast?_eq_some_getLast (Nat.digits_ne_nil_iff_ne_zero.mpr hn)] at h
  simp only [Option.map_some, Option.some.injEq] at h
  apply hLast
  have h' := congrArg UInt8.toNat h
  rwa [UInt8.toNat_ofNat_of_lt' hLt] at h'

theorem length_ofNat_of_pos (n : Nat) (hn : 0 < n) :
    (ofNat n).length = (ofNat (n / 256)).length + 1 := by
  rw [length_ofNat, length_ofNat, Nat.digits_def' (by decide) hn, List.length_cons]

theorem ofNat_of_lt (n : Nat) (hn : 0 < n) (hlt : n < 256) : ofNat n = [UInt8.ofNat n] := by
  rw [ofNat, Nat.digits_of_lt 256 n (by omega) hlt]
  rfl

theorem toNat_lt_pow (bs : List UInt8) : toNat bs < 256 ^ bs.length := by
  induction bs using List.reverseRecOn with
  | nil => decide
  | append_singleton bs b ih =>
    rw [toNat_append_singleton, List.length_append, List.length_singleton, Nat.pow_succ]
    have hb := b.toNat_lt
    have : toNat bs * 256 + 256 ≤ 256 ^ bs.length * 256 := by
      rw [← Nat.succ_mul]
      exact Nat.mul_le_mul_right 256 ih
    omega

theorem toNat_zero_cons (bs : List UInt8) : toNat (0 :: bs) = toNat bs := by
  simp only [toNat, List.foldl_cons, UInt8.toNat_zero, Nat.zero_mul, Nat.add_zero]

theorem toNat_replicate_zero_append (k : Nat) (bs : List UInt8) :
    toNat (List.replicate k 0 ++ bs) = toNat bs := by
  induction k with
  | zero => rfl
  | succ k ih => rw [List.replicate_succ, List.cons_append, toNat_zero_cons, ih]

theorem toNat_append (bs cs : List UInt8) : toNat (bs ++ cs) = toNat bs * 256 ^ cs.length + toNat cs := by
  induction cs using List.reverseRecOn with
  | nil => simp [toNat_nil]
  | append_singleton cs c ih =>
    rw [← List.append_assoc, toNat_append_singleton, ih, toNat_append_singleton, List.length_append,
      List.length_singleton, Nat.pow_succ]
    ring

theorem toNat_cons (b : UInt8) (bs : List UInt8) :
    toNat (b :: bs) = b.toNat * 256 ^ bs.length + toNat bs := by
  rw [← List.singleton_append, toNat_append]
  simp [toNat]

theorem toNat_cons_lt_cons_iff {a b : UInt8} {as bs : List UInt8} (h : as.length = bs.length) :
    toNat (a :: as) < toNat (b :: bs) ↔ a < b ∨ a = b ∧ toNat as < toNat bs := by
  have hA := toNat_lt_pow as
  have hB := toNat_lt_pow bs
  rw [toNat_cons, toNat_cons, ← h]
  rw [← h] at hB
  set K := 256 ^ as.length
  rcases Nat.lt_trichotomy a.toNat b.toNat with hab | hab | hab
  · have hlt : a.toNat * K + toNat as < b.toNat * K + toNat bs :=
      calc a.toNat * K + toNat as < (a.toNat + 1) * K := by rw [Nat.succ_mul]; omega
        _ ≤ b.toNat * K := Nat.mul_le_mul_right K hab
        _ ≤ b.toNat * K + toNat bs := Nat.le_add_right _ _
    exact iff_of_true hlt (Or.inl (UInt8.lt_iff_toNat_lt.mpr hab))
  · obtain rfl : a = b := UInt8.toNat_inj.mp hab
    simp
  · have hlt : b.toNat * K + toNat bs < a.toNat * K + toNat as :=
      calc b.toNat * K + toNat bs < (b.toNat + 1) * K := by rw [Nat.succ_mul]; omega
        _ ≤ a.toNat * K := Nat.mul_le_mul_right K hab
        _ ≤ a.toNat * K + toNat as := Nat.le_add_right _ _
    refine iff_of_false (Nat.lt_asymm hlt) ?_
    rintro (h' | ⟨rfl, -⟩)
    · exact Nat.lt_asymm hab (UInt8.lt_iff_toNat_lt.mp h')
    · exact Nat.lt_irrefl _ hab
theorem toNat_drop (bs : List UInt8) {k : Nat} (hk : k ≤ bs.length) :
    toNat (bs.drop (bs.length - k)) = toNat bs % 256 ^ k := by
  have hlen : (bs.drop (bs.length - k)).length = k := by
    rw [List.length_drop]
    omega
  have hsplit := toNat_append (bs.take (bs.length - k)) (bs.drop (bs.length - k))
  rw [List.take_append_drop, hlen] at hsplit
  have hlt := toNat_lt_pow (bs.drop (bs.length - k))
  rw [hlen] at hlt
  rw [hsplit, Nat.add_comm, Nat.add_mul_mod_self_right, Nat.mod_eq_of_lt hlt]

theorem pow_le_toNat (bs : List UInt8) (hne : bs ≠ []) (hHead : bs.head? ≠ some 0) :
    256 ^ (bs.length - 1) ≤ toNat bs := by
  by_contra hlt
  have hLen := (length_ofNat_le_iff (toNat bs) (bs.length - 1)).mpr (by omega)
  rw [ofNat_toNat bs hHead] at hLen
  have : 0 < bs.length := List.length_pos_iff.mpr hne
  omega

theorem testBit_toNat (bs : List UInt8) (i : Nat) (hi : i < 8 * bs.length) :
    (toNat bs).testBit i = (bs.getD (bs.length - 1 - i / 8) 0).toNat.testBit (i % 8) := by
  induction bs using List.reverseRecOn generalizing i with
  | nil => simp at hi
  | append_singleton bs b ih =>
    rw [toNat_append_singleton, Nat.mul_comm, show (256 : Nat) = 2 ^ 8 from rfl,
      Nat.testBit_two_pow_mul_add _ b.toNat_lt, List.length_append, List.length_singleton]
    split_ifs with hlt
    · -- the last byte holds the eight lowest bits
      rw [Nat.div_eq_of_lt hlt, Nat.mod_eq_of_lt hlt, List.getD_append_right _ _ _ _ (by omega)]
      simp
    · rw [List.length_append, List.length_singleton] at hi
      have hdiv : (i - 8) / 8 = i / 8 - 1 := by omega
      rw [ih (i - 8) (by omega), List.getD_append _ _ _ _ (by omega), hdiv,
        show bs.length - 1 - (i / 8 - 1) = bs.length + 1 - 1 - i / 8 by omega,
        show (i - 8) % 8 = i % 8 by omega]

theorem replicate_append_ofNat_toNat (bs : List UInt8) :
    List.replicate (bs.length - (ofNat (toNat bs)).length) 0 ++ ofNat (toNat bs) = bs := by
  induction bs with
  | nil => rfl
  | cons b bs ih =>
    by_cases hb : b = 0
    · -- a leading zero is dropped by `toNat` and given back by the padding
      subst hb
      have hlen := congrArg List.length ih
      rw [List.length_append, List.length_replicate] at hlen
      rw [toNat_zero_cons, List.length_cons, show bs.length + 1 - (ofNat (toNat bs)).length =
        bs.length - (ofNat (toNat bs)).length + 1 by omega, List.replicate_succ, List.cons_append, ih]
    · rw [ofNat_toNat (b :: bs) (by simpa using hb), Nat.sub_self, List.replicate_zero, List.nil_append]

end BigEndian
