import Mathlib

/-! # Bit strings packed into bytes, most significant bit first

Bit `j` of a byte string is bit `7 - j % 8` of byte `j / 8`, and it is set by or-ing the mask
`1 <<< (7 - j % 8)` into that byte. A byte string is fixed by its length and its bits.
-/

namespace MsbBits

set_option autoImplicit false

def bit (v : List UInt8) (j : Nat) : Bool := (v.getD (j / 8) 0).toNat.testBit (7 - j % 8)

def mask (j : Nat) : UInt8 := 1 <<< (7 - j % 8).toUInt8

theorem toNat_one_shiftLeft {a : Nat} (ha : a < 8) : (1 <<< a.toUInt8 : UInt8).toNat = 2 ^ a := by
  rw [UInt8.toNat_shiftLeft, UInt8.toNat_one, Nat.toUInt8, UInt8.toNat_ofNat', Nat.mod_eq_of_lt (by omega : a < 2 ^ 8),
    Nat.mod_eq_of_lt ha, Nat.one_shiftLeft]
  exact Nat.mod_eq_of_lt (Nat.pow_lt_pow_right (by decide) ha)

theorem testBit_or_one_shiftLeft (x : UInt8) {a : Nat} (ha : a < 8) (b : Nat) :
    (x ||| 1 <<< a.toUInt8).toNat.testBit b = (x.toNat.testBit b || decide (a = b)) := by
  rw [UInt8.toNat_or, Nat.testBit_or, toNat_one_shiftLeft ha, Nat.testBit_two_pow]

theorem and_one_shiftLeft_ne_zero_iff (x : UInt8) {a : Nat} (ha : a < 8) :
    (x &&& 1 <<< a.toUInt8) ≠ 0 ↔ x.toNat.testBit a = true := by
  rw [Ne, ← UInt8.toNat_inj, UInt8.toNat_and, toNat_one_shiftLeft ha, UInt8.toNat_zero]
  constructor
  · intro hne
    by_contra hbit
    apply hne
    apply Nat.eq_of_testBit_eq
    intro i
    rw [Nat.testBit_and, Nat.testBit_two_pow, Nat.zero_testBit]
    by_cases hi : a = i
    · subst hi
      simpa using hbit
    · simp [hi]
  · intro hbit hzero
    have hbit₀ := congrArg (Nat.testBit · a) hzero
    simp [Nat.testBit_and, hbit] at hbit₀

theorem getD_modify {α : Type} (l : List α) (k : Nat) (f : α → α) {n : Nat} (d : α) (hn : n < l.length) :
    (l.modify k f).getD n d = if k = n then f (l.getD n d) else l.getD n d := by
  rw [List.getD_eq_getElem _ _ (by simpa using hn), List.getElem_modify, List.getD_eq_getElem _ _ hn]

theorem and_mask_ne_zero_iff (x : UInt8) (j : Nat) : x &&& mask j ≠ 0 ↔ x.toNat.testBit (7 - j % 8) = true :=
  and_one_shiftLeft_ne_zero_iff x (by omega)

theorem bit_iff_and_mask {v : List UInt8} {j : Nat} {byte : UInt8} (h : v[j / 8]? = some byte) :
    bit v j = true ↔ byte &&& mask j ≠ 0 := by
  rw [and_mask_ne_zero_iff, bit, List.getD_eq_getElem?_getD, h, Option.getD_some]

theorem bit_of_length_le {v : List UInt8} {j : Nat} (h : 8 * v.length ≤ j) : bit v j = false := by
  rw [bit, List.getD_eq_default _ _ (by omega)]
  exact Nat.zero_testBit _

@[simp] theorem bit_replicate_zero (n j : Nat) : bit (List.replicate n 0) j = false := by
  rw [bit, List.getD_eq_getElem?_getD, List.getElem?_getD_replicate_default_eq]
  exact Nat.zero_testBit _

theorem bit_modify_or (v : List UInt8) {i : Nat} (hi : i / 8 < v.length) (j : Nat) :
    bit (v.modify (i / 8) (· ||| mask i)) j = (bit v j || decide (i = j)) := by
  by_cases hj : j / 8 < v.length
  · rw [bit, bit, getD_modify _ _ _ _ hj]
    by_cases hij : i / 8 = j / 8
    · rw [if_pos hij, mask, testBit_or_one_shiftLeft _ (by omega)]
      congr 1
      apply decide_eq_decide.mpr
      omega
    · rw [if_neg hij]
      have : i ≠ j := fun h => hij (h ▸ rfl)
      simp [this]
  · have hlen : 8 * (v.modify (i / 8) (· ||| mask i)).length ≤ j := by
      rw [List.length_modify]
      omega
    rw [bit_of_length_le hlen, bit_of_length_le (by omega)]
    have : i ≠ j := by omega
    simp [this]

theorem exists_ne_zero_of_bit {v : List UInt8} {j : Nat} (h : bit v j = true) : ∃ x ∈ v, x ≠ 0 := by
  have hj : j / 8 < v.length := by
    by_contra hj
    rw [bit_of_length_le (by omega)] at h
    cases h
  refine ⟨v[j / 8], List.getElem_mem hj, fun hzero => ?_⟩
  rw [bit, List.getD_eq_getElem _ _ hj, hzero] at h
  simp at h

theorem testBit_toNat_of_le (x : UInt8) {b : Nat} (hb : 8 ≤ b) : x.toNat.testBit b = false :=
  Nat.testBit_lt_two_pow (Nat.lt_of_lt_of_le x.toNat_lt (Nat.pow_le_pow_right (by decide) hb))

theorem eq_of_bit_eq {v w : List UInt8} (hlen : v.length = w.length) (h : ∀ j, bit v j = bit w j) :
    v = w := by
  apply List.ext_getElem hlen
  intro k hv hw
  apply UInt8.toNat_inj.mp
  apply Nat.eq_of_testBit_eq
  intro b
  by_cases hb : b < 8
  · have hbit := h (8 * k + (7 - b))
    have hdiv : (8 * k + (7 - b)) / 8 = k := by omega
    have hmod : 7 - (8 * k + (7 - b)) % 8 = b := by omega
    rwa [bit, bit, hdiv, hmod, List.getD_eq_getElem _ _ hv, List.getD_eq_getElem _ _ hw] at hbit
  · rw [testBit_toNat_of_le _ (by omega), testBit_toNat_of_le _ (by omega)]

end MsbBits
