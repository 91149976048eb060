import Zerium.Vm.Gas

/-! # What memory expansion charges

`memoryFee w = 3 * w + floor(w * w / 512)` over the naturals is the fee of a memory of `w`
words. A memory is paid for (`MemoryOk`) when its length is a whole number of words, below
`2^32` of them, and `lastGasCost` is the fee of those words. Below `2^32` words `memoryGasCost`
charges exactly `memoryFee` of the new words less that of the old ones, and the memory sizing of
`Run` keeps a memory paid for, so that over a whole run the fees add up to the fee of the last
size. From `2^32` words on the square wraps: the sizes from `2^37 - 31` bytes to the
`0xffffffffe0` that `memoryGasCost` lets through are charged less than their fee.
-/

namespace Zerium.Vm

set_option autoImplicit false

def memoryFee (w : Nat) : Nat := 3 * w + w * w / 512

/-- The fee `memoryGasCost` computes for `w` words, whose square is a `uint64`. -/
def wrappedMemoryFee (w : Nat) : Nat := 3 * w + w * w % 2 ^ 64 / 512

def wordsOf (n : UInt64) : Nat := (n.toNat + 31) / 32

/-- A memory whose fee is paid: a whole number of words, fewer than `2^32`, and `lastGasCost`
their fee. -/
structure MemoryOk (mem : Memory) : Prop where
  len_words : mem.len % 32 = 0
  len_lt : mem.len < 2 ^ 37
  lastGasCost_eq : mem.lastGasCost.toNat = memoryFee (mem.len / 32)

theorem memoryFee_mono {l w : Nat} (h : l ≤ w) : memoryFee l ≤ memoryFee w := by
  have hsq : l * l ≤ w * w := Nat.mul_le_mul h h
  unfold memoryFee
  omega

theorem wrappedMemoryFee_eq {w : Nat} (hw : w < 2 ^ 32) : wrappedMemoryFee w = memoryFee w := by
  have hsq : w * w < 2 ^ 64 := by
    calc w * w < 2 ^ 32 * 2 ^ 32 := Nat.mul_lt_mul'' hw hw
      _ = 2 ^ 64 := by norm_num
  unfold wrappedMemoryFee memoryFee
  rw [Nat.mod_eq_of_lt hsq]

/-! ## `uint64` steps -/

theorem SafeMul_eq_false {x y : UInt64} (h : x.toNat * y.toNat < 2 ^ 64) : SafeMul x y = (x * y, false) := by
  unfold SafeMul
  split_ifs with hzero
  · rcases hzero with rfl | rfl <;> simp
  · have hx : 0 < x.toNat := by
      rcases Nat.eq_zero_or_pos x.toNat with hx | hx
      · exact absurd (.inl (UInt64.toNat_inj.mp hx)) hzero
      · exact hx
    have hmax : MaxUint64.toNat = 2 ^ 64 - 1 := rfl
    have hle : y.toNat ≤ (2 ^ 64 - 1) / x.toNat :=
      (Nat.le_div_iff_mul_le hx).mpr (by rw [Nat.mul_comm]; omega)
    simp only [Prod.mk.injEq, true_and, decide_eq_false_iff_not, gt_iff_lt, UInt64.lt_iff_toNat_lt,
      UInt64.toNat_div, hmax]
    omega

theorem toWordSize_toNat {n : UInt64} (hn : n.toNat ≤ 2 ^ 64 - 32) : (toWordSize n).toNat = wordsOf n := by
  have hmax : (MaxUint64 - 31).toNat = 2 ^ 64 - 32 := rfl
  have h31 : (31 : UInt64).toNat = 31 := rfl
  have h32 : (32 : UInt64).toNat = 32 := rfl
  unfold toWordSize wordsOf
  rw [if_neg (by rw [gt_iff_lt, UInt64.lt_iff_toNat_lt, hmax]; omega), UInt64.toNat_div, UInt64.toNat_add,
    h31, h32, Nat.mod_eq_of_lt (by omega)]

/-! ## One expansion -/

theorem memoryGasCost_eq {mem : Memory} {n : UInt64} (h0 : n ≠ 0) (hn : n.toNat ≤ 0xffffffffe0)
    (hlen : mem.len < 2 ^ 64) :
    memoryGasCost mem n =
      if mem.len < wordsOf n * 32 then
        .ok (UInt64.ofNat (wrappedMemoryFee (wordsOf n)) - mem.lastGasCost,
          { mem with lastGasCost := UInt64.ofNat (wrappedMemoryFee (wordsOf n)) })
      else .ok (0, mem) := by
  have hw := toWordSize_toNat (n := n) (by omega)
  have hwlt : wordsOf n < 2 ^ 35 := by unfold wordsOf; omega
  have h32 : (32 : UInt64).toNat = 32 := rfl
  have hsize : (toWordSize n * 32).toNat = wordsOf n * 32 := by
    rw [UInt64.toNat_mul, hw, h32, Nat.mod_eq_of_lt (by omega)]
  have hmem : (UInt64.ofNat mem.len).toNat = mem.len := by
    rw [UInt64.toNat_ofNat']
    exact Nat.mod_eq_of_lt hlen
  -- the linear part, the quotient and their sum stay below `2^64`; only the square wraps
  have hfee : toWordSize n * MemoryGas + toWordSize n * toWordSize n / QuadCoeffDiv =
      UInt64.ofNat (wrappedMemoryFee (wordsOf n)) := by
    have h3 : MemoryGas.toNat = 3 := rfl
    have h512 : QuadCoeffDiv.toNat = 512 := rfl
    apply UInt64.toNat_inj.mp
    rw [UInt64.toNat_add, UInt64.toNat_mul, UInt64.toNat_div, UInt64.toNat_mul, hw, h3, h512,
      UInt64.toNat_ofNat']
    unfold wrappedMemoryFee
    omega
  have hbound : ¬ n > 0xffffffffe0 := by
    rw [gt_iff_lt, UInt64.lt_iff_toNat_lt]
    exact Nat.not_lt.mpr hn
  unfold memoryGasCost
  rw [if_neg h0, if_neg hbound]
  simp only []
  by_cases hgrow : mem.len < wordsOf n * 32
  · rw [if_pos hgrow, if_pos (by rw [gt_iff_lt, UInt64.lt_iff_toNat_lt, hsize, hmem]; exact hgrow), hfee]
  · rw [if_neg hgrow, if_neg (by rw [gt_iff_lt, UInt64.lt_iff_toNat_lt, hsize, hmem]; exact hgrow)]

theorem memoryGasCost_exact {mem : Memory} {n : UInt64} (hok : MemoryOk mem) (h0 : n ≠ 0)
    (hn : n.toNat ≤ 2 ^ 37 - 32) :
    memoryGasCost mem n =
      if mem.len < wordsOf n * 32 then
        .ok (UInt64.ofNat (memoryFee (wordsOf n) - memoryFee (mem.len / 32)),
          { mem with lastGasCost := UInt64.ofNat (memoryFee (wordsOf n)) })
      else .ok (0, mem) := by
  have hwlt : wordsOf n < 2 ^ 32 := by unfold wordsOf; omega
  rw [memoryGasCost_eq h0 (by omega) (by have := hok.len_lt; omega), wrappedMemoryFee_eq hwlt]
  by_cases hgrow : mem.len < wordsOf n * 32
  · rw [if_pos hgrow, if_pos hgrow]
    -- the old words are fewer, so their fee is no larger and the `uint64` difference is exact
    have hle := memoryFee_mono (show mem.len / 32 ≤ wordsOf n by omega)
    have hfit : memoryFee (wordsOf n) < 2 ^ 64 := by
      have hsq : wordsOf n * wordsOf n < 2 ^ 64 := by
        calc wordsOf n * wordsOf n < 2 ^ 32 * 2 ^ 32 := Nat.mul_lt_mul'' hwlt hwlt
          _ = 2 ^ 64 := by norm_num
      unfold memoryFee
      omega
    have hsub : UInt64.ofNat (memoryFee (wordsOf n)) - mem.lastGasCost =
        UInt64.ofNat (memoryFee (wordsOf n) - memoryFee (mem.len / 32)) := by
      have hlast : mem.lastGasCost ≤ UInt64.ofNat (memoryFee (wordsOf n)) := by
        rw [UInt64.le_iff_toNat_le, hok.lastGasCost_eq, UInt64.toNat_ofNat', Nat.mod_eq_of_lt hfit]
        exact hle
      apply UInt64.toNat_inj.mp
      rw [UInt64.toNat_sub_of_le _ _ hlast, hok.lastGasCost_eq, UInt64.toNat_ofNat', UInt64.toNat_ofNat',
        Nat.mod_eq_of_lt hfit, Nat.mod_eq_of_lt (by omega)]
    rw [hsub]
  · rw [if_neg hgrow, if_neg hgrow]

/-! ## Sizes whose square wraps -/

/-- From `2^32` words on, `w * w` wraps in `memoryGasCost`: a paid memory that grows to a size
from `2^37 - 31` to `0xffffffffe0` bytes records less than the fee of the new words, and is
charged other than the difference of the two fees. -/
theorem memoryGasCost_wraps_square (mem : Memory) (n : UInt64) (hlen : mem.len % 32 = 0)
    (hlast : mem.lastGasCost.toNat = memoryFee (mem.len / 32)) (hbig : 2 ^ 37 - 32 < n.toNat)
    (hn : n.toNat ≤ 0xffffffffe0) (hgrow : mem.len < wordsOf n * 32) :
    ∃ fee mem', memoryGasCost mem n = .ok (fee, mem') ∧
      mem'.lastGasCost.toNat < memoryFee (wordsOf n) ∧
      fee.toNat ≠ memoryFee (wordsOf n) - memoryFee (mem.len / 32) := by
  have h0 : n ≠ 0 := fun h => by rw [h] at hbig; exact absurd hbig (by decide)
  have hwlo : 2 ^ 32 ≤ wordsOf n := by unfold wordsOf; omega
  have hwhi : wordsOf n < 2 ^ 35 := by unfold wordsOf; omega
  rw [memoryGasCost_eq h0 hn (by omega), if_pos hgrow]
  refine ⟨_, _, rfl, ?_⟩
  -- write the square as `q * 2^64 + r`: it wraps `q` times, `1 ≤ q < 64`
  obtain ⟨q, r, hsq, hr, hq1, hq64⟩ : ∃ q r, wordsOf n * wordsOf n = q * 2 ^ 64 + r ∧ r < 2 ^ 64 ∧
      1 ≤ q ∧ q < 64 := by
    have hlo : 2 ^ 64 ≤ wordsOf n * wordsOf n := by
      calc 2 ^ 64 = 2 ^ 32 * 2 ^ 32 := by norm_num
        _ ≤ wordsOf n * wordsOf n := Nat.mul_le_mul hwlo hwlo
    have hhi : wordsOf n * wordsOf n < 2 ^ 70 := by
      calc wordsOf n * wordsOf n < 2 ^ 35 * 2 ^ 35 := Nat.mul_lt_mul'' hwhi hwhi
        _ = 2 ^ 70 := by norm_num
    exact ⟨wordsOf n * wordsOf n / 2 ^ 64, wordsOf n * wordsOf n % 2 ^ 64, by omega, by omega, by omega,
      by omega⟩
  have hfeeW : memoryFee (wordsOf n) = wrappedMemoryFee (wordsOf n) + q * 2 ^ 55 := by
    unfold memoryFee wrappedMemoryFee
    rw [hsq]
    omega
  have hwrapped : wrappedMemoryFee (wordsOf n) < 2 ^ 64 := by
    unfold wrappedMemoryFee
    omega
  have hold := memoryFee_mono (show mem.len / 32 ≤ wordsOf n by omega)
  have hlastlt := mem.lastGasCost.toNat_lt
  refine ⟨?_, ?_⟩
  · show (UInt64.ofNat (wrappedMemoryFee (wordsOf n))).toNat < memoryFee (wordsOf n)
    rw [UInt64.toNat_ofNat', Nat.mod_eq_of_lt hwrapped]
    omega
  · -- the `uint64` difference is off by `q * 2^55`, or by that less `2^64` when it wraps
    rw [UInt64.toNat_sub, UInt64.toNat_ofNat', Nat.mod_eq_of_lt hwrapped, hlast]
    omega

theorem memoryGasCost_wraps_square_max :
    (0 : Nat) % 32 = 0 ∧ (0 : UInt64).toNat = memoryFee (0 / 32) ∧ 2 ^ 37 - 32 < (0xffffffffe0 : UInt64).toNat ∧
      (0xffffffffe0 : UInt64).toNat ≤ 0xffffffffe0 ∧ 0 < wordsOf 0xffffffffe0 * 32 ∧
      memoryGasCost ⟨0, 0⟩ 0xffffffffe0 = .ok (36028899963961341, ⟨0, 36028899963961341⟩) ∧
      ∃ fee mem', memoryGasCost ⟨0, 0⟩ 0xffffffffe0 = .ok (fee, mem') ∧
        mem'.lastGasCost.toNat < memoryFee (wordsOf 0xffffffffe0) ∧
        fee.toNat ≠ memoryFee (wordsOf 0xffffffffe0) - memoryFee (0 / 32) :=
  ⟨rfl, rfl, by decide, by decide, by decide, by decide,
    memoryGasCost_wraps_square ⟨0, 0⟩ 0xffffffffe0 rfl rfl (by decide) (by decide) (by decide)⟩

/-! ## The memory sizing of `Run` -/

theorem runMemorySize_eq {memSize : Nat} (h : memSize ≤ 2 ^ 37 - 32) :
    runMemorySize memSize = .ok (UInt64.ofNat ((memSize + 31) / 32 * 32)) := by
  have hn : (UInt64.ofNat memSize).toNat = memSize := by
    rw [UInt64.toNat_ofNat']
    exact Nat.mod_eq_of_lt (by omega)
  have hw := toWordSize_toNat (n := UInt64.ofNat memSize) (by omega)
  have h32 : (32 : UInt64).toNat = 32 := rfl
  unfold runMemorySize
  rw [if_neg (by omega)]
  simp only []
  rw [SafeMul_eq_false (by rw [hw, h32]; unfold wordsOf; omega), if_neg Bool.false_ne_true]
  congr 1
  apply UInt64.toNat_inj.mp
  rw [UInt64.toNat_mul, hw, h32, UInt64.toNat_ofNat', wordsOf, hn]

theorem memoryStep_ok {mem : Memory} {memSize : Nat} (hok : MemoryOk mem) (h : memSize ≤ 2 ^ 37 - 32) :
    ∃ fee mem', memoryStep mem memSize = .ok (fee, mem') ∧ MemoryOk mem' ∧
      mem'.len = max mem.len ((memSize + 31) / 32 * 32) ∧
      fee.toNat = memoryFee (mem'.len / 32) - memoryFee (mem.len / 32) := by
  have hlen := hok.len_lt
  unfold memoryStep
  rw [runMemorySize_eq h]
  simp only []
  rcases Nat.eq_zero_or_pos memSize with rfl | hpos
  · -- no memory to touch: no fee, and no resize
    have hzero : memoryGasCost mem (UInt64.ofNat ((0 + 31) / 32 * 32)) = .ok (0, mem) := by
      unfold memoryGasCost
      rw [if_pos (by decide)]
    rw [hzero]
    simp only []
    rw [if_neg (by decide)]
    exact ⟨0, mem, rfl, hok, by omega, by simp⟩
  · set n := UInt64.ofNat ((memSize + 31) / 32 * 32) with hndef
    have hnN : n.toNat = (memSize + 31) / 32 * 32 := by
      rw [hndef, UInt64.toNat_ofNat']
      exact Nat.mod_eq_of_lt (by omega)
    have hwords : wordsOf n = (memSize + 31) / 32 := by
      unfold wordsOf
      omega
    have hn0 : n ≠ 0 := fun h0 => by
      have := congrArg UInt64.toNat h0
      rw [hnN] at this
      exact absurd this (by simp; omega)
    have hpos' : n > 0 := by
      rw [gt_iff_lt, UInt64.lt_iff_toNat_lt, hnN]
      exact Nat.mul_pos (by omega) (by decide)
    have hmem : (UInt64.ofNat mem.len).toNat = mem.len := by
      rw [UInt64.toNat_ofNat']
      exact Nat.mod_eq_of_lt (by omega)
    rw [memoryGasCost_exact hok hn0 (by omega), hwords]
    by_cases hgrow : mem.len < (memSize + 31) / 32 * 32
    · rw [if_pos hgrow]
      simp only []
      have hresize : Memory.Resize { mem with lastGasCost := UInt64.ofNat (memoryFee ((memSize + 31) / 32)) } n =
          ⟨(memSize + 31) / 32 * 32, UInt64.ofNat (memoryFee ((memSize + 31) / 32))⟩ := by
        unfold Memory.Resize
        rw [if_pos (by rw [UInt64.lt_iff_toNat_lt, hmem, hnN]; exact hgrow), hnN]
      rw [if_pos hpos', hresize]
      -- the fee of fewer than `2^32` words fits in 64 bits
      have hfit : memoryFee ((memSize + 31) / 32) < 2 ^ 64 := by
        have hw : (memSize + 31) / 32 < 2 ^ 32 := by omega
        have hsq : (memSize + 31) / 32 * ((memSize + 31) / 32) < 2 ^ 64 := by
          calc (memSize + 31) / 32 * ((memSize + 31) / 32) < 2 ^ 32 * 2 ^ 32 := Nat.mul_lt_mul'' hw hw
            _ = 2 ^ 64 := by norm_num
        unfold memoryFee
        omega
      have hdiv : (memSize + 31) / 32 * 32 / 32 = (memSize + 31) / 32 := by omega
      refine ⟨_, _, rfl, ⟨by dsimp only; omega, by dsimp only; omega, ?_⟩, by dsimp only; omega, ?_⟩
      · dsimp only
        rw [UInt64.toNat_ofNat', Nat.mod_eq_of_lt hfit, hdiv]
      · dsimp only
        rw [UInt64.toNat_ofNat', hdiv, Nat.mod_eq_of_lt (by omega)]
    · rw [if_neg hgrow]
      simp only []
      have hresize : mem.Resize n = mem := by
        unfold Memory.Resize
        rw [if_neg (by rw [UInt64.lt_iff_toNat_lt, hmem, hnN]; exact hgrow)]
      rw [if_pos hpos', hresize]
      exact ⟨0, mem, rfl, hok, by omega, by simp⟩

/-- A run of memory sizings of at most `2^37 - 32` bytes each, from a memory whose fee is paid,
never fails: the memory grows to the largest size rounded up to words, stays paid for, and the
fees charged add up to exactly the fee of its last length less that of its first. -/
theorem memoryRun_ok (sizes : List Nat) (hsizes : ∀ s ∈ sizes, s ≤ 2 ^ 37 - 32) (mem : Memory)
    (hok : MemoryOk mem) :
    ∃ fees mem', memoryRun mem sizes = .ok (fees, mem') ∧ MemoryOk mem' ∧
      mem'.len = (sizes.map fun s => (s + 31) / 32 * 32).foldl max mem.len ∧
      (fees.map UInt64.toNat).sum = memoryFee (mem'.len / 32) - memoryFee (mem.len / 32) := by
  induction sizes generalizing mem with
  | nil => exact ⟨[], mem, rfl, hok, rfl, by simp⟩
  | cons s sizes ih =>
    obtain ⟨fee, mem₁, hstep, hok₁, hlen₁, hfee⟩ := memoryStep_ok hok (hsizes s List.mem_cons_self)
    obtain ⟨fees, mem', hrun, hok', hlen', hfees⟩ :=
      ih (fun t ht => hsizes t (List.mem_cons_of_mem s ht)) mem₁ hok₁
    refine ⟨fee :: fees, mem', ?_, hok', ?_, ?_⟩
    · rw [memoryRun, hstep]
      simp only []
      rw [hrun]
    · rw [hlen', hlen₁, List.map_cons, List.foldl_cons]
    · -- the lengths only grow, so the three fees are in order and the differences add up
      have hle₁ : mem.len ≤ mem₁.len := by omega
      have hle' : mem₁.len ≤ mem'.len := by
        rw [hlen', List.foldl_max]
        exact Nat.le_max_left _ _
      have hmono₁ := memoryFee_mono (Nat.div_le_div_right (c := 32) hle₁)
      have hmono' := memoryFee_mono (Nat.div_le_div_right (c := 32) hle')
      rw [List.map_cons, List.sum_cons, hfee, hfees]
      omega

theorem memoryRun_ok_three_sizes :
    (∀ s ∈ [64, 32, 100], s ≤ 2 ^ 37 - 32) ∧ MemoryOk ⟨0, 0⟩ ∧
      ∃ fees mem', memoryRun ⟨0, 0⟩ [64, 32, 100] = .ok (fees, mem') ∧ MemoryOk mem' ∧
        mem'.len = ([64, 32, 100].map fun s => (s + 31) / 32 * 32).foldl max 0 ∧
        (fees.map UInt64.toNat).sum = memoryFee (mem'.len / 32) - memoryFee (0 / 32) :=
  ⟨by decide, ⟨rfl, by decide, rfl⟩, memoryRun_ok [64, 32, 100] (by decide) ⟨0, 0⟩ ⟨rfl, by decide, rfl⟩⟩

end Zerium.Vm
