import Mathlib

/-! # The gas limit of a mined block

`CalcGasLimit` of `block_validator.go` moves the parent's gas limit towards its use: up by
`floor(floor(3 * used / 2) / 1024)`, down by `floor(limit / 1024) - 1`, never below
`MinGasLimit`, and straight up towards `TargetGasLimit` (a parameter, which the miner may set)
while below it. `Abthash.verifyHeader` asks the child's limit to be at most `2^63 - 1`, within
`floor(parent / 1024)` of the parent's, exclusive, and at least `MinGasLimit`. A fully used parent
limit within `2^51` of `2^63 - 1`, or between `5000` and `5119`, gets a child that fails the
check; every other parent with a limit of `5120` or more gets a valid child.
-/

namespace Zerium.Core

set_option autoImplicit false

def GasLimitBoundDivisor : Int := 1024

def MinGasLimit : Int := 5000

def MaxBig63 : Int := 2 ^ 63 - 1

/-- `CalcGasLimit` of the parent's gas limit and gas used, with the target the miner runs with. -/
def CalcGasLimit (targetGasLimit : Int) (parentGasLimit parentGasUsed : Int) : Int :=
  let contrib := parentGasUsed * 3 / 2 / GasLimitBoundDivisor
  let decay := parentGasLimit / GasLimitBoundDivisor - 1
  let gl := max (parentGasLimit - decay + contrib) MinGasLimit
  -- below the target, increase the limit as much as allowed
  if gl < targetGasLimit then min (parentGasLimit + decay) targetGasLimit else gl

/-- The fields of a header that the gas checks read. -/
structure GasHeader where
  GasLimit : Int
  GasUsed : Int

/-- The errors of the gas checks, with the values their messages print. -/
inductive GasLimitError where
  /-- `invalid gasLimit: have %v, max %v` -/
  | invalidGasLimitMax (given max : Int)
  /-- `invalid gasUsed: have %v, gasLimit %v` -/
  | invalidGasUsed (given gasLimit : Int)
  /-- `invalid gas limit: have %v, want %v += %v` -/
  | invalidGasLimit (given want limit : Int)
deriving DecidableEq, Repr

/-- The gas checks of `Abthash.verifyHeader` on a header against its parent's gas limit. -/
def verifyHeaderGasLimit (parentGasLimit : Int) (header : GasHeader) : Except GasLimitError Unit :=
  if header.GasLimit > MaxBig63 then .error (.invalidGasLimitMax header.GasLimit MaxBig63)
  else if header.GasUsed > header.GasLimit then .error (.invalidGasUsed header.GasUsed header.GasLimit)
  else
    let diff := |parentGasLimit - header.GasLimit|
    let limit := parentGasLimit / GasLimitBoundDivisor
    if diff ≥ limit ∨ header.GasLimit < MinGasLimit then
      .error (.invalidGasLimit header.GasLimit parentGasLimit limit)
    else .ok ()

/-- The header `worker.commitNewWork` mines on a parent: the gas limit `CalcGasLimit` gives and no
gas used. -/
def minedHeader (targetGasLimit parentGasLimit parentGasUsed : Int) : GasHeader :=
  ⟨CalcGasLimit targetGasLimit parentGasLimit parentGasUsed, 0⟩

/-! ## Where the child limit lands -/

theorem CalcGasLimit_eq (T L u : Int) :
    CalcGasLimit T L u =
      if max (L - (L / 1024 - 1) + u * 3 / 2 / 1024) 5000 < T then min (L + (L / 1024 - 1)) T
      else max (L - (L / 1024 - 1) + u * 3 / 2 / 1024) 5000 := rfl

theorem CalcGasLimit_bounds {T L u : Int} (hL : MinGasLimit ≤ L) (hu0 : 0 ≤ u) (hT : MinGasLimit ≤ T) :
    L - (L / 1024 - 1) ≤ CalcGasLimit T L u ∧ MinGasLimit ≤ CalcGasLimit T L u ∧
      (CalcGasLimit T L u < T → CalcGasLimit T L u ≤ L + (L / 1024 - 1)) := by
  unfold MinGasLimit at hL hT ⊢
  rw [CalcGasLimit_eq]
  have hc : 0 ≤ u * 3 / 2 / 1024 := by omega
  split <;> omega

theorem verifyHeaderGasLimit_ok {L : Int} {h : GasHeader} (hmax : h.GasLimit ≤ MaxBig63)
    (hused : h.GasUsed ≤ h.GasLimit) (hdiff : |L - h.GasLimit| < L / 1024) (hmin : MinGasLimit ≤ h.GasLimit) :
    verifyHeaderGasLimit L h = .ok () := by
  unfold verifyHeaderGasLimit GasLimitBoundDivisor
  rw [if_neg (by omega), if_neg (by omega), if_neg (by omega)]

/-! ## Parents whose child fails the check -/

/-- A full parent near the top of the range gets a child limit above `2^63 - 1`; a full parent
with a limit from `5000` to `5119` gets one exactly `floor(limit / 1024) = 4` above its own when
the target is not above that. Either way the mined header fails `verifyHeader`. -/
theorem CalcGasLimit_fails_verifyHeader (T : Int) (hT : T ≤ MaxBig63) :
    (∀ L, 2 ^ 63 - 2 ^ 51 ≤ L → L ≤ MaxBig63 →
      MaxBig63 < CalcGasLimit T L L ∧
        verifyHeaderGasLimit L (minedHeader T L L) =
          .error (.invalidGasLimitMax (CalcGasLimit T L L) MaxBig63)) ∧
    (∀ L, 5000 ≤ L → L ≤ 5119 → T ≤ L + 4 →
      CalcGasLimit T L L = L + 4 ∧
        verifyHeaderGasLimit L (minedHeader T L L) = .error (.invalidGasLimit (L + 4) L 4)) := by
  unfold MaxBig63 at hT ⊢
  refine ⟨fun L hlo hhi => ?_, fun L hlo hhi hTL => ?_⟩
  · -- the increase is about half of `floor(limit / 1024)`, more than the room left
    have hgl : 2 ^ 63 - 1 < CalcGasLimit T L L := by
      rw [CalcGasLimit_eq]
      split <;> omega
    refine ⟨hgl, ?_⟩
    unfold verifyHeaderGasLimit minedHeader MaxBig63
    rw [if_pos hgl]
  · -- `contrib` is 7 and `decay` is 3 all along the range
    have hgl : CalcGasLimit T L L = L + 4 := by
      rw [CalcGasLimit_eq]
      split <;> omega
    refine ⟨hgl, ?_⟩
    unfold verifyHeaderGasLimit minedHeader MaxBig63 GasLimitBoundDivisor MinGasLimit
    simp only [hgl]
    rw [if_neg (by omega), if_neg (by omega), if_pos (by rw [abs_eq_max_neg]; omega)]
    congr 2
    omega

theorem CalcGasLimit_fails_verifyHeader_full_parents :
    (4712388 : Int) ≤ MaxBig63 ∧ 2 ^ 63 - 2 ^ 51 ≤ MaxBig63 ∧ MaxBig63 ≤ MaxBig63 ∧
      (MaxBig63 < CalcGasLimit 4712388 MaxBig63 MaxBig63 ∧
        verifyHeaderGasLimit MaxBig63 (minedHeader 4712388 MaxBig63 MaxBig63) =
          .error (.invalidGasLimitMax (CalcGasLimit 4712388 MaxBig63 MaxBig63) MaxBig63)) ∧
    (5000 : Int) ≤ 5000 ∧ (5000 : Int) ≤ 5119 ∧ (5000 : Int) ≤ 5000 + 4 ∧
      (CalcGasLimit 5000 5000 5000 = 5000 + 4 ∧
        verifyHeaderGasLimit 5000 (minedHeader 5000 5000 5000) = .error (.invalidGasLimit (5000 + 4) 5000 4)) :=
  ⟨by decide, by decide, le_refl _,
    (CalcGasLimit_fails_verifyHeader 4712388 (by decide)).1 MaxBig63 (by decide) (le_refl _),
    by decide, by decide, by decide,
    (CalcGasLimit_fails_verifyHeader 5000 (by decide)).2 5000 (by decide) (by decide) (by decide)⟩

/-! ## Parents whose child passes -/

/-- From a parent limit of `5120` on, `floor(1.5 * limit / 1024) + 1` stays below
`2 * floor(limit / 1024)`, so the increase branch keeps within the bound; the mined header then
passes the gas checks whenever its limit is at most `2^63 - 1`. -/
theorem CalcGasLimit_passes_verifyHeader (T L u : Int) (hT : MinGasLimit ≤ T) (hL : 5120 ≤ L)
    (hu0 : 0 ≤ u) (hu : u ≤ L) (hmax : CalcGasLimit T L u ≤ MaxBig63) :
    verifyHeaderGasLimit L (minedHeader T L u) = .ok () := by
  obtain ⟨hlow, hmin, -⟩ := CalcGasLimit_bounds (T := T) (L := L) (u := u) (by unfold MinGasLimit; omega) hu0 hT
  have hup : CalcGasLimit T L u - L < L / 1024 := by
    rw [CalcGasLimit_eq]
    split
    · -- the target branch adds at most `decay`
      omega
    · -- the increase branch adds `contrib - decay`, below `floor(limit / 1024)` from `5120` on
      omega
  have hmin' : (0 : Int) ≤ CalcGasLimit T L u := by
    unfold MinGasLimit at hmin
    omega
  refine verifyHeaderGasLimit_ok hmax hmin' ?_ hmin
  show |L - CalcGasLimit T L u| < L / 1024
  rw [abs_eq_max_neg]
  omega

theorem CalcGasLimit_passes_verifyHeader_genesis :
    MinGasLimit ≤ 4712388 ∧ (5120 : Int) ≤ 4712388 ∧ (0 : Int) ≤ 4000000 ∧ (4000000 : Int) ≤ 4712388 ∧
      CalcGasLimit 4712388 4712388 4000000 ≤ MaxBig63 ∧
      verifyHeaderGasLimit 4712388 (minedHeader 4712388 4712388 4000000) = .ok () :=
  ⟨by decide, by decide, by decide, by decide, by decide,
    CalcGasLimit_passes_verifyHeader 4712388 4712388 4000000 (by decide) (by decide) (by decide) (by decide)
      (by decide)⟩

end Zerium.Core
