import Zerium.Vm.Gas

/-! # What the memory and call gas functions charge

The call gas functions: whatever base cost `b` a function computes and whatever gas `c` the
caller asks for, a success charges `b + cg` and leaves `cg` in the slot of the requested gas.
When the contract can pay that total, `cg` is `c` capped at all but one 64th of `g - b` from EIP
150 on, and `c` itself, below `2^64`, before it. `callGas` subtracts `b` from `g` without a check,
but `b + cg` is added with `SafeAdd`, and a total that fits in `g` has `b ≤ g`: the wrapped
difference never reaches a callee.
-/

namespace Zerium.Vm

set_option autoImplicit false

/-! ## `uint64` steps -/

theorem SafeAdd_eq_false {x y s : UInt64} (h : SafeAdd x y = (s, false)) :
    x.toNat + y.toNat < 2 ^ 64 ∧ s.toNat = x.toNat + y.toNat := by
  simp only [SafeAdd, Prod.mk.injEq, decide_eq_false_iff_not, gt_iff_lt] at h
  obtain ⟨rfl, hle⟩ := h
  have hmax : MaxUint64.toNat = 2 ^ 64 - 1 := rfl
  have hx := x.toNat_lt
  rw [UInt64.lt_iff_toNat_lt, UInt64.toNat_sub_of_le _ _ (UInt64.le_iff_toNat_le.mpr (by omega)), hmax] at hle
  rw [UInt64.toNat_add]
  omega

theorem toNat_sub_div64 (x : UInt64) : (x - x / 64).toNat = x.toNat - x.toNat / 64 := by
  have h64 : (64 : UInt64).toNat = 64 := rfl
  have hdiv : (x / 64).toNat = x.toNat / 64 := by rw [UInt64.toNat_div, h64]
  rw [UInt64.toNat_sub_of_le _ _ (UInt64.le_iff_toNat_le.mpr (by rw [hdiv]; omega)), hdiv]

/-! ## The gas a call passes on -/

theorem callGas_eq_ok {gt : GasTable} {g b cg : UInt64} {c : Nat} (h : callGas gt g b c = .ok cg) :
    (0 < gt.CreateBySuicide → cg.toNat = min c ((g - b).toNat - (g - b).toNat / 64)) ∧
      (gt.CreateBySuicide = 0 → c < 2 ^ 64 ∧ cg.toNat = c) := by
  have hleft := toNat_sub_div64 (g - b)
  have hwide := (g - b).toNat_lt
  simp only [callGas] at h
  split_ifs at h with hcap hbig
  · cases h
    obtain ⟨hpos, hbig | hlt⟩ := hcap
    · refine ⟨fun _ => by omega, fun h0 => absurd hpos (by rw [h0]; decide)⟩
    · rw [UInt64.lt_iff_toNat_lt, UInt64.toNat_ofNat'] at hlt
      refine ⟨fun _ => by omega, fun h0 => absurd hpos (by rw [h0]; decide)⟩
  · cases h
    have hc : (UInt64.ofNat c).toNat = c := by rw [UInt64.toNat_ofNat']; omega
    refine ⟨fun hpos => ?_, fun _ => ⟨by omega, hc⟩⟩
    -- the request is within the cap, or the first branch would have been taken
    have hge : ¬((g - b) - (g - b) / 64 < UInt64.ofNat c) := fun hlt => hcap ⟨hpos, .inr hlt⟩
    rw [UInt64.lt_iff_toNat_lt, hleft, hc] at hge
    omega

theorem chargeCall_eq_ok {gt : GasTable} {g b total : UInt64} {c : Nat} {rest stack : List Nat}
    (h : chargeCall gt g b c rest = .ok (total, stack)) :
    ∃ cg, callGas gt g b c = .ok cg ∧ SafeAdd b cg = (total, false) ∧ stack = cg.toNat :: rest := by
  unfold chargeCall at h
  split at h
  · cases h
  · rename_i cg hcg
    dsimp only at h
    split at h
    · cases h
    · rename_i hno
      cases h
      exact ⟨cg, hcg, Prod.ext rfl (by simpa using hno), rfl⟩

/-- What a call gas function's success says of its total `total` and stack `stack`, for the base
cost `b` it computed, the contract's gas `g` and the request `c` on top of `rest`. -/
def ForwardsGas (gt : GasTable) (g b : UInt64) (c : Nat) (rest : List Nat) (total : UInt64)
    (stack : List Nat) : Prop :=
  ∃ cg : UInt64, total.toNat = b.toNat + cg.toNat ∧ stack = cg.toNat :: rest ∧
    ∀ left, UseGas g total = some left →
      b ≤ g ∧ (0 < gt.CreateBySuicide → cg.toNat = min c ((g.toNat - b.toNat) - (g.toNat - b.toNat) / 64)) ∧
        (gt.CreateBySuicide = 0 → c < 2 ^ 64 ∧ cg.toNat = c)

theorem chargeCall_forwards {gt : GasTable} {g b total : UInt64} {c : Nat} {rest stack : List Nat}
    (h : chargeCall gt g b c rest = .ok (total, stack)) : ForwardsGas gt g b c rest total stack := by
  obtain ⟨cg, hcg, hsum, rfl⟩ := chargeCall_eq_ok h
  obtain ⟨-, hs⟩ := SafeAdd_eq_false hsum
  refine ⟨cg, hs, rfl, fun left huse => ?_⟩
  -- a total the contract can pay covers the base cost, so `g - b` did not wrap
  have hpay : total.toNat ≤ g.toNat := by
    unfold UseGas at huse
    split at huse
    · cases huse
    · rename_i hnot
      rw [UInt64.lt_iff_toNat_lt] at hnot
      omega
  have hbg : b ≤ g := UInt64.le_iff_toNat_le.mpr (by omega)
  obtain ⟨h150, hpre⟩ := callGas_eq_ok hcg
  exact ⟨hbg, fun hpos => by rw [h150 hpos, UInt64.toNat_sub_of_le _ _ hbg], hpre⟩

theorem chargeWithMemory_eq_ok {gt : GasTable} {g total memorySize : UInt64} {c : Nat}
    {rest stack : List Nat} {mem mem' : Memory} {add : UInt64 → UInt64 × Bool}
    (h : chargeWithMemory gt g c rest mem memorySize add = .ok (total, stack, mem')) :
    ∃ memoryGas b, memoryGasCost mem memorySize = .ok (memoryGas, mem') ∧ add memoryGas = (b, false) ∧
      chargeCall gt g b c rest = .ok (total, stack) := by
  unfold chargeWithMemory at h
  split at h
  · cases h
  · rename_i memoryGas mem₁ hmem
    dsimp only at h
    split at h
    · cases h
    · rename_i hno
      cases hcharge : chargeCall gt g (add memoryGas).1 c rest with
      | error err =>
        rw [hcharge] at h
        cases h
      | ok res =>
        rw [hcharge] at h
        cases h
        exact ⟨memoryGas, _, hmem, Prod.ext rfl (by simpa using hno), hcharge⟩

theorem chargeWithMemory_forwards {gt : GasTable} {g total memorySize : UInt64} {c : Nat}
    {rest stack : List Nat} {mem mem' : Memory} {add : UInt64 → UInt64 × Bool}
    (h : chargeWithMemory gt g c rest mem memorySize add = .ok (total, stack, mem')) :
    ∃ memoryGas b, memoryGasCost mem memorySize = .ok (memoryGas, mem') ∧ add memoryGas = (b, false) ∧
      ForwardsGas gt g b c rest total stack := by
  obtain ⟨memoryGas, b, hmem, hadd, hcharge⟩ := chargeWithMemory_eq_ok h
  exact ⟨memoryGas, b, hmem, hadd, chargeCall_forwards hcharge⟩

/-! ## The four call gas functions -/

/-- Each of the four call gas functions, when it succeeds, charges its base cost `b` (the fixed
part of its own and the memory gas, added without a wrap) plus the gas `cg` it leaves for the
callee in the slot of the requested gas, and when the contract can pay that total, `cg` is the
request capped at all but one 64th of `g - b` from EIP 150 on, and the request itself before. -/
theorem callGasFunctions_forward (gt : GasTable) (g : UInt64) (mem mem' : Memory) (memorySize total : UInt64)
    (requested : Nat) (rest stack : List Nat) :
    (∀ eip158 empty exist addr value,
      gasCall gt eip158 empty exist g (requested :: addr :: value :: rest) mem memorySize =
          some (.ok (total, stack, mem')) →
        ∃ memoryGas b, memoryGasCost mem memorySize = .ok (memoryGas, mem') ∧
          SafeAdd (callBaseGas gt eip158 empty exist addr value) memoryGas = (b, false) ∧
          ForwardsGas gt g b requested (addr :: value :: rest) total stack) ∧
    (∀ addr value,
      gasCallCode gt g (requested :: addr :: value :: rest) mem memorySize = some (.ok (total, stack, mem')) →
        ∃ memoryGas b, memoryGasCost mem memorySize = .ok (memoryGas, mem') ∧
          SafeAdd (if value ≠ 0 then gt.Calls + CallValueTransferGas else gt.Calls) memoryGas = (b, false) ∧
          ForwardsGas gt g b requested (addr :: value :: rest) total stack) ∧
    (gasDelegateCall gt g (requested :: rest) mem memorySize = some (.ok (total, stack, mem')) →
      ∃ memoryGas b, memoryGasCost mem memorySize = .ok (memoryGas, mem') ∧
        SafeAdd memoryGas gt.Calls = (b, false) ∧ ForwardsGas gt g b requested rest total stack) ∧
    (gasStaticCall gt g (requested :: rest) mem memorySize = some (.ok (total, stack, mem')) →
      ∃ memoryGas b, memoryGasCost mem memorySize = .ok (memoryGas, mem') ∧
        SafeAdd memoryGas gt.Calls = (b, false) ∧ ForwardsGas gt g b requested rest total stack) := by
  refine ⟨fun eip158 empty exist addr value h => ?_, fun addr value h => ?_, fun h => ?_, fun h => ?_⟩
  all_goals exact chargeWithMemory_forwards (Option.some.inj h)

theorem callGasFunctions_forward_eip150 :
    gasCall GasTableEIP150 true (fun _ => false) (fun _ => true) 100000 [50000, 1, 0] ⟨0, 0⟩ 0 =
        some (.ok (50700, [50000, 1, 0], ⟨0, 0⟩)) ∧
      (∃ memoryGas b, memoryGasCost ⟨0, 0⟩ 0 = .ok (memoryGas, ⟨0, 0⟩) ∧
        SafeAdd (callBaseGas GasTableEIP150 true (fun _ => false) (fun _ => true) 1 0) memoryGas = (b, false) ∧
        ForwardsGas GasTableEIP150 100000 b 50000 [1, 0] 50700 [50000, 1, 0]) ∧
    gasStaticCall GasTableEIP150 1000 [2 ^ 70] ⟨0, 0⟩ 0 = some (.ok (996, [296], ⟨0, 0⟩)) ∧
      (∃ memoryGas b, memoryGasCost ⟨0, 0⟩ 0 = .ok (memoryGas, ⟨0, 0⟩) ∧
        SafeAdd memoryGas GasTableEIP150.Calls = (b, false) ∧ ForwardsGas GasTableEIP150 1000 b (2 ^ 70) [] 996 [296]) :=
  have hcall : gasCall GasTableEIP150 true (fun _ => false) (fun _ => true) 100000 [50000, 1, 0] ⟨0, 0⟩ 0 =
      some (.ok (50700, [50000, 1, 0], ⟨0, 0⟩)) := rfl
  have hstatic : gasStaticCall GasTableEIP150 1000 [2 ^ 70] ⟨0, 0⟩ 0 = some (.ok (996, [296], ⟨0, 0⟩)) := rfl
  ⟨hcall, (callGasFunctions_forward GasTableEIP150 100000 ⟨0, 0⟩ ⟨0, 0⟩ 0 50700 50000 [] [50000, 1, 0]).1
      true _ _ 1 0 hcall,
    hstatic, (callGasFunctions_forward GasTableEIP150 1000 ⟨0, 0⟩ ⟨0, 0⟩ 0 996 (2 ^ 70) [] [296]).2.2.2 hstatic⟩

end Zerium.Vm
