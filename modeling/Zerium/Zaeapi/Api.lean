import Zerium.Core.StateTransition

/-! # Gas estimation (`internal/zaeapi/api.go`)

`EstimateGas` searches for the least gas allowance with which the call goes through. It starts
from `lo = TxGas - 1` and `hi`, the gas given or the pending block's gas limit, and halves the
interval with `mid = (hi + lo) / 2`, all in `uint64`; at the end it tries `hi` once if it is
still the cap. Each trial runs `doCall` with `args.Gas` set to the allowance, and `doCall`
replaces a gas of zero with its default of `50000000`.

What a call does with the gas its message gets (the state and header of the pending block, the
EVM, `ApplyMessage`) is the parameter `call`: an error, or whether the execution failed. The loop
of the search is run with fuel, one round a unit; `none` is a search that has not ended.
-/

namespace Zerium.Zaeapi

set_option autoImplicit false

/-- `doCall`'s gas: `args.Gas`, or `50000000` where none was set. -/
def callGas (gas : Nat) : Nat := if gas = 0 then 50000000 else gas

/-- The closure `executable(gas)`: `doCall` with `args.Gas` set to `gas` neither errs nor fails. -/
def executable (call : Nat → Except String Bool) (gas : UInt64) : Bool :=
  match call (callGas gas.toNat) with
  | .ok failed => !failed
  | .error _ => false

def searchLoop (executable : UInt64 → Bool) : Nat → UInt64 → UInt64 → Option UInt64
  | 0, _, _ => none
  | fuel + 1, lo, hi =>
    if lo + 1 < hi then
      let mid := (hi + lo) / 2
      if !executable mid then searchLoop executable fuel mid hi
      else searchLoop executable fuel lo mid
    else some hi

def allowance (gas : Nat) (pendingGasLimit : Except String UInt64) : Except String UInt64 :=
  if UInt64.ofNat gas ≥ UInt64.ofNat Core.TxGas then .ok (UInt64.ofNat gas) else pendingGasLimit

def EstimateGas (call : Nat → Except String Bool) (gas : Nat)
    (pendingGasLimit : Except String UInt64) (fuel : Nat) : Option (Except String UInt64) :=
  let lo := UInt64.ofNat Core.TxGas - 1
  match allowance gas pendingGasLimit with
  | .error err => some (.error err)
  | .ok cap =>
    (searchLoop (executable call) fuel lo cap).map fun hi =>
      if hi = cap then
        if !executable call hi then
          .error "gas required exceeds allowance or always failing transaction"
        else .ok hi
      else .ok hi

/-! ## A search that never ends

With a cap of `2 ^ 64 - 1`, `hi + lo` wraps: `mid` falls below `lo`, and a failing trial moves
`lo` down to it. From `lo = 20999` the search goes down to `lo = 0`, up to `2 ^ 63 - 1`, and
then through `2 ^ k - 1` for every `k` down to `0` again, as long as every trial fails. -/

def wrapOrbit : List UInt64 :=
  [20999, 10499, 5249, 2624, 1311, 655, 327, 163, 81, 40, 19, 9, 4] ++
    (List.range 64).map fun k => UInt64.ofNat (2 ^ k - 1)

theorem wrapOrbit_closed : ∀ lo ∈ wrapOrbit, lo + 1 < UInt64.ofNat (2 ^ 64 - 1) ∧
    (UInt64.ofNat (2 ^ 64 - 1) + lo) / 2 ∈ wrapOrbit ∧
    ((UInt64.ofNat (2 ^ 64 - 1) + lo) / 2).toNat < 2 ^ 63 := by
  -- checked as a `List.all`: with `Fintype UInt64` in scope, `decide` would read the bounded
  -- quantifier as one over every `UInt64`
  have hall : wrapOrbit.all (fun lo => decide (lo + 1 < UInt64.ofNat (2 ^ 64 - 1) ∧
      (UInt64.ofNat (2 ^ 64 - 1) + lo) / 2 ∈ wrapOrbit ∧
      ((UInt64.ofNat (2 ^ 64 - 1) + lo) / 2).toNat < 2 ^ 63)) = true := by
    decide +kernel
  intro lo hlo
  exact of_decide_eq_true (List.all_eq_true.mp hall lo hlo)

theorem searchLoop_wrapOrbit (executable : UInt64 → Bool)
    (hfail : ∀ g : UInt64, g.toNat < 2 ^ 63 → executable g = false) :
    ∀ (fuel : Nat) (lo : UInt64), lo ∈ wrapOrbit →
      searchLoop executable fuel lo (UInt64.ofNat (2 ^ 64 - 1)) = none
  | 0, _, _ => rfl
  | fuel + 1, lo, hlo => by
    obtain ⟨hlt, hmid, hsmall⟩ := wrapOrbit_closed lo hlo
    rw [searchLoop, if_pos hlt]
    dsimp only
    rw [hfail _ hsmall, Bool.not_false, if_pos rfl]
    exact searchLoop_wrapOrbit executable hfail fuel _ hmid

theorem executable_eq_false_of_fails {call : Nat → Except String Bool} {gas : UInt64}
    (hfail : call (callGas gas.toNat) ≠ .ok false) : executable call gas = false := by
  unfold executable
  split
  · rename_i failed hcall
    cases failed
    · exact absurd hcall hfail
    · rfl
  · rfl

/-- `EstimateGas` with `2 ^ 64 - 1` gas given never returns, for every call that errs or fails
with every gas below `2 ^ 63`: an always failing transaction, among others. -/
theorem EstimateGas_diverges (call : Nat → Except String Bool)
    (pendingGasLimit : Except String UInt64)
    (hfail : ∀ gas : Nat, gas < 2 ^ 63 → call gas ≠ .ok false) (fuel : Nat) :
    EstimateGas call (2 ^ 64 - 1) pendingGasLimit fuel = none := by
  have hcap : allowance (2 ^ 64 - 1) pendingGasLimit = .ok (UInt64.ofNat (2 ^ 64 - 1)) := by
    rw [allowance, if_pos (by decide)]
  have hexec : ∀ g : UInt64, g.toNat < 2 ^ 63 → executable call g = false := by
    intro g hg
    apply executable_eq_false_of_fails
    apply hfail
    unfold callGas
    split <;> omega
  rw [EstimateGas, hcap]
  dsimp only
  rw [searchLoop_wrapOrbit _ hexec fuel _ (by decide), Option.map_none]

theorem EstimateGas_diverges_reverting :
    (∀ gas : Nat, gas < 2 ^ 63 → (fun _ => .ok true : Nat → Except String Bool) gas ≠ .ok false) ∧
      EstimateGas (fun _ => .ok true) (2 ^ 64 - 1) (.error "") (2 ^ 64) = none :=
  ⟨fun _ _ => by simp,
    EstimateGas_diverges (fun _ => .ok true) (.error "") (fun _ _ => by simp) (2 ^ 64)⟩

/-! ## The search below `2 ^ 63`

When the cap is at most `2 ^ 63`, `hi + lo` never wraps, and the search is the binary search it
is meant to be: `lo` is `TxGas - 1` or an allowance that failed, `hi` is the cap or one that went
through, and each round halves the distance between them. -/

section Search

variable {executable : UInt64 → Bool} {cap lo hi : UInt64}

structure SearchInv (executable : UInt64 → Bool) (cap lo hi : UInt64) : Prop where
  lo_ge : Core.TxGas - 1 ≤ lo.toNat
  lt : lo.toNat < hi.toNat
  hi_le : hi.toNat ≤ cap.toNat
  cap_le : cap.toNat ≤ 2 ^ 63
  lo_fails : lo.toNat = Core.TxGas - 1 ∨ executable lo = false
  hi_passes : hi = cap ∨ executable hi = true

theorem SearchInv.mid_toNat (h : SearchInv executable cap lo hi) :
    ((hi + lo) / 2).toNat = (hi.toNat + lo.toNat) / 2 := by
  have hsum : hi.toNat + lo.toNat < 2 ^ 64 := by have := h.lt; have := h.hi_le; have := h.cap_le; omega
  rw [UInt64.toNat_div, UInt64.toNat_add, Nat.mod_eq_of_lt hsum]
  rfl

theorem SearchInv.lt_iff (h : SearchInv executable cap lo hi) :
    lo + 1 < hi ↔ lo.toNat + 1 < hi.toNat := by
  have hlo : lo.toNat + 1 < 2 ^ 64 := by have := h.lt; have := h.hi_le; have := h.cap_le; omega
  rw [UInt64.lt_iff_toNat_lt, UInt64.toNat_add, UInt64.toNat_one, Nat.mod_eq_of_lt hlo]

theorem SearchInv.raise (h : SearchInv executable cap lo hi) (hlt : lo.toNat + 1 < hi.toNat)
    (hfail : executable ((hi + lo) / 2) = false) : SearchInv executable cap ((hi + lo) / 2) hi where
  lo_ge := by rw [h.mid_toNat]; have := h.lo_ge; omega
  lt := by rw [h.mid_toNat]; omega
  hi_le := h.hi_le
  cap_le := h.cap_le
  lo_fails := .inr hfail
  hi_passes := h.hi_passes

theorem SearchInv.lower (h : SearchInv executable cap lo hi) (hlt : lo.toNat + 1 < hi.toNat)
    (hpass : executable ((hi + lo) / 2) = true) : SearchInv executable cap lo ((hi + lo) / 2) where
  lo_ge := h.lo_ge
  lt := by rw [h.mid_toNat]; omega
  hi_le := by rw [h.mid_toNat]; have := h.hi_le; omega
  cap_le := h.cap_le
  lo_fails := h.lo_fails
  hi_passes := .inr hpass

theorem searchLoop_spec : ∀ (fuel : Nat) (lo hi : UInt64), SearchInv executable cap lo hi →
    hi.toNat - lo.toNat ≤ 2 ^ fuel →
    ∃ lo' g, searchLoop executable (fuel + 1) lo hi = some g ∧ SearchInv executable cap lo' g ∧
      g.toNat = lo'.toNat + 1 := by
  intro fuel
  induction fuel with
  | zero =>
    intro lo hi h hd
    have hstop : ¬lo + 1 < hi := by rw [h.lt_iff]; simp at hd; omega
    refine ⟨lo, hi, by rw [searchLoop, if_neg hstop], h, ?_⟩
    have := h.lt
    simp at hd
    omega
  | succ fuel ih =>
    intro lo hi h hd
    rw [searchLoop]
    by_cases hlt : lo + 1 < hi
    · rw [if_pos hlt]
      dsimp only
      have hlt' := h.lt_iff.mp hlt
      have hmid := h.mid_toNat
      rw [Nat.pow_succ] at hd
      cases hexec : executable ((hi + lo) / 2) with
      | false =>
        rw [Bool.not_false, if_pos rfl]
        exact ih _ _ (h.raise hlt' hexec) (by rw [hmid]; omega)
      | true =>
        rw [Bool.not_true, if_neg (by simp)]
        exact ih _ _ (h.lower hlt' hexec) (by rw [hmid]; omega)
    · rw [if_neg hlt]
      exact ⟨lo, hi, rfl, h, by have := h.lt; rw [h.lt_iff] at hlt; omega⟩

theorem searchLoop_succ_of_some {g : UInt64} : ∀ {fuel : Nat} {lo hi : UInt64},
    searchLoop executable fuel lo hi = some g → searchLoop executable (fuel + 1) lo hi = some g
  | 0, _, _, h => nomatch h
  | fuel + 1, lo, hi, h => by
    rw [searchLoop] at h ⊢
    split
    · rename_i hlt
      rw [if_pos hlt] at h
      dsimp only at h ⊢
      split
      · rename_i hexec
        rw [if_pos hexec] at h
        exact searchLoop_succ_of_some h
      · rename_i hexec
        rw [if_neg hexec] at h
        exact searchLoop_succ_of_some h
    · rename_i hlt
      rwa [if_neg hlt] at h

end Search

def MonotoneUpTo (executable : UInt64 → Bool) (cap : UInt64) : Prop :=
  ∀ a b : UInt64, Core.TxGas ≤ a.toNat → a.toNat ≤ b.toNat → b.toNat ≤ cap.toNat →
    executable a = true → executable b = true

theorem SearchInv.least {executable : UInt64 → Bool} {cap lo g : UInt64}
    (h : SearchInv executable cap lo g) (hg : g.toNat = lo.toNat + 1)
    (hmono : MonotoneUpTo executable cap) :
    ∀ g' : UInt64, Core.TxGas ≤ g'.toNat → g'.toNat < g.toNat → executable g' = false := by
  intro g' hge hlt
  have htx : Core.TxGas = 21000 := rfl
  rcases h.lo_fails with hlo | hlo
  · omega
  · cases hexec : executable g'
    · rfl
    · have := hmono g' lo hge (by omega) (by have := h.hi_le; omega) hexec
      rw [hlo] at this
      cases this

def EstimatesWithin (call : Nat → Except String Bool) (cap : UInt64) (r : Except String UInt64) :
    Prop :=
  ((r = .error "gas required exceeds allowance or always failing transaction" ∧
      executable call cap = false) ∨
    ∃ g, r = .ok g ∧ executable call g = true ∧ Core.TxGas ≤ g.toNat ∧ g.toNat ≤ cap.toNat) ∧
  (MonotoneUpTo (executable call) cap →
    (executable call cap = false →
      r = .error "gas required exceeds allowance or always failing transaction") ∧
    ∀ g, r = .ok g → ∀ g' : UInt64, Core.TxGas ≤ g'.toNat → g'.toNat < g.toNat →
      executable call g' = false)

/-- With a cap from `TxGas` to `2 ^ 63`, `EstimateGas` ends within 64 rounds with an estimate
for the cap. -/
theorem EstimateGas_searches (call : Nat → Except String Bool) (gas : Nat)
    (pendingGasLimit : Except String UInt64) {cap : UInt64}
    (hcap : allowance gas pendingGasLimit = .ok cap) (hlo : Core.TxGas ≤ cap.toNat)
    (hhi : cap.toNat ≤ 2 ^ 63) :
    ∃ r, (∀ fuel, 64 ≤ fuel → EstimateGas call gas pendingGasLimit fuel = some r) ∧
      EstimatesWithin call cap r := by
  have hinit : SearchInv (executable call) cap (UInt64.ofNat Core.TxGas - 1) cap :=
    { lo_ge := by decide
      lt := by simp [Core.TxGas] at hlo ⊢; omega
      hi_le := Nat.le_refl _
      cap_le := hhi
      lo_fails := .inl (by decide)
      hi_passes := .inl rfl }
  obtain ⟨lo, g, hloop, hinv, hg⟩ := searchLoop_spec 63 _ _ hinit (by have := hinit.lo_ge; omega)
  have hfuel : ∀ fuel, 64 ≤ fuel →
      searchLoop (executable call) fuel (UInt64.ofNat Core.TxGas - 1) cap = some g := by
    intro fuel hfuel
    obtain ⟨k, rfl⟩ := Nat.exists_eq_add_of_le hfuel
    induction k with
    | zero => exact hloop
    | succ k ih => exact searchLoop_succ_of_some (ih (by omega))
  refine ⟨if g = cap then (if !executable call g then
      .error "gas required exceeds allowance or always failing transaction" else .ok g) else .ok g,
    fun fuel hf => by rw [EstimateGas, hcap]; dsimp only; rw [hfuel fuel hf]; rfl, ?_⟩
  unfold EstimatesWithin
  refine ⟨?_, ?_⟩
  · have hge : Core.TxGas ≤ g.toNat := by have := hinv.lo_ge; omega
    by_cases hcapg : g = cap
    · subst hcapg
      cases hexec : executable call g
      · exact .inl ⟨by simp, rfl⟩
      · exact .inr ⟨g, by simp, hexec, hge, Nat.le_refl _⟩
    · have hexec : executable call g = true := hinv.hi_passes.resolve_left hcapg
      exact .inr ⟨g, by simp [hcapg], hexec, hge, hinv.hi_le⟩
  · intro hmono
    refine ⟨fun hcapfail => ?_, ?_⟩
    · -- an allowance below the cap that went through would let the cap through
      have hcapg : g = cap := by
        rcases hinv.hi_passes with hcapg | hexec
        · exact hcapg
        · have := hmono g cap (by have := hinv.lo_ge; omega) hinv.hi_le (Nat.le_refl _) hexec
          rw [hcapfail] at this
          cases this
      subst hcapg
      simp [hcapfail]
    · intro g' hr
      have hgg : g' = g := by
        by_cases hcapg : g = cap
        · subst hcapg
          cases hexec : executable call g <;> simp [hexec] at hr
          exact hr.symm
        · simpa [hcapg] using hr.symm
      subst hgg
      exact hinv.least hg hmono

example : EstimateGas (fun g => .ok (decide (g < 50000))) 100000 (.error "") 64 = some (.ok 50000) :=
  rfl

theorem EstimateGas_searches_threshold :
    allowance 100000 (.error "") = .ok 100000 ∧ Core.TxGas ≤ (100000 : UInt64).toNat ∧
      (100000 : UInt64).toNat ≤ 2 ^ 63 ∧
      ∃ r, (∀ fuel, 64 ≤ fuel →
          EstimateGas (fun g => .ok (decide (g < 50000))) 100000 (.error "") fuel = some r) ∧
        EstimatesWithin (fun g => .ok (decide (g < 50000))) 100000 r :=
  ⟨rfl, by decide, by decide,
    EstimateGas_searches (fun g => .ok (decide (g < 50000))) 100000 (.error "") rfl
      (by decide) (by decide)⟩

end Zerium.Zaeapi
