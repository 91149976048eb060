import Mathlib

/-! # Runs of a step function, and one run simulating another

A system that takes its inputs one at a time is a step function from a state and an input to the
next state and an output, or an error. Its run over a list of inputs collects the outputs and
ends at the first error. Two such systems agree along every run when a relation between their
states is kept by each step, with the same output or the same error at that step, for the inputs
of a given kind (`run_related`): a run of the one is then a run of the other, input by input.
-/

namespace Sim

set_option autoImplicit false

variable {ε ι ο σ τ : Type}

theorem bind_eq_ok {α β : Type} {x : Except ε α} {f : α → Except ε β} {b : β} :
    x >>= f = .ok b ↔ ∃ a, x = .ok a ∧ f a = .ok b := by
  cases x with
  | error e => simp [bind, Except.bind]
  | ok a => simp [bind, Except.bind]

@[simp] theorem ok_bind {α β : Type} (a : α) (f : α → Except ε β) : (Except.ok a >>= f) = f a := rfl

/-- The run of `step` from `s` over the inputs: the last state and the output of each step. -/
def run (step : σ → ι → Except ε (σ × ο)) : σ → List ι → Except ε (σ × List ο)
  | s, [] => .ok (s, [])
  | s, i :: is => do
    let (s, o) ← step s i
    let (s, os) ← run step s is
    pure (s, o :: os)

def Related {α : Type} (R : σ → τ → Prop) : Except ε (σ × α) → Except ε (τ × α) → Prop
  | .ok (s, o), .ok (t, o') => R s t ∧ o = o'
  | .error e, .error e' => e = e'
  | _, _ => False

@[simp] theorem related_ok {α : Type} {R : σ → τ → Prop} {s : σ} {t : τ} {o o' : α} :
    Related (ε := ε) R (.ok (s, o)) (.ok (t, o')) ↔ R s t ∧ o = o' := Iff.rfl

@[simp] theorem related_error {α : Type} {R : σ → τ → Prop} {e e' : ε} :
    Related (α := α) R (.error e) (.error e') ↔ e = e' := Iff.rfl

theorem Related.bind {σ' τ' α β : Type} {R : σ → τ → Prop} {R' : σ' → τ' → Prop}
    {x : Except ε (σ × α)} {y : Except ε (τ × α)} {f : σ × α → Except ε (σ' × β)}
    {g : τ × α → Except ε (τ' × β)} (hxy : Related R x y)
    (hfg : ∀ s t a, R s t → Related R' (f (s, a)) (g (t, a))) : Related R' (x >>= f) (y >>= g) := by
  rcases x with e | ⟨s, a⟩ <;> rcases y with e' | ⟨t, a'⟩
  · exact hxy
  · exact hxy.elim
  · exact hxy.elim
  · obtain ⟨hR, rfl⟩ := hxy
    exact hfg s t a hR

section Simulation

variable (stepC : σ → ι → Except ε (σ × ο)) (stepA : τ → ι → Except ε (τ × ο))
  (R : σ → τ → Prop) (Good : ι → Prop)

theorem run_related (hstep : ∀ s t i, R s t → Good i → Related R (stepC s i) (stepA t i))
    (s : σ) (t : τ) (is : List ι) (hR : R s t) (hgood : ∀ i ∈ is, Good i) :
    Related R (run stepC s is) (run stepA t is) := by
  induction is generalizing s t with
  | nil => exact ⟨hR, rfl⟩
  | cons i is ih =>
    apply Related.bind (hstep s t i hR (hgood i List.mem_cons_self))
    rintro s' t' o hR'
    apply Related.bind (ih s' t' hR' fun j hj => hgood j (List.mem_cons_of_mem i hj))
    rintro s'' t'' os hR''
    exact ⟨hR'', rfl⟩

end Simulation

end Sim
