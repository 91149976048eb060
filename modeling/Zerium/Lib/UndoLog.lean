import Mathlib
import Zerium.Lib.Sim

/-! # Undo logs

A store that journals, before each write, an entry whose undo puts back what the write changed
can be rolled back to an earlier point of its journal: the entries written since are undone, the
last first (`undoAll`). The rollback restores the store when every step, from `s` to `s'`,
journals entries that take any state standing for `s'` to one standing for `s` (`Undoes`):
such steps compose (`Undoes.trans`), so the entries of a whole run undo the run. What "stands
for" means is the user's relation `R t s`, typically "is well formed and answers every read as
`s` does"; it is asked of every state the undo passes through, since an undo step reads the
state it works on, not the one the entry was written in.
-/

namespace UndoLog

set_option autoImplicit false

variable {σ ε E : Type} (undo : E → σ → Except ε σ)

def undoAll (es : List E) (t : σ) : Except ε σ :=
  es.reverse.foldlM (fun s e => undo e s) t

@[simp] theorem undoAll_nil (t : σ) : undoAll undo [] t = .ok t := rfl

@[simp] theorem undoAll_singleton (e : E) (t : σ) : undoAll undo [e] t = undo e t := by
  simp only [undoAll, List.reverse_singleton, List.foldlM_cons, List.foldlM_nil]
  cases undo e t <;> rfl

theorem undoAll_append (es₁ es₂ : List E) (t : σ) :
    undoAll undo (es₁ ++ es₂) t = undoAll undo es₂ t >>= undoAll undo es₁ := by
  simp only [undoAll, List.reverse_append, List.foldlM_append]
  rfl

theorem undoAll_preserves (P : σ → Prop) (hstep : ∀ e t t', undo e t = .ok t' → P t → P t') {es : List E}
    {t t' : σ} (h : undoAll undo es t = .ok t') (ht : P t) : P t' := by
  unfold undoAll at h
  generalize es.reverse = l at h
  -- the rollback undoes the entries of `l` in order, from `t`
  induction l generalizing t with
  | nil =>
    cases h
    exact ht
  | cons e l ih =>
    rw [List.foldlM_cons] at h
    cases hu : undo e t with
    | error err =>
      rw [hu] at h
      cases h
    | ok u =>
      rw [hu, Sim.ok_bind] at h
      exact ih (hstep e t u hu ht) h

variable (R : σ → σ → Prop)

def Undoes (es : List E) (s' s : σ) : Prop :=
  ∀ t, R t s' → ∃ t', undoAll undo es t = .ok t' ∧ R t' s

variable {undo R}

theorem Undoes.nil {s' s : σ} (h : ∀ t, R t s' → R t s) : Undoes undo R [] s' s :=
  fun t ht => ⟨t, rfl, h t ht⟩

theorem Undoes.single {e : E} {s' s : σ} (h : ∀ t, R t s' → ∃ t', undo e t = .ok t' ∧ R t' s) :
    Undoes undo R [e] s' s := by
  intro t ht
  rw [undoAll_singleton]
  exact h t ht

theorem Undoes.trans {es₁ es₂ : List E} {s₀ s₁ s₂ : σ} (h₁ : Undoes undo R es₁ s₁ s₀)
    (h₂ : Undoes undo R es₂ s₂ s₁) : Undoes undo R (es₁ ++ es₂) s₂ s₀ := by
  intro t ht
  obtain ⟨t₁, hundo₂, ht₁⟩ := h₂ t ht
  obtain ⟨t₀, hundo₁, ht₀⟩ := h₁ t₁ ht₁
  refine ⟨t₀, ?_, ht₀⟩
  rw [undoAll_append, hundo₂, Sim.ok_bind, hundo₁]

theorem Undoes.of_sim {es : List E} {s'' s' s : σ} (h : Undoes undo R es s' s)
    (hsim : ∀ t, R t s'' → R t s') : Undoes undo R es s'' s :=
  fun t ht => h t (hsim t ht)

end UndoLog
