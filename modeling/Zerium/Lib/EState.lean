import Mathlib

/-! # Running `EStateM` programs

A program in `EStateM ε σ` is a function of the state that ends in a value or an error, each
with the state it leaves: an error does not undo what the program did before it, as a method
on a Go struct that returns an error keeps the writes it made to its receiver. These are the
rules for running such programs step by step: a bind that goes on after a success, or stops
at an error, and the inversion of a bind that ended one way or the other.
-/

namespace EStateM

set_option autoImplicit false

variable {ε σ α β : Type}

@[simp] theorem get_apply (s : σ) : (get : EStateM ε σ σ) s = .ok s s := rfl

@[simp] theorem set_apply (s s' : σ) : (set s' : EStateM ε σ PUnit) s = .ok ⟨⟩ s' := rfl

@[simp] theorem pure_apply (a : α) (s : σ) : (pure a : EStateM ε σ α) s = .ok a s := rfl

@[simp] theorem throw_apply (e : ε) (s : σ) : (throw e : EStateM ε σ α) s = .error e s := rfl

@[simp] theorem get_bind_apply (f : σ → EStateM ε σ β) (s : σ) : (get >>= f) s = f s s := rfl

@[simp] theorem set_bind_apply (s s' : σ) (f : PUnit → EStateM ε σ β) : (set s' >>= f) s = f ⟨⟩ s' := rfl

@[simp] theorem pure_bind_apply (a : α) (f : α → EStateM ε σ β) (s : σ) : (pure a >>= f) s = f a s := rfl

@[simp] theorem throw_bind_apply (e : ε) (f : α → EStateM ε σ β) (s : σ) :
    (throw e >>= f) s = .error e s := rfl

@[simp] theorem map_set_apply (f : PUnit → α) (s s' : σ) :
    (f <$> (set s' : EStateM ε σ PUnit)) s = .ok (f ⟨⟩) s' := rfl

theorem bind_apply (x : EStateM ε σ α) (f : α → EStateM ε σ β) (s : σ) :
    (x >>= f) s = match x s with
      | .ok a s' => f a s'
      | .error e s' => .error e s' := rfl

theorem bind_apply_ok {x : EStateM ε σ α} {f : α → EStateM ε σ β} {s s' : σ} {a : α}
    (h : x s = .ok a s') : (x >>= f) s = f a s' := by
  show EStateM.bind x f s = f a s'
  simp only [EStateM.bind, h]

theorem bind_apply_error {x : EStateM ε σ α} {f : α → EStateM ε σ β} {s s' : σ} {e : ε}
    (h : x s = .error e s') : (x >>= f) s = .error e s' := by
  show EStateM.bind x f s = _
  simp only [EStateM.bind, h]

theorem bind_apply_eq_ok {x : EStateM ε σ α} {f : α → EStateM ε σ β} {s s'' : σ} {b : β}
    (h : (x >>= f) s = .ok b s'') : ∃ a s', x s = .ok a s' ∧ f a s' = .ok b s'' := by
  change EStateM.bind x f s = _ at h
  unfold EStateM.bind at h
  split at h
  · exact ⟨_, _, ‹_›, h⟩
  · cases h

theorem bind_apply_eq_error {x : EStateM ε σ α} {f : α → EStateM ε σ β} {s s' : σ} {e : ε}
    (h : (x >>= f) s = .error e s') :
    x s = .error e s' ∨ ∃ a s₁, x s = .ok a s₁ ∧ f a s₁ = .error e s' := by
  change EStateM.bind x f s = _ at h
  unfold EStateM.bind at h
  split at h
  · exact .inr ⟨_, _, ‹_›, h⟩
  · cases h
    exact .inl ‹_›

@[simp] theorem modify_apply (f : σ → σ) (s : σ) : (modify f : EStateM ε σ PUnit) s = .ok ⟨⟩ (f s) := rfl

@[simp] theorem modify_bind_apply (f : σ → σ) (g : PUnit → EStateM ε σ β) (s : σ) :
    (modify f >>= g) s = g ⟨⟩ (f s) := rfl

def Result.state : Result ε σ α → σ
  | .ok _ s => s
  | .error _ s => s

@[simp] theorem Result.state_ok (a : α) (s : σ) : (Result.ok a s : Result ε σ α).state = s := rfl

@[simp] theorem Result.state_error (e : ε) (s : σ) : (Result.error e s : Result ε σ α).state = s := rfl

/-! ## Relations a program keeps

`Keeps R x`: from every state, `x` leaves a state related to it by `R`, at a value or at an
error. For a reflexive and transitive `R` this is built up along the program, one rule for each
way of making one. -/

def Keeps (R : σ → σ → Prop) (x : EStateM ε σ α) : Prop := ∀ s, R s (x s).state

section Keeps

variable {R : σ → σ → Prop} (hrefl : ∀ s, R s s) (htrans : ∀ s₁ s₂ s₃, R s₁ s₂ → R s₂ s₃ → R s₁ s₃)

include hrefl in
theorem Keeps.pure (a : α) : Keeps R (Pure.pure a : EStateM ε σ α) := fun s => hrefl s

include hrefl in
theorem Keeps.get : Keeps R (MonadState.get : EStateM ε σ σ) := fun s => hrefl s

include hrefl in
theorem Keeps.throw (e : ε) : Keeps R (MonadExcept.throw e : EStateM ε σ α) := fun s => hrefl s

include hrefl in
theorem Keeps.throw_bind (e : ε) (k : α → EStateM ε σ β) :
    Keeps R (MonadExcept.throw e >>= k) := fun s => hrefl s

theorem Keeps.set {s' : σ} (h : ∀ s, R s s') : Keeps R (MonadState.set s' : EStateM ε σ PUnit) := h

theorem Keeps.modify {f : σ → σ} (h : ∀ s, R s (f s)) : Keeps R (modify f : EStateM ε σ PUnit) := h

theorem Keeps.modifyGet {f : σ → α × σ} (h : ∀ s, R s (f s).2) :
    Keeps R (modifyGet f : EStateM ε σ α) := h

include htrans in
theorem Keeps.bind {x : EStateM ε σ α} {f : α → EStateM ε σ β} (hx : Keeps R x)
    (hf : ∀ a, Keeps R (f a)) : Keeps R (x >>= f) := by
  intro s
  rw [bind_apply]
  cases hxs : x s with
  | ok a s' =>
    have h := hx s
    rw [hxs] at h
    exact htrans _ _ _ h (hf a s')
  | error e s' =>
    have h := hx s
    rw [hxs] at h
    exact h

theorem Keeps.ite {c : Prop} [Decidable c] {x y : EStateM ε σ α} (hx : Keeps R x) (hy : Keeps R y) :
    Keeps R (if c then x else y) := by
  by_cases h : c
  · rw [if_pos h]
    exact hx
  · rw [if_neg h]
    exact hy

include htrans in
theorem Keeps.set_bind_at {s s' : σ} {k : PUnit → EStateM ε σ β} (h : R s s')
    (hk : Keeps R (k ⟨⟩)) : R s ((MonadState.set s' >>= k : EStateM ε σ β) s).state :=
  htrans _ _ _ h (hk s')

theorem Keeps.adaptExcept {f : ε → ε} {x : EStateM ε σ α} (hx : Keeps R x) :
    Keeps R (x.adaptExcept f) := by
  intro s
  have h := hx s
  unfold EStateM.adaptExcept
  cases hxs : x s with
  | ok a s' =>
    rw [hxs] at h
    exact h
  | error e s' =>
    rw [hxs] at h
    exact h

theorem Keeps.of_get {f : σ → EStateM ε σ α} (h : ∀ s, R s ((f s) s).state) :
    Keeps R (MonadState.get >>= f) := fun s => h s

end Keeps

end EStateM
