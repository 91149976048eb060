import Mathlib

/-! # Key-value stores as lists of writes

A store is the list of its writes, newest first; reading a key finds its latest write. This
is a map updated in place by `m[k] = v`, kept as a list so that it can be evaluated and so
that the writes a run made can be read off it. `putAll` applies a batch of writes in order.
-/

namespace KVStore

set_option autoImplicit false

variable {κ ν : Type}

def put (s : List (κ × ν)) (k : κ) (v : ν) : List (κ × ν) := (k, v) :: s

def putAll (s : List (κ × ν)) (ws : List (κ × ν)) : List (κ × ν) :=
  ws.foldl (fun s w => put s w.1 w.2) s

theorem putAll_eq (s ws : List (κ × ν)) : putAll s ws = ws.reverse ++ s := by
  induction ws generalizing s with
  | nil => rfl
  | cons w ws ih =>
    rw [putAll, List.foldl_cons, ← putAll, ih]
    simp [put]

theorem putAll_append (s ws₁ ws₂ : List (κ × ν)) :
    putAll s (ws₁ ++ ws₂) = putAll (putAll s ws₁) ws₂ := by
  simp [putAll, List.foldl_append]

/-- Every write of `ws` to `k` writes `v`. -/
def Agrees (ws : List (κ × ν)) (k : κ) (v : ν) : Prop := ∀ w ∈ ws, w.1 = k → w.2 = v

theorem Agrees.append {ws₁ ws₂ : List (κ × ν)} {k : κ} {v : ν} (h₁ : Agrees ws₁ k v)
    (h₂ : Agrees ws₂ k v) : Agrees (ws₁ ++ ws₂) k v := by
  intro w hw
  rcases List.mem_append.mp hw with hw | hw
  · exact h₁ w hw
  · exact h₂ w hw

variable [DecidableEq κ]

def get (s : List (κ × ν)) (k : κ) : Option ν := (s.find? (fun e => decide (e.1 = k))).map Prod.snd

@[simp] theorem get_nil (k : κ) : get ([] : List (κ × ν)) k = none := rfl

theorem get_put (s : List (κ × ν)) (k k' : κ) (v : ν) :
    get (put s k v) k' = if k = k' then some v else get s k' := by
  by_cases h : k = k' <;> simp [get, put, h]

theorem mem_of_get {s : List (κ × ν)} {k : κ} {v : ν} (h : get s k = some v) : (k, v) ∈ s := by
  unfold get at h
  obtain ⟨e, he, rfl⟩ := Option.map_eq_some_iff.mp h
  have hk := List.find?_some he
  simp only [decide_eq_true_eq] at hk
  rw [← hk]
  exact List.mem_of_find?_eq_some he

theorem get_putAll_of_agrees (s ws : List (κ × ν)) (k : κ) (v : ν)
    (hin : get s k = some v ∨ (k, v) ∈ ws) (hag : Agrees ws k v) :
    get (putAll s ws) k = some v := by
  induction ws generalizing s with
  | nil =>
    rcases hin with h | h
    · exact h
    · cases h
  | cons w ws ih =>
    rw [putAll, List.foldl_cons, ← putAll]
    apply ih
    · rcases hin with h | h
      · left
        rw [get_put]
        split
        · rename_i hk
          rw [hag w (List.mem_cons_self ..) hk]
        · exact h
      · rcases List.mem_cons.mp h with h | h
        · left
          rw [← h, get_put, if_pos rfl]
        · exact Or.inr h
    · exact fun w' hw' => hag w' (List.mem_cons_of_mem _ hw')

theorem exists_get_of_mem {s : List (κ × ν)} {k : κ} {v : ν} (h : (k, v) ∈ s) :
    ∃ v', get s k = some v' := by
  unfold get
  obtain ⟨e, he⟩ := Option.isSome_iff_exists.mp
    (List.find?_isSome.mpr ⟨(k, v), h, by simp⟩ : (s.find? fun e => decide (e.1 = k)).isSome)
  exact ⟨e.2, by rw [he]; rfl⟩

def Extends (s s' : List (κ × ν)) : Prop := ∀ k v, get s k = some v → get s' k = some v

theorem Extends.refl (s : List (κ × ν)) : Extends s s := fun _ _ h => h

theorem Extends.trans {s₁ s₂ s₃ : List (κ × ν)} (h₁ : Extends s₁ s₂) (h₂ : Extends s₂ s₃) :
    Extends s₁ s₃ :=
  fun k v h => h₂ k v (h₁ k v h)

/-! ## Content-addressed stores

A store whose every value sits under its own hash, for a hash that tells the values apart:
a lookup by the hash of a value finds that value, and writes of the same kind never change
what a key holds. -/

section ContentAddressed

variable (hash : ν → κ)

def ContentAddressed (S : List ν) (s : List (κ × ν)) : Prop := ∀ w ∈ s, w.1 = hash w.2 ∧ w.2 ∈ S

/-- `hash` tells the values of `S` apart. -/
def HashInjOn (S : List ν) : Prop := ∀ a ∈ S, ∀ b ∈ S, hash a = hash b → a = b

variable {hash} {S : List ν}

omit [DecidableEq κ] in
theorem ContentAddressed.after_putAll {s ws : List (κ × ν)} (hs : ContentAddressed hash S s)
    (hws : ContentAddressed hash S ws) : ContentAddressed hash S (putAll s ws) := by
  intro w hw
  rw [putAll_eq, List.mem_append, List.mem_reverse] at hw
  rcases hw with hw | hw
  · exact hws w hw
  · exact hs w hw

omit [DecidableEq κ] in
theorem ContentAddressed.nil : ContentAddressed hash S ([] : List (κ × ν)) := fun _ h => absurd h (by simp)

omit [DecidableEq κ] in
theorem ContentAddressed.append {s₁ s₂ : List (κ × ν)} (h₁ : ContentAddressed hash S s₁)
    (h₂ : ContentAddressed hash S s₂) : ContentAddressed hash S (s₁ ++ s₂) := by
  intro w hw
  rcases List.mem_append.mp hw with hw | hw
  · exact h₁ w hw
  · exact h₂ w hw

omit [DecidableEq κ] in
theorem ContentAddressed.mono {S' : List ν} {s : List (κ × ν)} (h : ContentAddressed hash S s)
    (hS : S ⊆ S') : ContentAddressed hash S' s :=
  fun w hw => ⟨(h w hw).1, hS (h w hw).2⟩

omit [DecidableEq κ] in
theorem ContentAddressed.single {v : ν} (hv : v ∈ S) : ContentAddressed hash S [(hash v, v)] := by
  intro w hw
  rw [List.mem_singleton] at hw
  subst hw
  exact ⟨rfl, hv⟩

theorem ContentAddressed.agrees {s ws : List (κ × ν)} (hinj : HashInjOn hash S)
    (hs : ContentAddressed hash S s) (hws : ContentAddressed hash S ws) {k : κ} {v : ν}
    (h : get s k = some v) : Agrees ws k v := by
  obtain ⟨hk, hv⟩ := hs _ (mem_of_get h)
  intro w hw hwk
  obtain ⟨hw₁, hw₂⟩ := hws w hw
  exact hinj _ hw₂ _ hv (hw₁.symm.trans (hwk.trans hk))

theorem ContentAddressed.extends_putAll {s ws : List (κ × ν)} (hinj : HashInjOn hash S)
    (hs : ContentAddressed hash S s) (hws : ContentAddressed hash S ws) : Extends s (putAll s ws) :=
  fun k v h => get_putAll_of_agrees s ws k v (.inl h) (hs.agrees hinj hws h)

theorem ContentAddressed.get_putAll_of_mem (s : List (κ × ν)) {ws : List (κ × ν)}
    (hinj : HashInjOn hash S) (hws : ContentAddressed hash S ws) {v : ν}
    (hv : (hash v, v) ∈ ws) : get (putAll s ws) (hash v) = some v := by
  have hvS : v ∈ S := (hws _ hv).2
  refine get_putAll_of_agrees s ws _ v (.inr hv) ?_
  intro w hw hwk
  obtain ⟨hw₁, hw₂⟩ := hws w hw
  exact hinj _ hw₂ _ hvS (hw₁.symm.trans hwk)

theorem ContentAddressed.extends_of_subset {s s' : List (κ × ν)} (hinj : HashInjOn hash S)
    (hs : ContentAddressed hash S s) (hs' : ContentAddressed hash S s') (hsub : ∀ w ∈ s, w ∈ s') :
    Extends s s' := by
  intro k v h
  have hmem := hsub _ (mem_of_get h)
  obtain ⟨v', hv'⟩ := exists_get_of_mem hmem
  obtain ⟨hk, hvS⟩ := hs _ (mem_of_get h)
  obtain ⟨hk', hv'S⟩ := hs' _ (mem_of_get hv')
  rw [hv']
  exact congrArg some (hinj _ hv'S _ hvS (hk'.symm.trans hk))

theorem ContentAddressed.get_eq {s : List (κ × ν)} (hinj : HashInjOn hash S)
    (hs : ContentAddressed hash S s) {v v' : ν} (hv : v ∈ S) (h : get s (hash v) = some v') :
    v' = v := by
  obtain ⟨hk, hv'⟩ := hs _ (mem_of_get h)
  exact hinj _ hv' _ hv hk.symm

end ContentAddressed

end KVStore
