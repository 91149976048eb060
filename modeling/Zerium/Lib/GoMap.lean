import Mathlib

/-! # Go maps

A Go map is a partial function with finitely many keys, and a `range` loop over it visits each
key once, in an order the language leaves open. `GoMap` is the function together with the list
of its keys in one such order, the two agreeing by construction: a loop over the map is a fold
over `keys`, which the lemmas here let a proof read key by key.
-/

set_option autoImplicit false

structure GoMap (κ ν : Type) where
  get : κ → Option ν
  keys : List κ
  nodup : keys.Nodup
  mem_keys : ∀ k, k ∈ keys ↔ (get k).isSome

namespace GoMap

variable {κ ν : Type}

def empty : GoMap κ ν where
  get := fun _ => none
  keys := []
  nodup := List.nodup_nil
  mem_keys := fun _ => by simp

/-- `_, ok := m[k]`. -/
def contains (m : GoMap κ ν) (k : κ) : Bool := (m.get k).isSome

@[simp] theorem get_empty (k : κ) : (empty : GoMap κ ν).get k = none := rfl

theorem contains_iff_mem (m : GoMap κ ν) (k : κ) : m.contains k = true ↔ k ∈ m.keys :=
  (m.mem_keys k).symm

theorem mem_keys_of_get {m : GoMap κ ν} {k : κ} {v : ν} (h : m.get k = some v) : k ∈ m.keys :=
  (m.mem_keys k).mpr (by simp [h])

variable [DecidableEq κ]

/-- `m[k] = v`. -/
def insert (m : GoMap κ ν) (k : κ) (v : ν) : GoMap κ ν where
  get := Function.update m.get k (some v)
  keys := m.keys.insert k
  nodup := List.Nodup.insert m.nodup
  mem_keys := fun k' => by
    rw [List.mem_insert_iff]
    by_cases h : k' = k
    · subst h
      simp
    · rw [Function.update_of_ne h, m.mem_keys k']
      exact or_iff_right h

/-- `delete(m, k)`. -/
def erase (m : GoMap κ ν) (k : κ) : GoMap κ ν where
  get := Function.update m.get k none
  keys := m.keys.erase k
  nodup := List.Nodup.erase k m.nodup
  mem_keys := fun k' => by
    rw [List.Nodup.mem_erase_iff m.nodup]
    by_cases h : k' = k
    · subst h
      simp
    · rw [Function.update_of_ne h, m.mem_keys k']
      exact and_iff_right h

@[simp] theorem get_insert_self (m : GoMap κ ν) (k : κ) (v : ν) : (m.insert k v).get k = some v :=
  Function.update_self _ _ _

theorem get_insert_of_ne (m : GoMap κ ν) {k k' : κ} (h : k' ≠ k) (v : ν) :
    (m.insert k v).get k' = m.get k' :=
  Function.update_of_ne h _ _

@[simp] theorem get_erase_self (m : GoMap κ ν) (k : κ) : (m.erase k).get k = none :=
  Function.update_self _ _ _

theorem get_erase_of_ne (m : GoMap κ ν) {k k' : κ} (h : k' ≠ k) : (m.erase k).get k' = m.get k' :=
  Function.update_of_ne h _ _

theorem get_erase (m : GoMap κ ν) (k k' : κ) :
    (m.erase k).get k' = if k' = k then none else m.get k' := by
  by_cases h : k' = k
  · subst h
    rw [get_erase_self, if_pos rfl]
  · rw [get_erase_of_ne m h, if_neg h]

theorem length_keys_insert_of_mem (m : GoMap κ ν) {k : κ} (h : k ∈ m.keys) (v : ν) :
    (m.insert k v).keys.length = m.keys.length := by
  show (m.keys.insert k).length = _
  rw [List.insert_of_mem h]

theorem length_keys_erase_of_mem (m : GoMap κ ν) {k : κ} (h : k ∈ m.keys) :
    (m.erase k).keys.length = m.keys.length - 1 :=
  List.length_erase_of_mem h

theorem get_insert (m : GoMap κ ν) (k k' : κ) (v : ν) :
    (m.insert k v).get k' = if k' = k then some v else m.get k' := by
  by_cases h : k' = k
  · subst h
    rw [get_insert_self, if_pos rfl]
  · rw [get_insert_of_ne m h, if_neg h]

@[simp] theorem insert_insert (m : GoMap κ ν) (k : κ) (v w : ν) :
    (m.insert k v).insert k w = m.insert k w := by
  have hkeys : (m.keys.insert k).insert k = m.keys.insert k :=
    List.insert_of_mem List.mem_insert_self
  cases m
  simp only [insert, Function.update_idem, hkeys]

@[simp] theorem contains_insert (m : GoMap κ ν) (k k' : κ) (v : ν) :
    (m.insert k v).contains k' = (k' = k || m.contains k') := by
  by_cases h : k' = k
  · subst h
    simp [contains]
  · simp [contains, get_insert_of_ne m h, h]

@[simp] theorem contains_erase (m : GoMap κ ν) (k k' : κ) :
    (m.erase k).contains k' = (k' ≠ k && m.contains k') := by
  by_cases h : k' = k
  · subst h
    simp [contains]
  · simp [contains, get_erase_of_ne m h, h]

def count (m : GoMap κ ν) (q : ν → Bool) : Nat := m.keys.countP fun k => (m.get k).any q

omit [DecidableEq κ] in
@[simp] theorem count_empty (q : ν → Bool) : (empty : GoMap κ ν).count q = 0 := rfl

theorem count_insert_of_get_eq_none {m : GoMap κ ν} {k : κ} (h : m.get k = none) (v : ν)
    (q : ν → Bool) : (m.insert k v).count q = m.count q + if q v then 1 else 0 := by
  have hk : k ∉ m.keys := by
    rw [m.mem_keys k, h]
    exact Bool.false_ne_true
  have hkeys : (m.insert k v).keys = k :: m.keys := List.insert_of_not_mem hk
  have hrest : m.keys.countP (fun k' => ((m.insert k v).get k').any q) = m.count q := by
    refine List.countP_congr fun k' hk' => ?_
    have hne : k' ≠ k := fun e => hk (e ▸ hk')
    rw [get_insert_of_ne m hne]
  rw [count, hkeys, List.countP_cons, hrest, get_insert_self]
  rfl

theorem count_erase_of_get_eq_some {m : GoMap κ ν} {k : κ} {v : ν} (h : m.get k = some v)
    (q : ν → Bool) : (m.erase k).count q + (if q v then 1 else 0) = m.count q := by
  have hk : k ∈ m.keys := mem_keys_of_get h
  have hrest : (m.keys.erase k).countP (fun k' => ((m.erase k).get k').any q) =
      (m.keys.erase k).countP fun k' => (m.get k').any q := by
    refine List.countP_congr fun k' hk' => ?_
    have hne : k' ≠ k := fun e => (List.Nodup.not_mem_erase m.nodup) (e ▸ hk')
    rw [get_erase_of_ne m hne]
  have hperm := (List.perm_cons_erase hk).countP_eq fun k' => (m.get k').any q
  rw [count, count, hperm, List.countP_cons, h]
  exact congrArg (· + _) hrest

/-- The keys whose value satisfies `q`, as a set: there are `count q` of them. -/
def keysWhere (m : GoMap κ ν) (q : ν → Bool) : Finset κ :=
  (m.keys.filter fun k => (m.get k).any q).toFinset

theorem mem_keysWhere {m : GoMap κ ν} {q : ν → Bool} {k : κ} :
    k ∈ m.keysWhere q ↔ (m.get k).any q = true := by
  rw [keysWhere, List.mem_toFinset, List.mem_filter, m.mem_keys k]
  refine ⟨fun h => h.2, fun h => ⟨?_, h⟩⟩
  cases hk : m.get k with
  | none => simp [hk] at h
  | some v => rfl

theorem card_keysWhere (m : GoMap κ ν) (q : ν → Bool) : (m.keysWhere q).card = m.count q := by
  rw [keysWhere, List.toFinset_card_of_nodup (m.nodup.filter _), count, List.countP_eq_length_filter]

theorem keysWhere_erase (m : GoMap κ ν) (k : κ) (q : ν → Bool) :
    (m.erase k).keysWhere q = (m.keysWhere q).erase k := by
  ext k'
  rw [mem_keysWhere, Finset.mem_erase, mem_keysWhere, get_erase]
  by_cases h : k' = k <;> simp [h]

theorem keysWhere_insert (m : GoMap κ ν) (k : κ) (v : ν) (q : ν → Bool) :
    (m.insert k v).keysWhere q =
      if q v then Insert.insert k (m.keysWhere q) else (m.keysWhere q).erase k := by
  ext k'
  rw [mem_keysWhere, get_insert]
  by_cases h : k' = k <;> by_cases hv : q v <;> simp [h, hv, mem_keysWhere]

/-- The values of the map, in the order of `keys`. -/
def values (m : GoMap κ ν) : List ν := m.keys.filterMap m.get

theorem perm_values_erase_of_get_eq_some {m : GoMap κ ν} {k : κ} {v : ν} (h : m.get k = some v) :
    (v :: (m.erase k).values).Perm m.values := by
  have hk : k ∈ m.keys := mem_keys_of_get h
  have hrest : (m.keys.erase k).filterMap (m.erase k).get = (m.keys.erase k).filterMap m.get :=
    List.filterMap_congr fun k' hk' =>
      get_erase_of_ne m fun e => (List.Nodup.not_mem_erase m.nodup) (e ▸ hk')
  have hperm := (List.perm_cons_erase hk).filterMap m.get
  rw [List.filterMap_cons, h] at hperm
  rw [values, show (m.erase k).keys = m.keys.erase k from rfl, hrest]
  exact hperm.symm

theorem foldl_invariant {α β : Type} (P : β → Prop) (g : β → α → β)
    (hg : ∀ b a, P b → P (g b a)) : ∀ (l : List α) (b : β), P b → P (l.foldl g b)
  | [], _, hb => hb
  | a :: l, b, hb => foldl_invariant P g hg l (g b a) (hg b a hb)

theorem foldlM_invariant {α β : Type} (P : β → Prop) (g : β → α → Option β)
    (hg : ∀ b a b', g b a = some b' → P b → P b') :
    ∀ (l : List α) (b b' : β), l.foldlM g b = some b' → P b → P b'
  | [], _, _, h, hb => by
    cases h
    exact hb
  | a :: l, b, b', h, hb => by
    rw [List.foldlM_cons] at h
    cases hga : g b a with
    | none => simp [hga] at h
    | some c =>
      rw [hga, Option.bind_eq_bind, Option.bind_some] at h
      exact foldlM_invariant P g hg l c b' h (hg b a c hga hb)

end GoMap
