import Mathlib

/-! # Go's `container/heap` over a list

The package keeps a binary min-heap in the slice behind its user's `heap.Interface`, the children
of `i` at `2 * i + 1` and `2 * i + 2`; here `Less` compares by a key into a linear order. `up`,
`down`, `Init`, `Push`, `Pop`, `Remove` and `Fix` are those of Go 1.9 over the list, `less` is
false and `swap` does nothing past the end, and `Pop` of an empty heap is `none`. `OrderedFrom`
is the order the sifts work towards, `DownOrder` and `UpOrder` what the two loops keep, and a
heap is `IsHeap`.
-/

namespace GoHeap

set_option autoImplicit false

variable {α β : Type} [LinearOrder β] (key : α → β)

/-- `h.Less(i, j)`. -/
def less (h : List α) (i j : Nat) : Bool :=
  match h[i]?, h[j]? with
  | some a, some b => decide (key a < key b)
  | _, _ => false

/-- `h.Swap(i, j)`. -/
def swap (h : List α) (i j : Nat) : List α :=
  match h[i]?, h[j]? with
  | some a, some b => (h.set i b).set j a
  | _, _ => h

/-- `up(h, j)`: the element at `j` moves towards the root while it is less than its parent. -/
def up (h : List α) (j : Nat) : List α :=
  let i := (j - 1) / 2
  if i = j ∨ less key h j i = false then h
  else up (swap h i j) i
termination_by j
decreasing_by omega

/-- The child of `i` that `down` compares with `i`: the right one when it is below `n` and less
than the left one. -/
def downChild (h : List α) (n i : Nat) : Nat :=
  let j1 := 2 * i + 1
  if j1 + 1 < n ∧ less key h (j1 + 1) j1 = true then j1 + 1 else j1

/-- The loop of `down(h, i0, n)` from `i` on: the list after it and the index it stops at. -/
def downLoop (h : List α) (n i : Nat) : List α × Nat :=
  if n ≤ 2 * i + 1 then (h, i)
  else
    let j := downChild key h n i
    if less key h j i = false then (h, i)
    else downLoop (swap h i j) n j
termination_by n - i
decreasing_by
  simp only [downChild]
  split <;> omega

/-- `down(h, i0, n)`: the list after, and whether the element at `i0` moved. -/
def down (h : List α) (i0 n : Nat) : List α × Bool :=
  ((downLoop key h n i0).1, decide (i0 < (downLoop key h n i0).2))

/-- The loop of `Init`: `down(h, i, n)` for `i` from `k - 1` down to `0`. -/
def initLoop (n : Nat) : Nat → List α → List α
  | 0, h => h
  | k + 1, h => initLoop n k (down key h k n).1

/-- `heap.Init(h)`. -/
def init (h : List α) : List α := initLoop key h.length (h.length / 2) h

/-- `heap.Push(h, x)`. -/
def push (h : List α) (x : α) : List α := up key (h ++ [x]) h.length

/-- `heap.Pop(h)`: the element it returns, and the heap after. -/
def pop (h : List α) : Option (α × List α) :=
  if h.length = 0 then none
  else
    let n := h.length - 1
    let h := (down key (swap h 0 n) 0 n).1
    h[n]?.map fun x => (x, h.take n)

/-- `heap.Remove(h, i)`: the element it returns, and the heap after. -/
def remove (h : List α) (i : Nat) : Option (α × List α) :=
  if h.length = 0 then none
  else
    let n := h.length - 1
    let h := if n ≠ i then up key (down key (swap h i n) i n).1 i else h
    h[n]?.map fun x => (x, h.take n)

/-- `heap.Fix(h, i)`: `up` runs only when `down` did not move the element. -/
def fix (h : List α) (i : Nat) : List α :=
  let r := down key h i h.length
  if r.2 = false then up key r.1 i else r.1

/-- `for h.Len() > 0 && p(h[0]) { heap.Pop(h) }`, for at most `fuel` rounds: the loop that drops
from a heap of deadlines those that have passed. -/
def popWhile (p : α → Bool) : Nat → List α → List α
  | 0, h => h
  | fuel + 1, h =>
    match h with
    | [] => []
    | x :: _ =>
      if p x then
        match pop key h with
        | some (_, h') => popWhile p fuel h'
        | none => h
      else h

/-! ## Swapping two elements -/

section Swap

variable {h : List α} {i j : Nat}

@[simp] theorem length_swap (h : List α) (i j : Nat) : (swap h i j).length = h.length := by
  unfold swap
  split <;> simp

theorem getElem?_swap (hi : i < h.length) (hj : j < h.length) (k : Nat) :
    (swap h i j)[k]? = h[Equiv.swap i j k]? := by
  simp only [swap, List.getElem?_eq_getElem hi, List.getElem?_eq_getElem hj]
  rw [List.getElem?_set, List.getElem?_set, Equiv.swap_apply_def]
  by_cases hkj : k = j
  · subst hkj
    by_cases hki : k = i
    · subst hki
      simp [hj]
    · simp [hki, hj, List.getElem?_eq_getElem hi]
  · by_cases hki : k = i
    · subst hki
      simp [Ne.symm hkj, hi, List.getElem?_eq_getElem hj]
    · simp [Ne.symm hkj, Ne.symm hki, hki, hkj]

theorem getElem?_swap_of_ne {k : Nat} (hki : k ≠ i) (hkj : k ≠ j) : (swap h i j)[k]? = h[k]? := by
  by_cases hin : i < h.length ∧ j < h.length
  · rw [getElem?_swap hin.1 hin.2, Equiv.swap_apply_of_ne_of_ne hki hkj]
  · have hnone : h[i]? = none ∨ h[j]? = none := by
      rcases Nat.lt_or_ge i h.length with hi | hi
      · exact .inr (List.getElem?_eq_none (by omega))
      · exact .inl (List.getElem?_eq_none hi)
    unfold swap
    rcases hnone with hnone | hnone <;> simp [hnone]

theorem swap_perm (h : List α) (i j : Nat) : (swap h i j).Perm h := by
  unfold swap
  split
  · rename_i a b ha hb
    obtain ⟨hi, rfl⟩ := List.getElem?_eq_some_iff.mp ha
    obtain ⟨hj, rfl⟩ := List.getElem?_eq_some_iff.mp hb
    exact List.set_set_perm hi hj
  · exact List.Perm.refl h

end Swap

/-! ## The order -/

/-- The element at `p` is no greater than the one at `c`, where both are in the list. -/
def Ordered (h : List α) (p c : Nat) : Prop :=
  ∀ a b, h[p]? = some a → h[c]? = some b → key a ≤ key b

def OrderedFrom (h : List α) (n r : Nat) : Prop :=
  ∀ c, 0 < c → c < n → r ≤ (c - 1) / 2 → Ordered key h ((c - 1) / 2) c

def IsHeap (h : List α) (n : Nat) : Prop := OrderedFrom key h n 0

section Order

variable {key} {h h' : List α} {i j n r : Nat}

theorem ordered_iff_less_eq_false {p c : Nat} : Ordered key h p c ↔ less key h c p = false := by
  unfold Ordered less
  constructor
  · intro ho
    split
    · rename_i b a hb ha
      simpa using ho a b ha hb
    · rfl
  · intro hl a b ha hb
    simpa [ha, hb] using hl

theorem ordered_of_less {c p : Nat} (hl : less key h c p = true) : Ordered key h c p := by
  intro a b ha hb
  simp only [less, ha, hb, decide_eq_true_eq] at hl
  exact le_of_lt hl

theorem Ordered.refl (p : Nat) : Ordered key h p p := by
  intro a b ha hb
  rw [ha, Option.some.injEq] at hb
  rw [hb]

theorem Ordered.trans {a b c : Nat} (hab : Ordered key h a b) (hbc : Ordered key h b c)
    (hb : b < h.length) : Ordered key h a c := by
  intro x z hx hz
  exact le_trans (hab x h[b] hx (List.getElem?_eq_getElem hb)) (hbc h[b] z (List.getElem?_eq_getElem hb) hz)

theorem ordered_congr {p c : Nat} (hp : h'[p]? = h[p]?) (hc : h'[c]? = h[c]?) :
    Ordered key h' p c ↔ Ordered key h p c := by
  simp only [Ordered, hp, hc]

theorem ordered_swap_iff {p c : Nat} (hi : i < h.length) (hj : j < h.length) :
    Ordered key (swap h i j) p c ↔ Ordered key h (Equiv.swap i j p) (Equiv.swap i j c) := by
  simp only [Ordered, getElem?_swap hi hj]

theorem Ordered.of_not {p c : Nat} (hno : ¬ Ordered key h p c) : Ordered key h c p := by
  intro a b ha hb
  by_contra hlt
  exact hno fun b' a' hb' ha' => by
    rw [hb, Option.some.injEq] at hb'
    rw [ha, Option.some.injEq] at ha'
    subst hb' ha'
    exact le_of_lt (lt_of_not_ge hlt)

theorem OrderedFrom.mono {m : Nat} (hh : OrderedFrom key h n r) (hm : m ≤ n) :
    OrderedFrom key h m r :=
  fun c hc0 hcm hr => hh c hc0 (by omega) hr

theorem isHeap_congr (hagree : ∀ k, k < n → h'[k]? = h[k]?) : IsHeap key h' n ↔ IsHeap key h n := by
  unfold IsHeap OrderedFrom
  refine forall_congr' fun c => forall_congr' fun hc0 => forall_congr' fun hcn => ?_
  rw [ordered_congr (hagree _ (by omega)) (hagree c hcn)]

theorem IsHeap.root_le (hh : IsHeap key h n) (hn : n ≤ h.length) {k : Nat} (hk : k < n) :
    Ordered key h 0 k := by
  induction k using Nat.strongRecOn with
  | ind k ih =>
    rcases Nat.eq_zero_or_pos k with rfl | hk0
    · exact Ordered.refl 0
    · -- through the parent of `k`, which is closer to the root
      have hp : (k - 1) / 2 < k := by omega
      exact (ih _ hp (by omega)).trans (hh k hk0 hk (Nat.zero_le _)) (by omega)

theorem IsHeap.head_le (hh : IsHeap key h h.length) (hne : h ≠ []) {b : α} (hb : b ∈ h) :
    key (h.head hne) ≤ key b := by
  obtain ⟨k, hk, rfl⟩ := List.getElem_of_mem hb
  have h0 : 0 < h.length := List.length_pos_iff.mpr hne
  exact hh.root_le (Nat.le_refl _) hk _ _
    (by rw [List.head_eq_getElem]; exact List.getElem?_eq_getElem h0) (List.getElem?_eq_getElem hk)

end Order

/-! ## `down` -/

section Down

variable {key} {h : List α} {i n r : Nat}

variable (key) in
theorem downChild_spec (h : List α) (hc : 2 * i + 1 < n) :
    (downChild key h n i = 2 * i + 1 ∨ downChild key h n i = 2 * i + 2) ∧ downChild key h n i < n := by
  simp only [downChild]
  split <;> omega

theorem ordered_downChild {c : Nat} (hc1 : 2 * i + 1 ≤ c) (hc2 : c ≤ 2 * i + 2) (hcn : c < n) :
    Ordered key h (downChild key h n i) c := by
  simp only [downChild]
  split
  · rename_i hright
    rcases (show c = 2 * i + 1 ∨ c = 2 * i + 1 + 1 by omega) with rfl | rfl
    · exact ordered_of_less hright.2
    · exact Ordered.refl _
  · rename_i hleft
    rcases (show c = 2 * i + 1 ∨ c = 2 * i + 1 + 1 by omega) with rfl | rfl
    · exact Ordered.refl _
    · exact ordered_iff_less_eq_false.mpr (by simpa [hcn] using hleft)

variable (key) in
/-- What the loop of `down` keeps at `i`, on its way down from `r`: every parent from `r` on
other than `i` is no greater than its children below `n`, and the parent of `i`, when it is from
`r` on, is no greater than the children of `i`. -/
structure DownOrder (h : List α) (n r i : Nat) : Prop where
  except : ∀ c, 0 < c → c < n → r ≤ (c - 1) / 2 → (c - 1) / 2 ≠ i →
    Ordered key h ((c - 1) / 2) c
  grand : 0 < i → r ≤ (i - 1) / 2 → ∀ c, 0 < c → c < n → (c - 1) / 2 = i →
    Ordered key h ((i - 1) / 2) c

theorem DownOrder.step (o : DownOrder key h n r i) (hn : n ≤ h.length) (hc : 2 * i + 1 < n)
    (hless : less key h (downChild key h n i) i = true) :
    DownOrder key (swap h i (downChild key h n i)) n r (downChild key h n i) := by
  have hmin : ∀ c, 2 * i + 1 ≤ c → c ≤ 2 * i + 2 → c < n → Ordered key h (downChild key h n i) c :=
    fun c hc1 hc2 hcn => ordered_downChild hc1 hc2 hcn
  obtain ⟨hjc, hjn⟩ := downChild_spec key h hc
  generalize downChild key h n i = j at hmin hjc hjn hless ⊢
  have hpj : (j - 1) / 2 = i := by omega
  have hil : i < h.length := by omega
  have hjl : j < h.length := by omega
  constructor
  · intro c hc0 hcn hr hcj
    rw [ordered_swap_iff hil hjl]
    by_cases hpi : (c - 1) / 2 = i
    · -- a child of `i`: `j`, which now holds the old `h[i]`, or its sibling
      rw [hpi, Equiv.swap_apply_left]
      by_cases hcj' : c = j
      · rw [hcj', Equiv.swap_apply_right]
        exact ordered_of_less hless
      · rw [Equiv.swap_apply_of_ne_of_ne (by omega) hcj']
        exact hmin c (by omega) (by omega) hcn
    · by_cases hci : c = i
      · -- `i` itself, which now holds the old `h[j]`
        subst hci
        rw [Equiv.swap_apply_of_ne_of_ne (by omega) (by omega), Equiv.swap_apply_left]
        exact o.grand hc0 hr j (by omega) hjn hpj
      · rw [Equiv.swap_apply_of_ne_of_ne hpi hcj, Equiv.swap_apply_of_ne_of_ne hci (by omega)]
        exact o.except c hc0 hcn hr hpi
  · intro _ hr c hc0 hcn hpc
    rw [ordered_swap_iff hil hjl, hpj, Equiv.swap_apply_left,
      Equiv.swap_apply_of_ne_of_ne (by omega) (by omega)]
    have := o.except c hc0 hcn (by omega) (by omega)
    rwa [hpc] at this

theorem DownOrder.finish (o : DownOrder key h n r i)
    (hstop : ∀ c, 0 < c → c < n → (c - 1) / 2 = i → Ordered key h i c) : OrderedFrom key h n r := by
  intro c hc0 hcn hr
  by_cases hpi : (c - 1) / 2 = i
  · rw [hpi]
    exact hstop c hc0 hcn hpi
  · exact o.except c hc0 hcn hr hpi

theorem ordered_children_of_stop (hn : n ≤ h.length) (hc : 2 * i + 1 < n)
    (hl : less key h (downChild key h n i) i = false) :
    ∀ c, 0 < c → c < n → (c - 1) / 2 = i → Ordered key h i c := by
  intro c _ hcn hpc
  obtain ⟨_, hjn⟩ := downChild_spec key h hc
  exact (ordered_iff_less_eq_false.mpr hl).trans (ordered_downChild (by omega) (by omega) hcn)
    (by omega)

theorem downLoop_orderedFrom (o : DownOrder key h n r i) (hn : n ≤ h.length) :
    OrderedFrom key (downLoop key h n i).1 n r := by
  fun_induction downLoop key h n i with
  | case1 h i hleaf =>
    exact o.finish fun c hc0 hcn hpc => absurd hcn (by omega)
  | case2 h i hc j hl =>
    exact o.finish (ordered_children_of_stop hn (by omega) hl)
  | case3 h i hc j hl ih =>
    exact ih (o.step hn (by omega) (by simpa using hl)) (by simpa using hn)

theorem length_downLoop (h : List α) (n i : Nat) : (downLoop key h n i).1.length = h.length := by
  fun_induction downLoop key h n i with
  | case1 => rfl
  | case2 => rfl
  | case3 h i _ j _ ih => rw [ih, length_swap]

theorem downLoop_perm (h : List α) (n i : Nat) : (downLoop key h n i).1.Perm h := by
  fun_induction downLoop key h n i with
  | case1 => exact List.Perm.refl _
  | case2 => exact List.Perm.refl _
  | case3 h i _ j _ ih => exact ih.trans (swap_perm h i j)

theorem getElem?_downLoop_of_le (h : List α) (n i : Nat) {k : Nat} (hk : n ≤ k) :
    (downLoop key h n i).1[k]? = h[k]? := by
  fun_induction downLoop key h n i with
  | case1 => rfl
  | case2 => rfl
  | case3 h i hc j _ ih =>
    obtain ⟨_, hjn⟩ := downChild_spec key h (by omega : 2 * i + 1 < n)
    rw [ih, getElem?_swap_of_ne (by omega) (by omega)]

theorem downLoop_of_ordered (hstop : ∀ c, 0 < c → c < n → (c - 1) / 2 = i → Ordered key h i c) :
    downLoop key h n i = (h, i) := by
  rw [downLoop]
  split
  · rfl
  · obtain ⟨hjc, hjn⟩ := downChild_spec key h (by omega : 2 * i + 1 < n)
    have hl : less key h (downChild key h n i) i = false :=
      ordered_iff_less_eq_false.mp (hstop _ (by omega) hjn (by omega))
    simp only [hl, if_true]

end Down

/-! ## `up` -/

section Up

variable {key} {h : List α} {j n : Nat}

variable (key) in
/-- What the loop of `up` keeps at `j`: every element below `n` other than the one at `j` is no
less than its parent, and the parent of `j` is no greater than the children of `j`. -/
structure UpOrder (h : List α) (n j : Nat) : Prop where
  except : ∀ c, 0 < c → c < n → c ≠ j → Ordered key h ((c - 1) / 2) c
  grand : 0 < j → ∀ c, 0 < c → c < n → (c - 1) / 2 = j → Ordered key h ((j - 1) / 2) c

theorem UpOrder.step (o : UpOrder key h n j) (hjn : j < n) (hn : n ≤ h.length)
    (hne : (j - 1) / 2 ≠ j) (hless : less key h j ((j - 1) / 2) = true) :
    UpOrder key (swap h ((j - 1) / 2) j) n ((j - 1) / 2) := by
  have hgrand := o.grand (by omega)
  generalize hi : (j - 1) / 2 = i at hne hless hgrand ⊢
  have hil : i < h.length := by omega
  have hjl : j < h.length := by omega
  constructor
  · intro c hc0 hcn hci
    rw [ordered_swap_iff hil hjl]
    by_cases hcj : c = j
    · -- the old `h[i]`, now at `j`, under the old `h[j]`, now at `i`
      rw [hcj, hi, Equiv.swap_apply_left, Equiv.swap_apply_right]
      exact ordered_of_less hless
    · rw [Equiv.swap_apply_of_ne_of_ne hci hcj]
      by_cases hpi : (c - 1) / 2 = i
      · -- the sibling of `j`, under the old `h[j]`
        rw [hpi, Equiv.swap_apply_left]
        have hic : Ordered key h i c := hpi ▸ o.except c hc0 hcn hcj
        exact (ordered_of_less hless).trans hic hil
      · by_cases hpj : (c - 1) / 2 = j
        · -- a child of `j`, under the old `h[i]`
          rw [hpj, Equiv.swap_apply_right]
          exact hgrand c hc0 hcn hpj
        · rw [Equiv.swap_apply_of_ne_of_ne hpi hpj]
          exact o.except c hc0 hcn hcj
  · intro hi0 c hc0 hcn hpc
    rw [ordered_swap_iff hil hjl, Equiv.swap_apply_of_ne_of_ne (by omega) (by omega)]
    -- the parent of `i` is no greater than the old `h[i]`, which is no greater than its children
    have hup : Ordered key h ((i - 1) / 2) i := o.except i hi0 (by omega) (by omega)
    by_cases hcj : c = j
    · rw [hcj, Equiv.swap_apply_right]
      exact hup
    · rw [Equiv.swap_apply_of_ne_of_ne (by omega) hcj]
      exact hup.trans (hpc ▸ o.except c hc0 hcn hcj) hil

theorem UpOrder.finish (o : UpOrder key h n j)
    (hstop : (j - 1) / 2 = j ∨ less key h j ((j - 1) / 2) = false) : IsHeap key h n := by
  intro c hc0 hcn _
  by_cases hcj : c = j
  · subst hcj
    rcases hstop with hroot | hl
    · omega
    · exact ordered_iff_less_eq_false.mpr hl
  · exact o.except c hc0 hcn hcj

theorem up_isHeap (o : UpOrder key h n j) (hjn : j < n) (hn : n ≤ h.length) :
    IsHeap key (up key h j) n := by
  fun_induction up key h j with
  | case1 h j i hstop => exact o.finish hstop
  | case2 h j i hgo ih =>
    obtain ⟨hne, hl⟩ : i ≠ j ∧ less key h j i = true := by simpa using hgo
    exact ih (o.step hjn hn hne hl) (by omega) (by simpa using hn)

theorem length_up (h : List α) (j : Nat) : (up key h j).length = h.length := by
  fun_induction up key h j with
  | case1 => rfl
  | case2 h j i _ ih => rw [ih, length_swap]

theorem up_perm (h : List α) (j : Nat) : (up key h j).Perm h := by
  fun_induction up key h j with
  | case1 => exact List.Perm.refl _
  | case2 h j i _ ih => exact ih.trans (swap_perm h i j)

theorem getElem?_up_of_lt (h : List α) (j : Nat) {k : Nat} (hk : j < k) : (up key h j)[k]? = h[k]? := by
  fun_induction up key h j with
  | case1 => rfl
  | case2 h j i _ ih => rw [ih (by omega), getElem?_swap_of_ne (by omega) (by omega)]

theorem up_of_isHeap (hh : IsHeap key h n) (hjn : j < n) : up key h j = h := by
  rw [up]
  by_cases hj : j = 0
  · subst hj
    simp
  · have hl : less key h j ((j - 1) / 2) = false :=
      ordered_iff_less_eq_false.mp (hh j (by omega) hjn (Nat.zero_le _))
    simp [hl]

end Up

/-! ## A heap with one element changed -/

section Hole

variable {key} {h h₀ : List α} {i n : Nat}

variable (key) in
/-- A heap below `n` whose element at `i` has changed: every parent and child that do not touch
`i` are in order, and the parent of `i` is no greater than the children of `i`. -/
structure Hole (h : List α) (n i : Nat) : Prop where
  except : ∀ c, 0 < c → c < n → c ≠ i → (c - 1) / 2 ≠ i → Ordered key h ((c - 1) / 2) c
  grand : 0 < i → ∀ c, 0 < c → c < n → (c - 1) / 2 = i → Ordered key h ((i - 1) / 2) c

theorem hole_of_agree (hh : IsHeap key h₀ n) (hn : n ≤ h₀.length)
    (hagree : ∀ k, k < n → k ≠ i → h[k]? = h₀[k]?) : Hole key h n i := by
  constructor
  · intro c hc0 hcn hci hpi
    rw [ordered_congr (hagree _ (by omega) hpi) (hagree c hcn hci)]
    exact hh c hc0 hcn (Nat.zero_le _)
  · intro hi0 c hc0 hcn hpc
    rw [ordered_congr (hagree _ (by omega) (by omega)) (hagree c hcn (by omega))]
    -- through the old element at `i`, which is above the child `c`
    have hpi : Ordered key h₀ ((i - 1) / 2) i := hh i hi0 (by omega) (Nat.zero_le _)
    have hic : Ordered key h₀ i c := hpc ▸ hh c hc0 hcn (Nat.zero_le _)
    exact hpi.trans hic (by omega)

theorem Hole.downOrder (o : Hole key h n i) (hin : 0 < i → Ordered key h ((i - 1) / 2) i) :
    DownOrder key h n 0 i where
  except c hc0 hcn _ hpi := by
    by_cases hci : c = i
    · subst hci
      exact hin hc0
    · exact o.except c hc0 hcn hci hpi
  grand hi0 _ := o.grand hi0

theorem Hole.upOrder (o : Hole key h n i) (hn : n ≤ h.length) (hi : i < n) (hi0 : 0 < i)
    (hlt : ¬ Ordered key h ((i - 1) / 2) i) :
    (∀ c, 0 < c → c < n → (c - 1) / 2 = i → Ordered key h i c) ∧ UpOrder key h n i := by
  have hchildren : ∀ c, 0 < c → c < n → (c - 1) / 2 = i → Ordered key h i c :=
    fun c hc0 hcn hpc => (Ordered.of_not hlt).trans (o.grand hi0 c hc0 hcn hpc) (by omega)
  refine ⟨hchildren, ?_, o.grand⟩
  intro c hc0 hcn hci
  by_cases hpi : (c - 1) / 2 = i
  · rw [hpi]
    exact hchildren c hc0 hcn hpi
  · exact o.except c hc0 hcn hci hpi

theorem Hole.down_cases (o : Hole key h n i) (hn : n ≤ h.length) (hi : i < n) :
    IsHeap key (downLoop key h n i).1 n ∨ (downLoop key h n i = (h, i) ∧ UpOrder key h n i) := by
  by_cases hin : 0 < i → Ordered key h ((i - 1) / 2) i
  · exact .inl (downLoop_orderedFrom (o.downOrder hin) hn)
  · obtain ⟨hi0, hlt⟩ := Classical.not_imp.mp hin
    obtain ⟨hchildren, hup⟩ := o.upOrder hn hi hi0 hlt
    exact .inr ⟨downLoop_of_ordered hchildren, hup⟩

theorem Hole.fix_isHeap (o : Hole key h n i) (hn : n ≤ h.length) (hi : i < n) :
    IsHeap key (if (down key h i n).2 = false then up key (down key h i n).1 i
      else (down key h i n).1) n := by
  rcases o.down_cases hn hi with hheap | ⟨hstay, hup⟩
  · have hfst : IsHeap key (down key h i n).1 n := hheap
    cases (down key h i n).2
    · rw [if_pos rfl, up_of_isHeap hfst hi]
      exact hfst
    · rw [if_neg (by decide)]
      exact hfst
  · have hd : down key h i n = (h, false) := by simp [down, hstay]
    rw [hd, if_pos rfl]
    exact up_isHeap hup hi hn

theorem Hole.remove_isHeap (o : Hole key h n i) (hn : n ≤ h.length) (hi : i < n) :
    IsHeap key (up key (down key h i n).1 i) n := by
  simp only [down]
  rcases o.down_cases hn hi with hheap | ⟨hstay, hup⟩
  · rw [up_of_isHeap hheap hi]
    exact hheap
  · rw [hstay]
    exact up_isHeap hup hi hn

end Hole

/-! ## The operations of the package -/

section Operations

variable {key} {h : List α}

theorem initLoop_isHeap {n : Nat} (k : Nat) (h : List α) (hn : n ≤ h.length)
    (hk : OrderedFrom key h n k) : IsHeap key (initLoop key n k h) n := by
  induction k generalizing h with
  | zero => exact hk
  | succ k ih =>
    -- `down` from `k` extends the order from `k + 1` on to `k` on
    have o : DownOrder key h n k k :=
      ⟨fun c hc0 hcn hr hpk => hk c hc0 hcn (by omega), fun hk0 hr => absurd hr (by omega)⟩
    exact ih _ (by simp only [down, length_downLoop]; exact hn) (downLoop_orderedFrom o hn)

theorem initLoop_perm (n k : Nat) (h : List α) : (initLoop key n k h).Perm h := by
  induction k generalizing h with
  | zero => exact List.Perm.refl h
  | succ k ih => exact (ih _).trans (downLoop_perm h n k)

theorem init_isHeap (h : List α) : IsHeap key (init key h) (init key h).length := by
  rw [init, (initLoop_perm _ _ h).length_eq]
  -- no parent is from `h.length / 2` on
  exact initLoop_isHeap _ h (Nat.le_refl _) fun c hc0 hcn hr => absurd hr (by omega)

theorem init_perm (h : List α) : (init key h).Perm h := initLoop_perm _ _ h

theorem push_isHeap (hh : IsHeap key h h.length) (x : α) :
    IsHeap key (push key h x) (push key h x).length := by
  rw [push, length_up, List.length_append, List.length_singleton]
  have happend : ∀ k, k < h.length → (h ++ [x])[k]? = h[k]? :=
    fun k hk => List.getElem?_append_left hk
  refine up_isHeap ⟨fun c hc0 hcn hc => ?_, fun _ c hc0 hcn hpc => absurd hpc (by omega)⟩
    (by omega) (by simp)
  rw [ordered_congr (happend _ (by omega)) (happend c (by omega))]
  exact hh c hc0 (by omega) (Nat.zero_le _)

theorem push_perm (h : List α) (x : α) : (push key h x).Perm (x :: h) :=
  (up_perm _ _).trans (List.perm_append_singleton x h)

theorem perm_getElem_take {l : List α} {n : Nat} (hl : l.length = n + 1) :
    (l[n] :: l.take n).Perm l := by
  have hsplit : l.take n ++ [l[n]] = l := by
    rw [← List.take_succ_eq_append_getElem, List.take_of_length_le (by omega)]
  calc (l[n] :: l.take n).Perm (l.take n ++ [l[n]]) := (List.perm_append_singleton _ _).symm
    _ = l := hsplit

theorem isHeap_take {l : List α} {n : Nat} (hh : IsHeap key l n) : IsHeap key (l.take n) n :=
  (isHeap_congr fun _ hk => List.getElem?_take_of_lt hk).mpr hh

theorem takeLast_spec {l : List α} {n : Nat} {x : α} (hlen : l.length = n + 1)
    (hheap : IsHeap key l n) (hx : l[n]? = some x) :
    l[n]?.map (fun y => (y, l.take n)) = some (x, l.take n) ∧
      IsHeap key (l.take n) (l.take n).length ∧ (x :: l.take n).Perm l := by
  have hxn : l[n] = x := by
    rw [← Option.some_inj, ← List.getElem?_eq_getElem]
    exact hx
  refine ⟨by rw [hx]; rfl, ?_, hxn ▸ perm_getElem_take hlen⟩
  rw [List.length_take, Nat.min_eq_left (by omega)]
  exact isHeap_take hheap

theorem pop_spec (hh : IsHeap key h h.length) (hne : h ≠ []) :
    ∃ h', pop key h = some (h.head hne, h') ∧ IsHeap key h' h'.length ∧
      (h.head hne :: h').Perm h := by
  have hlen : 0 < h.length := List.length_pos_iff.mpr hne
  obtain ⟨n, hn⟩ : ∃ n, h.length = n + 1 := ⟨h.length - 1, by omega⟩
  -- the last element goes to the root, and `down` repairs the first `n`
  have o : Hole key (swap h 0 n) n 0 :=
    hole_of_agree (hh.mono (by omega)) (by omega) fun k _ hk0 => getElem?_swap_of_ne hk0 (by omega)
  have hheap := downLoop_orderedFrom (o.downOrder fun h0 => absurd h0 (Nat.lt_irrefl 0))
    (by simp; omega)
  generalize hl : (downLoop key (swap h 0 n) n 0).1 = l at hheap
  have hlast : l[n]? = some (h.head hne) := by
    rw [← hl, getElem?_downLoop_of_le _ _ _ (Nat.le_refl n), getElem?_swap (by omega) (by omega),
      Equiv.swap_apply_right, List.head_eq_getElem, List.getElem?_eq_getElem]
  have hperm : l.Perm h := hl ▸ (downLoop_perm _ _ _).trans (swap_perm _ _ _)
  obtain ⟨hpop, hheap', hperm'⟩ := takeLast_spec (by rw [hperm.length_eq, hn]) hheap hlast
  refine ⟨l.take n, ?_, hheap', hperm'.trans hperm⟩
  simp only [pop, hn, Nat.add_one_ne_zero, if_false, Nat.add_sub_cancel, down, hl]
  exact hpop

theorem remove_spec {i : Nat} (hh : IsHeap key h h.length) (hi : i < h.length) :
    ∃ h', remove key h i = some (h[i], h') ∧ IsHeap key h' h'.length ∧ (h[i] :: h').Perm h := by
  obtain ⟨n, hn⟩ : ∃ n, h.length = n + 1 := ⟨h.length - 1, by omega⟩
  have hrm : remove key h i = if n ≠ i then
      (up key (down key (swap h i n) i n).1 i)[n]?.map
        (fun y => (y, (up key (down key (swap h i n) i n).1 i).take n))
      else h[n]?.map (fun y => (y, h.take n)) := by
    simp only [remove, hn, Nat.add_one_ne_zero, if_false, Nat.add_sub_cancel]
    split <;> rfl
  rw [hrm]
  by_cases hni : n = i
  · -- the last element goes, and the rest is the heap below it
    subst hni
    obtain ⟨hpop, hheap, hperm⟩ :=
      takeLast_spec hn (hh.mono (by omega)) (List.getElem?_eq_getElem hi)
    exact ⟨h.take n, by rw [if_neg (not_not.mpr rfl)]; exact hpop, hheap, hperm⟩
  · -- the last element fills the hole at `i`, and `down` and `up` repair it
    have hin : i < n := by omega
    have o : Hole key (swap h i n) n i :=
      hole_of_agree (hh.mono (by omega)) (by omega) fun k hk hki =>
        getElem?_swap_of_ne hki (by omega)
    have hheap := o.remove_isHeap (by simp; omega) hin
    generalize hl : up key (down key (swap h i n) i n).1 i = l at hheap
    have hlast : l[n]? = some h[i] := by
      rw [← hl, getElem?_up_of_lt _ _ hin]
      simp only [down]
      rw [getElem?_downLoop_of_le _ _ _ (Nat.le_refl n), getElem?_swap (by omega) (by omega),
        Equiv.swap_apply_right, List.getElem?_eq_getElem]
    have hperm : l.Perm h := hl ▸ (up_perm _ _).trans ((downLoop_perm _ _ _).trans (swap_perm _ _ _))
    obtain ⟨hpop, hheap', hperm'⟩ := takeLast_spec (by rw [hperm.length_eq, hn]) hheap hlast
    exact ⟨l.take n, by rw [if_pos hni]; exact hpop, hheap', hperm'.trans hperm⟩

theorem fix_spec {i : Nat} (hh : IsHeap key h h.length) (hi : i < h.length) (x : α) :
    IsHeap key (fix key (h.set i x) i) h.length ∧ (fix key (h.set i x) i).Perm (h.set i x) := by
  have o : Hole key (h.set i x) h.length i :=
    hole_of_agree hh (Nat.le_refl _) fun k _ hki => List.getElem?_set_ne (Ne.symm hki)
  have hfix : fix key (h.set i x) i = if (down key (h.set i x) i h.length).2 = false then
      up key (down key (h.set i x) i h.length).1 i else (down key (h.set i x) i h.length).1 := by
    rw [fix, List.length_set]
  rw [hfix]
  refine ⟨o.fix_isHeap (by simp) hi, ?_⟩
  have hdown : (down key (h.set i x) i h.length).1.Perm (h.set i x) := downLoop_perm _ _ _
  split
  · exact (up_perm _ _).trans hdown
  · exact hdown

theorem popWhile_spec (p : α → Bool) (hp : ∀ x y, key x ≤ key y → p y = true → p x = true) :
    ∀ (fuel : Nat) (h : List α), IsHeap key h h.length → h.length ≤ fuel →
      IsHeap key (popWhile key p fuel h) (popWhile key p fuel h).length ∧
        (popWhile key p fuel h).Perm (h.filter fun x => !p x)
  | 0, h, hh, hfuel => by
    obtain rfl := List.eq_nil_of_length_eq_zero (Nat.le_zero.mp hfuel)
    exact ⟨hh, List.Perm.nil⟩
  | fuel + 1, [], _, _ => by
    simp only [popWhile, List.length_nil]
    exact ⟨fun _ _ hc => absurd hc (Nat.not_lt_zero _), List.Perm.nil⟩
  | fuel + 1, x :: rest, hh, hfuel => by
    have hne : x :: rest ≠ [] := List.cons_ne_nil x rest
    by_cases hx : p x = true
    · -- the root goes, and the rest is a heap one element shorter
      obtain ⟨h', hpop, hh', hperm⟩ := pop_spec hh hne
      have hlen : h'.length ≤ fuel := by
        have := hperm.length_eq
        simp only [List.length_cons] at this hfuel
        omega
      obtain ⟨hheap, hrest⟩ := popWhile_spec p hp fuel h' hh' hlen
      have hfilter : (h'.filter fun y => !p y).Perm ((x :: rest).filter fun y => !p y) := by
        simpa [hx] using hperm.filter fun y => !p y
      simp only [popWhile, hx, if_true, hpop]
      exact ⟨hheap, hrest.trans hfilter⟩
    · -- the root fails the test, and so does every element, none being smaller
      have hall : ∀ y ∈ x :: rest, p y = false := fun y hy => by
        have hle := hh.head_le hne hy
        rw [List.head_cons] at hle
        exact Bool.eq_false_iff.mpr fun hy' => hx (hp x y hle hy')
      have hfilter : ((x :: rest).filter fun y => !p y) = x :: rest :=
        List.filter_eq_self.mpr fun y hy => by simp [hall y hy]
      simp only [popWhile, hx, Bool.false_eq_true, if_false, hfilter]
      exact ⟨hh, List.Perm.refl _⟩

end Operations

end GoHeap
