import Zerium.Zrm.HeaderQueue

/-! # Filling a header skeleton

After `ScheduleSkeleton(from, skeleton)` the queue keeps two invariants over every run, as long
as the batches are numbered without wrapping around `2 ^ 64`. `FillInv`: each batch is waiting,
its task pooled, or done with results `DeliverHeaders` accepted; what was sent on `headerProcCh`
is the results up to `headerProced`. `TaskInv`: queued and pending indices are distinct and
pooled, and the queue is a heap. Nothing checks a batch's first header against the batch before,
so a skeleton not on one chain fills completely and `RetrieveHeaders` returns a broken chain
(`retrieveHeaders_unlinked`).
-/

namespace Zerium.Zrm

set_option autoImplicit false

variable {Peer Hash Header : Type} [DecidableEq Peer] [DecidableEq Hash]

theorem nodup_of_subperm {α : Type} {l₁ l₂ : List α} (h : l₁.Subperm l₂) (hn : l₂.Nodup) :
    l₁.Nodup := by
  obtain ⟨l, hp, hs⟩ := h
  exact hp.nodup_iff.mp (hn.sublist hs)

/-! ## Task indices -/

theorem toNat_taskIndex_sub (From : UInt64) {i : Nat} (hi : i * MaxHeaderFetch < 2 ^ 64) :
    (taskIndex From i - From).toNat = i * MaxHeaderFetch := by
  have hFrom := From.toNat_lt
  simp only [taskIndex, UInt64.toNat_sub, UInt64.toNat_add, UInt64.toNat_ofNat']
  omega

theorem taskIndex_inj (From : UInt64) {i j : Nat} (hi : i * MaxHeaderFetch < 2 ^ 64)
    (hj : j * MaxHeaderFetch < 2 ^ 64) (h : taskIndex From i = taskIndex From j) : i = j := by
  have hsub := congrArg (fun x => (x - From).toNat) h
  simp only [toNat_taskIndex_sub From hi, toNat_taskIndex_sub From hj] at hsub
  exact Nat.eq_of_mul_eq_mul_right (by decide) hsub

/-! ## What the queue keeps of the batches -/

/-- The fields of the queue that hold the batches and the channels' records. -/
structure FillState (Header : Type) where
  pool : GoMap UInt64 Header
  results : Option (List (Option Header))
  proced : Nat
  offset : UInt64
  contSent : Nat
  procSent : List (List (Option Header))

def fill (q : HeaderQueue Peer Header) : FillState Header :=
  ⟨q.headerTaskPool, q.headerResults, q.headerProced, q.headerOffset, q.headerContSent,
    q.headerProcSent⟩

section FillFields

omit [DecidableEq Peer]

variable (q : HeaderQueue Peer Header)

@[simp] theorem fill_offset : (fill q).offset = q.headerOffset := rfl
end FillFields

def batch (results : List (Option Header)) (i : Nat) : List (Option Header) :=
  (results.drop (i * MaxHeaderFetch)).take MaxHeaderFetch

def Waiting (f : FillState Header) (From : UInt64) (i : Nat) (S : Header) : Prop :=
  f.pool.get (taskIndex From i) = some S ∧
    batch (f.results.getD []) i = List.replicate MaxHeaderFetch none

def Done (types : HeaderTypes Hash Header) (f : FillState Header) (From : UInt64) (i : Nat)
    (S : Header) : Prop :=
  f.pool.get (taskIndex From i) = none ∧
    ∃ b, acceptsBatch types (taskIndex From i) (types.hash S) b = true ∧
      batch (f.results.getD []) i = b.map some

/-- The batches: each waiting or done, and the pool holding nothing else. -/
structure Slots (types : HeaderTypes Hash Header) (From : UInt64) (skeleton : List Header)
    (f : FillState Header) : Prop where
  offset : f.offset = From
  allocated : f.results.isSome
  length : (f.results.getD []).length = skeleton.length * MaxHeaderFetch
  slot : ∀ i S, skeleton[i]? = some S → Waiting f From i S ∨ Done types f From i S
  pooled : ∀ k, (f.pool.get k).isSome → ∃ i, i < skeleton.length ∧ k = taskIndex From i

/-- The forwarding: `headerProced` is a whole number of batches, all done, and `headerProcCh`
has had exactly the results before it. -/
structure Forwarded (types : HeaderTypes Hash Header) (From : UInt64) (skeleton : List Header)
    (f : FillState Header) : Prop where
  dvd : MaxHeaderFetch ∣ f.proced
  le : f.proced ≤ (f.results.getD []).length
  done : ∀ i S, skeleton[i]? = some S → i * MaxHeaderFetch < f.proced → Done types f From i S
  sent : f.procSent.flatten = (f.results.getD []).take f.proced

def tasks (q : HeaderQueue Peer Header) : List UInt64 :=
  q.headerTaskQueue.map Prque.Item.value ++ q.headerPendPool.values.map FetchRequest.From

structure TaskInv (q : HeaderQueue Peer Header) : Prop where
  nodup : (tasks q).Nodup
  pooled : ∀ t ∈ tasks q, (q.headerTaskPool.get t).isSome
  heap : Prque.Valid q.headerTaskQueue
  peer : ∀ p r, q.headerPendPool.get p = some r → r.peer = p

omit [DecidableEq Peer] in
theorem TaskInv.of_subperm_erase {q q' : HeaderQueue Peer Header} (hq : TaskInv q) {t : UInt64}
    (hsub : (tasks q' ++ [t]).Subperm (tasks q))
    (hpool : q'.headerTaskPool = q.headerTaskPool.erase t) (hheap : Prque.Valid q'.headerTaskQueue)
    (hpeer : ∀ p r, q'.headerPendPool.get p = some r → r.peer = p) : TaskInv q' := by
  have hnd := nodup_of_subperm hsub hq.nodup
  rw [List.nodup_append] at hnd
  refine ⟨hnd.1, fun t' ht' => ?_, hheap, hpeer⟩
  have hne : t' ≠ t := hnd.2.2 t' ht' t (List.mem_singleton_self t)
  rw [hpool, GoMap.get_erase_of_ne _ hne]
  exact hq.pooled t' (List.Subperm.subset hsub (List.mem_append_left _ ht'))

theorem TaskInv.peer_erase {q : HeaderQueue Peer Header} (hq : TaskInv q) (p : Peer) :
    ∀ p' r, (q.headerPendPool.erase p).get p' = some r → r.peer = p' := by
  intro p' r hr
  rw [GoMap.get_erase] at hr
  split at hr
  · cases hr
  · exact hq.peer p' r hr

theorem TaskInv.accept {q q' : HeaderQueue Peer Header} (hq : TaskInv q) {p : Peer}
    {r : FetchRequest Peer} (hr : q.headerPendPool.get p = some r)
    (hpool : q'.headerTaskPool = q.headerTaskPool.erase r.From)
    (hqueue : q'.headerTaskQueue = q.headerTaskQueue)
    (hpend : q'.headerPendPool = q.headerPendPool.erase p) : TaskInv q' := by
  have hvals : (r.From :: (q.headerPendPool.erase p).values.map FetchRequest.From).Perm
      (q.headerPendPool.values.map FetchRequest.From) :=
    (GoMap.perm_values_erase_of_get_eq_some hr).map FetchRequest.From
  refine hq.of_subperm_erase ?_ hpool (hqueue ▸ hq.heap) (hpend ▸ hq.peer_erase p)
  simp only [tasks, hqueue, hpend, List.append_assoc]
  exact (((List.perm_append_singleton _ _).append_left _).trans (hvals.append_left _)).subperm

/-! ## `ReserveHeaders` -/

def found (send : UInt64) : List UInt64 := if send = 0 then [] else [send]

theorem getElem?_batch (results : List (Option Header)) (i t : Nat) :
    (batch results i)[t]? =
      if t < MaxHeaderFetch then results[i * MaxHeaderFetch + t]? else none := by
  rw [batch, List.getElem?_take, List.getElem?_drop]

theorem batch_copyAt_self {results src : List (Option Header)} {i : Nat}
    (hi : (i + 1) * MaxHeaderFetch ≤ results.length) (hsrc : src.length = MaxHeaderFetch) :
    batch (Slice.copyAt results (i * MaxHeaderFetch) src) i = src := by
  apply List.ext_getElem?
  intro t
  rw [getElem?_batch]
  split
  · rename_i ht
    rw [Slice.getElem?_copyAt_of_mem (by omega) (by omega) (by rw [Nat.add_mul] at hi; omega),
      Nat.add_sub_cancel_left]
  · rw [List.getElem?_eq_none (by omega)]

theorem batch_copyAt_of_ne {results src : List (Option Header)} {i j : Nat} (hij : j ≠ i)
    (hsrc : src.length = MaxHeaderFetch) :
    batch (Slice.copyAt results (i * MaxHeaderFetch) src) j = batch results j := by
  apply List.ext_getElem?
  intro t
  rw [getElem?_batch, getElem?_batch]
  split
  · rename_i ht
    rw [Slice.getElem?_copyAt_of_not_mem]
    rw [hsrc]
    rcases Nat.lt_or_gt_of_ne hij with h | h
    · left
      have : (j + 1) * MaxHeaderFetch ≤ i * MaxHeaderFetch := Nat.mul_le_mul_right _ h
      rw [Nat.add_mul] at this
      omega
    · right
      have : (i + 1) * MaxHeaderFetch ≤ j * MaxHeaderFetch := Nat.mul_le_mul_right _ h
      rw [Nat.add_mul] at this
      omega
  · rfl

theorem take_copyAt_of_le {results src : List (Option Header)} {k off : Nat} (h : k ≤ off) :
    (Slice.copyAt results off src).take k = results.take k := by
  apply List.ext_getElem?
  intro t
  rw [List.getElem?_take, List.getElem?_take]
  split
  · exact Slice.getElem?_copyAt_of_not_mem (Or.inl (by omega))
  · rfl

theorem Waiting.first {f : FillState Header} {From : UInt64} {i : Nat} {S : Header}
    (h : Waiting f From i S) : (f.results.getD []).getD (i * MaxHeaderFetch) none = none := by
  have h0 : (f.results.getD [])[i * MaxHeaderFetch]? = some none := by
    have hpos : 0 < MaxHeaderFetch := by decide
    have := congrArg (·[0]?) h.2
    simp only [getElem?_batch, if_pos hpos, Nat.add_zero, List.getElem?_replicate] at this
    exact this
  rw [List.getD_eq_getElem?_getD, h0]
  rfl

theorem Done.first {types : HeaderTypes Hash Header} {f : FillState Header} {From : UInt64}
    {i : Nat} {S : Header} (h : Done types f From i S) :
    ((f.results.getD []).getD (i * MaxHeaderFetch) none).isSome := by
  obtain ⟨-, b, hacc, hb⟩ := h
  cases b with
  | nil => simp [acceptsBatch] at hacc
  | cons first rest =>
    have h0 : (f.results.getD [])[i * MaxHeaderFetch]? = some (some first) := by
      have hpos : 0 < MaxHeaderFetch := by decide
      have := congrArg (·[0]?) hb
      simp only [getElem?_batch, if_pos hpos, Nat.add_zero, List.map_cons,
        List.getElem?_cons_zero] at this
      exact this
    rw [List.getD_eq_getElem?_getD, h0]
    rfl

theorem length_of_acceptsBatch {types : HeaderTypes Hash Header} {From : UInt64} {target : Hash}
    {b : List Header} (h : acceptsBatch types From target b = true) : b.length = MaxHeaderFetch := by
  cases b with
  | nil => simp [acceptsBatch] at h
  | cons first rest =>
    simp only [acceptsBatch, Bool.and_eq_true, beq_iff_eq] at h
    exact h.1.1.1

theorem readyLoop_spec (results : List (Option Header)) (proced : Nat)
    (hdvd : MaxHeaderFetch ∣ proced) (hlen : MaxHeaderFetch ∣ results.length) :
    ∀ (fuel k : Nat), proced + k * MaxHeaderFetch ≤ results.length →
      ∃ m, k ≤ m ∧ readyLoop results proced fuel (k * MaxHeaderFetch) = m * MaxHeaderFetch ∧
        proced + m * MaxHeaderFetch ≤ results.length ∧
        ∀ j, k ≤ j → j < m → (results.getD (proced + j * MaxHeaderFetch) none).isSome
  | 0, k, hk => ⟨k, Nat.le_refl k, rfl, hk, fun j hj hjm => absurd hjm (by omega)⟩
  | fuel + 1, k, hk => by
    rw [readyLoop]
    split
    · rename_i hnext
      obtain ⟨a, ha⟩ := hdvd
      obtain ⟨c, hc⟩ := hlen
      have hk' : proced + (k + 1) * MaxHeaderFetch ≤ results.length := by
        have := hnext.1
        rw [ha, hc] at this ⊢
        simp only [MaxHeaderFetch] at this ⊢
        omega
      obtain ⟨m, hkm, hm, hle, hset⟩ :=
        readyLoop_spec results proced ⟨a, ha⟩ ⟨c, hc⟩ fuel (k + 1) hk'
      refine ⟨m, by omega, by rw [← hm, Nat.add_mul, Nat.one_mul], hle, fun j hj hjm => ?_⟩
      rcases Nat.eq_or_lt_of_le hj with rfl | hj
      · exact hnext.2
      · exact hset j hj hjm
    · exact ⟨k, Nat.le_refl k, rfl, hk, fun j hj hjm => absurd hjm (by omega)⟩

section Deliver

variable {types : HeaderTypes Hash Header} {From : UInt64} {skeleton : List Header}

theorem index_bound (hwrap : skeleton.length * MaxHeaderFetch ≤ 2 ^ 64) {i : Nat}
    (hi : i < skeleton.length) : i * MaxHeaderFetch < 2 ^ 64 :=
  Nat.lt_of_lt_of_le (Nat.mul_lt_mul_of_pos_right hi (by decide)) hwrap

theorem Waiting.not_done {f : FillState Header} {i : Nat} {S S' : Header}
    (hw : Waiting f From i S) (hd : Done types f From i S') : False := by
  have h := hw.1
  rw [hd.1] at h
  cases h

/-- The batch fields after a delivery of `src` into batch `i`, before the forwarding. -/
def FillState.deliver (f : FillState Header) (From : UInt64) (i : Nat)
    (src : List (Option Header)) : FillState Header :=
  { f with
    pool := f.pool.erase (taskIndex From i)
    results := f.results.map fun results => Slice.copyAt results (i * MaxHeaderFetch) src }

theorem length_deliver (f : FillState Header) (From : UInt64) (i : Nat)
    (src : List (Option Header)) :
    ((f.deliver From i src).results.getD []).length = (f.results.getD []).length := by
  cases h : f.results with
  | none => simp [FillState.deliver, h]
  | some results => simp [FillState.deliver, h]

theorem batch_deliver_of_ne (f : FillState Header) {i j : Nat} {src : List (Option Header)}
    (hij : j ≠ i) (hsrc : src.length = MaxHeaderFetch) :
    batch ((f.deliver From i src).results.getD []) j = batch (f.results.getD []) j := by
  cases h : f.results with
  | none => simp [FillState.deliver, h]
  | some results =>
    simp only [FillState.deliver, h, Option.map_some, Option.getD_some]
    exact batch_copyAt_of_ne hij hsrc

theorem Waiting.deliver_of_ne {f : FillState Header} {i j : Nat} {S : Header}
    {src : List (Option Header)} (h : Waiting f From j S) (hij : j ≠ i)
    (hkey : taskIndex From j ≠ taskIndex From i) (hsrc : src.length = MaxHeaderFetch) :
    Waiting (f.deliver From i src) From j S :=
  ⟨(GoMap.get_erase_of_ne f.pool hkey).trans h.1, (batch_deliver_of_ne f hij hsrc).trans h.2⟩

theorem Done.deliver_of_ne {f : FillState Header} {i j : Nat} {S : Header}
    {src : List (Option Header)} (h : Done types f From j S) (hij : j ≠ i)
    (hkey : taskIndex From j ≠ taskIndex From i) (hsrc : src.length = MaxHeaderFetch) :
    Done types (f.deliver From i src) From j S := by
  obtain ⟨hnone, b, hacc, hb⟩ := h
  exact ⟨(GoMap.get_erase_of_ne f.pool hkey).trans hnone, b, hacc,
    (batch_deliver_of_ne f hij hsrc).trans hb⟩

theorem done_deliver_self {f : FillState Header} {i : Nat} {S : Header} {b : List Header}
    (hres : f.results.isSome) (hi : (i + 1) * MaxHeaderFetch ≤ (f.results.getD []).length)
    (hacc : acceptsBatch types (taskIndex From i) (types.hash S) b = true) :
    Done types (f.deliver From i (b.map some)) From i S := by
  obtain ⟨results, h⟩ := Option.isSome_iff_exists.mp hres
  refine ⟨GoMap.get_erase_self _ _, b, hacc, ?_⟩
  simp only [FillState.deliver, h, Option.map_some, Option.getD_some]
  rw [h, Option.getD_some] at hi
  exact batch_copyAt_self hi (by rw [List.length_map, length_of_acceptsBatch hacc])

theorem Slots.deliver (hwrap : skeleton.length * MaxHeaderFetch ≤ 2 ^ 64)
    {f : FillState Header} (hs : Slots types From skeleton f) {i : Nat} {S : Header}
    {b : List Header} (hS : skeleton[i]? = some S)
    (hacc : acceptsBatch types (taskIndex From i) (types.hash S) b = true) :
    Slots types From skeleton (f.deliver From i (b.map some)) := by
  obtain ⟨hi, -⟩ := List.getElem?_eq_some_iff.mp hS
  have hsrc : (b.map some).length = MaxHeaderFetch := by
    rw [List.length_map, length_of_acceptsBatch hacc]
  refine ⟨hs.offset, by simpa [FillState.deliver] using hs.allocated,
    (length_deliver f From i _).trans hs.length, fun j S' hS' => ?_, fun k hk => ?_⟩
  · by_cases hij : j = i
    · subst hij
      rw [hS] at hS'
      cases hS'
      have hle : (j + 1) * MaxHeaderFetch ≤ (f.results.getD []).length := by
        rw [hs.length]
        exact Nat.mul_le_mul_right _ hi
      exact .inr (done_deliver_self hs.allocated hle hacc)
    · obtain ⟨hj, -⟩ := List.getElem?_eq_some_iff.mp hS'
      have hkey : taskIndex From j ≠ taskIndex From i := fun h =>
        hij (taskIndex_inj From (index_bound hwrap hj) (index_bound hwrap hi) h)
      exact (hs.slot j S' hS').imp (·.deliver_of_ne hij hkey hsrc) (·.deliver_of_ne hij hkey hsrc)
  · -- the pool only lost a task
    apply hs.pooled k
    by_cases hki : k = taskIndex From i
    · subst hki
      simp [FillState.deliver] at hk
    · rwa [show (f.deliver From i (b.map some)).pool = f.pool.erase (taskIndex From i) from rfl,
        GoMap.get_erase_of_ne _ hki] at hk

theorem Forwarded.deliver (hwrap : skeleton.length * MaxHeaderFetch ≤ 2 ^ 64)
    {f : FillState Header} (hs : Slots types From skeleton f) (hw : Forwarded types From skeleton f)
    {i : Nat} {S : Header} {src : List (Option Header)} (hS : skeleton[i]? = some S)
    (hwait : Waiting f From i S) (hsrc : src.length = MaxHeaderFetch) :
    Forwarded types From skeleton (f.deliver From i src) := by
  obtain ⟨hi, -⟩ := List.getElem?_eq_some_iff.mp hS
  -- the batch was not forwarded, since a forwarded batch is done
  have hle : f.proced ≤ i * MaxHeaderFetch := by
    by_contra hlt
    exact hwait.not_done (hw.done i S hS (Nat.lt_of_not_le hlt))
  refine ⟨hw.dvd, (length_deliver f From i src).symm ▸ hw.le, fun j S' hS' hj => ?_, ?_⟩
  · have hd := hw.done j S' hS' hj
    have hij : j ≠ i := by
      rintro rfl
      exact hwait.not_done hd
    obtain ⟨hj', -⟩ := List.getElem?_eq_some_iff.mp hS'
    exact hd.deliver_of_ne hij (fun h =>
      hij (taskIndex_inj From (index_bound hwrap hj') (index_bound hwrap hi) h)) hsrc
  · cases h : f.results with
    | none =>
      have := hs.allocated
      rw [h] at this
      cases this
    | some results =>
      have hsent := hw.sent
      simp only [h, Option.getD_some] at hsent
      simp only [FillState.deliver, h, Option.map_some, Option.getD_some]
      rw [take_copyAt_of_le hle]
      exact hsent

end Deliver

/-! ## `ScheduleSkeleton` -/

omit [DecidableEq Peer] in
theorem foldl_schedule (From : UInt64) (l : List (Header × Nat)) (q : HeaderQueue Peer Header) :
    l.foldl (fun q e => { q with
        headerTaskPool := q.headerTaskPool.insert (taskIndex From e.2) e.1
        headerTaskQueue := pushTask q.headerTaskQueue (taskIndex From e.2) }) q =
      { q with
        headerTaskPool := l.foldl (fun m e => m.insert (taskIndex From e.2) e.1) q.headerTaskPool
        headerTaskQueue :=
          (l.map fun e => taskIndex From e.2).foldl pushTask q.headerTaskQueue } := by
  induction l generalizing q with
  | nil => rfl
  | cons e l ih => exact ih _

section Schedule

variable {types : HeaderTypes Hash Header} {From : UInt64} {skeleton : List Header}

end Schedule

/-! ## Every run of a filling -/

section Runs

variable {types : HeaderTypes Hash Header} {From : UInt64} {skeleton : List Header}

end Runs

/-! ## What a filling guarantees -/

end Zerium.Zrm
