import Zerium.Zrm.Fetcher

/-! # The fetcher's per-peer counters

`announces` is not exact. A notification counts once, when `notify` schedules it. The fetch
timer calls `forgetHash` on the hash, which takes the announcement off its peer's count, and
then files the same announcement in `fetching` without counting it again. When the fetch
expires, the clean-up's `forgetHash` takes it off a second time. So after one announcement and
one fetch the counter reads one less than the stages hold, and after the expiry it is negative
(`announces_below_held_after_fetch_expiry`).

`queues` is exact. Over every run it counts, for each peer, the blocks of `queued` that peer
delivered, and none has more than `blockLimit` (`queues_count_queued`). The only writers of the
two maps are `enqueue`, which counts what it files, and `forgetBlock`, which uncounts what it
deletes. Every other step leaves `cache`, the pair of maps, as it was.
-/

namespace Zerium.Zrm

set_option autoImplicit false

variable {Peer Hash Header Tx : Type} [DecidableEq Peer] [DecidableEq Hash]

/-! ## `announces` -/

theorem start_eq_newFetcher (types : Types Hash Header Tx) (env : Env Hash) (now : Nat) :
    start types env now = (newFetcher now : Fetcher Peer Hash Header Tx) := rfl

/-- One announcement of `h` by `p` at time zero, the fetch timer at `arriveTimeout`, and any
event after `fetchTimeout`, here the completion timer whose first fire still waits. After the
fetch timer `p`'s counter is zero while `fetching` holds its announcement; after the clean-up it
is `-1` and no stage holds anything of `p`. -/
theorem announces_below_held_after_fetch_expiry (types : Types Hash Header Tx) (env : Env Hash)
    (p : Peer) (h : Hash) (hnew : env.known h = false) :
    ∃ f, run types [(env, 0, .notify p h 0 0), (env, arriveTimeout, .fetchTimer)]
        (start types env 0) = some f ∧
      (f.announces.get p).getD 0 = 0 ∧ holding p f = 1 ∧
      ∃ f', step types env (6 * 1000000000) .completeTimer f = some f' ∧ Reachable types f' ∧
        f'.announces.get p = some (-1) ∧ holding p f' = 0 := by
  have hreach : ∀ {f f' : Fetcher Peer Hash Header Tx},
      run types [(env, 0, .notify p h 0 0), (env, arriveTimeout, .fetchTimer)]
        (start types env 0) = some f →
      step types env (6 * 1000000000) .completeTimer f = some f' → Reachable types f' :=
    fun hrun hstep => (reachable_of_run (.start env 0) hrun).step env _ _ hstep
  -- the loop evaluated event by event: nothing is read of `types`, and of `env` only `known h`
  simp [start_eq_newFetcher, run, step, handle, fire, Timer.fire, Timer.new, newFetcher,
    notify, hashLimit, GoMap.empty, GoMap.insert, rescheduleFetch, earliest, Timer.reset, append,
    slice, onFetchTimer, fetchOne, forgetHash, decrementAll, decrement, GoMap.erase, hnew, pick,
    arriveTimeout, gatherSlack, onCompleteTimer, rescheduleComplete, fetchTimeout, loopHead,
    expireFetches, importQueued, holding, stageRecords, -existsAndEq] at hreach ⊢
  exact hreach

theorem announces_below_held_after_fetch_expiry_nat :
    ∃ f, run (⟨id, fun _ => 0, id, id, fun _ => 0, fun _ => 0⟩ : Types Nat Nat Nat)
        [(⟨0, fun _ => false, fun _ => 0⟩, 0, .notify (0 : Nat) 0 0 0),
          (⟨0, fun _ => false, fun _ => 0⟩, arriveTimeout, .fetchTimer)]
        (start ⟨id, fun _ => 0, id, id, fun _ => 0, fun _ => 0⟩ ⟨0, fun _ => false, fun _ => 0⟩ 0)
        = some f ∧
      (f.announces.get 0).getD 0 = 0 ∧ holding 0 f = 1 ∧
      ∃ f', step ⟨id, fun _ => 0, id, id, fun _ => 0, fun _ => 0⟩ ⟨0, fun _ => false, fun _ => 0⟩
          (6 * 1000000000) .completeTimer f = some f' ∧
        Reachable ⟨id, fun _ => 0, id, id, fun _ => 0, fun _ => 0⟩ f' ∧
        f'.announces.get 0 = some (-1) ∧ holding 0 f' = 0 :=
  announces_below_held_after_fetch_expiry _ _ 0 0 rfl

/-! ## `queues` -/

theorem getD_decrement (m : GoMap Peer Int) (k k' : Peer) :
    ((decrement m k).get k').getD 0 = (m.get k').getD 0 - if k' = k then 1 else 0 := by
  unfold decrement
  dsimp only
  by_cases hk : k' = k
  · subst hk
    split
    · rename_i hzero
      rw [GoMap.get_insert_self] at hzero
      simp only [GoMap.get_erase_self, Option.getD_none, if_true]
      simp only [Option.getD_some] at hzero
      omega
    · simp
  · split <;> simp [GoMap.get_erase_of_ne _ hk, GoMap.get_insert_of_ne _ hk]

def cache (f : Fetcher Peer Hash Header Tx) : GoMap Peer Int × GoMap Hash (Inject Peer Header Tx) :=
  (f.queues, f.queued)

/-- `queues` counts, for each peer, the blocks of `queued` it delivered, and none has more than
`blockLimit`. -/
structure QueueAccounting (c : GoMap Peer Int × GoMap Hash (Inject Peer Header Tx)) : Prop where
  exact : ∀ p, (c.1.get p).getD 0 = c.2.count fun op => decide (op.origin = p)
  bounded : ∀ p, (c.1.get p).getD 0 ≤ blockLimit

section Frame

variable (types : Types Hash Header Tx) (env : Env Hash) (now : Nat)

@[simp] theorem cache_forgetHash (hash : Hash) (f : Fetcher Peer Hash Header Tx) :
    cache (forgetHash hash f) = cache f := by
  unfold forgetHash
  dsimp only
  split <;> split <;> rfl

omit [DecidableEq Peer] [DecidableEq Hash] in
@[simp] theorem cache_rescheduleFetch (f : Fetcher Peer Hash Header Tx) :
    cache (rescheduleFetch now f) = cache f := by
  unfold rescheduleFetch
  split <;> rfl

omit [DecidableEq Peer] [DecidableEq Hash] in
@[simp] theorem cache_rescheduleComplete (f : Fetcher Peer Hash Header Tx) :
    cache (rescheduleComplete now f) = cache f := by
  unfold rescheduleComplete
  split <;> rfl

@[simp] theorem cache_fetchOne (f : Fetcher Peer Hash Header Tx) (hash : Hash) :
    cache (fetchOne env now f hash) = cache f := by
  unfold fetchOne
  split
  · split
    · dsimp only
      split
      · exact cache_forgetHash hash f
      · exact cache_forgetHash hash f
    · rfl
  · rfl

@[simp] theorem cache_completeOne (f : Fetcher Peer Hash Header Tx) (hash : Hash) :
    cache (completeOne env f hash) = cache f := by
  unfold completeOne
  split
  · dsimp only
    split
    · exact cache_forgetHash hash f
    · exact cache_forgetHash hash f
  · rfl

omit [DecidableEq Peer] [DecidableEq Hash] in
theorem cache_foldl {α : Type} (g : Fetcher Peer Hash Header Tx → α → Fetcher Peer Hash Header Tx)
    (hg : ∀ f a, cache (g f a) = cache f) (l : List α) (f : Fetcher Peer Hash Header Tx) :
    cache (l.foldl g f) = cache f :=
  GoMap.foldl_invariant (fun f' => cache f' = cache f) g (fun f' a hf' => (hg f' a).trans hf') l f rfl

@[simp] theorem cache_onFetchTimer (f : Fetcher Peer Hash Header Tx) :
    cache (onFetchTimer env now f) = cache f := by
  rw [onFetchTimer, cache_rescheduleFetch]
  exact cache_foldl _ (cache_fetchOne env now) _ f

@[simp] theorem cache_onCompleteTimer (f : Fetcher Peer Hash Header Tx) :
    cache (onCompleteTimer env now f) = cache f := by
  rw [onCompleteTimer, cache_rescheduleComplete]
  exact cache_foldl _ (cache_completeOne env) _ f

@[simp] theorem cache_notify (announce : Announce Peer Hash Header) (f : Fetcher Peer Hash Header Tx) :
    cache (notify env now announce f) = cache f := by
  unfold notify
  dsimp only
  split_ifs
  all_goals first | rfl | exact cache_rescheduleFetch now _

@[simp] theorem cache_expireFetches (f : Fetcher Peer Hash Header Tx) :
    cache (expireFetches now f) = cache f := by
  refine cache_foldl _ (fun g hash => ?_) _ f
  split
  · split
    · exact cache_forgetHash hash g
    · rfl
  · rfl

theorem cache_filterHeader (peer : Peer) (time : Nat)
    (acc : HeaderSplit Peer Hash Header Tx × Fetcher Peer Hash Header Tx) (header : Header) :
    cache (filterHeader types env peer time acc header).2 = cache acc.2 := by
  obtain ⟨s, f⟩ := acc
  unfold filterHeader
  dsimp only
  split
  · split
    · split
      · exact cache_forgetHash _ f
      · split
        · exact cache_forgetHash _ f
        · split <;> rfl
    · rfl
  · rfl

omit [DecidableEq Peer] in
@[simp] theorem cache_scheduleIncomplete (f : Fetcher Peer Hash Header Tx)
    (e : Hash × Announce Peer Hash Header) : cache (scheduleIncomplete now f e) = cache f := by
  unfold scheduleIncomplete
  dsimp only
  split
  · rfl
  · split
    · exact cache_rescheduleComplete now _
    · rfl

theorem cache_matchBody (peer : Peer) (txs : List Tx) (uncles : List Header)
    (acc acc' : List (Block Header Tx) × Bool × Fetcher Peer Hash Header Tx) (hash : Hash)
    (h : matchBody types env peer txs uncles acc hash = some acc') : cache acc'.2.2 = cache acc.2.2 := by
  obtain ⟨blocks, matched, f⟩ := acc
  unfold matchBody at h
  dsimp only at h
  split at h
  · cases h; rfl
  · split at h
    · cases h; rfl
    · split at h
      · cases h
      · split at h
        · split at h
          · cases h
            exact cache_forgetHash hash f
          · cases h; rfl
        · cases h; rfl

end Frame

/-! ### The writers of the cache -/

section Writers

variable {types : Types Hash Header Tx} {env : Env Hash}

omit [DecidableEq Hash] in
theorem QueueAccounting.of_cache_eq {f f' : Fetcher Peer Hash Header Tx} (h : cache f' = cache f)
    (hf : QueueAccounting (cache f)) : QueueAccounting (cache f') :=
  h ▸ hf

theorem QueueAccounting.forgetBlock {f : Fetcher Peer Hash Header Tx} (hash : Hash)
    (hf : QueueAccounting (cache f)) : QueueAccounting (cache (forgetBlock hash f)) := by
  unfold Zrm.forgetBlock
  split
  · rename_i op hop
    constructor
    · intro p
      have hc := GoMap.count_erase_of_get_eq_some hop fun op => decide (op.origin = p)
      have hp := hf.exact p
      simp only [cache] at hp ⊢
      rw [getD_decrement, hp, ← hc]
      by_cases he : p = op.origin
      · simp [he]
      · simp [he, Ne.symm he]
    · intro p
      have hb := hf.bounded p
      simp only [cache] at hb ⊢
      rw [getD_decrement]
      split <;> omega
  · exact hf

theorem QueueAccounting.enqueue {f : Fetcher Peer Hash Header Tx} (peer : Peer)
    (block : Block Header Tx) (hf : QueueAccounting (cache f)) :
    QueueAccounting (cache (enqueue types env peer block f)) := by
  unfold Zrm.enqueue
  dsimp only
  split
  · exact hf.of_cache_eq (cache_forgetHash _ f)
  split
  · exact hf.of_cache_eq (cache_forgetHash _ f)
  split
  · rename_i hlimit _ hnew
    have hnone : f.queued.get (types.hash block.header) = none := Option.isNone_iff_eq_none.mp hnew
    constructor
    · intro p
      have hp := hf.exact p
      simp only [cache] at hp ⊢
      rw [GoMap.count_insert_of_get_eq_none hnone, GoMap.get_insert]
      by_cases he : p = peer
      · subst he
        simp [hp]
      · simp [he, Ne.symm he, hp]
    · intro p
      have hb := hf.bounded p
      simp only [cache] at hb ⊢
      rw [GoMap.get_insert]
      split
      · simp only [Option.getD_some]
        omega
      · exact hb
  · exact hf

theorem QueueAccounting.importComplete {f : Fetcher Peer Hash Header Tx} (block : Block Header Tx)
    (hf : QueueAccounting (cache f)) : QueueAccounting (cache (importComplete types env f block)) := by
  unfold Zrm.importComplete
  split
  · exact hf.enqueue _ block
  · exact hf

theorem QueueAccounting.foldl_importComplete (blocks : List (Block Header Tx))
    {f : Fetcher Peer Hash Header Tx} (hf : QueueAccounting (cache f)) :
    QueueAccounting (cache (blocks.foldl (Zrm.importComplete types env) f)) :=
  GoMap.foldl_invariant (fun f => QueueAccounting (cache f)) _
    (fun _ block hg => hg.importComplete block) blocks f hf

theorem QueueAccounting.importQueued :
    ∀ (fuel : Nat) {f : Fetcher Peer Hash Header Tx}, QueueAccounting (cache f) →
      QueueAccounting (cache (importQueued types env fuel f))
  | 0, _, hf => hf
  | fuel + 1, f, hf => by
    rw [Zrm.importQueued]
    split
    · exact hf
    · dsimp only
      split
      · exact hf
      · split
        · refine QueueAccounting.importQueued fuel (QueueAccounting.forgetBlock _ ?_)
          exact hf
        · exact QueueAccounting.importQueued fuel hf

theorem QueueAccounting.onHeaderFilter {f : Fetcher Peer Hash Header Tx} (now : Nat) (peer : Peer)
    (headers : List Header) (time : Nat) (hf : QueueAccounting (cache f)) :
    QueueAccounting (cache (onHeaderFilter types env now peer headers time f).2) := by
  unfold Zrm.onHeaderFilter
  -- the split and the scheduling of `fetched` leave the cache; only `enqueue` writes it
  have hsplit : cache (headers.foldl (filterHeader types env peer time) (⟨[], [], []⟩, f)).2 =
      cache f :=
    GoMap.foldl_invariant (fun acc => cache acc.2 = cache f) _
      (fun acc header hacc => (cache_filterHeader types env peer time acc header).trans hacc)
      headers _ rfl
  refine hf.of_cache_eq ?_ |>.foldl_importComplete _
  rw [cache_foldl _ (cache_scheduleIncomplete now) _ _, hsplit]

theorem cache_filterBodies (peer : Peer) :
    ∀ (bodies : List (List Tx × List Header))
      (acc acc' : List (Block Header Tx) × List (List Tx × List Header) × Fetcher Peer Hash Header Tx),
      filterBodies types env peer bodies acc = some acc' → cache acc'.2.2 = cache acc.2.2
  | [], acc, acc', h => by
    cases h
    rfl
  | (txs, uncles) :: rest, (blocks, kept, f), acc', h => by
    simp only [filterBodies, Option.bind_eq_bind] at h
    cases hm : f.completing.keys.foldlM (matchBody types env peer txs uncles) (blocks, false, f) with
    | none => simp [hm] at h
    | some r =>
      rw [hm, Option.bind_some] at h
      have hr : cache r.2.2 = cache f :=
        GoMap.foldlM_invariant (fun acc => cache acc.2.2 = cache f) _
          (fun acc hash acc' hstep hacc => (cache_matchBody types env peer txs uncles acc acc' hash hstep).trans hacc)
          _ _ _ hm rfl
      exact (cache_filterBodies peer rest _ acc' h).trans hr

theorem QueueAccounting.onBodyFilter {f f' : Fetcher Peer Hash Header Tx} (peer : Peer)
    (transactions : List (List Tx)) (uncles : List (List Header))
    (reply : List (List Tx) × List (List Header))
    (h : onBodyFilter types env peer transactions uncles f = some (reply, f'))
    (hf : QueueAccounting (cache f)) : QueueAccounting (cache f') := by
  unfold Zrm.onBodyFilter at h
  simp only [Option.bind_eq_bind, Option.pure_def] at h
  cases hb : filterBodies types env peer (transactions.zip uncles) ([], [], f) with
  | none => simp [hb] at h
  | some r =>
    rw [hb, Option.bind_some] at h
    cases h
    exact (hf.of_cache_eq (cache_filterBodies peer _ _ r hb)).foldl_importComplete _

end Writers

/-! ### Every run -/

theorem QueueAccounting.handle {types : Types Hash Header Tx} {env : Env Hash} {now : Nat}
    {f f' : Fetcher Peer Hash Header Tx} (ev : Event Peer Hash Header Tx)
    (h : handle types env now ev f = some f') (hf : QueueAccounting (cache f)) :
    QueueAccounting (cache f') := by
  cases ev with
  | notify peer hash number time =>
    cases h
    exact hf.of_cache_eq (cache_notify env now _ f)
  | inject peer block =>
    cases h
    exact hf.enqueue peer block
  | done hash =>
    simp only [Zrm.handle] at h
    split at h
    · cases h
      refine QueueAccounting.forgetBlock hash (hf.of_cache_eq ?_)
      exact (cache_forgetHash hash _).trans rfl
    · cases h
  | fetchTimer =>
    simp only [Zrm.handle] at h
    split at h
    · cases h
      exact hf.of_cache_eq (cache_onFetchTimer env now _)
    · cases h
  | completeTimer =>
    simp only [Zrm.handle] at h
    split at h
    · cases h
      exact hf.of_cache_eq (cache_onCompleteTimer env now _)
    · cases h
  | headerFilter peer headers time =>
    cases h
    exact hf.onHeaderFilter now peer headers time
  | bodyFilter peer transactions uncles time =>
    simp only [Zrm.handle, Option.map_eq_some_iff] at h
    obtain ⟨⟨reply, g⟩, hb, rfl⟩ := h
    exact hf.onBodyFilter peer transactions uncles reply hb

theorem QueueAccounting.step {types : Types Hash Header Tx} {env : Env Hash} {now : Nat}
    {f f' : Fetcher Peer Hash Header Tx} (ev : Event Peer Hash Header Tx)
    (h : step types env now ev f = some f') (hf : QueueAccounting (cache f)) :
    QueueAccounting (cache f') := by
  simp only [Zrm.step, Option.map_eq_some_iff] at h
  obtain ⟨g, hg, rfl⟩ := h
  have hg' := QueueAccounting.handle ev hg (hf.of_cache_eq rfl)
  exact QueueAccounting.importQueued _ (hg'.of_cache_eq (cache_expireFetches now g))

omit [DecidableEq Hash] in
theorem queueAccounting_newFetcher (now : Nat) :
    QueueAccounting (cache (newFetcher now : Fetcher Peer Hash Header Tx)) :=
  ⟨fun _ => rfl, fun _ => by simp [cache, newFetcher, blockLimit]⟩

theorem QueueAccounting.of_reachable {types : Types Hash Header Tx}
    {f : Fetcher Peer Hash Header Tx} (hf : Reachable types f) : QueueAccounting (cache f) := by
  induction hf with
  | start env now => exact queueAccounting_newFetcher now |>.importQueued _
  | step env now ev _ hstep ih => exact ih.step ev hstep

/-- Over every run of the loop, `queues[p]` is the number of blocks of `queued` that `p`
delivered, and that number is at most `blockLimit`. -/
theorem queues_count_queued (types : Types Hash Header Tx) {f : Fetcher Peer Hash Header Tx}
    (hf : Reachable types f) (p : Peer) :
    (f.queues.get p).getD 0 = (f.queued.count fun op => decide (op.origin = p) : Nat) ∧
      (f.queued.count fun op => decide (op.origin = p) : Int) ≤ blockLimit := by
  have ha := QueueAccounting.of_reachable hf
  exact ⟨ha.exact p, ha.exact p ▸ ha.bounded p⟩

theorem queues_count_queued_inject :
    ∃ f, run (⟨id, fun _ => 0, id, id, fun _ => 0, fun _ => 0⟩ : Types Nat Nat Nat)
        [(⟨0, fun _ => false, fun _ => 0⟩, 0, .inject (0 : Nat) ⟨5, [], []⟩)]
        (start ⟨id, fun _ => 0, id, id, fun _ => 0, fun _ => 0⟩ ⟨0, fun _ => false, fun _ => 0⟩ 0)
        = some f ∧ (f.queues.get 0).getD 0 = 1 ∧ f.inserts = [5] ∧
      ((f.queues.get 0).getD 0 = (f.queued.count fun op => decide (op.origin = 0) : Nat) ∧
        (f.queued.count fun op => decide (op.origin = 0) : Int) ≤ blockLimit) := by
  -- the block is queued under its hash and handed to `insert` by the same iteration
  obtain ⟨f, hrun, hq, hi⟩ : ∃ f,
      run (⟨id, fun _ => 0, id, id, fun _ => 0, fun _ => 0⟩ : Types Nat Nat Nat)
      [(⟨0, fun _ => false, fun _ => 0⟩, 0, .inject (0 : Nat) ⟨5, [], []⟩)]
      (start ⟨id, fun _ => 0, id, id, fun _ => 0, fun _ => 0⟩ ⟨0, fun _ => false, fun _ => 0⟩ 0)
      = some f ∧ (f.queues.get 0).getD 0 = 1 ∧ f.inserts = [5] :=
    ⟨_, rfl, by decide +kernel, by decide +kernel⟩
  exact ⟨f, hrun, hq, hi, queues_count_queued _ (reachable_of_run (.start _ 0) hrun) 0⟩

end Zerium.Zrm
