import Zerium.P2p.DialSpec
import Zerium.P2p.Server

/-! # The run loop over every run

`RunState.Inv` holds at every `select` of the loop, from `Start` on, whatever the other goroutines
send in whatever order (`Reachable.inv`): the dialer's bookkeeping against the tasks started and
queued, at most `maxActiveDialTasks` running, no more dynamic peers and dials than `maxDynDials`,
no more than `MaxPeers` untrusted non-static peers, and never the local node. Each event keeps
`RunState.Ok` and `scheduleTasks` restores the rest. A dynamically dialed peer is counted by its
dial, which sends `taskdone` only after `SetupConn` returns, and a node whose dial ended is not
dialed again before its history entry expires (`not_redialed_before_expiration`).
-/

namespace Zerium.P2p.Dial

set_option autoImplicit false

variable {ι ip : Type} [DecidableEq ι]

/-! ## `startTasks` and `scheduleTasks` -/

omit [DecidableEq ι] in
theorem startTasks_append (running ts : List (Task ι ip)) :
    (startTasks running ts).1 ++ (startTasks running ts).2 = running ++ ts := by
  induction ts generalizing running with
  | nil => simp [startTasks]
  | cons t ts ih =>
    unfold startTasks
    split_ifs
    · rw [ih, List.append_assoc, List.singleton_append]
    · rfl

omit [DecidableEq ι] in
theorem length_startTasks_le {running : List (Task ι ip)} (h : running.length ≤ maxActiveDialTasks)
    (ts : List (Task ι ip)) : (startTasks running ts).1.length ≤ maxActiveDialTasks := by
  induction ts generalizing running with
  | nil => exact h
  | cons t ts ih =>
    unfold startTasks
    split_ifs with hlt
    · exact ih (by rw [List.length_append, List.length_singleton]; omega)
    · exact h

omit [DecidableEq ι] in
theorem startTasks_full (running ts : List (Task ι ip)) :
    (startTasks running ts).2 = [] ∨ maxActiveDialTasks ≤ (startTasks running ts).1.length := by
  induction ts generalizing running with
  | nil => exact .inl rfl
  | cons t ts ih =>
    unfold startTasks
    split_ifs with hlt
    · exact ih _
    · exact .inr (Nat.le_of_not_lt hlt)

namespace RunState

variable (r : RunState ι ip) (now : Nat) (random : List (Node ι ip))

@[simp] theorem peers_scheduleTasks : (r.scheduleTasks now random).peers = r.peers := by
  simp only [scheduleTasks]
  split_ifs <;> rfl

theorem scheduleTasks_cases :
    ((r.scheduleTasks now random).dialstate = r.dialstate ∧ (r.scheduleTasks now random).pending = r.pending) ∨
      ((r.scheduleTasks now random).dialstate =
          (r.dialstate.newTasks r.pending.length r.peers now random).1 ∧
        (r.scheduleTasks now random).pending =
          r.pending ++ (r.dialstate.newTasks r.pending.length r.peers now random).2) := by
  have hq := startTasks_append r.runningTasks r.queuedTasks
  simp only [scheduleTasks]
  split_ifs with hlt
  · -- a slot is free, so the queue was started to its end
    have hrest : (startTasks r.runningTasks r.queuedTasks).2 = [] :=
      (startTasks_full _ _).resolve_right (Nat.not_le_of_lt hlt)
    have hlen : (startTasks r.runningTasks r.queuedTasks).1.length +
        (startTasks r.runningTasks r.queuedTasks).2.length = r.pending.length := by
      rw [← List.length_append, hq]
      rfl
    have hq' : (startTasks r.runningTasks r.queuedTasks).1 = r.pending := by
      rw [← List.append_nil (startTasks _ _).1, ← hrest]
      exact hq
    refine .inr ⟨by rw [hlen], ?_⟩
    simp only [pending, hrest, List.nil_append, List.length_nil, Nat.add_zero]
    rw [startTasks_append, hq']
    rfl
  · exact .inl ⟨rfl, hq⟩

theorem scheduleTasks_running (h : r.runningTasks.length ≤ maxActiveDialTasks) :
    (r.scheduleTasks now random).runningTasks.length ≤ maxActiveDialTasks ∧
      ((r.scheduleTasks now random).queuedTasks ≠ [] →
        (r.scheduleTasks now random).runningTasks.length = maxActiveDialTasks) := by
  have hq := length_startTasks_le h r.queuedTasks
  simp only [scheduleTasks]
  split_ifs with hlt
  · have hrest : (startTasks r.runningTasks r.queuedTasks).2 = [] :=
      (startTasks_full _ _).resolve_right (Nat.not_le_of_lt hlt)
    refine ⟨length_startTasks_le hq _, fun hne => ?_⟩
    simp only [hrest, List.nil_append] at hne ⊢
    rcases startTasks_full (startTasks r.runningTasks r.queuedTasks).1
        (r.dialstate.newTasks _ r.peers now random).2 with hnil | hfull
    · exact absurd hnil hne
    · exact Nat.le_antisymm (length_startTasks_le hq _) hfull
  · exact ⟨hq, fun _ => Nat.le_antisymm hq (Nat.le_of_not_lt hlt)⟩

end RunState

/-! ## The handshake checks -/

namespace Server

variable (srv : Server ι ip)

theorem encHandshakeChecks_eq_none {peers : GoMap ι Nat} {c : Conn ι}
    (h : srv.encHandshakeChecks peers c = none) :
    (connIs c.flags (trustedConn ||| staticDialedConn) = false → (peers.keys.length : Int) < srv.MaxPeers) ∧
      peers.contains c.id = false ∧ c.id ≠ srv.selfID := by
  unfold encHandshakeChecks at h
  split_ifs at h with h₁ h₂ h₃
  refine ⟨fun hf => ?_, by simpa using h₂, h₃⟩
  simp only [hf, true_and, not_le] at h₁
  exact h₁

theorem encHandshakeChecks_of_protoHandshakeChecks {peers : GoMap ι Nat} {c : Conn ι}
    (h : srv.protoHandshakeChecks peers c = none) : srv.encHandshakeChecks peers c = none := by
  unfold protoHandshakeChecks at h
  split_ifs at h
  exact h

theorem ConnFrom.dyn {r : RunState ι ip} {c : Conn ι} (hc : srv.ConnFrom r c)
    (hflags : ∀ t, Task.dialTask t ∈ r.runningTasks → t.flags = dynDialedConn ∨ t.flags = staticDialedConn)
    (hdyn : connIs c.flags dynDialedConn = true) :
    ∃ t, Task.dialTask t ∈ r.runningTasks ∧ t.dest.ID = c.id ∧ t.flags = dynDialedConn := by
  obtain ⟨c₀, hfrom, rfl⟩ := hc
  -- the trusted flag leaves the dynamic one as it is
  have htrust : connIs (srv.posthandshake r.peers c₀).1.flags dynDialedConn =
      connIs c₀.flags dynDialedConn := by
    simp only [posthandshake]
    split_ifs
    · -- the flags of a connection before `posthandshake` are those of a dial or `inboundConn`
      have hf : c₀.flags = dynDialedConn ∨ c₀.flags = staticDialedConn ∨ c₀.flags = inboundConn := by
        rcases hfrom with ⟨t, ht, -, hf⟩ | hf
        · rcases hflags t ht with ht' | ht'
          · exact .inl (hf.trans ht')
          · exact .inr (.inl (hf.trans ht'))
        · exact .inr (.inr hf)
      rcases hf with hf | hf | hf <;> simp only [hf] <;> decide
    · rfl
  rw [htrust] at hdyn
  rcases hfrom with ⟨t, ht, hid, hf⟩ | hf
  · rcases hflags t ht with ht' | ht'
    · exact ⟨t, ht, by simp only [posthandshake]; split_ifs <;> exact hid.symm, ht'⟩
    · rw [hf, ht'] at hdyn
      cases hdyn
  · rw [hf] at hdyn
    cases hdyn

end Server

/-! ## The invariant -/

/-- What the loop keeps from one event to the next. -/
structure RunState.Ok (srv : Server ι ip) (r : RunState ι ip) : Prop where
  dialer : r.dialstate.Inv r.pending
  maxDynDials : r.dialstate.maxDynDials = srv.dialer.maxDynDials
  running_le : r.runningTasks.length ≤ maxActiveDialTasks
  /-- The peers and the dials in flight that were dialed dynamically are at most `maxDynDials`. -/
  dyn_le : ((dynNodes r.peers r.dialstate.dialing).card : Int) ≤ max r.dialstate.maxDynDials 0
  /-- The peers neither trusted nor statically dialed are at most `MaxPeers`. -/
  plain_le : ((r.peers.count fun f => !connIs f (trustedConn ||| staticDialedConn) : Nat) : Int) ≤
    max srv.MaxPeers 0
  not_self : r.peers.contains srv.selfID = false

/-- What holds at every `select` of the loop. -/
structure RunState.Inv (srv : Server ι ip) (r : RunState ι ip) : Prop extends r.Ok srv where
  /-- No task waits in the queue while a slot is free. -/
  full : r.queuedTasks ≠ [] → r.runningTasks.length = maxActiveDialTasks

namespace RunState

variable {srv : Server ι ip} {r : RunState ι ip}

theorem Ok.scheduleTasks (h : r.Ok srv) (now : Nat) (random : List (Node ι ip)) :
    (r.scheduleTasks now random).Inv srv := by
  obtain ⟨hrun, hfull⟩ := r.scheduleTasks_running now random h.running_le
  rcases r.scheduleTasks_cases now random with ⟨hd, hp⟩ | ⟨hd, hp⟩
  · exact
      { dialer := hd ▸ hp ▸ h.dialer
        maxDynDials := hd ▸ h.maxDynDials
        running_le := hrun
        dyn_le := by rw [hd, peers_scheduleTasks]; exact h.dyn_le
        plain_le := by rw [peers_scheduleTasks]; exact h.plain_le
        not_self := by rw [peers_scheduleTasks]; exact h.not_self
        full := hfull }
  · exact
      { dialer := by rw [hd, hp]; exact DialState.newTasks_inv _ _ _ _ _ h.dialer
        maxDynDials := by rw [hd, DialState.maxDynDials_newTasks]; exact h.maxDynDials
        running_le := hrun
        dyn_le := by
          rw [hd, peers_scheduleTasks]
          exact DialState.card_dynNodes_newTasks _ _ _ _ _ h.dialer h.dyn_le
        plain_le := by rw [peers_scheduleTasks]; exact h.plain_le
        not_self := by rw [peers_scheduleTasks]; exact h.not_self
        full := hfull }

theorem dynNodes_insert_subset {peers dialing : GoMap ι Nat} {id : ι} {f : Nat}
    (h : connIs f dynDialedConn = true → (dialing.get id).any (connIs · dynDialedConn) = true) :
    dynNodes (peers.insert id f) dialing ⊆ dynNodes peers dialing := by
  unfold dynNodes
  rw [GoMap.keysWhere_insert]
  split_ifs with hf
  · have hid : id ∈ dialing.keysWhere (connIs · dynDialedConn) := GoMap.mem_keysWhere.mpr (h hf)
    exact Finset.union_subset (Finset.insert_subset (Finset.mem_union_right _ hid)
      Finset.subset_union_left) Finset.subset_union_right
  · exact Finset.union_subset_union (Finset.erase_subset _ _) (subset_refl _)

theorem count_erase_le (m : GoMap ι Nat) (k : ι) (q : Nat → Bool) : (m.erase k).count q ≤ m.count q := by
  rw [← GoMap.card_keysWhere, ← GoMap.card_keysWhere, GoMap.keysWhere_erase]
  exact Finset.card_erase_le

variable [DecidableEq ip]

theorem Ok.addpeer (h : r.Ok srv) {c : Conn ι} (hc : srv.ConnFrom r c) :
    (srv.handle r (.addpeer c)).Ok srv := by
  cases hchecks : srv.protoHandshakeChecks r.peers c with
  | some e =>
    simp only [Server.handle, hchecks]
    exact h
  | none =>
    simp only [Server.handle, hchecks]
    obtain ⟨hslot, hnew, hself⟩ :=
      srv.encHandshakeChecks_eq_none (srv.encHandshakeChecks_of_protoHandshakeChecks hchecks)
    have hget : r.peers.get c.id = none := by simpa [GoMap.contains] using hnew
    refine ⟨h.dialer, h.maxDynDials, h.running_le, ?_, ?_, ?_⟩
    · -- a dynamic peer comes from a running dynamic dial, whose node is in `dialing`
      refine le_trans (Int.ofNat_le.mpr (Finset.card_le_card (dynNodes_insert_subset fun hf => ?_))) h.dyn_le
      obtain ⟨t, ht, hid, hflags⟩ := Server.ConnFrom.dyn srv hc
        (fun t ht => h.dialer.flags t (List.mem_append_left _ ht)) hf
      rw [← hid, h.dialer.get_of_mem (List.mem_append_left _ ht), hflags]
      rfl
    · show (((r.peers.insert c.id c.flags).count _ : Nat) : Int) ≤ _
      rw [GoMap.count_insert_of_get_eq_none hget]
      have hle := h.plain_le
      split_ifs with hplain
      · -- a peer that takes a slot came while one was free
        have hlt := hslot (by simpa using hplain)
        have hcount : r.peers.count (fun f => !connIs f (trustedConn ||| staticDialedConn)) ≤
            r.peers.keys.length := List.countP_le_length
        omega
      · simpa using hle
    · show (r.peers.insert c.id c.flags).contains srv.selfID = false
      rw [GoMap.contains_insert, h.not_self, Bool.or_false, decide_eq_false_iff_not]
      exact fun e => hself e.symm

theorem Ok.handle (h : r.Ok srv) {ev : Event ι ip} (hev : srv.Allowed r ev) :
    (srv.handle r ev).Ok srv := by
  cases ev with
  | addstatic n =>
    exact ⟨h.dialer.addStatic n, h.maxDynDials, h.running_le, h.dyn_le, h.plain_le, h.not_self⟩
  | removestatic n =>
    exact ⟨h.dialer.removeStatic n, h.maxDynDials, h.running_le, h.dyn_le, h.plain_le, h.not_self⟩
  | taskdone t results now =>
    have ht : t ∈ r.runningTasks := hev
    have hpending : (r.runningTasks.erase t) ++ r.queuedTasks = r.pending.erase t :=
      (List.erase_append_left _ ht).symm
    have hmem : t ∈ r.pending := List.mem_append_left _ ht
    refine ⟨?_, (DialState.maxDynDials_taskDone _ _ _).trans h.maxDynDials,
      List.length_erase_le.trans h.running_le, ?_, h.plain_le, h.not_self⟩
    · show (r.dialstate.taskDone (t.afterDo results) now).Inv (r.runningTasks.erase t ++ r.queuedTasks)
      rw [hpending]
      cases t with
      | dialTask d => exact h.dialer.taskDone_dial hmem now
      | discoverTask r₀ => exact h.dialer.taskDone_discover hmem results now
      | waitExpireTask d => exact h.dialer.taskDone_wait d now
    · show ((dynNodes r.peers (r.dialstate.taskDone _ now).dialing).card : Int) ≤
        max (r.dialstate.taskDone _ now).maxDynDials 0
      rw [DialState.maxDynDials_taskDone]
      exact le_trans (Int.ofNat_le.mpr (Finset.card_le_card (DialState.dialing_taskDone_subset _ _ _ _)))
        h.dyn_le
  | addpeer c => exact h.addpeer hev
  | delpeer id =>
    refine ⟨h.dialer, h.maxDynDials, h.running_le, ?_, ?_, ?_⟩
    · show ((dynNodes (r.peers.erase id) r.dialstate.dialing).card : Int) ≤ _
      refine le_trans (Int.ofNat_le.mpr (Finset.card_le_card ?_)) h.dyn_le
      rw [dynNodes, dynNodes, GoMap.keysWhere_erase]
      exact Finset.union_subset_union (Finset.erase_subset _ _) (subset_refl _)
    · exact le_trans (Int.ofNat_le.mpr (count_erase_le _ _ _)) h.plain_le
    · show (r.peers.erase id).contains srv.selfID = false
      rw [GoMap.contains_erase, h.not_self, Bool.and_false]

omit [DecidableEq ip] in
theorem ok_start (srv : Server ι ip) : (⟨srv.dialer, .empty, [], []⟩ : RunState ι ip).Ok srv where
  dialer := DialState.inv_newDialState _ _ _ _ _
  maxDynDials := rfl
  running_le := Nat.zero_le _
  dyn_le := by
    have hd : srv.dialer.dialing = .empty := (DialState.dialing_newDialState _ _ _ _ _).1
    show ((dynNodes GoMap.empty srv.dialer.dialing).card : Int) ≤ _
    rw [hd]
    exact le_max_right _ _
  plain_le := le_max_right _ _
  not_self := rfl

end RunState

namespace Server

variable [DecidableEq ip] {srv : Server ι ip}

theorem Reachable.inv {r : RunState ι ip} (hr : srv.Reachable r) : r.Inv srv := by
  induction hr with
  | start now random => exact (RunState.ok_start srv).scheduleTasks now random
  | step ev now random _ hev ih => exact (ih.toOk.handle hev).scheduleTasks now random

/-! ## The history across events -/

theorem mem_hist_handle {r : RunState ι ip} {d : PastDial ι} (hd : d ∈ r.dialstate.hist) (ev : Event ι ip) :
    d ∈ (srv.handle r ev).dialstate.hist := by
  cases ev with
  | taskdone t results now =>
    cases t with
    | dialTask t =>
      show d ∈ GoHeap.push PastDial.exp r.dialstate.hist _
      exact (GoHeap.push_perm _ _).mem_iff.mpr (List.mem_cons_of_mem _ hd)
    | discoverTask _ => exact hd
    | waitExpireTask _ => exact hd
  | addpeer c =>
    simp only [handle]
    split
    · exact hd
    · exact hd
  | addstatic _ => exact hd
  | removestatic _ => exact hd
  | delpeer _ => exact hd

theorem mem_hist_taskdone (r : RunState ι ip) (d : DialTask ι ip) (results : List (Node ι ip)) (now : Nat) :
    (⟨d.dest.ID, now + dialHistoryExpiration⟩ : PastDial ι) ∈
      (srv.handle r (.taskdone (.dialTask d) results now)).dialstate.hist := by
  show _ ∈ GoHeap.push PastDial.exp r.dialstate.hist _
  exact (GoHeap.push_perm _ _).mem_iff.mpr List.mem_cons_self

omit [DecidableEq ip] in
theorem mem_hist_scheduleTasks {r : RunState ι ip}
    (hh : GoHeap.IsHeap PastDial.exp r.dialstate.hist r.dialstate.hist.length) {d : PastDial ι}
    (hd : d ∈ r.dialstate.hist) {now : Nat} (hle : now ≤ d.exp) (random : List (Node ι ip)) :
    d ∈ (r.scheduleTasks now random).dialstate.hist := by
  rcases r.scheduleTasks_cases now random with ⟨hds, -⟩ | ⟨hds, -⟩
  · rw [hds]
    exact hd
  · rw [hds, DialState.hist_newTasks, DialHistory.mem_expire hh]
    exact ⟨hd, hle⟩

theorem mem_hist_step {r : RunState ι ip} (h : r.Inv srv) {ev : Event ι ip} (hev : srv.Allowed r ev)
    {d : PastDial ι} (hd : d ∈ r.dialstate.hist) {now : Nat} (hle : now ≤ d.exp)
    (random : List (Node ι ip)) : d ∈ (srv.step r ev now random).dialstate.hist :=
  mem_hist_scheduleTasks (h.toOk.handle hev).dialer.heap (mem_hist_handle hd ev) hle random

/-! ## The guarantees -/

variable {r : RunState ι ip}

def staticServer : Server Nat Nat where
  MaxPeers := 4
  NoDiscovery := false
  StaticNodes := [⟨1, 0⟩]
  BootstrapNodes := []
  TrustedNodes := []
  NetRestrict := none
  Protocols := []
  selfID := 0

/-- Over every run, `dialing` is exactly the dial tasks started or queued, by the node each
dials, and no two of them dial one node. -/
theorem dialing_eq_pending_dials (hr : srv.Reachable r) :
    (∀ id f, r.dialstate.dialing.get id = some f ↔
        ∃ n, n.ID = id ∧ Task.dialTask ⟨f, n⟩ ∈ r.runningTasks ++ r.queuedTasks) ∧
      ((r.runningTasks ++ r.queuedTasks).filterMap Task.dialID).Nodup :=
  ⟨hr.inv.dialer.dialing_iff, hr.inv.dialer.nodup⟩

theorem dialing_eq_pending_dials_start :
    staticServer.Reachable (staticServer.start 0 []) ∧
      (∀ id f, (staticServer.start 0 []).dialstate.dialing.get id = some f ↔
        ∃ n, n.ID = id ∧ Task.dialTask ⟨f, n⟩ ∈
          (staticServer.start 0 []).runningTasks ++ (staticServer.start 0 []).queuedTasks) ∧
      (((staticServer.start 0 []).runningTasks ++ (staticServer.start 0 []).queuedTasks).filterMap
        Task.dialID).Nodup :=
  ⟨.start 0 [], dialing_eq_pending_dials (.start 0 [])⟩

omit [DecidableEq ip] in
theorem maxDynDials_dialer (srv : Server ι ip) :
    srv.dialer.maxDynDials = if srv.NoDiscovery then 0 else (srv.MaxPeers + 1).tdiv 2 :=
  (DialState.dialing_newDialState _ _ _ _ _).2

/-- Over every run, the peers and the dials in flight that were dialed dynamically are never
more than `(MaxPeers + 1) / 2`, and there are none without discovery. -/
theorem dynamic_dials_le (hr : srv.Reachable r) :
    ((dynNodes r.peers r.dialstate.dialing).card : Int) ≤
      max (if srv.NoDiscovery then 0 else (srv.MaxPeers + 1).tdiv 2) 0 := by
  have h := hr.inv
  rw [← maxDynDials_dialer, ← h.maxDynDials]
  exact h.dyn_le

theorem dynamic_dials_le_start :
    staticServer.Reachable (staticServer.start 0 []) ∧
      ((dynNodes (staticServer.start 0 []).peers (staticServer.start 0 []).dialstate.dialing).card : Int) ≤
        max (if staticServer.NoDiscovery then 0 else (staticServer.MaxPeers + 1).tdiv 2) 0 :=
  ⟨.start 0 [], dynamic_dials_le (.start 0 [])⟩

/-- Over every run, the peers neither trusted nor statically dialed are never more than
`MaxPeers`, and the local node is never a peer. -/
theorem peers_within_MaxPeers (hr : srv.Reachable r) :
    ((r.peers.count fun f => !connIs f (trustedConn ||| staticDialedConn) : Nat) : Int) ≤
        max srv.MaxPeers 0 ∧
      r.peers.contains srv.selfID = false :=
  ⟨hr.inv.plain_le, hr.inv.not_self⟩

theorem peers_within_MaxPeers_start :
    staticServer.Reachable (staticServer.start 0 []) ∧
      ((((staticServer.start 0 []).peers.count fun f => !connIs f (trustedConn ||| staticDialedConn) :
          Nat) : Int) ≤ max staticServer.MaxPeers 0 ∧
        (staticServer.start 0 []).peers.contains staticServer.selfID = false) :=
  ⟨.start 0 [], peers_within_MaxPeers (.start 0 [])⟩

/-- Over every run, at most `maxActiveDialTasks` tasks run, none is queued while a slot is free,
and a lookup is started or queued exactly while `lookupRunning`, never two. -/
theorem tasks_within_slots (hr : srv.Reachable r) :
    r.runningTasks.length ≤ maxActiveDialTasks ∧
      (r.queuedTasks ≠ [] → r.runningTasks.length = maxActiveDialTasks) ∧
      (r.runningTasks ++ r.queuedTasks).countP Task.isDiscover =
        if r.dialstate.lookupRunning then 1 else 0 :=
  ⟨hr.inv.running_le, hr.inv.full, hr.inv.dialer.lookup⟩

theorem tasks_within_slots_start :
    staticServer.Reachable (staticServer.start 0 []) ∧
      ((staticServer.start 0 []).runningTasks.length ≤ maxActiveDialTasks ∧
        ((staticServer.start 0 []).queuedTasks ≠ [] →
          (staticServer.start 0 []).runningTasks.length = maxActiveDialTasks) ∧
        ((staticServer.start 0 []).runningTasks ++ (staticServer.start 0 []).queuedTasks).countP
            Task.isDiscover = if (staticServer.start 0 []).dialstate.lookupRunning then 1 else 0) :=
  ⟨.start 0 [], tasks_within_slots (.start 0 [])⟩

def StepBy (srv : Server ι ip) (deadline : Nat) (r r' : RunState ι ip) : Prop :=
  ∃ ev now random, srv.Allowed r ev ∧ now ≤ deadline ∧ r' = srv.step r ev now random

/-- Once a dial task is done at `t0`, its node is not being dialed in any state the loop reaches
while every `scheduleTasks` runs by `t0 + dialHistoryExpiration`. -/
theorem not_redialed_before_expiration (hr : srv.Reachable r) {d : DialTask ι ip}
    (hd : Task.dialTask d ∈ r.runningTasks) (results : List (Node ι ip)) (t0 now : Nat)
    (random : List (Node ι ip)) (hnow : now ≤ t0 + dialHistoryExpiration) {r' : RunState ι ip}
    (hrun : Relation.ReflTransGen (srv.StepBy (t0 + dialHistoryExpiration))
      (srv.step r (.taskdone (.dialTask d) results t0) now random) r') :
    r'.dialstate.dialing.contains d.dest.ID = false := by
  -- along the run the state is reachable and the entry of the dial stays in the history
  have hall : srv.Reachable r' ∧
      (⟨d.dest.ID, t0 + dialHistoryExpiration⟩ : PastDial ι) ∈ r'.dialstate.hist := by
    induction hrun with
    | refl =>
      have hdone : srv.Allowed r (.taskdone (.dialTask d) results t0) := hd
      exact ⟨hr.step _ now random hdone,
        mem_hist_scheduleTasks (hr.inv.toOk.handle hdone).dialer.heap (mem_hist_taskdone r d results t0)
          hnow random⟩
    | tail _ hstep ih =>
      obtain ⟨ev, now', random', hev, hle, rfl⟩ := hstep
      exact ⟨ih.1.step ev now' random' hev, mem_hist_step ih.1.inv hev ih.2 hle random'⟩
  -- and a node with an entry in the history is not being dialed
  obtain ⟨hr', hmem⟩ := hall
  cases hc : r'.dialstate.dialing.contains d.dest.ID
  · rfl
  · have hfresh := hr'.inv.dialer.fresh _ hc
    rw [(DialHistory.contains_iff _ _).mpr ⟨_, hmem, rfl⟩] at hfresh
    cases hfresh

/-- The static node's first dial is done at `0`: the next iteration does not dial it again. -/
theorem not_redialed_static :
    staticServer.Reachable (staticServer.start 0 []) ∧
      Task.dialTask ⟨staticDialedConn, ⟨1, 0⟩⟩ ∈ (staticServer.start 0 []).runningTasks ∧
      (staticServer.step (staticServer.start 0 [])
        (.taskdone (.dialTask ⟨staticDialedConn, ⟨1, 0⟩⟩) [] 0) 0 []).dialstate.dialing.contains 1 = false :=
  ⟨.start 0 [], by decide,
    not_redialed_before_expiration (.start 0 []) (by decide) [] 0 0 [] (Nat.zero_le _) .refl⟩

end Server

end Zerium.P2p.Dial
