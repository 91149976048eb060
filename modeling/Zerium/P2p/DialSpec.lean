import Zerium.P2p.Dial

/-! # What the dialer keeps

`DialState.Inv` relates the dialer to the tasks it handed out that have not come back: `dialing`
is exactly the pending dial tasks, no two dialing one node, a lookup is pending exactly while
`lookupRunning`, and no node being dialed is in the history, which is a heap. `newTasks` is a run
of `NewTasks.Move`s, and every fact about it is proved once per move: the bookkeeping
(`Move.inv`), the count of dynamic dials (`Move.dyn`) and that what is dialed passed `checkDial`
(`Keeps`). The dynamic dials of one call never take the dynamic nodes past `maxDynDials`
(`card_dynNodes_newTasks`).
-/

namespace Zerium.P2p.Dial

set_option autoImplicit false

variable {ι ip : Type} [DecidableEq ι]

namespace Task

def dialID : Task ι ip → Option ι
  | .dialTask t => some t.dest.ID
  | .discoverTask _ => none
  | .waitExpireTask _ => none

def isDiscover : Task ι ip → Bool
  | .dialTask _ => false
  | .discoverTask _ => true
  | .waitExpireTask _ => false

end Task

def dynNodes (peers dialing : GoMap ι Nat) : Finset ι :=
  peers.keysWhere (connIs · dynDialedConn) ∪ dialing.keysWhere (connIs · dynDialedConn)

theorem card_dynNodes_le (peers dialing : GoMap ι Nat) :
    (dynNodes peers dialing).card ≤
      peers.count (connIs · dynDialedConn) + dialing.count (connIs · dynDialedConn) := by
  rw [← GoMap.card_keysWhere, ← GoMap.card_keysWhere]
  exact Finset.card_union_le _ _

/-! ## The dial history -/

namespace DialHistory

variable {h : List (PastDial ι)}

theorem contains_iff (h : List (PastDial ι)) (id : ι) :
    contains h id = true ↔ ∃ d ∈ h, d.id = id := by
  simp [contains]

theorem contains_add (h : List (PastDial ι)) (id id' : ι) (exp : Nat) :
    contains (add h id' exp) id = true ↔ id' = id ∨ contains h id = true := by
  have hp : (add h id' exp).Perm (⟨id', exp⟩ :: h) := GoHeap.push_perm h _
  rw [contains_iff, contains_iff]
  simp only [hp.mem_iff, List.mem_cons]
  constructor
  · rintro ⟨d, rfl | hd, rfl⟩
    · exact .inl rfl
    · exact .inr ⟨d, hd, rfl⟩
  · rintro (rfl | ⟨d, hd, rfl⟩)
    · exact ⟨_, .inl rfl, rfl⟩
    · exact ⟨d, .inr hd, rfl⟩

omit [DecidableEq ι] in
theorem isHeap_add (hh : GoHeap.IsHeap PastDial.exp h h.length) (id : ι) (exp : Nat) :
    GoHeap.IsHeap PastDial.exp (add h id exp) (add h id exp).length :=
  GoHeap.push_isHeap hh _

omit [DecidableEq ι] in
theorem expire_spec (hh : GoHeap.IsHeap PastDial.exp h h.length) (now : Nat) :
    GoHeap.IsHeap PastDial.exp (expire h now) (expire h now).length ∧
      (expire h now).Perm (h.filter fun d => !decide (d.exp < now)) :=
  GoHeap.popWhile_spec _ (fun x y hxy hy => by simp only [decide_eq_true_eq] at hy ⊢; omega)
    _ _ hh (Nat.le_refl _)

theorem contains_expire (hh : GoHeap.IsHeap PastDial.exp h h.length) (now : Nat) (id : ι) :
    contains (expire h now) id = true ↔ ∃ d ∈ h, d.id = id ∧ now ≤ d.exp := by
  rw [contains_iff]
  simp only [(expire_spec hh now).2.mem_iff, List.mem_filter, Bool.not_eq_true',
    decide_eq_false_iff_not, Nat.not_lt]
  constructor
  · rintro ⟨d, ⟨hd, hexp⟩, rfl⟩
    exact ⟨d, hd, rfl, hexp⟩
  · rintro ⟨d, hd, rfl, hexp⟩
    exact ⟨d, ⟨hd, hexp⟩, rfl⟩

omit [DecidableEq ι] in
theorem mem_expire (hh : GoHeap.IsHeap PastDial.exp h h.length) {now : Nat} {d : PastDial ι} :
    d ∈ expire h now ↔ d ∈ h ∧ now ≤ d.exp := by
  simp [(expire_spec hh now).2.mem_iff]

theorem contains_of_contains_expire (hh : GoHeap.IsHeap PastDial.exp h h.length) {now : Nat} {id : ι}
    (hc : contains (expire h now) id = true) : contains h id = true := by
  obtain ⟨d, hd, hid, -⟩ := (contains_expire hh now id).mp hc
  exact (contains_iff h id).mpr ⟨d, hd, hid⟩

end DialHistory

/-! ## `checkDial` -/

namespace DialState

theorem checkDial_eq_none_iff (s : DialState ι ip) (n : Node ι ip) (peers : GoMap ι Nat) :
    s.checkDial n peers = none ↔
      s.dialing.contains n.ID = false ∧ peers.contains n.ID = false ∧ s.ntab ≠ some n.ID ∧
        (∀ c, s.netrestrict = some c → c n.IP = true) ∧ DialHistory.contains s.hist n.ID = false := by
  unfold checkDial
  cases hr : s.netrestrict with
  | none => split_ifs <;> simp_all
  | some c => split_ifs <;> simp_all

theorem checkDial_eq_none_of_le {s s' : DialState ι ip} {n : Node ι ip} {peers : GoMap ι Nat}
    (h : s'.checkDial n peers = none) (hd : ∀ id, s.dialing.contains id = true → s'.dialing.contains id = true)
    (hn : s'.ntab = s.ntab) (hr : s'.netrestrict = s.netrestrict) (hh : s'.hist = s.hist) :
    s.checkDial n peers = none := by
  obtain ⟨hdial, hpeer, hself, hwhite, hrecent⟩ := (checkDial_eq_none_iff s' n peers).mp h
  refine (checkDial_eq_none_iff s n peers).mpr ⟨?_, hpeer, hn ▸ hself, hr ▸ hwhite, hh ▸ hrecent⟩
  cases hc : s.dialing.contains n.ID
  · rfl
  · rw [hd _ hc] at hdial
    cases hdial

/-! ## The bookkeeping -/

/-- What the dialer keeps, against the tasks it handed out that have not come back. -/
structure Inv (s : DialState ι ip) (pending : List (Task ι ip)) : Prop where
  /-- `dialing` is the pending dial tasks, by the node each dials. -/
  dialing_iff : ∀ id f, s.dialing.get id = some f ↔ ∃ n, n.ID = id ∧ Task.dialTask ⟨f, n⟩ ∈ pending
  /-- No two pending dial tasks dial one node. -/
  nodup : (pending.filterMap Task.dialID).Nodup
  flags : ∀ t, Task.dialTask t ∈ pending → t.flags = dynDialedConn ∨ t.flags = staticDialedConn
  /-- A lookup is pending while `lookupRunning`, and only then, and never two. -/
  lookup : pending.countP Task.isDiscover = if s.lookupRunning then 1 else 0
  /-- A static task dials the node it is kept under. -/
  static : ∀ id t, s.static.get id = some t → t.dest.ID = id ∧ t.flags = staticDialedConn
  /-- A node being dialed has no entry in the history. -/
  fresh : ∀ id, s.dialing.contains id = true → DialHistory.contains s.hist id = false
  heap : GoHeap.IsHeap PastDial.exp s.hist s.hist.length

variable {s : DialState ι ip} {pending : List (Task ι ip)}

theorem Inv.get_of_mem (h : s.Inv pending) {t : DialTask ι ip} (ht : .dialTask t ∈ pending) :
    s.dialing.get t.dest.ID = some t.flags :=
  (h.dialing_iff _ _).mpr ⟨t.dest, rfl, ht⟩

theorem Inv.mem_dialIDs (h : s.Inv pending) (id : ι) :
    id ∈ pending.filterMap Task.dialID ↔ s.dialing.contains id = true := by
  rw [List.mem_filterMap, GoMap.contains, Option.isSome_iff_exists]
  constructor
  · rintro ⟨u, hu, hid⟩
    cases u with
    | dialTask t =>
      obtain rfl : t.dest.ID = id := Option.some.inj hid
      exact ⟨t.flags, h.get_of_mem hu⟩
    | discoverTask _ => cases hid
    | waitExpireTask _ => cases hid
  · rintro ⟨f, hf⟩
    obtain ⟨n, rfl, hn⟩ := (h.dialing_iff _ _).mp hf
    exact ⟨_, hn, rfl⟩

theorem Inv.dial (h : s.Inv pending) {n : Node ι ip} {f : Nat} (hn : s.dialing.contains n.ID = false)
    (hfresh : DialHistory.contains s.hist n.ID = false)
    (hf : f = dynDialedConn ∨ f = staticDialedConn) :
    Inv { s with dialing := s.dialing.insert n.ID f } (pending ++ [.dialTask ⟨f, n⟩]) where
  dialing_iff id f' := by
    show (s.dialing.insert n.ID f).get id = some f' ↔ _
    rw [GoMap.get_insert]
    simp only [List.mem_append, List.mem_singleton, Task.dialTask.injEq, DialTask.mk.injEq]
    by_cases hid : id = n.ID
    · subst hid
      rw [if_pos rfl, Option.some.injEq]
      constructor
      · rintro rfl
        exact ⟨n, rfl, .inr ⟨rfl, rfl⟩⟩
      · rintro ⟨m, hm, hmem | ⟨rfl, rfl⟩⟩
        · -- a pending dial of the node would have it in `dialing`
          have hc := (h.mem_dialIDs _).mp (List.mem_filterMap.mpr ⟨_, hmem, by rw [Task.dialID, hm]⟩)
          rw [hn] at hc
          cases hc
        · rfl
    · rw [if_neg hid, h.dialing_iff]
      constructor
      · rintro ⟨m, hm, hmem⟩
        exact ⟨m, hm, .inl hmem⟩
      · rintro ⟨m, hm, hmem | ⟨-, rfl⟩⟩
        · exact ⟨m, hm, hmem⟩
        · exact absurd hm.symm hid
  nodup := by
    rw [List.filterMap_append, List.nodup_append_comm]
    refine List.nodup_cons.mpr ⟨fun hmem => ?_, h.nodup⟩
    have hc := (h.mem_dialIDs _).mp hmem
    rw [hn] at hc
    cases hc
  flags t ht := by
    rcases List.mem_append.mp ht with ht | ht
    · exact h.flags t ht
    · obtain rfl := Task.dialTask.inj (List.mem_singleton.mp ht)
      exact hf
  lookup := by
    rw [List.countP_append, h.lookup]
    rfl
  static := h.static
  fresh id hid := by
    change (s.dialing.insert n.ID f).contains id = true at hid
    rw [GoMap.contains_insert, Bool.or_eq_true, decide_eq_true_eq] at hid
    rcases hid with rfl | hid
    · exact hfresh
    · exact h.fresh id hid
  heap := h.heap

theorem Inv.eraseStatic (h : s.Inv pending) (id : ι) :
    Inv { s with static := s.static.erase id } pending :=
  { h with
    static := fun id' t ht => by
      change (s.static.erase id).get id' = some t at ht
      rw [GoMap.get_erase] at ht
      split_ifs at ht
      exact h.static id' t ht }

theorem Inv.startLookup (h : s.Inv pending) (hl : s.lookupRunning = false) :
    Inv { s with lookupRunning := true } (pending ++ [.discoverTask []]) where
  dialing_iff id f := by
    rw [h.dialing_iff]
    simp
  nodup := by
    simpa only [List.filterMap_append, List.filterMap_cons, List.filterMap_nil, Task.dialID,
      List.append_nil] using h.nodup
  flags t ht := h.flags t (by simpa using ht)
  lookup := by
    rw [List.countP_append, h.lookup, hl]
    rfl
  static := h.static
  fresh := h.fresh
  heap := h.heap

theorem Inv.waitExpire (h : s.Inv pending) (d : Int) : s.Inv (pending ++ [.waitExpireTask d]) where
  dialing_iff id f := by
    rw [h.dialing_iff]
    simp
  nodup := by
    simpa only [List.filterMap_append, List.filterMap_cons, List.filterMap_nil, Task.dialID,
      List.append_nil] using h.nodup
  flags t ht := h.flags t (by simpa using ht)
  lookup := by
    rw [List.countP_append, h.lookup]
    rfl
  static := h.static
  fresh := h.fresh
  heap := h.heap

theorem Inv.of_fields (h : s.Inv pending) {s' : DialState ι ip} (hd : s'.dialing = s.dialing)
    (hl : s'.lookupRunning = s.lookupRunning) (hs : s'.static = s.static) (hh : s'.hist = s.hist) :
    s'.Inv pending := by
  refine ⟨?_, h.nodup, h.flags, ?_, ?_, ?_, ?_⟩ <;> simp only [hd, hl, hs, hh]
  exacts [h.dialing_iff, h.lookup, h.static, h.fresh, h.heap]

omit [DecidableEq ι] in
@[simp] theorem dialing_expired (s : DialState ι ip) (now : Nat) : (s.expired now).dialing = s.dialing := by
  unfold DialState.expired
  split_ifs <;> rfl

omit [DecidableEq ι] in
@[simp] theorem maxDynDials_expired (s : DialState ι ip) (now : Nat) :
    (s.expired now).maxDynDials = s.maxDynDials := by
  unfold DialState.expired
  split_ifs <;> rfl

omit [DecidableEq ι] in
@[simp] theorem ntab_expired (s : DialState ι ip) (now : Nat) : (s.expired now).ntab = s.ntab := by
  unfold DialState.expired
  split_ifs <;> rfl

omit [DecidableEq ι] in
@[simp] theorem netrestrict_expired (s : DialState ι ip) (now : Nat) :
    (s.expired now).netrestrict = s.netrestrict := by
  unfold DialState.expired
  split_ifs <;> rfl

omit [DecidableEq ι] in
@[simp] theorem hist_expired (s : DialState ι ip) (now : Nat) :
    (s.expired now).hist = DialHistory.expire s.hist now := by
  unfold DialState.expired
  split_ifs <;> rfl

theorem Inv.expired (h : s.Inv pending) (now : Nat) : (s.expired now).Inv pending := by
  have hstart : (if s.start = 0 then { s with start := now } else s).Inv pending := by
    split_ifs
    · exact h.of_fields rfl rfl rfl rfl
    · exact h
  unfold DialState.expired
  generalize (if s.start = 0 then { s with start := now } else s) = s' at hstart ⊢
  refine ⟨hstart.dialing_iff, hstart.nodup, hstart.flags, hstart.lookup, hstart.static,
    fun id hid => ?_, (DialHistory.expire_spec hstart.heap now).1⟩
  -- expiring only drops entries
  cases hc : DialHistory.contains (DialHistory.expire s'.hist now) id
  · rfl
  · have := DialHistory.contains_of_contains_expire hstart.heap hc
    rw [hstart.fresh id hid] at this
    cases this

/-! ## `taskDone`, the static nodes and the start -/

theorem Inv.addStatic (h : s.Inv pending) (n : Node ι ip) : (s.addStatic n).Inv pending :=
  { h with
    static := fun id t ht => by
      change (s.static.insert n.ID ⟨staticDialedConn, n⟩).get id = some t at ht
      rw [GoMap.get_insert] at ht
      split_ifs at ht with hid
      · obtain rfl := Option.some.inj ht
        exact ⟨hid.symm, rfl⟩
      · exact h.static id t ht }

theorem Inv.removeStatic (h : s.Inv pending) (n : Node ι ip) : (s.removeStatic n).Inv pending :=
  h.eraseStatic n.ID

theorem dialing_addStatic (s : DialState ι ip) (n : Node ι ip) : (s.addStatic n).dialing = s.dialing := rfl

theorem maxDynDials_addStatic (s : DialState ι ip) (n : Node ι ip) :
    (s.addStatic n).maxDynDials = s.maxDynDials := rfl

theorem inv_newDialState (static bootnodes : List (Node ι ip)) (ntab : Option ι) (maxdyn : Int)
    (netrestrict : Option (ip → Bool)) : (newDialState static bootnodes ntab maxdyn netrestrict).Inv [] := by
  refine GoMap.foldl_invariant (fun s : DialState ι ip => s.Inv []) _ (fun s n h => h.addStatic n) _ _ ?_
  refine ⟨fun id f => ?_, List.nodup_nil, fun _ ht => absurd ht List.not_mem_nil, rfl,
    fun _ _ ht => ?_, fun _ hc => ?_, fun _ _ hc => absurd hc (Nat.not_lt_zero _)⟩
  · simp
  · cases ht
  · cases hc

theorem dialing_newDialState (static bootnodes : List (Node ι ip)) (ntab : Option ι) (maxdyn : Int)
    (netrestrict : Option (ip → Bool)) :
    (newDialState static bootnodes ntab maxdyn netrestrict).dialing = .empty ∧
      (newDialState static bootnodes ntab maxdyn netrestrict).maxDynDials = maxdyn :=
  GoMap.foldl_invariant (fun s : DialState ι ip => s.dialing = .empty ∧ s.maxDynDials = maxdyn)
    DialState.addStatic (fun _ _ h => h) _ _ ⟨rfl, rfl⟩

section TaskDone

variable [DecidableEq ip]

theorem Inv.erase_other (h : s.Inv pending) {t : Task ι ip} (ht : t.dialID = none) {s' : DialState ι ip}
    (hd : s'.dialing = s.dialing) (hs : s'.static = s.static) (hh : s'.hist = s.hist)
    (hl : (pending.erase t).countP Task.isDiscover = if s'.lookupRunning then 1 else 0) :
    s'.Inv (pending.erase t) where
  dialing_iff id f := by
    rw [hd, h.dialing_iff]
    -- a dial task is not the task taken out
    have hne : ∀ n : Node ι ip, Task.dialTask ⟨f, n⟩ ≠ t := fun n e => by rw [← e] at ht; cases ht
    simp only [List.mem_erase_of_ne (hne _)]
  nodup := (List.erase_sublist.filterMap _).nodup h.nodup
  flags u hu := h.flags u (List.mem_of_mem_erase hu)
  lookup := hl
  static := hs ▸ h.static
  fresh := hd ▸ hh ▸ h.fresh
  heap := hh ▸ h.heap

theorem Inv.taskDone_dial (h : s.Inv pending) {d : DialTask ι ip} (hd : Task.dialTask d ∈ pending) (now : Nat) :
    (s.taskDone (.dialTask d) now).Inv (pending.erase (.dialTask d)) := by
  -- no other pending task dials the node
  have hother : ∀ u ∈ pending.erase (.dialTask d), u.dialID ≠ some d.dest.ID := by
    intro u hu hid
    have hperm := (List.perm_cons_erase hd).filterMap Task.dialID
    rw [List.filterMap_cons, Task.dialID] at hperm
    exact (List.nodup_cons.mp (hperm.nodup_iff.mp h.nodup)).1 (List.mem_filterMap.mpr ⟨u, hu, hid⟩)
  refine ⟨fun id f => ?_, (List.erase_sublist.filterMap _).nodup h.nodup,
    fun u hu => h.flags u (List.mem_of_mem_erase hu), ?_, h.static, fun id hid => ?_,
    DialHistory.isHeap_add h.heap _ _⟩
  · show (s.dialing.erase d.dest.ID).get id = some f ↔ _
    rw [GoMap.get_erase]
    split_ifs with hid
    · subst hid
      constructor
      · intro e
        cases e
      · rintro ⟨n, hn, hmem⟩
        exact absurd (by rw [Task.dialID, hn]) (hother _ hmem)
    · rw [h.dialing_iff]
      have hne : ∀ n : Node ι ip, n.ID = id → Task.dialTask ⟨f, n⟩ ≠ .dialTask d :=
        fun n hn e => hid (by rw [← hn, ← Task.dialTask.inj e])
      constructor
      · rintro ⟨n, hn, hmem⟩
        exact ⟨n, hn, (List.mem_erase_of_ne (hne n hn)).mpr hmem⟩
      · rintro ⟨n, hn, hmem⟩
        exact ⟨n, hn, List.mem_of_mem_erase hmem⟩
  · have hnd : ¬ (Task.dialTask d ∈ pending ∧ (Task.dialTask d).isDiscover = true) := by
      simp [Task.isDiscover]
    rw [List.countP_erase, h.lookup, if_neg hnd, Nat.sub_zero]
    rfl
  · change (s.dialing.erase d.dest.ID).contains id = true at hid
    rw [GoMap.contains_erase, Bool.and_eq_true, decide_eq_true_eq] at hid
    change DialHistory.contains (DialHistory.add s.hist d.dest.ID _) id = false
    cases hc : DialHistory.contains (DialHistory.add s.hist d.dest.ID (now + dialHistoryExpiration)) id
    · rfl
    · rcases (DialHistory.contains_add _ _ _ _).mp hc with e | hc'
      · exact absurd e.symm hid.1
      · rw [h.fresh id hid.2] at hc'
        cases hc'

theorem Inv.taskDone_discover (h : s.Inv pending) {r : List (Node ι ip)} (hr : Task.discoverTask r ∈ pending)
    (results : List (Node ι ip)) (now : Nat) :
    (s.taskDone (.discoverTask results) now).Inv (pending.erase (.discoverTask r)) := by
  refine h.erase_other rfl rfl rfl rfl ?_
  have hpos : 0 < pending.countP Task.isDiscover := List.countP_pos_iff.mpr ⟨_, hr, rfl⟩
  rw [List.countP_erase, if_pos ⟨hr, rfl⟩, h.lookup]
  rw [h.lookup] at hpos
  split_ifs at hpos ⊢ <;> simp_all [DialState.taskDone]

theorem Inv.taskDone_wait (h : s.Inv pending) (d : Int) (now : Nat) :
    (s.taskDone (.waitExpireTask d) now).Inv (pending.erase (.waitExpireTask d)) := by
  refine h.erase_other rfl rfl rfl rfl ?_
  have hnd : ¬ (Task.waitExpireTask d ∈ pending ∧ (Task.waitExpireTask d : Task ι ip).isDiscover = true) := by
    simp [Task.isDiscover]
  rw [List.countP_erase, h.lookup, if_neg hnd, Nat.sub_zero]
  rfl

omit [DecidableEq ip] in
theorem dialing_taskDone_subset (peers : GoMap ι Nat) (s : DialState ι ip) (t : Task ι ip) (now : Nat) :
    dynNodes peers (s.taskDone t now).dialing ⊆ dynNodes peers s.dialing := by
  cases t with
  | dialTask d =>
    show dynNodes peers (s.dialing.erase d.dest.ID) ⊆ _
    rw [dynNodes, dynNodes, GoMap.keysWhere_erase]
    exact Finset.union_subset_union (subset_refl _) (Finset.erase_subset _ _)
  | discoverTask _ => exact subset_refl _
  | waitExpireTask _ => exact subset_refl _

omit [DecidableEq ip] in
theorem maxDynDials_taskDone (s : DialState ι ip) (t : Task ι ip) (now : Nat) :
    (s.taskDone t now).maxDynDials = s.maxDynDials := by
  cases t <;> rfl

end TaskDone

end DialState

/-! ## The moves of `newTasks` -/

namespace NewTasks

variable (peers : GoMap ι Nat)

/-- What one round of `newTasks` can do to its locals. -/
inductive Move : NewTasks ι ip → NewTasks ι ip → Prop
  | dialDyn {st : NewTasks ι ip} (n : Node ι ip) : st.s.checkDial n peers = none →
      Move st { st with s := { st.s with dialing := st.s.dialing.insert n.ID dynDialedConn },
                        newtasks := st.newtasks ++ [.dialTask ⟨dynDialedConn, n⟩],
                        needDynDials := st.needDynDials - 1 }
  | dialStatic {st : NewTasks ι ip} (id : ι) (t : DialTask ι ip) : st.s.static.get id = some t →
      st.s.checkDial t.dest peers = none →
      Move st { st with s := { st.s with dialing := st.s.dialing.insert id t.flags },
                        newtasks := st.newtasks ++ [.dialTask t] }
  | eraseStatic {st : NewTasks ι ip} (id : ι) :
      Move st { st with s := { st.s with static := st.s.static.erase id } }
  | bootnodes {st : NewTasks ι ip} (b : List (Node ι ip)) :
      Move st { st with s := { st.s with bootnodes := b } }
  | lookupBuf {st : NewTasks ι ip} (b : List (Node ι ip)) :
      Move st { st with s := { st.s with lookupBuf := b } }
  | startLookup {st : NewTasks ι ip} : st.s.lookupRunning = false →
      Move st { st with s := { st.s with lookupRunning := true },
                        newtasks := st.newtasks ++ [.discoverTask []] }
  | waitExpire {st : NewTasks ι ip} (d : Int) :
      Move st { st with newtasks := st.newtasks ++ [.waitExpireTask d] }

open Relation (ReflTransGen)

theorem dialDyn_moves (st : NewTasks ι ip) (n : Node ι ip) :
    ReflTransGen (Move peers) st (dialDyn peers st n) := by
  cases hc : st.s.checkDial n peers with
  | none =>
    simp only [dialDyn, addDial, hc]
    exact .single (.dialDyn n hc)
  | some e =>
    simp only [dialDyn, addDial, hc]
    exact .refl

theorem foldl_dialDyn_moves (l : List (Node ι ip)) (st : NewTasks ι ip) :
    ReflTransGen (Move peers) st (l.foldl (dialDyn peers) st) := by
  induction l generalizing st with
  | nil => exact .refl
  | cons n l ih => exact (dialDyn_moves peers st n).trans (ih _)

theorem dialStatic_moves (st : NewTasks ι ip) (id : ι) :
    ReflTransGen (Move peers) st (dialStatic peers st id) := by
  cases hg : st.s.static.get id with
  | none =>
    simp only [dialStatic, hg]
    exact .refl
  | some t =>
    cases hc : st.s.checkDial t.dest peers with
    | none =>
      simp only [dialStatic, hg, hc]
      exact .single (.dialStatic id t hg hc)
    | some e =>
      -- `errNotWhitelisted` and `errSelf` drop the node, the other errors leave it
      cases e <;> simp only [dialStatic, hg, hc]
      all_goals first | exact .refl | exact .single (.eraseStatic _)

theorem foldl_dialStatic_moves (l : List ι) (st : NewTasks ι ip) :
    ReflTransGen (Move peers) st (l.foldl (dialStatic peers) st) := by
  induction l generalizing st with
  | nil => exact .refl
  | cons id l ih => exact (dialStatic_moves peers st id).trans (ih _)

theorem dialBootnode_moves (now : Nat) (st : NewTasks ι ip) :
    ReflTransGen (Move peers) st (dialBootnode peers now st) := by
  unfold dialBootnode
  split_ifs
  · cases hb : st.s.bootnodes with
    | nil => exact .refl
    | cons b rest => exact .head (.bootnodes _) (dialDyn_moves peers _ b)
  · exact .refl

theorem dialRandom_moves (random : List (Node ι ip)) (st : NewTasks ι ip) :
    ReflTransGen (Move peers) st (dialRandom peers random st) := by
  simp only [dialRandom]
  split_ifs
  · exact foldl_dialDyn_moves peers _ st
  · exact .refl

theorem dialLookup_moves :
    ∀ (l : List (Node ι ip)) (st : NewTasks ι ip), ReflTransGen (Move peers) st (dialLookup peers l st).1
  | [], _ => .refl
  | n :: rest, st => by
    unfold dialLookup
    split_ifs
    · exact (dialDyn_moves peers st n).trans (dialLookup_moves rest _)
    · exact .refl

theorem startLookup_moves (st : NewTasks ι ip) : ReflTransGen (Move peers) st (startLookup st) := by
  unfold startLookup
  split_ifs with h
  · exact .single (.startLookup h.2)
  · exact .refl

theorem waitExpire_moves (nRunning now : Nat) (st : NewTasks ι ip) :
    ReflTransGen (Move peers) st (waitExpire nRunning now st) := by
  unfold waitExpire
  cases st.s.hist with
  | nil => exact .refl
  | cons d _ =>
    split_ifs
    · exact .single (.waitExpire _)
    · exact .refl

/-! ### The bookkeeping, move by move -/

variable {peers} {pending : List (Task ι ip)}

theorem Move.inv {st st' : NewTasks ι ip} (hm : Move peers st st')
    (h : st.s.Inv (pending ++ st.newtasks)) : st'.s.Inv (pending ++ st'.newtasks) := by
  cases hm with
  | dialDyn n hc =>
    obtain ⟨hdial, -, -, -, hrecent⟩ := (DialState.checkDial_eq_none_iff _ _ _).mp hc
    rw [← List.append_assoc]
    exact h.dial hdial hrecent (.inl rfl)
  | dialStatic id t hg hc =>
    obtain ⟨hdial, -, -, -, hrecent⟩ := (DialState.checkDial_eq_none_iff _ _ _).mp hc
    obtain ⟨rfl, hflags⟩ := h.static id t hg
    rw [← List.append_assoc]
    exact h.dial hdial hrecent (.inr hflags)
  | eraseStatic id => exact h.eraseStatic id
  | bootnodes b => exact h.of_fields rfl rfl rfl rfl
  | lookupBuf b => exact h.of_fields rfl rfl rfl rfl
  | startLookup hl =>
    rw [← List.append_assoc]
    exact h.startLookup hl
  | waitExpire d =>
    rw [← List.append_assoc]
    exact h.waitExpire d

theorem Moves.inv {st st' : NewTasks ι ip} (hm : ReflTransGen (Move peers) st st')
    (h : st.s.Inv (pending ++ st.newtasks)) : st'.s.Inv (pending ++ st'.newtasks) := by
  induction hm with
  | refl => exact h
  | tail _ hstep ih => exact hstep.inv ih

/-! ### Dynamic dials, move by move -/

theorem Move.dyn {st st' : NewTasks ι ip} (hm : Move peers st st')
    (h : st.s.Inv (pending ++ st.newtasks)) :
    ((dynNodes peers st'.s.dialing).card : Int) + st'.needDynDials =
        (dynNodes peers st.s.dialing).card + st.needDynDials ∧
      st'.needDynDials ≤ st.needDynDials := by
  cases hm with
  | dialDyn n hc =>
    obtain ⟨hdial, hpeer, -, -, -⟩ := (DialState.checkDial_eq_none_iff _ _ _).mp hc
    have hnot : n.ID ∉ dynNodes peers st.s.dialing := by
      simp [dynNodes, GoMap.mem_keysWhere, GoMap.contains] at hdial hpeer ⊢
      simp [hdial, hpeer]
    have hins : dynNodes peers (st.s.dialing.insert n.ID dynDialedConn) =
        Insert.insert n.ID (dynNodes peers st.s.dialing) := by
      rw [dynNodes, GoMap.keysWhere_insert, if_pos (by decide), Finset.union_insert]
      rfl
    refine ⟨?_, by simp⟩
    show ((dynNodes peers (st.s.dialing.insert n.ID dynDialedConn)).card : Int) + (st.needDynDials - 1) = _
    rw [hins, Finset.card_insert_of_notMem hnot]
    push_cast
    ring
  | dialStatic id t hg hc =>
    obtain ⟨hdial, -, -, -, -⟩ := (DialState.checkDial_eq_none_iff _ _ _).mp hc
    obtain ⟨rfl, hflags⟩ := h.static id t hg
    have heq : dynNodes peers (st.s.dialing.insert t.dest.ID t.flags) = dynNodes peers st.s.dialing := by
      have hnot : t.dest.ID ∉ st.s.dialing.keysWhere (connIs · dynDialedConn) := by
        simp [GoMap.mem_keysWhere, GoMap.contains] at hdial ⊢
        simp [hdial]
      rw [dynNodes, dynNodes, GoMap.keysWhere_insert, hflags, if_neg (by decide),
        Finset.erase_eq_of_notMem hnot]
    exact ⟨by rw [heq], le_refl _⟩
  | eraseStatic id => exact ⟨rfl, le_refl _⟩
  | bootnodes b => exact ⟨rfl, le_refl _⟩
  | lookupBuf b => exact ⟨rfl, le_refl _⟩
  | startLookup hl => exact ⟨rfl, le_refl _⟩
  | waitExpire d => exact ⟨rfl, le_refl _⟩

theorem Moves.dyn {st st' : NewTasks ι ip} (hm : ReflTransGen (Move peers) st st')
    (h : st.s.Inv (pending ++ st.newtasks)) :
    ((dynNodes peers st'.s.dialing).card : Int) + st'.needDynDials =
        (dynNodes peers st.s.dialing).card + st.needDynDials ∧
      st'.needDynDials ≤ st.needDynDials := by
  induction hm with
  | refl => exact ⟨rfl, le_refl _⟩
  | tail hms hstep ih =>
    obtain ⟨hsum, hle⟩ := hstep.dyn (Moves.inv hms h)
    exact ⟨hsum.trans ih.1, hle.trans ih.2⟩

/-! ### What is dialed passed `checkDial` -/

/-- What the locals `st` keep of the earlier `st₀`: the fields no round writes, every node
`st₀` was dialing, and for each dial task added, that its node passed `checkDial` against
`st₀`. -/
structure Keeps (peers : GoMap ι Nat) (st₀ st : NewTasks ι ip) : Prop where
  maxDynDials : st.s.maxDynDials = st₀.s.maxDynDials
  ntab : st.s.ntab = st₀.s.ntab
  netrestrict : st.s.netrestrict = st₀.s.netrestrict
  hist : st.s.hist = st₀.s.hist
  dialing : ∀ id, st₀.s.dialing.contains id = true → st.s.dialing.contains id = true
  checked : ∀ t, Task.dialTask t ∈ st.newtasks →
    Task.dialTask t ∈ st₀.newtasks ∨ st₀.s.checkDial t.dest peers = none

theorem Keeps.refl (st : NewTasks ι ip) : Keeps peers st st :=
  ⟨rfl, rfl, rfl, rfl, fun _ h => h, fun _ ht => .inl ht⟩

theorem Keeps.move {st₀ st st' : NewTasks ι ip} (hk : Keeps peers st₀ st) (hm : Move peers st st') :
    Keeps peers st₀ st' := by
  -- a dial checked against `st` is checked against `st₀`, which dials fewer nodes
  have hback : ∀ n : Node ι ip, st.s.checkDial n peers = none → st₀.s.checkDial n peers = none :=
    fun n hc => DialState.checkDial_eq_none_of_le hc hk.dialing hk.ntab hk.netrestrict hk.hist
  cases hm with
  | dialDyn n hc =>
    refine ⟨hk.maxDynDials, hk.ntab, hk.netrestrict, hk.hist, fun id hid => ?_, fun t ht => ?_⟩
    · show (st.s.dialing.insert _ _).contains id = true
      simp [hk.dialing id hid]
    · rcases List.mem_append.mp ht with ht | ht
      · exact hk.checked t ht
      · obtain rfl := Task.dialTask.inj (List.mem_singleton.mp ht)
        exact .inr (hback n hc)
  | dialStatic id t hg hc =>
    refine ⟨hk.maxDynDials, hk.ntab, hk.netrestrict, hk.hist, fun id' hid => ?_, fun t' ht => ?_⟩
    · show (st.s.dialing.insert _ _).contains id' = true
      simp [hk.dialing id' hid]
    · rcases List.mem_append.mp ht with ht | ht
      · exact hk.checked t' ht
      · obtain rfl := Task.dialTask.inj (List.mem_singleton.mp ht)
        exact .inr (hback _ hc)
  | eraseStatic id => exact ⟨hk.maxDynDials, hk.ntab, hk.netrestrict, hk.hist, hk.dialing, hk.checked⟩
  | bootnodes b => exact ⟨hk.maxDynDials, hk.ntab, hk.netrestrict, hk.hist, hk.dialing, hk.checked⟩
  | lookupBuf b => exact ⟨hk.maxDynDials, hk.ntab, hk.netrestrict, hk.hist, hk.dialing, hk.checked⟩
  | startLookup hl =>
    refine { hk with checked := fun t ht => ?_ }
    rcases List.mem_append.mp ht with ht | ht
    · exact hk.checked t ht
    · cases List.mem_singleton.mp ht
  | waitExpire d =>
    refine { hk with checked := fun t ht => ?_ }
    rcases List.mem_append.mp ht with ht | ht
    · exact hk.checked t ht
    · cases List.mem_singleton.mp ht

theorem Moves.keeps {st₀ st : NewTasks ι ip} (hm : ReflTransGen (Move peers) st₀ st) :
    Keeps peers st₀ st := by
  induction hm with
  | refl => exact Keeps.refl st₀
  | tail _ hstep ih => exact ih.move hstep

/-! ### The dials needed, round by round -/

variable (peers)

theorem needDynDials_dialDyn (st : NewTasks ι ip) (n : Node ι ip) :
    st.needDynDials - 1 ≤ (dialDyn peers st n).needDynDials := by
  cases hc : st.s.checkDial n peers with
  | none => simp [dialDyn, addDial, hc]
  | some e => simp [dialDyn, addDial, hc]

theorem needDynDials_foldl_dialDyn (l : List (Node ι ip)) (st : NewTasks ι ip) :
    st.needDynDials - l.length ≤ (l.foldl (dialDyn peers) st).needDynDials := by
  induction l generalizing st with
  | nil => simp
  | cons n l ih =>
    have h₁ := needDynDials_dialDyn peers st n
    have h₂ := ih (dialDyn peers st n)
    rw [List.foldl_cons, List.length_cons]
    push_cast
    omega

theorem needDynDials_foldl_dialStatic (l : List ι) (st : NewTasks ι ip) :
    (l.foldl (dialStatic peers) st).needDynDials = st.needDynDials := by
  induction l generalizing st with
  | nil => rfl
  | cons id l ih =>
    rw [List.foldl_cons, ih]
    cases hg : st.s.static.get id with
    | none => simp only [dialStatic, hg]
    | some t =>
      cases hc : st.s.checkDial t.dest peers with
      | none => simp only [dialStatic, hg, hc]
      | some e => cases e <;> simp only [dialStatic, hg, hc]

theorem min_le_needDynDials_dialBootnode (now : Nat) (st : NewTasks ι ip) :
    min st.needDynDials 0 ≤ (dialBootnode peers now st).needDynDials := by
  unfold dialBootnode
  split_ifs with h
  · cases hb : st.s.bootnodes with
    | nil => exact min_le_left _ _
    | cons b rest =>
      -- the fallback dials only while a dial is needed
      dsimp only
      have := needDynDials_dialDyn peers { st with s := { st.s with bootnodes := rest ++ [b] } } b
      simp only at this
      omega
  · exact min_le_left _ _

omit [DecidableEq ι] in
theorem needDynDials_startLookup (st : NewTasks ι ip) :
    (startLookup st).needDynDials = st.needDynDials := by
  unfold startLookup
  split_ifs <;> rfl

omit [DecidableEq ι] in
theorem needDynDials_waitExpire (nRunning now : Nat) (st : NewTasks ι ip) :
    (waitExpire nRunning now st).needDynDials = st.needDynDials := by
  unfold waitExpire
  cases st.s.hist with
  | nil => rfl
  | cons d _ => split_ifs <;> rfl

theorem tdiv_two_le_sub {n : Int} (h : 0 < n.tdiv 2) : n.tdiv 2 ≤ n - n.tdiv 2 := by
  have hn : 0 ≤ n := by
    by_contra hneg
    have hneg' : n.tdiv 2 = -((-n).tdiv 2) := by rw [Int.neg_tdiv, neg_neg]
    rw [hneg', Int.tdiv_eq_ediv_of_nonneg (by omega)] at h
    omega
  rw [Int.tdiv_eq_ediv_of_nonneg hn] at h ⊢
  omega

theorem min_le_needDynDials_dialRandom (random : List (Node ι ip)) (st : NewTasks ι ip) :
    min st.needDynDials 0 ≤ (dialRandom peers random st).needDynDials := by
  simp only [dialRandom]
  split_ifs with h
  · have hfold := needDynDials_foldl_dialDyn peers (random.take (st.needDynDials.tdiv 2).toNat) st
    have hlen : ((random.take (st.needDynDials.tdiv 2).toNat).length : Int) ≤ st.needDynDials.tdiv 2 := by
      rw [List.length_take]
      omega
    have := tdiv_two_le_sub h
    omega
  · exact min_le_left _ _

theorem min_le_needDynDials_dialLookup :
    ∀ (l : List (Node ι ip)) (st : NewTasks ι ip),
      min st.needDynDials 0 ≤ (dialLookup peers l st).1.needDynDials
  | [], _ => le_refl _ |>.trans' (min_le_left _ _) |>.trans (le_refl _)
  | n :: rest, st => by
    unfold dialLookup
    split_ifs with h
    · have h₁ := needDynDials_dialDyn peers st n
      have h₂ := min_le_needDynDials_dialLookup rest (dialDyn peers st n)
      omega
    · exact min_le_left _ _

end NewTasks

/-! ## `newTasks` -/

namespace DialState

open NewTasks

variable (s : DialState ι ip) (nRunning : Nat) (peers : GoMap ι Nat) (now : Nat) (random : List (Node ι ip))

theorem newTasks_moves :
    ∃ st, Relation.ReflTransGen (Move peers) ⟨s.expired now, [], (s.expired now).needDynDials peers⟩ st ∧
      s.newTasks nRunning peers now random = (st.s, st.newtasks) ∧
      min ((s.expired now).needDynDials peers) 0 ≤ st.needDynDials := by
  set st₀ : NewTasks ι ip := ⟨s.expired now, [], (s.expired now).needDynDials peers⟩
  set st₁ := (s.expired now).static.keys.foldl (dialStatic peers) st₀
  set st₂ := dialBootnode peers now st₁
  set st₃ := dialRandom peers random st₂
  set r := dialLookup peers st₃.s.lookupBuf st₃
  set st₄ : NewTasks ι ip := { r.1 with s := { r.1.s with lookupBuf := r.2 } }
  set st₅ := waitExpire nRunning now (startLookup st₄)
  have hmoves : Relation.ReflTransGen (Move peers) st₀ st₅ :=
    (foldl_dialStatic_moves peers _ st₀).trans <| (dialBootnode_moves peers now st₁).trans <|
      (dialRandom_moves peers random st₂).trans <| (dialLookup_moves peers _ st₃).trans <|
        (Relation.ReflTransGen.single (.lookupBuf r.2)).trans <|
          (startLookup_moves peers st₄).trans (waitExpire_moves peers nRunning now _)
  -- the bound on the dials needed, round by round
  have h₁ : st₁.needDynDials = st₀.needDynDials := needDynDials_foldl_dialStatic peers _ st₀
  have h₂ : min st₁.needDynDials 0 ≤ st₂.needDynDials := min_le_needDynDials_dialBootnode peers now st₁
  have h₃ : min st₂.needDynDials 0 ≤ st₃.needDynDials := min_le_needDynDials_dialRandom peers random st₂
  have h₄ : min st₃.needDynDials 0 ≤ r.1.needDynDials :=
    min_le_needDynDials_dialLookup peers st₃.s.lookupBuf st₃
  have h₅ : st₅.needDynDials = r.1.needDynDials :=
    (needDynDials_waitExpire nRunning now _).trans (needDynDials_startLookup st₄)
  refine ⟨st₅, hmoves, rfl, ?_⟩
  show min st₀.needDynDials 0 ≤ st₅.needDynDials
  omega

theorem hist_newTasks : (s.newTasks nRunning peers now random).1.hist = DialHistory.expire s.hist now := by
  obtain ⟨st, hm, heq, -⟩ := newTasks_moves s nRunning peers now random
  rw [heq]
  exact (Moves.keeps hm).hist.trans (hist_expired s now)

theorem newTasks_inv {pending : List (Task ι ip)} (h : s.Inv pending) :
    (s.newTasks nRunning peers now random).1.Inv (pending ++ (s.newTasks nRunning peers now random).2) := by
  obtain ⟨st, hm, heq, -⟩ := newTasks_moves s nRunning peers now random
  rw [heq]
  exact Moves.inv hm (by simpa using h.expired now)

theorem maxDynDials_newTasks :
    (s.newTasks nRunning peers now random).1.maxDynDials = s.maxDynDials := by
  obtain ⟨st, hm, heq, -⟩ := newTasks_moves s nRunning peers now random
  rw [heq]
  exact (Moves.keeps hm).maxDynDials.trans (maxDynDials_expired s now)

theorem card_dynNodes_newTasks {pending : List (Task ι ip)} (h : s.Inv pending)
    (hdyn : ((dynNodes peers s.dialing).card : Int) ≤ max s.maxDynDials 0) :
    ((dynNodes peers (s.newTasks nRunning peers now random).1.dialing).card : Int) ≤
      max (s.newTasks nRunning peers now random).1.maxDynDials 0 := by
  rw [maxDynDials_newTasks]
  obtain ⟨st, hm, heq, hneed⟩ := newTasks_moves s nRunning peers now random
  obtain ⟨hsum, hle⟩ := Moves.dyn hm (by simpa using h.expired now)
  rw [heq]
  dsimp only at hsum hle ⊢
  simp only [needDynDials, dialing_expired, maxDynDials_expired] at hsum hle hneed
  have hcount := card_dynNodes_le peers s.dialing
  -- with dials needed, the count ends at most at `maxDynDials`; with none, it does not move
  omega

/-- `newTasks` dials only nodes that are not being dialed, not connected, not the local node and
inside `netrestrict`, and whose entries in the history all expired before `now`. -/
theorem newTasks_dials_checked (hh : GoHeap.IsHeap PastDial.exp s.hist s.hist.length)
    {t : DialTask ι ip} (ht : Task.dialTask t ∈ (s.newTasks nRunning peers now random).2) :
    s.dialing.contains t.dest.ID = false ∧ peers.contains t.dest.ID = false ∧
      s.ntab ≠ some t.dest.ID ∧ (∀ c, s.netrestrict = some c → c t.dest.IP = true) ∧
      ∀ d ∈ s.hist, d.id = t.dest.ID → d.exp < now := by
  obtain ⟨st, hm, heq, -⟩ := newTasks_moves s nRunning peers now random
  rw [heq] at ht
  -- every dial of the call passed `checkDial` against the dialer with its history expired
  have hc : (s.expired now).checkDial t.dest peers = none := by
    rcases (Moves.keeps hm).checked t ht with hnil | hc
    · exact absurd hnil List.not_mem_nil
    · exact hc
  obtain ⟨hdial, hpeer, hself, hwhite, hrecent⟩ := (checkDial_eq_none_iff _ _ _).mp hc
  rw [dialing_expired] at hdial
  rw [ntab_expired] at hself
  rw [netrestrict_expired] at hwhite
  rw [hist_expired] at hrecent
  refine ⟨hdial, hpeer, hself, hwhite, fun d hd hid => Nat.lt_of_not_le fun hle => ?_⟩
  -- an entry expiring at `now` or later is still there after `expire`
  have hkept := (DialHistory.contains_expire hh now t.dest.ID).mpr ⟨d, hd, hid, hle⟩
  rw [hrecent] at hkept
  cases hkept

def staticDialer : DialState Nat Nat := newDialState [⟨1, 0⟩] [] (some 0) 2 none

theorem newTasks_dials_checked_static :
    GoHeap.IsHeap PastDial.exp staticDialer.hist staticDialer.hist.length ∧
      Task.dialTask ⟨staticDialedConn, ⟨1, 0⟩⟩ ∈ (staticDialer.newTasks 0 .empty 0 []).2 ∧
      (staticDialer.dialing.contains 1 = false ∧ (GoMap.empty : GoMap Nat Nat).contains 1 = false ∧
        staticDialer.ntab ≠ some 1 ∧ (∀ c, staticDialer.netrestrict = some c → c 0 = true) ∧
        ∀ d ∈ staticDialer.hist, d.id = 1 → d.exp < 0) := by
  have hh : GoHeap.IsHeap PastDial.exp staticDialer.hist staticDialer.hist.length :=
    fun _ _ hc _ => absurd hc (Nat.not_lt_zero _)
  have ht : Task.dialTask ⟨staticDialedConn, ⟨1, 0⟩⟩ ∈ (staticDialer.newTasks 0 .empty 0 []).2 := by
    decide
  exact ⟨hh, ht, newTasks_dials_checked staticDialer 0 .empty 0 [] hh ht⟩

end DialState

end Zerium.P2p.Dial
