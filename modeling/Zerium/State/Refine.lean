import Zerium.State.Revert

/-! # The state database refines a map of accounts

Behind its caches, its dirty set and its journal, the state database behaves as a plain map
from addresses to accounts, with a refund, the logs and the preimages. `Observation.apply` is
that machine: what each call does to what the accessors read, stated on the observation alone.
The observation after a run of calls is the machine's run over the same calls (`observe_run`).

The EVM opens a frame for each call it makes: a `Snapshot`, the frame's calls, and a revert to
the snapshot when the frame fails (`Frame`, `exec`). Frames nest, and a failed frame may hold
frames that did not fail. Executing them never panics, and the observation at the end is the
machine's run over the calls of the frames that did not fail, at any depth (`exec_kept`).
-/

namespace Zerium.State

set_option autoImplicit false

open Zerium.Trie (zeroHash bytesToHash)
open UndoLog

namespace Observation

def update (ob : Observation) (a : Address) (f : StateObject.View → StateObject.View) : Observation :=
  ob.setAccount a (some (f (ob.accountOrNew a)))

def apply (ob : Observation) : StateDB.Op → Observation
  | .createAccount addr =>
    ob.setAccount addr (some { StateObject.View.empty ob.db with
      balance := ((ob.accounts addr).map (·.balance)).getD 0 })
  | .addBalance addr amount => ob.update addr fun v => { v with balance := v.balance + amount }
  | .subBalance addr amount => ob.update addr fun v => { v with balance := v.balance - amount }
  | .setBalance addr amount => ob.update addr fun v => { v with balance := amount }
  | .setNonce addr nonce => ob.update addr fun v => { v with nonce := nonce }
  | .setCode addr code =>
    ob.update addr fun v => { v with codeHash := ob.db.keccak code, code := some code, codeSize := code.length }
  | .setState addr key value => ob.update addr fun v => { v with storage := Function.update v.storage key value }
  | .suicide addr =>
    match ob.accounts addr with
    | none => ob
    | some v => ob.setAccount addr (some { v with suicided := true, balance := 0 })
  | .addRefund gas => { ob with refund := ob.refund + gas }
  | .addLog log =>
    let log := { log with txHash := ob.thash, blockHash := ob.bhash, txIndex := ob.txIndex, index := ob.logSize }
    { ob with logs := Function.update ob.logs ob.thash (ob.logs ob.thash ++ [log]), logSize := ob.logSize + 1 }
  | .addPreimage hash preimage =>
    match ob.preimages hash with
    | some _ => ob
    | none => { ob with preimages := Function.update ob.preimages hash (some preimage) }
  | .exist _ | .empty _ | .getBalance _ | .getNonce _ | .getCode _ | .getCodeSize _ | .getCodeHash _
  | .getState _ _ | .hasSuicided _ | .snapshot => ob

def run (ops : List StateDB.Op) (ob : Observation) : Observation := ops.foldl apply ob

end Observation

namespace StateDB

section Refinement

variable {s : StateDB} {a : Address}

theorem observe_write_update {o : StateObject} {t : StateDB} (hview : o.view s.db = s.observe.accountOrNew a)
    (hobs : t.observe = s.observe.setAccount a (some (o.view s.db))) (e : JournalEntry) {w : StateObject}
    (haddr : w.address = a) (hdel : w.deleted = false) {f : StateObject.View → StateObject.View}
    (hw : w.view s.db = f (o.view s.db)) :
    ((t.appendJournal e).written w).observe = s.observe.update a f := by
  have hdb : t.db = s.db := congrArg Observation.db hobs
  rw [observe_write t e hdel, haddr, hobs, hdb, hw, hview, Observation.setAccount_setAccount]
  rfl

theorem observe_SetBalance (h : s.Inv) (a : Address) (amount : Int) :
    (s.SetBalance a amount).observe = s.observe.apply (.setBalance a amount) := by
  obtain ⟨o, t, hg, hlive, -, hview, hobs⟩ := GetOrNewStateObject_spec h a
  simp only [StateDB.SetBalance, hg, StateObject.SetBalance, StateObject.setBalance]
  show _ = s.observe.update a fun v => { v with balance := amount }
  refine observe_write_update hview hobs _ ?_ ?_ ?_
  exacts [hlive.address, hlive.deleted, by simp [StateObject.view_eq]]

theorem observe_AddBalance (h : s.Inv) (a : Address) (amount : Int) :
    (s.AddBalance a amount).observe = s.observe.apply (.addBalance a amount) := by
  obtain ⟨o, t, hg, hlive, -, hview, hobs⟩ := GetOrNewStateObject_spec h a
  simp only [StateDB.AddBalance, hg, StateObject.AddBalance]
  show _ = s.observe.update a fun v => { v with balance := v.balance + amount }
  split
  · rename_i hzero
    subst hzero
    split
    · refine observe_write_update hview hobs _ ?_ ?_ ?_
      exacts [hlive.address, hlive.deleted, by simp [StateObject.view_eq]]
    · rw [hobs, Observation.update, hview]
      simp
  · simp only [StateObject.SetBalance, StateObject.setBalance]
    refine observe_write_update hview hobs _ ?_ ?_ ?_
    exacts [hlive.address, hlive.deleted, by simp [StateObject.view_eq]]

theorem observe_SubBalance (h : s.Inv) (a : Address) (amount : Int) :
    (s.SubBalance a amount).observe = s.observe.apply (.subBalance a amount) := by
  obtain ⟨o, t, hg, hlive, -, hview, hobs⟩ := GetOrNewStateObject_spec h a
  simp only [StateDB.SubBalance, hg, StateObject.SubBalance]
  show _ = s.observe.update a fun v => { v with balance := v.balance - amount }
  split
  · rename_i hzero
    subst hzero
    rw [hobs, Observation.update, hview]
    simp
  · simp only [StateObject.SetBalance, StateObject.setBalance]
    refine observe_write_update hview hobs _ ?_ ?_ ?_
    exacts [hlive.address, hlive.deleted, by simp [StateObject.view_eq]]

theorem observe_SetNonce (h : s.Inv) (a : Address) (nonce : Nat) :
    (s.SetNonce a nonce).observe = s.observe.apply (.setNonce a nonce) := by
  obtain ⟨o, t, hg, hlive, -, hview, hobs⟩ := GetOrNewStateObject_spec h a
  simp only [StateDB.SetNonce, hg, StateObject.SetNonce, StateObject.setNonce]
  show _ = s.observe.update a fun v => { v with nonce := nonce }
  refine observe_write_update hview hobs _ ?_ ?_ ?_
  exacts [hlive.address, hlive.deleted, by simp [StateObject.view_eq]]

theorem observe_SetCode (h : s.Inv) (a : Address) (code : List UInt8) :
    (s.SetCode a code).observe = s.observe.apply (.setCode a code) := by
  obtain ⟨o, t, hg, hlive, -, hview, hobs⟩ := GetOrNewStateObject_spec h a
  have hdb : t.db = s.db := congrArg Observation.db hobs
  have hsnd := StateObject.Code_snd t.db o
  rcases hc : o.Code t.db with ⟨prevcode, o₁⟩
  rw [hc] at hsnd
  dsimp only at hsnd
  subst hsnd
  simp only [StateDB.SetCode, hg, StateObject.SetCode, hc, StateObject.setCode]
  show _ = s.observe.update a fun v =>
    { v with codeHash := s.db.keccak code, code := some code, codeSize := code.length }
  refine observe_write_update hview hobs _ ?_ ?_ ?_
  exacts [hlive.address, hlive.deleted,
    by simp [StateObject.view_eq, StateObject.codeOf, StateObject.codeSizeOf, hdb]]

theorem observe_SetState (h : s.Inv) (a : Address) (key value : List UInt8) :
    (s.SetState a key value).observe = s.observe.apply (.setState a key value) := by
  obtain ⟨o, t, hg, hlive, -, hview, hobs⟩ := GetOrNewStateObject_spec h a
  have hdb : t.db = s.db := congrArg Observation.db hobs
  have hview₁ := StateObject.view_GetState t.db o key
  obtain ⟨tr, cached, hsnd⟩ := StateObject.GetState_snd t.db o key
  rcases hc : o.GetState t.db key with ⟨prevalue, o₁⟩
  rw [hc] at hsnd hview₁
  dsimp only at hsnd hview₁
  simp only [StateDB.SetState, hg, StateObject.SetState, hc, StateObject.setState]
  show _ = s.observe.update a fun v => { v with storage := Function.update v.storage key value }
  refine observe_write_update hview hobs _ ?_ ?_ ?_
  · rw [hsnd]
    exact hlive.address
  · rw [hsnd]
    exact hlive.deleted
  · rw [StateObject.view_setStorage, ← hdb, hview₁]

theorem observe_CreateAccount (h : s.Inv) (a : Address) :
    (s.CreateAccount a).observe = s.observe.apply (.createAccount a) := by
  rcases hg : s.getStateObject a with ⟨_ | p, s₁⟩
  · have hfst : (s.getStateObject a).1 = none := by rw [hg]
    have hnone : s.account a = none := by rw [← getStateObject_fst, hfst]
    have hacc : s.observe.accounts a = none := by
      show (s.account a).map _ = none
      rw [hnone, Option.map_none]
    obtain ⟨n, t, hc, -, -, hview, hobs⟩ := createObject_of_none h hnone
    rw [CreateAccount, hc]
    dsimp only
    rw [hobs, hview, Observation.apply, hacc]
    rfl
  · have hlive := h.live_of_getStateObject hg
    have hobs₁ : s₁.observe = s.observe := by
      have hobs₁ := observe_getStateObject s a
      rwa [hg] at hobs₁
    have hdb₁ : s₁.db = s.db := congrArg Observation.db hobs₁
    have hacc : s.observe.accounts a = some (p.view s.db) := by
      rw [← hobs₁, ← hdb₁]
      exact hlive.accounts
    obtain ⟨n, t, hc, hlive', -, hview, ht, -⟩ := createObject_of_some h hg
    have htdb : t.db = s₁.db := congrArg Observation.db ht
    -- the new object, with the balance carried over
    have hview' : ({ n with data := { n.data with balance := p.data.balance } } : StateObject).view t.db =
        { StateObject.View.empty s.db with balance := p.data.balance } := calc
      _ = { n.view t.db with balance := p.data.balance } := by simp [StateObject.view_eq]
      _ = _ := by rw [htdb, hview, hdb₁]
    rw [CreateAccount, hc]
    dsimp only
    rw [StateObject.setBalance,
      observe_written _ (o := { n with data := { n.data with balance := p.data.balance } }) hlive'.deleted, hview', ht]
    show (s₁.observe.setAccount a _).setAccount n.address _ = _
    rw [hlive'.address, Observation.setAccount_setAccount, Observation.apply, hacc, hobs₁]
    rfl

theorem observe_Suicide (h : s.Inv) (a : Address) :
    (s.Suicide a).2.observe = s.observe.apply (.suicide a) := by
  have hobs₁ := observe_getStateObject s a
  have hacc := accounts_observe s a
  rcases hg : s.getStateObject a with ⟨_ | o, s₁⟩ <;> rw [hg] at hobs₁ hacc
  · rw [Suicide, hg, Observation.apply, hacc]
    exact hobs₁
  · have hlive := h.live_of_getStateObject hg
    have hdb₁ : s₁.db = s.db := congrArg Observation.db hobs₁
    rw [Suicide, hg, Observation.apply, hacc]
    dsimp only
    rw [observe_write _ _ (w := { o with suicided := true, data := { o.data with balance := 0 } }) hlive.deleted,
      hobs₁, hdb₁]
    show s.observe.setAccount o.address _ = _
    rw [hlive.address]
    congr 2
    simp [StateObject.view_eq]

theorem observe_AddPreimage (hash preimage : List UInt8) :
    (s.AddPreimage hash preimage).observe = s.observe.apply (.addPreimage hash preimage) := by
  have hpre : s.observe.preimages hash = s.preimages hash := rfl
  rw [AddPreimage, Observation.apply, hpre]
  cases s.preimages hash <;> rfl

theorem observe_apply (h : s.Inv) (op : Op) : (op.apply s).observe = s.observe.apply op := by
  cases op with
  | createAccount addr => exact observe_CreateAccount h addr
  | addBalance addr amount => exact observe_AddBalance h addr amount
  | subBalance addr amount => exact observe_SubBalance h addr amount
  | setBalance addr amount => exact observe_SetBalance h addr amount
  | setNonce addr nonce => exact observe_SetNonce h addr nonce
  | setCode addr code => exact observe_SetCode h addr code
  | setState addr key value => exact observe_SetState h addr key value
  | suicide addr => exact observe_Suicide h addr
  | addRefund gas => rfl
  | addLog log => rfl
  | addPreimage hash preimage => exact observe_AddPreimage hash preimage
  | snapshot => rfl
  | exist _ | empty _ | getBalance _ | getNonce _ | getCode _ | getCodeSize _ | getCodeHash _ | getState _ _
  | hasSuicided _ => exact (loads_of_isRead h rfl).observe

theorem observe_run (h : s.Inv) (ops : List Op) : (run ops s).observe = Observation.run ops s.observe := by
  -- on the calls; the invariant, which each call keeps, carries the induction
  induction ops generalizing s with
  | nil => rfl
  | cons op ops ih =>
    calc (run (op :: ops) s).observe
        = (run ops (op.apply s)).observe := rfl
      _ = Observation.run ops (op.apply s).observe := ih (journaled_apply h op).inv
      _ = Observation.run (op :: ops) s.observe := by rw [observe_apply h op]; rfl

/-- `t` answers every read at `a` and `key` as the observation `ob` says. -/
structure Answers (t : StateDB) (ob : Observation) (a : Address) (key : List UInt8) : Prop where
  exist : (t.Exist a).1 = (ob.accounts a).isSome
  empty : (t.Empty a).1 =
    (ob.accounts a).all fun v => v.nonce = 0 && v.balance = 0 && v.codeHash = ob.db.emptyCodeHash
  balance : (t.GetBalance a).1 = ((ob.accounts a).map (·.balance)).getD 0
  nonce : (t.GetNonce a).1 = ((ob.accounts a).map (·.nonce)).getD 0
  code : (t.GetCode a).1 = (ob.accounts a).bind (·.code)
  codeSize : (t.GetCodeSize a).1 = ((ob.accounts a).map (·.codeSize)).getD 0
  codeHash : (t.GetCodeHash a).1 = ((ob.accounts a).map fun v => bytesToHash v.codeHash).getD zeroHash
  state : (t.GetState a key).1 = ((ob.accounts a).map fun v => v.storage key).getD zeroHash
  suicided : (t.HasSuicided a).1 = ((ob.accounts a).map (·.suicided)).getD false
  refund : t.GetRefund = ob.refund
  logs : t.GetLogs key = ob.logs key
  preimages : t.Preimages = ob.preimages

theorem answers_observe (t : StateDB) (a : Address) (key : List UInt8) : Answers t t.observe a key :=
  ⟨Exist_fst t a, Empty_fst t a, GetBalance_fst t a, GetNonce_fst t a, GetCode_fst t a, GetCodeSize_fst t a,
    GetCodeHash_fst t a, GetState_fst t a key, HasSuicided_fst t a, rfl, rfl, rfl⟩

/-- After any run of calls from a state that keeps the invariant, the state answers every read
as the machine does after the same calls. -/
theorem answers_run (s : StateDB) (h : s.Inv) (ops : List Op) (a : Address) (key : List UInt8) :
    Answers (run ops s) (Observation.run ops s.observe) a key := by
  rw [← observe_run h ops]
  exact answers_observe _ a key

theorem answers_run_oneEmptyAccount :
    (New oneEmptyAccount zeroDatabase).Inv ∧
      Answers (run revertCalls (New oneEmptyAccount zeroDatabase))
        (Observation.run revertCalls (New oneEmptyAccount zeroDatabase).observe) 1 [1] :=
  ⟨Inv_oneEmptyAccount, answers_run _ Inv_oneEmptyAccount revertCalls 1 [1]⟩

end Refinement

/-! ## Call frames -/

/-- What the EVM does to the state in a transaction: calls of the state's API, and the frames
that `Call`, `CallCode`, `DelegateCall` and `StaticCall` open. A frame takes a snapshot, runs
the callee, and reverts to the snapshot when the callee returns an error. -/
inductive Frame where
  | op (op : Op)
  | call (body : List Frame) (err : Bool)

mutual

def Frame.execute : Frame → StateDB → Except Panic StateDB
  | .op o, s => .ok (o.apply s)
  | .call body err, s =>
    executeAll body s.Snapshot.2 >>= fun t => if err then t.RevertToSnapshot s.Snapshot.1 else pure t

def executeAll : List Frame → StateDB → Except Panic StateDB
  | [], s => .ok s
  | f :: fs, s => f.execute s >>= executeAll fs

end

mutual

def Frame.kept : Frame → List Op
  | .op o => [o]
  | .call body err => if err then [] else keptAll body

def Frame.keptAll : List Frame → List Op
  | [] => []
  | f :: fs => f.kept ++ keptAll fs

end

theorem journaled_revert {s t : StateDB} (hrevs : ∀ r ∈ s.validRevisions, r.id < s.nextRevisionId)
    (hj : Journaled s.Snapshot.2 t) :
    ∃ u, t.RevertToSnapshot s.Snapshot.1 = .ok u ∧ Journaled s u ∧ u.observe = s.observe := by
  obtain ⟨u, hrevert, hinv, hobs, hjournal, hrevs', hnext⟩ := RevertToSnapshot_of_journaled hrevs hj
  -- the ids handed out since the snapshot stay used
  have hle : s.nextRevisionId ≤ u.nextRevisionId := by
    rw [hnext]
    exact (Nat.le_succ _).trans hj.nextRevisionId
  refine ⟨u, hrevert, ⟨hinv, ⟨[], by rw [hrevs', List.append_nil], by simp⟩, hle, ⟨[], ?_, ?_⟩⟩, hobs⟩
  · rw [hjournal, List.append_nil]
  · exact Undoes.nil fun _ ⟨hv, hvu⟩ => ⟨hv, hvu.trans hobs⟩

mutual

theorem Frame.execute_spec : ∀ (f : Frame) (s : StateDB), s.Inv →
    (∀ r ∈ s.validRevisions, r.id < s.nextRevisionId) →
    ∃ t, f.execute s = .ok t ∧ Journaled s t ∧ t.observe = Observation.run f.kept s.observe
  | .op o, s, h, _ => ⟨o.apply s, by rw [Frame.execute], journaled_apply h o, by
      rw [observe_apply h o, Frame.kept]
      rfl⟩
  | .call body err, s, h, hrevs => by
    have hsnap := journaled_Snapshot h
    obtain ⟨t, hbody, hj, hobs⟩ := executeAll_spec body s.Snapshot.2 hsnap.inv (hsnap.revisions_lt hrevs)
    rw [Frame.execute, hbody, Sim.ok_bind, Frame.kept]
    cases err with
    | false => exact ⟨t, rfl, hsnap.trans hj, hobs⟩
    | true =>
      -- the callee's error: the revert undoes it
      obtain ⟨u, hrevert, hj', hobs'⟩ := journaled_revert hrevs hj
      exact ⟨u, hrevert, hj', hobs'⟩

theorem executeAll_spec : ∀ (fs : List Frame) (s : StateDB), s.Inv →
    (∀ r ∈ s.validRevisions, r.id < s.nextRevisionId) →
    ∃ t, executeAll fs s = .ok t ∧ Journaled s t ∧ t.observe = Observation.run (Frame.keptAll fs) s.observe
  | [], s, h, _ => ⟨s, by rw [executeAll], .refl h, by rw [Frame.keptAll]; rfl⟩
  | f :: fs, s, h, hrevs => by
    obtain ⟨t₁, hf, hj₁, hobs₁⟩ := Frame.execute_spec f s h hrevs
    obtain ⟨t, hfs, hj, hobs⟩ := executeAll_spec fs t₁ hj₁.inv (hj₁.revisions_lt hrevs)
    refine ⟨t, by rw [executeAll, hf, Sim.ok_bind, hfs], hj₁.trans hj, ?_⟩
    rw [hobs, hobs₁, Frame.keptAll, Observation.run, Observation.run, Observation.run, List.foldl_append]

end

/-- Frames nest, and a frame that failed may hold frames that did not: executing them from a
state that keeps the invariant never panics, and the state reads as after the calls of the
frames that returned no error alone, made with no frame at all. -/
theorem executeAll_reads_as_kept (s : StateDB) (h : s.Inv)
    (hrevs : ∀ r ∈ s.validRevisions, r.id < s.nextRevisionId) (fs : List Frame) :
    ∃ t, executeAll fs s = .ok t ∧ t.observe = (run (Frame.keptAll fs) s).observe := by
  obtain ⟨t, hexec, -, hobs⟩ := executeAll_spec fs s h hrevs
  exact ⟨t, hexec, hobs.trans (observe_run h _).symm⟩

def nestedFrames : List Frame :=
  [.op (.setBalance 1 5),
    .call [.op (.createAccount 2), .call [.op (.setState 1 [1] [2]), .op .snapshot] false, .op (.suicide 1)] true,
    .call [.op (.addRefund 3), .call [.op (.setCode 2 [3])] true] false]

theorem executeAll_reads_as_kept_nestedFrames :
    (New oneEmptyAccount zeroDatabase).Inv ∧
      (∀ r ∈ (New oneEmptyAccount zeroDatabase).validRevisions, r.id < (New oneEmptyAccount zeroDatabase).nextRevisionId) ∧
      ∃ t, executeAll nestedFrames (New oneEmptyAccount zeroDatabase) = .ok t ∧
        t.observe = (run (Frame.keptAll nestedFrames) (New oneEmptyAccount zeroDatabase)).observe :=
  ⟨Inv_oneEmptyAccount, validRevisions_New _ _,
    executeAll_reads_as_kept _ Inv_oneEmptyAccount (validRevisions_New _ _) nestedFrames⟩

end StateDB

end Zerium.State
