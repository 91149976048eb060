import Zerium.State.Observe
import Zerium.Lib.UndoLog

/-! # What a revert restores

`RevertToSnapshot` undoes the entries journaled since `Snapshot`, the last first. That makes it
a rollback because every call of the state's API journals, before it writes, an entry whose undo
writes back what the call changed as the accessors see it (`observe`). Each call is undone by
its entries from any state with the observation the call left, not only from that state, since
the undo of a later call leaves such a state and not the very one (`Journaled`); so the entries
of a whole run undo the run (`UndoLog.Undoes.trans`), and the revert after any run of calls
restores the observation of the snapshot (`RevertToSnapshot_restores`).

What the undo does not restore is not observed: the objects a read loaded from the trie, the
words and code it cached, the dirty set and the touch flags.
-/

namespace Zerium.State

set_option autoImplicit false

open Zerium.Trie (zeroHash bytesToHash)
open UndoLog

namespace StateDB

/-! ## Undoing one entry

Each undo is read on any state `t` that keeps the invariant: what it does to the observation
depends on the observation of `t` alone. -/

def Sim (t s : StateDB) : Prop := t.Inv ∧ t.observe = s.observe

section Undo

variable {t : StateDB} {a : Address} {v : StateObject.View}

theorem undo_written_sim {e : JournalEntry} (f : StateObject → StateObject)
    (F : StateObject.View → StateObject.View)
    (hundo : ∀ o t₁, t.getStateObject a = (some o, t₁) → undo e t = .ok (t₁.written (f o)))
    (hview : ∀ o, (f o).view t.db = F (o.view t.db)) (haddr : ∀ o, (f o).address = o.address)
    (hdel : ∀ o, (f o).deleted = o.deleted)
    (hcode : ∀ o, o.data.codeHash.length = 32 → (f o).data.codeHash.length = 32)
    (h : t.Inv) (hv : t.observe.accounts a = some v) :
    ∃ t', undo e t = .ok t' ∧ t'.Inv ∧ t'.observe = t.observe.setAccount a (some (F v)) := by
  obtain ⟨o, t₁, hget, hlive, hov, hobs, hinv⟩ := h.exists_live hv
  have hdb : t₁.db = t.db := congrArg Observation.db hobs
  have hdel' : (f o).deleted = false := by rw [hdel, hlive.deleted]
  refine ⟨_, hundo o t₁ hget, hinv.written hdel' (hcode o hlive.codeHash), ?_⟩
  rw [observe_written _ hdel', haddr, hlive.address, hobs, hdb, hview, hov]

theorem undo_balanceChange_sim (prev : Int) (h : t.Inv) (hv : t.observe.accounts a = some v) :
    ∃ t', undo (.balanceChange a prev) t = .ok t' ∧ t'.Inv ∧
      t'.observe = t.observe.setAccount a (some { v with balance := prev }) :=
  undo_written_sim (fun o => { o with data := { o.data with balance := prev } }) (fun v => { v with balance := prev })
    (fun o t₁ hget => by rw [undo, hget]; rfl) (fun o => by simp [StateObject.view_eq]) (fun _ => rfl)
    (fun _ => rfl) (fun _ h => h) h hv

theorem undo_nonceChange_sim (prev : Nat) (h : t.Inv) (hv : t.observe.accounts a = some v) :
    ∃ t', undo (.nonceChange a prev) t = .ok t' ∧ t'.Inv ∧
      t'.observe = t.observe.setAccount a (some { v with nonce := prev }) :=
  undo_written_sim (fun o => { o with data := { o.data with nonce := prev } }) (fun v => { v with nonce := prev })
    (fun o t₁ hget => by rw [undo, hget]; rfl) (fun o => by simp [StateObject.view_eq]) (fun _ => rfl)
    (fun _ => rfl) (fun _ h => h) h hv

theorem undo_suicideChange_sim (prev : Bool) (prevbalance : Int) (h : t.Inv) (hv : t.observe.accounts a = some v) :
    ∃ t', undo (.suicideChange a prev prevbalance) t = .ok t' ∧ t'.Inv ∧
      t'.observe = t.observe.setAccount a (some { v with suicided := prev, balance := prevbalance }) :=
  undo_written_sim (fun o => { o with suicided := prev, data := { o.data with balance := prevbalance } })
    (fun v => { v with suicided := prev, balance := prevbalance })
    (fun o t₁ hget => by rw [undo, hget]; rfl) (fun o => by simp [StateObject.view_eq]) (fun _ => rfl)
    (fun _ => rfl) (fun _ h => h) h hv

theorem length_bytesToHash (b : List UInt8) : (bytesToHash b).length = 32 := by
  simp only [bytesToHash, List.length_append, List.length_replicate, List.length_drop]
  omega

theorem undo_codeChange_sim (prevcode : Option (List UInt8)) (prevhash : List UInt8) (h : t.Inv)
    (hv : t.observe.accounts a = some v) :
    ∃ t', undo (.codeChange a prevcode prevhash) t = .ok t' ∧ t'.Inv ∧
      t'.observe = t.observe.setAccount a (some { v with
        codeHash := bytesToHash prevhash
        code := StateObject.codeOf t.db prevcode (bytesToHash prevhash)
        codeSize := StateObject.codeSizeOf t.db prevcode (bytesToHash prevhash) }) :=
  undo_written_sim
    (fun o => { o with code := prevcode, data := { o.data with codeHash := bytesToHash prevhash }, dirtyCode := true })
    (fun v => { v with
      codeHash := bytesToHash prevhash
      code := StateObject.codeOf t.db prevcode (bytesToHash prevhash)
      codeSize := StateObject.codeSizeOf t.db prevcode (bytesToHash prevhash) })
    (fun o t₁ hget => by rw [undo, hget]; rfl) (fun o => by simp [StateObject.view_eq]) (fun _ => rfl)
    (fun _ => rfl) (fun _ _ => length_bytesToHash prevhash) h hv

theorem undo_storageChange_sim (key prevalue : List UInt8) (h : t.Inv) (hv : t.observe.accounts a = some v) :
    ∃ t', undo (.storageChange a key prevalue) t = .ok t' ∧ t'.Inv ∧
      t'.observe = t.observe.setAccount a (some { v with storage := Function.update v.storage key prevalue }) :=
  undo_written_sim
    (fun o => { o with
      cachedStorage := Function.update o.cachedStorage key (some prevalue)
      dirtyStorage := Function.update o.dirtyStorage key (some prevalue) })
    (fun v => { v with storage := Function.update v.storage key prevalue })
    (fun o t₁ hget => by rw [undo, hget]; rfl) (fun o => StateObject.view_setStorage t.db o key prevalue)
    (fun _ => rfl) (fun _ => rfl) (fun _ h => h) h hv

theorem undo_touchChange_sim (prev prevDirty : Bool) (h : t.Inv) (hv : t.observe.accounts a = some v) :
    ∃ t', undo (.touchChange a prev prevDirty) t = .ok t' ∧ t'.Inv ∧ t'.observe = t.observe := by
  rw [undo]
  split
  · obtain ⟨o, t₁, hget, hlive, -, hobs, hinv⟩ := h.exists_live hv
    have hdel : ({ o with touched := prev } : StateObject).deleted = false := hlive.deleted
    have hview : ({ o with touched := prev } : StateObject).view t₁.db = o.view t₁.db := by
      simp only [StateObject.view_eq]
    have hobs' : (t₁.setStateObject { o with touched := prev }).observe = t.observe := by
      rw [observe_setStateObject _ hdel, hview, ← hobs]
      show t₁.observe.setAccount o.address _ = _
      rw [hlive.address]
      exact Observation.setAccount_self hlive.accounts
    have hinv' := hinv.setStateObject hdel hlive.codeHash
    rw [hget]
    refine ⟨_, rfl, ?_, ?_⟩
    · split
      · exact hinv'.congr rfl rfl rfl
      · exact hinv'
    · split
      · exact hobs'
      · exact hobs'
  · exact ⟨t, rfl, h, rfl⟩

theorem account_erase (s : StateDB) (a b : Address) :
    { s with stateObjects := s.stateObjects.erase a, stateObjectsDirty := s.stateObjectsDirty.erase a }.account b =
      if b = a then (s.trie a).map fun data => StateObject.newObject s.db a data true else s.account b := by
  by_cases hb : b = a
  · subst hb
    simp [account]
  · simp [account, GoMap.get_erase_of_ne _ hb, hb]

theorem undo_createObjectChange_sim (h : t.Inv) :
    ∃ t', undo (.createObjectChange a) t = .ok t' ∧ t'.Inv ∧
      t'.observe = t.observe.setAccount a ((t.trie a).map fun data => (StateObject.newObject t.db a data true).view t.db) := by
  refine ⟨_, rfl, ⟨fun b obj hobj => ?_, fun b obj hobj hdel => ?_, fun b obj hobj => ?_, h.trieCodeHash, h.keccak⟩, ?_⟩
  all_goals try
    simp only [GoMap.get_erase] at hobj
    split at hobj
    · cases hobj
  · exact h.address b obj hobj
  · exact h.deleted b obj hobj hdel
  · exact h.codeHash b obj hobj
  · simp only [observe, Observation.setAccount]
    congr 1
    funext b
    rw [account_erase]
    by_cases hb : b = a
    · subst hb
      simp only [if_pos, Function.update_self, Option.map_map]
      rfl
    · simp [hb]

theorem undo_resetObjectChange_sim {prev : StateObject} (hdel : prev.deleted = false)
    (hcode : prev.data.codeHash.length = 32) (h : t.Inv) :
    ∃ t', undo (.resetObjectChange prev) t = .ok t' ∧ t'.Inv ∧
      t'.observe = t.observe.setAccount prev.address (some (prev.view t.db)) :=
  ⟨_, rfl, h.setStateObject hdel hcode, observe_setStateObject t hdel⟩

end Undo

/-! ## Calls that journal what they write -/

/-- What a call from `s` to `t` does, as the revert needs it: it keeps the invariant, adds
revisions only with the ids it hands out, and journals entries that undo it. -/
structure Journaled (s t : StateDB) : Prop where
  inv : t.Inv
  revisions : ∃ rs, t.validRevisions = s.validRevisions ++ rs ∧
    ∀ r ∈ rs, s.nextRevisionId ≤ r.id ∧ r.id < t.nextRevisionId
  nextRevisionId : s.nextRevisionId ≤ t.nextRevisionId
  undoes : ∃ es, t.journal = s.journal ++ es ∧ Undoes undo Sim es t s

section Journaled

variable {s t u : StateDB} {a : Address} {o : StateObject}

theorem Journaled.trans (h₁ : Journaled s t) (h₂ : Journaled t u) : Journaled s u := by
  obtain ⟨-, ⟨rs₁, hrevs₁, hids₁⟩, hnext₁, ⟨es₁, hj₁, hu₁⟩⟩ := h₁
  obtain ⟨hinv, ⟨rs₂, hrevs₂, hids₂⟩, hnext₂, ⟨es₂, hj₂, hu₂⟩⟩ := h₂
  refine ⟨hinv, ⟨rs₁ ++ rs₂, ?_, ?_⟩, hnext₁.trans hnext₂, ⟨es₁ ++ es₂, ?_, hu₁.trans hu₂⟩⟩
  · rw [hrevs₂, hrevs₁, List.append_assoc]
  · intro r hr
    rcases List.mem_append.1 hr with hr | hr
    · exact ⟨(hids₁ r hr).1, (hids₁ r hr).2.trans_le hnext₂⟩
    · exact ⟨hnext₁.trans (hids₂ r hr).1, (hids₂ r hr).2⟩
  · rw [hj₂, hj₁, List.append_assoc]

theorem Journaled.revisions_lt (h : Journaled s t) (hs : ∀ r ∈ s.validRevisions, r.id < s.nextRevisionId) :
    ∀ r ∈ t.validRevisions, r.id < t.nextRevisionId := by
  obtain ⟨rs, hrevs, hids⟩ := h.revisions
  intro r hr
  rw [hrevs] at hr
  rcases List.mem_append.1 hr with hr | hr
  · exact (hs r hr).trans_le h.nextRevisionId
  · exact (hids r hr).2

theorem Journaled.of_journal (es : List JournalEntry) (hinv : t.Inv) (hrevs : t.validRevisions = s.validRevisions)
    (hnext : t.nextRevisionId = s.nextRevisionId) (hjournal : t.journal = s.journal ++ es)
    (hundo : Undoes undo Sim es t s) : Journaled s t :=
  ⟨hinv, ⟨[], by rw [hrevs, List.append_nil], by simp⟩, hnext.ge, ⟨es, hjournal, hundo⟩⟩

theorem Journaled.of_observe (hinv : t.Inv) (hobs : t.observe = s.observe)
    (hrevs : t.validRevisions = s.validRevisions) (hnext : t.nextRevisionId = s.nextRevisionId)
    (hjournal : t.journal = s.journal) : Journaled s t :=
  .of_journal [] hinv hrevs hnext (by rw [hjournal, List.append_nil])
    (Undoes.nil fun _ ⟨ht, hts⟩ => ⟨ht, hts.trans hobs⟩)

theorem Journaled.refl (h : s.Inv) : Journaled s s := .of_observe h rfl rfl rfl rfl

/-- `t` is `s` with accounts loaded, or words and code cached: nothing the accessors read,
nothing journaled and no revision changed. -/
structure Loads (s t : StateDB) : Prop where
  inv : t.Inv
  observe : t.observe = s.observe
  journal : t.journal = s.journal
  validRevisions : t.validRevisions = s.validRevisions
  nextRevisionId : t.nextRevisionId = s.nextRevisionId

theorem Loads.journaled (h : Loads s t) : Journaled s t :=
  .of_observe h.inv h.observe h.validRevisions h.nextRevisionId h.journal

theorem Loads.trans (h₁ : Loads s t) (h₂ : Loads t u) : Loads s u :=
  ⟨h₂.inv, h₂.observe.trans h₁.observe, h₂.journal.trans h₁.journal,
    h₂.validRevisions.trans h₁.validRevisions, h₂.nextRevisionId.trans h₁.nextRevisionId⟩

theorem loads_getStateObject (h : s.Inv) {o : Option StateObject} (hget : s.getStateObject a = (o, t)) :
    Loads s t := by
  have hobs := observe_getStateObject s a
  have hinv := h.getStateObject a
  rw [hget] at hobs hinv
  rcases getStateObject_cases s a with hs | ⟨data, -, -, hs⟩ <;> rw [hs, Prod.mk.injEq] at hget <;>
    obtain ⟨-, rfl⟩ := hget
  · exact ⟨h, rfl, rfl, rfl, rfl⟩
  · exact ⟨hinv, hobs, rfl, rfl, rfl⟩

theorem loads_cache (h : s.Inv) (hlive : Live s a o) {o' : StateObject} (hview : o'.view s.db = o.view s.db)
    (haddr : o'.address = a) (hdel : o'.deleted = false) (hcode : o'.data.codeHash.length = 32) :
    Loads s (s.setStateObject o') := by
  refine ⟨h.setStateObject hdel hcode, ?_, rfl, rfl, rfl⟩
  rw [observe_setStateObject _ hdel, hview, haddr]
  exact Observation.setAccount_self hlive.accounts

theorem Journaled.write (h : s.Inv) {w : StateObject} (hwaddr : w.address = a) (hwdel : w.deleted = false)
    (hwcode : w.data.codeHash.length = 32) {e : JournalEntry}
    (hundo : ∀ t, t.Inv → t.db = s.db → t.observe.accounts a = some (w.view s.db) →
      ∃ t', undo e t = .ok t' ∧ t'.Inv ∧ t'.observe = t.observe.setAccount a (s.observe.accounts a)) :
    Journaled s ((s.appendJournal e).written w) := by
  have hobs : ((s.appendJournal e).written w).observe = s.observe.setAccount a (some (w.view s.db)) := by
    rw [observe_write s e hwdel, hwaddr]
  refine .of_journal [e] ((h.congr (t := s.appendJournal e) rfl rfl rfl).written hwdel hwcode) ?_ ?_ ?_
    (Undoes.single ?_)
  · rw [written_eq]
    rfl
  · rw [written_eq]
    rfl
  · rw [written_eq]
    rfl
  · rintro t ⟨ht, hts⟩
    have hv : t.observe.accounts a = some (w.view s.db) := by
      rw [hts, hobs]
      simp
    obtain ⟨t', hundo', ht', hobs'⟩ := hundo t ht (congrArg Observation.db (hts.trans hobs)) hv
    refine ⟨t', hundo', ht', ?_⟩
    rw [hobs', hts, hobs, Observation.setAccount_setAccount]
    exact Observation.setAccount_self rfl

/-! ### The writes of a live object -/

theorem journaled_SetBalance_of_live (h : s.Inv) (hlive : Live s a o) (amount : Int) :
    Journaled s (o.SetBalance amount s) := by
  refine Journaled.write (w := { o with data := { o.data with balance := amount } }) h hlive.address hlive.deleted
    hlive.codeHash fun t ht _ hv => ?_
  obtain ⟨t', hundo, ht', hobs⟩ := undo_balanceChange_sim o.data.balance ht hv
  refine ⟨t', by rw [hlive.address]; exact hundo, ht', ?_⟩
  rw [hobs, hlive.accounts]
  simp [StateObject.view_eq]

theorem journaled_SetNonce_of_live (h : s.Inv) (hlive : Live s a o) (nonce : Nat) :
    Journaled s (o.SetNonce nonce s) := by
  refine Journaled.write (w := { o with data := { o.data with nonce := nonce } }) h hlive.address hlive.deleted
    hlive.codeHash fun t ht _ hv => ?_
  obtain ⟨t', hundo, ht', hobs⟩ := undo_nonceChange_sim o.data.nonce ht hv
  refine ⟨t', by rw [hlive.address]; exact hundo, ht', ?_⟩
  rw [hobs, hlive.accounts]
  simp [StateObject.view_eq]

theorem journaled_touch_of_live (h : s.Inv) (hlive : Live s a o) : Journaled s (o.touch s) := by
  refine Journaled.write (w := { o with touched := true }) h hlive.address hlive.deleted hlive.codeHash
    fun t ht _ hv => ?_
  obtain ⟨t', hundo, ht', hobs⟩ := undo_touchChange_sim o.touched (!o.onDirty) ht hv
  refine ⟨t', by rw [hlive.address]; exact hundo, ht', ?_⟩
  -- the touch flag is not read: the account reads as before the touch
  rw [hobs, Observation.setAccount_self]
  rw [hv, hlive.accounts]
  simp [StateObject.view_eq]

theorem journaled_SetCode_of_live (h : s.Inv) (hlive : Live s a o) {codeHash : List UInt8}
    (hhash : codeHash.length = 32) (code : List UInt8) :
    Journaled s (o.SetCode codeHash code s) := by
  have hfst := StateObject.Code_fst s.db o
  have hsnd := StateObject.Code_snd s.db o
  rw [StateObject.SetCode]
  rcases hc : o.Code s.db with ⟨prevcode, o₁⟩
  rw [hc] at hfst hsnd
  dsimp only at hfst hsnd ⊢
  subst hfst hsnd
  refine Journaled.write (w := { o with
      code := some code, data := { o.data with codeHash := codeHash }, dirtyCode := true })
    h hlive.address hlive.deleted hhash fun t ht hdb hv => ?_
  obtain ⟨t', hundo, ht', hobs⟩ :=
    undo_codeChange_sim (StateObject.codeOf s.db o.code o.data.codeHash) o.data.codeHash ht hv
  refine ⟨t', by rw [hlive.address]; exact hundo, ht', ?_⟩
  rw [hobs, hlive.accounts, Zerium.Trie.bytesToHash_of_length _ hlive.codeHash, hdb]
  simp [StateObject.view_eq, StateObject.codeOf_codeOf, StateObject.codeSizeOf_codeOf]

theorem journaled_SetState_of_live (h : s.Inv) (hlive : Live s a o) (key value : List UInt8) :
    Journaled s (o.SetState key value s) := by
  have hview := StateObject.view_GetState s.db o key
  obtain ⟨tr, cached, hsnd⟩ := StateObject.GetState_snd s.db o key
  have hfst : (o.GetState s.db key).1 = (o.view s.db).storage key := rfl
  rw [StateObject.SetState]
  rcases hg : o.GetState s.db key with ⟨prevalue, o₁⟩
  rw [hg] at hview hsnd hfst
  dsimp only at hview hsnd hfst ⊢
  -- the word is cached first; the object with it reads as before
  have haddr : o₁.address = a := by rw [hsnd]; exact hlive.address
  refine Journaled.write (w := { o₁ with
      cachedStorage := Function.update o₁.cachedStorage key (some value)
      dirtyStorage := Function.update o₁.dirtyStorage key (some value) })
    h haddr (by rw [hsnd]; exact hlive.deleted) (by rw [hsnd]; exact hlive.codeHash) fun t ht _ hv => ?_
  obtain ⟨t', hundo, ht', hobs⟩ := undo_storageChange_sim key prevalue ht hv
  refine ⟨t', by rw [haddr]; exact hundo, ht', ?_⟩
  rw [hobs, hlive.accounts, StateObject.view_setStorage, hview, hfst]
  simp

theorem journaled_AddBalance_of_live (h : s.Inv) (hlive : Live s a o) (amount : Int) :
    Journaled s (o.AddBalance amount s) := by
  rw [StateObject.AddBalance]
  split
  · split
    · exact journaled_touch_of_live h hlive
    · exact .refl h
  · exact journaled_SetBalance_of_live h hlive _

theorem journaled_SubBalance_of_live (h : s.Inv) (hlive : Live s a o) (amount : Int) :
    Journaled s (o.SubBalance amount s) := by
  rw [StateObject.SubBalance]
  split
  · exact .refl h
  · exact journaled_SetBalance_of_live h hlive _

/-! ### Creating an object -/

theorem observe_created (s : StateDB) {w w' : StateObject} (e : JournalEntry) (hw : w.address = w'.address)
    (hdel : w.deleted = false) (hdel' : w'.deleted = false) :
    (((s.written w).appendJournal e).setStateObject w').observe = s.observe.setAccount w'.address (some (w'.view s.db)) := by
  have hdb : ((s.written w).appendJournal e).db = s.db := by
    rw [written_eq]
    rfl
  rw [observe_setStateObject _ hdel', hdb, observe_appendJournal, observe_written _ hdel, hw,
    Observation.setAccount_setAccount]

theorem Inv.live_of_getStateObject {t : StateDB} (h : s.Inv) (hget : s.getStateObject a = (some o, t)) : Live t a o := by
  have hlive := h.live (a := a) (o := o) (by rw [hget])
  rwa [hget] at hlive

theorem Inv.trie_of_account (h : s.Inv) (hnone : s.account a = none) : s.trie a = none := by
  rw [StateDB.account] at hnone
  cases hobj : s.stateObjects.get a with
  | some obj =>
    rw [hobj] at hnone
    dsimp only at hnone
    split at hnone
    · exact h.deleted a obj hobj ‹_›
    · cases hnone
  | none =>
    rw [hobj] at hnone
    exact Option.map_eq_none_iff.1 hnone

theorem createObject_of_none (h : s.Inv) (hnone : s.account a = none) :
    ∃ n t, s.createObject a = ((n, none), t) ∧ Live t a n ∧ Journaled s t ∧
      n.view s.db = StateObject.View.empty s.db ∧ t.observe = s.observe.setAccount a (some (n.view s.db)) := by
  have hfst : (s.getStateObject a).1 = none := by rw [getStateObject_fst, hnone]
  have hget : s.getStateObject a = (none, s) := Prod.ext hfst (getStateObject_none hfst)
  let n₀ := StateObject.newObject s.db a ⟨0, 0, zeroHash, []⟩ true
  let n : StateObject := { n₀ with onDirty := false }
  let t := ((n₀.setNonce 0 s).appendJournal (.createObjectChange a)).setStateObject n
  have hcode : n.data.codeHash.length = 32 :=
    StateObject.codeHash_newObject s.db a _ true h.keccak (.inl rfl)
  have hinv : t.Inv :=
    ((h.written (o := { n₀ with data := { n₀.data with nonce := 0 } }) rfl hcode).congr
      (t := (n₀.setNonce 0 s).appendJournal (.createObjectChange a)) rfl rfl rfl).setStateObject rfl hcode
  have hobs : t.observe = s.observe.setAccount a (some (n.view s.db)) :=
    observe_created s _ rfl rfl rfl
  refine ⟨n, t, by rw [createObject, hget], ⟨GoMap.get_insert_self _ _ _, rfl, rfl, hcode⟩, ?_,
    StateObject.view_created s.db a, hobs⟩
  refine .of_journal [.createObjectChange a] hinv ?_ ?_ ?_ (Undoes.single ?_)
  · simp only [t, setStateObject_eq, appendJournal_eq, StateObject.setNonce, written_eq]
  · simp only [t, setStateObject_eq, appendJournal_eq, StateObject.setNonce, written_eq]
  · simp only [t, setStateObject_eq, appendJournal_eq, StateObject.setNonce, written_eq]
  · rintro u ⟨hu, hus⟩
    obtain ⟨u', hundo, hu', hobs'⟩ := undo_createObjectChange_sim (a := a) hu
    refine ⟨u', hundo, hu', ?_⟩
    -- the account was out of the trie, so it reads as missing again
    have htrie : u.trie a = none := by
      have hut : u.trie = s.trie := congrArg Observation.trie (hus.trans hobs)
      rw [hut]
      exact h.trie_of_account hnone
    rw [hobs', htrie, hus, hobs, Option.map_none, Observation.setAccount_setAccount]
    exact Observation.setAccount_self (by show (s.account a).map _ = _; rw [hnone]; rfl)

theorem GetOrNewStateObject_spec (h : s.Inv) (a : Address) :
    ∃ o t, s.GetOrNewStateObject a = (o, t) ∧ Live t a o ∧ Journaled s t ∧
      o.view s.db = s.observe.accountOrNew a ∧ t.observe = s.observe.setAccount a (some (o.view s.db)) := by
  rcases hg : s.getStateObject a with ⟨_ | o, s₁⟩
  · have hfst : (s.getStateObject a).1 = none := by rw [hg]
    have hs₁ : s₁ = s := by
      have hsnd := getStateObject_none hfst
      rwa [hg] at hsnd
    have hnone : s.account a = none := by rw [← getStateObject_fst, hfst]
    rw [hs₁] at hg
    obtain ⟨n, t, hc, hlive, hj, hview, hobs⟩ := createObject_of_none h hnone
    refine ⟨n, t, ?_, hlive, hj, ?_, hobs⟩
    · rw [GetOrNewStateObject, hg]
      simp only [Option.filter_none]
      rw [hc]
    · rw [hview, Observation.accountOrNew]
      show _ = ((s.account a).map _).getD _
      rw [hnone]
      rfl
  · have hlive := h.live_of_getStateObject hg
    have hobs : s₁.observe = s.observe := by
      have hobs := observe_getStateObject s a
      rwa [hg] at hobs
    have hdb : s₁.db = s.db := congrArg Observation.db hobs
    have hacc : s.observe.accounts a = some (o.view s.db) := by rw [← hobs, ← hdb]; exact hlive.accounts
    refine ⟨o, s₁, ?_, hlive, (loads_getStateObject h hg).journaled, ?_, ?_⟩
    · rw [GetOrNewStateObject, hg]
      simp [Option.filter, hlive.deleted]
    · rw [Observation.accountOrNew, hacc]
      rfl
    · rw [hobs, Observation.setAccount_self hacc]

theorem createObject_of_some (h : s.Inv) {p : StateObject} {s₁ : StateDB} (hg : s.getStateObject a = (some p, s₁)) :
    ∃ n t, s.createObject a = ((n, some p), t) ∧ Live t a n ∧ t.Inv ∧
      n.view s₁.db = StateObject.View.empty s₁.db ∧ t.observe = s₁.observe.setAccount a (some (n.view s₁.db)) ∧
      t.journal = s₁.journal ++ [.resetObjectChange p] ∧ t.validRevisions = s₁.validRevisions ∧
      t.nextRevisionId = s₁.nextRevisionId := by
  have hinv₁ := (loads_getStateObject h hg).inv
  let n₀ := StateObject.newObject s₁.db a ⟨0, 0, zeroHash, []⟩ true
  let n : StateObject := { n₀ with onDirty := false }
  let t := ((n₀.setNonce 0 s₁).appendJournal (.resetObjectChange p)).setStateObject n
  have hcode : n.data.codeHash.length = 32 :=
    StateObject.codeHash_newObject s₁.db a _ true hinv₁.keccak (.inl rfl)
  have hinv : t.Inv :=
    ((hinv₁.written (o := { n₀ with data := { n₀.data with nonce := 0 } }) rfl hcode).congr
      (t := (n₀.setNonce 0 s₁).appendJournal (.resetObjectChange p)) rfl rfl rfl).setStateObject rfl hcode
  refine ⟨n, t, by rw [createObject, hg], ⟨GoMap.get_insert_self _ _ _, rfl, rfl, hcode⟩, hinv,
    StateObject.view_created s₁.db a, observe_created s₁ _ rfl rfl rfl, ?_, ?_, ?_⟩ <;>
  simp only [t, setStateObject_eq, appendJournal_eq, StateObject.setNonce, written_eq]

theorem journaled_CreateAccount (h : s.Inv) (a : Address) : Journaled s (s.CreateAccount a) := by
  rcases hg : s.getStateObject a with ⟨_ | p, s₁⟩
  · have hfst : (s.getStateObject a).1 = none := by rw [hg]
    have hnone : s.account a = none := by rw [← getStateObject_fst, hfst]
    obtain ⟨n, t, hc, -, hj, -, -⟩ := createObject_of_none h hnone
    rw [CreateAccount, hc]
    exact hj
  · have hlive := h.live_of_getStateObject hg
    have hj₁ := (loads_getStateObject h hg).journaled
    obtain ⟨n, t, hc, hlive', hinv, -, ht, hjournal, hrevs, hnext⟩ := createObject_of_some h hg
    rw [CreateAccount, hc]
    dsimp only
    have htdb : t.db = s₁.db := congrArg Observation.db ht
    have hobs : (n.setBalance p.data.balance t).observe =
        s₁.observe.setAccount a (some ({ n with data := { n.data with balance := p.data.balance } }.view s₁.db)) := by
      rw [StateObject.setBalance,
        observe_written _ (o := { n with data := { n.data with balance := p.data.balance } }) hlive'.deleted, ht, htdb]
      show (s₁.observe.setAccount a _).setAccount n.address _ = _
      rw [hlive'.address, Observation.setAccount_setAccount]
    refine hj₁.trans (.of_journal [.resetObjectChange p] (hinv.written hlive'.deleted hlive'.codeHash) ?_ ?_ ?_
      (Undoes.single ?_))
    · rw [StateObject.setBalance, written_eq]
      exact hrevs
    · rw [StateObject.setBalance, written_eq]
      exact hnext
    · rw [StateObject.setBalance, written_eq]
      exact hjournal
    · rintro u ⟨hu, hus⟩
      obtain ⟨u', hundo, hu', hobs'⟩ := undo_resetObjectChange_sim hlive.deleted hlive.codeHash hu
      refine ⟨u', hundo, hu', ?_⟩
      have hdb : u.db = s₁.db := congrArg Observation.db (hus.trans hobs)
      rw [hobs', hus, hobs, hdb, hlive.address, Observation.setAccount_setAccount]
      exact Observation.setAccount_self hlive.accounts

/-! ### The calls of the state -/

theorem journaled_SetBalance (h : s.Inv) (a : Address) (amount : Int) : Journaled s (s.SetBalance a amount) := by
  obtain ⟨o, t, hg, hlive, hj, -⟩ := GetOrNewStateObject_spec h a
  rw [StateDB.SetBalance, hg]
  exact hj.trans (journaled_SetBalance_of_live hj.inv hlive amount)

theorem journaled_AddBalance (h : s.Inv) (a : Address) (amount : Int) : Journaled s (s.AddBalance a amount) := by
  obtain ⟨o, t, hg, hlive, hj, -⟩ := GetOrNewStateObject_spec h a
  rw [StateDB.AddBalance, hg]
  exact hj.trans (journaled_AddBalance_of_live hj.inv hlive amount)

theorem journaled_SubBalance (h : s.Inv) (a : Address) (amount : Int) : Journaled s (s.SubBalance a amount) := by
  obtain ⟨o, t, hg, hlive, hj, -⟩ := GetOrNewStateObject_spec h a
  rw [StateDB.SubBalance, hg]
  exact hj.trans (journaled_SubBalance_of_live hj.inv hlive amount)

theorem journaled_SetNonce (h : s.Inv) (a : Address) (nonce : Nat) : Journaled s (s.SetNonce a nonce) := by
  obtain ⟨o, t, hg, hlive, hj, -⟩ := GetOrNewStateObject_spec h a
  rw [StateDB.SetNonce, hg]
  exact hj.trans (journaled_SetNonce_of_live hj.inv hlive nonce)

theorem journaled_SetCode (h : s.Inv) (a : Address) (code : List UInt8) : Journaled s (s.SetCode a code) := by
  obtain ⟨o, t, hg, hlive, hj, -⟩ := GetOrNewStateObject_spec h a
  rw [StateDB.SetCode, hg]
  exact hj.trans (journaled_SetCode_of_live hj.inv hlive (hj.inv.keccak code) code)

theorem journaled_SetState (h : s.Inv) (a : Address) (key value : List UInt8) :
    Journaled s (s.SetState a key value) := by
  obtain ⟨o, t, hg, hlive, hj, -⟩ := GetOrNewStateObject_spec h a
  rw [StateDB.SetState, hg]
  exact hj.trans (journaled_SetState_of_live hj.inv hlive key value)

theorem journaled_Suicide (h : s.Inv) (a : Address) : Journaled s (s.Suicide a).2 := by
  rcases hg : s.getStateObject a with ⟨_ | o, s₁⟩
  · rw [Suicide, hg]
    exact (loads_getStateObject h hg).journaled
  · have hlive := h.live_of_getStateObject hg
    have hj₁ := (loads_getStateObject h hg).journaled
    rw [Suicide, hg]
    refine hj₁.trans (Journaled.write (w := { o with suicided := true, data := { o.data with balance := 0 } })
      hj₁.inv hlive.address hlive.deleted hlive.codeHash fun t ht _ hv => ?_)
    obtain ⟨t', hundo, ht', hobs⟩ := undo_suicideChange_sim o.suicided o.data.balance ht hv
    refine ⟨t', hundo, ht', ?_⟩
    rw [hobs, hlive.accounts]
    simp [StateObject.view_eq]

theorem journaled_AddRefund (h : s.Inv) (gas : Nat) : Journaled s (s.AddRefund gas) := by
  refine .of_journal [.refundChange s.refund] (h.congr rfl rfl rfl) rfl rfl rfl (Undoes.single ?_)
  rintro t ⟨ht, hts⟩
  refine ⟨{ t with refund := s.refund }, rfl, ht.congr rfl rfl rfl, ?_⟩
  show { t.observe with refund := s.refund } = s.observe
  rw [hts]
  rfl

theorem journaled_AddLog (h : s.Inv) (log : Log) : Journaled s (s.AddLog log) := by
  refine .of_journal [.addLogChange s.thash] (h.congr rfl rfl rfl) rfl rfl rfl (Undoes.single ?_)
  rintro t ⟨ht, hts⟩
  refine ⟨_, rfl, ht.congr rfl rfl rfl, ?_⟩
  have hlogs : t.logs = (s.AddLog log).logs := congrArg Observation.logs hts
  have hsize : t.logSize = s.logSize + 1 := congrArg Observation.logSize hts
  show { t.observe with
    logs := Function.update t.logs s.thash (t.logs s.thash).dropLast, logSize := t.logSize - 1 } = s.observe
  rw [hlogs, hsize, hts]
  simp only [AddLog, appendJournal_eq, Function.update_self, List.dropLast_concat, Function.update_idem,
    Function.update_eq_self, Nat.add_sub_cancel]
  rfl

theorem journaled_AddPreimage (h : s.Inv) (hash preimage : List UInt8) :
    Journaled s (s.AddPreimage hash preimage) := by
  rw [AddPreimage]
  cases hp : s.preimages hash with
  | some _ => exact .refl h
  | none =>
    refine .of_journal [.addPreimageChange hash] (h.congr rfl rfl rfl) rfl rfl rfl (Undoes.single ?_)
    rintro t ⟨ht, hts⟩
    refine ⟨_, rfl, ht.congr rfl rfl rfl, ?_⟩
    have hpre : t.preimages = Function.update s.preimages hash (some preimage) := congrArg Observation.preimages hts
    show { t.observe with preimages := Function.update t.preimages hash none } = s.observe
    have hupd : Function.update s.preimages hash none = s.preimages := Function.update_eq_self_iff.2 hp.symm
    rw [hpre, hts, Function.update_idem, hupd]
    rfl

theorem journaled_Snapshot (h : s.Inv) : Journaled s s.Snapshot.2 :=
  ⟨h.congr rfl rfl rfl, ⟨[⟨s.nextRevisionId, s.journal.length⟩], rfl, by simp [Snapshot]⟩, Nat.le_succ _,
    ⟨[], (List.append_nil _).symm, Undoes.nil fun _ hts => hts⟩⟩

end Journaled

/-! ## Runs of calls -/

/-- A call of the state's API within a transaction, as the EVM makes them. The answers of the
reads are dropped: what matters here is what a call does to the state. -/
inductive Op where
  | createAccount (addr : Address)
  | addBalance (addr : Address) (amount : Int)
  | subBalance (addr : Address) (amount : Int)
  | setBalance (addr : Address) (amount : Int)
  | setNonce (addr : Address) (nonce : Nat)
  | setCode (addr : Address) (code : List UInt8)
  | setState (addr : Address) (key value : List UInt8)
  | suicide (addr : Address)
  | addRefund (gas : Nat)
  | addLog (log : Log)
  | addPreimage (hash preimage : List UInt8)
  | exist (addr : Address)
  | empty (addr : Address)
  | getBalance (addr : Address)
  | getNonce (addr : Address)
  | getCode (addr : Address)
  | getCodeSize (addr : Address)
  | getCodeHash (addr : Address)
  | getState (addr : Address) (key : List UInt8)
  | hasSuicided (addr : Address)
  | snapshot

def Op.apply : Op → StateDB → StateDB
  | .createAccount addr, s => s.CreateAccount addr
  | .addBalance addr amount, s => s.AddBalance addr amount
  | .subBalance addr amount, s => s.SubBalance addr amount
  | .setBalance addr amount, s => s.SetBalance addr amount
  | .setNonce addr nonce, s => s.SetNonce addr nonce
  | .setCode addr code, s => s.SetCode addr code
  | .setState addr key value, s => s.SetState addr key value
  | .suicide addr, s => (s.Suicide addr).2
  | .addRefund gas, s => s.AddRefund gas
  | .addLog log, s => s.AddLog log
  | .addPreimage hash preimage, s => s.AddPreimage hash preimage
  | .exist addr, s => (s.Exist addr).2
  | .empty addr, s => (s.Empty addr).2
  | .getBalance addr, s => (s.GetBalance addr).2
  | .getNonce addr, s => (s.GetNonce addr).2
  | .getCode addr, s => (s.GetCode addr).2
  | .getCodeSize addr, s => (s.GetCodeSize addr).2
  | .getCodeHash addr, s => (s.GetCodeHash addr).2
  | .getState addr key, s => (s.GetState addr key).2
  | .hasSuicided addr, s => (s.HasSuicided addr).2
  | .snapshot, s => s.Snapshot.2

def run (ops : List Op) (s : StateDB) : StateDB := ops.foldl (fun s op => op.apply s) s

/-! ### The reads -/

theorem loads_GetCode {s : StateDB} (h : s.Inv) (a : Address) : Loads s (s.GetCode a).2 := by
  rcases hg : s.getStateObject a with ⟨_ | o, t⟩
  · rw [GetCode, hg]
    exact loads_getStateObject h hg
  · have hlive := h.live_of_getStateObject hg
    have hl := loads_getStateObject h hg
    rw [GetCode, hg]
    dsimp only
    refine hl.trans (loads_cache hl.inv hlive (StateObject.view_Code _ _) ?_ ?_ ?_) <;>
      rw [StateObject.Code_snd]
    · exact hlive.address
    · exact hlive.deleted
    · exact hlive.codeHash

theorem loads_GetState {s : StateDB} (h : s.Inv) (a : Address) (key : List UInt8) :
    Loads s (s.GetState a key).2 := by
  rcases hg : s.getStateObject a with ⟨_ | o, t⟩
  · rw [GetState, hg]
    exact loads_getStateObject h hg
  · have hlive := h.live_of_getStateObject hg
    have hl := loads_getStateObject h hg
    obtain ⟨tr, cached, hsnd⟩ := StateObject.GetState_snd t.db o key
    rw [GetState, hg]
    dsimp only
    refine hl.trans (loads_cache hl.inv hlive (StateObject.view_GetState _ _ _) ?_ ?_ ?_) <;> rw [hsnd]
    · exact hlive.address
    · exact hlive.deleted
    · exact hlive.codeHash

def Op.isRead : Op → Bool
  | .exist _ | .empty _ | .getBalance _ | .getNonce _ | .getCode _ | .getCodeSize _ | .getCodeHash _
  | .getState _ _ | .hasSuicided _ => true
  | _ => false

theorem loads_of_isRead {s : StateDB} (h : s.Inv) {op : Op} (hop : op.isRead = true) : Loads s (op.apply s) := by
  cases op with
  | getCode addr => exact loads_GetCode h addr
  | getState addr key => exact loads_GetState h addr key
  -- the other reads only load through `getStateObject`
  | exist addr | empty addr | getBalance addr | getNonce addr | hasSuicided addr =>
    rcases hg : s.getStateObject addr with ⟨o, t⟩
    simp only [Op.apply, Exist, Empty, GetBalance, GetNonce, HasSuicided, hg]
    exact loads_getStateObject h hg
  | getCodeSize addr | getCodeHash addr =>
    rcases hg : s.getStateObject addr with ⟨_ | o, t⟩ <;>
      simp only [Op.apply, GetCodeSize, GetCodeHash, hg] <;> try split
    all_goals exact loads_getStateObject h hg
  | _ => cases hop

theorem journaled_apply {s : StateDB} (h : s.Inv) (op : Op) : Journaled s (op.apply s) := by
  cases op with
  | createAccount addr => exact journaled_CreateAccount h addr
  | addBalance addr amount => exact journaled_AddBalance h addr amount
  | subBalance addr amount => exact journaled_SubBalance h addr amount
  | setBalance addr amount => exact journaled_SetBalance h addr amount
  | setNonce addr nonce => exact journaled_SetNonce h addr nonce
  | setCode addr code => exact journaled_SetCode h addr code
  | setState addr key value => exact journaled_SetState h addr key value
  | suicide addr => exact journaled_Suicide h addr
  | addRefund gas => exact journaled_AddRefund h gas
  | addLog log => exact journaled_AddLog h log
  | addPreimage hash preimage => exact journaled_AddPreimage h hash preimage
  | snapshot => exact journaled_Snapshot h
  | exist _ | empty _ | getBalance _ | getNonce _ | getCode _ | getCodeSize _ | getCodeHash _ | getState _ _
  | hasSuicided _ => exact (loads_of_isRead h rfl).journaled

theorem journaled_run {s : StateDB} (h : s.Inv) (ops : List Op) : Journaled s (run ops s) := by
  induction ops generalizing s with
  | nil => exact .refl h
  | cons op ops ih =>
    have hop := journaled_apply h op
    exact hop.trans (ih hop.inv)

/-! ## The revert -/

theorem RevertToSnapshot_of_undoAll {s s' : StateDB} {rs rs' : List Revision} {r : Revision}
    (hrevs : s.validRevisions = rs ++ r :: rs') (hlt : ∀ x ∈ rs, x.id < r.id)
    (hundo : undoAll undo (s.journal.drop r.journalIndex) s = .ok s') :
    s.RevertToSnapshot r.id = .ok { s' with journal := s.journal.take r.journalIndex, validRevisions := rs } := by
  have hidx : s.validRevisions.findIdx (fun x => decide (x.id ≥ r.id)) = rs.length := by
    have hrs : rs.findIdx (fun x => decide (x.id ≥ r.id)) = rs.length :=
      List.findIdx_eq_length.2 fun x hx => by simpa using hlt x hx
    rw [hrevs, List.findIdx_append, hrs, if_neg (Nat.lt_irrefl _), List.findIdx_cons]
    simp
  have hget : s.validRevisions[rs.length]? = some r := by
    rw [hrevs, List.getElem?_append_right (Nat.le_refl _), Nat.sub_self]
    rfl
  have htake : s.validRevisions.take rs.length = rs := by rw [hrevs, List.take_left]
  have hfold : (s.journal.drop r.journalIndex).reverse.foldlM (fun s e => undo e s) s = .ok s' := hundo
  rw [RevertToSnapshot]
  dsimp only
  rw [hidx, hget, htake]
  dsimp only
  rw [if_neg fun h => h rfl, hfold]

theorem nextRevisionId_getStateObject {t t₁ : StateDB} {a : Address} {o : Option StateObject}
    (hg : t.getStateObject a = (o, t₁)) : t₁.nextRevisionId = t.nextRevisionId := by
  rcases getStateObject_cases t a with hs | ⟨data, -, -, hs⟩ <;> rw [hs, Prod.mk.injEq] at hg <;> rw [← hg.2]
  rfl

theorem nextRevisionId_undo {e : JournalEntry} {t t' : StateDB} (h : undo e t = .ok t') :
    t'.nextRevisionId = t.nextRevisionId := by
  cases e with
  | createObjectChange _ | resetObjectChange _ | refundChange _ | addLogChange _ | addPreimageChange _ =>
    cases h
    rfl
  | suicideChange a _ _ | balanceChange a _ | nonceChange a _ | codeChange a _ _ | storageChange a _ _ =>
    -- the object's field is written back over the state `getStateObject` left
    rcases hg : t.getStateObject a with ⟨_ | obj, t₁⟩ <;> simp only [undo, hg, reduceCtorEq] at h <;> cases h
    all_goals
      rw [← nextRevisionId_getStateObject hg]
      try simp only [StateObject.setBalance, StateObject.setNonce, StateObject.setCode, StateObject.setState, written_eq]
  | touchChange a prev prevDirty =>
    simp only [undo] at h
    split at h
    · rcases hg : t.getStateObject a with ⟨_ | obj, t₁⟩ <;> simp only [hg, reduceCtorEq] at h
      cases h
      rw [← nextRevisionId_getStateObject hg]
      split <;> rfl
    · cases h
      rfl

theorem RevertToSnapshot_of_journaled {s t : StateDB} (hrevs : ∀ r ∈ s.validRevisions, r.id < s.nextRevisionId)
    (hj : Journaled s.Snapshot.2 t) :
    ∃ u, t.RevertToSnapshot s.Snapshot.1 = .ok u ∧ u.Inv ∧ u.observe = s.observe ∧ u.journal = s.journal ∧
      u.validRevisions = s.validRevisions ∧ u.nextRevisionId = t.nextRevisionId := by
  obtain ⟨hinv, ⟨rs, hrs, -⟩, -, ⟨es, hjournal, hundoes⟩⟩ := hj
  -- the entries journaled since the snapshot follow the journal it recorded, and undo them
  have hjournal' : t.journal = s.journal ++ es := hjournal
  obtain ⟨u, hundo, hu, hobs⟩ := hundoes t ⟨hinv, rfl⟩
  have hrevs' : t.validRevisions = s.validRevisions ++ ⟨s.nextRevisionId, s.journal.length⟩ :: rs := by
    rw [hrs]
    simp [Snapshot]
  have hundo' : undoAll undo (t.journal.drop s.journal.length) t = .ok u := by
    rw [hjournal', List.drop_left]
    exact hundo
  have hnext : u.nextRevisionId = t.nextRevisionId :=
    undoAll_preserves undo (fun x => x.nextRevisionId = t.nextRevisionId)
      (fun _ _ _ he hx => (nextRevisionId_undo he).trans hx) hundo' rfl
  refine ⟨_, RevertToSnapshot_of_undoAll hrevs' hrevs hundo', hu.congr rfl rfl rfl, hobs, ?_, rfl, hnext⟩
  show t.journal.take s.journal.length = s.journal
  rw [hjournal', List.take_left]

/-- Reverting to a snapshot after any run of calls: the revert succeeds, and the state answers
every read as it did when the snapshot was taken, with the journal and the revisions it had. -/
theorem RevertToSnapshot_restores (s : StateDB) (hinv : s.Inv)
    (hrevs : ∀ r ∈ s.validRevisions, r.id < s.nextRevisionId) (ops : List Op) :
    ∃ t, (run ops s.Snapshot.2).RevertToSnapshot s.Snapshot.1 = .ok t ∧
      t.observe = s.observe ∧ t.journal = s.journal ∧ t.validRevisions = s.validRevisions := by
  obtain ⟨t, hrevert, -, hobs, hjournal, hrevs', -⟩ :=
    RevertToSnapshot_of_journaled hrevs (journaled_run (journaled_Snapshot hinv).inv ops)
  exact ⟨t, hrevert, hobs, hjournal, hrevs'⟩

def revertCalls : List Op :=
  [.setBalance 1 5, .snapshot, .createAccount 2, .setState 1 [1] [2], .getState 3 [1], .setCode 2 [3],
    .suicide 1, .getCode 2, .addBalance 4 0, .addLog ⟨1, [], [], [], 0, [], 0⟩, .addRefund 3,
    .addPreimage [1] [2]]

theorem Inv_oneEmptyAccount : (New oneEmptyAccount zeroDatabase).Inv := by
  refine Inv_New _ _ (fun a data h => .inr ?_) (fun _ => rfl)
  unfold oneEmptyAccount at h
  split at h
  · cases h
    rfl
  · cases h

theorem validRevisions_New (trie : Address → Option Account) (db : Database) :
    ∀ r ∈ (New trie db).validRevisions, r.id < (New trie db).nextRevisionId :=
  fun _ h => by cases h

theorem RevertToSnapshot_restores_oneEmptyAccount :
    (New oneEmptyAccount zeroDatabase).Inv ∧
      (∀ r ∈ (New oneEmptyAccount zeroDatabase).validRevisions, r.id < (New oneEmptyAccount zeroDatabase).nextRevisionId) ∧
      ∃ t, (run revertCalls (New oneEmptyAccount zeroDatabase).Snapshot.2).RevertToSnapshot
          (New oneEmptyAccount zeroDatabase).Snapshot.1 = .ok t ∧
        t.observe = (New oneEmptyAccount zeroDatabase).observe ∧ t.journal = [] ∧ t.validRevisions = [] :=
  ⟨Inv_oneEmptyAccount, validRevisions_New _ _,
    RevertToSnapshot_restores _ Inv_oneEmptyAccount (validRevisions_New _ _) revertCalls⟩

end StateDB

end Zerium.State
