import Zerium.State.StateDB

/-! # Reverting to a snapshot, and what `Finalise` deletes afterwards

`Finalise` decides from the dirty set alone which objects it writes or deletes: it writes
every dirty object into the account trie, or deletes it when it is suicided or, with
`deleteEmptyObjects`, empty, and it leaves every other account as it is
(`Finalise_trie`). The journal undoes the writes to an object, but the dirty mark they made
stays unless the entry is a `createObjectChange` or a `touchChange`. So a reverted balance
change on an empty account that the trie already holds leaves the account dirty, and
`Finalise(true)` then deletes it, where it would have kept it had the change never been made
(`Finalise_deletes_reverted_balance`).
-/

namespace Zerium.State

set_option autoImplicit false

namespace StateDB

/-! ## What the writes leave -/

section Writes

variable (o : StateObject) (s : StateDB)

theorem setStateObject_eq :
    s.setStateObject o = { s with stateObjects := s.stateObjects.insert o.address o } :=
  rfl

@[simp] theorem setStateObject_stateObjectsDirty : (s.setStateObject o).stateObjectsDirty = s.stateObjectsDirty :=
  rfl

@[simp] theorem setStateObject_trie : (s.setStateObject o).trie = s.trie := rfl

@[simp] theorem setStateObject_db : (s.setStateObject o).db = s.db := rfl

theorem appendJournal_eq (e : JournalEntry) : s.appendJournal e = { s with journal := s.journal ++ [e] } :=
  rfl

theorem written_eq : s.written o =
    { s with
      stateObjects := s.stateObjects.insert o.address { o with onDirty := false }
      stateObjectsDirty := if o.onDirty then s.stateObjectsDirty.insert o.address () else s.stateObjectsDirty } := by
  rw [written]
  split <;> rfl

end Writes

theorem getStateObject_live {s : StateDB} {addr : Address} {obj : StateObject}
    (h : s.stateObjects.get addr = some obj) :
    s.getStateObject addr = (if obj.deleted then none else some obj, s) := by
  rw [getStateObject, h]

theorem getStateObject_load {s : StateDB} {addr : Address} {data : Account}
    (hobj : s.stateObjects.get addr = none) (htrie : s.trie addr = some data) :
    s.getStateObject addr =
      (some (StateObject.newObject s.db addr data true),
        s.setStateObject (StateObject.newObject s.db addr data true)) := by
  rw [getStateObject, hobj, htrie]

theorem GetOrNewStateObject_load {s : StateDB} {addr : Address} {data : Account}
    (hobj : s.stateObjects.get addr = none) (htrie : s.trie addr = some data) :
    s.GetOrNewStateObject addr =
      (StateObject.newObject s.db addr data true, s.setStateObject (StateObject.newObject s.db addr data true)) := by
  rw [GetOrNewStateObject, getStateObject_load hobj htrie]
  rfl

end StateDB

namespace StateObject

theorem address_newObject (db : Database) (addr : Address) (data : Account) (onDirty : Bool) :
    (newObject db addr data onDirty).address = addr := rfl

theorem empty_newObject (db : Database) (addr : Address) (data : Account) (onDirty : Bool)
    (hnonce : data.nonce = 0) (hbalance : data.balance = 0) (hcode : data.codeHash = db.emptyCodeHash) :
    (newObject db addr data onDirty).empty db = true := by
  have hnonce' : (newObject db addr data onDirty).data.nonce = 0 := hnonce
  have hbalance' : (newObject db addr data onDirty).data.balance = 0 := hbalance
  have hcode' : (newObject db addr data onDirty).data.codeHash = db.emptyCodeHash := by
    show (if data.codeHash = [] then db.emptyCodeHash else data.codeHash) = db.emptyCodeHash
    split
    · rfl
    · exact hcode
  simp [empty, hnonce', hbalance', hcode']

theorem address_getTrie (db : Database) (o : StateObject) : (o.getTrie db).2.address = o.address := by
  rw [getTrie]
  split <;> rfl

theorem address_updateRoot (db : Database) (o : StateObject) : (o.updateRoot db).address = o.address :=
  address_getTrie db o

theorem AddBalance_of_ne_zero (o : StateObject) {amount : Int} (h : amount ≠ 0) (s : StateDB) :
    o.AddBalance amount s = o.SetBalance (o.data.balance + amount) s := by
  rw [AddBalance, if_neg h]

end StateObject

namespace StateDB

/-! ## The invariant of the live objects -/

/-- What every method keeps of the state: a live object sits at its own address, every dirty
address has a live object, and the revision ids are below the next. -/
structure Wf (s : StateDB) : Prop where
  address : ∀ a obj, s.stateObjects.get a = some obj → obj.address = a
  dirty : ∀ a ∈ s.stateObjectsDirty.keys, (s.stateObjects.get a).isSome
  revisions : ∀ r ∈ s.validRevisions, r.id < s.nextRevisionId

theorem Wf_New (trie : Address → Option Account) (db : Database) : (New trie db).Wf where
  address _ _ h := by cases h
  dirty _ h := by cases h
  revisions _ h := by cases h

theorem Wf.of_write {s t : StateDB} (hwf : s.Wf) {o : StateObject}
    (hobjs : t.stateObjects = s.stateObjects.insert o.address o)
    (hdirty : t.stateObjectsDirty = s.stateObjectsDirty.insert o.address ())
    (hrevs : t.validRevisions = s.validRevisions) (hnext : s.nextRevisionId ≤ t.nextRevisionId) : t.Wf := by
  refine ⟨fun a obj hobj => ?_, fun a ha => ?_, fun r hr => ?_⟩
  · rw [hobjs] at hobj
    by_cases ha : a = o.address
    · subst ha
      rw [GoMap.get_insert_self] at hobj
      rw [← Option.some.inj hobj]
    · rw [GoMap.get_insert_of_ne _ ha] at hobj
      exact hwf.address a obj hobj
  · rw [hobjs]
    by_cases ha' : a = o.address
    · subst ha'
      rw [GoMap.get_insert_self]
      rfl
    · rw [GoMap.get_insert_of_ne _ ha']
      rw [hdirty, ← GoMap.contains_iff_mem, GoMap.contains_insert] at ha
      simp only [ha', decide_false, Bool.false_or] at ha
      exact hwf.dirty a ((GoMap.contains_iff_mem _ _).1 ha)
  · rw [hrevs] at hr
    exact Nat.lt_of_lt_of_le (hwf.revisions r hr) hnext

theorem Wf.not_mem_dirty {s : StateDB} (hwf : s.Wf) {addr : Address} (h : s.stateObjects.get addr = none) :
    addr ∉ s.stateObjectsDirty.keys := fun hmem => by
  have hsome := hwf.dirty addr hmem
  rw [h] at hsome
  cases hsome

/-! ## `Finalise`, address by address -/

/-- What one address of `Finalise` leaves in the account trie for its object. -/
def finalisedAccount (deleteEmptyObjects : Bool) (db : Database) (obj : StateObject) : Option Account :=
  if obj.suicided || (deleteEmptyObjects && obj.empty db) then none else some (obj.updateRoot db).data

theorem finaliseObject_ok (deleteEmptyObjects : Bool) (s : StateDB) {addr : Address} {obj : StateObject}
    (h : s.stateObjects.get addr = some obj) (haddr : obj.address = addr) :
    ∃ s', finaliseObject deleteEmptyObjects s addr = .ok s' ∧ s'.db = s.db ∧
      s'.stateObjectsDirty = s.stateObjectsDirty ∧
      s'.trie = Function.update s.trie addr (finalisedAccount deleteEmptyObjects s.db obj) ∧
      ∀ b, b ≠ addr → s'.stateObjects.get b = s.stateObjects.get b := by
  rw [finaliseObject, h]
  dsimp only
  by_cases hdel : (obj.suicided || (deleteEmptyObjects && obj.empty s.db)) = true
  · -- the account leaves the trie
    rw [if_pos hdel]
    refine ⟨_, rfl, rfl, rfl, ?_, fun b hb => ?_⟩
    · show Function.update s.trie obj.address none = _
      rw [finalisedAccount, if_pos hdel, haddr]
    · show (s.stateObjects.insert obj.address _).get b = _
      rw [haddr, GoMap.get_insert_of_ne _ hb]
  · -- the account is written with its storage root
    rw [if_neg hdel]
    have hroot : (obj.updateRoot s.db).address = addr := by rw [StateObject.address_updateRoot, haddr]
    refine ⟨_, rfl, rfl, rfl, ?_, fun b hb => ?_⟩
    · show Function.update s.trie (obj.updateRoot s.db).address _ = _
      rw [finalisedAccount, if_neg hdel, hroot]
    · show (s.stateObjects.insert (obj.updateRoot s.db).address _).get b = _
      rw [hroot, GoMap.get_insert_of_ne _ hb]

theorem foldlM_finaliseObject (deleteEmptyObjects : Bool) (l : List Address) :
    ∀ s : StateDB, l.Nodup → (∀ a ∈ l, ∃ obj, s.stateObjects.get a = some obj ∧ obj.address = a) →
      ∃ s', l.foldlM (finaliseObject deleteEmptyObjects) s = .ok s' ∧ s'.db = s.db ∧
        s'.stateObjectsDirty = s.stateObjectsDirty ∧
        ∀ a, s'.trie a = if a ∈ l then (s.stateObjects.get a).bind (finalisedAccount deleteEmptyObjects s.db)
          else s.trie a := by
  induction l with
  | nil =>
    intro s _ _
    exact ⟨s, rfl, rfl, rfl, fun a => (if_neg List.not_mem_nil).symm⟩
  | cons addr l ih =>
    intro s hnodup hobjs
    obtain ⟨hnotin, hnodup'⟩ := List.nodup_cons.1 hnodup
    obtain ⟨obj, hobj, haddr⟩ := hobjs addr List.mem_cons_self
    obtain ⟨s₁, hs₁, hdb₁, hdirty₁, htrie₁, hother₁⟩ := finaliseObject_ok deleteEmptyObjects s hobj haddr
    -- the later addresses still find their objects, since the step wrote only at `addr`
    have hne : ∀ b ∈ l, b ≠ addr := fun b hb hba => hnotin (hba ▸ hb)
    have hobjs₁ : ∀ b ∈ l, ∃ obj, s₁.stateObjects.get b = some obj ∧ obj.address = b := by
      intro b hb
      rw [hother₁ b (hne b hb)]
      exact hobjs b (List.mem_cons_of_mem _ hb)
    obtain ⟨s', hs', hdb', hdirty', htrie'⟩ := ih s₁ hnodup' hobjs₁
    refine ⟨s', ?_, hdb'.trans hdb₁, hdirty'.trans hdirty₁, fun a => ?_⟩
    · rw [List.foldlM_cons, hs₁]
      exact hs'
    · rw [htrie', hdb₁, htrie₁]
      by_cases ha : a = addr
      · subst ha
        rw [if_neg hnotin, if_pos List.mem_cons_self, Function.update_self, hobj]
        rfl
      · rw [Function.update_of_ne ha]
        by_cases hl : a ∈ l
        · rw [if_pos hl, if_pos (List.mem_cons_of_mem _ hl), hother₁ a ha]
        · rw [if_neg hl, if_neg (by simp [ha, hl])]

theorem Finalise_trie (deleteEmptyObjects : Bool) {s : StateDB} (hwf : s.Wf) :
    ∃ s', s.Finalise deleteEmptyObjects = .ok s' ∧
      ∀ a, s'.trie a = if a ∈ s.stateObjectsDirty.keys then
        (s.stateObjects.get a).bind (finalisedAccount deleteEmptyObjects s.db) else s.trie a := by
  have hobjs : ∀ a ∈ s.stateObjectsDirty.keys, ∃ obj, s.stateObjects.get a = some obj ∧ obj.address = a := by
    intro a ha
    obtain ⟨obj, hobj⟩ := Option.isSome_iff_exists.1 (hwf.dirty a ha)
    exact ⟨obj, hobj, hwf.address a obj hobj⟩
  obtain ⟨s', hs', -, -, htrie⟩ := foldlM_finaliseObject deleteEmptyObjects _ s s.stateObjectsDirty.nodup hobjs
  refine ⟨s'.clearJournalAndRefund, ?_, htrie⟩
  rw [Finalise, hs']

/-! ## Reverting the last snapshot -/

theorem RevertToSnapshot_last {s : StateDB} {rs : List Revision} {id n : Nat}
    (hrevs : s.validRevisions = rs ++ [⟨id, n⟩]) (hlt : ∀ r ∈ rs, r.id < id) :
    s.RevertToSnapshot id =
      match (s.journal.drop n).reverse.foldlM (fun s e => undo e s) s with
      | .error e => .error e
      | .ok s' => .ok { s' with journal := s.journal.take n, validRevisions := rs } := by
  have hidx : s.validRevisions.findIdx (fun r => decide (r.id ≥ id)) = rs.length := by
    have hrs : rs.findIdx (fun r => decide (r.id ≥ id)) = rs.length :=
      List.findIdx_eq_length.2 fun r hr => by simpa using hlt r hr
    rw [hrevs, List.findIdx_append, hrs, if_neg (Nat.lt_irrefl _)]
    simp
  have hget : s.validRevisions[rs.length]? = some ⟨id, n⟩ := by
    rw [hrevs, List.getElem?_append_right (Nat.le_refl _), Nat.sub_self]
    rfl
  have htake : s.validRevisions.take rs.length = rs := by rw [hrevs, List.take_left]
  rw [RevertToSnapshot]
  dsimp only
  rw [hidx, hget, htake]
  exact if_neg fun h => h rfl

theorem undo_balanceChange_live {s : StateDB} {addr : Address} {obj : StateObject}
    (h : s.stateObjects.get addr = some obj) (hdel : obj.deleted = false) (prev : Int) :
    undo (.balanceChange addr prev) s = .ok (obj.setBalance prev s) := by
  rw [undo, getStateObject_live h, hdel]
  rfl

/-! ## A reverted balance change on an empty account -/

/-- An empty account of the trie that no live object stands for: a snapshot, a balance change,
and the revert to the snapshot leave it as it was, but dirty; `Finalise(true)` then deletes it,
where from the snapshot's state it keeps it. -/
theorem Finalise_deletes_reverted_balance (s : StateDB) (hwf : s.Wf) (addr : Address) (acct : Account)
    (amount : Int) (hamount : amount ≠ 0) (hobj : s.stateObjects.get addr = none)
    (htrie : s.trie addr = some acct) (hnonce : acct.nonce = 0) (hbalance : acct.balance = 0)
    (hcode : acct.codeHash = s.db.emptyCodeHash) :
    ∃ reverted kept deleted,
      (s.Snapshot.2.AddBalance addr amount).RevertToSnapshot s.Snapshot.1 = .ok reverted ∧
      s.Finalise true = .ok kept ∧ reverted.Finalise true = .ok deleted ∧
      kept.trie addr = some acct ∧ deleted.trie addr = none := by
  -- the account as `getStateObject` loads it, and the change of its balance
  let obj := StateObject.newObject s.db addr acct true
  let e := JournalEntry.balanceChange addr acct.balance
  let changed : StateObject := { obj with data := { obj.data with balance := acct.balance + amount } }
  let restored : StateObject := { changed with data := { changed.data with balance := acct.balance }, onDirty := false }
  have hobj₁ : s.Snapshot.2.stateObjects.get addr = none := hobj
  have hadd : s.Snapshot.2.AddBalance addr amount =
      ((s.Snapshot.2.setStateObject obj).appendJournal e).written changed := by
    rw [AddBalance, GetOrNewStateObject_load hobj₁ htrie]
    exact StateObject.AddBalance_of_ne_zero obj hamount _
  -- the change marked the account dirty; its undo restores the balance and keeps the mark
  set s₂ := ((s.Snapshot.2.setStateObject obj).appendJournal e).written changed with hs₂
  have hlive₂ : s₂.stateObjects.get addr = some { changed with onDirty := false } := by
    rw [hs₂, written_eq]
    exact GoMap.get_insert_self _ _ _
  have hrevert : s₂.RevertToSnapshot s.Snapshot.1 =
      .ok { s₂.written restored with journal := s.journal, validRevisions := s.validRevisions } := by
    have hjournal : s₂.journal = s.journal ++ [e] := rfl
    have hrevs : s₂.validRevisions = s.validRevisions ++ [⟨s.Snapshot.1, s.journal.length⟩] := rfl
    rw [RevertToSnapshot_last hrevs hwf.revisions, hjournal,
      List.drop_left, List.take_left, List.reverse_singleton, List.foldlM_cons, undo_balanceChange_live hlive₂ rfl]
    rfl
  set reverted := { s₂.written restored with journal := s.journal, validRevisions := s.validRevisions }
    with hreverted
  have hobjs : reverted.stateObjects = s.stateObjects.insert addr restored := by
    show ((s.stateObjects.insert addr obj).insert addr _).insert addr restored = _
    rw [GoMap.insert_insert, GoMap.insert_insert]
  have hdirty : reverted.stateObjectsDirty = s.stateObjectsDirty.insert addr () := by
    simp only [hreverted, hs₂, written_eq, appendJournal_eq, setStateObject_eq]
    rfl
  -- the reverted state keeps the invariant, with the account now among the dirty ones
  have hwf' : reverted.Wf := hwf.of_write (o := restored) hobjs hdirty rfl (Nat.le_succ _)
  have hempty : restored.empty s.db = true :=
    StateObject.empty_newObject s.db addr acct true hnonce hbalance hcode
  obtain ⟨kept, hkept, hkept_trie⟩ := Finalise_trie true hwf
  obtain ⟨deleted, hdeleted, hdeleted_trie⟩ := Finalise_trie true hwf'
  refine ⟨reverted, kept, deleted, by rw [hadd]; exact hrevert, hkept, hdeleted, ?_, ?_⟩
  · rw [hkept_trie, if_neg (hwf.not_mem_dirty hobj), htrie]
  · rw [hdeleted_trie, hdirty, if_pos ((GoMap.contains_iff_mem _ _).1 (by simp)), hobjs, GoMap.get_insert_self]
    show finalisedAccount true s.db restored = none
    rw [finalisedAccount, if_pos (by simp [hempty])]

def zeroDatabase : Database :=
  ⟨fun _ => Trie.zeroHash, fun _ _ => Trie.zeroHash, fun _ => Trie.zeroHash, fun _ => Trie.zeroHash, fun _ => []⟩

def oneEmptyAccount : Address → Option Account :=
  fun a => if a = 1 then some ⟨0, 0, Trie.zeroHash, Trie.zeroHash⟩ else none

theorem Finalise_deletes_reverted_balance_one :
    ∃ reverted kept deleted,
      ((New oneEmptyAccount zeroDatabase).Snapshot.2.AddBalance 1 1).RevertToSnapshot
        (New oneEmptyAccount zeroDatabase).Snapshot.1 = .ok reverted ∧
      (New oneEmptyAccount zeroDatabase).Finalise true = .ok kept ∧ reverted.Finalise true = .ok deleted ∧
      kept.trie 1 = some ⟨0, 0, Trie.zeroHash, Trie.zeroHash⟩ ∧ deleted.trie 1 = none :=
  Finalise_deletes_reverted_balance (New oneEmptyAccount zeroDatabase) (Wf_New _ _) 1
    ⟨0, 0, Trie.zeroHash, Trie.zeroHash⟩ 1 (by decide) rfl rfl rfl rfl rfl

end StateDB

end Zerium.State
