import Zerium.State.Journal

/-! # Committing the state, and a credit it loses

`CommitTo` walks the live objects: it deletes the suicided ones, and the dirty empty ones when
empty objects are deleted, writes every other dirty object into the account trie, and leaves
the account of a clean object as the trie has it (`CommitTo_trie`). An object is dirty once its
`onDirty` callback has run, and the callback runs once: the first write clears it. The undo of
a `touchChange` takes the address out of the dirty set again but does not set the callback
back, so after a reverted touch the object's writes no longer mark it. A balance credited to it
then is in the state but not in the trie that `CommitTo` commits, and the state opened at the
committed root does not have it (`CommitTo_loses_credit`).
-/

namespace Zerium.State

set_option autoImplicit false

namespace StateObject

theorem AddBalance_zero_of_empty (o : StateObject) (s : StateDB) (h : o.empty s.db = true) :
    o.AddBalance 0 s = o.touch s := by
  rw [AddBalance, if_pos rfl, if_pos h]

end StateObject

namespace StateDB

theorem GetOrNewStateObject_live {s : StateDB} {addr : Address} {obj : StateObject}
    (h : s.stateObjects.get addr = some obj) (hdel : obj.deleted = false) :
    s.GetOrNewStateObject addr = (obj, s) := by
  rw [GetOrNewStateObject, getStateObject_live h]
  simp [hdel, Option.filter]

theorem GetBalance_live {s : StateDB} {addr : Address} {obj : StateObject}
    (h : s.stateObjects.get addr = some obj) (hdel : obj.deleted = false) :
    (s.GetBalance addr).1 = obj.data.balance := by
  rw [GetBalance, getStateObject_live h]
  simp [hdel]

theorem GetBalance_load {s : StateDB} {addr : Address} {data : Account}
    (hobj : s.stateObjects.get addr = none) (htrie : s.trie addr = some data) :
    (s.GetBalance addr).1 = data.balance := by
  rw [GetBalance, getStateObject_load hobj htrie]
  rfl

theorem undo_touchChange_live {s : StateDB} {addr : Address} {obj : StateObject}
    (h : s.stateObjects.get addr = some obj) (hdel : obj.deleted = false) (hripemd : addr ≠ ripemd) :
    undo (.touchChange addr false false) s =
      .ok { s.setStateObject { obj with touched := false } with
        stateObjectsDirty := s.stateObjectsDirty.erase addr } := by
  rw [undo, if_pos (by simp [hripemd]), getStateObject_live h]
  simp [hdel]

/-! ## `CommitTo`, object by object -/

/-- What one object of `CommitTo` leaves in the account trie, from whether it is dirty and the
account the trie held. -/
def committedAccount (deleteEmptyObjects : Bool) (db : Database) (isDirty : Bool) (obj : StateObject)
    (old : Option Account) : Option Account :=
  if obj.suicided || (isDirty && deleteEmptyObjects && obj.empty db) then none
  else if isDirty then some (obj.CommitTrie db).data
  else old

theorem CommitTrie_data_dirtyCode (db : Database) (obj : StateObject) (b : Bool) :
    ({ obj with dirtyCode := b }.CommitTrie db).data = (obj.CommitTrie db).data := by
  cases h : obj.trie <;> simp [StateObject.CommitTrie, StateObject.updateTrie, StateObject.getTrie, h]

theorem commitCode_obj (codes : List (List UInt8 × List UInt8)) (obj : StateObject) :
    (commitCode codes obj).2 = obj ∨ (commitCode codes obj).2 = { obj with dirtyCode := false } := by
  rw [commitCode]
  split
  · split
    · exact .inr rfl
    · exact .inl rfl
  · exact .inl rfl

theorem commitObject_spec (deleteEmptyObjects : Bool) {codes codes' : List (List UInt8 × List UInt8)}
    {s s' : StateDB} {addr : Address} {obj : StateObject}
    (hres : commitObject deleteEmptyObjects (codes, s) addr = (codes', s'))
    (h : s.stateObjects.get addr = some obj) (haddr : obj.address = addr) :
    s'.db = s.db ∧
      s'.trie = Function.update s.trie addr
        (committedAccount deleteEmptyObjects s.db (s.stateObjectsDirty.contains addr) obj (s.trie addr)) ∧
      (∀ b, b ≠ addr → s'.stateObjects.get b = s.stateObjects.get b) ∧
      (∀ b, b ≠ addr → s'.stateObjectsDirty.contains b = s.stateObjectsDirty.contains b) := by
  rw [commitObject, h] at hres
  dsimp only at hres
  have hdirty_ne : ∀ (t : StateDB) b, b ≠ addr → (t.stateObjectsDirty.erase addr).contains b = t.stateObjectsDirty.contains b :=
    fun t b hb => by simp [hb]
  by_cases hdel : (obj.suicided || (s.stateObjectsDirty.contains addr && deleteEmptyObjects && obj.empty s.db)) = true
  · -- the account leaves the trie
    rw [if_pos hdel] at hres
    obtain ⟨-, rfl⟩ := Prod.mk.inj hres
    refine ⟨rfl, ?_, fun b hb => ?_, fun b hb => hdirty_ne s b hb⟩
    · show Function.update s.trie obj.address none = _
      rw [committedAccount, if_pos hdel, haddr]
    · show (s.stateObjects.insert obj.address _).get b = _
      rw [haddr, GoMap.get_insert_of_ne _ hb]
  · rw [if_neg hdel] at hres
    by_cases hdirty : s.stateObjectsDirty.contains addr = true
    · -- the code, the storage trie and the account are written
      rw [if_pos hdirty] at hres
      rcases hc : commitCode codes obj with ⟨codes₁, obj₁⟩
      rw [hc] at hres
      obtain ⟨-, rfl⟩ := Prod.mk.inj hres
      have hobj₁ := commitCode_obj codes obj
      rw [hc] at hobj₁
      have haddr₁ : (obj₁.CommitTrie s.db).address = addr := by
        rw [← haddr]
        rcases hobj₁ with rfl | rfl <;> exact StateObject.address_getTrie s.db _
      have hdata₁ : (obj₁.CommitTrie s.db).data = (obj.CommitTrie s.db).data := by
        rcases hobj₁ with rfl | rfl
        · rfl
        · exact CommitTrie_data_dirtyCode s.db obj false
      refine ⟨rfl, ?_, fun b hb => ?_, fun b hb => hdirty_ne _ b hb⟩
      · show Function.update s.trie (obj₁.CommitTrie s.db).address (some (obj₁.CommitTrie s.db).data) = _
        rw [committedAccount, if_neg hdel, if_pos hdirty, haddr₁, hdata₁]
      · show (s.stateObjects.insert (obj₁.CommitTrie s.db).address _).get b = _
        rw [haddr₁, GoMap.get_insert_of_ne _ hb]
    · -- a clean object keeps the account the trie has
      rw [if_neg hdirty] at hres
      obtain ⟨-, rfl⟩ := Prod.mk.inj hres
      refine ⟨rfl, ?_, fun _ _ => rfl, fun b hb => hdirty_ne s b hb⟩
      show s.trie = _
      rw [committedAccount, if_neg hdel, if_neg hdirty, Function.update_eq_self]

theorem foldl_commitObject (deleteEmptyObjects : Bool) (l : List Address) :
    ∀ (codes : List (List UInt8 × List UInt8)) (s : StateDB), l.Nodup →
      (∀ a ∈ l, ∃ obj, s.stateObjects.get a = some obj ∧ obj.address = a) →
      (l.foldl (commitObject deleteEmptyObjects) (codes, s)).2.db = s.db ∧
      ∀ a, (l.foldl (commitObject deleteEmptyObjects) (codes, s)).2.trie a =
        if a ∈ l then (s.stateObjects.get a).bind fun obj =>
          committedAccount deleteEmptyObjects s.db (s.stateObjectsDirty.contains a) obj (s.trie a)
        else s.trie a := by
  induction l with
  | nil =>
    intro codes s _ _
    exact ⟨rfl, fun a => (if_neg List.not_mem_nil).symm⟩
  | cons addr l ih =>
    intro codes s hnodup hobjs
    obtain ⟨hnotin, hnodup'⟩ := List.nodup_cons.1 hnodup
    obtain ⟨obj, hobj, haddr⟩ := hobjs addr List.mem_cons_self
    rcases hr : commitObject deleteEmptyObjects (codes, s) addr with ⟨codes₁, s₁⟩
    obtain ⟨hdb₁, htrie₁, hobjs₁, hdirty₁⟩ := commitObject_spec deleteEmptyObjects hr hobj haddr
    -- the later addresses still find their objects and their marks, since the step wrote only at `addr`
    have hne : ∀ b ∈ l, b ≠ addr := fun b hb hba => hnotin (hba ▸ hb)
    have hobjs' : ∀ b ∈ l, ∃ obj, s₁.stateObjects.get b = some obj ∧ obj.address = b := by
      intro b hb
      rw [hobjs₁ b (hne b hb)]
      exact hobjs b (List.mem_cons_of_mem _ hb)
    obtain ⟨hdb', htrie'⟩ := ih codes₁ s₁ hnodup' hobjs'
    rw [List.foldl_cons, hr]
    refine ⟨hdb'.trans hdb₁, fun a => ?_⟩
    rw [htrie', hdb₁, htrie₁]
    by_cases ha : a = addr
    · subst ha
      rw [if_neg hnotin, if_pos List.mem_cons_self, Function.update_self, hobj]
      rfl
    · rw [Function.update_of_ne ha]
      by_cases hl : a ∈ l
      · rw [if_pos hl, if_pos (List.mem_cons_of_mem _ hl), hobjs₁ a ha, hdirty₁ a ha]
      · rw [if_neg hl, if_neg (by simp [ha, hl])]

theorem CommitTo_trie (deleteEmptyObjects : Bool) {s : StateDB}
    (haddr : ∀ a obj, s.stateObjects.get a = some obj → obj.address = a) (a : Address) :
    (s.CommitTo deleteEmptyObjects).2.trie a =
      match s.stateObjects.get a with
      | some obj => committedAccount deleteEmptyObjects s.db (s.stateObjectsDirty.contains a) obj (s.trie a)
      | none => s.trie a := by
  have hobjs : ∀ a ∈ s.stateObjects.keys, ∃ obj, s.stateObjects.get a = some obj ∧ obj.address = a := by
    intro a ha
    obtain ⟨obj, hobj⟩ := Option.isSome_iff_exists.1 ((s.stateObjects.mem_keys a).1 ha)
    exact ⟨obj, hobj, haddr a obj hobj⟩
  have htrie := (foldl_commitObject deleteEmptyObjects _ [] s s.stateObjects.nodup hobjs).2 a
  show (s.stateObjects.keys.foldl (commitObject deleteEmptyObjects) ([], s)).2.trie a = _
  rw [htrie]
  cases hobj : s.stateObjects.get a with
  | none => rw [if_neg (fun ha => by simpa [hobj] using (s.stateObjects.mem_keys a).1 ha)]
  | some obj => rw [if_pos ((s.stateObjects.mem_keys a).2 (by simp [hobj]))]; rfl

theorem address_insert {m : GoMap Address StateObject} (hm : ∀ a obj, m.get a = some obj → obj.address = a)
    (o : StateObject) : ∀ a obj, (m.insert o.address o).get a = some obj → obj.address = a := by
  intro a obj h
  by_cases ha : a = o.address
  · subst ha
    rw [GoMap.get_insert_self] at h
    rw [← Option.some.inj h]
  · rw [GoMap.get_insert_of_ne _ ha] at h
    exact hm a obj h

/-! ## A credit after a reverted touch -/

/-- An empty account of the trie that no live object stands for: a zero-value `AddBalance`
touches it, and the revert to the snapshot before takes the touch and the dirty mark back but
leaves the `onDirty` callback cleared. A later credit is then in the state but not in the trie
that `CommitTo` commits, so the state opened at that root has the balance zero. -/
theorem CommitTo_loses_credit (s : StateDB) (hwf : s.Wf) (addr : Address) (acct : Account)
    (amount : Int) (hamount : amount ≠ 0) (hripemd : addr ≠ ripemd)
    (hobj : s.stateObjects.get addr = none) (htrie : s.trie addr = some acct) (hnonce : acct.nonce = 0)
    (hbalance : acct.balance = 0) (hcode : acct.codeHash = s.db.emptyCodeHash) (deleteEmptyObjects : Bool) :
    ∃ reverted, (s.Snapshot.2.AddBalance addr 0).RevertToSnapshot s.Snapshot.1 = .ok reverted ∧
      ((reverted.AddBalance addr amount).GetBalance addr).1 = amount ∧
      ((New ((reverted.AddBalance addr amount).CommitTo deleteEmptyObjects).2.trie s.db).GetBalance addr).1 = 0 := by
  -- the account as `getStateObject` loads it; it is empty, so the zero-value credit touches it
  let obj := StateObject.newObject s.db addr acct true
  let touched : StateObject := { obj with touched := true }
  let restored : StateObject := { touched with touched := false, onDirty := false }
  have hobj₁ : s.Snapshot.2.stateObjects.get addr = none := hobj
  have hempty : obj.empty s.db = true := StateObject.empty_newObject s.db addr acct true hnonce hbalance hcode
  have htouch : s.Snapshot.2.AddBalance addr 0 =
      ((s.Snapshot.2.setStateObject obj).appendJournal (.touchChange addr false false)).written touched := by
    rw [AddBalance, GetOrNewStateObject_load hobj₁ htrie]
    exact StateObject.AddBalance_zero_of_empty obj _ hempty
  set s₂ := ((s.Snapshot.2.setStateObject obj).appendJournal (.touchChange addr false false)).written touched
    with hs₂
  have hlive₂ : s₂.stateObjects.get addr = some { touched with onDirty := false } := by
    rw [hs₂, written_eq]
    exact GoMap.get_insert_self _ _ _
  -- the revert takes the touch and the dirty mark back, but not the callback
  have hrevert : s₂.RevertToSnapshot s.Snapshot.1 =
      .ok { s₂.setStateObject restored with
        stateObjectsDirty := s₂.stateObjectsDirty.erase addr, journal := s.journal,
        validRevisions := s.validRevisions } := by
    have hjournal : s₂.journal = s.journal ++ [.touchChange addr false false] := rfl
    have hrevs : s₂.validRevisions = s.validRevisions ++ [⟨s.Snapshot.1, s.journal.length⟩] := rfl
    rw [RevertToSnapshot_last hrevs hwf.revisions, hjournal, List.drop_left, List.take_left,
      List.reverse_singleton, List.foldlM_cons, undo_touchChange_live hlive₂ rfl hripemd]
    rfl
  let reverted : StateDB := { s₂.setStateObject restored with
    stateObjectsDirty := s₂.stateObjectsDirty.erase addr, journal := s.journal, validRevisions := s.validRevisions }
  have hlive₃ : reverted.stateObjects.get addr = some restored := GoMap.get_insert_self _ _ _
  -- the credit is written to the object, and marks nothing
  let credited : StateObject := { restored with data := { restored.data with balance := acct.balance + amount } }
  have hcredit : reverted.AddBalance addr amount =
      (reverted.appendJournal (.balanceChange addr acct.balance)).written credited := by
    rw [AddBalance, GetOrNewStateObject_live hlive₃ rfl]
    exact StateObject.AddBalance_of_ne_zero restored hamount _
  set s₄ := (reverted.appendJournal (.balanceChange addr acct.balance)).written credited with hs₄
  have hobjs₄ : s₄.stateObjects = s.stateObjects.insert addr { credited with onDirty := false } := by
    show (((s.stateObjects.insert addr obj).insert addr _).insert addr restored).insert addr _ = _
    rw [GoMap.insert_insert, GoMap.insert_insert, GoMap.insert_insert]
  have hlive₄ : s₄.stateObjects.get addr = some { credited with onDirty := false } := by
    rw [hobjs₄]
    exact GoMap.get_insert_self _ _ _
  have hclean₄ : s₄.stateObjectsDirty.contains addr = false := by
    show ((s₂.stateObjectsDirty.erase addr)).contains addr = false
    simp
  have haddr₄ : ∀ a o, s₄.stateObjects.get a = some o → o.address = a := by
    rw [hobjs₄]
    exact address_insert hwf.address { credited with onDirty := false }
  refine ⟨reverted, by rw [htouch]; exact hrevert, ?_, ?_⟩
  · rw [hcredit, GetBalance_live hlive₄ rfl]
    show acct.balance + amount = amount
    rw [hbalance, Int.zero_add]
  · -- the committed trie still holds the account with no balance
    have hcommitted : ((s₄.CommitTo deleteEmptyObjects).2.trie addr) = some acct := by
      rw [CommitTo_trie deleteEmptyObjects haddr₄, hlive₄]
      show committedAccount deleteEmptyObjects s.db (s₄.stateObjectsDirty.contains addr) _ (s.trie addr) = _
      have hsuicided : credited.suicided = false := rfl
      rw [hclean₄, committedAccount, if_neg (by simp [hsuicided]), if_neg Bool.false_ne_true, htrie]
    rw [hcredit, GetBalance_load (s := New (s₄.CommitTo deleteEmptyObjects).2.trie s.db) rfl hcommitted,
      hbalance]

theorem CommitTo_loses_credit_one :
    ∃ reverted, ((New oneEmptyAccount zeroDatabase).Snapshot.2.AddBalance 1 0).RevertToSnapshot
        (New oneEmptyAccount zeroDatabase).Snapshot.1 = .ok reverted ∧
      ((reverted.AddBalance 1 5).GetBalance 1).1 = 5 ∧
      ((New ((reverted.AddBalance 1 5).CommitTo true).2.trie zeroDatabase).GetBalance 1).1 = 0 :=
  CommitTo_loses_credit (New oneEmptyAccount zeroDatabase) (Wf_New _ _) 1 ⟨0, 0, Trie.zeroHash, Trie.zeroHash⟩ 5
    (by decide) (by decide) rfl rfl rfl rfl rfl true

end StateDB

end Zerium.State
