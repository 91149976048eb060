import Zerium.State.Commit

/-! # The state as its accessors read it

`Exist`, `Empty`, `GetBalance`, `GetNonce`, `GetCode`, `GetCodeSize`, `GetCodeHash`, `GetState`
and `HasSuicided` read an account through `getStateObject`, which loads it on first use. `observe`
is what they read of the whole state: each accessor's answer is a function of it
(`answers_eq_of_observe`), the loads a read leaves behind do not change it
(`observe_getStateObject`), and a write changes it at one account (`observe_written`). `Inv` is
what later proofs need beyond that: live objects at their own address, deleted ones out of the
trie, and 32-byte hashes.
-/

namespace Zerium.State

set_option autoImplicit false

open Zerium.Trie (zeroHash bytesToHash)

namespace StateObject

/-! ## An account as the accessors read it -/

/-- The code `Code` returns, from the loaded code and the code hash. -/
def codeOf (db : Database) (code : Option (List UInt8)) (codeHash : List UInt8) : Option (List UInt8) :=
  match code with
  | some code => some code
  | none => if codeHash = db.emptyCodeHash then none else some (db.contractCode codeHash)

/-- The size `GetCodeSize` returns, from the loaded code and the code hash. -/
def codeSizeOf (db : Database) (code : Option (List UInt8)) (codeHash : List UInt8) : Nat :=
  match code with
  | some code => code.length
  | none => (db.contractCode codeHash).length

structure View where
  balance : Int
  nonce : Nat
  codeHash : List UInt8
  code : Option (List UInt8)
  codeSize : Nat
  storage : List UInt8 → List UInt8
  suicided : Bool

/-- What the accessors read of an object; `Empty` reads the nonce, the balance and the hash. -/
def view (db : Database) (o : StateObject) : View where
  balance := o.data.balance
  nonce := o.data.nonce
  codeHash := o.data.codeHash
  code := codeOf db o.code o.data.codeHash
  codeSize := codeSizeOf db o.code o.data.codeHash
  storage := fun key => (o.GetState db key).1
  suicided := o.suicided

variable (db : Database) (o : StateObject)

theorem Code_fst : (o.Code db).1 = codeOf db o.code o.data.codeHash := by
  rw [Code]
  cases o.code with
  | some code => rfl
  | none =>
    dsimp only
    split <;> simp [codeOf, *]

theorem getTrie_fst : (o.getTrie db).1 = o.trie.getD (db.openStorageTrie o.data.root) := by
  rw [getTrie]
  cases o.trie <;> rfl

theorem GetState_fst (key : List UInt8) :
    (o.GetState db key).1 = (o.cachedStorage key).getD ((o.trie.getD (db.openStorageTrie o.data.root)) key) := by
  rw [GetState, ← getTrie_fst]
  cases o.cachedStorage key <;> rfl

theorem getTrie_snd : (o.getTrie db).2 = { o with trie := some (o.trie.getD (db.openStorageTrie o.data.root)) } := by
  rw [getTrie]
  cases h : o.trie with
  | some tr =>
    cases o
    simp_all
  | none => rfl

theorem view_eq : o.view db =
    { balance := o.data.balance, nonce := o.data.nonce, codeHash := o.data.codeHash,
      code := codeOf db o.code o.data.codeHash, codeSize := codeSizeOf db o.code o.data.codeHash,
      storage := fun key => (o.cachedStorage key).getD ((o.trie.getD (db.openStorageTrie o.data.root)) key),
      suicided := o.suicided } := by
  simp only [view, GetState_fst]

theorem view_Code : (o.Code db).2.view db = o.view db := by
  rw [Code]
  cases hcode : o.code with
  | some code => rfl
  | none =>
    dsimp only
    split
    · rfl
    · rename_i hempty
      simp [view, codeOf, codeSizeOf, hcode, hempty, GetState_fst]

theorem view_GetState (key : List UInt8) : (o.GetState db key).2.view db = o.view db := by
  rw [GetState]
  cases hc : o.cachedStorage key with
  | some value => rfl
  | none =>
    dsimp only
    rw [getTrie_fst, getTrie_snd]
    split
    · simp only [view, View.mk.injEq, true_and, and_true]
      funext k
      by_cases hk : k = key
      · subst hk
        simp [GetState_fst, hc]
      · simp [GetState_fst, hk]
    · simp [view, GetState_fst]

theorem Code_snd : (o.Code db).2 = { o with code := codeOf db o.code o.data.codeHash } := by
  rw [Code]
  cases hcode : o.code with
  | some code =>
    cases o
    simp_all [codeOf]
  | none =>
    dsimp only
    split
    · cases o
      simp_all [codeOf]
    · simp_all [codeOf]

theorem GetState_snd (key : List UInt8) :
    ∃ tr cached, (o.GetState db key).2 = { o with trie := tr, cachedStorage := cached } := by
  rw [GetState]
  cases o.cachedStorage key with
  | some value => exact ⟨o.trie, o.cachedStorage, rfl⟩
  | none =>
    dsimp only
    rw [getTrie_snd]
    split
    · exact ⟨_, _, rfl⟩
    · exact ⟨_, _, rfl⟩

theorem codeOf_codeOf (code : Option (List UInt8)) (codeHash : List UInt8) :
    codeOf db (codeOf db code codeHash) codeHash = codeOf db code codeHash := by
  cases code with
  | some code => rfl
  | none => by_cases hempty : codeHash = db.emptyCodeHash <;> simp [codeOf, hempty]

theorem codeSizeOf_codeOf (code : Option (List UInt8)) (codeHash : List UInt8) :
    codeSizeOf db (codeOf db code codeHash) codeHash = codeSizeOf db code codeHash := by
  cases code with
  | some code => rfl
  | none => by_cases hempty : codeHash = db.emptyCodeHash <;> simp [codeOf, codeSizeOf, hempty]

theorem view_setStorage (key value : List UInt8) :
    ({ o with
        cachedStorage := Function.update o.cachedStorage key (some value)
        dirtyStorage := Function.update o.dirtyStorage key (some value) } : StateObject).view db =
      { o.view db with storage := Function.update (o.view db).storage key value } := by
  simp only [view_eq, View.mk.injEq, true_and, and_true]
  funext k
  by_cases hk : k = key
  · subst hk
    simp
  · simp [hk]

theorem codeHash_newObject (address : Address) (data : Account) (onDirty : Bool)
    (hkeccak : ∀ b, (db.keccak b).length = 32) (hdata : data.codeHash = [] ∨ data.codeHash.length = 32) :
    (newObject db address data onDirty).data.codeHash.length = 32 := by
  show (if data.codeHash = [] then db.emptyCodeHash else data.codeHash).length = 32
  split
  · exact hkeccak []
  · exact hdata.resolve_left ‹_›

def View.empty (db : Database) : View where
  balance := 0
  nonce := 0
  codeHash := db.emptyCodeHash
  code := none
  codeSize := (db.contractCode db.emptyCodeHash).length
  storage := db.openStorageTrie zeroHash
  suicided := false

theorem view_created (address : Address) :
    ({ newObject db address ⟨0, 0, zeroHash, []⟩ true with onDirty := false } : StateObject).view db =
      View.empty db := by
  simp [view_eq, newObject, codeOf, codeSizeOf, View.empty]

end StateObject

/-- The state as its accessors read it: the database and the account trie it reads through,
each account, the refund, the transaction the logs are stamped with, the logs and the
preimages. -/
structure Observation where
  db : Database
  trie : Address → Option Account
  accounts : Address → Option StateObject.View
  refund : Nat
  thash : List UInt8
  bhash : List UInt8
  txIndex : Nat
  logs : List UInt8 → List Log
  logSize : Nat
  preimages : List UInt8 → Option (List UInt8)

namespace Observation

def accountOrNew (ob : Observation) (a : Address) : StateObject.View :=
  (ob.accounts a).getD (StateObject.View.empty ob.db)

def setAccount (ob : Observation) (a : Address) (v : Option StateObject.View) : Observation :=
  { ob with accounts := Function.update ob.accounts a v }

@[simp] theorem setAccount_setAccount (ob : Observation) (a : Address) (v w : Option StateObject.View) :
    (ob.setAccount a v).setAccount a w = ob.setAccount a w := by
  simp [setAccount]

theorem setAccount_self {ob : Observation} {a : Address} {v : Option StateObject.View} (h : ob.accounts a = v) :
    ob.setAccount a v = ob := by
  rw [setAccount, ← h, Function.update_eq_self]

@[simp] theorem accounts_setAccount (ob : Observation) (a : Address) (v : Option StateObject.View) :
    (ob.setAccount a v).accounts = Function.update ob.accounts a v := rfl

end Observation

namespace StateDB

/-- The object `getStateObject` returns, without the load it caches. -/
def account (s : StateDB) (a : Address) : Option StateObject :=
  match s.stateObjects.get a with
  | some obj => if obj.deleted then none else some obj
  | none => (s.trie a).map fun data => StateObject.newObject s.db a data true

def observe (s : StateDB) : Observation where
  db := s.db
  trie := s.trie
  accounts := fun a => (s.account a).map (StateObject.view s.db)
  refund := s.refund
  thash := s.thash
  bhash := s.bhash
  txIndex := s.txIndex
  logs := s.logs
  logSize := s.logSize
  preimages := s.preimages

/-! ## What the primitive writes do to the observation -/

theorem getStateObject_none {s : StateDB} {a : Address} (h : (s.getStateObject a).1 = none) :
    (s.getStateObject a).2 = s := by
  revert h
  rw [getStateObject]
  split
  · intro _
    rfl
  · split
    · intro _
      rfl
    · intro h
      cases h

theorem getStateObject_fst (s : StateDB) (a : Address) : (s.getStateObject a).1 = s.account a := by
  rw [getStateObject, account]
  cases s.stateObjects.get a with
  | some obj => rfl
  | none => cases s.trie a <;> rfl

theorem account_setStateObject (s : StateDB) {o : StateObject} (hdel : o.deleted = false) (b : Address) :
    (s.setStateObject o).account b = if b = o.address then some o else s.account b := by
  rw [account, account, setStateObject_eq]
  by_cases hb : b = o.address
  · subst hb
    simp [hdel]
  · simp only [GoMap.get_insert_of_ne _ hb, if_neg hb]

theorem observe_setStateObject (s : StateDB) {o : StateObject} (hdel : o.deleted = false) :
    (s.setStateObject o).observe = s.observe.setAccount o.address (some (o.view s.db)) := by
  simp only [observe, Observation.setAccount, setStateObject_db]
  congr 1
  funext b
  rw [account_setStateObject s hdel b]
  by_cases hb : b = o.address
  · subst hb
    simp
  · simp [hb]

theorem observe_written (s : StateDB) {o : StateObject} (hdel : o.deleted = false) :
    (s.written o).observe = s.observe.setAccount o.address (some (o.view s.db)) := by
  have hdel' : ({ o with onDirty := false } : StateObject).deleted = false := hdel
  have hview : ({ o with onDirty := false } : StateObject).view s.db = o.view s.db := by
    simp only [StateObject.view_eq]
  -- the dirty mark is not observed
  rw [written]
  split <;>
  · rw [observe_setStateObject _ hdel']
    show s.observe.setAccount o.address (some (({ o with onDirty := false } : StateObject).view s.db)) = _
    rw [hview]

@[simp] theorem observe_appendJournal (s : StateDB) (e : JournalEntry) : (s.appendJournal e).observe = s.observe :=
  rfl

theorem observe_write (s : StateDB) (e : JournalEntry) {w : StateObject} (hdel : w.deleted = false) :
    ((s.appendJournal e).written w).observe = s.observe.setAccount w.address (some (w.view s.db)) := by
  rw [observe_written _ hdel]
  rfl

theorem observe_getStateObject (s : StateDB) (a : Address) : (s.getStateObject a).2.observe = s.observe := by
  rw [getStateObject]
  cases hobj : s.stateObjects.get a with
  | some obj => rfl
  | none =>
    cases htrie : s.trie a with
    | none => rfl
    | some data =>
      dsimp only
      rw [observe_setStateObject _ rfl, StateObject.address_newObject]
      apply Observation.setAccount_self
      simp [observe, account, hobj, htrie]

theorem getStateObject_cases (s : StateDB) (a : Address) :
    s.getStateObject a = (s.account a, s) ∨
      ∃ data, s.stateObjects.get a = none ∧ s.trie a = some data ∧
        s.getStateObject a =
          (some (StateObject.newObject s.db a data true), s.setStateObject (StateObject.newObject s.db a data true)) := by
  rw [getStateObject, account]
  cases hobj : s.stateObjects.get a with
  | some obj => exact .inl rfl
  | none =>
    cases htrie : s.trie a with
    | none => exact .inl rfl
    | some data => exact .inr ⟨data, rfl, rfl, rfl⟩

/-! ## The accessors read the observation

Each accessor's answer is a function of `observe`, so two states with one observation answer
every read alike; the loads and caches a read leaves behind are the part the observation
forgets. -/

section Accessors

variable (s : StateDB) (a : Address)

theorem accounts_observe : s.observe.accounts a = (s.getStateObject a).1.map (StateObject.view s.db) := by
  rw [getStateObject_fst]
  rfl

theorem Exist_fst : (s.Exist a).1 = (s.observe.accounts a).isSome := by
  rw [accounts_observe, Exist, Option.isSome_map]

theorem db_getStateObject : (s.getStateObject a).2.db = s.db :=
  congrArg Observation.db (observe_getStateObject s a)

theorem Empty_fst : (s.Empty a).1 =
    (s.observe.accounts a).all fun v => v.nonce = 0 && v.balance = 0 && v.codeHash = s.db.emptyCodeHash := by
  have hdb := db_getStateObject s a
  rw [accounts_observe, Empty]
  rcases hg : s.getStateObject a with ⟨_ | o, t⟩
  · rfl
  · rw [hg] at hdb
    dsimp only at hdb ⊢
    rw [hdb]
    rfl

theorem GetBalance_fst : (s.GetBalance a).1 = ((s.observe.accounts a).map (·.balance)).getD 0 := by
  rw [accounts_observe, GetBalance, Option.map_map]
  rfl

theorem GetNonce_fst : (s.GetNonce a).1 = ((s.observe.accounts a).map (·.nonce)).getD 0 := by
  rw [accounts_observe, GetNonce, Option.map_map]
  rfl

theorem HasSuicided_fst : (s.HasSuicided a).1 = ((s.observe.accounts a).map (·.suicided)).getD false := by
  rw [accounts_observe, HasSuicided, Option.map_map]
  rfl

theorem GetCode_fst : (s.GetCode a).1 = (s.observe.accounts a).bind (·.code) := by
  have hdb := db_getStateObject s a
  rw [accounts_observe, GetCode]
  rcases hg : s.getStateObject a with ⟨_ | o, t⟩
  · rfl
  · rw [hg] at hdb
    dsimp only at hdb ⊢
    rw [hdb]
    exact StateObject.Code_fst s.db o

theorem GetCodeSize_fst : (s.GetCodeSize a).1 = ((s.observe.accounts a).map (·.codeSize)).getD 0 := by
  have hdb := db_getStateObject s a
  rw [accounts_observe, GetCodeSize]
  rcases hg : s.getStateObject a with ⟨_ | o, t⟩
  · rfl
  · rw [hg] at hdb
    dsimp only at hdb ⊢
    rw [hdb]
    cases hc : o.code <;> simp [StateObject.view, StateObject.codeSizeOf, hc]

theorem GetCodeHash_fst : (s.GetCodeHash a).1 = ((s.observe.accounts a).map fun v => bytesToHash v.codeHash).getD zeroHash := by
  rw [accounts_observe, GetCodeHash]
  rcases s.getStateObject a with ⟨_ | o, t⟩ <;> rfl

theorem GetState_fst (key : List UInt8) :
    (s.GetState a key).1 = ((s.observe.accounts a).map fun v => v.storage key).getD zeroHash := by
  have hdb := db_getStateObject s a
  rw [accounts_observe, GetState]
  rcases hg : s.getStateObject a with ⟨_ | o, t⟩
  · rfl
  · rw [hg] at hdb
    dsimp only at hdb ⊢
    rw [hdb]
    rfl

end Accessors

theorem answers_eq_of_observe {s t : StateDB} (h : s.observe = t.observe) (a : Address) (key : List UInt8) :
    (s.Exist a).1 = (t.Exist a).1 ∧ (s.Empty a).1 = (t.Empty a).1 ∧
      (s.GetBalance a).1 = (t.GetBalance a).1 ∧ (s.GetNonce a).1 = (t.GetNonce a).1 ∧
      (s.GetCode a).1 = (t.GetCode a).1 ∧ (s.GetCodeSize a).1 = (t.GetCodeSize a).1 ∧
      (s.GetCodeHash a).1 = (t.GetCodeHash a).1 ∧ (s.GetState a key).1 = (t.GetState a key).1 ∧
      (s.HasSuicided a).1 = (t.HasSuicided a).1 ∧ s.GetRefund = t.GetRefund ∧
      s.GetLogs key = t.GetLogs key ∧ s.Preimages = t.Preimages := by
  have hdb : s.db = t.db := congrArg Observation.db h
  simp only [Exist_fst, Empty_fst, GetBalance_fst, GetNonce_fst, GetCode_fst, GetCodeSize_fst, GetCodeHash_fst,
    GetState_fst, HasSuicided_fst, h, hdb]
  exact ⟨trivial, trivial, trivial, trivial, trivial, trivial, trivial, trivial, trivial,
    congrArg Observation.refund h, congrFun (congrArg Observation.logs h) key, congrArg Observation.preimages h⟩

/-! ## The invariant the revert needs -/

/-- What the revert needs of a state: a live object sits at its own address with a code hash of
32 bytes, a deleted one is out of the account trie, an account of the trie has a code hash of 32
bytes or none, and the database hashes to 32 bytes. -/
structure Inv (s : StateDB) : Prop where
  address : ∀ a obj, s.stateObjects.get a = some obj → obj.address = a
  deleted : ∀ a obj, s.stateObjects.get a = some obj → obj.deleted = true → s.trie a = none
  codeHash : ∀ a obj, s.stateObjects.get a = some obj → obj.data.codeHash.length = 32
  trieCodeHash : ∀ a data, s.trie a = some data → data.codeHash = [] ∨ data.codeHash.length = 32
  keccak : ∀ b, (s.db.keccak b).length = 32

/-- `o` is the live object at `a`. -/
structure Live (s : StateDB) (a : Address) (o : StateObject) : Prop where
  get : s.stateObjects.get a = some o
  address : o.address = a
  deleted : o.deleted = false
  codeHash : o.data.codeHash.length = 32

section Invariant

variable {s t : StateDB} {a : Address} {o : StateObject}

theorem Inv_New (trie : Address → Option Account) (db : Database)
    (htrie : ∀ a data, trie a = some data → data.codeHash = [] ∨ data.codeHash.length = 32)
    (hkeccak : ∀ b, (db.keccak b).length = 32) : (New trie db).Inv where
  address _ _ h := by cases h
  deleted _ _ h := by cases h
  codeHash _ _ h := by cases h
  trieCodeHash := htrie
  keccak := hkeccak

theorem Live.getStateObject (h : Live s a o) : s.getStateObject a = (some o, s) := by
  rw [getStateObject_live h.get, h.deleted]
  rfl

theorem Live.account (h : Live s a o) : s.account a = some o := by
  simp [StateDB.account, h.get, h.deleted]

theorem Live.accounts (h : Live s a o) : s.observe.accounts a = some (o.view s.db) := by
  show (s.account a).map _ = _
  rw [h.account]
  rfl

theorem Inv.congr (h : s.Inv) (hobjs : t.stateObjects = s.stateObjects) (htrie : t.trie = s.trie)
    (hdb : t.db = s.db) : t.Inv := by
  obtain ⟨haddress, hdeleted, hcode, htcode, hkeccak⟩ := h
  rw [← hobjs, ← htrie, ← hdb] at *
  exact ⟨haddress, hdeleted, hcode, htcode, hkeccak⟩

theorem Inv.setStateObject (h : s.Inv) (hdel : o.deleted = false) (hcode : o.data.codeHash.length = 32) :
    (s.setStateObject o).Inv := by
  refine ⟨fun b obj hobj => ?_, fun b obj hobj hdel' => ?_, fun b obj hobj => ?_, h.trieCodeHash, h.keccak⟩
  all_goals
    rw [setStateObject_eq, GoMap.get_insert] at hobj
    split at hobj
  · rename_i hb
    rw [hb, ← Option.some.inj hobj]
  · exact h.address b obj hobj
  · rw [← Option.some.inj hobj, hdel] at hdel'
    cases hdel'
  · exact h.deleted b obj hobj hdel'
  · rw [← Option.some.inj hobj]
    exact hcode
  · exact h.codeHash b obj hobj

theorem Inv.written (h : s.Inv) (hdel : o.deleted = false) (hcode : o.data.codeHash.length = 32) :
    (s.written o).Inv := by
  rw [StateDB.written]
  split
  · exact (h.congr (t := s.MarkStateObjectDirty o.address) rfl rfl rfl).setStateObject
      (o := { o with onDirty := false }) hdel hcode
  · exact h.setStateObject (o := { o with onDirty := false }) hdel hcode

theorem Inv.live (h : s.Inv) (hget : (s.getStateObject a).1 = some o) : Live (s.getStateObject a).2 a o := by
  rw [StateDB.getStateObject] at hget ⊢
  cases hobj : s.stateObjects.get a with
  | some obj =>
    rw [hobj] at hget
    dsimp only at hget ⊢
    split at hget
    · cases hget
    · rename_i hdel
      cases hget
      exact ⟨hobj, h.address a o hobj, by simpa using hdel, h.codeHash a o hobj⟩
  | none =>
    rw [hobj] at hget
    cases htrie : s.trie a with
    | none =>
      rw [htrie] at hget
      cases hget
    | some data =>
      rw [htrie] at hget
      cases hget
      exact ⟨GoMap.get_insert_self _ _ _, rfl, rfl,
        StateObject.codeHash_newObject s.db a data true h.keccak (h.trieCodeHash a data htrie)⟩

theorem Inv.getStateObject (h : s.Inv) (a : Address) : (s.getStateObject a).2.Inv := by
  rcases getStateObject_cases s a with hs | ⟨data, -, htrie, hs⟩ <;> rw [hs]
  · exact h
  · exact h.setStateObject rfl (StateObject.codeHash_newObject s.db a data true h.keccak (h.trieCodeHash a data htrie))

theorem Inv.exists_live {v : StateObject.View} (h : t.Inv) (hv : t.observe.accounts a = some v) :
    ∃ o t₁, t.getStateObject a = (some o, t₁) ∧ Live t₁ a o ∧ o.view t.db = v ∧ t₁.observe = t.observe ∧ t₁.Inv := by
  obtain ⟨o, ho, hov⟩ := Option.map_eq_some_iff.1 hv
  have hget : (t.getStateObject a).1 = some o := by rw [getStateObject_fst, ho]
  refine ⟨o, (t.getStateObject a).2, ?_, h.live hget, hov, observe_getStateObject t a, h.getStateObject a⟩
  rw [← hget]

end Invariant

end StateDB

end Zerium.State
