import Zerium.Lib.GoMap
import Zerium.Trie.Node

/-! # The state database and its journal

`statedb.go`, `state_object.go` and `journal.go`: the live state objects over the account trie,
the addresses written since the last commit, the journal that `Snapshot` and `RevertToSnapshot`
work on, and `Finalise`, which writes the dirty objects into the account trie. The tries are kept
as what they hold: an address's decoded account, and a slot's word, zero for a missing slot. The
database is a parameter that does not fail, a state object is a value (every object written
through its pointer is the live one at its address), and a panic of the source is an error.
-/

namespace Zerium.State

set_option autoImplicit false

open Zerium.Trie (zeroHash bytesToHash)

abbrev Address := Nat

def ripemd : Address := 3

/-- `Account`, as the account trie holds it. -/
structure Account where
  nonce : Nat
  balance : Int
  root : List UInt8
  codeHash : List UInt8
deriving DecidableEq, Repr

/-- What the state reads outside itself: Keccak-256, the contents of the storage trie at a
root, the root of given storage contents and of given account trie contents, and contract code
by its hash. -/
structure Database where
  keccak : List UInt8 → List UInt8
  openStorageTrie : List UInt8 → List UInt8 → List UInt8
  storageRoot : (List UInt8 → List UInt8) → List UInt8
  accountRoot : (Address → Option Account) → List UInt8
  contractCode : List UInt8 → List UInt8

def Database.emptyCodeHash (db : Database) : List UInt8 := db.keccak []

structure StateObject where
  address : Address
  data : Account
  trie : Option (List UInt8 → List UInt8)
  code : Option (List UInt8)
  cachedStorage : List UInt8 → Option (List UInt8)
  dirtyStorage : List UInt8 → Option (List UInt8)
  dirtyCode : Bool
  suicided : Bool
  touched : Bool
  deleted : Bool
  onDirty : Bool

/-- The fields of `types.Log` that the state sets or reads back. -/
structure Log where
  address : Address
  topics : List (List UInt8)
  data : List UInt8
  txHash : List UInt8
  txIndex : Nat
  blockHash : List UInt8
  index : Nat
deriving DecidableEq, Repr

/-- The undo entries of `journal.go`. -/
inductive JournalEntry where
  | createObjectChange (account : Address)
  | resetObjectChange (prev : StateObject)
  | suicideChange (account : Address) (prev : Bool) (prevbalance : Int)
  | balanceChange (account : Address) (prev : Int)
  | nonceChange (account : Address) (prev : Nat)
  | storageChange (account : Address) (key prevalue : List UInt8)
  | codeChange (account : Address) (prevcode : Option (List UInt8)) (prevhash : List UInt8)
  | refundChange (prev : Nat)
  | addLogChange (txhash : List UInt8)
  | addPreimageChange (hash : List UInt8)
  | touchChange (account : Address) (prev prevDirty : Bool)

structure Revision where
  id : Nat
  journalIndex : Nat
deriving DecidableEq, Repr

/-- The panics of the source. -/
inductive Panic where
  | nilObject (addr : Address)
  | cannotRevert (revid : Nat)
deriving DecidableEq, Repr

/-- The fields of `StateDB` that its methods here read and write. The logs of a transaction
hash missing from the map are the empty list. -/
structure StateDB where
  db : Database
  trie : Address → Option Account
  stateObjects : GoMap Address StateObject
  stateObjectsDirty : GoMap Address Unit
  refund : Nat
  thash : List UInt8
  bhash : List UInt8
  txIndex : Nat
  logs : List UInt8 → List Log
  logSize : Nat
  preimages : List UInt8 → Option (List UInt8)
  journal : List JournalEntry
  validRevisions : List Revision
  nextRevisionId : Nat

/-- `New`: a state over the account trie opened at a root, with no live object, no log, no
preimage and an empty journal. -/
def New (trie : Address → Option Account) (db : Database) : StateDB where
  db := db
  trie := trie
  stateObjects := .empty
  stateObjectsDirty := .empty
  refund := 0
  thash := zeroHash
  bhash := zeroHash
  txIndex := 0
  logs := fun _ => []
  logSize := 0
  preimages := fun _ => none
  journal := []
  validRevisions := []
  nextRevisionId := 0

namespace StateObject

/-- `newObject`: a missing balance is zero, and a missing code hash the hash of empty code. -/
def newObject (db : Database) (address : Address) (data : Account) (onDirty : Bool) : StateObject where
  address := address
  data := { data with codeHash := if data.codeHash = [] then db.emptyCodeHash else data.codeHash }
  trie := none
  code := none
  cachedStorage := fun _ => none
  dirtyStorage := fun _ => none
  dirtyCode := false
  suicided := false
  touched := false
  deleted := false
  onDirty := onDirty

/-- `empty`, in the sense of EIP-161: no nonce, no balance and no code. -/
def empty (db : Database) (o : StateObject) : Bool :=
  o.data.nonce = 0 && o.data.balance = 0 && o.data.codeHash = db.emptyCodeHash

/-- `getTrie`: the storage trie, opened at the account's root on first use. -/
def getTrie (db : Database) (o : StateObject) : (List UInt8 → List UInt8) × StateObject :=
  match o.trie with
  | some tr => (tr, o)
  | none =>
    let tr := db.openStorageTrie o.data.root
    (tr, { o with trie := some tr })

/-- `GetState`: the cached word of a slot, or the word in the storage trie, cached when it is
not zero. -/
def GetState (db : Database) (o : StateObject) (key : List UInt8) : List UInt8 × StateObject :=
  match o.cachedStorage key with
  | some value => (value, o)
  | none =>
    let (tr, o) := o.getTrie db
    let value := tr key
    (value, if value ≠ zeroHash then { o with cachedStorage := Function.update o.cachedStorage key (some value) }
      else o)

/-- `Code`: the loaded code, or none for the hash of empty code, or the code loaded by hash. -/
def Code (db : Database) (o : StateObject) : Option (List UInt8) × StateObject :=
  match o.code with
  | some code => (some code, o)
  | none =>
    if o.data.codeHash = db.emptyCodeHash then (none, o)
    else
      let code := db.contractCode o.data.codeHash
      (some code, { o with code := some code })

/-- `updateTrie`: the dirty slots are written into the storage trie, a zero word deleting its
slot; the map is drained. -/
def updateTrie (db : Database) (o : StateObject) : (List UInt8 → List UInt8) × StateObject :=
  let (tr, o) := o.getTrie db
  let tr := fun key => (o.dirtyStorage key).getD (tr key)
  (tr, { o with trie := some tr, dirtyStorage := fun _ => none })

/-- `updateRoot`: the account's root becomes the root of its updated storage trie. -/
def updateRoot (db : Database) (o : StateObject) : StateObject :=
  let (tr, o) := o.updateTrie db
  { o with data := { o.data with root := db.storageRoot tr } }

/-- `CommitTrie`: the updated storage trie is committed, and the account's root becomes the root
that the commit returns. -/
def CommitTrie (db : Database) (o : StateObject) : StateObject :=
  let (tr, o) := o.updateTrie db
  { o with data := { o.data with root := db.storageRoot tr } }

end StateObject

namespace StateDB

def setStateObject (o : StateObject) (s : StateDB) : StateDB :=
  { s with stateObjects := s.stateObjects.insert o.address o }

/-- `MarkStateObjectDirty`. -/
def MarkStateObjectDirty (addr : Address) (s : StateDB) : StateDB :=
  { s with stateObjectsDirty := s.stateObjectsDirty.insert addr () }

def appendJournal (e : JournalEntry) (s : StateDB) : StateDB :=
  { s with journal := s.journal ++ [e] }

def written (o : StateObject) (s : StateDB) : StateDB :=
  let s := if o.onDirty then s.MarkStateObjectDirty o.address else s
  s.setStateObject { o with onDirty := false }

end StateDB

namespace StateObject

/-! ## The writes of a state object -/

/-- `touch`: the touch is journaled with whether the object was already dirty. -/
def touch (o : StateObject) (s : StateDB) : StateDB :=
  let s := s.appendJournal (.touchChange o.address o.touched (!o.onDirty))
  s.written { o with touched := true }

def setBalance (o : StateObject) (amount : Int) (s : StateDB) : StateDB :=
  s.written { o with data := { o.data with balance := amount } }

def SetBalance (o : StateObject) (amount : Int) (s : StateDB) : StateDB :=
  o.setBalance amount (s.appendJournal (.balanceChange o.address o.data.balance))

/-- `AddBalance`: a zero amount only touches an empty account, as EIP-158 needs. -/
def AddBalance (o : StateObject) (amount : Int) (s : StateDB) : StateDB :=
  if amount = 0 then (if o.empty s.db then o.touch s else s)
  else o.SetBalance (o.data.balance + amount) s

def SubBalance (o : StateObject) (amount : Int) (s : StateDB) : StateDB :=
  if amount = 0 then s else o.SetBalance (o.data.balance - amount) s

def setNonce (o : StateObject) (nonce : Nat) (s : StateDB) : StateDB :=
  s.written { o with data := { o.data with nonce := nonce } }

def SetNonce (o : StateObject) (nonce : Nat) (s : StateDB) : StateDB :=
  o.setNonce nonce (s.appendJournal (.nonceChange o.address o.data.nonce))

def setCode (o : StateObject) (codeHash : List UInt8) (code : Option (List UInt8)) (s : StateDB) :
    StateDB :=
  s.written { o with code := code, data := { o.data with codeHash := codeHash }, dirtyCode := true }

/-- `SetCode`: the journal keeps the code as `Code` loads it. -/
def SetCode (o : StateObject) (codeHash : List UInt8) (code : List UInt8) (s : StateDB) : StateDB :=
  let (prevcode, o) := o.Code s.db
  o.setCode codeHash (some code) (s.appendJournal (.codeChange o.address prevcode o.data.codeHash))

def setState (o : StateObject) (key value : List UInt8) (s : StateDB) : StateDB :=
  s.written { o with
    cachedStorage := Function.update o.cachedStorage key (some value)
    dirtyStorage := Function.update o.dirtyStorage key (some value) }

/-- `SetState`: the journal keeps the word as `GetState` reads it. -/
def SetState (o : StateObject) (key value : List UInt8) (s : StateDB) : StateDB :=
  let (prevalue, o) := o.GetState s.db key
  o.setState key value (s.appendJournal (.storageChange o.address key prevalue))

end StateObject

namespace StateDB

/-! ## Objects of the state -/

/-- `getStateObject`: the live object unless it is deleted, or the account of the trie, loaded
as a live object with its `onDirty` callback. -/
def getStateObject (addr : Address) (s : StateDB) : Option StateObject × StateDB :=
  match s.stateObjects.get addr with
  | some obj => (if obj.deleted then none else some obj, s)
  | none =>
    match s.trie addr with
    | none => (none, s)
    | some data =>
      let obj := StateObject.newObject s.db addr data true
      (some obj, s.setStateObject obj)

/-- `createObject`: a new empty object replaces the one at the address, if any, and the journal
says which of the two it was. -/
def createObject (addr : Address) (s : StateDB) : (StateObject × Option StateObject) × StateDB :=
  let (prev, s) := s.getStateObject addr
  let newobj := StateObject.newObject s.db addr ⟨0, 0, zeroHash, []⟩ true
  -- `newobj.setNonce(0)` sets the object to dirty, which clears its callback
  let s := newobj.setNonce 0 s
  let newobj := { newobj with onDirty := false }
  let s := match prev with
    | none => s.appendJournal (.createObjectChange addr)
    | some prev => s.appendJournal (.resetObjectChange prev)
  ((newobj, prev), s.setStateObject newobj)

/-- `GetOrNewStateObject`: a missing or deleted object is created. -/
def GetOrNewStateObject (addr : Address) (s : StateDB) : StateObject × StateDB :=
  let (obj, s) := s.getStateObject addr
  match obj.filter fun o => !o.deleted with
  | some obj => (obj, s)
  | none =>
    let ((obj, _), s) := s.createObject addr
    (obj, s)

/-- `CreateAccount`: the balance of a replaced object is carried over. -/
def CreateAccount (addr : Address) (s : StateDB) : StateDB :=
  let ((new, prev), s) := s.createObject addr
  match prev with
  | none => s
  | some prev => new.setBalance prev.data.balance s

/-! ## Accessors -/

def Exist (addr : Address) (s : StateDB) : Bool × StateDB :=
  let (o, s) := s.getStateObject addr
  (o.isSome, s)

def Empty (addr : Address) (s : StateDB) : Bool × StateDB :=
  let (o, s) := s.getStateObject addr
  (match o with | none => true | some o => o.empty s.db, s)

def GetBalance (addr : Address) (s : StateDB) : Int × StateDB :=
  let (o, s) := s.getStateObject addr
  ((o.map fun o => o.data.balance).getD 0, s)

def GetNonce (addr : Address) (s : StateDB) : Nat × StateDB :=
  let (o, s) := s.getStateObject addr
  ((o.map fun o => o.data.nonce).getD 0, s)

/-- `GetCode`, with the code `Code` loads kept in the object. -/
def GetCode (addr : Address) (s : StateDB) : Option (List UInt8) × StateDB :=
  match s.getStateObject addr with
  | (none, s) => (none, s)
  | (some o, s) =>
    let (code, o) := o.Code s.db
    (code, s.setStateObject o)

def GetCodeSize (addr : Address) (s : StateDB) : Nat × StateDB :=
  match s.getStateObject addr with
  | (none, s) => (0, s)
  | (some o, s) =>
    match o.code with
    | some code => (code.length, s)
    | none => ((s.db.contractCode o.data.codeHash).length, s)

def GetCodeHash (addr : Address) (s : StateDB) : List UInt8 × StateDB :=
  match s.getStateObject addr with
  | (none, s) => (zeroHash, s)
  | (some o, s) => (bytesToHash o.data.codeHash, s)

/-- `GetState`, with the word `GetState` caches kept in the object. -/
def GetState (addr : Address) (key : List UInt8) (s : StateDB) : List UInt8 × StateDB :=
  match s.getStateObject addr with
  | (none, s) => (zeroHash, s)
  | (some o, s) =>
    let (value, o) := o.GetState s.db key
    (value, s.setStateObject o)

def HasSuicided (addr : Address) (s : StateDB) : Bool × StateDB :=
  let (o, s) := s.getStateObject addr
  ((o.map fun o => o.suicided).getD false, s)

def GetRefund (s : StateDB) : Nat := s.refund

def GetLogs (hash : List UInt8) (s : StateDB) : List Log := s.logs hash

def Preimages (s : StateDB) : List UInt8 → Option (List UInt8) := s.preimages

/-! ## Mutations -/

def AddBalance (addr : Address) (amount : Int) (s : StateDB) : StateDB :=
  let (o, s) := s.GetOrNewStateObject addr
  o.AddBalance amount s

def SubBalance (addr : Address) (amount : Int) (s : StateDB) : StateDB :=
  let (o, s) := s.GetOrNewStateObject addr
  o.SubBalance amount s

def SetBalance (addr : Address) (amount : Int) (s : StateDB) : StateDB :=
  let (o, s) := s.GetOrNewStateObject addr
  o.SetBalance amount s

def SetNonce (addr : Address) (nonce : Nat) (s : StateDB) : StateDB :=
  let (o, s) := s.GetOrNewStateObject addr
  o.SetNonce nonce s

def SetCode (addr : Address) (code : List UInt8) (s : StateDB) : StateDB :=
  let (o, s) := s.GetOrNewStateObject addr
  o.SetCode (s.db.keccak code) code s

def SetState (addr : Address) (key value : List UInt8) (s : StateDB) : StateDB :=
  let (o, s) := s.GetOrNewStateObject addr
  o.SetState key value s

/-- `Suicide`: `markSuicided`, then the balance is cleared; an address with no object is not
suicided. -/
def Suicide (addr : Address) (s : StateDB) : Bool × StateDB :=
  match s.getStateObject addr with
  | (none, s) => (false, s)
  | (some o, s) =>
    let s := s.appendJournal (.suicideChange addr o.suicided o.data.balance)
    (true, s.written { o with suicided := true, data := { o.data with balance := 0 } })

def AddRefund (gas : Nat) (s : StateDB) : StateDB :=
  { s.appendJournal (.refundChange s.refund) with refund := s.refund + gas }

/-- `AddLog`: the log is stamped with the transaction and block and its index in the block. -/
def AddLog (log : Log) (s : StateDB) : StateDB :=
  let s := s.appendJournal (.addLogChange s.thash)
  let log := { log with txHash := s.thash, blockHash := s.bhash, txIndex := s.txIndex, index := s.logSize }
  { s with logs := Function.update s.logs s.thash (s.logs s.thash ++ [log]), logSize := s.logSize + 1 }

/-- `AddPreimage`: only a new preimage is recorded. -/
def AddPreimage (hash preimage : List UInt8) (s : StateDB) : StateDB :=
  match s.preimages hash with
  | some _ => s
  | none => { s.appendJournal (.addPreimageChange hash) with
      preimages := Function.update s.preimages hash (some preimage) }

def Prepare (thash bhash : List UInt8) (ti : Nat) (s : StateDB) : StateDB :=
  { s with thash := thash, bhash := bhash, txIndex := ti }

/-! ## Snapshots -/

/-- `undo` of each journal entry. Only `createObjectChange` and `touchChange` take an address
out of the dirty set. -/
def undo : JournalEntry → StateDB → Except Panic StateDB
  | .createObjectChange account, s =>
    .ok { s with stateObjects := s.stateObjects.erase account, stateObjectsDirty := s.stateObjectsDirty.erase account }
  | .resetObjectChange prev, s => .ok (s.setStateObject prev)
  | .suicideChange account prev prevbalance, s =>
    match s.getStateObject account with
    | (none, s) => .ok s
    | (some obj, s) => .ok ({ obj with suicided := prev }.setBalance prevbalance s)
  | .touchChange account prev prevDirty, s =>
    if !prev && account ≠ ripemd then
      match s.getStateObject account with
      | (none, _) => .error (.nilObject account)
      | (some obj, s) =>
        let s := s.setStateObject { obj with touched := prev }
        .ok (if !prevDirty then { s with stateObjectsDirty := s.stateObjectsDirty.erase account } else s)
    else .ok s
  | .balanceChange account prev, s =>
    match s.getStateObject account with
    | (none, _) => .error (.nilObject account)
    | (some obj, s) => .ok (obj.setBalance prev s)
  | .nonceChange account prev, s =>
    match s.getStateObject account with
    | (none, _) => .error (.nilObject account)
    | (some obj, s) => .ok (obj.setNonce prev s)
  | .codeChange account prevcode prevhash, s =>
    match s.getStateObject account with
    | (none, _) => .error (.nilObject account)
    | (some obj, s) => .ok (obj.setCode (bytesToHash prevhash) prevcode s)
  | .storageChange account key prevalue, s =>
    match s.getStateObject account with
    | (none, _) => .error (.nilObject account)
    | (some obj, s) => .ok (obj.setState key prevalue s)
  | .refundChange prev, s => .ok { s with refund := prev }
  | .addLogChange txhash, s =>
    -- the last log of the transaction goes; a transaction left with none leaves the map
    .ok { s with logs := Function.update s.logs txhash (s.logs txhash).dropLast, logSize := s.logSize - 1 }
  | .addPreimageChange hash, s => .ok { s with preimages := Function.update s.preimages hash none }

/-- `Snapshot`: the next revision id, recorded with the length of the journal. -/
def Snapshot (s : StateDB) : Nat × StateDB :=
  let id := s.nextRevisionId
  (id, { s with nextRevisionId := id + 1, validRevisions := s.validRevisions ++ [⟨id, s.journal.length⟩] })

/-- `RevertToSnapshot`: `sort.Search` finds the first revision whose id is at least `revid`, the
ids of the valid revisions being increasing; the entries journaled since are undone, the last
first, and the later revisions are dropped. -/
def RevertToSnapshot (revid : Nat) (s : StateDB) : Except Panic StateDB :=
  let idx := s.validRevisions.findIdx fun r => decide (r.id ≥ revid)
  match s.validRevisions[idx]? with
  | none => .error (.cannotRevert revid)
  | some r =>
    if r.id ≠ revid then .error (.cannotRevert revid)
    else
      let snapshot := r.journalIndex
      match (s.journal.drop snapshot).reverse.foldlM (fun s e => undo e s) s with
      | .error e => .error e
      | .ok s' => .ok { s' with journal := s.journal.take snapshot, validRevisions := s.validRevisions.take idx }

/-! ## Finalising -/

def updateStateObject (o : StateObject) (s : StateDB) : StateDB :=
  { s with trie := Function.update s.trie o.address (some o.data) }

def deleteStateObject (o : StateObject) (s : StateDB) : StateDB :=
  { s.setStateObject { o with deleted := true } with trie := Function.update s.trie o.address none }

def clearJournalAndRefund (s : StateDB) : StateDB :=
  { s with journal := [], validRevisions := [], refund := 0 }

/-- One address of the loop of `Finalise`: a suicided object, or an empty one when empty
objects are deleted, leaves the account trie; any other is written into it with its updated
storage root. -/
def finaliseObject (deleteEmptyObjects : Bool) (s : StateDB) (addr : Address) : Except Panic StateDB :=
  match s.stateObjects.get addr with
  | none => .error (.nilObject addr)
  | some obj =>
    if obj.suicided || (deleteEmptyObjects && obj.empty s.db) then .ok (s.deleteStateObject obj)
    else
      let obj := obj.updateRoot s.db
      .ok ((s.setStateObject obj).updateStateObject obj)

/-- `Finalise`: the loop over the dirty set, in the order of the list (each address writes only
its own object and its own key of the trie), then the journal and the refund are cleared. -/
def Finalise (deleteEmptyObjects : Bool) (s : StateDB) : Except Panic StateDB :=
  match s.stateObjectsDirty.keys.foldlM (finaliseObject deleteEmptyObjects) s with
  | .error e => .error e
  | .ok s => .ok s.clearJournalAndRefund

/-- `IntermediateRoot`: `Finalise`, then the root of the account trie. -/
def IntermediateRoot (deleteEmptyObjects : Bool) (s : StateDB) : Except Panic (List UInt8 × StateDB) :=
  match s.Finalise deleteEmptyObjects with
  | .error e => .error e
  | .ok s => .ok (s.db.accountRoot s.trie, s)

/-- The code write of `CommitTo`: loaded code that changed is written under its hash, once. -/
def commitCode (codes : List (List UInt8 × List UInt8)) (obj : StateObject) :
    List (List UInt8 × List UInt8) × StateObject :=
  match obj.code with
  | some code =>
    if obj.dirtyCode then (codes ++ [(obj.data.codeHash, code)], { obj with dirtyCode := false })
    else (codes, obj)
  | none => (codes, obj)

/-- One object of the loop of `CommitTo`, with the code written so far: a suicided object, or a
dirty empty one when empty objects are deleted, leaves the account trie; any other dirty object
has its changed code written, its storage trie committed and its account written; the address
stops being dirty. The loop visits the keys of the map, each of which has its object. -/
def commitObject (deleteEmptyObjects : Bool) (acc : List (List UInt8 × List UInt8) × StateDB)
    (addr : Address) : List (List UInt8 × List UInt8) × StateDB :=
  let (codes, s) := acc
  match s.stateObjects.get addr with
  | none => (codes, s)
  | some obj =>
    let isDirty := s.stateObjectsDirty.contains addr
    let (codes, s) :=
      if obj.suicided || (isDirty && deleteEmptyObjects && obj.empty s.db) then (codes, s.deleteStateObject obj)
      else if isDirty then
        let (codes, obj) := commitCode codes obj
        let obj := obj.CommitTrie s.db
        (codes, (s.setStateObject obj).updateStateObject obj)
      else (codes, s)
    (codes, { s with stateObjectsDirty := s.stateObjectsDirty.erase addr })

/-- `CommitTo`: the loop over the live objects in the order of the map's keys, then the commit
of the account trie, whose root it returns with the code it wrote; the journal and the refund
are cleared. The database does not fail. -/
def CommitTo (deleteEmptyObjects : Bool) (s : StateDB) :
    (List UInt8 × List (List UInt8 × List UInt8)) × StateDB :=
  let (codes, s) := s.stateObjects.keys.foldl (commitObject deleteEmptyObjects) ([], s)
  ((s.db.accountRoot s.trie, codes), s.clearJournalAndRefund)

end StateDB

end Zerium.State
