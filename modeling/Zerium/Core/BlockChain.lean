import Zerium.Lib.EState

/-! # Writing blocks into the chain

`blockchain.go`: `WriteBlockAndState` stores a block with its total difficulty and makes it the
head when it beats the head's, or ties and wins the coin flip (an argument); `reorg` first
rewrites the canonical index down to the common ancestor. `headerchain.go`: `WriteHeader` does the
same for headers alone. The database is the part of the store these functions touch: blocks,
total difficulties, the canonical index (a missing entry is the zero hash), the heads and the
transaction lookups; the state, receipts and events are left out, and writes do not fail.
-/

namespace Zerium.Core

set_option autoImplicit false

structure Header (α : Type) where
  hash : α
  parentHash : α
  number : Nat
  difficulty : Nat
deriving DecidableEq, Repr

structure Block (α τ : Type) where
  header : Header α
  txs : List τ
deriving DecidableEq, Repr

namespace Block

variable {α τ : Type}

def hash (b : Block α τ) : α := b.header.hash
def parentHash (b : Block α τ) : α := b.header.parentHash
def number (b : Block α τ) : Nat := b.header.number
def difficulty (b : Block α τ) : Nat := b.header.difficulty

end Block

structure ChainDb (α τ : Type) where
  blocks : List (Block α τ)
  td : List (α × Nat × Nat)
  canonical : Nat → Option α
  headBlockHash : Option α
  headHeaderHash : Option α
  headFastBlockHash : Option α
  txLookup : τ → Option (α × Nat × Nat)

namespace ChainDb

variable {α τ : Type} [DecidableEq α] [DecidableEq τ]

def getBlock (db : ChainDb α τ) (hash : α) (number : Nat) : Option (Block α τ) :=
  db.blocks.find? fun b => b.hash = hash ∧ b.number = number

/-- `GetBlock(b.ParentHash(), b.NumberU64()-1)`: below the genesis the number wraps around and
nothing is found. -/
def getParent (db : ChainDb α τ) (b : Block α τ) : Option (Block α τ) :=
  if b.number = 0 then none else db.getBlock b.parentHash (b.number - 1)

def getTd (db : ChainDb α τ) (hash : α) (number : Nat) : Option Nat :=
  (db.td.find? fun e => e.1 = hash ∧ e.2.1 = number).map fun e => e.2.2

def writeTd (db : ChainDb α τ) (hash : α) (number td : Nat) : ChainDb α τ :=
  { db with td := (hash, number, td) :: db.td }

def writeBlock (db : ChainDb α τ) (b : Block α τ) : ChainDb α τ :=
  { db with blocks := b :: db.blocks }

def writeCanonicalHash (db : ChainDb α τ) (hash : α) (number : Nat) : ChainDb α τ :=
  { db with canonical := Function.update db.canonical number (some hash) }

def deleteCanonicalHash (db : ChainDb α τ) (number : Nat) : ChainDb α τ :=
  { db with canonical := Function.update db.canonical number none }

/-- `WriteTxLookupEntries`: every transaction of the block is found at its position in it. -/
def writeTxLookupEntries (db : ChainDb α τ) (b : Block α τ) : ChainDb α τ :=
  { db with txLookup := b.txs.zipIdx.foldl (fun lookup (tx, i) =>
      Function.update lookup tx (some (b.hash, b.number, i))) db.txLookup }

def deleteTxLookupEntry (db : ChainDb α τ) (tx : τ) : ChainDb α τ :=
  { db with txLookup := Function.update db.txLookup tx none }

end ChainDb

structure BlockChain (α τ : Type) where
  db : ChainDb α τ
  currentBlock : Block α τ
  currentFastBlock : Block α τ
  currentHeader : Header α

inductive ChainError where
  | unknownAncestor
  | invalidOldChain
  | invalidNewChain
deriving DecidableEq, Repr

inductive WriteStatus where
  | nonStat
  | canonStat
  | sideStat
deriving DecidableEq, Repr

abbrev ChainM (α τ : Type) := EStateM ChainError (BlockChain α τ)

namespace BlockChain

variable {α τ : Type} [DecidableEq α] [DecidableEq τ]

/-- `insert`: the block becomes the head, and its number points at it; the header and fast
heads follow when the block was not already canonical there. -/
def insert (block : Block α τ) : ChainM α τ Unit := do
  let bc ← get
  let updateHeads := bc.db.canonical block.number ≠ some block.hash
  let db := { bc.db.writeCanonicalHash block.hash block.number with headBlockHash := some block.hash }
  let bc := { bc with db, currentBlock := block }
  if updateHeads then
    set { bc with
      db := { bc.db with headHeaderHash := some block.hash, headFastBlockHash := some block.hash }
      currentHeader := block.header
      currentFastBlock := block }
  else set bc

/-- The first loops of `reorg`: walk the higher of the two chains down to the other's number,
collecting the blocks passed. The fuel is the number of the block walked from, plus one. -/
def reduceChain (db : ChainDb α τ) (target : Nat) :
    Nat → Option (Block α τ) → List (Block α τ) → Option (Block α τ) × List (Block α τ)
  | 0, b, chain => (b, chain)
  | _ + 1, none, chain => (none, chain)
  | fuel + 1, some b, chain =>
    if b.number = target then (some b, chain)
    else reduceChain db target fuel (db.getParent b) (chain ++ [b])

/-- The loop of `reorg` that walks both chains down to their common block. -/
def findCommon (db : ChainDb α τ) :
    Nat → Block α τ → Block α τ → List (Block α τ) → List (Block α τ) →
      Except ChainError (Block α τ × List (Block α τ) × List (Block α τ))
  | 0, _, _, _, _ => .error .invalidOldChain
  | fuel + 1, old, new, oldChain, newChain =>
    if old.hash = new.hash then .ok (old, oldChain, newChain)
    else
      match db.getParent old, db.getParent new with
      | none, _ => .error .invalidOldChain
      | some _, none => .error .invalidNewChain
      | some old', some new' => findCommon db fuel old' new' (oldChain ++ [old]) (newChain ++ [new])

def insertChain : List (Block α τ) → ChainM α τ Unit
  | [] => pure ()
  | block :: blocks => do
    insert block
    modify fun bc => { bc with db := bc.db.writeTxLookupEntries block }
    insertChain blocks

/-- `reorg(oldBlock, newBlock)`: the new chain down to the common block becomes canonical, and
the lookup entries of the transactions only the old chain had are deleted. -/
def reorg (oldBlock newBlock : Block α τ) : ChainM α τ Unit := do
  let db := (← get).db
  let (old, new, oldChain, newChain) :=
    if oldBlock.number > newBlock.number then
      let (old, oldChain) := reduceChain db newBlock.number (oldBlock.number + 1) (some oldBlock) []
      (old, some newBlock, oldChain, [])
    else
      let (new, newChain) := reduceChain db oldBlock.number (newBlock.number + 1) (some newBlock) []
      (some oldBlock, new, [], newChain)
  let some old := old | throw .invalidOldChain
  let some new := new | throw .invalidNewChain
  match findCommon db (old.number + 1) old new oldChain newChain with
  | .error e => throw e
  | .ok (_, oldChain, newChain) =>
    insertChain newChain
    let addedTxs := newChain.flatMap Block.txs
    let diff := (oldChain.flatMap Block.txs).filter fun tx => tx ∉ addedTxs
    modify fun bc => { bc with db := diff.foldl ChainDb.deleteTxLookupEntry bc.db }

/-- `WriteBlockAndState`, with the outcome `coin` of the random choice between two blocks of
equal total difficulty and number. -/
def WriteBlockAndState (coin : Bool) (block : Block α τ) : ChainM α τ WriteStatus := do
  let bc ← get
  let some ptd := (if block.number = 0 then none else bc.db.getTd block.parentHash (block.number - 1))
    | throw .unknownAncestor
  -- the head's total difficulty was written before it became the head
  let localTd := (bc.db.getTd bc.currentBlock.hash bc.currentBlock.number).getD 0
  let externTd := block.difficulty + ptd
  set { bc with db := bc.db.writeTd block.hash block.number externTd }
  let reorg := decide (externTd > localTd) ||
    (decide (externTd = localTd) && (decide (block.number < bc.currentBlock.number) ||
      (decide (block.number = bc.currentBlock.number) && coin)))
  let status ← if reorg then do
      if block.parentHash ≠ bc.currentBlock.hash then BlockChain.reorg bc.currentBlock block
      pure WriteStatus.canonStat
    else pure WriteStatus.sideStat
  -- the batch: the block, and the lookup entries of a canonical block
  modify fun bc => { bc with db := bc.db.writeBlock block }
  if status = .canonStat then
    modify fun bc => { bc with db := bc.db.writeTxLookupEntries block }
    insert block
  return status

end BlockChain

end Zerium.Core
