import Zerium.Core.BlockChain

/-! # The chain indexer (`core/chain_indexer.go`)

A `ChainIndexer` feeds equally sized sections of the canonical chain to a backend. The event loop
calls `newHead` on each head event, counting the complete sections and rolling stored ones back on
a reorg; the update loop, woken through `update`, processes the next section with the lock let go
and stores it when no reorg came in between. A step is a chain write, one handled event or one
move of the update loop, so the model's runs are runs of the program, which has more: a chain
write between two header reads. Timers are a count, the event channel a list, and the section
size positive, as every caller gives it.
-/

namespace Zerium.Core

set_option autoImplicit false

/-- The part of the chain database the indexer reads: `GetCanonicalHash`, the zero hash where
there is none, and `GetHeader`. -/
structure ChainView (α : Type) where
  canonical : UInt64 → α
  header : α → UInt64 → Option (Header α)

/-- `header.Number.Uint64()`. -/
def Header.number64 {α : Type} (h : Header α) : UInt64 := UInt64.ofNat h.number

/-- What `NewChainIndexer` is given: the section size, the confirmations required, and the zero
hash `common.Hash{}`. -/
structure IndexerConfig (α : Type) where
  sectionSize : UInt64
  confirmsReq : UInt64
  zero : α

/-- Where the update loop is. -/
inductive UpdateLoop (α : Type) where
  | idle
  /-- In `processSection`, at block `number`, after the header `lastHead`. -/
  | processing (sec : UInt64) (oldHead : α) (number : UInt64) (lastHead : α)
  /-- Back from `processSection`, with the new section head or an error. -/
  | processed (sec : UInt64) (oldHead : α) (result : Option α)

structure ChainIndexer (α : Type) where
  storedSections : UInt64
  knownSections : UInt64
  cascadedHead : UInt64
  /-- The "shead" entries of the index database. -/
  sectionHeads : UInt64 → Option α
  /-- The signal in the one-slot channel `update`. -/
  update : Bool
  /-- The `time.AfterFunc` calls that have not fired. -/
  timers : Nat
  /-- The `newHead(head, reorg)` calls cascaded to the children. -/
  cascades : List (UInt64 × Bool)
  /-- The backend: the section it was reset to, and the headers processed since. -/
  building : UInt64 × List (Header α)
  /-- The backend: what each `Commit` stored. -/
  committed : UInt64 → Option (List (Header α))
  loop : UpdateLoop α
  /-- The event loop's `prevHeader`. -/
  prevHeader : Header α
  /-- The chain events not yet handled. -/
  events : List (Header α)
  /-- The chain database now. -/
  chain : ChainView α

namespace ChainIndexer

variable {α : Type} [DecidableEq α] (cfg : IndexerConfig α)

/-- `SectionHead(section)`: the zero hash where none is stored. -/
def SectionHead (c : ChainIndexer α) (sec : UInt64) : α := (c.sectionHeads sec).getD cfg.zero

def setSectionHead (c : ChainIndexer α) (sec : UInt64) (hash : α) : ChainIndexer α :=
  { c with sectionHeads := Function.update c.sectionHeads sec (some hash) }

/-- The loop of `setValidSections`: `removeSectionHead` of each section from `sections` up to
the stored ones, from the top, one round per stored section at most. -/
def removeLoop (sections : UInt64) : Nat → UInt64 → (UInt64 → Option α) → UInt64 × (UInt64 → Option α)
  | 0, stored, heads => (stored, heads)
  | fuel + 1, stored, heads =>
    if stored > sections then removeLoop sections fuel (stored - 1) (Function.update heads (stored - 1) none)
    else (stored, heads)

/-- `setValidSections(sections)`. -/
def setValidSections (c : ChainIndexer α) (sections : UInt64) : ChainIndexer α :=
  { c with
    sectionHeads := (removeLoop sections c.storedSections.toNat c.storedSections c.sectionHeads).2
    storedSections := sections }

/-- `newHead(head, reorg)`. -/
def newHead (head : UInt64) (reorg : Bool) (c : ChainIndexer α) : ChainIndexer α :=
  if reorg then
    let changed := head / cfg.sectionSize
    let c := if changed < c.knownSections then { c with knownSections := changed } else c
    let c := if changed < c.storedSections then c.setValidSections changed else c
    let head := changed * cfg.sectionSize
    if head < c.cascadedHead then
      { c with cascadedHead := head, cascades := c.cascades ++ [(head, true)] }
    else c
  else if head ≥ cfg.confirmsReq then
    let sections := (head + 1 - cfg.confirmsReq) / cfg.sectionSize
    if sections > c.knownSections then { c with knownSections := sections, update := true }
    else c
  else c

/-- The first loop of `FindCommonAncestor`: `a` goes back to the number `bn`, one parent a round,
with fuel for one round per block. -/
def ancestorAtLoop (view : ChainView α) (bn : UInt64) : Nat → Header α → Option (Header α)
  | 0, a => some a
  | fuel + 1, a =>
    if a.number64 > bn then
      (view.header a.parentHash (a.number64 - 1)).bind (ancestorAtLoop view bn fuel)
    else some a

/-- The last loop of `FindCommonAncestor`: both go back until they meet. -/
def meetLoop (view : ChainView α) : Nat → Header α → Header α → Option (Header α)
  | 0, a, _ => some a
  | fuel + 1, a, b =>
    if a.hash ≠ b.hash then
      (view.header a.parentHash (a.number64 - 1)).bind fun a =>
        (view.header b.parentHash (b.number64 - 1)).bind fun b => meetLoop view fuel a b
    else some a

/-- `FindCommonAncestor(db, a, b)`, each loop with fuel for one round per block of the header it
starts from. -/
def FindCommonAncestor (view : ChainView α) (a b : Header α) : Option (Header α) :=
  (ancestorAtLoop view b.number64 a.number a).bind fun a =>
    (ancestorAtLoop view a.number64 b.number b).bind fun b =>
      meetLoop view (a.number + 1) a b

def onEvent (c : ChainIndexer α) : Option (ChainIndexer α) :=
  match c.events with
  | [] => none
  | header :: events =>
    let c := { c with events := events }
    let c := if header.parentHash ≠ c.prevHeader.hash then
        match FindCommonAncestor c.chain c.prevHeader header with
        | some h => newHead cfg h.number64 true c
        | none => c
      else c
    some { newHead cfg header.number64 false c with prevHeader := header }

/-- The update loop takes the signal in `update`: under the lock, the next section if one is
known and not stored, and `Reset` of the backend for it. -/
def wake (c : ChainIndexer α) : Option (ChainIndexer α) :=
  match c.loop with
  | .idle =>
    if c.update then
      let c := { c with update := false }
      if c.knownSections > c.storedSections then
        let sec := c.storedSections
        let oldHead := if sec > 0 then c.SectionHead cfg (sec - 1) else cfg.zero
        some { c with
          loop := .processing sec oldHead (sec * cfg.sectionSize) oldHead
          building := (sec, []) }
      else some c
    else none
  | _ => none

/-- One round of the loop of `processSection`, without the lock: the canonical header at
`number`, read from the chain as it is now, or the `Commit` after the last one. -/
def processStep (c : ChainIndexer α) : Option (ChainIndexer α) :=
  match c.loop with
  | .processing sec oldHead number lastHead =>
    if number < (sec + 1) * cfg.sectionSize then
      let hash := c.chain.canonical number
      if hash = cfg.zero then some { c with loop := .processed sec oldHead none }
      else
        match c.chain.header hash number with
        | none => some { c with loop := .processed sec oldHead none }
        | some header =>
          if header.parentHash ≠ lastHead then some { c with loop := .processed sec oldHead none }
          else some { c with
            building := (c.building.1, c.building.2 ++ [header])
            loop := .processing sec oldHead (number + 1) header.hash }
    else
      some { c with
        committed := Function.update c.committed c.building.1 (some c.building.2)
        loop := .processed sec oldHead (some lastHead) }
  | _ => none

def finish (c : ChainIndexer α) : Option (ChainIndexer α) :=
  match c.loop with
  | .processed sec oldHead result =>
    let c := match result with
      | some newHead =>
        if oldHead = c.SectionHead cfg (sec - 1) then
          let c := (c.setSectionHead sec newHead).setValidSections (sec + 1)
          let cascadedHead := c.storedSections * cfg.sectionSize - 1
          { c with cascadedHead := cascadedHead, cascades := c.cascades ++ [(cascadedHead, false)] }
        else { c with knownSections := c.storedSections }
      | none => { c with knownSections := c.storedSections }
    let c := if c.knownSections > c.storedSections then { c with timers := c.timers + 1 } else c
    some { c with loop := .idle }
  | _ => none

/-- A timer of `time.AfterFunc` fires and fills `update` if it is empty. -/
def fireTimer (c : ChainIndexer α) : Option (ChainIndexer α) :=
  match c.timers with
  | 0 => none
  | n + 1 => some { c with timers := n, update := true }

def writeChain (chain : ChainView α) (event : Option (Header α)) (c : ChainIndexer α) :
    ChainIndexer α :=
  { c with chain := chain, events := c.events ++ event.toList }

inductive Action (α : Type) where
  | write (chain : ChainView α) (event : Option (Header α))
  | event
  | wake
  | process
  | finish
  | timer

def step : Action α → ChainIndexer α → Option (ChainIndexer α)
  | .write chain event, c => some (writeChain chain event c)
  | .event, c => onEvent cfg c
  | .wake, c => wake cfg c
  | .process, c => processStep cfg c
  | .finish, c => finish cfg c
  | .timer, c => fireTimer c

def run : List (Action α) → ChainIndexer α → Option (ChainIndexer α)
  | [], c => some c
  | a :: as, c => (step cfg a c).bind (run as)

/-- `NewChainIndexer` on an empty index database, then `Start` on a chain whose current header
is `current`: the event loop's first `newHead`. -/
def start (chain : ChainView α) (current : Header α) : ChainIndexer α :=
  newHead cfg current.number64 false
    { storedSections := 0
      knownSections := 0
      cascadedHead := 0
      sectionHeads := fun _ => none
      update := false
      timers := 0
      cascades := []
      building := (0, [])
      committed := fun _ => none
      loop := .idle
      prevHeader := current
      events := []
      chain := chain }

def Idle (c : ChainIndexer α) : Prop :=
  c.events = [] ∧ c.update = false ∧ c.timers = 0 ∧ c.loop = .idle

end ChainIndexer

end Zerium.Core
