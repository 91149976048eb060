import Zerium.Lib.GoMap
import Zerium.Lib.Prque
import Zerium.Lib.Slice

/-! # The downloader's header skeleton (`zrm/downloader/queue.go`)

A sync first fetches a skeleton, one header in every `MaxHeaderFetch`, and the queue fills it.
`ScheduleSkeleton` files one task per skeleton header, `ReserveHeaders` hands a peer the first
queued batch it is not known to miss, and `DeliverHeaders` copies an answer that fits into
`headerResults` and forwards the filled prefix to the processor when it can; a batch that does
not fit, and the requests `CancelHeaders` and `ExpireHeaders` take back, are queued again. The
model keeps the header half of `queue`, with the sends on `headerProcCh` and `headerContCh` as the
channels' record. `none` is a panic: a second `ScheduleSkeleton`, or a slice out of range.
-/

namespace Zerium.Zrm

set_option autoImplicit false

def MaxHeaderFetch : Nat := 192

/-- What the queue reads of a header: `Hash()`, `Number.Uint64()` and `ParentHash`, and the
`Hash()` of a nil header, which `DeliverHeaders` compares with for a task no longer pooled. -/
structure HeaderTypes (Hash Header : Type) where
  hash : Header → Hash
  nilHash : Hash
  number : Header → UInt64
  parentHash : Header → Hash

/-- A header `fetchRequest`. -/
structure FetchRequest (Peer : Type) where
  peer : Peer
  From : UInt64
  time : Nat

structure HeaderQueue (Peer Header : Type) where
  headerTaskPool : GoMap UInt64 Header
  headerTaskQueue : List (Prque.Item UInt64 Int)
  headerPeerMiss : GoMap Peer (GoMap UInt64 Unit)
  headerPendPool : GoMap Peer (FetchRequest Peer)
  headerResults : Option (List (Option Header))
  headerProced : Nat
  headerOffset : UInt64
  headerContSent : Nat
  headerProcSent : List (List (Option Header))

variable {Peer Hash Header : Type} [DecidableEq Peer] [DecidableEq Hash]

/-- The priority `-float32(index)` of a task. -/
def taskPriority (index : UInt64) : Int := -(Prque.roundFloat32 index.toNat : Int)

/-- `headerTaskQueue.Push(index, -float32(index))`. -/
def pushTask (queue : List (Prque.Item UInt64 Int)) (index : UInt64) :
    List (Prque.Item UInt64 Int) :=
  Prque.push queue index (taskPriority index)

def taskIndex (From : UInt64) (i : Nat) : UInt64 := From + UInt64.ofNat (i * MaxHeaderFetch)

/-- The link check of `DeliverHeaders` from the second header on: each is numbered `want` and
has the previous header as parent. -/
def chainsFrom (types : HeaderTypes Hash Header) : UInt64 → Header → List Header → Bool
  | _, _, [] => true
  | want, parent, header :: rest =>
    types.number header == want && types.hash parent == types.parentHash header &&
      chainsFrom types (want + 1) header rest

/-- `accepted` of `DeliverHeaders` for a request from `From` and the hash `target` of its
skeleton header. -/
def acceptsBatch (types : HeaderTypes Hash Header) (From : UInt64) (target : Hash) :
    List Header → Bool
  | [] => false
  | first :: rest =>
    (first :: rest).length == MaxHeaderFetch && types.number first == From &&
      types.hash ((first :: rest).getLast (List.cons_ne_nil _ _)) == target &&
      chainsFrom types (From + 1) first rest

/-- The loop of `DeliverHeaders` that counts the filled batches from `headerProced` on, by their
first header, with fuel for one round per batch. -/
def readyLoop (results : List (Option Header)) (proced : Nat) : Nat → Nat → Nat
  | 0, ready => ready
  | fuel + 1, ready =>
    if proced + ready < results.length ∧ (results.getD (proced + ready) none).isSome then
      readyLoop results proced fuel (ready + MaxHeaderFetch)
    else ready

end Zerium.Zrm
