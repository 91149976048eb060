import Zerium.P2p.Table
import Zerium.P2p.Node
import Zerium.Lib.Search

/-! # Filling the buckets, and the nodes closest to a target (`p2p/discover/table.go`)

A node goes to the bucket of its logarithmic distance from the local node. `add` moves a node
already there to the front (`bump`), puts a new one in front when there is room (`replace`), and
with the bucket full pings its last entry: it lets go of the mutex for the ping, and takes it
again to replace that entry if it did not answer and is still the last one. `stuff` appends to
buckets with room, `delete` takes a node out. A run of the table is any interleaving of these,
with the other steps of the adds that wait for a ping (`TableState.step`).

`closest` pushes every node of the table into a list kept sorted by distance to the target, at
most `nresults` long; `push` finds the place of a node by `sort.Search`.
-/

namespace Zerium.P2p

set_option autoImplicit false

variable {ι : Type}

namespace Table

/-- `logdist(tab.self.sha, n.sha)`, the bucket of `n`. -/
def bucketOf (tab : Table (Node ι)) (n : Node ι) : Fin nBuckets :=
  ⟨logdist tab.self.sha n.sha, logdist_lt _ _⟩

def getBucket (tab : Table (Node ι)) (i : Fin nBuckets) : List (Node ι) := tab.buckets[i]

def setBucket (tab : Table (Node ι)) (i : Fin nBuckets) (b : List (Node ι)) : Table (Node ι) :=
  { tab with buckets := tab.buckets.set i b }

end Table

/-- An `add` that let go of the mutex to ping `oldest`, the last entry of the full bucket of
`new`. -/
structure Pinging (ι : Type) where
  new : Node ι
  oldest : Node ι

/-- The table, the `contested` field of each node object, and the adds waiting for a ping. -/
structure TableState (ι : Type) where
  tab : Table (Node ι)
  contested : Nat → Bool
  pinging : List (Pinging ι)

/-- What the table is asked to do. -/
inductive TableEvent (ι : Type) where
  /-- a `bond` that reaches `tab.add(node)`; `bond` refuses the local node -/
  | bond (node : Node ι)
  /-- the ping of the `k`-th waiting `add` is answered, or not -/
  | pong (k : Nat) (ok : Bool)
  | stuff (nodes : List (Node ι))
  | delete (node : Node ι)

/-- `newTable`: every bucket empty, no node contested, no add waiting. -/
def newTableState (self : Node ι) : TableState ι :=
  ⟨⟨self, Vector.replicate nBuckets []⟩, fun _ => false, []⟩

section Ops

variable [DecidableEq ι]

/-- `b.bump(n)`: the entry with the ID of `n` is dropped and `n` put in front. -/
def bump (entries : List (Node ι)) (n : Node ι) : Bool × List (Node ι) :=
  match entries.findIdx? (·.ID == n.ID) with
  | some i => (true, (Slice.copyAt entries 1 (entries.take i)).set 0 n)
  | none => (false, entries)

/-- `b.replace(n, last)`, `none` for a `last` that is `nil`. The `nil` appended to a bucket with
room is overwritten by the shift or by `n`; `n` stands for it. -/
def replace (entries : List (Node ι)) (n : Node ι) (last : Option (Node ι)) : Bool × List (Node ι) :=
  if entries.any (·.ID == n.ID) then (false, entries)
  else if entries.length == bucketSize &&
      (match last with
        | none => true
        | some last => entries[bucketSize - 1]?.map Node.ID != some last.ID) then (false, entries)
  else
    let entries := if entries.length < bucketSize then entries ++ [n] else entries
    (true, (Slice.copyAt entries 1 entries).set 0 n)

/-- `add(new)` up to its ping, under the mutex: `bump`; with the bucket full, give up if its last
entry is being replaced already, else mark that entry contested and wait for its ping; with room,
`replace(new, nil)`. -/
def addStart (s : TableState ι) (new : Node ι) : TableState ι :=
  let i := s.tab.bucketOf new
  let b := s.tab.getBucket i
  let bumped := bump b new
  if bumped.1 then { s with tab := s.tab.setBucket i bumped.2 }
  else if h : b.length = bucketSize then
    let oldest := b.get ⟨bucketSize - 1, by rw [h]; decide⟩
    if s.contested oldest.obj then s
    else
      { s with
        contested := Function.update s.contested oldest.obj true
        pinging := s.pinging ++ [⟨new, oldest⟩] }
  else { s with tab := s.tab.setBucket i (replace b new none).2 }

/-- The rest of the `k`-th waiting `add` once its ping is answered (`ok`) or not: under the mutex
again `oldest` is no longer contested; a node that answered stays, one that did not is replaced
by `new` if it is still the last entry. -/
def addFinish (s : TableState ι) (k : Nat) (ok : Bool) : TableState ι :=
  match s.pinging[k]? with
  | none => s
  | some p =>
    let s := { s with
      contested := Function.update s.contested p.oldest.obj false
      pinging := s.pinging.eraseIdx k }
    if ok then s
    else
      let i := s.tab.bucketOf p.new
      { s with tab := s.tab.setBucket i (replace (s.tab.getBucket i) p.new (some p.oldest)).2 }

namespace Table

/-- One node of `stuff`: not the local node, not in its bucket already, and only with room. -/
def stuffOne (tab : Table (Node ι)) (n : Node ι) : Table (Node ι) :=
  if n.ID = tab.self.ID then tab
  else
    let i := tab.bucketOf n
    let b := tab.getBucket i
    if b.any (·.ID == n.ID) then tab
    else if b.length < bucketSize then tab.setBucket i (b ++ [n]) else tab

def stuff (tab : Table (Node ι)) (nodes : List (Node ι)) : Table (Node ι) := nodes.foldl stuffOne tab

def delete (tab : Table (Node ι)) (node : Node ι) : Table (Node ι) :=
  let i := tab.bucketOf node
  let b := tab.getBucket i
  match b.findIdx? (·.ID == node.ID) with
  | some j => tab.setBucket i (b.take j ++ b.drop (j + 1))
  | none => tab

end Table

def TableState.step (s : TableState ι) : TableEvent ι → TableState ι
  | .bond node => if node.ID = s.tab.self.ID then s else addStart s node
  | .pong k ok => addFinish s k ok
  | .stuff nodes => { s with tab := s.tab.stuff nodes }
  | .delete node => { s with tab := s.tab.delete node }

def TableState.run (s : TableState ι) (evs : List (TableEvent ι)) : TableState ι :=
  evs.foldl TableState.step s

end Ops

structure NodesByDistance (ι : Type) where
  entries : List (Node ι)
  target : Hash

/-- `h.push(n, maxElems)`: `n` goes in before the first entry farther from the target, and the
list keeps at most `maxElems` entries. -/
def NodesByDistance.push (h : NodesByDistance ι) (n : Node ι) (maxElems : Nat) : NodesByDistance ι :=
  let ix := BinarySearch.Search h.entries.length fun i =>
    h.entries[i]?.any fun e => decide (distcmp h.target e.sha n.sha > 0)
  let entries := if h.entries.length < maxElems then h.entries ++ [n] else h.entries
  if ix = entries.length then { h with entries }
  else { h with entries := (Slice.copyAt entries (ix + 1) (entries.drop ix)).set ix n }

def Table.closest (tab : Table (Node ι)) (target : Hash) (nresults : Nat) : NodesByDistance ι :=
  tab.buckets.toList.foldl (fun close b => b.foldl (fun close n => close.push n nresults) close)
    ⟨[], target⟩

end Zerium.P2p
