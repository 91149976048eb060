import Mathlib

/-! # The binary Merkle tree hash (`merkletree/merkletree.go`, `merkletree/merkletree_r.go`)

`RefHasher.Hash` hashes segments as a binary tree over double segments. `Hasher` does the same
concurrently: `Write` fills the leaves of a prebuilt tree and starts a goroutine per completed
leaf, each climbing and storing its hash in a node's left or right field, where the atomic
`toggle` lets the second child go on; `Sum` finalises the last path and receives the root's hash.
The base hash is a parameter `H`. The caller and the goroutines interleave one node access at a
time (`Step`); `result` is unbuffered, the toggle count a natural number, and a panic is `none`
or the `panicked` state.
-/

namespace Zerium.Merkletree

set_option autoImplicit false

variable (H : List UInt8 → List UInt8)

/-- `s[lo:hi]`, which panics unless `0 ≤ lo ≤ hi ≤ len(s)`. -/
def slice (s : List UInt8) (lo hi : Int) : Option (List UInt8) :=
  if 0 ≤ lo ∧ lo ≤ hi ∧ hi ≤ s.length then some ((s.take hi.toNat).drop lo.toNat) else none

/-! ## The reference hasher -/

structure RefHasher where
  span : Nat
  sectionLen : Nat
  cap : Nat

def doubleUntil (count c : Nat) : Nat :=
  if c < count ∧ 0 < c then doubleUntil count (2 * c) else c
termination_by count - c

/-- `NewRefHasher`, for a base hash of `size` bytes. -/
def NewRefHasher (size count : Nat) : RefHasher :=
  let c := doubleUntil count 2
  let c := if c > 2 then c / 2 else c
  ⟨c * size, 2 * size, size * count⟩

def halveBelow (s l : Nat) : Nat :=
  if l ≤ s ∧ 0 < s then halveBelow (s / 2) l else s
termination_by s

theorem halveBelow_lt {s l : Nat} (hl : 0 < l) : halveBelow s l < l := by
  fun_induction halveBelow s l with
  | case1 s h ih => exact ih
  | case2 s h => omega

/-- `RefHasher.hash`: a section longer than a double segment splits at the largest span below
its length; the right part is hashed too when it is longer than a segment. A span of zero
splits off nothing and recurses on the same data forever. -/
def RefHasher.hash (rh : RefHasher) (d : List UInt8) (s : Nat) : Option (List UInt8) :=
  if hl : d.length > rh.sectionLen then
    let t := halveBelow s d.length
    if ht : t = 0 then none
    else
      (RefHasher.hash rh (d.take t) t).bind fun left =>
        let right := if d.length - t > rh.sectionLen / 2 then RefHasher.hash rh (d.drop t) t
          else some (d.drop t)
        right.map fun right => H (left ++ right)
  else some (H d)
termination_by d.length
decreasing_by
  · have := halveBelow_lt (s := s) (Nat.lt_of_le_of_lt (Nat.zero_le _) hl)
    rw [List.length_take]
    omega
  · rw [List.length_drop]
    omega

/-- `RefHasher.Hash`: the first `cap` bytes. -/
def RefHasher.Hash (rh : RefHasher) (d : List UInt8) : Option (List UInt8) :=
  rh.hash H (d.take rh.cap) rh.span

/-! ## The tree -/

abbrev NodeId := Nat × Nat

def NodeId.parent (n : NodeId) : Option NodeId := if n.1 = 0 then none else some (n.1 - 1, n.2 / 2)

def NodeId.isLeft (n : NodeId) : Bool := n.2 % 2 == 0

def NodeId.initial (n : NodeId) : Bool := n.2 == 0

/-- The fields of a `Node` that the goroutines and `finalise` share. -/
structure Node where
  root : Bool
  unbalanced : Bool
  state : Nat
  left : List UInt8
  right : List UInt8

/-- A node of `NewTree`: only the top one is a root. -/
def freshNode (n : NodeId) : Node := ⟨n.1 == 0, false, 0, [], []⟩

def depthLoop (l d : Nat) : Nat := if 0 < l then depthLoop (l / 2) (d + 1) else d
termination_by l
decreasing_by omega

/-- `depth`: the index of the last level, whose `2 ^ depth` nodes are the leaves. -/
def depth (n : Nat) : Nat := depthLoop ((n - 1) / 2) 0

def leaf (dep i : Nat) : Option NodeId := if i < 2 ^ dep then some (dep, i) else none

/-! ## The goroutines -/

/-- A goroutine: hashing a leaf, then the statements of `run`'s loop at a node. -/
inductive Routine
  /-- `go func() { h.Write(s); s = h.Sum(nil); ... }` of `writeSegment` for a double segment. -/
  | leafHash (n : NodeId) (d : Nat) (s : List UInt8)
  /-- `n.left = s` or `n.right = s`. -/
  | store (n : NodeId) (d i : Nat) (isLeft : Bool) (s : List UInt8)
  /-- `if !n.unbalanced && n.toggle() { return }`. -/
  | check (n : NodeId) (d i : Nat) (isLeft : Bool)
  /-- The hash of the two fields, or their concatenation, sent or carried to the parent. -/
  | combine (n : NodeId) (d i : Nat) (isLeft : Bool)
  /-- `self.result <- s`, waiting for the caller. -/
  | send (s : List UInt8)
  | done
  | panicked
deriving DecidableEq, Repr

/-- `run(n, h, d, i, s)`. -/
def runStart (n : NodeId) (d i : Nat) (s : List UInt8) : Routine := .store n d i (i % 2 == 0) s

structure Params where
  size : Nat
  count : Nat

/-- `writeSegment(i, s, d)`: the goroutine it starts. -/
def writeSegment (P : Params) (i : Nat) (s : List UInt8) (d : Nat) : Option Routine :=
  (leaf (depth P.count) i).map fun n =>
    if s.length > P.size ∧ n.parent.isSome then .leafHash n d s else runStart n d (i * 2) s

def setNode (nodes : NodeId → Node) (n : NodeId) (f : Node → Node) : NodeId → Node :=
  Function.update nodes n (f (nodes n))

def routineStep (nodes : NodeId → Node) : Routine → Option (Routine × (NodeId → Node))
  | .leafHash n d s =>
    let s := H s
    if (nodes n).root then some (.send s, nodes)
    else some ((n.parent.map fun p => runStart p d n.2 s).getD .panicked, nodes)
  | .store n d i isLeft s =>
    some (.check n d i isLeft,
      setNode nodes n fun nd => if isLeft then { nd with left := s } else { nd with right := s })
  | .check n d i isLeft =>
    if (nodes n).unbalanced then some (.combine n d i isLeft, nodes)
    else
      let state := (nodes n).state + 1
      some (if state % 2 = 1 then .done else .combine n d i isLeft,
        setNode nodes n fun nd => { nd with state := state })
  | .combine n d i isLeft =>
    let nd := nodes n
    let s := if !nd.unbalanced || !isLeft || (i == 0 && d == 0) then H (nd.left ++ nd.right)
      else nd.left ++ nd.right
    if nd.root then some (.send s, nodes)
    else some ((n.parent.map fun p => Routine.store p d (i + 1) n.isLeft s).getD .panicked, nodes)
  | .send _ | .done | .panicked => none

/-! ## The caller -/

/-- `Write`'s loop over the leaves it completes: the goroutines to start, the open segment and
the cursor. -/
def writeLoop (b : List UInt8) (count : Nat) (size need rest : Int) (s : List UInt8) (i : Nat)
    (spawned : List (Nat × List UInt8)) : Option (Nat × List UInt8 × List (Nat × List UInt8)) :=
  if need > 0 ∧ i < count - 1 then
    let spawned := spawned ++ [(i, s)]
    let need := need - size
    let size := if need < 0 then size + need else size
    (slice b rest (rest + size)).bind fun s => writeLoop b count size need (rest + size) s (i + 1) spawned
  else some (i, s, spawned)
termination_by count - 1 - i

/-- `Write(b)`: the new cursor and open segment, and the `writeSegment` calls it makes. The room
`need` is counted from the start of the current leaf, whatever the open segment holds. -/
def Write (P : Params) (cur : Nat) (segment b : List UInt8) :
    Option (Nat × List UInt8 × List (Nat × List UInt8)) :=
  if b.length = 0 then some (cur, segment, [])
  else
    let count := (P.count + 1) / 2
    let need : Int := P.count * P.size - cur * 2 * P.size
    let size : Int := if need > P.size then 2 * P.size else P.size
    let need : Int := if (b.length : Int) < need then b.length else need
    let rest : Int := if need < size - segment.length then need else size - segment.length
    (slice b 0 rest).bind fun pre => writeLoop b count size (need - rest) rest (segment ++ pre) cur []

/-- Where the caller is in `Reset(); Write(d1); ...; Write(dk); Sum(nil)`. -/
inductive Main
  /-- The `Write` calls still to make, then `Sum`. -/
  | writing (bs : List (List UInt8))
  /-- A turn of `finalise(n, i)`'s loop, with `isLeft` and `d`; `Sum` then writes leaf `j`. -/
  | finalising (n : NodeId) (isLeft : Bool) (d j : Nat)
  /-- `c := <-self.result`. -/
  | receiving
  | returned (r : List UInt8)
  | panicked
deriving DecidableEq, Repr

structure Conf where
  nodes : NodeId → Node
  cur : Nat
  segment : List UInt8
  blockLength : Option (List UInt8)
  gos : List Routine
  main : Main

/-- The configuration after `Reset()` on a new hasher: a new tree, nothing written. -/
def start (bs : List (List UInt8)) : Conf := ⟨freshNode, 0, [], none, [], .writing bs⟩

/-- The goroutines of `writeSegment` calls, `none` when one panics. -/
def spawnAll (P : Params) (d : Nat) : List (Nat × List UInt8) → Option (List Routine)
  | [] => some []
  | (i, s) :: rest => (writeSegment P i s d).bind fun r => (spawnAll P d rest).map (r :: ·)

/-- The start of `Sum`: the node `finalise` begins at, with its `isLeft`, and the leaf written
last. A last leaf longer than a segment is hashed by itself, so `finalise` begins at its parent. -/
def sumStart (P : Params) (cur : Nat) (segment : List UInt8) : Option (NodeId × Bool × Nat) :=
  (leaf (depth P.count) cur).map fun n =>
    match n.parent with
    | some p => if segment.length > P.size ∧ cur > 0 then (p, cur % 2 == 0, cur)
      else (n, cur * 2 % 2 == 0, cur)
    | none => (n, cur * 2 % 2 == 0, cur)

def mainStep (P : Params) (c : Conf) : Option Conf :=
  match c.main with
  | .writing (b :: bs) =>
    match Write P c.cur c.segment b with
    | none => some { c with main := .panicked }
    | some (cur, segment, calls) =>
      match spawnAll P (depth P.count) calls with
      | none => some { c with main := .panicked }
      | some rs => some { c with cur := cur, segment := segment, gos := c.gos ++ rs, main := .writing bs }
  | .writing [] =>
    match sumStart P c.cur c.segment with
    | none => some { c with main := .panicked }
    | some (n, isLeft, j) => some { c with main := .finalising n isLeft 0 j }
  | .finalising n isLeft d j =>
    let nodes := setNode c.nodes n fun nd =>
      { nd with unbalanced := isLeft, right := [], root := nd.root || n.initial }
    if n.initial then
      match writeSegment P j c.segment d with
      | none => some { c with nodes := nodes, main := .panicked }
      | some r => some { c with nodes := nodes, gos := c.gos ++ [r], main := .receiving }
    else
      match n.parent with
      | some p => some { c with nodes := nodes, main := .finalising p n.isLeft (d + 1) j }
      | none => some { c with nodes := nodes, main := .panicked }
  | .receiving | .returned _ | .panicked => none

/-- What `Sum` returns for the root's hash `v`: `sha3(length + BMT(pure_chunk))` after
`ResetWithLength`. -/
def sumResult (c : Conf) (v : List UInt8) : List UInt8 :=
  match c.blockLength with
  | none => v
  | some l => H (l ++ v)

/-- A step of the program: the caller's, a goroutine's, or the caller receiving from a
goroutine that sends. -/
inductive Step (P : Params) : Conf → Conf → Prop
  | main {c c' : Conf} : mainStep P c = some c' → Step P c c'
  | routine {c : Conf} {k : Nat} {r r' : Routine} {nodes : NodeId → Node} :
      c.gos[k]? = some r → routineStep H c.nodes r = some (r', nodes) →
      Step P c { c with nodes := nodes, gos := c.gos.set k r' }
  | receive {c : Conf} {k : Nat} {v : List UInt8} :
      c.main = .receiving → c.gos[k]? = some (.send v) →
      Step P c { c with gos := c.gos.set k .done, main := .returned (sumResult H c v) }

end Zerium.Merkletree
