import Zerium.Lib.Heap
import Zerium.Lib.GoMap

/-! # The transaction lists of the pool

`tx_list.go`. A `txSortedMap` keeps an account's transactions under their nonces, a
`container/heap` of the nonces and a cache in nonce order; a `txList` adds `costcap` and `gascap`,
which `Filter` reads to skip a scan. A transaction is abstract, read for its nonce, gas price,
cost and gas. `m.items[n]` of a missing nonce is `nil`, so lists built from such reads hold an
`Option`; a nil `cache` is `none`, Go's panics are `none`, and a loop that pops the heap has its
length as fuel. `NonceList` is what the map is for: its transactions in increasing nonce order.
-/

namespace Zerium.Core

set_option autoImplicit false

variable {Tx : Type}

/-- `nonceHeap.Less`. -/
def nonceHeapLess (h : List UInt64) (i j : Nat) : Bool :=
  match h[i]?, h[j]? with
  | some a, some b => decide (a < b)
  | _, _ => false

theorem nonceHeapLess_eq_less : nonceHeapLess = GoHeap.less UInt64.toNat := by
  funext h i j
  unfold nonceHeapLess GoHeap.less
  cases h[i]? <;> cases h[j]? <;> simp [UInt64.lt_iff_toNat_lt]

/-- `txSortedMap`. -/
structure TxSortedMap (Tx : Type) where
  items : GoMap UInt64 Tx
  index : List UInt64
  cache : Option (List Tx)

/-- A call on a `txSortedMap`. -/
inductive TxSortedMap.Op (Tx : Type) where
  | put (tx : Tx)
  | forward (threshold : UInt64)
  | filter (filter : Tx → Bool)
  | cap (threshold : Int)
  | remove (n : UInt64)
  | ready (start : UInt64)
  | flatten

variable (nonce : Tx → UInt64)

/-! ## What the map is for -/

/-- Transactions in strictly increasing nonce order. -/
structure NonceList (nonce : Tx → UInt64) where
  toList : List Tx
  sorted : toList.Pairwise fun a b => nonce a < nonce b

theorem pairwise_orderedInsert (tx : Tx) :
    ∀ l : List Tx, l.Pairwise (fun a b => nonce a < nonce b) → (∀ a ∈ l, nonce a ≠ nonce tx) →
      (l.orderedInsert (fun a b => nonce a ≤ nonce b) tx).Pairwise fun a b => nonce a < nonce b
  | [], _, _ => List.pairwise_singleton _ tx
  | b :: l, hl, hne => by
    rw [List.pairwise_cons] at hl
    have hb : nonce b ≠ nonce tx := hne b List.mem_cons_self
    rw [List.orderedInsert_cons]
    split
    · next hle =>
      -- `tx` goes in front of `b`, so before everything after `b`
      have htb : nonce tx < nonce b := UInt64.lt_of_le_of_ne hle (Ne.symm hb)
      refine List.Pairwise.cons (fun a ha => ?_) (List.Pairwise.cons hl.1 hl.2)
      rcases List.mem_cons.mp ha with rfl | ha
      · exact htb
      · exact UInt64.lt_trans htb (hl.1 a ha)
    · next hle =>
      have hbt : nonce b < nonce tx := UInt64.not_le.mp hle
      refine List.Pairwise.cons (fun a ha => ?_)
        (pairwise_orderedInsert tx l hl.2 fun a ha => hne a (List.mem_cons_of_mem b ha))
      rcases (List.mem_orderedInsert _).mp ha with rfl | ha
      · exact hbt
      · exact hl.1 a ha

/-- The longest prefix of a list whose nonces go up one by one from `next`. -/
def consecutive : Nat → List Tx → List Tx
  | _, [] => []
  | next, tx :: l => if (nonce tx).toNat = next then tx :: consecutive (next + 1) l else []

namespace NonceList

variable {nonce}

def empty : NonceList nonce := ⟨[], List.Pairwise.nil⟩

/-- The transactions that satisfy `p`, in their order. -/
def filter (L : NonceList nonce) (p : Tx → Bool) : NonceList nonce :=
  ⟨L.toList.filter p, L.sorted.filter p⟩

def take (L : NonceList nonce) (n : Nat) : NonceList nonce :=
  ⟨L.toList.take n, L.sorted.sublist (List.take_sublist n _)⟩

def drop (L : NonceList nonce) (n : Nat) : NonceList nonce :=
  ⟨L.toList.drop n, L.sorted.sublist (List.drop_sublist n _)⟩

def put (L : NonceList nonce) (tx : Tx) : NonceList nonce :=
  ⟨(L.toList.filter fun a => nonce a ≠ nonce tx).orderedInsert (fun a b => nonce a ≤ nonce b) tx,
    pairwise_orderedInsert nonce tx _ (L.sorted.filter _) fun a ha => by
      simpa using (List.mem_filter.mp ha).2⟩

/-- What `Ready(start)` is to hand out: the run of consecutive nonces from the lowest, when the
lowest is at most `start`. -/
def ready (L : NonceList nonce) (start : UInt64) : List Tx :=
  match L.toList with
  | [] => []
  | tx :: _ => if nonce tx ≤ start then consecutive nonce (nonce tx).toNat L.toList else []

def step (L : NonceList nonce) : TxSortedMap.Op Tx → NonceList nonce
  | .put tx => L.put tx
  | .forward threshold => L.filter fun tx => threshold ≤ nonce tx
  | .filter filter => L.filter fun tx => !filter tx
  | .cap threshold => L.take threshold.toNat
  | .remove n => L.filter fun tx => nonce tx ≠ n
  | .ready start => L.drop (L.ready start).length
  | .flatten => L

def run (L : NonceList nonce) : List (TxSortedMap.Op Tx) → NonceList nonce
  | [] => L
  | op :: ops => (L.step op).run ops

end NonceList

/-! ## `txSortedMap` -/

/-- `newTxSortedMap`. -/
def newTxSortedMap : TxSortedMap Tx := ⟨GoMap.empty, [], none⟩

namespace TxSortedMap

/-- `Get`. -/
def Get (m : TxSortedMap Tx) (n : UInt64) : Option Tx := m.items.get n

/-- `Len`. -/
def Len (m : TxSortedMap Tx) : Nat := m.items.keys.length

/-- `Put`: a nonce new to the map is pushed on the heap, and the cache is dropped. -/
def Put (m : TxSortedMap Tx) (tx : Tx) : TxSortedMap Tx :=
  let index := match m.items.get (nonce tx) with
    | none => GoHeap.push UInt64.toNat m.index (nonce tx)
    | some _ => m.index
  ⟨m.items.insert (nonce tx) tx, index, none⟩

/-- The loop of `Forward`: the heap is popped while its least nonce is below `threshold`. -/
def forwardLoop (threshold : UInt64) :
    Nat → GoMap UInt64 Tx → List UInt64 → List (Option Tx) →
      Option (GoMap UInt64 Tx × List UInt64 × List (Option Tx))
  | 0, items, index, removed => some (items, index, removed)
  | fuel + 1, items, index, removed =>
    match index[0]? with
    | some least =>
      if least < threshold then
        (GoHeap.pop UInt64.toNat index).bind fun r =>
          forwardLoop threshold fuel (items.erase r.1) r.2 (removed ++ [items.get r.1])
      else some (items, index, removed)
    | none => some (items, index, removed)

/-- `Forward`: the transactions below `threshold` go, and the cache loses as many at its front. -/
def Forward (m : TxSortedMap Tx) (threshold : UInt64) :
    Option (TxSortedMap Tx × List (Option Tx)) :=
  (forwardLoop threshold m.index.length m.items m.index []).bind fun r =>
    match m.cache with
    | none => some (⟨r.1, r.2.1, none⟩, r.2.2)
    | some cache =>
      -- `m.cache[len(removed):]`
      if r.2.2.length ≤ cache.length then
        some (⟨r.1, r.2.1, some (cache.drop r.2.2.length)⟩, r.2.2)
      else none

/-- The loop of `Filter` over the map: what `filter` selects leaves the map and is collected. -/
def filterLoop (filter : Tx → Bool) :
    List UInt64 → GoMap UInt64 Tx → List Tx → GoMap UInt64 Tx × List Tx
  | [], items, removed => (items, removed)
  | n :: ns, items, removed =>
    match items.get n with
    | some tx =>
      if filter tx then filterLoop filter ns (items.erase n) (removed ++ [tx])
      else filterLoop filter ns items removed
    | none => filterLoop filter ns items removed

/-- `Filter`: when something was removed, the heap is built again from the map's keys and the
cache is dropped. -/
def Filter (m : TxSortedMap Tx) (filter : Tx → Bool) : TxSortedMap Tx × List Tx :=
  let r := filterLoop filter m.items.keys m.items []
  if 0 < r.2.length then (⟨r.1, GoHeap.init UInt64.toNat r.1.keys, none⟩, r.2)
  else (⟨r.1, m.index, m.cache⟩, r.2)

/-- The loop of `Cap` over the sorted nonces, `size` counting down while above `threshold`: the
transaction of the nonce at `size - 1` is dropped. -/
def capLoop (threshold : Int) (index : List UInt64) :
    Nat → GoMap UInt64 Tx → List (Option Tx) → Option (GoMap UInt64 Tx × List (Option Tx))
  | 0, items, drops =>
    -- at `size = 0` the read of `(*m.index)[size-1]` is out of range
    if threshold < 0 then none else some (items, drops)
  | size + 1, items, drops =>
    if threshold < ((size + 1 : Nat) : Int) then
      match index[size]? with
      | some n => capLoop threshold index size (items.erase n) (drops ++ [items.get n])
      | none => none
    else some (items, drops)

/-- `Cap`: the heap is sorted, the transactions of its highest nonces go until `threshold` are
left, and the cache loses as many at its back. -/
def Cap (m : TxSortedMap Tx) (threshold : Int) : Option (TxSortedMap Tx × List (Option Tx)) :=
  if (m.Len : Int) ≤ threshold then some (m, [])
  else
    let sorted := m.index.insertionSort (· ≤ ·)
    (capLoop threshold sorted m.Len m.items []).bind fun r =>
      -- `(*m.index)[:threshold]`: the loop has read the sorted heap at `threshold` already, so
      -- the slice is within its length
      let index := GoHeap.init UInt64.toNat (sorted.take threshold.toNat)
      match m.cache with
      | none => some (⟨r.1, index, none⟩, r.2)
      | some cache =>
        if r.2.length ≤ cache.length then
          some (⟨r.1, index, some (cache.take (cache.length - r.2.length))⟩, r.2)
        else none

/-- `Remove`: the first place of the nonce in the heap is removed from it. -/
def Remove (m : TxSortedMap Tx) (n : UInt64) : Option (TxSortedMap Tx × Bool) :=
  match m.items.get n with
  | none => some (m, false)
  | some _ =>
    let index := match m.index.findIdx? (· == n) with
      | some i => (GoHeap.remove UInt64.toNat m.index i).map Prod.snd
      | none => some m.index
    index.map fun index => (⟨m.items.erase n, index, none⟩, true)

/-- The loop of `Ready`: the heap is popped while its least nonce is `next`, counting up. -/
def readyLoop :
    Nat → UInt64 → GoMap UInt64 Tx → List UInt64 → List (Option Tx) →
      Option (GoMap UInt64 Tx × List UInt64 × List (Option Tx))
  | 0, _, items, index, ready => some (items, index, ready)
  | fuel + 1, next, items, index, ready =>
    match index[0]? with
    | some least =>
      if least = next then
        (GoHeap.pop UInt64.toNat index).bind fun r =>
          readyLoop fuel (next + 1) (items.erase next) r.2 (ready ++ [items.get next])
      else some (items, index, ready)
    | none => some (items, index, ready)

/-- `Ready`: nothing when the lowest nonce is above `start`, and otherwise the run of
consecutive nonces from the lowest. -/
def Ready (m : TxSortedMap Tx) (start : UInt64) : Option (TxSortedMap Tx × List (Option Tx)) :=
  match m.index[0]? with
  | none => some (m, [])
  | some least =>
    if start < least then some (m, [])
    else (readyLoop m.index.length least m.items m.index []).map fun r =>
      (⟨r.1, r.2.1, none⟩, r.2.2)

/-- `Flatten`: the cache, made first when there is none from the map's values sorted by nonce
(`types.TxByNonce`). -/
def Flatten (m : TxSortedMap Tx) : TxSortedMap Tx × List Tx :=
  match m.cache with
  | some cache => (m, cache)
  | none =>
    let cache := (m.items.keys.filterMap m.items.get).insertionSort fun a b => nonce a ≤ nonce b
    (⟨m.items, m.index, some cache⟩, cache)

def step (m : TxSortedMap Tx) : Op Tx → Option (TxSortedMap Tx)
  | .put tx => some (m.Put nonce tx)
  | .forward threshold => (m.Forward threshold).map Prod.fst
  | .filter filter => some (m.Filter filter).1
  | .cap threshold => (m.Cap threshold).map Prod.fst
  | .remove n => (m.Remove n).map Prod.fst
  | .ready start => (m.Ready start).map Prod.fst
  | .flatten => some (m.Flatten nonce).1

def run : TxSortedMap Tx → List (Op Tx) → Option (TxSortedMap Tx)
  | m, [] => some m
  | m, op :: ops => (m.step nonce op).bind fun m => run m ops

end TxSortedMap

/-! ## `txList` -/

/-- `txList`. -/
structure TxList (Tx : Type) where
  strict : Bool
  txs : TxSortedMap Tx
  costcap : Int
  gascap : Int

/-- A call on a `txList`. -/
inductive TxList.Op (Tx : Type) where
  | add (tx : Tx) (priceBump : UInt64)
  | forward (threshold : UInt64)
  | filter (costLimit gasLimit : Int)
  | cap (threshold : Int)
  | remove (tx : Tx)
  | ready (start : UInt64)
  | flatten

/-- `newTxList`. -/
def newTxList (strict : Bool) : TxList Tx := ⟨strict, newTxSortedMap, 0, 0⟩

namespace TxList

variable (price cost gas : Tx → Int)

/-- `Overlaps`. -/
def Overlaps (l : TxList Tx) (tx : Tx) : Bool := (l.txs.Get (nonce tx)).isSome

/-- `Add`: a transaction of a nonce already held replaces it only at a price above the old one
and at least `priceBump` percent above it; what is added raises the caps to its cost and gas. -/
def Add (l : TxList Tx) (tx : Tx) (priceBump : UInt64) : TxList Tx × Bool × Option Tx :=
  let old := l.txs.Get (nonce tx)
  let rejected := match old with
    | some old =>
      -- `big.NewInt(100+int64(priceBump))` wraps in `int64`; `Div` is Euclidean
      let threshold := price old * (100 + priceBump.toInt64).toInt / 100
      decide (price tx ≤ price old) || decide (price tx < threshold)
    | none => false
  if rejected then (l, false, none)
  else
    let costcap := if l.costcap < cost tx then cost tx else l.costcap
    let gascap := if l.gascap < gas tx then gas tx else l.gascap
    (⟨l.strict, l.txs.Put nonce tx, costcap, gascap⟩, true, old)

/-- `Forward`. -/
def Forward (l : TxList Tx) (threshold : UInt64) : Option (TxList Tx × List (Option Tx)) :=
  (l.txs.Forward threshold).map fun r => ({ l with txs := r.1 }, r.2)

/-- The lowest nonce of the transactions `Filter` removed, from `math.MaxUint64`. -/
def lowestNonce (removed : List Tx) : UInt64 :=
  removed.foldl (fun lowest tx => if nonce tx < lowest then nonce tx else lowest)
    0xFFFFFFFFFFFFFFFF

/-- `Filter`: nothing when the caps are within the limits; otherwise the caps become the limits,
what costs or uses more than them is removed, and in a strict list so is every transaction above
the lowest nonce removed. -/
def Filter (l : TxList Tx) (costLimit gasLimit : Int) : TxList Tx × List Tx × List Tx :=
  if l.costcap ≤ costLimit ∧ l.gascap ≤ gasLimit then (l, [], [])
  else
    let r := l.txs.Filter fun tx => decide (costLimit < cost tx) || decide (gasLimit < gas tx)
    let s := if l.strict = true ∧ 0 < r.2.length then
        r.1.Filter fun tx => decide (lowestNonce nonce r.2 < nonce tx)
      else (r.1, [])
    (⟨l.strict, s.1, costLimit, gasLimit⟩, r.2, s.2)

/-- `Cap`. -/
def Cap (l : TxList Tx) (threshold : Int) : Option (TxList Tx × List (Option Tx)) :=
  (l.txs.Cap threshold).map fun r => ({ l with txs := r.1 }, r.2)

/-- `Remove`: in a strict list what is above the nonce removed goes with it. -/
def Remove (l : TxList Tx) (tx : Tx) : Option (TxList Tx × Bool × List Tx) :=
  (l.txs.Remove (nonce tx)).map fun r =>
    if r.2 = false then ({ l with txs := r.1 }, false, [])
    else if l.strict = true then
      let s := r.1.Filter fun tx' => decide (nonce tx < nonce tx')
      ({ l with txs := s.1 }, true, s.2)
    else ({ l with txs := r.1 }, true, [])

/-- `Ready`. -/
def Ready (l : TxList Tx) (start : UInt64) : Option (TxList Tx × List (Option Tx)) :=
  (l.txs.Ready start).map fun r => ({ l with txs := r.1 }, r.2)

/-- `Len`. -/
def Len (l : TxList Tx) : Nat := l.txs.Len

/-- `Empty`. -/
def Empty (l : TxList Tx) : Bool := l.Len == 0

/-- `Flatten`. -/
def Flatten (l : TxList Tx) : TxList Tx × List Tx :=
  let r := l.txs.Flatten nonce
  ({ l with txs := r.1 }, r.2)

def step (l : TxList Tx) : Op Tx → Option (TxList Tx)
  | .add tx priceBump => some (l.Add nonce price cost gas tx priceBump).1
  | .forward threshold => (l.Forward threshold).map Prod.fst
  | .filter costLimit gasLimit => some (l.Filter nonce cost gas costLimit gasLimit).1
  | .cap threshold => (l.Cap threshold).map Prod.fst
  | .remove tx => (l.Remove nonce tx).map Prod.fst
  | .ready start => (l.Ready start).map Prod.fst
  | .flatten => some (l.Flatten nonce).1

def run : TxList Tx → List (Op Tx) → Option (TxList Tx)
  | l, [] => some l
  | l, op :: ops => (l.step nonce price cost gas op).bind fun l => run l ops

end TxList

end Zerium.Core
