import Zerium.Lib.GoMap
import Zerium.Lib.Heap

/-! # The dialer (`p2p/dial.go`)

`dialstate` decides, each iteration of the server's run loop, which nodes to dial. `newTasks`
counts the dynamic dials still needed, drops expired history entries, and dials static nodes, a
bootnode after `fallbackInterval` without peers, random table nodes and lookup results; it starts
a lookup or a wait for the history when it needs to. `checkDial` turns down a node being dialed,
connected, local, outside `netrestrict` or in the history, and `taskDone` records a finished dial.
A node is its ID and IP, a peer the flags of its connection, times are nanoseconds, and the
history is a `container/heap` of `pastDial`s ordered by expiry.
-/

namespace Zerium.P2p.Dial

set_option autoImplicit false

def dialHistoryExpiration : Nat := 30 * 1000000000

def fallbackInterval : Nat := 20 * 1000000000

/-! ## Connection flags (`p2p/server.go`) -/

def dynDialedConn : Nat := 1

def staticDialedConn : Nat := 2

def inboundConn : Nat := 4

def trustedConn : Nat := 8

/-- `c.is(f)`, on the flags of `c`. -/
def connIs (flags f : Nat) : Bool := flags &&& f != 0

/-! ## The dialer's data -/

/-- A `*discover.Node` as the dialer reads it. -/
structure Node (ι ip : Type) where
  ID : ι
  IP : ip
deriving DecidableEq

structure PastDial (ι : Type) where
  id : ι
  exp : Nat
deriving DecidableEq

/-- A `*dialTask`, without the resolve backoff that only its `Do` reads. -/
structure DialTask (ι ip : Type) where
  flags : Nat
  dest : Node ι ip
deriving DecidableEq

inductive Task (ι ip : Type) where
  | dialTask (t : DialTask ι ip)
  | discoverTask (results : List (Node ι ip))
  | waitExpireTask (Duration : Int)
deriving DecidableEq

inductive DialError where
  | errSelf
  | errAlreadyDialing
  | errAlreadyConnected
  | errRecentlyDialed
  | errNotWhitelisted
deriving DecidableEq

structure DialState (ι ip : Type) where
  maxDynDials : Int
  ntab : Option ι
  netrestrict : Option (ip → Bool)
  lookupRunning : Bool
  dialing : GoMap ι Nat
  lookupBuf : List (Node ι ip)
  static : GoMap ι (DialTask ι ip)
  hist : List (PastDial ι)
  start : Nat
  bootnodes : List (Node ι ip)

variable {ι ip : Type} [DecidableEq ι]

/-! ## The dial history -/

namespace DialHistory

def add (h : List (PastDial ι)) (id : ι) (exp : Nat) : List (PastDial ι) :=
  GoHeap.push PastDial.exp h ⟨id, exp⟩

def contains (h : List (PastDial ι)) (id : ι) : Bool := h.any fun v => v.id == id

/-- `for h.Len() > 0 && h.min().exp.Before(now) { heap.Pop(h) }`, one round per entry at most. -/
def expire (h : List (PastDial ι)) (now : Nat) : List (PastDial ι) :=
  GoHeap.popWhile PastDial.exp (fun d => decide (d.exp < now)) h.length h

end DialHistory

/-! ## `checkDial` and the rounds of `newTasks` -/

namespace DialState

def checkDial (s : DialState ι ip) (n : Node ι ip) (peers : GoMap ι Nat) : Option DialError :=
  if s.dialing.contains n.ID then some .errAlreadyDialing
  else if peers.contains n.ID then some .errAlreadyConnected
  else if s.ntab = some n.ID then some .errSelf
  else if s.netrestrict.any (fun Contains => !Contains n.IP) then some .errNotWhitelisted
  else if DialHistory.contains s.hist n.ID then some .errRecentlyDialed
  else none

end DialState

/-- The locals of `newTasks` as it goes: the dialer, `newtasks` and `needDynDials`. -/
structure NewTasks (ι ip : Type) where
  s : DialState ι ip
  newtasks : List (Task ι ip)
  needDynDials : Int

namespace NewTasks

variable (peers : GoMap ι Nat)

def addDial (flag : Nat) (n : Node ι ip) (st : NewTasks ι ip) : Bool × NewTasks ι ip :=
  match st.s.checkDial n peers with
  | some _ => (false, st)
  | none =>
    (true, { st with s := { st.s with dialing := st.s.dialing.insert n.ID flag },
                     newtasks := st.newtasks ++ [.dialTask ⟨flag, n⟩] })

def dialDyn (st : NewTasks ι ip) (n : Node ι ip) : NewTasks ι ip :=
  match addDial peers dynDialedConn n st with
  | (true, st) => { st with needDynDials := st.needDynDials - 1 }
  | (false, st) => st

def dialStatic (st : NewTasks ι ip) (id : ι) : NewTasks ι ip :=
  match st.s.static.get id with
  | none => st
  | some t =>
    match st.s.checkDial t.dest peers with
    | some .errNotWhitelisted | some .errSelf =>
      { st with s := { st.s with static := st.s.static.erase t.dest.ID } }
    | none =>
      { st with s := { st.s with dialing := st.s.dialing.insert id t.flags },
                newtasks := st.newtasks ++ [.dialTask t] }
    | some _ => st

def dialBootnode (now : Nat) (st : NewTasks ι ip) : NewTasks ι ip :=
  if peers.keys.length = 0 ∧ 0 < st.needDynDials ∧ fallbackInterval < now - st.s.start then
    match st.s.bootnodes with
    | [] => st
    | bootnode :: rest => dialDyn peers { st with s := { st.s with bootnodes := rest ++ [bootnode] } } bootnode
  else st

/-- The dials of random nodes, for half of the dials needed; `random` is what `ReadRandomNodes`
wrote. -/
def dialRandom (random : List (Node ι ip)) (st : NewTasks ι ip) : NewTasks ι ip :=
  let randomCandidates := st.needDynDials.tdiv 2
  if 0 < randomCandidates then (random.take randomCandidates.toNat).foldl (dialDyn peers) st
  else st

def dialLookup : List (Node ι ip) → NewTasks ι ip → NewTasks ι ip × List (Node ι ip)
  | [], st => (st, [])
  | n :: rest, st =>
    if 0 < st.needDynDials then dialLookup rest (dialDyn peers st n) else (st, n :: rest)

def startLookup (st : NewTasks ι ip) : NewTasks ι ip :=
  if (st.s.lookupBuf.length : Int) < st.needDynDials ∧ st.s.lookupRunning = false then
    { st with s := { st.s with lookupRunning := true }, newtasks := st.newtasks ++ [.discoverTask []] }
  else st

def waitExpire (nRunning now : Nat) (st : NewTasks ι ip) : NewTasks ι ip :=
  match st.s.hist with
  | d :: _ =>
    if nRunning = 0 ∧ st.newtasks = [] then
      { st with newtasks := st.newtasks ++ [.waitExpireTask ((d.exp : Int) - now)] }
    else st
  | [] => st

end NewTasks

namespace DialState

def needDynDials (s : DialState ι ip) (peers : GoMap ι Nat) : Int :=
  s.maxDynDials - peers.count (connIs · dynDialedConn) - s.dialing.count (connIs · dynDialedConn)

/-- The dialer after `start` is set and the history expired, the first thing `newTasks` does. -/
def expired (s : DialState ι ip) (now : Nat) : DialState ι ip :=
  let s := if s.start = 0 then { s with start := now } else s
  { s with hist := DialHistory.expire s.hist now }

/-- The locals of `newTasks` before the lookup results are tried. -/
def dialFirst (s : DialState ι ip) (peers : GoMap ι Nat) (now : Nat) (random : List (Node ι ip)) :
    NewTasks ι ip :=
  let s := s.expired now
  let st := s.static.keys.foldl (NewTasks.dialStatic peers) ⟨s, [], s.needDynDials peers⟩
  NewTasks.dialRandom peers random (NewTasks.dialBootnode peers now st)

def newTasks (s : DialState ι ip) (nRunning : Nat) (peers : GoMap ι Nat) (now : Nat)
    (random : List (Node ι ip)) : DialState ι ip × List (Task ι ip) :=
  let st := s.dialFirst peers now random
  let r := NewTasks.dialLookup peers st.s.lookupBuf st
  let st := NewTasks.startLookup { r.1 with s := { r.1.s with lookupBuf := r.2 } }
  let st := NewTasks.waitExpire nRunning now st
  (st.s, st.newtasks)

def taskDone (s : DialState ι ip) (t : Task ι ip) (now : Nat) : DialState ι ip :=
  match t with
  | .dialTask t =>
    { s with hist := DialHistory.add s.hist t.dest.ID (now + dialHistoryExpiration),
             dialing := s.dialing.erase t.dest.ID }
  | .discoverTask results => { s with lookupRunning := false, lookupBuf := s.lookupBuf ++ results }
  | .waitExpireTask _ => s

def addStatic (s : DialState ι ip) (n : Node ι ip) : DialState ι ip :=
  { s with static := s.static.insert n.ID ⟨staticDialedConn, n⟩ }

def removeStatic (s : DialState ι ip) (n : Node ι ip) : DialState ι ip :=
  { s with static := s.static.erase n.ID }

end DialState

def newDialState (static bootnodes : List (Node ι ip)) (ntab : Option ι) (maxdyn : Int)
    (netrestrict : Option (ip → Bool)) : DialState ι ip :=
  static.foldl DialState.addStatic
    { maxDynDials := maxdyn, ntab, netrestrict, lookupRunning := false, dialing := .empty,
      lookupBuf := [], static := .empty, hist := [], start := 0, bootnodes }

end Zerium.P2p.Dial
