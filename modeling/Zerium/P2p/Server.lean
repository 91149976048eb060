import Zerium.P2p.Dial
import Zerium.P2p.Peer

/-! # The server's run loop (`p2p/server.go`)

`Server.run` is the one goroutine that owns the peer set and the dial tasks. Each iteration it
starts queued tasks while fewer than `maxActiveDialTasks` run, asks the dialer for new ones
(`scheduleTasks`), and handles one event: a static node added or removed, a task done, a
connection through its handshakes, or a peer gone. `RunState` is the loop's locals and dialer,
`step` one event, `Reachable` the states of every run. The task goroutines are the environment:
each sends `taskdone` once, and the connections handed to `addpeer` come from a running dial task
or the listener (`Allowed`). `peerOp` only reads the peers and is left out, as is `quit`.
-/

namespace Zerium.P2p.Dial

set_option autoImplicit false

def maxActiveDialTasks : Nat := 16

/-- A `DiscReason` (`p2p/peer_error.go`). -/
inductive DiscReason where
  | DiscRequested
  | DiscNetworkError
  | DiscProtocolError
  | DiscUselessPeer
  | DiscTooManyPeers
  | DiscAlreadyConnected
  | DiscIncompatibleVersion
  | DiscInvalidIdentity
  | DiscQuitting
  | DiscUnexpectedIdentity
  | DiscSelf
  | DiscReadTimeout
  | DiscSubprotocolError
deriving DecidableEq

/-- `countMatchingProtocols` (`p2p/peer.go`). -/
def countMatchingProtocols (protocols : List Protocol) (caps : List Cap) : Nat :=
  caps.foldl (fun n cap => protocols.foldl (fun n proto =>
    if proto.Name = cap.Name ∧ proto.Version = cap.Version then n + 1 else n) n) 0

/-- The fields of a `Server` that `Start` and `run` read; `selfID` is the ID of the local node,
`discover.PubkeyID(&srv.PrivateKey.PublicKey)`. -/
structure Server (ι ip : Type) where
  MaxPeers : Int
  NoDiscovery : Bool
  StaticNodes : List (Node ι ip)
  BootstrapNodes : List (Node ι ip)
  TrustedNodes : List (Node ι ip)
  NetRestrict : Option (ip → Bool)
  Protocols : List Protocol
  selfID : ι

/-- A `*conn` past the protocol handshake: its flags, the remote ID and its capabilities. -/
structure Conn (ι : Type) where
  flags : Nat
  id : ι
  caps : List Cap

/-- The locals of `run`, with its dialer. A peer is the flags of its connection. -/
structure RunState (ι ip : Type) where
  dialstate : DialState ι ip
  peers : GoMap ι Nat
  runningTasks : List (Task ι ip)
  queuedTasks : List (Task ι ip)

/-- The events `run` handles. `taskdone` carries the task's pointer, the results its `Do` wrote
into it and the time it is handled. -/
inductive Event (ι ip : Type) where
  | addstatic (n : Node ι ip)
  | removestatic (n : Node ι ip)
  | taskdone (t : Task ι ip) (results : List (Node ι ip)) (now : Nat)
  | addpeer (c : Conn ι)
  | delpeer (id : ι)

variable {ι ip : Type} [DecidableEq ι] [DecidableEq ip]

/-- The task `t` with what its `Do` wrote into it: a lookup its results. -/
def Task.afterDo : Task ι ip → List (Node ι ip) → Task ι ip
  | .discoverTask _, results => .discoverTask results
  | t, _ => t

def startTasks (runningTasks : List (Task ι ip)) : List (Task ι ip) → List (Task ι ip) × List (Task ι ip)
  | [] => (runningTasks, [])
  | t :: ts =>
    if runningTasks.length < maxActiveDialTasks then startTasks (runningTasks ++ [t]) ts
    else (runningTasks, t :: ts)

namespace RunState

def pending (r : RunState ι ip) : List (Task ι ip) := r.runningTasks ++ r.queuedTasks

def scheduleTasks (r : RunState ι ip) (now : Nat) (random : List (Node ι ip)) : RunState ι ip :=
  let q := startTasks r.runningTasks r.queuedTasks
  if q.1.length < maxActiveDialTasks then
    let d := r.dialstate.newTasks (q.1.length + q.2.length) r.peers now random
    let nt := startTasks q.1 d.2
    { r with dialstate := d.1, runningTasks := nt.1, queuedTasks := q.2 ++ nt.2 }
  else { r with runningTasks := q.1, queuedTasks := q.2 }

end RunState

namespace Server

def trusted (srv : Server ι ip) (id : ι) : Bool := srv.TrustedNodes.any fun n => n.ID == id

def encHandshakeChecks (srv : Server ι ip) (peers : GoMap ι Nat) (c : Conn ι) : Option DiscReason :=
  if connIs c.flags (trustedConn ||| staticDialedConn) = false ∧ srv.MaxPeers ≤ peers.keys.length then
    some .DiscTooManyPeers
  else if peers.contains c.id then some .DiscAlreadyConnected
  else if c.id = srv.selfID then some .DiscSelf
  else none

def protoHandshakeChecks (srv : Server ι ip) (peers : GoMap ι Nat) (c : Conn ι) : Option DiscReason :=
  if 0 < srv.Protocols.length ∧ countMatchingProtocols srv.Protocols c.caps = 0 then
    some .DiscUselessPeer
  else srv.encHandshakeChecks peers c

/-- The `posthandshake` case: the connection with the trusted flag, and the answer to
`SetupConn`. -/
def posthandshake (srv : Server ι ip) (peers : GoMap ι Nat) (c : Conn ι) : Conn ι × Option DiscReason :=
  let c := if srv.trusted c.id then { c with flags := c.flags ||| trustedConn } else c
  (c, srv.encHandshakeChecks peers c)

def handle (srv : Server ι ip) (r : RunState ι ip) : Event ι ip → RunState ι ip
  | .addstatic n => { r with dialstate := r.dialstate.addStatic n }
  | .removestatic n => { r with dialstate := r.dialstate.removeStatic n }
  | .taskdone t results now =>
    { r with dialstate := r.dialstate.taskDone (t.afterDo results) now,
             runningTasks := r.runningTasks.erase t }
  | .addpeer c =>
    match srv.protoHandshakeChecks r.peers c with
    | none => { r with peers := r.peers.insert c.id c.flags }
    | some _ => r
  | .delpeer id => { r with peers := r.peers.erase id }

def step (srv : Server ι ip) (r : RunState ι ip) (ev : Event ι ip) (now : Nat)
    (random : List (Node ι ip)) : RunState ι ip :=
  (srv.handle r ev).scheduleTasks now random

/-- The dialer `Start` makes: no table and no dynamic dials without discovery. -/
def dialer (srv : Server ι ip) : DialState ι ip :=
  newDialState srv.StaticNodes srv.BootstrapNodes (if srv.NoDiscovery then none else some srv.selfID)
    (if srv.NoDiscovery then 0 else (srv.MaxPeers + 1).tdiv 2) srv.NetRestrict

def start (srv : Server ι ip) (now : Nat) (random : List (Node ι ip)) : RunState ι ip :=
  RunState.scheduleTasks ⟨srv.dialer, .empty, [], []⟩ now random

/-- The connections `addpeer` can be handed: those `SetupConn` hands on, of a running dial task
or of the listener, after `posthandshake`. -/
def ConnFrom (srv : Server ι ip) (r : RunState ι ip) (c : Conn ι) : Prop :=
  ∃ c₀ : Conn ι,
    ((∃ t, .dialTask t ∈ r.runningTasks ∧ c₀.id = t.dest.ID ∧ c₀.flags = t.flags) ∨
      c₀.flags = inboundConn) ∧
    c = (srv.posthandshake r.peers c₀).1

def Allowed (srv : Server ι ip) (r : RunState ι ip) : Event ι ip → Prop
  | .taskdone t _ _ => t ∈ r.runningTasks
  | .addpeer c => srv.ConnFrom r c
  | _ => True

/-- The states of the loop, waiting in its `select`, over every run. -/
inductive Reachable (srv : Server ι ip) : RunState ι ip → Prop
  | start (now : Nat) (random : List (Node ι ip)) : Reachable srv (srv.start now random)
  | step {r : RunState ι ip} (ev : Event ι ip) (now : Nat) (random : List (Node ι ip)) :
      Reachable srv r → srv.Allowed r ev → Reachable srv (srv.step r ev now random)

end Server

end Zerium.P2p.Dial
