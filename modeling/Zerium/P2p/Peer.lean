import Zerium.Lib.GoMap

/-! # Subprotocol multiplexing (`p2p/peer.go`, `p2p/protocol.go`)

Both ends of a connection run several subprotocols over one stream of messages, each protocol
with its own range of message codes above the `baseProtocolLength` codes of the base protocol.
`matchProtocols` lays the ranges out: it sorts the capabilities the other end announced by name
and version, and gives each name whose version the local node runs a range after the ranges of
the names before it. A higher version of a name already placed takes over its range.

A protocol is its name, version and number of codes; what it runs is not read here. The offsets
are `uint64`s. `sort.Sort` is modelled by `List.mergeSort`: the order on capabilities is total
and two capabilities equal in it are the same, so every sort gives the same list. A `range` over
the map of running protocols visits its keys in the order `GoMap` keeps.
-/

namespace Zerium.P2p

set_option autoImplicit false

def baseProtocolLength : UInt64 := 16

def discMsg : UInt64 := 0x01

def pingMsg : UInt64 := 0x02

structure Protocol where
  Name : String
  Version : Nat
  Length : UInt64
deriving DecidableEq

structure Cap where
  Name : String
  Version : Nat
deriving DecidableEq

def Protocol.cap (p : Protocol) : Cap := ⟨p.Name, p.Version⟩

/-- `capsByNameAndVersion.Less`. -/
def capLess (a b : Cap) : Bool := a.Name < b.Name || (a.Name == b.Name && a.Version < b.Version)

/-- `sort.Sort(capsByNameAndVersion(caps))`. -/
def sortCaps (caps : List Cap) : List Cap := caps.mergeSort fun a b => !capLess b a

structure ProtoRW where
  proto : Protocol
  offset : UInt64

def findProto (protocols : List Protocol) (cap : Cap) : Option Protocol :=
  protocols.find? fun proto => proto.Name = cap.Name ∧ proto.Version = cap.Version

/-- A match for `name`: the range of an older version of it is given back, and `proto` is
placed at the offset. -/
def assign (st : UInt64 × GoMap String ProtoRW) (name : String) (proto : Protocol) :
    UInt64 × GoMap String ProtoRW :=
  let offset := match st.2.get name with
    | some old => st.1 - old.proto.Length
    | none => st.1
  (offset + proto.Length, st.2.insert name ⟨proto, offset⟩)

def matchStep (protocols : List Protocol) (st : UInt64 × GoMap String ProtoRW) (cap : Cap) :
    UInt64 × GoMap String ProtoRW :=
  match findProto protocols cap with
  | some proto => assign st cap.Name proto
  | none => st

def matchProtocols (protocols : List Protocol) (caps : List Cap) : GoMap String ProtoRW :=
  ((sortCaps caps).foldl (matchStep protocols) (baseProtocolLength, GoMap.empty)).2

/-- `getProto(code)`: the first running protocol whose range holds the code. -/
def getProto (running : GoMap String ProtoRW) (code : UInt64) : Option ProtoRW :=
  running.values.find? fun proto => code ≥ proto.offset ∧ code < proto.offset + proto.proto.Length

/-- What `Peer.handle` does with a message. -/
inductive Handled where
  /-- A ping, answered with a pong. -/
  | pong
  /-- A disconnect: `handle` returns its reason. -/
  | disconnect
  /-- Another message of the base protocol, discarded. -/
  | discard
  /-- Sent to the `in` channel of a subprotocol. -/
  | deliver (proto : ProtoRW)
  | error (text : String)

def handle (running : GoMap String ProtoRW) (code : UInt64) : Handled :=
  if code = pingMsg then .pong
  else if code = discMsg then .disconnect
  else if code < baseProtocolLength then .discard
  else match getProto running code with
    | some proto => .deliver proto
    | none => .error s!"msg code out of range: {code}"

/-- `protoRW.WriteMsg`: the code the message goes out with. -/
def ProtoRW.WriteMsg (rw : ProtoRW) (code : UInt64) : Except String UInt64 :=
  if code ≥ rw.proto.Length then .error "invalid message code: not handled"
  else .ok (code + rw.offset)

/-- `protoRW.ReadMsg`: the code a delivered message is read with. -/
def ProtoRW.ReadMsg (rw : ProtoRW) (code : UInt64) : UInt64 := code - rw.offset

end Zerium.P2p
