import Zerium.Rlp.Encode

/-! # The decoding `Stream` of `decode.go`

The state of a `Stream` reading from a `bytes.Reader`: the unread input, the input limit,
the cached kind and size of the value ahead (`kind = none` is the source's `-1`, "rearm
Kind"), the sticky error of the last `readKind`, and the stack of open lists with the top
at the head. Operations run in `EStateM`, so that a failing operation keeps the state
changes it made before failing, as the Go methods do.
-/

namespace Zerium.Rlp

set_option autoImplicit false

inductive Error where
  | EOL
  | ErrExpectedString
  | ErrExpectedList
  | ErrCanonInt
  | ErrCanonSize
  | ErrElemTooLarge
  | ErrValueTooLarge
  | ErrMoreThanOneValue
  | errNotInList
  | errNotAtEOL
  | errUintOverflow
  /-- `io.EOF` -/
  | EOF
  /-- `io.ErrUnexpectedEOF` -/
  | ErrUnexpectedEOF
  /-- `rlp: invalid boolean value: %d` -/
  | invalidBool (num : Nat)
  /-- `decodeError{msg, typ, ctx}` -/
  | decodeError (msg typ : String) (ctx : List String)
  /-- The model's decoders run on fuel; the source recurses instead. -/
  | fuelExhausted
deriving DecidableEq, Repr

structure Listpos where
  pos : Nat
  size : Nat
deriving DecidableEq, Repr

structure Stream where
  r : List UInt8
  remaining : Nat
  limited : Bool
  kind : Option Kind
  size : Nat
  byteval : UInt8
  kinderr : Option Error
  stack : List Listpos
deriving DecidableEq, Repr

abbrev StreamM := EStateM Error Stream

/-- `Reset` with a `bytes.Reader`: without an explicit limit, the limit is the input length. -/
def Stream.Reset (r : List UInt8) (inputLimit : Nat) : Stream where
  r := r
  remaining := if inputLimit > 0 then inputLimit else r.length
  limited := true
  kind := none
  size := 0
  byteval := 0
  kinderr := none
  stack := []

def NewStream (r : List UInt8) (inputLimit : Nat) : Stream := Stream.Reset r inputLimit

def Stream.checkLimit (n : Nat) (s : Stream) : EStateM.Result Error Stream Unit :=
  if s.limited then
    if n > s.remaining then .error .ErrValueTooLarge s
    else .ok () { s with remaining := s.remaining - n }
  else .ok () s

def Stream.willRead (n : Nat) : StreamM Unit := fun s =>
  let s := { s with kind := none }
  match s.stack with
  | tos :: rest =>
    -- check list overflow
    if n > tos.size - tos.pos then .error .ErrElemTooLarge s
    else Stream.checkLimit n { s with stack := { tos with pos := tos.pos + n } :: rest }
  | [] => Stream.checkLimit n s

def Stream.readByte : StreamM UInt8 := fun s =>
  match Stream.willRead 1 s with
  | .error e s => .error e s
  | .ok () s =>
    match s.r with
    | [] => .error .ErrUnexpectedEOF s
    | b :: r => .ok b { s with r }

/-- `readFull`; a `bytes.Reader` hands out what is left and then reports `io.EOF`. -/
def Stream.readFull (n : Nat) : StreamM (List UInt8) := fun s =>
  match Stream.willRead n s with
  | .error e s => .error e s
  | .ok () s =>
    if s.r.length < n then .error .ErrUnexpectedEOF { s with r := [] }
    else .ok (s.r.take n) { s with r := s.r.drop n }

/-- `readUint` for sizes up to eight, the only sizes its callers pass. -/
def Stream.readUint (size : Nat) : StreamM Nat := fun s =>
  if size = 0 then .ok 0 { s with kind := none }
  else if size = 1 then
    match Stream.readByte s with
    | .ok b s => .ok b.toNat s
    | .error e s => .error e s
  else
    match Stream.readFull size s with
    | .error e s => .error e s
    | .ok buf s => if buf.head? = some 0 then .error .ErrCanonSize s else .ok (BigEndian.toNat buf) s

/-- The long forms of `readKind`: a size of `sizesize` bytes that must be at least 56. -/
def Stream.readLongSize (kind : Kind) (sizesize : UInt8) (s : Stream) :
    (Kind × Nat × Option Error) × Stream :=
  match Stream.readUint sizesize.toNat s with
  | .ok size s => ((kind, size, if size < 56 then some .ErrCanonSize else none), s)
  | .error e s => ((kind, 0, some e), s)

/-- `readKind` returns its kind and size together with its error, as the source does. -/
def Stream.readKind (s : Stream) : (Kind × Nat × Option Error) × Stream :=
  match Stream.readByte s with
  | .error err s =>
    -- at toplevel, adjust the error to actual EOF
    let err := if s.stack.isEmpty then
        match err with
        | .ErrUnexpectedEOF => .EOF
        | .ErrValueTooLarge => .EOF
        | e => e
      else err
    ((.Byte, 0, some err), s)
  | .ok b s =>
    let s := { s with byteval := 0 }
    if b < 0x80 then ((.Byte, 0, none), { s with byteval := b })
    else if b < 0xB8 then ((.String, (b - 0x80).toNat, none), s)
    else if b < 0xC0 then Stream.readLongSize .String (b - 0xB7) s
    else if b < 0xF8 then ((.List, (b - 0xC0).toNat, none), s)
    else Stream.readLongSize .List (b - 0xF7) s

/-- The part of `Kind` that reads a new header and checks its size against the input. -/
def Stream.readKindChecked (s : Stream) : EStateM.Result Error Stream (Kind × Nat) :=
  let ((kind, size, err), s) := Stream.readKind s
  let err := match err with
    | some e => some e
    | none =>
      match s.stack with
      | [] => if s.limited ∧ size > s.remaining then some .ErrValueTooLarge else none
      | tos :: _ => if size > tos.size - tos.pos then some .ErrElemTooLarge else none
  let s := { s with kind := some kind, size := size, kinderr := err }
  match err with
  | some e => .error e s
  | none => .ok (kind, size) s

def Stream.Kind : StreamM (Kind × Nat) := fun s =>
  match s.kind with
  | some kind =>
    match s.kinderr with
    | some e => .error e s
    | none => .ok (kind, s.size) s
  | none =>
    let s := { s with kinderr := none }
    match s.stack with
    | tos :: _ =>
      -- don't read further if we're at the end of the innermost list
      if tos.pos = tos.size then .error .EOL s else Stream.readKindChecked s
    | [] => Stream.readKindChecked s

def Stream.Bytes : StreamM (List UInt8) := do
  let (kind, size) ← Stream.Kind
  match kind with
  | .Byte => modifyGet fun s => ([s.byteval], { s with kind := none })
  | .String =>
    let b ← Stream.readFull size
    if size = 1 ∧ b.headD 0 < 128 then throw .ErrCanonSize
    pure b
  | .List => throw .ErrExpectedString

def Stream.Raw : StreamM (List UInt8) := do
  let (kind, size) ← Stream.Kind
  match kind with
  | .Byte => modifyGet fun s => ([s.byteval], { s with kind := none })
  | .String =>
    let content ← Stream.readFull size
    pure (puthead 0x80 0xB7 (UInt64.ofNat size) ++ content)
  | .List =>
    let content ← Stream.readFull size
    pure (puthead 0xC0 0xF7 (UInt64.ofNat size) ++ content)

def Stream.uint (maxbits : Nat) : StreamM Nat := do
  let (kind, size) ← Stream.Kind
  match kind with
  | .Byte =>
    let s ← get
    if s.byteval = 0 then throw .ErrCanonInt
    set { s with kind := none }
    pure s.byteval.toNat
  | .String =>
    if size > maxbits / 8 then throw .errUintOverflow
    -- adjust the error because we're not reading a size right now
    let v ← (Stream.readUint size).adaptExcept fun err =>
      if err = .ErrCanonSize then .ErrCanonInt else err
    if size > 0 ∧ v < 128 then throw .ErrCanonSize
    pure v
  | .List => throw .ErrExpectedString

def Stream.Uint : StreamM Nat := Stream.uint 64

def Stream.Bool : StreamM Bool := do
  let num ← Stream.uint 8
  match num with
  | 0 => pure false
  | 1 => pure true
  | num => throw (.invalidBool num)

def Stream.List : StreamM Nat := do
  let (kind, size) ← Stream.Kind
  if kind ≠ .List then throw .ErrExpectedList
  modify fun s => { s with stack := ⟨0, size⟩ :: s.stack, kind := none, size := 0 }
  pure size

/-- Popping a list of `size` bytes charges them to the enclosing list. -/
def Listpos.closeInto (size : Nat) : List Listpos → List Listpos
  | parent :: outer => { parent with pos := parent.pos + size } :: outer
  | [] => []

def Stream.ListEnd : StreamM Unit := do
  let s ← get
  match s.stack with
  | [] => throw .errNotInList
  | tos :: rest =>
    if tos.pos ≠ tos.size then throw .errNotAtEOL
    set { s with stack := Listpos.closeInto tos.size rest, kind := none, size := 0 }

end Zerium.Rlp
