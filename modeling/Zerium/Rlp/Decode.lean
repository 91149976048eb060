import Zerium.Rlp.Stream

/-! # The decoders of `decode.go` and `DecodeBytes`

The decoders `decode.go` makes for the targets `interface{}` (value trees), `uint64` and
`*big.Int`. `decodeInterface` and the element loop of `decodeSliceElems`
recurse on the input in the source; here they run on fuel, and `DecodeBytes` gives them
one more unit than the input has bytes.
-/

namespace Zerium.Rlp

set_option autoImplicit false

def wrapStreamError (err : Error) (typ : String) : Error :=
  match err with
  | .ErrCanonInt => .decodeError "non-canonical integer (leading zero bytes)" typ []
  | .ErrCanonSize => .decodeError "non-canonical size information" typ []
  | .ErrExpectedList => .decodeError "expected input list" typ []
  | .ErrExpectedString => .decodeError "expected input string or byte" typ []
  | .errUintOverflow => .decodeError "input string too long" typ []
  | .errNotAtEOL => .decodeError "input list has too many elements" typ []
  | err => err

def addErrorContext (err : Error) (ctx : String) : Error :=
  match err with
  | .decodeError msg typ ctxs => .decodeError msg typ (ctxs ++ [ctx])
  | err => err

def decodeUint (bits : Nat) (typ : String) : StreamM UInt64 := do
  let num ← (Stream.uint bits).adaptExcept (wrapStreamError · typ)
  pure (UInt64.ofNat num)

def decodeBigInt (typ : String) : StreamM Int := do
  let b ← Stream.Bytes.adaptExcept (wrapStreamError · typ)
  -- reject leading zero bytes
  if b.head? = some 0 then throw (wrapStreamError .ErrCanonInt typ)
  pure (BigEndian.toNat b)

def decodeSliceElems {α : Type} (elemdec : StreamM α) : Nat → Nat → StreamM (List α)
  | 0, _ => throw .fuelExhausted
  | fuel + 1, i => fun s =>
    match elemdec s with
    | .error .EOL s => .ok [] s
    | .error err s => .error (addErrorContext err ("[" ++ toString i ++ "]")) s
    | .ok v s =>
      match decodeSliceElems elemdec fuel (i + 1) s with
      | .ok vs s => .ok (v :: vs) s
      | .error err s => .error err s

def decodeListSlice {α : Type} (elemdec : StreamM α) (typ : String) (fuel : Nat) :
    StreamM (List α) := do
  let size ← Stream.List.adaptExcept (wrapStreamError · typ)
  if size = 0 then
    Stream.ListEnd
    pure []
  else
    let vs ← decodeSliceElems elemdec fuel 0
    Stream.ListEnd
    pure vs

def decodeInterface : Nat → StreamM Value
  | 0 => throw .fuelExhausted
  | fuel + 1 => do
    let (kind, _) ← Stream.Kind
    if kind = .List then
      let vs ← decodeListSlice (decodeInterface fuel) "[]interface {}" fuel
      pure (.list vs)
    else
      let b ← Stream.Bytes
      pure (.bytes b)

/-- `Stream.Decode` into a pointer to `typ`: the target type is added to a non-empty
error context. -/
def Stream.Decode {α : Type} (dec : StreamM α) (typ : String) : StreamM α :=
  dec.adaptExcept fun err =>
    match err with
    | .decodeError msg t ctx =>
      if ctx.isEmpty then err else .decodeError msg t (ctx ++ ["(" ++ typ ++ ")"])
    | err => err

def DecodeBytes {α : Type} (dec : StreamM α) (typ : String) (b : List UInt8) : Except Error α :=
  match Stream.Decode dec typ (NewStream b b.length) with
  | .error err _ => .error err
  | .ok v s => if s.r.length > 0 then .error .ErrMoreThanOneValue else .ok v

/-- `DecodeBytes(b, &x)` with `x` of type `interface{}`. -/
def decodeBytesInterface (b : List UInt8) : Except Error Value :=
  DecodeBytes (decodeInterface (b.length + 1)) "interface {}" b

/-- `DecodeBytes(b, &x)` with `x` of type `uint64`. -/
def decodeBytesUint64 (b : List UInt8) : Except Error UInt64 :=
  DecodeBytes (decodeUint 64 "uint64") "uint64" b

/-- `DecodeBytes(b, x)` with `x` of type `*big.Int`. -/
def decodeBytesBigInt (b : List UInt8) : Except Error Int :=
  DecodeBytes (decodeBigInt "*big.Int") "*big.Int" b

example : decodeBytesInterface [0xc8, 0x83, 0x63, 0x61, 0x74, 0x83, 0x64, 0x6f, 0x67] =
    .ok (.list [.bytes [0x63, 0x61, 0x74], .bytes [0x64, 0x6f, 0x67]]) := by decide +kernel

example : decodeBytesUint64 [0x81, 0x05] = .error
    (.decodeError "non-canonical size information" "uint64" []) := by rfl

end Zerium.Rlp
