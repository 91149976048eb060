import Zerium.Abi.Type

/-! # Packing arguments

`pack.go`, `Type.pack`, the type checks of `error.go` and `Method.pack`. A value is packed into
32-byte words: integers as 256-bit two's complement (`U256`), booleans as 0 or 1, addresses
left-padded, fixed bytes right-padded, strings and byte slices as their length followed by
their bytes padded to a whole number of words, arrays as their elements one after the other,
and slices as their length followed by that. `Method.pack` lays the arguments out in a head of
one word per argument, with the offset of each string, bytes or slice argument's data in its
slot and the data after the head.

`none` is a Go panic: `packElement` on a tag it does not know, `Bytes()` on a value that is not
a byte array or slice, and `val.Index(0)` on an empty slice in the check of a slice of arrays.
`indirect` only looks through pointers other than `*big.Int`, and the model's values have none.
-/

namespace Zerium.Abi

set_option autoImplicit false

open BigEndian

/-- `common.LeftPadBytes`. -/
def leftPadBytes (slice : List UInt8) (l : Nat) : List UInt8 :=
  if l ≤ slice.length then slice else List.replicate (l - slice.length) 0 ++ slice

/-- `common.RightPadBytes`. -/
def rightPadBytes (slice : List UInt8) (l : Nat) : List UInt8 :=
  if l ≤ slice.length then slice else slice ++ List.replicate (l - slice.length) 0

/-- `math.PaddedBigBytes` of a non-negative integer: its big-endian bytes, at least `n` of
them. -/
def paddedBigBytes (bigint : Nat) (n : Nat) : List UInt8 :=
  if bigint.size / 8 ≥ n then ofNat bigint else leftPadBytes (ofNat bigint) n

/-- `U256` of `numbers.go`: `math.U256` keeps the low 256 bits of the two's complement, and the
result is padded to a word. -/
def U256 (n : Int) : List UInt8 := paddedBigBytes (n % 2 ^ 256).toNat 32

/-- `packNum`; `none` is its panic on a value that is not an integer. -/
def packNum : GoValue → Option (List UInt8)
  | .uint _ n => some (U256 n)
  | .int _ n => some (U256 n)
  | .bigInt n => some (U256 n)
  | _ => none

/-- `packBytesSlice`: the length `l` as an `int`, then the bytes padded to whole words. -/
def packBytesSlice (bytes : List UInt8) (l : Nat) : List UInt8 :=
  U256 l ++ rightPadBytes bytes ((l + 31) / 32 * 32)

/-- `packElement`. A value of another kind than the type's cannot reach it: `typeCheck` comes
first. -/
def packElement (t : AbiType) (v : GoValue) : Option (List UInt8) :=
  match t.T with
  | .IntTy | .UintTy => packNum v
  | .StringTy =>
    match v with
    | .string s => some (packBytesSlice s v.Len)
    | _ => none
  | .AddressTy => v.bytes.map fun b => leftPadBytes b 32
  | .BoolTy =>
    match v with
    | .bool b => some (paddedBigBytes (if b then 1 else 0) 32)
    | _ => none
  | .BytesTy => v.bytes.map fun b => packBytesSlice b v.Len
  | .FixedBytesTy | .FunctionTy => v.bytes.map fun b => rightPadBytes b 32
  | _ => none

/-- `sliceTypeCheck`. -/
def sliceTypeCheck : AbiType → GoValue → Option (Except AbiError Unit)
  | t@⟨elem?, _, _, _⟩, val =>
    if val.Kind ≠ .Slice ∧ val.Kind ≠ .Array then some (.error .typeErr)
    else if t.T = .ArrayTy ∧ val.Len ≠ t.Size then some (.error .typeErr)
    else
      match elem? with
      -- `NewType` gives every array and slice type its element type
      | none => none
      | some elem =>
        let checkKind : Option (Except AbiError Unit) :=
          if val.elemKind ≠ some elem.Kind then some (.error .typeErr) else some (.ok ())
        if elem.T = .SliceTy then
          match val.elems with
          | v :: _ => sliceTypeCheck elem v
          | [] => checkKind
        else if elem.T = .ArrayTy then
          match val.elems with
          | v :: _ => sliceTypeCheck elem v
          | [] => none
        else checkKind

/-- `typeCheck`. -/
def typeCheck (t : AbiType) (value : GoValue) : Option (Except AbiError Unit) :=
  if t.T = .SliceTy ∨ t.T = .ArrayTy then sliceTypeCheck t value
  else if t.Kind ≠ value.Kind then some (.error .typeErr)
  else if t.T = .FixedBytesTy ∧ t.Size ≠ value.Len then some (.error .typeErr)
  else some (.ok ())

/-- The loop of `Type.pack` over the elements of an array or a slice, each packed by `f`,
stopping at the first failure. -/
def packElems (f : GoValue → Option (Except AbiError (List UInt8))) :
    List GoValue → Option (Except AbiError (List UInt8))
  | [] => some (.ok [])
  | v :: vs =>
    match f v with
    | none => none
    | some (.error err) => some (.error err)
    | some (.ok val) => (packElems f vs).map (·.map (val ++ ·))

/-- `Type.pack`. -/
def AbiType.pack : AbiType → GoValue → Option (Except AbiError (List UInt8))
  | t@⟨elem?, _, _, _⟩, v =>
    match typeCheck t v with
    | none => none
    | some (.error err) => some (.error err)
    | some (.ok ()) =>
      if t.T = .SliceTy ∨ t.T = .ArrayTy then
        match elem? with
        | none => none
        | some elem =>
          let packed := packElems elem.pack v.elems
          if t.T = .SliceTy then packed.map (·.map fun p => packBytesSlice p v.Len)
          else packed
      else (packElement t v).map .ok

/-- `Method.pack`: the head of one word per input, then the data of the inputs that need a
length prefix, whose offsets the head holds. -/
def Method.pack (method : Method) (args : List GoValue) : Option (Except AbiError (List UInt8)) :=
  if args.length ≠ method.Inputs.length then
    some (.error (.argumentCountMismatch args.length method.Inputs.length))
  else
    (loop (method.Inputs.zip args) [] []).map (·.map fun (ret, variableInput) => ret ++ variableInput)
where
  /-- The loop over the arguments with the head `ret` and the data `variableInput` so far. -/
  loop : List (Argument × GoValue) → List UInt8 → List UInt8 →
      Option (Except AbiError (List UInt8 × List UInt8))
    | [], ret, variableInput => some (.ok (ret, variableInput))
    | (input, a) :: rest, ret, variableInput =>
      match input.type.pack a with
      | none => none
      | some (.error err) => some (.error (.inMethod method.Name err))
      | some (.ok packed) =>
        if input.type.requiresLengthPrefix then
          let offset := method.Inputs.length * 32 + variableInput.length
          loop rest (ret ++ U256 offset) (variableInput ++ packed)
        else loop rest (ret ++ packed) variableInput

end Zerium.Abi
