import Zerium.Abi.Pack

/-! # Unpacking outputs

`unpack.go` and the unpacking of `method.go`. `toGoType` reads the value of a type from the word
at an index: a fixed-width integer from the low bytes of its word, a `*big.Int` from the whole
word, a string, bytes or slice from the offset and length its word points to; `forEachUnpack`
reads array and slice elements one word apart except for nested arrays. Offsets and lengths are
Go `int`s from the low eight bytes of their word, so `2^63` or more is negative, and Go's slicing
panics (`goSlice` is `none`) on bounds out of order or range; sums of offsets are unbounded here.
-/

namespace Zerium.Abi

set_option autoImplicit false

open BigEndian

def goSlice (b : List UInt8) (lo hi : Int) : Option (List UInt8) :=
  if 0 ≤ lo ∧ lo ≤ hi ∧ hi ≤ b.length then some ((b.drop lo.toNat).take (hi - lo).toNat) else none

theorem goSlice_natCast (b : List UInt8) {lo hi : Nat} (hlo : lo ≤ hi) (hhi : hi ≤ b.length) :
    goSlice b lo hi = some ((b.drop lo).take (hi - lo)) := by
  rw [goSlice, if_pos ⟨by omega, by omega, by omega⟩]
  congr
  omega

theorem goSlice_of_lt (b : List UInt8) {lo hi : Int} (h : hi < lo) : goSlice b lo hi = none := by
  rw [goSlice, if_neg (by omega)]

def toSigned (w n : Nat) : Int := if n < 2 ^ (w - 1) then n else (n : Int) - 2 ^ w

/-- The big-endian number in the last `k` bytes of a word. -/
def lowBytes (k : Nat) (b : List UInt8) : Nat := toNat (b.drop (b.length - k))

/-- `readInteger`: `b` is the word of the value. -/
def readInteger (kind : ReflectKind) (b : List UInt8) : GoValue :=
  match kind with
  | .Uint8 => .uint .Uint8 (lowBytes 1 b)
  | .Uint16 => .uint .Uint16 (lowBytes 2 b)
  | .Uint32 => .uint .Uint32 (lowBytes 4 b)
  | .Uint64 => .uint .Uint64 (lowBytes 8 b)
  | .Int8 => .int .Int8 (toSigned 8 (lowBytes 1 b))
  | .Int16 => .int .Int16 (toSigned 16 (lowBytes 2 b))
  | .Int32 => .int .Int32 (toSigned 32 (lowBytes 4 b))
  | .Int64 => .int .Int64 (toSigned 64 (lowBytes 8 b))
  -- `new(big.Int).SetBytes(b)`: the word as an unsigned number
  | _ => .bigInt (toNat b)

/-- `readBool`. -/
def readBool (word : List UInt8) : Except AbiError Bool :=
  if (word.take 31).any (· ≠ 0) then .error .errBadBool
  else
    match (word[31]? : Option UInt8) with
    | some 0 => .ok false
    | some 1 => .ok true
    | _ => .error .errBadBool

/-- `readFunctionType`: the address and selector in the first 24 bytes, zeros after them. -/
def readFunctionType (t : AbiType) (word : List UInt8) : Except AbiError GoValue :=
  if t.T ≠ .FunctionTy then .error .invalidFunctionType
  else if toNat ((word.drop 24).take 8) ≠ 0 then .error (.improperFunctionType word)
  else .ok (.byteArray (word.take 24))

/-- `readFixedBytes`; `none` is the panic of `word[0:t.Size]` for a size past the word. -/
def readFixedBytes (t : AbiType) (word : List UInt8) : Option (Except AbiError GoValue) :=
  if t.T ≠ .FixedBytesTy then some (.error .invalidFixedBytes)
  else (goSlice word 0 t.Size).map fun b => .ok (.byteArray b)

/-- `lengthPrefixPointsTo`: the start and length of the data the word at `index` points to. -/
def lengthPrefixPointsTo (index : Nat) (output : List UInt8) : Option (Except AbiError (Int × Int)) :=
  (goSlice output (index + 24) (index + 32)).bind fun offsetWord =>
    let offset := toSigned 64 (toNat offsetWord)
    if offset + 32 > output.length then some (.error (.goSliceOverBoundary output.length (offset + 32)))
    else
      (goSlice output (offset + 24) (offset + 32)).bind fun lengthWord =>
        let length := toSigned 64 (toNat lengthWord)
        if offset + 32 + length > output.length then
          some (.error (.lengthInsufficient output.length (offset + 32 + length)))
        else some (.ok (offset + 32, length))

/-- The indices `forEachUnpack` reads the elements at: one word apart, and for elements that
are arrays `t.Elem.Size` words apart. -/
def elemIndex (elem : AbiType) (start : Int) (j : Nat) : Int :=
  if elem.T = .ArrayTy ∧ j ≠ 0 then start + elem.Size * 32 * j else start + 32 * j

/-- The loop of `forEachUnpack` over the element indices `j` from `j₀` on, `n` of them, each
element read by `f` at its index; `f` is `toGoType` at the element type. -/
def unpackElems (f : Int → Option (Except AbiError GoValue)) (elem : AbiType) (start : Int) :
    Nat → Nat → Option (Except AbiError (List GoValue))
  | 0, _ => some (.ok [])
  | n + 1, j =>
    match f (elemIndex elem start j) with
    | none => none
    | some (.error err) => some (.error err)
    | some (.ok inter) => (unpackElems f elem start n (j + 1)).map (·.map (inter :: ·))

mutual

/-- `toGoType`; `none` is a panic. -/
def toGoType (index : Int) : AbiType → List UInt8 → Option (Except AbiError GoValue)
  | t@⟨elem?, kind, size, T⟩, output =>
    if index + 32 > output.length then some (.error (.lengthInsufficient output.length (index + 32)))
    else
      -- the data a length prefix points to, or the value's own word
      let located : Option (Except AbiError (Int × Int × List UInt8)) :=
        if t.requiresLengthPrefix then
          if index < 0 then none
          else (lengthPrefixPointsTo index.toNat output).map (·.map fun (b, e) => (b, e, []))
        else (goSlice output index (index + 32)).map fun w => .ok (0, 0, w)
      match located with
      | none => none
      | some (.error err) => some (.error err)
      | some (.ok (begin, end_, returnOutput)) =>
        match T with
        | .SliceTy => forEachUnpack elem? .Slice output begin end_
        | .ArrayTy => forEachUnpack elem? .Array output index size
        | .StringTy => (goSlice output begin (begin + end_)).map fun s => .ok (.string s)
        | .IntTy | .UintTy => some (.ok (readInteger kind returnOutput))
        | .BoolTy => some ((readBool returnOutput).map .bool)
        -- `common.BytesToAddress` keeps the last 20 bytes
        | .AddressTy => some (.ok (.byteArray (returnOutput.drop 12)))
        | .HashTy => some (.ok (.byteArray returnOutput))
        | .BytesTy => (goSlice output begin (begin + end_)).map fun b => .ok (.byteSlice b)
        | .FixedBytesTy => readFixedBytes t returnOutput
        | .FunctionTy => some (readFunctionType t returnOutput)
        | T => some (.error (.unknownType T))

/-- `forEachUnpack` for an array (`kind = Array`) or a slice of `size` elements from `start`. -/
def forEachUnpack : Option AbiType → ReflectKind → List UInt8 → Int → Int →
    Option (Except AbiError GoValue)
  | none, _, _, _, _ => none
  | some elem, kind, output, start, size =>
    if start + 32 * size > output.length then
      some (.error (.goArrayOverBoundary output.length (start + 32 * size)))
    else if start < 0 ∨ size < 0 then none
    else
      (unpackElems (fun i => toGoType i elem output) elem start size.toNat 0).map
        (·.map fun vs => if kind = .Slice then .slice elem.Kind vs else .array elem.Kind vs)

end

/-- `bytesAreProper`. -/
def bytesAreProper (output : List UInt8) : Except AbiError Unit :=
  if output.length = 0 then .error .emptyOutput
  else if output.length % 32 ≠ 0 then .error .improperOutput
  else .ok ()

/-- `Method.tupleUnpack` into a slice of pointers, one for each output. Before an array output
is read, the index is moved on by the array's own size. -/
def Method.tupleUnpack (method : Method) (output : List UInt8) :
    Option (Except AbiError (List GoValue)) :=
  loop method.Outputs 0 0
where
  /-- The loop over the outputs from the `i`-th on, with the shift `j` so far. -/
  loop : List Argument → Nat → Nat → Option (Except AbiError (List GoValue))
    | [], _, _ => some (.ok [])
    | toUnpack :: rest, i, j =>
      let j := if toUnpack.type.T = .ArrayTy then j + toUnpack.type.Size else j
      match toGoType ((i + j) * 32) toUnpack.type output with
      | none => none
      | some (.error err) => some (.error err)
      | some (.ok v) => (loop rest (i + 1) j).map (·.map (v :: ·))

/-- `Method.singleUnpack`: the first output, read at the first word. -/
def Method.singleUnpack (method : Method) (output : List UInt8) :
    Option (Except AbiError (List GoValue)) :=
  match method.Outputs with
  | [] => none
  | out :: _ => (toGoType 0 out.type output).map (·.map fun v => [v])

/-- `ABI.Unpack` for a method: a tuple for more than one output, a single value otherwise. -/
def Method.Unpack (method : Method) (output : List UInt8) : Option (Except AbiError (List GoValue)) :=
  match bytesAreProper output with
  | .error err => some (.error err)
  | .ok () => if method.Outputs.length > 1 then method.tupleUnpack output else method.singleUnpack output

end Zerium.Abi
