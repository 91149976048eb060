import Zerium.Lib.BigEndian

/-! # ABI types and the Go values they describe

`type.go`: a `Type` is its own tag `T`, the `reflect.Kind` of the Go values it packs from and
unpacks to, a size, and for arrays and slices the element type. `NewType` builds one from the
type's name; `newType` does the same from the parsed name, for the names of the fragment the
package supports. The `reflect.Type` and the name string a `Type` also carries are left out:
the first is determined by the other fields for every type `NewType` builds, the second only
names the type in signatures.

Go values are what `reflect.ValueOf` sees of the arguments: fixed-width integers with their
kind, `*big.Int`, booleans, strings, arrays and slices with the kind of their element. A byte
array or slice is an array or slice of `uint8`, as in Go, where `[]byte` and `[]uint8` are one
type.
-/

namespace Zerium.Abi

set_option autoImplicit false

/-- The tag `T` of a `Type`. -/
inductive Ty where
  | IntTy
  | UintTy
  | BoolTy
  | StringTy
  | SliceTy
  | ArrayTy
  | AddressTy
  | FixedBytesTy
  | BytesTy
  | HashTy
  | FixedPointTy
  | FunctionTy
deriving DecidableEq, Repr

/-- The `reflect.Kind`s of the package's types and values. -/
inductive ReflectKind where
  | Bool
  | Int8
  | Int16
  | Int32
  | Int64
  | Uint8
  | Uint16
  | Uint32
  | Uint64
  | Array
  | Ptr
  | Slice
  | String
deriving DecidableEq, Repr

structure AbiType where
  Elem : Option AbiType
  Kind : ReflectKind
  Size : Nat
  T : Ty
deriving Repr

/-- `requiresLengthPrefix`: the types whose head slot holds an offset to their data. -/
def AbiType.requiresLengthPrefix (t : AbiType) : Bool :=
  t.T = .StringTy || t.T = .BytesTy || t.T = .SliceTy

/-- `reflectIntKindAndType`: the fixed-width Go integers, and `*big.Int` for every other size. -/
def reflectIntKind (unsigned : Bool) (size : Nat) : ReflectKind :=
  match size with
  | 8 => if unsigned then .Uint8 else .Int8
  | 16 => if unsigned then .Uint16 else .Int16
  | 32 => if unsigned then .Uint32 else .Int32
  | 64 => if unsigned then .Uint64 else .Int64
  | _ => .Ptr

/-- A type name as `NewType` parses it: `intN`, `uintN`, `bool`, `address`, `string`, `bytes`,
`bytesN`, `function`, `T[k]` and `T[]`. -/
inductive TypeName where
  | int (size : Nat)
  | uint (size : Nat)
  | bool
  | address
  | string
  | bytes (size : Nat)
  | function
  | array (elem : TypeName) (size : Nat)
  | slice (elem : TypeName)
deriving DecidableEq, Repr

/-- `NewType` on a parsed name; `bytes 0` is the name `bytes`. -/
def newType : TypeName → AbiType
  | .int size => ⟨none, reflectIntKind false size, size, .IntTy⟩
  | .uint size => ⟨none, reflectIntKind true size, size, .UintTy⟩
  | .bool => ⟨none, .Bool, 0, .BoolTy⟩
  | .address => ⟨none, .Array, 20, .AddressTy⟩
  | .string => ⟨none, .String, 0, .StringTy⟩
  | .bytes size => if size = 0 then ⟨none, .Slice, 0, .BytesTy⟩ else ⟨none, .Array, size, .FixedBytesTy⟩
  | .function => ⟨none, .Array, 24, .FunctionTy⟩
  | .array elem size => ⟨some (newType elem), .Array, size, .ArrayTy⟩
  | .slice elem => ⟨some (newType elem), .Slice, 0, .SliceTy⟩

/-- A Go value as `reflect` sees it. -/
inductive GoValue where
  /-- a `uint8`, `uint16`, `uint32` or `uint64` -/
  | uint (kind : ReflectKind) (n : Nat)
  /-- an `int8`, `int16`, `int32` or `int64` -/
  | int (kind : ReflectKind) (n : Int)
  /-- a `*big.Int` -/
  | bigInt (n : Int)
  | bool (b : Bool)
  | string (s : List UInt8)
  /-- an array `[N]T`, with the kind of `T` -/
  | array (elem : ReflectKind) (vs : List GoValue)
  /-- a slice `[]T`, with the kind of `T` -/
  | slice (elem : ReflectKind) (vs : List GoValue)
deriving Repr

namespace GoValue

/-- `Kind()`. -/
def Kind : GoValue → ReflectKind
  | .uint kind _ | .int kind _ => kind
  | .bigInt _ => .Ptr
  | .bool _ => .Bool
  | .string _ => .String
  | .array _ _ => .Array
  | .slice _ _ => .Slice

/-- `Len()` of an array, a slice or a string. -/
def Len : GoValue → Nat
  | .array _ vs | .slice _ vs => vs.length
  | .string s => s.length
  | _ => 0

def elems : GoValue → List GoValue
  | .array _ vs | .slice _ vs => vs
  | _ => []

/-- The kind of the elements of an array or a slice, `val.Type().Elem().Kind()`. -/
def elemKind : GoValue → Option ReflectKind
  | .array elem _ | .slice elem _ => some elem
  | _ => none

/-- `Bytes()` of a byte slice, or of a byte array copied into one (`mustArrayToByteSlice`);
`none` is the panic on any other value. -/
def bytes : GoValue → Option (List UInt8)
  | .array .Uint8 vs | .slice .Uint8 vs =>
    vs.mapM fun
      | .uint .Uint8 n => some (UInt8.ofNat n)
      | _ => none
  | _ => none

def byteArray (b : List UInt8) : GoValue := .array .Uint8 (b.map fun x => .uint .Uint8 x.toNat)

def byteSlice (b : List UInt8) : GoValue := .slice .Uint8 (b.map fun x => .uint .Uint8 x.toNat)

end GoValue

/-- `Argument`: the name of an input or output and its type. `Indexed` only concerns events. -/
structure Argument where
  Name : String
  type : AbiType

/-- `Method`; `Const` does not change how a method packs or unpacks and is left out. -/
structure Method where
  Name : String
  Inputs : List Argument
  Outputs : List Argument

/-- The errors of packing and unpacking, with the data their messages format. -/
inductive AbiError where
  /-- `argument count mismatch: %d for %d` -/
  | argumentCountMismatch (got want : Nat)
  /-- ``%s` %v`: an error packing an argument of the named method -/
  | inMethod (name : String) (err : AbiError)
  /-- `abi: cannot use %v as type %v as argument` -/
  | typeErr
  /-- `abi: cannot marshal in to go array: offset %d would go over slice boundary (len=%d)` -/
  | goArrayOverBoundary (len need : Int)
  /-- `abi: invalid type in array/slice unpacking stage` -/
  | invalidSliceStage
  /-- `abi: cannot marshal in to go type: length insufficient %d require %d` -/
  | lengthInsufficient (len need : Int)
  /-- `abi: cannot marshal in to go slice: offset %d would go over slice boundary (len=%d)` -/
  | goSliceOverBoundary (len need : Int)
  /-- `abi: improperly encoded boolean value` -/
  | errBadBool
  /-- `abi: invalid type in call to make function type byte array.` -/
  | invalidFunctionType
  /-- `abi: got improperly encoded function type, got %v` -/
  | improperFunctionType (word : List UInt8)
  /-- `abi: invalid type in call to make fixed byte array.` -/
  | invalidFixedBytes
  /-- `abi: unknown type %v` -/
  | unknownType (T : Ty)
  /-- `abi: unmarshalling empty output` -/
  | emptyOutput
  /-- `abi: improperly formatted output` -/
  | improperOutput
deriving DecidableEq, Repr

end Zerium.Abi
