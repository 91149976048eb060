import Mathlib

/-! # Arithmetic, comparison and bitwise instructions

`instructions.go`, `opAdd` to `opMulmod`, with the helpers of `common/math/big.go` they call.
A stack item is a `*big.Int`; the interpreter keeps every item it pushes between `0` and
`2^256`, so the stack is a list of natural numbers here, its top first, and the integers the
instructions compute on the way are `Int`s. `big.Int` arithmetic is exact; its `Div` and `Mod`
are Euclidean, which Lean's `Int` division and remainder are too.

An instruction pops its operands and pushes its result; it returns `none` when the stack is too
short, which the interpreter's `validateStack` rules out before the instruction runs. The
`intPool` the instructions return their spent operands to holds no value that is read again,
and is left out. `big.Int.Bits` is taken on a platform of 64-bit words.
-/

namespace Zerium.Vm

set_option autoImplicit false

def tt255 : Int := 2 ^ 255

def tt256 : Int := 2 ^ 256

def tt256m1 : Int := 2 ^ 256 - 1

/-- `math.U256`: `x.And(x, tt256m1)`, which is never negative. -/
def U256 (x : Int) : Nat := (Int.land x tt256m1).toNat

/-- `math.S256`: `x` read as a two's complement number. -/
def S256 (x : Int) : Int := if x < tt255 then x else x - tt256

def wordBits : Nat := 64

def wordBytes : Nat := wordBits / 8

/-- `big.Int.Bits`: the words of a natural number, least significant first, with no zero word at
the top. -/
def bigBits (x : Nat) : List Nat := Nat.digits (2 ^ wordBits) x

/-- The inner loop of `Exp` over one word of the exponent: the bits left to read, the word
shifted so far, and the result and base. -/
def expWord : Nat → Nat → Nat → Nat → Nat × Nat
  | 0, _, result, base => (result, base)
  | count + 1, word, result, base =>
    let result := if word &&& 1 = 1 then U256 (result * base) else result
    expWord count (word >>> 1) result (U256 (base * base))

/-- `math.Exp`: exponentiation by squaring, over every bit of every word of the exponent. -/
def Exp (base exponent : Nat) : Nat :=
  ((bigBits exponent).foldl (fun acc word => expWord wordBits word acc.1 acc.2) (1, base)).1

/-- `bigEndianByteAt`: the byte at `n` of `bigint`, `n = 0` being the least significant. -/
def bigEndianByteAt (bigint n : Nat) : Nat :=
  match (bigBits bigint)[n / wordBytes]? with
  | none => 0
  | some word => (word >>> (8 * (n % wordBytes))) % 256

/-- `math.Byte`: the byte at `n` of `bigint` padded to `padlength` bytes, `n = 0` being the most
significant. -/
def Byte (bigint padlength n : Nat) : Nat :=
  if n ≥ padlength then 0 else bigEndianByteAt bigint (padlength - 1 - n)

def unaryOp (f : Nat → Nat) : List Nat → Option (List Nat)
  | x :: rest => some (f x :: rest)
  | [] => none

def binaryOp (f : Nat → Nat → Nat) : List Nat → Option (List Nat)
  | x :: y :: rest => some (f x y :: rest)
  | _ => none

def ternaryOp (f : Nat → Nat → Nat → Nat) : List Nat → Option (List Nat)
  | x :: y :: z :: rest => some (f x y z :: rest)
  | _ => none

/-- `opAdd`. -/
def opAdd : List Nat → Option (List Nat) := binaryOp fun x y => U256 (x + y)

/-- `opSub`. -/
def opSub : List Nat → Option (List Nat) := binaryOp fun x y => U256 (x - y)

/-- `opMul`. -/
def opMul : List Nat → Option (List Nat) := binaryOp fun x y => U256 (x * y)

/-- `opDiv`. -/
def opDiv : List Nat → Option (List Nat) :=
  binaryOp fun x y => if y ≠ 0 then U256 (x / y) else 0

/-- `opSdiv`: the quotient of the absolute values, with the sign of `x * y`. -/
def opSdiv : List Nat → Option (List Nat) :=
  binaryOp fun x y =>
    let x := S256 x
    let y := S256 y
    if y = 0 then 0
    else
      let n : Int := if x * y < 0 then -1 else 1
      U256 ((x.natAbs / y.natAbs : Nat) * n)

/-- `opMod`. -/
def opMod : List Nat → Option (List Nat) :=
  binaryOp fun x y => if y = 0 then 0 else U256 (x % y)

/-- `opSmod`: the remainder of the absolute values, with the sign of `x`. -/
def opSmod : List Nat → Option (List Nat) :=
  binaryOp fun x y =>
    let x := S256 x
    let y := S256 y
    if y = 0 then 0
    else
      let n : Int := if x < 0 then -1 else 1
      U256 ((x.natAbs % y.natAbs : Nat) * n)

/-- `opExp`. -/
def opExp : List Nat → Option (List Nat) := binaryOp fun base exponent => Exp base exponent

/-- `opSignExtend`: below 31 it pops the number too and extends its bit `back * 8 + 7`; from 31 on
the number is left as it is. -/
def opSignExtend : List Nat → Option (List Nat)
  | back :: rest =>
    if back < 31 then
      match rest with
      | num :: rest =>
        let bit := back * 8 + 7
        let mask : Int := 2 ^ bit - 1
        let num : Int :=
          if num.testBit bit then Int.lor num (Int.lnot mask) else Int.land num mask
        some (U256 num :: rest)
      | [] => none
    else some rest
  | [] => none

/-- `opNot`: `x.Not(x)`, which is `-x - 1`. -/
def opNot : List Nat → Option (List Nat) := unaryOp fun x => U256 (Int.lnot x)

/-- `opLt`. -/
def opLt : List Nat → Option (List Nat) := binaryOp fun x y => if x < y then 1 else 0

/-- `opGt`. -/
def opGt : List Nat → Option (List Nat) := binaryOp fun x y => if x > y then 1 else 0

/-- `opSlt`: `y` is read with `S256` a second time before the comparison. -/
def opSlt : List Nat → Option (List Nat) :=
  binaryOp fun x y =>
    let x := S256 x
    let y := S256 y
    if x < S256 y then 1 else 0

/-- `opSgt`. -/
def opSgt : List Nat → Option (List Nat) :=
  binaryOp fun x y => if S256 x > S256 y then 1 else 0

/-- `opEq`. -/
def opEq : List Nat → Option (List Nat) := binaryOp fun x y => if x = y then 1 else 0

/-- `opIszero`. -/
def opIszero : List Nat → Option (List Nat) := unaryOp fun x => if x > 0 then 0 else 1

/-- `opAnd`. -/
def opAnd : List Nat → Option (List Nat) := binaryOp fun x y => x &&& y

/-- `opOr`. -/
def opOr : List Nat → Option (List Nat) := binaryOp fun x y => x ||| y

/-- `opXor`. -/
def opXor : List Nat → Option (List Nat) := binaryOp fun x y => x ^^^ y

/-- `opByte`: `th` is popped and the value under it replaced by its byte. -/
def opByte : List Nat → Option (List Nat) :=
  binaryOp fun th val => if th < 32 then Byte val 32 th else 0

/-- `opAddmod`. -/
def opAddmod : List Nat → Option (List Nat) :=
  ternaryOp fun x y z => if z > 0 then U256 ((x + y) % z) else 0

/-- `opMulmod`. -/
def opMulmod : List Nat → Option (List Nat) :=
  ternaryOp fun x y z => if z > 0 then U256 ((x * y) % z) else 0

end Zerium.Vm
