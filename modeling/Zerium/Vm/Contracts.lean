import Zerium.Abi.Pack
import Zerium.Vm.Gas

/-! # The MODEXP precompile

`contracts.go`, `bigModExp` and `RunPrecompiledContract`, with `getData` of `common.go`.
`RequiredGas` reads the three lengths of the input as 256-bit numbers and prices the
exponentiation as EIP-198 does; `Run` reads them again truncated to `uint64`s, and takes the
base, exponent and modulus from the data after them with `getData`, whose end `start + size` is a
`uint64` sum. The `big.Int`s are natural numbers, `SetBytes` is `BigEndian.toNat`, `Bytes()` is
`BigEndian.ofNat` and `BitLen` is `Nat.size`; `Exp` with a modulus that is not `0` is the power
modulo it. `int(x)` of a `uint64` is on a 64-bit platform.

`none` is a Go panic. Slicing `data[start:end]` panics when `end < start`, which `getData` lets
happen when `start + size` wraps around.
-/

namespace Zerium.Vm

set_option autoImplicit false

open BigEndian

def goInt (x : UInt64) : Int := if x.toNat < 2 ^ 63 then x.toNat else (x.toNat : Int) - 2 ^ 64

/-- `getData`: `size` bytes of `data` from `start`, padded with zeros. `start + size` is a `uint64`
sum; when it wraps around below `start`, the slice `data[start:end]` panics, which is `none`. -/
def getData (data : List UInt8) (start size : UInt64) : Option (List UInt8) :=
  let length := UInt64.ofNat data.length
  let start := if start > length then length else start
  let end_ := start + size
  let end_ := if end_ > length then length else end_
  if start ≤ end_ then
    some (Abi.rightPadBytes ((data.take end_.toNat).drop start.toNat) (goInt size).toNat)
  else none

/-- The errors of `RunPrecompiledContract`. -/
inductive PrecompileError where
  /-- `ErrOutOfGas` -/
  | errOutOfGas
deriving DecidableEq, Repr

/-- The two methods of a `PrecompiledContract`; `none` is a panic. -/
structure PrecompiledContract where
  requiredGas : List UInt8 → Option UInt64
  run : List UInt8 → Option (List UInt8)

/-- `RunPrecompiledContract`: the output and the gas the contract has left, or out of gas. -/
def RunPrecompiledContract (p : PrecompiledContract) (input : List UInt8) (gas : UInt64) :
    Option (Except PrecompileError (List UInt8 × UInt64)) := do
  let required ← p.requiredGas input
  match UseGas gas required with
  | some gas => (p.run input).map fun ret => .ok (ret, gas)
  | none => some (.error .errOutOfGas)

def ModExpQuadCoeffDiv : Nat := 20

/-- `bigModExp.RequiredGas`. The `big.Int`s are natural numbers; the two subtractions take a
smaller number from a larger one in their branches. -/
def bigModExpRequiredGas (input : List UInt8) : Option UInt64 := do
  let baseLen := BigEndian.toNat (← getData input 0 32)
  let expLen := BigEndian.toNat (← getData input 32 32)
  let modLen := BigEndian.toNat (← getData input 64 32)
  let input := if input.length > 96 then input.drop 96 else []
  -- the head 32 bytes of the exponent, for the adjusted exponent length
  let expHead ←
    if input.length ≤ baseLen then pure 0
    else if expLen > 32 then BigEndian.toNat <$> getData input (UInt64.ofNat baseLen) 32
    else BigEndian.toNat <$> getData input (UInt64.ofNat baseLen) (UInt64.ofNat expLen)
  let msb := if expHead.size > 0 then expHead.size - 1 else 0
  let adjExpLen := (if expLen > 32 then 8 * (expLen - 32) else 0) + msb
  let gas := max modLen baseLen
  let gas :=
    if gas ≤ 64 then gas * gas
    else if gas ≤ 1024 then gas * gas / 4 + (96 * gas - 3072)
    else gas * gas / 16 + (480 * gas - 199680)
  let gas := gas * max adjExpLen 1 / ModExpQuadCoeffDiv
  pure (if gas.size > 64 then MaxUint64 else UInt64.ofNat gas)

/-- `bigModExp.Run`: the lengths are truncated to `uint64`s, and the result is padded to
`int(modLen)` bytes. -/
def bigModExpRun (input : List UInt8) : Option (List UInt8) := do
  let baseLen := UInt64.ofNat (BigEndian.toNat (← getData input 0 32))
  let expLen := UInt64.ofNat (BigEndian.toNat (← getData input 32 32))
  let modLen := UInt64.ofNat (BigEndian.toNat (← getData input 64 32))
  let input := if input.length > 96 then input.drop 96 else []
  -- both the base and the modulus of length zero
  if baseLen = 0 ∧ modLen = 0 then pure []
  else
    let base := BigEndian.toNat (← getData input 0 baseLen)
    let exp := BigEndian.toNat (← getData input baseLen expLen)
    let mod := BigEndian.toNat (← getData input (baseLen + expLen) modLen)
    if mod.size = 0 then pure (Abi.leftPadBytes [] (goInt modLen).toNat)
    else pure (Abi.leftPadBytes (ofNat (base ^ exp % mod)) (goInt modLen).toNat)

def bigModExp : PrecompiledContract := ⟨bigModExpRequiredGas, bigModExpRun⟩

end Zerium.Vm
