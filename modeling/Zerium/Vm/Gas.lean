import Mathlib

/-! # Gas of memory expansion and of calls

`gas_table.go`, `gas.go` and `common.go` of the EVM. `memoryGasCost` charges the fee of the new
number of words, `3 * w + floor(w * w / 512)` in `uint64`, less `lastGasCost`. The call gas
functions add a call's base cost to the gas `callGas` lets the callee have, and put that gas in
the stack slot of the requested gas. Stack words are natural numbers below `2^256`, `Memory` is
its length and `lastGasCost`, and every gas error is `ErrOutOfGas`. The memory fee wraps: `w * w`
passes `2^64` from `2^32` words on, below the size check's bound.
-/

namespace Zerium.Vm

set_option autoImplicit false

/-- The errors of the gas functions. -/
inductive GasError where
  /-- `errGasUintOverflow` -/
  | errGasUintOverflow
deriving DecidableEq, Repr

def MaxUint64 : UInt64 := 0xffffffffffffffff

/-- `math.SafeAdd`: the wrapped sum and whether it wrapped. -/
def SafeAdd (x y : UInt64) : UInt64 × Bool := (x + y, y > MaxUint64 - x)

/-- `math.SafeMul`: the wrapped product and whether it wrapped. -/
def SafeMul (x y : UInt64) : UInt64 × Bool :=
  if x = 0 ∨ y = 0 then (0, false) else (x * y, y > MaxUint64 / x)

def MemoryGas : UInt64 := 3

def QuadCoeffDiv : UInt64 := 512

def CallValueTransferGas : UInt64 := 9000

def CallNewAccountGas : UInt64 := 25000

/-- `params.GasTable`, with the two prices the call gas functions read. -/
structure GasTable where
  Calls : UInt64
  CreateBySuicide : UInt64
deriving DecidableEq, Repr

def GasTableHomestead : GasTable := ⟨40, 0⟩

def GasTableEIP150 : GasTable := ⟨700, 25000⟩

def GasTableEIP158 : GasTable := ⟨700, 25000⟩

/-- `Memory`: the length of its store and the fee paid for it. -/
structure Memory where
  len : Nat
  lastGasCost : UInt64
deriving DecidableEq, Repr

/-- `toWordSize`: the number of 32-byte words that `size` bytes take. -/
def toWordSize (size : UInt64) : UInt64 :=
  if size > MaxUint64 - 31 then MaxUint64 / 32 + 1 else (size + 31) / 32

/-- `Memory.Resize`: the store grows to `size` bytes. -/
def Memory.Resize (m : Memory) (size : UInt64) : Memory :=
  if UInt64.ofNat m.len < size then { m with len := size.toNat } else m

/-- `memoryGasCost`: the fee for growing the memory to `newMemSize` bytes, and the memory with
the new total fee. -/
def memoryGasCost (mem : Memory) (newMemSize : UInt64) : Except GasError (UInt64 × Memory) :=
  if newMemSize = 0 then .ok (0, mem)
  else if newMemSize > 0xffffffffe0 then .error .errGasUintOverflow
  else
    let newMemSizeWords := toWordSize newMemSize
    let newMemSize := newMemSizeWords * 32
    if newMemSize > UInt64.ofNat mem.len then
      let square := newMemSizeWords * newMemSizeWords
      let linCoef := newMemSizeWords * MemoryGas
      let quadCoef := square / QuadCoeffDiv
      let newTotalFee := linCoef + quadCoef
      let fee := newTotalFee - mem.lastGasCost
      .ok (fee, { mem with lastGasCost := newTotalFee })
    else .ok (0, mem)

/-- The memory size `Interpreter.Run` hands to the gas function of an operation that touches
`memSize` bytes: `bigUint64` of it, then `math.SafeMul(toWordSize(memSize), 32)`. -/
def runMemorySize (memSize : Nat) : Except GasError UInt64 :=
  if memSize ≥ 2 ^ 64 then .error .errGasUintOverflow
  else
    let size := SafeMul (toWordSize (UInt64.ofNat memSize)) 32
    if size.2 then .error .errGasUintOverflow else .ok size.1

/-- The memory part of one step of `Interpreter.Run` for an operation whose gas is its memory
gas, as `gasReturn` and `gasRevert` are: the size, the fee `memoryGasCost` charges, and the
memory after `mem.Resize`. Whether the contract can pay the fee does not change the memory: an
operation it cannot pay for ends the call. -/
def memoryStep (mem : Memory) (memSize : Nat) : Except GasError (UInt64 × Memory) :=
  match runMemorySize memSize with
  | .error err => .error err
  | .ok memorySize =>
    match memoryGasCost mem memorySize with
    | .error err => .error err
    | .ok (fee, mem) => .ok (fee, if memorySize > 0 then mem.Resize memorySize else mem)

def memoryRun (mem : Memory) : List Nat → Except GasError (List UInt64 × Memory)
  | [] => .ok ([], mem)
  | memSize :: sizes =>
    match memoryStep mem memSize with
    | .error err => .error err
    | .ok (fee, mem) =>
      match memoryRun mem sizes with
      | .error err => .error err
      | .ok (fees, mem) => .ok (fee :: fees, mem)

/-- `callGas`: the gas a call passes on, out of `availableGas` once `base` is paid, when
`callCost` is asked for. From EIP 150 on it is at most all but one 64th of what is left. -/
def callGas (gasTable : GasTable) (availableGas base : UInt64) (callCost : Nat) : Except GasError UInt64 :=
  let availableGas := availableGas - base
  let gas := availableGas - availableGas / 64
  if gasTable.CreateBySuicide > 0 ∧ (callCost ≥ 2 ^ 64 ∨ gas < UInt64.ofNat callCost) then .ok gas
  else if callCost ≥ 2 ^ 64 then .error .errGasUintOverflow
  else .ok (UInt64.ofNat callCost)

/-- The end the four call gas functions share once their base cost `gas` is known: `callGas`
on the gas the contract has, its result in the slot of the requested gas on top of the stack,
and the sum of the two. -/
def chargeCall (gt : GasTable) (contractGas gas : UInt64) (requested : Nat) (rest : List Nat) :
    Except GasError (UInt64 × List Nat) :=
  match callGas gt contractGas gas requested with
  | .error err => .error err
  | .ok cg =>
    -- `if gas, overflow = math.SafeAdd(gas, cg); overflow`
    let sum := SafeAdd gas cg
    if sum.2 then .error .errGasUintOverflow else .ok (sum.1, cg.toNat :: rest)

/-- The memory gas added to the fixed part of a base cost by `add`, which keeps the order of the
two in the source, then `chargeCall`: the total, the stack and the memory after. -/
def chargeWithMemory (gt : GasTable) (contractGas : UInt64) (requested : Nat) (rest : List Nat)
    (mem : Memory) (memorySize : UInt64) (add : UInt64 → UInt64 × Bool) :
    Except GasError (UInt64 × List Nat × Memory) :=
  match memoryGasCost mem memorySize with
  | .error err => .error err
  | .ok (memoryGas, mem) =>
    let sum := add memoryGas
    if sum.2 then .error .errGasUintOverflow
    else (chargeCall gt contractGas sum.1 requested rest).map fun (total, stack) => (total, stack, mem)

/-- The part of `gasCall`'s base cost that comes before the memory: the price of a call, and
the surcharges for a new account and for a value. The callee's address is the low 160 bits of
its word. -/
def callBaseGas (gt : GasTable) (eip158 : Bool) (empty exist : Nat → Bool) (addr value : Nat) : UInt64 :=
  let transfersValue := value ≠ 0
  let address := addr % 2 ^ 160
  let gas := gt.Calls
  let gas :=
    if eip158 then (if transfersValue ∧ empty address then gas + CallNewAccountGas else gas)
    else if !exist address then gas + CallNewAccountGas else gas
  if transfersValue then gas + CallValueTransferGas else gas

/-- `gasCall`: the stack holds the requested gas, the callee and the value on top. -/
def gasCall (gt : GasTable) (eip158 : Bool) (empty exist : Nat → Bool) (contractGas : UInt64)
    (stack : List Nat) (mem : Memory) (memorySize : UInt64) :
    Option (Except GasError (UInt64 × List Nat × Memory)) :=
  match stack with
  | requested :: addr :: value :: rest =>
    some (chargeWithMemory gt contractGas requested (addr :: value :: rest) mem memorySize
      (SafeAdd (callBaseGas gt eip158 empty exist addr value)))
  -- `stack.Back` past the bottom of the stack
  | _ => none

/-- `gasCallCode`: the requested gas, the callee and the value on top. -/
def gasCallCode (gt : GasTable) (contractGas : UInt64) (stack : List Nat) (mem : Memory) (memorySize : UInt64) :
    Option (Except GasError (UInt64 × List Nat × Memory)) :=
  match stack with
  | requested :: addr :: value :: rest =>
    let gas := if value ≠ 0 then gt.Calls + CallValueTransferGas else gt.Calls
    some (chargeWithMemory gt contractGas requested (addr :: value :: rest) mem memorySize (SafeAdd gas))
  | _ => none

/-- `gasDelegateCall`: the memory gas first, then the price of a call. -/
def gasDelegateCall (gt : GasTable) (contractGas : UInt64) (stack : List Nat) (mem : Memory) (memorySize : UInt64) :
    Option (Except GasError (UInt64 × List Nat × Memory)) :=
  match stack with
  | requested :: rest =>
    some (chargeWithMemory gt contractGas requested rest mem memorySize fun memoryGas => SafeAdd memoryGas gt.Calls)
  | [] => none

/-- `gasStaticCall`: as `gasDelegateCall`. -/
def gasStaticCall (gt : GasTable) (contractGas : UInt64) (stack : List Nat) (mem : Memory) (memorySize : UInt64) :
    Option (Except GasError (UInt64 × List Nat × Memory)) :=
  match stack with
  | requested :: rest =>
    some (chargeWithMemory gt contractGas requested rest mem memorySize fun memoryGas => SafeAdd memoryGas gt.Calls)
  | [] => none

/-- `Contract.UseGas`: the gas left, or `none` when there is not enough. -/
def UseGas (contractGas gas : UInt64) : Option UInt64 :=
  if contractGas < gas then none else some (contractGas - gas)

end Zerium.Vm
