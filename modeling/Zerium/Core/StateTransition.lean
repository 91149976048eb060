import Zerium.Lib.EState

/-! # Applying a message to the state

`state_transition.go`: `ApplyMessage` buys the message's gas from the block's gas pool, pays
the intrinsic gas, runs the call or the creation in the EVM, refunds what is left and pays the
miner. The state transition reaches the state through the `vm.StateDB` interface and the EVM
through `Call` and `Create`; the model takes both as parameters (`StateDB`, `EVM`), so what is
proved of it holds for every implementation of the interface and every behaviour of the EVM.

The methods of `StateTransition` write to their receiver and to the state as they go, and an
error returns with those writes in place; the model runs them in `EStateM`, whose errors keep
the state. Values and prices are `big.Int`s read from a transaction, so natural numbers;
balances are `big.Int`s, and the gas counter of the transition is a `uint64`.
-/

namespace Zerium.Core

set_option autoImplicit false

/-- The errors of `core/vm/errors.go` and of the interpreter. -/
inductive VmError where
  | outOfGas
  | codeStoreOutOfGas
  | depth
  | traceLimitReached
  | insufficientBalance
  | contractAddressCollision
  | writeProtection
  | returnDataOutOfBounds
  | executionReverted
  | invalidOpcode
  | stackUnderflow
  | stackLimitReached
  | invalidJump
deriving DecidableEq, Repr

/-- The errors `TransitionDb` returns: they make a transaction invalid. -/
inductive TransitionError where
  | nonceTooHigh
  | nonceTooLow
  | insufficientBalanceForGas
  | gasLimitReached
  | vm (e : VmError)
deriving DecidableEq, Repr

/-- `GasPool`: the gas still available to the transactions of a block. -/
structure GasPool where
  gas : Nat
deriving DecidableEq, Repr

namespace GasPool

def AddGas (gp : GasPool) (amount : Nat) : GasPool := ⟨gp.gas + amount⟩

def SubGas (gp : GasPool) (amount : Nat) : Except TransitionError GasPool :=
  if gp.gas < amount then .error .gasLimitReached else .ok ⟨gp.gas - amount⟩

end GasPool

def TxGas : Nat := 21000
def TxGasContractCreation : Nat := 53000
def TxDataZeroGas : Nat := 4
def TxDataNonZeroGas : Nat := 68

def IntrinsicGas (data : List UInt8) (contractCreation homestead : Bool) : Nat :=
  let igas := if contractCreation && homestead then TxGasContractCreation else TxGas
  if data.length > 0 then
    let nz := data.countP (· ≠ 0)
    igas + nz * TxDataNonZeroGas + (data.length - nz) * TxDataZeroGas
  else igas

/-- The methods of `Message`; `sender` is `From()` and `recipient` is `To()`. -/
structure Message (α : Type) where
  sender : α
  recipient : Option α
  gasPrice : Nat
  gas : Nat
  value : Nat
  nonce : UInt64
  checkNonce : Bool
  data : List UInt8
deriving DecidableEq, Repr

/-- The methods of `vm.StateDB` that a state transition calls, over states `σ`. -/
structure StateDB (σ α : Type) where
  exist : σ → α → Bool
  createAccount : σ → α → σ
  getBalance : σ → α → Int
  subBalance : σ → α → Int → σ
  addBalance : σ → α → Int → σ
  getNonce : σ → α → UInt64
  setNonce : σ → α → UInt64 → σ
  getRefund : σ → Nat

/-- The EVM as the state transition sees it: its `StateDB`, whether the block is in
Homestead, the miner, and `Create(caller, code, gas, value)` and `Call(caller, addr, input,
gas, value)`, which return the state after, the return data, the gas left and the error. The
address `Create` returns is not read. -/
structure EVM (σ α : Type) where
  stateDB : StateDB σ α
  homestead : Bool
  coinbase : α
  create : σ → α → List UInt8 → UInt64 → Nat → σ × List UInt8 × UInt64 × Option VmError
  call : σ → α → α → List UInt8 → UInt64 → Nat → σ × List UInt8 × UInt64 × Option VmError

structure StateTransition (σ α : Type) where
  gp : GasPool
  msg : Message α
  gas : UInt64
  gasPrice : Nat
  initialGas : Nat
  value : Nat
  data : List UInt8
  state : σ

def NewStateTransition {σ α : Type} (state : σ) (msg : Message α) (gp : GasPool) : StateTransition σ α :=
  { gp, msg, gas := 0, gasPrice := msg.gasPrice, initialGas := 0, value := msg.value, data := msg.data, state }

abbrev TransitionM (σ α : Type) := EStateM TransitionError (StateTransition σ α)

namespace StateTransition

variable {σ α : Type} (evm : EVM σ α)

/-- `st.from()`: the sender, created in the state if it does not exist. -/
def sender : TransitionM σ α α := do
  let st ← get
  let f := st.msg.sender
  if !evm.stateDB.exist st.state f then set { st with state := evm.stateDB.createAccount st.state f }
  return f

/-- `st.to()` of a call to `addr`: the recipient, created in the state if it does not exist. -/
def toAccount (addr : α) : TransitionM σ α α := do
  let st ← get
  if !evm.stateDB.exist st.state addr then set { st with state := evm.stateDB.createAccount st.state addr }
  return addr

def useGas (amount : UInt64) : TransitionM σ α Unit := do
  let st ← get
  if st.gas < amount then throw (.vm .outOfGas)
  set { st with gas := st.gas - amount }

/-- `buyGas` takes the gas limit of the message from the pool and its price from the sender. -/
def buyGas : TransitionM σ α Unit := do
  let st ← get
  let mgas := st.msg.gas
  if mgas ≥ 2 ^ 64 then throw (.vm .outOfGas)
  let mgval : Int := mgas * st.gasPrice
  let from_ ← sender evm
  let st ← get
  if evm.stateDB.getBalance st.state from_ < mgval then throw .insufficientBalanceForGas
  match st.gp.SubGas mgas with
  | .error e => throw e
  | .ok gp =>
    set { st with gp, gas := st.gas + UInt64.ofNat mgas, initialGas := mgas,
                  state := evm.stateDB.subBalance st.state from_ mgval }

def preCheck : TransitionM σ α Unit := do
  let from_ ← sender evm
  let st ← get
  if st.msg.checkNonce then
    let nonce := evm.stateDB.getNonce st.state from_
    if nonce < st.msg.nonce then throw .nonceTooHigh
    else if nonce > st.msg.nonce then throw .nonceTooLow
  buyGas evm

def gasUsed (st : StateTransition σ α) : Int := st.initialGas - st.gas.toNat

/-- `refundGas` pays the sender for the gas left and the capped refund, and returns the gas
left to the pool. -/
def refundGas : TransitionM σ α Unit := do
  let from_ ← sender evm
  let st ← get
  let remaining : Int := st.gas.toNat * st.gasPrice
  let state := evm.stateDB.addBalance st.state from_ remaining
  let uhalf := st.gasUsed / 2
  let refund := min uhalf (evm.stateDB.getRefund state)
  let gas := st.gas + UInt64.ofNat refund.toNat
  let state := evm.stateDB.addBalance state from_ (refund * st.gasPrice)
  set { st with state, gas, gp := st.gp.AddGas gas.toNat }

def execute (from_ : α) : TransitionM σ α (List UInt8 × Option VmError) := do
  let st ← get
  match st.msg.recipient with
  | none =>
    let (state, ret, gas, vmerr) := evm.create st.state from_ st.data st.gas st.value
    set { st with state, gas }
    return (ret, vmerr)
  | some addr =>
    set { st with state := evm.stateDB.setNonce st.state from_ (evm.stateDB.getNonce st.state from_ + 1) }
    let toAddr ← toAccount evm addr
    let st ← get
    let (state, ret, gas, vmerr) := evm.call st.state from_ toAddr st.data st.gas st.value
    set { st with state, gas }
    return (ret, vmerr)

def payIntrinsicGas : TransitionM σ α Unit := do
  let st ← get
  let intrinsicGas := IntrinsicGas st.data st.msg.recipient.isNone evm.homestead
  if intrinsicGas ≥ 2 ^ 64 then throw (.vm .outOfGas)
  useGas (UInt64.ofNat intrinsicGas)

/-- `TransitionDb`: the return data, the required gas, the gas used and whether the EVM
failed; an error is a consensus error. -/
def TransitionDb : TransitionM σ α (List UInt8 × Int × Int × Bool) := do
  preCheck evm
  let from_ ← sender evm
  payIntrinsicGas evm
  let (ret, vmerr) ← execute evm from_
  -- only a failed value transfer is a consensus error among the errors of the EVM
  if vmerr = some .insufficientBalance then throw (.vm .insufficientBalance)
  let requiredGas := (← get).gasUsed
  refundGas evm
  let st ← get
  set { st with state := evm.stateDB.addBalance st.state evm.coinbase (st.gasUsed * st.gasPrice) }
  return (ret, requiredGas, st.gasUsed, vmerr.isSome)

end StateTransition

/-- `ApplyMessage`: the return data, the gas used and whether the EVM failed, or the error;
with the state and the gas pool after, which an error leaves as the transition left them. -/
def ApplyMessage {σ α : Type} (evm : EVM σ α) (state : σ) (msg : Message α) (gp : GasPool) :
    Except TransitionError (List UInt8 × Int × Bool) × σ × GasPool :=
  match StateTransition.TransitionDb evm (NewStateTransition state msg gp) with
  | .ok (ret, _, gasUsed, failed) st => (.ok (ret, gasUsed, failed), st.state, st.gp)
  | .error e st => (.error e, st.state, st.gp)

end Zerium.Core
