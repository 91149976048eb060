import Zerium.Core.StateTransition

/-! # The gas pool through a state transition

`buyGas` takes the message's gas limit from the pool as soon as the sender can pay for it,
and `refundGas` gives back what is left at the end. Between the two, paying the intrinsic gas
and a failed value transfer in the EVM can still end the transition with an error, and the
error paths return nothing to the pool.

Each step of `TransitionDb` has its lemma: what it computes (`_apply`), or what it keeps of
the transition. The pool after `ApplyMessage` is read off them.
-/

namespace Zerium.Core

set_option autoImplicit false

namespace StateTransition

variable {σ α : Type} (evm : EVM σ α)

/-- The transition after `st.from()`: the sender created if it did not exist. -/
def withSender (st : StateTransition σ α) : StateTransition σ α :=
  if !evm.stateDB.exist st.state st.msg.sender then
    { st with state := evm.stateDB.createAccount st.state st.msg.sender }
  else st

@[simp] theorem withSender_gp (st : StateTransition σ α) : (withSender evm st).gp = st.gp := by
  unfold withSender
  split <;> rfl

@[simp] theorem withSender_msg (st : StateTransition σ α) : (withSender evm st).msg = st.msg := by
  unfold withSender
  split <;> rfl

@[simp] theorem withSender_gasPrice (st : StateTransition σ α) :
    (withSender evm st).gasPrice = st.gasPrice := by
  unfold withSender
  split <;> rfl

@[simp] theorem withSender_gas (st : StateTransition σ α) : (withSender evm st).gas = st.gas := by
  unfold withSender
  split <;> rfl

@[simp] theorem withSender_data (st : StateTransition σ α) : (withSender evm st).data = st.data := by
  unfold withSender
  split <;> rfl

theorem sender_apply (st : StateTransition σ α) : sender evm st = .ok st.msg.sender (withSender evm st) := by
  unfold sender withSender
  cases h : evm.stateDB.exist st.state st.msg.sender <;> simp [h]

theorem useGas_apply (amount : UInt64) (st : StateTransition σ α) :
    useGas amount st =
      if st.gas < amount then .error (.vm .outOfGas) st else .ok () { st with gas := st.gas - amount } := by
  unfold useGas
  by_cases h : st.gas < amount <;> simp [h]

theorem buyGas_apply (st : StateTransition σ α) :
    buyGas evm st =
      if st.msg.gas ≥ 2 ^ 64 then .error (.vm .outOfGas) st
      else if evm.stateDB.getBalance (withSender evm st).state st.msg.sender < st.msg.gas * st.gasPrice then
        .error .insufficientBalanceForGas (withSender evm st)
      else if st.gp.gas < st.msg.gas then .error .gasLimitReached (withSender evm st)
      else .ok ()
        { (withSender evm st) with
          gp := ⟨st.gp.gas - st.msg.gas⟩, gas := (withSender evm st).gas + UInt64.ofNat st.msg.gas,
          initialGas := st.msg.gas,
          state := evm.stateDB.subBalance (withSender evm st).state st.msg.sender (st.msg.gas * st.gasPrice) } := by
  unfold buyGas
  simp only [EStateM.get_bind_apply]
  by_cases hbig : st.msg.gas ≥ 2 ^ 64
  · simp only [hbig, if_true, EStateM.throw_bind_apply]
  · simp only [hbig, if_false]
    rw [EStateM.bind_apply_ok (sender_apply evm st)]
    simp only [EStateM.get_bind_apply, withSender_msg, withSender_gasPrice]
    by_cases hbal : evm.stateDB.getBalance (withSender evm st).state st.msg.sender < st.msg.gas * st.gasPrice
    · simp only [hbal, if_true, EStateM.throw_bind_apply]
    · simp only [hbal, if_false, withSender_gp, GasPool.SubGas]
      by_cases hpool : st.gp.gas < st.msg.gas
      · simp only [hpool, if_true, EStateM.throw_apply]
      · simp only [hpool, if_false, EStateM.set_apply]

theorem buyGas_error_gp {st st' : StateTransition σ α} {e : TransitionError}
    (h : buyGas evm st = .error e st') : st'.gp = st.gp := by
  rw [buyGas_apply] at h
  split at h
  · cases h
    rfl
  · split at h
    · cases h
      exact withSender_gp evm st
    · split at h
      · cases h
        exact withSender_gp evm st
      · cases h

theorem buyGas_ok {st st' : StateTransition σ α} {u : Unit} (h : buyGas evm st = .ok u st') :
    st'.gp.gas + st.msg.gas = st.gp.gas ∧ st'.msg = st.msg := by
  rw [buyGas_apply] at h
  split at h
  · cases h
  · split at h
    · cases h
    · split at h
      · cases h
      · rename_i hpool
        cases h
        refine ⟨?_, withSender_msg evm st⟩
        show st.gp.gas - st.msg.gas + st.msg.gas = st.gp.gas
        omega

theorem preCheck_apply (st : StateTransition σ α) :
    preCheck evm st =
      if st.msg.checkNonce ∧ evm.stateDB.getNonce (withSender evm st).state st.msg.sender < st.msg.nonce then
        .error .nonceTooHigh (withSender evm st)
      else if st.msg.checkNonce ∧ evm.stateDB.getNonce (withSender evm st).state st.msg.sender > st.msg.nonce then
        .error .nonceTooLow (withSender evm st)
      else buyGas evm (withSender evm st) := by
  unfold preCheck
  rw [EStateM.bind_apply_ok (sender_apply evm st)]
  cases hc : st.msg.checkNonce
  · simp [hc]
  · by_cases hhigh : evm.stateDB.getNonce (withSender evm st).state st.msg.sender < st.msg.nonce
    · simp [hc, hhigh]
    · by_cases hlow : evm.stateDB.getNonce (withSender evm st).state st.msg.sender > st.msg.nonce
      · simp [hc, hhigh, hlow]
      · simp [hc, hhigh, hlow]

theorem preCheck_error_gp {st st' : StateTransition σ α} {e : TransitionError}
    (h : preCheck evm st = .error e st') : st'.gp = st.gp := by
  rw [preCheck_apply] at h
  split at h
  · cases h
    exact withSender_gp evm st
  · split at h
    · cases h
      exact withSender_gp evm st
    · exact (buyGas_error_gp evm h).trans (withSender_gp evm st)

theorem preCheck_ok {st st' : StateTransition σ α} {u : Unit} (h : preCheck evm st = .ok u st') :
    st'.gp.gas + st.msg.gas = st.gp.gas ∧ st'.msg = st.msg := by
  rw [preCheck_apply] at h
  split at h
  · cases h
  · split at h
    · cases h
    · have := buyGas_ok evm h
      simpa using this

theorem payIntrinsicGas_apply (st : StateTransition σ α) :
    payIntrinsicGas evm st =
      if IntrinsicGas st.data st.msg.recipient.isNone evm.homestead ≥ 2 ^ 64 then .error (.vm .outOfGas) st
      else useGas (UInt64.ofNat (IntrinsicGas st.data st.msg.recipient.isNone evm.homestead)) st := by
  unfold payIntrinsicGas
  simp only [EStateM.get_bind_apply]
  by_cases h : IntrinsicGas st.data st.msg.recipient.isNone evm.homestead ≥ 2 ^ 64
  · simp only [h, if_true, EStateM.throw_bind_apply]
  · simp only [h, if_false]

theorem payIntrinsicGas_result (st : StateTransition σ α) :
    payIntrinsicGas evm st = .error (.vm .outOfGas) st ∨ ∃ st', payIntrinsicGas evm st = .ok () st' ∧ st'.gp = st.gp := by
  rw [payIntrinsicGas_apply, useGas_apply]
  split
  · exact .inl rfl
  · split
    · exact .inl rfl
    · exact .inr ⟨_, rfl, rfl⟩

theorem toAccount_gp (addr : α) (st : StateTransition σ α) :
    ∃ st', toAccount evm addr st = .ok addr st' ∧ st'.gp = st.gp := by
  unfold toAccount
  cases h : evm.stateDB.exist st.state addr <;> simp [h]

theorem execute_gp (from_ : α) (st : StateTransition σ α) :
    ∃ r st', execute evm from_ st = .ok r st' ∧ st'.gp = st.gp := by
  unfold execute
  rw [EStateM.get_bind_apply]
  cases hto : st.msg.recipient with
  | none => exact ⟨_, _, rfl, rfl⟩
  | some addr =>
    obtain ⟨st₁, hrec, hgp⟩ := toAccount_gp evm addr
      { st with state := evm.stateDB.setNonce st.state from_ (evm.stateDB.getNonce st.state from_ + 1) }
    simp only
    rw [EStateM.set_bind_apply, EStateM.bind_apply_ok hrec]
    exact ⟨_, _, rfl, hgp⟩

theorem refundGas_ok (st : StateTransition σ α) : ∃ st', refundGas evm st = .ok () st' := by
  unfold refundGas
  rw [EStateM.bind_apply_ok (sender_apply evm st)]
  exact ⟨_, rfl⟩

theorem TransitionDb_error_gp {st st' : StateTransition σ α} {e : TransitionError}
    (h : TransitionDb evm st = .error e st') :
    st'.gp = st.gp ∨ (st'.gp.gas + st.msg.gas = st.gp.gas ∧ (e = .vm .outOfGas ∨ e = .vm .insufficientBalance)) := by
  unfold TransitionDb at h
  rcases EStateM.bind_apply_eq_error h with hpre | ⟨_, st₁, hpre, h⟩
  · exact .inl (preCheck_error_gp evm hpre)
  · -- the gas is bought: every later failure leaves the pool as `buyGas` did
    right
    obtain ⟨hgp₁, hmsg₁⟩ := preCheck_ok evm hpre
    rw [EStateM.bind_apply_ok (sender_apply evm st₁)] at h
    rcases payIntrinsicGas_result evm (withSender evm st₁) with hpay | ⟨st₂, hpay, hgp₂⟩
    · rw [EStateM.bind_apply_error hpay] at h
      cases h
      exact ⟨by simpa using hgp₁, .inl rfl⟩
    · rw [EStateM.bind_apply_ok hpay] at h
      obtain ⟨⟨ret, vmerr⟩, st₃, hexec, hgp₃⟩ := execute_gp evm st₁.msg.sender st₂
      rw [EStateM.bind_apply_ok hexec] at h
      by_cases hv : vmerr = some .insufficientBalance
      · simp only [hv, if_true, EStateM.throw_bind_apply] at h
        cases h
        exact ⟨by rw [hgp₃, hgp₂, withSender_gp]; exact hgp₁, .inr rfl⟩
      · -- past the value transfer nothing fails
        simp only [hv, if_false, EStateM.get_bind_apply] at h
        obtain ⟨st₄, hrefund⟩ := refundGas_ok evm st₃
        rw [EStateM.bind_apply_ok hrefund] at h
        cases h

end StateTransition

/-- A call whose gas limit does not cover the intrinsic gas of a transaction: the pool gives
the gas limit to `buyGas`, the intrinsic gas cannot be paid, and `ApplyMessage` returns out of
gas with the pool still short of the gas limit, whatever the `StateDB` and the EVM. -/
theorem ApplyMessage_intrinsic_outOfGas {σ α : Type} (evm : EVM σ α) (state : σ) (a b : α)
    (hexist : evm.stateDB.exist state a = true) (hbal : 0 ≤ evm.stateDB.getBalance state a) :
    (ApplyMessage evm state ⟨a, some b, 0, 1000, 0, 0, false, []⟩ ⟨10000⟩).1 = .error (.vm .outOfGas) ∧
      (ApplyMessage evm state ⟨a, some b, 0, 1000, 0, 0, false, []⟩ ⟨10000⟩).2.2 = ⟨9000⟩ := by
  let st₀ := NewStateTransition state (⟨a, some b, 0, 1000, 0, 0, false, []⟩ : Message α) ⟨10000⟩
  have hsender₀ : StateTransition.withSender evm st₀ = st₀ := by
    simp [StateTransition.withSender, st₀, NewStateTransition, hexist]
  -- `buyGas` takes the whole gas limit from the pool
  let st₁ : StateTransition σ α :=
    { st₀ with gp := ⟨9000⟩, gas := 1000, initialGas := 1000, state := evm.stateDB.subBalance state a 0 }
  have hpre : StateTransition.preCheck evm st₀ = .ok () st₁ := by
    rw [StateTransition.preCheck_apply, hsender₀, StateTransition.buyGas_apply, hsender₀]
    simp [st₀, st₁, NewStateTransition, hbal]
  -- the 21000 of intrinsic gas is more than the 1000 bought
  have hpay : StateTransition.payIntrinsicGas evm (StateTransition.withSender evm st₁) =
      .error (.vm .outOfGas) (StateTransition.withSender evm st₁) := by
    rw [StateTransition.payIntrinsicGas_apply, StateTransition.useGas_apply]
    simp [st₁, st₀, NewStateTransition, IntrinsicGas, TxGas]
  have hdb : StateTransition.TransitionDb evm st₀ = .error (.vm .outOfGas) (StateTransition.withSender evm st₁) := by
    unfold StateTransition.TransitionDb
    rw [EStateM.bind_apply_ok hpre, EStateM.bind_apply_ok (StateTransition.sender_apply evm st₁),
      EStateM.bind_apply_error hpay]
  have happly : ApplyMessage evm state ⟨a, some b, 0, 1000, 0, 0, false, []⟩ ⟨10000⟩ =
      (.error (.vm .outOfGas), (StateTransition.withSender evm st₁).state, (StateTransition.withSender evm st₁).gp) := by
    unfold ApplyMessage
    rw [show NewStateTransition state (⟨a, some b, 0, 1000, 0, 0, false, []⟩ : Message α) ⟨10000⟩ = st₀ from rfl, hdb]
  rw [happly, StateTransition.withSender_gp]
  exact ⟨rfl, rfl⟩

/-- A `StateDB` in which every account exists with no balance and nonce `0`, and an EVM whose
calls and creations return at once. -/
def idleEVM : EVM Unit Nat where
  stateDB := ⟨fun _ _ => true, fun s _ => s, fun _ _ => 0, fun s _ _ => s, fun s _ _ => s, fun _ _ => 0,
    fun s _ _ => s, fun _ => 0⟩
  homestead := true
  coinbase := 0
  create := fun s _ _ gas _ => (s, [], gas, none)
  call := fun s _ _ _ gas _ => (s, [], gas, none)

theorem ApplyMessage_intrinsic_outOfGas_idle :
    (ApplyMessage idleEVM () ⟨1, some 2, 0, 1000, 0, 0, false, []⟩ ⟨10000⟩).1 = .error (.vm .outOfGas) ∧
      (ApplyMessage idleEVM () ⟨1, some 2, 0, 1000, 0, 0, false, []⟩ ⟨10000⟩).2.2 = ⟨9000⟩ :=
  ApplyMessage_intrinsic_outOfGas idleEVM () 1 2 rfl (Int.le_refl 0)

end Zerium.Core
