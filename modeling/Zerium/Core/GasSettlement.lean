import Zerium.Core.GasAccounting

/-! # What a successful transition pays for gas

On its way to a result `TransitionDb` buys the whole gas limit, `m.Gas * gasPrice` from the
sender and `m.Gas` from the pool, pays the intrinsic gas from it, gives the rest to the EVM,
and at the end pays back to the sender the gas the EVM left and the refund counter capped at
half the gas used, returns both to the pool, and pays the miner for the gas used.
`SettlesGas` states that settlement, and `TransitionDb_settlesGas` proves it of every
transition that succeeds, read off one equation per step of its success path.

The EVM is a parameter of the model; the settlement holds of every EVM that, as `Call` and
`Create` do, returns at most the gas it was given (`EVM.GasLeftBounded`). An EVM that returned
more would make the gas used negative.
-/

namespace Zerium.Core

set_option autoImplicit false

variable {σ α : Type}

/-- The state after `st.from()` on `s`: the account `a` created if it did not exist. -/
def StateDB.withAccount (db : StateDB σ α) (s : σ) (a : α) : σ :=
  if !db.exist s a then db.createAccount s a else s

/-- The EVM returns at most the gas it was given, as `Call` and `Create` do: the gas of a
contract only goes down, and a call gives back to its caller at most what it passed on. -/
def EVM.GasLeftBounded (evm : EVM σ α) : Prop :=
  (∀ s caller code gas value, (evm.create s caller code gas value).2.2.1 ≤ gas) ∧
    ∀ s caller addr input gas value, (evm.call s caller addr input gas value).2.2.1 ≤ gas

namespace StateTransition

variable (evm : EVM σ α)

@[simp] theorem withSender_initialGas (st : StateTransition σ α) :
    (withSender evm st).initialGas = st.initialGas := by
  unfold withSender
  split <;> rfl

@[simp] theorem withSender_value (st : StateTransition σ α) : (withSender evm st).value = st.value := by
  unfold withSender
  split <;> rfl

theorem withSender_state (st : StateTransition σ α) :
    (withSender evm st).state = evm.stateDB.withAccount st.state st.msg.sender := by
  unfold withSender StateDB.withAccount
  split <;> rfl

theorem buyGas_ok_eq {st st' : StateTransition σ α} {u : Unit} (h : buyGas evm st = .ok u st') :
    st.msg.gas < 2 ^ 64 ∧ st.msg.gas ≤ st.gp.gas ∧
      st' = { withSender evm st with
        gp := ⟨st.gp.gas - st.msg.gas⟩, gas := (withSender evm st).gas + UInt64.ofNat st.msg.gas,
        initialGas := st.msg.gas,
        state := evm.stateDB.subBalance (withSender evm st).state st.msg.sender
          (st.msg.gas * st.gasPrice) } := by
  rw [buyGas_apply] at h
  split at h
  · cases h
  · rename_i hbig
    split at h
    · cases h
    · split at h
      · cases h
      · rename_i hpool
        cases h
        exact ⟨by omega, by omega, rfl⟩

theorem preCheck_ok_buyGas {st st' : StateTransition σ α} {u : Unit} (h : preCheck evm st = .ok u st') :
    buyGas evm (withSender evm st) = .ok u st' := by
  rw [preCheck_apply] at h
  split at h
  · cases h
  · split at h
    · cases h
    · exact h

theorem payIntrinsicGas_ok_eq {st st' : StateTransition σ α} {u : Unit} (h : payIntrinsicGas evm st = .ok u st') :
    IntrinsicGas st.data st.msg.recipient.isNone evm.homestead < 2 ^ 64 ∧
      UInt64.ofNat (IntrinsicGas st.data st.msg.recipient.isNone evm.homestead) ≤ st.gas ∧
      st' = { st with gas := st.gas - UInt64.ofNat (IntrinsicGas st.data st.msg.recipient.isNone evm.homestead) } := by
  rw [payIntrinsicGas_apply, useGas_apply] at h
  split at h
  · cases h
  · rename_i hbig
    split at h
    · cases h
    · rename_i hgas
      cases h
      exact ⟨by omega, UInt64.not_lt.mp hgas, rfl⟩

theorem toAccount_eq (addr : α) (st : StateTransition σ α) :
    toAccount evm addr st = .ok addr { st with state := evm.stateDB.withAccount st.state addr } := by
  unfold toAccount StateDB.withAccount
  cases h : evm.stateDB.exist st.state addr <;> simp [h]

theorem execute_ok_eq (from_ : α) (st : StateTransition σ α) :
    ∃ sCall sEvm ret gasLeft vmerr,
      (evm.create sCall from_ st.data st.gas st.value = (sEvm, ret, gasLeft, vmerr) ∨
        ∃ addr, evm.call sCall from_ addr st.data st.gas st.value = (sEvm, ret, gasLeft, vmerr)) ∧
      execute evm from_ st = .ok (ret, vmerr) { st with state := sEvm, gas := gasLeft } := by
  unfold execute
  rw [EStateM.get_bind_apply]
  cases hto : st.msg.recipient with
  | none =>
    rcases hrun : evm.create st.state from_ st.data st.gas st.value with ⟨sEvm, ret, gasLeft, vmerr⟩
    exact ⟨st.state, sEvm, ret, gasLeft, vmerr, .inl hrun, rfl⟩
  | some addr =>
    let st₁ : StateTransition σ α :=
      { st with state := evm.stateDB.setNonce st.state from_ (evm.stateDB.getNonce st.state from_ + 1) }
    rcases hrun : evm.call (evm.stateDB.withAccount st₁.state addr) from_ addr st.data st.gas st.value with
      ⟨sEvm, ret, gasLeft, vmerr⟩
    refine ⟨evm.stateDB.withAccount st₁.state addr, sEvm, ret, gasLeft, vmerr, .inr ⟨addr, hrun⟩, ?_⟩
    simp only
    rw [EStateM.set_bind_apply, EStateM.bind_apply_ok (toAccount_eq evm addr st₁), EStateM.get_bind_apply]
    simp only [st₁, hrun]
    rfl

theorem refundGas_eq (st : StateTransition σ α) :
    refundGas evm st =
      let s₁ := evm.stateDB.addBalance (evm.stateDB.withAccount st.state st.msg.sender) st.msg.sender
        (st.gas.toNat * st.gasPrice)
      let refund := min (st.gasUsed / 2) (evm.stateDB.getRefund s₁ : Int)
      let gas := st.gas + UInt64.ofNat refund.toNat
      .ok ()
        { st with
          state := evm.stateDB.addBalance s₁ st.msg.sender (refund * st.gasPrice), gas := gas,
          gp := st.gp.AddGas gas.toNat } := by
  unfold refundGas
  rw [EStateM.bind_apply_ok (sender_apply evm st)]
  simp only [EStateM.get_bind_apply, EStateM.set_apply, gasUsed, withSender_gas, withSender_gasPrice,
    withSender_initialGas, withSender_gp, withSender_state, withSender_msg, withSender_value,
    withSender_data]

end StateTransition

/-- `refund := math.BigMin(uhalf, st.state.GetRefund())`: the refund counter, capped at half the
gas used. -/
def cappedRefund (gasUsed refundCounter : Nat) : Nat := min refundCounter (gasUsed / 2)

theorem refund_toNat {initialGas refundCounter : Nat} {gasLeft : UInt64} (hlt : initialGas < 2 ^ 64)
    (hle : gasLeft.toNat ≤ initialGas) :
    min (((initialGas : Int) - gasLeft.toNat) / 2) refundCounter =
        cappedRefund (initialGas - gasLeft.toNat) refundCounter ∧
      (gasLeft + UInt64.ofNat (cappedRefund (initialGas - gasLeft.toNat) refundCounter)).toNat =
        gasLeft.toNat + cappedRefund (initialGas - gasLeft.toNat) refundCounter ∧
      gasLeft.toNat + cappedRefund (initialGas - gasLeft.toNat) refundCounter ≤ initialGas := by
  have hrefund : min (((initialGas : Int) - gasLeft.toNat) / 2) refundCounter =
      cappedRefund (initialGas - gasLeft.toNat) refundCounter := by
    unfold cappedRefund
    omega
  have hcap : gasLeft.toNat + cappedRefund (initialGas - gasLeft.toNat) refundCounter ≤ initialGas := by
    unfold cappedRefund
    omega
  refine ⟨hrefund, ?_, hcap⟩
  rw [UInt64.toNat_add, UInt64.toNat_ofNat']
  omega

/-- What a transition of `msg` from `state` and the pool `gp` that succeeded, with the usage
`usedGas` and the transition `st'` after, paid for gas, the EVM having returned the state `sEvm`
and the gas `gasLeft`, and the refund counter read after the gas left was paid back being
`refundCounter`. -/
structure SettlesGas (evm : EVM σ α) (state : σ) (msg : Message α) (gp : GasPool) (sEvm : σ)
    (gasLeft : UInt64) (refundCounter : Nat) (usedGas : Int) (st' : StateTransition σ α) : Prop where
  -- the sender paid for the whole gas limit when the gas was bought
  bought : ∃ st₁ s, StateTransition.preCheck evm (NewStateTransition state msg gp) = .ok () st₁ ∧
    st₁.state = evm.stateDB.subBalance s msg.sender (msg.gas * msg.gasPrice)
  -- the EVM ran on the gas limit less the intrinsic gas
  ran : ∃ sCall ret vmerr,
    let gas := UInt64.ofNat msg.gas - UInt64.ofNat (IntrinsicGas msg.data msg.recipient.isNone evm.homestead)
    evm.create sCall msg.sender msg.data gas msg.value = (sEvm, ret, gasLeft, vmerr) ∨
      ∃ addr, evm.call sCall msg.sender addr msg.data gas msg.value = (sEvm, ret, gasLeft, vmerr)
  intrinsic_le : IntrinsicGas msg.data msg.recipient.isNone evm.homestead ≤ msg.gas - gasLeft.toNat
  gasLeft_le : gasLeft.toNat ≤ msg.gas
  refundCounter_eq : refundCounter = evm.stateDB.getRefund
    (evm.stateDB.addBalance (evm.stateDB.withAccount sEvm msg.sender) msg.sender (gasLeft.toNat * msg.gasPrice))
  usedGas_eq : usedGas = (msg.gas - gasLeft.toNat - cappedRefund (msg.gas - gasLeft.toNat) refundCounter : Nat)
  -- the gas left and the refund paid back to the sender, the gas used paid to the miner
  state_eq : st'.state = evm.stateDB.addBalance
    (evm.stateDB.addBalance
      (evm.stateDB.addBalance (evm.stateDB.withAccount sEvm msg.sender) msg.sender (gasLeft.toNat * msg.gasPrice))
      msg.sender (cappedRefund (msg.gas - gasLeft.toNat) refundCounter * msg.gasPrice))
    evm.coinbase (usedGas * msg.gasPrice)
  charge_eq : (msg.gas : Int) * msg.gasPrice -
      (gasLeft.toNat * msg.gasPrice + cappedRefund (msg.gas - gasLeft.toNat) refundCounter * msg.gasPrice) =
    usedGas * msg.gasPrice
  pool_eq : st'.gp.gas + usedGas = gp.gas

theorem EVM.GasLeftBounded.le {evm : EVM σ α} (hgas : evm.GasLeftBounded) {sCall sEvm : σ} {from_ : α}
    {data ret : List UInt8} {gas gasLeft : UInt64} {value : Nat} {vmerr : Option VmError}
    (hran : evm.create sCall from_ data gas value = (sEvm, ret, gasLeft, vmerr) ∨
      ∃ addr, evm.call sCall from_ addr data gas value = (sEvm, ret, gasLeft, vmerr)) :
    gasLeft ≤ gas := by
  rcases hran with hrun | ⟨addr, hrun⟩
  · have := hgas.1 sCall from_ data gas value
    rwa [hrun] at this
  · have := hgas.2 sCall from_ addr data gas value
    rwa [hrun] at this

theorem toNat_ofNat_sub_ofNat {m n : Nat} (hm : m < 2 ^ 64) (hn : n < 2 ^ 64)
    (hle : UInt64.ofNat n ≤ UInt64.ofNat m) : n ≤ m ∧ (UInt64.ofNat m - UInt64.ofNat n).toNat = m - n := by
  have hle' := UInt64.le_iff_toNat_le.mp hle
  rw [UInt64.toNat_ofNat', UInt64.toNat_ofNat', Nat.mod_eq_of_lt hn, Nat.mod_eq_of_lt hm] at hle'
  refine ⟨hle', ?_⟩
  rw [UInt64.toNat_sub_of_le _ _ hle, UInt64.toNat_ofNat', UInt64.toNat_ofNat', Nat.mod_eq_of_lt hn,
    Nat.mod_eq_of_lt hm]

namespace StateTransition

variable (evm : EVM σ α)

theorem preCheck_new_ok {state : σ} {msg : Message α} {gp : GasPool} {st₁ : StateTransition σ α} {u : Unit}
    (h : preCheck evm (NewStateTransition state msg gp) = .ok u st₁) :
    msg.gas < 2 ^ 64 ∧ msg.gas ≤ gp.gas ∧ st₁.msg = msg ∧ st₁.gas = UInt64.ofNat msg.gas ∧
      st₁.initialGas = msg.gas ∧ st₁.gasPrice = msg.gasPrice ∧ st₁.data = msg.data ∧
      st₁.value = msg.value ∧ st₁.gp.gas = gp.gas - msg.gas ∧
      st₁.state = evm.stateDB.subBalance (withSender evm (withSender evm (NewStateTransition state msg gp))).state
        msg.sender (msg.gas * msg.gasPrice) := by
  obtain ⟨hbig, hpool, hst₁⟩ := buyGas_ok_eq evm (preCheck_ok_buyGas evm h)
  simp only [withSender_msg, withSender_gp, NewStateTransition] at hbig hpool
  subst hst₁
  refine ⟨hbig, hpool, ?_⟩
  simp [NewStateTransition]

theorem payIntrinsicGas_ok_fields {st st₂ : StateTransition σ α} {u : Unit}
    (h : payIntrinsicGas evm (withSender evm st) = .ok u st₂) :
    IntrinsicGas st.data st.msg.recipient.isNone evm.homestead < 2 ^ 64 ∧
      UInt64.ofNat (IntrinsicGas st.data st.msg.recipient.isNone evm.homestead) ≤ st.gas ∧
      st₂.msg = st.msg ∧
      st₂.gas = st.gas - UInt64.ofNat (IntrinsicGas st.data st.msg.recipient.isNone evm.homestead) ∧
      st₂.initialGas = st.initialGas ∧ st₂.gasPrice = st.gasPrice ∧ st₂.data = st.data ∧
      st₂.value = st.value ∧ st₂.gp = st.gp := by
  obtain ⟨hig, hig_le, hst₂⟩ := payIntrinsicGas_ok_eq evm h
  simp only [withSender_data, withSender_msg, withSender_gas] at hig hig_le hst₂
  subst hst₂
  exact ⟨hig, hig_le, by simp⟩

theorem TransitionDb_settlesGas (hgas : evm.GasLeftBounded) (state : σ) (msg : Message α)
    (gp : GasPool) {r : List UInt8 × Int × Int × Bool} {st' : StateTransition σ α}
    (h : TransitionDb evm (NewStateTransition state msg gp) = .ok r st') :
    ∃ sEvm gasLeft refundCounter, SettlesGas evm state msg gp sEvm gasLeft refundCounter r.2.2.1 st' := by
  unfold TransitionDb at h
  -- the gas is bought, the intrinsic gas paid and the EVM run, each step by its lemma
  obtain ⟨_, st₁, hpre, h⟩ := EStateM.bind_apply_eq_ok h
  obtain ⟨hbig, hpool, hm₁, hg₁, hi₁, hp₁, hd₁, hv₁, hgp₁, hstate₁⟩ := preCheck_new_ok evm hpre
  rw [EStateM.bind_apply_ok (sender_apply evm st₁)] at h
  obtain ⟨_, st₂, hpay, h⟩ := EStateM.bind_apply_eq_ok h
  obtain ⟨hig, hig_le, hm₂, hg₂, hi₂, hp₂, hd₂, hv₂, hgp₂⟩ := payIntrinsicGas_ok_fields evm hpay
  simp only [hm₁, hd₁, hg₁] at hig hig_le
  obtain ⟨sCall, sEvm, ret, gasLeft, vmerr, hran, hexec⟩ := execute_ok_eq evm st₁.msg.sender st₂
  rw [EStateM.bind_apply_ok hexec] at h
  by_cases hv : vmerr = some .insufficientBalance
  · simp only [hv, if_true, EStateM.throw_bind_apply] at h
    cases h
  simp only [hv, if_false, EStateM.get_bind_apply] at h
  rw [EStateM.bind_apply_ok (refundGas_eq evm _)] at h
  simp only [EStateM.get_bind_apply, EStateM.set_bind_apply, EStateM.pure_apply] at h
  cases h
  simp only [gasUsed, hm₂, hm₁, hi₂, hi₁, hp₂, hp₁, GasPool.AddGas]
  -- the EVM gave back at most what it was given, the gas limit less the intrinsic gas
  obtain ⟨hig_msg, hgas₂⟩ := toNat_ofNat_sub_ofNat hbig hig hig_le
  have hleftN : gasLeft.toNat ≤ msg.gas - IntrinsicGas msg.data msg.recipient.isNone evm.homestead := by
    have := UInt64.le_iff_toNat_le.mp (hgas.le hran)
    rwa [hg₂, hg₁, hd₁, hm₁, hgas₂] at this
  obtain ⟨hr, hsum, hcap⟩ := @refund_toNat msg.gas
    (evm.stateDB.getRefund (evm.stateDB.addBalance (evm.stateDB.withAccount sEvm msg.sender) msg.sender
      (gasLeft.toNat * msg.gasPrice))) gasLeft hbig (by omega)
  rw [hr, Int.toNat_natCast, hsum]
  generalize hrc : evm.stateDB.getRefund (evm.stateDB.addBalance (evm.stateDB.withAccount sEvm msg.sender)
    msg.sender (gasLeft.toNat * msg.gasPrice)) = refundCounter at hcap ⊢
  refine ⟨sEvm, gasLeft, refundCounter, ⟨st₁, _, hpre, hstate₁⟩, ⟨sCall, ret, vmerr, ?_⟩, by omega,
    by omega, hrc.symm, by omega, rfl, ?_, ?_⟩
  · simpa only [hm₁, hd₂, hd₁, hg₂, hg₁, hv₂, hv₁] using hran
  · push_cast
    ring
  · simp only [hgp₂, hgp₁]
    omega

end StateTransition

/-- A call of 30000 gas at price 0 through the idle EVM, which gives back all it is given: the
21000 of intrinsic gas are used and 9000 return to the pool. -/
theorem TransitionDb_settlesGas_idle :
    idleEVM.GasLeftBounded ∧
      ∃ sEvm gasLeft refundCounter, SettlesGas idleEVM () ⟨1, some 2, 0, 30000, 0, 0, false, []⟩ ⟨100000⟩
        sEvm gasLeft refundCounter 21000 ⟨⟨79000⟩, ⟨1, some 2, 0, 30000, 0, 0, false, []⟩, 9000, 0, 30000, 0, [], ()⟩ :=
  have hbound : idleEVM.GasLeftBounded :=
    ⟨fun _ _ _ _ _ => UInt64.le_iff_toNat_le.mpr (Nat.le_refl _),
      fun _ _ _ _ _ _ => UInt64.le_iff_toNat_le.mpr (Nat.le_refl _)⟩
  ⟨hbound, @StateTransition.TransitionDb_settlesGas Unit Nat idleEVM hbound () ⟨1, some 2, 0, 30000, 0, 0, false, []⟩
    ⟨100000⟩ ([], 21000, 21000, false) _ rfl⟩

end Zerium.Core
