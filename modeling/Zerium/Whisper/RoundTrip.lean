import Zerium.Whisper.Envelope
import Zerium.Lib.Sim

/-! # The Whisper v6 round trip (`whisper/whisperv6/message.go`, `envelope.go`)

A message that `NewSentMessage` builds and `Wrap` signs, encrypts and seals opens, under the key
it was sent to, to a message that `Validate` accepts, with the sender's payload, padding and
signer. The layout lemmas say where each part of the plaintext lies: one flags byte, the padding
block (its size field first), the payload, and the signature when there is one.
-/

namespace Zerium.Whisper

set_option autoImplicit false

variable {Priv Pub : Type}

/-! ## The width of the size field -/

theorem intSize_of_lt {i : Nat} (h : i < 256) : intSize i = 1 := by
  rw [intSize, if_neg (by omega)]

theorem one_le_intSize (i : Nat) : 1 ≤ intSize i := by
  fun_induction intSize i with
  | case1 i hi ih => omega
  | case2 i hi => exact Nat.le_refl 1

theorem lt_pow_intSize (i : Nat) : i < 256 ^ intSize i := by
  fun_induction intSize i with
  | case1 i hi ih =>
    rw [Nat.pow_succ]
    omega
  | case2 i hi => simpa using hi

theorem pow_le_of_lt_intSize {i t : Nat} (ht : 1 ≤ t) (hlt : t < intSize i) : 256 ^ t ≤ i := by
  fun_induction intSize i generalizing t with
  | case1 i hi ih =>
    rcases Nat.lt_or_ge t 2 with h2 | h2
    · have : t = 1 := by omega
      subst this
      simpa using hi
    · have hrec := ih (t := t - 1) (by omega) (by omega)
      have hpow : 256 ^ t = 256 ^ (t - 1) * 256 := by
        rw [← Nat.pow_succ]
        congr 1
        omega
      omega
  | case2 i hi => omega

theorem intSize_le_of_lt_pow {i t : Nat} (ht : 1 ≤ t) (hi : i < 256 ^ t) : intSize i ≤ t := by
  apply Nat.le_of_not_lt
  intro hlt
  have := pow_le_of_lt_intSize ht hlt
  omega

theorem getSizeOfLength_least (b : List UInt8) :
    1 ≤ (getSizeOfLength b).1 ∧ b.length + (getSizeOfLength b).1 < 256 ^ (getSizeOfLength b).1 ∧
      ∀ t, 1 ≤ t → t < (getSizeOfLength b).1 → 256 ^ t ≤ b.length + t := by
  simp only [getSizeOfLength]
  have h1 := one_le_intSize b.length
  have h2 := one_le_intSize (b.length + intSize b.length)
  have hL := lt_pow_intSize b.length
  have hLs := lt_pow_intSize (b.length + intSize b.length)
  have hmin₁ : ∀ t, 1 ≤ t → t < intSize b.length → 256 ^ t ≤ b.length :=
    fun t ht hlt => pow_le_of_lt_intSize ht hlt
  have hmin₂ : ∀ t, 1 ≤ t → t < intSize (b.length + intSize b.length) →
      256 ^ t ≤ b.length + intSize b.length :=
    fun t ht hlt => pow_le_of_lt_intSize ht hlt
  have hself : intSize b.length < 256 ^ intSize b.length := Nat.lt_pow_self (by decide)
  have hstep : 256 ^ (intSize b.length + 1) = 256 ^ intSize b.length * 256 := pow_succ 256 _
  -- the second iteration adds at most one byte
  have hle : intSize (b.length + intSize b.length) ≤ intSize b.length + 1 :=
    intSize_le_of_lt_pow (by omega) (by omega)
  generalize intSize (b.length + intSize b.length) = s₂ at *
  generalize intSize b.length = s₁ at *
  generalize b.length = L at *
  have hge : s₁ ≤ s₂ := by
    apply Nat.le_of_not_lt
    intro hlt
    have := hmin₁ s₂ h2 hlt
    omega
  refine ⟨h2, ?_, ?_⟩
  · rcases Nat.eq_or_lt_of_le hge with heq | hlt
    · subst heq
      omega
    · have hs : s₂ = s₁ + 1 := by omega
      subst hs
      omega
  · intro t ht htlt
    rcases Nat.lt_or_ge t s₁ with hts | hts
    · have := hmin₁ t ht hts
      omega
    · have hteq : t = s₁ := by omega
      subst hteq
      exact hmin₂ t ht htlt

theorem bytesToUintLittleEndian_putUint32 {v sz : Nat} (hsz : sz ≤ 3) (hv : v < 256 ^ sz) :
    (bytesToUintLittleEndian ((putUint32LE (UInt32.ofNat v) ++ [0, 0, 0, 0]).take sz)).toNat = v := by
  interval_cases sz
  all_goals
    simp [putUint32LE, bytesToUintLittleEndian, bytesToUintLittleEndianLoop, UInt64.toNat_add,
      UInt64.toNat_mul]
  all_goals omega

/-! ## Validating a plaintext of known layout -/

def PaddingBlock (sz : Nat) (block : List UInt8) : Prop :=
  sz = 0 ∧ block = [] ∨
    sz ≠ 0 ∧ sz ≤ block.length ∧ (bytesToUintLittleEndian (block.take sz)).toNat = block.length

namespace ReceivedMessage

theorem validateTail_layout (msg : ReceivedMessage Pub) {flags : UInt8}
    {block payload tail : List UInt8} (hraw : msg.Raw = flags :: (block ++ payload ++ tail))
    (hblock : PaddingBlock (flags &&& paddingMask).toNat block) (hpad : msg.Padding = []) :
    msg.validateTail (1 + block.length + payload.length) =
      some (true, { msg with Padding := block.drop (flags &&& paddingMask).toNat, Payload := payload }) := by
  obtain ⟨raw, payload₀, padding, signature, sent, ttl, src, dst, topic, symKeyHash, ver⟩ := msg
  dsimp only at hraw hpad
  subst hraw hpad
  unfold validateTail extractPadding
  dsimp only
  rcases hblock with ⟨hsz, rfl⟩ | ⟨hsz, hle, hval⟩
  · simp [hsz]
  · have htake : ((block ++ payload ++ tail).take (flags &&& paddingMask).toNat) =
        block.take (flags &&& paddingMask).toNat := by
      rw [List.append_assoc, List.take_append_of_le_length hle]
    have hpadding : ((flags :: (block ++ payload ++ tail)).drop (1 + (flags &&& paddingMask).toNat)).take
        (block.length - (flags &&& paddingMask).toNat) = block.drop (flags &&& paddingMask).toNat := by
      rw [Nat.add_comm, List.drop_succ_cons, List.append_assoc, List.drop_append_of_le_length hle,
        List.take_left' (by simp)]
    have hpayload : ((flags :: (block ++ payload ++ tail)).drop (1 + block.length)).take
        (1 + block.length + payload.length - (1 + block.length)) = payload := by
      rw [Nat.add_comm 1, List.drop_succ_cons, List.append_assoc, List.drop_left,
        List.take_left' (by omega)]
    simp only [hsz, ne_eq, not_false_eq_true, if_true, List.length_cons, List.length_append,
      List.drop_succ_cons, List.drop_zero, htake, hval]
    rw [if_neg (by omega), if_neg (by omega), hpadding]
    simp only [hpayload]

end ReceivedMessage

/-! ## The plaintext `NewSentMessage` builds -/

theorem flags_of_le_three {flags : UInt8} (hf : flags ≤ 3) :
    isMessageSigned flags = false ∧ isMessageSigned (flags ||| signatureFlag) = true ∧
      (flags ||| signatureFlag) &&& paddingMask = flags &&& paddingMask ∧
      flags &&& paddingMask = flags := by
  have key : ∀ x : Fin 4, isMessageSigned (UInt8.ofNat x.val) = false ∧
      isMessageSigned (UInt8.ofNat x.val ||| signatureFlag) = true ∧
      (UInt8.ofNat x.val ||| signatureFlag) &&& paddingMask = UInt8.ofNat x.val &&& paddingMask ∧
      UInt8.ofNat x.val &&& paddingMask = UInt8.ofNat x.val := by decide
  have hlt : flags.toNat < 4 := by
    have := UInt8.le_iff_toNat_le.mp hf
    simp at this
    omega
  simpa using key ⟨flags.toNat, hlt⟩

theorem bytesToUintLittleEndian_singleton (x : UInt8) :
    (bytesToUintLittleEndian [x]).toNat = x.toNat := by
  simp [bytesToUintLittleEndian, bytesToUintLittleEndianLoop]

theorem orFlags_cons (b x : UInt8) (rest : List UInt8) :
    orFlags (b :: rest) x = (b ||| x) :: rest := rfl

/-- What `appendPadding` writes after the zero flags byte: flags without the signature bit, and a
padding block of the width they give; the given padding after its size field, or else a block
that brings the plaintext to a multiple of `padSizeLimit`. -/
theorem appendPadding_layout {params : MessageParams Priv Pub} {rnd : Except String (List UInt8)}
    {r : List UInt8} (h : appendPadding [0] params rnd = .ok r) :
    ∃ flags block, r = flags :: block ∧ flags ≤ 3 ∧
      PaddingBlock (flags &&& paddingMask).toNat block ∧
      (params.Padding ≠ [] → block.drop (flags &&& paddingMask).toNat = params.Padding) ∧
      (params.Padding = [] → (flags &&& paddingMask).toNat ≤ 1 ∧
        (1 + block.length + params.Payload.length +
          (if params.Src.isSome then signatureLength else 0)) % padSizeLimit = 0) := by
  unfold appendPadding at h
  dsimp only at h
  generalize hsig : (if params.Src.isSome then signatureLength else 0) = sigLen at h ⊢
  split_ifs at h with hpad hodd hbig
  · -- the given padding, after a size field of the width `getSizeOfLength` picks
    obtain ⟨hsz1, hfit, -⟩ := getSizeOfLength_least params.Padding
    split at h
    · cases h
    · rename_i sz hsz
      cases h
      have hsz' : (getSizeOfLength params.Padding).1 = sz := by rw [hsz]
      have hsz3 : sz ≤ 3 := by
        have h2 := congrArg Prod.snd hsz
        simp only [getSizeOfLength] at h2 hsz'
        split_ifs at h2
        omega
      rw [hsz'] at hsz1 hfit
      have hflags : UInt8.ofNat sz ≤ 3 := UInt8.le_iff_toNat_le.mpr (by simp; omega)
      obtain ⟨-, -, -, hmask⟩ := flags_of_le_three hflags
      have hszNat : (UInt8.ofNat sz).toNat = sz := by simp; omega
      have hbuf : ((putUint32LE (UInt32.ofNat (params.Padding.length + sz)) ++ [0, 0, 0, 0]).take sz).length = sz := by
        simp [putUint32LE]
        omega
      refine ⟨UInt8.ofNat sz, (putUint32LE (UInt32.ofNat (params.Padding.length + sz)) ++ [0, 0, 0, 0]).take sz ++
        params.Padding, ?_, hflags, ?_, fun _ => ?_, fun hnil => absurd (List.length_eq_zero_iff.mpr hnil) hpad⟩
      · simp only [List.cons_append, List.nil_append, orFlags_cons, UInt8.zero_or]
      · rw [hmask, hszNat]
        refine .inr ⟨by omega, by rw [List.length_append, hbuf]; omega, ?_⟩
        rw [List.take_left' hbuf, bytesToUintLittleEndian_putUint32 hsz3 (by omega), List.length_append,
          hbuf, Nat.add_comm]
      · rw [hmask, hszNat, List.drop_left' hbuf]
  · -- random padding up to the next multiple of `padSizeLimit`, after a one-byte size field
    split at h
    · cases h
    · rename_i r₀
      split_ifs at h with hrand
      cases h
      -- `tps` is `totalPadSize`, `r` the random bytes after the size byte
      generalize htps : padSizeLimit - (params.Payload.length + 1 + sigLen) % padSizeLimit = tps at *
      have hlen : (List.take (tps - 1) (r₀ ++ List.replicate (tps - 1) 0)).length = tps - 1 := by simp
      generalize List.take (tps - 1) (r₀ ++ List.replicate (tps - 1) 0) = r at *
      have hnil : params.Padding = [] := List.length_eq_zero_iff.mp (by omega)
      simp only [padSizeLimit] at hbig hodd htps
      refine ⟨1, UInt8.ofNat tps :: r, by simp only [List.cons_append, List.nil_append, orFlags_cons,
        UInt8.zero_or], by decide, ?_, fun hne => absurd hnil hne, fun _ => ⟨by decide, ?_⟩⟩
      · rw [show ((1 : UInt8) &&& paddingMask).toNat = 1 by decide]
        refine .inr ⟨by decide, by simp, ?_⟩
        rw [List.take_succ_cons, List.take_zero, bytesToUintLittleEndian_singleton, List.length_cons,
          hlen, UInt8.toNat_ofNat_of_lt' (by have : UInt8.size = 256 := rfl; omega)]
        omega
      · rw [List.length_cons, hlen]
        simp only [padSizeLimit]
        omega
  · -- the plaintext is a multiple of `padSizeLimit` already: no padding
    cases h
    have hnil : params.Padding = [] := List.length_eq_zero_iff.mp (by omega)
    refine ⟨0, [], rfl, by decide, .inl ⟨by decide, rfl⟩, fun hne => absurd hnil hne,
      fun _ => ⟨by decide, ?_⟩⟩
    simp only [padSizeLimit] at hodd ⊢
    simp only [List.length_nil]
    omega

theorem NewSentMessage_layout {params : MessageParams Priv Pub} {rnd : Except String (List UInt8)}
    {raw : List UInt8} (h : NewSentMessage params rnd = .ok raw) :
    ∃ flags block, raw = flags :: (block ++ params.Payload) ∧ flags ≤ 3 ∧
      PaddingBlock (flags &&& paddingMask).toNat block ∧
      (params.Padding ≠ [] → block.drop (flags &&& paddingMask).toNat = params.Padding) ∧
      (params.Padding = [] → (flags &&& paddingMask).toNat ≤ 1 ∧
        (1 + block.length + params.Payload.length +
          (if params.Src.isSome then signatureLength else 0)) % padSizeLimit = 0) := by
  obtain ⟨r, hr, hraw⟩ := Sim.bind_eq_ok.mp h
  cases hraw
  obtain ⟨flags, block, rfl, hrest⟩ := appendPadding_layout hr
  exact ⟨flags, block, rfl, hrest⟩

theorem sign_layout {C : Crypto Priv Pub} (hC : C.Lawful) {flags : UInt8} {rest : List UInt8}
    (hf : flags ≤ 3) {key : Priv} {raw : List UInt8} (h : sign C (flags :: rest) key = .ok raw) :
    ∃ signature, raw = (flags ||| signatureFlag) :: (rest ++ signature) ∧
      signature.length = signatureLength ∧
      C.SigToPub (C.Keccak256 ((flags ||| signatureFlag) :: rest)) signature =
        some (C.publicKey key) := by
  obtain ⟨hunsigned, -, -, -⟩ := flags_of_le_three hf
  unfold sign at h
  rw [List.headD_cons, hunsigned, if_neg Bool.false_ne_true, orFlags_cons] at h
  dsimp only at h
  split at h
  · cases h
  · rename_i signature hsign
    cases h
    exact ⟨signature, rfl, hC.length_sign _ _ _ hsign, hC.sigToPub_sign _ _ _ hsign⟩

namespace ReceivedMessage

theorem Validate_unsigned_layout (C : Crypto Priv Pub) (msg : ReceivedMessage Pub) {flags : UInt8}
    {block payload : List UInt8} (hraw : msg.Raw = flags :: (block ++ payload))
    (hs : isMessageSigned flags = false) (hblock : PaddingBlock (flags &&& paddingMask).toNat block)
    (hpad : msg.Padding = []) :
    msg.Validate C =
      some (true, { msg with Padding := block.drop (flags &&& paddingMask).toNat, Payload := payload }) := by
  have hraw' : msg.Raw = flags :: (block ++ payload ++ []) := by rw [hraw, List.append_nil]
  have htail := validateTail_layout msg hraw' hblock hpad
  unfold Validate
  rw [hraw]
  simp only [hs, Bool.false_eq_true, if_false, List.length_cons, List.length_append]
  rw [← hraw, ← htail]
  congr 1
  omega

theorem Validate_signed_layout (C : Crypto Priv Pub) (msg : ReceivedMessage Pub) {flags : UInt8}
    {block payload signature : List UInt8} {pub : Pub}
    (hraw : msg.Raw = flags :: (block ++ payload ++ signature)) (hs : isMessageSigned flags = true)
    (hsig : signature.length = signatureLength) (hlong : 2 ≤ 1 + block.length + payload.length)
    (hsrc : C.SigToPub (C.Keccak256 (flags :: (block ++ payload))) signature = some pub)
    (hblock : PaddingBlock (flags &&& paddingMask).toNat block) (hpad : msg.Padding = []) :
    msg.Validate C = some (true, { msg with
      Signature := signature
      Src := some pub
      Padding := block.drop (flags &&& paddingMask).toNat
      Payload := payload }) := by
  have hlen : msg.Raw.length = 1 + block.length + payload.length + signatureLength := by
    rw [hraw]
    simp only [List.length_cons, List.length_append, hsig]
    omega
  have hend : msg.Raw.length - signatureLength = 1 + block.length + payload.length := by omega
  have hsplit : 1 + block.length + payload.length = (block ++ payload).length + 1 := by
    rw [List.length_append]
    omega
  have hdrop : msg.Raw.drop (1 + block.length + payload.length) = signature := by
    rw [hraw, hsplit, List.drop_succ_cons, List.drop_left]
  have htake : msg.Raw.take (1 + block.length + payload.length) = flags :: (block ++ payload) := by
    rw [hraw, hsplit, List.take_succ_cons, List.take_left]
  have hpeel : peelSignature C msg (msg.Raw.length - signatureLength) =
      { msg with Signature := signature, Src := some pub } := by
    rw [hend]
    simp only [peelSignature, SigToPubKey, hash, hraw, List.headD_cons, hs, if_true]
    rw [← hraw, hlen, Nat.add_sub_cancel, htake, hdrop, hsrc]
  have htail := validateTail_layout { msg with Signature := signature, Src := some pub }
    hraw hblock hpad
  unfold Validate
  rw [hraw]
  simp only [hs, if_true]
  rw [← hraw, if_neg (by simp only [signatureLength] at hlen; omega)]
  simp only [hpeel, Option.isNone_some, Bool.false_eq_true, if_false]
  rw [hend, htail]

end ReceivedMessage

/-! ## Wrapping and opening -/

namespace Envelope

theorem Seal_eq_ok {e e' : Envelope} {powToFirstBit : Option (Envelope → Int)} {WorkTime : UInt32}
    {firstBit : Envelope → UInt64 → Nat} {rounds : Nat}
    (h : e.Seal powToFirstBit WorkTime firstBit rounds = .ok e') :
    e'.TTL = e.TTL ∧ e'.Topic = e.Topic ∧ e'.AESNonce = e.AESNonce ∧ e'.Data = e.Data := by
  unfold Seal at h
  dsimp only at h
  generalize hE : (if powToFirstBit.isNone = true then { e with Expiry := e.Expiry + WorkTime } else e) = e₁ at h
  have hfields : e₁.TTL = e.TTL ∧ e₁.Topic = e.Topic ∧ e₁.AESNonce = e.AESNonce ∧ e₁.Data = e.Data := by
    rw [← hE]
    split_ifs <;> exact ⟨rfl, rfl, rfl, rfl⟩
  split at h
  · cases h
    exact hfields
  · split_ifs at h
    cases h
    exact hfields

end Envelope

theorem Wrap_eq_ok {C : Crypto Priv Pub} {raw : List UInt8} {options : MessageParams Priv Pub}
    {nonceRnd : Except String (List UInt8)} {now : Nat} {powToFirstBit : Option (Envelope → Int)}
    {firstBit : Envelope → UInt64 → Nat} {rounds : Nat} {e : Envelope}
    (h : Wrap C raw options nonceRnd now powToFirstBit firstBit rounds = .ok e) :
    ∃ raw₁, signWith C raw options.Src = .ok raw₁ ∧ e.Topic = options.Topic ∧
      ((∃ dst, options.Dst = some dst ∧ encryptAsymmetric C raw₁ dst = .ok e.Data ∧ e.AESNonce = []) ∨
        (options.Dst = none ∧ ∃ key, options.KeySym = some key ∧
          encryptSymmetric C raw₁ key nonceRnd = .ok (e.Data, e.AESNonce))) := by
  obtain ⟨raw₁, hsign, h⟩ := Sim.bind_eq_ok.mp h
  obtain ⟨⟨data, nonce⟩, henc, hseal⟩ := Sim.bind_eq_ok.mp h
  obtain ⟨-, htopic, hnonce, hdata⟩ := Envelope.Seal_eq_ok hseal
  simp only [NewEnvelope] at hnonce hdata htopic
  refine ⟨raw₁, hsign, htopic, ?_⟩
  rw [hnonce, hdata]
  unfold encryptWith at henc
  cases hdst : options.Dst with
  | some dst =>
    rw [hdst] at henc
    dsimp only at henc
    cases hasym : encryptAsymmetric C raw₁ dst with
    | error err => rw [hasym] at henc; cases henc
    | ok c =>
      rw [hasym] at henc
      cases henc
      exact .inl ⟨dst, rfl, hasym, rfl⟩
  | none =>
    rw [hdst] at henc
    cases hkey : options.KeySym with
    | some key =>
      rw [hkey] at henc
      dsimp only at henc
      exact .inr ⟨rfl, key, rfl, henc⟩
    | none =>
      rw [hkey] at henc
      dsimp only at henc
      cases henc

namespace Envelope

theorem decrypt_asymmetric {C : Crypto Priv Pub} (hC : C.Lawful) {e : Envelope} {k : Priv}
    {raw : List UInt8} (hnonce : e.AESNonce = [])
    (henc : encryptAsymmetric C raw (C.publicKey k) = .ok e.Data) {watcher : Filter Priv}
    (hkey : watcher.KeyAsym = some k) :
    e.decrypt C watcher = some (some { ReceivedMessage.ofRaw raw with Dst := some (C.publicKey k) }) := by
  have hecies : C.eciesEncrypt (C.publicKey k) raw = .ok e.Data := by
    unfold encryptAsymmetric at henc
    split_ifs at henc
    exact henc
  have hasym : e.isAsymmetric = true := by simp [isAsymmetric, IsSymmetric, hnonce]
  simp only [decrypt, hasym, if_true, hkey, hC.eciesDecrypt_encrypt _ _ _ hecies]

theorem decrypt_symmetric {C : Crypto Priv Pub} (hC : C.Lawful) {e : Envelope} {key raw : List UInt8}
    {nonceRnd : Except String (List UInt8)}
    (henc : encryptSymmetric C raw key nonceRnd = .ok (e.Data, e.AESNonce)) {watcher : Filter Priv}
    (hkey : watcher.KeySym = key) :
    e.decrypt C watcher =
      some (some { ReceivedMessage.ofRaw raw with SymKeyHash := some (C.Keccak256 key) }) := by
  unfold encryptSymmetric at henc
  split_ifs at henc
  split at henc
  · cases henc
  · rename_i hsize
    split at henc
    · cases henc
    · rename_i n
      dsimp only at henc
      split_ifs at henc with hvalid
      obtain ⟨hdata, hnonce⟩ := Prod.mk.inj (Except.ok.inj henc)
      have hlen : e.AESNonce.length = aesNonceLength := by
        rw [← hnonce]
        simp [aesNonceLength]
      have hsym : e.IsSymmetric = true := by simp [IsSymmetric, hlen, aesNonceLength]
      have hopen : decryptSymmetric C e.Data key e.AESNonce = .ok raw := by
        rw [decryptSymmetric, hsize, if_neg (by rw [hlen]; exact not_not.mpr rfl), ← hdata, ← hnonce,
          hC.gcmOpen_seal]
      simp only [decrypt, isAsymmetric, hsym, Bool.not_true, Bool.false_eq_true, if_false, if_true,
        hkey, hopen]

theorem Open_of_Validate {C : Crypto Priv Pub} {e : Envelope} {watcher : Filter Priv}
    {msg m : ReceivedMessage Pub} (hdec : e.decrypt C watcher = some (some msg))
    (hval : msg.Validate C = some (true, m)) :
    e.Open C watcher = some (some { m with
      Topic := e.Topic
      TTL := e.TTL
      Sent := e.Expiry - e.TTL
      EnvelopeVersion := e.Ver }) := by
  unfold Open
  rw [hdec]
  dsimp only
  rw [hval]

end Envelope

theorem PaddingBlock.le_length {sz : Nat} {block : List UInt8} (h : PaddingBlock sz block) :
    sz ≤ block.length := by
  rcases h with ⟨rfl, -⟩ | ⟨-, hle, -⟩
  · exact Nat.zero_le _
  · exact hle

theorem Validate_wrapped {C : Crypto Priv Pub} (hC : C.Lawful) {params : MessageParams Priv Pub}
    {padRnd : Except String (List UInt8)} {raw raw₁ : List UInt8}
    (hnew : NewSentMessage params padRnd = .ok raw) (hsign : signWith C raw params.Src = .ok raw₁)
    (msg : ReceivedMessage Pub) (hraw : msg.Raw = raw₁) (hpad : msg.Padding = []) :
    ∃ m, msg.Validate C = some (true, m) ∧ m.Raw = raw₁ ∧ m.Payload = params.Payload ∧
      (params.Padding ≠ [] → m.Padding = params.Padding) ∧
      (params.Padding = [] → (1 + (m.Raw.headD 0 &&& paddingMask).toNat + m.Padding.length +
        params.Payload.length + (if params.Src.isSome then signatureLength else 0)) % padSizeLimit = 0) ∧
      (∀ k, params.Src = some k → m.Src = some (C.publicKey k)) ∧
      (params.Src = none → m.Src = msg.Src) := by
  obtain ⟨flags, block, rfl, hf, hblock, hgiven, hnone⟩ := NewSentMessage_layout hnew
  obtain ⟨hunsigned, hsigned, hmask', -⟩ := flags_of_le_three hf
  have hle := hblock.le_length
  cases hsrc : params.Src with
  | none =>
    have hraw₁ : raw₁ = flags :: (block ++ params.Payload) := by
      rw [hsrc, signWith] at hsign
      exact (Except.ok.inj hsign).symm
    have hv := ReceivedMessage.Validate_unsigned_layout C msg (hraw.trans hraw₁) hunsigned hblock hpad
    refine ⟨_, hv, hraw, rfl, hgiven, fun hnil => ?_, fun k hk => absurd hk (by simp), fun _ => rfl⟩
    obtain ⟨-, hmod⟩ := hnone hnil
    simp only [hsrc, Option.isSome_none, Bool.false_eq_true, if_false, padSizeLimit] at hmod ⊢
    rw [hraw, hraw₁, List.headD_cons, List.length_drop]
    omega
  | some k =>
    rw [hsrc, signWith] at hsign
    obtain ⟨signature, hraw₁, hsiglen, hsrcsig⟩ := sign_layout hC hf hsign
    have hblock' : PaddingBlock ((flags ||| signatureFlag) &&& paddingMask).toNat block := by
      rw [hmask']
      exact hblock
    -- the signed part is longer than one byte: a given padding, or a multiple of 256 with the signature
    have hlong : 2 ≤ 1 + block.length + params.Payload.length := by
      by_cases hnil : params.Padding = []
      · obtain ⟨-, hmod⟩ := hnone hnil
        simp only [hsrc, Option.isSome_some, if_true, signatureLength, padSizeLimit] at hmod
        omega
      · have hne : block.drop (flags &&& paddingMask).toNat ≠ [] := by rw [hgiven hnil]; exact hnil
        have : (flags &&& paddingMask).toNat < block.length := by
          by_contra hge
          exact hne (List.drop_eq_nil_of_le (by omega))
        omega
    have hv := ReceivedMessage.Validate_signed_layout C msg (hraw.trans hraw₁) hsigned hsiglen hlong
      hsrcsig hblock' hpad
    refine ⟨_, hv, hraw, rfl, fun hne => by rw [hmask']; exact hgiven hne, fun hnil => ?_,
      fun k' hk => by cases hk; rfl, fun hk => absurd hk (by simp)⟩
    obtain ⟨-, hmod⟩ := hnone hnil
    simp only [hsrc, Option.isSome_some, if_true, padSizeLimit] at hmod ⊢
    rw [hraw, hraw₁, List.headD_cons, hmask', List.length_drop]
    omega

namespace Envelope

theorem decrypt_Wrap {C : Crypto Priv Pub} (hC : C.Lawful) {raw : List UInt8}
    {params : MessageParams Priv Pub} {nonceRnd : Except String (List UInt8)} {now : Nat}
    {powToFirstBit : Option (Envelope → Int)} {firstBit : Envelope → UInt64 → Nat} {rounds : Nat}
    {e : Envelope} (hwrap : Wrap C raw params nonceRnd now powToFirstBit firstBit rounds = .ok e)
    {watcher : Filter Priv}
    (hkey : (∃ k, params.Dst = some (C.publicKey k) ∧ watcher.KeyAsym = some k) ∨
      (params.Dst = none ∧ ∃ key, params.KeySym = some key ∧ watcher.KeySym = key)) :
    ∃ raw₁ msg, signWith C raw params.Src = .ok raw₁ ∧ e.Topic = params.Topic ∧
      e.decrypt C watcher = some (some msg) ∧ msg.Raw = raw₁ ∧ msg.Padding = [] ∧ msg.Src = none := by
  obtain ⟨raw₁, hsign, htopic, henc⟩ := Wrap_eq_ok hwrap
  rcases henc with ⟨dst, hdst, hencA, hnonce⟩ | ⟨hdst, key, hks, hencS⟩
  · rcases hkey with ⟨k, hdk, hwk⟩ | ⟨hdk, -⟩
    · rw [hdst] at hdk
      cases hdk
      exact ⟨raw₁, _, hsign, htopic, decrypt_asymmetric hC hnonce hencA hwk, rfl, rfl, rfl⟩
    · rw [hdst] at hdk
      cases hdk
  · rcases hkey with ⟨k, hdk, -⟩ | ⟨-, key', hks', hwk⟩
    · rw [hdst] at hdk
      cases hdk
    · rw [hks] at hks'
      cases hks'
      exact ⟨raw₁, _, hsign, htopic, decrypt_symmetric hC hencS hwk, rfl, rfl, rfl⟩

end Envelope

/-- The Whisper round trip: the size field of a given padding is the least width that holds the
padding and itself, and the envelope that `NewSentMessage` and `Wrap` make, opened with the
matching key, validates and gives back the payload, the padding (or padding up to a multiple of
`padSizeLimit`) and the signer. -/
theorem Open_Wrap_round_trip {C : Crypto Priv Pub} (hC : C.Lawful) :
    (∀ b : List UInt8, 1 ≤ (getSizeOfLength b).1 ∧
      b.length + (getSizeOfLength b).1 < 256 ^ (getSizeOfLength b).1 ∧
      ∀ t, 1 ≤ t → t < (getSizeOfLength b).1 → 256 ^ t ≤ b.length + t) ∧
    ∀ (params : MessageParams Priv Pub) (padRnd nonceRnd : Except String (List UInt8)) (now : Nat)
      (powToFirstBit : Option (Envelope → Int)) (firstBit : Envelope → UInt64 → Nat) (rounds : Nat)
      (raw : List UInt8) (e : Envelope) (watcher : Filter Priv),
      NewSentMessage params padRnd = .ok raw →
      Wrap C raw params nonceRnd now powToFirstBit firstBit rounds = .ok e →
      ((∃ k, params.Dst = some (C.publicKey k) ∧ watcher.KeyAsym = some k) ∨
        (params.Dst = none ∧ ∃ key, params.KeySym = some key ∧ watcher.KeySym = key)) →
      ∃ msg m, e.decrypt C watcher = some (some msg) ∧ (msg.Validate C).map Prod.fst = some true ∧
        e.Open C watcher = some (some m) ∧ m.Payload = params.Payload ∧
        (params.Padding ≠ [] → m.Padding = params.Padding) ∧
        (params.Padding = [] → (1 + (m.Raw.headD 0 &&& paddingMask).toNat + m.Padding.length +
          params.Payload.length + (if params.Src.isSome then signatureLength else 0)) %
            padSizeLimit = 0) ∧
        (∀ k, params.Src = some k → m.Src = some (C.publicKey k)) ∧
        (params.Src = none → m.Src = none) := by
  refine ⟨getSizeOfLength_least, ?_⟩
  intro params padRnd nonceRnd now powToFirstBit firstBit rounds raw e watcher hnew hwrap hkey
  obtain ⟨raw₁, msg, hsign, -, hdec, hraw, hpad, hsrc⟩ := Envelope.decrypt_Wrap hC hwrap hkey
  obtain ⟨m, hval, hmraw, hpayload, hgiven, hnone, hsigned, hunsigned⟩ :=
    Validate_wrapped hC hnew hsign msg hraw hpad
  refine ⟨msg, _, hdec, by rw [hval]; rfl, Envelope.Open_of_Validate hdec hval, hpayload, hgiven,
    hnone, hsigned, fun h => (hunsigned h).trans hsrc⟩

/-! ## A run -/

def identityCrypto : Crypto UInt8 UInt8 where
  Keccak256 := id
  Sign _ k := .ok (k :: List.replicate 64 0)
  SigToPub _ s := s.head?
  publicKey := id
  ValidatePublicKey _ := true
  eciesEncrypt _ m := .ok m
  eciesDecrypt _ c := .ok c
  gcmSeal _ _ m := m
  gcmOpen _ _ c := .ok c

theorem identityCrypto_lawful : identityCrypto.Lawful where
  length_sign _ _ s h := by cases h; rfl
  sigToPub_sign _ _ s h := by cases h; rfl
  eciesDecrypt_encrypt _ _ _ h := by cases h; rfl
  gcmOpen_seal _ _ _ := rfl

/-- With a padding of one byte given, the message is the flags, the padding's length byte, the
padding and the payload, whoever signs it. -/
theorem NewSentMessage_given_padding (params : MessageParams UInt8 UInt8) (pad byte : UInt8)
    (hpad : params.Padding = [pad]) (hpayload : params.Payload = [byte]) :
    NewSentMessage params (.ok []) = .ok [1, 2, pad, byte] := by
  simp [NewSentMessage, appendPadding, hpad, hpayload, getSizeOfLength, intSize_of_lt, putUint32LE,
    orFlags]

/-- A payload of one byte with a padding of one byte, unsigned to the public key `7`, and signed
by the key `3` under a symmetric key: each envelope opens to that payload, padding and signer. -/
theorem Open_Wrap_round_trip_asym_unsigned_sym_signed :
    identityCrypto.Lawful ∧
      (∃ m, Envelope.Open identityCrypto
        ⟨[0], 50, 50, [1, 2, 3, 4], [], [1, 2, 5, 42], 0⟩ ⟨some 7, []⟩ = some (some m) ∧
        m.Payload = [42] ∧ m.Padding = [5] ∧ m.Src = none) ∧
      (∃ m, Envelope.Open identityCrypto
        ⟨[0], 50, 50, [1, 2, 3, 4], 1 :: List.replicate 11 0, [5, 2, 5, 42, 3] ++ List.replicate 64 0, 0⟩
        ⟨none, List.replicate 16 9⟩ = some (some m) ∧
        m.Payload = [42] ∧ m.Padding = [5] ∧ m.Src = some 3) := by
  -- unsigned, to the public key `7`
  have hasym : ∃ m, Envelope.Open identityCrypto
      ⟨[0], 50, 50, [1, 2, 3, 4], [], [1, 2, 5, 42], 0⟩ ⟨some 7, []⟩ = some (some m) ∧
      m.Payload = [42] ∧ m.Padding = [5] ∧ m.Src = none := by
    let params : MessageParams UInt8 UInt8 := ⟨0, none, some 7, none, [1, 2, 3, 4], 0, [42], [5]⟩
    have hnew := NewSentMessage_given_padding params 5 42 rfl rfl
    have hwrap : Wrap identityCrypto [1, 2, 5, 42] params (.ok []) 0 none (fun _ _ => 0) 0 =
        .ok ⟨[0], 50, 50, [1, 2, 3, 4], [], [1, 2, 5, 42], 0⟩ := rfl
    obtain ⟨msg, m, -, -, hopen, hpayload, hgiven, -, -, hunsigned⟩ :=
      (Open_Wrap_round_trip identityCrypto_lawful).2 params (.ok []) (.ok []) 0 none (fun _ _ => 0) 0
        _ _ ⟨some 7, []⟩ hnew hwrap (.inl ⟨7, rfl, rfl⟩)
    exact ⟨m, hopen, hpayload, hgiven (by simp [params]), hunsigned rfl⟩
  -- signed by the key `3`, under a symmetric key of 16 bytes
  have hsym : ∃ m, Envelope.Open identityCrypto
      ⟨[0], 50, 50, [1, 2, 3, 4], 1 :: List.replicate 11 0, [5, 2, 5, 42, 3] ++ List.replicate 64 0, 0⟩
      ⟨none, List.replicate 16 9⟩ = some (some m) ∧
      m.Payload = [42] ∧ m.Padding = [5] ∧ m.Src = some 3 := by
    let params : MessageParams UInt8 UInt8 :=
      ⟨0, some 3, none, some (List.replicate 16 9), [1, 2, 3, 4], 0, [42], [5]⟩
    have hnew := NewSentMessage_given_padding params 5 42 rfl rfl
    have hwrap : Wrap identityCrypto [1, 2, 5, 42] params (.ok [1]) 0 none (fun _ _ => 0) 0 =
        .ok ⟨[0], 50, 50, [1, 2, 3, 4], 1 :: List.replicate 11 0,
          [5, 2, 5, 42, 3] ++ List.replicate 64 0, 0⟩ := rfl
    obtain ⟨msg, m, -, -, hopen, hpayload, hgiven, -, hsigned, -⟩ :=
      (Open_Wrap_round_trip identityCrypto_lawful).2 params (.ok []) (.ok [1]) 0 none (fun _ _ => 0) 0
        _ _ ⟨none, List.replicate 16 9⟩ hnew hwrap (.inr ⟨rfl, _, rfl, rfl⟩)
    exact ⟨m, hopen, hpayload, hgiven (by simp [params]), hsigned 3 rfl⟩
  exact ⟨identityCrypto_lawful, hasym, hsym⟩

end Zerium.Whisper
