import Mathlib

/-! # Whisper v6 messages (`whisper/whisperv6/message.go`)

The plaintext of a message is a flags byte, the padding, the payload and, when the message is
signed, a 65-byte signature over everything before it. The low two bits of the flags give the
width `sz` of a little-endian field at the start of the padding that holds the size of the whole
padding, field included; bit 2 says the message is signed. `NewSentMessage` writes the flags and
the padding (the given one, or random bytes up to a multiple of `padSizeLimit`) and the payload;
`sign` appends the signature. `Validate` takes a decrypted plaintext apart again.

The curve and the hash are abstract (`Crypto`). `crypto/rand` is the bytes it gives
(`rnd`). A slice past the end of `Raw` panics, and a panic is `none`: the plaintext comes out of
a decryption that allocates exactly its length, so there is no room past `len(Raw)`.
-/

namespace Zerium.Whisper

set_option autoImplicit false

def paddingMask : UInt8 := 3
def signatureFlag : UInt8 := 4
def signatureLength : Nat := 65
def padSizeLimit : Nat := 256

/-- `crypto.Keccak256`, `crypto.Sign`, `crypto.SigToPub` (a failure or a panic that the `recover`
of `SigToPubKey` catches is `none`), the public key of a private key, `ValidatePublicKey`, ECIES
under a public key and AES-GCM under a key and a nonce. -/
structure Crypto (Priv Pub : Type) where
  Keccak256 : List UInt8 → List UInt8
  Sign : List UInt8 → Priv → Except String (List UInt8)
  SigToPub : List UInt8 → List UInt8 → Option Pub
  publicKey : Priv → Pub
  ValidatePublicKey : Pub → Bool
  eciesEncrypt : Pub → List UInt8 → Except String (List UInt8)
  eciesDecrypt : Priv → List UInt8 → Except String (List UInt8)
  gcmSeal : List UInt8 → List UInt8 → List UInt8 → List UInt8
  gcmOpen : List UInt8 → List UInt8 → List UInt8 → Except String (List UInt8)

/-- What the proofs need of the primitives: a signature is 65 bytes and recovers its signer,
ECIES decryption with the private key inverts encryption to its public key, and AES-GCM opens
what it sealed under the same key and nonce. -/
structure Crypto.Lawful {Priv Pub : Type} (C : Crypto Priv Pub) : Prop where
  length_sign : ∀ h k s, C.Sign h k = .ok s → s.length = signatureLength
  sigToPub_sign : ∀ h k s, C.Sign h k = .ok s → C.SigToPub h s = some (C.publicKey k)
  eciesDecrypt_encrypt : ∀ k m c, C.eciesEncrypt (C.publicKey k) m = .ok c →
    C.eciesDecrypt k c = .ok m
  gcmOpen_seal : ∀ key nonce m, C.gcmOpen key nonce (C.gcmSeal key nonce m) = .ok m

variable {Priv Pub : Type}

def isMessageSigned (flags : UInt8) : Bool := flags &&& signatureFlag != 0

/-- The loop of `bytesToUintLittleEndian`, with `mul` the weight of the next byte. -/
def bytesToUintLittleEndianLoop : List UInt8 → UInt64 → UInt64 → UInt64
  | [], _, res => res
  | b :: bs, mul, res => bytesToUintLittleEndianLoop bs (mul * 256) (res + b.toUInt64 * mul)

def bytesToUintLittleEndian (b : List UInt8) : UInt64 := bytesToUintLittleEndianLoop b 1 0

/-- The fields of a `ReceivedMessage` that `Validate` and `Open` write; `PoW` and `EnvelopeHash`
(a float and the hash of the envelope's encoding) are left out. -/
structure ReceivedMessage (Pub : Type) where
  Raw : List UInt8
  Payload : List UInt8
  Padding : List UInt8
  Signature : List UInt8
  Sent : UInt32
  TTL : UInt32
  Src : Option Pub
  Dst : Option Pub
  Topic : List UInt8
  SymKeyHash : Option (List UInt8)
  EnvelopeVersion : UInt64

def ReceivedMessage.ofRaw (raw : List UInt8) : ReceivedMessage Pub :=
  ⟨raw, [], [], [], 0, 0, none, none, [], none, 0⟩

namespace ReceivedMessage

/-- `msg.hash()`: the hash of the flags, padding and payload. -/
def hash (C : Crypto Priv Pub) (msg : ReceivedMessage Pub) : List UInt8 :=
  if isMessageSigned (msg.Raw.headD 0) then C.Keccak256 (msg.Raw.take (msg.Raw.length - signatureLength))
  else C.Keccak256 msg.Raw

def SigToPubKey (C : Crypto Priv Pub) (msg : ReceivedMessage Pub) : Option Pub :=
  C.SigToPub (msg.hash C) msg.Signature

/-- `msg.extractPadding(end)`: the padding size and whether it fits before `end`. -/
def extractPadding (msg : ReceivedMessage Pub) (end_ : Nat) :
    Option ((Nat × Bool) × ReceivedMessage Pub) :=
  match msg.Raw with
  | [] => none
  | flags :: _ =>
    let sz := (flags &&& paddingMask).toNat
    if sz ≠ 0 then
      -- `msg.Raw[1 : 1+sz]`
      if msg.Raw.length < 1 + sz then none
      else
        let paddingSize := (bytesToUintLittleEndian ((msg.Raw.drop 1).take sz)).toNat
        if paddingSize < sz ∨ paddingSize + 1 > end_ then some ((0, false), msg)
        else some ((paddingSize, true),
          { msg with Padding := (msg.Raw.drop (1 + sz)).take (paddingSize - sz) })
    else some ((0, true), msg)

/-- The signed case of `Validate`: the signature is what follows `end`, and `Src` its signer. -/
def peelSignature (C : Crypto Priv Pub) (msg : ReceivedMessage Pub) (end_ : Nat) :
    ReceivedMessage Pub :=
  let msg := { msg with Signature := msg.Raw.drop end_ }
  { msg with Src := msg.SigToPubKey C }

/-- The rest of `Validate` once `end` is known: the padding, then the payload up to `end`. -/
def validateTail (msg : ReceivedMessage Pub) (end_ : Nat) : Option (Bool × ReceivedMessage Pub) :=
  match msg.extractPadding end_ with
  | none => none
  | some ((_, false), msg) => some (false, msg)
  | some ((padSize, true), msg) =>
    some (true, { msg with Payload := (msg.Raw.drop (1 + padSize)).take (end_ - (1 + padSize)) })

/-- `msg.Validate()`: the signature peeled off the end and its signer recovered, then the
padding, and the payload between them. `end -= signatureLength; if end <= 1` is a length of at
most `signatureLength + 1`. -/
def Validate (C : Crypto Priv Pub) (msg : ReceivedMessage Pub) :
    Option (Bool × ReceivedMessage Pub) :=
  match msg.Raw with
  | [] => some (false, msg)
  | flags :: _ =>
    if isMessageSigned flags then
      if msg.Raw.length ≤ signatureLength + 1 then some (false, msg)
      else
        let end_ := msg.Raw.length - signatureLength
        let msg := peelSignature C msg end_
        if msg.Src.isNone then some (false, msg) else validateTail msg end_
    else validateTail msg msg.Raw.length

@[simp] theorem peelSignature_Raw (C : Crypto Priv Pub) (msg : ReceivedMessage Pub) (end_ : Nat) :
    (peelSignature C msg end_).Raw = msg.Raw := rfl

theorem extractPadding_eq_none_iff (msg : ReceivedMessage Pub) (end_ : Nat) :
    msg.extractPadding end_ = none ↔
      msg.Raw = [] ∨ ∃ flags rest, msg.Raw = flags :: rest ∧
        (flags &&& paddingMask).toNat ≠ 0 ∧ msg.Raw.length < 1 + (flags &&& paddingMask).toNat := by
  unfold extractPadding
  split
  · rename_i h
    simp [h]
  · rename_i flags rest h
    simp only [h, reduceCtorEq, false_or, List.cons.injEq]
    split_ifs <;> simp_all

theorem extractPadding_eq_some {msg m : ReceivedMessage Pub} {end_ ps : Nat} {ok : Bool}
    (h : msg.extractPadding end_ = some ((ps, ok), m)) :
    ∃ flags rest, msg.Raw = flags :: rest ∧ m.Raw = msg.Raw ∧
      (ok = true → (flags &&& paddingMask).toNat ≤ ps ∧ (ps ≠ 0 → ps + 1 ≤ end_) ∧
        ((flags &&& paddingMask).toNat = 0 → ps = 0 ∧ m = msg) ∧
        ((flags &&& paddingMask).toNat ≠ 0 →
          m = { msg with Padding := ((msg.Raw.drop (1 + (flags &&& paddingMask).toNat)).take
            (ps - (flags &&& paddingMask).toNat)) })) := by
  unfold extractPadding at h
  split at h
  · cases h
  · rename_i flags rest hraw
    refine ⟨flags, rest, hraw, ?_⟩
    dsimp only at h
    split_ifs at h with hsz hlen hbad
    · -- the padding does not fit before `end`
      cases h
      exact ⟨rfl, fun hok => absurd hok Bool.false_ne_true⟩
    · cases h
      exact ⟨rfl, fun _ => ⟨by omega, fun _ => by omega, fun h0 => absurd h0 hsz, fun _ => rfl⟩⟩
    · -- no padding
      cases h
      exact ⟨rfl, fun _ => ⟨Nat.le_of_eq (by omega), fun h0 => absurd rfl h0, fun _ => ⟨rfl, rfl⟩,
        fun h0 => absurd (by omega) h0⟩⟩

theorem toNat_and_paddingMask_le (flags : UInt8) : (flags &&& paddingMask).toNat ≤ 3 := by
  rw [UInt8.toNat_and]
  exact Nat.and_le_right

theorem validateTail_eq_none_iff (msg : ReceivedMessage Pub) (end_ : Nat) :
    validateTail msg end_ = none ↔ msg.extractPadding end_ = none := by
  unfold validateTail
  split <;> simp_all

theorem Validate_eq_none_iff (C : Crypto Priv Pub) (msg : ReceivedMessage Pub) :
    msg.Validate C = none ↔ ∃ flags rest, msg.Raw = flags :: rest ∧ isMessageSigned flags = false ∧
      (flags &&& paddingMask).toNat ≠ 0 ∧ msg.Raw.length < 1 + (flags &&& paddingMask).toNat := by
  unfold Validate
  split
  · rename_i hraw
    simp [hraw]
  · rename_i flags rest hraw
    by_cases hs : isMessageSigned flags = true
    · -- a signed message is longer than any size field, and nothing panics
      rw [if_pos hs]
      refine iff_of_false ?_ ?_
      · dsimp only
        split_ifs with hshort hnone
        · simp
        · simp
        · rw [validateTail_eq_none_iff, extractPadding_eq_none_iff]
          rintro (hnil | ⟨flags', rest', hraw', -, hlen⟩)
          · simp [hraw] at hnil
          · have := toNat_and_paddingMask_le flags'
            rw [peelSignature_Raw] at hlen
            simp only [signatureLength, not_le] at hshort
            omega
      · rintro ⟨flags', rest', hraw', hs', -⟩
        rw [hraw] at hraw'
        obtain ⟨rfl, rfl⟩ := List.cons.inj hraw'
        rw [hs] at hs'
        exact Bool.true_eq_false.mp hs'
    · rw [if_neg hs, validateTail_eq_none_iff, extractPadding_eq_none_iff]
      constructor
      · rintro (hnil | ⟨flags', rest', hraw', hsz, hlen⟩)
        · simp [hraw] at hnil
        · rw [hraw] at hraw'
          obtain ⟨rfl, rfl⟩ := List.cons.inj hraw'
          exact ⟨flags, rest, hraw, by simpa using hs, hsz, hlen⟩
      · rintro ⟨flags', rest', hraw', -, hsz, hlen⟩
        exact .inr ⟨flags', rest', hraw', hsz, hlen⟩

theorem validateTail_eq_some_true {msg m : ReceivedMessage Pub} {end_ : Nat}
    (h : validateTail msg end_ = some (true, m)) (hend : end_ ≤ msg.Raw.length) (hend1 : 1 ≤ end_)
    (hpad : msg.Padding = []) :
    ∃ flags rest, msg.Raw = flags :: rest ∧ m.Raw = msg.Raw ∧ m.Signature = msg.Signature ∧
      m.Src = msg.Src ∧
      1 + m.Padding.length + (flags &&& paddingMask).toNat + m.Payload.length = end_ := by
  unfold validateTail at h
  split at h
  · cases h
  · cases h
  · rename_i ps m' hext
    cases h
    obtain ⟨flags, rest, hraw, hm'raw, hok⟩ := extractPadding_eq_some hext
    obtain ⟨hszle, hfits, hzero, hnonzero⟩ := hok rfl
    refine ⟨flags, rest, hraw, hm'raw, ?_⟩
    by_cases hsz : (flags &&& paddingMask).toNat = 0
    · obtain ⟨rfl, rfl⟩ := hzero hsz
      refine ⟨rfl, rfl, ?_⟩
      simp only [hpad, List.length_nil, hsz, List.length_take, List.length_drop]
      omega
    · have hm' := hnonzero hsz
      subst hm'
      have hps := hfits (by omega)
      refine ⟨rfl, rfl, ?_⟩
      simp only [List.length_take, List.length_drop]
      omega

/-- A one-byte plaintext whose flags ask for a one-byte size field: `extractPadding` slices
`Raw[1:2]` of a slice of length 1. -/
theorem Validate_panics_on_one_byte (C : Crypto Priv Pub) :
    (ofRaw [1] : ReceivedMessage Pub).Validate C = none :=
  (Validate_eq_none_iff C _).mpr ⟨1, [], rfl, by decide, by decide,
    (by decide : (1 : Nat) < 1 + ((1 : UInt8) &&& paddingMask).toNat)⟩

end ReceivedMessage

/-- `intSize(i)`: the bytes needed for `i`, at least one. -/
def intSize (i : Nat) : Nat := if i ≥ 256 then intSize (i / 256) + 1 else 1
termination_by i
decreasing_by omega

/-- `getSizeOfLength(b)`: the width of a size field that counts itself, and the error when it
is wider than three bytes. -/
def getSizeOfLength (b : List UInt8) : Nat × Option String :=
  let sz := intSize b.length
  let sz := intSize (b.length + sz)
  (sz, if sz > 3 then some "oversized padding parameter" else none)

/-- The fields of `MessageParams` that the message and the envelope read; `PoW`, a float, is what
it makes of it in `Seal` (`Envelope.Seal`). A `KeySym` of `nil` is `none`. -/
structure MessageParams (Priv Pub : Type) where
  TTL : UInt32
  Src : Option Priv
  Dst : Option Pub
  KeySym : Option (List UInt8)
  Topic : List UInt8
  WorkTime : UInt32
  Payload : List UInt8
  Padding : List UInt8

def putUint32LE (v : UInt32) : List UInt8 :=
  [v.toUInt8, (v >>> 8).toUInt8, (v >>> 16).toUInt8, (v >>> 24).toUInt8]

/-- `validateSymmetricKey`: not empty and not all zeros. -/
def validateSymmetricKey (k : List UInt8) : Bool := k.length > 0 && k.any (· != 0)

def orFlags (raw : List UInt8) (b : UInt8) : List UInt8 := raw.modifyHead (· ||| b)

/-- `msg.appendPadding(params)` on the message so far; `rnd` is what `crand.Read(buf[1:])`
gives. -/
def appendPadding (raw : List UInt8) (params : MessageParams Priv Pub)
    (rnd : Except String (List UInt8)) : Except String (List UInt8) :=
  let rawSize := params.Payload.length + 1 + if params.Src.isSome then signatureLength else 0
  let odd := rawSize % padSizeLimit
  if params.Padding.length ≠ 0 then
    let padSize := params.Padding.length
    match getSizeOfLength params.Padding with
    | (_, some err) => .error err
    | (padLengthSize, none) =>
      let totalPadSize := padSize + padLengthSize
      let buf := (putUint32LE (UInt32.ofNat totalPadSize) ++ [0, 0, 0, 0]).take padLengthSize
      .ok (orFlags (raw ++ buf ++ params.Padding) (UInt8.ofNat padLengthSize))
  else if odd ≠ 0 then
    let totalPadSize := padSizeLimit - odd
    -- the source panics here; `odd` is at least 1, so it never does
    if totalPadSize > 255 then .error "please fix the padding algorithm before releasing new version"
    else
      match rnd with
      | .error err => .error err
      | .ok r =>
        let r := (r ++ List.replicate (totalPadSize - 1) 0).take (totalPadSize - 1)
        if totalPadSize > 6 ∧ !validateSymmetricKey (0 :: r) then
          .error ("failed to generate random padding of size " ++ toString totalPadSize)
        else .ok (orFlags (raw ++ UInt8.ofNat totalPadSize :: r) 1)
  else .ok raw

/-- `NewSentMessage(params)`: the flags, the padding and the payload. -/
def NewSentMessage (params : MessageParams Priv Pub) (rnd : Except String (List UInt8)) :
    Except String (List UInt8) := do
  let raw ← appendPadding [0] params rnd
  return raw ++ params.Payload

/-- `msg.sign(key)`: set the flag, sign the hash of everything so far, append the signature. -/
def sign (C : Crypto Priv Pub) (raw : List UInt8) (key : Priv) : Except String (List UInt8) :=
  if isMessageSigned (raw.headD 0) then .ok raw
  else
    let raw := orFlags raw signatureFlag
    match C.Sign (C.Keccak256 raw) key with
    | .error err => .error err
    | .ok signature => .ok (raw ++ signature)

end Zerium.Whisper
