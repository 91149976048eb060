import Zerium.Whisper.Message

/-! # Whisper v6 envelopes (`whisper/whisperv6/message.go`, `envelope.go`)

`Wrap` signs the plaintext when there is a sender key, encrypts it to `Dst` with ECIES or under
`KeySym` with AES-GCM and a random nonce, and seals it in an envelope whose proof of work `Seal`
searches for. `Open` decrypts with the key of the watcher (the nonce says which kind), and keeps
the message only when `Validate` accepts it.

`Seal` reads the clock and a float: `rounds` is how many batches of 1024 nonces it starts before
`WorkTime` runs out, `firstBit e n` is `math.FirstBitSet` of the Keccak-256 hash of the
envelope's encoding with nonce `n`, and `powToFirstBit` is `none` for a `PoW` of zero, else the
first-bit target `e.powToFirstBit(PoW)` computes in floats. `time.Now()` is `now`, in seconds.
-/

namespace Zerium.Whisper

set_option autoImplicit false

variable {Priv Pub : Type}

def EnvelopeVersion : Nat := 0
def DefaultTTL : UInt32 := 50
def aesNonceLength : Nat := 12

/-- The public fields of an `Envelope`; `pow` and `hash` are caches of what `PoW()` and `Hash()`
compute. -/
structure Envelope where
  Version : List UInt8
  Expiry : UInt32
  TTL : UInt32
  Topic : List UInt8
  AESNonce : List UInt8
  Data : List UInt8
  EnvNonce : UInt64

namespace Envelope

def size (e : Envelope) : Nat := 20 + e.Version.length + e.AESNonce.length + e.Data.length

def IsSymmetric (e : Envelope) : Bool := e.AESNonce.length > 0

def isAsymmetric (e : Envelope) : Bool := !e.IsSymmetric

def Ver (e : Envelope) : UInt64 := bytesToUintLittleEndian e.Version

/-- The loop of `Seal` over `count` nonces from `nonce` on: a nonce whose hash has more leading
zero bits than the best so far is kept, and the search ends at the first that reaches a
positive `target`. The result says whether it did, with the best bit and the nonce kept. -/
def sealSearch (firstBit : UInt64 → Nat) (target : Nat) :
    Nat → UInt64 → Nat → UInt64 → Bool × Nat × UInt64
  | 0, _, bestBit, envNonce => (false, bestBit, envNonce)
  | count + 1, nonce, bestBit, envNonce =>
    if firstBit nonce > bestBit then
      if target > 0 ∧ firstBit nonce ≥ target then (true, firstBit nonce, nonce)
      else sealSearch firstBit target count (nonce + 1) (firstBit nonce) nonce
    else sealSearch firstBit target count (nonce + 1) bestBit envNonce

/-- `e.Seal(options)`. -/
def Seal (e : Envelope) (powToFirstBit : Option (Envelope → Int)) (WorkTime : UInt32)
    (firstBit : Envelope → UInt64 → Nat) (rounds : Nat) : Except String Envelope :=
  let e := if powToFirstBit.isNone then { e with Expiry := e.Expiry + WorkTime } else e
  let target := match powToFirstBit with
    | none => 0
    | some f => (max (f e) 1).toNat
  match sealSearch (firstBit e) target (1024 * rounds) 0 0 e.EnvNonce with
  | (true, _, nonce) => .ok { e with EnvNonce := nonce }
  | (false, bestBit, nonce) =>
    if target > 0 ∧ bestBit < target then
      .error ("failed to reach the PoW target, specified pow time (" ++ toString WorkTime.toNat ++
        " seconds) was insufficient")
    else .ok { e with EnvNonce := nonce }

end Envelope

/-- `NewEnvelope(ttl, topic, aesNonce, msg)`; `EnvelopeVersion` is below 256, so the version
byte never panics. -/
def NewEnvelope (ttl : UInt32) (topic aesNonce raw : List UInt8) (now : Nat) : Envelope :=
  ⟨[UInt8.ofNat EnvelopeVersion], UInt32.ofNat (now + ttl.toNat), ttl, topic, aesNonce, raw, 0⟩

/-- `aes.NewCipher(key)` refuses keys that are not 16, 24 or 32 bytes long. -/
def aesKeySizeError (key : List UInt8) : Option String :=
  if key.length = 16 ∨ key.length = 24 ∨ key.length = 32 then none
  else some ("crypto/aes: invalid key size " ++ toString key.length)

/-- `msg.encryptAsymmetric(key)`. -/
def encryptAsymmetric (C : Crypto Priv Pub) (raw : List UInt8) (key : Pub) :
    Except String (List UInt8) :=
  if !C.ValidatePublicKey key then .error "invalid public key provided for asymmetric encryption"
  else C.eciesEncrypt key raw

/-- `msg.encryptSymmetric(key)`: the sealed plaintext and the nonce; `nonceRnd` is what
`crand.Read(nonce)` gives. -/
def encryptSymmetric (C : Crypto Priv Pub) (raw key : List UInt8)
    (nonceRnd : Except String (List UInt8)) : Except String (List UInt8 × List UInt8) :=
  if !validateSymmetricKey key then .error "invalid key provided for symmetric encryption"
  else match aesKeySizeError key with
    | some err => .error err
    | none =>
      match nonceRnd with
      | .error err => .error err
      | .ok n =>
        let nonce := (n ++ List.replicate aesNonceLength 0).take aesNonceLength
        if !validateSymmetricKey nonce then .error "crypto/rand failed to generate nonce"
        else .ok (C.gcmSeal key nonce raw, nonce)

/-- The signing step of `Wrap`. -/
def signWith (C : Crypto Priv Pub) (raw : List UInt8) : Option Priv → Except String (List UInt8)
  | some key => sign C raw key
  | none => .ok raw

/-- The encryption step of `Wrap`: the ciphertext and the AES nonce, none for ECIES. -/
def encryptWith (C : Crypto Priv Pub) (raw : List UInt8) (options : MessageParams Priv Pub)
    (nonceRnd : Except String (List UInt8)) : Except String (List UInt8 × List UInt8) :=
  match options.Dst, options.KeySym with
  | some dst, _ => (encryptAsymmetric C raw dst).map (·, [])
  | none, some key => encryptSymmetric C raw key nonceRnd
  | none, none => .error "unable to encrypt the message: neither symmetric nor assymmetric key provided"

/-- `msg.Wrap(options)`. -/
def Wrap (C : Crypto Priv Pub) (raw : List UInt8) (options : MessageParams Priv Pub)
    (nonceRnd : Except String (List UInt8)) (now : Nat) (powToFirstBit : Option (Envelope → Int))
    (firstBit : Envelope → UInt64 → Nat) (rounds : Nat) : Except String Envelope :=
  let ttl := if options.TTL = 0 then DefaultTTL else options.TTL
  signWith C raw options.Src >>= fun raw =>
    encryptWith C raw options nonceRnd >>= fun sealed =>
      (NewEnvelope ttl options.Topic sealed.2 sealed.1 now).Seal powToFirstBit options.WorkTime
        firstBit rounds

/-- The keys of a `Filter` that `Open` reads; a `KeySym` of `nil` is empty. -/
structure Filter (Priv : Type) where
  KeyAsym : Option Priv
  KeySym : List UInt8

/-- `msg.decryptSymmetric(key, nonce)`. -/
def decryptSymmetric (C : Crypto Priv Pub) (raw key nonce : List UInt8) : Except String (List UInt8) :=
  match aesKeySizeError key with
  | some err => .error err
  | none =>
    if nonce.length ≠ aesNonceLength then .error "wrong AES nonce size"
    else C.gcmOpen key nonce raw

namespace Envelope

/-- What `Open` decrypts before it validates: `none` inside for a failed decryption, and `none`
outside for the panic of `ecies.ImportECDSA` on the nil key of a watcher without one. -/
def decrypt (C : Crypto Priv Pub) (e : Envelope) (watcher : Filter Priv) :
    Option (Option (ReceivedMessage Pub)) :=
  if e.isAsymmetric then
    match watcher.KeyAsym with
    | none => none
    | some key =>
      match C.eciesDecrypt key e.Data with
      | .ok raw => some (some { ReceivedMessage.ofRaw raw with Dst := some (C.publicKey key) })
      | .error _ => some none
  else if e.IsSymmetric then
    match decryptSymmetric C e.Data watcher.KeySym e.AESNonce with
    | .ok raw => some (some { ReceivedMessage.ofRaw raw with SymKeyHash := some (C.Keccak256 watcher.KeySym) })
    | .error _ => some none
  else some none

/-- `e.Open(watcher)`: `none` outside for a panic, `none` inside for `nil`. -/
def Open (C : Crypto Priv Pub) (e : Envelope) (watcher : Filter Priv) :
    Option (Option (ReceivedMessage Pub)) :=
  match e.decrypt C watcher with
  | none => none
  | some none => some none
  | some (some msg) =>
    match msg.Validate C with
    | none => none
    | some (false, _) => some none
    | some (true, msg) =>
      some (some { msg with
        Topic := e.Topic
        TTL := e.TTL
        Sent := e.Expiry - e.TTL
        EnvelopeVersion := e.Ver })

end Envelope

end Zerium.Whisper
