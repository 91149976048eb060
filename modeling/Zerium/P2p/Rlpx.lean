import Zerium.Lib.Ctr
import Zerium.Rlp.Decode

/-! # RLPx framing (`p2p/rlpx.go`)

After the handshake both ends hold the same AES and MAC keys and a Keccak-256 state each for the
MAC of what they send and receive. `WriteMsg` sends a message as an encrypted 16-byte header and
its MAC, then the encrypted frame (code, payload, zeros up to a multiple of 16) and its MAC;
`ReadMsg` reads one back. AES, Keccak-256 and snappy are parameters: AES-CTR is the keystream of
its key (`Lib/Ctr`), a stream its position, a Keccak state the bytes written to it. The connection
is a pipe, `WriteMsg` returning the bytes it writes and `ReadMsg` the rest, and a failed call
returns no state, since an error ends the connection.
-/

namespace Zerium.P2p

set_option autoImplicit false

def maxUint24 : UInt32 := (0xFFFFFFFF : UInt32) >>> 8

def zeroHeader : List UInt8 := [0xC2, 0x80, 0x80]

def zero16 : List UInt8 := List.replicate 16 0

/-- The primitives the frame layer runs on. -/
structure Crypto where
  /-- the keystream of AES-CTR under a key, from the all-zero IV -/
  keystream : List UInt8 → Nat → UInt8
  /-- `Encrypt` of AES under a key, on the first block of its input -/
  encrypt : List UInt8 → List UInt8 → List UInt8
  /-- `Sum` of a Keccak-256 state, from all the bytes written to it -/
  keccak : List UInt8 → List UInt8
  length_encrypt : ∀ key b, (encrypt key b).length = 16
  length_keccak : ∀ b, (keccak b).length = 32

/-- `snappy.Encode`, `snappy.DecodedLen` and `snappy.Decode`, an error as `none`. -/
structure Snappy where
  Encode : List UInt8 → List UInt8
  DecodedLen : List UInt8 → Option Nat
  Decode : List UInt8 → Option (List UInt8)

structure Msg where
  Code : UInt64
  Size : UInt32
  Payload : List UInt8

structure Secrets where
  AES : List UInt8
  MAC : List UInt8
  EgressMAC : List UInt8
  IngressMAC : List UInt8

/-- An `rlpxFrameRW`: the keys of `enc`, `dec` and `macCipher`, the positions of `enc` and `dec`
in their keystream, and the two MAC states. -/
structure RlpxFrameRW where
  aesKey : List UInt8
  macKey : List UInt8
  enc : Nat
  dec : Nat
  egressMAC : List UInt8
  ingressMAC : List UInt8
  snappy : Bool

inductive FrameError where
  | EOF
  | ErrUnexpectedEOF
  /-- an `errors.New` error -/
  | text (msg : String)
  | rlp (err : Rlp.Error)
  | snappy

def errPlainMessageTooLarge : FrameError := .text "message length >= 16MB"

/-- `aes.NewCipher` takes keys of 16, 24 and 32 bytes. -/
def validKey (key : List UInt8) : Bool := key.length = 16 || key.length = 24 || key.length = 32

/-- `newRLPXFrameRW`; `none` is its panic on a key `aes.NewCipher` refuses. -/
def newRLPXFrameRW (s : Secrets) : Option RlpxFrameRW :=
  if validKey s.MAC && validKey s.AES then some ⟨s.AES, s.MAC, 0, 0, s.EgressMAC, s.IngressMAC, false⟩
  else none

def putInt24 (v : UInt32) : List UInt8 := [(v >>> 16).toUInt8, (v >>> 8).toUInt8, v.toUInt8]

def readInt24 (b : List UInt8) : UInt32 :=
  (b.getD 2 0).toUInt32 ||| ((b.getD 1 0).toUInt32 <<< 8) ||| ((b.getD 0 0).toUInt32 <<< 16)

def readFull (n : Nat) (input : List UInt8) : Except FrameError (List UInt8 × List UInt8) :=
  if n ≤ input.length then .ok (input.take n, input.drop n)
  else if input = [] then .error .EOF
  else .error .ErrUnexpectedEOF

section Frames

variable (c : Crypto)

/-- `updateMAC`: the MAC state after the encrypted seed is written to it, and the first 16 bytes
of its sum. -/
def updateMAC (mac key seed : List UInt8) : List UInt8 × List UInt8 :=
  let aesbuf := List.zipWith (· ^^^ ·) (c.encrypt key (c.keccak mac)) seed
  (mac ++ aesbuf, (c.keccak (mac ++ aesbuf)).take 16)

/-- `tee.Write(b)` of the `cipher.StreamWriter` over the connection and the egress MAC: `b` is
encrypted at the position of `enc`, and the ciphertext goes to both. -/
def tee (out : List UInt8) (rw : RlpxFrameRW) (b : List UInt8) : List UInt8 × RlpxFrameRW :=
  let ct := Ctr.xorKeyStream (c.keystream rw.aesKey) rw.enc b
  (out ++ ct, { rw with enc := rw.enc + b.length, egressMAC := rw.egressMAC ++ ct })

/-- `rlp.EncodeToBytes(msg.Code)`, whose error `WriteMsg` drops. -/
def ptypeOf (code : UInt64) : List UInt8 :=
  match Rlp.EncodeToBytes (fun n w => .ok (Rlp.writeUint n w)) code with
  | .ok b => b
  | .error _ => []

/-- The part of `WriteMsg` after the size check: the header, its first half encrypted, and its
MAC, then the code, the payload and the padding through the stream writer, then the frame's
MAC. -/
def writeFrame (rw : RlpxFrameRW) (ptype payload : List UInt8) (fsize : UInt32) :
    List UInt8 × RlpxFrameRW :=
  let head := Ctr.xorKeyStream (c.keystream rw.aesKey) rw.enc
    (putInt24 fsize ++ zeroHeader ++ List.replicate 10 0)
  let headMAC := updateMAC c rw.egressMAC rw.macKey head
  let rw := { rw with enc := rw.enc + 16, egressMAC := headMAC.1 }
  let st := tee c (head ++ headMAC.2) rw ptype
  let st := tee c st.1 st.2 payload
  let st := if fsize % 16 > 0 then tee c st.1 st.2 (zero16.take (16 - fsize % 16).toNat) else st
  let frameMAC := updateMAC c st.2.egressMAC st.2.macKey (c.keccak st.2.egressMAC)
  (st.1 ++ frameMAC.2, { st.2 with egressMAC := frameMAC.1 })

/-- `WriteMsg`: the bytes written to the connection and the state after them. -/
def WriteMsg (sn : Snappy) (rw : RlpxFrameRW) (msg : Msg) :
    Except FrameError (List UInt8 × RlpxFrameRW) := do
  let ptype := ptypeOf msg.Code
  let msg ← if rw.snappy then
      if msg.Size > maxUint24 then throw errPlainMessageTooLarge
      else
        let payload := sn.Encode msg.Payload
        pure { msg with Payload := payload, Size := UInt32.ofNat payload.length }
    else pure msg
  let fsize := UInt32.ofNat ptype.length + msg.Size
  if fsize > maxUint24 then throw (.text "message size overflows uint24")
  pure (writeFrame c rw ptype msg.Payload fsize)

def roundedSize (fsize : UInt32) : UInt32 := if fsize % 16 > 0 then fsize + (16 - fsize % 16) else fsize

/-- The part of `ReadMsg` that reads a frame: the header and its MAC, then the frame and its MAC.
It returns the decrypted frame cut to the size the header gives. -/
def readFrame (rw : RlpxFrameRW) (input : List UInt8) :
    Except FrameError (List UInt8 × RlpxFrameRW × List UInt8) := do
  let (headbuf, input) ← readFull 32 input
  let headMAC := updateMAC c rw.ingressMAC rw.macKey (headbuf.take 16)
  if headMAC.2 ≠ headbuf.drop 16 then throw (.text "bad header MAC")
  let fsize := readInt24 (Ctr.xorKeyStream (c.keystream rw.aesKey) rw.dec (headbuf.take 16))
  let rsize := roundedSize fsize
  let (framebuf, input) ← readFull rsize.toNat input
  let ingress := headMAC.1 ++ framebuf
  let (macbuf, input) ← readFull 16 input
  let frameMAC := updateMAC c ingress rw.macKey (c.keccak ingress)
  if frameMAC.2 ≠ macbuf then throw (.text "bad frame MAC")
  let framebuf := Ctr.xorKeyStream (c.keystream rw.aesKey) (rw.dec + 16) framebuf
  pure (framebuf.take fsize.toNat, { rw with dec := rw.dec + 16 + rsize.toNat, ingressMAC := frameMAC.1 },
    input)

/-- The part of `ReadMsg` that decodes the frame: the RLP code of the message, then its payload,
through snappy when it is on. -/
def decodeContent (sn : Snappy) (snappy : Bool) (content : List UInt8) : Except FrameError Msg :=
  match Rlp.Stream.Decode (Rlp.decodeUint 64 "uint64") "uint64" (Rlp.NewStream content content.length) with
  | .error err _ => throw (.rlp err)
  | .ok code s =>
    if snappy then do
      let size ← match sn.DecodedLen s.r with
        | some size => pure size
        | none => throw .snappy
      if size > maxUint24.toNat then throw errPlainMessageTooLarge
      let payload ← match sn.Decode s.r with
        | some payload => pure payload
        | none => throw .snappy
      pure ⟨code, UInt32.ofNat size, payload⟩
    else pure ⟨code, UInt32.ofNat s.r.length, s.r⟩

/-- `ReadMsg`: the message, the state after it and the rest of the input. -/
def ReadMsg (sn : Snappy) (rw : RlpxFrameRW) (input : List UInt8) :
    Except FrameError (Msg × RlpxFrameRW × List UInt8) := do
  let (content, rw, input) ← readFrame c rw input
  let msg ← decodeContent sn rw.snappy content
  pure (msg, rw, input)

end Frames

end Zerium.P2p
