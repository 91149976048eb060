import Zerium.P2p.Rlpx
import Zerium.Rlp.RoundTrip

/-! # What a frame carries

`WriteMsg` writes the frame `sealFrame` of its code and payload, the payload compressed when snappy
is on, once the size check passes (`WriteMsg_plain`, `WriteMsg_snappy`). A reader in step with the
writer (`InStep`) reads such a frame back, checks both MACs and returns the message, in step again
(`ReadMsg_WriteMsg`) for every message that fits in a frame (`Fits`).

The check adds the length of the code to `msg.Size` in `uint32`, so a payload of almost 4 GiB
wraps it round to a small size: the check passes and the header gives that small size, while the
frame carries every byte of the payload (`WriteMsg_accepts_wrapped_size`).
-/

namespace Zerium.P2p

set_option autoImplicit false

theorem or_shiftLeft_bytes {a b c : Nat} (ha : a < 2 ^ 8) (hb : b < 2 ^ 8) :
    a ||| b <<< 8 ||| c <<< 16 = c * 2 ^ 16 + b * 2 ^ 8 + a := by
  have hab : b <<< 8 ||| a < 2 ^ 16 := by
    rw [← Nat.shiftLeft_add_eq_or_of_lt ha, Nat.shiftLeft_eq]
    omega
  rw [Nat.or_comm a, Nat.or_comm, ← Nat.shiftLeft_add_eq_or_of_lt ha,
    ← Nat.shiftLeft_add_eq_or_of_lt (by rwa [Nat.shiftLeft_add_eq_or_of_lt ha]), Nat.shiftLeft_eq,
    Nat.shiftLeft_eq]
  omega

theorem readInt24_putInt24 (v : UInt32) (h : v.toNat < 2 ^ 24) (rest : List UInt8) :
    readInt24 (putInt24 v ++ rest) = v := by
  simp only [readInt24, putInt24, List.cons_append, List.getD_cons_succ, List.getD_cons_zero]
  apply UInt32.toNat_inj.mp
  simp only [UInt32.toNat_or, UInt32.toNat_shiftLeft, UInt8.toNat_toUInt32, UInt32.toNat_toUInt8,
    UInt32.toNat_shiftRight, show (8 : UInt32).toNat % 32 = 8 from rfl,
    show (16 : UInt32).toNat % 32 = 16 from rfl]
  have h8 : (v.toNat >>> 8 % 2 ^ 8) <<< 8 % 2 ^ 32 = (v.toNat >>> 8 % 2 ^ 8) <<< 8 :=
    Nat.mod_eq_of_lt (by rw [Nat.shiftLeft_eq]; omega)
  have h16 : (v.toNat >>> 16 % 2 ^ 8) <<< 16 % 2 ^ 32 = (v.toNat >>> 16 % 2 ^ 8) <<< 16 :=
    Nat.mod_eq_of_lt (by rw [Nat.shiftLeft_eq]; omega)
  rw [h8, h16, or_shiftLeft_bytes (Nat.mod_lt _ (by decide)) (Nat.mod_lt _ (by decide)),
    Nat.shiftRight_eq_div_pow, Nat.shiftRight_eq_div_pow]
  omega

@[simp] theorem length_putInt24 (v : UInt32) : (putInt24 v).length = 3 := rfl

theorem ptypeOf_eq (code : UInt64) : ptypeOf code = Rlp.uintEncoding code.toNat := by
  simp only [ptypeOf, Rlp.EncodeToBytes, Rlp.writeUint_eq]
  rfl

theorem toNat_maxUint24 : maxUint24.toNat = 2 ^ 24 - 1 := rfl

section Frames

variable (c : Crypto)

@[simp] theorem updateMAC_fst (mac key seed : List UInt8) :
    (updateMAC c mac key seed).1 = mac ++ List.zipWith (· ^^^ ·) (c.encrypt key (c.keccak mac)) seed := rfl

@[simp] theorem length_updateMAC_snd (mac key seed : List UInt8) :
    (updateMAC c mac key seed).2.length = 16 := by
  simp [updateMAC, c.length_keccak]

@[simp] theorem tee_nil (out : List UInt8) (rw : RlpxFrameRW) : tee c out rw [] = (out, rw) := by
  simp [tee]

def plainHeader (fsize : UInt32) : List UInt8 := putInt24 fsize ++ zeroHeader ++ List.replicate 10 0

@[simp] theorem length_plainHeader (fsize : UInt32) : (plainHeader fsize).length = 16 := rfl

def padding (fsize : UInt32) : List UInt8 :=
  if fsize % 16 > 0 then zero16.take (16 - fsize % 16).toNat else []

def sealFrame (rw : RlpxFrameRW) (fsize : UInt32) (content : List UInt8) :
    List UInt8 × RlpxFrameRW :=
  let head := Ctr.xorKeyStream (c.keystream rw.aesKey) rw.enc (plainHeader fsize)
  let egress := (updateMAC c rw.egressMAC rw.macKey head).1
  let body := Ctr.xorKeyStream (c.keystream rw.aesKey) (rw.enc + 16) (content ++ padding fsize)
  let mac := updateMAC c (egress ++ body) rw.macKey (c.keccak (egress ++ body))
  (head ++ (updateMAC c rw.egressMAC rw.macKey head).2 ++ body ++ mac.2,
    { rw with enc := rw.enc + 16 + body.length, egressMAC := mac.1 })

theorem length_sealFrame (rw : RlpxFrameRW) (fsize : UInt32) (content : List UInt8) :
    (sealFrame c rw fsize content).1.length = 48 + (content ++ padding fsize).length := by
  simp only [sealFrame, List.length_append, Ctr.length_xorKeyStream, length_plainHeader,
    length_updateMAC_snd]
  omega

theorem take_sealFrame (rw : RlpxFrameRW) (fsize : UInt32) (content : List UInt8) :
    (sealFrame c rw fsize content).1.take 16 =
      Ctr.xorKeyStream (c.keystream rw.aesKey) rw.enc (plainHeader fsize) := by
  simp only [sealFrame, List.append_assoc]
  exact List.take_left' (by simp)

theorem writeFrame_eq (rw : RlpxFrameRW) (ptype payload : List UInt8) (fsize : UInt32) :
    writeFrame c rw ptype payload fsize = sealFrame c rw fsize (ptype ++ payload) := by
  rw [writeFrame]
  -- the padding is one more write through the stream writer, or none
  by_cases hpad : fsize % 16 > 0
  · simp only [if_pos hpad, sealFrame, padding, tee, plainHeader, updateMAC_fst, List.length_append,
      List.append_assoc, Ctr.length_xorKeyStream, Ctr.xorKeyStream_append, Nat.add_assoc]
  · simp only [if_neg hpad, sealFrame, padding, tee, plainHeader, updateMAC_fst, List.length_append,
      List.append_assoc, Ctr.length_xorKeyStream, Ctr.xorKeyStream_append, Nat.add_assoc,
      List.append_nil]

variable (sn : Snappy)

theorem WriteMsg_plain (rw : RlpxFrameRW) (msg : Msg) (hsnappy : rw.snappy = false)
    (hfit : ¬ UInt32.ofNat (ptypeOf msg.Code).length + msg.Size > maxUint24) :
    WriteMsg c sn rw msg =
      .ok (sealFrame c rw (UInt32.ofNat (ptypeOf msg.Code).length + msg.Size)
        (ptypeOf msg.Code ++ msg.Payload)) := by
  simp only [WriteMsg, hsnappy, Bool.false_eq_true, if_false, pure_bind, if_neg hfit, writeFrame_eq]
  rfl

theorem toNat_roundedSize (fsize : UInt32) (h : fsize.toNat < 2 ^ 24) :
    (roundedSize fsize).toNat = fsize.toNat + (padding fsize).length := by
  unfold roundedSize padding
  by_cases hpad : fsize % 16 > 0
  · rw [if_pos hpad, if_pos hpad]
    have hmod : (fsize % 16).toNat = fsize.toNat % 16 := UInt32.toNat_mod fsize 16
    have hpos : 0 < fsize.toNat % 16 := by
      rw [gt_iff_lt, UInt32.lt_iff_toNat_lt, hmod] at hpad
      simpa using hpad
    have hsub : (16 - fsize % 16).toNat = 16 - fsize.toNat % 16 := by
      rw [UInt32.toNat_sub_of_le _ _ (by rw [UInt32.le_iff_toNat_le, hmod]; simp; omega), hmod]
      rfl
    rw [UInt32.toNat_add, hsub, List.length_take, zero16, List.length_replicate,
      Nat.mod_eq_of_lt (by omega)]
    omega
  · rw [if_neg hpad, if_neg hpad, List.length_nil, Nat.add_zero]

theorem readFull_append {n : Nat} {a : List UInt8} (ha : a.length = n) (rest : List UInt8) :
    readFull n (a ++ rest) = .ok (a, rest) := by
  rw [readFull, if_pos (by simp; omega), List.take_left' ha, List.drop_left' ha]

/-- The reader of one direction of a connection is in step with the writer at the other end: the
same keys, its `dec` where the writer's `enc` is, and its ingress MAC the writer's egress MAC. -/
structure InStep (w r : RlpxFrameRW) : Prop where
  aesKey : r.aesKey = w.aesKey
  macKey : r.macKey = w.macKey
  pos : r.dec = w.enc
  mac : r.ingressMAC = w.egressMAC
  snappy : r.snappy = w.snappy

theorem readFrame_sealFrame {w r : RlpxFrameRW} (hstep : InStep w r) (fsize : UInt32)
    (content : List UInt8) (hsize : fsize.toNat = content.length) (hfit : content.length < 2 ^ 24)
    (rest : List UInt8) :
    readFrame c r ((sealFrame c w fsize content).1 ++ rest) =
      .ok (content,
        { r with
          dec := (sealFrame c w fsize content).2.enc
          ingressMAC := (sealFrame c w fsize content).2.egressMAC }, rest) := by
  obtain ⟨haes, hmac, hpos, hin, -⟩ := hstep
  -- the pieces of the frame, as `sealFrame` lays them out
  set head := Ctr.xorKeyStream (c.keystream w.aesKey) w.enc (plainHeader fsize) with hhead
  set headMAC := updateMAC c w.egressMAC w.macKey head with hheadMAC
  set body := Ctr.xorKeyStream (c.keystream w.aesKey) (w.enc + 16) (content ++ padding fsize) with hbody
  set frameMAC := updateMAC c (headMAC.1 ++ body) w.macKey (c.keccak (headMAC.1 ++ body)) with hframeMAC
  have hframe : (sealFrame c w fsize content).1 ++ rest =
      (head ++ headMAC.2) ++ (body ++ (frameMAC.2 ++ rest)) := by
    simp only [sealFrame, List.append_assoc]
    rfl
  have hread32 := readFull_append (n := 32) (a := head ++ headMAC.2) (by simp [hhead, hheadMAC])
    (body ++ (frameMAC.2 ++ rest))
  have hrsize : (roundedSize fsize).toNat = body.length := by
    rw [toNat_roundedSize fsize (by omega), hbody, Ctr.length_xorKeyStream, List.length_append, hsize]
  have hreadBody := readFull_append hrsize.symm (frameMAC.2 ++ rest)
  have hreadMAC := readFull_append (n := 16) (a := frameMAC.2) (by rw [hframeMAC, length_updateMAC_snd]) rest
  have hsizeField : readInt24 (Ctr.xorKeyStream (c.keystream r.aesKey) r.dec head) = fsize := by
    rw [haes, hpos, hhead, Ctr.xorKeyStream_xorKeyStream, plainHeader, List.append_assoc,
      readInt24_putInt24 _ (by omega)]
  have htake : (head ++ headMAC.2).take 16 = head := List.take_left' (by simp [hhead])
  have hdrop : (head ++ headMAC.2).drop 16 = headMAC.2 := List.drop_left' (by simp [hhead])
  have hcontent : (Ctr.xorKeyStream (c.keystream r.aesKey) (r.dec + 16) body).take fsize.toNat = content := by
    rw [haes, hpos, hbody, Ctr.xorKeyStream_xorKeyStream, hsize, List.take_left' rfl]
  rw [hframe, readFrame]
  simp only [hread32, bind, Except.bind, htake, hdrop, hmac, hin, ← hheadMAC, ne_eq, not_true_eq_false,
    if_false, hsizeField, hreadBody, hreadMAC, ← hframeMAC, hcontent]
  rw [hrsize, hpos]
  rfl

theorem decode_ptypeOf (code : UInt64) (rest : List UInt8) :
    ∃ s, Rlp.Stream.Decode (Rlp.decodeUint 64 "uint64") "uint64"
        (Rlp.NewStream (ptypeOf code ++ rest) (ptypeOf code ++ rest).length) = .ok code s ∧ s.r = rest := by
  rw [ptypeOf_eq]
  set s₀ := Rlp.NewStream (Rlp.uintEncoding code.toNat ++ rest) (Rlp.uintEncoding code.toNat ++ rest).length
  have hroom : s₀.Room (Rlp.uintEncoding code.toNat).length :=
    Rlp.Stream.Room.left (by rw [← List.length_append]; exact Rlp.NewStream_room _)
  obtain ⟨byteval, size, h⟩ := Rlp.uint_uintEncoding s₀ rfl code.toNat code.toNat_lt rest rfl hroom
  have hdec : Rlp.decodeUint 64 "uint64" s₀ =
      .ok code (Rlp.consumed s₀ (Rlp.uintEncoding code.toNat).length rest byteval size) := by
    unfold Rlp.decodeUint
    rw [Rlp.bind_apply_ok (Rlp.adaptExcept_apply_ok h), UInt64.ofNat_toNat]
    rfl
  exact ⟨_, Rlp.adaptExcept_apply_ok hdec, rfl⟩

theorem decodeContent_plain (sn : Snappy) (code : UInt64) (payload : List UInt8) :
    decodeContent sn false (ptypeOf code ++ payload) = .ok ⟨code, UInt32.ofNat payload.length, payload⟩ := by
  obtain ⟨s, hdec, hr⟩ := decode_ptypeOf code payload
  simp only [decodeContent, hdec, Bool.false_eq_true, if_false, hr]
  rfl

/-- `snappy.Decode` and `snappy.DecodedLen` undo `snappy.Encode`. -/
structure Snappy.Lawful (sn : Snappy) : Prop where
  decodedLen_encode : ∀ p, sn.DecodedLen (sn.Encode p) = some p.length
  decode_encode : ∀ p, sn.Decode (sn.Encode p) = some p

theorem decodeContent_snappy {sn : Snappy} (hsn : sn.Lawful) (code : UInt64) (payload : List UInt8)
    (hlen : payload.length ≤ maxUint24.toNat) :
    decodeContent sn true (ptypeOf code ++ sn.Encode payload) =
      .ok ⟨code, UInt32.ofNat payload.length, payload⟩ := by
  obtain ⟨s, hdec, hr⟩ := decode_ptypeOf code (sn.Encode payload)
  simp only [decodeContent, hdec, if_true, hr, hsn.decodedLen_encode, hsn.decode_encode, pure_bind,
    gt_iff_lt, if_neg (Nat.not_lt.mpr hlen)]
  rfl

theorem WriteMsg_snappy (rw : RlpxFrameRW) (msg : Msg) (hsnappy : rw.snappy = true)
    (hsize : ¬ msg.Size > maxUint24)
    (hfit : ¬ UInt32.ofNat (ptypeOf msg.Code).length + UInt32.ofNat (sn.Encode msg.Payload).length > maxUint24) :
    WriteMsg c sn rw msg =
      .ok (sealFrame c rw (UInt32.ofNat (ptypeOf msg.Code).length + UInt32.ofNat (sn.Encode msg.Payload).length)
        (ptypeOf msg.Code ++ sn.Encode msg.Payload)) := by
  simp only [WriteMsg, hsnappy, if_true, if_neg hsize, pure_bind, if_neg hfit, writeFrame_eq]
  rfl

theorem ReadMsg_sealFrame {w r : RlpxFrameRW} (hstep : InStep w r) (fsize : UInt32)
    (content : List UInt8) (hsize : fsize.toNat = content.length) (hfit : content.length < 2 ^ 24)
    {msg : Msg} (hdec : decodeContent sn r.snappy content = .ok msg) (rest : List UInt8) :
    ReadMsg c sn r ((sealFrame c w fsize content).1 ++ rest) =
      .ok (msg,
        { r with
          dec := (sealFrame c w fsize content).2.enc
          ingressMAC := (sealFrame c w fsize content).2.egressMAC }, rest) := by
  simp only [ReadMsg, readFrame_sealFrame c hstep fsize content hsize hfit rest, bind, Except.bind]
  rw [hdec]
  rfl

/-- What the round trip asks of a message: its `Size` is the length of its payload, and its code
and its payload, compressed when snappy is on, fit in a frame. -/
def Fits (snappy : Bool) (msg : Msg) : Prop :=
  msg.Size.toNat = msg.Payload.length ∧
    if snappy then msg.Payload.length ≤ maxUint24.toNat ∧
      (ptypeOf msg.Code).length + (sn.Encode msg.Payload).length ≤ maxUint24.toNat
    else (ptypeOf msg.Code).length + msg.Payload.length ≤ maxUint24.toNat

theorem ofNat_add_length {a b : List UInt8} (h : a.length + b.length ≤ maxUint24.toNat) :
    UInt32.ofNat a.length + UInt32.ofNat b.length = UInt32.ofNat (a ++ b).length ∧
      ¬ UInt32.ofNat a.length + UInt32.ofNat b.length > maxUint24 ∧
      (UInt32.ofNat (a ++ b).length).toNat = (a ++ b).length := by
  rw [toNat_maxUint24] at h
  have hlen : (UInt32.ofNat (a ++ b).length).toNat = (a ++ b).length := by
    rw [UInt32.toNat_ofNat', Nat.mod_eq_of_lt (by simp; omega)]
  have hsum : UInt32.ofNat a.length + UInt32.ofNat b.length = UInt32.ofNat (a ++ b).length := by
    rw [List.length_append, UInt32.ofNat_add]
  refine ⟨hsum, ?_, hlen⟩
  rw [hsum, gt_iff_lt, UInt32.lt_iff_toNat_lt, hlen, toNat_maxUint24]
  simp only [List.length_append]
  omega

def frameContent (snappy : Bool) (msg : Msg) : List UInt8 :=
  ptypeOf msg.Code ++ if snappy then sn.Encode msg.Payload else msg.Payload

theorem length_frameContent_le {snappy : Bool} {msg : Msg} (hfits : Fits sn snappy msg) :
    (frameContent sn snappy msg).length ≤ maxUint24.toNat := by
  obtain ⟨-, hfit⟩ := hfits
  cases snappy with
  | false => simpa [frameContent] using hfit
  | true => simpa [frameContent] using hfit.2

theorem WriteMsg_fits (w : RlpxFrameRW) {msg : Msg} (hfits : Fits sn w.snappy msg) :
    WriteMsg c sn w msg =
      .ok (sealFrame c w (UInt32.ofNat (frameContent sn w.snappy msg).length) (frameContent sn w.snappy msg)) := by
  obtain ⟨hsize, hfit⟩ := hfits
  rcases Bool.eq_false_or_eq_true w.snappy with hs | hs
  · simp only [hs, if_true] at hfit
    obtain ⟨hplain, hfit⟩ := hfit
    obtain ⟨hsum, hcheck, -⟩ := ofNat_add_length hfit
    have hSize : ¬ msg.Size > maxUint24 := by
      rw [gt_iff_lt, UInt32.lt_iff_toNat_lt, hsize]
      omega
    rw [WriteMsg_snappy c sn w msg hs hSize hcheck, hsum]
    simp only [frameContent, hs, ↓reduceIte]
  · simp only [hs, Bool.false_eq_true, if_false] at hfit
    obtain ⟨hsum, hcheck, -⟩ := ofNat_add_length hfit
    have hSize : UInt32.ofNat msg.Payload.length = msg.Size := by rw [← hsize, UInt32.ofNat_toNat]
    rw [hSize] at hsum hcheck
    rw [WriteMsg_plain c sn w msg hs hcheck, hsum]
    simp only [frameContent, hs, Bool.false_eq_true, ↓reduceIte]

theorem decodeContent_frameContent {snappy : Bool} (hsn : snappy = true → sn.Lawful) {msg : Msg}
    (hfits : Fits sn snappy msg) : decodeContent sn snappy (frameContent sn snappy msg) = .ok msg := by
  obtain ⟨hsize, hfit⟩ := hfits
  have hmsg : (⟨msg.Code, UInt32.ofNat msg.Payload.length, msg.Payload⟩ : Msg) = msg := by
    rw [← hsize, UInt32.ofNat_toNat]
  cases snappy with
  | false =>
    simp only [frameContent, Bool.false_eq_true, ↓reduceIte]
    rw [decodeContent_plain, hmsg]
  | true =>
    simp only [frameContent, ↓reduceIte]
    rw [decodeContent_snappy (hsn rfl) _ _ hfit.1, hmsg]

/-- One message over one direction of a connection: `WriteMsg` takes it, and `ReadMsg` at the
other end, in step, returns the same message and the rest of the input. The writer moves only
its `enc` and egress MAC, the reader only its `dec` and ingress MAC, to where the writer's are. -/
theorem ReadMsg_WriteMsg {w r : RlpxFrameRW} (hstep : InStep w r) (hsn : w.snappy = true → sn.Lawful)
    {msg : Msg} (hfits : Fits sn w.snappy msg) :
    ∃ out enc egress, WriteMsg c sn w msg = .ok (out, { w with enc, egressMAC := egress }) ∧
      ∀ rest, ReadMsg c sn r (out ++ rest) = .ok (msg, { r with dec := enc, ingressMAC := egress }, rest) := by
  have hlen := length_frameContent_le sn hfits
  rw [toNat_maxUint24] at hlen
  set content := frameContent sn w.snappy msg
  set frame := sealFrame c w (UInt32.ofNat content.length) content
  refine ⟨frame.1, frame.2.enc, frame.2.egressMAC, WriteMsg_fits c sn w hfits, fun rest => ?_⟩
  have hdec : decodeContent sn r.snappy content = .ok msg := by
    rw [hstep.snappy]
    exact decodeContent_frameContent sn hsn hfits
  exact ReadMsg_sealFrame c sn hstep _ _ (by rw [UInt32.toNat_ofNat', Nat.mod_eq_of_lt (by omega)])
    (by omega) hdec rest

end Frames

def zeroCrypto : Crypto :=
  ⟨fun _ _ => 0, fun _ _ => List.replicate 16 0, fun _ => List.replicate 32 0, fun _ _ => rfl, fun _ => rfl⟩

/-- The size check of `WriteMsg` adds in `uint32`: a message whose code and payload together
pass `2 ^ 32` bytes by at most `maxUint24` is written, with a header that gives the size wrapped
round, far below the size of the code and payload the frame carries. -/
theorem WriteMsg_accepts_wrapped_size (c : Crypto) (sn : Snappy) (rw : RlpxFrameRW) (msg : Msg)
    (hsnappy : rw.snappy = false) (hsize : msg.Size.toNat = msg.Payload.length)
    (hover : 2 ^ 32 ≤ (ptypeOf msg.Code).length + msg.Payload.length)
    (hwrap : (ptypeOf msg.Code).length + msg.Payload.length - 2 ^ 32 ≤ maxUint24.toNat) :
    ∃ frame rw', WriteMsg c sn rw msg = .ok (frame, rw') ∧
      maxUint24.toNat < (ptypeOf msg.Code ++ msg.Payload).length ∧
      readInt24 (Ctr.xorKeyStream (c.keystream rw.aesKey) rw.enc (frame.take 16)) =
        UInt32.ofNat ((ptypeOf msg.Code).length + msg.Payload.length - 2 ^ 32) ∧
      48 + (ptypeOf msg.Code ++ msg.Payload).length ≤ frame.length := by
  rw [toNat_maxUint24] at hwrap
  -- the sum the check sees is the true size less `2 ^ 32`
  have hfsize : UInt32.ofNat (ptypeOf msg.Code).length + msg.Size =
      UInt32.ofNat ((ptypeOf msg.Code).length + msg.Payload.length - 2 ^ 32) := by
    rw [← UInt32.ofNat_toNat (x := msg.Size), hsize, ← UInt32.ofNat_add]
    apply UInt32.toNat_inj.mp
    rw [UInt32.toNat_ofNat', UInt32.toNat_ofNat']
    omega
  have hsmall : (UInt32.ofNat ((ptypeOf msg.Code).length + msg.Payload.length - 2 ^ 32)).toNat =
      (ptypeOf msg.Code).length + msg.Payload.length - 2 ^ 32 := by
    rw [UInt32.toNat_ofNat', Nat.mod_eq_of_lt (by omega)]
  have hfit : ¬ UInt32.ofNat (ptypeOf msg.Code).length + msg.Size > maxUint24 := by
    rw [hfsize, gt_iff_lt, UInt32.lt_iff_toNat_lt, hsmall, toNat_maxUint24]
    omega
  refine ⟨(sealFrame c rw _ (ptypeOf msg.Code ++ msg.Payload)).1,
    (sealFrame c rw _ (ptypeOf msg.Code ++ msg.Payload)).2, WriteMsg_plain c sn rw msg hsnappy hfit,
    by rw [toNat_maxUint24, List.length_append]; omega, ?_, ?_⟩
  · rw [take_sealFrame, Ctr.xorKeyStream_xorKeyStream, plainHeader, List.append_assoc, hfsize,
      readInt24_putInt24 _ (by omega)]
  · simp only [length_sealFrame, List.length_append]
    omega

def largestMsg : Msg := ⟨0, UInt32.ofNat (2 ^ 32 - 1), List.replicate (2 ^ 32 - 1) 0⟩

theorem WriteMsg_accepts_wrapped_size_largest :
    (⟨[], [], 0, 0, [], [], false⟩ : RlpxFrameRW).snappy = false ∧
      largestMsg.Size.toNat = largestMsg.Payload.length ∧
      2 ^ 32 ≤ (ptypeOf largestMsg.Code).length + largestMsg.Payload.length ∧
      (ptypeOf largestMsg.Code).length + largestMsg.Payload.length - 2 ^ 32 ≤ maxUint24.toNat ∧
      ∃ frame rw', WriteMsg zeroCrypto ⟨id, fun _ => none, fun _ => none⟩ ⟨[], [], 0, 0, [], [], false⟩
          largestMsg = .ok (frame, rw') ∧
        maxUint24.toNat < (ptypeOf largestMsg.Code ++ largestMsg.Payload).length ∧
        readInt24 (Ctr.xorKeyStream (zeroCrypto.keystream []) 0 (frame.take 16)) =
          UInt32.ofNat ((ptypeOf largestMsg.Code).length + largestMsg.Payload.length - 2 ^ 32) ∧
        48 + (ptypeOf largestMsg.Code ++ largestMsg.Payload).length ≤ frame.length := by
  have hptype : (ptypeOf largestMsg.Code).length = 1 := rfl
  have hlen : largestMsg.Payload.length = 2 ^ 32 - 1 := List.length_replicate
  have hsize : largestMsg.Size.toNat = largestMsg.Payload.length := by
    rw [hlen, largestMsg, UInt32.toNat_ofNat']
    omega
  have hover : 2 ^ 32 ≤ (ptypeOf largestMsg.Code).length + largestMsg.Payload.length := by
    rw [hptype, hlen]
    omega
  have hwrap : (ptypeOf largestMsg.Code).length + largestMsg.Payload.length - 2 ^ 32 ≤
      maxUint24.toNat := by
    rw [hptype, hlen, toNat_maxUint24]
    omega
  exact ⟨rfl, hsize, hover, hwrap,
    WriteMsg_accepts_wrapped_size zeroCrypto ⟨id, fun _ => none, fun _ => none⟩ ⟨[], [], 0, 0, [], [], false⟩
      largestMsg rfl hsize hover hwrap⟩

end Zerium.P2p
