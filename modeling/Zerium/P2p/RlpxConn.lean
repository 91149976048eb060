import Zerium.P2p.RlpxSpec
import Zerium.Lib.Sim

/-! # Both directions of an RLPx connection

Each end of a connection writes its frames with its `enc` stream and egress MAC, and reads the
other end's with its `dec` stream and ingress MAC: the two halves of an `rlpxFrameRW` never touch
each other's fields. With a pipe each way, two ends in step behave as a FIFO channel each way
(`Channels`): under any interleaving of writes and reads at either end, each read returns the
oldest message written its way and not yet read, and a read with nothing written fails as a read
from a closed pipe does (`Conn_run_refines_channels`). This holds of messages that fit in a frame,
which the size check of `WriteMsg` does not ensure for payloads near 4 GiB.
-/

namespace Zerium.P2p

set_option autoImplicit false

/-- Two frame RWs that write alike: the same keys, `enc` position, egress MAC and snappy flag. -/
structure SameEgress (w w' : RlpxFrameRW) : Prop where
  aesKey : w.aesKey = w'.aesKey
  macKey : w.macKey = w'.macKey
  enc : w.enc = w'.enc
  egressMAC : w.egressMAC = w'.egressMAC
  snappy : w.snappy = w'.snappy

/-- Two frame RWs that read alike. -/
structure SameIngress (r r' : RlpxFrameRW) : Prop where
  aesKey : r.aesKey = r'.aesKey
  macKey : r.macKey = r'.macKey
  dec : r.dec = r'.dec
  ingressMAC : r.ingressMAC = r'.ingressMAC
  snappy : r.snappy = r'.snappy

theorem SameEgress.refl (w : RlpxFrameRW) : SameEgress w w := ⟨rfl, rfl, rfl, rfl, rfl⟩

theorem SameEgress.trans {u v w : RlpxFrameRW} (h : SameEgress u v) (h' : SameEgress v w) :
    SameEgress u w :=
  ⟨h.aesKey.trans h'.aesKey, h.macKey.trans h'.macKey, h.enc.trans h'.enc,
    h.egressMAC.trans h'.egressMAC, h.snappy.trans h'.snappy⟩

theorem SameIngress.refl (r : RlpxFrameRW) : SameIngress r r := ⟨rfl, rfl, rfl, rfl, rfl⟩

theorem SameIngress.trans {u v w : RlpxFrameRW} (h : SameIngress u v) (h' : SameIngress v w) :
    SameIngress u w :=
  ⟨h.aesKey.trans h'.aesKey, h.macKey.trans h'.macKey, h.dec.trans h'.dec,
    h.ingressMAC.trans h'.ingressMAC, h.snappy.trans h'.snappy⟩

theorem InStep.congr {w r r' : RlpxFrameRW} (h : InStep w r) (hr : SameIngress r r') : InStep w r' :=
  ⟨hr.aesKey.symm.trans h.aesKey, hr.macKey.symm.trans h.macKey, hr.dec.symm.trans h.pos,
    hr.ingressMAC.symm.trans h.mac, hr.snappy.symm.trans h.snappy⟩

section Frames

variable (c : Crypto)

theorem sameIngress_sealFrame (w : RlpxFrameRW) (fsize : UInt32) (content : List UInt8) :
    SameIngress w (sealFrame c w fsize content).2 := ⟨rfl, rfl, rfl, rfl, rfl⟩

theorem sealFrame_congr {w w' : RlpxFrameRW} (h : SameEgress w w') (fsize : UInt32)
    (content : List UInt8) :
    (sealFrame c w fsize content).1 = (sealFrame c w' fsize content).1 ∧
      SameEgress (sealFrame c w fsize content).2 (sealFrame c w' fsize content).2 := by
  obtain ⟨h1, h2, h3, h4, h5⟩ := h
  refine ⟨?_, ⟨h1, h2, ?_, ?_, h5⟩⟩ <;> simp only [sealFrame, h1, h2, h3, h4]

variable (sn : Snappy)

theorem WriteMsg_eq_ok {w w' : RlpxFrameRW} {msg : Msg} {out : List UInt8}
    (h : WriteMsg c sn w msg = .ok (out, w')) :
    ∃ fsize content, sealFrame c w fsize content = (out, w') := by
  simp only [WriteMsg, writeFrame_eq] at h
  -- the branch on snappy, then the two size checks, each a `throw` or on to the frame
  split at h
  · split at h
    · cases h
    · simp only [pure_bind] at h
      split at h
      · cases h
      · exact ⟨_, _, by injection h⟩
  · simp only [pure_bind] at h
    split at h
    · cases h
    · exact ⟨_, _, by injection h⟩

theorem WriteMsg_sameIngress {w w' : RlpxFrameRW} {msg : Msg} {out : List UInt8}
    (h : WriteMsg c sn w msg = .ok (out, w')) : SameIngress w w' := by
  obtain ⟨fsize, content, hseal⟩ := WriteMsg_eq_ok c sn h
  have hw' : (sealFrame c w fsize content).2 = w' := by rw [hseal]
  rw [← hw']
  exact sameIngress_sealFrame c w fsize content

theorem WriteMsg_congr {w w' : RlpxFrameRW} (h : SameEgress w w') {msg : Msg}
    (hfits : Fits sn w.snappy msg) :
    ∃ out v v', WriteMsg c sn w msg = .ok (out, v) ∧ WriteMsg c sn w' msg = .ok (out, v') ∧
      SameEgress v v' := by
  set content := frameContent sn w.snappy msg
  obtain ⟨hout, hsame⟩ := sealFrame_congr c h (UInt32.ofNat content.length) content
  refine ⟨(sealFrame c w (UInt32.ofNat content.length) content).1,
    (sealFrame c w (UInt32.ofNat content.length) content).2,
    (sealFrame c w' (UInt32.ofNat content.length) content).2, WriteMsg_fits c sn w hfits, ?_, hsame⟩
  rw [WriteMsg_fits c sn w' (h.snappy ▸ hfits), ← h.snappy, hout]

/-- `WriteMsg` of each message in turn. -/
def writeAll : RlpxFrameRW → List Msg → Except FrameError (List UInt8 × RlpxFrameRW)
  | w, [] => .ok ([], w)
  | w, msg :: msgs => do
    let (out, w) ← WriteMsg c sn w msg
    let (rest, w) ← writeAll w msgs
    pure (out ++ rest, w)

theorem writeAll_cons_eq_ok {w w₂ : RlpxFrameRW} {msg : Msg} {msgs : List Msg} {out : List UInt8}
    (h : writeAll c sn w (msg :: msgs) = .ok (out, w₂)) :
    ∃ out₁ w₁ out₂, WriteMsg c sn w msg = .ok (out₁, w₁) ∧ writeAll c sn w₁ msgs = .ok (out₂, w₂) ∧
      out = out₁ ++ out₂ := by
  obtain ⟨⟨out₁, w₁⟩, h1, h⟩ := Sim.bind_eq_ok.mp h
  obtain ⟨⟨out₂, w₂'⟩, h2, h⟩ := Sim.bind_eq_ok.mp h
  cases h
  exact ⟨out₁, w₁, out₂, h1, h2, rfl⟩

theorem writeAll_concat {w w₁ w₂ : RlpxFrameRW} {msgs : List Msg} {msg : Msg} {out out' : List UInt8}
    (h : writeAll c sn w msgs = .ok (out, w₁)) (h' : WriteMsg c sn w₁ msg = .ok (out', w₂)) :
    writeAll c sn w (msgs ++ [msg]) = .ok (out ++ out', w₂) := by
  induction msgs generalizing w out with
  | nil =>
    cases h
    simp [writeAll, h']
  | cons m msgs ih =>
    obtain ⟨out₁, v, out₂, h1, h2, rfl⟩ := writeAll_cons_eq_ok c sn h
    simp [writeAll, h1, ih h2]

theorem writeAll_sameIngress {w w₁ : RlpxFrameRW} {msgs : List Msg} {out : List UInt8}
    (h : writeAll c sn w msgs = .ok (out, w₁)) : SameIngress w w₁ := by
  induction msgs generalizing w out with
  | nil =>
    cases h
    exact SameIngress.refl _
  | cons m msgs ih =>
    obtain ⟨out₁, v, out₂, h1, h2, -⟩ := writeAll_cons_eq_ok c sn h
    exact (WriteMsg_sameIngress c sn h1).trans (ih h2)

def Pending (w r : RlpxFrameRW) (wire : List UInt8) (q : List Msg) : Prop :=
  ∃ w₀ w₁, InStep w₀ r ∧ (∀ msg ∈ q, Fits sn w₀.snappy msg) ∧ writeAll c sn w₀ q = .ok (wire, w₁) ∧
    SameEgress w₁ w

theorem pending_nil {w r : RlpxFrameRW} (h : InStep w r) : Pending c sn w r [] [] :=
  ⟨w, w, h, by simp, rfl, SameEgress.refl w⟩

theorem Pending.congr {w w' r r' : RlpxFrameRW} {wire : List UInt8} {q : List Msg}
    (h : Pending c sn w r wire q) (hw : SameEgress w w') (hr : SameIngress r r') :
    Pending c sn w' r' wire q := by
  obtain ⟨w₀, w₁, hstep, hfits, hwrite, hsame⟩ := h
  exact ⟨w₀, w₁, hstep.congr hr, hfits, hwrite, hsame.trans hw⟩

theorem Pending.wire_eq_nil {w r : RlpxFrameRW} {wire : List UInt8} (h : Pending c sn w r wire []) :
    wire = [] := by
  obtain ⟨w₀, w₁, -, -, hwrite, -⟩ := h
  cases hwrite
  rfl

theorem Pending.push {w r : RlpxFrameRW} {wire : List UInt8} {q : List Msg} {msg : Msg}
    (h : Pending c sn w r wire q) (hfits : Fits sn w.snappy msg) :
    ∃ out w', WriteMsg c sn w msg = .ok (out, w') ∧ SameIngress w w' ∧
      Pending c sn w' r (wire ++ out) (q ++ [msg]) := by
  obtain ⟨w₀, w₁, hstep, hq, hwrite, hsame⟩ := h
  obtain ⟨out, v, v', h1, h2, hv⟩ := WriteMsg_congr c sn hsame (hsame.snappy ▸ hfits)
  have h0 : w₀.snappy = w.snappy := (writeAll_sameIngress c sn hwrite).snappy.trans hsame.snappy
  refine ⟨out, v', h2, WriteMsg_sameIngress c sn h2, w₀, v, hstep, ?_, writeAll_concat c sn hwrite h1, hv⟩
  intro m hm
  rcases List.mem_append.mp hm with hm | hm
  · exact hq m hm
  · rw [List.mem_singleton.mp hm, h0]
    exact hfits

theorem Pending.pop {w r : RlpxFrameRW} {wire : List UInt8} {msg : Msg} {q : List Msg}
    (hsn : r.snappy = true → sn.Lawful) (h : Pending c sn w r wire (msg :: q)) :
    ∃ r' rest, ReadMsg c sn r wire = .ok (msg, r', rest) ∧ SameEgress r r' ∧ Pending c sn w r' rest q := by
  obtain ⟨w₀, w₁, hstep, hq, hwrite, hsame⟩ := h
  obtain ⟨out₁, v, out₂, h1, h2, rfl⟩ := writeAll_cons_eq_ok c sn hwrite
  obtain ⟨out, enc, egress, hw, hr⟩ :=
    ReadMsg_WriteMsg c sn hstep (fun h => hsn (hstep.snappy.trans h)) (hq msg List.mem_cons_self)
  rw [hw] at h1
  cases h1
  exact ⟨_, out₂, hr out₂, ⟨rfl, rfl, rfl, rfl, rfl⟩, { w₀ with enc, egressMAC := egress }, w₁,
    ⟨hstep.aesKey, hstep.macKey, rfl, rfl, hstep.snappy⟩, fun m hm => hq m (List.mem_cons_of_mem msg hm),
    h2, hsame⟩

theorem ReadMsg_nil (r : RlpxFrameRW) : ReadMsg c sn r [] = .error .EOF := rfl

end Frames

/-- The two ends `a` and `b` of a connection, and the bytes on the wire to each. -/
structure Conn where
  a : RlpxFrameRW
  b : RlpxFrameRW
  toA : List UInt8
  toB : List UInt8

/-- A `WriteMsg` or a `ReadMsg` at one end of a connection. -/
inductive Event where
  | writeA (msg : Msg)
  | writeB (msg : Msg)
  | readA
  | readB

section Conn

variable (c : Crypto) (sn : Snappy)

def Conn.step (k : Conn) : Event → Except FrameError (Conn × Option Msg)
  | .writeA msg => do
    let (out, a) ← WriteMsg c sn k.a msg
    pure ({ k with a, toB := k.toB ++ out }, none)
  | .writeB msg => do
    let (out, b) ← WriteMsg c sn k.b msg
    pure ({ k with b, toA := k.toA ++ out }, none)
  | .readA => do
    let (msg, a, toA) ← ReadMsg c sn k.a k.toA
    pure ({ k with a, toA }, some msg)
  | .readB => do
    let (msg, b, toB) ← ReadMsg c sn k.b k.toB
    pure ({ k with b, toB }, some msg)

theorem Conn.step_writeA {k : Conn} {msg : Msg} {out : List UInt8} {a : RlpxFrameRW}
    (h : WriteMsg c sn k.a msg = .ok (out, a)) :
    k.step c sn (.writeA msg) = .ok ({ k with a, toB := k.toB ++ out }, none) := by
  rw [Conn.step, h]
  rfl

theorem Conn.step_writeB {k : Conn} {msg : Msg} {out : List UInt8} {b : RlpxFrameRW}
    (h : WriteMsg c sn k.b msg = .ok (out, b)) :
    k.step c sn (.writeB msg) = .ok ({ k with b, toA := k.toA ++ out }, none) := by
  rw [Conn.step, h]
  rfl

theorem Conn.step_readA {k : Conn} {msg : Msg} {a : RlpxFrameRW} {toA : List UInt8}
    (h : ReadMsg c sn k.a k.toA = .ok (msg, a, toA)) :
    k.step c sn .readA = .ok ({ k with a, toA }, some msg) := by
  rw [Conn.step, h]
  rfl

theorem Conn.step_readB {k : Conn} {msg : Msg} {b : RlpxFrameRW} {toB : List UInt8}
    (h : ReadMsg c sn k.b k.toB = .ok (msg, b, toB)) :
    k.step c sn .readB = .ok ({ k with b, toB }, some msg) := by
  rw [Conn.step, h]
  rfl

end Conn

/-- What a connection is for: a FIFO channel each way, `toA` the messages written to `a` and not
yet read. -/
structure Channels where
  toA : List Msg
  toB : List Msg

def Channels.step (ch : Channels) : Event → Except FrameError (Channels × Option Msg)
  | .writeA msg => .ok ({ ch with toB := ch.toB ++ [msg] }, none)
  | .writeB msg => .ok ({ ch with toA := ch.toA ++ [msg] }, none)
  | .readA =>
    match ch.toA with
    | [] => .error .EOF
    | msg :: q => .ok ({ ch with toA := q }, some msg)
  | .readB =>
    match ch.toB with
    | [] => .error .EOF
    | msg :: q => .ok ({ ch with toB := q }, some msg)

section Refinement

variable (c : Crypto) (sn : Snappy)

/-- The connection holds on the wire each way the frames of the messages its channel holds, and
both ends have snappy as `snappy`. -/
structure Refines (snappy : Bool) (k : Conn) (ch : Channels) : Prop where
  snappyA : k.a.snappy = snappy
  snappyB : k.b.snappy = snappy
  toB : Pending c sn k.a k.b k.toB ch.toB
  toA : Pending c sn k.b k.a k.toA ch.toA

def Event.FitsFrame (snappy : Bool) : Event → Prop
  | .writeA msg | .writeB msg => Fits sn snappy msg
  | .readA | .readB => True

theorem step_refines {snappy : Bool} (hsn : snappy = true → sn.Lawful) (k : Conn) (ch : Channels)
    (e : Event) (hR : Refines c sn snappy k ch) (he : e.FitsFrame sn snappy) :
    Sim.Related (Refines c sn snappy) (k.step c sn e) (ch.step e) := by
  obtain ⟨hsa, hsb, htoB, htoA⟩ := hR
  cases e with
  | writeA msg =>
    obtain ⟨out, a, hw, hsame, hpend⟩ := htoB.push c sn (hsa ▸ he)
    rw [Conn.step_writeA c sn hw]
    exact Sim.related_ok.mpr ⟨⟨hsame.snappy.symm.trans hsa, hsb, hpend, htoA.congr c sn (.refl _) hsame⟩, rfl⟩
  | writeB msg =>
    obtain ⟨out, b, hw, hsame, hpend⟩ := htoA.push c sn (hsb ▸ he)
    rw [Conn.step_writeB c sn hw]
    exact Sim.related_ok.mpr ⟨⟨hsa, hsame.snappy.symm.trans hsb, htoB.congr c sn (.refl _) hsame, hpend⟩, rfl⟩
  | readA =>
    -- a read with nothing pending finds the wire empty
    cases hq : ch.toA with
    | nil =>
      rw [hq] at htoA
      rw [Conn.step, htoA.wire_eq_nil c sn, ReadMsg_nil, Channels.step, hq]
      rfl
    | cons msg q =>
      rw [hq] at htoA
      obtain ⟨a, rest, hr, hsame, hpend⟩ := htoA.pop c sn (fun h => hsn (hsa ▸ h))
      rw [Conn.step_readA c sn hr, Channels.step, hq]
      exact Sim.related_ok.mpr ⟨⟨hsame.snappy.symm.trans hsa, hsb, htoB.congr c sn hsame (.refl _), hpend⟩, rfl⟩
  | readB =>
    cases hq : ch.toB with
    | nil =>
      rw [hq] at htoB
      rw [Conn.step, htoB.wire_eq_nil c sn, ReadMsg_nil, Channels.step, hq]
      rfl
    | cons msg q =>
      rw [hq] at htoB
      obtain ⟨b, rest, hr, hsame, hpend⟩ := htoB.pop c sn (fun h => hsn (hsb ▸ h))
      rw [Conn.step_readB c sn hr, Channels.step, hq]
      exact Sim.related_ok.mpr ⟨⟨hsa, hsame.snappy.symm.trans hsb, hpend, htoA.congr c sn hsame (.refl _)⟩, rfl⟩

theorem Conn_run_refines_channels {snappy : Bool} (hsn : snappy = true → sn.Lawful)
    {a b : RlpxFrameRW} (hab : InStep a b) (hba : InStep b a) (hsnappy : a.snappy = snappy)
    (evs : List Event) (hevs : ∀ e ∈ evs, e.FitsFrame sn snappy) :
    Sim.Related (Refines c sn snappy) (Sim.run (Conn.step c sn) ⟨a, b, [], []⟩ evs)
      (Sim.run Channels.step ⟨[], []⟩ evs) :=
  Sim.run_related _ _ _ _ (step_refines c sn hsn) _ _ evs
    ⟨hsnappy, hab.snappy.trans hsnappy, pending_nil c sn hab, pending_nil c sn hba⟩ hevs

theorem newRLPXFrameRW_eq_some {s : Secrets} {rw : RlpxFrameRW} (h : newRLPXFrameRW s = some rw) :
    rw = ⟨s.AES, s.MAC, 0, 0, s.EgressMAC, s.IngressMAC, false⟩ := by
  unfold newRLPXFrameRW at h
  split at h
  · cases h
    rfl
  · cases h

theorem InStep_newRLPXFrameRW {sA sB : Secrets} {a b : RlpxFrameRW} (ha : newRLPXFrameRW sA = some a)
    (hb : newRLPXFrameRW sB = some b) (haes : sA.AES = sB.AES) (hmac : sA.MAC = sB.MAC)
    (hegress : sA.EgressMAC = sB.IngressMAC) (snappy : Bool) :
    InStep { a with snappy } { b with snappy } := by
  rw [newRLPXFrameRW_eq_some ha, newRLPXFrameRW_eq_some hb]
  exact ⟨haes.symm, hmac.symm, rfl, hegress.symm, rfl⟩

/-- Two ends made by `newRLPXFrameRW` from mirrored secrets, with one snappy setting, behave as two
FIFO channels along any events whose writes fit in a frame. -/
theorem newRLPXFrameRW_refines_channels {snappy : Bool} (hsn : snappy = true → sn.Lawful)
    {sA sB : Secrets} {a b : RlpxFrameRW} (ha : newRLPXFrameRW sA = some a)
    (hb : newRLPXFrameRW sB = some b) (haes : sA.AES = sB.AES) (hmac : sA.MAC = sB.MAC)
    (hegress : sA.EgressMAC = sB.IngressMAC) (hingress : sA.IngressMAC = sB.EgressMAC)
    (evs : List Event) (hevs : ∀ e ∈ evs, e.FitsFrame sn snappy) :
    Sim.Related (Refines c sn snappy)
      (Sim.run (Conn.step c sn) ⟨{ a with snappy }, { b with snappy }, [], []⟩ evs)
      (Sim.run Channels.step ⟨[], []⟩ evs) :=
  Conn_run_refines_channels c sn hsn (InStep_newRLPXFrameRW ha hb haes hmac hegress snappy)
    (InStep_newRLPXFrameRW hb ha haes.symm hmac.symm hingress.symm snappy) rfl evs hevs

end Refinement

def mirroredSecrets : Secrets × Secrets :=
  (⟨List.replicate 16 1, List.replicate 16 2, [3], [4]⟩, ⟨List.replicate 16 1, List.replicate 16 2, [4], [3]⟩)

theorem newRLPXFrameRW_refines_channels_one_message :
    (false = true → Snappy.Lawful ⟨id, fun _ => none, fun _ => none⟩) ∧
    newRLPXFrameRW mirroredSecrets.1 =
      some ⟨List.replicate 16 1, List.replicate 16 2, 0, 0, [3], [4], false⟩ ∧
    newRLPXFrameRW mirroredSecrets.2 =
      some ⟨List.replicate 16 1, List.replicate 16 2, 0, 0, [4], [3], false⟩ ∧
    mirroredSecrets.1.AES = mirroredSecrets.2.AES ∧ mirroredSecrets.1.MAC = mirroredSecrets.2.MAC ∧
    mirroredSecrets.1.EgressMAC = mirroredSecrets.2.IngressMAC ∧
    mirroredSecrets.1.IngressMAC = mirroredSecrets.2.EgressMAC ∧
    (∀ e ∈ [Event.writeA ⟨1, 1, [7]⟩, .readB], e.FitsFrame ⟨id, fun _ => none, fun _ => none⟩ false) ∧
    Sim.Related (Refines zeroCrypto ⟨id, fun _ => none, fun _ => none⟩ false)
      (Sim.run (Conn.step zeroCrypto ⟨id, fun _ => none, fun _ => none⟩)
        ⟨{ (⟨List.replicate 16 1, List.replicate 16 2, 0, 0, [3], [4], false⟩ : RlpxFrameRW) with snappy := false },
          { (⟨List.replicate 16 1, List.replicate 16 2, 0, 0, [4], [3], false⟩ : RlpxFrameRW) with snappy := false },
          [], []⟩ [.writeA ⟨1, 1, [7]⟩, .readB])
      (Sim.run Channels.step ⟨[], []⟩ [.writeA ⟨1, 1, [7]⟩, .readB]) := by
  have hevs : ∀ e ∈ [Event.writeA ⟨1, 1, [7]⟩, .readB],
      e.FitsFrame ⟨id, fun _ => none, fun _ => none⟩ false := by
    intro e he
    rcases List.mem_pair.mp he with rfl | rfl
    · exact ⟨rfl, by decide⟩
    · trivial
  have hsn : false = true → Snappy.Lawful ⟨id, fun _ => none, fun _ => none⟩ := nofun
  have ha : newRLPXFrameRW mirroredSecrets.1 =
      some ⟨List.replicate 16 1, List.replicate 16 2, 0, 0, [3], [4], false⟩ := rfl
  have hb : newRLPXFrameRW mirroredSecrets.2 =
      some ⟨List.replicate 16 1, List.replicate 16 2, 0, 0, [4], [3], false⟩ := rfl
  exact ⟨hsn, ha, hb, rfl, rfl, rfl, rfl, hevs,
    newRLPXFrameRW_refines_channels zeroCrypto _ hsn ha hb rfl rfl rfl rfl _ hevs⟩

end Zerium.P2p
