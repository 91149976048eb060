import Zerium.Rlp.Inversion

/-! # Decoding is canonical

Whatever `DecodeBytes` accepts is the encoding of the value it returns: a value tree, a
`uint64` or a `*big.Int`. Each decoder that succeeds has consumed exactly the encoding of
its result, so the encoder gives the input back, and no value has two accepted encodings.
-/

namespace Zerium.Rlp

set_option autoImplicit false

def Consumes (s : Stream) (enc : List UInt8) (s' : Stream) : Prop :=
  s.r = enc ++ s'.r ∧ ∃ byteval size, s' = consumed s enc.length s'.r byteval size

section Consumes

variable {s t u : Stream} {a b : List UInt8}

theorem Consumes.kind (h : Consumes s a t) : t.kind = none := by
  obtain ⟨-, byteval, size, ht⟩ := h
  rw [ht]
  rfl

theorem Consumes.nil (hk : s.kind = none) : Consumes s [] { s with kinderr := none } :=
  ⟨rfl, s.byteval, s.size, consumed_zero s hk rfl⟩

theorem Consumes.trans (h₁ : Consumes s a t) (h₂ : Consumes t b u) : Consumes s (a ++ b) u := by
  obtain ⟨hr₁, b₁, n₁, ht⟩ := h₁
  obtain ⟨hr₂, b₂, n₂, hu⟩ := h₂
  refine ⟨by rw [hr₁, hr₂, List.append_assoc], b₂, n₂, ?_⟩
  calc u = consumed t b.length u.r b₂ n₂ := hu
    _ = consumed s (a ++ b).length u.r b₂ n₂ := by rw [ht, consumed_consumed, List.length_append]

end Consumes

/-! ## `EOL` ends a list and nothing else -/

theorem addErrorContext_ne_EOL {e : Error} (he : e ≠ .EOL) (ctx : String) :
    addErrorContext e ctx ≠ .EOL := by
  cases e <;> simp_all [addErrorContext]

theorem decodeSliceElems_ne_EOL {α : Type} (elemdec : StreamM α) :
    ∀ (loop i : Nat) (t t' : Stream), decodeSliceElems elemdec loop i t ≠ .error .EOL t' := by
  intro loop
  induction loop with
  | zero =>
    intro i t t' h
    simp [decodeSliceElems] at h
  | succ loop ih =>
    intro i t t' h
    simp only [decodeSliceElems] at h
    split at h
    · cases h
    · rename_i e t₁ hne hel
      simp only [EStateM.Result.error.injEq] at h
      exact addErrorContext_ne_EOL (fun he => hne he) _ h.1
    · split at h
      · cases h
      · rename_i t₂ hrest
        cases h
        exact ih (i + 1) _ _ hrest

theorem decodeListSlice_ne_EOL {α : Type} (elemdec : StreamM α) (typ : String) (fuel : Nat)
    {s s' : Stream} {hdr n : Nat} {r : List UInt8} :
    decodeListSlice elemdec typ fuel (afterHeader s hdr r 0 .List n) ≠ .error .EOL s' := by
  intro h
  unfold decodeListSlice at h
  rw [bind_apply_ok (adaptExcept_apply_ok (List_afterHeader s hdr r n))] at h
  split_ifs at h
  · rcases bind_apply_eq_error h with he | ⟨u, s₁, -, hp⟩
    · exact ListEnd_ne_EOL he
    · cases hp
  · rcases bind_apply_eq_error h with he | ⟨vs, s₁, -, hrest⟩
    · exact decodeSliceElems_ne_EOL elemdec fuel 0 _ _ he
    · rcases bind_apply_eq_error hrest with he | ⟨u, s₂, -, hp⟩
      · exact ListEnd_ne_EOL he
      · cases hp

theorem decodeInterface_EOL_inv {s s' : Stream} :
    ∀ fuel, s.kind = none → decodeInterface fuel s = .error .EOL s' → s' = { s with kinderr := none }
  | 0, _, h => by simp [decodeInterface] at h
  | fuel + 1, hk, h => by
    unfold decodeInterface at h
    rcases bind_apply_eq_error h with hK | ⟨⟨k, n⟩, s₁, hK, hc⟩
    · exact Kind_EOL_inv hk hK
    · obtain ⟨byteval, r, -, hhd, rfl⟩ := Kind_inv hk hK
      dsimp only at hc
      split_ifs at hc with hkL
      · subst hkL
        obtain ⟨rfl, -⟩ := hhd
        rcases bind_apply_eq_error hc with hl | ⟨vs, s₂, -, hp⟩
        · exact absurd hl (decodeListSlice_ne_EOL _ _ _)
        · cases hp
      · rcases bind_apply_eq_error hc with hb | ⟨b, s₂, -, hp⟩
        · exact absurd hb Bytes_afterHeader_ne_EOL
        · cases hp

/-! ## Value trees -/

theorem decodeSliceElems_inv {elemdec : StreamM Value}
    (hok : ∀ t v t', t.kind = none → elemdec t = .ok v t' → Consumes t v.encoding t' ∧ v.Sized)
    (heol : ∀ t t', t.kind = none → elemdec t = .error .EOL t' → t' = { t with kinderr := none }) :
    ∀ (loop i : Nat) (t t' : Stream) (vs : List Value), t.kind = none →
      decodeSliceElems elemdec loop i t = .ok vs t' →
      Consumes t (Value.payload vs) t' ∧ Value.SizedList vs := by
  intro loop
  induction loop with
  | zero =>
    intro i t t' vs _ h
    simp [decodeSliceElems] at h
  | succ loop ih =>
    intro i t t' vs hk h
    simp only [decodeSliceElems] at h
    split at h
    · rename_i t₁ hel
      cases h
      rw [heol t _ hk hel, payload_nil]
      exact ⟨Consumes.nil hk, trivial⟩
    · cases h
    · rename_i v t₁ hel
      split at h
      · rename_i vs' t₂ hrest
        cases h
        obtain ⟨hc, hsized⟩ := hok t v t₁ hk hel
        obtain ⟨hcs, hsizeds⟩ := ih (i + 1) t₁ t' vs' hc.kind hrest
        refine ⟨?_, hsized, hsizeds⟩
        rw [payload_cons]
        exact hc.trans hcs
      · cases h

theorem decodeListSlice_inv {elemdec : StreamM Value} {typ : String} {fuel hdr n : Nat}
    {r : List UInt8} {vs : List Value} {s s' : Stream}
    (hslice : ∀ (t t' : Stream) (vs₁ : List Value), t.kind = none →
      decodeSliceElems elemdec fuel 0 t = .ok vs₁ t' →
      Consumes t (Value.payload vs₁) t' ∧ Value.SizedList vs₁)
    (h : decodeListSlice elemdec typ fuel (afterHeader s hdr r 0 .List n) = .ok vs s') :
    (Value.payload vs).length = n ∧ r = Value.payload vs ++ s'.r ∧ Value.SizedList vs ∧
      ∃ byteval, s' = consumed s (hdr + n) s'.r byteval 0 := by
  unfold decodeListSlice at h
  rw [bind_apply_ok (adaptExcept_apply_ok (List_afterHeader s hdr r n))] at h
  split_ifs at h with hn
  · subst hn
    obtain ⟨u, s₁, hend, hp⟩ := bind_apply_eq_ok h
    rw [ListEnd_empty] at hend
    cases hend
    cases hp
    exact ⟨rfl, by rw [payload_nil]; rfl, trivial, 0, rfl⟩
  · obtain ⟨vs', s₁, hel, h⟩ := bind_apply_eq_ok h
    obtain ⟨u, s₂, hend, hp⟩ := bind_apply_eq_ok h
    cases hp
    obtain ⟨⟨hr, byteval, size, hs₁⟩, hsized⟩ := hslice _ _ _ rfl hel
    have hlen : (Value.payload vs).length = n := by
      obtain ⟨tos, rest, hst, hpos⟩ := ListEnd_inv hend
      have hst' : s₁.stack = ⟨0 + (Value.payload vs).length, n⟩ :: (s.charge hdr).stack := by
        rw [hs₁]
        rfl
      rw [hst'] at hst
      obtain ⟨rfl, -⟩ := List.cons.inj hst
      simpa using hpos
    rw [hs₁, hlen, ListEnd_consumed] at hend
    cases hend
    exact ⟨hlen, hr, hsized, byteval, rfl⟩

theorem decodeInterface_inv : ∀ (fuel : Nat) {s s' : Stream} {v : Value}, s.kind = none →
    decodeInterface fuel s = .ok v s' → Consumes s v.encoding s' ∧ v.Sized
  | 0, _, _, _, _, h => by simp [decodeInterface] at h
  | fuel + 1, s, s', v, hk, h => by
    unfold decodeInterface at h
    obtain ⟨⟨k, n⟩, s₁, hK, hc⟩ := bind_apply_eq_ok h
    obtain ⟨byteval, r, hr, hhd, rfl⟩ := Kind_inv hk hK
    dsimp only at hc
    split_ifs at hc with hkL
    · subst hkL
      obtain ⟨rfl, hn⟩ := hhd
      obtain ⟨vs, s₂, hls, hp⟩ := bind_apply_eq_ok hc
      cases hp
      -- the items of the list are decoded by `decodeInterface fuel`
      obtain ⟨hlen, hr', hsized, byteval', hs₂⟩ := decodeListSlice_inv
        (decodeSliceElems_inv (fun t v t' ht hv => decodeInterface_inv fuel ht hv)
          (fun t t' ht he => decodeInterface_EOL_inv fuel ht he) fuel 0) hls
      refine ⟨⟨?_, byteval', 0, ?_⟩, hlen ▸ hn, hsized⟩
      · rw [hr, hr', encoding_list, hlen, List.append_assoc]
        rfl
      · rw [encoding_list, List.length_append, hlen]
        exact hs₂
    · obtain ⟨b, s₂, hb, hp⟩ := bind_apply_eq_ok hc
      cases hp
      obtain ⟨hr', hlen, hs₂⟩ := Bytes_afterHeader_inv hhd hb
      refine ⟨⟨?_, byteval, n, ?_⟩, hlen⟩
      · rw [hr, hr', encoding_bytes]
      · rw [encoding_bytes]
        exact hs₂

/-! ## Strings and integers -/

theorem Bytes_inv {s s' : Stream} {b : List UInt8} (hk : s.kind = none)
    (h : Stream.Bytes s = .ok b s') : Consumes s (stringEncoding b) s' ∧ b.length < 2 ^ 64 := by
  have hbytes := h
  unfold Stream.Bytes at hbytes
  obtain ⟨⟨k, n⟩, s₁, hK, hcont⟩ := bind_apply_eq_ok hbytes
  obtain ⟨byteval, r, hr, hhd, rfl⟩ := Kind_inv hk hK
  -- the rest of `Bytes` runs on the cached header
  have hcached : Stream.Bytes (afterHeader s (kindHeader k n byteval).length r byteval k n) =
      .ok b s' := by
    unfold Stream.Bytes
    rw [bind_apply_ok (Kind_cached _ k rfl rfl)]
    exact hcont
  obtain ⟨hr', hlen, hs'⟩ := Bytes_afterHeader_inv hhd hcached
  exact ⟨⟨by rw [hr, hr'], byteval, n, hs'⟩, hlen⟩

theorem decodeBigInt_inv {typ : String} {s s' : Stream} {i : Int} (hk : s.kind = none)
    (h : decodeBigInt typ s = .ok i s') :
    Consumes s (uintEncoding i.toNat) s' ∧ 0 ≤ i ∧ (BigEndian.ofNat i.toNat).length < 2 ^ 64 := by
  unfold decodeBigInt at h
  obtain ⟨b, s₁, hb, h⟩ := bind_apply_eq_ok h
  obtain ⟨hc, hlen⟩ := Bytes_inv hk (adaptExcept_apply_eq_ok hb)
  by_cases hz : b.head? = some 0
  · simp only [hz, if_true] at h
    rw [bind_apply_error (throw_apply _ _)] at h
    cases h
  · simp only [hz, if_false] at h
    cases h
    have hb' : BigEndian.ofNat (BigEndian.toNat b) = b := BigEndian.ofNat_toNat b hz
    simp only [Int.toNat_natCast, uintEncoding, hb']
    exact ⟨hc, Int.natCast_nonneg _, hlen⟩

theorem readUint_canonical_inv {t t' : Stream} {n v : Nat} (hn : n ≤ 8)
    (hcanon : ¬ (n > 0 ∧ v < 128)) (h : Stream.readUint n t = .ok v t') :
    ∃ bs, t.r = bs ++ t'.r ∧ bs.length = n ∧ uintEncoding v = header 0x80 0xB7 n ++ bs ∧
      v < 2 ^ 64 ∧ t' = { t.charge n with r := t'.r } := by
  by_cases hz : n = 0
  · subst hz
    simp only [Stream.readUint, if_true] at h
    cases h
    have hcharge : t.charge 0 = { t with kind := none } := charge_zero { t with kind := none } rfl
    refine ⟨[], rfl, rfl, by rw [uintEncoding_zero, List.append_nil], by norm_num, ?_⟩
    rw [hcharge]
  · obtain ⟨bs, hr, hlen, hhead, rfl, ht', -⟩ := readUint_inv hz h
    have hlarge : 128 ≤ BigEndian.toNat bs := by omega
    -- a single byte of at least 128 is not zero either
    have hhead' : bs.head? ≠ some 0 := by
      by_cases h1 : n = 1
      · obtain ⟨x, rfl⟩ := List.length_eq_one_iff.mp (hlen.trans h1)
        rintro ⟨⟩
        simp [BigEndian.toNat] at hlarge
      · exact hhead h1
    have hsingle : ¬ (bs.length = 1 ∧ bs.headD 0 < 0x80) := by
      rintro ⟨h1, hx⟩
      obtain ⟨x, rfl⟩ := List.length_eq_one_iff.mp h1
      simp only [BigEndian.toNat, List.foldl_cons, List.foldl_nil, Nat.zero_mul, Nat.zero_add] at hlarge
      simp only [List.headD_cons, UInt8.lt_iff_toNat_lt] at hx
      exact absurd hx (by simp; omega)
    have henc : uintEncoding (BigEndian.toNat bs) = header 0x80 0xB7 n ++ bs := by
      rw [uintEncoding, BigEndian.ofNat_toNat bs hhead', stringEncoding_of_not_single bs hsingle, hlen]
    refine ⟨bs, hr, hlen, henc, ?_, ht'⟩
    calc BigEndian.toNat bs < 256 ^ bs.length := BigEndian.toNat_lt_pow bs
      _ ≤ 256 ^ 8 := Nat.pow_le_pow_right (by norm_num) (by omega)
      _ = 2 ^ 64 := by norm_num

theorem uint_inv {maxbits v : Nat} {s s' : Stream} (hbits : maxbits ≤ 64) (hk : s.kind = none)
    (h : Stream.uint maxbits s = .ok v s') : Consumes s (uintEncoding v) s' ∧ v < 2 ^ 64 := by
  unfold Stream.uint at h
  obtain ⟨⟨k, n⟩, s₁, hK, h⟩ := bind_apply_eq_ok h
  obtain ⟨byteval, r, hr, hhd, rfl⟩ := Kind_inv hk hK
  cases k with
  | Byte =>
    obtain ⟨hbyte, rfl⟩ := hhd
    dsimp only at h
    rw [bind_apply_ok (get_apply _)] at h
    split_ifs at h with hz
    · rw [bind_apply_error (throw_apply _ _)] at h
      cases h
    · cases h
      change Consumes s (uintEncoding byteval.toNat) _ ∧ byteval.toNat < 2 ^ 64
      -- a single byte below 0x80, and not zero
      have hz' : byteval ≠ 0 := hz
      have hpos : byteval.toNat ≠ 0 := fun h0 => hz' (UInt8.toNat_inj.mp (by rw [h0]; rfl))
      have hsmall : byteval.toNat < 128 := by simpa [UInt8.lt_iff_toNat_lt] using hbyte
      have henc : uintEncoding byteval.toNat = [byteval] := by
        rw [uintEncoding_small _ (by omega) hsmall, UInt8.ofNat_toNat]
      refine ⟨⟨?_, byteval, 0, ?_⟩, by omega⟩
      · rw [hr, henc]
        rfl
      · rw [henc]
        rfl
  | String =>
    obtain ⟨rfl, hn⟩ := hhd
    dsimp only at h
    by_cases hover : n > maxbits / 8
    · simp only [hover, if_true] at h
      rw [bind_apply_error (throw_apply _ _)] at h
      cases h
    · simp only [hover, if_false] at h
      obtain ⟨v', s₂, hu, h⟩ := bind_apply_eq_ok h
      split_ifs at h with hcanon
      · rw [bind_apply_error (throw_apply _ _)] at h
        cases h
      · cases h
        obtain ⟨bs, hr', hlen, henc, hlt, hs₂⟩ :=
          readUint_canonical_inv (by omega) hcanon (adaptExcept_apply_eq_ok hu)
        refine ⟨⟨?_, 0, n, ?_⟩, hlt⟩
        · rw [hr, henc, List.append_assoc, ← hr']
          rfl
        · rw [henc, List.length_append, hlen, hs₂, charge_afterHeader]
          rfl
  | List => cases h

theorem decodeUint_inv {bits : Nat} {typ : String} {s s' : Stream} {n : UInt64}
    (h : decodeUint bits typ s = .ok n s') : ∃ v, Stream.uint bits s = .ok v s' ∧ n = UInt64.ofNat v := by
  unfold decodeUint at h
  obtain ⟨v, s₁, hu, hp⟩ := bind_apply_eq_ok h
  cases hp
  exact ⟨v, adaptExcept_apply_eq_ok hu, rfl⟩

/-! ## `DecodeBytes` -/

theorem DecodeBytes_inv {α : Type} {dec : StreamM α} {typ : String} {b : List UInt8} {v : α}
    (h : DecodeBytes dec typ b = .ok v) :
    ∃ s', dec (NewStream b b.length) = .ok v s' ∧ s'.r = [] := by
  unfold DecodeBytes Stream.Decode at h
  split at h
  · cases h
  · rename_i v' s' hdec
    -- trailing input is `ErrMoreThanOneValue`
    split_ifs at h with hlen
    cases h
    exact ⟨s', adaptExcept_apply_eq_ok hdec, List.eq_nil_of_length_eq_zero (by omega)⟩

theorem Consumes.eq_input {b enc : List UInt8} {s' : Stream}
    (h : Consumes (NewStream b b.length) enc s') (hr : s'.r = []) : enc = b := by
  have := h.1
  rw [hr, List.append_nil] at this
  exact this.symm

theorem decodeBytesInterface_inv {b : List UInt8} {x : Value} (h : decodeBytesInterface b = .ok x) :
    x.encoding = b ∧ x.Sized := by
  obtain ⟨s', hdec, hr⟩ := DecodeBytes_inv h
  obtain ⟨hc, hsized⟩ := decodeInterface_inv _ rfl hdec
  exact ⟨hc.eq_input hr, hsized⟩

theorem decodeBytesUint64_inv {b : List UInt8} {n : UInt64} (h : decodeBytesUint64 b = .ok n) :
    uintEncoding n.toNat = b := by
  obtain ⟨s', hdec, hr⟩ := DecodeBytes_inv h
  obtain ⟨v, hu, rfl⟩ := decodeUint_inv hdec
  obtain ⟨hc, hlt⟩ := uint_inv (le_refl 64) rfl hu
  rw [UInt64.toNat_ofNat_of_lt' hlt]
  exact hc.eq_input hr

theorem decodeBytesBigInt_inv {b : List UInt8} {i : Int} (h : decodeBytesBigInt b = .ok i) :
    uintEncoding i.toNat = b ∧ 0 ≤ i ∧ (BigEndian.ofNat i.toNat).length < 2 ^ 64 := by
  obtain ⟨s', hdec, hr⟩ := DecodeBytes_inv h
  obtain ⟨hc, hi, hlen⟩ := decodeBigInt_inv rfl hdec
  exact ⟨hc.eq_input hr, hi, hlen⟩

/-- RLP decoding is canonical: what `DecodeBytes` accepts into a value tree, a `uint64` or a
`*big.Int` is exactly what `EncodeToBytes` produces for the result, so no value has two
accepted encodings. -/
theorem encodeToBytes_decodeBytes :
    (∀ (b : List UInt8) (x : Value), decodeBytesInterface b = .ok x →
      EncodeToBytes (fun v w => .ok (writeValue v w)) x = .ok b) ∧
    (∀ (b : List UInt8) (n : UInt64), decodeBytesUint64 b = .ok n →
      EncodeToBytes (fun n w => .ok (writeUint n w)) n = .ok b) ∧
    (∀ (b : List UInt8) (i : Int), decodeBytesBigInt b = .ok i →
      EncodeToBytes writeBigIntPtr (some i) = .ok b) ∧
    (∀ (b₁ b₂ : List UInt8) (x : Value), decodeBytesInterface b₁ = .ok x →
      decodeBytesInterface b₂ = .ok x → b₁ = b₂) ∧
    (∀ (b₁ b₂ : List UInt8) (n : UInt64), decodeBytesUint64 b₁ = .ok n →
      decodeBytesUint64 b₂ = .ok n → b₁ = b₂) ∧
    (∀ (b₁ b₂ : List UInt8) (i : Int), decodeBytesBigInt b₁ = .ok i →
      decodeBytesBigInt b₂ = .ok i → b₁ = b₂) := by
  refine ⟨fun b x h => ?_, fun b n h => ?_, fun b i h => ?_, fun b₁ b₂ x h₁ h₂ => ?_,
    fun b₁ b₂ n h₁ h₂ => ?_, fun b₁ b₂ i h₁ h₂ => ?_⟩
  · obtain ⟨henc, hsized⟩ := decodeBytesInterface_inv h
    rw [encodeToBytes_value x hsized, henc]
  · rw [← decodeBytesUint64_inv h]
    simp only [EncodeToBytes, writeUint_eq]
    rfl
  · obtain ⟨henc, hi, hlen⟩ := decodeBytesBigInt_inv h
    rw [← henc]
    simp only [EncodeToBytes, writeBigIntPtr_eq i Encbuf.empty hi hlen]
    rfl
  · rw [← (decodeBytesInterface_inv h₁).1, ← (decodeBytesInterface_inv h₂).1]
  · rw [← decodeBytesUint64_inv h₁, ← decodeBytesUint64_inv h₂]
  · rw [← (decodeBytesBigInt_inv h₁).1, ← (decodeBytesBigInt_inv h₂).1]

theorem encodeToBytes_decodeBytes_cat_dog :
    decodeBytesInterface [0xc8, 0x83, 0x63, 0x61, 0x74, 0x83, 0x64, 0x6f, 0x67] =
        .ok (.list [.bytes [0x63, 0x61, 0x74], .bytes [0x64, 0x6f, 0x67]]) ∧
      EncodeToBytes (fun v w => .ok (writeValue v w))
        (Value.list [.bytes [0x63, 0x61, 0x74], .bytes [0x64, 0x6f, 0x67]]) =
        .ok [0xc8, 0x83, 0x63, 0x61, 0x74, 0x83, 0x64, 0x6f, 0x67] ∧
      decodeBytesUint64 [0x82, 0x04, 0x00] = .ok 1024 ∧
      EncodeToBytes (fun n w => .ok (writeUint n w)) (1024 : UInt64) = .ok [0x82, 0x04, 0x00] ∧
      decodeBytesBigInt [0x82, 0x04, 0x00] = .ok 1024 ∧
      EncodeToBytes writeBigIntPtr (some 1024) = .ok [0x82, 0x04, 0x00] := by
  have hv : decodeBytesInterface [0xc8, 0x83, 0x63, 0x61, 0x74, 0x83, 0x64, 0x6f, 0x67] =
      .ok (.list [.bytes [0x63, 0x61, 0x74], .bytes [0x64, 0x6f, 0x67]]) := by decide +kernel
  have hn : decodeBytesUint64 [0x82, 0x04, 0x00] = .ok 1024 := by rfl
  have hi : decodeBytesBigInt [0x82, 0x04, 0x00] = .ok 1024 := by rfl
  exact ⟨hv, encodeToBytes_decodeBytes.1 _ _ hv, hn, encodeToBytes_decodeBytes.2.1 _ _ hn, hi,
    encodeToBytes_decodeBytes.2.2.1 _ _ hi⟩

end Zerium.Rlp
