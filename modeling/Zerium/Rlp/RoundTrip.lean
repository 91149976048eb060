import Zerium.Rlp.Deferred
import Zerium.Rlp.Reading
import Zerium.Rlp.Decode

/-! # Decoding the encoding gives the value back

`Kind` reads each canonical header, `Bytes` returns the string after it, and a list is
entered with `List`, its items decoded until `EOL`, and left with `ListEnd`. Each decoder
started on a value's encoding consumes exactly that encoding, charged to the innermost
open list and the input limit, so `DecodeBytes` of an encoding returns the value and no
trailing data.
-/

namespace Zerium.Rlp

set_option autoImplicit false

/-! ## `Kind` on a fresh header -/

theorem readKindChecked_ok (s s₁ : Stream) (kind : Kind) (n : Nat)
    (hread : Stream.readKind s = ((kind, n, none), s₁)) (hfit : s₁.Room n) :
    Stream.readKindChecked s = .ok (kind, n) { s₁ with kind := some kind, size := n, kinderr := none } := by
  obtain ⟨hstack, hlimit⟩ := hfit
  unfold Stream.readKindChecked
  rw [hread]
  cases hst : s₁.stack with
  | nil =>
    have hfits : ¬ (s₁.limited = true ∧ n > s₁.remaining) := by
      rintro ⟨hl, hgt⟩
      exact absurd (hlimit hl) (Nat.not_le.mpr hgt)
    simp only [hst, if_neg hfits]
  | cons tos rest =>
    have hfits : ¬ n > tos.size - tos.pos := Nat.not_lt.mpr (hstack tos rest hst)
    simp only [hst, if_neg hfits]

theorem Kind_fresh (s : Stream) (hk : s.kind = none)
    (hpos : ∀ tos rest, s.stack = tos :: rest → tos.pos < tos.size) :
    Stream.Kind s = Stream.readKindChecked { s with kinderr := none } := by
  unfold Stream.Kind
  rw [hk]
  cases hst : s.stack with
  | nil => rfl
  | cons tos rest =>
    have hne : tos.pos ≠ tos.size := Nat.ne_of_lt (hpos tos rest hst)
    simp only [hst, if_neg hne]

theorem Kind_cached (s : Stream) (kind : Kind) (hk : s.kind = some kind) (he : s.kinderr = none) :
    Stream.Kind s = .ok (kind, s.size) s := by
  unfold Stream.Kind
  rw [hk, he]

theorem Stream.Room.pos_lt {s : Stream} {n : Nat} (h : s.Room n) (hn : 0 < n) :
    ∀ tos rest, s.stack = tos :: rest → tos.pos < tos.size := by
  intro tos rest hst
  have := h.1 tos rest hst
  omega

def afterHeader (s : Stream) (hdr : Nat) (rest : List UInt8) (byteval : UInt8)
    (kind : Kind) (n : Nat) : Stream :=
  { s.charge hdr with r := rest, byteval, kind := some kind, size := n, kinderr := none }

theorem Kind_single (s : Stream) (hk : s.kind = none) (x : UInt8) (rest : List UInt8)
    (hx : x < 0x80) (hr : s.r = x :: rest) (h : s.Room 1) :
    Stream.Kind s = .ok (.Byte, 0) (afterHeader s 1 rest x .Byte 0) := by
  rw [Kind_fresh s hk (h.pos_lt (by decide))]
  exact readKindChecked_ok _ _ _ _ (readKind_single { s with kinderr := none } x rest hx hr h)
    ⟨fun _ _ _ => Nat.zero_le _, fun _ => Nat.zero_le _⟩

theorem Kind_stringHeader (s : Stream) (hk : s.kind = none) (n : Nat) (rest : List UInt8)
    (hn : n < 2 ^ 64) (hr : s.r = header 0x80 0xB7 n ++ rest)
    (h : s.Room ((header 0x80 0xB7 n).length + n)) :
    Stream.Kind s = .ok (.String, n) (afterHeader s (header 0x80 0xB7 n).length rest 0 .String n) := by
  have hpos := h.pos_lt (by have := List.length_pos_iff.mpr (header_ne_nil 0x80 0xB7 n); omega)
  rw [Kind_fresh s hk hpos]
  exact readKindChecked_ok _ _ _ _
    (readKind_stringHeader { s with kinderr := none } n rest hn hr h.left) h.charge

theorem Kind_listHeader (s : Stream) (hk : s.kind = none) (n : Nat) (rest : List UInt8)
    (hn : n < 2 ^ 64) (hr : s.r = header 0xC0 0xF7 n ++ rest)
    (h : s.Room ((header 0xC0 0xF7 n).length + n)) :
    Stream.Kind s = .ok (.List, n) (afterHeader s (header 0xC0 0xF7 n).length rest 0 .List n) := by
  have hpos := h.pos_lt (by have := List.length_pos_iff.mpr (header_ne_nil 0xC0 0xF7 n); omega)
  rw [Kind_fresh s hk hpos]
  exact readKindChecked_ok _ _ _ _
    (readKind_listHeader { s with kinderr := none } n rest hn hr h.left) h.charge

/-! ## Strings -/

def consumed (s : Stream) (n : Nat) (rest : List UInt8) (byteval : UInt8) (size : Nat) : Stream :=
  { s.charge n with r := rest, byteval, size, kinderr := none }

theorem charge_afterHeader (s : Stream) (hdr m : Nat) (r rest : List UInt8) (byteval : UInt8)
    (kind : Kind) (n : Nat) :
    { (afterHeader s hdr r byteval kind n).charge m with r := rest } =
      consumed s (hdr + m) rest byteval n := by
  unfold afterHeader consumed
  rw [← charge_charge]
  rfl

theorem Bytes_afterHeader_byte (s : Stream) (rest : List UInt8) (x : UInt8) :
    Stream.Bytes (afterHeader s 1 rest x .Byte 0) = .ok [x] (consumed s 1 rest x 0) := by
  unfold Stream.Bytes
  rw [bind_apply_ok (Kind_cached _ .Byte rfl rfl)]
  rfl

theorem Bytes_afterHeader_string (s : Stream) (hdr : Nat) (b rest : List UInt8)
    (h : s.Room (hdr + b.length)) (hcanon : ¬ (b.length = 1 ∧ b.headD 0 < 128)) :
    Stream.Bytes (afterHeader s hdr (b ++ rest) 0 .String b.length) =
      .ok b (consumed s (hdr + b.length) rest 0 b.length) := by
  have hroom : (afterHeader s hdr (b ++ rest) 0 .String b.length).Room b.length := h.charge
  unfold Stream.Bytes
  rw [bind_apply_ok (Kind_cached _ .String rfl rfl)]
  show (Stream.readFull b.length >>= fun b' =>
    if b.length = 1 ∧ b'.headD 0 < 128 then throw .ErrCanonSize else pure b') _ = _
  rw [bind_apply_ok (readFull_ok _ b rest rfl hroom), if_neg hcanon, pure_apply,
    charge_afterHeader]

theorem string_decoding (s : Stream) (hk : s.kind = none) (b rest : List UInt8)
    (hb : b.length < 2 ^ 64) (hr : s.r = stringEncoding b ++ rest)
    (h : s.Room (stringEncoding b).length) :
    ∃ kind n s₁ byteval, kind ≠ .List ∧ Stream.Kind s = .ok (kind, n) s₁ ∧
      s₁.kind = some kind ∧ s₁.kinderr = none ∧ s₁.size = n ∧
      Stream.Bytes s₁ = .ok b (consumed s (stringEncoding b).length rest byteval n) := by
  by_cases hsingle : b.length = 1 ∧ b.headD 0 < 0x80
  · obtain ⟨hlen, hsmall⟩ := hsingle
    obtain ⟨x, rfl⟩ := List.length_eq_one_iff.mp hlen
    have hx : x < 0x80 := by simpa using hsmall
    rw [stringEncoding_singleton, if_pos hx] at hr h ⊢
    exact ⟨.Byte, 0, _, x, by decide, Kind_single s hk x rest hx (by simpa using hr) h, rfl, rfl,
      rfl, Bytes_afterHeader_byte s rest x⟩
  · have henc : stringEncoding b = header 0x80 0xB7 b.length ++ b := by
      by_cases hlen : b.length = 1
      · obtain ⟨x, rfl⟩ := List.length_eq_one_iff.mp hlen
        have hx : ¬ x < 0x80 := fun hx => hsingle ⟨rfl, by simpa using hx⟩
        rw [stringEncoding_singleton, if_neg hx]
        rfl
      · exact stringEncoding_of_length_ne_one b hlen
    rw [henc] at hr h ⊢
    rw [List.append_assoc] at hr
    have hroom : s.Room ((header 0x80 0xB7 b.length).length + b.length) := by
      simpa using h
    have hcanon : ¬ (b.length = 1 ∧ b.headD 0 < 128) := hsingle
    refine ⟨.String, b.length, _, 0, by decide, Kind_stringHeader s hk b.length (b ++ rest) hb hr hroom,
      rfl, rfl, rfl, ?_⟩
    rw [Bytes_afterHeader_string s _ b rest hroom hcanon, List.length_append]

theorem Bytes_stringEncoding (s : Stream) (hk : s.kind = none) (b rest : List UInt8)
    (hb : b.length < 2 ^ 64) (hr : s.r = stringEncoding b ++ rest)
    (h : s.Room (stringEncoding b).length) :
    ∃ byteval n, Stream.Bytes s = .ok b (consumed s (stringEncoding b).length rest byteval n) := by
  obtain ⟨kind, n, s₁, byteval, -, hkind, hk₁, he₁, hn₁, hbytes⟩ := string_decoding s hk b rest hb hr h
  refine ⟨byteval, n, ?_⟩
  have hsame : Stream.Bytes s = Stream.Bytes s₁ := by
    unfold Stream.Bytes
    rw [bind_apply_ok hkind, bind_apply_ok (Kind_cached s₁ kind hk₁ he₁), hn₁]
  rw [hsame, hbytes]

/-! ## Lists -/

theorem Kind_eol (s : Stream) (hk : s.kind = none) (tos : Listpos) (rest : List Listpos)
    (hst : s.stack = tos :: rest) (hend : tos.pos = tos.size) :
    Stream.Kind s = .error .EOL { s with kinderr := none } := by
  unfold Stream.Kind
  rw [hk]
  simp only [hst, if_pos hend]

/-- After `List`, the innermost list is the new one, empty so far. -/
def enterList (t : Stream) (n : Nat) : Stream :=
  { t with stack := ⟨0, n⟩ :: t.stack, kind := none, size := 0 }

theorem List_afterHeader (s : Stream) (hdr : Nat) (r : List UInt8) (n : Nat) :
    Stream.List (afterHeader s hdr r 0 .List n) = .ok n (enterList (afterHeader s hdr r 0 .List n) n) := by
  unfold Stream.List
  rw [bind_apply_ok (Kind_cached _ .List rfl rfl)]
  rfl

theorem ListEnd_full (t : Stream) (p : Nat) (outer : List Listpos)
    (ht : t.stack = ⟨p, p⟩ :: outer) :
    Stream.ListEnd t = .ok () { t with stack := Listpos.closeInto p outer, kind := none, size := 0 } := by
  unfold Stream.ListEnd
  simp only [bind_apply_ok (get_apply t), ht, ne_eq, not_true_eq_false, if_false]
  rfl

theorem closeInto_charge_stack (s : Stream) (hdr p : Nat) :
    Listpos.closeInto p (s.charge hdr).stack = (s.charge (hdr + p)).stack := by
  cases s with
  | mk r remaining limited kind size byteval kinderr stack =>
    cases stack <;> simp [Listpos.closeInto, Stream.charge, Nat.add_assoc]

theorem ListEnd_consumed (s : Stream) (hdr p : Nat) (r rest : List UInt8) (byteval : UInt8)
    (size : Nat) :
    Stream.ListEnd (consumed (enterList (afterHeader s hdr r 0 .List p) p) p rest byteval size) =
      .ok () (consumed s (hdr + p) rest byteval 0) := by
  rw [ListEnd_full _ p (s.charge hdr).stack (by simp [consumed, enterList, afterHeader, Stream.charge]),
    closeInto_charge_stack]
  cases s with
  | mk r remaining limited kind size bv kinderr stack =>
    cases limited <;> simp [consumed, enterList, afterHeader, Stream.charge, Nat.sub_sub]

theorem ListEnd_empty (s : Stream) (hdr : Nat) (rest : List UInt8) :
    Stream.ListEnd (enterList (afterHeader s hdr rest 0 .List 0) 0) =
      .ok () (consumed s hdr rest 0 0) := by
  rw [ListEnd_full _ 0 (s.charge hdr).stack rfl, closeInto_charge_stack]
  rfl

theorem length_le_payload (vs : List Value) : vs.length ≤ (Value.payload vs).length := by
  induction vs with
  | nil => simp
  | cons v vs ih =>
    have := List.length_pos_iff.mpr (encoding_ne_nil v)
    simp only [List.length_cons, payload_cons, List.length_append]
    omega

theorem payload_eq_nil_iff (vs : List Value) : Value.payload vs = [] ↔ vs = [] := by
  cases vs with
  | nil => simp
  | cons v vs => simp [encoding_ne_nil]

theorem consumed_charge (s : Stream) (m k : Nat) (r : List UInt8) (byteval : UInt8) (n : Nat) :
    (consumed s m r byteval n).charge k = { s.charge (m + k) with r, byteval, size := n, kinderr := none } := by
  unfold consumed
  rw [← charge_charge]
  rfl

theorem consumed_consumed (s : Stream) (m k : Nat) (r rest : List UInt8) (b₁ b₂ : UInt8)
    (n₁ n₂ : Nat) : consumed (consumed s m r b₁ n₁) k rest b₂ n₂ = consumed s (m + k) rest b₂ n₂ := by
  unfold consumed
  rw [show ({ s.charge m with r := r, byteval := b₁, size := n₁, kinderr := none } : Stream).charge k =
      { s.charge (m + k) with r := r, byteval := b₁, size := n₁, kinderr := none } from
    consumed_charge s m k r b₁ n₁]

theorem consumed_zero (s : Stream) (hk : s.kind = none) (hr : s.r = [] ++ s.r) :
    { s with kinderr := none } = consumed s 0 s.r s.byteval s.size := by
  unfold consumed
  rw [charge_zero s hk]

/-! ## Value trees -/

mutual
theorem decodeInterface_encoding : ∀ (v : Value) (fuel : Nat) (s : Stream) (rest : List UInt8),
    s.kind = none → s.r = v.encoding ++ rest → s.Room v.encoding.length →
    v.encoding.length < fuel → v.encoding.length < 2 ^ 64 →
    ∃ byteval n, decodeInterface fuel s = .ok v (consumed s v.encoding.length rest byteval n)
  | .bytes b, fuel, s, rest, hk, hr, h, hfuel, hv => by
    obtain ⟨fuel, rfl⟩ : ∃ f, fuel = f + 1 := ⟨fuel - 1, by omega⟩
    rw [encoding_bytes] at hr h hv ⊢
    have hb : b.length < 2 ^ 64 := lt_of_le_of_lt (length_le_stringEncoding b) hv
    obtain ⟨kind, n, s₁, byteval, hkind_ne, hkind, -, -, -, hbytes⟩ :=
      string_decoding s hk b rest hb hr h
    refine ⟨byteval, n, ?_⟩
    unfold decodeInterface
    rw [bind_apply_ok hkind]
    dsimp only
    rw [if_neg hkind_ne, bind_apply_ok hbytes]
    rfl
  | .list vs, fuel, s, rest, hk, hr, h, hfuel, hv => by
    obtain ⟨fuel, rfl⟩ : ∃ f, fuel = f + 1 := ⟨fuel - 1, by omega⟩
    rw [encoding_list] at hr h hv hfuel ⊢
    rw [List.append_assoc] at hr
    have hp : (Value.payload vs).length < 2 ^ 64 := by simp at hv; omega
    have hroom : s.Room ((header 0xC0 0xF7 (Value.payload vs).length).length +
        (Value.payload vs).length) := by simpa using h
    have hkind := Kind_listHeader s hk _ _ hp hr hroom
    unfold decodeInterface
    rw [bind_apply_ok hkind]
    dsimp only
    rw [if_pos rfl]
    have hhdr := List.length_pos_iff.mpr (header_ne_nil 0xC0 0xF7 (Value.payload vs).length)
    -- the payload of the list is decoded by `decodeListSlice`, its items by `decodeInterface`
    have hslice : ∃ byteval n, decodeListSlice (decodeInterface fuel) "[]interface {}" fuel
        (afterHeader s (header 0xC0 0xF7 (Value.payload vs).length).length
          (Value.payload vs ++ rest) 0 .List (Value.payload vs).length) =
        .ok vs (consumed s ((header 0xC0 0xF7 (Value.payload vs).length).length +
          (Value.payload vs).length) rest byteval n) := by
      unfold decodeListSlice
      rw [bind_apply_ok (adaptExcept_apply_ok (List_afterHeader s _ _ _))]
      by_cases hp0 : (Value.payload vs).length = 0
      · have hvs : vs = [] := (payload_eq_nil_iff vs).mp (List.length_eq_zero_iff.mp hp0)
        subst hvs
        refine ⟨0, 0, ?_⟩
        simp only [payload_nil, List.length_nil, List.nil_append, if_true]
        rw [bind_apply_ok (ListEnd_empty s _ rest)]
        rfl
      · rw [if_neg hp0]
        obtain ⟨byteval, n, helems⟩ := decodeSliceElems_payload vs fuel fuel 0
          (enterList (afterHeader s (header 0xC0 0xF7 (Value.payload vs).length).length
            (Value.payload vs ++ rest) 0 .List (Value.payload vs).length) (Value.payload vs).length)
          rest 0 (Value.payload vs).length (s.charge _).stack rfl rfl rfl (by omega)
          (by
            intro hl
            have := hroom.2 (by simpa [enterList, afterHeader] using hl)
            simp only [enterList, afterHeader, Stream.charge] at hl ⊢
            simp only [hl, if_true]
            omega)
          (by simp at hfuel; omega)
          (by have := length_le_payload vs; simp at hfuel; omega) hp
        refine ⟨byteval, 0, ?_⟩
        rw [bind_apply_ok helems, bind_apply_ok (ListEnd_consumed s _ _ _ rest byteval n)]
        rfl
    obtain ⟨byteval, n, hls⟩ := hslice
    refine ⟨byteval, n, ?_⟩
    rw [bind_apply_ok hls, List.length_append]
    rfl

theorem decodeSliceElems_payload : ∀ (vs : List Value) (fuel loop i : Nat) (s : Stream)
    (rest : List UInt8) (pos size : Nat) (outer : List Listpos),
    s.kind = none → s.r = Value.payload vs ++ rest → s.stack = ⟨pos, size⟩ :: outer →
    pos + (Value.payload vs).length = size →
    (s.limited = true → (Value.payload vs).length ≤ s.remaining) →
    (Value.payload vs).length < fuel → vs.length < loop → (Value.payload vs).length < 2 ^ 64 →
    ∃ byteval n, decodeSliceElems (decodeInterface fuel) loop i s =
      .ok vs (consumed s (Value.payload vs).length rest byteval n)
  | [], fuel, loop, i, s, rest, pos, size, outer, hk, hr, hst, hend, _, hfuel, hloop, _ => by
    obtain ⟨loop, rfl⟩ : ∃ l, loop = l + 1 := ⟨loop - 1, by simp at hloop; omega⟩
    obtain ⟨fuel, rfl⟩ : ∃ f, fuel = f + 1 := ⟨fuel - 1, by simp at hfuel; omega⟩
    have heol : decodeInterface (fuel + 1) s = .error .EOL { s with kinderr := none } := by
      unfold decodeInterface
      exact bind_apply_error (Kind_eol s hk _ _ hst (by simpa using hend))
    refine ⟨s.byteval, s.size, ?_⟩
    simp only [decodeSliceElems, heol]
    simp only [payload_nil, List.nil_append] at hr
    rw [consumed_zero s hk (by simp), hr]
    rfl
  | v :: vs, fuel, loop, i, s, rest, pos, size, outer, hk, hr, hst, hend, hlim, hfuel, hloop, hp => by
    obtain ⟨loop, rfl⟩ : ∃ l, loop = l + 1 := ⟨loop - 1, by simp at hloop; omega⟩
    have hlen : (Value.payload (v :: vs)).length = v.encoding.length + (Value.payload vs).length := by
      simp
    have hroom : s.Room v.encoding.length := by
      constructor
      · intro tos outer' hst'
        rw [hst] at hst'
        obtain ⟨rfl, rfl⟩ := List.cons.inj hst'
        simp only
        omega
      · intro hl
        have := hlim hl
        omega
    obtain ⟨b₁, n₁, hv⟩ := decodeInterface_encoding v fuel s (Value.payload vs ++ rest) hk
      (by rw [hr, payload_cons, List.append_assoc]) hroom (by omega) (by omega)
    obtain ⟨b₂, n₂, hvs⟩ := decodeSliceElems_payload vs fuel loop (i + 1)
      (consumed s v.encoding.length (Value.payload vs ++ rest) b₁ n₁) rest
      (pos + v.encoding.length) size outer rfl rfl
      (by cases outer <;> simp [consumed, Stream.charge, hst])
      (by omega)
      (by
        intro hl
        have := hlim hl
        simp only [consumed, Stream.charge] at hl ⊢
        simp only [hl, if_true]
        omega)
      (by omega) (by simp at hloop; omega) (by omega)
    refine ⟨b₂, n₂, ?_⟩
    simp only [decodeSliceElems, hv, hvs, consumed_consumed, hlen]
end

/-! ## Integers -/

theorem toNat_ofNat_byte (n : Nat) (h : n < 256) : (UInt8.ofNat n).toNat = n :=
  UInt8.toNat_ofNat_of_lt' h

theorem uintEncoding_zero : uintEncoding 0 = header 0x80 0xB7 0 := by
  simp [uintEncoding, BigEndian.ofNat_zero, stringEncoding]

theorem uintEncoding_small (n : Nat) (hpos : 0 < n) (hlt : n < 128) :
    uintEncoding n = [UInt8.ofNat n] := by
  have hx : UInt8.ofNat n < 0x80 := by
    rw [UInt8.lt_iff_toNat_lt, toNat_ofNat_byte n (by omega)]
    simpa using hlt
  rw [uintEncoding, BigEndian.ofNat_of_lt n hpos (by omega), stringEncoding_singleton, if_pos hx]

theorem uintEncoding_large (n : Nat) (hlarge : 128 ≤ n) :
    uintEncoding n = header 0x80 0xB7 (BigEndian.ofNat n).length ++ BigEndian.ofNat n := by
  rw [uintEncoding]
  by_cases h1 : (BigEndian.ofNat n).length = 1
  · obtain ⟨x, hx⟩ := List.length_eq_one_iff.mp h1
    have hx' : 128 ≤ x.toNat := by
      have := BigEndian.toNat_ofNat n
      rw [hx] at this
      simp [BigEndian.toNat] at this
      omega
    rw [hx, stringEncoding_singleton, if_neg (by simp [UInt8.lt_iff_toNat_lt]; omega)]
    rfl
  · exact stringEncoding_of_length_ne_one _ h1

theorem uint_uintEncoding (s : Stream) (hk : s.kind = none) (n : Nat) (hn : n < 2 ^ 64)
    (rest : List UInt8) (hr : s.r = uintEncoding n ++ rest) (h : s.Room (uintEncoding n).length) :
    ∃ byteval size, Stream.uint 64 s = .ok n (consumed s (uintEncoding n).length rest byteval size) := by
  rcases Nat.eq_zero_or_pos n with rfl | hpos
  · -- zero is the empty string
    rw [uintEncoding_zero] at hr h ⊢
    have hkind := Kind_stringHeader s hk 0 rest (by decide) (by simpa using hr) (by simpa using h)
    refine ⟨0, 0, ?_⟩
    unfold Stream.uint
    rw [bind_apply_ok hkind]
    rfl
  by_cases hsmall : n < 128
  · -- a single byte below 0x80
    rw [uintEncoding_small n hpos hsmall] at hr h ⊢
    have hkind := Kind_single s hk _ rest (by
      rw [UInt8.lt_iff_toNat_lt, toNat_ofNat_byte n (by omega)]
      simpa using hsmall) hr h
    have hne : UInt8.ofNat n ≠ 0 := by
      intro h0
      have := congrArg UInt8.toNat h0
      rw [toNat_ofNat_byte n (by omega)] at this
      simp at this
      omega
    refine ⟨UInt8.ofNat n, 0, ?_⟩
    unfold Stream.uint
    rw [bind_apply_ok hkind]
    simp only [afterHeader, bind_apply_ok (get_apply _), hne, if_false]
    rw [toNat_ofNat_byte n (by omega)]
    rfl
  · -- a string of the minimal big-endian bytes
    have hlarge : 128 ≤ n := Nat.not_lt.mp hsmall
    rw [uintEncoding_large n hlarge] at hr h ⊢
    rw [List.append_assoc] at hr
    have hL := (BigEndian.length_ofNat_le_iff n 8).mpr (by simpa using hn)
    have hne : BigEndian.ofNat n ≠ [] := by
      rw [ne_eq, BigEndian.ofNat_eq_nil_iff]
      omega
    have hroom : s.Room ((header 0x80 0xB7 (BigEndian.ofNat n).length).length +
        (BigEndian.ofNat n).length) := by simpa using h
    have hkind := Kind_stringHeader s hk _ _ (by omega) hr hroom
    have hread := readUint_ok (afterHeader s _ (BigEndian.ofNat n ++ rest) 0 .String
      (BigEndian.ofNat n).length)
      (BigEndian.ofNat n) rest rfl hroom.charge hne (BigEndian.head_ofNat_ne_zero n)
    rw [BigEndian.toNat_ofNat, charge_afterHeader] at hread
    refine ⟨0, (BigEndian.ofNat n).length, ?_⟩
    unfold Stream.uint
    rw [bind_apply_ok hkind]
    simp only [show ¬ (BigEndian.ofNat n).length > 64 / 8 by omega, if_false]
    rw [bind_apply_ok (adaptExcept_apply_ok hread)]
    simp only [show ¬ ((BigEndian.ofNat n).length > 0 ∧ n < 128) by omega, if_false, List.length_append]
    rfl

theorem decodeBigInt_uintEncoding (s : Stream) (hk : s.kind = none) (n : Nat)
    (hn : (BigEndian.ofNat n).length < 2 ^ 64) (rest : List UInt8)
    (hr : s.r = uintEncoding n ++ rest) (h : s.Room (uintEncoding n).length) :
    ∃ byteval size, decodeBigInt "*big.Int" s =
      .ok n (consumed s (uintEncoding n).length rest byteval size) := by
  obtain ⟨byteval, size, hbytes⟩ := Bytes_stringEncoding s hk (BigEndian.ofNat n) rest hn hr h
  refine ⟨byteval, size, ?_⟩
  unfold decodeBigInt
  rw [bind_apply_ok (adaptExcept_apply_ok hbytes)]
  simp only [BigEndian.head_ofNat_ne_zero n, if_false, BigEndian.toNat_ofNat]
  rfl

/-! ## `DecodeBytes` -/

theorem NewStream_room (b : List UInt8) : (NewStream b b.length).Room b.length := by
  refine ⟨fun _ _ hst => by simp [NewStream, Stream.Reset] at hst, fun _ => ?_⟩
  simp only [NewStream, Stream.Reset]
  split <;> exact Nat.le_refl _

theorem DecodeBytes_of_consumed {α : Type} (dec : StreamM α) (typ : String) (b : List UInt8)
    (v : α) (byteval : UInt8) (size : Nat)
    (h : dec (NewStream b b.length) = .ok v (consumed (NewStream b b.length) b.length [] byteval size)) :
    DecodeBytes dec typ b = .ok v := by
  unfold DecodeBytes Stream.Decode
  rw [adaptExcept_apply_ok h]
  simp [consumed]

theorem decodeBytesInterface_encoding (v : Value) (hv : v.encoding.length < 2 ^ 64) :
    decodeBytesInterface v.encoding = .ok v := by
  obtain ⟨byteval, size, h⟩ := decodeInterface_encoding v (v.encoding.length + 1)
    (NewStream v.encoding v.encoding.length) [] rfl (by simp [NewStream, Stream.Reset])
    (NewStream_room _) (Nat.lt_succ_self _) hv
  exact DecodeBytes_of_consumed _ _ _ v byteval size h

theorem decodeBytesUint64_encoding (n : UInt64) :
    decodeBytesUint64 (uintEncoding n.toNat) = .ok n := by
  obtain ⟨byteval, size, h⟩ := uint_uintEncoding (NewStream (uintEncoding n.toNat) _) rfl n.toNat
    n.toNat_lt [] (by simp [NewStream, Stream.Reset]) (NewStream_room _)
  apply DecodeBytes_of_consumed _ _ _ n byteval size
  unfold decodeUint
  rw [bind_apply_ok (adaptExcept_apply_ok h), UInt64.ofNat_toNat]
  rfl

theorem decodeBytesBigInt_encoding (n : Nat) (hn : (BigEndian.ofNat n).length < 2 ^ 64) :
    decodeBytesBigInt (uintEncoding n) = .ok n := by
  obtain ⟨byteval, size, h⟩ := decodeBigInt_uintEncoding (NewStream (uintEncoding n) _) rfl n hn []
    (by simp [NewStream, Stream.Reset]) (NewStream_room _)
  exact DecodeBytes_of_consumed _ _ _ _ byteval size h

/-- The RLP round trip for value trees, `uint64` and non-negative `*big.Int`: the encoder
succeeds and `DecodeBytes` of its output returns the value, consuming all of it. -/
theorem decodeBytes_encodeToBytes :
    (∀ v : Value, v.encoding.length < 2 ^ 64 →
      ∃ enc, EncodeToBytes (fun v w => .ok (writeValue v w)) v = .ok enc ∧
        decodeBytesInterface enc = .ok v) ∧
    (∀ n : UInt64, ∃ enc, EncodeToBytes (fun n w => .ok (writeUint n w)) n = .ok enc ∧
        decodeBytesUint64 enc = .ok n) ∧
    (∀ i : Int, 0 ≤ i → (BigEndian.ofNat i.toNat).length < 2 ^ 64 →
      ∃ enc, EncodeToBytes writeBigIntPtr (some i) = .ok enc ∧ decodeBytesBigInt enc = .ok i) := by
  refine ⟨fun v hv => ⟨v.encoding, encodeToBytes_value v (sized_of_length_lt v hv), decodeBytesInterface_encoding v hv⟩,
    fun n => ⟨uintEncoding n.toNat, ?_, decodeBytesUint64_encoding n⟩,
    fun i hi hlen => ⟨uintEncoding i.toNat, ?_, ?_⟩⟩
  · simp only [EncodeToBytes, writeUint_eq]
    rfl
  · simp only [EncodeToBytes, writeBigIntPtr_eq i Encbuf.empty hi hlen]
    rfl
  · rw [decodeBytesBigInt_encoding i.toNat hlen, Int.toNat_of_nonneg hi]

theorem decodeBytes_encodeToBytes_cat_dog :
    (Value.list [.bytes [0x63, 0x61, 0x74], .bytes [0x64, 0x6f, 0x67]]).encoding.length < 2 ^ 64 ∧
    (∃ enc, EncodeToBytes (fun v w => .ok (writeValue v w))
        (Value.list [.bytes [0x63, 0x61, 0x74], .bytes [0x64, 0x6f, 0x67]]) = .ok enc ∧
      decodeBytesInterface enc = .ok (Value.list [.bytes [0x63, 0x61, 0x74], .bytes [0x64, 0x6f, 0x67]])) ∧
    (0 ≤ (1024 : Int) ∧ (BigEndian.ofNat (1024 : Int).toNat).length < 2 ^ 64) ∧
    (∃ enc, EncodeToBytes writeBigIntPtr (some 1024) = .ok enc ∧ decodeBytesBigInt enc = .ok 1024) := by
  have hlen : (BigEndian.ofNat (1024 : Int).toNat).length < 2 ^ 64 :=
    lt_of_le_of_lt ((BigEndian.length_ofNat_le_iff _ 8).mpr (by norm_num)) (by norm_num)
  exact ⟨by decide, decodeBytes_encodeToBytes.1 _ (by decide), ⟨by decide, hlen⟩,
    decodeBytes_encodeToBytes.2.2 1024 (by decide) hlen⟩

end Zerium.Rlp
