import Zerium.Rlp.Stream

/-! # Reading canonical headers

What the `Stream` primitives do on well-formed input with enough room: `willRead` charges
the bytes to the innermost list and to the input limit, and the readers return the bytes
ahead. From these, `Kind` reads each of the five header forms of the format.
-/

namespace Zerium.Rlp

set_option autoImplicit false

/-! ## Running `EStateM` programs -/

section Run

variable {α β : Type}

theorem bind_apply_ok {x : StreamM α} {f : α → StreamM β} {s s' : Stream} {a : α}
    (h : x s = .ok a s') : (x >>= f) s = f a s' := by
  show EStateM.bind x f s = f a s'
  simp only [EStateM.bind, h]

theorem bind_apply_error {x : StreamM α} {f : α → StreamM β} {s s' : Stream} {e : Error}
    (h : x s = .error e s') : (x >>= f) s = .error e s' := by
  show EStateM.bind x f s = _
  simp only [EStateM.bind, h]

theorem bind_apply_eq_ok {x : StreamM α} {f : α → StreamM β} {s s'' : Stream} {b : β}
    (h : (x >>= f) s = .ok b s'') : ∃ a s', x s = .ok a s' ∧ f a s' = .ok b s'' := by
  change EStateM.bind x f s = _ at h
  unfold EStateM.bind at h
  split at h
  · exact ⟨_, _, ‹_›, h⟩
  · cases h

theorem adaptExcept_apply_ok {f : Error → Error} {x : StreamM α} {s s' : Stream} {a : α}
    (h : x s = .ok a s') : x.adaptExcept f s = .ok a s' := by
  simp only [EStateM.adaptExcept, h]

theorem adaptExcept_apply_eq_ok {f : Error → Error} {x : StreamM α} {s s' : Stream} {a : α}
    (h : x.adaptExcept f s = .ok a s') : x s = .ok a s' := by
  unfold EStateM.adaptExcept at h
  split at h
  · cases h
  · rename_i heq
    cases h
    exact heq

@[simp] theorem get_apply (s : Stream) : (get : StreamM Stream) s = .ok s s := rfl

@[simp] theorem set_apply (s s' : Stream) : (set s' : StreamM PUnit) s = .ok ⟨⟩ s' := rfl

@[simp] theorem modify_apply (f : Stream → Stream) (s : Stream) :
    (modify f : StreamM PUnit) s = .ok ⟨⟩ (f s) := rfl

@[simp] theorem modifyGet_apply (f : Stream → α × Stream) (s : Stream) :
    (modifyGet f : StreamM α) s = .ok (f s).1 (f s).2 := rfl

@[simp] theorem pure_apply (a : α) (s : Stream) : (pure a : StreamM α) s = .ok a s := rfl

@[simp] theorem throw_apply (e : Error) (s : Stream) : (throw e : StreamM α) s = .error e s :=
  rfl

end Run

/-! ## Charging reads to the open lists and the limit -/

/-- The bookkeeping of `willRead n`: rearm `Kind`, advance the innermost list and
decrease the input limit. -/
def Stream.charge (s : Stream) (n : Nat) : Stream :=
  { s with
    kind := none
    remaining := if s.limited then s.remaining - n else s.remaining
    stack := match s.stack with
      | tos :: rest => { tos with pos := tos.pos + n } :: rest
      | [] => [] }

def Stream.Room (s : Stream) (n : Nat) : Prop :=
  (∀ tos rest, s.stack = tos :: rest → n ≤ tos.size - tos.pos) ∧
    (s.limited = true → n ≤ s.remaining)

section Charge

variable (s : Stream) (n m : Nat)

@[simp] theorem charge_r : (s.charge n).r = s.r := rfl
@[simp] theorem charge_kind : (s.charge n).kind = none := rfl
@[simp] theorem charge_limited : (s.charge n).limited = s.limited := rfl
@[simp] theorem charge_byteval : (s.charge n).byteval = s.byteval := rfl
@[simp] theorem charge_size : (s.charge n).size = s.size := rfl
@[simp] theorem charge_kinderr : (s.charge n).kinderr = s.kinderr := rfl

theorem charge_charge : (s.charge m).charge n = s.charge (m + n) := by
  cases s with
  | mk r remaining limited kind size byteval kinderr stack =>
    cases stack <;> cases limited <;> simp [Stream.charge, Nat.sub_sub, Nat.add_assoc]

theorem charge_zero (h : s.kind = none) : s.charge 0 = s := by
  cases s with
  | mk r remaining limited kind size byteval kinderr stack =>
    cases stack <;> cases limited <;> simp_all [Stream.charge]

theorem Stream.Room.left {s : Stream} {n m : Nat} (h : s.Room (n + m)) : s.Room n :=
  ⟨fun tos rest hs => Nat.le_trans (Nat.le_add_right n m) (h.1 tos rest hs),
    fun hl => Nat.le_trans (Nat.le_add_right n m) (h.2 hl)⟩

theorem Stream.Room.charge {s : Stream} {n m : Nat} (h : s.Room (n + m)) : (s.charge n).Room m := by
  obtain ⟨hstack, hlimit⟩ := h
  constructor
  · intro tos rest hs
    cases hst : s.stack with
    | nil => simp [Stream.charge, hst] at hs
    | cons top outer =>
      simp only [Stream.charge, hst, List.cons.injEq] at hs
      obtain ⟨rfl, rfl⟩ := hs
      have := hstack top outer hst
      simp only
      omega
  · intro hl
    have := hlimit (by simpa using hl)
    simp only [Stream.charge] at hl ⊢
    simp only [hl, if_true]
    omega

end Charge

/-! ## The primitive readers -/

theorem willRead_ok (s : Stream) (n : Nat) (h : s.Room n) :
    Stream.willRead n s = .ok () (s.charge n) := by
  obtain ⟨hstack, hlimit⟩ := h
  unfold Stream.willRead
  cases hst : s.stack with
  | nil =>
    simp only [Stream.checkLimit]
    cases hl : s.limited with
    | false => simp [Stream.charge, hst, hl]
    | true =>
      have := hlimit hl
      simp [Stream.charge, hst, hl, Nat.not_lt.mpr this]
  | cons tos rest =>
    have hroom := hstack tos rest hst
    simp only [Nat.not_lt.mpr hroom, if_false, Stream.checkLimit]
    cases hl : s.limited with
    | false => simp [Stream.charge, hst, hl]
    | true =>
      have := hlimit hl
      simp [Stream.charge, hst, hl, Nat.not_lt.mpr this]

theorem readByte_ok (s : Stream) (b : UInt8) (r : List UInt8) (hr : s.r = b :: r)
    (h : s.Room 1) : Stream.readByte s = .ok b { s.charge 1 with r := r } := by
  simp only [Stream.readByte, willRead_ok s 1 h, charge_r, hr]

theorem readFull_ok (s : Stream) (bs r : List UInt8) (hr : s.r = bs ++ r) (h : s.Room bs.length) :
    Stream.readFull bs.length s = .ok bs { s.charge bs.length with r := r } := by
  simp only [Stream.readFull, willRead_ok s _ h, charge_r, hr, List.length_append,
    List.take_left, List.drop_left]
  simp

theorem readUint_ok (s : Stream) (bs r : List UInt8) (hr : s.r = bs ++ r) (h : s.Room bs.length)
    (hne : bs ≠ []) (hHead : bs.head? ≠ some 0) :
    Stream.readUint bs.length s = .ok (BigEndian.toNat bs) { s.charge bs.length with r := r } := by
  match bs, hne with
  | [b], _ =>
    simp only [List.length_singleton, Stream.readUint, Nat.one_ne_zero, if_false, if_true]
    rw [readByte_ok s b r hr h]
    simp [BigEndian.toNat]
  | b₁ :: b₂ :: bs, _ =>
    have hfull := readFull_ok s (b₁ :: b₂ :: bs) r hr h
    simp only [List.length_cons] at hfull
    simp only [List.length_cons, Stream.readUint]
    rw [if_neg (by omega), if_neg (by omega), hfull]
    simpa using hHead

/-! ## The header forms -/

theorem toNat_tag_add (t : UInt8) (n : Nat) (h : t.toNat + n < 256) :
    (t + UInt8.ofNat n).toNat = t.toNat + n := by
  rw [UInt8.toNat_add, UInt8.toNat_ofNat']
  omega

theorem charge_with_r (s : Stream) (n : Nat) (r : List UInt8) :
    ({ s with r := r } : Stream).charge n = { s.charge n with r := r } := rfl

theorem charge_with_byteval (s : Stream) (n : Nat) (b : UInt8) :
    ({ s with byteval := b } : Stream).charge n = { s.charge n with byteval := b } := rfl

theorem readLongSize_ok (kind : Kind) (s : Stream) (n : Nat) (rest : List UInt8)
    (hlarge : 56 ≤ n) (hn : n < 2 ^ 64) (hr : s.r = BigEndian.ofNat n ++ rest)
    (h : s.Room (BigEndian.ofNat n).length) :
    Stream.readLongSize kind (UInt8.ofNat (BigEndian.ofNat n).length) s =
      ((kind, n, none), { s.charge (BigEndian.ofNat n).length with r := rest }) := by
  have hne : BigEndian.ofNat n ≠ [] := by
    rw [ne_eq, BigEndian.ofNat_eq_nil_iff]
    omega
  have hlen : (BigEndian.ofNat n).length < 256 := by
    have := (BigEndian.length_ofNat_le_iff n 8).mpr (by simpa using hn)
    omega
  rw [Stream.readLongSize, UInt8.toNat_ofNat_of_lt' hlen,
    readUint_ok s _ rest hr h hne (BigEndian.head_ofNat_ne_zero n), BigEndian.toNat_ofNat]
  simp [Nat.not_lt.mpr hlarge]

theorem readKind_single (s : Stream) (x : UInt8) (rest : List UInt8) (hx : x < 0x80)
    (hr : s.r = x :: rest) (h : s.Room 1) :
    Stream.readKind s = ((.Byte, 0, none), { s.charge 1 with r := rest, byteval := x }) := by
  rw [Stream.readKind, readByte_ok s x rest hr h]
  simp only [hx, if_true]

theorem readLongSize_after_tag (kind : Kind) (large : UInt8) (s : Stream) (n : Nat)
    (rest : List UInt8) (hlarge : 56 ≤ n) (hn : n < 2 ^ 64)
    (h : s.Room (1 + (BigEndian.ofNat n).length)) :
    Stream.readLongSize kind ((large + UInt8.ofNat (BigEndian.ofNat n).length) - large)
        { s.charge 1 with r := BigEndian.ofNat n ++ rest, byteval := 0 } =
      ((kind, n, none), { s.charge (1 + (BigEndian.ofNat n).length) with r := rest, byteval := 0 }) := by
  have hcancel : (large + UInt8.ofNat (BigEndian.ofNat n).length) - large =
      UInt8.ofNat (BigEndian.ofNat n).length := by grind
  have hroom : ({ s.charge 1 with r := BigEndian.ofNat n ++ rest, byteval := 0 } : Stream).Room
      (BigEndian.ofNat n).length := h.charge
  rw [hcancel, readLongSize_ok kind _ n rest hlarge hn rfl hroom]
  have hcharge : ({ s.charge 1 with r := BigEndian.ofNat n ++ rest, byteval := 0 } : Stream).charge
      (BigEndian.ofNat n).length = { s.charge (1 + (BigEndian.ofNat n).length) with
        r := BigEndian.ofNat n ++ rest, byteval := 0 } := by
    rw [← charge_charge]
    rfl
  rw [hcharge]

theorem length_ofNat_bounds (n : Nat) (hlarge : 56 ≤ n) (hn : n < 2 ^ 64) :
    0 < (BigEndian.ofNat n).length ∧ (BigEndian.ofNat n).length ≤ 8 := by
  refine ⟨?_, (BigEndian.length_ofNat_le_iff n 8).mpr (by simpa using hn)⟩
  rw [List.length_pos_iff, ne_eq, BigEndian.ofNat_eq_nil_iff]
  omega

theorem readKind_stringHeader (s : Stream) (n : Nat) (rest : List UInt8) (hn : n < 2 ^ 64)
    (hr : s.r = header 0x80 0xB7 n ++ rest) (h : s.Room (header 0x80 0xB7 n).length) :
    Stream.readKind s =
      ((.String, n, none), { s.charge (header 0x80 0xB7 n).length with r := rest, byteval := 0 }) := by
  unfold header at hr h ⊢
  by_cases hsmall : n < 56
  · rw [if_pos hsmall] at hr h ⊢
    rw [List.singleton_append] at hr
    have hb : (0x80 + UInt8.ofNat n).toNat = 128 + n := toNat_tag_add 0x80 n (by simp; omega)
    have h1 : ¬ (0x80 + UInt8.ofNat n) < 0x80 := by simp [UInt8.lt_iff_toNat_lt, hb]
    have h2 : (0x80 + UInt8.ofNat n) < 0xB8 := by simp [UInt8.lt_iff_toNat_lt, hb]; omega
    have h3 : ((0x80 + UInt8.ofNat n) - 0x80).toNat = n := by
      rw [UInt8.toNat_sub_of_le _ _ (by simp [UInt8.le_iff_toNat_le, hb])]
      simp [hb]
    rw [Stream.readKind, readByte_ok s _ rest hr h]
    simp only [if_neg h1, if_pos h2, h3, List.length_singleton]
  · rw [if_neg hsmall] at hr h ⊢
    rw [List.cons_append] at hr
    obtain ⟨hL0, hL⟩ := length_ofNat_bounds n (by omega) hn
    have hb : (0xB7 + UInt8.ofNat (BigEndian.ofNat n).length).toNat =
        183 + (BigEndian.ofNat n).length := toNat_tag_add 0xB7 _ (by simp; omega)
    have h1 : ¬ (0xB7 + UInt8.ofNat (BigEndian.ofNat n).length) < 0x80 := by
      simp [UInt8.lt_iff_toNat_lt, hb]; omega
    have h2 : ¬ (0xB7 + UInt8.ofNat (BigEndian.ofNat n).length) < 0xB8 := by
      simp [UInt8.lt_iff_toNat_lt, hb]; omega
    have h3 : (0xB7 + UInt8.ofNat (BigEndian.ofNat n).length) < 0xC0 := by
      simp [UInt8.lt_iff_toNat_lt, hb]; omega
    have hroom : s.Room (1 + (BigEndian.ofNat n).length) := by simpa [Nat.add_comm] using h
    rw [Stream.readKind, readByte_ok s _ _ hr hroom.left]
    simp only [if_neg h1, if_neg h2, if_pos h3]
    rw [readLongSize_after_tag .String 0xB7 s n rest (by omega) hn hroom]
    simp [Nat.add_comm]

theorem readKind_listHeader (s : Stream) (n : Nat) (rest : List UInt8) (hn : n < 2 ^ 64)
    (hr : s.r = header 0xC0 0xF7 n ++ rest) (h : s.Room (header 0xC0 0xF7 n).length) :
    Stream.readKind s =
      ((.List, n, none), { s.charge (header 0xC0 0xF7 n).length with r := rest, byteval := 0 }) := by
  unfold header at hr h ⊢
  by_cases hsmall : n < 56
  · rw [if_pos hsmall] at hr h ⊢
    rw [List.singleton_append] at hr
    have hb : (0xC0 + UInt8.ofNat n).toNat = 192 + n := toNat_tag_add 0xC0 n (by simp; omega)
    have h1 : ¬ (0xC0 + UInt8.ofNat n) < 0x80 := by simp [UInt8.lt_iff_toNat_lt, hb]; omega
    have h2 : ¬ (0xC0 + UInt8.ofNat n) < 0xB8 := by simp [UInt8.lt_iff_toNat_lt, hb]; omega
    have h3 : ¬ (0xC0 + UInt8.ofNat n) < 0xC0 := by simp [UInt8.lt_iff_toNat_lt, hb]
    have h4 : (0xC0 + UInt8.ofNat n) < 0xF8 := by simp [UInt8.lt_iff_toNat_lt, hb]; omega
    have h5 : ((0xC0 + UInt8.ofNat n) - 0xC0).toNat = n := by
      rw [UInt8.toNat_sub_of_le _ _ (by simp [UInt8.le_iff_toNat_le, hb])]
      simp [hb]
    rw [Stream.readKind, readByte_ok s _ rest hr h]
    simp only [if_neg h1, if_neg h2, if_neg h3, if_pos h4, h5, List.length_singleton]
  · rw [if_neg hsmall] at hr h ⊢
    rw [List.cons_append] at hr
    obtain ⟨hL0, hL⟩ := length_ofNat_bounds n (by omega) hn
    have hb : (0xF7 + UInt8.ofNat (BigEndian.ofNat n).length).toNat =
        247 + (BigEndian.ofNat n).length := toNat_tag_add 0xF7 _ (by simp; omega)
    have h1 : ¬ (0xF7 + UInt8.ofNat (BigEndian.ofNat n).length) < 0x80 := by
      simp [UInt8.lt_iff_toNat_lt, hb]; omega
    have h2 : ¬ (0xF7 + UInt8.ofNat (BigEndian.ofNat n).length) < 0xB8 := by
      simp [UInt8.lt_iff_toNat_lt, hb]; omega
    have h3 : ¬ (0xF7 + UInt8.ofNat (BigEndian.ofNat n).length) < 0xC0 := by
      simp [UInt8.lt_iff_toNat_lt, hb]; omega
    have h4 : ¬ (0xF7 + UInt8.ofNat (BigEndian.ofNat n).length) < 0xF8 := by
      simp [UInt8.lt_iff_toNat_lt, hb]; omega
    have hroom : s.Room (1 + (BigEndian.ofNat n).length) := by simpa [Nat.add_comm] using h
    rw [Stream.readKind, readByte_ok s _ _ hr hroom.left]
    simp only [if_neg h1, if_neg h2, if_neg h3, if_neg h4]
    rw [readLongSize_after_tag .List 0xF7 s n rest (by omega) hn hroom]
    simp [Nat.add_comm]

end Zerium.Rlp
