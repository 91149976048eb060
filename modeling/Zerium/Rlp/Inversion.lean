import Zerium.Rlp.RoundTrip

/-! # What a successful read has consumed

The converse of the reading lemmas: when a `Stream` operation succeeds, the bytes it took
from the input are a header in its canonical form, or a string whose encoding is its
canonical one, and the state has been charged exactly those bytes. An `EOL` error comes
only from `Kind` at the end of the innermost list, and leaves the state as it was.
-/

namespace Zerium.Rlp

set_option autoImplicit false

variable {s s' : Stream}

theorem bind_apply_eq_error {α β : Type} {x : StreamM α} {f : α → StreamM β} {e : Error}
    (h : (x >>= f) s = .error e s') :
    x s = .error e s' ∨ ∃ a s₁, x s = .ok a s₁ ∧ f a s₁ = .error e s' := by
  change EStateM.bind x f s = _ at h
  unfold EStateM.bind at h
  split at h
  · exact .inr ⟨_, _, ‹_›, h⟩
  · cases h
    exact .inl ‹_›

/-! ## The primitive readers -/

theorem Stream.Room.add {n m : Nat} (h : s.Room n) (h' : (s.charge n).Room m) : s.Room (n + m) := by
  obtain ⟨hstack, hlimit⟩ := h
  obtain ⟨hstack', hlimit'⟩ := h'
  constructor
  · intro tos rest hst
    have h₁ := hstack tos rest hst
    have h₂ := hstack' { tos with pos := tos.pos + n } rest (by simp [Stream.charge, hst])
    simp only at h₂
    omega
  · intro hl
    have h₁ := hlimit hl
    have h₂ := hlimit' hl
    simp only [Stream.charge, hl, if_true] at h₂
    omega

theorem willRead_room {n : Nat} {u : Unit} (h : Stream.willRead n s = .ok u s') : s.Room n := by
  unfold Stream.willRead Stream.checkLimit at h
  constructor
  · intro tos rest hst
    simp only [hst] at h
    split at h
    · cases h
    · omega
  · intro hl
    cases hst : s.stack with
    | nil =>
      simp only [hst, hl, if_true] at h
      split at h
      · cases h
      · omega
    | cons tos rest =>
      simp only [hst, hl, if_true] at h
      split at h
      · cases h
      · split at h
        · cases h
        · omega

theorem willRead_inv {n : Nat} {u : Unit} (h : Stream.willRead n s = .ok u s') :
    s' = s.charge n ∧ s.Room n := by
  have hroom := willRead_room h
  rw [willRead_ok s n hroom] at h
  cases h
  exact ⟨rfl, hroom⟩

theorem willRead_ne_EOL {n : Nat} : Stream.willRead n s ≠ .error .EOL s' := by
  intro h
  unfold Stream.willRead Stream.checkLimit at h
  cases hst : s.stack <;> simp only [hst] at h <;> split_ifs at h <;> cases h

theorem readByte_inv {b : UInt8} (h : Stream.readByte s = .ok b s') :
    ∃ r, s.r = b :: r ∧ s' = { s.charge 1 with r := r } ∧ s.Room 1 := by
  unfold Stream.readByte at h
  split at h
  · cases h
  · rename_i s₁ hw
    obtain ⟨rfl, hroom⟩ := willRead_inv hw
    split at h
    · cases h
    · rename_i b' r hr
      cases h
      exact ⟨r, by simpa using hr, rfl, hroom⟩

theorem readByte_ne_EOL : Stream.readByte s ≠ .error .EOL s' := by
  intro h
  unfold Stream.readByte at h
  split at h
  · cases h
    exact willRead_ne_EOL ‹_›
  · split at h <;> cases h

theorem readFull_inv {n : Nat} {bs : List UInt8} (h : Stream.readFull n s = .ok bs s') :
    s.r = bs ++ s'.r ∧ bs.length = n ∧ s' = { s.charge n with r := s'.r } ∧ s.Room n := by
  unfold Stream.readFull at h
  split at h
  · cases h
  · rename_i s₁ hw
    obtain ⟨rfl, hroom⟩ := willRead_inv hw
    split at h
    · cases h
    · rename_i hlen
      cases h
      refine ⟨by simp, List.length_take_of_le (by simpa using hlen), rfl, hroom⟩

theorem readFull_ne_EOL {n : Nat} : Stream.readFull n s ≠ .error .EOL s' := by
  intro h
  unfold Stream.readFull at h
  split at h
  · cases h
    exact willRead_ne_EOL ‹_›
  · split at h <;> cases h

theorem readUint_inv {size v : Nat} (hsize : size ≠ 0) (h : Stream.readUint size s = .ok v s') :
    ∃ bs, s.r = bs ++ s'.r ∧ bs.length = size ∧ (size ≠ 1 → bs.head? ≠ some 0) ∧
      v = BigEndian.toNat bs ∧ s' = { s.charge size with r := s'.r } ∧ s.Room size := by
  unfold Stream.readUint at h
  rw [if_neg hsize] at h
  split_ifs at h with h1
  · subst h1
    split at h
    · rename_i b s₁ hb
      cases h
      obtain ⟨r, hr, rfl, hroom⟩ := readByte_inv hb
      exact ⟨[b], hr, rfl, fun h => absurd rfl h, by simp [BigEndian.toNat], rfl, hroom⟩
    · cases h
  · split at h
    · cases h
    · rename_i buf s₁ hbuf
      obtain ⟨hr, hlen, hs₁, hroom⟩ := readFull_inv hbuf
      split at h
      · cases h
      · rename_i hhead
        cases h
        exact ⟨buf, hr, hlen, fun _ => hhead, rfl, hs₁, hroom⟩

theorem readUint_ne_EOL {size : Nat} : Stream.readUint size s ≠ .error .EOL s' := by
  intro h
  unfold Stream.readUint at h
  split_ifs at h
  · split at h
    · cases h
    · cases h
      exact readByte_ne_EOL ‹_›
  · split at h
    · cases h
      exact readFull_ne_EOL ‹_›
    · split at h <;> cases h

/-! ## Headers -/

/-- The header bytes that `readKind` takes for a value of the given kind and size; a
single byte is its own header. -/
def kindHeader : Kind → Nat → UInt8 → List UInt8
  | .Byte, _, byteval => [byteval]
  | .String, n, _ => header 0x80 0xB7 n
  | .List, n, _ => header 0xC0 0xF7 n

/-- What `readKind` leaves in `byteval` and the bound on the size it reports. -/
def HeaderRead : Kind → Nat → UInt8 → Prop
  | .Byte, n, byteval => byteval < 0x80 ∧ n = 0
  | .String, n, byteval => byteval = 0 ∧ n < 2 ^ 64
  | .List, n, byteval => byteval = 0 ∧ n < 2 ^ 64

theorem header_short (small large : UInt8) (b : UInt8)
    (hlt : (b - small).toNat < 56) : header small large (b - small).toNat = [b] := by
  rw [header, if_pos hlt, UInt8.ofNat_toNat]
  congr 1
  grind

theorem header_long (small large : UInt8) (b : UInt8) (n : Nat) (hlarge : 56 ≤ n)
    (hlen : (BigEndian.ofNat n).length = (b - large).toNat) :
    header small large n = b :: BigEndian.ofNat n := by
  rw [header, if_neg (by omega), hlen, UInt8.ofNat_toNat]
  congr 1
  grind

theorem readLongSize_inv {kind k : Kind} {sizesize : UInt8} {n : Nat}
    (h : Stream.readLongSize kind sizesize s = ((k, n, none), s')) :
    k = kind ∧ 56 ≤ n ∧ s.r = BigEndian.ofNat n ++ s'.r ∧
      (BigEndian.ofNat n).length = sizesize.toNat ∧
      s' = { s.charge sizesize.toNat with r := s'.r } ∧ s.Room sizesize.toNat := by
  unfold Stream.readLongSize at h
  split at h
  · rename_i size s₁ hu
    split_ifs at h with hsmall
    · simp at h
    · simp only [Prod.mk.injEq, and_true] at h
      obtain ⟨⟨rfl, rfl⟩, rfl⟩ := h
      have hlarge : 56 ≤ size := Nat.not_lt.mp hsmall
      have hne : sizesize.toNat ≠ 0 := by
        intro h0
        rw [h0] at hu
        simp only [Stream.readUint, if_true] at hu
        cases hu
        omega
      obtain ⟨bs, hr, hlen, hhead, rfl, hs₁, hroom⟩ := readUint_inv hne hu
      -- a single size byte is at least 56, so no size starts with a zero byte
      have hhead' : bs.head? ≠ some 0 := by
        by_cases h1 : sizesize.toNat = 1
        · obtain ⟨x, rfl⟩ := List.length_eq_one_iff.mp (hlen.trans h1)
          rintro ⟨⟩
          simp [BigEndian.toNat] at hlarge
        · exact hhead h1
      rw [BigEndian.ofNat_toNat bs hhead']
      exact ⟨rfl, hlarge, hr, hlen, hs₁, hroom⟩
  · simp at h

theorem readLongSize_ne_EOL {kind : Kind} {sizesize : UInt8} :
    (Stream.readLongSize kind sizesize s).1.2.2 ≠ some .EOL := by
  unfold Stream.readLongSize
  split
  · split <;> simp
  · rename_i e s₁ hu
    simp only [ne_eq, Option.some.injEq]
    rintro rfl
    exact readUint_ne_EOL hu

theorem readKind_short_inv (small large b : UInt8) (r : List UInt8)
    (hr : s.r = b :: r) (hroom : s.Room 1) (hlt : (b - small).toNat < 56) :
    s.r = header small large (b - small).toNat ++ r ∧
      ({ s.charge 1 with r := r, byteval := 0 } : Stream) =
        { s.charge (header small large (b - small).toNat).length with r := r, byteval := 0 } ∧
      s.Room (header small large (b - small).toNat).length := by
  rw [header_short small large b hlt]
  exact ⟨hr, rfl, hroom⟩

theorem readKind_long_inv (kind k : Kind) (small large b : UInt8) (r : List UInt8) (n : Nat)
    (hr : s.r = b :: r) (hroom : s.Room 1) (hL : (b - large).toNat < 9)
    (h : Stream.readLongSize kind (b - large) { s.charge 1 with r := r, byteval := 0 } =
      ((k, n, none), s')) :
    k = kind ∧ n < 2 ^ 64 ∧ s.r = header small large n ++ s'.r ∧
      s' = { s.charge (header small large n).length with r := s'.r, byteval := 0 } ∧
      s.Room (header small large n).length := by
  obtain ⟨rfl, hlarge, hr', hlen, hs', hroom'⟩ := readLongSize_inv h
  have hrest : r = BigEndian.ofNat n ++ s'.r := hr'
  have hhdr := header_long small large b n hlarge hlen
  have hn : n < 2 ^ 64 := by
    have := (BigEndian.length_ofNat_le_iff n 8).mp (by omega)
    simpa using this
  refine ⟨rfl, hn, ?_, ?_, ?_⟩
  · rw [hr, hhdr, hrest]
    rfl
  · rw [hhdr, List.length_cons, hlen, Nat.add_comm, ← charge_charge]
    exact hs'
  · rw [hhdr, List.length_cons, hlen, Nat.add_comm]
    exact hroom.add hroom'

theorem toNat_sub_lt_of_lt (a b : UInt8) (k : Nat) (hle : b.toNat ≤ a.toNat)
    (h : a.toNat < b.toNat + k) : (a - b).toNat < k := by
  rw [UInt8.toNat_sub_of_le _ _ (UInt8.le_iff_toNat_le.mpr hle)]
  omega

theorem readKind_inv {k : Kind} {n : Nat} (h : Stream.readKind s = ((k, n, none), s')) :
    ∃ byteval r, s.r = kindHeader k n byteval ++ r ∧ HeaderRead k n byteval ∧
      s' = { s.charge (kindHeader k n byteval).length with r := r, byteval := byteval } ∧
      s.Room (kindHeader k n byteval).length := by
  unfold Stream.readKind at h
  split at h
  · simp at h
  · rename_i b s₁ hb
    obtain ⟨r, hr, rfl, hroom⟩ := readByte_inv hb
    have hb256 := b.toNat_lt
    have e80 : (0x80 : UInt8).toNat = 128 := rfl
    have eB7 : (0xB7 : UInt8).toNat = 183 := rfl
    have eB8 : (0xB8 : UInt8).toNat = 184 := rfl
    have eC0 : (0xC0 : UInt8).toNat = 192 := rfl
    have eF7 : (0xF7 : UInt8).toNat = 247 := rfl
    have eF8 : (0xF8 : UInt8).toNat = 248 := rfl
    simp only [UInt8.lt_iff_toNat_lt, e80, eB8, eC0, eF8] at h
    -- the five forms of the tag byte, in the order `readKind` tests them
    split_ifs at h with h1 h2 h3 h4
    · simp only [Prod.mk.injEq, and_true] at h
      obtain ⟨⟨rfl, rfl⟩, rfl⟩ := h
      exact ⟨b, r, hr, ⟨UInt8.lt_iff_toNat_lt.mpr (by rw [e80]; omega), rfl⟩, rfl, hroom⟩
    · simp only [Prod.mk.injEq, and_true] at h
      obtain ⟨⟨rfl, rfl⟩, rfl⟩ := h
      have hlt := toNat_sub_lt_of_lt b 0x80 56 (by rw [e80]; omega) (by rw [e80]; omega)
      obtain ⟨hr', hs', hroom'⟩ := readKind_short_inv 0x80 0xB7 b r hr hroom hlt
      exact ⟨0, r, hr', ⟨rfl, by omega⟩, hs', hroom'⟩
    · obtain ⟨rfl, hn, hr', hs', hroom'⟩ := readKind_long_inv .String k 0x80 0xB7 b r n hr hroom
        (toNat_sub_lt_of_lt b 0xB7 9 (by rw [eB7]; omega) (by rw [eB7]; omega)) h
      exact ⟨0, _, hr', ⟨rfl, hn⟩, hs', hroom'⟩
    · simp only [Prod.mk.injEq, and_true] at h
      obtain ⟨⟨rfl, rfl⟩, rfl⟩ := h
      have hlt := toNat_sub_lt_of_lt b 0xC0 56 (by rw [eC0]; omega) (by rw [eC0]; omega)
      obtain ⟨hr', hs', hroom'⟩ := readKind_short_inv 0xC0 0xF7 b r hr hroom hlt
      exact ⟨0, r, hr', ⟨rfl, by omega⟩, hs', hroom'⟩
    · obtain ⟨rfl, hn, hr', hs', hroom'⟩ := readKind_long_inv .List k 0xC0 0xF7 b r n hr hroom
        (toNat_sub_lt_of_lt b 0xF7 9 (by rw [eF7]; omega) (by rw [eF7]; omega)) h
      exact ⟨0, _, hr', ⟨rfl, hn⟩, hs', hroom'⟩

theorem readKind_ne_EOL : (Stream.readKind s).1.2.2 ≠ some .EOL := by
  unfold Stream.readKind
  split
  · rename_i err s₁ hb
    have herr : err ≠ .EOL := by
      rintro rfl
      exact readByte_ne_EOL hb
    simp only [ne_eq, Option.some.injEq]
    -- at toplevel the error may become `EOF`, never `EOL`
    split
    · split <;> simp_all
    · exact herr
  · split_ifs
    · simp
    · simp
    · exact readLongSize_ne_EOL
    · simp
    · exact readLongSize_ne_EOL

/-! ## `Kind`, `Bytes` and `ListEnd` -/

theorem readKindChecked_inv {k : Kind} {n : Nat} (h : Stream.readKindChecked s = .ok (k, n) s') :
    ∃ s₁, Stream.readKind s = ((k, n, none), s₁) ∧
      s' = { s₁ with kind := some k, size := n, kinderr := none } := by
  unfold Stream.readKindChecked at h
  generalize hrk : Stream.readKind s = res at h
  obtain ⟨⟨kind, size, err⟩, s₁⟩ := res
  cases err with
  | some e => cases h
  | none =>
    simp only at h
    split at h
    · cases h
    · rename_i herr
      cases h
      exact ⟨s₁, rfl, by rw [herr]⟩

theorem readKindChecked_ne_EOL : Stream.readKindChecked s ≠ .error .EOL s' := by
  intro h
  have hne := readKind_ne_EOL (s := s)
  unfold Stream.readKindChecked at h
  generalize hrk : Stream.readKind s = res at h hne
  obtain ⟨⟨kind, size, err⟩, s₁⟩ := res
  cases err with
  | some e =>
    cases h
    exact hne rfl
  | none =>
    simp only at h
    split at h
    · rename_i e' herr
      cases h
      split at herr <;> split_ifs at herr <;> cases herr
    · cases h

theorem Kind_inv {k : Kind} {n : Nat} (hk : s.kind = none) (h : Stream.Kind s = .ok (k, n) s') :
    ∃ byteval r, s.r = kindHeader k n byteval ++ r ∧ HeaderRead k n byteval ∧
      s' = afterHeader s (kindHeader k n byteval).length r byteval k n := by
  have hrc : Stream.readKindChecked { s with kinderr := none } = .ok (k, n) s' := by
    unfold Stream.Kind at h
    simp only [hk] at h
    split at h
    · split_ifs at h
      exact h
    · exact h
  obtain ⟨s₁, hrk, rfl⟩ := readKindChecked_inv hrc
  obtain ⟨byteval, r, hr, hhd, rfl, -⟩ := readKind_inv hrk
  exact ⟨byteval, r, hr, hhd, rfl⟩

theorem Kind_EOL_inv (hk : s.kind = none) (h : Stream.Kind s = .error .EOL s') :
    s' = { s with kinderr := none } := by
  unfold Stream.Kind at h
  simp only [hk] at h
  split at h
  · split_ifs at h
    · cases h
      rw [← hk]
    · exact absurd h readKindChecked_ne_EOL
  · exact absurd h readKindChecked_ne_EOL

theorem Bytes_afterHeader_inv {k : Kind} {n : Nat} {byteval : UInt8} {r b : List UInt8}
    (hhd : HeaderRead k n byteval)
    (h : Stream.Bytes (afterHeader s (kindHeader k n byteval).length r byteval k n) = .ok b s') :
    kindHeader k n byteval ++ r = stringEncoding b ++ s'.r ∧ b.length < 2 ^ 64 ∧
      s' = consumed s (stringEncoding b).length s'.r byteval n := by
  unfold Stream.Bytes at h
  rw [bind_apply_ok (Kind_cached _ k rfl rfl)] at h
  cases k with
  | Byte =>
    obtain ⟨hbyte, rfl⟩ := hhd
    obtain ⟨rfl, rfl⟩ : b = [byteval] ∧ s' = consumed s 1 r byteval 0 := by
      cases h
      exact ⟨rfl, rfl⟩
    rw [stringEncoding_singleton, if_pos hbyte]
    exact ⟨rfl, by simp, rfl⟩
  | String =>
    obtain ⟨rfl, hn⟩ := hhd
    obtain ⟨b', s₁, hfull, hcheck⟩ := bind_apply_eq_ok h
    split_ifs at hcheck with hsingle
    · cases hcheck
    · cases hcheck
      obtain ⟨hr, hlen, hs₁, -⟩ := readFull_inv hfull
      have henc := stringEncoding_of_not_single b (by rw [hlen]; exact hsingle)
      refine ⟨?_, hlen ▸ hn, ?_⟩
      · rw [henc, hlen, List.append_assoc, ← hr]
        rfl
      · rw [henc, List.length_append, hlen, hs₁, charge_afterHeader]
        rfl
  | List => cases h

theorem Bytes_afterHeader_ne_EOL {hdr n : Nat} {k : Kind} {byteval : UInt8} {r : List UInt8} :
    Stream.Bytes (afterHeader s hdr r byteval k n) ≠ .error .EOL s' := by
  intro h
  unfold Stream.Bytes at h
  rw [bind_apply_ok (Kind_cached _ k rfl rfl)] at h
  cases k with
  | Byte => cases h
  | String =>
    rcases bind_apply_eq_error h with hfull | ⟨b, s₁, -, hcheck⟩
    · exact readFull_ne_EOL hfull
    · split_ifs at hcheck <;> cases hcheck
  | List => cases h

theorem ListEnd_inv {u : Unit} (h : Stream.ListEnd s = .ok u s') :
    ∃ tos rest, s.stack = tos :: rest ∧ tos.pos = tos.size := by
  unfold Stream.ListEnd at h
  rw [bind_apply_ok (get_apply s)] at h
  cases hst : s.stack with
  | nil => simp [hst] at h
  | cons tos rest =>
    by_cases hend : tos.pos = tos.size
    · exact ⟨tos, rest, rfl, hend⟩
    · simp only [hst, ne_eq, hend, not_false_eq_true, if_true] at h
      rw [bind_apply_error (throw_apply _ s)] at h
      cases h

theorem ListEnd_ne_EOL : Stream.ListEnd s ≠ .error .EOL s' := by
  intro h
  unfold Stream.ListEnd at h
  rw [bind_apply_ok (get_apply s)] at h
  cases hst : s.stack with
  | nil => simp [hst] at h
  | cons tos rest =>
    by_cases hend : tos.pos = tos.size
    · simp [hst, hend] at h
    · simp only [hst, ne_eq, hend, not_false_eq_true, if_true] at h
      rw [bind_apply_error (throw_apply _ s)] at h
      cases h

end Zerium.Rlp
