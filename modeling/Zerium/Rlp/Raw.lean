import Zerium.Rlp.Reading

/-! # Raw RLP splitting

`raw.go`: `Split`, `SplitString`, `SplitList` and `CountValues` cut one encoded value off the
front of a byte slice without decoding it; the trie reads its nodes this way. The result type
`Option (Except Error α)` keeps apart the two ways they can fail: an error value, and `none`,
the run-time panic of reading `buf[1]` when the slice is the lone byte `0x81`.

The main fact is `Split_encoding`: on the encoding of a value followed by anything, `Split`
returns the value's kind, its content and exactly what follows.
-/

namespace Zerium.Rlp.Raw

set_option autoImplicit false

/-- `readSize`: a big-endian size of `slen` bytes, which must be at least 56 and have no
leading zero byte. -/
def readSize (b : List UInt8) (slen : UInt8) : Except Error Nat :=
  if slen.toNat > b.length then .error .ErrUnexpectedEOF
  else
    -- the `switch` reads `slen` bytes for `slen` in `1..8` and leaves `s = 0` otherwise;
    -- `b[0]` is only read when `s ≥ 56`, so `b` is not empty there
    let s := if 1 ≤ slen.toNat ∧ slen.toNat ≤ 8 then BigEndian.toNat (b.take slen.toNat) else 0
    if s < 56 || b.headD 0 == 0 then .error .ErrCanonSize else .ok s

/-- The `switch` of `readKind` on the tag byte `b`; `rest` is what follows the tag. -/
def readTag (b : UInt8) (rest : List UInt8) : Option (Except Error (Kind × Nat × Nat)) :=
  if b < 0x80 then some (.ok (.Byte, 0, 1))
  else if b < 0xB8 then
    if (b - 0x80).toNat = 1 then
      -- reject strings that should have been single bytes; this reads `buf[1]`
      match rest with
      | [] => none
      | c :: _ => some (if c < 128 then .error .ErrCanonSize else .ok (.String, 1, 1))
    else some (.ok (.String, 1, (b - 0x80).toNat))
  else if b < 0xC0 then
    some ((readSize rest (b - 0xB7)).map fun s => (.String, (b - 0xB7).toNat + 1, s))
  else if b < 0xF8 then some (.ok (.List, 1, (b - 0xC0).toNat))
  else some ((readSize rest (b - 0xF7)).map fun s => (.List, (b - 0xF7).toNat + 1, s))

/-- `readKind`: the kind, tag size and content size of the value at the front of `buf`. -/
def readKind (buf : List UInt8) : Option (Except Error (Kind × Nat × Nat)) :=
  match buf with
  | [] => some (.error .ErrUnexpectedEOF)
  | b :: rest => (readTag b rest).map fun
    | .error e => .error e
    | .ok (k, tagsize, contentsize) =>
      if contentsize > (b :: rest).length - tagsize then .error .ErrValueTooLarge
      else .ok (k, tagsize, contentsize)

def Split (b : List UInt8) : Option (Except Error (Kind × List UInt8 × List UInt8)) :=
  (readKind b).map fun r => r.map fun (k, ts, cs) => (k, (b.drop ts).take cs, b.drop (ts + cs))

def SplitString (b : List UInt8) : Option (Except Error (List UInt8 × List UInt8)) :=
  (Split b).map fun
    | .error e => .error e
    | .ok (k, content, rest) => if k = .List then .error .ErrExpectedString else .ok (content, rest)

def SplitList (b : List UInt8) : Option (Except Error (List UInt8 × List UInt8)) :=
  (Split b).map fun
    | .error e => .error e
    | .ok (k, content, rest) => if k ≠ .List then .error .ErrExpectedList else .ok (content, rest)

/-! ## What a successful `readKind` consumes -/

theorem readSize_le {b : List UInt8} {slen : UInt8} {s : Nat} (h : readSize b slen = .ok s) :
    slen.toNat ≤ b.length := by
  by_contra hc
  rw [readSize, if_pos (by omega)] at h
  cases h

theorem readTag_ok_inv {b : UInt8} {rest : List UInt8} {k : Kind} {ts cs : Nat}
    (h : readTag b rest = some (.ok (k, ts, cs))) : 0 < ts + cs ∧ ts ≤ rest.length + 1 := by
  unfold readTag at h
  split_ifs at h with h1 h2 h3 h4 h5
  · cases h
    omega
  · cases rest with
    | nil => cases h
    | cons c cs' =>
      simp only [Option.some.injEq] at h
      split_ifs at h
      cases h
      simp
  · cases h
    omega
  · cases hs : readSize rest (b - 0xB7) with
    | error e => simp [hs, Except.map] at h
    | ok s =>
      simp only [hs, Except.map, Option.some.injEq, Except.ok.injEq, Prod.mk.injEq] at h
      obtain ⟨rfl, rfl, rfl⟩ := h
      have := readSize_le hs
      omega
  · cases h
    omega
  · cases hs : readSize rest (b - 0xF7) with
    | error e => simp [hs, Except.map] at h
    | ok s =>
      simp only [hs, Except.map, Option.some.injEq, Except.ok.injEq, Prod.mk.injEq] at h
      obtain ⟨rfl, rfl, rfl⟩ := h
      have := readSize_le hs
      omega

theorem readTag_list_tagsize {b : UInt8} {rest : List UInt8} {ts cs : Nat}
    (h : readTag b rest = some (.ok (.List, ts, cs))) : 1 ≤ ts := by
  unfold readTag at h
  split_ifs at h with h1 h2 h3 h4 h5
  · cases h
  · cases rest with
    | nil => cases h
    | cons c cs' =>
      simp only [Option.some.injEq] at h
      split_ifs at h
      cases h
  · cases h
  · cases hs : readSize rest (b - 0xB7) <;> simp [hs, Except.map] at h
  · cases h
    exact le_refl 1
  · cases hs : readSize rest (b - 0xF7) with
    | error e => simp [hs, Except.map] at h
    | ok s =>
      simp only [hs, Except.map, Option.some.injEq, Except.ok.injEq, Prod.mk.injEq] at h
      omega

theorem readKind_ok_inv {buf : List UInt8} {k : Kind} {ts cs : Nat}
    (h : readKind buf = some (.ok (k, ts, cs))) :
    ∃ b rest, buf = b :: rest ∧ readTag b rest = some (.ok (k, ts, cs)) ∧
      cs ≤ rest.length + 1 - ts := by
  cases buf with
  | nil => cases h
  | cons b rest =>
    unfold readKind at h
    cases ht : readTag b rest with
    | none => simp [ht] at h
    | some r =>
      cases r with
      | error e => simp [ht] at h
      | ok t =>
        obtain ⟨k', ts', cs'⟩ := t
        simp only [ht, Option.map_some, Option.some.injEq] at h
        split_ifs at h with hbig
        cases h
        exact ⟨b, rest, rfl, ht, by simp only [List.length_cons] at hbig; omega⟩

theorem readKind_ok_bound {buf : List UInt8} {k : Kind} {ts cs : Nat}
    (h : readKind buf = some (.ok (k, ts, cs))) : 0 < ts + cs ∧ ts + cs ≤ buf.length := by
  obtain ⟨b, rest, rfl, ht, hcs⟩ := readKind_ok_inv h
  have := readTag_ok_inv ht
  simp only [List.length_cons]
  omega

/-- `CountValues`: the number of encoded values in `b`. -/
def CountValues (b : List UInt8) : Option (Except Error Nat) :=
  loop b 0
where
  loop (b : List UInt8) (i : Nat) : Option (Except Error Nat) :=
    if b = [] then some (.ok i)
    else
      match hk : readKind b with
      | none => none
      | some (.error e) => some (.error e)
      | some (.ok (_, tagsize, size)) => loop (b.drop (tagsize + size)) (i + 1)
  termination_by b.length
  decreasing_by
    have := readKind_ok_bound hk
    simp only [List.length_drop]
    omega

/-! The three ways one round of the loop of `CountValues` can go. -/

theorem CountValues_loop_none {b : List UInt8} (hk : readKind b = none) (i : Nat) :
    CountValues.loop b i = none := by
  have hne : b ≠ [] := by
    rintro rfl
    simp [readKind] at hk
  rw [CountValues.loop, if_neg hne]
  split
  · rfl
  · rename_i hk'
    rw [hk] at hk'
    cases hk'
  · rename_i hk'
    rw [hk] at hk'
    cases hk'

theorem CountValues_loop_error {b : List UInt8} {e : Error} (hne : b ≠ [])
    (hk : readKind b = some (.error e)) (i : Nat) : CountValues.loop b i = some (.error e) := by
  rw [CountValues.loop, if_neg hne]
  split
  · rename_i hk'
    rw [hk] at hk'
    cases hk'
  · rename_i hk'
    rw [hk] at hk'
    cases hk'
    rfl
  · rename_i ts' cs' hk'
    rw [hk] at hk'
    cases hk'

theorem CountValues_loop_ok {b : List UInt8} {k : Kind} {ts cs : Nat}
    (hk : readKind b = some (.ok (k, ts, cs))) (i : Nat) :
    CountValues.loop b i = CountValues.loop (b.drop (ts + cs)) (i + 1) := by
  have hne : b ≠ [] := by
    rintro rfl
    simp [readKind] at hk
  rw [CountValues.loop, if_neg hne]
  split
  · rename_i hk'
    rw [hk] at hk'
    cases hk'
  · rename_i hk'
    rw [hk] at hk'
    cases hk'
  · rename_i ts' cs' hk'
    rw [hk] at hk'
    cases hk'
    rfl

/-! ## Splitting encoded values -/

theorem readSize_ofNat (n : Nat) (hlarge : 56 ≤ n) (hn : n < 2 ^ 64) (rest : List UInt8) :
    readSize (BigEndian.ofNat n ++ rest) (UInt8.ofNat (BigEndian.ofNat n).length) = .ok n := by
  obtain ⟨hL0, hL⟩ := length_ofNat_bounds n hlarge hn
  have hlen : (UInt8.ofNat (BigEndian.ofNat n).length).toNat = (BigEndian.ofNat n).length :=
    UInt8.toNat_ofNat_of_lt' (by show (BigEndian.ofNat n).length < 256; omega)
  have hhead : (BigEndian.ofNat n ++ rest).headD 0 ≠ 0 := by
    have := BigEndian.head_ofNat_ne_zero n
    cases hb : BigEndian.ofNat n with
    | nil => simp [hb] at hL0
    | cons x xs => simp_all
  unfold readSize
  have h18 : 1 ≤ (BigEndian.ofNat n).length ∧ (BigEndian.ofNat n).length ≤ 8 := ⟨hL0, hL⟩
  rw [hlen, if_neg (by simp), if_pos h18, List.take_left' rfl, BigEndian.toNat_ofNat]
  simp only [Nat.not_lt.mpr hlarge, decide_false, Bool.false_or, beq_iff_eq, hhead, if_false]

theorem readTag_single {x : UInt8} (hx : x < 0x80) (rest : List UInt8) :
    readTag x rest = some (.ok (.Byte, 0, 1)) := by
  simp [readTag, hx]

theorem readKind_stringHeader (content rest : List UInt8) (hn : content.length < 2 ^ 64)
    (hsingle : ¬ (content.length = 1 ∧ content.headD 0 < 0x80)) :
    readKind (header 0x80 0xB7 content.length ++ content ++ rest) =
      some (.ok (.String, (header 0x80 0xB7 content.length).length, content.length)) := by
  unfold header
  by_cases hsmall : content.length < 56
  · rw [if_pos hsmall]
    have hb : (0x80 + UInt8.ofNat content.length).toNat = 128 + content.length :=
      toNat_tag_add 0x80 _ (by simp; omega)
    have h1 : ¬ (0x80 + UInt8.ofNat content.length) < 0x80 := by simp [UInt8.lt_iff_toNat_lt, hb]
    have h2 : (0x80 + UInt8.ofNat content.length) < 0xB8 := by
      simp [UInt8.lt_iff_toNat_lt, hb]; omega
    have h3 : ((0x80 + UInt8.ofNat content.length) - 0x80).toNat = content.length := by
      rw [UInt8.toNat_sub_of_le _ _ (by simp [UInt8.le_iff_toNat_le, hb])]
      simp [hb]
    have htag : readTag (0x80 + UInt8.ofNat content.length) (content ++ rest) =
        some (.ok (.String, 1, content.length)) := by
      unfold readTag
      rw [if_neg h1, if_pos h2, h3]
      by_cases hone : content.length = 1
      · obtain ⟨x, rfl⟩ := List.length_eq_one_iff.mp hone
        have hx : ¬ x < 128 := fun hx => hsingle ⟨rfl, hx⟩
        simp [hx]
      · simp [hone]
    rw [List.append_assoc, List.singleton_append]
    simp only [readKind, htag, Option.map_some, List.length_cons, List.length_append,
      List.length_nil, Nat.zero_add]
    rw [if_neg (by omega)]
  · rw [if_neg hsmall]
    obtain ⟨hL0, hL⟩ := length_ofNat_bounds content.length (by omega) hn
    have hb : (0xB7 + UInt8.ofNat (BigEndian.ofNat content.length).length).toNat =
        183 + (BigEndian.ofNat content.length).length := toNat_tag_add 0xB7 _ (by simp; omega)
    have h1 : ¬ (0xB7 + UInt8.ofNat (BigEndian.ofNat content.length).length) < 0x80 := by
      simp [UInt8.lt_iff_toNat_lt, hb]; omega
    have h2 : ¬ (0xB7 + UInt8.ofNat (BigEndian.ofNat content.length).length) < 0xB8 := by
      simp [UInt8.lt_iff_toNat_lt, hb]; omega
    have h3 : (0xB7 + UInt8.ofNat (BigEndian.ofNat content.length).length) < 0xC0 := by
      simp [UInt8.lt_iff_toNat_lt, hb]; omega
    have hcancel : (0xB7 + UInt8.ofNat (BigEndian.ofNat content.length).length) - 0xB7 =
        UInt8.ofNat (BigEndian.ofNat content.length).length := by grind
    have hlen : (UInt8.ofNat (BigEndian.ofNat content.length).length).toNat =
        (BigEndian.ofNat content.length).length := UInt8.toNat_ofNat_of_lt' (by show _ < 256; omega)
    have htag : readTag (0xB7 + UInt8.ofNat (BigEndian.ofNat content.length).length)
        (BigEndian.ofNat content.length ++ (content ++ rest)) =
        some (.ok (.String, (BigEndian.ofNat content.length).length + 1, content.length)) := by
      unfold readTag
      rw [if_neg h1, if_neg h2, if_pos h3, hcancel, readSize_ofNat _ (by omega) hn, hlen]
      rfl
    rw [List.append_assoc, List.cons_append]
    simp only [readKind, htag, Option.map_some, List.length_cons, List.length_append]
    rw [if_neg (by omega)]

theorem readKind_listHeader (payload rest : List UInt8) (hn : payload.length < 2 ^ 64) :
    readKind (header 0xC0 0xF7 payload.length ++ payload ++ rest) =
      some (.ok (.List, (header 0xC0 0xF7 payload.length).length, payload.length)) := by
  unfold header
  by_cases hsmall : payload.length < 56
  · rw [if_pos hsmall]
    have hb : (0xC0 + UInt8.ofNat payload.length).toNat = 192 + payload.length :=
      toNat_tag_add 0xC0 _ (by simp; omega)
    have htag : readTag (0xC0 + UInt8.ofNat payload.length) (payload ++ rest) =
        some (.ok (.List, 1, payload.length)) := by
      have h1 : ¬ (0xC0 + UInt8.ofNat payload.length) < 0x80 := by
        simp [UInt8.lt_iff_toNat_lt, hb]; omega
      have h2 : ¬ (0xC0 + UInt8.ofNat payload.length) < 0xB8 := by
        simp [UInt8.lt_iff_toNat_lt, hb]; omega
      have h3 : ¬ (0xC0 + UInt8.ofNat payload.length) < 0xC0 := by simp [UInt8.lt_iff_toNat_lt, hb]
      have h4 : (0xC0 + UInt8.ofNat payload.length) < 0xF8 := by
        simp [UInt8.lt_iff_toNat_lt, hb]; omega
      have h5 : ((0xC0 + UInt8.ofNat payload.length) - 0xC0).toNat = payload.length := by
        rw [UInt8.toNat_sub_of_le _ _ (by simp [UInt8.le_iff_toNat_le, hb])]
        simp [hb]
      unfold readTag
      rw [if_neg h1, if_neg h2, if_neg h3, if_pos h4, h5]
    rw [List.append_assoc, List.singleton_append]
    simp only [readKind, htag, Option.map_some, List.length_cons, List.length_append,
      List.length_nil, Nat.zero_add]
    rw [if_neg (by omega)]
  · rw [if_neg hsmall]
    obtain ⟨hL0, hL⟩ := length_ofNat_bounds payload.length (by omega) hn
    have hb : (0xF7 + UInt8.ofNat (BigEndian.ofNat payload.length).length).toNat =
        247 + (BigEndian.ofNat payload.length).length := toNat_tag_add 0xF7 _ (by simp; omega)
    have hcancel : (0xF7 + UInt8.ofNat (BigEndian.ofNat payload.length).length) - 0xF7 =
        UInt8.ofNat (BigEndian.ofNat payload.length).length := by grind
    have hlen : (UInt8.ofNat (BigEndian.ofNat payload.length).length).toNat =
        (BigEndian.ofNat payload.length).length := UInt8.toNat_ofNat_of_lt' (by show _ < 256; omega)
    have htag : readTag (0xF7 + UInt8.ofNat (BigEndian.ofNat payload.length).length)
        (BigEndian.ofNat payload.length ++ (payload ++ rest)) =
        some (.ok (.List, (BigEndian.ofNat payload.length).length + 1, payload.length)) := by
      have h1 : ¬ (0xF7 + UInt8.ofNat (BigEndian.ofNat payload.length).length) < 0x80 := by
        simp [UInt8.lt_iff_toNat_lt, hb]; omega
      have h2 : ¬ (0xF7 + UInt8.ofNat (BigEndian.ofNat payload.length).length) < 0xB8 := by
        simp [UInt8.lt_iff_toNat_lt, hb]; omega
      have h3 : ¬ (0xF7 + UInt8.ofNat (BigEndian.ofNat payload.length).length) < 0xC0 := by
        simp [UInt8.lt_iff_toNat_lt, hb]; omega
      have h4 : ¬ (0xF7 + UInt8.ofNat (BigEndian.ofNat payload.length).length) < 0xF8 := by
        simp [UInt8.lt_iff_toNat_lt, hb]; omega
      unfold readTag
      rw [if_neg h1, if_neg h2, if_neg h3, if_neg h4, hcancel, readSize_ofNat _ (by omega) hn, hlen]
      rfl
    rw [List.append_assoc, List.cons_append]
    simp only [readKind, htag, Option.map_some, List.length_cons, List.length_append]
    rw [if_neg (by omega)]

/-- What `Split` reports for a value: its kind and its content. -/
def kindOf : Value → Kind
  | .bytes [x] => if x < 0x80 then .Byte else .String
  | .bytes _ => .String
  | .list _ => .List

def contentOf : Value → List UInt8
  | .bytes b => b
  | .list vs => Value.payload vs

theorem kindOf_bytes_of_not_single (b : List UInt8) (h : ¬ (b.length = 1 ∧ b.headD 0 < 0x80)) :
    kindOf (.bytes b) = .String := by
  match b, h with
  | [x], h => exact if_neg (fun hx => h ⟨rfl, hx⟩)
  | [], _ => rfl
  | _ :: _ :: _, _ => rfl

theorem Split_of_readKind {buf : List UInt8} {k : Kind} {ts cs : Nat}
    (h : readKind buf = some (.ok (k, ts, cs))) :
    Split buf = some (.ok (k, (buf.drop ts).take cs, buf.drop (ts + cs))) := by
  simp [Split, h, Except.map]

theorem Split_encoding (v : Value) (hv : v.Sized) (rest : List UInt8) :
    Split (v.encoding ++ rest) = some (.ok (kindOf v, contentOf v, rest)) := by
  cases v with
  | bytes b =>
    by_cases hs : b.length = 1 ∧ b.headD 0 < 0x80
    · obtain ⟨x, rfl⟩ := List.length_eq_one_iff.mp hs.1
      have hx : x < 0x80 := hs.2
      have hk : readKind (x :: rest) = some (.ok (.Byte, 0, 1)) := by
        simp [readKind, readTag_single hx]
      rw [encoding_bytes, stringEncoding_singleton, if_pos hx, List.singleton_append,
        Split_of_readKind hk]
      simp [kindOf, contentOf, hx]
    · have hb : b.length < 2 ^ 64 := hv
      rw [encoding_bytes, stringEncoding_of_not_single b hs,
        Split_of_readKind (readKind_stringHeader b rest hb hs), kindOf_bytes_of_not_single b hs]
      simp [contentOf, List.drop_append, List.drop_left']
  | list vs =>
    have hp : (Value.payload vs).length < 2 ^ 64 := hv.1
    rw [encoding_list, Split_of_readKind (readKind_listHeader _ rest hp)]
    simp [kindOf, contentOf, List.drop_append, List.drop_left']

theorem readKind_of_Split {buf : List UInt8} {k : Kind} {content rest : List UInt8}
    (h : Split buf = some (.ok (k, content, rest))) :
    ∃ ts cs, readKind buf = some (.ok (k, ts, cs)) ∧ content = (buf.drop ts).take cs ∧
      rest = buf.drop (ts + cs) := by
  unfold Split at h
  cases hr : readKind buf with
  | none => simp [hr] at h
  | some r =>
    cases r with
    | error e => simp [hr, Except.map] at h
    | ok t =>
      obtain ⟨k', ts, cs⟩ := t
      simp only [hr, Option.map_some, Except.map, Option.some.injEq, Except.ok.injEq,
        Prod.mk.injEq] at h
      obtain ⟨rfl, rfl, rfl⟩ := h
      exact ⟨ts, cs, rfl, rfl, rfl⟩

theorem SplitString_encoding (b : List UInt8) (hb : b.length < 2 ^ 64) (rest : List UInt8) :
    SplitString ((Value.bytes b).encoding ++ rest) = some (.ok (b, rest)) := by
  have hk : kindOf (.bytes b) ≠ .List := by
    match b with
    | [x] => by_cases hx : x < 0x80 <;> simp [kindOf, hx]
    | [] => simp [kindOf]
    | _ :: _ :: _ => simp [kindOf]
  rw [SplitString, Split_encoding (.bytes b) hb rest]
  simp [hk, contentOf]

theorem SplitList_encoding (vs : List Value) (hv : (Value.list vs).Sized) (rest : List UInt8) :
    SplitList ((Value.list vs).encoding ++ rest) = some (.ok (Value.payload vs, rest)) := by
  rw [SplitList, Split_encoding (.list vs) hv rest]
  simp [kindOf, contentOf]

theorem CountValues_loop_payload (vs : List Value) (hvs : Value.SizedList vs) (i : Nat) :
    CountValues.loop (Value.payload vs) i = some (.ok (i + vs.length)) := by
  induction vs generalizing i with
  | nil => simp [CountValues.loop]
  | cons v vs ih =>
    obtain ⟨hv, hvs⟩ := hvs
    obtain ⟨ts, cs, hread, -, hrest⟩ := readKind_of_Split (Split_encoding v hv (Value.payload vs))
    rw [payload_cons, CountValues_loop_ok hread, ← hrest, ih hvs]
    simp [Nat.add_assoc, Nat.add_comm 1]

theorem CountValues_payload (vs : List Value) (hvs : Value.SizedList vs) :
    CountValues (Value.payload vs) = some (.ok vs.length) := by
  rw [CountValues, CountValues_loop_payload vs hvs 0, Nat.zero_add]

theorem Split_ok_length {buf : List UInt8} {k : Kind} {content rest : List UInt8}
    (h : Split buf = some (.ok (k, content, rest))) :
    rest.length < buf.length ∧ (k = .List → content.length < buf.length) := by
  obtain ⟨ts, cs, hk, rfl, rfl⟩ := readKind_of_Split h
  have hb := readKind_ok_bound hk
  refine ⟨by simp only [List.length_drop]; omega, ?_⟩
  rintro rfl
  have hts : 1 ≤ ts := by
    obtain ⟨b, r, -, ht, -⟩ := readKind_ok_inv hk
    exact readTag_list_tagsize ht
  simp only [List.length_take, List.length_drop]
  omega

theorem SplitString_rest_le {b content rest : List UInt8}
    (h : SplitString b = some (.ok (content, rest))) : rest.length ≤ b.length := by
  unfold SplitString at h
  cases hs : Split b with
  | none => simp [hs] at h
  | some r =>
    cases r with
    | error e => simp [hs] at h
    | ok t =>
      obtain ⟨k, c, r⟩ := t
      simp only [hs, Option.map_some, Option.some.injEq] at h
      split_ifs at h
      cases h
      exact (Split_ok_length hs).1.le

theorem SplitList_content_lt {b content rest : List UInt8}
    (h : SplitList b = some (.ok (content, rest))) : content.length < b.length := by
  unfold SplitList at h
  cases hs : Split b with
  | none => simp [hs] at h
  | some r =>
    cases r with
    | error e => simp [hs] at h
    | ok t =>
      obtain ⟨k, c, r⟩ := t
      simp only [hs, Option.map_some, Option.some.injEq] at h
      split_ifs at h with hk
      cases h
      exact (Split_ok_length hs).2 (not_not.mp hk)

/-! ## Where splitting panics

`readKind` reads `buf[1]` for the tag `0x81` before it checks that the content fits, so the
lone byte `0x81` makes `Split`, `SplitString` and `SplitList` panic, and `CountValues` panics
when it meets it after whole values. On every other input they return an error, or a header of
at most nine bytes, the content and the rest, in this order. -/

theorem readTag_eq_none_iff (b : UInt8) (rest : List UInt8) :
    readTag b rest = none ↔ b = 0x81 ∧ rest = [] := by
  constructor
  · intro h
    unfold readTag at h
    -- every arm returns `some` but the read of `buf[1]`
    split_ifs at h with h1 h2 h3
    cases rest with
    | nil =>
      have hle : (0x80 : UInt8) ≤ b := UInt8.not_lt.mp h1
      rw [UInt8.toNat_sub_of_le _ _ hle] at h3
      have hb : b.toNat = 0x81 := by simp at h3; omega
      exact ⟨UInt8.toNat_inj.mp hb, rfl⟩
    | cons c cs => cases h
  · rintro ⟨rfl, rfl⟩
    rfl

theorem readKind_eq_none_iff (buf : List UInt8) : readKind buf = none ↔ buf = [0x81] := by
  cases buf with
  | nil => simp [readKind]
  | cons b rest =>
    rw [readKind, Option.map_eq_none_iff, readTag_eq_none_iff]
    simp

theorem Split_eq_none_iff (b : List UInt8) : Split b = none ↔ b = [0x81] := by
  rw [Split, Option.map_eq_none_iff, readKind_eq_none_iff]

theorem SplitString_eq_none_iff (b : List UInt8) : SplitString b = none ↔ b = [0x81] := by
  rw [SplitString, Option.map_eq_none_iff, Split_eq_none_iff]

theorem SplitList_eq_none_iff (b : List UInt8) : SplitList b = none ↔ b = [0x81] := by
  rw [SplitList, Option.map_eq_none_iff, Split_eq_none_iff]

theorem readTag_ok_tagsize {b : UInt8} {rest : List UInt8} {k : Kind} {ts cs : Nat}
    (h : readTag b rest = some (.ok (k, ts, cs))) : (k = .Byte ↔ ts = 0) ∧ ts ≤ 9 := by
  have hb256 : b.toNat < 256 := b.toNat_lt
  unfold readTag at h
  split_ifs at h with h1 h2 h3 h4 h5
  · cases h
    simp
  · cases rest with
    | nil => cases h
    | cons c cs' =>
      simp only [Option.some.injEq] at h
      split_ifs at h
      cases h
      simp
  · cases h
    simp
  · cases hs : readSize rest (b - 0xB7) with
    | error e => simp [hs, Except.map] at h
    | ok s =>
      simp only [hs, Except.map, Option.some.injEq, Except.ok.injEq, Prod.mk.injEq] at h
      obtain ⟨rfl, rfl, rfl⟩ := h
      -- `0xB8 ≤ b < 0xC0`: the size takes one to eight bytes
      simp [UInt8.lt_iff_toNat_lt] at h2 h4
      rw [UInt8.toNat_sub_of_le _ _ (by simp [UInt8.le_iff_toNat_le]; omega)]
      simp
      omega
  · cases h
    simp
  · cases hs : readSize rest (b - 0xF7) with
    | error e => simp [hs, Except.map] at h
    | ok s =>
      simp only [hs, Except.map, Option.some.injEq, Except.ok.injEq, Prod.mk.injEq] at h
      obtain ⟨rfl, rfl, rfl⟩ := h
      simp [UInt8.lt_iff_toNat_lt] at h5
      rw [UInt8.toNat_sub_of_le _ _ (by simp [UInt8.le_iff_toNat_le]; omega)]
      simp
      omega

theorem Split_ok_eq_append {b : List UInt8} {k : Kind} {content rest : List UInt8}
    (h : Split b = some (.ok (k, content, rest))) :
    ∃ hdr, b = hdr ++ content ++ rest ∧ (k = .Byte ↔ hdr = []) ∧ hdr.length ≤ 9 := by
  obtain ⟨ts, cs, hk, rfl, rfl⟩ := readKind_of_Split h
  obtain ⟨x, xs, hb, ht, -⟩ := readKind_ok_inv hk
  have hts := readTag_ok_tagsize ht
  refine ⟨b.take ts, ?_, ?_, ?_⟩
  · calc b = b.take ts ++ b.drop ts := (List.take_append_drop ts b).symm
      _ = b.take ts ++ ((b.drop ts).take cs ++ (b.drop ts).drop cs) := by
        rw [List.take_append_drop cs (b.drop ts)]
      _ = _ := by rw [List.drop_drop, List.append_assoc]
  · rw [hts.1, List.take_eq_nil_iff]
    simp [hb]
  · rw [List.length_take]
    omega

/-! What `readKind` accepts it accepts the same with anything after it: it looks past the
header only to check that the content fits. -/

theorem readSize_append {b : List UInt8} {slen : UInt8} {s : Nat} (h : readSize b slen = .ok s)
    (t : List UInt8) : readSize (b ++ t) slen = .ok s := by
  have hle := readSize_le h
  cases b with
  | nil =>
    -- with no size byte the size reads as zero, which is rejected
    simp only [List.length_nil, Nat.le_zero] at hle
    simp [readSize, hle] at h
  | cons x xs =>
    unfold readSize at h ⊢
    rw [if_neg (by simp only [List.length_append] at hle ⊢; omega), List.take_append_of_le_length hle]
    rw [if_neg (by omega)] at h
    simpa using h

theorem readTag_append {b : UInt8} {rest : List UInt8} {r : Kind × Nat × Nat}
    (h : readTag b rest = some (.ok r)) (t : List UInt8) : readTag b (rest ++ t) = some (.ok r) := by
  unfold readTag at h ⊢
  split_ifs at h ⊢ with h1 h2 h3 h4 h5
  · exact h
  · cases rest with
    | nil => cases h
    | cons c cs => exact h
  · exact h
  · cases hs : readSize rest (b - 0xB7) with
    | error e => simp [hs, Except.map] at h
    | ok s =>
      rw [hs] at h
      rw [readSize_append hs]
      exact h
  · exact h
  · cases hs : readSize rest (b - 0xF7) with
    | error e => simp [hs, Except.map] at h
    | ok s =>
      rw [hs] at h
      rw [readSize_append hs]
      exact h

theorem readKind_append {buf : List UInt8} {r : Kind × Nat × Nat}
    (h : readKind buf = some (.ok r)) (t : List UInt8) : readKind (buf ++ t) = some (.ok r) := by
  obtain ⟨k, ts, cs⟩ := r
  obtain ⟨b, rest, rfl, ht, hcs⟩ := readKind_ok_inv h
  simp only [List.cons_append, readKind, readTag_append ht t, Option.map_some]
  rw [if_neg (by simp only [List.length_cons, List.length_append]; omega)]

theorem CountValues_loop_append_81 {b : List UInt8} {i n : Nat}
    (h : CountValues.loop b i = some (.ok n)) : CountValues.loop (b ++ [0x81]) i = none := by
  induction b, i using CountValues.loop.induct with
  | case1 i => exact CountValues_loop_none ((readKind_eq_none_iff _).mpr rfl) i
  | case2 b i _ hk =>
    rw [CountValues_loop_none hk] at h
    cases h
  | case3 b i hne e hk =>
    rw [CountValues_loop_error hne hk] at h
    cases h
  | case4 b i _ k ts cs hk ih =>
    -- the value read first is read the same with the `0x81` after it
    have hb := readKind_ok_bound hk
    rw [CountValues_loop_ok hk] at h
    rw [CountValues_loop_ok (readKind_append hk _), List.drop_append_of_le_length hb.2]
    exact ih h

theorem Split_total_except_lone_81 (b : List UInt8) :
    (Split b = none ↔ b = [0x81]) ∧ (SplitString b = none ↔ b = [0x81]) ∧
      (SplitList b = none ↔ b = [0x81]) ∧
      (∀ n, CountValues b = some (.ok n) → CountValues (b ++ [0x81]) = none) ∧
      ∀ k content rest, Split b = some (.ok (k, content, rest)) →
        ∃ hdr, b = hdr ++ content ++ rest ∧ (k = .Byte ↔ hdr = []) ∧ hdr.length ≤ 9 := by
  refine ⟨Split_eq_none_iff b, SplitString_eq_none_iff b, SplitList_eq_none_iff b, ?_, ?_⟩
  · intro n h
    exact CountValues_loop_append_81 h
  · intro k content rest h
    exact Split_ok_eq_append h

end Zerium.Rlp.Raw
