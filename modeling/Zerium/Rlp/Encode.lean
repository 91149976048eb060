import Zerium.Rlp.Value

/-! # The RLP encoder of `encode.go`

`encbuf` keeps the string data apart from the list headers: `list` records the offset of a
header and the header bytes written so far, `listEnd` fills in the payload size once the
items are written, and `toBytes` interleaves the string data with the encoded headers.
List headers are identified by their index in `lheads`, which stands for the pointer that
`list` returns in the source.
-/

namespace Zerium.Rlp

set_option autoImplicit false

/-- `putint`: `i` in big-endian order, in the least number of bytes (one byte for zero). -/
def putint (i : UInt64) : List UInt8 :=
  if i < (1 : UInt64) <<< 8 then [i.toUInt8]
  else if i < (1 : UInt64) <<< 16 then [(i >>> 8).toUInt8, i.toUInt8]
  else if i < (1 : UInt64) <<< 24 then [(i >>> 16).toUInt8, (i >>> 8).toUInt8, i.toUInt8]
  else if i < (1 : UInt64) <<< 32 then
    [(i >>> 24).toUInt8, (i >>> 16).toUInt8, (i >>> 8).toUInt8, i.toUInt8]
  else if i < (1 : UInt64) <<< 40 then
    [(i >>> 32).toUInt8, (i >>> 24).toUInt8, (i >>> 16).toUInt8, (i >>> 8).toUInt8, i.toUInt8]
  else if i < (1 : UInt64) <<< 48 then
    [(i >>> 40).toUInt8, (i >>> 32).toUInt8, (i >>> 24).toUInt8, (i >>> 16).toUInt8,
      (i >>> 8).toUInt8, i.toUInt8]
  else if i < (1 : UInt64) <<< 56 then
    [(i >>> 48).toUInt8, (i >>> 40).toUInt8, (i >>> 32).toUInt8, (i >>> 24).toUInt8,
      (i >>> 16).toUInt8, (i >>> 8).toUInt8, i.toUInt8]
  else
    [(i >>> 56).toUInt8, (i >>> 48).toUInt8, (i >>> 40).toUInt8, (i >>> 32).toUInt8,
      (i >>> 24).toUInt8, (i >>> 16).toUInt8, (i >>> 8).toUInt8, i.toUInt8]

theorem toNat_putint (i : UInt64) : BigEndian.toNat (putint i) = i.toNat := by
  have hlt := i.toNat_lt
  unfold putint
  -- each branch is a fixed number of shifted bytes; `omega` reassembles them
  split_ifs <;> simp [BigEndian.toNat, UInt64.lt_iff_toNat_lt, Nat.shiftRight_eq_div_pow] at * <;>
    omega

theorem head_putint_ne_zero (i : UInt64) (h : i ≠ 0) : (putint i).head? ≠ some 0 := by
  have hlt := i.toNat_lt
  have hi : i.toNat ≠ 0 := fun h0 => h (UInt64.toNat_inj.mp (by simpa using h0))
  unfold putint
  split_ifs <;> simp [UInt64.lt_iff_toNat_lt, Nat.shiftRight_eq_div_pow, ← UInt8.toNat_inj] at * <;>
    omega

theorem putint_eq_ofNat (i : UInt64) (h : i ≠ 0) : putint i = BigEndian.ofNat i.toNat := by
  rw [← toNat_putint i, BigEndian.ofNat_toNat _ (head_putint_ne_zero i h)]

/-- The loop of `intsize` after its first shift: `i` is the value already shifted. -/
def intsizeLoop (size : Nat) (i : UInt64) : Nat :=
  if h : i = 0 then size else intsizeLoop (size + 1) (i >>> 8)
termination_by i.toNat
decreasing_by
  have hi : 0 < i.toNat := by
    rw [Nat.pos_iff_ne_zero]
    exact fun h0 => h (UInt64.toNat_inj.mp (by simpa using h0))
  rw [UInt64.toNat_shiftRight]
  simp only [UInt64.reduceToNat, Nat.reduceMod, Nat.shiftRight_eq_div_pow]
  omega

/-- `intsize`: the minimum number of bytes required to store `i`. -/
def intsize (i : UInt64) : Nat := intsizeLoop 1 (i >>> 8)

theorem toNat_shiftRight_eight (i : UInt64) : (i >>> 8).toNat = i.toNat / 256 := by
  rw [UInt64.toNat_shiftRight]
  simp [Nat.shiftRight_eq_div_pow]

theorem intsizeLoop_eq (size : Nat) (i : UInt64) :
    intsizeLoop size i = size + (BigEndian.ofNat i.toNat).length := by
  induction size, i using intsizeLoop.induct with
  | case1 size =>
    rw [intsizeLoop, dif_pos rfl]
    simp [BigEndian.ofNat_zero]
  | case2 size i h ih =>
    have hi : 0 < i.toNat := by
      rw [Nat.pos_iff_ne_zero]
      exact fun h0 => h (UInt64.toNat_inj.mp (by simpa using h0))
    rw [intsizeLoop, dif_neg h, ih, toNat_shiftRight_eight, BigEndian.length_ofNat_of_pos _ hi]
    omega

theorem intsize_eq (i : UInt64) (h : i ≠ 0) : intsize i = (BigEndian.ofNat i.toNat).length := by
  have hi : 0 < i.toNat := by
    rw [Nat.pos_iff_ne_zero]
    exact fun h0 => h (UInt64.toNat_inj.mp (by simpa using h0))
  rw [intsize, intsizeLoop_eq, toNat_shiftRight_eight, BigEndian.length_ofNat_of_pos _ hi]
  omega

/-- `headsize`: the size of a list or string header for a value of the given size. -/
def headsize (size : UInt64) : Nat := if size < 56 then 1 else 1 + intsize size

/-- `puthead`: the bytes of a list or string header, as written to the start of `buf`. -/
def puthead (smalltag largetag : UInt8) (size : UInt64) : List UInt8 :=
  if size < 56 then [smalltag + size.toUInt8]
  else
    let sizesize := putint size
    (largetag + UInt8.ofNat sizesize.length) :: sizesize

structure Listhead where
  /-- index of this header in string data -/
  offset : Nat
  /-- total size of encoded data (including list headers) -/
  size : Nat
deriving DecidableEq, Repr

structure Encbuf where
  /-- string data, contains everything except list headers -/
  str : List UInt8
  /-- all list headers -/
  lheads : List Listhead
  /-- sum of sizes of all encoded list headers -/
  lhsize : Nat
deriving DecidableEq, Repr

namespace Encbuf

/-- The state after `reset`, which is also a fresh buffer of the pool. -/
def empty : Encbuf := ⟨[], [], 0⟩

def size (w : Encbuf) : Nat := w.str.length + w.lhsize

def append (w : Encbuf) (b : List UInt8) : Encbuf := { w with str := w.str ++ b }

def encodeStringHeader (w : Encbuf) (size : Nat) : Encbuf :=
  w.append (puthead 0x80 0xB7 (UInt64.ofNat size))

def encodeString (w : Encbuf) (b : List UInt8) : Encbuf :=
  match b with
  | [x] => if x ≤ 0x7F then w.append [x] else (w.encodeStringHeader 1).append [x]
  | b => (w.encodeStringHeader b.length).append b

/-- `list` returns the index of the header it records. -/
def list (w : Encbuf) : Nat × Encbuf :=
  (w.lheads.length, { w with lheads := w.lheads ++ [⟨w.str.length, w.lhsize⟩] })

def listEnd (w : Encbuf) (lh : Nat) : Encbuf :=
  let head := w.lheads.getD lh ⟨0, 0⟩
  let size := w.size - head.offset - head.size
  { w with
    lheads := w.lheads.set lh { head with size }
    lhsize := w.lhsize + if size < 56 then 1 else 1 + intsize (UInt64.ofNat size) }

end Encbuf

def Listhead.encode (head : Listhead) : List UInt8 := puthead 0xC0 0xF7 (UInt64.ofNat head.size)

/-- The loop of `toBytes`: string data up to each header, then the header itself. -/
def toBytesLoop (str : List UInt8) : Nat → List Listhead → List UInt8
  | strpos, [] => str.drop strpos
  | strpos, head :: heads =>
    let chunk := (str.take head.offset).drop strpos
    chunk ++ head.encode ++ toBytesLoop str (strpos + chunk.length) heads

def Encbuf.toBytes (w : Encbuf) : List UInt8 := toBytesLoop w.str 0 w.lheads

/-! ## Writers for `uint64`, `*big.Int`, byte strings and lists -/

def writeUint (i : UInt64) (w : Encbuf) : Encbuf :=
  if i = 0 then w.append [0x80]
  else if i < 128 then w.append [i.toUInt8]
  else
    let s := putint i
    w.append ((0x80 + UInt8.ofNat s.length) :: s)

/-- `writeBigInt`; `big.Int.Bytes` is the minimal big-endian form of the absolute value. -/
def writeBigInt (i : Int) (w : Encbuf) : Except String Encbuf :=
  if i < 0 then .error "rlp: cannot encode negative *big.Int"
  else if i = 0 then .ok (w.append [0x80])
  else .ok (w.encodeString (BigEndian.ofNat i.toNat))

/-- `writeBigIntPtr`: a nil `*big.Int` encodes as the empty string. -/
def writeBigIntPtr (ptr : Option Int) (w : Encbuf) : Except String Encbuf :=
  match ptr with
  | none => .ok (w.append [0x80])
  | some i => writeBigInt i w

def writeBytes (b : List UInt8) (w : Encbuf) : Encbuf := w.encodeString b

mutual
/-- The writer of a value tree: `writeBytes` for `[]byte` and the slice writer of
`makeSliceWriter` for `[]interface{}`. -/
def writeValue : Value → Encbuf → Encbuf
  | .bytes b, w => writeBytes b w
  | .list vs, w =>
    let (lh, w) := w.list
    (writeElems vs w).listEnd lh

/-- The element loop of the slice writer; `writeInterface` writes a non-nil element with
the writer of its dynamic type. -/
def writeElems : List Value → Encbuf → Encbuf
  | [], w => w
  | v :: vs, w => writeElems vs (writeValue v w)
end

/-- `EncodeToBytes` for a value whose type has the writer `writer`. -/
def EncodeToBytes {α : Type} (writer : α → Encbuf → Except String Encbuf) (val : α) :
    Except String (List UInt8) :=
  match writer val Encbuf.empty with
  | .ok w => .ok w.toBytes
  | .error e => .error e

/-! ## `toWriter` and the reader of `EncodeToReader` -/

/-- An `io.Writer` over a state `σ`: `Write` returns the number of bytes it wrote and an error. -/
structure Writer (σ ε : Type) where
  write : σ → List UInt8 → σ × Nat × Option ε

/-- The loop of `toWriter`: string data up to each header, then the header; an error of the
writer ends it. -/
def toWriterLoop {σ ε : Type} (out : Writer σ ε) (str : List UInt8) :
    Nat → List Listhead → σ → σ × Option ε
  | strpos, [], s =>
    -- string data after the last list header
    if strpos < str.length then
      let (s, _, err) := out.write s (str.drop strpos)
      (s, err)
    else (s, none)
  | strpos, head :: heads, s =>
    let before : σ × Nat × Option ε :=
      if head.offset - strpos > 0 then
        let (s, n, err) := out.write s ((str.take head.offset).drop strpos)
        (s, strpos + n, err)
      else (s, strpos, none)
    match before with
    | (s, _, some err) => (s, some err)
    | (s, strpos, none) =>
      match out.write s head.encode with
      | (s, _, some err) => (s, some err)
      | (s, _, none) => toWriterLoop out str strpos heads s

def Encbuf.toWriter {σ ε : Type} (w : Encbuf) (out : Writer σ ε) (s : σ) : σ × Option ε :=
  toWriterLoop out w.str 0 w.lheads s

/-- `encReader`: `buf` is `none` once the reader has met the end and given the buffer back. -/
structure EncReader where
  buf : Option Encbuf
  /-- index of the list header being read -/
  lhpos : Nat
  /-- position in the string data -/
  strpos : Nat
  /-- the next piece to be read -/
  piece : Option (List UInt8)

namespace EncReader

/-- `next`: the next piece to be read, `none` at the end. -/
def next (r : EncReader) : Option (List UInt8) × EncReader :=
  match r.buf, r.piece with
  | none, _ => (none, r)
  | some _, some piece => (some piece, r)
  | some buf, none =>
    match buf.lheads[r.lhpos]? with
    | some head =>
      -- before the last list header: the string data before it, then the header
      let sizebefore := head.offset - r.strpos
      if sizebefore > 0 then
        (some ((buf.str.take head.offset).drop r.strpos), { r with strpos := r.strpos + sizebefore })
      else (some head.encode, { r with lhpos := r.lhpos + 1 })
    | none =>
      -- string data at the end, after all list headers
      if r.strpos < buf.str.length then
        (some (buf.str.drop r.strpos), { r with strpos := buf.str.length })
      else (none, r)

/-- What is left for `next` to hand out: list headers, then string data before the next header
or at the end (twice over, so that a pending piece counts as well). -/
def pending (r : EncReader) : Nat × Nat :=
  match r.buf with
  | none => (0, 0)
  | some buf =>
    (buf.lheads.length - r.lhpos,
      2 * (match buf.lheads[r.lhpos]? with
        | some head => head.offset - r.strpos
        | none => buf.str.length - r.strpos) + (if r.piece.isSome then 1 else 0))

theorem next_pending_lt {r r' : EncReader} {p : List UInt8} (h : r.next = (some p, r')) :
    Prod.Lex (· < ·) (· < ·) { r' with piece := none }.pending r.pending := by
  obtain ⟨buf, lhpos, strpos, piece⟩ := r
  cases buf with
  | none => simp [next] at h
  | some buf =>
    cases piece with
    | some q =>
      -- the pending piece is handed out and dropped
      simp only [next, Option.some.injEq, Prod.mk.injEq] at h
      obtain ⟨-, rfl⟩ := h
      exact Prod.Lex.right _ (by simp)
    | none =>
      cases hget : buf.lheads[lhpos]? with
      | some head =>
        have hlt : lhpos < buf.lheads.length := by
          rw [List.getElem?_eq_some_iff] at hget
          exact hget.1
        by_cases hs : head.offset - strpos > 0
        · simp only [next, hget, if_pos hs, Option.some.injEq, Prod.mk.injEq] at h
          obtain ⟨-, rfl⟩ := h
          exact Prod.Lex.right _ (by simp [hget]; show head.offset - (strpos + (head.offset - strpos)) < head.offset - strpos; omega)
        · simp only [next, hget, if_neg hs, Option.some.injEq, Prod.mk.injEq] at h
          obtain ⟨-, rfl⟩ := h
          exact Prod.Lex.left _ _ (by simp only; omega)
      | none =>
        have hge : buf.lheads.length ≤ lhpos := by
          rw [List.getElem?_eq_none_iff] at hget
          exact hget
        by_cases hs : strpos < buf.str.length
        · simp only [next, hget, if_pos hs, Option.some.injEq, Prod.mk.injEq] at h
          obtain ⟨-, rfl⟩ := h
          exact Prod.Lex.right _ (by simp [hget]; omega)
        · simp [next, hget, if_neg hs] at h

/-- The loop of `Read` into a buffer of `len` bytes; `out` is what it has copied so far, and
the flag says whether it met the end (`io.EOF`). -/
def readLoop (len : Nat) (out : List UInt8) (r : EncReader) : (List UInt8 × Bool) × EncReader :=
  match h : r.next with
  | (none, r') =>
    -- the encode buffer goes back to the pool the first time the end is met
    ((out, true), { r' with piece := none, buf := none })
  | (some piece, r') =>
    let nn := min (len - out.length) piece.length
    let out := out ++ piece.take nn
    if nn < piece.length then
      -- the piece did not fit, see you next time
      ((out, false), { r' with piece := some (piece.drop nn) })
    else readLoop len out { r' with piece := none }
termination_by r.pending
decreasing_by exact next_pending_lt h

/-- `Read` into a buffer of `len` bytes. -/
def Read (r : EncReader) (len : Nat) : (List UInt8 × Bool) × EncReader := r.readLoop len []

end EncReader

/-- `EncodeToReader` for a value whose type has the writer `writer`: the size of the encoding
and the reader. -/
def EncodeToReader {α : Type} (writer : α → Encbuf → Except String Encbuf) (val : α) :
    Except String (Nat × EncReader) :=
  match writer val Encbuf.empty with
  | .ok w => .ok (w.size, ⟨some w, 0, 0, none⟩)
  | .error e => .error e



/-! ## Headers and strings agree with the format -/

theorem toUInt8_ofNat (n : Nat) : (UInt64.ofNat n).toUInt8 = UInt8.ofNat n := by
  apply UInt8.toNat_inj.mp
  simp

theorem ofNat_lt_ofNat_iff (n k : Nat) (hn : n < 2 ^ 64) (hk : k < 2 ^ 64) :
    UInt64.ofNat n < UInt64.ofNat k ↔ n < k := by
  rw [UInt64.lt_iff_toNat_lt, UInt64.toNat_ofNat_of_lt' hn, UInt64.toNat_ofNat_of_lt' hk]

theorem ofNat_ne_zero (n : Nat) (hn : n < 2 ^ 64) (hpos : 0 < n) : UInt64.ofNat n ≠ 0 := by
  intro h0
  have h := congrArg UInt64.toNat h0
  rw [UInt64.toNat_ofNat_of_lt' hn] at h
  simp at h
  omega

theorem puthead_eq_header (smalltag largetag : UInt8) (n : Nat) (hn : n < 2 ^ 64) :
    puthead smalltag largetag (UInt64.ofNat n) = header smalltag largetag n := by
  have hsmall : UInt64.ofNat n < 56 ↔ n < 56 := ofNat_lt_ofNat_iff n 56 hn (by decide)
  unfold puthead header
  by_cases h : n < 56
  · rw [if_pos (hsmall.mpr h), if_pos h, toUInt8_ofNat]
  · have hne := ofNat_ne_zero n hn (by omega)
    rw [if_neg (fun h' => h (hsmall.mp h')), if_neg h]
    simp only [putint_eq_ofNat _ hne, UInt64.toNat_ofNat_of_lt' hn]

theorem listEnd_headsize (n : Nat) (hn : n < 2 ^ 64) :
    (if n < 56 then 1 else 1 + intsize (UInt64.ofNat n)) = (header 0xC0 0xF7 n).length := by
  rw [length_header]
  split
  · rfl
  · rename_i h
    rw [intsize_eq _ (ofNat_ne_zero n hn (by omega)), UInt64.toNat_ofNat_of_lt' hn]

namespace Encbuf

@[simp] theorem append_str (w : Encbuf) (b : List UInt8) : (w.append b).str = w.str ++ b := rfl

@[simp] theorem append_lheads (w : Encbuf) (b : List UInt8) : (w.append b).lheads = w.lheads :=
  rfl

@[simp] theorem append_lhsize (w : Encbuf) (b : List UInt8) : (w.append b).lhsize = w.lhsize :=
  rfl

theorem append_append (w : Encbuf) (a b : List UInt8) :
    (w.append a).append b = w.append (a ++ b) := by
  simp only [append, List.append_assoc]

theorem encodeStringHeader_eq (w : Encbuf) (size : Nat) (hsize : size < 2 ^ 64) :
    w.encodeStringHeader size = w.append (header 0x80 0xB7 size) := by
  rw [encodeStringHeader, puthead_eq_header _ _ _ hsize]

theorem encodeString_eq (w : Encbuf) (b : List UInt8) (hb : b.length < 2 ^ 64) :
    w.encodeString b = w.append (stringEncoding b) := by
  by_cases h : b.length = 1
  · obtain ⟨x, rfl⟩ := List.length_eq_one_iff.mp h
    have hx : x ≤ 0x7F ↔ x < 0x80 := by
      rw [UInt8.le_iff_toNat_le, UInt8.lt_iff_toNat_lt]
      simp only [UInt8.reduceToNat]
      omega
    rw [encodeString, stringEncoding_singleton]
    by_cases hsmall : x < 0x80
    · rw [if_pos (hx.mpr hsmall), if_pos hsmall]
    · rw [if_neg (fun h' => hsmall (hx.mp h')), if_neg hsmall,
        encodeStringHeader_eq _ _ (by decide), append_append]
  · have hshape : w.encodeString b = (w.encodeStringHeader b.length).append b := by
      unfold encodeString
      split
      · simp at h
      · rfl
    rw [hshape, stringEncoding_of_length_ne_one b h, encodeStringHeader_eq _ _ hb,
      append_append]

end Encbuf

theorem writeUint_eq (i : UInt64) (w : Encbuf) :
    writeUint i w = w.append (uintEncoding i.toNat) := by
  have hlt := i.toNat_lt
  unfold writeUint uintEncoding
  by_cases h0 : i = 0
  · subst h0
    rw [if_pos rfl]
    simp [BigEndian.ofNat_zero, stringEncoding, header]
  rw [if_neg h0]
  have hpos : 0 < i.toNat := by
    rw [Nat.pos_iff_ne_zero]
    exact fun h => h0 (UInt64.toNat_inj.mp (by simpa using h))
  by_cases hsmall : i < 128
  · have hsmall' : i.toNat < 128 := by simpa [UInt64.lt_iff_toNat_lt] using hsmall
    rw [if_pos hsmall, BigEndian.ofNat_of_lt _ hpos (by omega), stringEncoding_singleton,
      if_pos (by simp [UInt8.lt_iff_toNat_lt]; omega)]
    congr 2
  · rw [if_neg hsmall, putint_eq_ofNat i h0]
    have hbig : 128 ≤ i.toNat := by simpa [UInt64.lt_iff_toNat_lt] using hsmall
    have hlen : (BigEndian.ofNat i.toNat).length ≤ 8 :=
      (BigEndian.length_ofNat_le_iff _ 8).mpr hlt
    have hne : (BigEndian.ofNat i.toNat).length ≠ 0 := by
      rw [ne_eq, List.length_eq_zero_iff, BigEndian.ofNat_eq_nil_iff]
      omega
    have hheader : header 0x80 0xB7 (BigEndian.ofNat i.toNat).length =
        [0x80 + UInt8.ofNat (BigEndian.ofNat i.toNat).length] := by
      rw [header, if_pos (by omega)]
    by_cases h1 : (BigEndian.ofNat i.toNat).length = 1
    · obtain ⟨x, hx⟩ := List.length_eq_one_iff.mp h1
      have hx' : 128 ≤ x.toNat := by
        have := BigEndian.toNat_ofNat i.toNat
        rw [hx] at this
        simp [BigEndian.toNat] at this
        omega
      rw [hx, stringEncoding_singleton, if_neg (by simp [UInt8.lt_iff_toNat_lt]; omega)]
      simp [header]
    · rw [stringEncoding_of_length_ne_one _ h1, hheader]
      rfl

theorem writeBigIntPtr_eq (i : Int) (w : Encbuf) (hi : 0 ≤ i)
    (hlen : (BigEndian.ofNat i.toNat).length < 2 ^ 64) :
    writeBigIntPtr (some i) w = .ok (w.append (uintEncoding i.toNat)) := by
  rw [writeBigIntPtr, writeBigInt, if_neg (by omega)]
  by_cases h0 : i = 0
  · subst h0
    simp [uintEncoding, BigEndian.ofNat_zero, stringEncoding, header]
  · rw [if_neg h0, Encbuf.encodeString_eq _ _ hlen]
    rfl

example : EncodeToBytes (fun v w => .ok (writeValue v w))
    (Value.list [.bytes [0x63, 0x61, 0x74], .bytes [0x64, 0x6f, 0x67]]) =
    .ok [0xc8, 0x83, 0x63, 0x61, 0x74, 0x83, 0x64, 0x6f, 0x67] := by decide

end Zerium.Rlp
