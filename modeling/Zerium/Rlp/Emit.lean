import Zerium.Rlp.Deferred

/-! # `toWriter` and `encReader` emit what `toBytes` renders

The three emitters of `encode.go` interleave the string data of a buffer with its list headers
in the same order. Into a writer that takes every byte, `toWriter` writes the rendering of
`toBytes`. The reader of `EncodeToReader` is read through `EncReader.rest`, the bytes it has
still to give: `next` hands out the front of it, and `Read` copies what fits. A run of reads into
buffers of any sizes is then reading the encoding in chunks (`readsOf`).
-/

namespace Zerium.Rlp

set_option autoImplicit false


/-- A `bytes.Buffer` as a writer: it takes every byte and never fails. -/
def byteBuffer (ε : Type) : Writer (List UInt8) ε := ⟨fun s b => (s ++ b, b.length, none)⟩

@[simp] theorem byteBuffer_write {ε : Type} (s b : List UInt8) :
    (byteBuffer ε).write s b = (s ++ b, b.length, none) := rfl

theorem toWriterLoop_byteBuffer {ε : Type} (str : List UInt8) (strpos : Nat) (heads : List Listhead)
    (s : List UInt8) :
    toWriterLoop (byteBuffer ε) str strpos heads s = (s ++ toBytesLoop str strpos heads, none) := by
  induction heads generalizing strpos s with
  | nil =>
    by_cases h : strpos < str.length
    · simp [toWriterLoop, toBytesLoop, h]
    · simp [toWriterLoop, toBytesLoop, h, List.drop_eq_nil_of_le (Nat.le_of_not_lt h)]
  | cons head heads ih =>
    by_cases h : head.offset - strpos > 0
    · simp [toWriterLoop, toBytesLoop, h, ih, List.append_assoc]
    · -- no string data before the header
      have hchunk : (str.take head.offset).drop strpos = [] :=
        List.drop_eq_nil_of_le (by simp only [List.length_take]; omega)
      simp [toWriterLoop, toBytesLoop, h, ih, hchunk]

theorem toWriter_byteBuffer {ε : Type} (w : Encbuf) (s : List UInt8) :
    w.toWriter (byteBuffer ε) s = (s ++ w.toBytes, none) :=
  toWriterLoop_byteBuffer w.str 0 w.lheads s

def Encbuf.OffsetsFit (w : Encbuf) : Prop := ∀ head ∈ w.lheads, head.offset ≤ w.str.length

theorem HeadsWithin.offset_le {lo hi : Nat} {heads : List Listhead} (h : HeadsWithin lo hi heads) :
    ∀ head ∈ heads, head.offset ≤ hi := by
  induction heads generalizing lo with
  | nil => simp
  | cons head heads ih =>
    obtain ⟨-, hrest⟩ := h
    intro head' hmem
    rcases List.mem_cons.mp hmem with rfl | hmem
    · exact hrest.le
    · exact ih hrest head' hmem

namespace EncReader

def rest (r : EncReader) : List UInt8 :=
  match r.buf with
  | none => []
  | some buf => r.piece.getD [] ++ toBytesLoop buf.str r.strpos (buf.lheads.drop r.lhpos)

def Wf (r : EncReader) : Prop := ∀ buf, r.buf = some buf → buf.OffsetsFit

theorem rest_piece {r : EncReader} {buf : Encbuf} (hbuf : r.buf = some buf) (x : List UInt8) :
    { r with piece := some x }.rest = x ++ { r with piece := none }.rest := by
  simp [rest, hbuf]

theorem next_buf {r r' : EncReader} {p : Option (List UInt8)} (h : r.next = (p, r')) :
    r'.buf = r.buf := by
  obtain ⟨buf, lhpos, strpos, piece⟩ := r
  cases buf with
  | none =>
    simp only [next, Prod.mk.injEq] at h
    rw [← h.2]
  | some buf =>
    cases piece with
    | some q =>
      simp only [next, Prod.mk.injEq] at h
      rw [← h.2]
    | none =>
      simp only [next] at h
      split at h
      · split at h <;> (simp only [Prod.mk.injEq] at h; rw [← h.2])
      · split at h <;> (simp only [Prod.mk.injEq] at h; rw [← h.2])

theorem next_none_rest {r r' : EncReader} (h : r.next = (none, r')) : r.rest = [] := by
  obtain ⟨buf, lhpos, strpos, piece⟩ := r
  cases buf with
  | none => rfl
  | some buf =>
    cases piece with
    | some q => simp [next] at h
    | none =>
      cases hget : buf.lheads[lhpos]? with
      | some head =>
        simp only [next, hget] at h
        split at h <;> simp at h
      | none =>
        -- past the last header, with no string data left
        have hge : buf.lheads.length ≤ lhpos := List.getElem?_eq_none_iff.mp hget
        by_cases hs : strpos < buf.str.length
        · simp [next, hget, hs] at h
        · simp [rest, List.drop_eq_nil_of_le hge, toBytesLoop,
            List.drop_eq_nil_of_le (Nat.le_of_not_lt hs)]

theorem next_some_rest {r r' : EncReader} {p : List UInt8} (hwf : r.Wf) (h : r.next = (some p, r')) :
    r.rest = p ++ { r' with piece := none }.rest := by
  obtain ⟨buf, lhpos, strpos, piece⟩ := r
  cases buf with
  | none => simp [next] at h
  | some buf =>
    have hfit := hwf buf rfl
    cases piece with
    | some q =>
      simp only [next, Option.some.injEq, Prod.mk.injEq] at h
      obtain ⟨rfl, rfl⟩ := h
      simp [rest]
    | none =>
      cases hget : buf.lheads[lhpos]? with
      | some head =>
        obtain ⟨hlt, hhead⟩ := List.getElem?_eq_some_iff.mp hget
        have hoff : head.offset ≤ buf.str.length := hfit head (hhead ▸ List.getElem_mem hlt)
        have hdrop : buf.lheads.drop lhpos = head :: buf.lheads.drop (lhpos + 1) := by
          rw [List.drop_eq_getElem_cons hlt, hhead]
        by_cases hs : head.offset - strpos > 0
        · -- the string data before the header
          simp only [next, hget, if_pos hs, Option.some.injEq, Prod.mk.injEq] at h
          obtain ⟨rfl, rfl⟩ := h
          have hpos : strpos + (head.offset - strpos) = head.offset := by omega
          simp [rest, hdrop, toBytesLoop, Nat.min_eq_left hoff, hpos]
        · -- the header itself
          simp only [next, hget, if_neg hs, Option.some.injEq, Prod.mk.injEq] at h
          obtain ⟨rfl, rfl⟩ := h
          have hchunk : (buf.str.take head.offset).drop strpos = [] :=
            List.drop_eq_nil_of_le (by simp only [List.length_take]; omega)
          simp [rest, hdrop, toBytesLoop, hchunk]
      | none =>
        -- the string data after the last header
        have hge : buf.lheads.length ≤ lhpos := List.getElem?_eq_none_iff.mp hget
        by_cases hs : strpos < buf.str.length
        · simp only [next, hget, if_pos hs, Option.some.injEq, Prod.mk.injEq] at h
          obtain ⟨rfl, rfl⟩ := h
          simp [rest, List.drop_eq_nil_of_le hge, toBytesLoop]
        · simp [next, hget, hs] at h

theorem readLoop_none {r r' : EncReader} (h : r.next = (none, r')) (len : Nat) (out : List UInt8) :
    r.readLoop len out = ((out, true), { r' with piece := none, buf := none }) := by
  rw [readLoop]
  split
  · rename_i r'' h'
    rw [h] at h'
    cases h'
    rfl
  · rename_i p r'' h'
    rw [h] at h'
    cases h'

theorem readLoop_some {r r' : EncReader} {piece : List UInt8} (h : r.next = (some piece, r'))
    (len : Nat) (out : List UInt8) :
    r.readLoop len out =
      if min (len - out.length) piece.length < piece.length then
        ((out ++ piece.take (min (len - out.length) piece.length), false),
          { r' with piece := some (piece.drop (min (len - out.length) piece.length)) })
      else readLoop len (out ++ piece.take (min (len - out.length) piece.length)) { r' with piece := none } := by
  rw [readLoop]
  split
  · rename_i r'' h'
    rw [h] at h'
    cases h'
  · rename_i p r'' h'
    rw [h] at h'
    cases h'
    rfl


theorem readLoop_spec (len : Nat) (out : List UInt8) (r : EncReader) (hwf : r.Wf) :
    (r.readLoop len out).1 =
        (out ++ r.rest.take (len - out.length), decide (r.rest.length ≤ len - out.length)) ∧
      (r.readLoop len out).2.rest = r.rest.drop (len - out.length) ∧ (r.readLoop len out).2.Wf := by
  induction out, r using readLoop.induct len with
  | case1 out r r' h =>
    -- the end: nothing is left
    rw [readLoop_none h, next_none_rest h]
    exact ⟨by simp, by simp [rest], fun _ hb => by cases hb⟩
  | case2 out r piece r' h nn hlt =>
    -- the piece does not fit: the buffer fills up from it
    have hbuf := next_buf h
    have hrest := next_some_rest hwf h
    have hfit : len - out.length < piece.length := by omega
    obtain ⟨buf, hb⟩ : ∃ buf, r.buf = some buf := by
      cases hr : r.buf with
      | none => simp [next, hr] at h
      | some buf => exact ⟨buf, rfl⟩
    rw [readLoop_some h, if_pos hlt, hrest, rest_piece (hbuf.trans hb),
      Nat.min_eq_left hfit.le]
    refine ⟨?_, ?_, fun b hb' => hwf b (hbuf.symm.trans hb')⟩
    · rw [List.take_append_of_le_length hfit.le]
      simp only [List.length_append, Prod.mk.injEq, true_and]
      simp
      omega
    · rw [List.drop_append_of_le_length hfit.le]
  | case3 out r piece r' h nn out' hge ih =>
    -- the piece fits whole, and the loop goes on after it
    have hbuf := next_buf h
    have hrest := next_some_rest hwf h
    have hfit : piece.length ≤ len - out.length := by omega
    have hwf' : ({ r' with piece := none } : EncReader).Wf := fun b hb' => hwf b (hbuf.symm.trans hb')
    obtain ⟨h1, h2, h3⟩ := ih hwf'
    have hout : out' = out ++ piece := by
      simp only [out', nn, Nat.min_eq_right hfit, List.take_of_length_le (le_refl _)]
    rw [hout] at h1 h2 h3
    rw [readLoop_some h, if_neg hge, Nat.min_eq_right hfit, List.take_of_length_le (le_refl _)]
    have hleft : len - (out ++ piece).length = len - out.length - piece.length := by
      simp only [List.length_append]
      omega
    rw [hleft] at h1 h2
    refine ⟨?_, ?_, h3⟩
    · rw [h1, hrest, List.take_append, List.take_of_length_le hfit, List.append_assoc]
      simp only [List.length_append, Prod.mk.injEq, true_and]
      simp
      omega
    · rw [h2, hrest, List.drop_append, List.drop_eq_nil_of_le hfit, List.nil_append]

theorem Read_spec (r : EncReader) (hwf : r.Wf) (len : Nat) :
    (r.Read len).1 = (r.rest.take len, decide (r.rest.length ≤ len)) ∧
      (r.Read len).2.rest = r.rest.drop len ∧ (r.Read len).2.Wf := by
  simpa [Read] using readLoop_spec len [] r hwf

def readAll (r : EncReader) : List Nat → List (List UInt8 × Bool)
  | [] => []
  | n :: ns => (r.Read n).1 :: readAll (r.Read n).2 ns

end EncReader

def readsOf (b : List UInt8) : List Nat → List (List UInt8 × Bool)
  | [] => []
  | n :: ns => (b.take n, decide (b.length ≤ n)) :: readsOf (b.drop n) ns

theorem flatten_readsOf (b : List UInt8) (ns : List Nat) :
    ((readsOf b ns).map Prod.fst).flatten = b.take ns.sum := by
  induction ns generalizing b with
  | nil => simp [readsOf]
  | cons n ns ih => simp [readsOf, ih, List.take_add]

theorem length_le_of_readsOf_eof (b : List UInt8) (ns : List Nat)
    (h : true ∈ (readsOf b ns).map Prod.snd) : b.length ≤ ns.sum := by
  induction ns generalizing b with
  | nil => simp [readsOf] at h
  | cons n ns ih =>
    simp only [readsOf, List.map_cons, List.mem_cons] at h
    rcases h with h | h
    · have : b.length ≤ n := by simpa using h.symm
      simp only [List.sum_cons]
      omega
    · have := ih (b.drop n) h
      simp only [List.length_drop] at this
      simp only [List.sum_cons]
      omega

theorem readAll_eq_readsOf (r : EncReader) (hwf : r.Wf) (ns : List Nat) :
    r.readAll ns = readsOf r.rest ns := by
  induction ns generalizing r with
  | nil => rfl
  | cons n ns ih =>
    obtain ⟨h1, h2, h3⟩ := r.Read_spec hwf n
    rw [EncReader.readAll, readsOf, h1, ih _ h3, h2]

theorem writeValue_offsetsFit (v : Value) (hv : v.Sized) : (writeValue v Encbuf.empty).OffsetsFit := by
  intro head hmem
  rw [writeValue_eq v Encbuf.empty hv] at hmem ⊢
  simp only [Encbuf.empty, List.nil_append, List.length_nil, List.mem_map] at hmem ⊢
  obtain ⟨head', hmem', rfl⟩ := hmem
  exact (headsWithin_heads v).offset_le head' hmem'

theorem size_writeValue (v : Value) (hv : v.Sized) : (writeValue v Encbuf.empty).size = v.encoding.length := by
  rw [writeValue_eq v Encbuf.empty hv, Encbuf.size, ← length_strData_add_headerBytes]
  simp [Encbuf.empty]

theorem emitters_agree (v : Value) (hv : v.Sized) :
    (writeValue v Encbuf.empty).toBytes = v.encoding ∧
      (∀ (ε : Type) (s : List UInt8),
        (writeValue v Encbuf.empty).toWriter (byteBuffer ε) s = (s ++ v.encoding, none)) ∧
      ∃ r, EncodeToReader (fun v w => .ok (writeValue v w)) v = .ok (v.encoding.length, r) ∧
        ∀ ns, r.readAll ns = readsOf v.encoding ns ∧
          ((r.readAll ns).map Prod.fst).flatten = v.encoding.take ns.sum ∧
          (true ∈ (r.readAll ns).map Prod.snd → ((r.readAll ns).map Prod.fst).flatten = v.encoding) := by
  have hbytes := toBytes_writeValue v hv
  refine ⟨hbytes, fun ε s => by rw [toWriter_byteBuffer, hbytes], ⟨some (writeValue v Encbuf.empty), 0, 0, none⟩,
    by simp [EncodeToReader, size_writeValue v hv], fun ns => ?_⟩
  have hwf : EncReader.Wf ⟨some (writeValue v Encbuf.empty), 0, 0, none⟩ := by
    rintro buf ⟨⟩
    exact writeValue_offsetsFit v hv
  -- the fresh reader has the whole rendering left
  have hrest : EncReader.rest ⟨some (writeValue v Encbuf.empty), 0, 0, none⟩ = v.encoding := by
    simp [EncReader.rest, ← hbytes, Encbuf.toBytes]
  rw [readAll_eq_readsOf _ hwf, hrest, flatten_readsOf]
  refine ⟨rfl, rfl, fun heof => ?_⟩
  exact List.take_of_length_le (length_le_of_readsOf_eof _ _ heof)

theorem emitters_agree_cat_dog :
    (Value.list [.bytes [0x63, 0x61, 0x74], .bytes [0x64, 0x6f, 0x67]]).Sized ∧
      (writeValue (.list [.bytes [0x63, 0x61, 0x74], .bytes [0x64, 0x6f, 0x67]]) Encbuf.empty).toBytes =
        (Value.list [.bytes [0x63, 0x61, 0x74], .bytes [0x64, 0x6f, 0x67]]).encoding ∧
      (∀ (ε : Type) (s : List UInt8),
        (writeValue (.list [.bytes [0x63, 0x61, 0x74], .bytes [0x64, 0x6f, 0x67]]) Encbuf.empty).toWriter
          (byteBuffer ε) s = (s ++ (Value.list [.bytes [0x63, 0x61, 0x74], .bytes [0x64, 0x6f, 0x67]]).encoding, none)) ∧
      ∃ r, EncodeToReader (fun v w => .ok (writeValue v w))
          (Value.list [.bytes [0x63, 0x61, 0x74], .bytes [0x64, 0x6f, 0x67]]) =
          .ok ((Value.list [.bytes [0x63, 0x61, 0x74], .bytes [0x64, 0x6f, 0x67]]).encoding.length, r) ∧
        ∀ ns, r.readAll ns = readsOf (Value.list [.bytes [0x63, 0x61, 0x74], .bytes [0x64, 0x6f, 0x67]]).encoding ns ∧
          ((r.readAll ns).map Prod.fst).flatten =
            (Value.list [.bytes [0x63, 0x61, 0x74], .bytes [0x64, 0x6f, 0x67]]).encoding.take ns.sum ∧
          (true ∈ (r.readAll ns).map Prod.snd → ((r.readAll ns).map Prod.fst).flatten =
            (Value.list [.bytes [0x63, 0x61, 0x74], .bytes [0x64, 0x6f, 0x67]]).encoding) := by
  have hv : (Value.list [.bytes [0x63, 0x61, 0x74], .bytes [0x64, 0x6f, 0x67]]).Sized :=
    sized_of_length_lt _ (by decide)
  exact ⟨hv, emitters_agree _ hv⟩

end Zerium.Rlp
