import Zerium.Rlp.Encode

/-! # Deferred list headers give the recursive encoding

Writing a value into an `encbuf` appends its string data, appends its list headers shifted
by the length of the string data already there, and adds the size of those headers to
`lhsize`; the headers carry the payload sizes that `listEnd` computes. `toBytes` of such
a buffer splits at the boundary between two values, so the buffer of a value renders as
its recursive encoding.
-/

namespace Zerium.Rlp

set_option autoImplicit false

def Listhead.shift (k : Nat) (head : Listhead) : Listhead := { head with offset := head.offset + k }

@[simp] theorem Listhead.shift_offset (k : Nat) (head : Listhead) :
    (head.shift k).offset = head.offset + k := rfl

@[simp] theorem Listhead.shift_size (k : Nat) (head : Listhead) :
    (head.shift k).size = head.size := rfl

@[simp] theorem Listhead.encode_shift (k : Nat) (head : Listhead) :
    (head.shift k).encode = head.encode := rfl

theorem Listhead.shift_zero (head : Listhead) : head.shift 0 = head := rfl

theorem Listhead.shift_shift (j k : Nat) (head : Listhead) :
    (head.shift j).shift k = head.shift (k + j) := by
  simp only [shift, Nat.add_assoc, Nat.add_comm j k]

mutual
def Value.strData : Value → List UInt8
  | .bytes b => stringEncoding b
  | .list vs => Value.strDataList vs

def Value.strDataList : List Value → List UInt8
  | [] => []
  | v :: vs => v.strData ++ Value.strDataList vs
end

mutual
def Value.heads : Value → List Listhead
  | .bytes _ => []
  | .list vs => ⟨0, (Value.payload vs).length⟩ :: Value.headsList vs

def Value.headsList : List Value → List Listhead
  | [] => []
  | v :: vs => v.heads ++ (Value.headsList vs).map (Listhead.shift v.strData.length)
end

mutual
def Value.headerBytes : Value → Nat
  | .bytes _ => 0
  | .list vs => Value.headerBytesList vs + (header 0xC0 0xF7 (Value.payload vs).length).length

def Value.headerBytesList : List Value → Nat
  | [] => 0
  | v :: vs => v.headerBytes + Value.headerBytesList vs
end

mutual
theorem length_strData_add_headerBytes : ∀ v : Value,
    v.strData.length + v.headerBytes = v.encoding.length
  | .bytes b => by simp [Value.strData, Value.headerBytes]
  | .list vs => by
    have h := length_strDataList_add_headerBytesList vs
    simp only [Value.strData, Value.headerBytes, encoding_list, List.length_append]
    omega

theorem length_strDataList_add_headerBytesList : ∀ vs : List Value,
    (Value.strDataList vs).length + Value.headerBytesList vs = (Value.payload vs).length
  | [] => by simp [Value.strDataList, Value.headerBytesList]
  | v :: vs => by
    have hv := length_strData_add_headerBytes v
    have hvs := length_strDataList_add_headerBytesList vs
    simp only [Value.strDataList, Value.headerBytesList, payload_cons, List.length_append]
    omega
end

/-! ## Bounds inherited from the whole encoding -/

theorem length_payload_le (vs : List Value) :
    (Value.payload vs).length ≤ (Value.list vs).encoding.length := by
  simp

theorem length_encoding_le_payload (v : Value) (vs : List Value) :
    v.encoding.length ≤ (Value.payload (v :: vs)).length := by
  simp

theorem length_payload_le_cons (v : Value) (vs : List Value) :
    (Value.payload vs).length ≤ (Value.payload (v :: vs)).length := by
  simp

theorem length_le_stringEncoding (b : List UInt8) : b.length ≤ (stringEncoding b).length := by
  by_cases h : b.length = 1
  · obtain ⟨x, rfl⟩ := List.length_eq_one_iff.mp h
    rw [stringEncoding_singleton]
    split <;> simp
  · rw [stringEncoding_of_length_ne_one b h]
    simp

mutual
theorem sized_of_length_lt : ∀ v : Value, v.encoding.length < 2 ^ 64 → v.Sized
  | .bytes b, hv => lt_of_le_of_lt (length_le_stringEncoding b) (by simpa using hv)
  | .list vs, hv =>
    have hp := lt_of_le_of_lt (length_payload_le vs) hv
    ⟨hp, sizedList_of_length_lt vs hp⟩

theorem sizedList_of_length_lt : ∀ vs : List Value, (Value.payload vs).length < 2 ^ 64 →
    Value.SizedList vs
  | [], _ => trivial
  | v :: vs, hvs =>
    ⟨sized_of_length_lt v (lt_of_le_of_lt (length_encoding_le_payload v vs) hvs),
      sizedList_of_length_lt vs (lt_of_le_of_lt (length_payload_le_cons v vs) hvs)⟩
end

/-! ## What `writeValue` does to any buffer -/

theorem getD_append_length (l : List Listhead) (head : Listhead) (rest : List Listhead) :
    (l ++ head :: rest).getD l.length ⟨0, 0⟩ = head := by
  simp [List.getD_eq_getElem?_getD]

theorem set_append_length (l : List Listhead) (head head' : Listhead) (rest : List Listhead) :
    (l ++ head :: rest).set l.length head' = l ++ head' :: rest := by
  simp

mutual
theorem writeValue_eq : ∀ (v : Value) (w : Encbuf), v.Sized →
    writeValue v w = ⟨w.str ++ v.strData, w.lheads ++ v.heads.map (Listhead.shift w.str.length),
      w.lhsize + v.headerBytes⟩
  | .bytes b, w, hb => by
    rw [writeValue, writeBytes, Encbuf.encodeString_eq w b hb]
    simp [Encbuf.append, Value.strData, Value.heads, Value.headerBytes]
  | .list vs, w, ⟨hp, hvs⟩ => by
    have hsize := length_strDataList_add_headerBytesList vs
    -- `list` records the header at index `w.lheads.length`; the items follow it
    have hitems := writeElems_eq vs
      { w with lheads := w.lheads ++ [⟨w.str.length, w.lhsize⟩] } hvs
    simp only [writeValue, Encbuf.list, hitems]
    simp only [Encbuf.listEnd, Encbuf.size, List.append_assoc, List.singleton_append,
      getD_append_length, set_append_length, List.length_append]
    have hlen : w.str.length + (Value.strDataList vs).length + (w.lhsize + Value.headerBytesList vs) -
        w.str.length - w.lhsize = (Value.payload vs).length := by omega
    rw [hlen, listEnd_headsize _ hp]
    simp only [Value.strData, Value.heads, Value.headerBytes, List.map_cons, Listhead.shift]
    simp only [Nat.zero_add, Nat.add_assoc]

theorem writeElems_eq : ∀ (vs : List Value) (w : Encbuf), Value.SizedList vs →
    writeElems vs w = ⟨w.str ++ Value.strDataList vs,
      w.lheads ++ (Value.headsList vs).map (Listhead.shift w.str.length),
      w.lhsize + Value.headerBytesList vs⟩
  | [], w, _ => by simp [writeElems, Value.strDataList, Value.headsList, Value.headerBytesList]
  | v :: vs, w, ⟨hv, hrest⟩ => by
    rw [writeElems, writeValue_eq v w hv, writeElems_eq vs _ hrest]
    simp only [Value.strDataList, Value.headsList, Value.headerBytesList, List.append_assoc,
      List.map_append, List.map_map, List.length_append, Nat.add_assoc]
    congr 3
    apply List.map_congr_left
    intro head _
    simp only [Function.comp, Listhead.shift_shift]
end

/-! ## Rendering splits at value boundaries -/

def HeadsWithin : Nat → Nat → List Listhead → Prop
  | lo, hi, [] => lo ≤ hi
  | lo, hi, head :: heads => lo ≤ head.offset ∧ HeadsWithin head.offset hi heads

theorem HeadsWithin.le {lo hi : Nat} {heads : List Listhead} (h : HeadsWithin lo hi heads) :
    lo ≤ hi := by
  induction heads generalizing lo with
  | nil => exact h
  | cons head heads ih =>
    obtain ⟨hlo, hrest⟩ := h
    exact Nat.le_trans hlo (ih hrest)

theorem HeadsWithin.mono {lo lo' hi : Nat} {heads : List Listhead} (h : HeadsWithin lo hi heads)
    (hlo : lo' ≤ lo) : HeadsWithin lo' hi heads := by
  cases heads with
  | nil => exact Nat.le_trans hlo h
  | cons head heads => exact ⟨Nat.le_trans hlo h.1, h.2⟩

theorem HeadsWithin.shift {lo hi : Nat} {heads : List Listhead} (k : Nat)
    (h : HeadsWithin lo hi heads) : HeadsWithin (lo + k) (hi + k) (heads.map (Listhead.shift k)) := by
  induction heads generalizing lo with
  | nil => exact Nat.add_le_add_right h k
  | cons head heads ih =>
    obtain ⟨hlo, hrest⟩ := h
    exact ⟨by simpa using Nat.add_le_add_right hlo k, by simpa using ih hrest⟩

theorem HeadsWithin.append {lo m k : Nat} {heads heads' : List Listhead}
    (h : HeadsWithin lo m heads) (h' : HeadsWithin 0 k heads') :
    HeadsWithin lo (m + k) (heads ++ heads'.map (Listhead.shift m)) := by
  induction heads generalizing lo with
  | nil =>
    have hs := h'.shift m
    rw [Nat.zero_add, Nat.add_comm k m] at hs
    exact hs.mono h
  | cons head heads ih =>
    obtain ⟨hlo, hrest⟩ := h
    exact ⟨hlo, ih hrest⟩

mutual
theorem headsWithin_heads : ∀ v : Value, HeadsWithin 0 v.strData.length v.heads
  | .bytes _ => Nat.zero_le _
  | .list vs => ⟨Nat.le_refl 0, by simpa [Value.strData] using headsWithin_headsList vs⟩

theorem headsWithin_headsList : ∀ vs : List Value,
    HeadsWithin 0 (Value.strDataList vs).length (Value.headsList vs)
  | [] => Nat.le_refl 0
  | v :: vs => by
    simpa [Value.strDataList, Value.headsList] using
      (headsWithin_heads v).append (headsWithin_headsList vs)
end

theorem toBytesLoop_shift (a b : List UInt8) (q : Nat) (heads : List Listhead) :
    toBytesLoop (a ++ b) (a.length + q) (heads.map (Listhead.shift a.length)) =
      toBytesLoop b q heads := by
  induction heads generalizing q with
  | nil => simp [toBytesLoop, List.drop_append]
  | cons head heads ih =>
    have hchunk : ((a ++ b).take (head.offset + a.length)).drop (a.length + q) =
        (b.take head.offset).drop q := by
      rw [List.take_append, Nat.add_sub_cancel, List.take_of_length_le (by omega),
        List.drop_append, List.drop_of_length_le (by omega), List.nil_append]
      congr 1
      omega
    simp only [toBytesLoop, List.map_cons, Listhead.shift_offset, hchunk]
    rw [Nat.add_assoc, ih]
    rfl

theorem toBytesLoop_shift_from (a b : List UInt8) (q : Nat) (hq : q ≤ a.length)
    (heads : List Listhead) :
    toBytesLoop (a ++ b) q (heads.map (Listhead.shift a.length)) =
      a.drop q ++ toBytesLoop b 0 heads := by
  cases heads with
  | nil => simp [toBytesLoop, List.drop_append, hq]
  | cons head heads =>
    have hchunk : ((a ++ b).take (head.offset + a.length)).drop q =
        a.drop q ++ b.take head.offset := by
      rw [List.take_append, Nat.add_sub_cancel, List.take_of_length_le (by omega),
        List.drop_append_of_le_length hq]
    have hpos : q + (a.drop q ++ b.take head.offset).length =
        a.length + (b.take head.offset).length := by
      simp only [List.length_append, List.length_drop]
      omega
    simp only [toBytesLoop, List.map_cons, Listhead.shift_offset, hchunk, hpos]
    rw [toBytesLoop_shift]
    simp [List.append_assoc]

theorem toBytesLoop_append (a b : List UInt8) (p : Nat) (heads heads' : List Listhead)
    (h : HeadsWithin p a.length heads) :
    toBytesLoop (a ++ b) p (heads ++ heads'.map (Listhead.shift a.length)) =
      toBytesLoop a p heads ++ toBytesLoop b 0 heads' := by
  induction heads generalizing p with
  | nil =>
    rw [List.nil_append, toBytesLoop_shift_from a b p h heads']
    rfl
  | cons head heads ih =>
    obtain ⟨hlo, hrest⟩ := h
    have hoff := hrest.le
    have hchunk : ((a ++ b).take head.offset).drop p = (a.take head.offset).drop p := by
      rw [List.take_append_of_le_length hoff]
    have hpos : p + ((a.take head.offset).drop p).length = head.offset := by
      simp only [List.length_drop, List.length_take]
      omega
    simp only [List.cons_append, toBytesLoop, hchunk, hpos]
    rw [ih head.offset hrest]
    simp [List.append_assoc]

mutual
theorem toBytesLoop_strData : ∀ v : Value, v.Sized →
    toBytesLoop v.strData 0 v.heads = v.encoding
  | .bytes b, _ => by simp [toBytesLoop, Value.strData, Value.heads]
  | .list vs, ⟨hp, hvs⟩ => by
    simp only [Value.strData, Value.heads, toBytesLoop, List.take_zero, List.drop_nil,
      List.nil_append, List.length_nil, Nat.add_zero, encoding_list]
    rw [toBytesLoop_strDataList vs hvs, Listhead.encode, puthead_eq_header _ _ _ hp]

theorem toBytesLoop_strDataList : ∀ vs : List Value, Value.SizedList vs →
    toBytesLoop (Value.strDataList vs) 0 (Value.headsList vs) = Value.payload vs
  | [], _ => by simp [toBytesLoop, Value.strDataList, Value.headsList]
  | v :: vs, ⟨hv, hrest⟩ => by
    simp only [Value.strDataList, Value.headsList]
    rw [toBytesLoop_append _ _ 0 _ _ (headsWithin_heads v), toBytesLoop_strData v hv,
      toBytesLoop_strDataList vs hrest, payload_cons]
end

theorem toBytes_writeValue (v : Value) (hv : v.Sized) :
    (writeValue v Encbuf.empty).toBytes = v.encoding := by
  rw [writeValue_eq v Encbuf.empty hv]
  simp only [Encbuf.toBytes, Encbuf.empty, List.nil_append, List.length_nil]
  rw [List.map_congr_left (g := id) (fun head _ => Listhead.shift_zero head), List.map_id]
  exact toBytesLoop_strData v hv

theorem encodeToBytes_value (v : Value) (hv : v.Sized) :
    EncodeToBytes (fun v w => .ok (writeValue v w)) v = .ok v.encoding := by
  simp only [EncodeToBytes, toBytes_writeValue v hv]

end Zerium.Rlp
