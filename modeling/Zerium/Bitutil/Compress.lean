import Zerium.Lib.MsbBits

/-! # Sparse bitset compression (`common/bitutil/compress.go`)

`bitsetEncodeBytes` writes a byte string as the encoding of the bitset of its non-zero
positions, most significant bit first, followed by its non-zero bytes; a string of at most one
byte is itself, and a string of zeros is empty. `bitsetDecodePartialBytes` reads this back for a
known length, decoding the bitset for `(target + 7) / 8` bytes first, and returns how much of
its input it read; `bitsetDecodeBytes` requires all of it.

The decoder reads `nonZeroBitset[i/8]`, `data[ptr]` and `data[0]` by index; each read is
`getElem?` here, and `none` is the run-time panic of an index out of range. The writes into
`decomp` stand right after the checks that keep them in range.
-/

namespace Zerium.Bitutil

open MsbBits

set_option autoImplicit false

def errMissingData : String := "missing bytes on input"
def errUnreferencedData : String := "extra bytes on input"
def errExceededTarget : String := "target data size exceeded"
def errZeroContent : String := "zero byte in input content"

/-- The loop of `bitsetEncodeBytes` from index `i` on: a non-zero byte is appended to
`nonZeroBytes` and sets its bit of `nonZeroBitset`. -/
def encodeLoop : List UInt8 → Nat → List UInt8 → List UInt8 → List UInt8 × List UInt8
  | [], _, nonZeroBitset, nonZeroBytes => (nonZeroBitset, nonZeroBytes)
  | b :: data, i, nonZeroBitset, nonZeroBytes =>
    if b ≠ 0 then
      encodeLoop data (i + 1) (nonZeroBitset.modify (i / 8) (· ||| mask i)) (nonZeroBytes ++ [b])
    else encodeLoop data (i + 1) nonZeroBitset nonZeroBytes

theorem length_encodeLoop_fst (data : List UInt8) (i : Nat) (nonZeroBitset nonZeroBytes : List UInt8) :
    (encodeLoop data i nonZeroBitset nonZeroBytes).1.length = nonZeroBitset.length := by
  induction data generalizing i nonZeroBitset nonZeroBytes with
  | nil => rfl
  | cons b data ih =>
    rw [encodeLoop]
    split_ifs
    · rw [ih, List.length_modify]
    · rw [ih]

def bitsetEncodeBytes : List UInt8 → List UInt8
  | [] => []
  | [b] => if b = 0 then [] else [b]
  | b₀ :: b₁ :: rest =>
    let data := b₀ :: b₁ :: rest
    let loop := encodeLoop data 0 (List.replicate ((data.length + 7) / 8) 0) []
    if loop.2.length = 0 then [] else bitsetEncodeBytes loop.1 ++ loop.2
termination_by data => data.length
decreasing_by
  rw [length_encodeLoop_fst, List.length_replicate]
  simp only [List.length_cons]
  omega

/-- `CompressBytes`: the encoding when it is shorter, else a copy of the input. -/
def CompressBytes (data : List UInt8) : List UInt8 :=
  if (bitsetEncodeBytes data).length < data.length then bitsetEncodeBytes data else data

/-- The loop of `bitsetDecodePartialBytes` over the bits of `nonZeroBitset` from `i` on: a set
bit takes the next byte of `data` at `ptr` into `decomp`. -/
def decodeLoop (data nonZeroBitset : List UInt8) (i : Nat) (decomp : List UInt8) (ptr : Nat) :
    Option (Except String (List UInt8 × Nat)) :=
  if i < 8 * nonZeroBitset.length then
    match nonZeroBitset[i / 8]? with
    | none => none
    | some byte =>
      if byte &&& mask i ≠ 0 then
        if ptr ≥ data.length then some (.error errMissingData)
        else if i ≥ decomp.length then some (.error errExceededTarget)
        else
          match data[ptr]? with
          | none => none
          | some x =>
            if x = 0 then some (.error errZeroContent)
            else decodeLoop data nonZeroBitset (i + 1) (decomp.set i x) (ptr + 1)
      else decodeLoop data nonZeroBitset (i + 1) decomp ptr
  else some (.ok (decomp, ptr))
termination_by 8 * nonZeroBitset.length - i

/-- `bitsetDecodePartialBytes(data, target)`: the output and how many bytes of `data` it read.
The recursion is on `(target + 7) / 8`, below `target` from `2` on. -/
def bitsetDecodePartialBytes (data : List UInt8) (target : Nat) :
    Option (Except String (List UInt8 × Nat)) :=
  if target = 0 then some (.ok ([], 0))
  else
    let decomp := List.replicate target 0
    if data.length = 0 then some (.ok (decomp, 0))
    else if target = 1 then
      match data[0]? with
      | none => none
      | some x => some (.ok (decomp.set 0 x, if x ≠ 0 then 1 else 0))
    else
      match bitsetDecodePartialBytes data ((target + 7) / 8) with
      | none => none
      | some (.error err) => some (.error err)
      | some (.ok (nonZeroBitset, ptr)) => decodeLoop data nonZeroBitset 0 decomp ptr
termination_by target
decreasing_by omega

def bitsetDecodeBytes (data : List UInt8) (target : Nat) : Option (Except String (List UInt8)) :=
  match bitsetDecodePartialBytes data target with
  | none => none
  | some (.error err) => some (.error err)
  | some (.ok (out, size)) => if size ≠ data.length then some (.error errUnreferencedData) else some (.ok out)

/-- `DecompressBytes(data, target)`: an input as long as the target was not compressed. -/
def DecompressBytes (data : List UInt8) (target : Nat) : Option (Except String (List UInt8)) :=
  if data.length > target then some (.error errExceededTarget)
  else if data.length = target then some (.ok data)
  else bitsetDecodeBytes data target

/-! ## The encoder -/

theorem encodeLoop_snd (data : List UInt8) (i : Nat) (nonZeroBitset nonZeroBytes : List UInt8) :
    (encodeLoop data i nonZeroBitset nonZeroBytes).2 = nonZeroBytes ++ data.filter (· ≠ 0) := by
  induction data generalizing i nonZeroBitset nonZeroBytes with
  | nil => simp [encodeLoop]
  | cons b data ih =>
    rw [encodeLoop]
    split_ifs with hb
    · rw [ih, List.filter_cons_of_pos (by simpa using hb), List.append_assoc, List.singleton_append]
    · rw [ih, List.filter_cons_of_neg (by simpa using hb)]

theorem getD_cons_offset (b : UInt8) (data : List UInt8) (i j : Nat) :
    (decide (i ≤ j) && (b :: data).getD (j - i) 0 != 0) =
      (decide (i = j) && b != 0 || decide (i + 1 ≤ j) && data.getD (j - (i + 1)) 0 != 0) := by
  rcases Nat.lt_trichotomy j i with hj | rfl | hj
  · simp [show ¬ i ≤ j by omega, show i ≠ j by omega, show ¬ i + 1 ≤ j by omega]
  · simp
  · have hsub : j - i = j - (i + 1) + 1 := by omega
    rw [hsub, List.getD_cons_succ]
    simp [show i ≤ j by omega, show i ≠ j by omega, show i + 1 ≤ j by omega]

theorem bit_encodeLoop_fst (data : List UInt8) (i : Nat) (nonZeroBitset nonZeroBytes : List UInt8)
    (hlen : i + data.length ≤ 8 * nonZeroBitset.length) (j : Nat) :
    bit (encodeLoop data i nonZeroBitset nonZeroBytes).1 j =
      (bit nonZeroBitset j || (decide (i ≤ j) && data.getD (j - i) 0 != 0)) := by
  induction data generalizing i nonZeroBitset nonZeroBytes with
  | nil => simp [encodeLoop]
  | cons b data ih =>
    simp only [List.length_cons] at hlen
    rw [encodeLoop, getD_cons_offset]
    split_ifs with hb
    · have hb' : (b != 0) = true := by simpa using hb
      rw [ih _ _ _ (by rw [List.length_modify]; omega), bit_modify_or _ (by omega)]
      simp [hb', Bool.or_assoc]
    · rw [ih _ _ _ (by omega)]
      simp [show b = 0 by simpa using hb]

theorem bitsetEncodeBytes_eq_nil {data : List UInt8} (h : ∀ x ∈ data, x = 0) : bitsetEncodeBytes data = [] := by
  match data with
  | [] => rw [bitsetEncodeBytes]
  | [b] => simp [bitsetEncodeBytes, h b (by simp)]
  | b₀ :: b₁ :: rest =>
    rw [bitsetEncodeBytes]
    have hnil : (b₀ :: b₁ :: rest).filter (· ≠ 0) = [] := List.filter_eq_nil_iff.mpr (by simpa using h)
    simp only [encodeLoop_snd, List.nil_append, hnil, List.length_nil, if_true]

theorem bitsetEncodeBytes_of_bits {data nonZeroBitset : List UInt8} (htwo : 2 ≤ data.length)
    (hlen : nonZeroBitset.length = (data.length + 7) / 8)
    (hbits : ∀ j, bit nonZeroBitset j = (data.getD j 0 != 0)) :
    bitsetEncodeBytes data =
      if data.filter (· ≠ 0) = [] then [] else bitsetEncodeBytes nonZeroBitset ++ data.filter (· ≠ 0) := by
  match data, htwo with
  | b₀ :: b₁ :: rest, _ =>
    have hloop : (encodeLoop (b₀ :: b₁ :: rest) 0
        (List.replicate (((b₀ :: b₁ :: rest).length + 7) / 8) 0) []).1 = nonZeroBitset := by
      apply eq_of_bit_eq
      · rw [length_encodeLoop_fst, List.length_replicate, hlen]
      · intro j
        rw [bit_encodeLoop_fst _ _ _ _ (by rw [List.length_replicate]; omega), hbits]
        simp
    rw [bitsetEncodeBytes]
    simp only [encodeLoop_snd, List.nil_append, List.length_eq_zero_iff, hloop]

/-! ## The decoder's loop -/

theorem set_take_append_replicate (d : List UInt8) {i : Nat} (hi : i < d.length) :
    (d.take i ++ List.replicate (d.length - i) 0).set i d[i] =
      d.take (i + 1) ++ List.replicate (d.length - (i + 1)) 0 := by
  have hrep : d.length - i = d.length - (i + 1) + 1 := by omega
  rw [List.set_append_right _ _ (by simp), List.length_take, Nat.min_eq_left (by omega), Nat.sub_self,
    hrep, List.replicate_succ, List.set_cons_zero, List.take_add_one, List.getElem?_eq_getElem hi]
  simp only [Option.toList_some, List.append_assoc, List.singleton_append]

theorem take_append_replicate_of_getD_eq_zero (d : List UInt8) (i : Nat) (h : d.getD i 0 = 0) :
    d.take i ++ List.replicate (d.length - i) 0 = d.take (i + 1) ++ List.replicate (d.length - (i + 1)) 0 := by
  by_cases hi : i < d.length
  · have h0 : d[i] = 0 := by rwa [List.getD_eq_getElem _ _ hi] at h
    have hrep : d.length - i = d.length - (i + 1) + 1 := by omega
    rw [List.take_add_one, List.getElem?_eq_getElem hi, hrep, List.replicate_succ, h0]
    simp only [Option.toList_some, List.append_assoc, List.singleton_append]
  · rw [List.take_of_length_le (by omega), List.take_of_length_le (by omega)]
    simp [show d.length - i = 0 by omega, show d.length - (i + 1) = 0 by omega]

theorem filter_drop_of_getD_eq_zero (d : List UInt8) (i : Nat) (h : d.getD i 0 = 0) :
    (d.drop i).filter (· ≠ 0) = (d.drop (i + 1)).filter (· ≠ 0) := by
  by_cases hi : i < d.length
  · have h0 : d[i] = 0 := by rwa [List.getD_eq_getElem _ _ hi] at h
    rw [List.drop_eq_getElem_cons hi, List.filter_cons_of_neg (by simp [h0])]
  · rw [List.drop_of_length_le (by omega), List.drop_of_length_le (by omega)]

theorem filter_drop_of_ne_zero (d : List UInt8) {i : Nat} (hi : i < d.length) (h : d[i] ≠ 0) :
    (d.drop i).filter (· ≠ 0) = d[i] :: (d.drop (i + 1)).filter (· ≠ 0) := by
  rw [List.drop_eq_getElem_cons hi, List.filter_cons_of_pos (by simpa using h)]

theorem filter_drop_eq_nil {d : List UInt8} {i : Nat} (h : ∀ j, i ≤ j → d.getD j 0 = 0) :
    (d.drop i).filter (· ≠ 0) = [] := by
  apply List.filter_eq_nil_iff.mpr
  intro x hx
  obtain ⟨k, hk, rfl⟩ := List.getElem_of_mem hx
  have hk' : i + k < d.length := by
    rw [List.length_drop] at hk
    omega
  have hzero := h (i + k) (by omega)
  rw [List.getD_eq_getElem _ _ hk'] at hzero
  simp [List.getElem_drop, hzero]

section Loop

variable {data nonZeroBitset d : List UInt8}

/-- The loop decodes `d` from bit `i` on when the bits are the non-zero positions of `d`, the
output holds `d` before `i` and zeros after, and the non-zero bytes of `d` from `i` on stand in
`data` at `ptr`. -/
theorem decodeLoop_of_bits (hbits : ∀ j, bit nonZeroBitset j = (d.getD j 0 != 0))
    (hd : d.length ≤ 8 * nonZeroBitset.length) (rest : List UInt8) :
    ∀ n i ptr, 8 * nonZeroBitset.length - i = n →
      data.drop ptr = (d.drop i).filter (· ≠ 0) ++ rest →
      decodeLoop data nonZeroBitset i (d.take i ++ List.replicate (d.length - i) 0) ptr =
        some (.ok (d, ptr + ((d.drop i).filter (· ≠ 0)).length)) := by
  intro n
  induction n with
  | zero =>
    intro i ptr hn _
    rw [decodeLoop, if_neg (by omega), List.take_of_length_le (by omega),
      show d.length - i = 0 by omega, List.replicate_zero, List.append_nil,
      List.drop_of_length_le (by omega)]
    rfl
  | succ n ih =>
    intro i ptr hn hdata
    have hbyte : nonZeroBitset[i / 8]? = some nonZeroBitset[i / 8] := List.getElem?_eq_getElem (by omega)
    rw [decodeLoop, if_pos (by omega), hbyte]
    dsimp only
    by_cases hzero : d.getD i 0 = 0
    · -- bit `i` is clear: nothing is read and `decomp` already holds the zero
      have hclear : ¬ (nonZeroBitset[i / 8] &&& mask i ≠ 0) := by
        rw [← bit_iff_and_mask hbyte, hbits, hzero]
        decide
      rw [if_neg hclear, take_append_replicate_of_getD_eq_zero d i hzero,
        filter_drop_of_getD_eq_zero d i hzero]
      exact ih (i + 1) ptr (by omega) (by rwa [← filter_drop_of_getD_eq_zero d i hzero])
    · have hlt : i < d.length := by
        by_contra hge
        exact hzero (List.getD_eq_default _ _ (by omega))
      have hne : d[i] ≠ 0 := by rwa [List.getD_eq_getElem _ _ hlt] at hzero
      have hset : nonZeroBitset[i / 8] &&& mask i ≠ 0 := by
        rw [← bit_iff_and_mask hbyte, hbits]
        simpa using hzero
      rw [filter_drop_of_ne_zero d hlt hne, List.cons_append] at hdata
      have hptr : ptr < data.length := by
        have hlen := congrArg List.length hdata
        rw [List.length_drop, List.length_cons] at hlen
        omega
      have hx : data[ptr]? = some d[i] := by
        rw [← List.head?_drop, hdata]
        rfl
      rw [if_pos hset, if_neg (by omega), if_neg (by simp; omega), hx]
      dsimp only
      rw [if_neg hne, set_take_append_replicate d hlt, filter_drop_of_ne_zero d hlt hne, List.length_cons,
        ih (i + 1) (ptr + 1) (by omega) (by rw [← List.tail_drop, hdata]; rfl),
        show ptr + 1 + ((d.drop (i + 1)).filter (· ≠ 0)).length =
          ptr + (((d.drop (i + 1)).filter (· ≠ 0)).length + 1) by omega]

theorem getD_set_of_ne (l : List UInt8) {i j : Nat} (x : UInt8) (hij : i ≠ j) :
    (l.set i x).getD j 0 = l.getD j 0 := by
  simp [List.getD_eq_getElem?_getD, List.getElem?_set_ne hij]

/-- What a successful run of the loop from bit `i` says about its output `d`: it agrees with
`decomp` before `i`, its non-zero positions from `i` on are the set bits, and the bytes it read
from `data` are its non-zero bytes from `i` on. -/
theorem bits_of_decodeLoop {i : Nat} {decomp : List UInt8} {ptr ptr' : Nat}
    (h : decodeLoop data nonZeroBitset i decomp ptr = some (.ok (d, ptr')))
    (hzero : ∀ j, i ≤ j → decomp.getD j 0 = 0) (hptr : ptr ≤ data.length) :
    d.length = decomp.length ∧ (∀ j, j < i → d.getD j 0 = decomp.getD j 0) ∧
      (∀ j, i ≤ j → bit nonZeroBitset j = (d.getD j 0 != 0)) ∧
      ptr ≤ ptr' ∧ ptr' ≤ data.length ∧ (data.drop ptr).take (ptr' - ptr) = (d.drop i).filter (· ≠ 0) := by
  fun_induction decodeLoop data nonZeroBitset i decomp ptr with
  | case1 | case2 | case3 | case4 | case5 => cases h
  | case6 i decomp ptr _ byte hbyte hset hlt hi x hx hx0 ih =>
    -- bit `i` is set: `d` holds the byte read at `ptr`, and the rest follows from bit `i + 1` on
    have hzero' : ∀ j, i + 1 ≤ j → (decomp.set i x).getD j 0 = 0 := fun j hj => by
      rw [getD_set_of_ne _ _ (by omega)]
      exact hzero j (by omega)
    obtain ⟨hlen, hpre, hbits, hle, hle', htake⟩ := ih h hzero' (by omega)
    rw [List.length_set] at hlen
    have hdi : d.getD i 0 = x := by
      rw [hpre i (by omega), List.getD_eq_getElem?_getD, List.getElem?_set_self (by omega)]
      rfl
    have hdlt : i < d.length := by omega
    have hdx : d[i] = x := by rwa [List.getD_eq_getElem _ _ hdlt] at hdi
    refine ⟨hlen, fun j hj => by rw [hpre j (by omega), getD_set_of_ne _ _ (by omega)], fun j hj => ?_,
      by omega, hle', ?_⟩
    · rcases Nat.eq_or_lt_of_le hj with rfl | hj
      · rw [(bit_iff_and_mask hbyte).mpr hset, hdi]
        simpa using hx0
      · exact hbits j hj
    · have hsub : ptr' - ptr = ptr' - (ptr + 1) + 1 := by omega
      obtain ⟨hlt', hdata⟩ := List.getElem?_eq_some_iff.mp hx
      rw [filter_drop_of_ne_zero d hdlt (by rwa [hdx]), hdx, ← htake, hsub,
        List.drop_eq_getElem_cons hlt', List.take_succ_cons, hdata]
  | case7 i decomp ptr _ byte hbyte hclear ih =>
    obtain ⟨hlen, hpre, hbits, hle, hle', htake⟩ := ih h (fun j hj => hzero j (by omega)) hptr
    have hdi : d.getD i 0 = 0 := by rw [hpre i (by omega), hzero i le_rfl]
    refine ⟨hlen, fun j hj => hpre j (by omega), fun j hj => ?_, hle, hle', ?_⟩
    · rcases Nat.eq_or_lt_of_le hj with rfl | hj
      · have hfalse : bit nonZeroBitset i = false := by
          rw [← Bool.not_eq_true, bit_iff_and_mask hbyte]
          exact hclear
        rw [hfalse, hdi]
        rfl
      · exact hbits j hj
    · rw [filter_drop_of_getD_eq_zero d i hdi, htake]
  | case8 i decomp ptr hge =>
    cases h
    refine ⟨rfl, fun _ _ => rfl, fun j hj => ?_, le_rfl, hptr, ?_⟩
    · rw [bit_of_length_le (by omega), hzero j hj]
      rfl
    · rw [Nat.sub_self, List.take_zero, filter_drop_eq_nil hzero]

theorem decodeLoop_isSome (data nonZeroBitset : List UInt8) (i : Nat) (decomp : List UInt8) (ptr : Nat) :
    (decodeLoop data nonZeroBitset i decomp ptr).isSome := by
  fun_induction decodeLoop data nonZeroBitset i decomp ptr with
  | case1 i decomp ptr hlt hnone =>
    rw [List.getElem?_eq_getElem (by omega)] at hnone
    cases hnone
  | case4 i decomp ptr _ byte _ _ hptr _ hnone =>
    rw [List.getElem?_eq_getElem (by omega)] at hnone
    cases hnone
  | case2 | case3 | case5 | case8 => rfl
  | case6 _ _ _ _ _ _ _ _ _ _ _ _ ih => exact ih
  | case7 _ _ _ _ _ _ _ ih => exact ih

end Loop

/-! ## The decoder -/

theorem bitsetDecodePartialBytes_nil (target : Nat) :
    bitsetDecodePartialBytes [] target = some (.ok (List.replicate target 0, 0)) := by
  rw [bitsetDecodePartialBytes]
  by_cases h : target = 0
  · rw [if_pos h, h]
    rfl
  · rw [if_neg h]
    rfl

theorem getD_eq_zero_of_filter_eq_nil {d : List UInt8} (h : d.filter (· ≠ 0) = []) (j : Nat) :
    d.getD j 0 = 0 := by
  by_cases hj : j < d.length
  · rw [List.getD_eq_getElem _ _ hj]
    simpa using List.filter_eq_nil_iff.mp h _ (List.getElem_mem hj)
  · exact List.getD_eq_default _ _ (by omega)

theorem bitsetDecodePartialBytes_encode (d : List UInt8) :
    (∃ x ∈ d, x ≠ 0) → ∀ rest, bitsetDecodePartialBytes (bitsetEncodeBytes d ++ rest) d.length =
      some (.ok (d, (bitsetEncodeBytes d).length)) := by
  fun_induction bitsetEncodeBytes d with
  | case1 =>
    rintro ⟨x, hx, -⟩
    cases hx
  | case2 =>
    rintro ⟨x, hx, hx0⟩
    exact absurd (List.mem_singleton.mp hx) hx0
  | case3 b hb =>
    intro _ rest
    simp [bitsetDecodePartialBytes, hb]
  | case4 b₀ b₁ rest data loop hnil =>
    rintro ⟨x, hx, hx0⟩
    have hsnd : loop.2 = data.filter (· ≠ 0) := encodeLoop_snd data 0 _ []
    rw [hsnd, List.length_eq_zero_iff, List.filter_eq_nil_iff] at hnil
    exact absurd (hnil x hx) (by simpa using hx0)
  | case5 b₀ b₁ rest data loop hne ih =>
    rintro ⟨x, hx, hx0⟩ rest'
    have hsnd : loop.2 = data.filter (· ≠ 0) := encodeLoop_snd data 0 _ []
    have hlen : loop.1.length = (data.length + 7) / 8 := by
      rw [length_encodeLoop_fst, List.length_replicate]
    have hbits : ∀ j, bit loop.1 j = (data.getD j 0 != 0) := fun j => by
      have hj := bit_encodeLoop_fst data 0 (List.replicate ((data.length + 7) / 8) 0) []
        (by rw [List.length_replicate]; omega) j
      simpa using hj
    -- the byte `x` sets a bit, so the bitset is not zero and the induction hypothesis applies
    have hB : ∃ y ∈ loop.1, y ≠ 0 := by
      obtain ⟨j, hj, rfl⟩ := List.getElem_of_mem hx
      exact exists_ne_zero_of_bit (by rw [hbits, List.getD_eq_getElem _ _ hj]; simpa using hx0)
    have hrec := ih hB (loop.2 ++ rest')
    have hdata : (bitsetEncodeBytes loop.1 ++ (loop.2 ++ rest')).drop (bitsetEncodeBytes loop.1).length =
        (data.drop 0).filter (· ≠ 0) ++ rest' := by
      rw [List.drop_left, hsnd, List.drop_zero]
    have hloop := decodeLoop_of_bits hbits (by rw [hlen]; omega) rest' _ 0 _ rfl hdata
    rw [List.take_zero, List.nil_append, Nat.sub_zero, List.drop_zero, ← hsnd] at hloop
    rw [bitsetDecodePartialBytes, if_neg (by simp), if_neg (by simp only [List.length_append]; omega),
      if_neg (by simp)]
    have hlen' : ((b₀ :: b₁ :: rest).length + 7) / 8 = loop.1.length := hlen.symm
    rw [List.append_assoc, hlen', hrec, List.length_append]
    exact hloop

theorem encode_of_bitsetDecodePartialBytes {data : List UInt8} {target : Nat} {d : List UInt8} {ptr : Nat}
    (h : bitsetDecodePartialBytes data target = some (.ok (d, ptr))) :
    d.length = target ∧ ptr ≤ data.length ∧ bitsetEncodeBytes d = data.take ptr := by
  fun_induction bitsetDecodePartialBytes data target generalizing d ptr with
  | case1 =>
    cases h
    exact ⟨rfl, Nat.zero_le _, by rw [bitsetEncodeBytes]; rfl⟩
  | case2 target _ _ =>
    cases h
    refine ⟨List.length_replicate, Nat.zero_le _, ?_⟩
    rw [bitsetEncodeBytes_eq_nil (fun x hx => List.eq_of_mem_replicate hx), List.take_zero]
  | case3 | case5 | case6 => cases h
  | case4 _ x hx _ =>
    cases h
    obtain ⟨tail, rfl⟩ : ∃ tail, data = x :: tail := by
      cases data with
      | nil => cases hx
      | cons y tail => cases hx; exact ⟨tail, rfl⟩
    by_cases hx0 : x = 0
    · simp +zetaDelta [hx0, bitsetEncodeBytes]
    · simp +zetaDelta [hx0, bitsetEncodeBytes]
  | case7 target _ _ _ _ nonZeroBitset p₁ hrec =>
    rename_i ih
    obtain ⟨hBlen, hp₁, hBenc⟩ := ih hrec
    obtain ⟨hdlen, -, hbits, hle, hle', htake⟩ :=
      bits_of_decodeLoop h (fun j _ => by simp +zetaDelta [List.getD_eq_getElem?_getD]) hp₁
    replace hdlen : d.length = target := hdlen.trans List.length_replicate
    rw [List.drop_zero] at htake
    refine ⟨hdlen, hle', ?_⟩
    rw [bitsetEncodeBytes_of_bits (by omega) (by rw [hBlen, hdlen]) (fun j => hbits j (Nat.zero_le j))]
    split_ifs with hnil
    · -- no byte is non-zero: nothing was read after the bitset, and the bitset is zero
      have hzero : nonZeroBitset = List.replicate nonZeroBitset.length 0 := by
        apply eq_of_bit_eq List.length_replicate.symm
        intro j
        rw [hbits j (Nat.zero_le j), getD_eq_zero_of_filter_eq_nil hnil, bit_replicate_zero]
        rfl
      have hptr : ptr = p₁ := by
        rw [hnil, List.take_eq_nil_iff] at htake
        rcases htake with h0 | hdrop
        · omega
        · rw [List.drop_eq_nil_iff] at hdrop
          omega
      rw [hptr, ← hBenc, hzero, bitsetEncodeBytes_eq_nil (fun x hx => List.eq_of_mem_replicate hx)]
    · rw [hBenc, ← htake, ← List.take_add, Nat.add_sub_cancel' hle]

theorem bitsetDecodePartialBytes_isSome (data : List UInt8) (target : Nat) :
    (bitsetDecodePartialBytes data target).isSome := by
  fun_induction bitsetDecodePartialBytes data target with
  | case3 hlen hnone _ =>
    rw [List.getElem?_eq_getElem (by omega)] at hnone
    cases hnone
  | case5 target _ _ _ hnone ih =>
    rw [hnone] at ih
    cases ih
  | case1 | case2 | case4 | case6 => rfl
  | case7 => exact decodeLoop_isSome _ _ _ _ _

/-! ## Round trips -/

theorem bitsetDecodeBytes_encode (d : List UInt8) :
    bitsetDecodeBytes (bitsetEncodeBytes d) d.length = some (.ok d) := by
  by_cases hd : ∃ x ∈ d, x ≠ 0
  · have h := bitsetDecodePartialBytes_encode d hd []
    rw [List.append_nil] at h
    rw [bitsetDecodeBytes, h]
    simp
  · push Not at hd
    have hrep : List.replicate d.length 0 = d := (List.eq_replicate_iff.mpr ⟨rfl, hd⟩).symm
    rw [bitsetEncodeBytes_eq_nil hd, bitsetDecodeBytes, bitsetDecodePartialBytes_nil, hrep]
    rfl

theorem DecompressBytes_CompressBytes (d : List UInt8) :
    DecompressBytes (CompressBytes d) d.length = some (.ok d) := by
  unfold CompressBytes
  split_ifs with hshort
  · rw [DecompressBytes, if_neg (by omega), if_neg (by omega), bitsetDecodeBytes_encode]
  · rw [DecompressBytes, if_neg (by omega), if_pos rfl]

theorem bitsetEncodeBytes_of_bitsetDecodeBytes {data : List UInt8} {target : Nat} {d : List UInt8}
    (h : bitsetDecodeBytes data target = some (.ok d)) : bitsetEncodeBytes d = data := by
  unfold bitsetDecodeBytes at h
  split at h
  · cases h
  · cases h
  · rename_i out size hpart
    split_ifs at h with hsize
    · cases h
    · cases h
      obtain ⟨-, -, henc⟩ := encode_of_bitsetDecodePartialBytes hpart
      rw [henc, show size = data.length by simpa using hsize, List.take_length]

theorem bitsetDecodeBytes_isSome (data : List UInt8) (target : Nat) :
    (bitsetDecodeBytes data target).isSome := by
  have h := bitsetDecodePartialBytes_isSome data target
  unfold bitsetDecodeBytes
  split
  · rename_i hnone
    rw [hnone] at h
    cases h
  · rfl
  · split_ifs <;> rfl

theorem DecompressBytes_isSome (data : List UInt8) (target : Nat) :
    (DecompressBytes data target).isSome := by
  unfold DecompressBytes
  split_ifs
  · rfl
  · rfl
  · exact bitsetDecodeBytes_isSome data target

/-- Sparse bitset compression: decompression inverts compression and the decoder the encoder,
every input the decoder accepts is the encoding of what it decodes to, and neither decoder
indexes out of range. -/
theorem bitset_compression_round_trip :
    (∀ d : List UInt8, DecompressBytes (CompressBytes d) d.length = some (.ok d)) ∧
    (∀ d : List UInt8, bitsetDecodeBytes (bitsetEncodeBytes d) d.length = some (.ok d)) ∧
    (∀ (c : List UInt8) (t : Nat) (d : List UInt8),
      bitsetDecodeBytes c t = some (.ok d) → bitsetEncodeBytes d = c) ∧
    (∀ (c : List UInt8) (t : Nat), (DecompressBytes c t).isSome ∧ (bitsetDecodeBytes c t).isSome) :=
  ⟨DecompressBytes_CompressBytes, bitsetDecodeBytes_encode,
    fun _ _ _ h => bitsetEncodeBytes_of_bitsetDecodeBytes h,
    fun c t => ⟨DecompressBytes_isSome c t, bitsetDecodeBytes_isSome c t⟩⟩

end Zerium.Bitutil
