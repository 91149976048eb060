import Zerium.Vm.Analysis

/-! # The bitmap marks exactly the push data

The instruction boundaries of a code are the positions the linear decoding starts an instruction
at: `0`, and after a boundary `p` within the code, `p + 1 + n` when the byte at `p` is `PUSHn`
and `p + 1` otherwise. `codeBitmap` walks the same boundaries, and the bits it sets are those of
the bytes after a `PUSHn` up to the next boundary, so a position of the code has its bit clear
exactly when it is a boundary. Its writes stay within the vector it allocates: a `PUSH32` at the
last byte of the code writes up to four bytes past the bits of the code, and the vector has
five. `destinations.has` then answers whether a destination is a `JUMPDEST` at a boundary. It
turns away every destination of 63 bits or more (`dest.BitLen() >= 63`, from `2^62` on), so the
answer is exact for codes of at most `2^62` bytes; the Go runtime allocates no slice that long.

A bit of the vector is read as `isData`: the bit `0x80 >> (q % 8)` of the byte `q / 8`.
-/

namespace Zerium.Vm

set_option autoImplicit false

/-! ## Bits of a byte -/

def bitAt (b : UInt8) (j : Nat) : Bool := b &&& (0x80 >>> UInt8.ofNat j) != 0

theorem bitAt_or (b m : UInt8) (j : Nat) : bitAt (b ||| m) j = (bitAt b j || bitAt m j) := by
  have hdist : (b ||| m) &&& (0x80 >>> UInt8.ofNat j) =
      (b &&& (0x80 >>> UInt8.ofNat j)) ||| (m &&& (0x80 >>> UInt8.ofNat j)) :=
    UInt8.toBitVec_inj.1 BitVec.and_or_distrib_right
  unfold bitAt
  rw [hdist]
  generalize b &&& (0x80 >>> UInt8.ofNat j) = x
  generalize m &&& (0x80 >>> UInt8.ofNat j) = y
  -- a disjunction of bits is zero exactly when both parts are
  by_cases hx : x = 0
  · subst hx
    simp
  · have hxy : x ||| y ≠ 0 := fun h => hx (UInt8.or_eq_zero_iff.mp h).1
    rw [bne_iff_ne.mpr hxy, bne_iff_ne.mpr hx, Bool.true_or]

@[simp] theorem bitAt_zero (j : Nat) : bitAt 0 j = false := by
  simp [bitAt]

theorem bitAt_masks (j k : Fin 8) :
    bitAt (0x80 >>> UInt8.ofNat k.val) j.val = decide (j = k) ∧
      bitAt (0xFF >>> UInt8.ofNat k.val) j.val = decide (k ≤ j) ∧
      bitAt (~~~(0xFF >>> UInt8.ofNat k.val)) j.val = decide (j < k) := by
  revert j k
  decide

/-! ## Bits of the vector -/

def isData (bits : List UInt8) (q : Nat) : Bool :=
  match bits[q / 8]? with
  | some b => bitAt b (q % 8)
  | none => false

theorem isData_set_self {bits : List UInt8} {i : Nat} {b : UInt8} (hi : i < bits.length) (q : Nat)
    (hq : q / 8 = i) : isData (bits.set i b) q = bitAt b (q % 8) := by
  unfold isData
  rw [hq, List.getElem?_set_self hi]

theorem isData_set_ne {bits : List UInt8} {i : Nat} {b : UInt8} (q : Nat) (hq : q / 8 ≠ i) :
    isData (bits.set i b) q = isData bits q := by
  unfold isData
  rw [List.getElem?_set_ne (Ne.symm hq)]

theorem isData_replicate_zero (n q : Nat) : isData (List.replicate n 0) q = false := by
  unfold isData
  rw [List.getElem?_replicate]
  by_cases h : q / 8 < n
  · rw [if_pos h]
    exact bitAt_zero _
  · rw [if_neg h]

theorem codeSegment_eq {bits : List UInt8} {q : Nat} (hq : q / 8 < bits.length) :
    codeSegment bits q = some (!isData bits q) := by
  unfold codeSegment isData bitAt
  rw [List.getElem?_eq_getElem hq]
  simp only [Option.map_some, bne, Bool.not_not]

theorem bitvecSet_spec {bits : List UInt8} {pos : Nat} (hpos : pos / 8 < bits.length) :
    ∃ bits', bitvecSet bits pos = some bits' ∧ bits'.length = bits.length ∧
      ∀ q, isData bits' q = (isData bits q || decide (q = pos)) := by
  unfold bitvecSet
  rw [List.getElem?_eq_getElem hpos]
  refine ⟨_, rfl, List.length_set .., fun q => ?_⟩
  by_cases hq : q / 8 = pos / 8
  · have hmask := (bitAt_masks ⟨q % 8, Nat.mod_lt _ (by decide)⟩ ⟨pos % 8, Nat.mod_lt _ (by decide)⟩).1
    have hold : isData bits q = bitAt bits[pos / 8] (q % 8) := by
      unfold isData
      rw [hq, List.getElem?_eq_getElem hpos]
    rw [isData_set_self hpos q hq, bitAt_or, hmask, hold]
    simp only [Fin.mk.injEq]
    congr 1
    apply decide_eq_decide.mpr
    omega
  · rw [isData_set_ne q hq]
    have hne : q ≠ pos := fun h => hq (by rw [h])
    simp [hne]

theorem bitvecSet8_spec {bits : List UInt8} {pos : Nat} (hpos : pos / 8 + 1 < bits.length) :
    ∃ bits', bitvecSet8 bits pos = some bits' ∧ bits'.length = bits.length ∧
      ∀ q, isData bits' q = (isData bits q || decide (pos ≤ q ∧ q < pos + 8)) := by
  have hpos₀ : pos / 8 < bits.length := by omega
  unfold bitvecSet8
  rw [List.getElem?_eq_getElem hpos₀]
  simp only []
  have hpos₁ : pos / 8 + 1 < (bits.set (pos / 8) (bits[pos / 8] ||| (0xFF >>> UInt8.ofNat (pos % 8)))).length := by
    rw [List.length_set]
    exact hpos
  rw [List.getElem?_eq_getElem hpos₁]
  refine ⟨_, rfl, by simp only [List.length_set], fun q => ?_⟩
  have hk : pos % 8 < 8 := Nat.mod_lt _ (by decide)
  have hj : q % 8 < 8 := Nat.mod_lt _ (by decide)
  have hmask := bitAt_masks ⟨q % 8, hj⟩ ⟨pos % 8, hk⟩
  -- the first byte takes the bits from `pos % 8` on, the next one the bits before it
  by_cases hq₀ : q / 8 = pos / 8
  · rw [isData_set_ne q (by omega), isData_set_self hpos₀ q hq₀, bitAt_or, hmask.2.1]
    have hold : isData bits q = bitAt bits[pos / 8] (q % 8) := by
      unfold isData
      rw [hq₀, List.getElem?_eq_getElem hpos₀]
    rw [hold]
    congr 1
    apply decide_eq_decide.mpr
    rw [Fin.mk_le_mk]
    omega
  · by_cases hq₁ : q / 8 = pos / 8 + 1
    · rw [isData_set_self hpos₁ q hq₁, List.getElem_set_ne (by omega), bitAt_or, hmask.2.2]
      have hold : isData bits q = bitAt bits[pos / 8 + 1] (q % 8) := by
        unfold isData
        rw [hq₁, List.getElem?_eq_getElem hpos]
      rw [hold]
      congr 1
      apply decide_eq_decide.mpr
      rw [Fin.mk_lt_mk]
      omega
    · rw [isData_set_ne q hq₁, isData_set_ne q hq₀]
      have hout : ¬ (pos ≤ q ∧ q < pos + 8) := by omega
      simp [hout]

/-! ## The loops over the push data -/

theorem setBytes_spec {numbits pc : Nat} {bits : List UInt8} (hfit : pc + numbits < 8 * bits.length) :
    ∃ bits', setBytes numbits bits pc = some (numbits % 8, bits', pc + 8 * (numbits / 8)) ∧
      bits'.length = bits.length ∧
      ∀ q, isData bits' q = (isData bits q || decide (pc ≤ q ∧ q < pc + 8 * (numbits / 8))) := by
  induction numbits using Nat.strongRecOn generalizing bits pc with
  | ind n ih =>
    by_cases hn : 8 ≤ n
    · obtain ⟨m, rfl⟩ : ∃ m, n = m + 8 := ⟨n - 8, by omega⟩
      obtain ⟨bits₁, hset, hlen₁, hdata₁⟩ := @bitvecSet8_spec bits pc (by omega)
      obtain ⟨bits₂, hrest, hlen₂, hdata₂⟩ := @ih m (by omega) (pc + 8) bits₁ (by rw [hlen₁]; omega)
      refine ⟨bits₂, ?_, by rw [hlen₂, hlen₁], fun q => ?_⟩
      · rw [setBytes, hset]
        simp only []
        rw [hrest]
        have hrem : m % 8 = (m + 8) % 8 := by omega
        have hpc : pc + 8 + 8 * (m / 8) = pc + 8 * ((m + 8) / 8) := by omega
        rw [hrem, hpc]
      · rw [hdata₂, hdata₁, Bool.or_assoc]
        congr 1
        -- the byte of this round and those of the rounds after it tile the range
        cases h₁ : decide (pc ≤ q ∧ q < pc + 8) <;> cases h₂ : decide (pc + 8 ≤ q ∧ q < pc + 8 + 8 * (m / 8)) <;>
          simp only [decide_eq_true_eq, decide_eq_false_iff_not, Bool.false_or, Bool.true_or] at h₁ h₂ ⊢ <;>
          (first | (symm; apply decide_eq_false; omega) | (symm; apply decide_eq_true; omega))
    · have hsmall : setBytes n bits pc = some (n, bits, pc) := by
        exact setBytes.eq_2 n bits pc fun m hm => hn (by omega)
      refine ⟨bits, ?_, rfl, fun q => ?_⟩
      · rw [hsmall]
        congr 3 <;> omega
      · have hnone : ¬ (pc ≤ q ∧ q < pc + 8 * (n / 8)) := by omega
        rw [decide_eq_false hnone, Bool.or_false]

theorem setBits_spec {numbits pc : Nat} {bits : List UInt8} (hfit : pc + numbits ≤ 8 * bits.length) :
    ∃ bits', setBits numbits bits pc = some (bits', pc + numbits) ∧ bits'.length = bits.length ∧
      ∀ q, isData bits' q = (isData bits q || decide (pc ≤ q ∧ q < pc + numbits)) := by
  induction numbits generalizing bits pc with
  | zero =>
    refine ⟨bits, rfl, rfl, fun q => ?_⟩
    have hnone : ¬ (pc ≤ q ∧ q < pc + 0) := by omega
    rw [decide_eq_false hnone, Bool.or_false]
  | succ n ih =>
    obtain ⟨bits₁, hset, hlen₁, hdata₁⟩ := @bitvecSet_spec bits pc (by omega)
    obtain ⟨bits₂, hrest, hlen₂, hdata₂⟩ := @ih (pc + 1) bits₁ (by omega)
    refine ⟨bits₂, ?_, by rw [hlen₂, hlen₁], fun q => ?_⟩
    · rw [setBits, hset]
      simp only []
      rw [hrest]
      congr 2
      omega
    · rw [hdata₂, hdata₁, Bool.or_assoc]
      congr 1
      by_cases hq : q = pc
      · rw [decide_eq_true hq, Bool.true_or]
        exact (decide_eq_true ⟨by omega, by omega⟩).symm
      · have hiff : (pc + 1 ≤ q ∧ q < pc + 1 + n) ↔ (pc ≤ q ∧ q < pc + (n + 1)) := by omega
        rw [decide_eq_false hq, Bool.false_or]
        exact decide_eq_decide.mpr hiff

theorem pushData_spec {n pc : Nat} {bits : List UInt8} (hfit : pc + 1 + n < 8 * bits.length) :
    ∃ bits₁ bits₂, setBytes n bits (pc + 1) = some (n % 8, bits₁, pc + 1 + 8 * (n / 8)) ∧
      setBits (n % 8) bits₁ (pc + 1 + 8 * (n / 8)) = some (bits₂, pc + 1 + n) ∧
      bits₂.length = bits.length ∧
      ∀ q, isData bits₂ q = (isData bits q || decide (pc + 1 ≤ q ∧ q < pc + 1 + n)) := by
  obtain ⟨bits₁, hbytes, hlen₁, hdata₁⟩ := @setBytes_spec n (pc + 1) bits hfit
  obtain ⟨bits₂, hbits, hlen₂, hdata₂⟩ :=
    @setBits_spec (n % 8) (pc + 1 + 8 * (n / 8)) bits₁ (by omega)
  have hend : pc + 1 + 8 * (n / 8) + n % 8 = pc + 1 + n := by omega
  refine ⟨bits₁, bits₂, hbytes, hend ▸ hbits, by rw [hlen₂, hlen₁], fun q => ?_⟩
  rw [hdata₂, hdata₁, Bool.or_assoc]
  congr 1
  have hiff : ((pc + 1 ≤ q ∧ q < pc + 1 + 8 * (n / 8)) ∨
      (pc + 1 + 8 * (n / 8) ≤ q ∧ q < pc + 1 + 8 * (n / 8) + n % 8)) ↔ (pc + 1 ≤ q ∧ q < pc + 1 + n) := by
    omega
  rw [← Bool.decide_or, decide_eq_decide.mpr hiff]

/-! ## Instruction boundaries -/

/-- The number of data bytes after the instruction at `p`: `n` for a `PUSHn`, none otherwise. -/
def pushSize (code : List UInt8) (p : Nat) : Nat :=
  match code[p]? with
  | some op => if op ≥ PUSH1 ∧ op ≤ PUSH32 then (op - PUSH1 + 1).toNat else 0
  | none => 0

/-- The positions at which the linear decoding of `code` starts an instruction. -/
inductive Boundary (code : List UInt8) : Nat → Prop
  | zero : Boundary code 0
  | next {p : Nat} : Boundary code p → p < code.length → Boundary code (p + 1 + pushSize code p)

theorem push_toNat {op : UInt8} (h : op ≥ PUSH1 ∧ op ≤ PUSH32) :
    (op - PUSH1 + 1).toNat = op.toNat - 95 ∧ 96 ≤ op.toNat ∧ op.toNat ≤ 127 := by
  have h96 : PUSH1.toNat = 96 := rfl
  have h127 : PUSH32.toNat = 127 := rfl
  have hlo := UInt8.le_iff_toNat_le.mp h.1
  have hhi := UInt8.le_iff_toNat_le.mp h.2
  have h1 : (1 : UInt8).toNat = 1 := rfl
  rw [UInt8.toNat_add, UInt8.toNat_sub_of_le _ _ h.1, h96, h1]
  omega

theorem Boundary.next_le {code : List UInt8} {p q : Nat} (hp : Boundary code p) (hq : Boundary code q)
    (hpq : p < q) : p + 1 + pushSize code p ≤ q := by
  induction q using Nat.strongRecOn generalizing p with
  | ind q ih =>
    cases hq with
    | zero => omega
    | @next q₀ hq₀ hlt₀ =>
      rcases Nat.lt_trichotomy p q₀ with hlt | rfl | hgt
      · have := ih q₀ (by omega) hp hq₀ hlt
        omega
      · exact Nat.le_refl _
      · -- `p` would lie inside the data of `q₀`
        have := ih p (by omega) hq₀ hp hgt
        omega

/-! ## The loop of `codeBitmap` -/

/-- What the loop of `codeBitmap` keeps at each boundary `pc` it reaches: the vector keeps its
length, and the positions marked are those before `pc` that are not boundaries. -/
structure BitmapInv (code bits : List UInt8) (pc : Nat) : Prop where
  length_eq : bits.length = code.length / 8 + 5
  data_iff : ∀ q, isData bits q = true ↔ q < pc ∧ ¬ Boundary code q

theorem codeBitmapLoop_spec (code bits : List UInt8) (pc : Nat) (hpc : Boundary code pc)
    (hinv : BitmapInv code bits pc) :
    ∃ bits', codeBitmapLoop code bits pc = some bits' ∧ bits'.length = code.length / 8 + 5 ∧
      ∀ q < code.length, (isData bits' q = true ↔ ¬ Boundary code q) := by
  have hlen := hinv.length_eq
  fun_induction codeBitmapLoop code bits pc with
  | case1 bits pc hlt op hpush numbits hb =>
    -- the writes of a push fit: the vector has four bytes past the bits of the code
    have hn := (push_toNat hpush).1
    obtain ⟨bits₁, bits₂, hbytes, -⟩ :=
      @pushData_spec numbits pc bits (by have := (push_toNat hpush).2; omega)
    rw [hbytes] at hb
    cases hb
  | case2 bits pc hlt op hpush numbits rest bits₁ pc₁ hb hs =>
    have hn := (push_toNat hpush).1
    obtain ⟨bits₁', bits₂, hbytes, hbits, -⟩ :=
      @pushData_spec numbits pc bits (by have := (push_toNat hpush).2; omega)
    rw [hbytes] at hb
    cases hb
    rw [hbits] at hs
    cases hs
  | case3 bits pc hlt op hpush numbits rest bits₁ pc₁ hb bits₂ pc₂ hs ih =>
    have hn := (push_toNat hpush).1
    obtain ⟨bits₁', bits₂', hbytes, hbits, hlen₂, hdata₂⟩ :=
      @pushData_spec numbits pc bits (by have := (push_toNat hpush).2; omega)
    rw [hbytes] at hb
    cases hb
    rw [hbits] at hs
    cases hs
    have hsize : pushSize code pc = numbits := by
      unfold pushSize
      rw [List.getElem?_eq_getElem hlt]
      exact if_pos hpush
    have hnext := hpc.next hlt
    rw [hsize] at hnext
    refine ih hnext ⟨by rw [hlen₂, hlen], fun q => ?_⟩ (by rw [hlen₂, hlen])
    rw [hdata₂, Bool.or_eq_true, hinv.data_iff, decide_eq_true_iff]
    constructor
    · rintro (⟨hq, hnb⟩ | ⟨hlo, hhi⟩)
      · exact ⟨by omega, hnb⟩
      · -- the data of the push lies between two boundaries
        refine ⟨hhi, fun hb => ?_⟩
        have := hpc.next_le hb (by omega)
        omega
    · rintro ⟨hq, hnb⟩
      by_cases hlo : q < pc
      · exact .inl ⟨hlo, hnb⟩
      · have hne : q ≠ pc := fun h => hnb (h ▸ hpc)
        exact .inr ⟨by omega, hq⟩
  | case4 bits pc hlt op hpush ih =>
    have hsize : pushSize code pc = 0 := by
      unfold pushSize
      rw [List.getElem?_eq_getElem hlt]
      exact if_neg hpush
    have hnext := hpc.next hlt
    rw [hsize] at hnext
    refine ih hnext ⟨hlen, fun q => ?_⟩ hlen
    rw [hinv.data_iff]
    constructor
    · rintro ⟨hq, hnb⟩
      exact ⟨by omega, hnb⟩
    · rintro ⟨hq, hnb⟩
      have hne : q ≠ pc := fun h => hnb (h ▸ hpc)
      exact ⟨by omega, hnb⟩
  | case5 bits pc hlt =>
    refine ⟨bits, rfl, hlen, fun q hq => ?_⟩
    rw [hinv.data_iff]
    constructor
    · rintro ⟨-, hnb⟩
      exact hnb
    · intro hnb
      exact ⟨by omega, hnb⟩

theorem codeBitmap_spec (code : List UInt8) :
    ∃ bits, codeBitmap code = some bits ∧ bits.length = code.length / 8 + 5 ∧
      ∀ q < code.length, (isData bits q = true ↔ ¬ Boundary code q) := by
  refine codeBitmapLoop_spec code _ 0 .zero ⟨by rw [List.length_replicate], fun q => ?_⟩
  rw [isData_replicate_zero]
  constructor
  · intro h
    cases h
  · rintro ⟨hq, -⟩
    exact absurd hq (Nat.not_lt_zero q)

/-! ## `destinations.has` -/

/-- `destinations.has` lets a jump land exactly on a `JUMPDEST` at an instruction boundary, for
every code of at most `2^62` bytes and every destination, whether the bitmap of the code is
cached or computed; the map it returns keeps the bitmap of the code under its hash. And
`codeBitmap` writes only within the `len(code)/8 + 5` bytes it allocates. -/
theorem destinationsHas_iff_boundary (d : GoMap (List UInt8) (List UInt8)) (codehash code : List UInt8)
    (dest : Nat) (hlen : code.length ≤ 2 ^ 62)
    (hcache : ∀ m, d.get codehash = some m → codeBitmap code = some m) :
    (∃ b d', destinationsHas d codehash code dest = some (b, d') ∧
      (b = true ↔ dest < code.length ∧ code[dest]? = some JUMPDEST ∧ Boundary code dest) ∧
      ∀ m, d'.get codehash = some m → codeBitmap code = some m) ∧
    ∃ bits, codeBitmap code = some bits ∧ bits.length = code.length / 8 + 5 := by
  obtain ⟨bits, hbm, hblen, hdata⟩ := codeBitmap_spec code
  refine ⟨?_, bits, hbm, hblen⟩
  unfold destinationsHas
  simp only []
  by_cases hout : dest ≥ 2 ^ 62 ∨ dest % 2 ^ 64 ≥ code.length
  · -- out of range: no jump, and the map is not touched
    rw [if_pos hout]
    refine ⟨false, d, rfl, ⟨fun h => (by cases h), ?_⟩, hcache⟩
    rintro ⟨hlt, -, -⟩
    omega
  · rw [if_neg hout]
    have hdest : dest % 2 ^ 64 = dest := Nat.mod_eq_of_lt (by omega)
    have hlt : dest < code.length := by omega
    rw [hdest, List.getElem?_eq_getElem hlt]
    -- what `has` answers once it holds the bitmap of the code, whichever map it returns
    have hanswer : ∀ d' : GoMap (List UInt8) (List UInt8), ∃ b,
        (if code[dest] = JUMPDEST then (codeSegment bits dest).map fun seg => (seg, d') else some (false, d')) =
          some (b, d') ∧ (b = true ↔ dest < code.length ∧ some code[dest] = some JUMPDEST ∧ Boundary code dest) := by
      intro d'
      by_cases hjump : code[dest] = JUMPDEST
      · rw [if_pos hjump, codeSegment_eq (by omega)]
        refine ⟨_, rfl, ?_⟩
        rw [Bool.not_eq_true', Bool.eq_false_iff, ne_eq, hdata dest hlt, not_not]
        constructor
        · intro hb
          exact ⟨hlt, by rw [hjump], hb⟩
        · rintro ⟨-, -, hb⟩
          exact hb
      · rw [if_neg hjump]
        refine ⟨false, rfl, ⟨fun h => (by cases h), ?_⟩⟩
        rintro ⟨-, hop, -⟩
        exact absurd (Option.some.inj hop) hjump
    -- the cached bitmap, or the one computed and stored, is the bitmap of the code
    rcases hget : d.get codehash with _ | m
    · simp only [hbm, Option.map_some]
      obtain ⟨b, hb, hiff⟩ := hanswer (d.insert codehash bits)
      refine ⟨b, d.insert codehash bits, hb, hiff, fun m hm => ?_⟩
      rw [GoMap.get_insert_self] at hm
      exact hm
    · have hm := hcache m hget
      rw [hbm] at hm
      cases hm
      simp only []
      obtain ⟨b, hb, hiff⟩ := hanswer d
      exact ⟨b, d, hb, hiff, hcache⟩

theorem destinationsHas_iff_boundary_push1 :
    ([0x60, 0x5b, 0x5b] : List UInt8).length ≤ 2 ^ 62 ∧
      (∀ m, (GoMap.empty : GoMap (List UInt8) (List UInt8)).get [] = some m →
        codeBitmap [0x60, 0x5b, 0x5b] = some m) ∧
      (∃ b d', destinationsHas GoMap.empty [] [0x60, 0x5b, 0x5b] 2 = some (b, d') ∧
        (b = true ↔ 2 < ([0x60, 0x5b, 0x5b] : List UInt8).length ∧
          ([0x60, 0x5b, 0x5b] : List UInt8)[2]? = some JUMPDEST ∧ Boundary [0x60, 0x5b, 0x5b] 2) ∧
        ∀ m, d'.get [] = some m → codeBitmap [0x60, 0x5b, 0x5b] = some m) ∧
      ∃ bits, codeBitmap [0x60, 0x5b, 0x5b] = some bits ∧
        bits.length = ([0x60, 0x5b, 0x5b] : List UInt8).length / 8 + 5 :=
  have hcache : ∀ m, (GoMap.empty : GoMap (List UInt8) (List UInt8)).get [] = some m →
      codeBitmap [0x60, 0x5b, 0x5b] = some m := fun m h => by cases h
  ⟨by decide, hcache, destinationsHas_iff_boundary GoMap.empty [] [0x60, 0x5b, 0x5b] 2 (by decide) hcache⟩

end Zerium.Vm
