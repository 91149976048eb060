import Zerium.Lib.BigEndian
import Zerium.Lib.MsbBits

/-! # Rotated bloom bits

`core/bloombits/generator.go` and the `BloomIndexer` of `zrm/bloombits.go`. The generator stores
a section's blooms transposed, one vector per bloom bit, so a filter reads three vectors and not
every bloom. A bloom's bit `i` is bit `i % 8` of byte `255 - i / 8`, and a vector holds the
blooms most significant bit first; `AddBloom` writes bloom `j` into bit `j` of every vector.
`Bitset` bounds its index by the number of sections, not by the 2048 vectors: above 2048 sections
its index is out of range, a panic, which is `none` here.
-/

namespace Zerium.Core.BloomBits

open MsbBits

set_option autoImplicit false

def BloomByteLength : Nat := 256
def BloomBitLength : Nat := 8 * BloomByteLength

/-- `types.Bloom`. -/
structure Bloom where
  bytes : Fin BloomByteLength → UInt8

/-- Bit `i` of a bloom in `bloom9`'s numbering: the bloom as a big-endian number. -/
def bloomBit (b : Bloom) (i : Nat) : Bool := (BigEndian.toNat (List.ofFn b.bytes)).testBit i

def vecBit (v : List UInt8) (j : Nat) : Bool := (v.getD (j / 8) 0).toNat.testBit (7 - j % 8)

inductive GenError where
  /-- "section count not multiple of 8" -/
  | notMultipleOf8
  /-- `errSectionOutOfBounds` -/
  | sectionOutOfBounds
  /-- "bloom filter with unexpected index" -/
  | unexpectedIndex
  /-- "bloom not fully generated yet" -/
  | notFullyGenerated
deriving DecidableEq, Repr

/-- `Generator`; `NewGenerator` makes every vector `sections / 8` bytes long for a multiple of
`8`, and `AddBloom` stops at `sections`. -/
structure Generator where
  blooms : Fin BloomBitLength → List UInt8
  sections : Nat
  nextBit : Nat
  length_blooms : ∀ i, (blooms i).length = sections / 8
  sections_mod : sections % 8 = 0
  nextBit_le : nextBit ≤ sections

def NewGenerator (sections : Nat) : Except GenError Generator :=
  if h : sections % 8 ≠ 0 then .error .notMultipleOf8
  else .ok ⟨fun _ => List.replicate (sections / 8) 0, sections, 0, fun _ => List.length_replicate,
    not_not.mp h, Nat.zero_le _⟩

def bloomByteIndex (i : Fin BloomBitLength) : Fin BloomByteLength :=
  ⟨BloomByteLength - 1 - i.val / 8, by
    unfold BloomByteLength
    omega⟩

/-- The loop of `AddBloom` over the bloom bits: vector `i` gets `bitMask` at `byteIndex` when bit
`i` of `bloom` is set. -/
def rotate (blooms : Fin BloomBitLength → List UInt8) (byteIndex : Nat) (bitMask : UInt8) (bloom : Bloom) :
    Fin BloomBitLength → List UInt8 := fun i =>
  let bloomBitMask : UInt8 := 1 <<< (i.val % 8).toUInt8
  if bloom.bytes (bloomByteIndex i) &&& bloomBitMask ≠ 0 then (blooms i).modify byteIndex (· ||| bitMask)
  else blooms i

namespace Generator

def AddBloom (b : Generator) (index : Nat) (bloom : Bloom) : Except GenError Generator :=
  if h : b.nextBit ≥ b.sections then .error .sectionOutOfBounds
  else if b.nextBit ≠ index then .error .unexpectedIndex
  else
    let byteIndex := b.nextBit / 8
    let bitMask : UInt8 := 1 <<< (7 - b.nextBit % 8).toUInt8
    .ok { blooms := rotate b.blooms byteIndex bitMask bloom
          sections := b.sections
          nextBit := b.nextBit + 1
          length_blooms := fun i => by
            unfold rotate
            dsimp only
            split
            · rw [List.length_modify, b.length_blooms]
            · exact b.length_blooms i
          sections_mod := b.sections_mod
          nextBit_le := by omega }

def Bitset (b : Generator) (idx : Nat) : Option (Except GenError (List UInt8)) :=
  if b.nextBit ≠ b.sections then some (.error .notFullyGenerated)
  else if idx ≥ b.sections then some (.error .sectionOutOfBounds)
  else if h : idx < BloomBitLength then some (.ok (b.blooms ⟨idx, h⟩))
  else none

end Generator

/-- `AddBloom` of the blooms `0, …, n - 1` of a section, in order, as `Process` adds them. -/
def addBlooms (B : Nat → Bloom) : Nat → Generator → Except GenError Generator
  | 0, g => .ok g
  | n + 1, g => (addBlooms B n g).bind fun g => g.AddBloom n (B n)

def generate (s : Nat) (B : Nat → Bloom) : Except GenError Generator :=
  (NewGenerator s).bind (addBlooms B s)

/-- The loop of `BloomIndexer.Commit`: the compressed vectors of the bits `bits`, in the order
they are written to the batch under the section and the head, or the first error. -/
def commitLoop (gen : Generator) (sec : Nat) (head : List UInt8) (compress : List UInt8 → List UInt8) :
    List Nat → Option (Except GenError (List (Nat × Nat × List UInt8 × List UInt8)))
  | [] => some (.ok [])
  | i :: bits =>
    match gen.Bitset i with
    | none => none
    | some (.error e) => some (.error e)
    | some (.ok v) => (commitLoop gen sec head compress bits).map fun r => r.map ((i, sec, head, compress v) :: ·)

/-- `BloomIndexer.Commit`. -/
def Commit (gen : Generator) (sec : Nat) (head : List UInt8) (compress : List UInt8 → List UInt8) :
    Option (Except GenError (List (Nat × Nat × List UInt8 × List UInt8))) :=
  commitLoop gen sec head compress (List.range BloomBitLength)

/-! ## Bits of bytes -/

theorem bloomByte_mask_iff (b : Bloom) (i : Fin BloomBitLength) :
    b.bytes (bloomByteIndex i) &&& 1 <<< (i.val % 8).toUInt8 ≠ 0 ↔ bloomBit b i = true := by
  have hi : i.val < 8 * (List.ofFn b.bytes).length := by
    rw [List.length_ofFn]
    exact i.isLt
  have hbyte : (List.ofFn b.bytes).length - 1 - i.val / 8 < (List.ofFn b.bytes).length := by
    rw [List.length_ofFn]
    unfold BloomByteLength
    omega
  rw [and_one_shiftLeft_ne_zero_iff _ (Nat.mod_lt _ (by decide)), bloomBit, BigEndian.testBit_toNat _ _ hi,
    List.getD_eq_getElem _ _ hbyte, List.getElem_ofFn]
  simp only [List.length_ofFn]
  rfl

theorem vecBit_rotate (blooms : Fin BloomBitLength → List UInt8) (k : Nat) (bloom : Bloom) (i : Fin BloomBitLength)
    {j : Nat} (hj : j / 8 < (blooms i).length) :
    vecBit (rotate blooms (k / 8) (1 <<< (7 - k % 8).toUInt8) bloom i) j =
      (vecBit (blooms i) j || (decide (j = k) && bloomBit bloom i)) := by
  unfold rotate vecBit
  dsimp only
  by_cases hc : bloom.bytes (bloomByteIndex i) &&& 1 <<< (i.val % 8).toUInt8 ≠ 0
  · rw [if_pos hc, (bloomByte_mask_iff bloom i).mp hc, Bool.and_true, getD_modify _ _ _ _ hj]
    by_cases hb : k / 8 = j / 8
    · -- the same byte: the mask is bit `k`
      rw [if_pos hb, testBit_or_one_shiftLeft _ (by omega)]
      have hpos : (7 - k % 8 = 7 - j % 8) ↔ j = k := by omega
      simp only [hpos]
    · have hne : j ≠ k := by
        rintro rfl
        exact hb rfl
      simp [if_neg hb, hne]
  · have hbit : bloomBit bloom i = false := by
      rw [← Bool.not_eq_true, ← bloomByte_mask_iff]
      exact hc
    rw [if_neg hc, hbit]
    simp

/-! ## The generator after a section -/

/-- The vectors hold the blooms added so far, and nothing else. -/
structure Rotated (B : Nat → Bloom) (g : Generator) : Prop where
  bits : ∀ i j, j < g.sections → vecBit (g.blooms i) j = (decide (j < g.nextBit) && bloomBit (B j) i)

theorem NewGenerator_ok {s : Nat} (hs : s % 8 = 0) :
    ∃ g, NewGenerator s = .ok g ∧ g.sections = s ∧ g.nextBit = 0 := by
  rw [NewGenerator, dif_neg (not_not.mpr hs)]
  exact ⟨_, rfl, rfl, rfl⟩

theorem rotated_of_nextBit_eq_zero {g : Generator} (B : Nat → Bloom) (hzero : g.nextBit = 0)
    (hblooms : ∀ i, g.blooms i = List.replicate (g.sections / 8) 0) : Rotated B g := by
  refine ⟨fun i j _ => ?_⟩
  have hclear : (List.replicate (g.sections / 8) (0 : UInt8)).getD (j / 8) 0 = 0 := by
    by_cases hj : j / 8 < g.sections / 8
    · exact List.getD_replicate _ hj
    · exact List.getD_eq_default _ _ (by simpa using hj)
  rw [hzero, hblooms, vecBit, hclear]
  simp

theorem Generator.AddBloom_spec (g : Generator) (h : g.nextBit < g.sections) (bloom : Bloom) :
    ∃ g', g.AddBloom g.nextBit bloom = .ok g' ∧
      g'.blooms = rotate g.blooms (g.nextBit / 8) (1 <<< (7 - g.nextBit % 8).toUInt8) bloom ∧
      g'.sections = g.sections ∧ g'.nextBit = g.nextBit + 1 := by
  rw [Generator.AddBloom, dif_neg (by omega), if_neg (not_not.mpr rfl)]
  exact ⟨_, rfl, rfl, rfl, rfl⟩

theorem Rotated.addBloom {B : Nat → Bloom} {g g' : Generator} (hr : Rotated B g)
    (hblooms : g'.blooms = rotate g.blooms (g.nextBit / 8) (1 <<< (7 - g.nextBit % 8).toUInt8) (B g.nextBit))
    (hsections : g'.sections = g.sections) (hnext : g'.nextBit = g.nextBit + 1) : Rotated B g' := by
  refine ⟨fun i j hj => ?_⟩
  rw [hsections] at hj
  have hbyte : j / 8 < (g.blooms i).length := by
    rw [g.length_blooms]
    have := g.sections_mod
    omega
  rw [hblooms, vecBit_rotate _ _ _ _ hbyte, hr.bits i j hj, hnext]
  by_cases hjk : j = g.nextBit
  · subst hjk
    simp
  · have hlt : (j < g.nextBit + 1) ↔ j < g.nextBit := by omega
    simp [hjk, hlt]

theorem addBlooms_spec (B : Nat → Bloom) {g₀ : Generator} (hr : Rotated B g₀) (hzero : g₀.nextBit = 0) :
    ∀ n, n ≤ g₀.sections →
      ∃ g, addBlooms B n g₀ = .ok g ∧ g.sections = g₀.sections ∧ g.nextBit = n ∧ Rotated B g := by
  intro n
  induction n with
  | zero => exact fun _ => ⟨g₀, rfl, rfl, hzero, hr⟩
  | succ n ih =>
    intro hn
    obtain ⟨g, hg, hsec, hnext, hrg⟩ := ih (by omega)
    obtain ⟨g', hg', hblooms, hsec', hnext'⟩ := g.AddBloom_spec (by omega) (B n)
    refine ⟨g', ?_, hsec'.trans hsec, hnext'.trans (by rw [hnext]), ?_⟩
    · rw [addBlooms, hg]
      rw [hnext] at hg'
      exact hg'
    · exact hrg.addBloom (hnext ▸ hblooms) hsec' hnext'

theorem generate_spec {s : Nat} (hs : s % 8 = 0) (B : Nat → Bloom) :
    ∃ g, generate s B = .ok g ∧ g.sections = s ∧ g.nextBit = s ∧ Rotated B g := by
  obtain ⟨g₀, hg₀, hsec, hzero⟩ := NewGenerator_ok hs
  have hr : Rotated B g₀ := by
    refine rotated_of_nextBit_eq_zero B hzero fun i => ?_
    rw [NewGenerator, dif_neg (not_not.mpr hs)] at hg₀
    cases hg₀
    rfl
  obtain ⟨g, hg, hsec', hnext, hrg⟩ := addBlooms_spec B hr hzero s (by omega)
  refine ⟨g, ?_, hsec'.trans hsec, hnext, hrg⟩
  rw [generate, hg₀]
  exact hsec ▸ hg

theorem Generator.Bitset_of_full {g : Generator} (hfull : g.nextBit = g.sections) (idx : Nat) :
    g.Bitset idx = if g.sections ≤ idx then some (.error .sectionOutOfBounds)
      else if h : idx < BloomBitLength then some (.ok (g.blooms ⟨idx, h⟩)) else none := by
  rw [Generator.Bitset, if_neg (not_not.mpr hfull)]

theorem commitLoop_append_error (g : Generator) (sec : Nat) (head : List UInt8) (compress : List UInt8 → List UInt8)
    {l₁ : List Nat} (hok : ∀ i ∈ l₁, ∃ v, g.Bitset i = some (.ok v)) {k : Nat} {e : GenError}
    (he : g.Bitset k = some (.error e)) (l₂ : List Nat) :
    commitLoop g sec head compress (l₁ ++ k :: l₂) = some (.error e) := by
  induction l₁ with
  | nil => simp [commitLoop, he]
  | cons i l₁ ih =>
    obtain ⟨v, hv⟩ := hok i (List.mem_cons_self ..)
    rw [List.cons_append, commitLoop, hv]
    dsimp only
    rw [ih fun i hi => hok i (List.mem_cons_of_mem _ hi)]
    rfl

/-- Bit `j` of vector `i` is bit `i` of bloom `j`, for every section size; but `Bitset` hands out
only the vectors below the number of sections: below 2048 sections `Commit` fails, and above it
`Bitset` indexes past the 2048 vectors. -/
theorem Bitset_bounded_by_sections (s : Nat) (hs : s % 8 = 0) (B : Nat → Bloom) :
    ∃ g, generate s B = .ok g ∧
      (∀ i : Fin BloomBitLength, (g.blooms i).length = s / 8 ∧
        ∀ j, j < s → vecBit (g.blooms i) j = bloomBit (B j) i) ∧
      (∀ i (hi : i < BloomBitLength), i < s → g.Bitset i = some (.ok (g.blooms ⟨i, hi⟩))) ∧
      (s < BloomBitLength → g.Bitset s = some (.error .sectionOutOfBounds) ∧
        ∀ sec head compress, Commit g sec head compress = some (.error .sectionOutOfBounds)) ∧
      (BloomBitLength < s → g.Bitset BloomBitLength = none) := by
  obtain ⟨g, hg, hsec, hnext, hr⟩ := generate_spec hs B
  have hfull : g.nextBit = g.sections := hnext.trans hsec.symm
  have hbelow : ∀ i (hi : i < BloomBitLength), i < s → g.Bitset i = some (.ok (g.blooms ⟨i, hi⟩)) := by
    intro i hi his
    rw [g.Bitset_of_full hfull, if_neg (by omega), dif_pos hi]
  refine ⟨g, hg, fun i => ⟨by rw [g.length_blooms, hsec], fun j hj => ?_⟩, hbelow, fun hlt => ?_, fun hgt => ?_⟩
  · rw [hr.bits i j (hsec ▸ hj), hnext, decide_eq_true hj, Bool.true_and]
  · have hout : g.Bitset s = some (.error .sectionOutOfBounds) := by
      rw [g.Bitset_of_full hfull, if_pos (by omega)]
    refine ⟨hout, fun sec head compress => ?_⟩
    -- the bits below `s` pass, and bit `s` is the first to fail
    obtain ⟨m, hm⟩ : ∃ m, BloomBitLength = s + (m + 1) := ⟨BloomBitLength - s - 1, by omega⟩
    rw [Commit, hm, List.range_add, List.range_succ_eq_map, List.map_cons, Nat.add_zero]
    refine commitLoop_append_error g sec head compress (fun i hi => ?_) hout _
    have his : i < s := List.mem_range.mp hi
    exact ⟨_, hbelow i (by omega) his⟩
  · rw [g.Bitset_of_full hfull, if_neg (by omega), dif_neg (lt_irrefl _)]

/-- A section of eight blooms: `Bitset 8` fails, and so does `Commit`. -/
theorem Bitset_bounded_by_sections_eight :
    8 % 8 = 0 ∧ ∃ g, generate 8 (fun _ => ⟨fun _ => 0⟩) = .ok g ∧
      (∀ i : Fin BloomBitLength, (g.blooms i).length = 8 / 8 ∧
        ∀ j, j < 8 → vecBit (g.blooms i) j = bloomBit ⟨fun _ => 0⟩ i) ∧
      (∀ i (hi : i < BloomBitLength), i < 8 → g.Bitset i = some (.ok (g.blooms ⟨i, hi⟩))) ∧
      (8 < BloomBitLength → g.Bitset 8 = some (.error .sectionOutOfBounds) ∧
        ∀ sec head compress, Commit g sec head compress = some (.error .sectionOutOfBounds)) ∧
      (BloomBitLength < 8 → g.Bitset BloomBitLength = none) :=
  ⟨by decide, Bitset_bounded_by_sections 8 (by decide) fun _ => ⟨fun _ => 0⟩⟩

end Zerium.Core.BloomBits
