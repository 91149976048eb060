import Zerium.Lib.GoMap

/-! # Jump destination analysis

`analysis.go`: `codeBitmap` marks in a bit vector every byte of the code that is the data of a
`PUSHn`, one bit a byte from the most significant bit of each vector byte on, and
`destinations.has` lets a jump land on `dest` when `dest` is within the code, the byte there is
`JUMPDEST` and its bit is clear. The bitmap of a code is computed once and kept in the
`destinations` map under the code's hash.

The bit vector is a list of bytes. An index past its end panics in Go, so `set`, `set8` and
`codeSegment` return `none` there, and so does `codeBitmap` when one of its writes does. The
program counter of the loop is a `uint64` that stays below `len(code) + 33`, and a Go slice is
shorter than `2^63`: it is a natural number here, as are the divisions and remainders by 8 on
it. `dest` is a `*big.Int` between `0` and `2^256`, a natural number.
-/

namespace Zerium.Vm

set_option autoImplicit false

def JUMPDEST : UInt8 := 0x5b

def PUSH1 : UInt8 := 0x60

def PUSH32 : UInt8 := 0x7f

/-- `bitvec.set`: mark the byte at `pos` as data. -/
def bitvecSet (bits : List UInt8) (pos : Nat) : Option (List UInt8) :=
  match bits[pos / 8]? with
  | none => none
  | some b => some (bits.set (pos / 8) (b ||| (0x80 >>> UInt8.ofNat (pos % 8))))

/-- `bitvec.set8`: mark the eight bytes from `pos` on as data, the first ones in the vector byte
of `pos` and the rest in the next. -/
def bitvecSet8 (bits : List UInt8) (pos : Nat) : Option (List UInt8) :=
  match bits[pos / 8]? with
  | none => none
  | some b =>
    let bits := bits.set (pos / 8) (b ||| (0xFF >>> UInt8.ofNat (pos % 8)))
    match bits[pos / 8 + 1]? with
    | none => none
    | some b => some (bits.set (pos / 8 + 1) (b ||| ~~~(0xFF >>> UInt8.ofNat (pos % 8))))

/-- `bitvec.codeSegment`: the byte at `pos` is not data. -/
def codeSegment (bits : List UInt8) (pos : Nat) : Option Bool :=
  bits[pos / 8]?.map fun b => b &&& (0x80 >>> UInt8.ofNat (pos % 8)) == 0

/-- `for ; numbits >= 8; numbits -= 8 { bits.set8(pc); pc += 8 }`: the bits left, the vector
and the counter after. -/
def setBytes : Nat → List UInt8 → Nat → Option (Nat × List UInt8 × Nat)
  | numbits + 8, bits, pc =>
    match bitvecSet8 bits pc with
    | none => none
    | some bits => setBytes numbits bits (pc + 8)
  | numbits, bits, pc => some (numbits, bits, pc)

/-- `for ; numbits > 0; numbits-- { bits.set(pc); pc++ }`. -/
def setBits : Nat → List UInt8 → Nat → Option (List UInt8 × Nat)
  | numbits + 1, bits, pc =>
    match bitvecSet bits pc with
    | none => none
    | some bits => setBits numbits bits (pc + 1)
  | 0, bits, pc => some (bits, pc)

theorem setBytes_pc {numbits rest pc pc' : Nat} {bits bits' : List UInt8}
    (h : setBytes numbits bits pc = some (rest, bits', pc')) : pc ≤ pc' := by
  fun_induction setBytes numbits bits pc with
  | case1 n bits pc hset => cases h
  | case2 n bits pc bits₁ hset ih => exact Nat.le_of_add_right_le (ih h)
  | case3 n bits pc hn =>
    cases h
    exact Nat.le_refl _

theorem setBits_pc {numbits pc pc' : Nat} {bits bits' : List UInt8}
    (h : setBits numbits bits pc = some (bits', pc')) : pc ≤ pc' := by
  induction numbits generalizing bits pc with
  | zero =>
    rw [setBits] at h
    cases h
    exact Nat.le_refl _
  | succ n ih =>
    rw [setBits] at h
    split at h
    · cases h
    · exact Nat.le_of_add_right_le (ih h)

/-- The loop of `codeBitmap` from `pc` on. -/
def codeBitmapLoop (code bits : List UInt8) (pc : Nat) : Option (List UInt8) :=
  if hpc : pc < code.length then
    let op := code[pc]
    if op ≥ PUSH1 ∧ op ≤ PUSH32 then
      let numbits := (op - PUSH1 + 1).toNat
      match hb : setBytes numbits bits (pc + 1) with
      | none => none
      | some (numbits, bits, pc₁) =>
        match hs : setBits numbits bits pc₁ with
        | none => none
        | some (bits, pc₂) => codeBitmapLoop code bits pc₂
    else codeBitmapLoop code bits (pc + 1)
  else some bits
termination_by code.length - pc
decreasing_by
  · have := setBytes_pc hb
    have := setBits_pc hs
    omega
  · omega

/-- `codeBitmap`: the bitmap is four bytes longer than the code needs, for a `PUSH32` at its
end. -/
def codeBitmap (code : List UInt8) : Option (List UInt8) :=
  codeBitmapLoop code (List.replicate (code.length / 8 + 1 + 4) 0) 0

/-- `destinations.has`: whether `code`, whose hash is `codehash`, has a `JUMPDEST` at `dest`,
and the map after, with the bitmap of the code in it. -/
def destinationsHas (d : GoMap (List UInt8) (List UInt8)) (codehash code : List UInt8) (dest : Nat) :
    Option (Bool × GoMap (List UInt8) (List UInt8)) :=
  let udest := dest % 2 ^ 64
  -- `dest.BitLen() >= 63 || udest >= uint64(len(code))`
  if dest ≥ 2 ^ 62 ∨ udest ≥ code.length then some (false, d)
  else
    let cached : Option (List UInt8 × GoMap (List UInt8) (List UInt8)) :=
      match d.get codehash with
      | some m => some (m, d)
      | none => (codeBitmap code).map fun m => (m, d.insert codehash m)
    match cached with
    | none => none
    | some (m, d) =>
      match code[udest]? with
      | none => none
      -- `&&` reads the bitmap only at a `JUMPDEST`
      | some op => if op = JUMPDEST then (codeSegment m udest).map fun seg => (seg, d) else some (false, d)

end Zerium.Vm
