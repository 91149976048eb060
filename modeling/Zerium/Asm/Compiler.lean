import Zerium.Asm.Lexer
import Zerium.Vm.OpCodes
import Zerium.Lib.GoMap
import Zerium.Lib.BigEndian

/-! # The compiler of the EVM assembler (`core/asm/compiler.go`, `core/asm/asm.go`)

`Feed` reads the tokens once, adding to `pc` the bytes each will take and recording the `pc` of
each label definition; `Compile` then compiles line by line, the operand of a jump or a push read
from the token after its mnemonic, and formats what it emitted as hexadecimal.
`NewInstructionIterator` reads a code back instruction by instruction.

A Go panic (an index past the last token, a string slice out of range, a number that
`MustParseBig256` refuses, a `make` of negative length) is `none`. `big.Int.SetString(s, base)`
with base 10 or 16 takes an optional sign and then one digit of the base or more, and `Bytes`
is the big-endian magnitude; a Go string is its UTF-8 bytes. The program counter of the
iterator is a `uint64` that stays below the length of the code, a natural number.
-/

namespace Zerium.Asm

open Zerium.Vm

set_option autoImplicit false

def utf8 (s : List Char) : List UInt8 := s.flatMap String.utf8EncodeChar

/-- `s[lo:hi]`, which panics unless `0 ≤ lo ≤ hi ≤ len(s)`. -/
def goSlice {α : Type} (s : List α) (lo hi : Int) : Option (List α) :=
  if 0 ≤ lo ∧ lo ≤ hi ∧ hi ≤ s.length then some ((s.take hi.toNat).drop lo.toNat) else none

def digitValue (c : Char) : Nat :=
  if '0' ≤ c ∧ c ≤ '9' then c.toNat - '0'.toNat
  else if 'a' ≤ c ∧ c ≤ 'z' then c.toNat - 'a'.toNat + 10
  else if 'A' ≤ c ∧ c ≤ 'Z' then c.toNat - 'A'.toNat + 10
  else 37

/-- `new(big.Int).SetString(s, base)`. -/
def SetString (s : List Char) (base : Nat) : Option Int :=
  let signed : Bool × List Char := match s with
    | '+' :: ds => (false, ds)
    | '-' :: ds => (true, ds)
    | ds => (false, ds)
  if signed.2 ≠ [] ∧ signed.2.all (fun c => digitValue c < base) then
    let v : Int := signed.2.foldl (fun acc c => acc * base + digitValue c) 0
    some (if signed.1 then -v else v)
  else none

/-- `math.ParseBig256`: decimal, or hexadecimal after `0x` or `0X`, of at most 256 bits. -/
def ParseBig256 (s : List Char) : Option Int :=
  if s = [] then some 0
  else
    let bigint := match s with
      | '0' :: 'x' :: rest => SetString rest 16
      | '0' :: 'X' :: rest => SetString rest 16
      | _ => SetString s 10
    match bigint with
    | some v => if v.natAbs.size > 256 then none else some v
    | none => none

/-- `math.MustParseBig256`, which panics where `ParseBig256` fails. -/
def MustParseBig256 (s : List Char) : Option Int := ParseBig256 s

/-- `MustParseBig256(text).Bytes()`, and `[]byte{0}` for zero. -/
def numberBytes (text : List Char) : Option (List UInt8) :=
  (MustParseBig256 text).map fun v =>
    let num := BigEndian.ofNat v.natAbs
    if num.length = 0 then [0] else num

/-- An item of `Compiler.binary`: a `vm.OpCode`, a `[]byte`, or a Go string, which no case of
`Compile`'s type switch takes. -/
inductive BinItem
  | opCode (op : UInt8)
  | bytes (b : List UInt8)
  | string (s : List UInt8)
deriving DecidableEq, Repr

structure Compiler where
  tokens : List Token
  binary : List BinItem
  labels : GoMap (List Char) Int
  pc : Int
  pos : Nat

def NewCompiler : Compiler := ⟨[], [], GoMap.empty, 0, 0⟩

/-- `compileError`, and the type error of a push operand longer than 32 bytes. -/
inductive CompileErr
  | syntaxError (got want : List Char) (lineno : Nat)
  | typeError (lineno : Nat)

def CompileErr.Error : CompileErr → String
  | .syntaxError got want lineno =>
    toString lineno ++ " syntax error: unexpected " ++ String.ofList got ++ ", expected " ++
      String.ofList want
  | .typeError lineno => toString lineno ++ " type error: unsupported string or number with size > 32"

def compileErr (c : Token) (got want : List Char) : CompileErr := .syntaxError got want c.lineno

namespace Compiler

/-- One token of `Feed`'s loop. -/
def feedToken (c : Compiler) (i : Token) : Option Compiler :=
  let counted : Option Compiler := match i.typ with
    | .number => (numberBytes i.text).map fun num => { c with pc := c.pc + num.length }
    | .stringValue => some { c with pc := c.pc + ((utf8 i.text).length - 2 : Int) }
    | .element => some { c with pc := c.pc + 1 }
    | .labelDef => some { c with labels := c.labels.insert i.text c.pc, pc := c.pc + 1 }
    | .label => some { c with pc := c.pc + 5 }
    | _ => some c
  counted.map fun c => { c with tokens := c.tokens ++ [i] }

def Feed (c : Compiler) (ch : List Token) : Option Compiler := ch.foldlM feedToken c

def next (c : Compiler) : Option (Token × Compiler) :=
  c.tokens[c.pos]?.map fun t => (t, { c with pos := c.pos + 1 })

def pushBin (c : Compiler) (v : BinItem) : Compiler := { c with binary := c.binary ++ [v] }

def labelPos (c : Compiler) (name : List Char) : Int := (c.labels.get name).getD 0

def compileNumber (c : Compiler) (element : Token) : Option (Nat × Compiler) :=
  (numberBytes element.text).map fun num => (num.length, c.pushBin (.bytes num))

def compileLabel (c : Compiler) : Compiler := c.pushBin (.opCode JUMPDEST)

end Compiler

def isPush (op : List Char) : Bool := op == "push".toList

def isJump (op : List Char) : Bool := op == "jumpi".toList || op == "jump".toList

def toBinary (U : Unicode) (text : List Char) : UInt8 :=
  let text := if isPush text then "push1".toList else text
  StringToOp (text.map U.ToUpper)

def makeBytes (n : Int) : Option (List UInt8) :=
  if 0 ≤ n then some (List.replicate n.toNat 0) else none

/-- `copy(dst, src)`: the first bytes of `src` over those of `dst`. -/
def copyBytes (dst src : List UInt8) : List UInt8 := src.take dst.length ++ dst.drop src.length

namespace Compiler

def compileJump (U : Unicode) (c : Compiler) (element rvalue : Token) :
    Option (Option CompileErr × Compiler) :=
  let jumpOp := fun (c : Compiler) => c.pushBin (.opCode (toBinary U element.text))
  match rvalue.typ with
  | .number => (c.compileNumber rvalue).map fun r => (none, jumpOp r.2)
  | .stringValue =>
    (goSlice (utf8 rvalue.text) 1 ((utf8 rvalue.text).length - 2)).map fun s =>
      (none, jumpOp (c.pushBin (.string s)))
  | .label =>
    let pos := BigEndian.ofNat (c.labelPos rvalue.text).natAbs
    (makeBytes (4 - pos.length)).map fun pad =>
      (none, jumpOp ((c.pushBin (.opCode PUSH4)).pushBin (.bytes (pad ++ pos))))
  | _ => some (some (compileErr rvalue rvalue.text "number, string or label".toList), c)

def pushValue (c : Compiler) (rvalue : Token) : Option (Option (List UInt8)) :=
  match rvalue.typ with
  | .number => (numberBytes rvalue.text).map some
  | .stringValue => (goSlice (utf8 rvalue.text) 1 ((utf8 rvalue.text).length - 1)).map some
  | .label => some (some (copyBytes (List.replicate 4 0) (BigEndian.ofNat (c.labelPos rvalue.text).natAbs)))
  | _ => some none

def compilePush (c : Compiler) (rvalue : Token) : Option (Option CompileErr × Compiler) :=
  (c.pushValue rvalue).map fun
    | none => (some (compileErr rvalue rvalue.text "number, string or label".toList), c)
    | some value =>
      if value.length > 32 then (some (.typeError rvalue.lineno), c)
      else (none, (c.pushBin (.opCode (PUSH1.toNat - 1 + value.length).toUInt8)).pushBin (.bytes value))

def compileElement (U : Unicode) (c : Compiler) (element : Token) :
    Option (Option CompileErr × Compiler) :=
  if isJump element.text then
    c.next.bind fun (rvalue, c) => c.compileJump U element rvalue
  else if isPush element.text then
    c.next.bind fun (rvalue, c) => c.compilePush rvalue
  else some (none, c.pushBin (.opCode (toBinary U element.text)))

/-- The end of `compileLine`: the token after the statement must end the line. -/
def expectLineEnd (c : Compiler) : Option (Option CompileErr × Compiler) :=
  c.next.map fun (n, c) =>
    if n.typ ≠ .lineEnd then (some (compileErr n n.text TokenType.lineEnd.String.toList), c)
    else (none, c)

def compileLine (U : Unicode) (c : Compiler) : Option (Option CompileErr × Compiler) :=
  c.next.bind fun (n, c) =>
    if n.typ ≠ .lineStart then
      some (some (compileErr n n.typ.String.toList TokenType.lineStart.String.toList), c)
    else
      c.next.bind fun (lvalue, c) =>
        match lvalue.typ with
        | .eof => some (none, c)
        | .element =>
          (c.compileElement U lvalue).bind fun
            | (some e, c) => some (some e, c)
            | (none, c) => c.expectLineEnd
        | .labelDef => c.compileLabel.expectLineEnd
        | .lineEnd => some (none, c)
        | _ => some (some (compileErr lvalue lvalue.text
            (TokenType.labelDef.String ++ " or " ++ TokenType.element.String).toList), c)

/-! ## The tokens stay and the position moves on -/

theorem next_eq {c c' : Compiler} {t : Token} (h : c.next = some (t, c')) :
    c.tokens[c.pos]? = some t ∧ c' = { c with pos := c.pos + 1 } := by
  obtain ⟨t', ht', heq⟩ := Option.map_eq_some_iff.mp h
  simp only [Prod.mk.injEq] at heq
  obtain ⟨rfl, rfl⟩ := heq
  exact ⟨ht', rfl⟩

@[simp] theorem pushBin_tokens (c : Compiler) (v : BinItem) : (c.pushBin v).tokens = c.tokens := rfl
@[simp] theorem pushBin_pos (c : Compiler) (v : BinItem) : (c.pushBin v).pos = c.pos := rfl
@[simp] theorem compileLabel_tokens (c : Compiler) : c.compileLabel.tokens = c.tokens := rfl
@[simp] theorem compileLabel_pos (c : Compiler) : c.compileLabel.pos = c.pos := rfl

theorem compileJump_frame {U : Unicode} {c c' : Compiler} {element rvalue : Token}
    {err : Option CompileErr} (h : c.compileJump U element rvalue = some (err, c')) :
    c'.tokens = c.tokens ∧ c'.pos = c.pos := by
  unfold compileJump at h
  split at h
  · obtain ⟨r, hr, heq⟩ := Option.map_eq_some_iff.mp h
    obtain ⟨num, -, rfl⟩ := Option.map_eq_some_iff.mp hr
    cases heq
    simp
  · obtain ⟨str, -, heq⟩ := Option.map_eq_some_iff.mp h
    cases heq
    simp
  · obtain ⟨pad, -, heq⟩ := Option.map_eq_some_iff.mp h
    cases heq
    simp
  · cases h
    simp

theorem compilePush_frame {c c' : Compiler} {rvalue : Token} {err : Option CompileErr}
    (h : c.compilePush rvalue = some (err, c')) : c'.tokens = c.tokens ∧ c'.pos = c.pos := by
  obtain ⟨value, -, heq⟩ := Option.map_eq_some_iff.mp h
  rcases value with _ | value
  · cases heq
    simp
  · dsimp only at heq
    split_ifs at heq <;> cases heq <;> simp

theorem compileElement_frame {U : Unicode} {c c' : Compiler} {element : Token}
    {err : Option CompileErr} (h : c.compileElement U element = some (err, c')) :
    c'.tokens = c.tokens ∧ c.pos ≤ c'.pos := by
  unfold compileElement at h
  split_ifs at h
  · obtain ⟨⟨rvalue, c₁⟩, hn, hj⟩ := Option.bind_eq_some_iff.mp h
    obtain ⟨-, rfl⟩ := next_eq hn
    obtain ⟨htok, hpos⟩ := compileJump_frame hj
    exact ⟨htok, by rw [hpos]; exact Nat.le_succ _⟩
  · obtain ⟨⟨rvalue, c₁⟩, hn, hp⟩ := Option.bind_eq_some_iff.mp h
    obtain ⟨-, rfl⟩ := next_eq hn
    obtain ⟨htok, hpos⟩ := compilePush_frame hp
    exact ⟨htok, by rw [hpos]; exact Nat.le_succ _⟩
  · cases h
    simp

theorem expectLineEnd_frame {c c' : Compiler} {err : Option CompileErr}
    (h : c.expectLineEnd = some (err, c')) : c'.tokens = c.tokens ∧ c'.pos = c.pos + 1 := by
  obtain ⟨⟨n, c₁⟩, hn, heq⟩ := Option.map_eq_some_iff.mp h
  obtain ⟨-, rfl⟩ := next_eq hn
  dsimp only at heq
  split_ifs at heq <;> cases heq <;> simp

theorem compileLine_advances {U : Unicode} {c c' : Compiler} {err : Option CompileErr}
    (h : c.compileLine U = some (err, c')) : c'.tokens = c.tokens ∧ c.pos < c'.pos := by
  obtain ⟨⟨n, c₁⟩, hn, h₁⟩ := Option.bind_eq_some_iff.mp h
  obtain ⟨-, rfl⟩ := next_eq hn
  dsimp only at h₁
  split_ifs at h₁
  · cases h₁
    simp
  obtain ⟨⟨lvalue, c₂⟩, hn₂, h₂⟩ := Option.bind_eq_some_iff.mp h₁
  obtain ⟨-, rfl⟩ := next_eq hn₂
  -- every case has read `lineStart` and the statement's first token
  have hread : ∀ c₃ : Compiler, c₃.tokens = c.tokens → c.pos + 2 ≤ c₃.pos →
      c₃.tokens = c.tokens ∧ c.pos < c₃.pos := fun c₃ htok hpos => ⟨htok, by omega⟩
  split at h₂
  · cases h₂
    exact hread _ rfl (by simp)
  · obtain ⟨⟨err₁, c₃⟩, he, h₃⟩ := Option.bind_eq_some_iff.mp h₂
    obtain ⟨htok, hpos⟩ := compileElement_frame he
    rcases err₁ with _ | e
    · obtain ⟨htok', hpos'⟩ := expectLineEnd_frame h₃
      exact hread _ (htok'.trans htok) (by simp only at hpos; omega)
    · cases h₃
      exact hread _ htok (by simp only at hpos; omega)
  · obtain ⟨htok, hpos⟩ := expectLineEnd_frame h₂
    exact hread _ (by simpa using htok) (by simp only [compileLabel_pos] at hpos; omega)
  · cases h₂
    exact hread _ rfl (by simp)
  · cases h₂
    exact hread _ rfl (by simp)

/-- `Compile`'s loop over the lines, gathering their errors. -/
def compileLoop (U : Unicode) (c : Compiler) (errors : List CompileErr) :
    Option (List CompileErr × Compiler) :=
  if hpos : c.pos < c.tokens.length then
    match h : c.compileLine U with
    | none => none
    | some (err, c') => c'.compileLoop U (errors ++ err.toList)
  else some (errors, c)
termination_by c.tokens.length - c.pos
decreasing_by
  obtain ⟨htok, hlt⟩ := compileLine_advances h
  rw [htok]
  omega

theorem compileLoop_of_lt (U : Unicode) {c c' : Compiler} {err : Option CompileErr}
    (errors : List CompileErr) (hpos : c.pos < c.tokens.length) (h : c.compileLine U = some (err, c')) :
    c.compileLoop U errors = c'.compileLoop U (errors ++ err.toList) := by
  rw [compileLoop, dif_pos hpos]
  split <;> simp_all

theorem compileLoop_of_le (U : Unicode) {c : Compiler} (errors : List CompileErr)
    (hpos : c.tokens.length ≤ c.pos) : c.compileLoop U errors = some (errors, c) := by
  rw [compileLoop, dif_neg (by omega)]

end Compiler

/-- `fmt.Sprintf("%x", v)`: two lower-case hexadecimal digits a byte. -/
def hexBytes (v : List UInt8) : List Char :=
  v.flatMap fun b => [Nat.digitChar (b.toNat / 16), Nat.digitChar (b.toNat % 16)]

/-- What `Compile`'s type switch makes of an item: nothing of a Go string. -/
def BinItem.hex : BinItem → List Char
  | .opCode op => hexBytes [op]
  | .bytes v => hexBytes v
  | .string _ => []

/-- `Compile`: the hexadecimal code of the program and the errors of its lines. -/
def Compiler.Compile (U : Unicode) (c : Compiler) : Option (List Char × List CompileErr) :=
  (c.compileLoop U []).map fun r => (r.2.binary.flatMap BinItem.hex, r.1)

/-! ## Reading the code back (`asm.go`) -/

structure instructionIterator where
  code : List UInt8
  pc : Nat
  arg : Option (List UInt8)
  op : UInt8
  error : Option String
  started : Bool

def NewInstructionIterator (code : List UInt8) : instructionIterator :=
  ⟨code, 0, none, STOP, none, false⟩

namespace instructionIterator

/-- The first step of `Next`: past the argument of the last instruction, or `started` the first
time. -/
def advance (it : instructionIterator) : instructionIterator :=
  if it.started then { it with pc := it.pc + (it.arg.map List.length).getD 0 + 1 }
  else { it with started := true }

/-- The rest of `Next`: the opcode at `pc` and the argument of a `PUSHn`, an error where the code
ends inside it. -/
def read (it : instructionIterator) : Bool × instructionIterator :=
  match it.code[it.pc]? with
  | none => (false, it)
  | some op =>
    if IsPush op then
      let u := it.pc + 1 + (op.toNat - PUSH1.toNat + 1)
      if it.code.length < u then
        (false, { it with op := op, error := some ("incomplete push instruction at " ++ toString it.pc) })
      else (true, { it with op := op, arg := some ((it.code.take u).drop (it.pc + 1)) })
    else (true, { it with op := op, arg := none })

def Next (it : instructionIterator) : Bool × instructionIterator :=
  if it.error.isSome ∨ it.code.length ≤ it.pc then (false, it) else it.advance.read

@[simp] theorem advance_code (it : instructionIterator) : it.advance.code = it.code := by
  unfold advance
  split <;> rfl

@[simp] theorem advance_started (it : instructionIterator) : it.advance.started = true := by
  unfold advance
  split <;> simp_all

theorem advance_pc (it : instructionIterator) :
    it.advance.pc = if it.started then it.pc + (it.arg.map List.length).getD 0 + 1 else it.pc := by
  unfold advance
  split <;> rfl

theorem read_eq_true {it it' : instructionIterator} (h : it.read = (true, it')) :
    it'.code = it.code ∧ it'.pc = it.pc ∧ it'.started = it.started ∧ it.pc < it.code.length := by
  unfold read at h
  split at h
  · cases h
  · rename_i op hop
    have hlt := (List.getElem?_eq_some_iff.mp hop).1
    dsimp only at h
    split_ifs at h <;> cases h <;> exact ⟨rfl, rfl, rfl, hlt⟩

theorem Next_eq_true {it it' : instructionIterator} (h : it.Next = (true, it')) :
    it'.code = it.code ∧ it'.started = true ∧ it'.pc < it.code.length ∧
      (it.started = true → it.pc < it'.pc) ∧ (it.started = false → it'.pc = it.pc) := by
  unfold Next at h
  split_ifs at h
  · cases h
  obtain ⟨hcode, hpc, hstarted, hlt⟩ := read_eq_true h
  rw [advance_code] at hcode hlt
  refine ⟨hcode, by rw [hstarted, advance_started], by rw [hpc]; exact hlt, ?_, ?_⟩
  · intro hs
    rw [hpc, advance_pc, if_pos hs]
    omega
  · intro hs
    rw [hpc, advance_pc, if_neg (by simp [hs])]

def measure (it : instructionIterator) : Nat :=
  2 * (it.code.length - it.pc) + if it.started then 0 else 1

theorem Next_measure {it it' : instructionIterator} (h : it.Next = (true, it')) :
    it'.measure < it.measure := by
  obtain ⟨hcode, hstarted, hlt, hadv, hfirst⟩ := Next_eq_true h
  unfold measure
  rw [hcode, hstarted]
  cases hs : it.started
  · rw [hfirst hs]
    simp
  · have := hadv hs
    simp only [if_true]
    omega

/-- `for it.Next() { ... }` of `Disassemble`: what it reads of each instruction, its `PC`, `Op` and
`Arg`, and then `it.Error()`. -/
def drain (it : instructionIterator) : List (Nat × UInt8 × Option (List UInt8)) × Option String :=
  match h : it.Next with
  | (true, it') => ((it'.pc, it'.op, it'.arg) :: (drain it').1, (drain it').2)
  | (false, it') => ([], it'.error)
termination_by it.measure
decreasing_by all_goals exact Next_measure h

theorem drain_of_true {it it' : instructionIterator} (h : it.Next = (true, it')) :
    it.drain = ((it'.pc, it'.op, it'.arg) :: it'.drain.1, it'.drain.2) := by
  rw [drain]
  split <;> simp_all

theorem drain_of_false {it it' : instructionIterator} (h : it.Next = (false, it')) :
    it.drain = ([], it'.error) := by
  rw [drain]
  split <;> simp_all

end instructionIterator

theorem Unicode.map_toUpper (U : Unicode) {s : List Char} (h : ∀ c ∈ s, c.toNat < 128) :
    s.map U.ToUpper = s.map Char.toUpper :=
  List.map_congr_left fun c hc => U.toUpper_ascii c (h c hc)

end Zerium.Asm

namespace Zerium.Evm

open Zerium.Asm

/-- `compiler.Compile` of `cmd/evm`: `Feed` the tokens `Lex` sends, then `Compile`, and fail when
any line had an error. -/
def Compile (U : Unicode) (src : List Char) : Option (Except String (List Char)) :=
  (NewCompiler.Feed (Lex U src)).bind fun c =>
    (c.Compile U).map fun r => if r.2.length > 0 then .error "compiling failed" else .ok r.1

end Zerium.Evm

namespace Zerium.Asm

open Zerium.Vm Lexer

/-! ## A jump to a number

`Feed` counts `jump 1` as two bytes, the jump and the number, and `Compile` emits the number's
byte and the jump opcode with no `PUSH1` before them: the byte `0x01` is read back as `ADD`. -/

theorem Lex_jump_one (U : Unicode) : Lex U "jump 1\n".toList =
    [⟨.lineStart, 0, []⟩, ⟨.element, 0, "jump".toList⟩, ⟨.number, 0, "1".toList⟩,
      ⟨.lineEnd, 0, "\n".toList⟩, ⟨.lineStart, 1, []⟩, ⟨.eof, 1, []⟩] := by
  have h1 : step U .lexLine ((Lexer.mk "jump 1\n".toList 0 0 0 0 []).emit .lineStart) =
      (some .lexElement, ⟨"jump 1\n".toList, 0, 1, 1, 0, [⟨.lineStart, 0, []⟩]⟩) := by
    rw [step, lexLine_of_isLetter U (by rw [U.isLetter_ascii _ (by decide)]; decide)
      (by rw [U.isSpace_ascii _ (by decide)]; decide) (by decide) (by decide)]
    rfl
  have h2 : step U .lexElement ⟨"jump 1\n".toList, 0, 1, 1, 0, [⟨.lineStart, 0, []⟩]⟩ =
      (some .lexLine, ⟨"jump 1\n".toList, 4, 4, 1, 0,
        [⟨.lineStart, 0, []⟩, ⟨.element, 0, "jump".toList⟩]⟩) := by
    rw [step, lexElement, acceptRun_of_mem (by decide), acceptRun_of_mem (by decide),
      acceptRun_of_mem (by decide), acceptRun_of_not_mem (by decide)]
    rfl
  have h3 : step U .lexLine ⟨"jump 1\n".toList, 4, 4, 1, 0,
        [⟨.lineStart, 0, []⟩, ⟨.element, 0, "jump".toList⟩]⟩ =
      (some .lexNumber, ⟨"jump 1\n".toList, 5, 6, 1, 0,
        [⟨.lineStart, 0, []⟩, ⟨.element, 0, "jump".toList⟩]⟩) := by
    rw [step, lexLine_of_isSpace U (by rw [U.isSpace_ascii _ (by decide)]; decide) (by decide) (by decide),
      lexLine_of_isNumber U (by rw [U.isNumber_ascii _ (by decide)]; decide)
        (by rw [U.isLetter_ascii _ (by decide)]; decide) (by decide)
        (by rw [U.isSpace_ascii _ (by decide)]; decide) (by decide) (by decide)]
    rfl
  have h4 : step U .lexNumber ⟨"jump 1\n".toList, 5, 6, 1, 0,
        [⟨.lineStart, 0, []⟩, ⟨.element, 0, "jump".toList⟩]⟩ =
      (some .lexLine, ⟨"jump 1\n".toList, 6, 6, 1, 0,
        [⟨.lineStart, 0, []⟩, ⟨.element, 0, "jump".toList⟩, ⟨.number, 0, "1".toList⟩]⟩) := by
    rw [step, lexNumber, acceptRun_of_not_mem (by decide)]
    rfl
  -- the new line, then the end of the input
  have h5 : step U .lexLine ⟨"jump 1\n".toList, 6, 6, 1, 0,
        [⟨.lineStart, 0, []⟩, ⟨.element, 0, "jump".toList⟩, ⟨.number, 0, "1".toList⟩]⟩ =
      (none, ⟨"jump 1\n".toList, 7, 7, 0, 1, [⟨.lineStart, 0, []⟩, ⟨.element, 0, "jump".toList⟩,
        ⟨.number, 0, "1".toList⟩, ⟨.lineEnd, 0, "\n".toList⟩, ⟨.lineStart, 1, []⟩]⟩) := by
    rw [step, lexLine_of_newline U (by decide), lexLine_of_end U (by decide)]
    rfl
  rw [Lex, run_of_step_some U h1, run_of_step_some U h2, run_of_step_some U h3,
    run_of_step_some U h4, run_of_step_none U h5]
  rfl

theorem numberBytes_one : numberBytes ['1'] = some [1] := by
  have hp : MustParseBig256 ['1'] = some 1 := by decide
  rw [numberBytes, hp]
  simp [BigEndian.ofNat_of_lt 1 (by decide) (by decide)]

theorem toBinary_jump (U : Unicode) : toBinary U ['j', 'u', 'm', 'p'] = 0x56 := by
  rw [toBinary, if_neg (by decide), U.map_toUpper (by simp)]
  decide

theorem Compile_jump_one (U : Unicode) :
    (Compiler.mk (Lex U "jump 1\n".toList) [] GoMap.empty 2 0).Compile U =
      some (hexBytes [0x01, 0x56], []) := by
  rw [Lex_jump_one]
  -- the line `jump 1`, then the empty line the final new line opens
  have h1 : (Compiler.mk [⟨.lineStart, 0, []⟩, ⟨.element, 0, "jump".toList⟩, ⟨.number, 0, "1".toList⟩,
      ⟨.lineEnd, 0, "\n".toList⟩, ⟨.lineStart, 1, []⟩, ⟨.eof, 1, []⟩] [] GoMap.empty 2 0).compileLine U =
      some (none, ⟨[⟨.lineStart, 0, []⟩, ⟨.element, 0, "jump".toList⟩, ⟨.number, 0, "1".toList⟩,
        ⟨.lineEnd, 0, "\n".toList⟩, ⟨.lineStart, 1, []⟩, ⟨.eof, 1, []⟩],
        [.bytes [1], .opCode 0x56], GoMap.empty, 2, 4⟩) := by
    simp +decide [Compiler.compileLine, Compiler.next, Compiler.compileElement, Compiler.compileJump,
      Compiler.compileNumber, numberBytes_one, toBinary_jump, Compiler.expectLineEnd, Compiler.pushBin]
  have h2 : (Compiler.mk [⟨.lineStart, 0, []⟩, ⟨.element, 0, "jump".toList⟩, ⟨.number, 0, "1".toList⟩,
      ⟨.lineEnd, 0, "\n".toList⟩, ⟨.lineStart, 1, []⟩, ⟨.eof, 1, []⟩]
        [.bytes [1], .opCode 0x56] GoMap.empty 2 4).compileLine U =
      some (none, ⟨[⟨.lineStart, 0, []⟩, ⟨.element, 0, "jump".toList⟩, ⟨.number, 0, "1".toList⟩,
        ⟨.lineEnd, 0, "\n".toList⟩, ⟨.lineStart, 1, []⟩, ⟨.eof, 1, []⟩],
        [.bytes [1], .opCode 0x56], GoMap.empty, 2, 6⟩) := by
    simp +decide [Compiler.compileLine, Compiler.next]
  rw [Compiler.Compile, Compiler.compileLoop_of_lt U [] (by decide) h1,
    Compiler.compileLoop_of_lt U _ (by decide) h2, Compiler.compileLoop_of_le U _ (by decide)]
  rfl

theorem Feed_jump_one (U : Unicode) :
    NewCompiler.Feed (Lex U "jump 1\n".toList) =
      some ⟨Lex U "jump 1\n".toList, [], GoMap.empty, 2, 0⟩ := by
  rw [Lex_jump_one]
  simp [Compiler.Feed, Compiler.feedToken, numberBytes_one, NewCompiler]

theorem jump_to_number_emits_no_push (U : Unicode) :
    Evm.Compile U "jump 1\n".toList = some (.ok (hexBytes [0x01, 0x56])) ∧
      (NewInstructionIterator [0x01, 0x56]).drain =
        ([(0, StringToOp "ADD".toList, none), (1, StringToOp "JUMP".toList, none)], none) ∧
      (NewInstructionIterator [0x01, 0x56]).drain.1 ≠
        [(0, PUSH1, some [0x01]), (2, StringToOp "JUMP".toList, none)] := by
  have hdrain : (NewInstructionIterator [0x01, 0x56]).drain =
      ([(0, StringToOp "ADD".toList, none), (1, StringToOp "JUMP".toList, none)], none) := by
    rw [instructionIterator.drain_of_true (by rfl), instructionIterator.drain_of_true (by rfl),
      instructionIterator.drain_of_false (by rfl)]
    decide
  refine ⟨?_, hdrain, by rw [hdrain]; decide⟩
  rw [Evm.Compile, Feed_jump_one, Option.bind_some, Compile_jump_one]
  rfl

end Zerium.Asm
