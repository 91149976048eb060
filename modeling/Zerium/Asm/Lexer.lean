import Mathlib

/-! # The lexer of the EVM assembler (`core/asm/lexer.go`)

The lexer runs its state functions over the source, from `lexLine` on, and sends a token for
each element, label definition, label use, number and quoted string, with a `lineStart` and a
`lineEnd` around each line and an `eof` at the end; a rune that begins no token ends the run.

The source is its runes, and a position counts runes: `utf8.DecodeRuneInString` has one rune of
width one here, and at the end of the input `next` gives rune 0 with width 0. No set of runes that
`accept` and `acceptRun` are given holds rune 0, so `acceptRun` stops there as Go's loop does.
`unicode.IsLetter`, `IsSpace`, `IsNumber` and `strings.ToUpper` are tables of Go's library:
they are a parameter `Unicode`, which agrees with ASCII on ASCII.
-/

namespace Zerium.Asm

set_option autoImplicit false

/-- The Unicode classes the lexer tests and the upper case `strings.ToUpper` gives a rune. -/
structure Unicode where
  IsLetter : Char → Bool
  IsSpace : Char → Bool
  IsNumber : Char → Bool
  ToUpper : Char → Char
  isLetter_ascii : ∀ c : Char, c.toNat < 128 → IsLetter c = c.isAlpha
  isSpace_ascii : ∀ c : Char, c.toNat < 128 →
    IsSpace c = (c == ' ' || c == '\t' || c == '\n' || c == '\x0b' || c == '\x0c' || c == '\r')
  isNumber_ascii : ∀ c : Char, c.toNat < 128 → IsNumber c = c.isDigit
  toUpper_ascii : ∀ c : Char, c.toNat < 128 → ToUpper c = c.toUpper

namespace Unicode

variable (U : Unicode)

theorem isSpace_zero : U.IsSpace '\x00' = false := by
  rw [U.isSpace_ascii _ (by decide)]
  decide

theorem isLetter_zero : U.IsLetter '\x00' = false := by
  rw [U.isLetter_ascii _ (by decide)]
  decide

theorem isNumber_zero : U.IsNumber '\x00' = false := by
  rw [U.isNumber_ascii _ (by decide)]
  decide

end Unicode

inductive TokenType
  | eof
  | lineStart
  | lineEnd
  | invalidStatement
  | element
  | label
  | labelDef
  | number
  | stringValue
deriving DecidableEq, Repr

/-- `tokenType.String`, from `stringtokenTypes`. -/
def TokenType.String : TokenType → String
  | .eof => "EOF"
  | .invalidStatement => "invalid statement"
  | .element => "element"
  | .lineEnd => "end of line"
  | .lineStart => "new line"
  | .label => "label"
  | .labelDef => "label definition"
  | .number => "number"
  | .stringValue => "string"

structure Token where
  typ : TokenType
  lineno : Nat
  text : List Char
deriving DecidableEq, Repr

def Numbers : List Char := "1234567890".toList
def HexadecimalNumbers : List Char := Numbers ++ "aAbBcCdDeEfF".toList
def Alpha : List Char := "abcdefghijklmnopqrstuwvxyzABCDEFGHIJKLMNOPQRSTUWVXYZ".toList

/-- The lexer; `tokens` are those it has sent, in order. -/
structure Lexer where
  input : List Char
  start : Nat
  pos : Nat
  width : Nat
  lineno : Nat
  tokens : List Token

namespace Lexer

def next (l : Lexer) : Char × Lexer :=
  match l.input[l.pos]? with
  | none => ('\x00', { l with width := 0 })
  | some r => (r, { l with pos := l.pos + 1, width := 1 })

def backup (l : Lexer) : Lexer := { l with pos := l.pos - l.width }

def peek (l : Lexer) : Char × Lexer := ((l.next).1, (l.next).2.backup)

def ignore (l : Lexer) : Lexer := { l with start := l.pos }

def accept (valid : List Char) (l : Lexer) : Bool × Lexer :=
  if (l.next).1 ∈ valid then (true, (l.next).2) else (false, (l.next).2.backup)

theorem next_pos (l : Lexer) :
    ((l.next).2.pos = l.pos + 1 ∧ l.pos < l.input.length ∧ l.input[l.pos]? = some (l.next).1) ∨
      ((l.next).2.pos = l.pos ∧ (l.next).1 = '\x00') := by
  unfold next
  split
  · exact .inr ⟨rfl, rfl⟩
  · rename_i r hr
    exact .inl ⟨rfl, (List.getElem?_eq_some_iff.mp hr).1, hr⟩

@[simp] theorem next_input (l : Lexer) : (l.next).2.input = l.input := by
  unfold next
  split <;> rfl

theorem next_advance {l : Lexer} (h : (l.next).1 ≠ '\x00') :
    (l.next).2.pos = l.pos + 1 ∧ l.pos < l.input.length := by
  rcases next_pos l with ⟨hpos, hlt, -⟩ | ⟨-, hzero⟩
  · exact ⟨hpos, hlt⟩
  · exact absurd hzero h

theorem next_measure {l : Lexer} (h : (l.next).1 ≠ '\x00') :
    (l.next).2.input.length - (l.next).2.pos < l.input.length - l.pos := by
  have := next_advance h
  rw [next_input]
  omega

/-- `acceptRun(valid)`: the runes of `valid` from here on; the loop ends at rune 0, which none
of the sets the lexer gives holds. -/
def acceptRun (valid : List Char) (l : Lexer) : Lexer :=
  if h : (l.next).1 ∈ valid ∧ (l.next).1 ≠ '\x00' then acceptRun valid (l.next).2
  else (l.next).2.backup
termination_by l.input.length - l.pos
decreasing_by exact next_measure h.2

theorem acceptRun_of_mem {valid : List Char} {l : Lexer}
    (h : (l.next).1 ∈ valid ∧ (l.next).1 ≠ '\x00') : l.acceptRun valid = (l.next).2.acceptRun valid := by
  rw [acceptRun, dif_pos h]

theorem acceptRun_of_not_mem {valid : List Char} {l : Lexer} (h : (l.next).1 ∉ valid) :
    l.acceptRun valid = (l.next).2.backup := by
  rw [acceptRun, dif_neg (fun h' => h h'.1)]

/-- `acceptRunUntil(until)`: up to and with the rune `until`; false at rune 0. -/
def acceptRunUntil (untilRune : Char) (l : Lexer) : Bool × Lexer :=
  if (l.next).1 = untilRune then (true, (l.next).2)
  else if h : (l.next).1 = '\x00' then (false, (l.next).2)
  else acceptRunUntil untilRune (l.next).2
termination_by l.input.length - l.pos
decreasing_by exact next_measure h

/-- `blob`: the text from `start` to `pos`. -/
def blob (l : Lexer) : List Char := (l.input.drop l.start).take (l.pos - l.start)

def emit (t : TokenType) (l : Lexer) : Lexer :=
  { l with tokens := l.tokens ++ [⟨t, l.lineno, l.blob⟩], start := l.pos }

@[simp] theorem backup_input (l : Lexer) : l.backup.input = l.input := rfl
@[simp] theorem ignore_input (l : Lexer) : l.ignore.input = l.input := rfl
@[simp] theorem emit_input (t : TokenType) (l : Lexer) : (l.emit t).input = l.input := rfl
@[simp] theorem ignore_pos (l : Lexer) : l.ignore.pos = l.pos := rfl
@[simp] theorem emit_pos (t : TokenType) (l : Lexer) : (l.emit t).pos = l.pos := rfl

theorem backup_next_pos (l : Lexer) : (l.next).2.backup.pos = l.pos := by
  unfold next
  split <;> rfl

@[simp] theorem peek_input (l : Lexer) : (l.peek).2.input = l.input := by
  simp [peek]

@[simp] theorem peek_pos (l : Lexer) : (l.peek).2.pos = l.pos := backup_next_pos l

@[simp] theorem accept_input (valid : List Char) (l : Lexer) : (l.accept valid).2.input = l.input := by
  unfold accept
  split_ifs <;> simp

theorem next_pos_ge (l : Lexer) : l.pos ≤ (l.next).2.pos := by
  rcases next_pos l with ⟨h, -⟩ | ⟨h, -⟩ <;> omega

theorem accept_pos (valid : List Char) (l : Lexer) : l.pos ≤ (l.accept valid).2.pos := by
  unfold accept
  split_ifs
  · exact next_pos_ge l
  · rw [backup_next_pos]

@[simp] theorem acceptRun_input (valid : List Char) (l : Lexer) : (l.acceptRun valid).input = l.input := by
  fun_induction acceptRun valid l with
  | case1 l _ ih => rw [ih, next_input]
  | case2 l _ => simp

theorem acceptRun_pos (valid : List Char) (l : Lexer) : l.pos ≤ (l.acceptRun valid).pos := by
  fun_induction acceptRun valid l with
  | case1 l h ih => exact Nat.le_trans (next_pos_ge l) ih
  | case2 l _ => exact Nat.le_of_eq (backup_next_pos l).symm

@[simp] theorem acceptRunUntil_input (untilRune : Char) (l : Lexer) :
    (l.acceptRunUntil untilRune).2.input = l.input := by
  fun_induction acceptRunUntil untilRune l with
  | case1 l _ => simp
  | case2 l _ _ => simp
  | case3 l _ _ ih => rw [ih, next_input]

theorem acceptRunUntil_pos (untilRune : Char) (l : Lexer) :
    l.pos ≤ (l.acceptRunUntil untilRune).2.pos := by
  fun_induction acceptRunUntil untilRune l with
  | case1 l _ | case2 l _ _ => exact next_pos_ge l
  | case3 l _ _ ih => exact Nat.le_trans (next_pos_ge l) ih

/-- The lexer as `r == ';' && l.peek() == ';'` leaves it: it peeks only after a `;`. -/
def peekAfter (r : Char) (l : Lexer) : Lexer := if r = ';' then (l.peek).2 else l

@[simp] theorem peekAfter_input (r : Char) (l : Lexer) : (l.peekAfter r).input = l.input := by
  unfold peekAfter
  split <;> simp

@[simp] theorem peekAfter_pos (r : Char) (l : Lexer) : (l.peekAfter r).pos = l.pos := by
  unfold peekAfter
  split <;> simp

theorem peekAfter_of_ne {r : Char} (h : r ≠ ';') (l : Lexer) : l.peekAfter r = l := if_neg h

end Lexer

/-- The state functions of the lexer. -/
inductive StateFn
  | lexLine
  | lexComment
  | lexLabel
  | lexInsideString
  | lexNumber
  | lexElement
deriving DecidableEq, Repr

open Lexer

/-- `lexLine`: its loop over new lines and spaces, then the state of the token that begins, or
`nil` at a rune that begins none. The cases after the test for `;;` see the lexer as that test
left it. -/
def lexLine (U : Unicode) (l : Lexer) : Option StateFn × Lexer :=
  let r := (l.next).1
  let l₁ := (l.next).2
  let l₂ := l₁.peekAfter r
  if h : r = '\n' then
    lexLine U ({ (l₁.emit .lineEnd).ignore with lineno := l₁.lineno + 1 }.emit .lineStart)
  else if r = ';' ∧ (l₁.peek).1 = ';' then (some .lexComment, l₂)
  else if hs : U.IsSpace r then lexLine U l₂.ignore
  else if U.IsLetter r ∨ r = '_' then (some .lexElement, l₂)
  else if U.IsNumber r then (some .lexNumber, l₂)
  else if r = '@' then (some .lexLabel, l₂.ignore)
  else if r = '"' then (some .lexInsideString, l₂)
  else (none, l₂)
termination_by l.input.length - l.pos
decreasing_by
  · simp only [emit_input, ignore_input, emit_pos, ignore_pos]
    exact next_measure (by rw [show (l.next).1 = '\n' from h]; decide)
  · have hne : (l.next).1 ≠ '\x00' := by
      intro hzero
      have hsp : U.IsSpace (l.next).1 = true := hs
      rw [hzero, U.isSpace_zero] at hsp
      exact absurd hsp (by decide)
    simp only [ignore_input, ignore_pos, peekAfter_input, peekAfter_pos]
    exact next_measure hne

/-! The cases of `lexLine`, one lemma each for those a run goes through. -/

theorem lexLine_of_newline (U : Unicode) {l : Lexer} (h : (l.next).1 = '\n') :
    lexLine U l = lexLine U
      ({ ((l.next).2.emit .lineEnd).ignore with lineno := (l.next).2.lineno + 1 }.emit .lineStart) := by
  rw [lexLine, dif_pos h]

theorem lexLine_of_isSpace (U : Unicode) {l : Lexer} (hs : U.IsSpace (l.next).1 = true)
    (hnl : (l.next).1 ≠ '\n') (hsemi : (l.next).1 ≠ ';') :
    lexLine U l = lexLine U (l.next).2.ignore := by
  rw [lexLine, dif_neg hnl, if_neg (fun h => hsemi h.1), dif_pos hs, peekAfter_of_ne hsemi]

theorem lexLine_of_isLetter (U : Unicode) {l : Lexer}
    (hl : U.IsLetter (l.next).1 = true ∨ (l.next).1 = '_') (hs : U.IsSpace (l.next).1 = false)
    (hnl : (l.next).1 ≠ '\n') (hsemi : (l.next).1 ≠ ';') :
    lexLine U l = (some .lexElement, (l.next).2) := by
  rw [lexLine, dif_neg hnl, if_neg (fun h => hsemi h.1), dif_neg (by simp [hs]), if_pos hl,
    peekAfter_of_ne hsemi]

theorem lexLine_of_isNumber (U : Unicode) {l : Lexer} (hn : U.IsNumber (l.next).1 = true)
    (hl : U.IsLetter (l.next).1 = false) (hu : (l.next).1 ≠ '_') (hs : U.IsSpace (l.next).1 = false)
    (hnl : (l.next).1 ≠ '\n') (hsemi : (l.next).1 ≠ ';') :
    lexLine U l = (some .lexNumber, (l.next).2) := by
  rw [lexLine, dif_neg hnl, if_neg (fun h => hsemi h.1), dif_neg (by simp [hs]),
    if_neg (by simp [hl, hu]), if_pos hn, peekAfter_of_ne hsemi]

theorem lexLine_of_end (U : Unicode) {l : Lexer} (h : (l.next).1 = '\x00') :
    lexLine U l = (none, (l.next).2) := by
  rw [lexLine, dif_neg (by rw [h]; decide), if_neg (by rw [h]; exact fun h' => absurd h'.1 (by decide)),
    dif_neg (by rw [h, U.isSpace_zero]; decide), if_neg (by rw [h, U.isLetter_zero]; decide),
    if_neg (by rw [h, U.isNumber_zero]; decide), if_neg (by rw [h]; decide), if_neg (by rw [h]; decide),
    peekAfter_of_ne (by rw [h]; decide)]

def lexComment (l : Lexer) : Option StateFn × Lexer :=
  (some .lexLine, (l.acceptRunUntil '\n').2.ignore)

def lexLabel (l : Lexer) : Option StateFn × Lexer :=
  (some .lexLine, (l.acceptRun (Alpha ++ ['_'])).emit .label)

def lexInsideString (l : Lexer) : Option StateFn × Lexer :=
  let run := l.acceptRunUntil '"'
  (some .lexLine, if run.1 then run.2.emit .stringValue else run.2)

/-- `lexNumber`: after a first digit, `0` or `x`/`X` turns to hexadecimal digits; the `||`
tries the second `accept` only when the first fails. -/
def lexNumber (l : Lexer) : Option StateFn × Lexer :=
  let zero := l.accept ['0']
  let hex := if zero.1 then zero else zero.2.accept ['x', 'X']
  let acceptance := if hex.1 then HexadecimalNumbers else Numbers
  (some .lexLine, (hex.2.acceptRun acceptance).emit .number)

/-- `lexElement`: an element, or a label definition when a `:` follows, which is then skipped. -/
def lexElement (l : Lexer) : Option StateFn × Lexer :=
  let l₁ := l.acceptRun (Alpha ++ ['_'] ++ Numbers)
  let peeked := l₁.peek
  if peeked.1 = ':' then (some .lexLine, ((peeked.2.emit .labelDef).accept [':']).2.ignore)
  else (some .lexLine, peeked.2.emit .element)

theorem peekAfter_next_measure {l : Lexer} (hne : (l.next).1 ≠ '\x00') (r : Char) :
    ((l.next).2.peekAfter r).input = l.input ∧
      ((l.next).2.peekAfter r).input.length - ((l.next).2.peekAfter r).pos <
        l.input.length - l.pos := by
  rw [peekAfter_input, peekAfter_pos]
  exact ⟨next_input l, next_measure hne⟩

theorem lexLine_measure (U : Unicode) (l : Lexer) {s : StateFn} {l' : Lexer}
    (h : lexLine U l = (some s, l')) :
    s ≠ .lexLine ∧ l'.input = l.input ∧ l'.input.length - l'.pos < l.input.length - l.pos := by
  fun_induction lexLine U l with
  | case1 l r l₁ hnl ih =>
    obtain ⟨hs, hin, hlt⟩ := ih h
    have hstep := next_measure (l := l) (by rw [show (l.next).1 = '\n' from hnl]; decide)
    simp only [l₁, emit_input, ignore_input, emit_pos, ignore_pos, next_input] at hin hlt hstep
    refine ⟨hs, hin, ?_⟩
    rw [hin] at hlt ⊢
    omega
  | case2 l r l₁ l₂ _ hc =>
    simp only [Prod.mk.injEq, Option.some.injEq] at h
    obtain ⟨rfl, rfl⟩ := h
    exact ⟨by decide, peekAfter_next_measure (by rw [show (l.next).1 = ';' from hc.1]; decide) _⟩
  | case3 l r l₁ l₂ _ _ hs ih =>
    obtain ⟨hs', hin, hlt⟩ := ih h
    have hne : (l.next).1 ≠ '\x00' := fun hzero => by
      have hsp : U.IsSpace (l.next).1 = true := hs
      rw [hzero, U.isSpace_zero] at hsp
      exact absurd hsp (by decide)
    obtain ⟨hin₂, hlt₂⟩ := peekAfter_next_measure hne r
    rw [hin₂] at hlt₂
    simp only [l₂, l₁, ignore_input, ignore_pos] at hin hlt
    have hin' := hin.trans hin₂
    refine ⟨hs', hin', ?_⟩
    rw [hin', hin₂] at hlt
    rw [hin']
    omega
  | case4 l r l₁ l₂ _ _ _ hc =>
    simp only [Prod.mk.injEq, Option.some.injEq] at h
    obtain ⟨rfl, rfl⟩ := h
    refine ⟨by decide, peekAfter_next_measure (fun hzero => ?_) _⟩
    have hc' : U.IsLetter (l.next).1 = true ∨ (l.next).1 = '_' := hc
    rw [hzero, U.isLetter_zero] at hc'
    simp at hc'
  | case5 l r l₁ l₂ _ _ _ _ hc =>
    simp only [Prod.mk.injEq, Option.some.injEq] at h
    obtain ⟨rfl, rfl⟩ := h
    refine ⟨by decide, peekAfter_next_measure (fun hzero => ?_) _⟩
    have hc' : U.IsNumber (l.next).1 = true := hc
    rw [hzero, U.isNumber_zero] at hc'
    exact absurd hc' (by decide)
  | case6 l r l₁ l₂ _ _ _ _ _ hc =>
    simp only [Prod.mk.injEq, Option.some.injEq] at h
    obtain ⟨rfl, rfl⟩ := h
    exact ⟨by decide, peekAfter_next_measure (by rw [show (l.next).1 = '@' from hc]; decide) _⟩
  | case7 l r l₁ l₂ _ _ _ _ _ _ hc =>
    simp only [Prod.mk.injEq, Option.some.injEq] at h
    obtain ⟨rfl, rfl⟩ := h
    exact ⟨by decide, peekAfter_next_measure (by rw [show (l.next).1 = '"' from hc]; decide) _⟩
  | case8 => simp at h

/-- `l.state(l)`. -/
def step (U : Unicode) : StateFn → Lexer → Option StateFn × Lexer
  | .lexLine => lexLine U
  | .lexComment => lexComment
  | .lexLabel => lexLabel
  | .lexInsideString => lexInsideString
  | .lexNumber => lexNumber
  | .lexElement => lexElement

theorem step_of_ne_lexLine (U : Unicode) {s s' : StateFn} {l l' : Lexer} (hs : s ≠ .lexLine)
    (h : step U s l = (some s', l')) : s' = .lexLine ∧ l'.input = l.input ∧ l.pos ≤ l'.pos := by
  cases s with
  | lexLine => exact absurd rfl hs
  | lexComment =>
    simp only [step, lexComment, Prod.mk.injEq, Option.some.injEq] at h
    obtain ⟨rfl, rfl⟩ := h
    exact ⟨rfl, by simp, acceptRunUntil_pos _ _⟩
  | lexLabel =>
    simp only [step, lexLabel, Prod.mk.injEq, Option.some.injEq] at h
    obtain ⟨rfl, rfl⟩ := h
    exact ⟨rfl, by simp, acceptRun_pos _ _⟩
  | lexInsideString =>
    simp only [step, lexInsideString, Prod.mk.injEq, Option.some.injEq] at h
    obtain ⟨rfl, rfl⟩ := h
    refine ⟨rfl, ?_, ?_⟩ <;> split <;> simp [acceptRunUntil_pos]
  | lexNumber =>
    simp only [step, lexNumber, Prod.mk.injEq, Option.some.injEq] at h
    obtain ⟨rfl, rfl⟩ := h
    -- the `0` and the `x` are each accepted or not
    refine ⟨rfl, ?_, ?_⟩
    · split <;> simp
    · rw [emit_pos]
      refine Nat.le_trans ?_ (acceptRun_pos _ _)
      split
      · exact accept_pos _ l
      · exact Nat.le_trans (accept_pos _ l) (accept_pos _ _)
  | lexElement =>
    simp only [step, lexElement] at h
    split at h
    · simp only [Prod.mk.injEq, Option.some.injEq] at h
      obtain ⟨rfl, rfl⟩ := h
      refine ⟨rfl, by simp, ?_⟩
      have hcolon := accept_pos [':'] (((l.acceptRun (Alpha ++ ['_'] ++ Numbers)).peek).2.emit .labelDef)
      simp only [ignore_pos, emit_pos, peek_pos] at hcolon ⊢
      exact Nat.le_trans (acceptRun_pos _ l) hcolon
    · simp only [Prod.mk.injEq, Option.some.injEq] at h
      obtain ⟨rfl, rfl⟩ := h
      refine ⟨rfl, by simp, ?_⟩
      simpa using acceptRun_pos _ l

def StateFn.rank : StateFn → Nat
  | .lexLine => 0
  | _ => 1

theorem step_measure (U : Unicode) {s s' : StateFn} {l l' : Lexer} (h : step U s l = (some s', l')) :
    2 * (l'.input.length - l'.pos) + s'.rank < 2 * (l.input.length - l.pos) + s.rank := by
  by_cases hs : s = .lexLine
  · subst hs
    obtain ⟨hs', hin, hlt⟩ := lexLine_measure U l h
    have hrank : s'.rank = 1 := by cases s' <;> simp_all [StateFn.rank]
    rw [hrank, StateFn.rank]
    omega
  · obtain ⟨rfl, hin, hle⟩ := step_of_ne_lexLine U hs h
    have hrank : s.rank = 1 := by cases s <;> simp_all [StateFn.rank]
    rw [hrank, StateFn.rank, hin]
    omega

/-- `for l.state != nil { l.state = l.state(l) }`. -/
def run (U : Unicode) (s : StateFn) (l : Lexer) : Lexer :=
  match h : step U s l with
  | (none, l') => l'
  | (some s', l') => run U s' l'
termination_by 2 * (l.input.length - l.pos) + s.rank
decreasing_by exact step_measure U h

theorem run_of_step_some (U : Unicode) {s s' : StateFn} {l l' : Lexer}
    (h : step U s l = (some s', l')) : run U s l = run U s' l' := by
  rw [run]
  split <;> simp_all

theorem run_of_step_none (U : Unicode) {s : StateFn} {l l' : Lexer} (h : step U s l = (none, l')) :
    run U s l = l' := by
  rw [run]
  split <;> simp_all

/-- `Lex`: the tokens the lexer sends for `source`, from `lineStart` to `eof`. -/
def Lex (U : Unicode) (source : List Char) : List Token :=
  ((run U .lexLine ((Lexer.mk source 0 0 0 0 []).emit .lineStart)).emit .eof).tokens

end Zerium.Asm
