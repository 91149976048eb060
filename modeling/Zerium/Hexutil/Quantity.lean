import Zerium.Lib.Sim

/-! # Hex quantities (`common/hexutil/hexutil.go`, `json.go`)

A quantity is `0x` or `0X` and its hex digits, without leading zeros unless it is `0x0`.
`DecodeBig` and `Big.UnmarshalText` read the digits right to left into machine words of
`bigWordNibbles` digits, which `init` takes from the width of a `big.Word`; `DecodeUint64` hands
them to `strconv.ParseUint`, and `Uint64.UnmarshalText` folds them into a `uint64`. Strings are
their bytes.

`strconv.ParseUint(s, 16, 64)` and `fmt`'s `%x` are modelled after the Go library: the first as
its loop with the cutoff test and the overflow test, the second as the base-16 digits of the
number, most significant first, in lower case. `bytesHave0xPrefix` of `json.go` is the same test
as `has0xPrefix`.
-/

namespace Zerium.Hexutil

set_option autoImplicit false

def ErrEmptyString : String := "empty hex string"
def ErrSyntax : String := "invalid hex string"
def ErrMissingPrefix : String := "hex string without 0x prefix"
def ErrEmptyNumber : String := "hex string \"0x\""
def ErrLeadingZero : String := "hex number with leading zero digits"
def ErrUint64Range : String := "hex number > 64 bits"
def ErrBig256Range : String := "hex number > 256 bits"

def has0xPrefix : List UInt8 → Bool
  | a :: b :: _ => a == '0'.toUInt8 && (b == 'x'.toUInt8 || b == 'X'.toUInt8)
  | _ => false

/-- The checks of `checkNumber` and `checkNumberText`, which differ only in what an empty input
gives. -/
def checkNumberWith (empty : Except String (List UInt8)) (input : List UInt8) : Except String (List UInt8) :=
  if input.length = 0 then empty
  else if !has0xPrefix input then .error ErrMissingPrefix
  else
    let input := input.drop 2
    if input.length = 0 then .error ErrEmptyNumber
    else if input.length > 1 ∧ input.head? = some '0'.toUInt8 then .error ErrLeadingZero
    else .ok input

def checkNumber (input : List UInt8) : Except String (List UInt8) :=
  checkNumberWith (.error ErrEmptyString) input

/-- `checkNumberText`: the empty string is allowed, and gives no digits. -/
def checkNumberText (input : List UInt8) : Except String (List UInt8) :=
  checkNumberWith (.ok []) input

def badNibble : UInt64 := ~~~0

def decodeNibble (c : UInt8) : UInt64 :=
  if c ≥ '0'.toUInt8 ∧ c ≤ '9'.toUInt8 then (c - '0'.toUInt8).toUInt64
  else if c ≥ 'A'.toUInt8 ∧ c ≤ 'F'.toUInt8 then (c - 'A'.toUInt8 + 10).toUInt64
  else if c ≥ 'a'.toUInt8 ∧ c ≤ 'f'.toUInt8 then (c - 'a'.toUInt8 + 10).toUInt64
  else badNibble

/-! ## Big integers -/

/-- The width of a `big.Word`. -/
inductive WordSize
  | w32
  | w64
deriving DecidableEq, Repr

/-- `bigWordNibbles`, as `init` sets it. -/
def WordSize.bigWordNibbles : WordSize → Nat
  | .w32 => 8
  | .w64 => 16

def WordSize.bits (w : WordSize) : Nat := 4 * w.bigWordNibbles

/-- The inner loop of `DecodeBig` over `raw[start:end]`, into one `big.Word`. -/
def decodeWord (w : WordSize) : List UInt8 → Nat → Except String Nat
  | [], word => .ok word
  | c :: cs, word =>
    if decodeNibble c = badNibble then .error ErrSyntax
    else decodeWord w cs ((word * 16 + (decodeNibble c).toNat) % 2 ^ w.bits)

/-- The outer loop of `DecodeBig`: `count` words, right to left, from the one whose digits end at
`end`. -/
def decodeWords (w : WordSize) (raw : List UInt8) : Nat → Nat → Except String (List Nat)
  | 0, _ => .ok []
  | count + 1, end_ =>
    let start := end_ - w.bigWordNibbles
    decodeWord w ((raw.take end_).drop start) 0 >>= fun word =>
      (decodeWords w raw count start).map (word :: ·)

/-- `(*big.Int).SetBits`: the words, least significant first. -/
def setBits (w : WordSize) (words : List Nat) : Nat := words.foldr (fun word acc => word + 2 ^ w.bits * acc) 0

/-- What `DecodeBig` and `Big.UnmarshalText` do with the digits their checks leave. -/
def decodeBigDigits (w : WordSize) (raw : List UInt8) : Except String Nat :=
  if raw.length > 64 then .error ErrBig256Range
  else (decodeWords w raw (raw.length / w.bigWordNibbles + 1) raw.length).map (setBits w)

def DecodeBig (w : WordSize) (input : List UInt8) : Except String Nat :=
  checkNumber input >>= decodeBigDigits w

/-- `(*Big).UnmarshalText`: the number it stores. -/
def Big.UnmarshalText (w : WordSize) (input : List UInt8) : Except String Nat :=
  checkNumberText input >>= decodeBigDigits w

def lowerHexDigit (d : Nat) : UInt8 :=
  if d < 10 then '0'.toUInt8 + d.toUInt8 else 'a'.toUInt8 + (d - 10).toUInt8

def hexDigits (x : Nat) : List UInt8 := ((Nat.digits 16 x).map lowerHexDigit).reverse

/-- `EncodeBig`; `bigint.BitLen()` is `Nat.size`. -/
def EncodeBig (x : Nat) : List UInt8 :=
  if x.size = 0 then ['0'.toUInt8, 'x'.toUInt8, '0'.toUInt8]
  else ['0'.toUInt8, 'x'.toUInt8] ++ hexDigits x

/-- `Big.MarshalText`. -/
def Big.MarshalText (b : Nat) : List UInt8 := EncodeBig b

/-! ## Unsigned 64-bit integers -/

def appendUint (buf : List UInt8) (i : UInt64) : List UInt8 :=
  buf ++ if i = 0 then ['0'.toUInt8] else hexDigits i.toNat

def EncodeUint64 (i : UInt64) : List UInt8 := appendUint ['0'.toUInt8, 'x'.toUInt8] i

/-- `Uint64.MarshalText`. -/
def Uint64.MarshalText (b : UInt64) : List UInt8 := appendUint ['0'.toUInt8, 'x'.toUInt8] b

/-- The two errors of `strconv.ParseUint` that `mapError` tells apart. -/
inductive NumError
  | ErrRange
  | ErrSyntax
deriving DecidableEq, Repr

def parseDigit (c : UInt8) : Option UInt8 :=
  if '0'.toUInt8 ≤ c ∧ c ≤ '9'.toUInt8 then some (c - '0'.toUInt8)
  else if 'a'.toUInt8 ≤ (c ||| 0x20) ∧ (c ||| 0x20) ≤ 'z'.toUInt8 then some ((c ||| 0x20) - 'a'.toUInt8 + 10)
  else none

def cutoff : UInt64 := ~~~0 / 16 + 1

def maxVal : UInt64 := ~~~0

def parseUintLoop : List UInt8 → UInt64 → Except NumError UInt64
  | [], n => .ok n
  | c :: cs, n =>
    match parseDigit c with
    | none => .error .ErrSyntax
    | some d =>
      if d ≥ 16 then .error .ErrSyntax
      else if n ≥ cutoff then .error .ErrRange
      else
        let n1 := n * 16 + d.toUInt64
        if n1 < n * 16 ∨ n1 > maxVal then .error .ErrRange
        else parseUintLoop cs n1

def ParseUint (s : List UInt8) : Except NumError UInt64 :=
  if s.length = 0 then .error .ErrSyntax else parseUintLoop s 0

def mapError : NumError → String
  | .ErrRange => ErrUint64Range
  | .ErrSyntax => ErrSyntax

def DecodeUint64 (input : List UInt8) : Except String UInt64 :=
  checkNumber input >>= fun raw => (ParseUint raw).mapError mapError

/-- The loop of `Uint64.UnmarshalText`. -/
def uint64Loop : List UInt8 → UInt64 → Except String UInt64
  | [], dec => .ok dec
  | c :: cs, dec =>
    if decodeNibble c = badNibble then .error ErrSyntax
    else uint64Loop cs (dec * 16 + decodeNibble c)

/-- `(*Uint64).UnmarshalText`: the number it stores. -/
def Uint64.UnmarshalText (input : List UInt8) : Except String UInt64 :=
  checkNumberText input >>= fun raw =>
    if raw.length > 16 then .error ErrUint64Range else uint64Loop raw 0

/-! ## What a quantity is -/

def hexChar (upper : Bool) (d : Fin 16) : UInt8 :=
  if d.val < 10 then '0'.toUInt8 + d.val.toUInt8
  else (if upper then 'A'.toUInt8 else 'a'.toUInt8) + (d.val - 10).toUInt8

def hexChars (ds : List (Bool × Fin 16)) : List UInt8 := ds.map fun p => hexChar p.1 p.2

def hexValue (ds : List (Bool × Fin 16)) : Nat := Nat.ofDigits 16 (ds.reverse.map fun p => p.2.val)

/-- A quantity of value `v`: `0x` or `0X`, then 1 to 64 hex digits whose first is a zero only in
`0x0`, with `v` their base-16 value. -/
def IsQuantity (s : List UInt8) (v : Nat) : Prop :=
  ∃ x ds, s = '0'.toUInt8 :: x :: hexChars ds ∧ (x = 'x'.toUInt8 ∨ x = 'X'.toUInt8) ∧
    1 ≤ ds.length ∧ ds.length ≤ 64 ∧ (ds.head?.map Prod.snd = some 0 → ds.length = 1) ∧ v = hexValue ds

@[simp] theorem hexChars_nil : hexChars [] = [] := rfl

@[simp] theorem hexChars_cons (p : Bool × Fin 16) (ds : List (Bool × Fin 16)) :
    hexChars (p :: ds) = hexChar p.1 p.2 :: hexChars ds := rfl

@[simp] theorem length_hexChars (ds : List (Bool × Fin 16)) : (hexChars ds).length = ds.length :=
  List.length_map _

theorem hexValue_append (ds es : List (Bool × Fin 16)) :
    hexValue (ds ++ es) = hexValue ds * 16 ^ es.length + hexValue es := by
  simp only [hexValue, List.reverse_append, List.map_append, Nat.ofDigits_append, List.length_map,
    List.length_reverse]
  ring

theorem hexValue_cons (p : Bool × Fin 16) (ds : List (Bool × Fin 16)) :
    hexValue (p :: ds) = p.2.val * 16 ^ ds.length + hexValue ds := by
  rw [← List.singleton_append, hexValue_append]
  simp [hexValue]

@[simp] theorem hexValue_nil : hexValue [] = 0 := rfl

/-! ## Digit bytes -/

theorem decodeNibble_hexChar (u : Bool) (d : Fin 16) : decodeNibble (hexChar u d) = d.val.toUInt64 := by
  revert u d
  decide

theorem hexChar_ne_badNibble (u : Bool) (d : Fin 16) : decodeNibble (hexChar u d) ≠ badNibble := by
  revert u d
  decide

theorem exists_hexChar {c : UInt8} (h : decodeNibble c ≠ badNibble) : ∃ u d, c = hexChar u d := by
  have key : ∀ a : Fin 256, decodeNibble (UInt8.ofNat a) ≠ badNibble →
      hexChar (decide ('A'.toUInt8 ≤ UInt8.ofNat a ∧ UInt8.ofNat a ≤ 'F'.toUInt8))
        ⟨(decodeNibble (UInt8.ofNat a)).toNat % 16, Nat.mod_lt _ (by decide)⟩ = UInt8.ofNat a := by
    decide +kernel
  exact ⟨_, _, (by simpa using key ⟨c.toNat, c.toNat_lt⟩ (by simpa using h) : _ = c).symm⟩

theorem hexChar_eq_zero_iff (u : Bool) (d : Fin 16) : hexChar u d = '0'.toUInt8 ↔ d = 0 := by
  revert u d
  decide

theorem parseDigit_hexChar (u : Bool) (d : Fin 16) : parseDigit (hexChar u d) = some d.val.toUInt8 := by
  revert u d
  decide

theorem lowerHexDigit_eq_hexChar (d : Fin 16) : lowerHexDigit d.val = hexChar false d := by
  revert d
  decide

theorem exists_hexChars {raw : List UInt8} (h : ∀ c ∈ raw, decodeNibble c ≠ badNibble) :
    ∃ ds, raw = hexChars ds := by
  induction raw with
  | nil => exact ⟨[], rfl⟩
  | cons c raw ih =>
    obtain ⟨u, d, rfl⟩ := exists_hexChar (h c (by simp))
    obtain ⟨ds, rfl⟩ := ih (fun c hc => h c (by simp [hc]))
    exact ⟨(u, d) :: ds, rfl⟩

/-! ## The word loops of `DecodeBig` -/

theorem toNat_hexChar_nibble (u : Bool) (d : Fin 16) : (decodeNibble (hexChar u d)).toNat = d.val := by
  have hd := d.isLt
  rw [decodeNibble_hexChar]
  simp
  omega

theorem decodeWord_hexChars (w : WordSize) (ds : List (Bool × Fin 16)) (acc : Nat)
    (hfit : (acc + 1) * 16 ^ ds.length ≤ 2 ^ w.bits) :
    decodeWord w (hexChars ds) acc = .ok (acc * 16 ^ ds.length + hexValue ds) := by
  induction ds generalizing acc with
  | nil => simp [decodeWord]
  | cons p ds ih =>
    have hd := p.2.isLt
    have hstep : (acc * 16 + p.2.val + 1) * 16 ^ ds.length ≤ 2 ^ w.bits := by
      calc (acc * 16 + p.2.val + 1) * 16 ^ ds.length ≤ (acc + 1) * 16 * 16 ^ ds.length := by
            apply Nat.mul_le_mul_right
            omega
        _ = (acc + 1) * 16 ^ (p :: ds).length := by
            rw [List.length_cons, pow_succ]
            ring
        _ ≤ 2 ^ w.bits := hfit
    have hlt : acc * 16 + p.2.val < 2 ^ w.bits := by
      have hpos : 0 < 16 ^ ds.length := pow_pos (by decide) _
      nlinarith
    rw [hexChars_cons, decodeWord, if_neg (hexChar_ne_badNibble _ _), toNat_hexChar_nibble,
      Nat.mod_eq_of_lt hlt, ih _ hstep, hexValue_cons, List.length_cons, pow_succ]
    congr 1
    ring

theorem decodeWord_of_bad (w : WordSize) {cs : List UInt8} (h : ∃ c ∈ cs, decodeNibble c = badNibble)
    (acc : Nat) : decodeWord w cs acc = .error ErrSyntax := by
  induction cs generalizing acc with
  | nil =>
    obtain ⟨c, hc, -⟩ := h
    cases hc
  | cons c cs ih =>
    rw [decodeWord]
    split_ifs with hc
    · rfl
    · obtain ⟨c', hc', hbad⟩ := h
      rcases List.mem_cons.mp hc' with rfl | hc'
      · exact absurd hbad hc
      · exact ih ⟨c', hc', hbad⟩ _

theorem decodeWord_eq_error {w : WordSize} {cs : List UInt8} {acc : Nat} {e : String}
    (h : decodeWord w cs acc = .error e) : e = ErrSyntax := by
  induction cs generalizing acc with
  | nil => cases h
  | cons c cs ih =>
    rw [decodeWord] at h
    split_ifs at h
    · cases h
      rfl
    · exact ih h

theorem two_pow_bits (w : WordSize) : 2 ^ w.bits = 16 ^ w.bigWordNibbles := by
  rw [WordSize.bits, pow_mul]
  rfl

theorem decodeWords_hexChars (w : WordSize) (ds : List (Bool × Fin 16)) :
    ∀ count end_, end_ ≤ ds.length → end_ ≤ count * w.bigWordNibbles →
      ∃ words, decodeWords w (hexChars ds) count end_ = .ok words ∧
        setBits w words = hexValue (ds.take end_) := by
  intro count
  induction count with
  | zero =>
    intro end_ _ hend
    rw [Nat.zero_mul, Nat.le_zero] at hend
    subst hend
    exact ⟨[], rfl, rfl⟩
  | succ count ih =>
    intro end_ hlen hend
    -- the chunk of this word, and the digits before it that the later words read
    set start := end_ - w.bigWordNibbles with hstart
    have hchunk : ((hexChars ds).take end_).drop start = hexChars ((ds.take end_).drop start) := by
      simp only [hexChars, List.map_take, List.map_drop]
    have hclen : ((ds.take end_).drop start).length = end_ - start := by
      rw [List.length_drop, List.length_take, Nat.min_eq_left hlen]
    have hfit : (0 + 1) * 16 ^ ((ds.take end_).drop start).length ≤ 2 ^ w.bits := by
      rw [hclen, two_pow_bits, Nat.zero_add, Nat.one_mul]
      exact Nat.pow_le_pow_right (by decide) (by omega)
    obtain ⟨words, hwords, hvalue⟩ := ih start (by omega) (by rw [Nat.succ_mul] at hend; omega)
    refine ⟨hexValue ((ds.take end_).drop start) :: words, ?_, ?_⟩
    · rw [decodeWords, hchunk, decodeWord_hexChars w _ 0 hfit, Nat.zero_mul, Nat.zero_add, Sim.ok_bind, hwords]
      rfl
    · have htake : (ds.take end_).take start = ds.take start := by
        rw [List.take_take, Nat.min_eq_left (by omega)]
      have hsplit : hexValue (ds.take end_) =
          hexValue (ds.take start) * 16 ^ (end_ - start) + hexValue ((ds.take end_).drop start) := by
        calc hexValue (ds.take end_) = hexValue ((ds.take end_).take start ++ (ds.take end_).drop start) := by
              rw [List.take_append_drop]
          _ = _ := by rw [hexValue_append, htake, hclen]
      rw [setBits, List.foldr_cons, ← setBits, hvalue, hsplit]
      by_cases h0 : start = 0
      · rw [h0, List.take_zero, hexValue_nil]
        ring
      · rw [show end_ - start = w.bigWordNibbles by omega, ← two_pow_bits]
        ring

theorem decodeWords_of_bad (w : WordSize) (raw : List UInt8) :
    ∀ count end_, end_ ≤ count * w.bigWordNibbles →
      (∃ c ∈ raw.take end_, decodeNibble c = badNibble) → decodeWords w raw count end_ = .error ErrSyntax := by
  intro count
  induction count with
  | zero =>
    intro end_ hend hbad
    rw [Nat.zero_mul, Nat.le_zero] at hend
    subst hend
    obtain ⟨c, hc, -⟩ := hbad
    simp at hc
  | succ count ih =>
    intro end_ hend hbad
    rw [decodeWords]
    by_cases hchunk : ∃ c ∈ (raw.take end_).drop (end_ - w.bigWordNibbles), decodeNibble c = badNibble
    · rw [decodeWord_of_bad w hchunk]
      rfl
    · -- the bad byte comes before this word's chunk
      have hbefore : ∃ c ∈ raw.take (end_ - w.bigWordNibbles), decodeNibble c = badNibble := by
        obtain ⟨c, hc, hbadc⟩ := hbad
        rw [← List.take_append_drop (end_ - w.bigWordNibbles) (raw.take end_), List.take_take,
          List.mem_append] at hc
        rcases hc with hc | hc
        · exact ⟨c, by rwa [Nat.min_eq_left (by omega)] at hc, hbadc⟩
        · exact absurd ⟨c, hc, hbadc⟩ hchunk
      have hrest := ih _ (by rw [Nat.succ_mul] at hend; omega) hbefore
      cases hword : decodeWord w ((raw.take end_).drop (end_ - w.bigWordNibbles)) 0 with
      | error e =>
        rw [decodeWord_eq_error hword]
        rfl
      | ok word =>
        rw [Sim.ok_bind, hrest]
        rfl

theorem decodeBigDigits_eq_ok_iff (w : WordSize) (raw : List UInt8) (v : Nat) :
    decodeBigDigits w raw = .ok v ↔ raw.length ≤ 64 ∧ ∃ ds, raw = hexChars ds ∧ v = hexValue ds := by
  have hcover : raw.length ≤ (raw.length / w.bigWordNibbles + 1) * w.bigWordNibbles := by
    have hpos : 0 < w.bigWordNibbles := by cases w <;> decide
    have := Nat.lt_div_mul_add hpos (a := raw.length)
    rw [Nat.add_mul, Nat.one_mul]
    omega
  unfold decodeBigDigits
  constructor
  · intro h
    split_ifs at h with hlong
    by_cases hgood : ∀ c ∈ raw, decodeNibble c ≠ badNibble
    · obtain ⟨ds, rfl⟩ := exists_hexChars hgood
      rw [length_hexChars] at hcover hlong h
      obtain ⟨words, hwords, hvalue⟩ :=
        decodeWords_hexChars w ds (ds.length / w.bigWordNibbles + 1) ds.length le_rfl hcover
      rw [hwords] at h
      rw [List.take_length] at hvalue
      exact ⟨by rw [length_hexChars]; omega, ds, rfl, (Except.ok.inj h).symm.trans hvalue⟩
    · push Not at hgood
      rw [decodeWords_of_bad w raw _ _ hcover (by rwa [List.take_length])] at h
      cases h
  · rintro ⟨hlen, ds, rfl, rfl⟩
    rw [length_hexChars] at hcover hlen ⊢
    obtain ⟨words, hwords, hvalue⟩ :=
      decodeWords_hexChars w ds (ds.length / w.bigWordNibbles + 1) ds.length le_rfl hcover
    rw [List.take_length] at hvalue
    rw [if_neg (by omega), hwords, ← hvalue]
    rfl

theorem checkNumberWith_eq_ok {empty : Except String (List UInt8)} {input raw : List UInt8}
    (hne : input ≠ []) (h : checkNumberWith empty input = .ok raw) :
    ∃ x, input = '0'.toUInt8 :: x :: raw ∧ (x = 'x'.toUInt8 ∨ x = 'X'.toUInt8) ∧ raw ≠ [] ∧
      (raw.length > 1 → raw.head? ≠ some '0'.toUInt8) := by
  unfold checkNumberWith at h
  dsimp only at h
  split_ifs at h with h₀ hpre hnil hlead
  · exact absurd (List.eq_nil_of_length_eq_zero h₀) hne
  cases h
  match input, hpre with
  | a :: x :: rest, hpre =>
    simp only [has0xPrefix, Bool.not_eq_true', Bool.not_eq_false, Bool.and_eq_true, beq_iff_eq,
      Bool.or_eq_true] at hpre
    obtain ⟨rfl, hx⟩ := hpre
    refine ⟨x, rfl, hx, fun hrest => hnil (by rw [hrest]; rfl), fun hlong hzero => hlead ⟨hlong, hzero⟩⟩

theorem checkNumberWith_of_digits (empty : Except String (List UInt8)) {x : UInt8} {raw : List UInt8}
    (hx : x = 'x'.toUInt8 ∨ x = 'X'.toUInt8) (hraw : raw ≠ [])
    (hlead : raw.length > 1 → raw.head? ≠ some '0'.toUInt8) :
    checkNumberWith empty ('0'.toUInt8 :: x :: raw) = .ok raw := by
  have hpre : has0xPrefix ('0'.toUInt8 :: x :: raw) = true := by
    rcases hx with rfl | rfl <;> rfl
  unfold checkNumberWith
  rw [if_neg (by simp), hpre]
  simp only [Bool.not_true, Bool.false_eq_true, if_false, List.drop_succ_cons, List.drop_zero]
  rw [if_neg (fun h => hraw (List.eq_nil_of_length_eq_zero h)), if_neg (fun h => hlead h.1 h.2)]

theorem checkNumberWith_of_ne_nil (empty empty' : Except String (List UInt8)) {input : List UInt8}
    (hne : input ≠ []) : checkNumberWith empty input = checkNumberWith empty' input := by
  unfold checkNumberWith
  rw [if_neg (fun h => hne (List.eq_nil_of_length_eq_zero h)), if_neg (fun h => hne (List.eq_nil_of_length_eq_zero h))]

theorem head_hexChars_eq_zero_iff (ds : List (Bool × Fin 16)) :
    (hexChars ds).head? = some '0'.toUInt8 ↔ ds.head?.map Prod.snd = some 0 := by
  cases ds with
  | nil => simp
  | cons p ds => simp [hexChar_eq_zero_iff]

theorem checkNumberWith_hexChars (empty : Except String (List UInt8)) {x : UInt8} {ds : List (Bool × Fin 16)}
    (hx : x = 'x'.toUInt8 ∨ x = 'X'.toUInt8) (hlen : 1 ≤ ds.length)
    (hlead : ds.head?.map Prod.snd = some 0 → ds.length = 1) :
    checkNumberWith empty ('0'.toUInt8 :: x :: hexChars ds) = .ok (hexChars ds) := by
  have hraw : hexChars ds ≠ [] := by
    rw [← List.length_pos_iff, length_hexChars]
    omega
  apply checkNumberWith_of_digits _ hx hraw
  intro hlong hzero
  rw [length_hexChars, hlead ((head_hexChars_eq_zero_iff ds).mp hzero)] at hlong
  omega

/-! ## Decoding a big integer -/

theorem DecodeBig_eq_ok_iff (w : WordSize) (s : List UInt8) (v : Nat) :
    DecodeBig w s = .ok v ↔ IsQuantity s v := by
  constructor
  · intro h
    obtain ⟨raw, hcheck, hdigits⟩ := Sim.bind_eq_ok.mp h
    have hne : s ≠ [] := by
      rintro rfl
      cases hcheck
    obtain ⟨x, rfl, hx, hraw, hlead⟩ := checkNumberWith_eq_ok hne hcheck
    obtain ⟨hlen, ds, rfl, rfl⟩ := (decodeBigDigits_eq_ok_iff w _ v).mp hdigits
    rw [length_hexChars] at hlen
    refine ⟨x, ds, rfl, hx, ?_, hlen, fun hzero => ?_, rfl⟩
    · rcases ds with _ | ⟨p, ds⟩
      · exact absurd rfl hraw
      · simp
    · have hshort := mt hlead (not_not.mpr ((head_hexChars_eq_zero_iff ds).mpr hzero))
      have hpos : ds ≠ [] := fun hnil => hraw (by rw [hnil]; rfl)
      rw [length_hexChars] at hshort
      have := List.length_pos_of_ne_nil hpos
      omega
  · rintro ⟨x, ds, rfl, hx, hlen₁, hlen, hlead, rfl⟩
    rw [DecodeBig, checkNumber, checkNumberWith_hexChars _ hx hlen₁ hlead, Sim.ok_bind]
    exact (decodeBigDigits_eq_ok_iff w _ _).mpr ⟨by rw [length_hexChars]; exact hlen, ds, rfl, rfl⟩

example : DecodeBig .w32 ['0'.toUInt8, 'x'.toUInt8, '1'.toUInt8, 'f'.toUInt8] = .ok 31 := rfl

example : DecodeBig .w64 ['0'.toUInt8, 'X'.toUInt8, '0'.toUInt8, '1'.toUInt8] = .error ErrLeadingZero := rfl

theorem Big.UnmarshalText_of_ne_nil (w : WordSize) {s : List UInt8} (hne : s ≠ []) :
    Big.UnmarshalText w s = DecodeBig w s := by
  rw [Big.UnmarshalText, DecodeBig, checkNumberText, checkNumber, checkNumberWith_of_ne_nil _ (.error ErrEmptyString) hne]

/-! ## Encoding -/

theorem hexDigits_eq_hexChars (x : Nat) :
    ∃ ds, hexDigits x = hexChars ds ∧ hexValue ds = x ∧ ds.length = (Nat.digits 16 x).length ∧
      (x ≠ 0 → ds.head?.map Prod.snd ≠ some 0) := by
  have hlt : ∀ d ∈ Nat.digits 16 x, d < 16 := fun d hd => Nat.digits_lt_base (by decide) hd
  refine ⟨(Nat.digits 16 x).reverse.map fun d => (false, ⟨d % 16, Nat.mod_lt _ (by decide)⟩), ?_, ?_, ?_, ?_⟩
  · rw [hexDigits, hexChars, List.map_map, ← List.map_reverse]
    apply List.map_congr_left
    intro d hd
    have hd16 : d % 16 = d := Nat.mod_eq_of_lt (hlt d (List.mem_reverse.mp hd))
    simp only [Function.comp]
    rw [← lowerHexDigit_eq_hexChar]
    show lowerHexDigit d = lowerHexDigit (d % 16)
    rw [hd16]
  · have hmap : (Nat.digits 16 x).map (fun d => d % 16) = Nat.digits 16 x := by
      conv_rhs => rw [← List.map_id (Nat.digits 16 x)]
      exact List.map_congr_left (fun d hd => Nat.mod_eq_of_lt (hlt d hd))
    rw [hexValue, ← List.map_reverse, List.reverse_reverse, List.map_map]
    show Nat.ofDigits 16 ((Nat.digits 16 x).map fun d => d % 16) = x
    rw [hmap, Nat.ofDigits_digits]
  · simp
  · intro hx hzero
    have hnil : Nat.digits 16 x ≠ [] := Nat.digits_ne_nil_iff_ne_zero.mpr hx
    rw [List.head?_map, List.head?_reverse, List.getLast?_eq_some_getLast hnil] at hzero
    have hlast := Nat.getLast_digit_ne_zero 16 hx
    have hlast16 := hlt _ (List.getLast_mem hnil)
    simp only [Option.map_some, Option.some.injEq, Fin.ext_iff] at hzero
    simp only [Fin.val_zero] at hzero
    omega

theorem hexChars_zero : hexChars [(false, 0)] = ['0'.toUInt8] := rfl

theorem EncodeBig_isQuantity {x : Nat} (hx : x < 2 ^ 256) : IsQuantity (EncodeBig x) x := by
  by_cases hx0 : x = 0
  · subst hx0
    exact ⟨'x'.toUInt8, [(false, 0)], rfl, .inl rfl, le_rfl, by decide, fun _ => rfl, rfl⟩
  · obtain ⟨ds, hds, hvalue, hlen, hhead⟩ := hexDigits_eq_hexChars x
    have hdigits : Nat.digits 16 x ≠ [] := Nat.digits_ne_nil_iff_ne_zero.mpr hx0
    have hfit : (Nat.digits 16 x).length ≤ 64 :=
      (Nat.digits_length_le_iff (by decide) x).mpr (by simpa using hx)
    rw [EncodeBig, if_neg (fun h => hx0 (Nat.size_eq_zero.mp h)), hds]
    refine ⟨'x'.toUInt8, ds, rfl, .inl rfl, ?_, by omega, fun h => absurd h (hhead hx0), hvalue.symm⟩
    rw [hlen]
    exact List.length_pos_of_ne_nil hdigits

theorem appendUint_eq_hexChars (i : UInt64) :
    ∃ ds, appendUint ['0'.toUInt8, 'x'.toUInt8] i = '0'.toUInt8 :: 'x'.toUInt8 :: hexChars ds ∧
      hexValue ds = i.toNat ∧ 1 ≤ ds.length ∧ ds.length ≤ 16 ∧
      (ds.head?.map Prod.snd = some 0 → ds.length = 1) := by
  by_cases hi : i = 0
  · subst hi
    exact ⟨[(false, 0)], rfl, rfl, le_rfl, by decide, fun _ => rfl⟩
  · have hi0 : i.toNat ≠ 0 := fun h => hi (UInt64.toNat_inj.mp h)
    obtain ⟨ds, hds, hvalue, hlen, hhead⟩ := hexDigits_eq_hexChars i.toNat
    have hfit : (Nat.digits 16 i.toNat).length ≤ 16 :=
      (Nat.digits_length_le_iff (by decide) _).mpr (by simpa using i.toNat_lt)
    refine ⟨ds, by rw [appendUint, if_neg hi, hds]; rfl, hvalue, ?_, by omega, fun h => absurd h (hhead hi0)⟩
    rw [hlen]
    exact List.length_pos_of_ne_nil (Nat.digits_ne_nil_iff_ne_zero.mpr hi0)

/-! ## Decoding a `uint64` -/

theorem toUInt64_toUInt8 (d : Fin 16) : d.val.toUInt8.toUInt64 = UInt64.ofNat d.val := by
  revert d
  decide

theorem not_sixteen_le_toUInt8 (d : Fin 16) : ¬ d.val.toUInt8 ≥ 16 := by
  revert d
  decide

theorem toNat_mul_sixteen_add {acc : UInt64} {d : Nat} (h : acc.toNat * 16 + d < 2 ^ 64) :
    (acc * 16 + UInt64.ofNat d).toNat = acc.toNat * 16 + d := by
  have h16 : (16 : UInt64).toNat = 16 := rfl
  rw [UInt64.toNat_add, UInt64.toNat_mul, UInt64.toNat_ofNat', h16,
    Nat.mod_eq_of_lt (by omega : acc.toNat * 16 < 2 ^ 64), Nat.mod_eq_of_lt (by omega : d < 2 ^ 64),
    Nat.mod_eq_of_lt h]

theorem digit_step_fits (p : Bool × Fin 16) (ds : List (Bool × Fin 16)) {acc : Nat}
    (hbound : acc * 16 ^ (p :: ds).length + hexValue (p :: ds) < 2 ^ 64) :
    acc * 16 + p.2.val < 2 ^ 64 ∧
      (acc * 16 + p.2.val) * 16 ^ ds.length + hexValue ds = acc * 16 ^ (p :: ds).length + hexValue (p :: ds) := by
  have heq : (acc * 16 + p.2.val) * 16 ^ ds.length + hexValue ds =
      acc * 16 ^ (p :: ds).length + hexValue (p :: ds) := by
    rw [hexValue_cons, List.length_cons, pow_succ]
    ring
  have hle : acc * 16 + p.2.val ≤ (acc * 16 + p.2.val) * 16 ^ ds.length :=
    Nat.le_mul_of_pos_right _ (pow_pos (by decide) _)
  exact ⟨by omega, heq⟩

theorem parseUintLoop_hexChars (ds : List (Bool × Fin 16)) (acc : UInt64)
    (hbound : acc.toNat * 16 ^ ds.length + hexValue ds < 2 ^ 64) :
    parseUintLoop (hexChars ds) acc = .ok (UInt64.ofNat (acc.toNat * 16 ^ ds.length + hexValue ds)) := by
  induction ds generalizing acc with
  | nil => simp [parseUintLoop]
  | cons p ds ih =>
    obtain ⟨hfit, heq⟩ := digit_step_fits p ds hbound
    have hn1 := toNat_mul_sixteen_add hfit
    have hcut : ¬ acc ≥ cutoff := by
      rw [ge_iff_le, UInt64.le_iff_toNat_le]
      show ¬ 1152921504606846976 ≤ acc.toNat
      omega
    -- the sum neither wraps nor passes `maxVal`
    have hover : ¬ (acc * 16 + UInt64.ofNat p.2.val < acc * 16 ∨ acc * 16 + UInt64.ofNat p.2.val > maxVal) := by
      rw [gt_iff_lt, UInt64.lt_iff_toNat_lt, UInt64.lt_iff_toNat_lt, hn1, UInt64.toNat_mul]
      show ¬ (acc.toNat * 16 + p.2.val < acc.toNat * 16 % 2 ^ 64 ∨ 18446744073709551615 < acc.toNat * 16 + p.2.val)
      omega
    rw [hexChars_cons, parseUintLoop, parseDigit_hexChar]
    dsimp only
    rw [if_neg (not_sixteen_le_toUInt8 _), if_neg hcut, toUInt64_toUInt8, if_neg hover,
      ih _ (by rw [hn1, heq]; exact hbound), hn1, heq]

theorem uint64Loop_hexChars (ds : List (Bool × Fin 16)) (acc : UInt64)
    (hbound : acc.toNat * 16 ^ ds.length + hexValue ds < 2 ^ 64) :
    uint64Loop (hexChars ds) acc = .ok (UInt64.ofNat (acc.toNat * 16 ^ ds.length + hexValue ds)) := by
  induction ds generalizing acc with
  | nil => simp [uint64Loop]
  | cons p ds ih =>
    obtain ⟨hfit, heq⟩ := digit_step_fits p ds hbound
    have hn1 := toNat_mul_sixteen_add hfit
    rw [hexChars_cons, uint64Loop, if_neg (hexChar_ne_badNibble _ _), decodeNibble_hexChar]
    rw [show p.2.val.toUInt64 = UInt64.ofNat p.2.val from rfl, ih _ (by rw [hn1, heq]; exact hbound), hn1, heq]

theorem DecodeUint64_EncodeUint64 (n : UInt64) : DecodeUint64 (EncodeUint64 n) = .ok n := by
  obtain ⟨ds, henc, hvalue, hlen₁, -, hlead⟩ := appendUint_eq_hexChars n
  have hbound : (0 : UInt64).toNat * 16 ^ ds.length + hexValue ds < 2 ^ 64 := by
    rw [hvalue]
    simpa using n.toNat_lt
  rw [DecodeUint64, EncodeUint64, henc, checkNumber, checkNumberWith_hexChars _ (.inl rfl) hlen₁ hlead,
    Sim.ok_bind, ParseUint, if_neg (by rw [length_hexChars]; omega), parseUintLoop_hexChars ds 0 hbound]
  simp [hvalue, Except.mapError]

theorem Uint64.UnmarshalText_MarshalText (n : UInt64) : Uint64.UnmarshalText (Uint64.MarshalText n) = .ok n := by
  obtain ⟨ds, henc, hvalue, hlen₁, hlen, hlead⟩ := appendUint_eq_hexChars n
  have hbound : (0 : UInt64).toNat * 16 ^ ds.length + hexValue ds < 2 ^ 64 := by
    rw [hvalue]
    simpa using n.toNat_lt
  rw [Uint64.UnmarshalText, Uint64.MarshalText, henc, checkNumberText,
    checkNumberWith_hexChars _ (.inl rfl) hlen₁ hlead, Sim.ok_bind, if_neg (by rw [length_hexChars]; omega),
    uint64Loop_hexChars ds 0 hbound]
  simp [hvalue]

/-- The hex quantity codecs: `DecodeBig` and `Big.UnmarshalText` read back what `EncodeBig`
writes below `2^256`, the `uint64` decoders what the `uint64` encoders write, and for either word
width `DecodeBig` (and `Big.UnmarshalText` on a non-empty input) succeeds exactly on the
quantities, with their base-16 value. -/
theorem hex_quantity_codecs (w : WordSize) :
    (∀ x : Nat, x < 2 ^ 256 →
      DecodeBig w (EncodeBig x) = .ok x ∧ Big.UnmarshalText w (Big.MarshalText x) = .ok x) ∧
    (∀ n : UInt64, DecodeUint64 (EncodeUint64 n) = .ok n ∧
      Uint64.UnmarshalText (Uint64.MarshalText n) = .ok n) ∧
    (∀ s v, DecodeBig w s = .ok v ↔ IsQuantity s v) ∧
    (∀ s v, s ≠ [] → (Big.UnmarshalText w s = .ok v ↔ IsQuantity s v)) := by
  refine ⟨fun x hx => ?_, fun n => ⟨DecodeUint64_EncodeUint64 n, Uint64.UnmarshalText_MarshalText n⟩,
    DecodeBig_eq_ok_iff w, fun s v hne => ?_⟩
  · have hdec := (DecodeBig_eq_ok_iff w _ x).mpr (EncodeBig_isQuantity hx)
    have hne : EncodeBig x ≠ [] := by
      unfold EncodeBig
      split_ifs <;> simp
    exact ⟨hdec, by rw [Big.MarshalText, Big.UnmarshalText_of_ne_nil w hne, hdec]⟩
  · rw [Big.UnmarshalText_of_ne_nil w hne]
    exact DecodeBig_eq_ok_iff w s v

end Zerium.Hexutil
