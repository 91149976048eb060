import Zerium.Vm.Instructions

/-! # The instructions compute the Yellow Paper's word arithmetic

The Yellow Paper reads a stack item as a word, a natural number below `2^256`, and as a signed
number in two's complement; its arithmetic is modulo `2^256`, its signed division rounds toward
zero, and `SIGNEXTEND` and `BYTE` are defined bit by bit and byte by byte. `wordOf`, `toSigned`
and the `…Word` functions below state that semantics on their own, and `ComputesBinary op f`
says that `op` pops two words and pushes the word `f` gives.

The bridge is `U256_eq_wordOf`: `And` with `tt256m1` is the residue modulo `2^256`, for negative
numbers too. Over it each instruction gets one lemma: `Exp` computes the power through its loop
over bits (`expWord_eq`) and over words (`expWords_eq`), and `SIGNEXTEND` is compared bit by bit
with its word.
-/

namespace Zerium.Vm

set_option autoImplicit false

/-- The word that stands for the integer `v`: its residue modulo `2^256`. -/
def wordOf (v : Int) : Nat := (v % 2 ^ 256).toNat

def toSigned (x : Nat) : Int := ((x : Int) + 2 ^ 255) % 2 ^ 256 - 2 ^ 255

theorem tt256m1_eq : tt256m1 = ((2 ^ 256 - 1 : Nat) : Int) := by
  unfold tt256m1
  norm_num

theorem wordOf_natCast (n : Nat) : wordOf n = n % 2 ^ 256 := by
  unfold wordOf
  omega

theorem wordOf_lt (v : Int) : wordOf v < 2 ^ 256 := by
  unfold wordOf
  omega

theorem wordOf_negSucc (m : Nat) : wordOf (Int.negSucc m) = 2 ^ 256 - (m % 2 ^ 256 + 1) := by
  unfold wordOf
  rw [Int.negSucc_emod m (by positivity)]
  omega

theorem U256_eq_wordOf (v : Int) : U256 v = wordOf v := by
  unfold U256
  rw [tt256m1_eq]
  cases v with
  | ofNat m =>
    show ((m &&& (2 ^ 256 - 1) : Nat) : Int).toNat = wordOf m
    rw [Int.toNat_natCast, Nat.and_two_pow_sub_one_eq_mod, wordOf_natCast]
  | negSucc m =>
    show ((Nat.ldiff (2 ^ 256 - 1) m : Nat) : Int).toNat = wordOf (Int.negSucc m)
    rw [Int.toNat_natCast, wordOf_negSucc]
    apply Nat.eq_of_testBit_eq
    intro i
    rw [Nat.testBit_ldiff, Nat.testBit_two_pow_sub_one,
      Nat.testBit_two_pow_sub_succ (Nat.mod_lt _ (by positivity)), Nat.testBit_mod_two_pow]
    cases decide (i < 256) <;> rfl

theorem U256_natCast (n : Nat) : U256 n = n % 2 ^ 256 := by
  rw [U256_eq_wordOf, wordOf_natCast]

theorem testBit_U256 (v : Int) (i : Nat) : (U256 v).testBit i = (decide (i < 256) && v.testBit i) := by
  rw [U256_eq_wordOf]
  cases v with
  | ofNat m =>
    rw [Int.ofNat_eq_natCast, wordOf_natCast, Nat.testBit_mod_two_pow]
    rfl
  | negSucc m =>
    rw [wordOf_negSucc, Nat.testBit_two_pow_sub_succ (Nat.mod_lt _ (by positivity)),
      Nat.testBit_mod_two_pow]
    show _ = (decide (i < 256) && !m.testBit i)
    cases decide (i < 256) <;> rfl
theorem S256_eq_toSigned {x : Nat} (hx : x < 2 ^ 256) : S256 x = toSigned x := by
  unfold S256 toSigned tt255 tt256
  split <;> omega

theorem toSigned_lt (x : Nat) : toSigned x < 2 ^ 255 := by
  unfold toSigned
  omega

theorem toSigned_eq_zero_iff {x : Nat} (hx : x < 2 ^ 256) : toSigned x = 0 ↔ x = 0 := by
  unfold toSigned
  omega

theorem S256_of_lt {v : Int} (hv : v < 2 ^ 255) : S256 v = v := by
  unfold S256 tt255
  rw [if_pos hv]

theorem natAbs_div_mul_sign (a b : Int) :
    ((a.natAbs / b.natAbs : Nat) : Int) * (if a * b < 0 then -1 else 1) = a.tdiv b := by
  rcases a with m | m <;> rcases b with n | n
  · have : ¬ ((m : Int) * n < 0) := not_lt.mpr (by positivity)
    simp [this, Int.tdiv]
  · by_cases hm : m = 0
    · subst hm
      simp [Int.tdiv]
    · have : (m : Int) * Int.negSucc n < 0 :=
        mul_neg_of_pos_of_neg (by omega) (Int.negSucc_lt_zero n)
      simp [this, Int.tdiv]
  · by_cases hn : n = 0
    · subst hn
      simp [Int.tdiv]
    · have : Int.negSucc m * n < 0 :=
        mul_neg_of_neg_of_pos (Int.negSucc_lt_zero m) (by omega)
      simp [this, Int.tdiv]
  · have : ¬ (Int.negSucc m * Int.negSucc n < 0) :=
      not_lt.mpr (mul_pos_of_neg_of_neg (Int.negSucc_lt_zero m) (Int.negSucc_lt_zero n)).le
    simp [this, Int.tdiv]

theorem natAbs_mod_mul_sign (a b : Int) :
    ((a.natAbs % b.natAbs : Nat) : Int) * (if a < 0 then -1 else 1) = a.tmod b := by
  rcases a with m | m <;> rcases b with n | n
  · simp [Int.tmod]
  · simp [Int.tmod]
  · simp [Int.negSucc_lt_zero, Int.tmod]
  · simp [Int.negSucc_lt_zero, Int.tmod]

theorem expWord_eq (count word result base : Nat) (hr : result < 2 ^ 256) (hb : base < 2 ^ 256) :
    expWord count word result base =
      (result * base ^ (word % 2 ^ count) % 2 ^ 256, base ^ 2 ^ count % 2 ^ 256) := by
  induction count generalizing word result base with
  | zero =>
    rw [expWord, pow_zero, Nat.mod_one, pow_zero, mul_one, pow_one, Nat.mod_eq_of_lt hr,
      Nat.mod_eq_of_lt hb]
  | succ count ih =>
    -- the bit read now is `word % 2`; the rest of the word is `word / 2`
    have hbit : word % 2 ^ (count + 1) = word % 2 + 2 * (word / 2 % 2 ^ count) := by
      rw [Nat.pow_succ', Nat.mod_mul]
    have hr₁ : (if word &&& 1 = 1 then U256 (result * base) else result) =
        result * base ^ (word % 2) % 2 ^ 256 := by
      rw [Nat.and_one_is_mod]
      rcases Nat.mod_two_eq_zero_or_one word with h | h
      · rw [if_neg (by omega), h, pow_zero, mul_one, Nat.mod_eq_of_lt hr]
      · rw [if_pos h, h, pow_one, ← Nat.cast_mul, U256_natCast]
    rw [expWord, hr₁, ← Nat.cast_mul, U256_natCast, Nat.shiftRight_one,
      ih _ _ _ (Nat.mod_lt _ (by positivity)) (Nat.mod_lt _ (by positivity))]
    have hsq : ∀ k, (base * base % 2 ^ 256) ^ k % 2 ^ 256 = base ^ (2 * k) % 2 ^ 256 := by
      intro k
      rw [← Nat.pow_mod, ← pow_two, ← pow_mul]
    refine Prod.ext ?_ ?_
    · show result * base ^ (word % 2) % 2 ^ 256 * (base * base % 2 ^ 256) ^ (word / 2 % 2 ^ count)
        % 2 ^ 256 = _
      rw [Nat.mod_mul_mod, Nat.mul_mod, hsq, ← Nat.mul_mod, hbit, pow_add, mul_assoc]
    · rw [hsq, ← Nat.pow_succ']

theorem expWords_eq (words : List Nat) (hw : ∀ w ∈ words, w < 2 ^ wordBits) (result base : Nat)
    (hr : result < 2 ^ 256) (hb : base < 2 ^ 256) :
    (words.foldl (fun acc word => expWord wordBits word acc.1 acc.2) (result, base)).1 =
      result * base ^ Nat.ofDigits (2 ^ wordBits) words % 2 ^ 256 := by
  induction words generalizing result base with
  | nil => rw [List.foldl_nil, Nat.ofDigits_nil, pow_zero, mul_one, Nat.mod_eq_of_lt hr]
  | cons w words ih =>
    have hw₀ : w % 2 ^ wordBits = w := Nat.mod_eq_of_lt (hw w List.mem_cons_self)
    rw [List.foldl_cons, expWord_eq _ _ _ _ hr hb, hw₀,
      ih (fun v hv => hw v (List.mem_cons_of_mem w hv)) _ _ (Nat.mod_lt _ (by positivity))
        (Nat.mod_lt _ (by positivity)),
      Nat.ofDigits_cons, Nat.mul_mod, Nat.mod_mod, ← Nat.pow_mod, ← Nat.mul_mod, ← pow_mul,
      mul_assoc, ← pow_add]

theorem Exp_eq (base exponent : Nat) (hb : base < 2 ^ 256) :
    Exp base exponent = base ^ exponent % 2 ^ 256 := by
  have hw : ∀ w ∈ bigBits exponent, w < 2 ^ wordBits :=
    fun w hw => Nat.digits_lt_base (Nat.one_lt_two_pow (by decide)) hw
  rw [Exp, expWords_eq _ hw 1 base (Nat.one_lt_two_pow (by decide)) hb, bigBits, Nat.ofDigits_digits, one_mul]

theorem byte_of_word (x i k : Nat) (hk : k < 8) :
    (x / (2 ^ 64) ^ i % 2 ^ 64) / 2 ^ (8 * k) % 256 = x / 2 ^ (8 * (8 * i + k)) % 256 := by
  have hsplit : (2 : Nat) ^ 64 = 2 ^ (8 * k) * 2 ^ (64 - 8 * k) := by
    rw [← pow_add]
    congr 1
    omega
  have hdvd : 256 ∣ 2 ^ (64 - 8 * k) := by
    rw [show (256 : Nat) = 2 ^ 8 by norm_num]
    exact Nat.pow_dvd_pow 2 (by omega)
  have hlow : ∀ y, (y % 2 ^ 64) / 2 ^ (8 * k) % 256 = y / 2 ^ (8 * k) % 256 := by
    intro y
    rw [hsplit, Nat.mod_mul_right_div_self, Nat.mod_mod_of_dvd _ hdvd]
  rw [hlow, Nat.div_div_eq_div_mul, ← pow_mul, ← pow_add]
  congr 3
  omega

theorem bigEndianByteAt_eq (bigint n : Nat) : bigEndianByteAt bigint n = bigint / 2 ^ (8 * n) % 256 := by
  have hword : ((bigBits bigint)[n / wordBytes]?).getD 0 = bigint / (2 ^ 64) ^ (n / 8) % 2 ^ 64 := by
    rw [← List.getD_eq_getElem?_getD, bigBits, Nat.getD_digits _ _ (Nat.le_self_pow (by decide) 2)]
    rfl
  have hbyte : ((bigBits bigint)[n / wordBytes]?.getD 0 >>> (8 * (n % wordBytes))) % 256 =
      bigint / 2 ^ (8 * n) % 256 := by
    rw [hword, Nat.shiftRight_eq_div_pow, show wordBytes = 8 from rfl,
      byte_of_word _ _ _ (Nat.mod_lt _ (by decide)), Nat.div_add_mod]
  unfold bigEndianByteAt
  cases hget : (bigBits bigint)[n / wordBytes]? with
  | none =>
    rw [hget] at hbyte
    simpa using hbyte
  | some word =>
    rw [hget] at hbyte
    exact hbyte

def signExtendWord (b x : Nat) : Nat :=
  if b < 31 then
    let t := 8 * b + 7
    if x.testBit t then 2 ^ 256 - 2 ^ t + x % 2 ^ t else x % 2 ^ t
  else x

theorem testBit_signExtendWord {b : Nat} (x : Nat) (hb : b < 31) (i : Nat) :
    (signExtendWord b x).testBit i =
      (decide (i < 256) && if i < 8 * b + 7 then x.testBit i else x.testBit (8 * b + 7)) := by
  have ht : 8 * b + 7 < 256 := by omega
  unfold signExtendWord
  rw [if_pos hb]
  dsimp only
  split
  case isTrue hsign =>
    have hlow : x % 2 ^ (8 * b + 7) < 2 ^ (8 * b + 7) := Nat.mod_lt _ (by positivity)
    have hpow : 2 ^ (8 * b + 7) ≤ 2 ^ 256 := Nat.pow_le_pow_right (by decide) ht.le
    -- the bits from `t` on are the ones of `2^256 - 2^t`, the ones below it those of `x`
    rw [show 2 ^ 256 - 2 ^ (8 * b + 7) + x % 2 ^ (8 * b + 7) =
        2 ^ 256 - ((2 ^ (8 * b + 7) - (x % 2 ^ (8 * b + 7) + 1)) + 1) by omega,
      Nat.testBit_two_pow_sub_succ (by omega), Nat.testBit_two_pow_sub_succ hlow,
      Nat.testBit_mod_two_pow]
    by_cases hi : i < 8 * b + 7 <;> simp [hi, hsign]
  case isFalse hsign =>
    rw [Nat.testBit_mod_two_pow]
    by_cases hi : i < 8 * b + 7
    · simp [hi, show i < 256 by omega]
    · simp [hi, hsign]

theorem signExtendWord_lt (b : Nat) {x : Nat} (hx : x < 2 ^ 256) : signExtendWord b x < 2 ^ 256 := by
  unfold signExtendWord
  split
  case isTrue hb =>
    have hlow : x % 2 ^ (8 * b + 7) < 2 ^ (8 * b + 7) := Nat.mod_lt _ (by positivity)
    have hpow : 2 ^ (8 * b + 7) ≤ 2 ^ 256 := Nat.pow_le_pow_right (by decide) (by omega)
    dsimp only
    split <;> omega
  case isFalse => exact hx

theorem opSignExtend_eq (back num : Nat) (rest : List Nat) :
    opSignExtend (back :: num :: rest) = some (signExtendWord back num :: rest) := by
  rw [opSignExtend]
  by_cases hb : back < 31
  · rw [if_pos hb]
    dsimp only
    have hmask : ((2 : Int) ^ (back * 8 + 7) - 1) = ((2 ^ (8 * back + 7) - 1 : Nat) : Int) := by
      rw [mul_comm back 8]
      have : 1 ≤ 2 ^ (8 * back + 7) := Nat.one_le_two_pow
      push_cast [this]
      rfl
    congr 2
    apply Nat.eq_of_testBit_eq
    intro i
    rw [testBit_U256, testBit_signExtendWord num hb, hmask, mul_comm back 8]
    split
    case isTrue hsign =>
      rw [Int.testBit_lor, Int.testBit_lnot]
      show (decide (i < 256) && (num.testBit i || !(2 ^ (8 * back + 7) - 1).testBit i)) = _
      rw [Nat.testBit_two_pow_sub_one]
      by_cases hi : i < 8 * back + 7 <;> simp [hi, hsign]
    case isFalse hsign =>
      rw [Int.testBit_land]
      show (decide (i < 256) && (num.testBit i && (2 ^ (8 * back + 7) - 1).testBit i)) = _
      rw [Nat.testBit_two_pow_sub_one]
      by_cases hi : i < 8 * back + 7 <;> simp [hi, hsign]
  · rw [if_neg hb]
    simp [signExtendWord, hb]

def sdivWord (x y : Nat) : Nat := if y = 0 then 0 else wordOf ((toSigned x).tdiv (toSigned y))

def smodWord (x y : Nat) : Nat := if y = 0 then 0 else wordOf ((toSigned x).tmod (toSigned y))

def byteWord (i x : Nat) : Nat := if i < 32 then x / 256 ^ (31 - i) % 256 else 0

def ComputesUnary (op : List Nat → Option (List Nat)) (f : Nat → Nat) : Prop :=
  ∀ x rest, x < 2 ^ 256 → op (x :: rest) = some (f x :: rest) ∧ f x < 2 ^ 256

def ComputesBinary (op : List Nat → Option (List Nat)) (f : Nat → Nat → Nat) : Prop :=
  ∀ x y rest, x < 2 ^ 256 → y < 2 ^ 256 →
    op (x :: y :: rest) = some (f x y :: rest) ∧ f x y < 2 ^ 256

def ComputesTernary (op : List Nat → Option (List Nat)) (f : Nat → Nat → Nat → Nat) : Prop :=
  ∀ x y z rest, x < 2 ^ 256 → y < 2 ^ 256 → z < 2 ^ 256 →
    op (x :: y :: z :: rest) = some (f x y z :: rest) ∧ f x y z < 2 ^ 256

theorem unaryOp_computes {g f : Nat → Nat} (h : ∀ x, x < 2 ^ 256 → g x = f x ∧ f x < 2 ^ 256) :
    ComputesUnary (unaryOp g) f := by
  intro x rest hx
  obtain ⟨heq, hlt⟩ := h x hx
  exact ⟨by rw [unaryOp, heq], hlt⟩

theorem binaryOp_computes {g f : Nat → Nat → Nat}
    (h : ∀ x y, x < 2 ^ 256 → y < 2 ^ 256 → g x y = f x y ∧ f x y < 2 ^ 256) :
    ComputesBinary (binaryOp g) f := by
  intro x y rest hx hy
  obtain ⟨heq, hlt⟩ := h x y hx hy
  exact ⟨by rw [binaryOp, heq], hlt⟩

theorem ternaryOp_computes {g f : Nat → Nat → Nat → Nat}
    (h : ∀ x y z, x < 2 ^ 256 → y < 2 ^ 256 → z < 2 ^ 256 → g x y z = f x y z ∧ f x y z < 2 ^ 256) :
    ComputesTernary (ternaryOp g) f := by
  intro x y z rest hx hy hz
  obtain ⟨heq, hlt⟩ := h x y z hx hy hz
  exact ⟨by rw [ternaryOp, heq], hlt⟩

theorem comparison_computes (p : Nat → Nat → Prop) [DecidableRel p] :
    ComputesBinary (binaryOp fun x y => if p x y then 1 else 0) fun x y => if p x y then 1 else 0 :=
  binaryOp_computes fun _ _ _ _ => ⟨rfl, by split <;> norm_num⟩

theorem opAdd_computes : ComputesBinary opAdd fun x y => (x + y) % 2 ^ 256 :=
  binaryOp_computes fun x y _ _ => ⟨by rw [← Nat.cast_add, U256_natCast], Nat.mod_lt _ (by positivity)⟩

theorem opSub_computes : ComputesBinary opSub fun x y => (x + (2 ^ 256 - y)) % 2 ^ 256 :=
  binaryOp_computes fun x y _ hy =>
    ⟨by rw [U256_eq_wordOf, wordOf]; omega, Nat.mod_lt _ (by positivity)⟩

theorem opMul_computes : ComputesBinary opMul fun x y => x * y % 2 ^ 256 :=
  binaryOp_computes fun x y _ _ => ⟨by rw [← Nat.cast_mul, U256_natCast], Nat.mod_lt _ (by positivity)⟩

theorem opDiv_computes : ComputesBinary opDiv fun x y => x / y := by
  refine binaryOp_computes fun x y hx _ => ⟨?_, lt_of_le_of_lt (Nat.div_le_self x y) hx⟩
  by_cases hy : y = 0
  · simp [hy]
  · rw [if_pos hy, ← Int.natCast_ediv, U256_natCast,
      Nat.mod_eq_of_lt (lt_of_le_of_lt (Nat.div_le_self x y) hx)]

theorem opMod_computes : ComputesBinary opMod fun x y => if y = 0 then 0 else x % y := by
  refine binaryOp_computes fun x y hx _ => ⟨?_, ?_⟩
  · split
    · rfl
    · rw [← Int.natCast_emod, U256_natCast, Nat.mod_eq_of_lt (lt_of_le_of_lt (Nat.mod_le x y) hx)]
  · split
    · positivity
    · exact lt_of_le_of_lt (Nat.mod_le x y) hx

theorem signedOp_eq {x y : Nat} (hx : x < 2 ^ 256) (hy : y < 2 ^ 256) (f g : Int → Int → Int)
    (hfg : ∀ a b, f a b = g a b) :
    (if S256 y = 0 then 0 else U256 (f (S256 x) (S256 y))) =
      if y = 0 then 0 else wordOf (g (toSigned x) (toSigned y)) := by
  rw [S256_eq_toSigned hx, S256_eq_toSigned hy]
  by_cases hy₀ : y = 0
  · rw [if_pos ((toSigned_eq_zero_iff hy).mpr hy₀), if_pos hy₀]
  · rw [if_neg (mt (toSigned_eq_zero_iff hy).mp hy₀), if_neg hy₀, U256_eq_wordOf, hfg]

theorem zero_or_wordOf_lt (c : Prop) [Decidable c] (v : Int) : (if c then 0 else wordOf v) < 2 ^ 256 := by
  split
  · positivity
  · exact wordOf_lt v

theorem opSdiv_computes : ComputesBinary opSdiv sdivWord :=
  binaryOp_computes fun _ _ hx hy =>
    ⟨signedOp_eq hx hy (fun a b => ((a.natAbs / b.natAbs : Nat) : Int) * if a * b < 0 then -1 else 1)
      Int.tdiv natAbs_div_mul_sign, zero_or_wordOf_lt _ _⟩

theorem opSmod_computes : ComputesBinary opSmod smodWord :=
  binaryOp_computes fun _ _ hx hy =>
    ⟨signedOp_eq hx hy (fun a b => ((a.natAbs % b.natAbs : Nat) : Int) * if a < 0 then -1 else 1)
      Int.tmod natAbs_mod_mul_sign, zero_or_wordOf_lt _ _⟩

theorem modOp_eq {z : Nat} (hz : z < 2 ^ 256) (n : Nat) :
    ((if z > 0 then U256 ((n : Int) % z) else 0) = if z = 0 then 0 else n % z) ∧
      (if z = 0 then 0 else n % z) < 2 ^ 256 := by
  by_cases hz₀ : z = 0
  · simp [hz₀]
  · have hlt : n % z < 2 ^ 256 := lt_trans (Nat.mod_lt _ (Nat.pos_of_ne_zero hz₀)) hz
    rw [if_pos (Nat.pos_of_ne_zero hz₀), if_neg hz₀, ← Int.natCast_emod, U256_natCast,
      Nat.mod_eq_of_lt hlt]
    exact ⟨rfl, hlt⟩

theorem opAddmod_computes :
    ComputesTernary opAddmod fun x y z => if z = 0 then 0 else (x + y) % z :=
  ternaryOp_computes fun x y _ _ _ hz => modOp_eq hz (x + y)

theorem opMulmod_computes :
    ComputesTernary opMulmod fun x y z => if z = 0 then 0 else x * y % z :=
  ternaryOp_computes fun x y _ _ _ hz => modOp_eq hz (x * y)

theorem opExp_computes : ComputesBinary opExp fun x y => x ^ y % 2 ^ 256 :=
  binaryOp_computes fun x y hx _ => ⟨Exp_eq x y hx, Nat.mod_lt _ (by positivity)⟩

theorem opSignExtend_computes : ComputesBinary opSignExtend signExtendWord :=
  fun x y rest _ hy => ⟨opSignExtend_eq x y rest, signExtendWord_lt x hy⟩

theorem opByte_computes : ComputesBinary opByte byteWord := by
  refine binaryOp_computes fun th val _ _ => ⟨?_, ?_⟩
  · unfold byteWord
    split
    case isTrue hth =>
      rw [Byte, if_neg (by omega), bigEndianByteAt_eq, pow_mul]
      rfl
    case isFalse => rfl
  · unfold byteWord
    split
    · exact lt_trans (Nat.mod_lt _ (by norm_num)) (by norm_num)
    · positivity

theorem opNot_computes : ComputesUnary opNot fun x => 2 ^ 256 - 1 - x :=
  unaryOp_computes fun x hx => by
    refine ⟨?_, by omega⟩
    show U256 (Int.negSucc x) = _
    rw [U256_eq_wordOf, wordOf_negSucc, Nat.mod_eq_of_lt hx]
    omega

theorem opLt_computes : ComputesBinary opLt fun x y => if x < y then 1 else 0 :=
  comparison_computes fun x y => x < y

theorem opGt_computes : ComputesBinary opGt fun x y => if x > y then 1 else 0 :=
  comparison_computes fun x y => x > y

theorem opEq_computes : ComputesBinary opEq fun x y => if x = y then 1 else 0 :=
  comparison_computes fun x y => x = y

theorem opSlt_computes : ComputesBinary opSlt fun x y => if toSigned x < toSigned y then 1 else 0 := by
  refine binaryOp_computes fun x y hx hy => ⟨?_, by split <;> norm_num⟩
  dsimp only
  rw [S256_eq_toSigned hx, S256_eq_toSigned hy, S256_of_lt (toSigned_lt y)]

theorem opSgt_computes : ComputesBinary opSgt fun x y => if toSigned x > toSigned y then 1 else 0 := by
  refine binaryOp_computes fun x y hx hy => ⟨?_, by split <;> norm_num⟩
  rw [S256_eq_toSigned hx, S256_eq_toSigned hy]

theorem opIszero_computes : ComputesUnary opIszero fun x => if x = 0 then 1 else 0 := by
  refine unaryOp_computes fun x _ => ⟨?_, by split <;> norm_num⟩
  by_cases hx₀ : x = 0 <;> simp [hx₀, Nat.pos_of_ne_zero]

theorem opAnd_computes : ComputesBinary opAnd fun x y => x &&& y :=
  binaryOp_computes fun _ _ hx _ => ⟨rfl, lt_of_le_of_lt Nat.and_le_left hx⟩

theorem opOr_computes : ComputesBinary opOr fun x y => x ||| y :=
  binaryOp_computes fun _ _ hx hy => ⟨rfl, Nat.or_lt_two_pow hx hy⟩

theorem opXor_computes : ComputesBinary opXor fun x y => x ^^^ y :=
  binaryOp_computes fun _ _ hx hy => ⟨rfl, Nat.xor_lt_two_pow hx hy⟩

theorem wordInstructions_match_yellowPaper :
    ComputesBinary opAdd (fun x y => (x + y) % 2 ^ 256) ∧
    ComputesBinary opSub (fun x y => (x + (2 ^ 256 - y)) % 2 ^ 256) ∧
    ComputesBinary opMul (fun x y => x * y % 2 ^ 256) ∧
    ComputesBinary opDiv (fun x y => x / y) ∧
    ComputesBinary opSdiv sdivWord ∧
    ComputesBinary opMod (fun x y => if y = 0 then 0 else x % y) ∧
    ComputesBinary opSmod smodWord ∧
    ComputesTernary opAddmod (fun x y z => if z = 0 then 0 else (x + y) % z) ∧
    ComputesTernary opMulmod (fun x y z => if z = 0 then 0 else x * y % z) ∧
    ComputesBinary opExp (fun x y => x ^ y % 2 ^ 256) ∧
    ComputesBinary opSignExtend signExtendWord ∧
    ComputesBinary opByte byteWord ∧
    ComputesBinary opLt (fun x y => if x < y then 1 else 0) ∧
    ComputesBinary opGt (fun x y => if x > y then 1 else 0) ∧
    ComputesBinary opSlt (fun x y => if toSigned x < toSigned y then 1 else 0) ∧
    ComputesBinary opSgt (fun x y => if toSigned x > toSigned y then 1 else 0) ∧
    ComputesBinary opEq (fun x y => if x = y then 1 else 0) ∧
    ComputesUnary opIszero (fun x => if x = 0 then 1 else 0) ∧
    ComputesBinary opAnd (fun x y => x &&& y) ∧
    ComputesBinary opOr (fun x y => x ||| y) ∧
    ComputesBinary opXor (fun x y => x ^^^ y) ∧
    ComputesUnary opNot (fun x => 2 ^ 256 - 1 - x) :=
  ⟨opAdd_computes, opSub_computes, opMul_computes, opDiv_computes, opSdiv_computes,
    opMod_computes, opSmod_computes, opAddmod_computes, opMulmod_computes, opExp_computes,
    opSignExtend_computes, opByte_computes, opLt_computes, opGt_computes, opSlt_computes,
    opSgt_computes, opEq_computes, opIszero_computes, opAnd_computes, opOr_computes,
    opXor_computes, opNot_computes⟩

/-- `-2^255 / -1` overflows back to `-2^255`, `2^256` is `0` and `0xff` extends to `-1`. -/
theorem wordInstructions_match_yellowPaper_corners :
    opSdiv [2 ^ 255, 2 ^ 256 - 1] = some [2 ^ 255] ∧ opExp [2, 256] = some [0] ∧
      opSignExtend [0, 0xff] = some [2 ^ 256 - 1] :=
  ⟨(wordInstructions_match_yellowPaper.2.2.2.2.1 (2 ^ 255) (2 ^ 256 - 1) [] (by norm_num)
      (by norm_num)).1.trans (by decide),
    (wordInstructions_match_yellowPaper.2.2.2.2.2.2.2.2.2.1 2 256 [] (by norm_num)
      (by norm_num)).1.trans (by decide),
    (wordInstructions_match_yellowPaper.2.2.2.2.2.2.2.2.2.2.1 0 0xff [] (by norm_num)
      (by norm_num)).1.trans (by decide)⟩

end Zerium.Vm
