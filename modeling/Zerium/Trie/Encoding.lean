import Mathlib

/-! # Key encodings of `encoding.go`

Keys come as key bytes, as hex nibbles with an optional terminator `16`, and in the
compact (hex-prefix) encoding stored on disk. Functions that index past the end of a slice
in the source panic; here they return `none`.
-/

namespace Zerium.Trie

set_option autoImplicit false

/-- `hasTerm`: the hex key ends with the terminator `16`. -/
def hasTerm (s : List UInt8) : Bool := s.getLast? == some 16

def keybytesToHex (str : List UInt8) : List UInt8 :=
  str.flatMap (fun b => [b / 16, b % 16]) ++ [16]

def decodeNibbles : List UInt8 → List UInt8
  | n₁ :: n₂ :: rest => (n₁ <<< 4 ||| n₂) :: decodeNibbles rest
  | _ => []

def hexToCompact (hex : List UInt8) : List UInt8 :=
  let terminator : UInt8 := if hasTerm hex then 1 else 0
  let hex := if hasTerm hex then hex.dropLast else hex
  match hex.length % 2, hex with
  -- odd flag, and the first nibble in the flag byte
  | 1, n :: rest => (terminator <<< 5 ||| (1 : UInt8) <<< 4 ||| n) :: decodeNibbles rest
  | _, hex => (terminator <<< 5) :: decodeNibbles hex

/-- `compactToHex`; `base[0]` of the empty key is an index out of range. -/
def compactToHex (compact : List UInt8) : Option (List UInt8) :=
  match (keybytesToHex compact).dropLast with
  | [] => none
  | b₀ :: base =>
    -- apply terminator flag
    let base := if b₀ ≥ 2 then b₀ :: base ++ [16] else b₀ :: base
    -- apply odd flag
    let chop := 2 - (b₀ &&& 1)
    some (base.drop chop.toNat)

/-- `hexToKeybytes`; it panics on a key of odd length. -/
def hexToKeybytes (hex : List UInt8) : Option (List UInt8) :=
  let hex := if hasTerm hex then hex.dropLast else hex
  if hex.length % 2 ≠ 0 then none else some (decodeNibbles hex)

def prefixLen : List UInt8 → List UInt8 → Nat
  | a :: as, b :: bs => if a = b then prefixLen as bs + 1 else 0
  | _, _ => 0

/-! ## Nibble keys -/

def Nibbles (k : List UInt8) : Prop := ∀ x ∈ k, x < 16

def HexKey (k : List UInt8) : Prop := Nibbles k ∨ ∃ k', k = k' ++ [16] ∧ Nibbles k'

theorem Nibbles.nil : Nibbles [] := fun _ h => absurd h List.not_mem_nil

theorem Nibbles.cons {x : UInt8} {k : List UInt8} (hx : x < 16) (hk : Nibbles k) :
    Nibbles (x :: k) := by
  intro y hy
  rcases List.mem_cons.mp hy with rfl | hy
  · exact hx
  · exact hk y hy

theorem Nibbles.append {k k' : List UInt8} (hk : Nibbles k) (hk' : Nibbles k') :
    Nibbles (k ++ k') := by
  intro y hy
  rcases List.mem_append.mp hy with hy | hy
  · exact hk y hy
  · exact hk' y hy

theorem Nibbles.of_cons {x : UInt8} {k : List UInt8} (h : Nibbles (x :: k)) :
    x < 16 ∧ Nibbles k :=
  ⟨h x List.mem_cons_self, fun y hy => h y (List.mem_cons_of_mem x hy)⟩

theorem Nibbles.of_append {k k' : List UInt8} (h : Nibbles (k ++ k')) : Nibbles k ∧ Nibbles k' :=
  ⟨fun y hy => h y (List.mem_append_left k' hy), fun y hy => h y (List.mem_append_right k hy)⟩

theorem Nibbles.take {k : List UInt8} (h : Nibbles k) (n : Nat) : Nibbles (k.take n) :=
  fun y hy => h y (List.mem_of_mem_take hy)

theorem Nibbles.drop {k : List UInt8} (h : Nibbles k) (n : Nat) : Nibbles (k.drop n) :=
  fun y hy => h y (List.mem_of_mem_drop hy)

theorem hasTerm_append_term (k : List UInt8) : hasTerm (k ++ [16]) = true := by
  simp [hasTerm]

theorem hasTerm_of_nibbles {k : List UInt8} (h : Nibbles k) : hasTerm k = false := by
  cases hk : k.getLast? with
  | none => simp [hasTerm, hk]
  | some x =>
    have hx := h x (List.mem_of_getLast? hk)
    have : x ≠ 16 := by intro h16; subst h16; exact absurd hx (by decide)
    simp [hasTerm, hk, this]

theorem nibbles_keybytes (str : List UInt8) :
    Nibbles (str.flatMap (fun b => [b / 16, b % 16])) := by
  intro y hy
  obtain ⟨b, -, hb⟩ := List.mem_flatMap.mp hy
  simp only [List.mem_cons, List.not_mem_nil, or_false] at hb
  have hb256 := b.toNat_lt
  rcases hb with rfl | rfl
  · exact UInt8.lt_iff_toNat_lt.mpr (by simp [UInt8.toNat_div]; omega)
  · exact UInt8.lt_iff_toNat_lt.mpr (by simp [UInt8.toNat_mod]; omega)

theorem keybytesToHex_eq (str : List UInt8) :
    ∃ k, keybytesToHex str = k ++ [16] ∧ Nibbles k ∧ k.length = 2 * str.length := by
  refine ⟨_, rfl, nibbles_keybytes str, ?_⟩
  induction str with
  | nil => rfl
  | cons b str ih =>
    simp only [List.flatMap_cons, List.length_append, List.length_cons, List.length_nil] at ih ⊢
    omega

theorem hexKey_keybytesToHex (str : List UInt8) : HexKey (keybytesToHex str) :=
  .inr ⟨_, rfl, nibbles_keybytes str⟩

/-! ## The compact encoding inverts -/

theorem decodeNibbles_append_pair (k : List UInt8) (n₁ n₂ : UInt8) (hk : k.length % 2 = 0) :
    decodeNibbles (k ++ [n₁, n₂]) = decodeNibbles k ++ [n₁ <<< 4 ||| n₂] := by
  induction k using List.twoStepInduction with
  | nil => rfl
  | singleton x => simp at hk
  | cons_cons a b k ih =>
    simp only [List.cons_append, decodeNibbles, List.cons.injEq, true_and]
    exact ih (by simp only [List.length_cons] at hk; omega)

theorem nibbles_of_byte (n₁ n₂ : UInt8) (h₁ : n₁ < 16) (h₂ : n₂ < 16) :
    (n₁ <<< 4 ||| n₂) / 16 = n₁ ∧ (n₁ <<< 4 ||| n₂) % 16 = n₂ := by
  -- checked over all pairs of nibbles
  have key : ∀ a b : Fin 16,
      (UInt8.ofNat a.val <<< 4 ||| UInt8.ofNat b.val) / 16 = UInt8.ofNat a.val ∧
      (UInt8.ofNat a.val <<< 4 ||| UInt8.ofNat b.val) % 16 = UInt8.ofNat b.val := by decide
  have ha : n₁ = UInt8.ofNat (⟨n₁.toNat, by simpa [UInt8.lt_iff_toNat_lt] using h₁⟩ : Fin 16).val := by
    simp
  have hb : n₂ = UInt8.ofNat (⟨n₂.toNat, by simpa [UInt8.lt_iff_toNat_lt] using h₂⟩ : Fin 16).val := by
    simp
  rw [ha, hb]
  exact key _ _

theorem keybytesToHex_decodeNibbles (k : List UInt8) (hk : Nibbles k) (he : k.length % 2 = 0) :
    keybytesToHex (decodeNibbles k) = k ++ [16] := by
  induction k using List.twoStepInduction with
  | nil => rfl
  | singleton x => simp at he
  | cons_cons a b k ih =>
    obtain ⟨ha, hk'⟩ := hk.of_cons
    obtain ⟨hb, hk''⟩ := hk'.of_cons
    have hrec := ih hk'' (by simp only [List.length_cons] at he; omega)
    obtain ⟨h₁, h₂⟩ := nibbles_of_byte a b ha hb
    simp only [keybytesToHex, decodeNibbles, List.flatMap_cons, h₁, h₂] at hrec ⊢
    rw [List.append_assoc, hrec]
    rfl

theorem nibbles_of_flag (t n : UInt8) (ht : t < 2) (hn : n < 16) :
    (t <<< 5 ||| (1 : UInt8) <<< 4 ||| n) / 16 = 2 * t + 1 ∧
      (t <<< 5 ||| (1 : UInt8) <<< 4 ||| n) % 16 = n := by
  have key : ∀ a : Fin 2, ∀ b : Fin 16,
      (UInt8.ofNat a.val <<< 5 ||| (1 : UInt8) <<< 4 ||| UInt8.ofNat b.val) / 16 =
        2 * UInt8.ofNat a.val + 1 ∧
      (UInt8.ofNat a.val <<< 5 ||| (1 : UInt8) <<< 4 ||| UInt8.ofNat b.val) % 16 =
        UInt8.ofNat b.val := by decide
  have ha : t = UInt8.ofNat (⟨t.toNat, by simpa [UInt8.lt_iff_toNat_lt] using ht⟩ : Fin 2).val := by
    simp
  have hb : n = UInt8.ofNat (⟨n.toNat, by simpa [UInt8.lt_iff_toNat_lt] using hn⟩ : Fin 16).val := by
    simp
  rw [ha, hb]
  exact key _ _

theorem dropLast_keybytesToHex_cons (f : UInt8) (k : List UInt8) (hk : Nibbles k)
    (he : k.length % 2 = 0) :
    (keybytesToHex (f :: decodeNibbles k)).dropLast = f / 16 :: f % 16 :: k := by
  have h := keybytesToHex_decodeNibbles k hk he
  simp only [keybytesToHex, List.flatMap_cons] at h ⊢
  rw [List.append_assoc, h, ← List.append_assoc, List.dropLast_concat]
  rfl

theorem compactToHex_cons (f : UInt8) (k : List UInt8) (hk : Nibbles k) (he : k.length % 2 = 0) :
    compactToHex (f :: decodeNibbles k) =
      some (((if f / 16 ≥ 2 then f / 16 :: f % 16 :: k ++ [16] else f / 16 :: f % 16 :: k)).drop
        (2 - (f / 16 &&& 1)).toNat) := by
  unfold compactToHex
  rw [dropLast_keybytesToHex_cons f k hk he]

theorem compactToHex_even (k : List UInt8) (hk : Nibbles k) (he : k.length % 2 = 0) (t : UInt8)
    (ht : t = 0 ∨ t = 1) :
    compactToHex ((t <<< 5) :: decodeNibbles k) = some (if t = 1 then k ++ [16] else k) := by
  rw [compactToHex_cons _ k hk he]
  rcases ht with rfl | rfl
  · simp [show ((0 : UInt8) <<< 5) = 0 from by decide]
  · simp [show ((1 : UInt8) <<< 5) / 16 = 2 from by decide,
      show ((1 : UInt8) <<< 5) % 16 = 0 from by decide, show ((2 : UInt8) &&& 1) = 0 from by decide]

theorem compactToHex_odd (n : UInt8) (rest : List UInt8) (hn : n < 16) (hk : Nibbles rest)
    (he : rest.length % 2 = 0) (t : UInt8) (ht : t = 0 ∨ t = 1) :
    compactToHex ((t <<< 5 ||| (1 : UInt8) <<< 4 ||| n) :: decodeNibbles rest) =
      some (if t = 1 then n :: rest ++ [16] else n :: rest) := by
  have hflag := nibbles_of_flag t n (by rcases ht with rfl | rfl <;> decide) hn
  rw [compactToHex_cons _ rest hk he, hflag.1, hflag.2]
  rcases ht with rfl | rfl
  · simp
  · simp [show ((3 : UInt8) &&& 1) = 1 from by decide]

theorem compactToHex_eq_none_iff (compact : List UInt8) :
    compactToHex compact = none ↔ compact = [] := by
  cases compact with
  | nil => simp [compactToHex, keybytesToHex]
  | cons f k =>
    -- the nibbles of the flag byte are left when the terminator is dropped
    have hbase : (keybytesToHex (f :: k)).dropLast =
        f / 16 :: f % 16 :: k.flatMap (fun b => [b / 16, b % 16]) := by
      rw [keybytesToHex, List.dropLast_concat, List.flatMap_cons]
      rfl
    simp [compactToHex, hbase]

theorem compactToHex_hexToCompact (h : List UInt8) (hh : HexKey h) :
    compactToHex (hexToCompact h) = some h := by
  -- `k` is the key without terminator, `t` the terminator flag
  obtain ⟨k, t, hk, ht, hterm, hflag, hh⟩ : ∃ k t, Nibbles k ∧ (t = 0 ∨ t = 1) ∧
      (if hasTerm h then h.dropLast else h) = k ∧ (if hasTerm h then (1 : UInt8) else 0) = t ∧
      h = if t = 1 then k ++ [16] else k := by
    rcases hh with hk | ⟨k, rfl, hk⟩
    · exact ⟨h, 0, hk, .inl rfl, by rw [hasTerm_of_nibbles hk]; rfl,
        by rw [hasTerm_of_nibbles hk]; rfl, by simp⟩
    · exact ⟨k, 1, hk, .inr rfl, by rw [hasTerm_append_term]; simp,
        by rw [hasTerm_append_term]; rfl, by simp⟩
  unfold hexToCompact
  simp only [hterm, hflag]
  rw [hh]
  split
  · -- an odd key has a first nibble, which goes into the flag byte
    rename_i n rest ho
    obtain ⟨hn, hrest⟩ := hk.of_cons
    exact compactToHex_odd n rest hn hrest (by simp at ho; omega) t ht
  · rename_i k _ _ hnot
    have he : k.length % 2 = 0 := by
      rcases Nat.mod_two_eq_zero_or_one k.length with he | ho
      · exact he
      · cases k with
        | nil => simp at ho
        | cons n rest => exact absurd rfl (hnot n rest ho)
    exact compactToHex_even k hk he t ht

/-! ## Key bytes round trip -/

theorem byte_of_nibbles (b : UInt8) : (b / 16) <<< 4 ||| b % 16 = b := by
  have key : ∀ a : Fin 256,
      (UInt8.ofNat a.val / 16) <<< 4 ||| UInt8.ofNat a.val % 16 = UInt8.ofNat a.val := by
    decide +kernel
  simpa using key ⟨b.toNat, b.toNat_lt⟩

theorem decodeNibbles_keybytes (str : List UInt8) :
    decodeNibbles (str.flatMap fun b => [b / 16, b % 16]) = str := by
  induction str with
  | nil => rfl
  | cons b str ih =>
    rw [List.flatMap_cons, List.cons_append, List.cons_append, List.nil_append, decodeNibbles, ih,
      byte_of_nibbles]

theorem hexToKeybytes_keybytesToHex (str : List UInt8) :
    hexToKeybytes (keybytesToHex str) = some str := by
  obtain ⟨k, hk, -, hlen⟩ := keybytesToHex_eq str
  have hdrop : (keybytesToHex str).dropLast = str.flatMap fun b => [b / 16, b % 16] := by
    rw [keybytesToHex, List.dropLast_concat]
  unfold hexToKeybytes
  rw [hk, hasTerm_append_term, if_pos rfl, ← hk, hdrop]
  have heven : (str.flatMap fun b => [b / 16, b % 16]).length % 2 = 0 := by
    rw [← hdrop, hk, List.dropLast_concat, hlen]
    omega
  rw [if_neg (by omega), decodeNibbles_keybytes]

/-- Both encodings invert, and the terminator of `keybytesToHex` is its last element only. -/
theorem keyEncodings_round_trip :
    (∀ h, HexKey h → compactToHex (hexToCompact h) = some h) ∧
      ∀ k : List UInt8, hexToKeybytes (keybytesToHex k) = some k ∧
        ∃ nibbles, keybytesToHex k = nibbles ++ [16] ∧ (16 : UInt8) ∉ nibbles := by
  refine ⟨compactToHex_hexToCompact, fun k => ⟨hexToKeybytes_keybytesToHex k, ?_⟩⟩
  obtain ⟨nibbles, hk, hnib, -⟩ := keybytesToHex_eq k
  refine ⟨nibbles, hk, fun h16 => ?_⟩
  exact absurd (hnib 16 h16) (by decide)

/-! ## Common prefixes -/

theorem prefixLen_cons_cons (x y : UInt8) (as bs : List UInt8) :
    prefixLen (x :: as) (y :: bs) = if x = y then prefixLen as bs + 1 else 0 := by
  rw [prefixLen]

@[simp] theorem prefixLen_nil_left (b : List UInt8) : prefixLen [] b = 0 := by
  cases b <;> rfl

@[simp] theorem prefixLen_nil_right (a : List UInt8) : prefixLen a [] = 0 := by
  cases a <;> rfl

theorem prefixLen_le_left (a b : List UInt8) : prefixLen a b ≤ a.length := by
  induction a generalizing b with
  | nil => simp
  | cons x as ih =>
    cases b with
    | nil => simp
    | cons y bs =>
      rw [prefixLen_cons_cons]
      split
      · simpa using ih bs
      · simp

theorem prefixLen_le_right (a b : List UInt8) : prefixLen a b ≤ b.length := by
  induction a generalizing b with
  | nil => simp
  | cons x as ih =>
    cases b with
    | nil => simp
    | cons y bs =>
      rw [prefixLen_cons_cons]
      split
      · simpa using ih bs
      · simp

theorem take_prefixLen (a b : List UInt8) : a.take (prefixLen a b) = b.take (prefixLen a b) := by
  induction a generalizing b with
  | nil => simp
  | cons x as ih =>
    cases b with
    | nil => simp
    | cons y bs =>
      rw [prefixLen_cons_cons]
      split
      · rename_i hxy
        simp [hxy, ih bs]
      · simp

theorem prefixLen_eq_right_iff (a b : List UInt8) : prefixLen a b = b.length ↔ b <+: a := by
  induction a generalizing b with
  | nil => cases b <;> simp
  | cons x as ih =>
    cases b with
    | nil => simp
    | cons y bs =>
      rw [prefixLen_cons_cons, List.cons_prefix_cons]
      split
      · rename_i hxy
        simp [hxy, ih bs]
      · rename_i hxy
        simp only [List.length_cons]
        constructor
        · omega
        · rintro ⟨rfl, -⟩
          exact absurd rfl hxy

theorem getElem_prefixLen_ne (a b : List UInt8) (ha : prefixLen a b < a.length)
    (hb : prefixLen a b < b.length) : a[prefixLen a b] ≠ b[prefixLen a b] := by
  induction a generalizing b with
  | nil => simp at ha
  | cons x as ih =>
    cases b with
    | nil => simp at hb
    | cons y bs =>
      by_cases hxy : x = y
      · have hp : prefixLen (x :: as) (y :: bs) = prefixLen as bs + 1 := by
          rw [prefixLen_cons_cons, if_pos hxy]
        simp only [hp, List.length_cons, Nat.add_lt_add_iff_right, List.getElem_cons_succ] at ha hb ⊢
        exact ih bs ha hb
      · have hp : prefixLen (x :: as) (y :: bs) = 0 := by
          rw [prefixLen_cons_cons, if_neg hxy]
        simpa [hp] using hxy

theorem prefixLen_comm (a b : List UInt8) : prefixLen a b = prefixLen b a := by
  induction a generalizing b with
  | nil => simp
  | cons x as ih =>
    cases b with
    | nil => simp
    | cons y bs =>
      rw [prefixLen_cons_cons, prefixLen_cons_cons, ih bs]
      by_cases hxy : x = y
      · simp [hxy]
      · simp [hxy, Ne.symm hxy]

theorem prefixLen_append_cons (c : List UInt8) (x y : UInt8) (as bs : List UInt8) (hxy : x ≠ y) :
    prefixLen (c ++ x :: as) (c ++ y :: bs) = c.length := by
  induction c with
  | nil => simp [prefixLen_cons_cons, hxy]
  | cons z c ih => simp [prefixLen_cons_cons, ih]

theorem prefixLen_split (a b : List UInt8) (ha : prefixLen a b < a.length)
    (hb : prefixLen a b < b.length) :
    ∃ c x y as bs, a = c ++ x :: as ∧ b = c ++ y :: bs ∧ x ≠ y := by
  refine ⟨a.take (prefixLen a b), a[prefixLen a b], b[prefixLen a b], a.drop (prefixLen a b + 1),
    b.drop (prefixLen a b + 1), ?_, ?_, getElem_prefixLen_ne a b ha hb⟩
  · rw [← List.drop_eq_getElem_cons ha, List.take_append_drop]
  · rw [take_prefixLen, ← List.drop_eq_getElem_cons hb, List.take_append_drop]

end Zerium.Trie
