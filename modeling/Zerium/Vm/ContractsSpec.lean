import Zerium.Vm.Contracts
import Zerium.Abi.RoundTrip

/-! # The MODEXP precompile panics on an affordable input

`RequiredGas` never panics, but `Run` does: an exponent length of `2^64 - 1` after a base
length of `1` costs `(8 * (2^64 - 1 - 32)) / 20` gas, less than `2^63`, and its slice in `Run`
ends at `start + 2^64 - 1`, which wraps around to just below `start`. Go panics there instead of
returning the power padded to the modulus length.
-/

namespace Zerium.Vm

set_option autoImplicit false

open BigEndian

theorem goInt_of_lt {x : UInt64} (hx : x.toNat < 2 ^ 63) : goInt x = x.toNat := by
  unfold goInt
  rw [if_pos hx]

theorem getData_window {data : List UInt8} {start size : UInt64} (hlen : data.length < 2 ^ 63)
    (hin : start.toNat + size.toNat ≤ data.length) :
    getData data start size = some ((data.drop start.toNat).take size.toNat) := by
  have hL : (UInt64.ofNat data.length).toNat = data.length := by
    rw [UInt64.toNat_ofNat']
    omega
  have hsum : (start + size).toNat = start.toNat + size.toNat := by
    rw [UInt64.toNat_add]
    omega
  have hstart : ¬ start > UInt64.ofNat data.length := by
    rw [GT.gt, UInt64.lt_iff_toNat_lt, hL]
    omega
  have hend : ¬ start + size > UInt64.ofNat data.length := by
    rw [GT.gt, UInt64.lt_iff_toNat_lt, hL, hsum]
    omega
  have hle : start ≤ start + size := by
    rw [UInt64.le_iff_toNat_le, hsum]
    omega
  unfold getData
  simp only [if_neg hstart, if_neg hend, if_pos hle, hsum, goInt_of_lt (by omega : size.toNat < 2 ^ 63),
    Int.toNat_natCast, List.drop_take, Nat.add_sub_cancel_left]
  rw [Abi.rightPadBytes, if_pos]
  rw [List.length_take, List.length_drop]
  omega

theorem getData_isSome {data : List UInt8} {start size : UInt64} (hlen : data.length < 2 ^ 63)
    (hfit : min start.toNat data.length + size.toNat < 2 ^ 64) : (getData data start size).isSome := by
  have hL : (UInt64.ofNat data.length).toNat = data.length := by
    rw [UInt64.toNat_ofNat']
    omega
  unfold getData
  dsimp only
  rw [if_pos]
  · rfl
  · split <;> split
    all_goals
      rename_i h₁ h₂
      simp only [GT.gt, UInt64.lt_iff_toNat_lt, hL, UInt64.toNat_add] at h₁ h₂
      simp only [UInt64.le_iff_toNat_le, hL, UInt64.toNat_add]
      omega

theorem getData_wraps {data : List UInt8} {start : UInt64} (hlen : data.length < 2 ^ 63)
    (hstart : 1 ≤ start.toNat) (hdata : 1 ≤ data.length) : getData data start MaxUint64 = none := by
  have hL : (UInt64.ofNat data.length).toNat = data.length := by
    rw [UInt64.toNat_ofNat']
    omega
  have hmax : MaxUint64.toNat = 2 ^ 64 - 1 := rfl
  unfold getData
  dsimp only
  rw [if_neg]
  split <;> split
  all_goals
    rename_i h₁ h₂
    simp only [GT.gt, UInt64.lt_iff_toNat_lt, hL, UInt64.toNat_add, hmax] at h₁ h₂
    simp only [UInt64.le_iff_toNat_le, hL, UInt64.toNat_add, hmax]
    omega

def modExpInput (baseLen expLen modLen : Nat) (data : List UInt8) : List UInt8 :=
  Abi.leftPadBytes (ofNat baseLen) 32 ++ Abi.leftPadBytes (ofNat expLen) 32 ++
    Abi.leftPadBytes (ofNat modLen) 32 ++ data

theorem length_word {n : Nat} (hn : n < 2 ^ 256) : (Abi.leftPadBytes (ofNat n) 32).length = 32 := by
  have hlen : (ofNat n).length ≤ 32 := (length_ofNat_le_iff n 32).mpr (by norm_num at hn ⊢; omega)
  rw [Abi.leftPadBytes_of_le hlen, List.length_append, List.length_replicate]
  omega

theorem toNat_word (n : Nat) (hn : n < 2 ^ 256) : BigEndian.toNat (Abi.leftPadBytes (ofNat n) 32) = n := by
  have hlen : (ofNat n).length ≤ 32 := (length_ofNat_le_iff n 32).mpr (by norm_num at hn ⊢; omega)
  rw [Abi.leftPadBytes_of_le hlen, toNat_replicate_zero_append, toNat_ofNat]

theorem getData_modExpInput {b e m : Nat} {data : List UInt8} (hb : b < 2 ^ 256) (he : e < 2 ^ 256)
    (hm : m < 2 ^ 256) (hlen : data.length < 2 ^ 62) :
    getData (modExpInput b e m data) 0 32 = some (Abi.leftPadBytes (ofNat b) 32) ∧
      getData (modExpInput b e m data) 32 32 = some (Abi.leftPadBytes (ofNat e) 32) ∧
      getData (modExpInput b e m data) 64 32 = some (Abi.leftPadBytes (ofNat m) 32) ∧
      (modExpInput b e m data).length = 96 + data.length := by
  have hl : (modExpInput b e m data).length = 96 + data.length := by
    simp only [modExpInput, List.length_append, length_word hb, length_word he, length_word hm]
  have h63 : (modExpInput b e m data).length < 2 ^ 63 := by omega
  have hsplit : modExpInput b e m data = Abi.leftPadBytes (ofNat b) 32 ++
      (Abi.leftPadBytes (ofNat e) 32 ++ (Abi.leftPadBytes (ofNat m) 32 ++ data)) := by
    simp only [modExpInput, List.append_assoc]
  have h0 : (0 : UInt64).toNat = 0 := rfl
  have h32 : (32 : UInt64).toNat = 32 := rfl
  have h64 : (64 : UInt64).toNat = 64 := rfl
  refine ⟨?_, ?_, ?_, hl⟩
  · rw [getData_window h63 (by rw [hl, h0, h32]; omega), h0, h32, List.drop_zero, hsplit,
      List.take_left' (length_word hb)]
  · rw [getData_window h63 (by rw [hl, h32]; omega), h32, hsplit, List.drop_left' (length_word hb),
      List.take_left' (length_word he)]
  · rw [getData_window h63 (by rw [hl, h64, h32]; omega), h64, h32, hsplit,
      show 64 = 32 + 32 from rfl, ← List.drop_drop, List.drop_left' (length_word hb),
      List.drop_left' (length_word he), List.take_left' (length_word hm)]

/-- `Run` panics on an exponent length of `2^64 - 1` after a base length that is not `0` modulo
`2^64`, whenever data follows the lengths: the end of the exponent's slice wraps around to just
below its start. -/
theorem bigModExpRun_panics {b m : Nat} {data : List UInt8} (hb : b < 2 ^ 256) (hm : m < 2 ^ 256)
    (hb₁ : 1 ≤ b % 2 ^ 64) (hdata : data ≠ []) (hlen : data.length < 2 ^ 62) :
    bigModExpRun (modExpInput b (2 ^ 64 - 1) m data) = none := by
  obtain ⟨h₁, h₂, h₃, hl⟩ := @getData_modExpInput b (2 ^ 64 - 1) m data hb (by norm_num) hm hlen
  have hdrop : (modExpInput b (2 ^ 64 - 1) m data).drop 96 = data := by
    simp only [modExpInput, List.append_assoc]
    rw [show 96 = 32 + (32 + 32) from rfl, ← List.drop_drop, ← List.drop_drop,
      List.drop_left' (length_word hb), List.drop_left' (length_word (by norm_num)),
      List.drop_left' (length_word hm)]
  have hpos : 0 < data.length := List.length_pos_iff.mpr hdata
  have hbase : (UInt64.ofNat b).toNat = b % 2 ^ 64 := UInt64.toNat_ofNat'
  have hexp : UInt64.ofNat (2 ^ 64 - 1) = MaxUint64 := rfl
  unfold bigModExpRun
  simp only [h₁, h₂, h₃, toNat_word b hb, toNat_word m hm, toNat_word (2 ^ 64 - 1) (by norm_num), hexp,
    Option.bind_eq_bind, Option.bind_some, hl, hdrop, if_pos (by omega : 96 + data.length > 96)]
  have hne : ¬ (UInt64.ofNat b = 0 ∧ UInt64.ofNat m = 0) := by
    rintro ⟨hb₀, -⟩
    rw [← UInt64.toNat_inj, hbase] at hb₀
    exact absurd hb₀ (by simp only [UInt64.toNat_zero]; omega)
  -- the base is read, and the exponent's slice panics
  obtain ⟨base, hread⟩ := Option.isSome_iff_exists.mp
    (@getData_isSome data 0 (UInt64.ofNat b) (by omega) (by simp only [UInt64.toNat_zero]; omega))
  rw [if_neg hne, hread, Option.bind_some,
    getData_wraps (by omega) (by rw [hbase]; exact hb₁) (by omega), Option.bind_none]

theorem bigModExpRequiredGas_isSome {input : List UInt8} (hlen : input.length < 2 ^ 63) :
    (bigModExpRequiredGas input).isSome := by
  have hword : ∀ start : UInt64, (getData input start 32).isSome := fun start =>
    getData_isSome hlen (by rw [show (32 : UInt64).toNat = 32 from rfl]; omega)
  obtain ⟨w₁, h₁⟩ := Option.isSome_iff_exists.mp (hword 0)
  obtain ⟨w₂, h₂⟩ := Option.isSome_iff_exists.mp (hword 32)
  obtain ⟨w₃, h₃⟩ := Option.isSome_iff_exists.mp (hword 64)
  unfold bigModExpRequiredGas
  simp only [h₁, h₂, h₃, Option.bind_eq_bind, Option.bind_some]
  generalize htail : (if input.length > 96 then input.drop 96 else []) = tail
  have htail_len : tail.length < 2 ^ 63 := by
    rw [← htail]
    split
    · rw [List.length_drop]
      omega
    · simp
  split
  · simp
  · split
    · obtain ⟨d, hd⟩ := Option.isSome_iff_exists.mp
        (@getData_isSome tail (UInt64.ofNat (BigEndian.toNat w₁)) 32 htail_len
          (by rw [show (32 : UInt64).toNat = 32 from rfl]; omega))
      simp [hd]
    · rename_i hexp
      obtain ⟨d, hd⟩ := Option.isSome_iff_exists.mp
        (@getData_isSome tail (UInt64.ofNat (BigEndian.toNat w₁)) (UInt64.ofNat (BigEndian.toNat w₂))
          htail_len (by simp only [UInt64.toNat_ofNat']; omega))
      simp [hd]

-- the input of the witness below asks for less than `2^63` gas
example : bigModExpRequiredGas (modExpInput 1 (2 ^ 64 - 1) 0 [0]) = some 7378697629483820633 := by decide

/-- Whatever the gas, once it covers what `RequiredGas` asks, `RunPrecompiledContract` panics on
the inputs of `bigModExpRun_panics` instead of returning the padded power. -/
theorem RunPrecompiledContract_bigModExp_panics {b m : Nat} {data : List UInt8} (hb : b < 2 ^ 256)
    (hm : m < 2 ^ 256) (hb₁ : 1 ≤ b % 2 ^ 64) (hdata : data ≠ []) (hlen : data.length < 2 ^ 62)
    (gas : UInt64) (hgas : ∀ g, bigModExpRequiredGas (modExpInput b (2 ^ 64 - 1) m data) = some g → g ≤ gas) :
    RunPrecompiledContract bigModExp (modExpInput b (2 ^ 64 - 1) m data) gas = none := by
  obtain ⟨-, -, -, hl⟩ := @getData_modExpInput b (2 ^ 64 - 1) m data hb (by norm_num) hm hlen
  obtain ⟨g, hg⟩ := Option.isSome_iff_exists.mp
    (@bigModExpRequiredGas_isSome (modExpInput b (2 ^ 64 - 1) m data) (by omega))
  have huse : UseGas gas g = some (gas - g) := by
    unfold UseGas
    rw [if_neg (UInt64.not_lt.mpr (hgas g hg))]
  unfold RunPrecompiledContract
  simp only [bigModExp, hg, Option.bind_eq_bind, Option.bind_some, huse,
    bigModExpRun_panics hb hm hb₁ hdata hlen, Option.map_none]

/-- A base length of 1, an exponent length of `2^64 - 1`, no modulus and one byte of data: with
all the gas there is, the precompile panics. -/
theorem RunPrecompiledContract_bigModExp_panics_one_byte :
    RunPrecompiledContract bigModExp (modExpInput 1 (2 ^ 64 - 1) 0 [0]) MaxUint64 = none :=
  RunPrecompiledContract_bigModExp_panics (by norm_num) (by norm_num) (by norm_num) (by simp) (by simp)
    MaxUint64 (fun g _ => UInt64.le_iff_toNat_le.mpr (Nat.le_of_lt_succ g.toNat_lt))

end Zerium.Vm
