import Zerium.Abi.Unpack

/-! # Unpacking output that a remote node returned

`lengthPrefixPointsTo` reads the offset of a string, bytes or slice as a Go `int` from the low
eight bytes of its head word, so an offset word of `2 ^ 64 - 32` or more is a small negative
offset. Its first check only bounds the offset from above, and the slice of the length word that
follows starts before the output: Go panics there.
-/

namespace Zerium.Abi

set_option autoImplicit false

open BigEndian

theorem toSigned_64_of_ge {n : Nat} (hn : 2 ^ 63 ≤ n) : toSigned 64 n = (n : Int) - 2 ^ 64 := by
  rw [toSigned, if_neg (by simpa using hn)]

theorem lengthPrefixPointsTo_negative {index : Nat} {output : List UInt8}
    (hlen : index + 32 ≤ output.length)
    (hword : 2 ^ 64 - 32 ≤ toNat ((output.drop (index + 24)).take 8))
    (hword' : toNat ((output.drop (index + 24)).take 8) < 2 ^ 64 - 24) :
    lengthPrefixPointsTo index output = none := by
  have hslice : goSlice output ((index + 24 : Nat) : Int) ((index + 32 : Nat) : Int) =
      some ((output.drop (index + 24)).take 8) := by
    rw [goSlice_natCast output (by omega) hlen, show index + 32 - (index + 24) = 8 by omega]
  have hoffset : toSigned 64 (toNat ((output.drop (index + 24)).take 8)) =
      (toNat ((output.drop (index + 24)).take 8) : Int) - 2 ^ 64 :=
    toSigned_64_of_ge (by omega)
  rw [lengthPrefixPointsTo]
  push_cast at hslice
  rw [hslice, Option.bind_some]
  dsimp only
  rw [hoffset, if_neg (by push_cast; omega), goSlice, if_neg (by push_cast; omega), Option.bind_none]

theorem toGoType_negative_offset {t : AbiType} {index : Nat} {output : List UInt8}
    (hdynamic : t.requiresLengthPrefix = true) (hlen : index + 32 ≤ output.length)
    (hword : 2 ^ 64 - 32 ≤ toNat ((output.drop (index + 24)).take 8))
    (hword' : toNat ((output.drop (index + 24)).take 8) < 2 ^ 64 - 24) :
    toGoType index t output = none := by
  obtain ⟨elem?, kind, size, T⟩ := t
  rw [toGoType, if_neg (by omega)]
  dsimp only
  rw [if_pos hdynamic, if_neg (by omega), Int.toNat_natCast,
    lengthPrefixPointsTo_negative hlen hword hword', Option.map_none]

/-- `ABI.Unpack` of a method with one output that is a string, bytes or a slice panics on every
output whose first word holds an offset word from `2 ^ 64 - 32` to `2 ^ 64 - 25`, whatever the
other bytes are. -/
theorem Unpack_negative_offset (method : Method) (arg : Argument) (output : List UInt8)
    (hout : method.Outputs = [arg]) (hdynamic : arg.type.requiresLengthPrefix = true)
    (hproper : output.length ≠ 0) (hwords : output.length % 32 = 0)
    (hword : 2 ^ 64 - 32 ≤ toNat ((output.drop 24).take 8))
    (hword' : toNat ((output.drop 24).take 8) < 2 ^ 64 - 24) :
    method.Unpack output = none := by
  have hlen : 0 + 32 ≤ output.length := by omega
  rw [Method.Unpack, bytesAreProper, if_neg hproper, if_neg (by omega)]
  dsimp only
  rw [hout, if_neg (by simp), Method.singleUnpack, hout]
  dsimp only
  have hpanic := toGoType_negative_offset hdynamic hlen hword hword'
  rw [Nat.cast_zero] at hpanic
  rw [hpanic, Option.map_none]

theorem Unpack_negative_offset_string :
    (⟨"name", [], [⟨"", newType .string⟩]⟩ : Method).Outputs = [⟨"", newType .string⟩] ∧
      (newType .string).requiresLengthPrefix = true ∧
      (List.replicate 24 (0 : UInt8) ++ [255, 255, 255, 255, 255, 255, 255, 224]).length ≠ 0 ∧
      (List.replicate 24 (0 : UInt8) ++ [255, 255, 255, 255, 255, 255, 255, 224]).length % 32 = 0 ∧
      2 ^ 64 - 32 ≤ toNat (((List.replicate 24 (0 : UInt8) ++
        [255, 255, 255, 255, 255, 255, 255, 224]).drop 24).take 8) ∧
      toNat (((List.replicate 24 (0 : UInt8) ++
        [255, 255, 255, 255, 255, 255, 255, 224]).drop 24).take 8) < 2 ^ 64 - 24 ∧
      (⟨"name", [], [⟨"", newType .string⟩]⟩ : Method).Unpack
        (List.replicate 24 0 ++ [255, 255, 255, 255, 255, 255, 255, 224]) = none :=
  ⟨rfl, rfl, by decide, by decide, by decide, by decide,
    Unpack_negative_offset ⟨"name", [], [⟨"", newType .string⟩]⟩ ⟨"", newType .string⟩ _ rfl rfl
      (by decide) (by decide) (by decide) (by decide)⟩

end Zerium.Abi
