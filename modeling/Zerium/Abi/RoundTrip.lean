import Zerium.Abi.Unpack

/-! # Integers through `pack` and `Unpack`

`U256` writes every integer as the 32 bytes of its 256-bit two's complement. `readInteger`
reads a fixed-width integer back from the low bytes of its word, as two's complement for the
signed kinds, so every `intN` and `uintN` up to 64 bits comes back as it was packed. A
`*big.Int` is read from the whole word with `SetBytes`, which is unsigned: an `intN` above 64
bits that is negative comes back as itself plus `2 ^ 256`.
-/

namespace Zerium.Abi

set_option autoImplicit false

open BigEndian

/-! ## The word of an integer -/

theorem leftPadBytes_of_le {slice : List UInt8} {l : Nat} (h : slice.length ≤ l) :
    leftPadBytes slice l = List.replicate (l - slice.length) 0 ++ slice := by
  unfold leftPadBytes
  split
  · rename_i hl
    rw [show l - slice.length = 0 by omega, List.replicate_zero, List.nil_append]
  · rfl

theorem paddedBigBytes_eq (x n : Nat) : paddedBigBytes x n = leftPadBytes (ofNat x) n := by
  unfold paddedBigBytes
  split
  · rename_i h
    have hlen : n ≤ (ofNat x).length := by
      by_contra hlt
      -- fewer than `n` bytes is fewer than `8 * (n - 1)` bits
      have hx := (length_ofNat_le_iff x (n - 1)).mp (by omega)
      have hsize : x.size ≤ 8 * (n - 1) := by
        rw [Nat.size_le, pow_mul]
        exact hx
      omega
    unfold leftPadBytes
    rw [if_pos hlen]
  · rfl

theorem U256_eq (x : Int) :
    U256 x = List.replicate (32 - (ofNat (x % 2 ^ 256).toNat).length) 0 ++ ofNat (x % 2 ^ 256).toNat := by
  have hlen : (ofNat (x % 2 ^ 256).toNat).length ≤ 32 :=
    (length_ofNat_le_iff _ 32).mpr (by omega)
  rw [U256, paddedBigBytes_eq, leftPadBytes_of_le hlen]

@[simp] theorem length_U256 (x : Int) : (U256 x).length = 32 := by
  have hlen : (ofNat (x % 2 ^ 256).toNat).length ≤ 32 :=
    (length_ofNat_le_iff _ 32).mpr (by omega)
  rw [U256_eq, List.length_append, List.length_replicate]
  omega

theorem toNat_U256 (x : Int) : toNat (U256 x) = (x % 2 ^ 256).toNat := by
  rw [U256_eq, toNat_replicate_zero_append, toNat_ofNat]

theorem lowBytes_U256 (x : Int) {k : Nat} (hk : k ≤ 32) :
    lowBytes k (U256 x) = (x % 2 ^ 256).toNat % 256 ^ k := by
  rw [lowBytes, toNat_drop _ (by rw [length_U256]; exact hk), toNat_U256]

/-! ## `readInteger` on the word of an integer -/

theorem readInteger_U256_uint {kind : ReflectKind} {k : Nat}
    (hk : (kind, k) ∈ [(.Uint8, 1), (.Uint16, 2), (.Uint32, 4), (.Uint64, 8)]) (n : Nat)
    (hn : n < 256 ^ k) : readInteger kind (U256 n) = .uint kind n := by
  simp only [List.mem_cons, Prod.mk.injEq, List.not_mem_nil, or_false] at hk
  rcases hk with ⟨rfl, rfl⟩ | ⟨rfl, rfl⟩ | ⟨rfl, rfl⟩ | ⟨rfl, rfl⟩
  all_goals
    simp only [readInteger, GoValue.uint.injEq, true_and]
    rw [lowBytes_U256 _ (by norm_num)]
    omega

theorem readInteger_U256_int {kind : ReflectKind} {k : Nat}
    (hk : (kind, k) ∈ [(.Int8, 1), (.Int16, 2), (.Int32, 4), (.Int64, 8)]) (x : Int)
    (hlo : -2 ^ (8 * k - 1) ≤ x) (hhi : x < 2 ^ (8 * k - 1)) : readInteger kind (U256 x) = .int kind x := by
  simp only [List.mem_cons, Prod.mk.injEq, List.not_mem_nil, or_false] at hk
  rcases hk with ⟨rfl, rfl⟩ | ⟨rfl, rfl⟩ | ⟨rfl, rfl⟩ | ⟨rfl, rfl⟩
  all_goals
    simp only [readInteger, GoValue.int.injEq, true_and, toSigned]
    rw [lowBytes_U256 _ (by norm_num)]
    norm_num at hlo hhi
    split <;> omega

theorem readInteger_U256_Ptr (x : Int) : readInteger .Ptr (U256 x) = .bigInt (x % 2 ^ 256).toNat := by
  show GoValue.bigInt (toNat (U256 x)) = _
  rw [toNat_U256]

/-! ## A method with one integer input and the same output -/

theorem pack_integer {t : AbiType} (hT : t.T = .IntTy ∨ t.T = .UintTy) {v : GoValue}
    (hkind : t.Kind = v.Kind) {w : List UInt8} (hw : packNum v = some w) :
    t.pack v = some (.ok w) := by
  have hcheck : typeCheck t v = some (.ok ()) := by
    rcases hT with hT | hT <;> simp [typeCheck, hT, hkind]
  obtain ⟨elem?, kind, size, T⟩ := t
  have hnot : ¬(T = .SliceTy ∨ T = .ArrayTy) := by
    rcases hT with hT | hT <;> simp only at hT <;> simp [hT]
  unfold AbiType.pack
  rw [hcheck]
  simp only [hnot, if_false]
  rcases hT with hT | hT <;> simp only at hT <;> simp [packElement, hT, hw]

theorem Method.pack_single {m : Method} {arg : Argument} (hm : m.Inputs = [arg])
    (hplain : arg.type.requiresLengthPrefix = false) {v : GoValue} {w : List UInt8}
    (hpack : arg.type.pack v = some (.ok w)) : m.pack [v] = some (.ok w) := by
  simp [Method.pack, hm, Method.pack.loop, hpack, hplain, Except.map]

theorem Method.Unpack_single_integer {m : Method} {arg : Argument} (hm : m.Outputs = [arg])
    (hT : arg.type.T = .IntTy ∨ arg.type.T = .UintTy) {w : List UInt8} (hw : w.length = 32) :
    m.Unpack w = some (.ok [readInteger arg.type.Kind w]) := by
  have hproper : bytesAreProper w = .ok () := by
    simp [bytesAreProper, hw]
  have hplain : arg.type.requiresLengthPrefix = false := by
    rcases hT with hT | hT <;> simp [AbiType.requiresLengthPrefix, hT]
  obtain ⟨name, ⟨elem?, kind, size, T⟩⟩ := arg
  simp only at hT hplain
  simp only [Method.Unpack, hproper, hm, List.length_singleton, Method.singleUnpack]
  unfold toGoType
  simp only [hplain, hw, goSlice, Bool.false_eq_true, if_false]
  rcases hT with rfl | rfl <;> simp [List.take_of_length_le (le_of_eq hw), Except.map]

/-- A negative `intN` above 64 bits, packed and unpacked through a method with that one input
and output, comes back as itself plus `2 ^ 256`. -/
theorem Unpack_pack_negative_bigInt (name : String) (arg : Argument) (hT : arg.type.T = .IntTy)
    (hK : arg.type.Kind = .Ptr) (x : Int) (hlo : -2 ^ 255 ≤ x) (hneg : x < 0) :
    ∃ output, (Method.mk name [arg] [arg]).pack [.bigInt x] = some (.ok output) ∧
      (Method.mk name [arg] [arg]).Unpack output = some (.ok [.bigInt (x + 2 ^ 256)]) := by
  have hplain : arg.type.requiresLengthPrefix = false := by
    simp [AbiType.requiresLengthPrefix, hT]
  refine ⟨U256 x, Method.pack_single rfl hplain (pack_integer (.inl hT) (v := .bigInt x) hK rfl), ?_⟩
  rw [Method.Unpack_single_integer rfl (.inl hT) (length_U256 x), hK, readInteger_U256_Ptr]
  have hval : ((x % 2 ^ 256).toNat : Int) = x + 2 ^ 256 := by omega
  rw [hval]

theorem Unpack_pack_int256_minus_one :
    (newType (.int 256)).T = .IntTy ∧ (newType (.int 256)).Kind = .Ptr ∧ -2 ^ 255 ≤ (-1 : Int) ∧
      (-1 : Int) < 0 ∧
      ∃ output, (Method.mk "f" [⟨"x", newType (.int 256)⟩] [⟨"x", newType (.int 256)⟩]).pack
          [.bigInt (-1)] = some (.ok output) ∧
        (Method.mk "f" [⟨"x", newType (.int 256)⟩] [⟨"x", newType (.int 256)⟩]).Unpack output =
          some (.ok [.bigInt (-1 + 2 ^ 256)]) :=
  ⟨rfl, rfl, by norm_num, by norm_num,
    Unpack_pack_negative_bigInt "f" ⟨"x", newType (.int 256)⟩ rfl rfl (-1) (by norm_num) (by norm_num)⟩

end Zerium.Abi
