import Zerium.Lib.BigEndian

/-! # RLP values and their encoding

The value language of RLP: a byte string, or a list of values nested to any depth. This is
what `DecodeBytes` produces for a target of type `interface{}` (`[]byte` for strings,
`[]interface{}` for lists). The encoding below is the recursive definition of the format
(single byte, short and long string, short and long list); the encoder of `encode.go`
defers list headers and is shown to agree with it.
-/

namespace Zerium.Rlp

set_option autoImplicit false

/-- `Kind` of `decode.go`: the three shapes a header announces. -/
inductive Kind where
  | Byte
  | String
  | List
deriving DecidableEq, Repr

inductive Value where
  | bytes (b : List UInt8)
  | list (vs : List Value)
deriving Repr

mutual
def Value.decEq : (a b : Value) → Decidable (a = b)
  | .bytes x, .bytes y =>
    if h : x = y then isTrue (by rw [h]) else isFalse (fun e => h (Value.bytes.inj e))
  | .list xs, .list ys =>
    match Value.decEqList xs ys with
    | isTrue h => isTrue (by rw [h])
    | isFalse h => isFalse (fun e => h (Value.list.inj e))
  | .bytes _, .list _ => isFalse (fun e => Value.noConfusion e)
  | .list _, .bytes _ => isFalse (fun e => Value.noConfusion e)

def Value.decEqList : (a b : List Value) → Decidable (a = b)
  | [], [] => isTrue rfl
  | x :: xs, y :: ys =>
    match Value.decEq x y, Value.decEqList xs ys with
    | isTrue h₁, isTrue h₂ => isTrue (by rw [h₁, h₂])
    | isFalse h₁, _ => isFalse (fun e => h₁ (List.cons.inj e).1)
    | isTrue _, isFalse h₂ => isFalse (fun e => h₂ (List.cons.inj e).2)
  | [], _ :: _ => isFalse (fun e => List.cons_ne_nil _ _ e.symm)
  | _ :: _, [] => isFalse (fun e => List.cons_ne_nil _ _ e)
end

instance : DecidableEq Value := Value.decEq

/-- A string or list header for a payload of `size` bytes. -/
def header (smalltag largetag : UInt8) (size : Nat) : List UInt8 :=
  if size < 56 then [smalltag + UInt8.ofNat size]
  else (largetag + UInt8.ofNat (BigEndian.ofNat size).length) :: BigEndian.ofNat size

def stringEncoding (b : List UInt8) : List UInt8 :=
  match b with
  | [x] => if x < 0x80 then [x] else header 0x80 0xB7 1 ++ [x]
  | b => header 0x80 0xB7 b.length ++ b

mutual
def Value.encoding : Value → List UInt8
  | .bytes b => stringEncoding b
  | .list vs => header 0xC0 0xF7 (Value.payload vs).length ++ Value.payload vs

def Value.payload : List Value → List UInt8
  | [] => []
  | v :: vs => v.encoding ++ Value.payload vs
end

mutual
def Value.Sized : Value → Prop
  | .bytes b => b.length < 2 ^ 64
  | .list vs => (Value.payload vs).length < 2 ^ 64 ∧ Value.SizedList vs

def Value.SizedList : List Value → Prop
  | [] => True
  | v :: vs => v.Sized ∧ Value.SizedList vs
end

def uintEncoding (n : Nat) : List UInt8 := stringEncoding (BigEndian.ofNat n)

@[simp] theorem encoding_bytes (b : List UInt8) : (Value.bytes b).encoding = stringEncoding b := by
  rw [Value.encoding]

@[simp] theorem encoding_list (vs : List Value) :
    (Value.list vs).encoding = header 0xC0 0xF7 (Value.payload vs).length ++ Value.payload vs := by
  rw [Value.encoding]

@[simp] theorem payload_nil : Value.payload [] = [] := by rw [Value.payload]

@[simp] theorem payload_cons (v : Value) (vs : List Value) :
    Value.payload (v :: vs) = v.encoding ++ Value.payload vs := by
  rw [Value.payload]

theorem length_header (smalltag largetag : UInt8) (size : Nat) :
    (header smalltag largetag size).length =
      if size < 56 then 1 else 1 + (BigEndian.ofNat size).length := by
  unfold header
  split <;> simp [Nat.add_comm]

theorem header_ne_nil (smalltag largetag : UInt8) (size : Nat) :
    header smalltag largetag size ≠ [] := by
  unfold header
  split <;> simp

theorem stringEncoding_singleton (x : UInt8) :
    stringEncoding [x] = if x < 0x80 then [x] else header 0x80 0xB7 1 ++ [x] := by
  rw [stringEncoding]

theorem stringEncoding_of_length_ne_one (b : List UInt8) (h : b.length ≠ 1) :
    stringEncoding b = header 0x80 0xB7 b.length ++ b := by
  unfold stringEncoding
  split
  · simp at h
  · rfl

theorem stringEncoding_of_not_single (b : List UInt8) (h : ¬ (b.length = 1 ∧ b.headD 0 < 0x80)) :
    stringEncoding b = header 0x80 0xB7 b.length ++ b := by
  by_cases hlen : b.length = 1
  · obtain ⟨x, rfl⟩ := List.length_eq_one_iff.mp hlen
    have hx : ¬ x < 0x80 := fun hx => h ⟨rfl, by simpa using hx⟩
    rw [stringEncoding_singleton, if_neg hx]
    rfl
  · exact stringEncoding_of_length_ne_one b hlen

theorem stringEncoding_ne_nil (b : List UInt8) : stringEncoding b ≠ [] := by
  by_cases h : b.length = 1
  · obtain ⟨x, rfl⟩ := List.length_eq_one_iff.mp h
    rw [stringEncoding_singleton]
    split <;> simp
  · rw [stringEncoding_of_length_ne_one b h]
    simp [header_ne_nil]

theorem encoding_ne_nil (v : Value) : v.encoding ≠ [] := by
  cases v with
  | bytes b => simpa using stringEncoding_ne_nil b
  | list vs => simp [header_ne_nil]

example : (Value.list [.bytes [0x63, 0x61, 0x74], .bytes [0x64, 0x6f, 0x67]]).encoding =
    [0xc8, 0x83, 0x63, 0x61, 0x74, 0x83, 0x64, 0x6f, 0x67] := by decide

end Zerium.Rlp
