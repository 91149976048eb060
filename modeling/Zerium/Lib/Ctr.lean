import Mathlib

/-! # A stream cipher in counter mode

A block cipher in counter mode turns its key and initial counter block into one keystream, and
`XORKeyStream` XORs the next bytes of that keystream into its input. The state of such a stream
is how far into the keystream it has gone. So a text written in pieces is XORed as the whole
text would be (`xorKeyStream_append`), and two streams of one key at one position undo each
other (`xorKeyStream_xorKeyStream`).
-/

namespace Ctr

set_option autoImplicit false

variable (ks : Nat → UInt8)

/-- `XORKeyStream` of a stream at position `pos` of the keystream `ks`. -/
def xorKeyStream (pos : Nat) (d : List UInt8) : List UInt8 :=
  d.mapIdx fun i x => x ^^^ ks (pos + i)

@[simp] theorem length_xorKeyStream (pos : Nat) (d : List UInt8) :
    (xorKeyStream ks pos d).length = d.length := List.length_mapIdx

@[simp] theorem xorKeyStream_nil (pos : Nat) : xorKeyStream ks pos [] = [] := rfl

theorem getElem?_xorKeyStream (pos : Nat) (d : List UInt8) (i : Nat) :
    (xorKeyStream ks pos d)[i]? = d[i]?.map (· ^^^ ks (pos + i)) :=
  List.getElem?_mapIdx

theorem xorKeyStream_append (pos : Nat) (d e : List UInt8) :
    xorKeyStream ks pos (d ++ e) = xorKeyStream ks pos d ++ xorKeyStream ks (pos + d.length) e := by
  rw [xorKeyStream, List.mapIdx_append]
  congr 2
  funext i x
  rw [Nat.add_comm i, Nat.add_assoc]

@[simp] theorem xorKeyStream_xorKeyStream (pos : Nat) (d : List UInt8) :
    xorKeyStream ks pos (xorKeyStream ks pos d) = d := by
  apply List.ext_getElem?
  intro i
  rw [getElem?_xorKeyStream, getElem?_xorKeyStream, Option.map_map]
  cases d[i]? with
  | none => rfl
  | some x => simp [UInt8.xor_assoc]

theorem take_xorKeyStream (pos n : Nat) (d : List UInt8) :
    (xorKeyStream ks pos d).take n = xorKeyStream ks pos (d.take n) := by
  apply List.ext_getElem?
  intro i
  rw [List.getElem?_take, getElem?_xorKeyStream, getElem?_xorKeyStream, List.getElem?_take]
  split <;> rfl

end Ctr
