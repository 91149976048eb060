import Zerium.Lib.BigEndian

/-! # Nodes and the XOR distance (`p2p/discover/node.go`)

The table orders nodes by `sha`, the Keccak-256 hash of their ID. `distcmp(target, a, b)`
compares `a ^ target` and `b ^ target` byte by byte from the first, which compares them as
big-endian numbers: as their XOR distances `dist` to the target (`distcmp_pos_iff`).
`logdist(a, b)` counts the leading zero bits of `a ^ b` with the table `lzcount`; the count is at
most 256, so `logdist` is never negative and indexes one of the `nBuckets` buckets.
-/

namespace Zerium.P2p

set_option autoImplicit false

/-- A `common.Hash`. -/
structure Hash where
  bytes : List UInt8
  length_bytes : bytes.length = 32
deriving DecidableEq

/-- A `*Node`, with the fields the table reads: the object it points to, the ID and the hash of
the ID. `contested` is the field of that object `add` writes; the table keeps it by `obj`. -/
structure Node (ι : Type) where
  obj : Nat
  ID : ι
  sha : Hash
deriving DecidableEq

def lzcount : List Nat :=
  [8, 7] ++ List.replicate 2 6 ++ List.replicate 4 5 ++ List.replicate 8 4 ++ List.replicate 16 3 ++
    List.replicate 32 2 ++ List.replicate 64 1 ++ List.replicate 128 0

/-- The loop of `logdist`, with `lz` the leading zero bits counted so far. -/
def logdistLoop : List UInt8 → List UInt8 → Nat → Nat
  | x :: xs, y :: ys, lz =>
    let v := x ^^^ y
    if v = 0 then logdistLoop xs ys (lz + 8) else lz + lzcount.getD v.toNat 0
  | _, _, lz => lz

def logdist (a b : Hash) : Nat := a.bytes.length * 8 - logdistLoop a.bytes b.bytes 0

def distcmpLoop : List UInt8 → List UInt8 → List UInt8 → Int
  | t :: ts, x :: xs, y :: ys =>
    let da := x ^^^ t
    let db := y ^^^ t
    if da > db then 1 else if da < db then -1 else distcmpLoop ts xs ys
  | _, _, _ => 0

def distcmp (target a b : Hash) : Int := distcmpLoop target.bytes a.bytes b.bytes

def dist (target h : Hash) : Nat := BigEndian.toNat (List.zipWith (· ^^^ ·) h.bytes target.bytes)

theorem getD_lzcount_le (i : Nat) : lzcount.getD i 0 ≤ 8 := by
  have hall : ∀ x ∈ lzcount, x ≤ 8 := by
    intro x hx
    simp only [lzcount, List.mem_append, List.mem_replicate, List.mem_cons, List.not_mem_nil, or_false,
      ne_eq, OfNat.ofNat_ne_zero, not_false_eq_true, true_and] at hx
    omega
  rw [List.getD_eq_getElem?_getD]
  cases h : lzcount[i]? with
  | none => exact Nat.zero_le 8
  | some x => exact hall x (List.mem_of_getElem? h)

theorem logdistLoop_le : ∀ (xs ys : List UInt8) (lz : Nat), logdistLoop xs ys lz ≤ lz + 8 * xs.length
  | x :: xs, y :: ys, lz => by
    rw [logdistLoop]
    split
    · have := logdistLoop_le xs ys (lz + 8)
      simp only [List.length_cons]
      omega
    · have := getD_lzcount_le (x ^^^ y).toNat
      simp only [List.length_cons]
      omega
  | [], _, lz => by simp [logdistLoop]
  | _ :: _, [], lz => by simp [logdistLoop]

theorem logdistLoop_le_bits (a b : Hash) : logdistLoop a.bytes b.bytes 0 ≤ a.bytes.length * 8 := by
  have := logdistLoop_le a.bytes b.bytes 0
  omega

theorem logdist_lt (a b : Hash) : logdist a b < 257 := by
  rw [logdist, a.length_bytes]
  omega

theorem distcmpLoop_pos_iff : ∀ (ts xs ys : List UInt8), xs.length = ts.length →
    ys.length = ts.length →
    (0 < distcmpLoop ts xs ys ↔
      BigEndian.toNat (List.zipWith (· ^^^ ·) ys ts) < BigEndian.toNat (List.zipWith (· ^^^ ·) xs ts))
  | [], [], [], _, _ => by simp [distcmpLoop]
  | t :: ts, x :: xs, y :: ys, hx, hy => by
    simp only [List.length_cons, Nat.add_right_cancel_iff] at hx hy
    have hlen : (List.zipWith (· ^^^ ·) ys ts).length = (List.zipWith (· ^^^ ·) xs ts).length := by
      simp [hx, hy]
    rw [distcmpLoop, List.zipWith_cons_cons, List.zipWith_cons_cons,
      BigEndian.toNat_cons_lt_cons_iff hlen]
    -- the first bytes that differ decide
    by_cases hgt : x ^^^ t > y ^^^ t
    · rw [if_pos hgt]
      exact iff_of_true (by decide) (Or.inl hgt)
    · rw [if_neg hgt]
      by_cases hlt : x ^^^ t < y ^^^ t
      · rw [if_pos hlt]
        refine iff_of_false (by decide) ?_
        rintro (h | ⟨h, -⟩)
        · exact hgt h
        · exact UInt8.lt_irrefl _ (h ▸ hlt)
      · rw [if_neg hlt, distcmpLoop_pos_iff ts xs ys hx hy]
        have heq : y ^^^ t = x ^^^ t := UInt8.le_antisymm (UInt8.not_lt.mp hlt) (UInt8.not_lt.mp hgt)
        simp [heq]
  | [], _ :: _, _, hx, _ => by simp at hx
  | [], [], _ :: _, _, hy => by simp at hy
  | _ :: _, [], _, hx, _ => by simp at hx
  | _ :: _, _ :: _, [], _, hy => by simp at hy

theorem distcmp_pos_iff (target a b : Hash) : 0 < distcmp target a b ↔ dist target b < dist target a :=
  distcmpLoop_pos_iff target.bytes a.bytes b.bytes (by rw [a.length_bytes, target.length_bytes])
    (by rw [b.length_bytes, target.length_bytes])

end Zerium.P2p
