import Zerium.Lib.Slice

/-! # The node table of the discovery protocol (`p2p/discover/table.go`)

The table keeps its known nodes in `nBuckets` buckets, one per logarithmic distance from the
local node. The buckets hold pointers to nodes; `P` is the type of those pointers, so that the
reads below copy the pointers themselves, as `&(*b[0])` does (it is `b[0]`).

`ReadRandomNodes` takes the non-empty buckets, shuffles them, and then moves the head of each
bucket in turn into `buf`, dropping the buckets it empties. The random words of the shuffle are
an argument, `draw i` being the word `rand.Read` gives in the round for `i`.
-/

namespace Zerium.P2p

set_option autoImplicit false

def bucketSize : Nat := 16

def hashBits : Nat := 32 * 8

def nBuckets : Nat := hashBits + 1

structure Table (P : Type) where
  self : P
  buckets : Vector (List P) nBuckets

namespace Table

variable {P : Type}

/-- `tab.len()`: the number of nodes in the table. -/
def len (tab : Table P) : Nat := (tab.buckets.toList.map List.length).sum

/-- `randUint(max)`, given the word read from the random source. -/
def randUint (word max : UInt32) : UInt32 := if max = 0 then 0 else word % max

/-- The shuffle of the buckets: for `i` from `len(buckets) - 1` down to `1`, bucket `i` is swapped
with bucket `randUint(i)`. -/
def shuffleLoop {β : Type} (draw : UInt32 → UInt32) : Nat → UInt32 → List β → List β
  | 0, _, bs => bs
  | fuel + 1, i, bs =>
    if i > 0 then shuffleLoop draw fuel (i - 1) (bs.swap i.toNat (randUint (draw i) i).toNat)
    else bs

/-- The loop that moves the head of bucket `j` into `buf[i]`, then goes on with the next
bucket; it stops when `i` reaches `len(buf)` or at the `break` after the last bucket is
emptied. An index out of range is `none`. -/
def readLoop : Nat → Nat → Nat → List (List P) → List (Option P) → Option (Nat × List (Option P))
  | 0, i, _, _, buf => some (i, buf)
  | fuel + 1, i, j, buckets, buf =>
    if i < buf.length then
      match buckets[j]? with
      | some (x :: rest) =>
        let b := x :: rest
        let buf := buf.set i (some x)
        let buckets := buckets.set j rest
        let buckets := if b.length = 1 then buckets.eraseIdx j else buckets
        if buckets.length = 0 then some (i, buf)
        else readLoop fuel (i + 1) ((j + 1) % buckets.length) buckets buf
      | _ => none
    else some (i, buf)

/-- `ReadRandomNodes(buf)`: the count it returns and `buf` afterwards. -/
def ReadRandomNodes (tab : Table P) (buf : List (Option P)) (draw : UInt32 → UInt32) :
    Option (Nat × List (Option P)) :=
  let buckets := tab.buckets.toList.filter fun b => b.length > 0
  if buckets.length = 0 then some (0, buf)
  else
    let buckets := shuffleLoop draw buckets.length (UInt32.ofNat buckets.length - 1) buckets
    (readLoop buf.length 0 0 buckets buf).map fun (i, buf) => (i + 1, buf)

theorem shuffleLoop_perm {β : Type} (draw : UInt32 → UInt32) :
    ∀ (fuel : Nat) (i : UInt32) (bs : List β), (shuffleLoop draw fuel i bs).Perm bs
  | 0, _, _ => List.Perm.refl _
  | fuel + 1, i, bs => by
    rw [shuffleLoop]
    split
    · exact (shuffleLoop_perm draw fuel _ _).trans (List.swap_perm _ _ _)
    · exact List.Perm.refl _

section Drain

variable {buckets : List (List P)} {j : Nat} {x : P} {rest : List P}

theorem drain_perm (h : buckets[j]? = some (x :: rest)) :
    (x :: (if (x :: rest).length = 1 then (buckets.set j rest).eraseIdx j
      else buckets.set j rest).flatten).Perm buckets.flatten := by
  split
  · rename_i hone
    obtain rfl : rest = [] := by simpa using hone
    have hnil : (buckets.set j [])[j]? = some [] := by
      rw [List.getElem?_set_self (List.getElem?_eq_some_iff.mp h).1]
    rw [Slice.flatten_eraseIdx_of_nil hnil]
    exact Slice.perm_flatten_set_tail h
  · exact Slice.perm_flatten_set_tail h

theorem drain_ne_nil (hne : ∀ b ∈ buckets, b ≠ []) :
    ∀ b ∈ (if (x :: rest).length = 1 then (buckets.set j rest).eraseIdx j
      else buckets.set j rest), b ≠ [] := by
  intro b hb
  split at hb
  · rw [List.eraseIdx_set_eq] at hb
    exact hne b (List.mem_of_mem_eraseIdx hb)
  · rename_i hone
    rcases List.mem_or_eq_of_mem_set hb with hb | rfl
    · exact hne b hb
    · simpa using hone

end Drain

/-- The read loop, from slot `i` with `fuel = len(buf) - i` rounds left over buckets that are
all non-empty: it writes the next `min fuel total` slots with nodes taken from the buckets, each
at most as often as they hold it, and stops at `i + min fuel (total - 1)`. -/
theorem readLoop_spec : ∀ (fuel i j : Nat) (buckets : List (List P)) (buf : List (Option P)),
    (∀ b ∈ buckets, b ≠ []) → j < buckets.length → i + fuel = buf.length →
    ∃ w : List P, w.Subperm buckets.flatten ∧ w.length = min fuel buckets.flatten.length ∧
      readLoop fuel i j buckets buf = some (i + min fuel (buckets.flatten.length - 1),
        buf.take i ++ w.map some ++ buf.drop (i + w.length))
  | 0, i, j, buckets, buf, _, _, hfuel => by
    refine ⟨[], List.nil_subperm, by simp, ?_⟩
    simp [readLoop]
  | fuel + 1, i, j, buckets, buf, hne, hj, hfuel => by
    have hi : i < buf.length := by omega
    obtain ⟨b, hb⟩ : ∃ b, buckets[j]? = some b := ⟨_, List.getElem?_eq_getElem hj⟩
    obtain ⟨x, rest, rfl⟩ : ∃ x rest, b = x :: rest :=
      List.exists_cons_of_ne_nil (hne b (List.mem_of_getElem? hb))
    have hperm := drain_perm hb
    have htotal := hperm.length_eq
    have hset : buf.set i (some x) = buf.take i ++ some x :: buf.drop (i + 1) := by
      rw [List.set_eq_take_append_cons_drop, if_pos hi]
    rw [readLoop, if_pos hi, hb]
    dsimp only
    set rem := if (x :: rest).length = 1 then (buckets.set j rest).eraseIdx j
      else buckets.set j rest
    rcases Nat.eq_zero_or_pos rem.length with hempty | hpos
    · -- the `break`: the bucket emptied was the last one
      rw [if_pos hempty]
      rw [List.length_eq_zero_iff.mp hempty] at hperm htotal
      have hone : buckets.flatten.length = 1 := by simpa using htotal.symm
      refine ⟨[x], hperm.subperm, by simp [hone], ?_⟩
      simp [hone, hset]
    · rw [if_neg (Nat.pos_iff_ne_zero.mp hpos)]
      obtain ⟨w, hsub, hlen, hrun⟩ := readLoop_spec fuel (i + 1) _ rem (buf.set i (some x))
        (drain_ne_nil hne) (Nat.mod_lt _ hpos) (by simp; omega)
      have hflat : 0 < rem.flatten.length := Slice.length_flatten_pos (drain_ne_nil hne) hpos
      simp only [List.length_cons] at htotal
      refine ⟨x :: w, ((List.subperm_cons x).2 hsub).trans hperm.subperm, ?_, ?_⟩
      · simp only [List.length_cons]
        omega
      · have hmin : i + 1 + min fuel (rem.flatten.length - 1) =
            i + min (fuel + 1) (buckets.flatten.length - 1) := by
          omega
        rw [hrun, hset, hmin]
        simp [List.take_append, List.drop_append, List.take_take, List.drop_drop, Nat.add_comm,
          Nat.add_left_comm, Nat.le_of_lt hi]

theorem len_eq_length_flatten (tab : Table P) : tab.len = tab.buckets.toList.flatten.length := by
  rw [len, List.length_flatten]

/-- What `ReadRandomNodes` does for any table, buffer and random words: it writes the first
`min L size` slots with nodes of the table, none more often than the table holds it, and returns
`min L (size - 1) + 1`, or `0` for an empty table. -/
theorem ReadRandomNodes_result (tab : Table P) (buf : List (Option P)) (draw : UInt32 → UInt32) :
    ∃ w : List P, w.Subperm tab.buckets.toList.flatten ∧ w.length = min buf.length tab.len ∧
      ReadRandomNodes tab buf draw =
        some (if tab.len = 0 then 0 else min buf.length (tab.len - 1) + 1,
          w.map some ++ buf.drop w.length) := by
  rw [ReadRandomNodes, len_eq_length_flatten]
  dsimp only
  have hfilter : (tab.buckets.toList.filter fun b => b.length > 0) =
      tab.buckets.toList.filter fun b => b ≠ [] :=
    List.filter_congr fun b _ => by simp [List.length_pos_iff]
  have hflat : (tab.buckets.toList.filter fun b => b.length > 0).flatten =
      tab.buckets.toList.flatten := by
    rw [hfilter, List.flatten_filter_ne_nil]
  have hne : ∀ b ∈ tab.buckets.toList.filter fun b => b.length > 0, b ≠ [] := by
    intro b hb
    exact List.ne_nil_of_length_pos (of_decide_eq_true (List.mem_filter.mp hb).2)
  rw [← hflat]
  generalize tab.buckets.toList.filter (fun b => b.length > 0) = nonempty at hne ⊢
  rcases Nat.eq_zero_or_pos nonempty.length with hzero | hpos
  · rw [List.length_eq_zero_iff.mp hzero]
    exact ⟨[], List.nil_subperm, by simp, by simp⟩
  · set shuffled := shuffleLoop draw nonempty.length (UInt32.ofNat nonempty.length - 1) nonempty
    have hperm : shuffled.Perm nonempty := shuffleLoop_perm draw _ _ _
    have hne' : ∀ b ∈ shuffled, b ≠ [] := fun b hb => hne b (hperm.mem_iff.mp hb)
    have htotal : shuffled.flatten.length = nonempty.flatten.length := hperm.flatten.length_eq
    obtain ⟨w, hsub, hlen, hrun⟩ := readLoop_spec buf.length 0 0 shuffled buf hne'
      (by rw [hperm.length_eq]; exact hpos) (Nat.zero_add _)
    have hpos' : 0 < nonempty.flatten.length := Slice.length_flatten_pos hne hpos
    refine ⟨w, hsub.trans hperm.flatten.subperm, by rw [hlen, htotal], ?_⟩
    rw [if_neg (Nat.pos_iff_ne_zero.mp hpos), if_neg (Nat.pos_iff_ne_zero.mp hpos'), hrun]
    simp [htotal]

/-- The count `ReadRandomNodes` returns when `buf` is shorter than the table: one more than the
number of slots, and so than the number of nodes it wrote. -/
theorem ReadRandomNodes_overcounts (tab : Table P) (buf : List (Option P))
    (draw : UInt32 → UInt32) (hshort : buf.length < tab.len) :
    ∃ buf', ReadRandomNodes tab buf draw = some (min buf.length tab.len + 1, buf') := by
  obtain ⟨w, -, -, hrun⟩ := ReadRandomNodes_result tab buf draw
  refine ⟨w.map some ++ buf.drop w.length, hrun.trans ?_⟩
  rw [if_neg (by omega), Nat.min_eq_left (by omega), Nat.min_eq_left (by omega)]

def single {P : Type} (self x : P) : Table P := ⟨self, (Vector.replicate nBuckets []).set 0 [x]⟩

theorem ReadRandomNodes_overcounts_empty_buf :
    ([] : List (Option Nat)).length < (single 0 1).len ∧
      ∃ buf', ReadRandomNodes (single 0 1) [] (fun _ => 0) =
        some (min ([] : List (Option Nat)).length (single 0 1).len + 1, buf') :=
  ⟨by decide +kernel, ReadRandomNodes_overcounts (single 0 1) [] (fun _ => 0) (by decide +kernel)⟩

/-- `ReadRandomNodes` never fails, writes `min L size` slots from the front with nodes of the
table, without repeating one more often than the table holds it, leaves the other slots as they
were, and returns the size of the table when `buf` has room for all of it. -/
theorem ReadRandomNodes_copies (tab : Table P) (buf : List (Option P)) (draw : UInt32 → UInt32) :
    ∃ (n : Nat) (w : List P), ReadRandomNodes tab buf draw = some (n, w.map some ++ buf.drop (min buf.length tab.len)) ∧
      w.Subperm tab.buckets.toList.flatten ∧ w.length = min buf.length tab.len ∧
      (tab.len ≤ buf.length → n = tab.len) := by
  obtain ⟨w, hsub, hlen, hrun⟩ := ReadRandomNodes_result tab buf draw
  refine ⟨_, w, by rw [hrun, hlen], hsub, hlen, fun hroom => ?_⟩
  by_cases hzero : tab.len = 0
  · rw [if_pos hzero, hzero]
  · rw [if_neg hzero]
    omega

end Table

end Zerium.P2p
