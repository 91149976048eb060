import Zerium.Swarm.Chunker

/-! # Joining what `Split` emitted

`split` at depth `d` is called with the tree size `hashSize * branches ^ d` of the children of
its root, and `join` is called with the same depth and tree size on the root chunk, whose `Size`
is the size `split` was given. At a node both cut the data at the same places: `split` gives
child `i` the data from `i * treeSize` on, and `join` gives it the part of the window from there.
So a window inside the data is read back exactly, at every depth (`join_split`), and `ReadAt`
on the reader of the root key returns the bytes of the window (`ReadAt_Join_Split`).

A window that passes the end is another matter: `ReadAt` counts the whole buffer as read and
leaves the bytes past the end as they were, and a window that starts past the end makes the
leaf's slice panic (`ReadAt_past_end`).
-/

namespace Zerium.Swarm

set_option autoImplicit false

open Abi (goSlice goSlice_natCast goSlice_of_lt)

def Serves (store : ChunkStore) (chunks : List Chunk) : Prop := ∀ c ∈ chunks, store c.Key = some c

instance (store : ChunkStore) (chunks : List Chunk) : Decidable (Serves store chunks) :=
  inferInstanceAs (Decidable (∀ c ∈ chunks, store c.Key = some c))

theorem Serves.mono {store : ChunkStore} {chunks chunks' : List Chunk} (h : Serves store chunks)
    (hsub : ∀ c ∈ chunks', c ∈ chunks) : Serves store chunks' := fun c hc => h c (hsub c hc)

theorem retrieve_of_serves {store : ChunkStore} {chunks : List Chunk} (h : Serves store chunks)
    {c : Chunk} (hc : c ∈ chunks) (hdata : c.SData ≠ []) : retrieve store c.Key = some c := by
  rw [retrieve, h c hc]
  exact if_neg hdata

theorem except_map_eq_ok {ε α β : Type} {g : α → β} {x : Except ε α} {b : β} (h : x.map g = .ok b) :
    ∃ a, x = .ok a ∧ g a = b := by
  cases x with
  | error e => cases h
  | ok a => exact ⟨a, rfl, by simpa [Except.map] using h⟩

theorem putUint64_append_ne_nil (size : Nat) (l : List UInt8) : putUint64 size ++ l ≠ [] :=
  List.ne_nil_of_length_pos (by simp)

/-! ## The depth loop -/

theorem treeDepth_of_le (branches : Nat) {size treeSize : Nat} (h : size ≤ treeSize) (fuel depth : Nat) :
    treeDepth branches size fuel depth treeSize = some (depth, treeSize) := by
  have hlt : ¬ ((treeSize : Int) < size) := by omega
  cases fuel with
  | zero => rw [treeDepth, if_neg hlt]
  | succ fuel => rw [treeDepth, if_neg hlt]

theorem treeDepth_eq_some {branches : Nat} (hb : 2 ≤ branches) (size : Nat) :
    ∀ fuel depth treeSize, 0 < treeSize → size ≤ treeSize * 2 ^ fuel →
      ∃ k, treeDepth branches size fuel depth treeSize = some (depth + k, treeSize * branches ^ k) := by
  intro fuel
  induction fuel with
  | zero =>
    intro depth treeSize _ hsize
    exact ⟨0, by rw [treeDepth_of_le branches (by simpa using hsize)]; simp⟩
  | succ fuel ih =>
    intro depth treeSize hpos hsize
    by_cases hlt : treeSize < size
    · have hgrow : size ≤ treeSize * branches * 2 ^ fuel := calc
        size ≤ treeSize * 2 ^ (fuel + 1) := hsize
        _ = treeSize * 2 * 2 ^ fuel := by ring
        _ ≤ treeSize * branches * 2 ^ fuel := by gcongr
      obtain ⟨k, hk⟩ := ih (depth + 1) (treeSize * branches) (Nat.mul_pos hpos (by omega)) hgrow
      refine ⟨k + 1, ?_⟩
      rw [treeDepth, if_pos (by exact_mod_cast hlt), hk]
      congr 2 <;> ring
    · exact ⟨0, by rw [treeDepth_of_le branches (by omega)]; simp⟩

theorem treeDepth_chunkSize {c : TreeChunker} (hb : 2 ≤ c.branches) (hh : 0 < c.hashSize) (size : Nat) :
    ∃ depth, treeDepth c.branches size size 0 c.chunkSize = some (depth, c.chunkSize * c.branches ^ depth) := by
  have hpos : 0 < c.chunkSize := Nat.mul_pos hh (by omega)
  have hbound : size ≤ c.chunkSize * 2 ^ size :=
    calc size ≤ 2 ^ size := (Nat.lt_two_pow_self).le
      _ ≤ c.chunkSize * 2 ^ size := Nat.le_mul_of_pos_left _ hpos
  obtain ⟨k, hk⟩ := treeDepth_eq_some hb size size 0 c.chunkSize hpos hbound
  exact ⟨k, by rw [hk, Nat.zero_add]⟩

/-! ## The loop of `split` -/

theorem ceil_div_bounds (size : Nat) {t : Nat} (ht : 0 < t) :
    size ≤ (size + t - 1) / t * t ∧ (size + t - 1) / t * t < size + t := by
  have hlo := Nat.lt_div_mul_add (a := size + t - 1) ht
  have hhi := Nat.div_mul_le_self (size + t - 1) t
  omega

theorem secSize_cases (size treeSize pos : Nat) :
    (size - pos < treeSize ∧ secSize size treeSize pos = size - pos) ∨
      (treeSize ≤ size - pos ∧ secSize size treeSize pos = treeSize) := by
  unfold secSize
  by_cases h : size - pos < treeSize
  · exact .inl ⟨h, if_pos h⟩
  · exact .inr ⟨by omega, if_neg h⟩

section SplitLoop

variable {f : List UInt8 → Nat → Except ChunkerError (Key × List Chunk × List UInt8)} {size treeSize : Nat}

theorem splitLoop_ok
    (hf : ∀ data s key chunks rest, f data s = .ok (key, chunks, rest) → s ≤ data.length ∧ rest = data.drop s) :
    ∀ n pos data keys chunks rest, splitLoop f size treeSize n pos data = .ok (keys, chunks, rest) →
      size ≤ pos + n * treeSize → pos + n * treeSize < size + treeSize →
      size - pos ≤ data.length ∧ rest = data.drop (size - pos) ∧ keys.length = n ∧
      ∀ j < n, ∃ key cs r, keys[j]? = some key ∧
        f (data.drop (j * treeSize)) (secSize size treeSize (pos + j * treeSize)) = .ok (key, cs, r) ∧
        ∀ c ∈ cs, c ∈ chunks := by
  intro n
  induction n with
  | zero =>
    rintro pos data keys chunks rest h hlo -
    simp only [splitLoop, Except.ok.injEq, Prod.mk.injEq] at h
    obtain ⟨rfl, rfl, rfl⟩ := h
    refine ⟨by omega, by rw [Nat.sub_eq_zero_of_le (by omega), List.drop_zero], rfl, ?_⟩
    intro j hj
    omega
  | succ n ih =>
    rintro pos data keys chunks rest h hlo hhi
    rw [Nat.succ_mul] at hlo hhi
    simp only [splitLoop] at h
    split at h
    · cases h
    rename_i key cs data' hfirst
    obtain ⟨⟨keys', cs', rest'⟩, hloop, hkeys⟩ := except_map_eq_ok h
    simp only [Prod.mk.injEq] at hkeys
    obtain ⟨rfl, rfl, rfl⟩ := hkeys
    obtain ⟨hlen, rfl⟩ := hf _ _ _ _ _ hfirst
    obtain ⟨hlen', hrest, hcount, hchildren⟩ := ih (pos + treeSize) _ _ _ _ hloop (by omega) (by omega)
    rw [List.length_drop] at hlen'
    rw [hrest, List.drop_drop]
    refine ⟨?_, ?_, by simp [hcount], ?_⟩
    · rcases secSize_cases size treeSize pos with ⟨_, hs⟩ | ⟨_, hs⟩ <;> rw [hs] at hlen hlen' <;> omega
    · congr 1
      rcases secSize_cases size treeSize pos with ⟨_, hs⟩ | ⟨_, hs⟩ <;> rw [hs] <;> omega
    rintro (_ | j) hj
    · exact ⟨key, cs, _, rfl, by simpa using hfirst, fun c hc => List.mem_append_left _ hc⟩
    obtain ⟨k, ck, r, hk, hchild, hsub⟩ := hchildren j (by omega)
    -- a child after the first means the first took a whole tree size
    have hT : secSize size treeSize pos = treeSize := by
      have : treeSize ≤ n * treeSize := Nat.le_mul_of_pos_left _ (by omega)
      rcases secSize_cases size treeSize pos with ⟨_, _⟩ | ⟨_, hs⟩
      · omega
      · exact hs
    refine ⟨k, ck, r, by simpa using hk, ?_, fun c hc => List.mem_append_right _ (hsub c hc)⟩
    rw [hT, List.drop_drop] at hchild
    rw [show pos + (j + 1) * treeSize = pos + treeSize + j * treeSize by ring,
      show (j + 1) * treeSize = treeSize + j * treeSize by ring]
    exact hchild

theorem splitLoop_exists
    (hf : ∀ data s, s ≤ data.length → ∃ key chunks, f data s = .ok (key, chunks, data.drop s)) :
    ∀ n pos data, size - pos ≤ data.length → ∃ keys chunks rest, splitLoop f size treeSize n pos data = .ok (keys, chunks, rest) := by
  intro n
  induction n with
  | zero => intro pos data _; exact ⟨[], [], data, rfl⟩
  | succ n ih =>
    intro pos data hdata
    have hsec : secSize size treeSize pos ≤ data.length := by
      rcases secSize_cases size treeSize pos with ⟨_, hs⟩ | ⟨_, hs⟩ <;> omega
    obtain ⟨key, cs, hfirst⟩ := hf data _ hsec
    obtain ⟨keys, cs', rest, hloop⟩ := ih (pos + treeSize) (data.drop (secSize size treeSize pos)) (by
      rw [List.length_drop]
      rcases secSize_cases size treeSize pos with ⟨_, hs⟩ | ⟨_, hs⟩ <;> omega)
    exact ⟨key :: keys, cs ++ cs', rest, by simp [splitLoop, hfirst, hloop, Except.map]⟩

end SplitLoop

/-! ## The loop of `join` -/

theorem take_drop_flatten {m : Nat} :
    ∀ {keys : List Key}, (∀ k ∈ keys, k.length = m) → ∀ {i : Nat} {k : Key}, keys[i]? = some k →
      (keys.flatten.drop (i * m)).take m = k
  | [], _, _, _, h => by simp at h
  | k' :: keys, hkeys, 0, k, h => by
    simp only [List.getElem?_cons_zero, Option.some.injEq] at h
    subst h
    rw [Nat.zero_mul, List.drop_zero, List.flatten_cons, List.take_left' (hkeys _ List.mem_cons_self)]
  | k' :: keys, hkeys, i + 1, k, h => by
    rw [List.getElem?_cons_succ] at h
    have hm := hkeys _ List.mem_cons_self
    have hk' : (k' :: keys).flatten.drop ((i + 1) * m) = keys.flatten.drop (i * m) := by
      rw [List.flatten_cons, List.drop_append, List.drop_of_length_le (by rw [hm, Nat.succ_mul]; omega),
        List.nil_append, hm, Nat.succ_mul, Nat.add_sub_cancel]
    rw [hk']
    exact take_drop_flatten (fun k hk => hkeys k (List.mem_cons_of_mem _ hk)) h

theorem length_flatten_keys {m : Nat} :
    ∀ {keys : List Key}, (∀ k ∈ keys, k.length = m) → keys.flatten.length = keys.length * m
  | [], _ => by simp
  | k' :: keys, hkeys => by
    rw [List.flatten_cons, List.length_append, hkeys _ List.mem_cons_self,
      length_flatten_keys (fun k hk => hkeys k (List.mem_cons_of_mem _ hk)), List.length_cons, Nat.succ_mul]
    omega

theorem goSlice_key {size m i : Nat} {keys : List Key} {k : Key} (hkeys : ∀ k ∈ keys, k.length = m)
    (hk : keys[i]? = some k) :
    goSlice (putUint64 size ++ keys.flatten) (8 + (i : Int) * m) (8 + ((i : Int) + 1) * m) = some k := by
  have hi : i < keys.length := (List.getElem?_eq_some_iff.mp hk).1
  have hbound : (i + 1) * m ≤ keys.length * m := Nat.mul_le_mul_right m hi
  have hlo : (8 : Int) + i * m = ((8 + i * m : Nat) : Int) := by push_cast; ring
  have hhi : (8 : Int) + (i + 1) * m = ((8 + (i + 1) * m : Nat) : Int) := by push_cast; ring
  rw [hlo, hhi, goSlice_natCast _ (by rw [Nat.succ_mul]; omega)
    (by simp [length_flatten_keys hkeys]; omega)]
  congr 1
  rw [List.drop_append, List.drop_of_length_le (l := putUint64 size) (by simp), List.nil_append, length_putUint64,
    show 8 + i * m - 8 = i * m by omega, show 8 + (i + 1) * m - (8 + i * m) = m by rw [Nat.succ_mul]; omega]
  exact take_drop_flatten hkeys hk

namespace LazyChunkReader

section JoinLoop

variable (r : LazyChunkReader) (store : ChunkStore)
  (f : List UInt8 → Int → Int → Chunk → Option (Except ChunkerError (List UInt8))) (chunk : Chunk)

theorem joinLoop_succ {off eoff T i soff seoff : Nat} {b : List UInt8} {key : Key} {child : Chunk}
    {window : List UInt8} (n : Nat)
    (hsoff : max ((i : Int) * T) off = soff) (hseoff : min ((i : Int) * T + T) eoff = seoff)
    (hkey : goSlice chunk.SData (8 + (i : Int) * r.hashSize) (8 + ((i : Int) + 1) * r.hashSize) = some key)
    (hchild : retrieve store key = some child)
    (hlo : off ≤ soff) (hroff : i * T ≤ soff) (hwin : soff ≤ seoff) (hhi : seoff ≤ off + b.length)
    (hf : f ((b.drop (soff - off)).take (seoff - soff)) (soff - i * T : Nat) (seoff - i * T : Nat) child =
      some (.ok window)) :
    r.joinLoop store f chunk off eoff T (n + 1) i b =
      r.joinLoop store f chunk off eoff T n (i + 1 : Nat) (Slice.copyAt b (soff - off) window) := by
  have hp : (i : Int) * (T : Int) = ((i * T : Nat) : Int) := by push_cast; ring
  have hs : (soff : Int) - off = ((soff - off : Nat) : Int) := by omega
  have hse : (seoff : Int) - off = ((seoff - off : Nat) : Int) := by omega
  have hr : (soff : Int) - ((i * T : Nat) : Int) = ((soff - i * T : Nat) : Int) := by omega
  have hre : (seoff : Int) - ((i * T : Nat) : Int) = ((seoff - i * T : Nat) : Int) := by omega
  have hwindow := @goSlice_natCast b (soff - off) (seoff - off) (by omega) (by omega)
  have hlen : seoff - off - (soff - off) = seoff - soff := by omega
  simp only [joinLoop, hsoff, hseoff, hkey, hchild]
  simp only [hs, hse, hwindow, hlen, hp, hr, hre, hf, Int.toNat_natCast, Nat.cast_add, Nat.cast_one]

theorem joinLoop_reads {data : List UInt8} {off eoff T : Nat} (hT : 0 < T) (hoe : off ≤ eoff)
    (hdata : eoff ≤ data.length)
    (hchild : ∀ i, i * T < eoff → ∃ key child,
      goSlice chunk.SData (8 + (i : Int) * r.hashSize) (8 + ((i : Int) + 1) * r.hashSize) = some key ∧
      retrieve store key = some child ∧
      ∀ o e (w : List UInt8), o ≤ e → e ≤ T → i * T + e ≤ eoff → w.length = e - o →
        f w o e child = some (.ok ((data.drop (i * T + o)).take (e - o)))) :
    ∀ n i (b : List UInt8), off / T ≤ i → i + n = (eoff + T - 1) / T → b.length = eoff - off →
      b.take (min (max (i * T) off) eoff - off) =
        ((data.drop off).take (eoff - off)).take (min (max (i * T) off) eoff - off) →
      r.joinLoop store f chunk off eoff T n i b = some (.ok ((data.drop off).take (eoff - off))) := by
  have hlen : ((data.drop off).take (eoff - off)).length = eoff - off := by simp; omega
  intro n
  induction n with
  | zero =>
    intro i b _ hend hb hpre
    have hceil := (ceil_div_bounds eoff hT).1
    rw [← hend, Nat.add_zero] at hceil
    have hcur : min (max (i * T) off) eoff - off = eoff - off := by omega
    rw [hcur, List.take_of_length_le (by omega), List.take_of_length_le (by omega)] at hpre
    rw [joinLoop, hpre]
  | succ n ih =>
    intro i b hi hend hb hpre
    have hiT : i * T < eoff := by
      have h1 : (i + 1) * T ≤ (eoff + T - 1) / T * T := Nat.mul_le_mul_right T (by omega)
      have h2 := Nat.div_mul_le_self (eoff + T - 1) T
      rw [Nat.succ_mul] at h1
      omega
    have hstart : off < i * T + T := by
      have h1 := Nat.lt_div_mul_add (a := off) hT
      have h2 : off / T * T ≤ i * T := Nat.mul_le_mul_right T hi
      omega
    obtain ⟨key, child, hkey, hret, hjoin⟩ := hchild i hiT
    -- the part `[soff, seoff)` of the window that child `i` holds, and where the next one starts
    have hsoff : max ((i : Int) * T) off = ((max (i * T) off : Nat) : Int) := by push_cast; rfl
    have hseoff : min ((i : Int) * T + T) eoff = ((min (i * T + T) eoff : Nat) : Int) := by push_cast; rfl
    have hwin : off ≤ max (i * T) off ∧ i * T ≤ max (i * T) off ∧ max (i * T) off ≤ min (i * T + T) eoff ∧
        min (i * T + T) eoff ≤ eoff ∧ min (max (i * T) off) eoff = max (i * T) off ∧
        min (max ((i + 1) * T) off) eoff = min (i * T + T) eoff := by
      rw [Nat.succ_mul]
      omega
    generalize max (i * T) off = soff at hsoff hwin hpre
    generalize min (i * T + T) eoff = seoff at hseoff hwin
    obtain ⟨h1, h2, h3, h4, hcur_i, hcur⟩ := hwin
    rw [hcur_i] at hpre
    have hw := hjoin (soff - i * T) (seoff - i * T) ((b.drop (soff - off)).take (seoff - soff))
      (by omega) (by omega) (by omega) (by rw [List.length_take, List.length_drop]; omega)
    rw [joinLoop_succ r store f chunk n hsoff hseoff hkey hret h1 h2 h3 (by omega) hw]
    apply ih (i + 1) _ (by omega) (by omega) (by simp [hb])
    -- the part of child `i` is the next piece of the window
    have hpiece : (data.drop (i * T + (soff - i * T))).take (seoff - i * T - (soff - i * T)) =
        (((data.drop off).take (eoff - off)).drop (soff - off)).take (seoff - soff) := by
      rw [List.drop_take, List.drop_drop, List.take_take, show off + (soff - off) = i * T + (soff - i * T) by omega,
        show seoff - i * T - (soff - i * T) = seoff - soff by omega, Nat.min_eq_left (by omega)]
    rw [hcur, hpiece, show seoff - off = (soff - off) + (seoff - soff) by omega]
    exact Slice.take_copyAt_drop_take hpre (by omega) (by omega)

end JoinLoop

section Join

variable (r : LazyChunkReader) (store : ChunkStore)

theorem join_leaf_eq {chunk : Chunk} {data : List UInt8} {size : Nat}
    (hdata : chunk.SData = putUint64 size ++ data.take size) (hlen : size ≤ data.length)
    {off eoff : Nat} (hoe : off ≤ eoff) (b : List UInt8) (T : Nat) :
    r.join store 0 b off eoff T chunk =
      if off ≤ size then some (.ok (Slice.copyAt b 0 ((data.drop off).take (min eoff size - off)))) else none := by
  have hsdata : chunk.SData.length = 8 + size := by simp [hdata]; omega
  have hcut : (if (8 : Int) + eoff - chunk.SData.length > 0 then (eoff : Int) - (8 + eoff - chunk.SData.length)
      else eoff) = ((min eoff size : Nat) : Int) := by
    rw [hsdata]
    split <;> omega
  have h8off : (8 : Int) + off = ((8 + off : Nat) : Int) := by push_cast; ring
  have h8end : (8 : Int) + ((min eoff size : Nat) : Int) = ((8 + min eoff size : Nat) : Int) := by push_cast; ring
  simp only [join, hcut]
  rw [h8off, h8end]
  by_cases hin : off ≤ size
  · rw [if_pos hin, goSlice_natCast _ (by omega) (by omega), Option.map_some]
    rw [hdata, List.drop_append, List.drop_of_length_le (l := putUint64 size) (by simp), List.nil_append,
      length_putUint64, show 8 + off - 8 = off by omega, List.drop_take, List.take_take]
    congr 4
    omega
  · rw [if_neg hin, goSlice_of_lt _ (by omega), Option.map_none]

theorem join_leaf {chunk : Chunk} {data : List UInt8} {size : Nat}
    (hdata : chunk.SData = putUint64 size ++ data.take size) (hlen : size ≤ data.length)
    {off eoff : Nat} (hoe : off ≤ eoff) (he : eoff ≤ size) {b : List UInt8} (hb : b.length = eoff - off)
    (T : Nat) : r.join store 0 b off eoff T chunk = some (.ok ((data.drop off).take (eoff - off))) := by
  have hsrc : ((data.drop off).take (eoff - off)).length = b.length := by simp; omega
  rw [join_leaf_eq r store hdata hlen hoe, if_pos (by omega), Nat.min_eq_left he,
    Slice.copyAt_zero hsrc.le, hsrc, List.drop_length, List.append_nil]

theorem join_node {d : Nat} {b : List UInt8} {off eoff T : Nat} {chunk : Chunk} (hT : 0 < T)
    (hsize : ¬ chunk.Size < T) :
    r.join store (d + 1) b off eoff T chunk =
      r.joinLoop store (fun b off eoff chunk => r.join store d b off eoff (T / r.branches) chunk)
        chunk off eoff T ((eoff + T - 1) / T - off / T) (off / T : Nat) b := by
  have hstart : (off : Int).tdiv T = ((off / T : Nat) : Int) := by
    rw [Int.tdiv_eq_ediv_of_nonneg (by omega), Int.natCast_ediv]
  have hend : ((eoff : Int) + T - 1).tdiv T = (((eoff + T - 1) / T : Nat) : Int) := by
    rw [show (eoff : Int) + T - 1 = ((eoff + T - 1 : Nat) : Int) by omega,
      Int.tdiv_eq_ediv_of_nonneg (by omega), Int.natCast_ediv]
  have hcount : ((((eoff + T - 1) / T : Nat) : Int) - ((off / T : Nat) : Int)).toNat =
      (eoff + T - 1) / T - off / T := by
    omega
  rw [join, if_neg hsize]
  simp only [hstart, hend, hcount]

end Join

end LazyChunkReader

/-! ## `split` -/

namespace TreeChunker

theorem div_branches {b : Nat} (hb : 0 < b) (hs d : Nat) : hs * b ^ (d + 1) / b = hs * b ^ d := by
  rw [pow_succ, ← Nat.mul_assoc, Nat.mul_div_cancel _ hb]

theorem split_zero (self : TreeChunker) {T size : Nat} {data : List UInt8} {key : Key} {chunks : List Chunk}
    {rest : List UInt8} (h : self.split 0 T data size = .ok (key, chunks, rest)) :
    size ≤ data.length ∧ key = self.hash (putUint64 size ++ data.take size) ∧
      chunks = [⟨key, putUint64 size ++ data.take size, size⟩] ∧ rest = data.drop size := by
  simp only [split] at h
  split at h
  · cases h
  rename_i hlen
  simp only [Except.ok.injEq, Prod.mk.injEq] at h
  obtain ⟨rfl, rfl, rfl⟩ := h
  exact ⟨by omega, rfl, rfl, rfl⟩

theorem chunkSize_mul_div (self : TreeChunker) (hb : 0 < self.branches) (d : Nat) :
    self.chunkSize * self.branches ^ d / self.branches = self.hashSize * self.branches ^ d := by
  rw [chunkSize, Nat.mul_assoc, ← pow_succ', div_branches hb]

section Split

variable (self : TreeChunker) (hb : 0 < self.branches) (hh : 0 < self.hashSize)
include hb hh

theorem treeSize_pos (d : Nat) : 0 < self.hashSize * self.branches ^ d :=
  Nat.mul_pos hh (Nat.pow_pos hb)

theorem split_consumes :
    ∀ d data size key chunks rest, self.split d (self.hashSize * self.branches ^ d) data size = .ok (key, chunks, rest) →
      size ≤ data.length ∧ rest = data.drop size := by
  intro d
  induction d with
  | zero =>
    intro data size key chunks rest h
    obtain ⟨hlen, -, -, hrest⟩ := split_zero self h
    exact ⟨hlen, hrest⟩
  | succ d ih =>
    intro data size key chunks rest h
    simp only [split, div_branches hb] at h
    split at h
    · exact ih _ _ _ _ _ h
    rename_i hge
    obtain ⟨⟨keys, cs, rest'⟩, hloop, hroot⟩ := except_map_eq_ok h
    simp only [Prod.mk.injEq] at hroot
    obtain ⟨-, -, rfl⟩ := hroot
    have hbounds := ceil_div_bounds size (treeSize_pos self hb hh (d + 1))
    obtain ⟨hlen, hrest, -⟩ := splitLoop_ok (ih) _ _ _ _ _ _ hloop (by omega) (by omega)
    exact ⟨by simpa using hlen, by simpa using hrest⟩

theorem split_ok :
    ∀ d data size, size ≤ data.length →
      ∃ key chunks, self.split d (self.hashSize * self.branches ^ d) data size = .ok (key, chunks, data.drop size) := by
  intro d
  induction d with
  | zero =>
    intro data size hlen
    exact ⟨_, _, by rw [split, if_neg (by omega)]⟩
  | succ d ih =>
    intro data size hlen
    simp only [split, div_branches hb]
    split
    · exact ih data size hlen
    have hchild : ∀ data s, s ≤ data.length → ∃ key chunks,
        self.split d (self.hashSize * self.branches ^ d) data s = .ok (key, chunks, data.drop s) := ih
    obtain ⟨keys, cs, rest, hloop⟩ := @splitLoop_exists _ size (self.hashSize * self.branches ^ (d + 1)) hchild
      ((size + self.hashSize * self.branches ^ (d + 1) - 1) / (self.hashSize * self.branches ^ (d + 1))) 0 data
      (by omega)
    have hbounds := ceil_div_bounds size (treeSize_pos self hb hh (d + 1))
    obtain ⟨-, hrest, -⟩ := splitLoop_ok (split_consumes self hb hh d) _ _ _ _ _ _ hloop (by omega) (by omega)
    exact ⟨_, _, by rw [hloop, hrest, Nat.sub_zero]; rfl⟩

theorem join_split :
    ∀ d data size key chunks rest, self.split d (self.hashSize * self.branches ^ d) data size = .ok (key, chunks, rest) →
      ∃ root ∈ chunks, root.Key = key ∧ key = self.hash root.SData ∧ root.Size = size ∧ root.SData ≠ [] ∧
        ∀ store (r : LazyChunkReader), Serves store chunks → r.branches = self.branches →
          r.hashSize = self.hashSize → ∀ off eoff (b : List UInt8), off ≤ eoff → eoff ≤ size → b.length = eoff - off →
            r.join store d b off eoff (self.hashSize * self.branches ^ d) root =
              some (.ok ((data.drop off).take (eoff - off))) := by
  intro d
  induction d with
  | zero =>
    intro data size key chunks rest h
    obtain ⟨hlen, hkey, rfl, -⟩ := split_zero self h
    refine ⟨_, List.mem_singleton_self _, rfl, hkey, rfl, putUint64_append_ne_nil _ _, ?_⟩
    intro store r _ _ _ off eoff b hoe he hblen
    exact r.join_leaf store rfl hlen hoe he hblen _
  | succ d ih =>
    intro data size key chunks rest h
    simp only [split, div_branches hb] at h
    split at h
    · -- the data fits in one child: `split` and `join` both go down a level
      rename_i hlt
      obtain ⟨root, hroot, hkey, hhash, hsize, hne, hjoin⟩ := ih _ _ _ _ _ h
      refine ⟨root, hroot, hkey, hhash, hsize, hne, fun store r hstore hrb hrh off eoff b hoe he hblen => ?_⟩
      rw [LazyChunkReader.join, if_pos (by rw [hsize]; exact_mod_cast hlt), hrb, div_branches hb]
      exact hjoin store r hstore hrb hrh off eoff b hoe he hblen
    rename_i hge
    obtain ⟨⟨keys, cs, rest'⟩, hloop, hroot⟩ := except_map_eq_ok h
    simp only [Prod.mk.injEq] at hroot
    obtain ⟨rfl, rfl, -⟩ := hroot
    refine ⟨_, List.mem_append_right _ (List.mem_singleton_self _), rfl, rfl, rfl,
      putUint64_append_ne_nil _ _, ?_⟩
    intro store r hstore hrb hrh off eoff b hoe he hblen
    have hT := treeSize_pos self hb hh (d + 1)
    set T := self.hashSize * self.branches ^ (d + 1) with hTdef
    have hbounds := ceil_div_bounds size hT
    obtain ⟨hlen, -, hcount, hchildren⟩ :=
      splitLoop_ok (split_consumes self hb hh d) _ _ _ _ _ _ hloop (by omega) (by omega)
    -- child `j` of the loop: its key, the root chunk of its subtree, and what joining that reads
    have hchild : ∀ j < (size + T - 1) / T, ∃ k croot, keys[j]? = some k ∧ croot ∈ cs ∧ croot.Key = k ∧
        k = self.hash croot.SData ∧ croot.SData ≠ [] ∧
        ∀ o e (w : List UInt8), o ≤ e → e ≤ secSize size T (j * T) → w.length = e - o →
          r.join store d w o e (self.hashSize * self.branches ^ d) croot =
            some (.ok ((data.drop (j * T + o)).take (e - o))) := by
      intro j hj
      obtain ⟨k, ck, rk, hk, hsplit, hsub⟩ := hchildren j hj
      rw [Nat.zero_add] at hsplit
      obtain ⟨croot, hcroot, hckey, hchash, -, hcne, hcjoin⟩ := ih _ _ _ _ _ hsplit
      refine ⟨k, croot, hk, hsub _ hcroot, hckey, hchash, hcne, fun o e w hoe' he' hw => ?_⟩
      rw [hcjoin store r (hstore.mono fun c hc => List.mem_append_left _ (hsub c hc)) hrb hrh o e w hoe' he' hw,
        List.drop_drop]
    have hkeys : ∀ k ∈ keys, k.length = r.hashSize := by
      intro k hk
      obtain ⟨j, hj⟩ := List.mem_iff_getElem?.mp hk
      obtain ⟨k', _, hk', -, -, hhash, -⟩ :=
        hchild j (by rw [← hcount]; exact (List.getElem?_eq_some_iff.mp hj).1)
      rw [hj, Option.some.injEq] at hk'
      rw [hk', hhash, self.length_hash, hrh]
    have hstart : min (max (off / T * T) off) eoff - off = 0 := by
      have := Nat.div_mul_le_self off T
      omega
    rw [r.join_node store hT (show ¬ ((size : Int) < (T : Int)) by exact_mod_cast hge)]
    refine r.joinLoop_reads store _ _ hT hoe (by omega) ?_ _ _ b le_rfl
      (Nat.add_sub_cancel' (Nat.div_le_div_right (by omega))) hblen (by rw [hstart, List.take_zero, List.take_zero])
    intro i hi
    obtain ⟨k, croot, hk, hcroot, hckey, -, hcne, hcjoin⟩ := hchild i
      (Nat.lt_of_mul_lt_mul_right (show i * T < (size + T - 1) / T * T by omega))
    refine ⟨k, croot, goSlice_key hkeys hk, ?_, fun o e w hoe' he' hie hw => ?_⟩
    · rw [← hckey]
      exact retrieve_of_serves hstore (List.mem_append_left _ hcroot) hcne
    · have hsec : e ≤ secSize size T (i * T) := by
        rcases secSize_cases size T (i * T) with ⟨_, hs⟩ | ⟨_, hs⟩ <;> omega
      show r.join store d w o e (T / r.branches) croot = _
      rw [hrb, hTdef, div_branches hb]
      exact hcjoin o e w hoe' hsec hw

end Split

end TreeChunker

/-! ## `Size` and `ReadAt` on the reader of a root key -/

namespace LazyChunkReader

theorem Size_Join (c : TreeChunker) {store : ChunkStore} {key : Key} {root : Chunk}
    (hroot : retrieve store key = some root) :
    (c.Join key).Size store = (.ok root.Size, ⟨key, some root, 0, c.chunkSize, c.branches, c.hashSize⟩) := by
  simp [Size, TreeChunker.Join, hroot]

section ReadAt

variable (c : TreeChunker) {store : ChunkStore} {key : Key} {root : Chunk}
  (hroot : retrieve store key = some root) {depth treeSize : Nat}
  (hdepth : treeDepth c.branches root.Size root.Size.toNat 0 c.chunkSize = some (depth, treeSize))
  {b : List UInt8} (hb : b.length ≠ 0) (off : Int)
include hroot hdepth hb

theorem ReadAt_Join_ok {b' : List UInt8}
    (hjoin : (⟨key, some root, 0, c.chunkSize, c.branches, c.hashSize⟩ : LazyChunkReader).join store depth b off
      (off + b.length) (treeSize / c.branches) root = some (.ok b')) :
    (c.Join key).ReadAt store b off = some (.ok (b.length, decide (root.Size ≤ off + b.length), b'),
      ⟨key, some root, 0, c.chunkSize, c.branches, c.hashSize⟩) := by
  rw [ReadAt, if_neg hb, Size_Join c hroot]
  simp only [hdepth, hjoin]

theorem ReadAt_Join_none
    (hjoin : (⟨key, some root, 0, c.chunkSize, c.branches, c.hashSize⟩ : LazyChunkReader).join store depth b off
      (off + b.length) (treeSize / c.branches) root = none) :
    (c.Join key).ReadAt store b off = none := by
  rw [ReadAt, if_neg hb, Size_Join c hroot]
  simp only [hdepth, hjoin]

end ReadAt

end LazyChunkReader

namespace TreeChunker

section Reading

variable (c : TreeChunker) (hb : 2 ≤ c.branches) (hh : 0 < c.hashSize)
include hb hh

theorem Split_split {data : List UInt8} {key : Key} {chunks : List Chunk}
    (hsplit : c.Split data data.length = some (.ok (key, chunks))) :
    ∃ depth rest, treeDepth c.branches data.length data.length 0 c.chunkSize = some (depth, c.chunkSize * c.branches ^ depth) ∧
      c.split depth (c.hashSize * c.branches ^ depth) data data.length = .ok (key, chunks, rest) := by
  obtain ⟨depth, hdepth⟩ := treeDepth_chunkSize hb hh data.length
  have hpos : c.chunkSize ≠ 0 := Nat.mul_ne_zero (by omega) (by omega)
  simp only [Split, if_neg hpos, hdepth, Option.map_some, Option.some.injEq] at hsplit
  rw [chunkSize_mul_div c (by omega)] at hsplit
  obtain ⟨⟨key', chunks', rest⟩, hroot, hkc⟩ := except_map_eq_ok hsplit
  simp only [Prod.mk.injEq] at hkc
  obtain ⟨rfl, rfl⟩ := hkc
  exact ⟨depth, rest, hdepth, hroot⟩

theorem Split_ok (data : List UInt8) : ∃ key chunks, c.Split data data.length = some (.ok (key, chunks)) := by
  obtain ⟨depth, hdepth⟩ := treeDepth_chunkSize hb hh data.length
  obtain ⟨key, chunks, hroot⟩ := split_ok c (by omega) hh depth data data.length le_rfl
  have hpos : c.chunkSize ≠ 0 := Nat.mul_ne_zero (by omega) (by omega)
  refine ⟨key, chunks, ?_⟩
  simp only [Split, if_neg hpos, hdepth, Option.map_some]
  rw [chunkSize_mul_div c (by omega), hroot]
  rfl

/-- The reader of the root key that `Split` returned, over a store that serves the chunks it
emitted, reports the size of the data, and reads every window inside the data exactly: the
count is the length of the buffer, and `io.EOF` comes with the window that reaches the end. -/
theorem ReadAt_Join_Split {data : List UInt8} {key : Key} {chunks : List Chunk}
    (hsplit : c.Split data data.length = some (.ok (key, chunks))) {store : ChunkStore}
    (hstore : Serves store chunks) (b : List UInt8) (off : Nat) (hb0 : 0 < b.length)
    (hend : off + b.length ≤ data.length) :
    ((c.Join key).Size store).1 = .ok data.length ∧
      ∃ reader, (c.Join key).ReadAt store b off =
        some (.ok (b.length, decide (data.length ≤ off + b.length), (data.drop off).take b.length), reader) := by
  obtain ⟨depth, rest, hdepth, hroot⟩ := Split_split c hb hh hsplit
  obtain ⟨root, hmem, hkey, -, hsize, hne, hjoin⟩ := join_split c (by omega) hh depth data data.length key chunks rest hroot
  have hret : retrieve store key = some root := hkey ▸ retrieve_of_serves hstore hmem hne
  have hdepth' : treeDepth c.branches root.Size root.Size.toNat 0 c.chunkSize =
      some (depth, c.chunkSize * c.branches ^ depth) := by
    rw [hsize, Int.toNat_natCast]
    exact hdepth
  refine ⟨by rw [LazyChunkReader.Size_Join c hret, hsize], ⟨key, some root, 0, c.chunkSize, c.branches, c.hashSize⟩, ?_⟩
  have hread := hjoin store ⟨key, some root, 0, c.chunkSize, c.branches, c.hashSize⟩ hstore rfl rfl off (off + b.length) b
    (by omega) hend (by omega)
  rw [← chunkSize_mul_div c (by omega), Nat.add_sub_cancel_left, Nat.cast_add] at hread
  rw [LazyChunkReader.ReadAt_Join_ok c hret hdepth' (by omega) off hread, hsize]
  rw [← Nat.cast_add]
  simp only [Nat.cast_le]

end Reading

def chunker2 : TreeChunker :=
  ⟨2, 1, fun chunk => [UInt8.ofNat (chunk.foldl (fun a x => a * 31 + x.toNat) 7)], fun _ => rfl⟩

/-- Five bytes in a tree of depth two, read from offset one with a buffer of four: the window
crosses both leaves of the first subtree and reaches into the second subtree. -/
theorem ReadAt_Join_Split_five_bytes :
    ∃ reader, (chunker2.Join [94]).ReadAt
        (fun k => [(⟨[166], putUint64 2 ++ [1, 2], 2⟩ : Chunk), ⟨[230], putUint64 2 ++ [3, 4], 2⟩,
          ⟨[195], putUint64 4 ++ [166, 230], 4⟩, ⟨[223], putUint64 1 ++ [5], 1⟩,
          ⟨[94], putUint64 5 ++ [195, 223], 5⟩].find? (·.Key == k))
        [0, 0, 0, 0] 1 = some (.ok (4, true, [2, 3, 4, 5]), reader) :=
  (@ReadAt_Join_Split chunker2 (by decide) (by decide) [1, 2, 3, 4, 5] [94]
    [⟨[166], putUint64 2 ++ [1, 2], 2⟩, ⟨[230], putUint64 2 ++ [3, 4], 2⟩, ⟨[195], putUint64 4 ++ [166, 230], 4⟩,
      ⟨[223], putUint64 1 ++ [5], 1⟩, ⟨[94], putUint64 5 ++ [195, 223], 5⟩]
    (by decide) _ (by decide) [0, 0, 0, 0] 1 (by decide) (by decide)).2

section PastEnd

variable (c : TreeChunker) (hb : 2 ≤ c.branches) (hh : 0 < c.hashSize)
include hb hh

/-- For data of at most one chunk, a window that reaches past the end of the data is reported
read in full, with `io.EOF`: the bytes of the data from `off` on are copied, and the rest of
the buffer is left as it was. A window that starts past the end makes the slice of the leaf
panic. -/
theorem ReadAt_past_end {data : List UInt8} (hsmall : data.length ≤ c.chunkSize) {key : Key}
    {chunks : List Chunk} (hsplit : c.Split data data.length = some (.ok (key, chunks))) {store : ChunkStore}
    (hstore : Serves store chunks) (b : List UInt8) (off : Nat) (hb0 : 0 < b.length)
    (hend : data.length < off + b.length) :
    (off ≤ data.length → ∃ reader, (c.Join key).ReadAt store b off =
        some (.ok (b.length, true, data.drop off ++ b.drop (data.length - off)), reader)) ∧
      (data.length < off → (c.Join key).ReadAt store b off = none) := by
  obtain ⟨depth, rest, hdepth, hroot⟩ := Split_split c hb hh hsplit
  -- the data fits in one chunk, so the tree is a single leaf
  have h0 : depth = 0 := by
    rw [treeDepth_of_le c.branches hsmall] at hdepth
    exact (Prod.mk.inj (Option.some.inj hdepth)).1.symm
  subst h0
  obtain ⟨-, hkey, rfl, -⟩ := split_zero c hroot
  set root : Chunk := ⟨key, putUint64 data.length ++ data.take data.length, data.length⟩
  have hret : retrieve store key = some root :=
    retrieve_of_serves hstore (List.mem_singleton_self _) (putUint64_append_ne_nil _ _)
  have hdepth' : treeDepth c.branches root.Size root.Size.toNat 0 c.chunkSize =
      some (0, c.chunkSize * c.branches ^ 0) := by
    rw [show root.Size = data.length from rfl, Int.toNat_natCast]
    exact hdepth
  have hjoin := LazyChunkReader.join_leaf_eq ⟨key, some root, 0, c.chunkSize, c.branches, c.hashSize⟩ store
    (show root.SData = putUint64 data.length ++ data.take data.length from rfl) le_rfl
    (Nat.le_add_right off b.length) b (c.chunkSize * c.branches ^ 0 / c.branches)
  rw [Nat.cast_add] at hjoin
  constructor
  · intro hoff
    rw [if_pos hoff, Nat.min_eq_right hend.le, List.take_of_length_le (by simp),
      Slice.copyAt_zero (by simp; omega), List.length_drop] at hjoin
    refine ⟨⟨key, some root, 0, c.chunkSize, c.branches, c.hashSize⟩, ?_⟩
    rw [LazyChunkReader.ReadAt_Join_ok c hret hdepth' (by omega) off hjoin,
      show root.Size = (data.length : Int) from rfl]
    simp only [Option.some.injEq, Prod.mk.injEq, Except.ok.injEq, decide_eq_true_eq, and_true, true_and]
    omega
  · intro hoff
    rw [if_neg (by omega)] at hjoin
    exact LazyChunkReader.ReadAt_Join_none c hret hdepth' (by omega) off hjoin

end PastEnd

/-- A chunker with the parameters of `NewChunkerParams`, 128 branches of 32-byte keys, and a
stand-in for Keccak-256 of the same length. -/
def chunker128 : TreeChunker :=
  ⟨128, 32, fun chunk => List.replicate 31 0 ++ [UInt8.ofNat chunk.length], fun _ => by simp⟩

/-- One byte of data, read from its start with a buffer of two: `ReadAt` reports two bytes and
leaves the second byte of the buffer as it was. -/
theorem ReadAt_past_end_one_byte :
    ∃ reader, (chunker128.Join (List.replicate 31 0 ++ [9])).ReadAt
        (fun k => if k = List.replicate 31 0 ++ [9] then
          some ⟨List.replicate 31 0 ++ [9], putUint64 1 ++ [7], 1⟩ else none)
        [9, 9] 0 = some (.ok (2, true, [7, 9]), reader) :=
  (@ReadAt_past_end chunker128 (by decide) (by decide) [7] (by decide) (List.replicate 31 0 ++ [9])
    [⟨List.replicate 31 0 ++ [9], putUint64 1 ++ [7], 1⟩] (by decide) _ (by decide) [9, 9] 0 (by decide)
    (by decide)).1 (by decide)

end TreeChunker

end Zerium.Swarm
