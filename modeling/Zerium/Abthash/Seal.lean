import Zerium.Abthash.Algorithm

/-! # Mining against verification

A seal that `mine` finds passes `VerifySeal` when `hashimotoFull` over the miner's dataset
computes what `hashimotoLight` computes from the cache. `hashimoto` reads only the items below
twice its number of rows (`hashimoto_congr`), and `generateDataset` stores every item at its
place whatever the number of goroutines (`getElem?_generateDataset`), as long as the byte
offsets of the items fit in `uint32`: so the two agree for every dataset of at most `2 ^ 32`
bytes (`hashimotoFull_eq_hashimotoLight`, `mine_passes_VerifySeal`). Past that size the offset
wraps around, and the words from byte `2 ^ 32` on are never written (`generateDataset_high`).
-/

namespace Zerium.Abthash

set_option autoImplicit false

section Dataset

variable (keccak512 : Hasher 64) (cache : List UInt32)

theorem length_words_item (index : UInt32) :
    (words (generateDatasetItem keccak512 cache index)).length = hashWords := by
  have h : (generateDatasetItem keccak512 cache index).length = 64 := keccak512.length_sum _
  simp [words, h, hashWords_eq]

theorem length_storeItem (dataset : List UInt32) (index : Nat) :
    (storeItem keccak512 cache dataset index).length = dataset.length :=
  Slice.length_copyAt _ _ _

theorem length_generateSegment (first limit : Nat) (dataset : List UInt32) :
    (generateSegment keccak512 cache first limit dataset).length = dataset.length :=
  Slice.length_foldl_of_forall _ (length_storeItem keccak512 cache) _ _

theorem length_generateDataset (threads : Nat) (dest : List UInt32) :
    (generateDataset keccak512 cache threads dest).length = dest.length :=
  Slice.length_foldl_of_forall _ (fun _ _ => length_generateSegment keccak512 cache _ _ _) _ _

theorem storeItem_offset {index : Nat} (h : index * hashBytes < 2 ^ 32) :
    index * hashBytes % 2 ^ 32 / 4 = index * hashWords := by
  rw [Nat.mod_eq_of_lt h, hashBytes_eq, hashWords_eq]
  omega

theorem getElem?_storeItem_of_mem (dataset : List UInt32) {index p : Nat}
    (h : index * hashBytes < 2 ^ 32) (hlo : index * hashWords ≤ p)
    (hhi : p < index * hashWords + hashWords) (hlen : p < dataset.length) :
    (storeItem keccak512 cache dataset index)[p]? =
      (words (generateDatasetItem keccak512 cache (UInt32.ofNat index)))[p - index * hashWords]? := by
  rw [storeItem, storeItem_offset h]
  exact Slice.getElem?_copyAt_of_mem hlo (by rw [length_words_item]; exact hhi) hlen

theorem getElem?_storeItem_of_not_mem (dataset : List UInt32) {index p : Nat}
    (hp : p < index * hashBytes % 2 ^ 32 / 4 ∨ index * hashBytes % 2 ^ 32 / 4 + hashWords ≤ p) :
    (storeItem keccak512 cache dataset index)[p]? = dataset[p]? := by
  rw [storeItem]
  exact Slice.getElem?_copyAt_of_not_mem (by rw [length_words_item]; exact hp)

theorem getElem?_foldl_storeItem (first : Nat) (dataset : List UInt32) (p m : Nat)
    (hbound : (first + m) * hashBytes ≤ 2 ^ 32) (hlen : (first + m) * hashWords ≤ dataset.length) :
    ((List.range' first m).foldl (storeItem keccak512 cache) dataset)[p]? =
      if first * hashWords ≤ p ∧ p < (first + m) * hashWords then
        (words (generateDatasetItem keccak512 cache (UInt32.ofNat (p / hashWords))))[p % hashWords]?
      else dataset[p]? := by
  rw [hashBytes_eq] at hbound
  induction m with
  | zero =>
    rw [List.range'_zero, List.foldl_nil, Nat.add_zero, if_neg (by omega)]
  | succ m ih =>
    rw [List.range'_concat, List.foldl_append, List.foldl_cons, List.foldl_nil, Nat.one_mul]
    have hlast : (first + m) * hashBytes < 2 ^ 32 := by rw [hashBytes_eq]; omega
    have hprev : ((List.range' first m).foldl (storeItem keccak512 cache) dataset).length =
        dataset.length := Slice.length_foldl_of_forall _ (length_storeItem keccak512 cache) _ _
    by_cases hp : (first + m) * hashWords ≤ p ∧ p < (first + m) * hashWords + hashWords
    · -- the item stored last
      rw [getElem?_storeItem_of_mem keccak512 cache _ hlast hp.1 hp.2 (by rw [hprev]; rw [hashWords_eq] at *; omega),
        if_pos (by rw [hashWords_eq] at *; omega)]
      have hdiv : p / hashWords = first + m := by rw [hashWords_eq] at *; omega
      have hmod : p % hashWords = p - (first + m) * hashWords := by rw [hashWords_eq] at *; omega
      rw [hdiv, hmod]
    · -- an earlier item, or none
      rw [getElem?_storeItem_of_not_mem keccak512 cache _ (by rw [storeItem_offset hlast]; omega),
        ih (by omega) (by rw [hashWords_eq] at *; omega)]
      exact if_congr (by rw [hashWords_eq] at *; omega) rfl rfl

theorem getElem?_generateSegment (first limit : Nat) (dataset : List UInt32) (p : Nat)
    (hbound : limit * hashBytes ≤ 2 ^ 32) (hlen : limit * hashWords ≤ dataset.length) :
    (generateSegment keccak512 cache first limit dataset)[p]? =
      if first * hashWords ≤ p ∧ p < limit * hashWords then
        (words (generateDatasetItem keccak512 cache (UInt32.ofNat (p / hashWords))))[p % hashWords]?
      else dataset[p]? := by
  rw [generateSegment]
  by_cases hfl : first ≤ limit
  · have hsum : first + (limit - first) = limit := by omega
    rw [getElem?_foldl_storeItem keccak512 cache first dataset p (limit - first) (by rw [hsum]; exact hbound)
      (by rw [hsum]; exact hlen), hsum]
  · -- a goroutine past the last item stores nothing
    rw [Nat.sub_eq_zero_of_le (by omega), List.range'_zero, List.foldl_nil]
    have hempty : ¬ (first * hashWords ≤ p ∧ p < limit * hashWords) := by rw [hashWords_eq]; omega
    rw [if_neg hempty]

theorem le_ceilDiv_mul (a d : Nat) (hd : 0 < d) : a ≤ (a + d - 1) / d * d := by
  have h1 := Nat.div_add_mod (a + d - 1) d
  have h2 := Nat.mod_lt (a + d - 1) hd
  rw [Nat.mul_comm]
  omega

theorem getElem?_generateDataset (threads : Nat) (dest : List UInt32) (hthreads : 0 < threads)
    (hsize : dest.length * 4 ≤ 2 ^ 32) (p : Nat) :
    (generateDataset keccak512 cache threads dest)[p]? =
      if p < dest.length * 4 / hashBytes * hashWords then
        (words (generateDatasetItem keccak512 cache (UInt32.ofNat (p / hashWords))))[p % hashWords]?
      else dest[p]? := by
  rw [generateDataset]
  generalize hN : dest.length * 4 / hashBytes = N
  generalize hbatch : (dest.length * 4 + hashBytes * threads - 1) / (hashBytes * threads) = batch
  have hN64 : N * hashBytes ≤ 2 ^ 32 := by rw [← hN, hashBytes_eq]; omega
  have hN16 : N * hashWords ≤ dest.length := by rw [← hN, hashBytes_eq, hashWords_eq]; omega
  -- after `t` goroutines, the items below `t * batch` are stored
  have hrun : ∀ t, ((List.range t).foldl (fun dataset id =>
      generateSegment keccak512 cache (id * batch) (min (id * batch + batch) N) dataset) dest)[p]? =
      if p < min (t * batch) N * hashWords then
        (words (generateDatasetItem keccak512 cache (UInt32.ofNat (p / hashWords))))[p % hashWords]?
      else dest[p]? := by
    intro t
    induction t with
    | zero => rw [List.range_zero, List.foldl_nil, Nat.zero_mul, Nat.zero_min, Nat.zero_mul,
        if_neg (Nat.not_lt_zero p)]
    | succ t ih =>
      rw [List.range_succ, List.foldl_append, List.foldl_cons, List.foldl_nil]
      have hlimit : min (t * batch + batch) N ≤ N := Nat.min_le_right _ _
      rw [getElem?_generateSegment keccak512 cache _ _ _ p
        (le_trans (Nat.mul_le_mul_right _ hlimit) hN64)
        (by rw [Slice.length_foldl_of_forall _ (fun _ _ => length_generateSegment keccak512 cache _ _ _)]
            exact le_trans (Nat.mul_le_mul_right _ hlimit) hN16),
        ih, Nat.succ_mul]
      by_cases h₁ : t * batch * hashWords ≤ p ∧ p < min (t * batch + batch) N * hashWords
      · rw [if_pos h₁, if_pos (by rw [hashWords_eq] at *; omega)]
      · rw [if_neg h₁]
        exact if_congr (by rw [hashWords_eq] at *; omega) rfl rfl
  have hcover : N ≤ threads * batch := by
    have hceil := le_ceilDiv_mul (dest.length * 4) (hashBytes * threads)
      (Nat.mul_pos (by rw [hashBytes_eq]; decide) hthreads)
    rw [hbatch] at hceil
    rw [← hN]
    apply Nat.div_le_of_le_mul
    calc dest.length * 4 ≤ batch * (hashBytes * threads) := hceil
      _ = hashBytes * (threads * batch) := by ring
  rw [hrun threads, Nat.min_eq_right hcover]

theorem getElem?_storeItem_high (dataset : List UInt32) (index p : Nat) (hp : 2 ^ 30 ≤ p) :
    (storeItem keccak512 cache dataset index)[p]? = dataset[p]? := by
  apply getElem?_storeItem_of_not_mem
  have hlt : index * hashBytes % 2 ^ 32 < 2 ^ 32 := Nat.mod_lt _ (by decide)
  have hal : index * hashBytes % 2 ^ 32 % 64 = 0 := by
    rw [Nat.mod_mod_of_dvd _ (by decide : 64 ∣ 2 ^ 32), hashBytes_eq, Nat.mul_mod_left]
  rw [hashWords_eq]
  omega

theorem generateDataset_high (threads : Nat) (dest : List UInt32) (p : Nat) (hp : 2 ^ 30 ≤ p) :
    (generateDataset keccak512 cache threads dest)[p]? = dest[p]? := by
  have hsegment : ∀ (dataset : List UInt32) (first limit : Nat),
      (generateSegment keccak512 cache first limit dataset)[p]? = dataset[p]? := fun _ _ _ =>
    Slice.getElem?_foldl_of_forall _ p (fun _ _ => getElem?_storeItem_high keccak512 cache _ _ p hp) _ _
  exact Slice.getElem?_foldl_of_forall _ p (fun _ _ => hsegment _ _ _) _ _

theorem fullLookup_generateDataset (threads : Nat) (dest : List UInt32) (hthreads : 0 < threads)
    (hsize : dest.length * 4 ≤ 2 ^ 32) (index : UInt32)
    (hindex : index.toNat < dest.length * 4 / hashBytes) :
    fullLookup (generateDataset keccak512 cache threads dest) index =
      words (generateDatasetItem keccak512 cache index) := by
  have hoff : index.toNat * hashWords % 2 ^ 32 = index.toNat * hashWords := by
    apply Nat.mod_eq_of_lt
    rw [hashBytes_eq] at hindex
    rw [hashWords_eq]
    omega
  rw [fullLookup, hoff]
  apply List.ext_getElem?
  intro q
  rw [List.getElem?_take, List.getElem?_drop]
  by_cases hq : q < hashWords
  · rw [if_pos hq, getElem?_generateDataset keccak512 cache threads dest hthreads hsize,
      if_pos (by rw [hashBytes_eq] at hindex ⊢; rw [hashWords_eq] at *; omega)]
    have hdiv : (index.toNat * hashWords + q) / hashWords = index.toNat := by
      rw [hashWords_eq] at *; omega
    have hmod : (index.toNat * hashWords + q) % hashWords = q := by
      rw [hashWords_eq] at *; omega
    rw [hdiv, hmod, UInt32.ofNat_toNat]
  · rw [if_neg hq, List.getElem?_eq_none (by rw [length_words_item]; omega)]

end Dataset

section Hashimoto

variable (keccak256 : Hasher 32) (keccak512 : Hasher 64)

theorem mixAccess_congr {l₁ l₂ : UInt32 → List UInt32} {rows : UInt32} (hrows : 0 < rows.toNat)
    (hlt : rows.toNat < 2 ^ 31) (h : ∀ index : UInt32, index.toNat < 2 * rows.toNat → l₁ index = l₂ index)
    (seedHead : UInt32) (mix : List UInt32) (i : Nat) :
    mixAccess l₁ rows seedHead mix i = mixAccess l₂ rows seedHead mix i := by
  rw [mixAccess, mixAccess]
  congr 1
  apply List.flatMap_congr
  intro j hj
  apply h
  have hj2 : j < 2 := by simpa [mixBytes_eq, hashBytes_eq] using hj
  have hparent : (fnv (UInt32.ofNat i ^^^ seedHead) (mix.getD (i % mix.length) 0) % rows).toNat <
      rows.toNat := by
    rw [UInt32.toNat_mod]
    exact Nat.mod_lt _ hrows
  generalize fnv (UInt32.ofNat i ^^^ seedHead) (mix.getD (i % mix.length) 0) % rows = parent at hparent ⊢
  have h2 : (2 : UInt32).toNat = 2 := rfl
  rw [UInt32.toNat_add, UInt32.toNat_mul, UInt32.toNat_ofNat', h2]
  omega

theorem hashimoto_congr (hash : List UInt8) (nonce : UInt64) {size : Nat} {l₁ l₂ : UInt32 → List UInt32}
    (hpos : mixBytes ≤ size) (hsize : size / mixBytes < 2 ^ 31)
    (h : ∀ index : UInt32, index.toNat < 2 * (size / mixBytes) → l₁ index = l₂ index) :
    hashimoto keccak256 keccak512 hash nonce size l₁ = hashimoto keccak256 keccak512 hash nonce size l₂ := by
  have hrows : (UInt32.ofNat (size / mixBytes)).toNat = size / mixBytes :=
    UInt32.toNat_ofNat_of_lt' (by unfold UInt32.size; omega)
  have hone : 0 < size / mixBytes := Nat.div_pos hpos (by rw [mixBytes_eq]; decide)
  have hstep : mixAccess l₁ (UInt32.ofNat (size / mixBytes)) = mixAccess l₂ (UInt32.ofNat (size / mixBytes)) := by
    funext seedHead mix i
    exact mixAccess_congr (by omega) (by omega) (fun index hi => h index (by omega)) seedHead mix i
  rw [hashimoto, hashimoto, hstep]

theorem hashimotoFull_eq_hashimotoLight (cache : List UInt32) (threads dsize : Nat)
    (hash : List UInt8) (nonce : UInt64) (hthreads : 0 < threads) (hdvd : 4 ∣ dsize)
    (hpos : mixBytes ≤ dsize) (hle : dsize ≤ 2 ^ 32) :
    hashimotoFull keccak256 keccak512
        (generateDataset keccak512 cache threads (List.replicate (dsize / 4) 0)) hash nonce =
      hashimotoLight keccak256 keccak512 dsize cache hash nonce := by
  obtain ⟨c, rfl⟩ := hdvd
  have hsize : (generateDataset keccak512 cache threads (List.replicate (4 * c / 4) 0)).length * 4 =
      4 * c := by
    rw [length_generateDataset, List.length_replicate]
    omega
  rw [hashimotoFull, hashimotoLight, hsize]
  apply hashimoto_congr keccak256 keccak512 hash nonce hpos (by rw [mixBytes_eq]; omega)
  intro index hindex
  apply fullLookup_generateDataset keccak512 cache threads _ hthreads (by simp; omega)
  rw [List.length_replicate, hashBytes_eq]
  rw [mixBytes_eq] at hindex
  omega

end Hashimoto

/-! ## Paths of `dataset.generate` -/

theorem datasetGenerate_eq (keccak512 : Hasher 64) (cache : List UInt32) (threads : Nat)
    (test : Bool) (dsize : Nat) (disk : Disk) (hdump : disk.dump = none) (hmapped : disk.mapped = true) :
    datasetGenerate keccak512 cache threads test dsize disk =
      generateDataset keccak512 cache threads
        (List.replicate ((if test then 32 * 1024 else dsize) / 4) 0) := by
  cases test with
  | true => rw [datasetGenerate, if_pos rfl, if_pos rfl]
  | false =>
    rw [datasetGenerate, if_neg Bool.false_ne_true, hdump]
    rw [if_pos hmapped, if_neg Bool.false_ne_true]

/-! ## Seals -/

section Seals

variable (keccak256 : Hasher 32) (keccak512 : Hasher 64)

theorem mine_eq_some {dataset : List UInt32} {header sealed : SealHeader} :
    ∀ {seed : UInt64} {fuel : Nat}, mine keccak256 keccak512 dataset header seed fuel = some sealed →
      ∃ nonce, mineAttempt keccak256 keccak512 dataset header nonce = some sealed := by
  intro seed fuel
  induction fuel generalizing seed with
  | zero => intro h; cases h
  | succ fuel ih =>
    intro h
    rw [mine] at h
    cases hattempt : mineAttempt keccak256 keccak512 dataset header seed with
    | some found =>
      rw [hattempt] at h
      exact ⟨seed, hattempt.trans h⟩
    | none =>
      rw [hattempt] at h
      exact ih h

theorem mineAttempt_eq_some {dataset : List UInt32} {header sealed : SealHeader} {nonce : UInt64}
    (h : mineAttempt keccak256 keccak512 dataset header nonce = some sealed) :
    sealed = { header with
      nonce, mixDigest := (hashimotoFull keccak256 keccak512 dataset header.hashNoNonce nonce).1 } ∧
    BigEndian.toNat (hashimotoFull keccak256 keccak512 dataset header.hashNoNonce nonce).2 ≤
      maxUint256 / header.difficulty.toNat := by
  rw [mineAttempt] at h
  generalize hashimotoFull keccak256 keccak512 dataset header.hashNoNonce nonce = r at h ⊢
  obtain ⟨digest, result⟩ := r
  dsimp only at h ⊢
  by_cases hle : BigEndian.toNat result ≤ maxUint256 / header.difficulty.toNat
  · rw [if_pos hle] at h
    exact ⟨(Option.some.inj h).symm, hle⟩
  · rw [if_neg hle] at h
    cases h

/-- Every block that `mine` seals over a dataset of at most `2 ^ 32` bytes, generated on every
path of `dataset.generate` but the fallback, passes `VerifySeal`, in normal and in tester mode. -/
theorem mine_passes_VerifySeal (cache : List UInt32) (threads dsize : Nat) (tester : Bool)
    (disk : Disk) (header sealed : SealHeader) (seed : UInt64) (fuel : Nat) (hthreads : 0 < threads)
    (hdvd : 4 ∣ dsize) (hpos : mixBytes ≤ dsize) (hle : dsize ≤ 2 ^ 32) (hdump : disk.dump = none)
    (hmapped : disk.mapped = true) (hnumber : header.number.toNat / epochLength < 2048)
    (hdifficulty : 0 < header.difficulty)
    (h : mine keccak256 keccak512 (datasetGenerate keccak512 cache threads tester dsize disk) header
      seed fuel = some sealed) :
    VerifySeal keccak256 keccak512 tester cache dsize sealed = .ok () := by
  obtain ⟨nonce, hattempt⟩ := mine_eq_some keccak256 keccak512 h
  obtain ⟨rfl, hvalue⟩ := mineAttempt_eq_some keccak256 keccak512 hattempt
  rw [datasetGenerate_eq keccak512 cache threads tester dsize disk hdump hmapped] at hvalue ⊢
  -- the miner's dataset and the verifier's size are those of the same mode
  have hmode : hashimotoFull keccak256 keccak512 (generateDataset keccak512 cache threads
      (List.replicate ((if tester then 32 * 1024 else dsize) / 4) 0)) header.hashNoNonce nonce =
      hashimotoLight keccak256 keccak512 (if tester then 32 * 1024 else dsize) cache
        header.hashNoNonce nonce := by
    cases tester with
    | true =>
      rw [if_pos rfl]
      exact hashimotoFull_eq_hashimotoLight keccak256 keccak512 cache threads _ _ _ hthreads
        (by decide) (by rw [mixBytes_eq]; decide) (by decide)
    | false =>
      rw [if_neg Bool.false_ne_true]
      exact hashimotoFull_eq_hashimotoLight keccak256 keccak512 cache threads _ _ _ hthreads hdvd hpos hle
  rw [hmode] at hvalue ⊢
  rw [VerifySeal]
  dsimp only
  rw [if_neg (Nat.not_le.mpr hnumber), if_neg (not_le.mpr hdifficulty)]
  generalize hashimotoLight keccak256 keccak512 (if tester then 32 * 1024 else dsize) cache
    header.hashNoNonce nonce = r at hvalue ⊢
  obtain ⟨digest, result⟩ := r
  dsimp only at hvalue ⊢
  rw [if_neg (not_not.mpr rfl), if_neg (Nat.not_lt.mpr hvalue)]

def zeroHasher (n : Nat) : Hasher n := ⟨fun _ => List.replicate n 0, fun _ => List.length_replicate⟩

theorem mine_passes_VerifySeal_small :
    VerifySeal (zeroHasher 32) (zeroHasher 64) false (List.replicate 16 0) 128
      ⟨0, 1, [], 0, List.replicate 32 0⟩ = .ok () :=
  mine_passes_VerifySeal (zeroHasher 32) (zeroHasher 64) (List.replicate 16 0) 1 128 false ⟨none, true⟩
    ⟨0, 1, [], 0, []⟩ ⟨0, 1, [], 0, List.replicate 32 0⟩ 0 1 (by decide) (by decide)
    (by decide) (by decide) rfl rfl (by decide) (by decide) (by decide +kernel)

/-- Epoch 385 (blocks from 11550000) has a dataset of `4303349632` bytes, over `2 ^ 32`. Its
item `2 ^ 26 = 67108864`, which `hashimoto` reads at the parent row `2 ^ 25`, is written at the
wrapped offset `0`, over item `0`, and its own words stay zero, whatever the cache, the hash
function and the number of goroutines. -/
theorem generateDataset_epoch385 (keccak512 : Hasher 64) (cache : List UInt32) (threads : Nat) :
    67108864 < 2 * (4303349632 / mixBytes) ∧
    fullLookup (generateDataset keccak512 cache threads (List.replicate (4303349632 / 4) 0)) 67108864 =
      List.replicate hashWords 0 := by
  constructor
  · rw [mixBytes_eq]
    decide
  · have hoffset : (67108864 : UInt32).toNat * hashWords % 2 ^ 32 = 2 ^ 30 := by
      rw [hashWords_eq]
      decide
    rw [fullLookup, hoffset]
    apply List.ext_getElem?
    intro q
    rw [List.getElem?_take, List.getElem?_drop, List.getElem?_replicate]
    by_cases hq : q < hashWords
    · rw [if_pos hq, if_pos hq, generateDataset_high keccak512 cache threads _ _ (Nat.le_add_right _ _),
        List.getElem?_replicate, if_pos (by rw [hashWords_eq] at hq; omega)]
    · rw [if_neg hq, if_neg hq]

end Seals

end Zerium.Abthash
