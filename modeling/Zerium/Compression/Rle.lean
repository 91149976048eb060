import Mathlib

/-! # Run-length compression (`compression/rle/read_write.go`)

`Compress` cuts its input into chunks, `compressChunk` choosing each: the byte `token`, a run of
zeros, the Keccak-256 hash of the empty string or of the empty list, or one plain byte. All but
the plain byte are written as `token` and one escape byte. `Decompress` reads the escape byte as
one of the two hashes (`0xfd`, `0xfe`), the byte `token` (`0xff`), or else a run of `c - 2`
zeros, in byte arithmetic.

A run of `j` zeros is written as `byte(j + 2)`, and a run is at most 255 zeros long. For
`j = 254` and `j = 255` the escape byte wraps to `0` and `1`, and `c - 2` wraps back to `j`; but
for `j = 251, 252, 253` it is `0xfd`, `0xfe`, `0xff`, which read back as a hash or as `token`
(`Decompress_Compress_zero_runs_collide`). The round trip holds for every input with no 251
zeros in a row (`Decompress_Compress`).
-/

namespace Zerium.Rle

set_option autoImplicit false

def token : UInt8 := 0xfe
def emptyShaToken : UInt8 := 0xfd
def emptyListShaToken : UInt8 := 0xfe
def tokenToken : UInt8 := 0xff

/-- `crypto.Keccak256([]byte(""))`, as `TestDecompressSimple` spells it out. -/
def empty : List UInt8 :=
  [0xc5, 0xd2, 0x46, 0x01, 0x86, 0xf7, 0x23, 0x3c, 0x92, 0x7e, 0x7d, 0xb2, 0xdc, 0xc7, 0x03, 0xc0,
    0xe5, 0x00, 0xb6, 0x53, 0xca, 0x82, 0x27, 0x3b, 0x7b, 0xfa, 0xd8, 0x04, 0x5d, 0x85, 0xa4, 0x70]

/-- `crypto.Keccak256([]byte{0x80})`, the hash of the empty list. -/
def emptyList : List UInt8 :=
  [0x56, 0xe8, 0x1f, 0x17, 0x1b, 0xcc, 0x55, 0xa6, 0xff, 0x83, 0x45, 0xe6, 0x92, 0xc0, 0xf8, 0x6e,
    0x5b, 0x48, 0xe0, 0x1b, 0x99, 0x6c, 0xad, 0xc0, 0x01, 0x62, 0x2f, 0xb5, 0xe3, 0x63, 0xb4, 0x21]

/-- The `switch` on the byte after a `token`. -/
def escape (c : UInt8) : List UInt8 :=
  if c = emptyShaToken then empty
  else if c = emptyListShaToken then emptyList
  else if c = tokenToken then [token]
  else List.replicate (c - 2).toNat 0

def Decompress : List UInt8 → Except String (List UInt8)
  | [] => .ok []
  | [b] =>
    if b = token then .error "error reading bytes. token encountered without proceeding bytes"
    else .ok [b]
  | b :: c :: rest =>
    if b = token then (escape c ++ ·) <$> Decompress rest
    else (b :: ·) <$> Decompress (c :: rest)

/-- The loop `for j <= 254 && j < len(dat)` of a zero run, on the bytes from `dat[j]` on. -/
def zeroRun : List UInt8 → Nat → Nat
  | d :: ds, j => if j ≤ 254 then (if d ≠ 0 then j else zeroRun ds (j + 1)) else j
  | [], j => j

/-- `compressChunk(dat)` for `dat = d₀ :: rest`: the bytes written and the bytes consumed.
`len(dat) > 1 && dat[1] == 0` is `rest.head? = some 0`. -/
def compressChunk (d₀ : UInt8) (rest : List UInt8) : List UInt8 × Nat :=
  if d₀ = token then ([token, tokenToken], 1)
  else if d₀ = 0 ∧ rest.head? = some 0 then
    let j := zeroRun (d₀ :: rest) 0
    ([token, UInt8.ofNat (j + 2)], j)
  else if 32 ≤ (d₀ :: rest).length ∧ empty.head? = some d₀ ∧ (d₀ :: rest).take 32 = empty then
    ([token, emptyShaToken], 32)
  else if 32 ≤ (d₀ :: rest).length ∧ emptyList.head? = some d₀ ∧
      (d₀ :: rest).take 32 = emptyList then
    ([token, emptyListShaToken], 32)
  else ([d₀], 1)

theorem le_zeroRun (ds : List UInt8) (j : Nat) : j ≤ zeroRun ds j := by
  induction ds generalizing j with
  | nil => exact Nat.le_refl j
  | cons d ds ih =>
    rw [zeroRun]
    split_ifs
    · exact Nat.le_refl j
    · exact Nat.le_of_succ_le (ih (j + 1))
    · exact Nat.le_refl j

theorem zeroRun_zero_cons (ds : List UInt8) {j : Nat} (hj : j ≤ 254) :
    zeroRun (0 :: ds) j = zeroRun ds (j + 1) := by
  simp [zeroRun, hj]

theorem compressChunk_pos (d₀ : UInt8) (rest : List UInt8) : 0 < (compressChunk d₀ rest).2 := by
  unfold compressChunk
  split_ifs with htok hrun
  · exact Nat.one_pos
  · -- the run starts with two zeros
    obtain ⟨hd₀, hhead⟩ := hrun
    obtain ⟨d₁, rest, rfl⟩ : ∃ d₁ rest', rest = d₁ :: rest' := by
      cases rest with
      | nil => simp at hhead
      | cons d₁ rest' => exact ⟨d₁, rest', rfl⟩
    have hd₁ : d₁ = 0 := by simpa using hhead
    subst hd₀ hd₁
    show 0 < zeroRun (0 :: 0 :: rest) 0
    rw [zeroRun_zero_cons _ (by decide), zeroRun_zero_cons _ (by decide)]
    exact Nat.lt_of_lt_of_le (by decide) (le_zeroRun rest 2)
  all_goals simp

def Compress : List UInt8 → List UInt8
  | [] => []
  | d₀ :: rest =>
    (compressChunk d₀ rest).1 ++ Compress ((d₀ :: rest).drop (compressChunk d₀ rest).2)
termination_by dat => dat.length
decreasing_by
  have := compressChunk_pos d₀ rest
  simp only [List.length_drop, List.length_cons]
  omega

/-! ## Reading back one chunk -/

theorem Decompress_token (c : UInt8) (rest : List UInt8) :
    Decompress (token :: c :: rest) = (escape c ++ ·) <$> Decompress rest := by
  rw [Decompress, if_pos rfl]

theorem Decompress_cons_of_ne {b : UInt8} (hb : b ≠ token) (rest : List UInt8) :
    Decompress (b :: rest) = (b :: ·) <$> Decompress rest := by
  cases rest with
  | nil => simp [Decompress, hb]
  | cons c rest => rw [Decompress, if_neg hb]

theorem zeroRun_le (ds : List UInt8) {j : Nat} (hj : j ≤ 255) : zeroRun ds j ≤ 255 := by
  induction ds generalizing j with
  | nil => exact hj
  | cons d ds ih =>
    rw [zeroRun]
    split_ifs with h254
    · exact hj
    · exact ih (by omega)
    · exact hj

theorem take_zeroRun (ds : List UInt8) (j : Nat) :
    ds.take (zeroRun ds j - j) = List.replicate (zeroRun ds j - j) 0 := by
  induction ds generalizing j with
  | nil => simp [zeroRun]
  | cons d ds ih =>
    rw [zeroRun]
    split_ifs with h254 hd
    · simp
    · have hle := le_zeroRun ds (j + 1)
      have hd0 : d = 0 := by simpa using hd
      obtain ⟨k, hk⟩ : ∃ k, zeroRun ds (j + 1) - j = k + 1 := ⟨zeroRun ds (j + 1) - (j + 1), by omega⟩
      have hrec := ih (j + 1)
      rw [show zeroRun ds (j + 1) - (j + 1) = k by omega] at hrec
      rw [hk, List.take_succ_cons, hrec, hd0, List.replicate_succ]
    · simp

theorem escape_run {j : Nat} (hj : j ≤ 255) (h251 : j ≠ 251) (h252 : j ≠ 252) (h253 : j ≠ 253) :
    escape (UInt8.ofNat (j + 2)) = List.replicate j 0 := by
  have key : ∀ i : Fin 256, i.val ≠ 251 → i.val ≠ 252 → i.val ≠ 253 →
      UInt8.ofNat (i.val + 2) ≠ emptyShaToken ∧ UInt8.ofNat (i.val + 2) ≠ emptyListShaToken ∧
        UInt8.ofNat (i.val + 2) ≠ tokenToken ∧ (UInt8.ofNat (i.val + 2) - 2).toNat = i.val := by
    decide +kernel
  obtain ⟨hsha, hlist, htok, hsub⟩ := key ⟨j, by omega⟩ h251 h252 h253
  rw [escape, if_neg hsha, if_neg hlist, if_neg htok, hsub]

theorem Decompress_compressChunk (d₀ : UInt8) (rest tail : List UInt8)
    (hrun : d₀ = 0 → rest.head? = some 0 → zeroRun (d₀ :: rest) 0 ≠ 251 ∧
      zeroRun (d₀ :: rest) 0 ≠ 252 ∧ zeroRun (d₀ :: rest) 0 ≠ 253) :
    Decompress ((compressChunk d₀ rest).1 ++ tail) =
      ((d₀ :: rest).take (compressChunk d₀ rest).2 ++ ·) <$> Decompress tail := by
  unfold compressChunk
  split_ifs with htok hzero hsha hlist
  · subst htok
    rw [List.cons_append, List.cons_append, List.nil_append, Decompress_token]
    rfl
  · obtain ⟨h251, h252, h253⟩ := hrun hzero.1 hzero.2
    have htake := take_zeroRun (d₀ :: rest) 0
    rw [Nat.sub_zero] at htake
    rw [List.cons_append, List.cons_append, List.nil_append, Decompress_token, htake,
      escape_run (zeroRun_le _ (Nat.zero_le 255)) h251 h252 h253]
  · rw [List.cons_append, List.cons_append, List.nil_append, Decompress_token, hsha.2.2]
    rfl
  · rw [List.cons_append, List.cons_append, List.nil_append, Decompress_token, hlist.2.2]
    rfl
  · rw [List.cons_append, List.nil_append, Decompress_cons_of_ne htok]
    rfl

/-! ## The round trip -/

theorem zeroRun_lt_of_not_infix {d₀ : UInt8} {rest : List UInt8}
    (hrun : ¬ List.replicate 251 (0 : UInt8) <:+: d₀ :: rest) : zeroRun (d₀ :: rest) 0 < 251 := by
  apply Nat.lt_of_not_le
  intro hle
  have htake := take_zeroRun (d₀ :: rest) 0
  rw [Nat.sub_zero] at htake
  have hlen : zeroRun (d₀ :: rest) 0 ≤ (d₀ :: rest).length := by
    have := congrArg List.length htake
    rw [List.length_take, List.length_replicate] at this
    omega
  apply hrun
  have hpre : List.replicate 251 (0 : UInt8) <+: d₀ :: rest := by
    have h251 : (d₀ :: rest).take 251 = List.replicate 251 0 := by
      rw [show (d₀ :: rest).take 251 = ((d₀ :: rest).take (zeroRun (d₀ :: rest) 0)).take 251 by
        rw [List.take_take, Nat.min_eq_left hle], htake, List.take_replicate, Nat.min_eq_left hle]
    rw [← h251]
    exact List.take_prefix 251 _
  exact hpre.isInfix

theorem Decompress_Compress (dat : List UInt8) (hrun : ¬ List.replicate 251 (0 : UInt8) <:+: dat) :
    Decompress (Compress dat) = .ok dat := by
  fun_induction Compress dat with
  | case1 => rfl
  | case2 d₀ rest ih =>
    have hrun' : ¬ List.replicate 251 (0 : UInt8) <:+:
        (d₀ :: rest).drop (compressChunk d₀ rest).2 :=
      fun h => hrun (h.trans (List.drop_suffix _ _).isInfix)
    have hchunk := zeroRun_lt_of_not_infix hrun
    rw [Decompress_compressChunk d₀ rest _ (fun _ _ => ⟨by omega, by omega, by omega⟩), ih hrun']
    exact congrArg Except.ok (List.take_append_drop _ _)

/-! ## Runs of 251, 252 and 253 zeros -/

theorem zeroRun_replicate (m : Nat) {j : Nat} (hj : j ≤ 255) :
    zeroRun (List.replicate m 0) j = min (j + m) 255 := by
  induction m generalizing j with
  | zero => simp [zeroRun, hj]
  | succ m ih =>
    rw [List.replicate_succ]
    by_cases h254 : j ≤ 254
    · rw [zeroRun_zero_cons _ h254, ih (by omega)]
      omega
    · simp [zeroRun, h254]
      omega

theorem Compress_replicate {j : Nat} (h2 : 2 ≤ j) (h255 : j ≤ 255) :
    Compress (List.replicate j 0) = [token, UInt8.ofNat (j + 2)] := by
  obtain ⟨k, rfl⟩ : ∃ k, j = k + 2 := ⟨j - 2, by omega⟩
  have hchunk : compressChunk 0 (List.replicate (k + 1) 0) = ([token, UInt8.ofNat (k + 2 + 2)], k + 2) := by
    have hrun : zeroRun (0 :: List.replicate (k + 1) 0) 0 = k + 2 := by
      rw [← List.replicate_succ, zeroRun_replicate _ (Nat.zero_le 255)]
      omega
    unfold compressChunk
    rw [if_neg (by decide), if_pos ⟨rfl, by simp [List.replicate_succ]⟩, hrun]
  rw [List.replicate_succ, Compress, hchunk, ← List.replicate_succ, List.drop_replicate, Nat.sub_self,
    List.replicate_zero, Compress, List.append_nil]

/-- Runs of 251, 252 and 253 zeros come back as the empty hash, the empty-list hash and the byte
`token`. -/
theorem Decompress_Compress_zero_runs_collide :
    Decompress (Compress (List.replicate 251 0)) = .ok empty ∧
      Decompress (Compress (List.replicate 252 0)) = .ok emptyList ∧
      Decompress (Compress (List.replicate 253 0)) = .ok [token] := by
  rw [Compress_replicate (by decide) (by decide), Compress_replicate (by decide) (by decide),
    Compress_replicate (by decide) (by decide)]
  exact ⟨rfl, rfl, rfl⟩

end Zerium.Rle
