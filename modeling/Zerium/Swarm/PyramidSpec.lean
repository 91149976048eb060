import Zerium.Swarm.Pyramid
import Zerium.Swarm.RoundTrip

/-! # What the pyramid chunker builds from a bytes reader

A `bytes.Reader` fills every buffer it is given while it has the bytes, so the data comes in
whole chunks and one last shorter one. While the parent of the lowest level is not full, each
round puts one data chunk under it (`prepareLoop_full`, and `prepareLoop_pieces` for a run of
them); the round that fills it moves it to level `0` (`prepareLoop_fill`); the short last round,
or the read at the end of the data, closes the tree. An append first reads the last data chunk
again when it is short of a chunk (`prepareLoop_refill`).

One byte past `branches` whole chunks, the last byte comes alone under a fresh parent, and
`prepareChunks` takes its key for the root without looking at the entry waiting on level `0`:
`Split_roots_last_chunk` for `Split`, and `Append_roots_last_chunk` for `Append`.
-/

namespace Zerium.Swarm

set_option autoImplicit false

def leafChunk (hash : List UInt8 → Key) (seg : List UInt8) : Chunk :=
  ⟨hash (putUint64 seg.length ++ seg), putUint64 seg.length ++ seg, seg.length⟩

@[simp] theorem SData_leafChunk (hash : List UInt8 → Key) (seg : List UInt8) :
    (leafChunk hash seg).SData = putUint64 seg.length ++ seg := rfl

@[simp] theorem Size_leafChunk (hash : List UInt8 → Key) (seg : List UInt8) :
    (leafChunk hash seg).Size = seg.length := rfl

/-- The first `k` pieces of `size` bytes of `data`. -/
def pieces (size : Nat) : Nat → List UInt8 → List (List UInt8)
  | 0, _ => []
  | k + 1, data => data.take size :: pieces size k (data.drop size)

theorem length_pieces (size : Nat) : ∀ k data, (pieces size k data).length = k
  | 0, _ => rfl
  | k + 1, data => by rw [pieces, List.length_cons, length_pieces size k]

theorem pieces_succ (size : Nat) : ∀ k data,
    pieces size (k + 1) data = pieces size k data ++ [(data.drop (k * size)).take size]
  | 0, data => by simp [pieces]
  | k + 1, data => by
    rw [pieces, pieces_succ size k (data.drop size), pieces, List.cons_append, List.drop_drop]
    rw [show size + k * size = (k + 1) * size by ring]

theorem length_of_mem_pieces {size k : Nat} {data seg : List UInt8} (hk : k * size ≤ data.length)
    (hseg : seg ∈ pieces size k data) : seg.length = size := by
  induction k generalizing data with
  | zero => cases hseg
  | succ k ih =>
    rw [pieces, List.mem_cons] at hseg
    rcases hseg with rfl | hseg
    · rw [Nat.succ_mul] at hk
      simp only [List.length_take]
      omega
    · exact ih (by rw [List.length_drop, Nat.succ_mul] at *; omega) hseg

theorem sum_length_pieces {size : Nat} : ∀ {k : Nat} {data : List UInt8}, k * size ≤ data.length →
    ((pieces size k data).map List.length).sum = k * size
  | 0, _, _ => by simp [pieces]
  | k + 1, data, hk => by
    rw [Nat.succ_mul] at hk
    rw [pieces, List.map_cons, List.sum_cons, sum_length_pieces (by rw [List.length_drop]; omega),
      List.length_take, Nat.min_eq_left (by omega), Nat.succ_mul]
    omega

namespace PyramidChunker

variable (pc : PyramidChunker)

def withLeaves (parent : TreeEntry) (segs : List (List UInt8)) : TreeEntry :=
  { parent with
    branchCount := parent.branchCount + segs.length
    subtreeSize := parent.subtreeSize + (segs.map List.length).sum
    chunk := Slice.copyAt parent.chunk (8 + parent.branchCount * pc.hashSize)
      (segs.map fun seg => (leafChunk pc.hash seg).Key).flatten }

theorem withLeaves_withLeaves (parent : TreeEntry) (seg : List UInt8) (segs : List (List UInt8)) :
    pc.withLeaves (pc.withLeaves parent [seg]) segs = pc.withLeaves parent (seg :: segs) := by
  have hslot : 8 + (parent.branchCount + 1) * pc.hashSize =
      8 + parent.branchCount * pc.hashSize + (leafChunk pc.hash seg).Key.length := by
    have hkey : (leafChunk pc.hash seg).Key.length = pc.hashSize := pc.length_hash _
    rw [hkey]
    ring
  simp only [withLeaves, List.length_cons, List.length_nil, List.map_cons, List.map_nil,
    List.sum_cons, List.sum_nil, List.flatten_cons, List.flatten_nil, List.append_nil, Nat.zero_add]
  rw [hslot, Slice.copyAt_copyAt_append]
  congr 1 <;> omega

theorem readRound_bytes {s : List UInt8} (hs : s ≠ []) :
    pc.readRound bytesReader none s =
      (Slice.copyAt (List.replicate (pc.chunkSize + 8) 0) 8 (s.take pc.chunkSize),
        (s.take pc.chunkSize).length, none, s.drop pc.chunkSize) := by
  simp [readRound, bytesReader, hs]

theorem readRound_bytes_nil :
    pc.readRound bytesReader none [] = (List.replicate (pc.chunkSize + 8) 0, 0, some .EOF, []) := by
  simp [readRound, bytesReader]

theorem enqueueDataChunk_eq (parent : TreeEntry) (b : Build) {chunkData seg : List UInt8}
    (hlen : seg.length + 8 ≤ chunkData.length) (hdata : (chunkData.drop 8).take seg.length = seg)
    (hslot : 8 + (parent.branchCount + 1) * pc.hashSize ≤ parent.chunk.length) :
    pc.enqueueDataChunk chunkData seg.length parent b =
      some ((leafChunk pc.hash seg).Key,
        { parent with
          chunk :=
            Slice.copyAt parent.chunk (8 + parent.branchCount * pc.hashSize) (leafChunk pc.hash seg).Key },
        { b with chunks := b.chunks ++ [leafChunk pc.hash seg] }) := by
  rw [Nat.add_mul, Nat.one_mul] at hslot
  simp only [enqueueDataChunk]
  rw [if_pos ⟨hlen, by omega⟩, hdata]
  rfl

theorem enqueueDataChunk_read (parent : TreeEntry) (b : Build) {seg : List UInt8}
    (hseg : seg.length ≤ pc.chunkSize)
    (hslot : 8 + (parent.branchCount + 1) * pc.hashSize ≤ parent.chunk.length) :
    pc.enqueueDataChunk (Slice.copyAt (List.replicate (pc.chunkSize + 8) 0) 8 seg) seg.length parent b =
      some ((leafChunk pc.hash seg).Key,
        { parent with
          chunk :=
            Slice.copyAt parent.chunk (8 + parent.branchCount * pc.hashSize) (leafChunk pc.hash seg).Key },
        { b with chunks := b.chunks ++ [leafChunk pc.hash seg] }) :=
  pc.enqueueDataChunk_eq parent b (by simp; omega)
    (Slice.take_drop_copyAt (by simp; omega)) hslot

theorem withLeaves_single (parent : TreeEntry) (seg : List UInt8) :
    pc.withLeaves parent [seg] =
      { parent with
        chunk := Slice.copyAt parent.chunk (8 + parent.branchCount * pc.hashSize) (leafChunk pc.hash seg).Key
        subtreeSize := parent.subtreeSize + seg.length
        branchCount := parent.branchCount + 1 } := by
  simp [withLeaves]

@[simp] theorem length_chunk_withLeaves (parent : TreeEntry) (segs : List (List UInt8)) :
    (pc.withLeaves parent segs).chunk.length = parent.chunk.length := by
  simp [withLeaves]

@[simp] theorem branchCount_withLeaves (parent : TreeEntry) (segs : List (List UInt8)) :
    (pc.withLeaves parent segs).branchCount = parent.branchCount + segs.length := rfl

@[simp] theorem level_withLeaves (parent : TreeEntry) (segs : List (List UInt8)) :
    (pc.withLeaves parent segs).level = parent.level := rfl

@[simp] theorem updatePending_withLeaves (parent : TreeEntry) (segs : List (List UInt8)) :
    (pc.withLeaves parent segs).updatePending = parent.updatePending := rfl

@[simp] theorem index_withLeaves (parent : TreeEntry) (segs : List (List UInt8)) :
    (pc.withLeaves parent segs).index = parent.index := rfl

@[simp] theorem subtreeSize_withLeaves (parent : TreeEntry) (segs : List (List UInt8)) :
    (pc.withLeaves parent segs).subtreeSize = parent.subtreeSize + (segs.map List.length).sum := rfl

theorem copyAt_rootKey (key : Key) (hkey : key.length = pc.hashSize) :
    Slice.copyAt (List.replicate pc.hashSize 0) 0 key = key := by
  rw [Slice.copyAt_zero (by simp [hkey]), hkey, List.drop_replicate, Nat.sub_self, List.replicate_zero,
    List.append_nil]

theorem slot_le {parent : TreeEntry} {a c : Nat} (hac : a ≤ c)
    (hslot : 8 + c * pc.hashSize ≤ parent.chunk.length) : 8 + a * pc.hashSize ≤ parent.chunk.length := by
  have := Nat.mul_le_mul_right pc.hashSize hac
  omega

/-- The entry as `enqueueTreeChunk` leaves it: its size in the first eight bytes of its chunk,
and as its key the hash of its chunk of keys. -/
def sealEntry (ent : TreeEntry) : TreeEntry :=
  { ent with
    chunk := putUint64 ent.subtreeSize ++ ent.chunk.drop 8
    key := pc.hash ((putUint64 ent.subtreeSize ++ ent.chunk.drop 8).take (ent.branchCount * pc.hashSize + 8)) }

/-- The chunk that `enqueueTreeChunk` sends for an entry. -/
def entryChunk (ent : TreeEntry) : Chunk :=
  ⟨(pc.sealEntry ent).key, (pc.sealEntry ent).chunk.take (ent.branchCount * pc.hashSize + 8), ent.subtreeSize⟩

@[simp] theorem level_sealEntry (ent : TreeEntry) : (pc.sealEntry ent).level = ent.level := rfl

theorem enqueueTreeChunk_new (ent : TreeEntry) (b : Build) (entries : List TreeEntry)
    (hlen : ent.branchCount * pc.hashSize + 8 ≤ ent.chunk.length)
    (hlvl : b.chunkLevel[ent.level]? = some entries) (hnew : ent.updatePending = false) :
    pc.enqueueTreeChunk ent b =
      some ⟨b.chunkLevel.set ent.level (entries ++ [pc.sealEntry ent]), b.chunks ++ [pc.entryChunk ent], b.rootKey⟩ := by
  simp only [enqueueTreeChunk, if_pos hlen, hlvl]
  rw [if_neg (by simp [hnew])]
  rfl

theorem enqueueTreeChunk_update (ent : TreeEntry) (b : Build) (entries : List TreeEntry)
    (hlen : ent.branchCount * pc.hashSize + 8 ≤ ent.chunk.length)
    (hlvl : b.chunkLevel[ent.level]? = some entries) (hup : ent.updatePending = true)
    (hindex : ent.index < entries.length) :
    pc.enqueueTreeChunk ent b =
      some ⟨b.chunkLevel.set ent.level (entries.set ent.index (pc.sealEntry ent)),
        b.chunks ++ [pc.entryChunk ent], b.rootKey⟩ := by
  simp only [enqueueTreeChunk, if_pos hlen, hlvl]
  rw [if_pos hup, if_pos hindex]
  rfl

theorem single_not_full {n : Nat} (hn : 2 ≤ n) (x : TreeEntry) :
    ∀ lvl < n, (((List.replicate n []).set 0 [x]).getD lvl []).length < n := by
  intro lvl hlvl
  rw [List.getD_eq_getElem?_getD]
  rcases lvl with _ | lvl
  · rw [List.getElem?_set_self (by simp; omega)]
    simp
    omega
  · rw [List.getElem?_set_ne (by omega), List.getElem?_replicate, if_pos hlvl]
    simp
    omega

section BuildTree

variable (isAppend : Bool) {ent : TreeEntry} {b b' : Build}

theorem find?_full_eq_none {pc : PyramidChunker} (hfull : ∀ lvl < pc.branches, (b'.chunkLevel.getD lvl []).length < pc.branches) :
    (List.range pc.branches).find? (fun lvl => decide (pc.branches ≤ (b'.chunkLevel.getD lvl []).length)) =
      none := by
  rw [List.find?_eq_none]
  intro lvl hlvl
  have := hfull lvl (List.mem_range.mp hlvl)
  simp only [decide_eq_true_eq, Nat.not_le]
  exact this

theorem buildTree_not_full (hq : pc.enqueueTreeChunk ent b = some b')
    (hfull : ∀ lvl < pc.branches, (b'.chunkLevel.getD lvl []).length < pc.branches) :
    pc.buildTree isAppend ent false b = some b' := by
  simp only [buildTree, hq, Option.bind_eq_bind, Option.bind_some, find?_full_eq_none hfull]
  rfl

end BuildTree

section Rounds

variable (isAppend : Bool) (fuel : Nat) (b : Build) (parent : TreeEntry) {s : List UInt8}

theorem prepareLoop_full (hcs : 0 < pc.chunkSize) (hs : pc.chunkSize ≤ s.length)
    (hbc : parent.branchCount + 1 < pc.branches)
    (hslot : 8 + (parent.branchCount + 1) * pc.hashSize ≤ parent.chunk.length) :
    pc.prepareLoop isAppend bytesReader (fuel + 1) ⟨b, parent, none, s⟩ =
      pc.prepareLoop isAppend bytesReader fuel
        ⟨{ b with chunks := b.chunks ++ [leafChunk pc.hash (s.take pc.chunkSize)] },
          pc.withLeaves parent [s.take pc.chunkSize], none, s.drop pc.chunkSize⟩ := by
  have hne : s ≠ [] := List.ne_nil_of_length_pos (by omega)
  have hseg : (s.take pc.chunkSize).length = pc.chunkSize := by simp; omega
  simp only [prepareLoop, readRound_bytes pc hne, prepareRound, storeRound]
  rw [if_neg (by omega), pc.enqueueDataChunk_read parent b (by omega) hslot]
  simp only [Option.bind_eq_bind, Option.bind_some, hseg, Nat.lt_irrefl, if_false]
  rw [if_neg (Nat.ne_of_lt hbc)]
  simp [withLeaves, Nat.min_eq_left hs]

theorem prepareLoop_pieces (hcs : 0 < pc.chunkSize) :
    ∀ (k fuel : Nat) (b : Build) (parent : TreeEntry) (s : List UInt8),
      parent.branchCount + k < pc.branches → k * pc.chunkSize ≤ s.length →
      8 + (parent.branchCount + k) * pc.hashSize ≤ parent.chunk.length →
      pc.prepareLoop isAppend bytesReader (fuel + k) ⟨b, parent, none, s⟩ =
        pc.prepareLoop isAppend bytesReader fuel
          ⟨{ b with chunks := b.chunks ++ (pieces pc.chunkSize k s).map (leafChunk pc.hash) },
            pc.withLeaves parent (pieces pc.chunkSize k s), none, s.drop (k * pc.chunkSize)⟩
  | 0, fuel, b, parent, s, _, _, _ => by simp [pieces, withLeaves]
  | k + 1, fuel, b, parent, s, hbc, hs, hslot => by
    rw [Nat.succ_mul] at hs
    have hfirst := pc.prepareLoop_full isAppend (fuel + k) b parent (s := s) hcs (by omega) (by omega)
      (pc.slot_le (by omega) hslot)
    have hrest := prepareLoop_pieces hcs k fuel
      { b with chunks := b.chunks ++ [leafChunk pc.hash (s.take pc.chunkSize)] }
      (pc.withLeaves parent [s.take pc.chunkSize])
      (s.drop pc.chunkSize) (by simp; omega) (by simp; omega)
      (by rw [length_chunk_withLeaves, branchCount_withLeaves, List.length_singleton,
        show parent.branchCount + 1 + k = parent.branchCount + (k + 1) by omega]; exact hslot)
    rw [← Nat.add_assoc, hfirst, hrest, withLeaves_withLeaves, List.drop_drop, List.append_assoc]
    rw [show pc.chunkSize + k * pc.chunkSize = (k + 1) * pc.chunkSize by ring]
    rfl

theorem prepareLoop_fill (hcs : 0 < pc.chunkSize) (hs : pc.chunkSize ≤ s.length)
    (hbc : parent.branchCount + 1 = pc.branches)
    (hslot : 8 + (parent.branchCount + 1) * pc.hashSize ≤ parent.chunk.length) {b' : Build}
    (hbuild : pc.buildTree isAppend (pc.withLeaves parent [s.take pc.chunkSize]) false
      { b with chunks := b.chunks ++ [leafChunk pc.hash (s.take pc.chunkSize)] } = some b') :
    pc.prepareLoop isAppend bytesReader (fuel + 1) ⟨b, parent, none, s⟩ =
      pc.prepareLoop isAppend bytesReader fuel ⟨b', pc.NewTreeEntry, none, s.drop pc.chunkSize⟩ := by
  have hne : s ≠ [] := List.ne_nil_of_length_pos (by omega)
  have hseg : (s.take pc.chunkSize).length = pc.chunkSize := by simp; omega
  rw [withLeaves_single, hseg] at hbuild
  simp only [prepareLoop, readRound_bytes pc hne, prepareRound, storeRound]
  rw [if_neg (by omega), pc.enqueueDataChunk_read parent b (by omega) hslot]
  simp only [Option.bind_eq_bind, Option.bind_some, hseg, Nat.lt_irrefl, if_false]
  rw [if_pos hbc, hbuild]
  rfl

theorem prepareLoop_short (hs : 0 < s.length) (hs' : s.length < pc.chunkSize)
    (hbc : parent.branchCount = 0) (hslot : 8 + pc.hashSize ≤ parent.chunk.length) :
    pc.prepareLoop isAppend bytesReader (fuel + 1) ⟨b, parent, none, s⟩ =
      some (⟨b.chunkLevel, b.chunks ++ [leafChunk pc.hash s],
        Slice.copyAt b.rootKey 0 (leafChunk pc.hash s).Key⟩, false) := by
  have hne : s ≠ [] := List.ne_nil_of_length_pos hs
  have htake : s.take pc.chunkSize = s := List.take_of_length_le (by omega)
  simp only [prepareLoop, readRound_bytes pc hne, prepareRound, storeRound, htake]
  rw [if_neg (by omega), pc.enqueueDataChunk_read parent b (by omega) (by rw [hbc]; simpa using hslot)]
  simp only [Option.bind_eq_bind, Option.bind_some, if_pos hs', hbc]
  rfl

theorem take_drop_refill (d1 bytes : List UInt8) (hlen : d1.length + bytes.length ≤ pc.chunkSize) :
    ((Slice.copyAt (Slice.copyAt (List.replicate (pc.chunkSize + 8) 0) 0 (putUint64 d1.length ++ d1))
      (8 + d1.length) bytes).drop 8).take (d1 ++ bytes).length = d1 ++ bytes := by
  have hoff : 8 + d1.length = 0 + (putUint64 d1.length ++ d1).length := by simp
  rw [hoff, Slice.copyAt_copyAt_append, Slice.copyAt_zero (by simp; omega), List.append_assoc,
    List.append_assoc, List.drop_left' (by simp), ← List.append_assoc d1 bytes, List.take_left' rfl]

theorem prepareLoop_refill {d1 : List UInt8} (hd1 : d1.length < pc.chunkSize)
    (hs : pc.chunkSize - d1.length ≤ s.length) (hbc : parent.branchCount + 1 < pc.branches)
    (hslot : 8 + (parent.branchCount + 1) * pc.hashSize ≤ parent.chunk.length) :
    pc.prepareLoop isAppend bytesReader (fuel + 1) ⟨b, parent, some (leafChunk pc.hash d1), s⟩ =
      pc.prepareLoop isAppend bytesReader fuel
        ⟨{ b with chunks := b.chunks ++ [leafChunk pc.hash (d1 ++ s.take (pc.chunkSize - d1.length))] },
          pc.withLeaves parent [d1 ++ s.take (pc.chunkSize - d1.length)], none,
          s.drop (pc.chunkSize - d1.length)⟩ := by
  have hne : s ≠ [] := List.ne_nil_of_length_pos (by omega)
  have hseg : (d1 ++ s.take (pc.chunkSize - d1.length)).length = pc.chunkSize := by simp; omega
  have hn : (s.take (pc.chunkSize - d1.length)).length + d1.length =
      (d1 ++ s.take (pc.chunkSize - d1.length)).length := by simp [Nat.add_comm]
  have hdata := pc.take_drop_refill d1 (s.take (pc.chunkSize - d1.length))
    (by simp; omega)
  simp only [prepareLoop, readRound, SData_leafChunk, Size_leafChunk, Int.toNat_natCast, bytesReader, if_neg hne,
    prepareRound, storeRound]
  rw [hn, if_neg (by omega), pc.enqueueDataChunk_eq parent b (by simp; omega) hdata hslot]
  simp only [Option.bind_eq_bind, Option.bind_some, hseg, Nat.lt_irrefl, if_false]
  rw [if_neg (Nat.ne_of_lt hbc)]
  simp [withLeaves, hseg]

end Rounds

theorem Split_short {data : List UInt8} (hd : 0 < data.length)
    (hd' : data.length < pc.chunkSize) (fuel : Nat) :
    pc.Split bytesReader data (fuel + 1) = some ((leafChunk pc.hash data).Key, [leafChunk pc.hash data]) := by
  have hslot : 8 + pc.hashSize ≤ pc.NewTreeEntry.chunk.length := by
    have : pc.hashSize ≤ pc.chunkSize := by
      rw [chunkSize]
      exact Nat.le_mul_of_pos_right _ (by
        rcases Nat.eq_zero_or_pos pc.branches with h | h
        · simp [chunkSize, h] at hd'
        · exact h)
    simp [NewTreeEntry]
    omega
  simp only [Split, prepareChunks, Option.bind_eq_bind, Bool.false_eq_true, if_false, Option.bind_some]
  rw [pc.prepareLoop_short false fuel _ pc.NewTreeEntry hd hd' rfl hslot]
  simp only [Option.bind_some, Bool.false_eq_true, if_false, List.nil_append]
  rw [copyAt_rootKey pc (leafChunk pc.hash _).Key (pc.length_hash _)]

/-- The entry `loadTree` makes for a root of at most a chunk of data. -/
def smallRootEntry (chunk : Chunk) : TreeEntry :=
  ⟨0, 1, chunk.Size.toNat, Slice.copyAt (List.replicate (pc.chunkSize + 8) 0) 8 chunk.Key,
    List.replicate pc.hashSize 0, 0, true⟩

theorem loadTree_small (hb : 0 < pc.branches) {store : ChunkStore} {key : Key} {chunk : Chunk}
    (hret : retrieve store key = some chunk) (hsize : chunk.Size ≤ pc.chunkSize) :
    pc.loadTree store (List.replicate pc.branches []) key =
      some (.ok (), (List.replicate pc.branches []).set 0 [pc.smallRootEntry chunk]) := by
  have h0 : (List.replicate pc.branches ([] : List TreeEntry))[0]? = some [] := by
    rw [List.getElem?_replicate, if_pos hb]
  simp only [loadTree, hret, if_pos hsize, h0, Option.bind_eq_bind, Option.bind_some, List.nil_append]
  rfl

theorem appendStart_small {store : ChunkStore} {chunk : Chunk} (hb : 2 ≤ pc.branches)
    (hkey : chunk.Key.length = pc.hashSize) (hret : retrieve store chunk.Key = some chunk)
    (hsize : chunk.Size < pc.chunkSize) :
    pc.appendStart store ((List.replicate pc.branches []).set 0 [pc.smallRootEntry chunk]) =
      some (⟨0, 0, 0, (pc.smallRootEntry chunk).chunk, List.replicate pc.hashSize 0, 0, true⟩,
        some chunk) := by
  have h0 : ((List.replicate pc.branches ([] : List TreeEntry)).set 0 [pc.smallRootEntry chunk])[0]? =
      some [pc.smallRootEntry chunk] := List.getElem?_set_self (by simp; omega)
  have hhc : pc.hashSize ≤ pc.chunkSize := Nat.le_mul_of_pos_right _ (by omega)
  have hslice : Abi.goSlice (pc.smallRootEntry chunk).chunk (8 + ((1 : Nat) - 1 : Int) * pc.hashSize)
      (8 + ((1 : Nat) - 1 + 1 : Int) * pc.hashSize) = some chunk.Key := by
    have hlen : 8 + pc.hashSize ≤ (pc.smallRootEntry chunk).chunk.length := by
      simp [smallRootEntry]
      omega
    have := @Abi.goSlice_natCast _ 8 (8 + pc.hashSize) (by omega) hlen
    push_cast at this ⊢
    rw [zero_mul, add_zero, one_mul, this, Nat.add_sub_cancel_left, ← hkey]
    exact congrArg some (Slice.take_drop_copyAt (by simp [hkey]; omega))
  simp only [appendStart, h0, List.getLast?_singleton, Option.bind_eq_bind, Option.bind_some]
  rw [if_pos (show (pc.smallRootEntry chunk).branchCount < pc.branches by simp [smallRootEntry]; omega)]
  simp only [smallRootEntry] at hslice ⊢
  simp only [List.length_singleton, Nat.sub_self, hslice, Option.bind_some, hret, if_pos hsize]

/-- An append of `d2` to the tree of one data chunk `d1` shorter than a chunk, the two together
one byte longer than `branches` whole chunks: the first round fills `d1` up to a whole chunk, the
parent fills and takes the place of the old root entry on level `0`, and the last byte is a data
chunk alone under a fresh parent, which `prepareChunks` takes for the whole tree. -/
theorem Append_past_branches (hb : 2 ≤ pc.branches) (hh : 0 < pc.hashSize) {d1 d2 : List UInt8}
    (hd1 : d1.length < pc.chunkSize) (hlen : d1.length + d2.length = pc.chunkSize * pc.branches + 1)
    {store : ChunkStore} (hret : retrieve store (leafChunk pc.hash d1).Key = some (leafChunk pc.hash d1))
    {fuel : Nat} (hfuel : pc.branches + 1 ≤ fuel) :
    ∃ chunks, pc.Append store (leafChunk pc.hash d1).Key bytesReader d2 fuel =
        some ((leafChunk pc.hash (d2.drop (d2.length - 1))).Key, chunks) ∧
      leafChunk pc.hash (d2.drop (d2.length - 1)) ∈ chunks := by
  obtain ⟨k, hk⟩ : ∃ k, pc.branches = k + 2 := ⟨pc.branches - 2, by omega⟩
  have hcs : pc.branches * pc.hashSize = pc.chunkSize := by rw [chunkSize, Nat.mul_comm]
  have hcsk : pc.chunkSize * pc.branches = k * pc.chunkSize + pc.chunkSize + pc.chunkSize := by
    rw [hk]; ring
  have hcs2 : 2 ≤ pc.chunkSize := by
    have := Nat.mul_le_mul_right pc.branches hh
    rw [chunkSize]
    omega
  obtain ⟨f, rfl⟩ : ∃ f, fuel = f + 1 + 1 + k + 1 := ⟨fuel - (k + 3), by omega⟩
  -- the store gives `d1` back as the tree, and again as the unfinished chunk
  have hload := pc.loadTree_small (by omega) hret (by simp; omega)
  have hstart := pc.appendStart_small hb (pc.length_hash _) hret (by simp; omega)
  set E := pc.smallRootEntry (leafChunk pc.hash d1) with hE
  set L := (List.replicate pc.branches ([] : List TreeEntry)).set 0 [E] with hL
  set P0 : TreeEntry := ⟨0, 0, 0, E.chunk, List.replicate pc.hashSize 0, 0, true⟩ with hP0
  have hslot : 8 + (k + 2) * pc.hashSize ≤ P0.chunk.length := by
    rw [← hk, hcs]
    simp [hP0, hE, smallRootEntry, Nat.add_comm]
  -- `d1` filled up to a whole chunk, then `k` whole chunks, then the chunk that fills the parent
  set r := pc.chunkSize - d1.length with hr
  set seg0 := d1 ++ d2.take r with hseg0
  have hrefill := pc.prepareLoop_refill true (f + 1 + 1 + k) ⟨L, [], List.replicate pc.hashSize 0⟩ P0
    (s := d2) hd1 (by omega) (by simp [hP0]; omega) (pc.slot_le (by simp [hP0]) hslot)
  simp only [List.nil_append] at hrefill
  set s1 := d2.drop r with hs1
  have hs1len : s1.length = k * pc.chunkSize + pc.chunkSize + 1 := by rw [hs1, List.length_drop]; omega
  set P1 := pc.withLeaves P0 [seg0] with hP1
  have hrun := pc.prepareLoop_pieces true (by omega) k (f + 1 + 1)
    ⟨L, [leafChunk pc.hash seg0], List.replicate pc.hashSize 0⟩ P1 s1 (by simp [hP1, hP0]; omega)
    (by omega)
    (by rw [hP1, length_chunk_withLeaves, branchCount_withLeaves, List.length_singleton]
        exact pc.slot_le (by simp [hP0]; omega) hslot)
  set s2 := s1.drop (k * pc.chunkSize) with hs2
  have hs2len : s2.length = pc.chunkSize + 1 := by rw [hs2, List.length_drop, hs1len]; omega
  set P2 := pc.withLeaves P1 (pieces pc.chunkSize k s1) with hP2
  have hP2bc : P2.branchCount = k + 1 := by simp [hP2, hP1, hP0, length_pieces, Nat.add_comm]
  have hP2len : P2.chunk.length = P0.chunk.length := by simp [hP2, hP1]
  have hP2level : P2.level = 0 := by simp [hP2, hP1, hP0]
  have hP2index : P2.index = 0 := by simp [hP2, hP1, hP0]
  -- the filled parent replaces the old root entry, so level `0` holds it alone
  set C2 := [leafChunk pc.hash seg0] ++ (pieces pc.chunkSize k s1).map (leafChunk pc.hash) with hC2
  have hq := pc.enqueueTreeChunk_update (pc.withLeaves P2 [s2.take pc.chunkSize])
    ⟨L, C2 ++ [leafChunk pc.hash (s2.take pc.chunkSize)], List.replicate pc.hashSize 0⟩ [E]
    (by rw [length_chunk_withLeaves, hP2len, branchCount_withLeaves, hP2bc, List.length_singleton,
      show k + 1 + 1 = k + 2 by omega, Nat.add_comm]; exact hslot)
    (by rw [level_withLeaves, hP2level, hL]; exact List.getElem?_set_self (by simp; omega))
    (by simp [hP2, hP1, hP0]) (by rw [index_withLeaves, hP2index]; exact Nat.one_pos)
  rw [level_withLeaves, hP2level, index_withLeaves, hP2index, hL, List.set_set, List.set_cons_zero] at hq
  have hbuild := pc.buildTree_not_full true hq (single_not_full hb _)
  have hfill := pc.prepareLoop_fill true (f + 1) ⟨L, C2, List.replicate pc.hashSize 0⟩ P2 (s := s2)
    (by omega) (by omega) (by rw [hP2bc, hk]) (by rw [hP2bc, hP2len]; exact hslot) hbuild
  -- the last byte, alone under a fresh parent
  have hlast : s2.drop pc.chunkSize = d2.drop (d2.length - 1) := by
    rw [hs2, hs1, List.drop_drop, List.drop_drop]
    congr 1
    omega
  have hlast1 : (s2.drop pc.chunkSize).length = 1 := by rw [List.length_drop]; omega
  have hshort := pc.prepareLoop_short true f
    ⟨(List.replicate pc.branches []).set 0 [pc.sealEntry (pc.withLeaves P2 [s2.take pc.chunkSize])],
      C2 ++ [leafChunk pc.hash (s2.take pc.chunkSize)] ++ [pc.entryChunk (pc.withLeaves P2 [s2.take pc.chunkSize])],
      List.replicate pc.hashSize 0⟩
    pc.NewTreeEntry (s := s2.drop pc.chunkSize) (by rw [hlast1]; exact Nat.one_pos) (by rw [hlast1]; omega) rfl
    (by simpa using pc.slot_le (a := 1) (by omega) (show 8 + (k + 2) * pc.hashSize ≤ pc.NewTreeEntry.chunk.length
      by rw [← hk, hcs]; simp [NewTreeEntry, Nat.add_comm]))
  simp only [Append, hload, prepareChunks, ↓reduceIte, hstart, Option.bind_eq_bind, Option.bind_some]
  rw [hrefill, hrun, hfill, hshort, hlast]
  simp only [Option.bind_some, Bool.false_eq_true, if_false]
  rw [copyAt_rootKey pc (leafChunk pc.hash _).Key (pc.length_hash _)]
  exact ⟨_, rfl, List.mem_append_right _ (List.mem_singleton_self _)⟩

/-! ## One byte past a full parent -/

/-- Data one byte longer than `branches` whole chunks: the first parent fills and goes to level
`0`, and the last byte is a data chunk alone under a fresh parent, which `prepareChunks` takes
for the whole tree. -/
theorem Split_past_branches (hb : 2 ≤ pc.branches) (hh : 0 < pc.hashSize) {data : List UInt8}
    (hlen : data.length = pc.chunkSize * pc.branches + 1) {fuel : Nat} (hfuel : pc.branches + 1 ≤ fuel) :
    pc.Split bytesReader data fuel =
      some ((leafChunk pc.hash (data.drop (pc.chunkSize * pc.branches))).Key,
        ((pieces pc.chunkSize (pc.branches - 1) data).map (leafChunk pc.hash) ++
          [leafChunk pc.hash ((data.drop ((pc.branches - 1) * pc.chunkSize)).take pc.chunkSize)] ++
          [pc.entryChunk (pc.withLeaves (pc.withLeaves pc.NewTreeEntry (pieces pc.chunkSize (pc.branches - 1) data))
            [(data.drop ((pc.branches - 1) * pc.chunkSize)).take pc.chunkSize])]) ++
          [leafChunk pc.hash (data.drop (pc.chunkSize * pc.branches))]) := by
  obtain ⟨k, hk⟩ : ∃ k, pc.branches = k + 1 := ⟨pc.branches - 1, by omega⟩
  have hkb : pc.branches - 1 = k := by omega
  have hcs : pc.branches * pc.hashSize = pc.chunkSize := by rw [chunkSize, Nat.mul_comm]
  have hcsk : pc.chunkSize * pc.branches = k * pc.chunkSize + pc.chunkSize := by rw [hk]; ring
  have hcs2 : 2 ≤ pc.chunkSize := by
    have := Nat.mul_le_mul_right pc.branches hh
    rw [chunkSize]
    omega
  have hslot : 8 + (k + 1) * pc.hashSize ≤ pc.NewTreeEntry.chunk.length := by
    rw [← hk, hcs]
    simp [NewTreeEntry, Nat.add_comm]
  rw [hkb]
  obtain ⟨f, rfl⟩ : ∃ f, fuel = f + 1 + 1 + k := ⟨fuel - (k + 2), by omega⟩
  -- the parent takes `k` whole chunks, then the one that fills it, then the last byte is alone
  have hrun := pc.prepareLoop_pieces false (by omega) k (f + 1 + 1)
    ⟨List.replicate pc.branches [], [], List.replicate pc.hashSize 0⟩ pc.NewTreeEntry data
    (by simp [NewTreeEntry]; omega) (by omega) (pc.slot_le (by simp [NewTreeEntry]) hslot)
  simp only [List.nil_append] at hrun
  set s := data.drop (k * pc.chunkSize) with hs
  have hslen : s.length = pc.chunkSize + 1 := by rw [hs, List.length_drop]; omega
  set P := pc.withLeaves pc.NewTreeEntry (pieces pc.chunkSize k data) with hP
  have hPbc : P.branchCount = k := by simp [hP, NewTreeEntry, length_pieces]
  have hPlevel : P.level = 0 := by simp [hP, NewTreeEntry]
  have hq := pc.enqueueTreeChunk_new (pc.withLeaves P [s.take pc.chunkSize])
    ⟨List.replicate pc.branches [], (pieces pc.chunkSize k data).map (leafChunk pc.hash) ++
      [leafChunk pc.hash (s.take pc.chunkSize)], List.replicate pc.hashSize 0⟩ []
    (by rw [length_chunk_withLeaves, hP, length_chunk_withLeaves, branchCount_withLeaves, hPbc,
      List.length_singleton, ← hk, hcs]; simp [NewTreeEntry])
    (by rw [level_withLeaves, hP, level_withLeaves]; simp only [NewTreeEntry]
        rw [List.getElem?_replicate, if_pos (by omega)])
    (by simp [hP, NewTreeEntry])
  have hbuild := pc.buildTree_not_full false hq (single_not_full hb _)
  have hfill := pc.prepareLoop_fill false (f + 1)
    ⟨List.replicate pc.branches [], (pieces pc.chunkSize k data).map (leafChunk pc.hash), List.replicate pc.hashSize 0⟩
    P (s := s) (by omega) (by omega) (by rw [hPbc, hk])
    (by rw [hP, length_chunk_withLeaves, hPbc]; exact hslot) hbuild
  have hlast : s.drop pc.chunkSize = data.drop (pc.chunkSize * pc.branches) := by
    rw [hs, List.drop_drop, hcsk, Nat.add_comm]
  have hlast1 : (s.drop pc.chunkSize).length = 1 := by rw [List.length_drop]; omega
  have hshort := pc.prepareLoop_short false f
    ⟨(List.replicate pc.branches []).set 0 [pc.sealEntry (pc.withLeaves P [s.take pc.chunkSize])],
      ((pieces pc.chunkSize k data).map (leafChunk pc.hash) ++ [leafChunk pc.hash (s.take pc.chunkSize)]) ++
        [pc.entryChunk (pc.withLeaves P [s.take pc.chunkSize])], List.replicate pc.hashSize 0⟩
    pc.NewTreeEntry (s := s.drop pc.chunkSize) (by rw [hlast1]; exact Nat.one_pos) (by rw [hlast1]; omega) rfl
    (by simpa using pc.slot_le (a := 1) (by omega) hslot)
  simp only [Split, prepareChunks, Option.bind_eq_bind, Bool.false_eq_true, if_false, Option.bind_some]
  rw [hrun, hfill]
  simp only [level_withLeaves, hPlevel, List.nil_append]
  rw [hshort, hlast]
  simp only [Option.bind_some, Bool.false_eq_true, if_false]
  rw [copyAt_rootKey pc (leafChunk pc.hash _).Key (pc.length_hash _)]

theorem Size_le_past_branches (hb : 2 ≤ pc.branches) (hh : 0 < pc.hashSize) (data : List UInt8)
    (hlen : data.length = pc.chunkSize * pc.branches + 1) :
    ∀ c ∈ (pieces pc.chunkSize (pc.branches - 1) data).map (leafChunk pc.hash) ++
        [leafChunk pc.hash ((data.drop ((pc.branches - 1) * pc.chunkSize)).take pc.chunkSize)] ++
        [pc.entryChunk (pc.withLeaves (pc.withLeaves pc.NewTreeEntry (pieces pc.chunkSize (pc.branches - 1) data))
          [(data.drop ((pc.branches - 1) * pc.chunkSize)).take pc.chunkSize])] ++
        [leafChunk pc.hash (data.drop (pc.chunkSize * pc.branches))],
      c.Size ≤ ((pc.chunkSize * pc.branches : Nat) : Int) := by
  have hk : (pc.branches - 1) * pc.chunkSize + pc.chunkSize = pc.chunkSize * pc.branches := by
    rw [← Nat.succ_mul, Nat.succ_eq_add_one, Nat.sub_add_cancel (by omega), Nat.mul_comm]
  have hcs : pc.chunkSize ≤ pc.chunkSize * pc.branches := Nat.le_mul_of_pos_right _ (by omega)
  have hcs0 : 0 < pc.chunkSize := Nat.mul_pos hh (by omega)
  have hpieces : (pc.branches - 1) * pc.chunkSize ≤ data.length := by omega
  intro c hc
  simp only [List.append_assoc, List.mem_append, List.mem_map, List.mem_singleton] at hc
  rcases hc with ⟨seg, hseg, rfl⟩ | rfl | rfl | rfl
  · simp only [leafChunk, Nat.cast_le]
    rw [length_of_mem_pieces hpieces hseg]
    exact hcs
  · simp only [leafChunk, Nat.cast_le, List.length_take]
    omega
  · simp only [entryChunk, subtreeSize_withLeaves, NewTreeEntry, sum_length_pieces hpieces, Nat.cast_le,
      List.map_cons, List.map_nil, List.sum_cons, List.sum_nil, List.length_take]
    omega
  · simp only [leafChunk, Nat.cast_le, List.length_drop]
    omega

end PyramidChunker

/-! ## Against the tree chunker

The test compares the two chunkers on sizes that never put one data chunk alone under the last
parent. One byte past `branches` whole chunks does: the pyramid chunker returns the key of that
last data chunk, whose reader reports one byte, and never sends the chunk of the tree chunker's
root. -/

/-- `PyramidChunker.Split` and `TreeChunker.Split` on data of `chunkSize * branches + 1` bytes read
through a `bytes.Reader`: the root key that the pyramid chunker returns is the key of the data
chunk of the last byte, a reader of it over a store of the chunks sent reports a size of `1`, no
chunk it sends is larger than `chunkSize * branches`, and the tree chunker's root chunk, of the
whole size, is not among them. -/
theorem Split_roots_last_chunk (params : ChunkerParams) (hb : 2 ≤ params.Branches)
    (hh : 0 < params.hashSize) (data : List UInt8)
    (hlen : data.length = params.hashSize * params.Branches * params.Branches + 1) :
    ∃ chunks, (∀ fuel, params.Branches + 1 ≤ fuel →
        (NewPyramidChunker params).Split bytesReader data fuel =
          some ((leafChunk params.Hash (data.drop (data.length - 1))).Key, chunks)) ∧
      leafChunk params.Hash (data.drop (data.length - 1)) ∈ chunks ∧
      (∀ c ∈ chunks, c.Size < data.length) ∧
      (∀ store, Serves store chunks →
        (((NewTreeChunker params).Join (leafChunk params.Hash (data.drop (data.length - 1))).Key).Size
          store).1 = .ok 1) ∧
      ∃ key treeChunks, (NewTreeChunker params).Split data data.length = some (.ok (key, treeChunks)) ∧
        ∃ root ∈ treeChunks, root.Key = key ∧ root.Size = data.length ∧ root ∉ chunks := by
  have hN : data.length - 1 = (NewPyramidChunker params).chunkSize * (NewPyramidChunker params).branches := by
    rw [hlen]
    rfl
  have hsizes := (NewPyramidChunker params).Size_le_past_branches hb hh data hlen
  rw [hN]
  refine ⟨_, fun fuel hfuel => (NewPyramidChunker params).Split_past_branches hb hh hlen hfuel,
    List.mem_append_right _ (List.mem_singleton_self _), fun c hc => ?_, fun store hstore => ?_, ?_⟩
  · have := hsizes c hc
    rw [hlen]
    push_cast at this ⊢
    exact lt_of_le_of_lt this (by simp [NewPyramidChunker, PyramidChunker.chunkSize])
  · have hret := retrieve_of_serves hstore
      (c := leafChunk params.Hash (data.drop ((NewPyramidChunker params).chunkSize * (NewPyramidChunker params).branches)))
      (List.mem_append_right _ (List.mem_singleton_self _)) (putUint64_append_ne_nil _ _)
    rw [LazyChunkReader.Size_Join _ hret]
    have hone : (data.drop ((NewPyramidChunker params).chunkSize * (NewPyramidChunker params).branches)).length = 1 := by
      rw [← hN, List.length_drop]
      omega
    simp only [leafChunk, hone, Nat.cast_one]
  · obtain ⟨key, treeChunks, hsplit⟩ := TreeChunker.Split_ok (NewTreeChunker params) hb hh data
    obtain ⟨depth, rest, -, hroot⟩ := TreeChunker.Split_split (NewTreeChunker params) hb hh hsplit
    obtain ⟨root, hmem, hkey, -, hsize, -⟩ :=
      TreeChunker.join_split (NewTreeChunker params) (by simp [NewTreeChunker]; omega) hh depth data
        data.length key treeChunks rest hroot
    refine ⟨key, treeChunks, hsplit, root, hmem, hkey, hsize, fun hin => ?_⟩
    have := hsizes root hin
    rw [hsize, hlen] at this
    simp [NewPyramidChunker, PyramidChunker.chunkSize] at this

def twoBranchParams : ChunkerParams :=
  -- the hash of `chunker2`, whose length proof is shared with it
  ⟨2, 1, fun chunk => [UInt8.ofNat (chunk.foldl (fun a x => a * 31 + x.toNat) 7)],
    TreeChunker.chunker2.length_hash⟩

theorem Split_roots_last_chunk_five_bytes :
    2 ≤ twoBranchParams.Branches ∧ 0 < twoBranchParams.hashSize ∧
      ([1, 2, 3, 4, 5] : List UInt8).length =
        twoBranchParams.hashSize * twoBranchParams.Branches * twoBranchParams.Branches + 1 ∧
      ∃ chunks, (∀ fuel, twoBranchParams.Branches + 1 ≤ fuel →
          (NewPyramidChunker twoBranchParams).Split bytesReader [1, 2, 3, 4, 5] fuel =
            some ((leafChunk twoBranchParams.Hash ([1, 2, 3, 4, 5].drop (5 - 1))).Key, chunks)) ∧
        leafChunk twoBranchParams.Hash ([1, 2, 3, 4, 5].drop (5 - 1)) ∈ chunks ∧
        (∀ c ∈ chunks, c.Size < 5) ∧
        (∀ store, Serves store chunks →
          (((NewTreeChunker twoBranchParams).Join
            (leafChunk twoBranchParams.Hash ([1, 2, 3, 4, 5].drop (5 - 1))).Key).Size store).1 = .ok 1) ∧
        ∃ key treeChunks, (NewTreeChunker twoBranchParams).Split [1, 2, 3, 4, 5] 5 =
            some (.ok (key, treeChunks)) ∧
          ∃ root ∈ treeChunks, root.Key = key ∧ root.Size = 5 ∧ root ∉ chunks :=
  ⟨by decide, by decide, rfl,
    Split_roots_last_chunk twoBranchParams (by decide) (by decide) [1, 2, 3, 4, 5] rfl⟩

/-- `PyramidChunker.Append` of `d2` to the tree of data `d1` shorter than a chunk, the two together
one byte longer than `branches` whole chunks: the key it returns is the key of the data chunk of
the last byte, as is the key of `Split` of `d1 ++ d2`, and a reader of it over a store of the
chunks sent reports a size of `1`. -/
theorem Append_roots_last_chunk (params : ChunkerParams) (hb : 2 ≤ params.Branches)
    (hh : 0 < params.hashSize) (d1 d2 : List UInt8) (hd1 : 0 < d1.length)
    (hd1' : d1.length < params.hashSize * params.Branches)
    (hlen : d1.length + d2.length = params.hashSize * params.Branches * params.Branches + 1) :
    ∃ key chunks, (∀ fuel, 1 ≤ fuel →
        (NewPyramidChunker params).Split bytesReader d1 fuel = some (key, chunks)) ∧
      ∀ store, Serves store chunks → ∀ fuel, params.Branches + 1 ≤ fuel →
        (∃ chunks', (NewPyramidChunker params).Append store key bytesReader d2 fuel =
            some ((leafChunk params.Hash (d2.drop (d2.length - 1))).Key, chunks') ∧
          ∀ store', Serves store' chunks' →
            (((NewTreeChunker params).Join (leafChunk params.Hash (d2.drop (d2.length - 1))).Key).Size
              store').1 = .ok 1) ∧
        ∃ chunks'', (NewPyramidChunker params).Split bytesReader (d1 ++ d2) fuel =
          some ((leafChunk params.Hash (d2.drop (d2.length - 1))).Key, chunks'') := by
  have hd1cs : d1.length < (NewPyramidChunker params).chunkSize := hd1'
  have hlen' : d1.length + d2.length =
      (NewPyramidChunker params).chunkSize * (NewPyramidChunker params).branches + 1 := hlen
  have hcsb : (NewPyramidChunker params).chunkSize ≤
      (NewPyramidChunker params).chunkSize * (NewPyramidChunker params).branches :=
    Nat.le_mul_of_pos_right _ (by simp [NewPyramidChunker]; omega)
  have hlast : (d1 ++ d2).drop ((NewPyramidChunker params).chunkSize * (NewPyramidChunker params).branches) =
      d2.drop (d2.length - 1) := by
    rw [List.drop_append, List.drop_eq_nil_of_le (by omega), List.nil_append]
    congr 1
    omega
  refine ⟨(leafChunk params.Hash d1).Key, [leafChunk params.Hash d1], fun fuel hfuel => ?_,
    fun store hstore fuel hfuel => ⟨?_, ?_⟩⟩
  · obtain ⟨f, rfl⟩ : ∃ f, fuel = f + 1 := ⟨fuel - 1, by omega⟩
    exact (NewPyramidChunker params).Split_short hd1 hd1cs f
  · have hret := retrieve_of_serves hstore (List.mem_singleton_self _) (putUint64_append_ne_nil _ _)
    obtain ⟨chunks', happend, hmem⟩ := (NewPyramidChunker params).Append_past_branches hb hh hd1cs hlen' hret hfuel
    refine ⟨chunks', happend, fun store' hstore' => ?_⟩
    have hret' := retrieve_of_serves hstore' (c := leafChunk params.Hash (d2.drop (d2.length - 1))) hmem
      (putUint64_append_ne_nil _ _)
    rw [LazyChunkReader.Size_Join _ hret']
    have hone : (d2.drop (d2.length - 1)).length = 1 := by
      rw [List.length_drop]
      omega
    simp only [Size_leafChunk, hone, Nat.cast_one]
  · rw [← hlast]
    exact ⟨_, (NewPyramidChunker params).Split_past_branches hb hh (by simp; omega) hfuel⟩

theorem Append_roots_last_chunk_five_bytes :
    2 ≤ twoBranchParams.Branches ∧ 0 < twoBranchParams.hashSize ∧ 0 < ([1] : List UInt8).length ∧
      ([1] : List UInt8).length < twoBranchParams.hashSize * twoBranchParams.Branches ∧
      ([1] : List UInt8).length + ([2, 3, 4, 5] : List UInt8).length =
        twoBranchParams.hashSize * twoBranchParams.Branches * twoBranchParams.Branches + 1 ∧
      ∃ key chunks, (∀ fuel, 1 ≤ fuel →
          (NewPyramidChunker twoBranchParams).Split bytesReader [1] fuel = some (key, chunks)) ∧
        ∀ store, Serves store chunks → ∀ fuel, twoBranchParams.Branches + 1 ≤ fuel →
          (∃ chunks', (NewPyramidChunker twoBranchParams).Append store key bytesReader [2, 3, 4, 5] fuel =
              some ((leafChunk twoBranchParams.Hash ([2, 3, 4, 5].drop (4 - 1))).Key, chunks') ∧
            ∀ store', Serves store' chunks' →
              (((NewTreeChunker twoBranchParams).Join
                (leafChunk twoBranchParams.Hash ([2, 3, 4, 5].drop (4 - 1))).Key).Size store').1 = .ok 1) ∧
          ∃ chunks'', (NewPyramidChunker twoBranchParams).Split bytesReader ([1] ++ [2, 3, 4, 5]) fuel =
            some ((leafChunk twoBranchParams.Hash ([2, 3, 4, 5].drop (4 - 1))).Key, chunks'') :=
  ⟨by decide, by decide, by decide, by decide, rfl,
    Append_roots_last_chunk twoBranchParams (by decide) (by decide) [1] [2, 3, 4, 5] (by decide) (by decide) rfl⟩

end Zerium.Swarm
