import Zerium.Swarm.Chunker

/-! # The swarm pyramid chunker

`pyramid.go`: `Split` builds the tree of chunks from the leaves up while it reads, keeping for
each level the entries not yet under a parent (`chunkLevel`); a full level goes under a new entry
one level up, and a short read ends the data, after which `buildTree` closes the tree up to one
root entry. `Append` loads the rightmost entries of an existing tree with `loadTree` and goes on.
The hash workers run one after another, so a chunk's key is its hash once it is enqueued; the
timeout is not modelled. A reader is a state with its `Read`, sizes are natural numbers, and
`none` is a panic or a loop that has not ended within its fuel.
-/

namespace Zerium.Swarm

set_option autoImplicit false

/-- `ChunkerParams`, with the hash function that `MakeHashFunc(params.Hash)` makes. -/
structure ChunkerParams where
  Branches : Nat
  hashSize : Nat
  Hash : List UInt8 → Key
  length_Hash : ∀ chunk, (Hash chunk).length = hashSize

def NewTreeChunker (params : ChunkerParams) : TreeChunker :=
  ⟨params.Branches, params.hashSize, params.Hash, params.length_Hash⟩

structure PyramidChunker where
  branches : Nat
  hashSize : Nat
  hash : List UInt8 → Key
  length_hash : ∀ chunk, (hash chunk).length = hashSize

def NewPyramidChunker (params : ChunkerParams) : PyramidChunker :=
  ⟨params.Branches, params.hashSize, params.Hash, params.length_Hash⟩

inductive ReadError where
  | EOF
  | ErrUnexpectedEOF
  | other
deriving DecidableEq, Repr

/-- An `io.Reader` and its state: `Read s len` gives the bytes that a `Read` into a buffer of
`len` bytes puts there, its error, and the state after it. -/
structure Reader (σ : Type) where
  Read : σ → Nat → List UInt8 × Option ReadError × σ
  length_Read : ∀ s len, (Read s len).1.length ≤ len

/-- `bytes.Reader` over the bytes not read yet. -/
def bytesReader : Reader (List UInt8) where
  Read s len := if s = [] then ([], some .EOF, []) else (s.take len, none, s.drop len)
  length_Read s len := by
    split <;> simp

structure TreeEntry where
  level : Nat
  branchCount : Nat
  subtreeSize : Nat
  chunk : List UInt8
  key : Key
  index : Nat
  updatePending : Bool
deriving DecidableEq, Repr

/-- What the procedures under `prepareChunks` change: the entries of each level, the chunks sent
to `chunkC`, and `rootKey`. -/
structure Build where
  chunkLevel : List (List TreeEntry)
  chunks : List Chunk
  rootKey : Key
deriving DecidableEq, Repr

namespace PyramidChunker

variable {σ : Type}

def chunkSize (self : PyramidChunker) : Nat := self.hashSize * self.branches

def NewTreeEntry (self : PyramidChunker) : TreeEntry :=
  ⟨0, 0, 0, List.replicate (self.chunkSize + 8) 0, List.replicate self.hashSize 0, 0, false⟩

/-- `enqueueDataChunk`: the data chunk of the first `size` bytes after the size prefix of
`chunkData` is sent, and its key is written into the next key slot of `parent`. -/
def enqueueDataChunk (self : PyramidChunker) (chunkData : List UInt8) (size : Nat)
    (parent : TreeEntry) (b : Build) : Option (Key × TreeEntry × Build) :=
  let slot := 8 + parent.branchCount * self.hashSize
  if size + 8 ≤ chunkData.length ∧ slot + self.hashSize ≤ parent.chunk.length then
    let chunk := putUint64 size ++ (chunkData.drop 8).take size
    let key := self.hash chunk
    some (key, { parent with chunk := Slice.copyAt parent.chunk slot key },
      { b with chunks := b.chunks ++ [(⟨key, chunk, size⟩ : Chunk)] })
  else none

/-- `enqueueTreeChunk`: the size goes into the first eight bytes of the entry's chunk, the chunk
of its keys is sent, and the entry takes its place in its level: over the one at `index` when it
is being updated, after the others otherwise. -/
def enqueueTreeChunk (self : PyramidChunker) (ent : TreeEntry) (b : Build) : Option Build :=
  let size := ent.branchCount * self.hashSize + 8
  if size ≤ ent.chunk.length then
    let chunk := putUint64 ent.subtreeSize ++ ent.chunk.drop 8
    let ent := { ent with chunk := chunk, key := self.hash (chunk.take size) }
    let b := { b with chunks := b.chunks ++ [(⟨ent.key, chunk.take size, ent.subtreeSize⟩ : Chunk)] }
    match b.chunkLevel[ent.level]? with
    | none => none
    | some entries =>
      if ent.updatePending then
        if ent.index < entries.length then
          some { b with chunkLevel := b.chunkLevel.set ent.level (entries.set ent.index ent) }
        else none
      else some { b with chunkLevel := b.chunkLevel.set ent.level (entries ++ [ent]) }
  else none

def keySlots (self : PyramidChunker) (entries : List TreeEntry) : Option (List UInt8) :=
  if entries.all fun e => decide (self.hashSize ≤ e.key.length) then
    some (entries.map fun e => e.key.take self.hashSize).flatten
  else none

/-- The entry one level up over the entries of `lvl` from `startCount` on, or, in an append
whose last entry one level up is being updated, the update of that entry over every entry of
the level. `next` holds the entries one level up. -/
def groupEntry (self : PyramidChunker) (isAppend : Bool) (entries next : List TreeEntry)
    (lvl startCount : Nat) : Option TreeEntry :=
  if isAppend && (next.getLast?.map TreeEntry.updatePending).getD false then
    if entries.length * self.hashSize ≤ self.chunkSize then
      (self.keySlots entries).map fun keys =>
        ⟨lvl + 1, entries.length, (entries.map TreeEntry.subtreeSize).sum,
          Slice.copyAt (List.replicate (self.chunkSize + 8) 0) 8 keys,
          List.replicate self.hashSize 0, next.length - 1, true⟩
    else none
  else
    let endCount := min (startCount + self.branches) entries.length
    let group := (entries.drop startCount).take (endCount - startCount)
    (self.keySlots group).map fun keys =>
      ⟨lvl + 1, endCount - startCount, (group.map TreeEntry.subtreeSize).sum,
        List.replicate 8 0 ++ keys, List.replicate self.hashSize 0, next.length - 1, false⟩

def groupLoop (self : PyramidChunker) (isAppend : Bool) (entries : List TreeEntry) (lvl : Nat) :
    Nat → Nat → Build → Option Build
  | 0, startCount, b => if startCount < entries.length then none else some b
  | fuel + 1, startCount, b =>
    if startCount < entries.length then do
      let next ← b.chunkLevel[lvl + 1]?
      let ent ← self.groupEntry isAppend entries next lvl startCount
      let b ← self.enqueueTreeChunk ent b
      self.groupLoop isAppend entries lvl fuel (startCount + self.branches) b
    else some b

/-- The loop `for lvl := ent.level; lvl < endLvl; lvl++` of `buildTree`, over `n` levels from
`lvl` on. At the last call a level with one entry gives the root key. -/
def levelLoop (self : PyramidChunker) (isAppend compress last : Bool) :
    Nat → Nat → Build → Option Build
  | 0, _, b => some b
  | n + 1, lvl, b => do
    let entries ← b.chunkLevel[lvl]?
    match entries, last with
    | [e], true => some { b with rootKey := Slice.copyAt b.rootKey 0 e.key }
    | _, _ =>
      let b ← self.groupLoop isAppend entries lvl entries.length 0 b
      let b := if !isAppend && compress then { b with chunkLevel := b.chunkLevel.set lvl [] } else b
      self.levelLoop isAppend compress last n (lvl + 1) b

/-- `buildTree`: `ent` is enqueued; then, if a level holds `branches` entries or at the `last`
call, the levels from `ent`'s up to the first full one are put under entries one level up. -/
def buildTree (self : PyramidChunker) (isAppend : Bool) (ent : TreeEntry) (last : Bool) (b : Build) :
    Option Build := do
  let b ← self.enqueueTreeChunk ent b
  let (compress, endLvl) :=
    match (List.range self.branches).find? fun lvl => self.branches ≤ (b.chunkLevel.getD lvl []).length with
    | some lvl => (true, lvl + 1)
    | none => (false, self.branches)
  if !compress && !last then some b
  else self.levelLoop isAppend compress last (endLvl - ent.level) ent.level b

/-- The variables of the loop of `prepareChunks`. -/
structure Prepare (σ : Type) where
  build : Build
  parent : TreeEntry
  unFinishedChunk : Option Chunk
  reader : σ

/-- How a round of the loop of `prepareChunks` ends. -/
inductive Next (σ : Type) where
  | loop (st : Prepare σ)
  | done (b : Build)
  /-- A read error other than `io.EOF`: `quitC` is closed and the loop left. -/
  | quit (b : Build)

def readRound (self : PyramidChunker) (data : Reader σ) (unFinishedChunk : Option Chunk) (s : σ) :
    List UInt8 × Nat × Option ReadError × σ :=
  let chunkData := List.replicate (self.chunkSize + 8) 0
  match unFinishedChunk with
  | some u =>
    let r := data.Read s (self.chunkSize - u.Size.toNat)
    (Slice.copyAt (Slice.copyAt chunkData 0 u.SData) (8 + u.Size.toNat) r.1, r.1.length + u.Size.toNat,
      r.2.1, r.2.2)
  | none =>
    let r := data.Read s self.chunkSize
    (Slice.copyAt chunkData 8 r.1, r.1.length, r.2.1, r.2.2)

def storeRound (self : PyramidChunker) (isAppend : Bool) (st : Prepare σ) (chunkData : List UInt8)
    (n : Nat) (s : σ) : Option (Next σ) :=
  if n = 0 then (self.buildTree isAppend st.parent true st.build).map .done
  else do
    let (pkey, parent, b) ← self.enqueueDataChunk chunkData n st.parent st.build
    let parent := { parent with subtreeSize := parent.subtreeSize + n, branchCount := parent.branchCount + 1 }
    if n < self.chunkSize then
      if parent.branchCount ≤ 1 then some (.done { b with rootKey := Slice.copyAt b.rootKey 0 pkey })
      else (self.buildTree isAppend parent true b).map .done
    else if parent.branchCount = self.branches then
      (self.buildTree isAppend parent false b).map fun b => .loop ⟨b, self.NewTreeEntry, none, s⟩
    else some (.loop ⟨b, parent, none, s⟩)

def prepareRound (self : PyramidChunker) (isAppend : Bool) (st : Prepare σ) (chunkData : List UInt8)
    (n : Nat) (err : Option ReadError) (s : σ) : Option (Next σ) :=
  match err with
  | some .other => some (.quit st.build)
  | some _ =>
    if st.parent.branchCount = 1 then
      (Abi.goSlice st.parent.chunk 8 (8 + self.hashSize)).map fun key =>
        .done { st.build with rootKey := Slice.copyAt st.build.rootKey 0 key }
    else self.storeRound isAppend st chunkData n s
  | none => self.storeRound isAppend st chunkData n s

/-- The loop `for index := 0; ; index++` of `prepareChunks`, for at most `fuel` rounds: what
was built, and whether `quitC` was closed. -/
def prepareLoop (self : PyramidChunker) (isAppend : Bool) (data : Reader σ) :
    Nat → Prepare σ → Option (Build × Bool)
  | 0, _ => none
  | fuel + 1, st =>
    let r := self.readRound data st.unFinishedChunk st.reader
    match self.prepareRound isAppend st r.1 r.2.1 r.2.2.1 r.2.2.2 with
    | none => none
    | some (.loop st) => self.prepareLoop isAppend data fuel st
    | some (.done b) => some (b, false)
    | some (.quit b) => some (b, true)

/-- The start of `prepareChunks` in an append: the last entry of level `0`, if it is not full,
becomes `parent`, and its last data chunk, if shorter than a chunk, is read again to be filled
up. -/
def appendStart (self : PyramidChunker) (store : ChunkStore) (chunkLevel : List (List TreeEntry)) :
    Option (TreeEntry × Option Chunk) := do
  let level0 ← chunkLevel[0]?
  match level0.getLast? with
  | none => some (self.NewTreeEntry, none)
  | some ent =>
    if ent.branchCount < self.branches then
      let parent : TreeEntry :=
        ⟨0, ent.branchCount, ent.subtreeSize, ent.chunk, ent.key, level0.length - 1, true⟩
      let lastBranch : Int := ent.branchCount - 1
      let lastKey ← Abi.goSlice parent.chunk (8 + lastBranch * self.hashSize)
        (8 + (lastBranch + 1) * self.hashSize)
      -- `unFinishedChunk.Size` on a chunk the store does not have dereferences nil
      let unfinished ← retrieve store lastKey
      if unfinished.Size < self.chunkSize then
        let parent := { parent with subtreeSize := parent.subtreeSize - unfinished.Size.toNat }
        some ({ parent with branchCount := parent.branchCount - 1 }, some unfinished)
      else some (parent, none)
    else some (self.NewTreeEntry, none)

/-- `prepareChunks`: what was built, and whether `quitC` was closed. Only an append reads the
store. -/
def prepareChunks (self : PyramidChunker) (isAppend : Bool) (store : ChunkStore)
    (chunkLevel : List (List TreeEntry)) (data : Reader σ) (s : σ) (fuel : Nat) :
    Option (Build × Bool) := do
  let (parent, unFinishedChunk) ←
    if isAppend then self.appendStart store chunkLevel else some (self.NewTreeEntry, none)
  self.prepareLoop isAppend data fuel
    ⟨⟨chunkLevel, [], List.replicate self.hashSize 0⟩, parent, unFinishedChunk, s⟩

/-- `Split`: the root key and the chunks sent. `prepareChunks` closes `quitC` on a read error
other than `io.EOF`, and `Split` closes it again when it returns: a panic. -/
def Split (self : PyramidChunker) (data : Reader σ) (s : σ) (fuel : Nat) : Option (Key × List Chunk) := do
  let (b, quit) ← self.prepareChunks false (fun _ => none) (List.replicate self.branches []) data s fuel
  if quit then none else some (b.rootKey, b.chunks)

inductive LoadError where
  | errLoadingTreeRootChunk
  | errLoadingTreeChunk
deriving DecidableEq, Repr

/-- `int64(len(chunk)-8) / self.hashSize`: the keys a chunk holds; a division by zero panics. -/
def keyCount (self : PyramidChunker) (chunk : List UInt8) : Option Nat :=
  if self.hashSize = 0 then none else some ((chunk.length - 8) / self.hashSize)

/-- The loop `for i := 0; i < branchCount; i++` of `loadTree` over `n` children of `ent` from
`i` on: each goes after the entries of level `lvl - 1`. -/
def loadChildren (self : PyramidChunker) (store : ChunkStore) (ent : TreeEntry) (lvl : Nat) :
    Nat → Nat → List (List TreeEntry) → Option (Except LoadError Unit × List (List TreeEntry))
  | 0, _, chunkLevel => some (.ok (), chunkLevel)
  | n + 1, i, chunkLevel => do
    let key ← Abi.goSlice ent.chunk (8 + i * self.hashSize) (8 + (i + 1) * self.hashSize)
    match retrieve store key with
    | none => some (.error .errLoadingTreeChunk, chunkLevel)
    | some newChunk =>
      let bewBranchCount ← self.keyCount newChunk.SData
      let entries ← chunkLevel[lvl - 1]?
      let newEntry : TreeEntry :=
        ⟨lvl - 1, bewBranchCount, newChunk.Size.toNat, newChunk.SData, key, 0, true⟩
      self.loadChildren store ent lvl n (i + 1) (chunkLevel.set (lvl - 1) (entries ++ [newEntry]))

def loadEntries (self : PyramidChunker) (store : ChunkStore) (lvl : Nat) :
    List TreeEntry → List (List TreeEntry) → Option (Except LoadError Unit × List (List TreeEntry))
  | [], chunkLevel => some (.ok (), chunkLevel)
  | ent :: rest, chunkLevel => do
    let branchCount ← self.keyCount ent.chunk
    let (r, chunkLevel) ← self.loadChildren store ent lvl branchCount 0 chunkLevel
    match r with
    | .error err => some (.error err, chunkLevel)
    | .ok () =>
      let chunkLevel := if self.branches ≤ (chunkLevel.getD (lvl - 1) []).length
        then chunkLevel.set (lvl - 1) [] else chunkLevel
      self.loadEntries store lvl rest chunkLevel

/-- The loop `for lvl := (depth - 1); lvl >= 1; lvl--` of `loadTree`, from `lvl` down. -/
def loadLevels (self : PyramidChunker) (store : ChunkStore) :
    Nat → List (List TreeEntry) → Option (Except LoadError Unit × List (List TreeEntry))
  | 0, chunkLevel => some (.ok (), chunkLevel)
  | lvl + 1, chunkLevel => do
    let entries ← chunkLevel[lvl + 1]?
    let (r, chunkLevel) ← self.loadEntries store (lvl + 1) entries chunkLevel
    match r with
    | .error err => some (.error err, chunkLevel)
    | .ok () => self.loadLevels store lvl chunkLevel

/-- `loadTree`: the rightmost entries of each level of the tree of `key`. A root of at most a
chunk of data gets a parent entry of one child. -/
def loadTree (self : PyramidChunker) (store : ChunkStore) (chunkLevel : List (List TreeEntry))
    (key : Key) : Option (Except LoadError Unit × List (List TreeEntry)) :=
  match retrieve store key with
  | none => some (.error .errLoadingTreeRootChunk, chunkLevel)
  | some chunk =>
    if chunk.Size ≤ self.chunkSize then do
      let level0 ← chunkLevel[0]?
      let newEntry : TreeEntry := ⟨0, 1, chunk.Size.toNat,
        Slice.copyAt (List.replicate (self.chunkSize + 8) 0) 8 chunk.Key, List.replicate self.hashSize 0, 0, true⟩
      some (.ok (), chunkLevel.set 0 (level0 ++ [newEntry]))
    else do
      let (depth, _) ← treeDepth self.branches chunk.Size chunk.Size.toNat 0 self.chunkSize
      let branchCount ← self.keyCount chunk.SData
      let entries ← chunkLevel[depth - 1]?
      let newEntry : TreeEntry := ⟨depth - 1, branchCount, chunk.Size.toNat, chunk.SData, key, 0, true⟩
      self.loadLevels store (depth - 1) (chunkLevel.set (depth - 1) (entries ++ [newEntry]))

/-- `Append`: the error of `loadTree` is not looked at. -/
def Append (self : PyramidChunker) (store : ChunkStore) (key : Key) (data : Reader σ) (s : σ)
    (fuel : Nat) : Option (Key × List Chunk) := do
  let (_, chunkLevel) ← self.loadTree store (List.replicate self.branches []) key
  let (b, quit) ← self.prepareChunks true store chunkLevel data s fuel
  if quit then none else some (b.rootKey, b.chunks)

end PyramidChunker

end Zerium.Swarm
