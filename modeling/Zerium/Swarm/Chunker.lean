import Zerium.Lib.Slice
import Zerium.Abi.Unpack

/-! # The swarm tree chunker

`chunker.go`: `Split` cuts data into a tree of chunks, a leaf being the size of its data as eight
little-endian bytes and then the data, a branching chunk the size under it and its children's
keys. `LazyChunkReader.ReadAt` walks the tree down to the leaves of the window it is asked for.
The goroutines of `Split` and `join` run one after another, which changes no result since they
write to disjoint places; after a child of `join` fails the model stops. Sizes are natural
numbers, offsets `int64`s divided toward zero (`Int.tdiv`), and `none` is a panic or a loop on
the depth that never ends.
-/

namespace Zerium.Swarm

set_option autoImplicit false

/-- `Key`: the hash of a chunk. -/
abbrev Key := List UInt8

/-- `Chunk`, with the fields that splitting and joining read: the data `SData` with its
eight-byte size prefix, and the size of the data under the chunk. -/
structure Chunk where
  Key : Key
  SData : List UInt8
  Size : Int
deriving DecidableEq, Repr

inductive ChunkerError where
  /-- `io.EOF`: the data ended before `size` bytes were read -/
  | EOF
  /-- `root chunk not found for %v` -/
  | rootNotFound (key : Key)
  /-- `chunk %v-%v not found` -/
  | chunkNotFound (off eoff : Int)
deriving DecidableEq, Repr

/-- `TreeChunker`; the hash function is its `SwarmHash` on a whole chunk: `ResetWithLength`
with the first eight bytes, `Write` with the rest, then `Sum`. -/
structure TreeChunker where
  branches : Nat
  hashSize : Nat
  hash : List UInt8 → Key
  length_hash : ∀ chunk, (hash chunk).length = hashSize

/-- `binary.LittleEndian.PutUint64(b[0:8], uint64(size))`. -/
def putUint64 (size : Nat) : List UInt8 := (List.range 8).map fun i => UInt8.ofNat (size / 256 ^ i)

@[simp] theorem length_putUint64 (size : Nat) : (putUint64 size).length = 8 := by
  simp [putUint64]

/-- The loop `for ; treeSize < size; treeSize *= branches { depth++ }` of `Split` and `ReadAt`,
run for at most `fuel` rounds: `none` if it has not ended by then. -/
def treeDepth (branches : Nat) (size : Int) : Nat → Nat → Nat → Option (Nat × Nat)
  | 0, depth, treeSize => if (treeSize : Int) < size then none else some (depth, treeSize)
  | fuel + 1, depth, treeSize =>
    if (treeSize : Int) < size then treeDepth branches size fuel (depth + 1) (treeSize * branches)
    else some (depth, treeSize)

/-- The size of the child of `split` at `pos`: the last item can have shorter data. -/
def secSize (size treeSize pos : Nat) : Nat := if size - pos < treeSize then size - pos else treeSize

/-- The loop of `split` over `n` children from `pos` on, each split by `f` from the data left
by the one before. -/
def splitLoop (f : List UInt8 → Nat → Except ChunkerError (Key × List Chunk × List UInt8))
    (size treeSize : Nat) : Nat → Nat → List UInt8 → Except ChunkerError (List Key × List Chunk × List UInt8)
  | 0, _, data => .ok ([], [], data)
  | n + 1, pos, data =>
    match f data (secSize size treeSize pos) with
    | .error err => .error err
    | .ok (key, chunks, data) =>
      (splitLoop f size treeSize n (pos + treeSize) data).map fun (keys, rest, data) =>
        (key :: keys, chunks ++ rest, data)

namespace TreeChunker

def chunkSize (self : TreeChunker) : Nat := self.hashSize * self.branches

/-- `split`: the key of a subtree of `size` bytes read from `data`, the chunks it sends, and
the data left. -/
def split (self : TreeChunker) : Nat → Nat → List UInt8 → Nat →
    Except ChunkerError (Key × List Chunk × List UInt8)
  | depth + 1, treeSize, data, size =>
    if size < treeSize then self.split depth (treeSize / self.branches) data size
    else
      let branchCnt := (size + treeSize - 1) / treeSize
      (splitLoop (self.split depth (treeSize / self.branches)) size treeSize branchCnt 0 data).map
        fun (keys, chunks, data) =>
          let chunk := putUint64 size ++ keys.flatten
          (self.hash chunk, chunks ++ [⟨self.hash chunk, chunk, size⟩], data)
  | 0, _, data, size =>
    if data.length < size then .error .EOF
    else
      let chunkData := putUint64 size ++ data.take size
      .ok (self.hash chunkData, [⟨self.hash chunkData, chunkData, size⟩], data.drop size)

/-- `Split`: the root key and the chunks sent to `chunkC`. -/
def Split (self : TreeChunker) (data : List UInt8) (size : Nat) :
    Option (Except ChunkerError (Key × List Chunk)) :=
  if self.chunkSize = 0 then none
  else
    (treeDepth self.branches size size 0 self.chunkSize).map fun (depth, treeSize) =>
      (self.split depth (treeSize / self.branches) data size).map fun (key, chunks, _) => (key, chunks)

end TreeChunker

abbrev ChunkStore := Key → Option Chunk

/-- `retrieve`: the requested chunk with the data and size of the stored one, `nil` when there
is none or its data is empty. -/
def retrieve (store : ChunkStore) (key : Key) : Option Chunk :=
  match store key with
  | some stored => if stored.SData = [] then none else some ⟨key, stored.SData, stored.Size⟩
  | none => none

structure LazyChunkReader where
  key : Key
  chunk : Option Chunk
  off : Int
  chunkSize : Nat
  branches : Nat
  hashSize : Nat

/-- `Join`. -/
def TreeChunker.Join (self : TreeChunker) (key : Key) : LazyChunkReader :=
  ⟨key, none, 0, self.chunkSize, self.branches, self.hashSize⟩

namespace LazyChunkReader

/-- `Size`, with a quit channel that is not closed; the root chunk is kept for later calls. -/
def Size (self : LazyChunkReader) (store : ChunkStore) : Except ChunkerError Int × LazyChunkReader :=
  match self.chunk with
  | some chunk => (.ok chunk.Size, self)
  | none =>
    match retrieve store self.key with
    | none => (.error (.rootNotFound self.key), self)
    | some chunk => (.ok chunk.Size, { self with chunk := some chunk })

/-- The loop of `join` over `n` children from `i` on of a chunk whose children cover
`treeSize` bytes each, for the window `[off, eoff)` that `b` holds; `f` joins a child one level
down into its part of `b`. -/
def joinLoop (self : LazyChunkReader) (store : ChunkStore)
    (f : List UInt8 → Int → Int → Chunk → Option (Except ChunkerError (List UInt8)))
    (chunk : Chunk) (off eoff : Int) (treeSize : Nat) :
    Nat → Int → List UInt8 → Option (Except ChunkerError (List UInt8))
  | 0, _, b => some (.ok b)
  | n + 1, i, b =>
    let soff := max (i * treeSize) off
    let roff := i * treeSize
    let seoff := min (i * treeSize + treeSize) eoff
    match Abi.goSlice chunk.SData (8 + i * self.hashSize) (8 + (i + 1) * self.hashSize) with
    | none => none
    | some childKey =>
      match retrieve store childKey with
      | none => some (.error (.chunkNotFound off (off + treeSize)))
      | some child =>
        match Abi.goSlice b (soff - off) (seoff - off) with
        | none => none
        | some window =>
          match f window (soff - roff) (seoff - roff) child with
          | none => none
          | some (.error err) => some (.error err)
          | some (.ok window) =>
            self.joinLoop store f chunk off eoff treeSize n (i + 1) (Slice.copyAt b (soff - off).toNat window)

/-- `join`: the buffer `b` of the window `[off, eoff)` of the subtree of `chunk`, with the
bytes of the window copied in. -/
def join (self : LazyChunkReader) (store : ChunkStore) :
    Nat → List UInt8 → Int → Int → Nat → Chunk → Option (Except ChunkerError (List UInt8))
  | depth + 1, b, off, eoff, treeSize, chunk =>
    if chunk.Size < treeSize then self.join store depth b off eoff (treeSize / self.branches) chunk
    else
      let start := off.tdiv treeSize
      let end_ := (eoff + treeSize - 1).tdiv treeSize
      self.joinLoop store (fun b off eoff chunk => self.join store depth b off eoff (treeSize / self.branches) chunk)
        chunk off eoff treeSize (end_ - start).toNat start b
  | 0, b, off, eoff, _, chunk =>
    let extra := 8 + eoff - chunk.SData.length
    let eoff := if extra > 0 then eoff - extra else eoff
    (Abi.goSlice chunk.SData (8 + off) (8 + eoff)).map fun src => .ok (Slice.copyAt b 0 src)

/-- `ReadAt`: the number of bytes reported read, whether the error is `io.EOF`, and the
buffer. After an error the buffer is left out: the children of `join` may still be writing to
it. -/
def ReadAt (self : LazyChunkReader) (store : ChunkStore) (b : List UInt8) (off : Int) :
    Option (Except ChunkerError (Nat × Bool × List UInt8) × LazyChunkReader) :=
  if b.length = 0 then some (.ok (0, false, b), self)
  else
    match self.Size store with
    | (.error err, self) => some (.error err, self)
    | (.ok size, self) =>
      match treeDepth self.branches size size.toNat 0 self.chunkSize, self.chunk with
      | some (depth, treeSize), some chunk =>
        match self.join store depth b off (off + b.length) (treeSize / self.branches) chunk with
        | none => none
        | some (.error err) => some (.error err, self)
        | some (.ok b') => some (.ok (b.length, decide (size ≤ off + b.length), b'), self)
      -- a depth loop that does not end, or `join` on a nil root chunk
      | _, _ => none

/-- `Read`: `ReadAt` at the reader's offset, which moves on by the count read. -/
def Read (self : LazyChunkReader) (store : ChunkStore) (b : List UInt8) :
    Option (Except ChunkerError (Nat × Bool × List UInt8) × LazyChunkReader) :=
  (self.ReadAt store b self.off).map fun (result, self) =>
    match result with
    | .ok (read, eof, b) => (.ok (read, eof, b), { self with off := self.off + read })
    | .error err => (.error err, self)

end LazyChunkReader

end Zerium.Swarm
