import Zerium.Lib.BigEndian
import Zerium.Lib.Slice

/-! # The abthash proof of work

`algorithm.go`, `abthash.go`, `sealer.go` and `consensus.go`: the dataset item, the dataset
that the miner generates from the verification cache, the `hashimoto` mix over either of them,
the paths of `dataset.generate`, one attempt of `mine` and the recomputation of `VerifySeal`.

Keccak-256 and Keccak-512 are parameters (`Hasher`), with the length of their output, and so is
the cache: `dataset.generate` and `cache.generate` call `generateCache` with the same size and
seed for an epoch, so the miner and the verifier start from the same cache. Words are the
`uint32`s of the source; an offset computed in `uint32` that can leave its range is reduced
modulo `2 ^ 32` as the source reduces it, and the counters of `generateDataset`, which stay far
below `2 ^ 32` for every size of the tables, are natural numbers.
-/

namespace Zerium.Abthash

set_option autoImplicit false

def hashBytes : Nat := 64
def hashWords : Nat := 16
def mixBytes : Nat := 128
def datasetParents : Nat := 256
def loopAccesses : Nat := 64
def epochLength : Nat := 30000

theorem hashBytes_eq : hashBytes = 64 := rfl
theorem hashWords_eq : hashWords = 16 := rfl
theorem mixBytes_eq : mixBytes = 128 := rfl

/-- A hash function with its output length, as `makeHasher` reads it into a buffer of that
length. -/
structure Hasher (n : Nat) where
  sum : List UInt8 → List UInt8
  length_sum : ∀ data, (sum data).length = n

/-- `binary.LittleEndian.Uint32(b[off:])`. -/
def le32 (b : List UInt8) (off : Nat) : UInt32 :=
  (b.getD off 0).toUInt32 ||| (b.getD (off + 1) 0).toUInt32 <<< 8 |||
    (b.getD (off + 2) 0).toUInt32 <<< 16 ||| (b.getD (off + 3) 0).toUInt32 <<< 24

def putLe32 (w : UInt32) : List UInt8 :=
  [w.toUInt8, (w >>> 8).toUInt8, (w >>> 16).toUInt8, (w >>> 24).toUInt8]

def putLe64 (w : UInt64) : List UInt8 :=
  (List.range 8).map fun i => (w >>> (8 * i).toUInt64).toUInt8

/-- The little-endian words of a byte string, as `hashimotoLight` converts an item. -/
def words (b : List UInt8) : List UInt32 := (List.range (b.length / 4)).map fun i => le32 b (4 * i)

def fnv (a b : UInt32) : UInt32 := a * 0x01000193 ^^^ b

/-- `fnvHash(mix, data)`: every word of the mix is mixed with the word of `data` beside it. -/
def fnvHash (mix data : List UInt32) : List UInt32 := List.zipWith fnv mix data

/-- `generateDatasetItem`: a dataset node from 256 pseudorandomly chosen cache nodes. The cache
is never empty; the source divides by its number of rows. -/
def generateDatasetItem (keccak512 : Hasher 64) (cache : List UInt32) (index : UInt32) :
    List UInt8 :=
  let rows := UInt32.ofNat (cache.length / hashWords)
  let base := ((index % rows) * UInt32.ofNat hashWords).toNat
  let mix := putLe32 (cache.getD base 0 ^^^ index) ++
    (List.range' 1 (hashWords - 1)).flatMap fun i => putLe32 (cache.getD (base + i) 0)
  let mix := keccak512.sum mix
  let intMix := (List.range hashWords).map fun i => le32 mix (4 * i)
  let intMix := (List.range datasetParents).foldl (fun intMix i =>
    let parent := fnv (index ^^^ UInt32.ofNat i) (intMix.getD (i % 16) 0) % rows
    fnvHash intMix (cache.drop (parent * UInt32.ofNat hashWords).toNat)) intMix
  keccak512.sum (intMix.flatMap putLe32)

/-- `copy(dataset[index*hashBytes:], item)`: the byte offset is computed in `uint32`, so it is
taken modulo `2 ^ 32`. The dataset holds the item's words in machine byte order, which after
the swap of a big-endian machine are its little-endian words on every machine. -/
def storeItem (keccak512 : Hasher 64) (cache : List UInt32) (dataset : List UInt32) (index : Nat) :
    List UInt32 :=
  Slice.copyAt dataset (index * hashBytes % 2 ^ 32 / 4)
    (words (generateDatasetItem keccak512 cache (UInt32.ofNat index)))

/-- The items one goroutine of `generateDataset` generates: from `first` up to `limit`. -/
def generateSegment (keccak512 : Hasher 64) (cache : List UInt32) (first limit : Nat)
    (dataset : List UInt32) : List UInt32 :=
  (List.range' first (limit - first)).foldl (storeItem keccak512 cache) dataset

/-- `generateDataset`: `threads` goroutines, each generating one batch of consecutive items.
They write the items of disjoint index ranges, and the model runs them one after another. -/
def generateDataset (keccak512 : Hasher 64) (cache : List UInt32) (threads : Nat)
    (dest : List UInt32) : List UInt32 :=
  let size := dest.length * 4
  let batch := (size + hashBytes * threads - 1) / (hashBytes * threads)
  (List.range threads).foldl (fun dataset id =>
    generateSegment keccak512 cache (id * batch) (min (id * batch + batch) (size / hashBytes))
      dataset) dest

/-- One access of the `hashimoto` loop: the two dataset items at a pseudorandom parent row are
mixed in. Each lookup returns one item of `hashWords` words, so `temp` is the two items. -/
def mixAccess (lookup : UInt32 → List UInt32) (rows seedHead : UInt32) (mix : List UInt32)
    (i : Nat) : List UInt32 :=
  let parent := fnv (UInt32.ofNat i ^^^ seedHead) (mix.getD (i % mix.length) 0) % rows
  let temp := (List.range (mixBytes / hashBytes)).flatMap fun j => lookup (2 * parent + UInt32.ofNat j)
  fnvHash mix temp

/-- `hashimoto`: the mix digest and the proof-of-work value of a header hash and a nonce over a
dataset of `size` bytes, read through `lookup`. -/
def hashimoto (keccak256 : Hasher 32) (keccak512 : Hasher 64) (hash : List UInt8) (nonce : UInt64)
    (size : Nat) (lookup : UInt32 → List UInt32) : List UInt8 × List UInt8 :=
  let rows := UInt32.ofNat (size / mixBytes)
  let seed := keccak512.sum ((hash ++ List.replicate 32 0).take 32 ++ putLe64 nonce)
  let seedHead := le32 seed 0
  let mix := (List.range (mixBytes / 4)).map fun i => le32 seed (i % 16 * 4)
  let mix := (List.range loopAccesses).foldl (mixAccess lookup rows seedHead) mix
  let mix := (List.range (mix.length / 4)).map fun i =>
    fnv (fnv (fnv (mix.getD (4 * i) 0) (mix.getD (4 * i + 1) 0)) (mix.getD (4 * i + 2) 0))
      (mix.getD (4 * i + 3) 0)
  let digest := mix.flatMap putLe32
  (digest, keccak256.sum (seed ++ digest))

/-- `hashimotoLight`: the items are generated from the cache as they are needed. -/
def hashimotoLight (keccak256 : Hasher 32) (keccak512 : Hasher 64) (size : Nat) (cache : List UInt32)
    (hash : List UInt8) (nonce : UInt64) : List UInt8 × List UInt8 :=
  hashimoto keccak256 keccak512 hash nonce size fun index =>
    words (generateDatasetItem keccak512 cache index)

/-- The lookup of `hashimotoFull`: `dataset[offset : offset+hashWords]`, with the word offset
computed in `uint32`. -/
def fullLookup (dataset : List UInt32) (index : UInt32) : List UInt32 :=
  (dataset.drop (index.toNat * hashWords % 2 ^ 32)).take hashWords

/-- `hashimotoFull`: the items are read from the generated dataset, whose length decides the
size hashed over. -/
def hashimotoFull (keccak256 : Hasher 32) (keccak512 : Hasher 64) (dataset : List UInt32)
    (hash : List UInt8) (nonce : UInt64) : List UInt8 × List UInt8 :=
  hashimoto keccak256 keccak512 hash nonce (dataset.length * 4) (fullLookup dataset)

/-- What the file system gives `dataset.generate`: the words of an old dump that `memoryMap`
loads, and whether `memoryMapAndGenerate` succeeds. -/
structure Disk where
  dump : Option (List UInt32)
  mapped : Bool

/-- `dataset.generate`: the dataset the miner uses for an epoch with a dataset of `dsize` bytes.
The branch for an empty directory generates a dataset in memory but does not return, so the
disk decides there too. -/
def datasetGenerate (keccak512 : Hasher 64) (cache : List UInt32) (threads : Nat) (test : Bool)
    (dsize : Nat) (disk : Disk) : List UInt32 :=
  if test then generateDataset keccak512 cache threads (List.replicate (32 * 1024 / 4) 0)
  else
    match disk.dump with
    | some dump => dump
    | none =>
      if disk.mapped then generateDataset keccak512 cache threads (List.replicate (dsize / 4) 0)
      -- the fallback after a failed mapping
      else generateDataset keccak512 cache threads (List.replicate (dsize / 2) 0)

/-- The header fields the seal reads and writes. `HashNoNonce` does not cover the nonce and the
mix digest, so sealing does not change it. -/
structure SealHeader where
  number : UInt64
  difficulty : Int
  hashNoNonce : List UInt8
  nonce : UInt64
  mixDigest : List UInt8
deriving DecidableEq, Repr

inductive SealError where
  | nonceOutOfRange
  | invalidDifficulty
  | invalidMixDigest
  | invalidPoW
deriving DecidableEq, Repr

-- `Exp(2, 256, 0)` is `2 ^ 256` (a modulus `0` means none), not the `2 ^ 256 - 1` of its comment.
def maxUint256 : Nat := 2 ^ 256

/-- One nonce of the loop of `mine`: the sealed header if the value is within the target. -/
def mineAttempt (keccak256 : Hasher 32) (keccak512 : Hasher 64) (dataset : List UInt32)
    (header : SealHeader) (nonce : UInt64) : Option SealHeader :=
  let target := maxUint256 / header.difficulty.toNat
  let (digest, result) := hashimotoFull keccak256 keccak512 dataset header.hashNoNonce nonce
  if BigEndian.toNat result ≤ target then some { header with nonce, mixDigest := digest } else none

/-- `mine` from the nonce `seed`, stopped by the abort channel after `fuel` nonces. -/
def mine (keccak256 : Hasher 32) (keccak512 : Hasher 64) (dataset : List UInt32)
    (header : SealHeader) : UInt64 → Nat → Option SealHeader
  | _, 0 => none
  | nonce, fuel + 1 =>
    match mineAttempt keccak256 keccak512 dataset header nonce with
    | some sealed => some sealed
    | none => mine keccak256 keccak512 dataset header (nonce + 1) fuel

/-- `VerifySeal` of a real proof of work, over the cache of the header's epoch and the dataset
size `dsize` that `datasetSize` gives for it. -/
def VerifySeal (keccak256 : Hasher 32) (keccak512 : Hasher 64) (tester : Bool) (cache : List UInt32)
    (dsize : Nat) (header : SealHeader) : Except SealError Unit :=
  if header.number.toNat / epochLength ≥ 2048 then .error .nonceOutOfRange
  else if header.difficulty ≤ 0 then .error .invalidDifficulty
  else
    let size := if tester then 32 * 1024 else dsize
    let (digest, result) := hashimotoLight keccak256 keccak512 size cache header.hashNoNonce header.nonce
    if header.mixDigest ≠ digest then .error .invalidMixDigest
    else if BigEndian.toNat result > maxUint256 / header.difficulty.toNat then .error .invalidPoW
    else .ok ()

end Zerium.Abthash
