import Zerium.Trie.Trie

/-! # Runs of trie operations

`runRandTest` of `trie_test.go` drives a trie over an in-memory database through a sequence
of operations: `Update`, `Delete`, `Get`, `Commit`, `Hash`, a reset that commits and opens the
trie again from its root hash with `New`, and `checkCacheInvariant`, the test's check of the
cache generations and dirty flags. `SetCacheLimit` is added, so that runs cover every cache
limit. A run is the trie after each operation, with what the operation answered.

`Get`, `Update` and `Delete` log the error of `TryGet`, `TryUpdate` and `TryDelete` and go on;
the reply keeps it. `none` is a panic, or exhausted fuel.
-/

namespace Zerium.Trie

set_option autoImplicit false
set_option linter.dupNamespace false

inductive Op where
  | update (key value : List UInt8)
  | delete (key : List UInt8)
  | get (key : List UInt8)
  | commit
  | hash
  | reset
  | checkCacheInvariant
  | setCacheLimit (limit : UInt16)
deriving DecidableEq, Repr

/-- What an operation answers: nothing, the value of `Get`, the root hash of `Commit` and
`Hash`, an error, or whether `checkCacheInvariant` found the invariant. -/
inductive Reply where
  | done
  | value (v : Option (List UInt8))
  | root (hash : List UInt8)
  | failed (err : TrieError)
  | invariant (ok : Bool)
deriving DecidableEq, Repr

/-- `checkCacheInvariant(n, parent, parentCachegen, parentDirty, depth)`: no node has a later
generation than its parent, and below the root no dirty node has a clean parent. `true` is
the `nil` error; the messages of the errors are not modelled. -/
def checkCacheInvariant : Node → UInt16 → Bool → Nat → Bool
  | .shortNode _ val flag, parentCachegen, parentDirty, depth =>
    if flag.gen > parentCachegen then false
    else if depth > 0 ∧ !parentDirty ∧ flag.dirty then false
    else checkCacheInvariant val flag.gen flag.dirty (depth + 1)
  | .fullNode children flag, parentCachegen, parentDirty, depth =>
    if flag.gen > parentCachegen then false
    else if depth > 0 ∧ !parentDirty ∧ flag.dirty then false
    else (List.finRange 17).all fun i => checkCacheInvariant (children i) flag.gen flag.dirty (depth + 1)
  | _, _, _, _ => true

namespace Trie

variable (keccak : List UInt8 → List UInt8)

def step (t : Trie) : Op → Option (Reply × Trie)
  | .update key value =>
    (t.TryUpdate key value).map fun (r, t') => (match r with | .ok () => .done | .error e => .failed e, t')
  | .delete key =>
    (t.TryDelete key).map fun (r, t') => (match r with | .ok () => .done | .error e => .failed e, t')
  | .get key =>
    (t.TryGet key).map fun (r, t') => (match r with | .ok v => .value v | .error e => .failed e, t')
  | .commit => (t.Commit keccak).map fun (h, t') => (.root h, t')
  | .hash => (t.Hash keccak).map fun (h, t') => (.root h, t')
  | .reset =>
    match t.Commit keccak with
    | none => none
    | some (h, t') =>
      match New h t'.db with
      | none => none
      | some (.error e) => some (.failed e, t')
      | some (.ok t'') => some (.root h, t'')
  | .checkCacheInvariant => some (.invariant (checkCacheInvariant t.root t.cachegen false 0), t)
  | .setCacheLimit l => some (.done, { t with cachelimit := l })

def run (t : Trie) : List Op → Option (List Reply × Trie)
  | [] => some ([], t)
  | op :: ops =>
    match t.step keccak op with
    | none => none
    | some (r, t') => (t'.run ops).map fun (rs, t'') => (r :: rs, t'')

end Trie

/-- The trie `runRandTest` starts from: `New(common.Hash{}, db)` over an empty database. -/
def emptyTrie : Trie := { root := .nil, db := some [], originalRoot := zeroHash, cachegen := 0, cachelimit := 0 }

theorem New_zeroHash : New zeroHash (some []) = some (.ok emptyTrie) := by
  simp [New, emptyTrie]

end Zerium.Trie
