import Zerium.Rlp.Raw
import Zerium.Lib.KVStore
import Zerium.Trie.Encoding

/-! # Trie nodes

`node.go`: the four node types behind the `node` interface and the `nil` interface value, the
cache flags every full and short node carries, the RLP value a node is encoded as, and
`decodeNode`, which reads a node back from its stored encoding.

Nodes are values here. The source copies a node (`n.copy()`) before it changes a field, so no
node reachable from a trie is ever changed in place, and a value model loses nothing.

`decodeNode` recurses through `decodeRef` on embedded nodes, always into a shorter slice of
its input, so it is defined by well-founded recursion on the input length. Its result
`Option (Except NodeError Node)` separates the run-time panics of `rlp.Split` on a lone
`0x81` and of `compactToHex` on an empty key (`none`) from the errors it returns.
-/

namespace Zerium.Trie

set_option autoImplicit false

open Zerium.Rlp

instance neZero_seventeen : NeZero 17 := ⟨by decide⟩

/-- `nodeFlag`: the cached hash (`nil` when absent), the cache generation and whether the
node has changes not yet written to the database. -/
structure NodeFlag where
  hash : Option (List UInt8)
  gen : UInt16
  dirty : Bool
deriving DecidableEq, Repr

inductive Node where
  | fullNode (children : Fin 17 → Node) (flags : NodeFlag)
  | shortNode (key : List UInt8) (val : Node) (flags : NodeFlag)
  | hashNode (hash : List UInt8)
  | valueNode (value : List UInt8)
  | nil

namespace Node

def isNil : Node → Bool
  | .nil => true
  | _ => false

def isValue : Node → Bool
  | .valueNode _ => true
  | _ => false

/-- `cache()`: the cached hash and the dirty flag. Calling it on the `nil` interface panics. -/
def cache : Node → Option (Option (List UInt8) × Bool)
  | .fullNode _ flags | .shortNode _ _ flags => some (flags.hash, flags.dirty)
  | .hashNode _ | .valueNode _ => some (none, true)
  | .nil => none

/-- The RLP value `rlp.Encode` writes for a node: a full node is the list of its seventeen
children, a short node the pair of its key and child, hash and value nodes their bytes, and
the `nil` interface the empty list. -/
def toValue : Node → Value
  | .fullNode children _ => .list (List.ofFn fun i => (children i).toValue)
  | .shortNode key val _ => .list [.bytes key, val.toValue]
  | .hashNode hash => .bytes hash
  | .valueNode value => .bytes value
  | .nil => .list []

def depth : Node → Nat
  | .fullNode children _ => (List.finRange 17).foldr (fun i m => max (children i).depth m) 0 + 1
  | .shortNode _ val _ => val.depth + 1
  | _ => 0

theorem depth_child_lt (children : Fin 17 → Node) (flags : NodeFlag) (i : Fin 17) :
    (children i).depth < (Node.fullNode children flags).depth := by
  have hle : ∀ (l : List (Fin 17)), i ∈ l →
      (children i).depth ≤ l.foldr (fun j m => max (children j).depth m) 0 := by
    intro l hl
    induction l with
    | nil => cases hl
    | cons j l ih =>
      rw [List.foldr_cons]
      rcases List.mem_cons.mp hl with rfl | hl
      · exact le_max_left _ _
      · exact le_trans (ih hl) (le_max_right _ _)
  have := hle _ (List.mem_finRange i)
  rw [depth]
  omega

theorem depth_val_lt (key : List UInt8) (val : Node) (flags : NodeFlag) :
    val.depth < (Node.shortNode key val flags).depth := by
  rw [depth]
  omega

end Node

/-- `nodeFlag.canUnload`: a clean node whose generation is at least `cachelimit` commits old. -/
def NodeFlag.canUnload (n : NodeFlag) (cachegen cachelimit : UInt16) : Bool :=
  !n.dirty && cachegen - n.gen >= cachelimit

/-- `canUnload` of the node types; hash and value nodes are never unloaded. The `nil` interface
has no method; `hash` asks `cache()` first, which panics on it. -/
def Node.canUnload (n : Node) (cachegen cachelimit : UInt16) : Bool :=
  match n with
  | .fullNode _ flags | .shortNode _ _ flags => flags.canUnload cachegen cachelimit
  | _ => false

def emptyRoot : List UInt8 :=
  [0x56, 0xe8, 0x1f, 0x17, 0x1b, 0xcc, 0x55, 0xa6, 0xff, 0x83, 0x45, 0xe6, 0x92, 0xc0, 0xf8, 0x6e,
   0x5b, 0x48, 0xe0, 0x1b, 0x99, 0x6c, 0xad, 0xc0, 0x01, 0x62, 0x2f, 0xb5, 0xe3, 0x63, 0xb4, 0x21]

def zeroHash : List UInt8 := List.replicate 32 0

/-- `common.BytesToHash`: the last 32 bytes, padded with zeros on the left. -/
def bytesToHash (b : List UInt8) : List UInt8 :=
  List.replicate (32 - b.length) 0 ++ b.drop (b.length - 32)

theorem bytesToHash_of_length (b : List UInt8) (h : b.length = 32) : bytesToHash b = b := by
  simp [bytesToHash, h]

/-- `hashLen`, the length of a `common.Hash`. -/
def hashLen : Nat := 32

/-- The in-memory database (`zrmdb.MemDatabase`) the trie stores nodes in, keyed by hash. -/
abbrev MemDatabase := List (List UInt8 × List UInt8)

/-- The errors `decodeNode` returns, with the data their messages format. -/
inductive NodeError where
  /-- `io.ErrUnexpectedEOF` -/
  | ErrUnexpectedEOF
  /-- `decode error: %v` -/
  | decodeError (err : Error)
  /-- `invalid number of list elements: %v` -/
  | invalidNumberOfListElements (c : Nat)
  /-- an error of package `rlp`, passed on unchanged -/
  | rlp (err : Error)
  /-- `invalid value node: %v` -/
  | invalidValueNode (err : Error)
  /-- `oversized embedded node (size is %d bytes, want size < 32)` -/
  | oversizedEmbeddedNode (size : Nat)
  /-- `invalid RLP string size %d (want 0 or 32)` -/
  | invalidRLPStringSize (size : Nat)
  /-- `*decodeError`: an error with the decode path up to the child that failed -/
  | wrapped (what : NodeError) (stack : List String)
deriving DecidableEq, Repr

/-- `wrapError`: add one step of context to the decode path of an error. -/
def wrapError (err : NodeError) (ctx : String) : NodeError :=
  match err with
  | .wrapped what stack => .wrapped what (stack ++ [ctx])
  | err => .wrapped err [ctx]

mutual
/-- `decodeNode`; `hash` is the hash the node was stored under, absent for embedded nodes. -/
def decodeNode (hash : Option (List UInt8)) (buf : List UInt8) (cachegen : UInt16) :
    Option (Except NodeError Node) :=
  if buf = [] then some (.error .ErrUnexpectedEOF)
  else
    match hs : Raw.SplitList buf with
    | none => none
    | some (.error err) => some (.error (.decodeError err))
    | some (.ok (elems, _)) =>
      match Raw.CountValues elems with
      | none => none
      | some counted =>
        -- `c, _ := rlp.CountValues(elems)` drops the error, and `c` is zero then
        let c := match counted with
          | .ok c => c
          | .error _ => 0
        if c = 2 then (decodeShort hash elems cachegen).map (·.mapError (wrapError · "short"))
        else if c = 17 then (decodeFull hash elems cachegen).map (·.mapError (wrapError · "full"))
        else some (.error (.invalidNumberOfListElements c))
termination_by (3 * buf.length, 0)
decreasing_by
  all_goals
    have := Raw.SplitList_content_lt hs
    first
    | exact Prod.Lex.left _ _ (by omega)

def decodeShort (hash : Option (List UInt8)) (elems : List UInt8) (cachegen : UInt16) :
    Option (Except NodeError Node) :=
  match hs : Raw.SplitString elems with
  | none => none
  | some (.error err) => some (.error (.rlp err))
  | some (.ok (kbuf, rest)) =>
    let flag : NodeFlag := { hash := hash, gen := cachegen, dirty := false }
    match compactToHex kbuf with
    | none => none
    | some key =>
      if hasTerm key then
        -- a value node
        match Raw.SplitString rest with
        | none => none
        | some (.error err) => some (.error (.invalidValueNode err))
        | some (.ok (val, _)) => some (.ok (.shortNode key (.valueNode val) flag))
      else
        match decodeRef rest cachegen with
        | none => none
        | some (.error err) => some (.error (wrapError err "val"))
        | some (.ok (r, _)) => some (.ok (.shortNode key r flag))
termination_by (3 * elems.length + 2, 0)
decreasing_by
  have := Raw.SplitString_rest_le hs
  exact Prod.Lex.left _ _ (by omega)

def decodeFull (hash : Option (List UInt8)) (elems : List UInt8) (cachegen : UInt16) :
    Option (Except NodeError Node) :=
  decodeChildren { hash := hash, gen := cachegen, dirty := false } elems cachegen 0 (fun _ => .nil)
termination_by (3 * elems.length + 2, 17)
decreasing_by exact Prod.Lex.right _ (by omega)

/-- The loop of `decodeFull`: the children from `i` on, then the value in the last slot. -/
def decodeChildren (flags : NodeFlag) (elems : List UInt8) (cachegen : UInt16) (i : Nat)
    (children : Fin 17 → Node) : Option (Except NodeError Node) :=
  if hi : i < 16 then
    match decodeRef elems cachegen with
    | none => none
    | some (.error err) => some (.error (wrapError err ("[" ++ toString i ++ "]")))
    | some (.ok (cld, ⟨rest, hrest⟩)) =>
      decodeChildren flags rest cachegen (i + 1) (Function.update children ⟨i, by omega⟩ cld)
  else
    match Raw.SplitString elems with
    | none => none
    | some (.error err) => some (.error (.rlp err))
    | some (.ok (val, _)) =>
      some (.ok (.fullNode
        (if val.length > 0 then Function.update children 16 (.valueNode val) else children) flags))
termination_by (3 * elems.length + 2, 16 - i)
decreasing_by
  · exact Prod.Lex.left _ _ (by omega)
  · rcases Nat.lt_or_eq_of_le hrest with hlt | heq
    · exact Prod.Lex.left _ _ (by omega)
    · rw [heq]
      exact Prod.Lex.right _ (by omega)

/-- `decodeRef`: a child reference, an embedded node, an empty slot or a hash. The rest of
the input it returns is a suffix of it. -/
def decodeRef (buf : List UInt8) (cachegen : UInt16) :
    Option (Except NodeError (Node × {rest : List UInt8 // rest.length ≤ buf.length})) :=
  match hs : Raw.Split buf with
  | none => none
  | some (.error err) => some (.error (.rlp err))
  | some (.ok (kind, val, rest)) =>
    have hrest : rest.length ≤ buf.length := (Raw.Split_ok_length hs).1.le
    if kind = .List then
      -- an embedded node must be smaller than a hash
      if buf.length - rest.length > hashLen then
        some (.error (.oversizedEmbeddedNode (buf.length - rest.length)))
      else (decodeNode none buf cachegen).map (·.map (·, ⟨rest, hrest⟩))
    else if kind = .String ∧ val.length = 0 then some (.ok (.nil, ⟨rest, hrest⟩))
    else if kind = .String ∧ val.length = 32 then some (.ok (.hashNode val, ⟨rest, hrest⟩))
    else some (.error (.invalidRLPStringSize val.length))
termination_by (3 * buf.length + 1, 0)
decreasing_by exact Prod.Lex.left _ _ (by omega)
end

end Zerium.Trie
