import Zerium.Trie.Node

/-! # The hasher

`hasher.go`: `hash` collapses a node into what its parent stores for it (a hash node, or the node
itself when its encoding is shorter than a hash) and returns a copy with the hash cached;
`hashChildren` does this for the children first and `store` writes the encoding. The writer is
given or `nil` (`storing`), its `Put` calls are returned in order, and it never fails; Keccak-256
is a parameter. The recursion is on the node's depth, `hash` ranked above `hashChildren`.
-/

namespace Zerium.Trie

set_option autoImplicit false

/-- The `Put` calls made to a database writer, in order: a hash and the encoding under it. -/
abbrev Writes := List (List UInt8 × List UInt8)

/-- The RLP encoding of a node, as `rlp.Encode` writes it. -/
def encodeNode (n : Node) : List UInt8 := n.toValue.encoding

section

variable (keccak : List UInt8 → List UInt8) (cachegen cachelimit : UInt16)

/-- `store`: nodes of 32 bytes or more, and the root (`force`), are replaced by their hash and
written; the cached hash of the node is used when there is one. -/
def store (n : Node) (storing force : Bool) : Node × Writes :=
  match n with
  | .nil | .hashNode _ => (n, [])
  | _ =>
    let enc := encodeNode n
    if enc.length < 32 && !force then (n, [])
    else
      let hash := match n.cache with
        | some (some h, _) => h
        | _ => keccak enc
      (.hashNode hash, if storing then [(hash, enc)] else [])

/-- The last step of `hash`: cache the hash in the copy that replaces the node, and mark the
copy clean when it was written to the database. -/
def cacheHash (cached hashed : Node) (storing : Bool) : Node :=
  let cachedHash := match hashed with
    | .hashNode h => some h
    | _ => none
  match cached with
  | .shortNode key val flags =>
    .shortNode key val { flags with hash := cachedHash, dirty := if storing then false else flags.dirty }
  | .fullNode children flags =>
    .fullNode children { flags with hash := cachedHash, dirty := if storing then false else flags.dirty }
  | cached => cached

def childrenDepth (children : Fin 17 → Node) : Nat :=
  (List.finRange 17).foldr (fun i m => max (children i).depth m) 0 + 1

theorem depth_fullNode (children : Fin 17 → Node) (flags : NodeFlag) :
    (Node.fullNode children flags).depth = childrenDepth children := by
  rw [Node.depth, childrenDepth]

mutual
def hash (n : Node) (storing force : Bool) : Option (Node × Node × Writes) :=
  -- the walk through the children that the cache checks fall through to
  let walk : Option (Node × Node × Writes) :=
    (hashChildren n storing).map fun (collapsed, cached, w₁) =>
      let (hashed, w₂) := store keccak collapsed storing force
      (hashed, cacheHash cached hashed storing, w₁ ++ w₂)
  match n.cache with
  | none => none
  | some (some h, dirty) =>
    if !storing then some (.hashNode h, n, [])
    -- unload the node from the cache; its children have a lower or equal generation
    else if n.canUnload cachegen cachelimit then some (.hashNode h, .hashNode h, [])
    else if !dirty then some (.hashNode h, n, [])
    else walk
  | some (none, _) => walk
termination_by (n.depth, 2, 0)
decreasing_by exact Prod.Lex.right _ (Prod.Lex.left _ _ (by decide))

def hashChildren (original : Node) (storing : Bool) : Option (Node × Node × Writes) :=
  match original with
  | .shortNode key val flags =>
    if val.isValue then some (.shortNode (hexToCompact key) val flags, .shortNode key val flags, [])
    else
      (hash val storing false).map fun (collapsedVal, cachedVal, w) =>
        -- nil children are encoded as empty strings
        (.shortNode (hexToCompact key) (if collapsedVal.isNil then .valueNode [] else collapsedVal) flags,
          .shortNode key cachedVal flags, w)
  | .fullNode children flags =>
    (hashChildrenLoop children storing 0 children children []).map fun (collapsed, cached, w) =>
      (.fullNode (Function.update collapsed 16
          (if (children 16).isNil then .valueNode [] else children 16)) flags,
        .fullNode cached flags, w)
  | n => some (n, original, [])
termination_by (original.depth, 1, 0)
decreasing_by
  · exact Prod.Lex.left _ _ (Node.depth_val_lt _ _ _)
  · rw [depth_fullNode]
    exact Prod.Lex.right _ (Prod.Lex.left _ _ (by decide))

/-- The loop of `hashChildren` over the sixteen nibble slots of a full node, from `i` on. -/
def hashChildrenLoop (children : Fin 17 → Node) (storing : Bool) (i : Nat)
    (collapsed cached : Fin 17 → Node) (w : Writes) : Option ((Fin 17 → Node) × (Fin 17 → Node) × Writes) :=
  if hi : i < 16 then
    let c : Fin 17 := ⟨i, by omega⟩
    if (children c).isNil then
      hashChildrenLoop children storing (i + 1) (Function.update collapsed c (.valueNode [])) cached w
    else
      match hash (children c) storing false with
      | none => none
      | some (cc, cd, w') =>
        hashChildrenLoop children storing (i + 1) (Function.update collapsed c cc)
          (Function.update cached c cd) (w ++ w')
  else some (collapsed, cached, w)
termination_by (childrenDepth children, 0, 16 - i)
decreasing_by
  · exact Prod.Lex.right _ (Prod.Lex.right _ (by omega))
  · have := Node.depth_child_lt children ⟨none, 0, false⟩ ⟨i, by omega⟩
    rw [depth_fullNode] at this
    exact Prod.Lex.left _ _ this
  · exact Prod.Lex.right _ (Prod.Lex.right _ (by omega))
end

end

end Zerium.Trie
