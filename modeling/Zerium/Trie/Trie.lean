import Zerium.Trie.Hasher

/-! # The trie

`trie.go`: a trie is a root node over a database, with the cache generation counters. Lookups,
insertions and deletions walk the hex key from the root, loading unloaded parts of the trie
(hash nodes) from the database on the way; `Hash` and `Commit` run the hasher on the root.

`tryGet`, `insert` and `delete` recurse into nodes loaded from the database, so nothing in the
source bounds their depth: a database whose nodes refer to each other would make them recurse
forever. They take a fuel argument that every call spends, and the API functions give them
`pathFuel` of the key, enough for every trie whose short nodes have non-empty keys. The
results `Option (Except TrieError α)` keep panics and exhausted fuel (`none`) apart from the
errors the functions return.
-/

namespace Zerium.Trie

set_option autoImplicit false
set_option linter.dupNamespace false

inductive TrieError where
  /-- `MissingNodeError{NodeHash, Path}`: a node the trie refers to is not in the database. -/
  | MissingNodeError (nodeHash : List UInt8) (path : List UInt8)
deriving DecidableEq, Repr

structure Trie where
  root : Node
  db : Option MemDatabase
  originalRoot : List UInt8
  cachegen : UInt16
  cachelimit : UInt16

def pathFuel (key : List UInt8) : Nat := 2 * key.length + 2

def childIndex (b : UInt8) : Option (Fin 17) :=
  if h : b.toNat < 17 then some ⟨b.toNat, h⟩ else none

/-- The loop of `delete` that looks for the single occupied slot of a full node: its index,
`-1` when there is none and `-2` when there are two or more. Once `-2`, the position stays
`-2`, which is why the source can `break` there. -/
def slotPos (occupied : Fin 17 → Bool) : Int :=
  (List.finRange 17).foldl (fun pos i => if !occupied i then pos else if pos = -1 then (i.val : Int) else -2) (-1)

def posOf : List (Fin 17) → Int
  | [] => -1
  | [p] => p.val
  | _ :: _ :: _ => -2

theorem slotPos_loop (occupied : Fin 17 → Bool) (l acc : List (Fin 17)) :
    l.foldl (fun pos i => if !occupied i then pos else if pos = -1 then (i.val : Int) else -2) (posOf acc) =
      posOf (acc ++ l.filter occupied) := by
  induction l generalizing acc with
  | nil => simp
  | cons i l ih =>
    rw [List.foldl_cons, List.filter_cons]
    by_cases hi : occupied i = true
    · have hstep : (if !occupied i then posOf acc else if posOf acc = -1 then (i.val : Int) else -2) =
          posOf (acc ++ [i]) := by
        rcases acc with _ | ⟨a, _ | ⟨b, acc⟩⟩
        · simp [posOf, hi]
        · have : (a.val : Int) ≠ -1 := by omega
          simp [posOf, hi, this]
        · simp [posOf, hi]
      rw [hstep, ih, if_pos hi, List.append_assoc, List.singleton_append]
    · rw [if_pos (by simpa using hi), if_neg hi, ih]

theorem slotPos_eq (occupied : Fin 17 → Bool) :
    slotPos occupied = posOf ((List.finRange 17).filter occupied) := by
  have h := slotPos_loop occupied (List.finRange 17) []
  rwa [List.nil_append] at h

def remainingPos (children : Fin 17 → Node) : Int := slotPos fun i => !(children i).isNil

namespace Trie

variable (keccak : List UInt8 → List UInt8)

def newFlag (t : Trie) : NodeFlag := { hash := none, gen := t.cachegen, dirty := true }

/-- `resolveHash`: load a node from the database; `mustDecodeNode` panics when the stored
bytes do not decode. -/
def resolveHash (t : Trie) (n pre : List UInt8) : Option (Except TrieError Node) :=
  match t.db with
  | none => none
  | some db =>
    match KVStore.get db n with
    | none => some (.error (.MissingNodeError (bytesToHash n) pre))
    | some enc =>
      match decodeNode (some n) enc t.cachegen with
      | some (.ok dec) => some (.ok dec)
      | _ => none

def resolve (t : Trie) (n : Node) (pre : List UInt8) : Option (Except TrieError Node) :=
  match n with
  | .hashNode h => t.resolveHash h pre
  | n => some (.ok n)

/-- `tryGet`: the value at `key` from position `pos` on, the node that replaces `origNode`
and whether a node was loaded on the way. -/
def tryGet (t : Trie) : Nat → Node → List UInt8 → Nat →
    Option (Except TrieError (Option (List UInt8) × Node × Bool))
  | 0, _, _, _ => none
  | fuel + 1, origNode, key, pos =>
    match origNode with
    | .nil => some (.ok (none, .nil, false))
    | .valueNode v => some (.ok (some v, origNode, false))
    | .shortNode nkey val flags =>
      if key.length - pos < nkey.length ∨ nkey ≠ (key.drop pos).take nkey.length then
        -- key not found in trie
        some (.ok (none, origNode, false))
      else
        match t.tryGet fuel val key (pos + nkey.length) with
        | none => none
        | some (.error e) => some (.error e)
        | some (.ok (value, newnode, didResolve)) =>
          some (.ok (value, if didResolve then .shortNode nkey newnode { flags with gen := t.cachegen }
            else origNode, didResolve))
    | .fullNode children flags =>
      match key[pos]? >>= childIndex with
      | none => none
      | some i =>
        match t.tryGet fuel (children i) key (pos + 1) with
        | none => none
        | some (.error e) => some (.error e)
        | some (.ok (value, newnode, didResolve)) =>
          some (.ok (value, if didResolve then
            .fullNode (Function.update children i newnode) { flags with gen := t.cachegen }
            else origNode, didResolve))
    | .hashNode h =>
      match t.resolveHash h (key.take pos) with
      | none => none
      | some (.error e) => some (.error e)
      | some (.ok child) =>
        match t.tryGet fuel child key pos with
        | none => none
        | some (.error e) => some (.error e)
        | some (.ok (value, newnode, _)) => some (.ok (value, newnode, true))

/-- `TryGet`; a root loaded on the way replaces the old one. -/
def TryGet (t : Trie) (key : List UInt8) : Option (Except TrieError (Option (List UInt8)) × Trie) :=
  let key := keybytesToHex key
  match t.tryGet (pathFuel key) t.root key 0 with
  | none => none
  | some (.error e) => some (.error e, t)
  | some (.ok (value, newroot, didResolve)) =>
    some (.ok value, if didResolve then { t with root := newroot } else t)

/-- `insert`: whether the trie changed and the node that replaces `n`. -/
def insert (t : Trie) : Nat → Node → List UInt8 → List UInt8 → Node →
    Option (Except TrieError (Bool × Node))
  | 0, _, _, _, _ => none
  | fuel + 1, n, pre, key, value =>
    if key = [] then
      match n with
      | .valueNode v =>
        -- `value.(valueNode)` panics on any other node
        match value with
        | .valueNode v' => some (.ok (v != v', value))
        | _ => none
      | _ => some (.ok (true, value))
    else
      match n with
      | .shortNode nkey nval _ =>
        let matchlen := prefixLen key nkey
        if matchlen = nkey.length then
          -- the whole key matches: keep this short node and only update the value
          match t.insert fuel nval (pre ++ key.take matchlen) (key.drop matchlen) value with
          | none => none
          | some (.error e) => some (.error e)
          | some (.ok (dirty, nn)) =>
            if !dirty then some (.ok (false, n)) else some (.ok (true, .shortNode nkey nn t.newFlag))
        else
          -- branch out at the index where they differ
          match nkey[matchlen]? >>= childIndex, key[matchlen]? >>= childIndex with
          | some i₁, some i₂ =>
            match t.insert fuel .nil (pre ++ nkey.take (matchlen + 1)) (nkey.drop (matchlen + 1)) nval with
            | none => none
            | some (.error e) => some (.error e)
            | some (.ok (_, c₁)) =>
              match t.insert fuel .nil (pre ++ key.take (matchlen + 1)) (key.drop (matchlen + 1)) value with
              | none => none
              | some (.error e) => some (.error e)
              | some (.ok (_, c₂)) =>
                let branch := Node.fullNode
                  (Function.update (Function.update (fun _ => .nil) i₁ c₁) i₂ c₂) t.newFlag
                -- the branch replaces this short node at index 0, else a short node leads to it
                if matchlen = 0 then some (.ok (true, branch))
                else some (.ok (true, .shortNode (key.take matchlen) branch t.newFlag))
          | _, _ => none
      | .fullNode children _ =>
        match key[0]? >>= childIndex with
        | none => none
        | some i =>
          match t.insert fuel (children i) (pre ++ key.take 1) (key.drop 1) value with
          | none => none
          | some (.error e) => some (.error e)
          | some (.ok (dirty, nn)) =>
            if !dirty then some (.ok (false, n))
            else some (.ok (true, .fullNode (Function.update children i nn) t.newFlag))
      | .nil => some (.ok (true, .shortNode key value t.newFlag))
      | .hashNode h =>
        -- load the node and insert into it, leaving the loaded path in the trie
        match t.resolveHash h pre with
        | none => none
        | some (.error e) => some (.error e)
        | some (.ok rn) =>
          match t.insert fuel rn pre key value with
          | none => none
          | some (.error e) => some (.error e)
          | some (.ok (dirty, nn)) => if !dirty then some (.ok (false, rn)) else some (.ok (true, nn))
      -- `default: panic("invalid node")`
      | .valueNode _ => none

/-- `delete`: whether the trie changed and the node that replaces `n`, reduced to minimal
form on the way up. -/
def delete (t : Trie) : Nat → Node → List UInt8 → List UInt8 →
    Option (Except TrieError (Bool × Node))
  | 0, _, _, _ => none
  | fuel + 1, n, pre, key =>
    match n with
    | .shortNode nkey nval _ =>
      let matchlen := prefixLen key nkey
      if matchlen < nkey.length then some (.ok (false, n))
      else if matchlen = key.length then some (.ok (true, .nil))
      else
        -- the key is longer than the short node's: delete the rest from the child
        match t.delete fuel nval (pre ++ key.take nkey.length) (key.drop nkey.length) with
        | none => none
        | some (.error e) => some (.error e)
        | some (.ok (dirty, child)) =>
          if !dirty then some (.ok (false, n))
          else
            match child with
            -- merge a short child to avoid a short node under a short node
            | .shortNode ckey cval _ => some (.ok (true, .shortNode (nkey ++ ckey) cval t.newFlag))
            | child => some (.ok (true, .shortNode nkey child t.newFlag))
    | .fullNode children _ =>
      match key[0]? >>= childIndex with
      | none => none
      | some i =>
        match t.delete fuel (children i) (pre ++ key.take 1) (key.drop 1) with
        | none => none
        | some (.error e) => some (.error e)
        | some (.ok (dirty, nn)) =>
          if !dirty then some (.ok (false, n))
          else
            let children := Function.update children i nn
            let pos := remainingPos children
            let p : Fin 17 := Fin.ofNat 17 pos.toNat
            if pos ≥ 0 then
              if pos ≠ 16 then
                -- a single short child replaces the full node, its key prefixed by the nibble;
                -- it is loaded for this check if it is a hash node
                match t.resolve (children p) pre with
                | none => none
                | some (.error e) => some (.error e)
                | some (.ok (.shortNode ckey cval _)) =>
                  some (.ok (true, .shortNode (UInt8.ofNat pos.toNat :: ckey) cval t.newFlag))
                | some (.ok _) =>
                  some (.ok (true, .shortNode [UInt8.ofNat pos.toNat] (children p) t.newFlag))
              else some (.ok (true, .shortNode [UInt8.ofNat pos.toNat] (children p) t.newFlag))
            else some (.ok (true, .fullNode children t.newFlag))
    | .valueNode _ => some (.ok (true, .nil))
    | .nil => some (.ok (false, .nil))
    | .hashNode h =>
      match t.resolveHash h pre with
      | none => none
      | some (.error e) => some (.error e)
      | some (.ok rn) =>
        match t.delete fuel rn pre key with
        | none => none
        | some (.error e) => some (.error e)
        | some (.ok (dirty, nn)) => if !dirty then some (.ok (false, rn)) else some (.ok (true, nn))

/-- `TryUpdate`: an empty value deletes the key. -/
def TryUpdate (t : Trie) (key value : List UInt8) : Option (Except TrieError Unit × Trie) :=
  let k := keybytesToHex key
  if value.length ≠ 0 then
    match t.insert (pathFuel k) t.root [] k (.valueNode value) with
    | none => none
    | some (.error e) => some (.error e, t)
    | some (.ok (_, n)) => some (.ok (), { t with root := n })
  else
    match t.delete (pathFuel k) t.root [] k with
    | none => none
    | some (.error e) => some (.error e, t)
    | some (.ok (_, n)) => some (.ok (), { t with root := n })

def TryDelete (t : Trie) (key : List UInt8) : Option (Except TrieError Unit × Trie) :=
  let k := keybytesToHex key
  match t.delete (pathFuel k) t.root [] k with
  | none => none
  | some (.error e) => some (.error e, t)
  | some (.ok (_, n)) => some (.ok (), { t with root := n })

/-- `hashRoot`: the hash of the root, with the root forced into the database. -/
def hashRoot (t : Trie) (storing : Bool) : Option (Node × Node × Writes) :=
  match t.root with
  | .nil => some (.hashNode emptyRoot, .nil, [])
  | root => hash keccak t.cachegen t.cachelimit root storing true

/-- `Hash`: the root hash, without writing; the root is replaced by its hashed copy. A root
hash that is not a hash node fails the type assertion `hash.(hashNode)`. -/
def Hash (t : Trie) : Option (List UInt8 × Trie) :=
  match t.hashRoot keccak false with
  | some (.hashNode h, cached, _) => some (bytesToHash h, { t with root := cached })
  | _ => none

/-- `CommitTo`: hash the trie writing every changed node to `db`, and start a new cache
generation. -/
def CommitTo (t : Trie) (db : MemDatabase) : Option (List UInt8 × Trie × MemDatabase) :=
  match t.hashRoot keccak true with
  | some (.hashNode h, cached, w) =>
    some (bytesToHash h, { t with root := cached, cachegen := t.cachegen + 1 }, KVStore.putAll db w)
  | _ => none

/-- `Commit`: `CommitTo` the trie's own database. -/
def Commit (t : Trie) : Option (List UInt8 × Trie) :=
  match t.db with
  | none => none
  | some db =>
    match t.CommitTo keccak db with
    | none => none
    | some (root, t', db') => some (root, { t' with db := some db' })

end Trie

/-- `New`: a trie over `db` with the node stored under `root`; the zero hash and the hash of
the empty trie give an empty trie. -/
def New (root : List UInt8) (db : Option MemDatabase) : Option (Except TrieError Trie) :=
  let trie : Trie := { root := .nil, db := db, originalRoot := root, cachegen := 0, cachelimit := 0 }
  if root ≠ zeroHash ∧ root ≠ emptyRoot then
    match db with
    | none => none
    | some _ =>
      match trie.resolveHash root [] with
      | none => none
      | some (.error e) => some (.error e)
      | some (.ok rootnode) => some (.ok { trie with root := rootnode })
  else some (.ok trie)

end Zerium.Trie
