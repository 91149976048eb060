import Zerium.Trie.Sync

/-! # The node iterator

`iterator.go`: a `nodeIterator` walks a trie in pre-order, keeping the stack of nodes from the
root to the current one, each with the index of its next child, and the hex path. `Next` asks
`peek` for the next node, which pops exhausted nodes and resolves hash nodes from the database;
an error is kept in `err` and the next `Next` steps again from where it left the stack. The
stack is a list with its top first, and the writes through pointers of the source return the
stack with the state replaced. The loop of `seek` takes fuel, since nothing bounds it on a
database whose nodes refer to each other; `none` is a panic or that loop not ending.
-/

namespace Zerium.Trie

set_option autoImplicit false

/-- `nodeIteratorState`: the node, its hash (`common.Hash{}` when it is not stored on its own),
the hash of its first full ancestor, the child it hands out next and the length of the path to
it. -/
structure NodeIteratorState where
  hash : List UInt8
  node : Node
  parent : List UInt8
  index : Int
  pathlen : Nat

/-- What `nodeIterator.err` holds. -/
inductive IteratorError where
  /-- `iteratorEnd`: the iteration is done -/
  | iteratorEnd
  /-- `seekError{key, err}`: the initial seek to `key` failed -/
  | seekError (key : List UInt8) (err : TrieError)
  /-- an error of `resolveHash` -/
  | trieError (err : TrieError)
deriving DecidableEq, Repr

structure NodeIterator where
  trie : Option Trie
  stack : List NodeIteratorState
  path : List UInt8
  err : Option IteratorError

/-- `st.hash`, or the hash of the first full ancestor when the node has none of its own. -/
def NodeIteratorState.ancestor (st : NodeIteratorState) : List UInt8 :=
  if st.hash = zeroHash then st.parent else st.hash

/-- `nodeIteratorState.resolve`: a hash node is loaded from the trie's database. -/
def NodeIteratorState.resolve (st : NodeIteratorState) (tr : Option Trie) (path : List UInt8) :
    Option (Except TrieError NodeIteratorState) :=
  match st.node with
  | .hashNode hash =>
    match tr with
    -- the database of a `nil` trie
    | none => none
    | some tr =>
      match tr.resolveHash hash path with
      | none => none
      | some (.error err) => some (.error err)
      | some (.ok resolved) => some (.ok { st with node := resolved, hash := bytesToHash hash })
  | _ => some (.ok st)

/-- The loop of `nextChild` over the children of a full node from `start` on: the first one
that is not `nil`. -/
def firstChild (children : Fin 17 → Node) (start : Int) : Option (Fin 17) :=
  (List.finRange 17).find? fun i => decide (start ≤ i) && !(children i).isNil

/-- `nextChild` on the path `path` to `parent`: the parent after the call, the state of its next
child and the path to that child; `some none` when it has no child left. -/
def nextChild (path : List UInt8) (parent : NodeIteratorState) (ancestor : List UInt8) :
    Option (Option (NodeIteratorState × NodeIteratorState × List UInt8)) :=
  match parent.node with
  | .fullNode children _ =>
    -- `node.Children[i]` at a negative index
    if parent.index + 1 < 0 then none
    else
      match firstChild children (parent.index + 1) with
      | none => some none
      | some i =>
        (children i).cache.map fun (hash, _) =>
          some ({ parent with index := i.val - 1 },
            ⟨bytesToHash (hash.getD []), children i, ancestor, -1, path.length⟩, path ++ [UInt8.ofNat i.val])
  | .shortNode key val _ =>
    if parent.index < 0 then
      val.cache.map fun (hash, _) =>
        some (parent, ⟨bytesToHash (hash.getD []), val, ancestor, -1, path.length⟩, path ++ key)
    else some none
  | _ => some none

/-- The loop of `peek`: the next child of the top of the stack, popping the top while it has
none left. The stack and the path when the loop stops, and the state and path of the child, or
the error. -/
def peekLoop (tr : Option Trie) : List NodeIteratorState → List UInt8 →
    Option (List NodeIteratorState × List UInt8 × Except IteratorError (NodeIteratorState × List UInt8))
  | [], path => some ([], path, .error .iteratorEnd)
  | parent :: rest, path =>
    match nextChild path parent parent.ancestor with
    | none => none
    -- no more child nodes, move back up
    | some none => peekLoop tr rest (path.take parent.pathlen)
    | some (some (parent, state, childPath)) =>
      match state.resolve tr childPath with
      | none => none
      | some (.error err) => some (parent :: rest, path, .error (.trieError err))
      | some (.ok state) => some (parent :: rest, path, .ok (state, childPath))

/-- The state `peek` starts with: the root, with the root hash unless the trie is empty. -/
def rootState (root : List UInt8) (tr : Trie) : NodeIteratorState :=
  ⟨if root ≠ emptyRoot then root else zeroHash, tr.root, zeroHash, -1, 0⟩

namespace NodeIterator

section

variable (keccak : List UInt8 → List UInt8)

/-- `Hash`: the hash of the current node. -/
def Hash (it : NodeIterator) : List UInt8 :=
  match it.stack with
  | [] => zeroHash
  | top :: _ => top.hash

/-- `Parent`: the hash of the current node's first full ancestor. -/
def Parent (it : NodeIterator) : List UInt8 :=
  match it.stack with
  | [] => zeroHash
  | top :: _ => top.parent

/-- `Leaf`: the path ends with the terminator. -/
def Leaf (it : NodeIterator) : Bool := hasTerm it.path

/-- `LeafBlob`; it panics when the current node is not a value node. -/
def LeafBlob (it : NodeIterator) : Option (List UInt8) :=
  match it.stack with
  | ⟨_, .valueNode value, _, _, _⟩ :: _ => some value
  | _ => none

/-- `LeafKey`; it panics when the current node is not a value node, and `hexToKeybytes` on a
path of odd length. -/
def LeafKey (it : NodeIterator) : Option (List UInt8) :=
  match it.stack with
  | ⟨_, .valueNode _, _, _, _⟩ :: _ => hexToKeybytes it.path
  | _ => none

/-- `Error`: the end of the iteration is no error, and a failed seek reports its cause. -/
def Error (it : NodeIterator) : Option TrieError :=
  match it.err with
  | some (.seekError _ err) | some (.trieError err) => some err
  | _ => none

/-- `peek`: the iterator after the pops and index updates, and the state to push with whether
it has a parent on the stack and its path, or the error. -/
def peek (it : NodeIterator) (descend : Bool) :
    Option (NodeIterator × Except IteratorError (NodeIteratorState × Bool × List UInt8)) :=
  match it.stack with
  | [] =>
    -- initialize the iterator at the root
    match it.trie with
    | none => none
    | some tr =>
      match tr.Hash keccak with
      | none => none
      | some (root, tr) =>
        match (rootState root tr).resolve (some tr) [] with
        | none => none
        | some (.error err) => some ({ it with trie := some tr }, .error (.trieError err))
        | some (.ok state) => some ({ it with trie := some tr }, .ok (state, false, []))
  | top :: rest =>
    -- when skipping children, pop the current node first
    let (stack, path) := if descend then (top :: rest, it.path) else (rest, it.path.take top.pathlen)
    (peekLoop it.trie stack path).map fun (stack, path, result) =>
      ({ it with stack, path }, result.map fun (state, childPath) => (state, true, childPath))

def bumpTop : List NodeIteratorState → List NodeIteratorState
  | [] => []
  | parent :: rest => { parent with index := parent.index + 1 } :: rest

/-- `push`: the state goes on the stack, and its parent, the old top, moves to the next child. -/
def push (it : NodeIterator) (state : NodeIteratorState) (hasParent : Bool) (path : List UInt8) :
    NodeIterator :=
  { it with path, stack := state :: if hasParent then bumpTop it.stack else it.stack }

/-- The loop of `seek` to the hex key `key` of `start`, run for at most `fuel` rounds: the error
it returns, and the iterator. -/
def seekLoop (key start : List UInt8) : Nat → NodeIterator → Option (Option IteratorError × NodeIterator)
  | 0, _ => none
  | fuel + 1, it =>
    match it.peek keccak (decide (it.path <+: key)) with
    | none => none
    | some (it, .error err) =>
      some (some (match err with
        | .trieError err => .seekError start err
        | err => err), it)
    | some (it, .ok (state, hasParent, path)) =>
      -- `bytes.Compare(path, key) >= 0`
      if ¬ path < key then some (none, it)
      else seekLoop key start fuel (it.push state hasParent path)

/-- `seek`: move forward until just before the closest match to `start`. -/
def seek (fuel : Nat) (it : NodeIterator) (start : List UInt8) : Option (Option IteratorError × NodeIterator) :=
  seekLoop keccak (keybytesToHex start).dropLast start fuel it

/-- The step of `Next` once `err` holds no end and no failed seek: `peek`, and `push` what it
finds or keep its error. -/
def nextStep (it : NodeIterator) (descend : Bool) : Option (Bool × NodeIterator) :=
  match it.peek keccak descend with
  | none => none
  | some (it, .error err) => some (false, { it with err := some err })
  | some (it, .ok (state, hasParent, path)) => some (true, { it.push state hasParent path with err := none })

/-- `Next`: move to the next node, skipping the children of the current one when `descend` is
false; `false` at the end and after an error. A failed seek is retried first. -/
def Next (fuel : Nat) (it : NodeIterator) (descend : Bool) : Option (Bool × NodeIterator) :=
  match it.err with
  | some .iteratorEnd => some (false, it)
  | some (.seekError key _) =>
    match seek keccak fuel it key with
    | none => none
    | some (some err, it) => some (false, { it with err := some err })
    | some (none, it) => nextStep keccak { it with err := none } descend
  | _ => nextStep keccak it descend

end

end NodeIterator

/-- `newNodeIterator`: an iterator over `trie` that has sought to `start`. -/
def newNodeIterator (keccak : List UInt8 → List UInt8) (fuel : Nat) (trie : Trie) (start : List UInt8) :
    Option NodeIterator :=
  match trie.Hash keccak with
  | none => none
  | some (root, trie) =>
    if root = emptyState then some ⟨none, [], [], none⟩
    else (NodeIterator.seek keccak fuel ⟨some trie, [], [], none⟩ start).map fun (err, it) => { it with err }

end Zerium.Trie
