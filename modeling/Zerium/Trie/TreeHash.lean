import Zerium.Trie.TreeUnique

/-! # Hashing the abstract trie

What the hasher computes, stated on trees: the collapsed node of `hashChildren` (keys in
compact form, children by reference, values as they are), its encoding, the reference a
parent holds for a child (`refOf`: the node itself below 32 bytes, else its hash) and the
root hash. `Persisted` says that the database holds every node of a tree that its parent
refers to by hash. Keccak-256 is a parameter.
-/

namespace Zerium.Trie

set_option autoImplicit false

open Zerium.Rlp

section

variable (keccak : List UInt8 → List UInt8)

/-- What `store` leaves for a collapsed child that is not forced: the node itself when its
encoding is shorter than a hash, else its hash. -/
def refOf (v : Value) : Value := if v.encoding.length < 32 then v else .bytes (keccak v.encoding)

namespace Tree

def isNode : Tree → Bool
  | .short _ _ | .full _ => true
  | _ => false

def childRef (t : Tree) (cv : Value) : Value :=
  match t with
  | .empty => .bytes []
  | .value v => .bytes v
  | _ => refOf keccak cv

def collapsed : Tree → Value
  | .empty => .bytes []
  | .value v => .bytes v
  | .short k c => .list [.bytes (hexToCompact k), childRef keccak c (collapsed c)]
  | .full cs => .list (List.ofFn fun i => childRef keccak (cs i) (collapsed (cs i)))

/-- The encoding of the collapsed node, which `store` hashes and writes. -/
def enc (t : Tree) : List UInt8 := (t.collapsed keccak).encoding

def ref (t : Tree) : Value := childRef keccak t (t.collapsed keccak)

/-- `Hash()`: the hash of the empty trie, or of the root's encoding. -/
def rootHash (t : Tree) : List UInt8 :=
  match t with
  | .empty => emptyRoot
  | t => keccak (t.enc keccak)

def encodings : Tree → List (List UInt8)
  | .empty => []
  | .value _ => []
  | .short k c => (Tree.short k c).enc keccak :: encodings c
  | .full cs => (Tree.full cs).enc keccak :: (List.finRange 17).flatMap fun i => encodings (cs i)

def RefStored (db : MemDatabase) (t : Tree) : Prop :=
  t.isNode = true → 32 ≤ (t.enc keccak).length → KVStore.get db (keccak (t.enc keccak)) = some (t.enc keccak)

def Persisted (db : MemDatabase) : Tree → Prop
  | .empty => True
  | .value _ => True
  | .short _ c => Persisted db c ∧ RefStored keccak db c
  | .full cs => ∀ i, Persisted db (cs i) ∧ RefStored keccak db (cs i)

theorem collapsed_short (k : List UInt8) (c : Tree) :
    (Tree.short k c).collapsed keccak = .list [.bytes (hexToCompact k), c.ref keccak] := by
  rw [collapsed, ref]

theorem collapsed_full (cs : Fin 17 → Tree) :
    (Tree.full cs).collapsed keccak = .list (List.ofFn fun i => (cs i).ref keccak) := by
  rw [collapsed]
  rfl

theorem ref_of_isNode {t : Tree} (h : t.isNode = true) : t.ref keccak = refOf keccak (t.collapsed keccak) := by
  cases t <;> first | rfl | cases h

theorem ref_empty : Tree.empty.ref keccak = .bytes [] := rfl

theorem ref_value (v : List UInt8) : (Tree.value v).ref keccak = .bytes v := rfl

theorem ref_ne_nil {t : Tree} (h : t.isNode = true) : t.ref keccak ≠ .list [] := by
  rw [ref_of_isNode keccak h, refOf]
  split
  · cases t with
    | short k c =>
      rw [collapsed_short]
      simp
    | full cs =>
      rw [collapsed_full]
      simp
    | _ => cases h
  · simp

theorem isNode_of_canon {t : Tree} (h : t.Canon) : t.isNode = true := by
  cases t <;> simp_all [Canon, isNode]

theorem enc_mem_encodings {t : Tree} (h : t.isNode = true) : t.enc keccak ∈ t.encodings keccak := by
  cases t <;> simp_all [isNode, encodings]

theorem encodings_short_child (k : List UInt8) (c : Tree) :
    c.encodings keccak ⊆ (Tree.short k c).encodings keccak := by
  intro e he
  rw [encodings]
  exact List.mem_cons_of_mem _ he

theorem encodings_full_child (cs : Fin 17 → Tree) (i : Fin 17) :
    (cs i).encodings keccak ⊆ (Tree.full cs).encodings keccak := by
  intro e he
  rw [encodings]
  exact List.mem_cons_of_mem _ (List.mem_flatMap.mpr ⟨i, List.mem_finRange i, he⟩)

variable {keccak}

theorem RefStored.mono {db db' : MemDatabase} (hext : KVStore.Extends db db') {t : Tree}
    (h : t.RefStored keccak db) : t.RefStored keccak db' :=
  fun hn hlen => hext _ _ (h hn hlen)

theorem Persisted.mono {db db' : MemDatabase} (hext : KVStore.Extends db db') :
    ∀ {t : Tree}, t.Persisted keccak db → t.Persisted keccak db'
  | .empty, _ => trivial
  | .value _, _ => trivial
  | .short _ _, ⟨hc, hr⟩ => ⟨Persisted.mono hext hc, hr.mono hext⟩
  | .full _, h => fun i => ⟨Persisted.mono hext (h i).1, (h i).2.mono hext⟩

end Tree

end

end Zerium.Trie
