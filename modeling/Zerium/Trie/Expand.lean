import Zerium.Trie.TreeHash

/-! # Nodes that stand for trees

`Expands keccak db top n T`: the node `n` of the trie, read through the database `db`, stands
for the abstract tree `T`. Short and full nodes stand for the tree of their children; a hash
node for the tree whose encoding the database holds under it; `top` marks the root, which is
hashed and stored whatever its size.

The relation also holds the cache invariant of the trie: a cached hash is the hash of the
encoding of what the node stands for (`HashOk`); a clean node with a cached hash is in the
database with everything below it (`InDb`); a clean node without one is small enough to be
embedded in its parent; and no clean node has a dirty child.
-/

namespace Zerium.Trie

set_option autoImplicit false

def Node.isDirty : Node → Bool
  | .fullNode _ flags | .shortNode _ _ flags => flags.dirty
  | _ => false

def Node.isHashNode : Node → Bool
  | .hashNode _ => true
  | _ => false

section

variable (keccak : List UInt8 → List UInt8) (db : MemDatabase)

/-- `h` is the hash that `store` gives `T`: the hash of its encoding, an encoding of a hash or
more below the root. -/
def HashOk (top : Bool) (h : List UInt8) (T : Tree) : Prop :=
  h = keccak (T.enc keccak) ∧ (top = false → 32 ≤ (T.enc keccak).length)

/-- The database holds `T` under `h`, and everything below `T`. -/
def InDb (h : List UInt8) (T : Tree) : Prop :=
  KVStore.get db h = some (T.enc keccak) ∧ T.Persisted keccak db

def FlagOk (top : Bool) (flags : NodeFlag) (T : Tree) : Prop :=
  (∀ h, flags.hash = some h → HashOk keccak top h T ∧ (flags.dirty = false → InDb keccak db h T)) ∧
  (flags.hash = none → flags.dirty = false → top = false ∧ (T.enc keccak).length < 32)

def Stored (top : Bool) (h : List UInt8) (T : Tree) : Prop :=
  T.Canon ∧ HashOk keccak top h T ∧ InDb keccak db h T

inductive Expands : Bool → Node → Tree → Prop
  | nil (top : Bool) : Expands top .nil .empty
  | value (top : Bool) (v : List UInt8) : Expands top (.valueNode v) (.value v)
  | short (top : Bool) (key : List UInt8) (val : Node) (flags : NodeFlag) (T : Tree)
      (hval : Expands false val T) (hflags : FlagOk keccak db top flags (.short key T))
      (hclean : flags.dirty = false → val.isDirty = false) :
      Expands top (.shortNode key val flags) (.short key T)
  | full (top : Bool) (children : Fin 17 → Node) (flags : NodeFlag) (Ts : Fin 17 → Tree)
      (hch : ∀ i, Expands false (children i) (Ts i)) (hflags : FlagOk keccak db top flags (.full Ts))
      (hclean : flags.dirty = false → ∀ i, (children i).isDirty = false) :
      Expands top (.fullNode children flags) (.full Ts)
  | hash (top : Bool) (h : List UInt8) (T : Tree) (hs : Stored keccak db top h T) :
      Expands top (.hashNode h) T

end

variable {keccak : List UInt8 → List UInt8} {db db' : MemDatabase}

theorem InDb.mono (hext : KVStore.Extends db db') {h : List UInt8} {T : Tree}
    (hin : InDb keccak db h T) : InDb keccak db' h T :=
  ⟨hext _ _ hin.1, hin.2.mono hext⟩

theorem FlagOk.mono (hext : KVStore.Extends db db') {top : Bool} {flags : NodeFlag} {T : Tree}
    (hf : FlagOk keccak db top flags T) : FlagOk keccak db' top flags T :=
  ⟨fun h hh => ⟨(hf.1 h hh).1, fun hd => ((hf.1 h hh).2 hd).mono hext⟩, hf.2⟩

theorem Stored.mono (hext : KVStore.Extends db db') {top : Bool} {h : List UInt8} {T : Tree}
    (hs : Stored keccak db top h T) : Stored keccak db' top h T :=
  ⟨hs.1, hs.2.1, hs.2.2.mono hext⟩

theorem Expands.mono (hext : KVStore.Extends db db') {top : Bool} {n : Node} {T : Tree}
    (he : Expands keccak db top n T) : Expands keccak db' top n T := by
  induction he with
  | nil top => exact .nil top
  | value top v => exact .value top v
  | short top key val flags T _ hflags hclean ih => exact .short top key val flags T ih (hflags.mono hext) hclean
  | full top children flags Ts _ hflags hclean ih =>
    exact .full top children flags Ts ih (hflags.mono hext) hclean
  | hash top h T hs => exact .hash top h T (hs.mono hext)

theorem flagOk_dirty {top : Bool} {flags : NodeFlag} (hh : flags.hash = none) (hd : flags.dirty = true)
    (T : Tree) : FlagOk keccak db top flags T :=
  ⟨fun h hf => absurd (hh.symm.trans hf) (by simp), fun _ hc => absurd (hd.symm.trans hc) (by simp)⟩

theorem FlagOk.withGen {top : Bool} {flags : NodeFlag} {T : Tree} (hf : FlagOk keccak db top flags T)
    (g : UInt16) : FlagOk keccak db top { flags with gen := g } T :=
  hf

theorem Expands.update {children : Fin 17 → Node} {Ts : Fin 17 → Tree} {n : Node} {T : Tree}
    (hch : ∀ i, Expands keccak db false (children i) (Ts i)) (he : Expands keccak db false n T) (j : Fin 17) :
    ∀ i, Expands keccak db false (Function.update children j n i) (Function.update Ts j T i) := by
  intro i
  by_cases hi : i = j
  · subst hi
    rw [Function.update_self, Function.update_self]
    exact he
  · rw [Function.update_of_ne hi, Function.update_of_ne hi]
    exact hch i

theorem isDirty_update {children : Fin 17 → Node} {n : Node} (hch : ∀ i, (children i).isDirty = false)
    (hn : n.isDirty = false) (j : Fin 17) : ∀ i, (Function.update children j n i).isDirty = false := by
  intro i
  by_cases hi : i = j
  · subst hi
    rw [Function.update_self]
    exact hn
  · rw [Function.update_of_ne hi]
    exact hch i

/-! ## Inversion -/

theorem Expands.eq_nil {top : Bool} {n : Node} (he : Expands keccak db top n .empty) : n = .nil := by
  cases he with
  | nil => rfl
  | hash _ _ _ hs => exact absurd hs.1 (by simp [Tree.Canon])

theorem Expands.eq_valueNode {top : Bool} {n : Node} {v : List UInt8}
    (he : Expands keccak db top n (.value v)) : n = .valueNode v := by
  cases he with
  | value => rfl
  | hash _ _ _ hs => exact absurd hs.1 (by simp [Tree.Canon])

theorem Expands.ne_nil {top : Bool} {n : Node} {T : Tree} (he : Expands keccak db top n T) (hT : T.Canon) :
    n ≠ .nil := by
  rintro rfl
  cases he
  exact absurd hT (by simp [Tree.Canon])

theorem Expands.isNil_eq {top : Bool} {n : Node} {T : Tree} (he : Expands keccak db top n T) :
    n.isNil = T.isEmpty := by
  cases he with
  | hash _ _ _ hs =>
    cases T with
    | empty => exact absurd hs.1 (by simp [Tree.Canon])
    | _ => rfl
  | _ => rfl

theorem Expands.canon_of_hash {top : Bool} {h : List UInt8} {T : Tree}
    (he : Expands keccak db top (.hashNode h) T) : T.Canon := by
  cases he with
  | hash _ _ _ hs => exact hs.1

end Zerium.Trie
