import Zerium.Trie.Trie

/-! # The abstract trie

What a trie is for: a finite map from keys to values, looked up along the hex key. `Tree` is a
trie with everything the database and the cache add taken away: no hash nodes, no flags. Its
operations are those of `trie.go` on such trees, one case for each case of the source, so
that a node of the trie and the tree it stands for can be followed step by step (`Expand`).

`Canon` is the canonical form the operations keep: every full node has at least two occupied
slots, no short node has an empty key or a short child, and values sit exactly where a key
ends, after its terminator. A key the trie is asked about is a `TermKey`: nibbles followed by
the terminator 16, as `keybytesToHex` makes them.
-/

namespace Zerium.Trie

set_option autoImplicit false

inductive Tree where
  | empty
  | value (v : List UInt8)
  | short (key : List UInt8) (child : Tree)
  | full (children : Fin 17 → Tree)

namespace Tree

def isEmpty : Tree → Bool
  | .empty => true
  | _ => false

/-- The lookup of `tryGet`: a value is returned wherever the walk reaches it. -/
def get : Tree → List UInt8 → Option (List UInt8)
  | .empty, _ => none
  | .value v, _ => some v
  | .short k c, key => if k <+: key then c.get (key.drop k.length) else none
  | .full cs, key =>
    match key[0]? >>= childIndex with
    | some i => (cs i).get (key.drop 1)
    | none => none

/-- `insert(nil, prefix, key, value)`: the value itself, or a short node leading to it. -/
def leaf (key : List UInt8) (t : Tree) : Tree := if key = [] then t else .short key t

/-- `insert` on trees: whether the tree changed, and the new tree. Where the source panics
(an index out of range, a value node with key left), the tree is returned unchanged. -/
def insert : Tree → List UInt8 → List UInt8 → Bool × Tree
  | .value w, [], v => (w != v, .value v)
  | _, [], v => (true, .value v)
  | .short nkey nval, key, v =>
    let matchlen := prefixLen key nkey
    if matchlen = nkey.length then
      let r := nval.insert (key.drop matchlen) v
      if !r.1 then (false, .short nkey nval) else (true, .short nkey r.2)
    else
      match nkey[matchlen]? >>= childIndex, key[matchlen]? >>= childIndex with
      | some i₁, some i₂ =>
        let branch := Tree.full (Function.update (Function.update (fun _ => .empty) i₁
          (leaf (nkey.drop (matchlen + 1)) nval)) i₂ (leaf (key.drop (matchlen + 1)) (.value v)))
        if matchlen = 0 then (true, branch) else (true, .short (key.take matchlen) branch)
      | _, _ => (false, .short nkey nval)
  | .full cs, key, v =>
    match key[0]? >>= childIndex with
    | some i =>
      let r := (cs i).insert (key.drop 1) v
      if !r.1 then (false, .full cs) else (true, .full (Function.update cs i r.2))
    | none => (false, .full cs)
  | .empty, key, v => (true, .short key (.value v))
  | .value w, _, _ => (false, .value w)

theorem insert_unchanged (t : Tree) (key v : List UInt8) (h : (t.insert key v).1 = false) :
    (t.insert key v).2 = t := by
  cases t <;> cases key <;> simp only [Tree.insert] at h ⊢ <;> (repeat' split at h) <;> simp_all

def remainingPos (cs : Fin 17 → Tree) : Int := slotPos fun i => !(cs i).isEmpty

/-- `delete` on trees, reducing to canonical form on the way up. -/
def delete : Tree → List UInt8 → Bool × Tree
  | .short nkey nval, key =>
    let matchlen := prefixLen key nkey
    if matchlen < nkey.length then (false, .short nkey nval)
    else if matchlen = key.length then (true, .empty)
    else
      let r := nval.delete (key.drop nkey.length)
      if !r.1 then (false, .short nkey nval)
      else
        match r.2 with
        | .short ckey cval => (true, .short (nkey ++ ckey) cval)
        | child => (true, .short nkey child)
  | .full cs, key =>
    match key[0]? >>= childIndex with
    | some i =>
      let r := (cs i).delete (key.drop 1)
      if !r.1 then (false, .full cs)
      else
        let cs' := Function.update cs i r.2
        let pos := remainingPos cs'
        let p : Fin 17 := Fin.ofNat 17 pos.toNat
        if pos ≥ 0 then
          if pos ≠ 16 then
            match cs' p with
            | .short ckey cval => (true, .short (UInt8.ofNat pos.toNat :: ckey) cval)
            | _ => (true, .short [UInt8.ofNat pos.toNat] (cs' p))
          else (true, .short [UInt8.ofNat pos.toNat] (cs' p))
        else (true, .full cs')
    | none => (false, .full cs)
  | .value _, _ => (true, .empty)
  | .empty, _ => (false, .empty)

theorem delete_unchanged (t : Tree) (key : List UInt8) (h : (t.delete key).1 = false) :
    (t.delete key).2 = t := by
  cases t <;> simp only [Tree.delete] at h ⊢ <;> (repeat' split at h) <;> simp_all

end Tree

def TermKey (k : List UInt8) : Prop := ∃ ns, Nibbles ns ∧ k = ns ++ [16]

def occupied (cs : Fin 17 → Tree) : List (Fin 17) := (List.finRange 17).filter fun i => !(cs i).isEmpty

def Tree.Canon : Tree → Prop
  | .empty => False
  | .value _ => False
  | .short k c =>
    (TermKey k ∧ ∃ v, c = .value v ∧ v ≠ []) ∨
    (k ≠ [] ∧ Nibbles k ∧ (∃ cs, c = .full cs) ∧ c.Canon)
  | .full cs =>
    2 ≤ (occupied cs).length ∧
    (∀ i : Fin 17, i.val < 16 → (cs i).isEmpty ∨ (cs i).Canon) ∧
    ((cs 16).isEmpty ∨ ∃ v, cs 16 = .value v ∧ v ≠ [])

def Tree.CanonRoot (t : Tree) : Prop := t = .empty ∨ t.Canon

/-! ## Keys -/

def nib (i : Fin 17) : UInt8 := UInt8.ofNat i.val

theorem childIndex_nib (i : Fin 17) : childIndex (nib i) = some i := by
  have h : (nib i).toNat = i.val := UInt8.toNat_ofNat_of_lt' (by show i.val < 256; omega)
  simp [childIndex, h]

theorem childIndex_eq_some {b : UInt8} {i : Fin 17} (h : childIndex b = some i) : b = nib i := by
  unfold childIndex at h
  split at h
  · cases h
    apply UInt8.toNat_inj.mp
    simp [nib]
  · cases h

theorem childIndex_of_lt {b : UInt8} (h : b < 17) : ∃ i, childIndex b = some i := by
  refine ⟨⟨b.toNat, by simpa [UInt8.lt_iff_toNat_lt] using h⟩, ?_⟩
  simp [childIndex, show b.toNat < 17 by simpa [UInt8.lt_iff_toNat_lt] using h]

theorem nib_lt_sixteen {i : Fin 17} (h : i.val < 16) : nib i < 16 := by
  rw [UInt8.lt_iff_toNat_lt, nib, UInt8.toNat_ofNat_of_lt' (by show i.val < 256; omega)]
  simpa using h

theorem nib_sixteen : nib 16 = 16 := rfl

theorem nib_inj {i j : Fin 17} (h : nib i = nib j) : i = j := by
  have := childIndex_nib i
  rw [h, childIndex_nib] at this
  exact (Option.some.inj this).symm

theorem nib_lt_sixteen_iff (i : Fin 17) : nib i < 16 ↔ i.val < 16 := by
  rw [UInt8.lt_iff_toNat_lt, nib, UInt8.toNat_ofNat_of_lt' (by show i.val < 256; omega)]
  simp

namespace TermKey

theorem term : TermKey [16] := ⟨[], Nibbles.nil, rfl⟩

theorem ne_nil {k : List UInt8} (h : TermKey k) : k ≠ [] := by
  obtain ⟨ns, -, rfl⟩ := h
  simp

theorem cons {x : UInt8} {k : List UInt8} (hx : x < 16) (hk : TermKey k) : TermKey (x :: k) := by
  obtain ⟨ns, hns, rfl⟩ := hk
  exact ⟨x :: ns, hns.cons hx, rfl⟩

theorem append {p k : List UInt8} (hp : Nibbles p) (hk : TermKey k) : TermKey (p ++ k) := by
  obtain ⟨ns, hns, rfl⟩ := hk
  exact ⟨p ++ ns, hp.append hns, by simp⟩

theorem of_cons {x : UInt8} {k : List UInt8} (h : TermKey (x :: k)) :
    (x = 16 ∧ k = []) ∨ (x < 16 ∧ TermKey k) := by
  obtain ⟨ns, hns, he⟩ := h
  cases ns with
  | nil =>
    simp only [List.nil_append, List.cons.injEq] at he
    exact .inl he
  | cons y ns =>
    simp only [List.cons_append, List.cons.injEq] at he
    obtain ⟨rfl, rfl⟩ := he
    exact .inr ⟨hns x List.mem_cons_self, ns, hns.of_cons.2, rfl⟩

theorem lt_seventeen {k : List UInt8} (h : TermKey k) : ∀ x ∈ k, x < 17 := by
  obtain ⟨ns, hns, rfl⟩ := h
  intro x hx
  rcases List.mem_append.mp hx with hx | hx
  · have := hns x hx
    simp only [UInt8.lt_iff_toNat_lt] at this ⊢
    simp at this ⊢
    omega
  · simp at hx
    subst hx
    decide

theorem of_prefix {p k : List UInt8} (hk : TermKey k) (hp : p <+: k) (hne : p ≠ k) :
    Nibbles p ∧ TermKey (k.drop p.length) := by
  obtain ⟨ns, hns, rfl⟩ := hk
  have hlen : p.length ≤ ns.length := by
    have hle := hp.length_le
    have hne' : p.length ≠ (ns ++ [16]).length := fun h => hne (hp.eq_of_length h)
    simp only [List.length_append, List.length_singleton] at hle hne'
    omega
  obtain ⟨ns', rfl⟩ := List.prefix_of_prefix_length_le hp (List.prefix_append ns [16]) hlen
  refine ⟨fun x hx => hns x (List.mem_append_left _ hx), ?_⟩
  rw [List.append_assoc, List.drop_left' rfl]
  exact ⟨ns', fun x hx => hns x (List.mem_append_right _ hx), rfl⟩

theorem cons_nib {k : List UInt8} (h : TermKey k) :
    ∃ j w, k = nib j :: w ∧ ((j = 16 ∧ w = []) ∨ (j.val < 16 ∧ TermKey w)) := by
  obtain ⟨x, w, rfl⟩ := List.exists_cons_of_ne_nil h.ne_nil
  obtain ⟨j, hj⟩ := childIndex_of_lt (h.lt_seventeen x List.mem_cons_self)
  have hx := childIndex_eq_some hj
  subst hx
  refine ⟨j, w, rfl, ?_⟩
  rcases h.of_cons with ⟨hx, hw⟩ | ⟨hx, hw⟩
  · exact .inl ⟨nib_inj (hx.trans nib_sixteen.symm), hw⟩
  · exact .inr ⟨(nib_lt_sixteen_iff j).mp hx, hw⟩

theorem not_nibbles {k : List UInt8} (hk : TermKey k) (hn : Nibbles k) : False := by
  obtain ⟨ns, -, rfl⟩ := hk
  exact absurd (hn 16 (by simp)) (by decide)

theorem eq_of_prefix {a b : List UInt8} (ha : TermKey a) (hb : TermKey b) (h : a <+: b) : a = b := by
  by_contra hne
  exact ha.not_nibbles (hb.of_prefix h hne).1

end TermKey

/-! ## Lookups -/

namespace Tree

theorem get_short (k : List UInt8) (c : Tree) (key : List UInt8) :
    (Tree.short k c).get key = if k <+: key then c.get (key.drop k.length) else none := by
  rw [get]

theorem get_short_append (k : List UInt8) (c : Tree) (x : List UInt8) :
    (Tree.short k c).get (k ++ x) = c.get x := by
  rw [get_short, if_pos (List.prefix_append k x), List.drop_left' rfl]

theorem get_short_eq_none {k key : List UInt8} (c : Tree) (h : ¬ k <+: key) :
    (Tree.short k c).get key = none := by
  rw [get_short, if_neg h]

theorem get_full_cons (cs : Fin 17 → Tree) (i : Fin 17) (key : List UInt8) :
    (Tree.full cs).get (nib i :: key) = (cs i).get key := by
  simp [get, childIndex_nib]

theorem get_full_nil (cs : Fin 17 → Tree) : (Tree.full cs).get [] = none := by
  simp [get]

theorem get_leaf_eq (c : List UInt8) (t : Tree) (k : List UInt8) :
    (leaf c t).get k = if c <+: k then t.get (k.drop c.length) else none := by
  unfold leaf
  split
  · rename_i h
    subst h
    simp
  · exact get_short c t k

theorem get_leaf (key : List UInt8) (t : Tree) (x : List UInt8) :
    (leaf key t).get (key ++ x) = t.get x := by
  unfold leaf
  split
  · rename_i h
    subst h
    rfl
  · exact get_short_append key t x

end Tree

end Zerium.Trie
