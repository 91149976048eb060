import Zerium.Rlp.Deferred
import Zerium.Trie.Expand

/-! # Decoding stored nodes

`decodeNode` reads back what the hasher wrote: the encoding of the collapsed node of a
canonical tree decodes to a clean node that stands for the tree. Embedded children are
decoded in place, children stored by hash come back as hash nodes, keys come back from their
compact form, an empty slot as `nil` and a value in the last slot as a value node.

`decodeNode_enc` says what the node is, with no database: `Tree.decoded`, the same keys and
values, children smaller than a hash in place and larger ones as hash nodes. `nodeDecodes_of_canon`
reads the same nodes through a database that holds the children stored by hash.

As the decoder reads a list item by item, each statement allows anything after the encoding.
-/

namespace Zerium.Trie

set_option autoImplicit false

open Zerium.Rlp

section

variable (keccak : List UInt8 → List UInt8) (db : MemDatabase) (cachegen : UInt16)

/-- Decoding the encoding of `T`, with anything after it, gives a clean node for `T`. -/
def NodeDecodes (hash : Option (List UInt8)) (top : Bool) (T : Tree) : Prop :=
  ∀ rest, ∃ n, decodeNode hash (T.enc keccak ++ rest) cachegen = some (.ok n) ∧
    Expands keccak db top n T ∧ n.isDirty = false ∧ n.isHashNode = false

/-- Decoding the reference a parent holds for `T` gives a clean node for `T` and leaves what
follows the reference. -/
def RefDecodes (T : Tree) : Prop :=
  ∀ rest, ∃ n hr, decodeRef ((T.ref keccak).encoding ++ rest) cachegen = some (.ok (n, ⟨rest, hr⟩)) ∧
    Expands keccak db false n T ∧ n.isDirty = false

def ChildrenInv (cs : Fin 17 → Tree) (i : Nat) (children : Fin 17 → Node) : Prop :=
  ∀ j : Fin 17, (j.val < i → Expands keccak db false (children j) (cs j) ∧ (children j).isDirty = false) ∧
    (i ≤ j.val → children j = .nil)

/-- What a parent's reference to `t` decodes to, `node` being what `t` decodes to in place: an
empty slot as `nil`, a value as a value node, a node smaller than a hash in place and a larger
one as the hash node of its encoding. -/
def Tree.refNode (t : Tree) (node : Node) : Node :=
  match t with
  | .empty => .nil
  | .value v => .valueNode v
  | t => if (t.enc keccak).length < 32 then node else .hashNode (keccak (t.enc keccak))

/-- The node `decodeNode hash` reads back from the encoding of a tree. -/
def Tree.decoded (hash : Option (List UInt8)) : Tree → Node
  | .empty => .nil
  | .value v => .valueNode v
  | .short k c => .shortNode k (c.refNode keccak (Tree.decoded none c)) ⟨hash, cachegen, false⟩
  | .full cs =>
    .fullNode (fun i => (cs i).refNode keccak (Tree.decoded none (cs i))) ⟨hash, cachegen, false⟩

end

variable {keccak : List UInt8 → List UInt8} {db : MemDatabase} {cachegen : UInt16}

/-! ## One step of the decoder -/

theorem decodeRef_of_split {buf : List UInt8} {kind : Kind} {val rest : List UInt8}
    (hs : Raw.Split buf = some (.ok (kind, val, rest))) :
    decodeRef buf cachegen =
      if kind = .List then
        if buf.length - rest.length > hashLen then
          some (.error (.oversizedEmbeddedNode (buf.length - rest.length)))
        else (decodeNode none buf cachegen).map (·.map (·, ⟨rest, (Raw.Split_ok_length hs).1.le⟩))
      else if kind = .String ∧ val.length = 0 then some (.ok (.nil, ⟨rest, (Raw.Split_ok_length hs).1.le⟩))
      else if kind = .String ∧ val.length = 32 then
        some (.ok (.hashNode val, ⟨rest, (Raw.Split_ok_length hs).1.le⟩))
      else some (.error (.invalidRLPStringSize val.length)) := by
  rw [decodeRef]
  split
  · rename_i h
    rw [hs] at h
    cases h
  · rename_i h
    rw [hs] at h
    cases h
  · rename_i h
    rw [hs] at h
    cases h
    rfl

theorem decodeNode_of_splitList {hash : Option (List UInt8)} {buf elems rest : List UInt8}
    (hb : buf ≠ []) (hs : Raw.SplitList buf = some (.ok (elems, rest))) :
    decodeNode hash buf cachegen =
      match Raw.CountValues elems with
      | none => none
      | some counted =>
        let c := match counted with
          | .ok c => c
          | .error _ => 0
        if c = 2 then (decodeShort hash elems cachegen).map (·.mapError (wrapError · "short"))
        else if c = 17 then (decodeFull hash elems cachegen).map (·.mapError (wrapError · "full"))
        else some (.error (.invalidNumberOfListElements c)) := by
  rw [decodeNode, if_neg hb]
  split
  · rename_i h
    rw [hs] at h
    cases h
  · rename_i h
    rw [hs] at h
    cases h
  · rename_i h
    rw [hs] at h
    cases h
    rfl

theorem decodeNode_list {hash : Option (List UInt8)} (vs : List Value) (hv : (Value.list vs).Sized)
    (rest : List UInt8) :
    decodeNode hash ((Value.list vs).encoding ++ rest) cachegen =
      if vs.length = 2 then (decodeShort hash (Value.payload vs) cachegen).map (·.mapError (wrapError · "short"))
      else if vs.length = 17 then (decodeFull hash (Value.payload vs) cachegen).map (·.mapError (wrapError · "full"))
      else some (.error (.invalidNumberOfListElements vs.length)) := by
  have hb : (Value.list vs).encoding ++ rest ≠ [] :=
    fun h => encoding_ne_nil _ (List.append_eq_nil_iff.mp h).1
  rw [decodeNode_of_splitList hb (Raw.SplitList_encoding vs hv rest), Raw.CountValues_payload vs hv.2]

/-! ## References -/

theorem refNode_of_isNode {t : Tree} (h : t.isNode = true) (node : Node) :
    t.refNode keccak node =
      if (t.enc keccak).length < 32 then node else .hashNode (keccak (t.enc keccak)) := by
  cases t <;> first | rfl | cases h

theorem decodeRef_ref_empty (rest : List UInt8) :
    ∃ hr, decodeRef ((Tree.empty.ref keccak).encoding ++ rest) cachegen = some (.ok (.nil, ⟨rest, hr⟩)) := by
  have hs := Raw.Split_encoding (.bytes []) (show ([] : List UInt8).length < 2 ^ 64 by simp) rest
  rw [Tree.ref_empty]
  refine ⟨(Raw.Split_ok_length hs).1.le, ?_⟩
  rw [decodeRef_of_split hs]
  simp [Raw.kindOf, Raw.contentOf]

theorem decodeRef_ref_stored (hk32 : ∀ b, (keccak b).length = 32) {T : Tree} (hnode : T.isNode = true)
    (hbig : 32 ≤ (T.enc keccak).length) (rest : List UInt8) :
    ∃ hr, decodeRef ((T.ref keccak).encoding ++ rest) cachegen =
      some (.ok (.hashNode (keccak (T.enc keccak)), ⟨rest, hr⟩)) := by
  have href : T.ref keccak = .bytes (keccak (T.enc keccak)) := by
    rw [Tree.ref_of_isNode keccak hnode, refOf,
      if_neg (show ¬ (T.collapsed keccak).encoding.length < 32 from Nat.not_lt.mpr hbig)]
    rfl
  have hlen := hk32 (T.enc keccak)
  have hs := Raw.Split_encoding (.bytes (keccak (T.enc keccak))) (show _ < 2 ^ 64 by omega) rest
  have hkind : Raw.kindOf (.bytes (keccak (T.enc keccak))) = .String :=
    Raw.kindOf_bytes_of_not_single _ (fun h => by have := h.1; omega)
  rw [href]
  refine ⟨(Raw.Split_ok_length hs).1.le, ?_⟩
  rw [decodeRef_of_split hs]
  simp [hkind, Raw.contentOf, hlen]

theorem decodeRef_ref_embedded {T : Tree} (hnode : T.isNode = true) (hsmall : (T.enc keccak).length < 32)
    {rest : List UInt8} {n : Node} (hdec : decodeNode none (T.enc keccak ++ rest) cachegen = some (.ok n)) :
    ∃ hr, decodeRef ((T.ref keccak).encoding ++ rest) cachegen = some (.ok (n, ⟨rest, hr⟩)) := by
  have href : T.ref keccak = T.collapsed keccak := by
    rw [Tree.ref_of_isNode keccak hnode, refOf,
      if_pos (show (T.collapsed keccak).encoding.length < 32 from hsmall)]
  obtain ⟨vs, hvs⟩ : ∃ vs, T.collapsed keccak = .list vs := by
    cases T with
    | short k c => exact ⟨_, Tree.collapsed_short keccak k c⟩
    | full cs => exact ⟨_, Tree.collapsed_full keccak cs⟩
    | _ => cases hnode
  have hsz : (Value.list vs).Sized := by
    apply sized_of_length_lt
    rw [← hvs, ← Tree.enc]
    omega
  have hs := Raw.Split_encoding (.list vs) hsz rest
  have henc : (Value.list vs).encoding = T.enc keccak := by rw [Tree.enc, hvs]
  rw [href, hvs]
  refine ⟨(Raw.Split_ok_length hs).1.le, ?_⟩
  rw [decodeRef_of_split hs]
  simp only [Raw.kindOf, if_true]
  rw [if_neg (by simp only [List.length_append]; rw [henc, hashLen]; omega)]
  simp [henc, hdec, Except.map]

theorem refDecodes_empty : RefDecodes keccak db cachegen .empty := by
  intro rest
  obtain ⟨hr, hdec⟩ := @decodeRef_ref_empty keccak cachegen rest
  exact ⟨.nil, hr, hdec, .nil false, rfl⟩

theorem refDecodes_stored (hk32 : ∀ b, (keccak b).length = 32) {T : Tree} (hT : T.Canon)
    (hp : T.Persisted keccak db) (hr : T.RefStored keccak db) (hbig : 32 ≤ (T.enc keccak).length) :
    RefDecodes keccak db cachegen T := by
  intro rest
  have hnode := Tree.isNode_of_canon hT
  obtain ⟨hrest, hdec⟩ := @decodeRef_ref_stored keccak cachegen hk32 T hnode hbig rest
  exact ⟨_, hrest, hdec, .hash false _ T ⟨hT, ⟨rfl, fun _ => hbig⟩, hr hnode hbig, hp⟩, rfl⟩

theorem refDecodes_embedded {T : Tree} (hT : T.Canon) (hsmall : (T.enc keccak).length < 32)
    (hdec : NodeDecodes keccak db cachegen none false T) : RefDecodes keccak db cachegen T := by
  intro rest
  obtain ⟨n, hn, he, hd, -⟩ := hdec rest
  obtain ⟨hr, hn'⟩ := decodeRef_ref_embedded (Tree.isNode_of_canon hT) hsmall hn
  exact ⟨n, hr, hn', he, hd⟩

theorem flagOk_embedded {T : Tree} (hsmall : (T.enc keccak).length < 32) :
    FlagOk keccak db false ⟨none, cachegen, false⟩ T :=
  ⟨fun _ h => absurd h (by simp), fun _ _ => ⟨rfl, hsmall⟩⟩

theorem refDecodes_of_canon (hk32 : ∀ b, (keccak b).length = 32) {T : Tree} (hT : T.Canon)
    (hp : T.Persisted keccak db) (hr : T.RefStored keccak db)
    (hdec : (T.enc keccak).length < 32 → NodeDecodes keccak db cachegen none false T) :
    RefDecodes keccak db cachegen T := by
  by_cases hsmall : (T.enc keccak).length < 32
  · exact refDecodes_embedded hT hsmall (hdec hsmall)
  · exact refDecodes_stored hk32 hT hp hr (by omega)

theorem decodeRef_ref_refNode (hk32 : ∀ b, (keccak b).length = 32) {T : Tree} (hT : T.CanonRoot)
    (ih : T.Canon → (T.enc keccak).length < 32 → ∀ rest,
      decodeNode none (T.enc keccak ++ rest) cachegen = some (.ok (T.decoded keccak cachegen none)))
    (rest : List UInt8) :
    ∃ hr, decodeRef ((T.ref keccak).encoding ++ rest) cachegen =
      some (.ok (T.refNode keccak (T.decoded keccak cachegen none), ⟨rest, hr⟩)) := by
  rcases hT with rfl | hT
  · exact decodeRef_ref_empty rest
  · have hnode := Tree.isNode_of_canon hT
    rw [refNode_of_isNode hnode]
    by_cases hsmall : (T.enc keccak).length < 32
    · rw [if_pos hsmall]
      exact decodeRef_ref_embedded hnode hsmall (ih hT hsmall rest)
    · rw [if_neg hsmall]
      exact decodeRef_ref_stored hk32 hnode (by omega) rest

/-! ## Short nodes -/

theorem decodeShort_value {hash : Option (List UInt8)} {elems kbuf rest key val rest' : List UInt8}
    (hs : Raw.SplitString elems = some (.ok (kbuf, rest))) (hk : compactToHex kbuf = some key)
    (hterm : hasTerm key = true) (hv : Raw.SplitString rest = some (.ok (val, rest'))) :
    decodeShort hash elems cachegen = some (.ok (.shortNode key (.valueNode val) ⟨hash, cachegen, false⟩)) := by
  rw [decodeShort]
  split
  · rename_i h
    rw [hs] at h
    cases h
  · rename_i h
    rw [hs] at h
    cases h
  · rename_i h
    rw [hs] at h
    cases h
    simp [hk, hterm, hv]

theorem decodeShort_ref {hash : Option (List UInt8)} {elems kbuf rest key : List UInt8} {r : Node}
    {rest' : {rest' : List UInt8 // rest'.length ≤ rest.length}}
    (hs : Raw.SplitString elems = some (.ok (kbuf, rest))) (hk : compactToHex kbuf = some key)
    (hterm : hasTerm key = false) (hr : decodeRef rest cachegen = some (.ok (r, rest'))) :
    decodeShort hash elems cachegen = some (.ok (.shortNode key r ⟨hash, cachegen, false⟩)) := by
  rw [decodeShort]
  split
  · rename_i h
    rw [hs] at h
    cases h
  · rename_i h
    rw [hs] at h
    cases h
  · rename_i h
    rw [hs] at h
    cases h
    simp [hk, hterm, hr]

theorem decodeShort_leaf {hash : Option (List UInt8)} {top : Bool} {k v : List UInt8}
    (hk : TermKey k) (hsz : (Value.list [.bytes (hexToCompact k), .bytes v]).Sized)
    (hflags : FlagOk keccak db top ⟨hash, cachegen, false⟩ (.short k (.value v))) :
    ∃ n, decodeShort hash (Value.payload [.bytes (hexToCompact k), .bytes v]) cachegen = some (.ok n) ∧
      Expands keccak db top n (.short k (.value v)) ∧ n.isDirty = false ∧ n.isHashNode = false := by
  obtain ⟨ns, hns, rfl⟩ := hk
  refine ⟨_, ?_, .short top _ _ _ _ (.value false v) hflags (fun _ => rfl), rfl, rfl⟩
  rw [payload_cons, payload_cons, payload_nil]
  exact decodeShort_value (Raw.SplitString_encoding _ hsz.2.1 _)
    (compactToHex_hexToCompact _ (.inr ⟨ns, rfl, hns⟩)) (hasTerm_append_term ns)
    (Raw.SplitString_encoding _ hsz.2.2.1 _)

theorem decodeShort_extension {hash : Option (List UInt8)} {top : Bool} {k : List UInt8} {c : Tree}
    (hk : Nibbles k) (hsz : (Value.list [.bytes (hexToCompact k), c.ref keccak]).Sized)
    (hflags : FlagOk keccak db top ⟨hash, cachegen, false⟩ (.short k c))
    (hc : RefDecodes keccak db cachegen c) :
    ∃ n, decodeShort hash (Value.payload [.bytes (hexToCompact k), c.ref keccak]) cachegen = some (.ok n) ∧
      Expands keccak db top n (.short k c) ∧ n.isDirty = false ∧ n.isHashNode = false := by
  obtain ⟨r, hr, hdec, he, hd⟩ := hc []
  refine ⟨_, ?_, .short top k r _ c he hflags (fun _ => hd), rfl, rfl⟩
  rw [payload_cons, payload_cons, payload_nil]
  exact decodeShort_ref (Raw.SplitString_encoding _ hsz.2.1 _) (compactToHex_hexToCompact _ (.inl hk))
    (hasTerm_of_nibbles hk) hdec

/-! ## Full nodes -/

theorem ChildrenInv.init (cs : Fin 17 → Tree) : ChildrenInv keccak db cs 0 fun _ => .nil :=
  fun _ => ⟨fun h => absurd h (by omega), fun _ => rfl⟩

theorem ChildrenInv.succ {cs : Fin 17 → Tree} {i : Nat} {children : Fin 17 → Node} {n : Node}
    (h : ChildrenInv keccak db cs i children) (hi : i < 17) (he : Expands keccak db false n (cs ⟨i, hi⟩))
    (hd : n.isDirty = false) : ChildrenInv keccak db cs (i + 1) (Function.update children ⟨i, hi⟩ n) := by
  intro j
  by_cases hj : j = ⟨i, hi⟩
  · subst hj
    rw [Function.update_self]
    exact ⟨fun _ => ⟨he, hd⟩, fun h => absurd h (by simp)⟩
  · have hji : j.val ≠ i := fun h => hj (Fin.ext h)
    rw [Function.update_of_ne hj]
    exact ⟨fun hlt => (h j).1 (by omega), fun hle => (h j).2 (by omega)⟩

theorem drop_ofFn_refs (cs : Fin 17 → Tree) (i : Nat) (hi : i < 17) :
    (List.ofFn fun j => (cs j).ref keccak).drop i =
      (cs ⟨i, hi⟩).ref keccak :: (List.ofFn fun j => (cs j).ref keccak).drop (i + 1) := by
  rw [List.drop_eq_getElem_cons (by simpa using hi), List.getElem_ofFn]

theorem decodeChildren_refs (flags : NodeFlag) (cs : Fin 17 → Tree)
    (hslots : ∀ j : Fin 17, j.val < 16 → RefDecodes keccak db cachegen (cs j))
    (h16 : cs 16 = .empty ∨ ∃ v, cs 16 = .value v ∧ v ≠ []) :
    ∀ k i children, i + k = 16 → Value.SizedList ((List.ofFn fun j => (cs j).ref keccak).drop i) →
      ChildrenInv keccak db cs i children →
      ∃ children', decodeChildren flags (Value.payload ((List.ofFn fun j => (cs j).ref keccak).drop i))
          cachegen i children = some (.ok (.fullNode children' flags)) ∧
        ChildrenInv keccak db cs 17 children' := by
  intro k
  induction k with
  | zero =>
    intro i children hk hsz hinv
    obtain rfl : i = 16 := by omega
    rw [drop_ofFn_refs cs 16 (by omega)] at hsz ⊢
    rw [List.drop_of_length_le (by simp), payload_cons, payload_nil, decodeChildren, dif_neg (by omega),
      show (⟨16, by omega⟩ : Fin 17) = 16 from rfl]
    -- the last slot holds the value, read as a string
    rcases h16 with h16 | ⟨v, h16, hv⟩
    · refine ⟨children, ?_, fun j => ⟨fun _ => ?_, fun h => absurd h (by omega)⟩⟩
      · rw [h16, Tree.ref_empty, Raw.SplitString_encoding [] (by simp) []]
        simp
      · by_cases hj : j.val < 16
        · exact (hinv j).1 hj
        · obtain rfl : j = 16 := Fin.ext (by omega)
          rw [(hinv 16).2 (le_refl _), h16]
          exact ⟨.nil false, rfl⟩
    · rw [show (⟨16, by omega⟩ : Fin 17) = 16 from rfl, h16, Tree.ref_value] at hsz
      refine ⟨Function.update children 16 (.valueNode v), ?_,
        hinv.succ (by omega) (h16 ▸ Expands.value false v) rfl⟩
      rw [h16, Tree.ref_value, Raw.SplitString_encoding v hsz.1 []]
      simp [List.length_pos_iff.mpr hv]
  | succ k ih =>
    intro i children hk hsz hinv
    have hi : i < 16 := by omega
    obtain ⟨n, hr, hdec, he, hd⟩ := hslots ⟨i, by omega⟩ hi
      (Value.payload ((List.ofFn fun j => (cs j).ref keccak).drop (i + 1)))
    rw [drop_ofFn_refs cs i (by omega)] at hsz ⊢
    rw [payload_cons, decodeChildren, dif_pos hi, hdec]
    exact ih (i + 1) _ (by omega) hsz.2 (hinv.succ (by omega) he hd)

theorem decodeFull_refs {hash : Option (List UInt8)} {top : Bool} {cs : Fin 17 → Tree}
    (hsz : Value.SizedList (List.ofFn fun j => (cs j).ref keccak))
    (hslots : ∀ j : Fin 17, j.val < 16 → RefDecodes keccak db cachegen (cs j))
    (h16 : cs 16 = .empty ∨ ∃ v, cs 16 = .value v ∧ v ≠ [])
    (hflags : FlagOk keccak db top ⟨hash, cachegen, false⟩ (.full cs)) :
    ∃ n, decodeFull hash (Value.payload (List.ofFn fun j => (cs j).ref keccak)) cachegen = some (.ok n) ∧
      Expands keccak db top n (.full cs) ∧ n.isDirty = false ∧ n.isHashNode = false := by
  obtain ⟨children, hdec, hinv⟩ :=
    decodeChildren_refs ⟨hash, cachegen, false⟩ cs hslots h16 16 0 _ rfl hsz (ChildrenInv.init cs)
  refine ⟨_, ?_, .full top children _ cs (fun j => ((hinv j).1 j.isLt).1) hflags
    (fun _ j => ((hinv j).1 j.isLt).2), rfl, rfl⟩
  rw [decodeFull]
  exact hdec

theorem update_readSoFar (f : Fin 17 → Node) (i : Nat) (hi : i < 17) :
    Function.update (fun j : Fin 17 => if j.val < i then f j else .nil) ⟨i, hi⟩ (f ⟨i, hi⟩) =
      fun j => if j.val < i + 1 then f j else .nil := by
  funext j
  by_cases hj : j = ⟨i, hi⟩
  · subst hj
    simp
  · have hji : j.val ≠ i := fun h => hj (Fin.ext h)
    rw [Function.update_of_ne hj]
    by_cases hlt : j.val < i
    · rw [if_pos hlt, if_pos (by omega)]
    · rw [if_neg hlt, if_neg (by omega)]

theorem decodeChildren_refNodes (flags : NodeFlag) (cs : Fin 17 → Tree) (f : Fin 17 → Node)
    (hslots : ∀ j : Fin 17, j.val < 16 → ∀ rest, ∃ hr,
      decodeRef (((cs j).ref keccak).encoding ++ rest) cachegen = some (.ok (f j, ⟨rest, hr⟩)))
    (h16 : (cs 16 = .empty ∧ f 16 = .nil) ∨ ∃ v, cs 16 = .value v ∧ v ≠ [] ∧ f 16 = .valueNode v) :
    ∀ k i, i + k = 16 → Value.SizedList ((List.ofFn fun j => (cs j).ref keccak).drop i) →
      decodeChildren flags (Value.payload ((List.ofFn fun j => (cs j).ref keccak).drop i)) cachegen i
        (fun j => if j.val < i then f j else .nil) = some (.ok (.fullNode f flags)) := by
  intro k
  induction k with
  | zero =>
    intro i hk hsz
    obtain rfl : i = 16 := by omega
    rw [drop_ofFn_refs cs 16 (by omega)] at hsz ⊢
    rw [List.drop_of_length_le (by simp), payload_cons, payload_nil, decodeChildren, dif_neg (by omega),
      show (⟨16, by omega⟩ : Fin 17) = 16 from rfl]
    -- the last slot holds the value, read as a string; the sixteen before it are read
    have hlow : ∀ j : Fin 17, j ≠ 16 → j.val < 16 := fun j hj => by
      have := j.isLt
      have : j.val ≠ 16 := fun h => hj (Fin.ext h)
      omega
    rcases h16 with ⟨h16, hf⟩ | ⟨v, h16, hv, hf⟩
    · rw [h16, Tree.ref_empty, Raw.SplitString_encoding [] (by simp) []]
      simp only [List.length_nil, gt_iff_lt, Nat.lt_irrefl, if_false, Option.some.injEq,
        Except.ok.injEq, Node.fullNode.injEq, and_true]
      funext j
      by_cases hj : j = 16
      · subst hj
        simp [hf]
      · rw [if_pos (hlow j hj)]
    · rw [show (⟨16, by omega⟩ : Fin 17) = 16 from rfl, h16, Tree.ref_value] at hsz
      rw [h16, Tree.ref_value, Raw.SplitString_encoding v hsz.1 []]
      simp only [List.length_pos_iff.mpr hv, if_true, Option.some.injEq,
        Except.ok.injEq, Node.fullNode.injEq, and_true]
      funext j
      by_cases hj : j = 16
      · subst hj
        simp [hf]
      · rw [Function.update_of_ne hj, if_pos (hlow j hj)]
  | succ k ih =>
    intro i hk hsz
    have hi : i < 16 := by omega
    obtain ⟨hr, hdec⟩ := hslots ⟨i, by omega⟩ hi
      (Value.payload ((List.ofFn fun j => (cs j).ref keccak).drop (i + 1)))
    rw [drop_ofFn_refs cs i (by omega)] at hsz ⊢
    rw [payload_cons, decodeChildren, dif_pos hi, hdec]
    -- the child read in slot `i` joins those read before it
    have hnext := ih (i + 1) (by omega) hsz.2
    rw [← update_readSoFar f i (by omega)] at hnext
    exact hnext

/-! ## Whole nodes -/

theorem refDecodes_slot (hk32 : ∀ b, (keccak b).length = 32) {T : Tree} (hT : T.CanonRoot)
    (hp : T.Persisted keccak db) (hr : T.RefStored keccak db)
    (ih : T.Canon → (T.enc keccak).length < 32 → NodeDecodes keccak db cachegen none false T) :
    RefDecodes keccak db cachegen T := by
  rcases hT with rfl | hT
  · exact refDecodes_empty
  · exact refDecodes_of_canon hk32 hT hp hr (ih hT)

theorem nodeDecodes_of_canon (hk32 : ∀ b, (keccak b).length = 32) (T : Tree) (hT : T.Canon)
    (hp : T.Persisted keccak db) (hlen : (T.enc keccak).length < 2 ^ 64) (hash : Option (List UInt8))
    (top : Bool) (hflags : FlagOk keccak db top ⟨hash, cachegen, false⟩ T) :
    NodeDecodes keccak db cachegen hash top T := by
  induction T generalizing hash top with
  | empty => exact absurd hT (by simp [Tree.Canon])
  | value v => exact absurd hT (by simp [Tree.Canon])
  | short k c ih =>
    intro rest
    have hsz := sized_of_length_lt _ hlen
    rw [Tree.collapsed_short] at hsz
    rw [Tree.enc, Tree.collapsed_short, decodeNode_list _ hsz rest, if_pos (by simp)]
    -- a leaf holds its value, an extension a reference to a full node
    rcases hT with ⟨hk, v, rfl, -⟩ | ⟨-, hk, -, hc⟩
    · rw [Tree.ref_value] at hsz ⊢
      obtain ⟨n, hn, he, hd, hh⟩ := decodeShort_leaf hk hsz hflags
      exact ⟨n, by rw [hn]; rfl, he, hd, hh⟩
    · have hcd := refDecodes_of_canon hk32 hc hp.1 hp.2 fun hsmall =>
        ih hc hp.1 (by omega) none false (flagOk_embedded hsmall)
      obtain ⟨n, hn, he, hd, hh⟩ := decodeShort_extension hk hsz hflags hcd
      exact ⟨n, by rw [hn]; rfl, he, hd, hh⟩
  | full cs ih =>
    intro rest
    have hsz := sized_of_length_lt _ hlen
    rw [Tree.collapsed_full] at hsz
    rw [Tree.enc, Tree.collapsed_full, decodeNode_list _ hsz rest, if_neg (by simp), if_pos (by simp)]
    have hslots : ∀ j : Fin 17, j.val < 16 → RefDecodes keccak db cachegen (cs j) := fun j hj =>
      refDecodes_slot hk32 (hT.slot_root hj) (hp j).1 (hp j).2 fun hc hsmall =>
        ih j hc (hp j).1 (by omega) none false (flagOk_embedded hsmall)
    obtain ⟨n, hn, he, hd, hh⟩ := decodeFull_refs hsz.2 hslots hT.slot_value hflags
    exact ⟨n, by rw [hn]; rfl, he, hd, hh⟩

/-- A canonical tree's encoding, with anything after it, decodes to `decoded`: the same keys
and values, children smaller than a hash decoded in place and larger ones as hash nodes. -/
theorem decodeNode_enc (hk32 : ∀ b, (keccak b).length = 32) (T : Tree) (hT : T.Canon)
    (hlen : (T.enc keccak).length < 2 ^ 64) (hash : Option (List UInt8)) (rest : List UInt8) :
    decodeNode hash (T.enc keccak ++ rest) cachegen = some (.ok (T.decoded keccak cachegen hash)) := by
  induction T generalizing hash rest with
  | empty => exact absurd hT (by simp [Tree.Canon])
  | value v => exact absurd hT (by simp [Tree.Canon])
  | short k c ih =>
    have hsz := sized_of_length_lt _ hlen
    rw [Tree.collapsed_short] at hsz
    rw [Tree.enc, Tree.collapsed_short, decodeNode_list _ hsz rest, if_pos (by simp),
      payload_cons, payload_cons, payload_nil]
    -- a leaf holds its value, an extension a reference to a full node
    rcases hT with ⟨⟨ns, hns, rfl⟩, v, rfl, -⟩ | ⟨-, hk, -, hc⟩
    · rw [Tree.ref_value] at hsz ⊢
      rw [decodeShort_value (Raw.SplitString_encoding _ hsz.2.1 _)
        (compactToHex_hexToCompact _ (.inr ⟨ns, rfl, hns⟩)) (hasTerm_append_term ns)
        (Raw.SplitString_encoding _ hsz.2.2.1 _)]
      rfl
    · obtain ⟨hr, hdec⟩ := @decodeRef_ref_refNode keccak cachegen hk32 c (.inr hc)
        (fun _ hsmall rest => ih hc (by omega) none rest) []
      rw [decodeShort_ref (Raw.SplitString_encoding _ hsz.2.1 _) (compactToHex_hexToCompact _ (.inl hk))
        (hasTerm_of_nibbles hk) hdec]
      rfl
  | full cs ih =>
    have hsz := sized_of_length_lt _ hlen
    rw [Tree.collapsed_full] at hsz
    rw [Tree.enc, Tree.collapsed_full, decodeNode_list _ hsz rest, if_neg (by simp), if_pos (by simp)]
    have hslots : ∀ j : Fin 17, j.val < 16 → ∀ rest, ∃ hr,
        decodeRef (((cs j).ref keccak).encoding ++ rest) cachegen =
          some (.ok ((cs j).refNode keccak ((cs j).decoded keccak cachegen none), ⟨rest, hr⟩)) :=
      fun j hj => decodeRef_ref_refNode hk32 (hT.slot_root hj)
        (fun hc hsmall rest => ih j hc (by omega) none rest)
    have h16 : (cs 16 = .empty ∧ (cs 16).refNode keccak ((cs 16).decoded keccak cachegen none) = .nil) ∨
        ∃ v, cs 16 = .value v ∧ v ≠ [] ∧
          (cs 16).refNode keccak ((cs 16).decoded keccak cachegen none) = .valueNode v := by
      rcases hT.slot_value with h | ⟨v, h, hv⟩
      · exact .inl ⟨h, by rw [h]; rfl⟩
      · exact .inr ⟨v, h, hv, by rw [h]; rfl⟩
    have hloop := decodeChildren_refNodes ⟨hash, cachegen, false⟩ cs _ hslots h16 16 0 rfl hsz.2
    simp only [List.drop_zero, Nat.not_lt_zero, if_false] at hloop
    rw [decodeFull, hloop]
    rfl
theorem decodeNode_enc_leaf :
    (∀ b : List UInt8, ((fun _ => List.replicate 32 0) b : List UInt8).length = 32) ∧
      (Tree.short [1, 16] (.value [5])).Canon ∧
      ((Tree.short [1, 16] (.value [5])).enc fun _ => List.replicate 32 0).length < 2 ^ 64 ∧
      decodeNode none (((Tree.short [1, 16] (.value [5])).enc fun _ => List.replicate 32 0) ++ []) 0 =
        some (.ok ((Tree.short [1, 16] (.value [5])).decoded (fun _ => List.replicate 32 0) 0 none)) := by
  have hk32 : ∀ b : List UInt8, ((fun _ => List.replicate 32 0) b : List UInt8).length = 32 :=
    fun _ => List.length_replicate
  have hT : (Tree.short [1, 16] (.value [5])).Canon :=
    .inl ⟨⟨[1], fun x hx => by simp only [List.mem_singleton] at hx; subst hx; decide, rfl⟩, [5], rfl,
      by simp⟩
  have hlen : ((Tree.short [1, 16] (.value [5])).enc fun _ => List.replicate 32 0).length < 2 ^ 64 := by
    decide
  exact ⟨hk32, hT, hlen, decodeNode_enc hk32 _ hT hlen none []⟩

/-! ## Empty keys

A short node's key item is never empty in what the hasher writes (`hexToCompact` always emits
the flag byte), but `decodeShort` takes whatever item comes first, and `compactToHex` reads
the flag of an empty key out of range. -/

theorem decodeShort_empty_key (hash : Option (List UInt8)) (rest : List UInt8) :
    decodeShort hash ((Value.bytes []).encoding ++ rest) cachegen = none := by
  have hs := Raw.SplitString_encoding [] (by simp) rest
  rw [decodeShort]
  split
  · rfl
  · rename_i h
    rw [hs] at h
    cases h
  · rename_i h
    rw [hs] at h
    cases h
    simp [(compactToHex_eq_none_iff []).mpr rfl]

/-- Every two-item list whose first item is the empty string panics in `decodeNode`. -/
theorem decodeNode_empty_key (hash : Option (List UInt8)) (v : Value)
    (hv : (Value.list [.bytes [], v]).Sized) (rest : List UInt8) :
    decodeNode hash ((Value.list [.bytes [], v]).encoding ++ rest) cachegen = none := by
  rw [decodeNode_list _ hv rest, if_pos (by simp), payload_cons, decodeShort_empty_key]
  rfl

theorem decodeNode_C2_80_80 :
    (Value.list [.bytes [], .bytes []]).Sized ∧ decodeNode none [0xC2, 0x80, 0x80] 0 = none := by
  have hv : (Value.list [.bytes [], .bytes []]).Sized := sized_of_length_lt _ (by decide)
  refine ⟨hv, ?_⟩
  have h := @decodeNode_empty_key 0 none (.bytes []) hv []
  -- the encoding of a list of two empty strings
  have henc : (Value.list [.bytes [], .bytes []]).encoding ++ [] = [0xC2, 0x80, 0x80] := by decide
  rwa [henc] at h

end Zerium.Trie
