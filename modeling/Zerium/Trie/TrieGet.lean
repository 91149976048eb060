import Zerium.Trie.DecodeSpec

/-! # Lookups in the trie

`tryGet` follows the key down the nodes and loads hash nodes from the database on the way.
On a node that stands for a tree, it returns what the tree holds at the rest of the key, and a
node that still stands for the tree: the loaded nodes take the place of the hash nodes, with
their cache flags as the decoder sets them.

Each call spends one unit of fuel, a load one more, and every node but a value consumes a
nibble of the key (`walkFuel`), so `pathFuel` is enough for a whole walk from the root.
-/

namespace Zerium.Trie

set_option autoImplicit false

def walkFuel (n : Node) (rest : Nat) : Nat := 2 * rest + if n.isHashNode then 2 else 1

theorem walkFuel_le_pathFuel (n : Node) (key : List UInt8) : walkFuel n key.length ≤ pathFuel key := by
  unfold walkFuel pathFuel
  split <;> omega

theorem walkFuel_pos (n : Node) (rest : Nat) : 1 ≤ walkFuel n rest := by
  unfold walkFuel
  split <;> omega

theorem walkFuel_le (n : Node) (rest : Nat) : walkFuel n rest ≤ 2 * rest + 2 := by
  unfold walkFuel
  split <;> omega

theorem walkFuel_hashNode (h : List UInt8) (rest : Nat) : walkFuel (.hashNode h) rest = 2 * rest + 2 := rfl

theorem walkFuel_of_isHashNode {n : Node} (hn : n.isHashNode = false) (rest : Nat) :
    walkFuel n rest = 2 * rest + 1 := by
  rw [walkFuel, hn]
  rfl

def SmallValues (db : MemDatabase) : Prop := ∀ k v, KVStore.get db k = some v → v.length < 2 ^ 64

theorem termKey_keybytesToHex (str : List UInt8) : TermKey (keybytesToHex str) :=
  ⟨_, nibbles_keybytes str, rfl⟩

variable {keccak : List UInt8 → List UInt8} {db : MemDatabase}

theorem prefix_iff_take {k l : List UInt8} : k <+: l ↔ ¬ (l.length < k.length ∨ k ≠ l.take k.length) := by
  rw [List.prefix_iff_eq_take]
  constructor
  · intro h
    refine not_or.mpr ⟨fun hlt => ?_, not_not.mpr h⟩
    have := congrArg List.length h
    simp only [List.length_take] at this
    omega
  · intro h
    exact not_not.mp (not_or.mp h).2

theorem Tree.Fits.termKey_canon {T : Tree} {key : List UInt8} (h : T.Fits key) (hn : T.isNode = true) :
    TermKey key ∧ T.Canon := by
  rcases h with ⟨-, rfl | ⟨w, rfl⟩⟩ | ⟨hk, rfl | hT⟩
  · cases hn
  · cases hn
  · cases hn
  · exact ⟨hk, hT⟩

theorem tryGet_short_cond (nkey key : List UInt8) (pos : Nat) :
    (key.length - pos < nkey.length ∨ nkey ≠ (key.drop pos).take nkey.length) ↔ ¬ nkey <+: key.drop pos := by
  rw [prefix_iff_take, List.length_drop, not_not]


section

variable (hk32 : ∀ b, (keccak b).length = 32) (hsmall : SmallValues db) {t : Trie} (hdb : t.db = some db)
include hk32 hsmall hdb

theorem resolveHash_spec {top : Bool} {h : List UInt8} {T : Tree} (hs : Stored keccak db top h T)
    (pre : List UInt8) :
    ∃ n, t.resolveHash h pre = some (.ok n) ∧ Expands keccak db top n T ∧ n.isDirty = false ∧
      n.isHashNode = false := by
  obtain ⟨hT, hok, hget, hp⟩ := hs
  have hflags : FlagOk keccak db top ⟨some h, t.cachegen, false⟩ T :=
    ⟨fun h' hh => by cases hh; exact ⟨hok, fun _ => ⟨hget, hp⟩⟩, fun hh => absurd hh (by simp)⟩
  obtain ⟨n, hn, he, hd, hh⟩ :=
    nodeDecodes_of_canon hk32 T hT hp (hsmall _ _ hget) (some h) top hflags []
  rw [List.append_nil] at hn
  refine ⟨n, ?_, he, hd, hh⟩
  simp [Trie.resolveHash, hdb, hget, hn]

theorem resolve_spec {top : Bool} {n : Node} {T : Tree} (he : Expands keccak db top n T) (pre : List UInt8) :
    ∃ n', t.resolve n pre = some (.ok n') ∧ Expands keccak db top n' T ∧ n'.isHashNode = false ∧
      (n.isHashNode = false → n' = n) := by
  cases he with
  | hash top h T hs =>
    obtain ⟨n', hn', he', -, hh'⟩ := resolveHash_spec hk32 hsmall hdb hs pre
    exact ⟨n', hn', he', hh', fun h => absurd h (by simp [Node.isHashNode])⟩
  | nil => exact ⟨_, rfl, .nil _, rfl, fun _ => rfl⟩
  | value top v => exact ⟨_, rfl, .value _ v, rfl, fun _ => rfl⟩
  | short top key val flags T hval hflags hclean =>
    exact ⟨_, rfl, .short top key val flags T hval hflags hclean, rfl, fun _ => rfl⟩
  | full top children flags Ts hch hflags hclean =>
    exact ⟨_, rfl, .full top children flags Ts hch hflags hclean, rfl, fun _ => rfl⟩

/-! ## `tryGet` -/

theorem tryGet_spec : ∀ (fuel : Nat) (n : Node) (T : Tree) (top : Bool) (key : List UInt8) (pos : Nat),
    Expands keccak db top n T → T.Fits (key.drop pos) → walkFuel n (key.length - pos) ≤ fuel →
    ∃ n' r, t.tryGet fuel n key pos = some (.ok (T.get (key.drop pos), n', r)) ∧
      Expands keccak db top n' T ∧ n'.isDirty = n.isDirty := by
  intro fuel
  induction fuel with
  | zero =>
    intro n T top key pos _ _ hfuel
    exact absurd hfuel (by have := walkFuel_pos n (key.length - pos); omega)
  | succ fuel ih =>
    intro n T top key pos he hfit hfuel
    cases he with
    | nil => exact ⟨.nil, false, rfl, .nil top, rfl⟩
    | value top v => exact ⟨.valueNode v, false, rfl, .value top v, rfl⟩
    | short top nkey val flags Tc hval hflags hclean =>
      obtain ⟨hkey, hc⟩ := hfit.termKey_canon rfl
      by_cases hm : nkey <+: key.drop pos
      · -- the whole short key matches: look up the rest of the key in the child
        have hne := hc.key_ne_nil
        have hlen : nkey.length ≤ key.length - pos := by simpa using hm.length_le
        have hlen' : 0 < nkey.length := List.length_pos_iff.mpr hne
        have hfit' : Tc.Fits (key.drop (pos + nkey.length)) := by
          rw [← List.drop_drop]
          exact hc.short_child hm hkey
        have hfuel' : walkFuel val (key.length - (pos + nkey.length)) ≤ fuel := by
          rw [walkFuel_of_isHashNode rfl] at hfuel
          have := walkFuel_le val (key.length - (pos + nkey.length))
          omega
        obtain ⟨n', r, hget, he', hd'⟩ := ih val Tc false key _ hval hfit' hfuel'
        refine ⟨if r then .shortNode nkey n' { flags with gen := t.cachegen } else .shortNode nkey val flags,
          r, ?_, ?_, ?_⟩
        · rw [Trie.tryGet, if_neg ((tryGet_short_cond nkey key pos).not.mpr (not_not.mpr hm)), hget,
            Tree.get_short, if_pos hm, List.drop_drop]
        · cases r
          · exact .short top nkey val flags Tc hval hflags hclean
          · exact .short top nkey n' _ Tc he' (hflags.withGen _) fun hd => hd' ▸ hclean hd
        · cases r <;> rfl
      · refine ⟨.shortNode nkey val flags, false, ?_, .short top nkey val flags Tc hval hflags hclean, rfl⟩
        rw [Trie.tryGet, if_pos ((tryGet_short_cond nkey key pos).mpr hm), Tree.get_short_eq_none Tc hm]
    | full top children flags Ts hch hflags hclean =>
      obtain ⟨hkey, hc⟩ := hfit.termKey_canon rfl
      -- the next nibble of the key picks the slot
      obtain ⟨j, w, hjw, -⟩ := hkey.cons_nib
      have hpos : key[pos]? = some (nib j) := by
        have := congrArg (·[0]?) hjw
        simpa [List.getElem?_drop] using this
      have hfit' : (Ts j).Fits (key.drop (pos + 1)) := by
        rw [← List.drop_drop, hjw]
        exact hc.full_child (hjw ▸ hkey)
      have hlen : key.drop (pos + 1) = w := by rw [← List.drop_drop, hjw]; rfl
      have hlen' : key.length - (pos + 1) = w.length := by rw [← List.length_drop, hlen]
      have hlen'' : key.length - pos = w.length + 1 := by rw [← List.length_drop, hjw]; rfl
      have hfuel' : walkFuel (children j) (key.length - (pos + 1)) ≤ fuel := by
        rw [walkFuel_of_isHashNode rfl] at hfuel
        have := walkFuel_le (children j) (key.length - (pos + 1))
        omega
      obtain ⟨n', r, hget, he', hd'⟩ := ih (children j) (Ts j) false key _ (hch j) hfit' hfuel'
      refine ⟨if r then .fullNode (Function.update children j n') { flags with gen := t.cachegen }
        else .fullNode children flags, r, ?_, ?_, ?_⟩
      · rw [Trie.tryGet]
        simp only [hpos, Option.bind_eq_bind, Option.bind_some, childIndex_nib, hget, hjw,
          Tree.get_full_cons, ← hlen]
      · cases r
        · exact .full top children flags Ts hch hflags hclean
        · have hch' := Expands.update hch he' j
          rw [Function.update_eq_self] at hch'
          exact .full top _ _ Ts hch' (hflags.withGen _) fun hd =>
            isDirty_update (hclean hd) (hd'.trans (hclean hd j)) j
      · cases r <;> rfl
    | hash top h T hs =>
      -- load the node and walk on from it, at the same position of the key
      obtain ⟨rn, hrn, he', hd, hh⟩ := resolveHash_spec hk32 hsmall hdb hs (key.take pos)
      have hfuel' : walkFuel rn (key.length - pos) ≤ fuel := by
        rw [walkFuel_hashNode] at hfuel
        rw [walkFuel_of_isHashNode hh]
        omega
      obtain ⟨n', r, hget, he'', hd'⟩ := ih rn T top key pos he' hfit hfuel'
      refine ⟨n', true, ?_, he'', hd'.trans hd⟩
      simp only [Trie.tryGet, hrn, hget]

end

end Zerium.Trie
