import Zerium.Trie.Run
import Zerium.Trie.HasherSpec
import Zerium.Trie.TrieUpdate

/-! # Runs refine runs of the abstract trie

A run of the trie follows a run of `Tree`: every operation does to the tree what `Tree.apply`
says, and answers what the tree says (`Tree.Answers`). The trie over its database stands for
the tree throughout (`Represents`): the root expands to the tree, with the cache invariant of
`Expand`, and the database holds encodings of the run under their hashes.

What the proofs assume of Keccak-256 is collected in `RunSafe`, about the encodings of the
trees of the run alone, so that it can be checked on any given run: hashes of 32 bytes, no two
encodings with one hash, no root hash that `New` would take for the empty trie, and no
encoding too long for an RLP header.
-/

namespace Zerium.Trie

set_option autoImplicit false

variable (keccak : List UInt8 → List UInt8)

/-! ## The abstract run -/

namespace Tree

def apply (T : Tree) : Op → Tree
  | .update key v =>
    if v.length ≠ 0 then (T.insert (keybytesToHex key) v).2 else (T.delete (keybytesToHex key)).2
  | .delete key => (T.delete (keybytesToHex key)).2
  | _ => T

def trees (T : Tree) : List Op → List Tree
  | [] => [T]
  | op :: ops => T :: (T.apply op).trees ops

def Answers (T : Tree) : Op → Reply → Prop
  | .get key, r => r = .value (T.get (keybytesToHex key))
  | .commit, r | .hash, r | .reset, r => r = .root (T.rootHash keccak)
  | .checkCacheInvariant, r => ∃ ok, r = .invariant ok
  | _, r => r = .done

def RunAnswers : Tree → List Op → List Reply → Prop
  | _, [], [] => True
  | T, op :: ops, r :: rs => T.Answers keccak op r ∧ RunAnswers (T.apply op) ops rs
  | _, _, _ => False

end Tree

def runEncodings (ops : List Op) : List (List UInt8) :=
  (Tree.empty.trees ops).flatMap (Tree.encodings keccak)

/-- What the run needs of the hash function, on the encodings of the run. -/
structure RunSafe (ops : List Op) : Prop where
  hashLength : ∀ b, (keccak b).length = 32
  injective : KVStore.HashInjOn keccak (runEncodings keccak ops)
  notEmpty : ∀ e ∈ runEncodings keccak ops, keccak e ≠ emptyRoot ∧ keccak e ≠ zeroHash
  sized : ∀ e ∈ runEncodings keccak ops, e.length < 2 ^ 64

/-- The trie stands for `T`: its root expands to `T` over its database, which holds values of
`S` under their hashes. -/
def Represents (S : List (List UInt8)) (t : Trie) (T : Tree) : Prop :=
  ∃ db, t.db = some db ∧ KVStore.ContentAddressed keccak S db ∧ Expands keccak db true t.root T

/-! ## The operations of the API -/

theorem New_of_resolveHash {root : List UInt8} {db : MemDatabase} {n : Node} (hz : root ≠ zeroHash)
    (he : root ≠ emptyRoot)
    (hn : ({ root := .nil, db := some db, originalRoot := root, cachegen := 0, cachelimit := 0 } : Trie).resolveHash
      root [] = some (.ok n)) :
    New root (some db) = some (.ok { root := n, db := some db, originalRoot := root, cachegen := 0, cachelimit := 0 }) := by
  simp [New, hz, he, hn]

section

variable {keccak} {S : List (List UInt8)} (hk32 : ∀ b, (keccak b).length = 32)
  (hinj : KVStore.HashInjOn keccak S) (hsized : ∀ e ∈ S, e.length < 2 ^ 64)

include hsized in
theorem smallValues_of_contentAddressed {db : MemDatabase} (hca : KVStore.ContentAddressed keccak S db) :
    SmallValues db :=
  fun _ _ h => hsized _ (hca _ (KVStore.mem_of_get h)).2

include hk32 in
theorem bytesToHash_keccak (e : List UInt8) : bytesToHash (keccak e) = keccak e :=
  bytesToHash_of_length _ (hk32 e)

theorem bytesToHash_emptyRoot : bytesToHash emptyRoot = emptyRoot := by decide

include hk32 hsized

theorem TryGet_spec {t : Trie} {T : Tree} (hrep : Represents keccak S t T) (hT : T.CanonRoot)
    (key : List UInt8) :
    ∃ t', t.TryGet key = some (.ok (T.get (keybytesToHex key)), t') ∧ Represents keccak S t' T := by
  obtain ⟨db, hdb, hca, he⟩ := hrep
  have hfit : T.Fits (keybytesToHex key) := .inr ⟨termKey_keybytesToHex key, hT⟩
  obtain ⟨n', r, hget, he', -⟩ :=
    tryGet_spec hk32 (smallValues_of_contentAddressed hsized hca) hdb (pathFuel (keybytesToHex key)) t.root T true
      (keybytesToHex key) 0 he hfit (walkFuel_le_pathFuel _ _)
  refine ⟨if r then { t with root := n' } else t, by simp [Trie.TryGet, hget], ?_⟩
  cases r
  · exact ⟨db, hdb, hca, he⟩
  · exact ⟨db, hdb, hca, he'⟩

theorem TryUpdate_spec {t : Trie} {T : Tree} (hrep : Represents keccak S t T) (hT : T.CanonRoot)
    (key value : List UInt8) :
    ∃ t', t.TryUpdate key value = some (.ok (), t') ∧ Represents keccak S t' (T.apply (.update key value)) := by
  obtain ⟨db, hdb, hca, he⟩ := hrep
  have hsmall := smallValues_of_contentAddressed hsized hca
  have hfit : T.Fits (keybytesToHex key) := .inr ⟨termKey_keybytesToHex key, hT⟩
  by_cases hv : value.length ≠ 0
  · -- a value is inserted
    obtain ⟨n', hins, he'⟩ := insert_spec hk32 hsmall hdb value (pathFuel (keybytesToHex key)) t.root T true []
      (keybytesToHex key) he hfit (walkFuel_le_pathFuel _ _)
    refine ⟨{ t with root := n' }, by simp [Trie.TryUpdate, hv, hins], db, hdb, hca, ?_⟩
    rw [Tree.apply, if_pos hv]
    exact he'
  · -- the empty value deletes the key
    obtain ⟨n', hdel, he', -⟩ := delete_spec hk32 hsmall hdb (pathFuel (keybytesToHex key)) t.root T true []
      (keybytesToHex key) he hfit (walkFuel_le_pathFuel _ _)
    refine ⟨{ t with root := n' }, by simp [Trie.TryUpdate, hv, hdel], db, hdb, hca, ?_⟩
    rw [Tree.apply, if_neg hv]
    exact he'

theorem TryDelete_spec {t : Trie} {T : Tree} (hrep : Represents keccak S t T) (hT : T.CanonRoot)
    (key : List UInt8) :
    ∃ t', t.TryDelete key = some (.ok (), t') ∧ Represents keccak S t' (T.apply (.delete key)) := by
  obtain ⟨db, hdb, hca, he⟩ := hrep
  obtain ⟨n', hdel, he', -⟩ := delete_spec hk32 (smallValues_of_contentAddressed hsized hca) hdb
    (pathFuel (keybytesToHex key)) t.root T true [] (keybytesToHex key) he
    (.inr ⟨termKey_keybytesToHex key, hT⟩) (walkFuel_le_pathFuel _ _)
  exact ⟨{ t with root := n' }, by simp [Trie.TryDelete, hdel], db, hdb, hca, he'⟩

include hinj

omit hk32 hsized in
theorem hashRoot_spec {db : MemDatabase} (hca : KVStore.ContentAddressed keccak S db) {t : Trie} {T : Tree}
    (he : Expands keccak db true t.root T) (hT : T.CanonRoot) (hS : T.encodings keccak ⊆ S) (storing : Bool) :
    ∃ cached w, t.hashRoot keccak storing = some (.hashNode (T.rootHash keccak), cached, w) ∧
      Expands keccak (KVStore.putAll db w) true cached T ∧ KVStore.ContentAddressed keccak S w ∧
      (storing = false → w = []) ∧
      (storing = true → T.Canon → InDb keccak (KVStore.putAll db w) (keccak (T.enc keccak)) T) := by
  rcases hT with rfl | hT
  · -- the empty trie hashes to `emptyRoot` with nothing to write
    obtain hnil := he.eq_nil
    refine ⟨.nil, [], by simp [Trie.hashRoot, hnil, Tree.rootHash], .nil true, .nil, fun _ => rfl,
      fun _ h => absurd h (by simp [Tree.Canon])⟩
  · have hroot : t.root ≠ .nil := he.ne_nil hT
    obtain ⟨r, hr, hspec⟩ := hash_spec t.cachegen t.cachelimit hinj hca he hT hS storing
    have hrh : T.rootHash keccak = keccak (T.enc keccak) := by
      cases T <;> first | rfl | exact absurd hT (by simp [Tree.Canon])
    refine ⟨r.2.1, r.2.2, ?_, hspec.cached, hspec.writes.mono hS, hspec.nowrite, fun hs _ => ?_⟩
    · rw [Trie.hashRoot, hrh, ← hspec.root rfl]
      split
      · exact absurd ‹_› hroot
      · exact hr
    · obtain ⟨hp, hget⟩ := hspec.stored hs
      exact ⟨hget (.inl rfl), hp⟩

omit hsized in
theorem Hash_spec {t : Trie} {T : Tree} (hrep : Represents keccak S t T) (hT : T.CanonRoot)
    (hS : T.encodings keccak ⊆ S) :
    ∃ t', t.Hash keccak = some (T.rootHash keccak, t') ∧ Represents keccak S t' T := by
  obtain ⟨db, hdb, hca, he⟩ := hrep
  obtain ⟨cached, w, hh, he', -, hnow, -⟩ := hashRoot_spec hinj hca he hT hS false
  obtain rfl := hnow rfl
  refine ⟨{ t with root := cached }, ?_, db, hdb, hca, he'⟩
  have hbytes : bytesToHash (T.rootHash keccak) = T.rootHash keccak := by
    cases T with
    | empty => exact bytesToHash_emptyRoot
    | _ => exact bytesToHash_keccak hk32 _
  simp [Trie.Hash, hh, hbytes]

omit hsized in
theorem Commit_spec {t : Trie} {T : Tree} (hrep : Represents keccak S t T) (hT : T.CanonRoot)
    (hS : T.encodings keccak ⊆ S) :
    ∃ t', t.Commit keccak = some (T.rootHash keccak, t') ∧ Represents keccak S t' T ∧
      ∀ db, t'.db = some db → T.Canon → InDb keccak db (keccak (T.enc keccak)) T := by
  obtain ⟨db, hdb, hca, he⟩ := hrep
  obtain ⟨cached, w, hh, he', hw, -, hin⟩ := hashRoot_spec hinj hca he hT hS true
  have hbytes : bytesToHash (T.rootHash keccak) = T.rootHash keccak := by
    cases T with
    | empty => exact bytesToHash_emptyRoot
    | _ => exact bytesToHash_keccak hk32 _
  refine ⟨{ t with root := cached, cachegen := t.cachegen + 1, db := some (KVStore.putAll db w) }, ?_,
    ⟨_, rfl, hca.after_putAll hw, he'⟩, fun db' hdb' hc => ?_⟩
  · simp [Trie.Commit, hdb, Trie.CommitTo, hh, hbytes]
  · cases hdb'
    exact hin rfl hc

theorem reset_spec {t : Trie} {T : Tree} (hrep : Represents keccak S t T) (hT : T.CanonRoot)
    (hS : T.encodings keccak ⊆ S) (hroot : T.Canon → keccak (T.enc keccak) ≠ emptyRoot ∧ keccak (T.enc keccak) ≠ zeroHash) :
    ∃ t', t.step keccak .reset = some (.root (T.rootHash keccak), t') ∧ Represents keccak S t' T := by
  obtain ⟨t', hc, ⟨db, hdb, hca, he⟩, hin⟩ := Commit_spec hk32 hinj hrep hT hS
  rcases hT with rfl | hT
  · -- the empty root opens as the empty trie
    refine ⟨{ root := .nil, db := t'.db, originalRoot := emptyRoot, cachegen := 0, cachelimit := 0 }, ?_,
      db, hdb, hca, .nil true⟩
    simp [Trie.step, hc, Tree.rootHash, New, hdb]
  · have hrh : T.rootHash keccak = keccak (T.enc keccak) := by
      cases T <;> first | rfl | exact absurd hT (by simp [Tree.Canon])
    obtain ⟨hne, hnz⟩ := hroot hT
    let t₀ : Trie := { root := .nil, db := some db, originalRoot := keccak (T.enc keccak), cachegen := 0, cachelimit := 0 }
    have hs : Stored keccak db true (keccak (T.enc keccak)) T := ⟨hT, ⟨rfl, fun h => absurd h (by simp)⟩, hin db hdb hT⟩
    obtain ⟨n, hn, he', -, -⟩ := resolveHash_spec (t := t₀) hk32 (smallValues_of_contentAddressed hsized hca) rfl hs []
    refine ⟨{ t₀ with root := n }, ?_, db, rfl, hca, he'⟩
    simp only [Trie.step, hc, hrh, hdb, New_of_resolveHash hnz hne hn]
    rfl

end

end Zerium.Trie
