import Zerium.Trie.RunSpec
import Zerium.Trie.TreeUnique

/-! # The trie is a finite map

`mapOf ops` is the map a run of operations leaves: `Update` with a non-empty value writes it,
`Update` with the empty value and `Delete` remove the key, and the other operations leave the
map as it is. Along a run from the empty tree, `Tree.get` at the hex form of a key is that map,
every tree is canonical and holds values only at hex forms of byte keys (`Holds`). A canonical
tree is fixed by its map (`canon_ext`), so two runs that leave one map leave one tree and one
root hash. A run of the trie refines the run of its trees (`run_answers`), so it answers as the
map does.
-/

namespace Zerium.Trie

set_option autoImplicit false

variable (keccak : List UInt8 → List UInt8)

/-! ## The map of a run -/

def applyMap (m : List UInt8 → Option (List UInt8)) : Op → List UInt8 → Option (List UInt8)
  | .update key v => Function.update m key (if v.length ≠ 0 then some v else none)
  | .delete key => Function.update m key none
  | _ => m

def mapOf (ops : List Op) : List UInt8 → Option (List UInt8) :=
  ops.foldl applyMap fun _ => none

theorem keybytesToHex_inj {k key : List UInt8} : keybytesToHex k = keybytesToHex key ↔ k = key := by
  constructor
  · intro h
    have := hexToKeybytes_keybytesToHex k
    rw [h, hexToKeybytes_keybytesToHex] at this
    exact (Option.some.inj this).symm
  · rintro rfl
    rfl

namespace Tree

/-- The tree stands for the map `m` at the hex forms of byte keys, is canonical, and holds no
value at a key of another form. -/
structure Holds (T : Tree) (m : List UInt8 → Option (List UInt8)) : Prop where
  canon : T.CanonRoot
  get : ∀ k, T.get (keybytesToHex k) = m k
  byteKeyed : ∀ k, TermKey k → T.get k ≠ none → ∃ b, k = keybytesToHex b

theorem holds_empty : Holds .empty fun _ => none :=
  ⟨.inl rfl, fun _ => rfl, fun _ _ h => absurd rfl h⟩

theorem CanonRoot.apply {T : Tree} (hT : T.CanonRoot) (op : Op) : (T.apply op).CanonRoot := by
  cases op with
  | update key v =>
    rw [Tree.apply]
    split_ifs with hv
    · exact .inr (canon_insert T _ v (termKey_keybytesToHex key) hT (by simpa using hv))
    · exact canon_delete T _ (termKey_keybytesToHex key) hT
  | delete key => exact canon_delete T _ (termKey_keybytesToHex key) hT
  | get | commit | hash | reset | checkCacheInvariant | setCacheLimit => exact hT

section

variable {T : Tree} {m : List UInt8 → Option (List UInt8)}

theorem fits_keybytesToHex (hT : T.CanonRoot) (key : List UInt8) : T.Fits (keybytesToHex key) :=
  .inr ⟨termKey_keybytesToHex key, hT⟩

theorem Holds.insert (h : Holds T m) (key v : List UInt8) (hv : v ≠ []) :
    Holds (T.insert (keybytesToHex key) v).2 (Function.update m key (some v)) := by
  have hget : ∀ k, TermKey k → (T.insert (keybytesToHex key) v).2.get k =
      if k = keybytesToHex key then some v else T.get k := fun k hk =>
    get_insert T _ v (fits_keybytesToHex h.canon key) k (.inr ⟨termKey_keybytesToHex key, hk⟩)
  refine ⟨.inr (canon_insert T _ v (termKey_keybytesToHex key) h.canon hv), fun k => ?_,
    fun k hk hne => ?_⟩
  · rw [hget _ (termKey_keybytesToHex k), Function.update_apply, h.get]
    simp only [keybytesToHex_inj]
  · rw [hget k hk] at hne
    split_ifs at hne with hkey
    · exact ⟨key, hkey⟩
    · exact h.byteKeyed k hk hne

theorem Holds.delete (h : Holds T m) (key : List UInt8) :
    Holds (T.delete (keybytesToHex key)).2 (Function.update m key none) := by
  have hget : ∀ k, TermKey k → (T.delete (keybytesToHex key)).2.get k =
      if k = keybytesToHex key then none else T.get k := fun k hk =>
    get_delete T _ (fits_keybytesToHex h.canon key) k (.inr ⟨termKey_keybytesToHex key, hk⟩)
  refine ⟨canon_delete T _ (termKey_keybytesToHex key) h.canon, fun k => ?_, fun k hk hne => ?_⟩
  · rw [hget _ (termKey_keybytesToHex k), Function.update_apply, h.get]
    simp only [keybytesToHex_inj]
  · rw [hget k hk] at hne
    split_ifs at hne
    · exact absurd rfl hne
    · exact h.byteKeyed k hk hne

theorem Holds.apply (h : Holds T m) (op : Op) : Holds (T.apply op) (applyMap m op) := by
  cases op with
  | update key v =>
    rw [Tree.apply, applyMap]
    by_cases hv : v.length ≠ 0
    · rw [if_pos hv, if_pos hv]
      exact h.insert key v (by simpa using hv)
    · rw [if_neg hv, if_neg hv]
      exact h.delete key
  | delete key => exact h.delete key
  | get | commit | hash | reset | checkCacheInvariant | setCacheLimit => exact h

theorem Holds.foldl (h : Holds T m) (ops : List Op) :
    Holds (ops.foldl Tree.apply T) (ops.foldl applyMap m) := by
  induction ops generalizing T m with
  | nil => exact h
  | cons op ops ih => exact ih (h.apply op)

theorem Holds.sameMap {T' : Tree} (h : Holds T m) (h' : Holds T' m) : SameMap T T' := by
  intro k hk
  by_cases hb : ∃ b, k = keybytesToHex b
  · obtain ⟨b, rfl⟩ := hb
    rw [h.get, h'.get]
  · -- neither tree holds a value at a key that is no hex form of bytes
    have hnone : ∀ {U : Tree}, Holds U m → U.get k = none := fun hU =>
      Classical.byContradiction fun hne => hb (hU.byteKeyed k hk hne)
    rw [hnone h, hnone h']

theorem Holds.eq {T' : Tree} (h : Holds T m) (h' : Holds T' m) : T = T' :=
  canon_ext T T' h.canon h'.canon (h.sameMap h')

end

theorem getLast_trees (T : Tree) (ops : List Op) :
    (T.trees ops).getLast? = some (ops.foldl Tree.apply T) := by
  induction ops generalizing T with
  | nil => rfl
  | cons op ops ih =>
    rw [trees, List.getLast?_cons, ih]
    rfl

theorem answers_ne_failed {T : Tree} {op : Op} {r : Reply} (h : T.Answers keccak op r)
    (e : TrieError) : r ≠ .failed e := by
  rintro rfl
  cases op <;> simp [Answers] at h

theorem RunAnswers.getElem? {T : Tree} {ops : List Op} {rs : List Reply}
    (h : T.RunAnswers keccak ops rs) {i : Nat} {op : Op} (hi : ops[i]? = some op) :
    ∃ r, rs[i]? = some r ∧ ((ops.take i).foldl Tree.apply T).Answers keccak op r := by
  induction ops generalizing T rs i with
  | nil => simp at hi
  | cons op' ops ih =>
    rcases rs with _ | ⟨r, rs⟩
    · exact absurd h id
    obtain ⟨hr, hrs⟩ := h
    rcases i with _ | i
    · simp only [List.getElem?_cons_zero, Option.some.injEq] at hi
      subst hi
      exact ⟨r, rfl, hr⟩
    · exact ih hrs hi

theorem RunAnswers.length_eq {T : Tree} {ops : List Op} {rs : List Reply}
    (h : T.RunAnswers keccak ops rs) : rs.length = ops.length := by
  induction ops generalizing T rs with
  | nil =>
    rcases rs with _ | _
    · rfl
    · exact absurd h id
  | cons op ops ih =>
    rcases rs with _ | ⟨r, rs⟩
    · exact absurd h id
    · simp [ih h.2]

theorem RunAnswers.ne_failed {T : Tree} {ops : List Op} {rs : List Reply}
    (h : T.RunAnswers keccak ops rs) (e : TrieError) : Reply.failed e ∉ rs := by
  intro hm
  obtain ⟨i, hi, hri⟩ := List.getElem_of_mem hm
  have hops : i < ops.length := h.length_eq keccak ▸ hi
  obtain ⟨r, hr, hans⟩ := h.getElem? keccak (List.getElem?_eq_getElem hops)
  rw [List.getElem?_eq_getElem hi, hri, Option.some.injEq] at hr
  exact answers_ne_failed keccak hans e hr.symm

end Tree

/-! ## Runs of the trie -/

section

variable {keccak} {S : List (List UInt8)} (hk32 : ∀ b, (keccak b).length = 32)
  (hinj : KVStore.HashInjOn keccak S) (hsized : ∀ e ∈ S, e.length < 2 ^ 64)
  (hroots : ∀ e ∈ S, keccak e ≠ emptyRoot ∧ keccak e ≠ zeroHash)
include hk32 hinj hsized hroots

theorem step_spec {t : Trie} {T : Tree} (hrep : Represents keccak S t T) (hT : T.CanonRoot)
    (hS : T.encodings keccak ⊆ S) (op : Op) :
    ∃ r t', t.step keccak op = some (r, t') ∧ T.Answers keccak op r ∧
      Represents keccak S t' (T.apply op) := by
  cases op with
  | update key value =>
    obtain ⟨t', h, hrep'⟩ := TryUpdate_spec hk32 hsized hrep hT key value
    exact ⟨.done, t', by simp [Trie.step, h], rfl, hrep'⟩
  | delete key =>
    obtain ⟨t', h, hrep'⟩ := TryDelete_spec hk32 hsized hrep hT key
    exact ⟨.done, t', by simp [Trie.step, h], rfl, hrep'⟩
  | get key =>
    obtain ⟨t', h, hrep'⟩ := TryGet_spec hk32 hsized hrep hT key
    exact ⟨_, t', by simp [Trie.step, h], rfl, hrep'⟩
  | commit =>
    obtain ⟨t', h, hrep', -⟩ := Commit_spec hk32 hinj hrep hT hS
    exact ⟨_, t', by simp [Trie.step, h], rfl, hrep'⟩
  | hash =>
    obtain ⟨t', h, hrep'⟩ := Hash_spec hk32 hinj hrep hT hS
    exact ⟨_, t', by simp [Trie.step, h], rfl, hrep'⟩
  | reset =>
    obtain ⟨t', h, hrep'⟩ := reset_spec hk32 hinj hsized hrep hT hS
      fun hc => hroots _ (hS (Tree.enc_mem_encodings keccak (Tree.isNode_of_canon hc)))
    exact ⟨_, t', h, rfl, hrep'⟩
  | checkCacheInvariant => exact ⟨_, t, rfl, ⟨_, rfl⟩, hrep⟩
  | setCacheLimit l => exact ⟨.done, { t with cachelimit := l }, rfl, rfl, hrep⟩

theorem run_answers (ops : List Op) : ∀ (t : Trie) (T : Tree), Represents keccak S t T →
    T.CanonRoot → (T.trees ops).flatMap (Tree.encodings keccak) ⊆ S →
    ∃ rs t', t.run keccak ops = some (rs, t') ∧ T.RunAnswers keccak ops rs ∧
      Represents keccak S t' (ops.foldl Tree.apply T) := by
  induction ops with
  | nil => exact fun t T hrep _ _ => ⟨[], t, rfl, trivial, hrep⟩
  | cons op ops ih =>
    intro t T hrep hT hS
    have hhead : T.encodings keccak ⊆ S := fun e he =>
      hS (List.mem_flatMap.2 ⟨T, List.mem_cons_self .., he⟩)
    have htail : ((T.apply op).trees ops).flatMap (Tree.encodings keccak) ⊆ S := fun e he =>
      hS (by rw [Tree.trees, List.flatMap_cons]; exact List.mem_append_right _ he)
    obtain ⟨r, t', hstep, hans, hrep'⟩ := step_spec hk32 hinj hsized hroots hrep hT hhead op
    obtain ⟨rs, t'', hrun, hrans, hrep''⟩ := ih t' (T.apply op) hrep' (hT.apply op) htail
    exact ⟨r :: rs, t'', by simp [Trie.run, hstep, hrun], ⟨hans, hrans⟩, hrep''⟩

end

theorem represents_emptyTrie (S : List (List UInt8)) : Represents keccak S emptyTrie .empty :=
  ⟨[], rfl, fun _ hw => absurd hw List.not_mem_nil, .nil true⟩

theorem encodings_subset_runEncodings (ops : List Op) :
    (ops.foldl Tree.apply .empty).encodings keccak ⊆ runEncodings keccak ops := fun _ he =>
  List.mem_flatMap.2 ⟨_, List.mem_of_getLast? (Tree.getLast_trees .empty ops), he⟩

variable {keccak}

theorem run_of_safe {ops : List Op} (hsafe : RunSafe keccak ops) :
    ∃ rs t, emptyTrie.run keccak ops = some (rs, t) ∧ Tree.empty.RunAnswers keccak ops rs ∧
      Represents keccak (runEncodings keccak ops) t (ops.foldl Tree.apply .empty) :=
  run_answers hsafe.hashLength hsafe.injective hsafe.sized hsafe.notEmpty ops emptyTrie .empty
    (represents_emptyTrie keccak _) (.inl rfl) (List.Subset.refl _)

/-- The trie is a finite map: every `Get` of a run from the empty trie answers the value
written last at its key and not deleted since, and no operation fails. -/
theorem trie_finite_map {ops : List Op} (hsafe : RunSafe keccak ops) :
    ∃ rs t, emptyTrie.run keccak ops = some (rs, t) ∧ rs.length = ops.length ∧
      (∀ i k, ops[i]? = some (Op.get k) → rs[i]? = some (Reply.value (mapOf (ops.take i) k))) ∧
      ∀ e, Reply.failed e ∉ rs := by
  obtain ⟨rs, t, hrun, hans, -⟩ := run_of_safe hsafe
  refine ⟨rs, t, hrun, hans.length_eq keccak, fun i k hi => ?_, hans.ne_failed keccak⟩
  obtain ⟨r, hr, hget⟩ := hans.getElem? keccak hi
  rw [hr, hget, (Tree.holds_empty.foldl (ops.take i)).get k]
  rfl

def padHash (e : List UInt8) : List UInt8 := (e ++ List.replicate 32 0).take 32

theorem padHash_length (e : List UInt8) : (padHash e).length = 32 := by
  simp [padHash]

def twoKeyRun : List Op :=
  [.update [1] [2], .update [2] [3], .get [1], .delete [1], .get [1], .hash, .reset, .get [2]]

theorem runSafe_twoKeyRun : RunSafe padHash twoKeyRun :=
  ⟨padHash_length, by unfold KVStore.HashInjOn; decide, by decide, by decide⟩

theorem trie_finite_map_twoKeyRun :
    RunSafe padHash twoKeyRun ∧
      ∃ rs t, emptyTrie.run padHash twoKeyRun = some (rs, t) ∧ rs.length = twoKeyRun.length ∧
        (∀ i k, twoKeyRun[i]? = some (Op.get k) →
          rs[i]? = some (Reply.value (mapOf (twoKeyRun.take i) k))) ∧
        ∀ e, Reply.failed e ∉ rs :=
  ⟨runSafe_twoKeyRun, trie_finite_map runSafe_twoKeyRun⟩

/-- Two runs that leave one map leave tries with one root hash. -/
theorem Hash_history_independent {ops₁ ops₂ : List Op} (h₁ : RunSafe keccak ops₁)
    (h₂ : RunSafe keccak ops₂) (hmap : mapOf ops₁ = mapOf ops₂) :
    ∃ h rs₁ t₁ rs₂ t₂, emptyTrie.run keccak ops₁ = some (rs₁, t₁) ∧
      emptyTrie.run keccak ops₂ = some (rs₂, t₂) ∧
      (t₁.Hash keccak).map Prod.fst = some h ∧ (t₂.Hash keccak).map Prod.fst = some h := by
  obtain ⟨rs₁, t₁, hrun₁, -, hrep₁⟩ := run_of_safe h₁
  obtain ⟨rs₂, t₂, hrun₂, -, hrep₂⟩ := run_of_safe h₂
  have hT₁ := Tree.holds_empty.foldl ops₁
  have hT₂ := Tree.holds_empty.foldl ops₂
  -- the two runs leave one canonical tree
  have heq : ops₁.foldl Tree.apply .empty = ops₂.foldl Tree.apply .empty :=
    hT₁.eq (by rw [← mapOf, hmap]; exact hT₂)
  obtain ⟨t₁', hh₁, -⟩ := Hash_spec h₁.hashLength h₁.injective hrep₁ hT₁.canon
    (encodings_subset_runEncodings keccak ops₁)
  obtain ⟨t₂', hh₂, -⟩ := Hash_spec h₂.hashLength h₂.injective hrep₂ hT₂.canon
    (encodings_subset_runEncodings keccak ops₂)
  refine ⟨_, rs₁, t₁, rs₂, t₂, hrun₁, hrun₂, by rw [hh₁]; rfl, ?_⟩
  rw [hh₂, ← heq]
  rfl

def twoKeyRun' : List Op :=
  [.update [2] [5], .update [3] [4], .update [1] [2], .update [2] [3], .delete [3], .commit]

theorem runSafe_twoKeyRun' : RunSafe padHash twoKeyRun' :=
  ⟨padHash_length, by unfold KVStore.HashInjOn; decide, by decide, by decide⟩

theorem Hash_history_independent_twoKeyRuns :
    RunSafe padHash [.update [1] [2], .update [2] [3]] ∧ RunSafe padHash twoKeyRun' ∧
      mapOf [.update [1] [2], .update [2] [3]] = mapOf twoKeyRun' ∧
      ∃ h rs₁ t₁ rs₂ t₂, emptyTrie.run padHash [.update [1] [2], .update [2] [3]] = some (rs₁, t₁) ∧
        emptyTrie.run padHash twoKeyRun' = some (rs₂, t₂) ∧
        (t₁.Hash padHash).map Prod.fst = some h ∧ (t₂.Hash padHash).map Prod.fst = some h := by
  have h₁ : RunSafe padHash [.update [1] [2], .update [2] [3]] :=
    ⟨padHash_length, by unfold KVStore.HashInjOn; decide, by decide, by decide⟩
  have hmap : mapOf [.update [1] [2], .update [2] [3]] = mapOf twoKeyRun' := by
    funext k
    simp only [mapOf, twoKeyRun', List.foldl, applyMap, Function.update_apply]
    by_cases h1 : k = [1] <;> by_cases h2 : k = [2] <;> by_cases h3 : k = [3] <;> simp_all
  exact ⟨h₁, runSafe_twoKeyRun', hmap, Hash_history_independent h₁ runSafe_twoKeyRun' hmap⟩

end Zerium.Trie
