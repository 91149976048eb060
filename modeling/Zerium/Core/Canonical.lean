import Zerium.Core.BlockChain

/-! # The canonical index after block writes

`WriteBlockAndState` only ever writes canonical entries: `insert` points the block's number at
it, and `reorg` inserts the new chain down to the common ancestor. Nothing deletes one, so an
entry once written stays over every run of writes (`runWrites_canonical_isSome`). A reorg can
move the head to a lower number, and then the old chain's entries above the new head stay in
the index (`runWrites_canonical_above_head`): `HeaderChain.WriteHeader` deletes them, but
`WriteBlockAndState` does not.
-/

namespace Zerium.Core

set_option autoImplicit false

namespace BlockChain

variable {α τ : Type}

def CanonicalKept (s s' : BlockChain α τ) : Prop :=
  ∀ n, (s.db.canonical n).isSome → (s'.db.canonical n).isSome

theorem CanonicalKept.refl (s : BlockChain α τ) : CanonicalKept s s := fun _ h => h

theorem CanonicalKept.trans (s₁ s₂ s₃ : BlockChain α τ) (h₁ : CanonicalKept s₁ s₂)
    (h₂ : CanonicalKept s₂ s₃) : CanonicalKept s₁ s₃ := fun n h => h₂ n (h₁ n h)

theorem CanonicalKept.of_canonical_eq {s s' : BlockChain α τ}
    (h : s'.db.canonical = s.db.canonical) : CanonicalKept s s' := by
  intro n hn
  rw [h]
  exact hn

theorem CanonicalKept.of_update {s s' : BlockChain α τ} {number : Nat} {hash : α}
    (h : s'.db.canonical = Function.update s.db.canonical number (some hash)) : CanonicalKept s s' := by
  intro n hn
  rw [h]
  by_cases hnum : n = number
  · subst hnum
    rw [Function.update_self]
    rfl
  · rw [Function.update_of_ne hnum]
    exact hn

theorem canonical_foldl_deleteTxLookupEntry [DecidableEq τ] (txs : List τ) (db : ChainDb α τ) :
    (txs.foldl ChainDb.deleteTxLookupEntry db).canonical = db.canonical := by
  induction txs generalizing db with
  | nil => rfl
  | cons tx txs ih => exact ih _

variable [DecidableEq α]

theorem canonical_insert (block : Block α τ) (s : BlockChain α τ) :
    (insert block s).state.db.canonical =
      Function.update s.db.canonical block.number (some block.hash) := by
  unfold insert
  by_cases hu : s.db.canonical block.number = some block.hash
  · simp [hu, ChainDb.writeCanonicalHash]
  · simp [hu, ChainDb.writeCanonicalHash]

theorem insert_keeps (block : Block α τ) : EStateM.Keeps CanonicalKept (insert block) := fun s =>
  CanonicalKept.of_update (canonical_insert block s)

theorem insertChain_keeps [DecidableEq τ] (blocks : List (Block α τ)) :
    EStateM.Keeps CanonicalKept (insertChain blocks) := by
  induction blocks with
  | nil => exact EStateM.Keeps.pure CanonicalKept.refl ()
  | cons block blocks ih =>
    rw [insertChain]
    refine EStateM.Keeps.bind CanonicalKept.trans (insert_keeps block) fun _ => ?_
    exact EStateM.Keeps.bind CanonicalKept.trans
      (EStateM.Keeps.modify fun _ => CanonicalKept.of_canonical_eq rfl) fun _ => ih

theorem reorg_keeps [DecidableEq τ] (oldBlock newBlock : Block α τ) :
    EStateM.Keeps CanonicalKept (reorg oldBlock newBlock) := by
  rw [reorg]
  refine EStateM.Keeps.bind CanonicalKept.trans (EStateM.Keeps.get CanonicalKept.refl) fun bc => ?_
  dsimp only
  -- the walks down to the common block only read; every failure is a `throw`
  split
  · split
    · split
      · exact EStateM.Keeps.throw CanonicalKept.refl _
      · refine EStateM.Keeps.bind CanonicalKept.trans (insertChain_keeps _) fun _ => ?_
        exact EStateM.Keeps.modify fun _ =>
          CanonicalKept.of_canonical_eq (canonical_foldl_deleteTxLookupEntry _ _)
    · exact EStateM.Keeps.throw CanonicalKept.refl _
  · exact EStateM.Keeps.throw CanonicalKept.refl _

theorem WriteBlockAndState_keeps [DecidableEq τ] (coin : Bool) (block : Block α τ) :
    EStateM.Keeps CanonicalKept (WriteBlockAndState coin block) := by
  -- the batch, and the insertion of a canonical block
  have htail : ∀ status : WriteStatus, EStateM.Keeps CanonicalKept (do
      modify fun bc : BlockChain α τ => { bc with db := bc.db.writeBlock block }
      if status = .canonStat then
        modify fun bc : BlockChain α τ => { bc with db := bc.db.writeTxLookupEntries block }
        insert block
      return status) := by
    intro status
    refine EStateM.Keeps.bind CanonicalKept.trans
      (EStateM.Keeps.modify fun _ => CanonicalKept.of_canonical_eq rfl) fun _ => ?_
    refine EStateM.Keeps.ite ?_ (EStateM.Keeps.pure CanonicalKept.refl _)
    refine EStateM.Keeps.bind CanonicalKept.trans
      (EStateM.Keeps.modify fun _ => CanonicalKept.of_canonical_eq rfl) fun _ => ?_
    exact EStateM.Keeps.bind CanonicalKept.trans (insert_keeps block) fun _ =>
      EStateM.Keeps.pure CanonicalKept.refl _
  have hstatus : ∀ status : WriteStatus, EStateM.Keeps CanonicalKept (do
      let status ← (pure status : ChainM α τ WriteStatus)
      modify fun bc : BlockChain α τ => { bc with db := bc.db.writeBlock block }
      if status = .canonStat then
        modify fun bc : BlockChain α τ => { bc with db := bc.db.writeTxLookupEntries block }
        insert block
      return status) := fun status =>
    EStateM.Keeps.bind CanonicalKept.trans (EStateM.Keeps.pure CanonicalKept.refl _) htail
  rw [WriteBlockAndState]
  apply EStateM.Keeps.of_get
  intro bc
  dsimp only
  generalize (if block.number = 0 then none else bc.db.getTd block.parentHash (block.number - 1)) = ptd
  cases ptd with
  | none => exact CanonicalKept.refl _
  | some ptd =>
    -- the total difficulty is written, which leaves the index as it was
    dsimp only
    refine EStateM.Keeps.set_bind_at CanonicalKept.trans (CanonicalKept.of_canonical_eq rfl) ?_
    apply EStateM.Keeps.ite _ (hstatus _)
    apply EStateM.Keeps.ite _ (hstatus _)
    exact EStateM.Keeps.bind CanonicalKept.trans (reorg_keeps _ _) fun _ => hstatus _

def runWrites [DecidableEq τ] (s : BlockChain α τ) : List (Bool × Block α τ) → BlockChain α τ
  | [] => s
  | (coin, block) :: writes => runWrites (WriteBlockAndState coin block s).state writes

theorem runWrites_canonical_isSome [DecidableEq τ] (writes : List (Bool × Block α τ)) :
    ∀ (s : BlockChain α τ) (n : Nat), (s.db.canonical n).isSome →
      ((runWrites s writes).db.canonical n).isSome := by
  induction writes with
  | nil => exact fun _ _ h => h
  | cons write writes ih =>
    intro s n h
    obtain ⟨coin, block⟩ := write
    exact ih _ n (WriteBlockAndState_keeps coin block s n h)

/-! ## A reorg to a lower head -/

def genesis : Block Nat Nat := ⟨⟨0, 0, 0, 1⟩, []⟩

def genesisChain : BlockChain Nat Nat where
  db := { blocks := [genesis], td := [(0, 0, 1)], canonical := fun n => if n = 0 then some 0 else none,
          headBlockHash := some 0, headHeaderHash := some 0, headFastBlockHash := some 0,
          txLookup := fun _ => none }
  currentBlock := genesis
  currentFastBlock := genesis
  currentHeader := genesis.header

/-- Two blocks of difficulty 1 on the genesis, then a sibling of the first of difficulty 3: the
sibling's total difficulty 4 beats the head's 3, the chain reorganises onto it, and the head
moves down to number 1 while number 2 still points at the old head. -/
theorem runWrites_canonical_above_head :
    (runWrites genesisChain
        [(false, ⟨⟨1, 0, 1, 1⟩, []⟩), (false, ⟨⟨2, 1, 2, 1⟩, []⟩), (false, ⟨⟨3, 0, 1, 3⟩, []⟩)]).currentBlock =
        ⟨⟨3, 0, 1, 3⟩, []⟩ ∧
    (runWrites genesisChain
        [(false, ⟨⟨1, 0, 1, 1⟩, []⟩), (false, ⟨⟨2, 1, 2, 1⟩, []⟩), (false, ⟨⟨3, 0, 1, 3⟩, []⟩)]).db.getTd 3 1 =
        some 4 ∧
    (runWrites genesisChain
        [(false, ⟨⟨1, 0, 1, 1⟩, []⟩), (false, ⟨⟨2, 1, 2, 1⟩, []⟩), (false, ⟨⟨3, 0, 1, 3⟩, []⟩)]).db.getTd 2 2 =
        some 3 ∧
    (runWrites genesisChain
        [(false, ⟨⟨1, 0, 1, 1⟩, []⟩), (false, ⟨⟨2, 1, 2, 1⟩, []⟩), (false, ⟨⟨3, 0, 1, 3⟩, []⟩)]).db.canonical 2 =
        some 2 := by
  decide +kernel

end BlockChain

end Zerium.Core
