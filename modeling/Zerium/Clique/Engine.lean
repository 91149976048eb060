import Zerium.Clique.Voting

/-! # The turn of a signer, and the recency check of the seal

`clique.go` and `snapshot.go` beyond `apply`: `Snapshot.signers` lists the signers in ascending
order of their bytes, `inturn` says whether a signer is the one whose turn a block number is,
`verifySeal` checks the signer of a header against the snapshot at its parent, and `Prepare`
sets the difficulty of a block the node is about to seal by `inturn`.

Addresses are ordered as `bytes.Compare` orders them, a linear order here. `verifySeal` is
taken on the snapshot that `c.snapshot` returns for the parent, which is an argument, and with
the header's difficulty beside the fields `apply` reads. `number % uint64(len(signers))` panics
in Go when there are no signers: `inturn` is `none` there, and so are `verifySeal` and the
difficulty of `Prepare`, which use it.
-/

namespace Zerium.Clique

set_option autoImplicit false

/-- The errors of `verifySeal` besides those `apply` has. -/
inductive SealError where
  | unknownBlock
  | invalidDifficulty
  | clique (e : CliqueError)
deriving DecidableEq, Repr

def diffInTurn : Nat := 2
def diffNoTurn : Nat := 1

namespace Snapshot

variable {α : Type} [LinearOrder α]

/-- `signers`: the signers in ascending order. -/
def signersList (s : Snapshot α) : List α := ascending s.signers

/-- `inturn`: the offset of `signer` among the sorted signers, its length when it is not one,
against the block number modulo the number of signers. -/
def inturn (s : Snapshot α) (number : UInt64) (signer : α) : Option Bool :=
  let signers := s.signersList
  let offset := signers.idxOf signer
  if UInt64.ofNat signers.length = 0 then none
  else some (number % UInt64.ofNat signers.length = UInt64.ofNat offset)

/-- The loop of `verifySeal` over the recent signers: `signer` signed at `seen`, later than the
block `number` shifts out, counted in `uint64`. -/
def signedRecently (s : Snapshot α) (number : UInt64) (signer : α) : Bool :=
  let limit : UInt64 := UInt64.ofNat (s.signers.card / 2 + 1)
  s.recents.any fun r => r.2 = signer && decide (r.1 > number - limit)

/-- `verifySeal` on the snapshot `snap` of the parent of `header`. -/
def verifySeal (ecrecover : Header α → Except CliqueError α) (snap : Snapshot α) (header : Header α)
    (difficulty : Nat) : Option (Except SealError Unit) :=
  let number := header.number
  if number = 0 then some (.error .unknownBlock)
  else
    match ecrecover header with
    | .error e => some (.error (.clique e))
    | .ok signer =>
      if signer ∉ snap.signers then some (.error (.clique .unauthorized))
      else if snap.signedRecently number signer then some (.error (.clique .unauthorized))
      else
        (snap.inturn number signer).map fun inturn =>
          if inturn = true ∧ difficulty ≠ diffInTurn then .error .invalidDifficulty
          else if inturn = false ∧ difficulty ≠ diffNoTurn then .error .invalidDifficulty
          else .ok ()

/-- The difficulty `Prepare` gives the block `number` that `signer` is about to seal on `snap`. -/
def prepareDifficulty (snap : Snapshot α) (number : UInt64) (signer : α) : Option Nat :=
  (snap.inturn number signer).map fun inturn => if inturn then diffInTurn else diffNoTurn

theorem length_signersList (s : Snapshot α) : s.signersList.length = s.signers.card :=
  Finset.length_sort _

theorem signersList_of_sorted {s : Snapshot α} {l : List α} (hs : s.signers = l.toFinset) (hnd : l.Nodup)
    (hl : l.Pairwise (· ≤ ·)) : s.signersList = l := by
  rw [signersList, hs]
  exact (List.toFinset_sort _ hnd).mpr hl

theorem inturn_eq_none_iff (s : Snapshot α) (number : UInt64) (signer : α) :
    s.inturn number signer = none ↔ s.signers.card % 2 ^ 64 = 0 := by
  have hlen : UInt64.ofNat s.signersList.length = 0 ↔ s.signers.card % 2 ^ 64 = 0 := by
    rw [← UInt64.toNat_inj, UInt64.toNat_ofNat', length_signersList]
    rfl
  unfold inturn
  dsimp only
  split
  · rename_i h
    exact iff_of_true rfl (hlen.mp h)
  · rename_i h
    exact iff_of_false (Option.some_ne_none _) (mt hlen.mpr h)

theorem inturn_eq_none_of_signers_eq_empty {s : Snapshot α} (h : s.signers = ∅) (number : UInt64) (signer : α) :
    s.inturn number signer = none := by
  rw [inturn_eq_none_iff, h, Finset.card_empty, Nat.zero_mod]

theorem prepareDifficulty_eq_none_iff (s : Snapshot α) (number : UInt64) (signer : α) :
    s.prepareDifficulty number signer = none ↔ s.signers.card % 2 ^ 64 = 0 := by
  rw [prepareDifficulty, Option.map_eq_none_iff, inturn_eq_none_iff]

theorem signedRecently_eq_false_of_lt {s : Snapshot α} {number : UInt64} (signer : α)
    (hlt : number < UInt64.ofNat (s.signers.card / 2 + 1)) (hkeys : ∀ r ∈ s.recents, r.1 < number) :
    s.signedRecently number signer = false := by
  unfold signedRecently
  rw [List.any_eq_false]
  intro r hr
  have hr₁ := UInt64.lt_iff_toNat_lt.mp (hkeys r hr)
  have hlt' := UInt64.lt_iff_toNat_lt.mp hlt
  have hn : number.toNat < 2 ^ 64 := number.toNat_lt
  have hl : (UInt64.ofNat (s.signers.card / 2 + 1)).toNat < 2 ^ 64 := UInt64.toNat_lt _
  have hwrap : (number - UInt64.ofNat (s.signers.card / 2 + 1)).toNat =
      2 ^ 64 - (UInt64.ofNat (s.signers.card / 2 + 1)).toNat + number.toNat := by
    rw [UInt64.toNat_sub]
    exact Nat.mod_eq_of_lt (by omega)
  have hnot : ¬ r.1 > number - UInt64.ofNat (s.signers.card / 2 + 1) := by
    rw [gt_iff_lt, UInt64.lt_iff_toNat_lt, hwrap]
    omega
  simp only [Bool.and_eq_true, decide_eq_true_eq]
  exact fun h => hnot h.2

theorem verifySeal_ne_unauthorized {ecrecover : Header α → Except CliqueError α} {snap : Snapshot α}
    {header : Header α} {signer : α} (hnum : header.number ≠ 0) (hrec : ecrecover header = .ok signer)
    (hsig : signer ∈ snap.signers) (hrecent : snap.signedRecently header.number signer = false)
    (difficulty : Nat) :
    snap.verifySeal ecrecover header difficulty ≠ some (.error (.clique .unauthorized)) := by
  unfold verifySeal
  rw [if_neg hnum, hrec]
  dsimp only
  rw [if_neg (not_not.mpr hsig), if_neg (by simp [hrecent])]
  intro h
  obtain ⟨b, -, hb⟩ := Option.map_eq_some_iff.mp h
  split_ifs at hb <;> cases hb

omit [LinearOrder α] in
theorem forgetRecent_of_lt {s : Snapshot α} {number : UInt64}
    (hlt : number < UInt64.ofNat (s.signers.card / 2 + 1)) : s.forgetRecent number = s := by
  unfold forgetRecent
  dsimp only
  exact if_neg (UInt64.not_le.mpr hlt)

theorem applyHeader_of_recent {ecrecover : Header α → Except CliqueError α} {epoch : UInt64} {s : Snapshot α}
    {header : Header α} {signer : α} {seen : UInt64}
    (hlt : header.number < UInt64.ofNat (s.signers.card / 2 + 1)) (hrec : ecrecover header = .ok signer)
    (hseen : (seen, signer) ∈ s.recents) :
    s.applyHeader ecrecover epoch header = .error .unauthorized := by
  have hclear : (s.clearVotes epoch header.number).signers = s.signers ∧
      (s.clearVotes epoch header.number).recents = s.recents := by
    unfold clearVotes
    split <;> exact ⟨rfl, rfl⟩
  have hforget := forgetRecent_of_lt (s := s.clearVotes epoch header.number) (hclear.1 ▸ hlt)
  have hany : (s.clearVotes epoch header.number).recents.any (·.2 = signer) = true := by
    rw [hclear.2, List.any_eq_true]
    exact ⟨_, hseen, by simp⟩
  unfold applyHeader
  dsimp only
  rw [hforget, hrec]
  dsimp only
  split_ifs
  · rfl
  · rfl

theorem uncast_signers (s : Snapshot α) (a : α) (b : Bool) : (s.uncast a b).2.signers = s.signers := by
  unfold uncast
  split
  · rfl
  · split_ifs <;> rfl

theorem uncastVotesBy_signers (c : α) (vs : List (Vote α)) :
    ∀ s : Snapshot α, (uncastVotesBy c vs s).signers = s.signers := by
  induction vs with
  | nil => intro s; rfl
  | cons v vs ih =>
    intro s
    rw [uncastVotesBy]
    split
    · rw [ih, uncast_signers]
    · rw [ih]

theorem dropSigner_signers (s : Snapshot α) (number : UInt64) (c : α) :
    (s.dropSigner number c).signers = s.signers.erase c := by
  unfold dropSigner
  dsimp only
  rw [uncastVotesBy_signers]
  exact forgetRecent_signers _ _

theorem passVote_signers_of_drop {s : Snapshot α} {c : α} {k : Nat} (ht : s.tally c = some ⟨false, k⟩)
    (hk : s.signers.card / 2 < k) (number : UInt64) :
    (s.passVote number c).signers = s.signers.erase c := by
  unfold passVote
  rw [ht]
  dsimp only [Option.getD_some]
  rw [if_pos hk, if_neg Bool.false_ne_true]
  exact dropSigner_signers s number c

theorem applyHeader_last_signer_drops (ecrecover : Header α → Except CliqueError α) (epoch : UInt64)
    (config : CliqueConfig) (number : UInt64) (hash : List UInt8) {a : α} {header : Header α}
    (hrec : ecrecover header = .ok a) (hcb : header.coinbase = a) (hnonce : header.nonce = nonceDropVote) :
    ∃ s', (newSnapshot config number hash [a]).applyHeader ecrecover epoch header = .ok s' ∧
      s'.signers = ∅ := by
  set g : Snapshot α := newSnapshot config number hash [a] with hgdef
  -- the genesis has no votes to clear and no recent signer to forget
  have hclear : g.clearVotes epoch header.number = g := by
    unfold clearVotes
    split <;> rfl
  have hforget : g.forgetRecent header.number = g := by
    unfold forgetRecent
    dsimp only
    split <;> rfl
  have hg : (g.clearVotes epoch header.number).forgetRecent header.number = g := by
    rw [hclear, hforget]
  -- the snapshot once the signer is among the recent ones: no vote yet to discard
  set g₁ : Snapshot α := { g with recents := recentsSet g.recents header.number a } with hg₁def
  have hmem : a ∈ g₁.signers := by simp [hg₁def, hgdef, newSnapshot]
  have hcast : g₁.cast a false = (true, { g₁ with tally := Function.update g₁.tally a (some ⟨false, 1⟩) }) :=
    cast_of_tally (by simp [validVote, hmem]) (n := 0) rfl
  have hsig : g₁.signers = {a} := by simp [hg₁def, hgdef, newSnapshot]
  unfold applyHeader
  dsimp only
  rw [hg, hrec]
  dsimp only
  rw [if_neg (not_not.mpr hmem), if_neg (by simp [hgdef, newSnapshot]), hnonce, hcb,
    show voteOf nonceDropVote = some false by decide]
  refine ⟨_, rfl, ?_⟩
  rw [show g₁.discardVote a a = g₁ from rfl, castVote, hcast]
  dsimp only
  rw [passVote_signers_of_drop (k := 1) (by simp) (by simp [hsig]), hsig, Finset.erase_singleton]

theorem apply_singleton (ecrecover : Header α → Except CliqueError α) (headerHash : Header α → List UInt8)
    (s : Snapshot α) {header : Header α} (hnum : header.number = s.number + 1) :
    s.apply ecrecover headerHash [header] =
      (s.applyHeader ecrecover s.config.epoch header).map fun snap =>
        { snap with number := snap.number + 1, hash := headerHash header } := by
  unfold apply
  dsimp only
  rw [if_neg (by simp [linked]), if_neg (not_not.mpr hnum)]
  simp only [applyHeaders]
  cases s.applyHeader ecrecover s.config.epoch header <;> rfl

/-- `verifySeal` and `apply` disagree on a recent signer before block `limit`: `apply` keeps
every recent signer until the block that shifts it out, while `number - limit` in `verifySeal`
wraps for the first blocks, so that its recency check lets the same signer through. -/
theorem verifySeal_recency_diverges_from_apply (ecrecover : Header α → Except CliqueError α)
    (headerHash : Header α → List UInt8) (s : Snapshot α) (header : Header α) (signer : α) (seen : UInt64)
    (hnum : header.number = s.number + 1) (hlt : header.number < UInt64.ofNat (s.signers.card / 2 + 1))
    (hrec : ecrecover header = .ok signer) (hsig : signer ∈ s.signers) (hseen : (seen, signer) ∈ s.recents)
    (hkeys : ∀ r ∈ s.recents, r.1 < header.number) :
    s.apply ecrecover headerHash [header] = .error .unauthorized ∧
      s.signedRecently header.number signer = false ∧
      ∀ difficulty, s.verifySeal ecrecover header difficulty ≠ some (.error (.clique .unauthorized)) := by
  have hrecent := signedRecently_eq_false_of_lt signer hlt hkeys
  have hne : header.number ≠ 0 := by
    intro h0
    have hpos := hkeys _ hseen
    rw [h0] at hpos
    exact UInt64.not_lt_zero hpos
  refine ⟨?_, hrecent, verifySeal_ne_unauthorized hne hrec hsig hrecent⟩
  rw [apply_singleton ecrecover headerHash s hnum, applyHeader_of_recent hlt hrec hseen]
  rfl

/-- Four signers from block `0`; signer `1` seals block `1`, and seals block `2` too: `apply`
rejects block `2`, which `verifySeal` accepts at the difficulty of a signer out of turn. -/
theorem verifySeal_recency_diverges_from_apply_fourSigners :
    ∃ s, Applied (fun _ => .ok 1) (fun _ => []) (newSnapshot ⟨30000, by decide⟩ 0 [] [1, 2, 3, 4]) s ∧
      s.verifySeal (fun _ => .ok 1) ⟨2, 5, nonceAuthVote, []⟩ diffNoTurn = some (.ok ()) ∧
      (s.apply (fun _ => .ok 1) (fun _ => []) [⟨2, 5, nonceAuthVote, []⟩] = .error .unauthorized ∧
        s.signedRecently 2 1 = false ∧
        ∀ difficulty, s.verifySeal (fun _ => .ok 1) ⟨2, 5, nonceAuthVote, []⟩ difficulty ≠
          some (.error (.clique .unauthorized))) :=
by
  refine ⟨_, .apply [⟨1, 5, nonceAuthVote, []⟩] .genesis rfl, ?_,
    verifySeal_recency_diverges_from_apply (fun _ => .ok 1) (fun _ => []) _ ⟨2, 5, nonceAuthVote, []⟩ 1 1
      rfl (by decide) rfl (by decide) (by decide) (by decide)⟩
  -- `Finset.sort` does not reduce: the signers are the sorted list `[1, 2, 3, 4]`
  unfold verifySeal inturn
  rw [signersList_of_sorted (l := [1, 2, 3, 4]) ?_ (by decide) (by decide)]
  · rfl
  · rfl

/-- From any genesis with one signer, the header of the next block in which that signer votes
itself out is applied, and leaves a snapshot with no signers: on it `inturn`, and with it the
difficulty of `Prepare`, computes `number % 0` for every block and signer. -/
theorem inturn_panics_after_last_signer_drops (ecrecover : Header α → Except CliqueError α)
    (headerHash : Header α → List UInt8) (config : CliqueConfig) (number : UInt64) (hash : List UInt8) (a : α)
    (header : Header α) (hnum : header.number = number + 1) (hrec : ecrecover header = .ok a)
    (hcb : header.coinbase = a) (hnonce : header.nonce = nonceDropVote) :
    ∃ s, Applied ecrecover headerHash (newSnapshot config number hash [a]) s ∧ s.signers = ∅ ∧
      ∀ n signer, s.inturn n signer = none ∧ s.prepareDifficulty n signer = none := by
  obtain ⟨s', hs', hempty⟩ := applyHeader_last_signer_drops ecrecover
    (newSnapshot config number hash [a]).config.epoch config number hash hrec hcb hnonce
  have happly := apply_singleton ecrecover headerHash (newSnapshot config number hash [a]) hnum
  rw [hs'] at happly
  refine ⟨_, .apply [header] .genesis happly, hempty, fun n signer =>
    ⟨inturn_eq_none_of_signers_eq_empty hempty n signer, (prepareDifficulty_eq_none_iff _ n signer).mpr ?_⟩⟩
  show s'.signers.card % 2 ^ 64 = 0
  rw [hempty, Finset.card_empty, Nat.zero_mod]

/-- `TestVoting`'s single signer dropping itself, at block `1`. -/
theorem inturn_panics_after_last_signer_drops_single :
    ∃ s, Applied (fun _ => .ok 1) (fun _ => []) (newSnapshot ⟨30000, by decide⟩ 0 [] [1]) s ∧ s.signers = ∅ ∧
      ∀ n signer, s.inturn n signer = none ∧ s.prepareDifficulty n signer = none :=
  inturn_panics_after_last_signer_drops (fun _ => .ok 1) (fun _ => []) ⟨30000, by decide⟩ 0 [] 1
    ⟨1, 1, nonceDropVote, []⟩ rfl rfl rfl rfl

end Snapshot

end Zerium.Clique
