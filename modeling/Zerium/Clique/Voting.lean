import Zerium.Clique.Snapshot

/-! # The vote bookkeeping of Clique

The tally of a snapshot is a cache: for every account it holds what counting the votes on the
account gives (`tallyOf`), no entry for an account without votes. Every vote is one that
`validVote` admits for the current signers, so all the votes on an account go one way, the way
`cast` counts. No signer has two votes on one account, and only signers have votes.

`Snapshot.Consistent` collects these facts. Each part of the loop body of `apply` keeps it:
`discardVote` leaves no vote of the signer on the coinbase, which `castVote` needs to append
one, and `passVote` discards the votes around an account whose status changed, together with
the votes of a dropped signer. The tally facts are stated for a given signer set `S`, since
the loop of `passVote` that uncasts the votes of a dropped signer runs after the signer is
gone, against a tally counted for the signers before.
-/

namespace Zerium.Clique

set_option autoImplicit false

variable {α : Type} [DecidableEq α]

def votesOn (votes : List (Vote α)) (a : α) : Nat := votes.countP fun v => v.address = a

def tallyOf (S : Finset α) (votes : List (Vote α)) (a : α) : Option Tally :=
  if votesOn votes a = 0 then none else some ⟨decide (a ∉ S), votesOn votes a⟩

def Proposes (S : Finset α) (v : Vote α) : Prop := v.authorize = decide (v.address ∉ S)

/-- The cached tally is the tally of the votes, and every vote proposes a change, for the
signers `S`. -/
structure TallyOk (S : Finset α) (votes : List (Vote α)) (tally : α → Option Tally) : Prop where
  tally_eq : ∀ a, tally a = tallyOf S votes a
  proposes : ∀ v ∈ votes, Proposes S v

theorem votesOn_middle (as bs : List (Vote α)) (v : Vote α) (a : α) :
    votesOn (as ++ v :: bs) a = votesOn (as ++ bs) a + if v.address = a then 1 else 0 := by
  simp only [votesOn, List.countP_append, List.countP_cons, decide_eq_true_eq]
  omega

theorem votesOn_append_singleton (votes : List (Vote α)) (v : Vote α) (a : α) :
    votesOn (votes ++ [v]) a = votesOn votes a + if v.address = a then 1 else 0 := by
  simpa using votesOn_middle votes [] v a

theorem votesOn_filter_self (votes : List (Vote α)) (c : α) :
    votesOn (votes.filter fun v => v.address ≠ c) c = 0 := by
  simp [votesOn, List.countP_filter]

theorem votesOn_filter_of_ne (votes : List (Vote α)) {a c : α} (h : a ≠ c) :
    votesOn (votes.filter fun v => v.address ≠ c) a = votesOn votes a := by
  simp only [votesOn, List.countP_filter]
  congr 1
  funext v
  by_cases hv : v.address = a
  · subst hv
    simp [h]
  · simp [hv]

theorem tallyOf_middle_of_ne {S : Finset α} (as bs : List (Vote α)) {v : Vote α} {a : α}
    (h : v.address ≠ a) : tallyOf S (as ++ v :: bs) a = tallyOf S (as ++ bs) a := by
  rw [tallyOf, tallyOf, votesOn_middle, if_neg h, Nat.add_zero]

theorem Proposes.of_validVote {s : Snapshot α} {v : Vote α} (h : s.validVote v.address v.authorize = true) :
    Proposes s.signers v := by
  unfold Snapshot.validVote at h
  unfold Proposes
  by_cases ha : v.address ∈ s.signers <;> cases hv : v.authorize <;> simp_all

theorem Proposes.validVote {s : Snapshot α} {v : Vote α} (h : Proposes s.signers v) :
    s.validVote v.address v.authorize = true := by
  unfold Proposes at h
  rw [Snapshot.validVote, h]
  by_cases ha : v.address ∈ s.signers <;> simp [ha]

theorem Proposes.congr {S S' : Finset α} {c : α} (hS : ∀ a, a ≠ c → (a ∈ S' ↔ a ∈ S)) {v : Vote α}
    (hv : Proposes S v) (hc : v.address ≠ c) : Proposes S' v := by
  unfold Proposes at hv ⊢
  rw [hv]
  exact decide_eq_decide.mpr (not_congr (hS _ hc).symm)

theorem TallyOk.filter {S S' : Finset α} {votes : List (Vote α)} {tally : α → Option Tally} {c : α}
    (h : TallyOk S votes tally) (hS : ∀ a, a ≠ c → (a ∈ S' ↔ a ∈ S)) :
    TallyOk S' (votes.filter fun v => v.address ≠ c) (Function.update tally c none) := by
  refine ⟨fun a => ?_, fun v hv => ?_⟩
  · by_cases ha : a = c
    · subst ha
      rw [Function.update_self, tallyOf, if_pos (votesOn_filter_self votes a)]
    · have hdec : decide (a ∉ S) = decide (a ∉ S') := decide_eq_decide.mpr (not_congr (hS a ha).symm)
      rw [Function.update_of_ne ha, h.tally_eq, tallyOf, tallyOf, votesOn_filter_of_ne votes ha, hdec]
  · have hv' := List.mem_filter.mp hv
    exact (h.proposes v hv'.1).congr hS (by simpa using hv'.2)

namespace Snapshot

theorem uncast_of_tally {s : Snapshot α} {a : α} {b : Bool} {n : Nat} (hs : s.tally a = some ⟨b, n + 1⟩) :
    (s.uncast a b).2 = { s with tally := Function.update s.tally a (if n = 0 then none else some ⟨b, n⟩) } := by
  unfold uncast
  rw [hs]
  by_cases hn : n = 0
  · simp [hn]
  · have hlt : 1 < n + 1 := by omega
    simp [hn, hlt]

theorem cast_of_tally {s : Snapshot α} {a : α} {b : Bool} (hv : s.validVote a b = true) {n : Nat}
    (hs : s.tally a = if n = 0 then none else some ⟨b, n⟩) :
    s.cast a b = (true, { s with tally := Function.update s.tally a (some ⟨b, n + 1⟩) }) := by
  unfold cast
  rw [hv]
  by_cases hn : n = 0
  · rw [if_pos hn] at hs
    simp [hs, hn]
  · rw [if_neg hn] at hs
    simp [hs]

theorem cast_of_not_validVote {s : Snapshot α} {a : α} {b : Bool} (hv : s.validVote a b = false) :
    s.cast a b = (false, s) := by
  simp [cast, hv]

/-- The tally, votes and signers are all that `Consistent` reads. -/
structure Consistent (s : Snapshot α) : Prop where
  tallyOk : TallyOk s.signers s.votes s.tally
  unique : (s.votes.map fun v => (v.signer, v.address)).Nodup
  signed : ∀ v ∈ s.votes, v.signer ∈ s.signers

theorem Consistent.of_eq {s s' : Snapshot α} (h : s.Consistent) (hsig : s'.signers = s.signers)
    (hvotes : s'.votes = s.votes) (htally : s'.tally = s.tally) : s'.Consistent := by
  refine ⟨?_, ?_, ?_⟩
  · rw [hsig, hvotes, htally]
    exact h.tallyOk
  · rw [hvotes]
    exact h.unique
  · rw [hsig, hvotes]
    exact h.signed

theorem newSnapshot_consistent (config : CliqueConfig) (number : UInt64) (hash : List UInt8) (signers : List α) :
    (newSnapshot config number hash signers).Consistent :=
  ⟨⟨fun _ => rfl, fun _ h => absurd h List.not_mem_nil⟩, List.nodup_nil, fun _ h => absurd h List.not_mem_nil⟩

theorem Consistent.clearVotes {s : Snapshot α} (h : s.Consistent) (epoch number : UInt64) :
    (s.clearVotes epoch number).Consistent := by
  unfold Snapshot.clearVotes
  split
  · exact ⟨⟨fun _ => rfl, fun _ h => absurd h List.not_mem_nil⟩, List.nodup_nil, fun _ h => absurd h List.not_mem_nil⟩
  · exact h

omit [DecidableEq α] in
@[simp] theorem forgetRecent_signers (s : Snapshot α) (number : UInt64) : (s.forgetRecent number).signers = s.signers := by
  unfold forgetRecent
  dsimp only
  split <;> rfl

omit [DecidableEq α] in
@[simp] theorem forgetRecent_votes (s : Snapshot α) (number : UInt64) : (s.forgetRecent number).votes = s.votes := by
  unfold forgetRecent
  dsimp only
  split <;> rfl

omit [DecidableEq α] in
@[simp] theorem forgetRecent_tally (s : Snapshot α) (number : UInt64) : (s.forgetRecent number).tally = s.tally := by
  unfold forgetRecent
  dsimp only
  split <;> rfl

theorem TallyOk.uncast {s : Snapshot α} {S : Finset α} {as bs : List (Vote α)} {v : Vote α}
    (h : TallyOk S (as ++ v :: bs) s.tally) :
    (s.uncast v.address v.authorize).2 = { s with tally := (s.uncast v.address v.authorize).2.tally } ∧
      TallyOk S (as ++ bs) (s.uncast v.address v.authorize).2.tally := by
  have hprop : Proposes S v := h.proposes v (by simp)
  have hs : s.tally v.address = some ⟨v.authorize, votesOn (as ++ bs) v.address + 1⟩ := by
    rw [h.tally_eq, tallyOf, votesOn_middle, if_pos rfl, if_neg (Nat.succ_ne_zero _), ← hprop]
  rw [uncast_of_tally hs]
  refine ⟨rfl, fun a => ?_, fun w hw => h.proposes w ?_⟩
  · -- the entry of the account voted on counts one vote less
    dsimp only
    by_cases ha : a = v.address
    · subst ha
      rw [Function.update_self, tallyOf, ← hprop]
    · rw [Function.update_of_ne ha, h.tally_eq, tallyOf_middle_of_ne as bs (Ne.symm ha)]
  · rcases List.mem_append.mp hw with hw | hw
    · exact List.mem_append_left _ hw
    · exact List.mem_append_right _ (List.mem_cons_of_mem _ hw)

theorem Consistent.discardVote {s : Snapshot α} (h : s.Consistent) (signer c : α) :
    (s.discardVote signer c).Consistent ∧ (s.discardVote signer c).signers = s.signers ∧
      ∀ v ∈ (s.discardVote signer c).votes, ¬ (v.signer = signer ∧ v.address = c) := by
  unfold Snapshot.discardVote
  dsimp only
  split
  · rename_i hfind
    exact ⟨h, rfl, fun v hv hp => List.find?_eq_none.mp hfind v hv (by simpa using hp)⟩
  · rename_i vote hfind
    obtain ⟨hp, as, bs, hvotes, has⟩ := List.find?_eq_some_iff_append.mp hfind
    simp only [decide_eq_true_eq] at hp
    obtain ⟨rfl, rfl⟩ := hp
    have has' : ∀ b ∈ as, ¬ (b.signer = vote.signer ∧ b.address = vote.address) :=
      fun b hb hb' => by simpa [hb'.1, hb'.2] using has b hb
    have herase : s.votes.eraseP (fun v => decide (v.signer = vote.signer ∧ v.address = vote.address)) = as ++ bs := by
      rw [hvotes, List.eraseP_append_right _ (fun b hb => by simpa using has' b hb), List.eraseP_cons_of_pos (by simp)]
    have hsub : List.Sublist (as ++ bs) s.votes := hvotes ▸ (List.Sublist.refl as).append (List.sublist_cons_self _ _)
    obtain ⟨heq, hok⟩ := TallyOk.uncast (hvotes ▸ h.tallyOk : TallyOk s.signers (as ++ vote :: bs) s.tally)
    have hnodup := h.unique
    rw [hvotes, List.map_append, List.map_cons, List.nodup_append, List.nodup_cons] at hnodup
    rw [heq, herase]
    refine ⟨⟨hok, (hsub.map _).nodup h.unique, fun v hv => h.signed v (hsub.subset hv)⟩, rfl, ?_⟩
    rintro v hv ⟨hsig, haddr⟩
    rcases List.mem_append.mp hv with hv | hv
    · exact has' v hv ⟨hsig, haddr⟩
    · exact hnodup.2.1.1 (List.mem_map.mpr ⟨v, hv, by rw [hsig, haddr]⟩)

theorem Consistent.castVote {s : Snapshot α} (h : s.Consistent) {signer c : α} (hsig : signer ∈ s.signers)
    (hnew : ∀ v ∈ s.votes, ¬ (v.signer = signer ∧ v.address = c)) (number : UInt64) (b : Bool) :
    (s.castVote signer number c b).Consistent := by
  cases hv : s.validVote c b with
  | false =>
    rw [Snapshot.castVote, cast_of_not_validVote hv]
    exact h
  | true =>
    have hprop : Proposes s.signers ⟨signer, number, c, b⟩ := Proposes.of_validVote hv
    have hb : b = decide (c ∉ s.signers) := hprop
    have hs : s.tally c = if votesOn s.votes c = 0 then none else some ⟨b, votesOn s.votes c⟩ := by
      rw [h.tallyOk.tally_eq, tallyOf, ← hb]
    rw [Snapshot.castVote, cast_of_tally hv hs]
    dsimp only
    refine ⟨⟨fun a => ?_, fun v hv => ?_⟩, ?_, fun v hv => ?_⟩
    · -- the entry of the account voted on counts the new vote
      dsimp only
      by_cases ha : a = c
      · subst ha
        rw [Function.update_self, tallyOf, votesOn_append_singleton, if_pos rfl, if_neg (Nat.succ_ne_zero _), ← hb]
      · rw [Function.update_of_ne ha, h.tallyOk.tally_eq, tallyOf, tallyOf, votesOn_append_singleton,
          if_neg (Ne.symm ha), Nat.add_zero]
    · rcases List.mem_append.mp hv with hv | hv
      · exact h.tallyOk.proposes v hv
      · exact List.mem_singleton.mp hv ▸ hprop
    · rw [List.map_append, List.nodup_append]
      refine ⟨h.unique, List.nodup_singleton _, ?_⟩
      rintro _ hx _ hy rfl
      obtain ⟨v, hv, hveq⟩ := List.mem_map.mp hx
      rw [List.map_singleton, List.mem_singleton] at hy
      exact hnew v hv (Prod.mk.inj (hveq.trans hy))
    · rcases List.mem_append.mp hv with hv | hv
      · exact h.signed v hv
      · rw [List.mem_singleton.mp hv]
        exact hsig

theorem uncastVotesBy_spec {S : Finset α} (c : α) (vs : List (Vote α)) :
    ∀ s : Snapshot α, TallyOk S (s.votes ++ vs) s.tally →
      (uncastVotesBy c vs s).votes = s.votes ++ vs.filter (fun v => v.signer ≠ c) ∧
      TallyOk S (uncastVotesBy c vs s).votes (uncastVotesBy c vs s).tally ∧
      (uncastVotesBy c vs s).signers = s.signers := by
  induction vs with
  | nil =>
    intro s h
    rw [List.append_nil] at h
    exact ⟨by simp [uncastVotesBy], h, rfl⟩
  | cons v vs ih =>
    intro s h
    by_cases hv : v.signer = c
    · -- the vote of `c` is uncast and dropped
      obtain ⟨heq, hok⟩ := TallyOk.uncast h
      rw [uncastVotesBy, if_pos hv]
      rw [heq] at hok ⊢
      obtain ⟨hvotes, hok', hsig⟩ := ih { s with tally := (s.uncast v.address v.authorize).2.tally } hok
      exact ⟨by rw [hvotes, List.filter_cons_of_neg (by simpa using hv)], hok', hsig⟩
    · -- any other vote is kept
      rw [uncastVotesBy, if_neg hv]
      obtain ⟨hvotes, hok', hsig⟩ := ih { s with votes := s.votes ++ [v] } (by simpa using h)
      exact ⟨by rw [hvotes, List.filter_cons_of_pos (by simpa using hv)]; simp, hok', hsig⟩

theorem consistent_discardAround {s : Snapshot α} {S : Finset α} {c : α} (htally : TallyOk S s.votes s.tally)
    (hS : ∀ a, a ≠ c → (a ∈ s.signers ↔ a ∈ S)) (hunique : (s.votes.map fun v => (v.signer, v.address)).Nodup)
    (hsigned : ∀ v ∈ s.votes, v.signer ∈ s.signers) :
    ({ s with votes := s.votes.filter (·.address ≠ c), tally := Function.update s.tally c none } : Snapshot α).Consistent :=
  ⟨htally.filter hS, ((List.filter_sublist).map _).nodup hunique,
    fun v hv => hsigned v (List.mem_filter.mp hv).1⟩

theorem dropSigner_spec (s : Snapshot α) (number : UInt64) (c : α) (h : TallyOk s.signers s.votes s.tally) :
    (s.dropSigner number c).votes = s.votes.filter (fun v => v.signer ≠ c) ∧
      TallyOk s.signers (s.dropSigner number c).votes (s.dropSigner number c).tally ∧
      (s.dropSigner number c).signers = s.signers.erase c := by
  let s₀ := ({ s with signers := s.signers.erase c } : Snapshot α).forgetRecent number
  have hdrop : s.dropSigner number c = uncastVotesBy c s₀.votes { s₀ with votes := [] } := rfl
  have hv₀ : s₀.votes = s.votes := forgetRecent_votes _ _
  have hstart : TallyOk s.signers (({ s₀ with votes := [] } : Snapshot α).votes ++ s₀.votes)
      ({ s₀ with votes := [] } : Snapshot α).tally := by
    rw [List.nil_append, hv₀]
    exact (forgetRecent_tally _ _).symm ▸ h
  obtain ⟨hvotes, hok, hsig⟩ := uncastVotesBy_spec c s₀.votes _ hstart
  rw [hdrop]
  refine ⟨?_, hok, hsig.trans (forgetRecent_signers _ _)⟩
  rw [hvotes, List.nil_append, hv₀]

theorem Consistent.passVote {s : Snapshot α} (h : s.Consistent) (number : UInt64) (c : α) :
    (s.passVote number c).Consistent := by
  unfold Snapshot.passVote
  dsimp only
  split
  · split
    · -- `c` is authorized
      refine consistent_discardAround (S := s.signers) h.tallyOk (fun a ha => ?_) h.unique
        (fun v hv => Finset.mem_insert_of_mem (h.signed v hv))
      simp [ha]
    · -- `c` is dropped, and its votes with it
      obtain ⟨hvotes, hok, hsig⟩ := dropSigner_spec s number c h.tallyOk
      have hsub : List.Sublist (s.dropSigner number c).votes s.votes := hvotes ▸ List.filter_sublist
      refine consistent_discardAround hok (fun a ha => ?_) ((hsub.map _).nodup h.unique) (fun v hv => ?_)
      · rw [hsig]
        simp [ha]
      · rw [hvotes, List.mem_filter] at hv
        rw [hsig]
        simpa [Finset.mem_erase, h.signed v hv.1] using hv.2
  · exact h

theorem Consistent.forgetRecent {s : Snapshot α} (h : s.Consistent) (number : UInt64) :
    (s.forgetRecent number).Consistent :=
  h.of_eq (forgetRecent_signers s number) (forgetRecent_votes s number) (forgetRecent_tally s number)

theorem applyHeader_ok {ecrecover : Header α → Except CliqueError α} {epoch : UInt64} {s s' : Snapshot α}
    {header : Header α} (h : s.applyHeader ecrecover epoch header = .ok s') :
    ∃ signer b, ecrecover header = .ok signer ∧
      signer ∈ ((s.clearVotes epoch header.number).forgetRecent header.number).signers ∧
      voteOf header.nonce = some b ∧
      s' = ((({ (s.clearVotes epoch header.number).forgetRecent header.number with
        recents := recentsSet ((s.clearVotes epoch header.number).forgetRecent header.number).recents header.number signer } :
          Snapshot α).discardVote signer header.coinbase).castVote signer header.number header.coinbase b).passVote
            header.number header.coinbase := by
  unfold applyHeader at h
  dsimp only at h
  split at h
  · cases h
  · rename_i signer hrec
    split at h
    · cases h
    · rename_i hsig
      split at h
      · cases h
      · split at h
        · cases h
        · rename_i b hb
          exact ⟨signer, b, hrec, not_not.mp hsig, hb, (Except.ok.inj h).symm⟩

theorem Consistent.applyHeader {ecrecover : Header α → Except CliqueError α} {epoch : UInt64}
    {s s' : Snapshot α} {header : Header α} (h : s.Consistent) (hok : s.applyHeader ecrecover epoch header = .ok s') :
    s'.Consistent := by
  obtain ⟨signer, b, -, hsig, -, rfl⟩ := applyHeader_ok hok
  have h₀ := (h.clearVotes epoch header.number).forgetRecent header.number
  obtain ⟨h₁, hsig₁, hnew⟩ :=
    Consistent.discardVote (s := { (s.clearVotes epoch header.number).forgetRecent header.number with
      recents := recentsSet ((s.clearVotes epoch header.number).forgetRecent header.number).recents header.number signer })
      (h₀.of_eq rfl rfl rfl) signer header.coinbase
  exact (h₁.castVote (hsig₁ ▸ hsig) hnew _ _).passVote _ _

theorem Consistent.applyHeaders {ecrecover : Header α → Except CliqueError α} {epoch : UInt64}
    (headers : List (Header α)) :
    ∀ {s s' : Snapshot α}, s.Consistent → applyHeaders ecrecover epoch s headers = .ok s' → s'.Consistent := by
  induction headers with
  | nil =>
    intro s s' h hok
    cases hok
    exact h
  | cons header headers ih =>
    intro s s' h hok
    rw [Snapshot.applyHeaders] at hok
    split at hok
    · cases hok
    · rename_i snap hsnap
      exact ih (h.applyHeader hsnap) hok

theorem Consistent.apply {ecrecover : Header α → Except CliqueError α} {headerHash : Header α → List UInt8}
    {s s' : Snapshot α} {headers : List (Header α)} (h : s.Consistent)
    (hok : s.apply ecrecover headerHash headers = .ok s') : s'.Consistent := by
  unfold Snapshot.apply at hok
  split at hok
  · cases hok
    exact h
  · split at hok
    · cases hok
    · split at hok
      · cases hok
      · split at hok
        · cases hok
        · rename_i snap hsnap
          cases hok
          exact (Consistent.applyHeaders _ h hsnap).of_eq rfl rfl rfl

/-- The snapshots that calls of `apply` make from `genesis`, one batch of headers at a time. -/
inductive Applied (ecrecover : Header α → Except CliqueError α) (headerHash : Header α → List UInt8)
    (genesis : Snapshot α) : Snapshot α → Prop
  | genesis : Applied ecrecover headerHash genesis genesis
  | apply {s s' : Snapshot α} (headers : List (Header α)) : Applied ecrecover headerHash genesis s →
      s.apply ecrecover headerHash headers = .ok s' → Applied ecrecover headerHash genesis s'

theorem Consistent.of_applied {ecrecover : Header α → Except CliqueError α} {headerHash : Header α → List UInt8}
    {genesis s : Snapshot α} (h : genesis.Consistent) (happ : Applied ecrecover headerHash genesis s) :
    s.Consistent := by
  induction happ with
  | genesis => exact h
  | apply headers _ hok ih => exact ih.apply hok

theorem Consistent.tally_isSome_iff {s : Snapshot α} (h : s.Consistent) (a : α) :
    (s.tally a).isSome ↔ ∃ v ∈ s.votes, v.address = a := by
  rw [h.tallyOk.tally_eq, tallyOf]
  by_cases hn : votesOn s.votes a = 0
  · rw [if_pos hn]
    simpa [votesOn] using hn
  · rw [if_neg hn]
    have hpos : 0 < votesOn s.votes a := Nat.pos_of_ne_zero hn
    simpa [votesOn] using hpos

theorem Consistent.tally_eq_some {s : Snapshot α} (h : s.Consistent) {a : α} {t : Tally} (ht : s.tally a = some t) :
    t.votes = votesOn s.votes a ∧ ∀ v ∈ s.votes, v.address = a → v.authorize = t.authorize := by
  rw [h.tallyOk.tally_eq, tallyOf] at ht
  split at ht
  · cases ht
  · cases ht
    refine ⟨rfl, fun v hv hva => ?_⟩
    rw [h.tallyOk.proposes v hv, hva]

theorem Proposes.add_or_drop {S : Finset α} {v : Vote α} (h : Proposes S v) :
    (v.authorize = true ∧ v.address ∉ S) ∨ (v.authorize = false ∧ v.address ∈ S) := by
  unfold Proposes at h
  by_cases ha : v.address ∈ S
  · exact .inr ⟨by simpa [ha] using h, ha⟩
  · exact .inl ⟨by simpa [ha] using h, ha⟩

/-- The vote bookkeeping of every snapshot that `apply` makes from a genesis snapshot: the
tally has an entry exactly for the accounts with votes, counting them, all going its way; no
signer has two votes on one account; only signers have votes; and every vote proposes to add
a non-signer or to drop a signer. -/
theorem applied_votes_consistent (ecrecover : Header α → Except CliqueError α) (headerHash : Header α → List UInt8)
    (config : CliqueConfig) (number : UInt64) (hash : List UInt8) (signers : List α) (s : Snapshot α)
    (happ : Applied ecrecover headerHash (newSnapshot config number hash signers) s) :
    (∀ a, (s.tally a).isSome ↔ ∃ v ∈ s.votes, v.address = a) ∧
    (∀ a t, s.tally a = some t →
      t.votes = s.votes.countP (fun v => v.address = a) ∧ ∀ v ∈ s.votes, v.address = a → v.authorize = t.authorize) ∧
    (s.votes.map fun v => (v.signer, v.address)).Nodup ∧
    (∀ v ∈ s.votes, v.signer ∈ s.signers) ∧
    (∀ v ∈ s.votes, (v.authorize = true ∧ v.address ∉ s.signers) ∨ (v.authorize = false ∧ v.address ∈ s.signers)) := by
  have h := (newSnapshot_consistent config number hash signers).of_applied happ
  exact ⟨h.tally_isSome_iff, fun a t ht => h.tally_eq_some ht, h.unique, h.signed,
    fun v hv => Proposes.add_or_drop (h.tallyOk.proposes v hv)⟩

/-- Two signers, and the first votes to add account `3`. -/
theorem applied_votes_consistent_add_three :
    ∃ s, (newSnapshot ⟨30000, by decide⟩ 0 [] [1, 2]).apply (fun _ => .ok 1) (fun _ => [])
      [⟨1, 3, nonceAuthVote, []⟩] = .ok s ∧
    ((∀ a, (s.tally a).isSome ↔ ∃ v ∈ s.votes, v.address = a) ∧
    (∀ a t, s.tally a = some t →
      t.votes = s.votes.countP (fun v => v.address = a) ∧ ∀ v ∈ s.votes, v.address = a → v.authorize = t.authorize) ∧
    (s.votes.map fun v => (v.signer, v.address)).Nodup ∧
    (∀ v ∈ s.votes, v.signer ∈ s.signers) ∧
    (∀ v ∈ s.votes, (v.authorize = true ∧ v.address ∉ s.signers) ∨ (v.authorize = false ∧ v.address ∈ s.signers))) :=
  ⟨_, rfl, applied_votes_consistent (fun _ => .ok 1) (fun _ => []) ⟨30000, by decide⟩ 0 [] [1, 2] _
    (.apply [⟨1, 3, nonceAuthVote, []⟩] .genesis rfl)⟩

end Snapshot

end Zerium.Clique
