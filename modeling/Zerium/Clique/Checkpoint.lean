import Zerium.Clique.Voting
import Zerium.Lib.GoMap

/-! # Where the header chain is split does not matter

`Clique.snapshot` starts from the nearest snapshot in its cache, on disk or at a checkpoint, and
applies the headers above it in one batch. `apply` never reads the number, hash or configuration
of the snapshot between headers, and reads the recent signers only as a map: `Agree` relates two
snapshots with the same signers, votes and tally, recent signers related by an `R` the map's
operations respect, and the rest by any `P`. Every function of `apply` keeps `Agree`, so `apply`
on `h1 ++ h2` is `apply` on `h1` and then `h2`. `store` and `loadSnapshot` are modelled on the
fields of the JSON document, a map going out in key order and coming back as its entries.
-/

namespace Zerium.Clique

set_option autoImplicit false

namespace Snapshot

variable {α : Type}

/-- What the operations on `Recents` need of a relation between two of its lists. -/
structure RecentsRel (R : List (UInt64 × α) → List (UInt64 × α) → Prop) : Prop where
  delete : ∀ {l l' : List (UInt64 × α)} (k : UInt64), R l l' → R (recentsDelete l k) (recentsDelete l' k)
  set : ∀ {l l' : List (UInt64 × α)} (k : UInt64) (v : α), R l l' → R (recentsSet l k v) (recentsSet l' k v)
  any : ∀ {l l' : List (UInt64 × α)} (p : UInt64 × α → Bool), R l l' → l.any p = l'.any p

theorem RecentsRel.eq : RecentsRel fun l l' : List (UInt64 × α) => l = l' where
  delete _ h := h ▸ rfl
  set _ _ h := h ▸ rfl
  any _ h := h ▸ rfl

theorem RecentsRel.perm : RecentsRel (@List.Perm (UInt64 × α)) where
  delete _ h := h.filter _
  set _ _ h := (h.filter _).cons _
  any _ h := h.any_eq

variable {R : List (UInt64 × α) → List (UInt64 × α) → Prop}
  {P : CliqueConfig × UInt64 × List UInt8 → CliqueConfig × UInt64 × List UInt8 → Prop}

/-- Two snapshots on which `apply` does the same: the fields it reads agree, and what it only
carries along is related by `P`. -/
structure Agree (R : List (UInt64 × α) → List (UInt64 × α) → Prop)
    (P : CliqueConfig × UInt64 × List UInt8 → CliqueConfig × UInt64 × List UInt8 → Prop)
    (s t : Snapshot α) : Prop where
  signers : s.signers = t.signers
  votes : s.votes = t.votes
  tally : s.tally = t.tally
  recents : R s.recents t.recents
  carried : P (s.config, s.number, s.hash) (t.config, t.number, t.hash)

/-- Two outcomes of `apply` that agree: the same error, or snapshots that agree. -/
def ResultAgree (R : List (UInt64 × α) → List (UInt64 × α) → Prop)
    (P : CliqueConfig × UInt64 × List UInt8 → CliqueConfig × UInt64 × List UInt8 → Prop) :
    Except CliqueError (Snapshot α) → Except CliqueError (Snapshot α) → Prop
  | .error e, .error e' => e = e'
  | .ok s, .ok t => Agree R P s t
  | _, _ => False

theorem Agree.self (s : Snapshot α) :
    Agree (· = ·) (fun x _ => x = (s.config, s.number, s.hash)) s s :=
  ⟨rfl, rfl, rfl, rfl, rfl⟩

theorem Agree.renumber (s : Snapshot α) (number : UInt64) (hash : List UInt8) :
    Agree (· = ·) (fun _ _ => True) s { s with number, hash } :=
  ⟨rfl, rfl, rfl, rfl, trivial⟩

variable {s t : Snapshot α}

theorem Agree.eq {Q : CliqueConfig × UInt64 × List UInt8 → CliqueConfig × UInt64 × List UInt8 → Prop}
    (h : Agree (· = ·) Q s t) (hc : s.config = t.config) (hn : s.number = t.number) (hh : s.hash = t.hash) :
    s = t := by
  cases s
  cases t
  obtain ⟨hs, hv, ht, hr, -⟩ := h
  dsimp only at hc hn hh hs hv ht hr
  subst hc hn hh hs hv ht hr
  rfl

theorem Agree.clearVotes (h : Agree R P s t) (epoch number : UInt64) :
    Agree R P (s.clearVotes epoch number) (t.clearVotes epoch number) := by
  unfold Snapshot.clearVotes
  split
  · exact ⟨h.signers, rfl, rfl, h.recents, h.carried⟩
  · exact h

theorem Agree.forgetRecent (hR : RecentsRel R) (h : Agree R P s t) (number : UInt64) :
    Agree R P (s.forgetRecent number) (t.forgetRecent number) := by
  unfold Snapshot.forgetRecent
  dsimp only
  rw [h.signers]
  split
  · exact ⟨rfl, h.votes, h.tally, hR.delete _ h.recents, h.carried⟩
  · exact h

variable [DecidableEq α]

theorem Agree.validVote (h : Agree R P s t) (a : α) (b : Bool) : s.validVote a b = t.validVote a b := by
  unfold Snapshot.validVote
  rw [h.signers]

theorem Agree.uncast (h : Agree R P s t) (a : α) (b : Bool) :
    (s.uncast a b).1 = (t.uncast a b).1 ∧ Agree R P (s.uncast a b).2 (t.uncast a b).2 := by
  unfold Snapshot.uncast
  rw [h.tally]
  split
  · exact ⟨rfl, h⟩
  · split_ifs
    · exact ⟨rfl, h⟩
    · exact ⟨rfl, h.signers, h.votes, rfl, h.recents, h.carried⟩
    · exact ⟨rfl, h.signers, h.votes, rfl, h.recents, h.carried⟩

theorem Agree.cast (h : Agree R P s t) (a : α) (b : Bool) :
    (s.cast a b).1 = (t.cast a b).1 ∧ Agree R P (s.cast a b).2 (t.cast a b).2 := by
  unfold Snapshot.cast
  rw [h.validVote, h.tally]
  split
  · exact ⟨rfl, h⟩
  · split
    · exact ⟨rfl, h.signers, h.votes, rfl, h.recents, h.carried⟩
    · exact ⟨rfl, h.signers, h.votes, rfl, h.recents, h.carried⟩

theorem Agree.discardVote (h : Agree R P s t) (signer coinbase : α) :
    Agree R P (s.discardVote signer coinbase) (t.discardVote signer coinbase) := by
  unfold Snapshot.discardVote
  dsimp only
  rw [h.votes]
  split
  · exact h
  · rename_i vote _
    have hu := (h.uncast vote.address vote.authorize).2
    exact ⟨hu.signers, rfl, hu.tally, hu.recents, hu.carried⟩

theorem Agree.castVote (h : Agree R P s t) (signer : α) (number : UInt64) (coinbase : α) (authorize : Bool) :
    Agree R P (s.castVote signer number coinbase authorize) (t.castVote signer number coinbase authorize) := by
  obtain ⟨hb, hc⟩ := h.cast coinbase authorize
  unfold Snapshot.castVote
  -- both casts count the vote, or neither does
  rcases hs : s.cast coinbase authorize with ⟨b, s'⟩
  rcases ht : t.cast coinbase authorize with ⟨b', t'⟩
  rw [hs, ht] at hb hc
  dsimp only at hb hc
  subst hb
  cases b
  · exact hc
  · dsimp only
    exact ⟨hc.signers, by rw [hc.votes], hc.tally, hc.recents, hc.carried⟩

theorem Agree.uncastVotesBy (c : α) (vs : List (Vote α)) :
    ∀ {s t : Snapshot α}, Agree R P s t → Agree R P (uncastVotesBy c vs s) (uncastVotesBy c vs t) := by
  induction vs with
  | nil => exact fun h => h
  | cons v vs ih =>
    intro s t h
    rw [Snapshot.uncastVotesBy, Snapshot.uncastVotesBy]
    split
    · exact ih (h.uncast v.address v.authorize).2
    · exact ih ⟨h.signers, by rw [h.votes], h.tally, h.recents, h.carried⟩

theorem Agree.dropSigner (hR : RecentsRel R) (h : Agree R P s t) (number : UInt64) (c : α) :
    Agree R P (s.dropSigner number c) (t.dropSigner number c) := by
  have h₀ := Agree.forgetRecent hR (s := { s with signers := s.signers.erase c })
    (t := { t with signers := t.signers.erase c }) ⟨by rw [h.signers], h.votes, h.tally, h.recents, h.carried⟩ number
  unfold Snapshot.dropSigner
  dsimp only
  rw [h₀.votes]
  exact Agree.uncastVotesBy c _ ⟨h₀.signers, rfl, h₀.tally, h₀.recents, h₀.carried⟩

theorem Agree.passVote (hR : RecentsRel R) (h : Agree R P s t) (number : UInt64) (c : α) :
    Agree R P (s.passVote number c) (t.passVote number c) := by
  unfold Snapshot.passVote
  dsimp only
  rw [h.tally, h.signers]
  split
  · split
    · -- `c` is authorized
      exact ⟨rfl, by rw [h.votes], rfl, h.recents, h.carried⟩
    · -- `c` is dropped
      have hd := h.dropSigner hR number c
      exact ⟨hd.signers, by rw [hd.votes], by rw [hd.tally], hd.recents, hd.carried⟩
  · exact h

theorem Agree.applyHeader (hR : RecentsRel R) (h : Agree R P s t) (ecrecover : Header α → Except CliqueError α)
    (epoch : UInt64) (header : Header α) :
    ResultAgree R P (s.applyHeader ecrecover epoch header) (t.applyHeader ecrecover epoch header) := by
  have h₀ := (h.clearVotes epoch header.number).forgetRecent hR header.number
  unfold Snapshot.applyHeader
  dsimp only
  set S₀ := (s.clearVotes epoch header.number).forgetRecent header.number
  set T₀ := (t.clearVotes epoch header.number).forgetRecent header.number
  cases ecrecover header with
  | error e => rfl
  | ok signer =>
    dsimp only
    -- the two checks of the signer read the same fields on both sides
    by_cases hsig : signer ∈ T₀.signers
    · rw [if_neg (not_not.mpr (h₀.signers ▸ hsig)), if_neg (not_not.mpr hsig)]
      have hany := hR.any (fun x => decide (x.2 = signer)) h₀.recents
      by_cases hrec : T₀.recents.any (fun x => decide (x.2 = signer)) = true
      · rw [if_pos (hany.trans hrec), if_pos hrec]
        rfl
      · rw [if_neg (hany ▸ hrec), if_neg hrec]
        -- the signer is recorded, its earlier vote discarded and the new one counted
        have h₁ := Agree.discardVote (s := { S₀ with recents := recentsSet S₀.recents header.number signer })
          (t := { T₀ with recents := recentsSet T₀.recents header.number signer })
          ⟨h₀.signers, h₀.votes, h₀.tally, hR.set _ _ h₀.recents, h₀.carried⟩ signer header.coinbase
        cases voteOf header.nonce with
        | none => rfl
        | some authorize => exact (h₁.castVote signer header.number header.coinbase authorize).passVote hR _ _
    · rw [if_pos (h₀.signers ▸ hsig), if_pos hsig]
      rfl

theorem Agree.applyHeaders (hR : RecentsRel R) (ecrecover : Header α → Except CliqueError α) (epoch : UInt64)
    (headers : List (Header α)) :
    ∀ {s t : Snapshot α}, Agree R P s t →
      ResultAgree R P (applyHeaders ecrecover epoch s headers) (applyHeaders ecrecover epoch t headers) := by
  induction headers with
  | nil => exact fun h => h
  | cons header headers ih =>
    intro s t h
    have hstep := h.applyHeader hR ecrecover epoch header
    rw [Snapshot.applyHeaders, Snapshot.applyHeaders]
    revert hstep
    cases s.applyHeader ecrecover epoch header <;> cases t.applyHeader ecrecover epoch header
    case error.error e e' => exact fun he => he
    case ok.ok s' t' => exact fun h' => ih h'
    all_goals exact False.elim

theorem applyHeaders_carried {ecrecover : Header α → Except CliqueError α} {epoch : UInt64} {s s' : Snapshot α}
    {headers : List (Header α)} (hok : applyHeaders ecrecover epoch s headers = .ok s') :
    s'.config = s.config ∧ s'.number = s.number ∧ s'.hash = s.hash := by
  have h := Agree.applyHeaders RecentsRel.eq ecrecover epoch headers (Agree.self s)
  rw [hok] at h
  have hc : (s'.config, s'.number, s'.hash) = (s.config, s.number, s.hash) := h.carried
  simp only [Prod.mk.injEq] at hc
  exact hc

theorem Agree.apply (hR : RecentsRel R) (h : Agree R (· = ·) s t) (ecrecover : Header α → Except CliqueError α)
    (headerHash : Header α → List UInt8) (headers : List (Header α)) :
    ResultAgree R (· = ·) (s.apply ecrecover headerHash headers) (t.apply ecrecover headerHash headers) := by
  have hc : (s.config, s.number, s.hash) = (t.config, t.number, t.hash) := h.carried
  simp only [Prod.mk.injEq] at hc
  obtain ⟨hconfig, hnumber, -⟩ := hc
  unfold Snapshot.apply
  cases headers with
  | nil => exact h
  | cons first rest =>
    dsimp only
    rw [hnumber, hconfig]
    split_ifs
    · rfl
    · rfl
    · have hrun := Agree.applyHeaders hR ecrecover t.config.epoch (first :: rest) h
      revert hrun
      cases Snapshot.applyHeaders ecrecover t.config.epoch s (first :: rest) <;>
        cases Snapshot.applyHeaders ecrecover t.config.epoch t (first :: rest)
      case error.error e e' => exact fun he => he
      case ok.ok r r' =>
        intro hr
        have hc : (r.config, r.number, r.hash) = (r'.config, r'.number, r'.hash) := hr.carried
        simp only [Prod.mk.injEq] at hc
        refine ⟨hr.signers, hr.votes, hr.tally, hr.recents, ?_⟩
        dsimp only
        rw [hc.1, hc.2.1]
      all_goals exact False.elim

omit [DecidableEq α] in
theorem linked_getLast_number :
    ∀ (f : Header α) (r : List (Header α)), linked (f :: r) = true →
      ((f :: r).getLast (List.cons_ne_nil _ _)).number = f.number + UInt64.ofNat r.length
  | f, [], _ => by simp
  | f, g :: r, h => by
    rw [linked, Bool.and_eq_true, decide_eq_true_eq] at h
    rw [List.getLast_cons (List.cons_ne_nil _ _), linked_getLast_number g r h.2, h.1, List.length_cons,
      UInt64.ofNat_add, UInt64.add_assoc, UInt64.add_comm (UInt64.ofNat r.length)]
    rfl

omit [DecidableEq α] in
theorem linked_append (f : Header α) (r : List (Header α)) (g : Header α) (r' : List (Header α)) :
    linked (f :: (r ++ g :: r')) =
      (linked (f :: r) && decide (g.number = ((f :: r).getLast (List.cons_ne_nil _ _)).number + 1) &&
        linked (g :: r')) := by
  induction r generalizing f with
  | nil => rfl
  | cons h r ih =>
    rw [List.cons_append, linked, ih h, linked, List.getLast_cons (List.cons_ne_nil _ _)]
    simp only [Bool.and_assoc]

theorem applyHeaders_append (ecrecover : Header α → Except CliqueError α) (epoch : UInt64)
    (l₁ l₂ : List (Header α)) :
    ∀ {s s' : Snapshot α}, applyHeaders ecrecover epoch s l₁ = .ok s' →
      applyHeaders ecrecover epoch s (l₁ ++ l₂) = applyHeaders ecrecover epoch s' l₂ := by
  induction l₁ with
  | nil =>
    intro s s' h
    cases h
    rfl
  | cons header l₁ ih =>
    intro s s' h
    rw [List.cons_append, applyHeaders]
    rw [applyHeaders] at h
    cases hstep : s.applyHeader ecrecover epoch header with
    | error e =>
      rw [hstep] at h
      cases h
    | ok snap =>
      rw [hstep] at h
      exact ih h

theorem apply_cons_ok {ecrecover : Header α → Except CliqueError α} {headerHash : Header α → List UInt8}
    {s s' : Snapshot α} {f : Header α} {r : List (Header α)} (h : s.apply ecrecover headerHash (f :: r) = .ok s') :
    linked (f :: r) = true ∧ f.number = s.number + 1 ∧
      ∃ snap, applyHeaders ecrecover s.config.epoch s (f :: r) = .ok snap ∧
        s' = { snap with number := snap.number + UInt64.ofNat (r.length + 1),
                         hash := headerHash ((f :: r).getLast (List.cons_ne_nil _ _)) } := by
  unfold Snapshot.apply at h
  dsimp only at h
  split_ifs at h with hlink hnum
  split at h
  · cases h
  · rename_i snap hsnap
    exact ⟨by simpa using hlink, not_not.mp hnum, snap, hsnap, (Except.ok.inj h).symm⟩

theorem apply_append {ecrecover : Header α → Except CliqueError α} {headerHash : Header α → List UInt8}
    {s s₁ : Snapshot α} {h₁ : List (Header α)} (hs₁ : s.apply ecrecover headerHash h₁ = .ok s₁)
    (h₂ : List (Header α)) :
    s.apply ecrecover headerHash (h₁ ++ h₂) = s₁.apply ecrecover headerHash h₂ := by
  cases h₁ with
  | nil =>
    cases hs₁
    rfl
  | cons f r =>
    cases h₂ with
    | nil => rw [List.append_nil, hs₁]; rfl
    | cons g r' =>
      obtain ⟨hlink, hfirst, snap, hsnap, rfl⟩ := apply_cons_ok hs₁
      obtain ⟨hconfig, hnumber, -⟩ := applyHeaders_carried hsnap
      -- the first batch ends at the number `apply` gives the snapshot after it
      have hlast : ((f :: r).getLast (List.cons_ne_nil _ _)).number = snap.number + UInt64.ofNat (r.length + 1) := by
        rw [linked_getLast_number f r hlink, hfirst, hnumber, UInt64.ofNat_add, UInt64.add_assoc,
          UInt64.add_comm 1]
        rfl
      rw [List.cons_append]
      unfold Snapshot.apply
      dsimp only
      have hrest : Snapshot.applyHeaders ecrecover s.config.epoch s (f :: (r ++ g :: r')) =
          Snapshot.applyHeaders ecrecover s.config.epoch snap (g :: r') :=
        applyHeaders_append ecrecover s.config.epoch (f :: r) (g :: r') hsnap
      rw [linked_append, hlink, hlast, Bool.true_and, hfirst, hrest,
        show snap.config.epoch = s.config.epoch from congrArg CliqueConfig.epoch hconfig]
      by_cases hnext : linked (g :: r') = true ∧ g.number = snap.number + UInt64.ofNat (r.length + 1) + 1
      · rw [if_neg (by simp [hnext.1, hnext.2]), if_neg (not_not.mpr rfl), if_neg (by simp [hnext.1]),
          if_neg (not_not.mpr hnext.2)]
        -- the second batch runs from the first's snapshot, renumbered or not
        have hrun := Agree.applyHeaders RecentsRel.eq ecrecover s.config.epoch (g :: r')
          (Agree.renumber snap (snap.number + UInt64.ofNat (r.length + 1))
            (headerHash ((f :: r).getLast (List.cons_ne_nil _ _))))
        revert hrun
        cases hx : Snapshot.applyHeaders ecrecover s.config.epoch snap (g :: r') <;>
          cases hy : Snapshot.applyHeaders ecrecover s.config.epoch
            { snap with number := snap.number + UInt64.ofNat (r.length + 1),
                        hash := headerHash ((f :: r).getLast (List.cons_ne_nil _ _)) } (g :: r')
        case error.error e e' =>
          intro he
          have he' : e = e' := he
          simp only [he']
        case ok.ok x y =>
          intro hxy
          obtain ⟨hxc, hxn, -⟩ := applyHeaders_carried hx
          obtain ⟨hyc, hyn, -⟩ := applyHeaders_carried hy
          simp only [Except.ok.injEq]
          refine Agree.eq (Q := fun _ _ => True) ⟨hxy.signers, hxy.votes, hxy.tally, hxy.recents, trivial⟩
            (hxc.trans hyc.symm) ?_ ?_
          · dsimp only
            rw [hxn, hyn]
            grind [UInt64.ofNat_add]
          · exact congrArg headerHash (List.getLast_append_of_ne_nil (l := f :: r) _ (List.cons_ne_nil _ _))
        all_goals exact fun h => h.elim
      · -- the cut is not linked: both calls reject the second batch
        have hbad : (!(decide (g.number = snap.number + UInt64.ofNat (r.length + 1) + 1) && linked (g :: r'))) = true := by
          by_cases hl : linked (g :: r') = true
          · have hg : ¬ g.number = snap.number + UInt64.ofNat (r.length + 1) + 1 := fun hg => hnext ⟨hl, hg⟩
            simpa [hl] using hg
          · simp [hl]
        rw [if_pos hbad]
        by_cases hl : linked (g :: r') = true
        · rw [if_neg (by simp [hl]), if_pos (fun hg => hnext ⟨hl, hg⟩)]
        · rw [if_pos (by simpa using hl)]

end Snapshot

/-! ## The checkpoint on disk -/

def cliquePrefix : List UInt8 := [0x63, 0x6c, 0x69, 0x71, 0x75, 0x65, 0x2d]

/-- The JSON document of a snapshot: `Signers`, `Recents` and `Tally` are objects, listed by
their entries. -/
structure Stored (α : Type) where
  number : UInt64
  hash : List UInt8
  signers : List α
  recents : List (UInt64 × α)
  votes : List (Vote α)
  tally : List (α × Tally)

namespace Snapshot

variable {α : Type} [LinearOrder α]

/-- `json.Marshal`: the entries of each map in the order of their keys; `keys` holds the keys
of the tally. -/
def marshal (keys : List α) (s : Snapshot α) : Stored α where
  number := s.number
  hash := s.hash
  signers := ascending s.signers
  recents := s.recents.mergeSort fun a b => decide (a.1 ≤ b.1)
  votes := s.votes
  tally := (ascending keys.toFinset).filterMap fun a => (s.tally a).map (a, ·)

/-- `json.Unmarshal` into a new snapshot, and the engine's configuration set on it. -/
def unmarshal (config : CliqueConfig) (d : Stored α) : Snapshot α where
  config
  number := d.number
  hash := d.hash
  signers := d.signers.toFinset
  recents := d.recents
  votes := d.votes
  tally := fun a => (d.tally.find? (·.1 = a)).map (·.2)

/-- `store`: the document under the snapshot's hash. -/
def store (keys : List α) (s : Snapshot α) (db : GoMap (List UInt8) (Stored α)) : GoMap (List UInt8) (Stored α) :=
  db.insert (cliquePrefix ++ s.hash) (s.marshal keys)

/-- `loadSnapshot`: `nil` when the database has no snapshot under `hash`. -/
def loadSnapshot (config : CliqueConfig) (db : GoMap (List UInt8) (Stored α)) (hash : List UInt8) :
    Option (Snapshot α) :=
  (db.get (cliquePrefix ++ hash)).map (unmarshal config)

omit [LinearOrder α] in
theorem find?_filterMap_entries {β : Type} [DecidableEq α] (f : α → Option β) (ks : List α) (a : α) :
    ((ks.filterMap fun b => (f b).map (b, ·)).find? (·.1 = a)).map (·.2) = if a ∈ ks then f a else none := by
  induction ks with
  | nil => simp
  | cons b ks ih =>
    rw [List.filterMap_cons]
    by_cases hab : b = a
    · subst hab
      cases hb : f b with
      | none =>
        rw [Option.map_none, ih, hb]
        split_ifs <;> rfl
      | some y => simp
    · have hmem : a ∈ b :: ks ↔ a ∈ ks := by simp [Ne.symm hab]
      rw [if_congr hmem rfl rfl, ← ih]
      cases f b with
      | none => rfl
      | some y => simp [hab]

theorem agree_unmarshal_marshal (s : Snapshot α) {keys : List α} (hkeys : ∀ a, (s.tally a).isSome → a ∈ keys) :
    Agree List.Perm (· = ·) s (unmarshal s.config (s.marshal keys)) := by
  refine ⟨(Finset.sort_toFinset _ _).symm, rfl, ?_, (List.mergeSort_perm _ _).symm, rfl⟩
  funext a
  show s.tally a = ((((keys.toFinset.sort (· ≤ ·)).filterMap fun b => (s.tally b).map (b, ·)).find?
    (·.1 = a)).map (·.2))
  rw [find?_filterMap_entries]
  split_ifs with ha
  · rfl
  · -- a key the list does not hold has no entry
    cases hs : s.tally a with
    | none => rfl
    | some x => exact absurd (Finset.mem_sort _ |>.mpr (List.mem_toFinset.mpr (hkeys a (by simp [hs])))) ha

theorem loadSnapshot_store (config : CliqueConfig) (keys : List α) (s : Snapshot α) (db : GoMap (List UInt8) (Stored α)) :
    loadSnapshot config (s.store keys db) s.hash = some (unmarshal config (s.marshal keys)) := by
  rw [loadSnapshot, store, GoMap.get_insert_self]
  rfl

/-- A header chain gives the same snapshot wherever the cache or a checkpoint cut it: `apply`
on `h₁ ++ h₂` is `apply` on `h₂` after `h₁`, and after storing the snapshot of `h₁` and loading
it back, `apply` on `h₂` gives the same number, hash, signers, votes, tally and recent signers
(in another order of the list). -/
theorem apply_split_independent (ecrecover : Header α → Except CliqueError α) (headerHash : Header α → List UInt8)
    (s s₁ : Snapshot α) (h₁ h₂ : List (Header α)) (hs₁ : s.apply ecrecover headerHash h₁ = .ok s₁) :
    s.apply ecrecover headerHash (h₁ ++ h₂) = s₁.apply ecrecover headerHash h₂ ∧
      ∀ keys : List α, (∀ a, (s₁.tally a).isSome → a ∈ keys) → ∀ db : GoMap (List UInt8) (Stored α),
        ∃ t, loadSnapshot s₁.config (s₁.store keys db) s₁.hash = some t ∧
          ResultAgree List.Perm (· = ·) (s.apply ecrecover headerHash (h₁ ++ h₂)) (t.apply ecrecover headerHash h₂) := by
  have happend := apply_append hs₁ h₂
  refine ⟨happend, fun keys hkeys db => ⟨_, loadSnapshot_store s₁.config keys s₁ db, ?_⟩⟩
  rw [happend]
  exact (agree_unmarshal_marshal s₁ hkeys).apply RecentsRel.perm ecrecover headerHash h₂

/-- Two signers; signer `1` seals block `1`, a checkpoint is taken, and signer `2` seals block
`2`, both voting to add `3`. -/
theorem apply_split_independent_twoSigners :
    ∃ s₁, (newSnapshot ⟨30000, by decide⟩ 0 [] [1, 2]).apply (fun h => .ok h.number.toNat) (fun _ => [])
        [⟨1, 3, nonceAuthVote, []⟩] = .ok s₁ ∧
      ((newSnapshot ⟨30000, by decide⟩ 0 [] [1, 2]).apply (fun h => .ok h.number.toNat) (fun _ => [])
          ([⟨1, 3, nonceAuthVote, []⟩] ++ [⟨2, 3, nonceAuthVote, []⟩]) =
          s₁.apply (fun h => .ok h.number.toNat) (fun _ => []) [⟨2, 3, nonceAuthVote, []⟩] ∧
        ∀ keys : List Nat, (∀ a, (s₁.tally a).isSome → a ∈ keys) → ∀ db : GoMap (List UInt8) (Stored Nat),
          ∃ t, loadSnapshot s₁.config (s₁.store keys db) s₁.hash = some t ∧
            ResultAgree List.Perm (· = ·)
              ((newSnapshot ⟨30000, by decide⟩ 0 [] [1, 2]).apply (fun h => .ok h.number.toNat) (fun _ => [])
                ([⟨1, 3, nonceAuthVote, []⟩] ++ [⟨2, 3, nonceAuthVote, []⟩]))
              (t.apply (fun h => .ok h.number.toNat) (fun _ => []) [⟨2, 3, nonceAuthVote, []⟩])) :=
  ⟨_, rfl, apply_split_independent _ _ _ _ [⟨1, 3, nonceAuthVote, []⟩] [⟨2, 3, nonceAuthVote, []⟩] rfl⟩

end Snapshot

end Zerium.Clique
