import Mathlib

/-! # Clique snapshots

The state of the proof-of-authority voting of `snapshot.go`: the authorized signers, the
recent signers, the votes in the order they were cast and the tally of the votes per
account. `Snapshot.apply` replays a batch of headers on a snapshot, checks each header's
signer and takes its vote.

Addresses are any type with decidable equality. The signer of a header is what `ecrecover`
finds in its seal; the model takes it as a function of the header, and the signature cache
returns what that function does. `copy` is the identity of a functional model. The epoch is
positive: `New` replaces an epoch of `0` by the default, and the snapshot holds the engine's
configuration.
-/

namespace Zerium.Clique

set_option autoImplicit false

inductive CliqueError where
  | invalidVotingChain
  | unauthorized
  | invalidVote
  | missingSignature
  | invalidSignature
deriving DecidableEq, Repr

structure CliqueConfig where
  epoch : UInt64
  epoch_ne_zero : epoch ≠ 0

/-- The fields of a header that `apply` reads; the seal is at the end of `extra`. -/
structure Header (α : Type) where
  number : UInt64
  coinbase : α
  nonce : List UInt8
  extra : List UInt8
deriving DecidableEq, Repr

structure Vote (α : Type) where
  signer : α
  block : UInt64
  address : α
  authorize : Bool
deriving DecidableEq, Repr

structure Tally where
  authorize : Bool
  votes : Nat
deriving DecidableEq, Repr

def nonceAuthVote : List UInt8 := List.replicate 8 0xff
def nonceDropVote : List UInt8 := List.replicate 8 0x00

variable {α : Type} [DecidableEq α]

def recentsDelete (r : List (UInt64 × α)) (k : UInt64) : List (UInt64 × α) := r.filter (·.1 ≠ k)

def recentsSet (r : List (UInt64 × α)) (k : UInt64) (v : α) : List (UInt64 × α) :=
  (k, v) :: recentsDelete r k

structure Snapshot (α : Type) where
  config : CliqueConfig
  number : UInt64
  hash : List UInt8
  signers : Finset α
  recents : List (UInt64 × α)
  votes : List (Vote α)
  tally : α → Option Tally

/-- `newSnapshot`: no recent signers, no votes. -/
def newSnapshot (config : CliqueConfig) (number : UInt64) (hash : List UInt8) (signers : List α) :
    Snapshot α :=
  { config, number, hash, signers := signers.toFinset, recents := [], votes := [], tally := fun _ => none }

namespace Snapshot

def validVote (s : Snapshot α) (address : α) (authorize : Bool) : Bool :=
  let signer := decide (address ∈ s.signers)
  (signer && !authorize) || (!signer && authorize)

/-- `cast` adds a vote to the tally, if the vote makes sense. -/
def cast (s : Snapshot α) (address : α) (authorize : Bool) : Bool × Snapshot α :=
  if !s.validVote address authorize then (false, s)
  else
    match s.tally address with
    | some old => (true, { s with tally := Function.update s.tally address (some { old with votes := old.votes + 1 }) })
    | none => (true, { s with tally := Function.update s.tally address (some ⟨authorize, 1⟩) })

/-- `uncast` takes a counted vote back from the tally. -/
def uncast (s : Snapshot α) (address : α) (authorize : Bool) : Bool × Snapshot α :=
  match s.tally address with
  | none => (false, s)
  | some tally =>
    if tally.authorize ≠ authorize then (false, s)
    else if tally.votes > 1 then
      (true, { s with tally := Function.update s.tally address (some { tally with votes := tally.votes - 1 }) })
    else (true, { s with tally := Function.update s.tally address none })

def clearVotes (s : Snapshot α) (epoch number : UInt64) : Snapshot α :=
  if number % epoch = 0 then { s with votes := [], tally := fun _ => none } else s

/-- `if limit := uint64(len(snap.Signers)/2 + 1); number >= limit { delete(snap.Recents, number-limit) }`:
the oldest recent signer may sign again. -/
def forgetRecent (s : Snapshot α) (number : UInt64) : Snapshot α :=
  let limit : UInt64 := UInt64.ofNat (s.signers.card / 2 + 1)
  if number ≥ limit then { s with recents := recentsDelete s.recents (number - limit) } else s

/-- The loop over the votes that discards the previous vote of `signer` on `coinbase`: the
first such vote is uncast and removed. -/
def discardVote (s : Snapshot α) (signer coinbase : α) : Snapshot α :=
  let p := fun v : Vote α => decide (v.signer = signer ∧ v.address = coinbase)
  match s.votes.find? p with
  | none => s
  | some vote => { (s.uncast vote.address vote.authorize).2 with votes := s.votes.eraseP p }

/-- The loop `for i := 0; i < len(snap.Votes); i++` that discards the votes of a deauthorized
signer `c`, uncasting each: `vs` are the votes still to visit, and the votes of `s` those kept. -/
def uncastVotesBy (c : α) : List (Vote α) → Snapshot α → Snapshot α
  | [], s => s
  | v :: vs, s =>
    if v.signer = c then uncastVotesBy c vs (s.uncast v.address v.authorize).2
    else uncastVotesBy c vs { s with votes := s.votes ++ [v] }

def voteOf (nonce : List UInt8) : Option Bool :=
  if nonce = nonceAuthVote then some true
  else if nonce = nonceDropVote then some false
  else none

/-- Tally up the new vote of `signer` on `coinbase`. -/
def castVote (s : Snapshot α) (signer : α) (number : UInt64) (coinbase : α) (authorize : Bool) :
    Snapshot α :=
  match s.cast coinbase authorize with
  | (true, s') => { s' with votes := s'.votes ++ [⟨signer, number, coinbase, authorize⟩] }
  | (false, s') => s'

def dropSigner (s : Snapshot α) (number : UInt64) (coinbase : α) : Snapshot α :=
  let s := ({ s with signers := s.signers.erase coinbase } : Snapshot α).forgetRecent number
  uncastVotesBy coinbase s.votes { s with votes := [] }

def passVote (s : Snapshot α) (number : UInt64) (coinbase : α) : Snapshot α :=
  let tally := (s.tally coinbase).getD ⟨false, 0⟩
  if tally.votes > s.signers.card / 2 then
    let s := if tally.authorize then { s with signers := insert coinbase s.signers } else s.dropSigner number coinbase
    { s with votes := s.votes.filter (·.address ≠ coinbase), tally := Function.update s.tally coinbase none }
  else s

/-- The body of the loop of `apply` for one header. -/
def applyHeader (ecrecover : Header α → Except CliqueError α) (epoch : UInt64) (snap : Snapshot α)
    (header : Header α) : Except CliqueError (Snapshot α) :=
  let number := header.number
  let snap := (snap.clearVotes epoch number).forgetRecent number
  match ecrecover header with
  | .error e => .error e
  | .ok signer =>
    if signer ∉ snap.signers then .error .unauthorized
    else if snap.recents.any (·.2 = signer) then .error .unauthorized
    else
      let snap := ({ snap with recents := recentsSet snap.recents number signer } : Snapshot α).discardVote
        signer header.coinbase
      match voteOf header.nonce with
      | none => .error .invalidVote
      | some authorize => .ok ((snap.castVote signer number header.coinbase authorize).passVote number header.coinbase)

/-- The sanity check of `apply`: the numbers of the headers follow each other. -/
def linked : List (Header α) → Bool
  | h₁ :: h₂ :: hs => h₂.number = h₁.number + 1 && linked (h₂ :: hs)
  | _ => true

def applyHeaders (ecrecover : Header α → Except CliqueError α) (epoch : UInt64) :
    Snapshot α → List (Header α) → Except CliqueError (Snapshot α)
  | snap, [] => .ok snap
  | snap, header :: headers =>
    match snap.applyHeader ecrecover epoch header with
    | .error e => .error e
    | .ok snap => applyHeaders ecrecover epoch snap headers

/-- `apply` creates the snapshot after `headers` from `s`. -/
def apply (ecrecover : Header α → Except CliqueError α) (headerHash : Header α → List UInt8)
    (s : Snapshot α) (headers : List (Header α)) : Except CliqueError (Snapshot α) :=
  match headers with
  | [] => .ok s
  | first :: rest =>
    if !linked (first :: rest) then .error .invalidVotingChain
    else if first.number ≠ s.number + 1 then .error .invalidVotingChain
    else
      match applyHeaders ecrecover s.config.epoch s (first :: rest) with
      | .error e => .error e
      | .ok snap =>
        .ok { snap with number := snap.number + UInt64.ofNat (rest.length + 1),
                        hash := headerHash ((first :: rest).getLast (List.cons_ne_nil _ _)) }

end Snapshot

/-- Distinct keys in ascending order: the order `signers` puts the signers in, and the one
`json.Marshal` writes the keys of a map in. -/
abbrev ascending {β : Type} [LinearOrder β] (s : Finset β) : List β := s.sort (· ≤ ·)

end Zerium.Clique
