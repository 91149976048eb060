import Zerium.Core.ChainIndexer

/-! # A section stored from a chain that is no longer canonical

`processSection` checks the links of the headers it reads, and the update loop, back under the
lock, checks that the head of the section before is still the one it started from. For the first
section there is no head before: `oldHead` is the zero hash, and so is `SectionHead(0 - 1)`, since
no section `2 ^ 64 - 1` is ever stored. So a reorg that replaces the last block of section `0`
after `processSection` read it goes unnoticed. The event loop's `newHead` lowers `knownSections`
and then raises it again for the new head; the update loop stores section `0` with the head of
the old chain, and both loops go idle (`storedSection_stale`).
-/

namespace Zerium.Core

set_option autoImplicit false

namespace ChainView

variable {α : Type} [DecidableEq α]

def ofHeaders (zero : α) (canon stored : List (Header α)) : ChainView α where
  canonical n := ((canon.find? fun h => h.number64 = n).map Header.hash).getD zero
  header hash n := stored.find? fun h => h.hash = hash ∧ h.number64 = n

end ChainView

namespace ChainIndexer

variable {α : Type} [DecidableEq α]

theorem storedSection_stale (zero : α) (G A₁ B₁ : Header α) (hG : G.number = 0)
    (hA : A₁.number = 1) (hB : B₁.number = 1) (hGp : G.parentHash = zero)
    (hAp : A₁.parentHash = G.hash) (hBp : B₁.parentHash = G.hash) (hGz : G.hash ≠ zero)
    (hAz : A₁.hash ≠ zero) (hBz : B₁.hash ≠ zero) (hAB : A₁.hash ≠ B₁.hash)
    (hGA : G.hash ≠ A₁.hash) :
    ∃ c, run ⟨2, 0, zero⟩
        [.wake, .process, .process, .process,
          .write (.ofHeaders zero [G, B₁] [G, A₁, B₁]) (some B₁), .event, .finish, .wake]
        (start ⟨2, 0, zero⟩ (.ofHeaders zero [G, A₁] [G, A₁]) A₁) = some c ∧
      Idle c ∧ c.storedSections = 1 ∧ c.SectionHead ⟨2, 0, zero⟩ 0 = A₁.hash ∧
      c.chain.canonical 1 = B₁.hash ∧ c.committed 0 = some [G, A₁] := by
  simp [run, step, start, newHead, wake, processStep, finish, onEvent, writeChain,
    FindCommonAncestor, ancestorAtLoop, meetLoop, SectionHead, setSectionHead, setValidSections,
    removeLoop, Idle, ChainView.ofHeaders, Header.number64, hG, hA, hB, hGp, hAp, hBp, hGz, hAz,
    hBz, hAB, hGA]

theorem storedSection_stale_nat :
    ∃ c, run ⟨2, 0, 0⟩
        [.wake, .process, .process, .process,
          .write (.ofHeaders 0 [⟨1, 0, 0, 0⟩, ⟨3, 1, 1, 0⟩] [⟨1, 0, 0, 0⟩, ⟨2, 1, 1, 0⟩, ⟨3, 1, 1, 0⟩])
            (some ⟨3, 1, 1, 0⟩), .event, .finish, .wake]
        (start ⟨2, 0, 0⟩ (.ofHeaders 0 [⟨1, 0, 0, 0⟩, ⟨2, 1, 1, 0⟩] [⟨1, 0, 0, 0⟩, ⟨2, 1, 1, 0⟩])
          ⟨2, 1, 1, 0⟩) = some c ∧
      Idle c ∧ c.storedSections = 1 ∧ c.SectionHead ⟨2, 0, 0⟩ 0 = 2 ∧ c.chain.canonical 1 = 3 ∧
      c.committed 0 = some [⟨1, 0, 0, 0⟩, ⟨2, 1, 1, 0⟩] :=
  storedSection_stale 0 ⟨1, 0, 0, 0⟩ ⟨2, 1, 1, 0⟩ ⟨3, 1, 1, 0⟩ rfl rfl rfl rfl rfl rfl
    (by decide) (by decide) (by decide) (by decide) (by decide)

end ChainIndexer

end Zerium.Core
