import Zerium.Rlp.Decode
import Zerium.Lib.EState

/-! # The open lists of a `Stream`

`List` pushes a frame for the list it enters and `ListEnd` pops it; every read charges its
bytes to the innermost frame and to the input limit. The header of an inner list is charged to
the enclosing frame when it is read, the inner list's payload only when `ListEnd` closes it.
`Stream.Inv` states what this bookkeeping keeps: no frame has read past its size, an inner
list fits in what its enclosing list had left, the outermost list's unread bytes fit in the
input limit, and a size `Kind` cached fits where it will be read. Every method and decoder keeps
it from every state, whether it returns a value or fails, so it holds after any sequence of
calls on any input.
-/


namespace Zerium.Rlp

set_option autoImplicit false

def FramesOk : List Listpos → Prop
  | [] => True
  | [f] => f.pos ≤ f.size
  | f :: g :: rest => f.pos ≤ f.size ∧ f.size ≤ g.size - g.pos ∧ FramesOk (g :: rest)

def outerLeft : List Listpos → Nat
  | [] => 0
  | [f] => f.size - f.pos
  | f :: g :: rest => outerLeft (g :: rest) - f.pos

/-- The size `Kind` has cached without an error fits where the value is read. -/
def CacheOk (s : Stream) : Prop :=
  s.kind ≠ none → s.kinderr = none →
    match s.stack with
    | tos :: _ => s.size ≤ tos.size - tos.pos
    | [] => s.limited = true → s.size ≤ s.remaining

structure Stream.Inv (s : Stream) : Prop where
  frames : FramesOk s.stack
  limit : s.limited = true → outerLeft s.stack ≤ s.remaining
  cache : CacheOk s

theorem FramesOk.pos_le : ∀ (stack : List Listpos), FramesOk stack → ∀ f ∈ stack, f.pos ≤ f.size
  | [], _, _, hf => absurd hf List.not_mem_nil
  | [g], h, f, hf => by
    rw [List.mem_singleton] at hf
    subst hf
    exact h
  | g :: g' :: rest, ⟨hg, _, hrest⟩, f, hf => by
    rcases List.mem_cons.mp hf with rfl | hf
    · exact hg
    · exact FramesOk.pos_le _ hrest f hf

theorem FramesOk.charge {tos : Listpos} {rest : List Listpos} {n : Nat} (h : FramesOk (tos :: rest))
    (hn : n ≤ tos.size - tos.pos) : FramesOk ({ tos with pos := tos.pos + n } :: rest) := by
  cases rest with
  | nil =>
    show tos.pos + n ≤ tos.size
    have : tos.pos ≤ tos.size := h
    omega
  | cons g rest =>
    obtain ⟨hpos, hsize, hrest⟩ := h
    exact ⟨by simp only; omega, hsize, hrest⟩

theorem outerLeft_charge (tos : Listpos) (rest : List Listpos) (n : Nat) :
    outerLeft ({ tos with pos := tos.pos + n } :: rest) = outerLeft (tos :: rest) - n := by
  cases rest with
  | nil => simp only [outerLeft]; omega
  | cons g rest => simp only [outerLeft]; omega

theorem FramesOk.closeInto {tos : Listpos} {rest : List Listpos} (h : FramesOk (tos :: rest)) : FramesOk (Listpos.closeInto tos.size rest) := by
  match rest, h with
  | [], _ => trivial
  | [g], ⟨_, hsize, hg⟩ =>
    have hg : g.pos ≤ g.size := hg
    show g.pos + tos.size ≤ g.size
    omega
  | g :: g' :: rest, ⟨_, hsize, hg, hg', hrest⟩ =>
    exact ⟨by simp only; omega, by simpa using hg', hrest⟩

theorem outerLeft_closeInto {tos : Listpos} {rest : List Listpos} (hend : tos.pos = tos.size) :
    outerLeft (Listpos.closeInto tos.size rest) ≤ outerLeft (tos :: rest) := by
  match rest with
  | [] => simp [Listpos.closeInto, outerLeft]
  | [g] => simp only [Listpos.closeInto, outerLeft]; omega
  | g :: g' :: rest => simp only [Listpos.closeInto, outerLeft]; omega

/-! ## Each operation keeps the invariant -/

namespace Stream

theorem Inv.rearm {s s' : Stream} (h : s.Inv) (hstack : s'.stack = s.stack)
    (hlimited : s'.limited = s.limited) (hremaining : s'.remaining = s.remaining)
    (hkind : s'.kind = none) : s'.Inv where
  frames := hstack ▸ h.frames
  limit := fun hl => hstack ▸ hremaining ▸ h.limit (hlimited ▸ hl)
  cache := fun hk => absurd hkind hk

theorem Inv.of_eq {s s' : Stream} (h : s.Inv) (hstack : s'.stack = s.stack)
    (hlimited : s'.limited = s.limited) (hremaining : s'.remaining = s.remaining)
    (hkind : s'.kind = s.kind) (hkinderr : s'.kinderr = s.kinderr) (hsize : s'.size = s.size) :
    s'.Inv where
  frames := hstack ▸ h.frames
  limit := fun hl => hstack ▸ hremaining ▸ h.limit (hlimited ▸ hl)
  cache := by
    unfold CacheOk
    rw [hstack, hlimited, hremaining, hkind, hkinderr, hsize]
    exact h.cache

abbrev KeepsInv {α : Type} (x : StreamM α) : Prop := EStateM.Keeps (fun s s' => s.Inv → s'.Inv) x

theorem inv_refl (s : Stream) : s.Inv → s.Inv := id

theorem inv_trans (s₁ s₂ s₃ : Stream) (h₁ : s₁.Inv → s₂.Inv) (h₂ : s₂.Inv → s₃.Inv) :
    s₁.Inv → s₃.Inv := h₂ ∘ h₁

theorem checkLimit_inv {n : Nat} {s : Stream} (h : s.Inv) (hkind : s.kind = none)
    (hroom : s.limited = true → n ≤ s.remaining → outerLeft s.stack ≤ s.remaining - n) :
    (checkLimit n s).state.Inv := by
  unfold checkLimit
  by_cases hl : s.limited
  · rw [if_pos hl]
    by_cases hn : n > s.remaining
    · rw [if_pos hn]
      exact h
    · rw [if_neg hn]
      exact ⟨h.frames, fun _ => hroom hl (Nat.le_of_not_lt hn), fun hk => absurd hkind hk⟩
  · rw [if_neg hl]
    exact h

theorem willRead_keepsInv {n : Nat} : KeepsInv (willRead n) := by
  intro s h
  unfold willRead
  have h₀ : ({ s with kind := none } : Stream).Inv := h.rearm rfl rfl rfl rfl
  dsimp only
  split
  · rename_i tos rest hst
    by_cases hn : n > tos.size - tos.pos
    · rw [if_pos hn]
      exact h₀
    · rw [if_neg hn]
      -- the read fits in the innermost list, which is charged before the limit is checked
      have hframes := FramesOk.charge (hst ▸ h.frames) (Nat.le_of_not_lt hn)
      have hroom : s.limited = true →
          outerLeft ({ tos with pos := tos.pos + n } :: rest) ≤ s.remaining - n := fun hl => by
        rw [outerLeft_charge]
        exact Nat.sub_le_sub_right (hst ▸ h.limit hl) n
      exact checkLimit_inv ⟨hframes, fun hl => (hroom hl).trans (Nat.sub_le _ _), fun hk => absurd rfl hk⟩
        rfl fun hl _ => hroom hl
  · rename_i hst
    refine checkLimit_inv h₀ rfl fun _ _ => ?_
    simp [hst, outerLeft]

theorem readByte_keepsInv : KeepsInv readByte := by
  intro s h
  have hw := willRead_keepsInv (n := 1) s h
  unfold readByte
  cases hws : willRead 1 s with
  | error e s' =>
    rw [hws] at hw
    exact hw
  | ok u s' =>
    rw [hws] at hw
    obtain ⟨⟩ := u
    dsimp only
    cases hr : s'.r with
    | nil => exact hw
    | cons b r => exact hw.of_eq rfl rfl rfl rfl rfl rfl

theorem readFull_keepsInv {n : Nat} : KeepsInv (readFull n) := by
  intro s h
  have hw := willRead_keepsInv (n := n) s h
  unfold readFull
  cases hws : willRead n s with
  | error e s' =>
    rw [hws] at hw
    exact hw
  | ok u s' =>
    rw [hws] at hw
    obtain ⟨⟩ := u
    by_cases hlen : s'.r.length < n
    · simp only [if_pos hlen]
      exact hw.of_eq rfl rfl rfl rfl rfl rfl
    · simp only [if_neg hlen]
      exact hw.of_eq rfl rfl rfl rfl rfl rfl

theorem readUint_keepsInv {size : Nat} : KeepsInv (readUint size) := by
  intro s h
  unfold readUint
  by_cases h0 : size = 0
  · rw [if_pos h0]
    exact h.rearm rfl rfl rfl rfl
  · rw [if_neg h0]
    by_cases h1 : size = 1
    · rw [if_pos h1]
      have hb := readByte_keepsInv s h
      cases hrb : readByte s with
      | ok b s' => rw [hrb] at hb; exact hb
      | error e s' => rw [hrb] at hb; exact hb
    · rw [if_neg h1]
      have hf := readFull_keepsInv (n := size) s h
      cases hrf : readFull size s with
      | error e s' => rw [hrf] at hf; exact hf
      | ok buf s' =>
        rw [hrf] at hf
        by_cases hz : buf.head? = some 0
        · simp only [if_pos hz]
          exact hf
        · simp only [if_neg hz]
          exact hf

theorem readLongSize_keepsInv (kind : Zerium.Rlp.Kind) (sizesize : UInt8) (s : Stream) (h : s.Inv) :
    (readLongSize kind sizesize s).2.Inv := by
  have hu := @readUint_keepsInv sizesize.toNat s h
  unfold readLongSize
  cases hru : readUint sizesize.toNat s with
  | ok size s' => rw [hru] at hu; exact hu
  | error e s' => rw [hru] at hu; exact hu

theorem readKind_keepsInv (s : Stream) (h : s.Inv) : (readKind s).2.Inv := by
  have hb := readByte_keepsInv s h
  unfold readKind
  cases hrb : readByte s with
  | error err s' =>
    rw [hrb] at hb
    exact hb
  | ok b s' =>
    rw [hrb] at hb
    -- the tag byte has been charged; what follows reads the size, if any
    have h₀ : ({ s' with byteval := 0 } : Stream).Inv := hb.of_eq rfl rfl rfl rfl rfl rfl
    dsimp only
    split_ifs
    · exact h₀.of_eq rfl rfl rfl rfl rfl rfl
    · exact h₀
    · exact readLongSize_keepsInv _ _ _ h₀
    · exact h₀
    · exact readLongSize_keepsInv _ _ _ h₀

theorem readKindChecked_keepsInv : KeepsInv readKindChecked := by
  intro s h
  have h₁ := readKind_keepsInv s h
  unfold readKindChecked
  rcases hk : readKind s with ⟨⟨kind, size, err⟩, s₁⟩
  rw [hk] at h₁
  dsimp only
  split
  · -- a sticky error: nothing is cached as fitting
    rename_i e herr
    refine ⟨h₁.frames, h₁.limit, fun _ hnone => ?_⟩
    simp only [herr] at hnone
    cases hnone
  · rename_i herr
    refine ⟨h₁.frames, h₁.limit, fun _ _ => ?_⟩
    cases err with
    | some e => cases herr
    | none =>
      simp only at herr ⊢
      cases hst : s₁.stack with
      | nil =>
        rw [hst] at herr
        simp only [ite_eq_right_iff, reduceCtorEq, imp_false, not_and, not_lt] at herr
        exact herr
      | cons tos rest =>
        rw [hst] at herr
        simp only [ite_eq_right_iff, reduceCtorEq, imp_false, not_lt] at herr
        exact herr

theorem Kind_keepsInv : KeepsInv Stream.Kind := by
  intro s h
  unfold Stream.Kind
  cases hk : s.kind with
  | some kind =>
    -- the cached kind, or its sticky error
    cases s.kinderr with
    | some e => exact h
    | none => exact h
  | none =>
    have h₀ : ({ s with kind := none, kinderr := none } : Stream).Inv := h.rearm rfl rfl rfl rfl
    dsimp only
    split
    · split
      · exact h₀
      · exact readKindChecked_keepsInv _ h₀
    · exact readKindChecked_keepsInv _ h₀

theorem readKindChecked_ok_cache {s s' : Stream} {k : Zerium.Rlp.Kind} {n : Nat}
    (h : readKindChecked s = .ok (k, n) s') : s'.kind = some k ∧ s'.kinderr = none ∧ s'.size = n := by
  unfold readKindChecked at h
  dsimp only at h
  split at h
  · cases h
  · rename_i herr
    simp only [EStateM.Result.ok.injEq, Prod.mk.injEq] at h
    obtain ⟨⟨rfl, rfl⟩, rfl⟩ := h
    exact ⟨rfl, herr, rfl⟩

theorem Kind_ok_cache {s s' : Stream} {k : Zerium.Rlp.Kind} {n : Nat} (h : Stream.Kind s = .ok (k, n) s') :
    s'.kind = some k ∧ s'.kinderr = none ∧ s'.size = n := by
  unfold Stream.Kind at h
  cases hk : s.kind with
  | some kind =>
    rw [hk] at h
    cases he : s.kinderr with
    | some e => simp [he] at h
    | none =>
      simp only [he, EStateM.Result.ok.injEq, Prod.mk.injEq] at h
      obtain ⟨⟨rfl, rfl⟩, rfl⟩ := h
      exact ⟨hk, he, rfl⟩
  | none =>
    rw [hk] at h
    dsimp only at h
    split at h
    · split at h
      · cases h
      · exact readKindChecked_ok_cache h
    · exact readKindChecked_ok_cache h

theorem Bytes_keepsInv : KeepsInv Stream.Bytes := by
  refine EStateM.Keeps.bind inv_trans Kind_keepsInv fun ⟨kind, size⟩ => ?_
  cases kind with
  | Byte => exact EStateM.Keeps.modifyGet fun s h => h.rearm rfl rfl rfl rfl
  | String =>
    refine EStateM.Keeps.bind inv_trans readFull_keepsInv fun b => ?_
    dsimp only
    exact EStateM.Keeps.ite (EStateM.Keeps.throw_bind inv_refl _ _) (EStateM.Keeps.pure inv_refl _)
  | List => exact EStateM.Keeps.throw inv_refl _

theorem Raw_keepsInv : KeepsInv Stream.Raw := by
  refine EStateM.Keeps.bind inv_trans Kind_keepsInv fun ⟨kind, size⟩ => ?_
  cases kind with
  | Byte => exact EStateM.Keeps.modifyGet fun s h => h.rearm rfl rfl rfl rfl
  | String => exact EStateM.Keeps.bind inv_trans readFull_keepsInv fun _ => EStateM.Keeps.pure inv_refl _
  | List => exact EStateM.Keeps.bind inv_trans readFull_keepsInv fun _ => EStateM.Keeps.pure inv_refl _

theorem uint_keepsInv {maxbits : Nat} : KeepsInv (Stream.uint maxbits) := by
  refine EStateM.Keeps.bind inv_trans Kind_keepsInv fun ⟨kind, size⟩ => ?_
  cases kind with
  | Byte =>
    -- a single byte: rearm `Kind` in the state read
    refine EStateM.Keeps.of_get fun s h => ?_
    dsimp only
    by_cases hb : s.byteval = 0
    · simp only [hb, if_true, EStateM.throw_bind_apply]
      exact h
    · simp only [hb, if_false, EStateM.set_bind_apply, EStateM.pure_apply]
      exact h.rearm rfl rfl rfl rfl
  | String =>
    dsimp only
    -- a non-canonical single byte fails; otherwise the size bytes are read
    refine EStateM.Keeps.ite (EStateM.Keeps.throw_bind inv_refl _ _) ?_
    refine EStateM.Keeps.bind inv_trans (EStateM.Keeps.adaptExcept readUint_keepsInv) fun v => ?_
    exact EStateM.Keeps.ite (EStateM.Keeps.throw_bind inv_refl _ _) (EStateM.Keeps.pure inv_refl _)
  | List => exact EStateM.Keeps.throw inv_refl _

theorem Uint_keepsInv : KeepsInv Stream.Uint := uint_keepsInv

theorem Bool_keepsInv : KeepsInv Stream.Bool := by
  refine EStateM.Keeps.bind inv_trans uint_keepsInv fun num => ?_
  split
  · exact EStateM.Keeps.pure inv_refl _
  · exact EStateM.Keeps.pure inv_refl _
  · exact EStateM.Keeps.throw inv_refl _

theorem Inv.push {s : Stream} (h : s.Inv) (hkind : s.kind ≠ none) (herr : s.kinderr = none) :
    ({ s with stack := ⟨0, s.size⟩ :: s.stack, kind := none, size := 0 } : Stream).Inv := by
  have hfits := h.cache hkind herr
  refine ⟨?_, fun hl => ?_, fun hk => absurd rfl hk⟩
  · cases hst : s.stack with
    | nil => exact Nat.zero_le _
    | cons tos rest =>
      rw [hst] at hfits
      exact ⟨Nat.zero_le _, hfits, hst ▸ h.frames⟩
  · cases hst : s.stack with
    | nil =>
      rw [hst] at hfits
      simpa [outerLeft] using hfits hl
    | cons tos rest =>
      have := h.limit hl
      rw [hst] at this
      simpa [outerLeft] using this

theorem Inv.close {s : Stream} {tos rest} (h : s.Inv)
    (hst : s.stack = tos :: rest) (hend : tos.pos = tos.size) :
    ({ s with stack := Listpos.closeInto tos.size rest, kind := none, size := 0 } : Stream).Inv := by
  have hframes := h.frames
  rw [hst] at hframes
  refine ⟨hframes.closeInto, fun hl => ?_, fun hk => absurd rfl hk⟩
  have := h.limit hl
  rw [hst] at this
  exact Nat.le_trans (outerLeft_closeInto hend) this

theorem List_keepsInv : KeepsInv Stream.List := by
  intro s h
  have hk := Kind_keepsInv s h
  unfold Stream.List
  rw [EStateM.bind_apply]
  cases hK : Stream.Kind s with
  | error e s₁ =>
    rw [hK] at hk
    exact hk
  | ok a s₁ =>
    rw [hK] at hk
    obtain ⟨kind, size⟩ := a
    obtain ⟨hkind, herr, hsize⟩ := Kind_ok_cache hK
    dsimp only
    by_cases hl : kind ≠ .List
    · rw [if_pos hl, EStateM.throw_bind_apply]
      exact hk
    · rw [if_neg hl, EStateM.modify_bind_apply, EStateM.pure_apply, EStateM.Result.state_ok, ← hsize]
      exact hk.push (by simp [hkind]) herr

theorem ListEnd_keepsInv : KeepsInv Stream.ListEnd := by
  refine EStateM.Keeps.of_get fun s h => ?_
  dsimp only
  cases hst : s.stack with
  | nil => simp only [EStateM.throw_apply]; exact h
  | cons tos rest =>
    dsimp only
    by_cases hend : tos.pos ≠ tos.size
    · rw [if_pos hend, EStateM.throw_bind_apply]
      exact h
    · rw [if_neg hend, EStateM.set_apply, EStateM.Result.state_ok]
      exact h.close hst (not_not.mp hend)


theorem decodeUint_keepsInv (bits : Nat) (typ : String) : KeepsInv (decodeUint bits typ) :=
  EStateM.Keeps.bind inv_trans (EStateM.Keeps.adaptExcept uint_keepsInv) fun _ =>
    EStateM.Keeps.pure inv_refl _

theorem decodeBigInt_keepsInv (typ : String) : KeepsInv (decodeBigInt typ) := by
  refine EStateM.Keeps.bind inv_trans (EStateM.Keeps.adaptExcept Bytes_keepsInv) fun b => ?_
  dsimp only
  exact EStateM.Keeps.ite (EStateM.Keeps.throw_bind inv_refl _ _) (EStateM.Keeps.pure inv_refl _)

theorem decodeSliceElems_keepsInv {α : Type} {elemdec : StreamM α} (helem : KeepsInv elemdec) :
    ∀ fuel i, KeepsInv (decodeSliceElems elemdec fuel i)
  | 0, _ => EStateM.Keeps.throw inv_refl _
  | fuel + 1, i => fun s h => by
    have h₁ := helem s h
    simp only [decodeSliceElems]
    split
    all_goals rename_i heq
    all_goals simp only [heq, EStateM.Result.state_ok, EStateM.Result.state_error] at h₁ ⊢
    all_goals try exact h₁
    have h₂ := decodeSliceElems_keepsInv helem fuel (i + 1) _ h₁
    split
    all_goals rename_i heq'
    all_goals simp only [heq', EStateM.Result.state_ok, EStateM.Result.state_error] at h₂ ⊢
    all_goals exact h₂

theorem decodeListSlice_keepsInv {α : Type} {elemdec : StreamM α} (helem : KeepsInv elemdec)
    (typ : String) (fuel : Nat) : KeepsInv (decodeListSlice elemdec typ fuel) := by
  refine EStateM.Keeps.bind inv_trans (EStateM.Keeps.adaptExcept List_keepsInv) fun size => ?_
  exact EStateM.Keeps.ite
    (EStateM.Keeps.bind inv_trans ListEnd_keepsInv fun _ => EStateM.Keeps.pure inv_refl _)
    (EStateM.Keeps.bind inv_trans (decodeSliceElems_keepsInv helem fuel 0) fun _ =>
      EStateM.Keeps.bind inv_trans ListEnd_keepsInv fun _ => EStateM.Keeps.pure inv_refl _)

theorem decodeInterface_keepsInv : ∀ fuel, KeepsInv (decodeInterface fuel)
  | 0 => EStateM.Keeps.throw inv_refl _
  | fuel + 1 => by
    refine EStateM.Keeps.bind inv_trans Kind_keepsInv fun ⟨kind, _⟩ => ?_
    exact EStateM.Keeps.ite
      (EStateM.Keeps.bind inv_trans (decodeListSlice_keepsInv (decodeInterface_keepsInv fuel) _ fuel) fun _ =>
        EStateM.Keeps.pure inv_refl _)
      (EStateM.Keeps.bind inv_trans Bytes_keepsInv fun _ => EStateM.Keeps.pure inv_refl _)

theorem Decode_keepsInv {α : Type} {dec : StreamM α} (hdec : KeepsInv dec) (typ : String) :
    KeepsInv (Stream.Decode dec typ) :=
  EStateM.Keeps.adaptExcept hdec

end Stream

theorem Reset_inv (r : List UInt8) (inputLimit : Nat) : (Stream.Reset r inputLimit).Inv :=
  ⟨trivial, fun _ => Nat.zero_le _, fun hk => absurd rfl hk⟩

/-- What a caller can do with a `Stream`: reset it, call one of its methods, or decode a
value into one of the supported targets. -/
inductive Op where
  | reset (r : List UInt8) (inputLimit : Nat)
  | kind
  | bytes
  | raw
  | uint
  | bool
  | list
  | listEnd
  | decodeInterface (fuel : Nat) (typ : String)
  | decodeUint (bits : Nat) (typ : String)
  | decodeBigInt (typ : String)
deriving Repr

def runOp : Op → Stream → Stream
  | .reset r inputLimit, _ => Stream.Reset r inputLimit
  | .kind, s => (Stream.Kind s).state
  | .bytes, s => (Stream.Bytes s).state
  | .raw, s => (Stream.Raw s).state
  | .uint, s => (Stream.Uint s).state
  | .bool, s => (Stream.Bool s).state
  | .list, s => (Stream.List s).state
  | .listEnd, s => (Stream.ListEnd s).state
  | .decodeInterface fuel typ, s => (Stream.Decode (decodeInterface fuel) typ s).state
  | .decodeUint bits typ, s => (Stream.Decode (decodeUint bits typ) typ s).state
  | .decodeBigInt typ, s => (Stream.Decode (decodeBigInt typ) typ s).state

def runOps : List Op → Stream → Stream
  | [], s => s
  | op :: ops, s => runOps ops (runOp op s)

theorem runOp_inv {s : Stream} (op : Op) (h : s.Inv) : (runOp op s).Inv := by
  cases op with
  | reset r inputLimit => exact Reset_inv r inputLimit
  | kind => exact Stream.Kind_keepsInv s h
  | bytes => exact Stream.Bytes_keepsInv s h
  | raw => exact Stream.Raw_keepsInv s h
  | uint => exact Stream.Uint_keepsInv s h
  | bool => exact Stream.Bool_keepsInv s h
  | list => exact Stream.List_keepsInv s h
  | listEnd => exact Stream.ListEnd_keepsInv s h
  | decodeInterface fuel typ => exact Stream.Decode_keepsInv (Stream.decodeInterface_keepsInv fuel) typ s h
  | decodeUint bits typ => exact Stream.Decode_keepsInv (Stream.decodeUint_keepsInv bits typ) typ s h
  | decodeBigInt typ => exact Stream.Decode_keepsInv (Stream.decodeBigInt_keepsInv typ) typ s h

theorem runOps_inv {s : Stream} (ops : List Op) (h : s.Inv) : (runOps ops s).Inv := by
  induction ops generalizing s with
  | nil => exact h
  | cons op ops ih => exact ih (runOp_inv op h)

/-- Over any input and after any operations, every open list's position is within its
size, each inner list's size fits in what its enclosing list had left, the outermost list's
unread bytes fit in the input limit, and a cached size fits in the innermost list. -/
theorem stream_frames_fit (input : List UInt8) (inputLimit : Nat) (ops : List Op) :
    (runOps ops (NewStream input inputLimit)).Inv ∧
      ∀ f ∈ (runOps ops (NewStream input inputLimit)).stack, f.pos ≤ f.size := by
  have h := runOps_inv ops (Reset_inv input inputLimit)
  exact ⟨h, FramesOk.pos_le _ h.frames⟩

end Zerium.Rlp
