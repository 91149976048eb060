import Zerium.Merkletree.Hasher

/-! # Two writes into a hasher of three segments

The hasher of `count = 3` segments of 32 bytes has a tree of two leaves under the root.
`Write` of 50 bytes leaves them open in the first leaf. `Write` of 60 more counts its room from
the start of that leaf, 96 bytes, so it takes 14 bytes to complete the first leaf, starts its
goroutine and leaves the other 46 open in the last one; `Sum` then hashes that leaf by itself,
being longer than a segment. The reference hashes the first 96 bytes, keeping the last 32 of
them unhashed in the root's right.

The run is followed in every interleaving: once both leaves are written the configurations
are those of `conf`, one `Progress` per goroutine, and `Stage` says which of them the run
reaches; every step keeps it, so every run that returns gives the same root.
-/

namespace Zerium.Merkletree

set_option autoImplicit false

variable (H : List UInt8 → List UInt8)

section SplitWrite

variable (b₁ b₂ : List UInt8)

theorem depth_three : depth 3 = 1 := by
  rw [depth, depthLoop, if_pos (by decide), depthLoop, if_neg (by decide)]

theorem Write_first (h₁ : b₁.length = 50) : Write ⟨32, 3⟩ 0 [] b₁ = some (0, b₁, []) := by
  have hs : slice b₁ 0 50 = some b₁ := by
    rw [slice, if_pos (by simp [h₁])]
    simp [← h₁]
  simp only [Write, h₁]
  simp
  rw [hs, Option.bind_some, writeLoop, if_neg (by decide)]

theorem Write_second (h₁ : b₁.length = 50) (h₂ : b₂.length = 60) :
    Write ⟨32, 3⟩ 0 b₁ b₂ = some (1, b₂.drop 14, [(0, b₁ ++ b₂.take 14)]) := by
  have hs₁ : slice b₂ 0 14 = some (b₂.take 14) := by
    rw [slice, if_pos (by simp [h₂])]
    simp
  have hs₂ : slice b₂ 14 60 = some (b₂.drop 14) := by
    rw [slice, if_pos (by simp [h₂])]
    simp [← h₂]
  simp only [Write, h₁, h₂]
  simp
  rw [hs₁, Option.bind_some, writeLoop, if_pos (by decide)]
  simp
  rw [hs₂, Option.bind_some, writeLoop, if_neg (by decide)]

theorem doubleUntil_three : doubleUntil 3 2 = 4 := by
  rw [doubleUntil, if_pos (by decide), doubleUntil, if_neg (by decide)]

theorem Hash_split (h₁ : b₁.length = 50) (h₂ : b₂.length = 60) :
    (NewRefHasher 32 3).Hash H (b₁ ++ b₂) =
      some (H (H ((b₁ ++ b₂).take 64) ++ ((b₁ ++ b₂).take 96).drop 64)) := by
  have hspan : NewRefHasher 32 3 = ⟨64, 64, 96⟩ := by
    simp only [NewRefHasher, doubleUntil_three]
    rfl
  have hlen : ((b₁ ++ b₂).take 96).length = 96 := by simp [h₁, h₂]
  have hhalf : halveBelow 64 96 = 64 := by rw [halveBelow, if_neg (by decide)]
  rw [hspan, RefHasher.Hash, RefHasher.hash, dif_pos (by rw [hlen]; decide)]
  simp only [hlen, hhalf]
  rw [dif_neg (by decide), RefHasher.hash, dif_neg (by simp [h₁, h₂])]
  simp [List.take_take]

end SplitWrite

/-! ## Every interleaving of the run -/

section Interleavings

variable (a b : List UInt8)

/-- How far a leaf's goroutine has come: the statement it is at. -/
inductive Progress
  | hashing
  | storing
  | checking
  | combining
  | sending
  | finished
deriving DecidableEq, Repr

def Progress.stored : Progress → Bool
  | .hashing | .storing => false
  | _ => true

def Progress.toggled : Progress → Bool
  | .combining | .sending | .finished => true
  | _ => false

def stage0 : Progress → Routine
  | .hashing => .leafHash (1, 0) 1 a
  | .storing => .store (0, 0) 1 0 true (H a)
  | .checking => .check (0, 0) 1 0 true
  | .combining => .combine (0, 0) 1 0 true
  | .sending => .send (H (H a ++ H b))
  | .finished => .done

def stage1 : Progress → Routine
  | .hashing => .leafHash (1, 1) 0 b
  | .storing => .store (0, 0) 0 1 false (H b)
  | .checking => .check (0, 0) 0 1 false
  | .combining => .combine (0, 0) 0 1 false
  | .sending => .send (H (H a ++ H b))
  | .finished => .done

def rootNode (p0 p1 : Progress) : Node :=
  ⟨true, false, p0.toggled.toNat + p1.toggled.toNat,
    if p0.stored then H a else [], if p1.stored then H b else []⟩

/-- The configuration once both leaves are written; the last leaf's goroutine `p1` starts
when `Sum` has marked the path. -/
def conf (p0 : Progress) (p1 : Option Progress) (m : Main) : Conf :=
  ⟨Function.update freshNode (0, 0) (rootNode H a b p0 (p1.getD .hashing)), 1, b, none,
    stage0 H a b p0 :: (p1.map (stage1 H a b)).toList, m⟩

/-- Which configurations of `conf` the run reaches: only the goroutine that toggles the root
second goes on to hash it. -/
structure Stage (p0 : Progress) (p1 : Option Progress) (m : Main) : Prop where
  main : (p1 = none ∧ (m = .writing [] ∨ m = .finalising (0, 0) false 0 1)) ∨
    (p1.isSome ∧ (m = .receiving ∨ m = .returned (H (H a ++ H b))))
  first : p0 = .combining ∨ p0 = .sending → p1 = some .finished
  second : p1 = some .combining ∨ p1 = some .sending → p0 = .finished

theorem conf_root (p0 : Progress) (p1 : Option Progress) (m : Main) :
    (conf H a b p0 p1 m).nodes (0, 0) = rootNode H a b p0 (p1.getD .hashing) := by
  simp [conf]

theorem conf_leaf (p0 : Progress) (p1 : Option Progress) (m : Main) (i : Nat) :
    (conf H a b p0 p1 m).nodes (1, i) = freshNode (1, i) := by
  simp [conf]

theorem setNode_conf (p0 : Progress) (p1 : Option Progress) (m : Main) (f : Node → Node) :
    setNode (conf H a b p0 p1 m).nodes (0, 0) f =
      Function.update freshNode (0, 0) (f (rootNode H a b p0 (p1.getD .hashing))) := by
  rw [setNode, conf_root]
  exact Function.update_idem _ _ _

def Progress.next : Progress → Progress → Option Progress
  | .hashing, _ => some .storing
  | .storing, _ => some .checking
  | .checking, other => some (if other.toggled then .combining else .finished)
  | .combining, _ => some .sending
  | .sending, _ | .finished, _ => none

theorem stage0_routineStep {p0 : Progress} {p1 : Option Progress} {m : Main}
    (hst : Stage H a b p0 p1 m) :
    routineStep H (conf H a b p0 p1 m).nodes (stage0 H a b p0) =
      (p0.next (p1.getD .hashing)).map fun p => (stage0 H a b p, (conf H a b p p1 m).nodes) := by
  cases p0 with
  | hashing => simp [stage0, routineStep, conf_leaf, freshNode, NodeId.parent, runStart, Progress.next]; rfl
  | storing =>
    simp only [stage0, routineStep, setNode_conf, Progress.next, Option.map_some]
    rfl
  | checking =>
    -- the toggle: the count the root holds is the other goroutine's
    cases hq : p1.getD .hashing <;>
      simp [stage0, routineStep, setNode, conf, rootNode, hq, Progress.next, Progress.toggled,
        Progress.stored]
  | combining =>
    have hp1 := hst.first (.inl rfl)
    subst hp1
    simp [stage0, routineStep, conf_root, rootNode, Progress.stored, Progress.next]
    rfl
  | sending | finished => simp [stage0, routineStep, Progress.next]

theorem Stage.next0 {p0 p0' : Progress} {p1 : Option Progress} {m : Main}
    (hst : Stage H a b p0 p1 m) (hn : p0.next (p1.getD .hashing) = some p0') :
    Stage H a b p0' p1 m := by
  refine ⟨hst.main, fun h' => ?_, fun h' => ?_⟩
  · -- only the second to toggle reaches the hash, when the other has finished
    cases p0 <;> simp [Progress.next] at hn <;> subst hn <;> simp at h'
    · rcases p1 with _ | q
      · simp [Progress.toggled] at h'
      · cases q <;> simp [Progress.toggled] at h' ⊢
        all_goals exact absurd (hst.second (by simp)) (by decide)
    · exact hst.first (.inl rfl)
  · have := hst.second h'
    subst this
    simp [Progress.next] at hn

theorem stage1_routineStep {p0 q : Progress} {m : Main} (hst : Stage H a b p0 (some q) m) :
    routineStep H (conf H a b p0 (some q) m).nodes (stage1 H a b q) =
      (q.next p0).map fun q' => (stage1 H a b q', (conf H a b p0 (some q') m).nodes) := by
  cases q with
  | hashing => simp [stage1, routineStep, conf_leaf, freshNode, NodeId.parent, runStart, Progress.next]; rfl
  | storing =>
    simp only [stage1, routineStep, setNode_conf, Progress.next, Option.map_some]
    rfl
  | checking =>
    cases p0 <;>
      simp [stage1, routineStep, setNode, conf, rootNode, Progress.next, Progress.toggled, Progress.stored]
  | combining =>
    have hp0 := hst.second (.inl rfl)
    subst hp0
    simp [stage1, routineStep, conf_root, rootNode, Progress.stored, Progress.next]
    rfl
  | sending | finished => simp [stage1, routineStep, Progress.next]

theorem Stage.next1 {p0 q q' : Progress} {m : Main} (hst : Stage H a b p0 (some q) m)
    (hn : q.next p0 = some q') : Stage H a b p0 (some q') m := by
  refine ⟨by simpa using hst.main, fun h' => ?_, fun h' => ?_⟩
  · have := Option.some.inj (hst.first h')
    subst this
    simp [Progress.next] at hn
  · simp only [Option.some.injEq] at h'
    cases q <;> simp [Progress.next] at hn <;> subst hn <;> simp at h'
    · cases p0 <;> simp [Progress.toggled] at h' ⊢
      all_goals exact absurd (Option.some.inj (hst.first (by simp))) (by decide)
    · exact hst.second (.inl rfl)

theorem sumStart_split (hb : b.length = 46) : sumStart ⟨32, 3⟩ 1 b = some ((0, 0), false, 1) := by
  simp [sumStart, depth_three, leaf, NodeId.parent, hb]

theorem writeSegment_split (hb : b.length = 46) :
    writeSegment ⟨32, 3⟩ 1 b 0 = some (.leafHash (1, 1) 0 b) := by
  simp [writeSegment, depth_three, leaf, NodeId.parent, hb]

theorem mainStep_writing (hb : b.length = 46) (p0 : Progress) :
    mainStep ⟨32, 3⟩ (conf H a b p0 none (.writing [])) =
      some (conf H a b p0 none (.finalising (0, 0) false 0 1)) := by
  simp only [mainStep, conf, sumStart_split b hb]

theorem mainStep_finalising (hb : b.length = 46) (p0 : Progress) :
    mainStep ⟨32, 3⟩ (conf H a b p0 none (.finalising (0, 0) false 0 1)) =
      some (conf H a b p0 (some .hashing) .receiving) := by
  simp only [mainStep, conf]
  simp [NodeId.initial, writeSegment_split b hb]
  simp only [setNode, Function.update_self, Function.update_idem]
  exact ⟨rfl, rfl⟩

theorem main_step (hb : b.length = 46) {p0 : Progress} {p1 : Option Progress} {m : Main}
    (hst : Stage H a b p0 p1 m) {c : Conf} (h : mainStep ⟨32, 3⟩ (conf H a b p0 p1 m) = some c) :
    ∃ p1' m', c = conf H a b p0 p1' m' ∧ Stage H a b p0 p1' m' := by
  rcases hst.main with ⟨rfl, rfl | rfl⟩ | ⟨hsome, rfl | rfl⟩
  · rw [mainStep_writing H a b hb, Option.some.injEq] at h
    subst h
    exact ⟨none, .finalising (0, 0) false 0 1, rfl, ⟨.inl ⟨rfl, .inr rfl⟩, hst.first, hst.second⟩⟩
  · rw [mainStep_finalising H a b hb, Option.some.injEq] at h
    subst h
    exact ⟨some .hashing, .receiving, rfl,
      ⟨.inr ⟨rfl, .inl rfl⟩, fun h => absurd (hst.first h) (by simp), fun h => by simp at h⟩⟩
  · simp [mainStep, conf] at h
  · simp [mainStep, conf] at h

theorem receive_step {p0 : Progress} {p1 : Option Progress} (hst : Stage H a b p0 p1 .receiving)
    {k : Nat} {v : List UInt8} (hk : (conf H a b p0 p1 .receiving).gos[k]? = some (.send v)) :
    ∃ p0' p1', { conf H a b p0 p1 .receiving with
        gos := (conf H a b p0 p1 .receiving).gos.set k .done,
        main := .returned (sumResult H (conf H a b p0 p1 .receiving) v) } =
      conf H a b p0' p1' (.returned (H (H a ++ H b))) ∧
      Stage H a b p0' p1' (.returned (H (H a ++ H b))) := by
  have hsome : p1.isSome := by
    rcases hst.main with ⟨-, h | h⟩ | ⟨h, -⟩ <;> simp_all
  rcases k with _ | _ | k
  · cases p0 <;> simp [conf, stage0] at hk
    subst hk
    exact ⟨.finished, p1, rfl, ⟨.inr ⟨hsome, .inr rfl⟩, fun h => by simp at h, fun _ => rfl⟩⟩
  · rcases p1 with _ | q
    · simp at hsome
    cases q <;> simp [conf, stage1] at hk
    subst hk
    exact ⟨p0, some .finished, rfl, ⟨.inr ⟨rfl, .inr rfl⟩, fun _ => rfl, fun h => by simp at h⟩⟩
  · rcases p1 with _ | q <;> simp [conf] at hk

theorem conf_set_stage0 (p0 p0' : Progress) (p1 : Option Progress) (m : Main) :
    { conf H a b p0 p1 m with
        nodes := (conf H a b p0' p1 m).nodes
        gos := (conf H a b p0 p1 m).gos.set 0 (stage0 H a b p0') } = conf H a b p0' p1 m :=
  rfl

theorem conf_set_stage1 (p0 q q' : Progress) (m : Main) :
    { conf H a b p0 (some q) m with
        nodes := (conf H a b p0 (some q') m).nodes
        gos := (conf H a b p0 (some q) m).gos.set 1 (stage1 H a b q') } =
      conf H a b p0 (some q') m :=
  rfl

theorem step_stage0 {p0 p0' : Progress} {p1 : Option Progress} {m : Main}
    (hst : Stage H a b p0 p1 m) (hn : p0.next (p1.getD .hashing) = some p0') :
    Step H ⟨32, 3⟩ (conf H a b p0 p1 m) (conf H a b p0' p1 m) := by
  have hr : routineStep H (conf H a b p0 p1 m).nodes (stage0 H a b p0) =
      some (stage0 H a b p0', (conf H a b p0' p1 m).nodes) := by
    rw [stage0_routineStep H a b hst, hn]
    rfl
  rw [← conf_set_stage0 H a b p0 p0' p1 m]
  exact Step.routine (k := 0) rfl hr

theorem step_stage1 {p0 q q' : Progress} {m : Main} (hst : Stage H a b p0 (some q) m)
    (hn : q.next p0 = some q') :
    Step H ⟨32, 3⟩ (conf H a b p0 (some q) m) (conf H a b p0 (some q') m) := by
  have hr : routineStep H (conf H a b p0 (some q) m).nodes (stage1 H a b q) =
      some (stage1 H a b q', (conf H a b p0 (some q') m).nodes) := by
    rw [stage1_routineStep H a b hst, hn]
    rfl
  rw [← conf_set_stage1 H a b p0 q q' m]
  exact Step.routine (k := 1) rfl hr

theorem conf_fresh_nodes (m : Main) : (conf H a b .hashing none m).nodes = freshNode :=
  Function.update_eq_self _ _

def Later (c : Conf) : Prop := ∃ p0 p1 m, c = conf H a b p0 p1 m ∧ Stage H a b p0 p1 m

theorem Later.step (hb : b.length = 46) {c c' : Conf} (hc : Later H a b c)
    (h : Step H ⟨32, 3⟩ c c') : Later H a b c' := by
  obtain ⟨p0, p1, m, rfl, hst⟩ := hc
  cases h with
  | main h =>
    obtain ⟨p1', m', rfl, hst'⟩ := main_step H a b hb hst h
    exact ⟨p0, p1', m', rfl, hst'⟩
  | @routine k r r' nodes hk hr =>
    rcases k with _ | _ | k
    · simp only [conf, List.getElem?_cons_zero, Option.some.injEq] at hk
      subst hk
      rw [stage0_routineStep H a b hst, Option.map_eq_some_iff] at hr
      obtain ⟨p0', hn, he⟩ := hr
      cases he
      exact ⟨p0', p1, m, (conf_set_stage0 H a b p0 p0' p1 m).symm, hst.next0 H a b hn⟩
    · rcases p1 with _ | q
      · simp [conf] at hk
      simp only [conf, Option.toList_some, Option.map_some, List.getElem?_cons_succ,
        List.getElem?_cons_zero, Option.some.injEq] at hk
      subst hk
      rw [stage1_routineStep H a b hst, Option.map_eq_some_iff] at hr
      obtain ⟨q', hn, he⟩ := hr
      cases he
      exact ⟨p0, some q', m, (conf_set_stage1 H a b p0 q q' m).symm, hst.next1 H a b hn⟩
    · rcases p1 with _ | q <;> simp [conf] at hk
  | receive hm hk =>
    simp only [conf] at hm
    subst hm
    obtain ⟨p0', p1', he, hst'⟩ := receive_step H a b hst hk
    exact ⟨p0', p1', _, he, hst'⟩

end Interleavings

/-! ## The run of `Write(b₁); Write(b₂); Sum(nil)` -/

section SplitRun

variable (b₁ b₂ : List UInt8)

/-- After the first `Write`: its 50 bytes are open in the first leaf and nothing is started. -/
def afterFirst : Conf := ⟨freshNode, 0, b₁, none, [], .writing [b₂]⟩

theorem take_split (h₁ : b₁.length = 50) : (b₁ ++ b₂).take 64 = b₁ ++ b₂.take 14 := by
  rw [List.take_append, List.take_of_length_le (by omega), h₁]

theorem drop_split (h₁ : b₁.length = 50) : (b₁ ++ b₂).drop 64 = b₂.drop 14 := by
  simp [List.drop_append, h₁]

theorem mainStep_start (h₁ : b₁.length = 50) :
    mainStep ⟨32, 3⟩ (start [b₁, b₂]) = some (afterFirst b₁ b₂) := by
  simp [mainStep, start, Write_first b₁ h₁, spawnAll]
  rfl

theorem mainStep_afterFirst (h₁ : b₁.length = 50) (h₂ : b₂.length = 60) :
    mainStep ⟨32, 3⟩ (afterFirst b₁ b₂) =
      some (conf H (b₁ ++ b₂.take 14) (b₂.drop 14) .hashing none (.writing [])) := by
  have ha : (b₁ ++ b₂.take 14).length = 64 := by simp [h₁, h₂]
  have hw : writeSegment ⟨32, 3⟩ 0 (b₁ ++ b₂.take 14) 1 =
      some (.leafHash (1, 0) 1 (b₁ ++ b₂.take 14)) := by
    simp [writeSegment, depth_three, leaf, NodeId.parent, ha]
  simp [mainStep, afterFirst, Write_second b₁ b₂ h₁ h₂, spawnAll, depth_three, hw]
  rw [← conf_fresh_nodes H (b₁ ++ b₂.take 14) (b₂.drop 14) (.writing [])]
  rfl

theorem mainStep_of_step {P : Params} {c c' : Conf} (hg : c.gos = []) (hm : c.main ≠ .receiving)
    (h : Step H P c c') : mainStep P c = some c' := by
  cases h with
  | main h => exact h
  | routine hk => simp [hg] at hk
  | receive hm' => exact absurd hm' hm

/-- The configurations of a run of the two writes: before each `Write`, and after both. -/
def Reach (c : Conf) : Prop :=
  c = start [b₁, b₂] ∨ c = afterFirst b₁ b₂ ∨ Later H (b₁ ++ b₂.take 14) (b₂.drop 14) c

section

variable {b₁ b₂} (h₁ : b₁.length = 50) (h₂ : b₂.length = 60)
include h₁ h₂

theorem Reach.step {c c' : Conf} (hc : Reach H b₁ b₂ c) (h : Step H ⟨32, 3⟩ c c') :
    Reach H b₁ b₂ c' := by
  rcases hc with rfl | rfl | hl
  · have h' := mainStep_of_step H rfl (by simp [start]) h
    rw [mainStep_start b₁ b₂ h₁, Option.some.injEq] at h'
    exact .inr (.inl h'.symm)
  · have h' := mainStep_of_step H rfl (by simp [afterFirst]) h
    rw [mainStep_afterFirst H b₁ b₂ h₁ h₂, Option.some.injEq] at h'
    exact .inr (.inr ⟨.hashing, none, .writing [], h'.symm,
      ⟨.inl ⟨rfl, .inl rfl⟩, by simp, by simp⟩⟩)
  · exact .inr (.inr (hl.step H _ _ (by simp [h₂]) h))

theorem reach_of_run {c : Conf} (hc : Relation.ReflTransGen (Step H ⟨32, 3⟩) (start [b₁, b₂]) c) :
    Reach H b₁ b₂ c := by
  induction hc with
  | refl => exact .inl rfl
  | tail _ step ih => exact ih.step H h₁ h₂ step

end

theorem returned_of_reach {c : Conf} {r : List UInt8} (hc : Reach H b₁ b₂ c)
    (hm : c.main = .returned r) : r = H (H (b₁ ++ b₂.take 14) ++ H (b₂.drop 14)) := by
  rcases hc with rfl | rfl | ⟨p0, p1, m, rfl, hst⟩
  · simp [start] at hm
  · simp [afterFirst] at hm
  · simp only [conf] at hm
    subst hm
    rcases hst.main with ⟨-, h | h⟩ | ⟨-, h | h⟩ <;> simp at h
    exact h

theorem run_returns (h₁ : b₁.length = 50) (h₂ : b₂.length = 60) :
    ∃ c, Relation.ReflTransGen (Step H ⟨32, 3⟩) (start [b₁, b₂]) c ∧
      c.main = .returned (H (H (b₁ ++ b₂.take 14) ++ H (b₂.drop 14))) := by
  have hb : (b₂.drop 14).length = 46 := by simp [h₂]
  have st : ∀ p0 q, (p0 = .combining ∨ p0 = .sending → some q = some Progress.finished) →
      (some q = some Progress.combining ∨ some q = some Progress.sending → p0 = .finished) →
      Stage H (b₁ ++ b₂.take 14) (b₂.drop 14) p0 (some q) .receiving :=
    fun _ _ h1 h2 => ⟨.inr ⟨rfl, .inl rfl⟩, h1, h2⟩
  -- the caller's four steps
  have hmain : Relation.ReflTransGen (Step H ⟨32, 3⟩) (start [b₁, b₂])
      (conf H (b₁ ++ b₂.take 14) (b₂.drop 14) .hashing (some .hashing) .receiving) :=
    .head (.main (mainStep_start b₁ b₂ h₁)) <|
    .head (.main (mainStep_afterFirst H b₁ b₂ h₁ h₂)) <|
    .head (.main (mainStep_writing H _ _ hb _)) <|
    .single (.main (mainStep_finalising H _ _ hb _))
  -- the first leaf's goroutine, then the last leaf's
  have hgo : Relation.ReflTransGen (Step H ⟨32, 3⟩)
      (conf H (b₁ ++ b₂.take 14) (b₂.drop 14) .hashing (some .hashing) .receiving)
      (conf H (b₁ ++ b₂.take 14) (b₂.drop 14) .finished (some .sending) .receiving) :=
    .head (step_stage0 H _ _ (st _ _ (by decide) (by decide)) rfl) <|
    .head (step_stage0 H _ _ (st _ _ (by decide) (by decide)) rfl) <|
    .head (step_stage0 H _ _ (st _ _ (by decide) (by decide)) rfl) <|
    .head (step_stage1 H _ _ (st _ _ (by decide) (by decide)) rfl) <|
    .head (step_stage1 H _ _ (st _ _ (by decide) (by decide)) rfl) <|
    .head (step_stage1 H _ _ (st _ _ (by decide) (by decide)) rfl) <|
    .single (step_stage1 H _ _ (st _ _ (by decide) (by decide)) rfl)
  exact ⟨_, (hmain.trans hgo).tail (.receive (k := 1) rfl rfl), rfl⟩

/-- `Reset(); Write(b₁); Write(b₂); Sum(nil)` on a hasher of three segments, with writes of 50
and 60 bytes. The second `Write` counts its room from the start of the first leaf, so it fills
that leaf and leaves 46 bytes open in the last one, which `Sum` hashes by itself: every run
that returns gives the root over that hash, where the reference hashes the first 96 bytes and
keeps the last 32 of them unhashed in the root's right. -/
theorem Sum_split_write_keeps_tail (h₁ : b₁.length = 50) (h₂ : b₂.length = 60) :
    (NewRefHasher 32 3).Hash H (b₁ ++ b₂) =
        some (H (H ((b₁ ++ b₂).take 64) ++ ((b₁ ++ b₂).take 96).drop 64)) ∧
      (∃ c, Relation.ReflTransGen (Step H ⟨32, 3⟩) (start [b₁, b₂]) c ∧
        c.main = .returned (H (H ((b₁ ++ b₂).take 64) ++ H ((b₁ ++ b₂).drop 64)))) ∧
      ∀ c r, Relation.ReflTransGen (Step H ⟨32, 3⟩) (start [b₁, b₂]) c → c.main = .returned r →
        r = H (H ((b₁ ++ b₂).take 64) ++ H ((b₁ ++ b₂).drop 64)) := by
  refine ⟨Hash_split H b₁ b₂ h₁ h₂, ?_, ?_⟩
  · rw [take_split b₁ b₂ h₁, drop_split b₁ b₂ h₁]
    exact run_returns H b₁ b₂ h₁ h₂
  · intro c r hc hm
    rw [take_split b₁ b₂ h₁, drop_split b₁ b₂ h₁]
    exact returned_of_reach H b₁ b₂ (reach_of_run H h₁ h₂ hc) hm

def lastWord (x : List UInt8) : List UInt8 := (List.replicate 32 0 ++ x).drop x.length

/-- The bytes `0, ..., 109` written as 50 and then 60: a run returns bytes `78, ..., 109`, the
reference bytes `64, ..., 95`. -/
theorem Sum_split_write_keeps_tail_counting :
    ∃ r, (∃ c, Relation.ReflTransGen (Step lastWord ⟨32, 3⟩)
        (start [(List.range 50).map Nat.toUInt8, (List.range' 50 60).map Nat.toUInt8]) c ∧
          c.main = .returned r) ∧
      (NewRefHasher 32 3).Hash lastWord
        ((List.range 50).map Nat.toUInt8 ++ (List.range' 50 60).map Nat.toUInt8) ≠ some r := by
  obtain ⟨href, hrun, -⟩ := Sum_split_write_keeps_tail lastWord
    ((List.range 50).map Nat.toUInt8) ((List.range' 50 60).map Nat.toUInt8) (by simp) (by simp)
  refine ⟨_, hrun, ?_⟩
  rw [href]
  decide

end SplitRun

end Zerium.Merkletree
