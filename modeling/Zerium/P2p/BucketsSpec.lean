import Zerium.P2p.Buckets

/-! # What the buckets keep, over every run of the table

Each step that writes a bucket writes it at the bucket of the node it adds, puts a node in front
only when no entry has its ID, and never lets it grow past `bucketSize` (`bump_ok`,
`replace_ok`, `stuffOne_ok`, `delete_ok`). So every bucket `i` holds at most `bucketSize` nodes,
at logarithmic distance `i` from the local node, with distinct IDs and never the local node,
after any run of adds, pings answered or not, `stuff` and `delete` from the empty table
(`run_inv`). The unlocked ping needs no more than that: when `add` takes the mutex again,
`replace` checks the bucket as it finds it.
-/

namespace Zerium.P2p

set_option autoImplicit false

variable {ι : Type}

/-- A bucket as the table keeps it: at most `bucketSize` nodes, all at logarithmic distance `i`
from the local node, with distinct IDs, none of them the local node's. -/
structure BucketOk (selfNode : Node ι) (i : Nat) (b : List (Node ι)) : Prop where
  length_le : b.length ≤ bucketSize
  logdist_eq : ∀ n ∈ b, logdist selfNode.sha n.sha = i
  nodup : (b.map Node.ID).Nodup
  not_self : ∀ n ∈ b, n.ID ≠ selfNode.ID

namespace BucketOk

variable {selfNode n : Node ι} {i : Nat} {b b' : List (Node ι)}

theorem nil : BucketOk selfNode i [] :=
  ⟨Nat.zero_le _, fun _ h => absurd h List.not_mem_nil, List.nodup_nil, fun _ h => absurd h List.not_mem_nil⟩

theorem sublist (h : BucketOk selfNode i b) (hs : b'.Sublist b) : BucketOk selfNode i b' :=
  ⟨hs.length_le.trans h.length_le, fun m hm => h.logdist_eq m (hs.subset hm),
    h.nodup.sublist (hs.map _), fun m hm => h.not_self m (hs.subset hm)⟩

theorem cons (h : BucketOk selfNode i b) (hlen : b.length < bucketSize) (hn : logdist selfNode.sha n.sha = i)
    (hself : n.ID ≠ selfNode.ID) (hfresh : n.ID ∉ b.map Node.ID) : BucketOk selfNode i (n :: b) := by
  refine ⟨hlen, ?_, List.nodup_cons.mpr ⟨hfresh, h.nodup⟩, ?_⟩
  · rintro m hm
    rcases List.mem_cons.mp hm with rfl | hm
    · exact hn
    · exact h.logdist_eq m hm
  · rintro m hm
    rcases List.mem_cons.mp hm with rfl | hm
    · exact hself
    · exact h.not_self m hm

theorem append_singleton (h : BucketOk selfNode i b) (hlen : b.length < bucketSize)
    (hn : logdist selfNode.sha n.sha = i) (hself : n.ID ≠ selfNode.ID) (hfresh : n.ID ∉ b.map Node.ID) :
    BucketOk selfNode i (b ++ [n]) := by
  have hc := h.cons hlen hn hself hfresh
  have hp := List.perm_append_singleton n b
  exact ⟨hp.length_eq ▸ hc.length_le, fun m hm => hc.logdist_eq m (hp.subset hm),
    (hp.map Node.ID).nodup_iff.mpr hc.nodup, fun m hm => hc.not_self m (hp.subset hm)⟩

theorem cons_eraseIdx {j : Nat} (h : BucketOk selfNode i b) (hj : j < b.length) (hID : b[j].ID = n.ID)
    (hn : logdist selfNode.sha n.sha = i) (hself : n.ID ≠ selfNode.ID) : BucketOk selfNode i (n :: b.eraseIdx j) := by
  have hp := List.getElem_cons_eraseIdx_perm hj
  have hmap : (n :: b.eraseIdx j).map Node.ID = (b[j] :: b.eraseIdx j).map Node.ID := by
    rw [List.map_cons, List.map_cons, hID]
  refine ⟨?_, ?_, ?_, ?_⟩
  · rw [List.length_cons, List.length_eraseIdx, if_pos hj]
    have := h.length_le
    omega
  · rintro m hm
    rcases List.mem_cons.mp hm with rfl | hm
    · exact hn
    · exact h.logdist_eq m ((List.eraseIdx_sublist b j).subset hm)
  · rw [hmap]
    exact (hp.map Node.ID).nodup_iff.mpr h.nodup
  · rintro m hm
    rcases List.mem_cons.mp hm with rfl | hm
    · exact hself
    · exact h.not_self m ((List.eraseIdx_sublist b j).subset hm)

end BucketOk

section Bucket

variable [DecidableEq ι] {selfNode n : Node ι} {i : Nat} {b : List (Node ι)}

theorem bump_ok (h : BucketOk selfNode i b) (hn : logdist selfNode.sha n.sha = i) (hself : n.ID ≠ selfNode.ID) :
    BucketOk selfNode i (bump b n).2 := by
  unfold bump
  split
  · rename_i j hj
    obtain ⟨hjlt, hID, -⟩ := List.findIdx?_eq_some_iff_getElem.mp hj
    rw [Slice.set_copyAt_take hjlt]
    exact h.cons_eraseIdx hjlt (by simpa using hID) hn hself
  · exact h

theorem replace_cases (last : Option (Node ι)) (hlen : b.length ≤ bucketSize) :
    (replace b n last).2 = b ∨
      n.ID ∉ b.map Node.ID ∧ (replace b n last).2 = n :: b.take (bucketSize - 1) := by
  unfold replace
  split_ifs with hany hstop hroom
  · exact Or.inl rfl
  · exact Or.inl rfl
  · refine Or.inr ⟨fun hmem => hany ?_, ?_⟩
    · obtain ⟨m, hm, hID⟩ := List.mem_map.mp hmem
      exact List.any_eq_true.mpr ⟨m, hm, by simp [hID]⟩
    -- with room, the `nil` appended is shifted out again
    have hshift := Slice.set_copyAt_drop (i := 0) (l := b ++ [n]) (by simp) n
    simp only [List.drop_zero, Nat.zero_add, List.take_zero, List.nil_append] at hshift
    dsimp only
    rw [hshift, List.length_append, List.length_singleton, List.take_succ_cons, List.take_left' rfl,
      List.take_of_length_le (by omega)]
  · refine Or.inr ⟨fun hmem => hany ?_, ?_⟩
    · obtain ⟨m, hm, hID⟩ := List.mem_map.mp hmem
      exact List.any_eq_true.mpr ⟨m, hm, by simp [hID]⟩
    have hfull : b.length = bucketSize := by omega
    have hshift := Slice.set_copyAt_drop (i := 0) (l := b) (by rw [hfull]; decide) n
    simp only [List.drop_zero, Nat.zero_add, List.take_zero, List.nil_append] at hshift
    dsimp only
    rw [hshift, hfull]
    rfl

theorem replace_ok (last : Option (Node ι)) (h : BucketOk selfNode i b) (hn : logdist selfNode.sha n.sha = i)
    (hself : n.ID ≠ selfNode.ID) : BucketOk selfNode i (replace b n last).2 := by
  rcases replace_cases last h.length_le with heq | ⟨hfresh, heq⟩
  · rw [heq]
    exact h
  · rw [heq]
    have htake := h.sublist (List.take_sublist (bucketSize - 1) b)
    refine htake.cons ?_ hn hself fun hmem => hfresh ((List.take_sublist _ b |>.map _).subset hmem)
    rw [List.length_take]
    exact Nat.lt_of_le_of_lt (Nat.min_le_left _ _) (by decide)

end Bucket

namespace Table

variable (tab : Table (Node ι))

@[simp] theorem self_setBucket (i : Fin nBuckets) (b : List (Node ι)) :
    (tab.setBucket i b).self = tab.self := rfl

theorem getBucket_setBucket (i j : Fin nBuckets) (b : List (Node ι)) :
    (tab.setBucket i b).getBucket j = if i = j then b else tab.getBucket j := by
  unfold getBucket setBucket
  rw [Fin.getElem_fin, Fin.getElem_fin, Vector.getElem_set]
  simp only [Fin.val_inj]

theorem logdist_bucketOf (n : Node ι) : logdist tab.self.sha n.sha = tab.bucketOf n := rfl

end Table

def TableOk (tab : Table (Node ι)) : Prop := ∀ i : Fin nBuckets, BucketOk tab.self i (tab.getBucket i)

theorem TableOk.setBucket {tab : Table (Node ι)} {i : Fin nBuckets} {b : List (Node ι)} (h : TableOk tab)
    (hb : BucketOk tab.self i b) : TableOk (tab.setBucket i b) := by
  intro j
  rw [Table.getBucket_setBucket, Table.self_setBucket]
  split
  · rename_i hij
    subst hij
    exact hb
  · exact h j

section Steps

variable [DecidableEq ι]

theorem stuffOne_ok {tab : Table (Node ι)} (h : TableOk tab) (n : Node ι) : TableOk (tab.stuffOne n) := by
  unfold Table.stuffOne
  dsimp only
  split_ifs with hself hany hroom
  · exact h
  · exact h
  · refine h.setBucket ((h _).append_singleton hroom (tab.logdist_bucketOf n) hself fun hmem => hany ?_)
    obtain ⟨m, hm, hID⟩ := List.mem_map.mp hmem
    exact List.any_eq_true.mpr ⟨m, hm, by simp [hID]⟩
  · exact h

theorem self_stuffOne (tab : Table (Node ι)) (n : Node ι) : (tab.stuffOne n).self = tab.self := by
  unfold Table.stuffOne
  dsimp only
  split_ifs <;> rfl

theorem self_stuff (tab : Table (Node ι)) (nodes : List (Node ι)) : (tab.stuff nodes).self = tab.self := by
  unfold Table.stuff
  induction nodes generalizing tab with
  | nil => rfl
  | cons n nodes ih => exact (ih _).trans (self_stuffOne tab n)

theorem self_delete (tab : Table (Node ι)) (node : Node ι) : (tab.delete node).self = tab.self := by
  unfold Table.delete
  dsimp only
  split <;> rfl

theorem stuff_ok {tab : Table (Node ι)} (h : TableOk tab) (nodes : List (Node ι)) :
    TableOk (tab.stuff nodes) := by
  unfold Table.stuff
  induction nodes generalizing tab with
  | nil => exact h
  | cons n nodes ih => exact ih (stuffOne_ok h n)

theorem delete_ok {tab : Table (Node ι)} (h : TableOk tab) (node : Node ι) : TableOk (tab.delete node) := by
  unfold Table.delete
  dsimp only
  split
  · rename_i j hj
    rw [← List.eraseIdx_eq_take_drop_succ]
    exact h.setBucket ((h _).sublist (List.eraseIdx_sublist _ j))
  · exact h

/-- The invariant of a run of the table: its buckets as `TableOk` says, and the adds waiting for a
ping all add another node than the local one. -/
structure TableState.Inv (selfNode : Node ι) (s : TableState ι) : Prop where
  self_eq : s.tab.self = selfNode
  buckets : TableOk s.tab
  pinging : ∀ p ∈ s.pinging, p.new.ID ≠ selfNode.ID

theorem addStart_inv {selfNode new : Node ι} {s : TableState ι} (h : s.Inv selfNode)
    (hnew : new.ID ≠ selfNode.ID) : (addStart s new).Inv selfNode := by
  obtain ⟨hself, htab, hping⟩ := h
  rw [← hself] at hnew
  unfold addStart
  dsimp only
  split_ifs with hbump hfull hcontested
  · exact ⟨hself, htab.setBucket (bump_ok (htab _) (s.tab.logdist_bucketOf new) hnew), hping⟩
  · exact ⟨hself, htab, hping⟩
  · refine ⟨hself, htab, fun p hp => ?_⟩
    rcases List.mem_append.mp hp with hp | hp
    · exact hping p hp
    · rw [List.mem_singleton.mp hp, ← hself]
      exact hnew
  · exact ⟨hself, htab.setBucket (replace_ok none (htab _) (s.tab.logdist_bucketOf new) hnew), hping⟩

theorem addFinish_inv {selfNode : Node ι} {s : TableState ι} (h : s.Inv selfNode) (k : Nat) (ok : Bool) :
    (addFinish s k ok).Inv selfNode := by
  obtain ⟨hself, htab, hping⟩ := h
  unfold addFinish
  dsimp only
  split
  · exact ⟨hself, htab, hping⟩
  · rename_i p hp
    have hnew : p.new.ID ≠ s.tab.self.ID := hself ▸ hping p (List.mem_of_getElem? hp)
    have hping' : ∀ q ∈ s.pinging.eraseIdx k, q.new.ID ≠ selfNode.ID :=
      fun q hq => hping q ((List.eraseIdx_sublist _ k).subset hq)
    -- a node that answered stays; one that did not is replaced if it is still the last entry
    cases ok with
    | true => exact ⟨hself, htab, hping'⟩
    | false =>
      exact ⟨hself, htab.setBucket (replace_ok (some p.oldest) (htab _) (s.tab.logdist_bucketOf p.new) hnew),
        hping'⟩

theorem step_inv {selfNode : Node ι} {s : TableState ι} (h : s.Inv selfNode) (e : TableEvent ι) :
    (s.step e).Inv selfNode := by
  cases e with
  | bond node =>
    unfold TableState.step
    dsimp only
    split_ifs with hself
    · exact h
    · exact addStart_inv h (h.self_eq ▸ hself)
  | pong k ok => exact addFinish_inv h k ok
  | stuff nodes => exact ⟨(self_stuff _ nodes).trans h.self_eq, stuff_ok h.buckets nodes, h.pinging⟩
  | delete node => exact ⟨(self_delete _ node).trans h.self_eq, delete_ok h.buckets node, h.pinging⟩

theorem run_inv {selfNode : Node ι} {s : TableState ι} (h : s.Inv selfNode) (evs : List (TableEvent ι)) :
    (s.run evs).Inv selfNode := by
  unfold TableState.run
  induction evs generalizing s with
  | nil => exact h
  | cons e evs ih => exact ih (step_inv h e)

end Steps

theorem newTableState_inv (selfNode : Node ι) : (newTableState selfNode).Inv selfNode := by
  refine ⟨rfl, fun i => ?_, fun p hp => absurd hp List.not_mem_nil⟩
  have hnil : (newTableState selfNode).tab.getBucket i = [] := by
    simp [newTableState, Table.getBucket]
  rw [hnil]
  exact BucketOk.nil

section Closest

/-- What `closest` is for: of the nodes `seen`, the `k` nearest the target, or all of them,
nearest first, with no node left out nearer than one kept. -/
structure Closest (target : Hash) (k : Nat) (seen entries : List (Node ι)) : Prop where
  sorted : entries.Pairwise fun a b => dist target a.sha ≤ dist target b.sha
  length_eq : entries.length = min k seen.length
  split : ∃ rest, (entries ++ rest).Perm seen ∧
    ∀ a ∈ entries, ∀ b ∈ rest, dist target a.sha ≤ dist target b.sha

theorem closest_nil (target : Hash) (k : Nat) : Closest target k ([] : List (Node ι)) [] :=
  ⟨List.Pairwise.nil, by simp, [], List.Perm.refl _, fun _ h => absurd h List.not_mem_nil⟩

variable {target : Hash} {n : Node ι} {E : List (Node ι)}

theorem farther_iff (e : Node ι) :
    decide (distcmp target e.sha n.sha > 0) = true ↔ dist target n.sha < dist target e.sha := by
  rw [decide_eq_true_iff, gt_iff_lt, distcmp_pos_iff]

theorem push_search (hs : E.Pairwise fun a b => dist target a.sha ≤ dist target b.sha) :
    BinarySearch.Search E.length (fun i => E[i]?.any fun e => decide (distcmp target e.sha n.sha > 0)) =
      E.findIdx fun e => decide (distcmp target e.sha n.sha > 0) := by
  apply BinarySearch.Search_eq_findIdx
  refine hs.imp fun {a b} hab ha => ?_
  rw [farther_iff] at ha ⊢
  omega

theorem push_entries (h : NodesByDistance ι) (n : Node ι) (maxElems : Nat) :
    (h.push n maxElems).entries =
      let ix := BinarySearch.Search h.entries.length fun i =>
        h.entries[i]?.any fun e => decide (distcmp h.target e.sha n.sha > 0)
      (h.entries.take ix ++ n :: h.entries.drop ix).take
        (if h.entries.length < maxElems then h.entries.length + 1 else h.entries.length) := by
  unfold NodesByDistance.push
  dsimp only
  have hle := BinarySearch.Search_le h.entries.length fun i =>
    h.entries[i]?.any fun e => decide (distcmp h.target e.sha n.sha > 0)
  generalize BinarySearch.Search h.entries.length _ = ix at hle ⊢
  by_cases hroom : h.entries.length < maxElems
  · -- with room `n` is appended first, so the shift always runs
    rw [if_pos hroom, if_pos hroom, if_neg (by simp; omega)]
    dsimp only
    rw [Slice.set_copyAt_drop (by simp; omega), List.take_append_of_le_length hle,
      List.drop_append_of_le_length hle, List.length_append, List.length_singleton,
      ← List.cons_append, ← List.append_assoc, List.take_append_of_le_length (by simp; omega)]
  · rw [if_neg hroom, if_neg hroom]
    by_cases hend : ix = h.entries.length
    · rw [if_pos hend, hend, List.take_length, List.drop_length, List.take_left' rfl]
    · rw [if_neg hend, Slice.set_copyAt_drop (by omega)]

theorem dist_le_of_mem_take_findIdx {a : Node ι}
    (ha : a ∈ E.take (E.findIdx fun e => decide (distcmp target e.sha n.sha > 0))) :
    dist target a.sha ≤ dist target n.sha := by
  obtain ⟨i, hi, rfl⟩ := List.getElem_of_mem ha
  rw [List.getElem_take]
  have hlt : i < E.findIdx fun e => decide (distcmp target e.sha n.sha > 0) := by
    simp only [List.length_take] at hi
    omega
  have hfalse := List.not_of_lt_findIdx hlt
  rw [← Bool.not_eq_true, farther_iff] at hfalse
  omega

theorem dist_lt_of_mem_drop_findIdx (hs : E.Pairwise fun a b => dist target a.sha ≤ dist target b.sha)
    {b : Node ι} (hb : b ∈ E.drop (E.findIdx fun e => decide (distcmp target e.sha n.sha > 0))) :
    dist target n.sha < dist target b.sha := by
  set ix := E.findIdx fun e => decide (distcmp target e.sha n.sha > 0)
  obtain ⟨i, hi, rfl⟩ := List.getElem_of_mem hb
  rw [List.getElem_drop]
  have hix : ix < E.length := by
    simp only [List.length_drop] at hi
    omega
  have hfar : dist target n.sha < dist target E[ix].sha := (farther_iff _).mp (List.findIdx_getElem (w := hix))
  -- the first farther entry is no farther than the later ones
  rcases Nat.eq_zero_or_pos i with rfl | hpos
  · simpa using hfar
  · have := List.pairwise_iff_getElem.mp hs ix (ix + i) hix (by simp at hi; omega) (by omega)
    omega

theorem sorted_insert (hs : E.Pairwise fun a b => dist target a.sha ≤ dist target b.sha) :
    let ix := E.findIdx fun e => decide (distcmp target e.sha n.sha > 0)
    (E.take ix ++ n :: E.drop ix).Pairwise fun a b => dist target a.sha ≤ dist target b.sha := by
  intro ix
  have hsplit := List.take_append_drop ix E
  rw [← hsplit, List.pairwise_append] at hs
  obtain ⟨hA, hB, hAB⟩ := hs
  refine List.pairwise_append.mpr ⟨hA, List.pairwise_cons.mpr ⟨fun b hb => ?_, hB⟩, fun a ha b hb => ?_⟩
  · exact Nat.le_of_lt (dist_lt_of_mem_drop_findIdx (hsplit ▸ List.pairwise_append.mpr ⟨hA, hB, hAB⟩) hb)
  · rcases List.mem_cons.mp hb with rfl | hb
    · exact dist_le_of_mem_take_findIdx ha
    · exact hAB a ha b hb

theorem Closest.push {k : Nat} {seen : List (Node ι)} (h : Closest target k seen E) (n : Node ι) :
    Closest target k (seen ++ [n]) ((⟨E, target⟩ : NodesByDistance ι).push n k).entries := by
  obtain ⟨hsorted, hlen, rest, hperm, hsep⟩ := h
  rw [push_entries]
  dsimp only
  rw [push_search hsorted]
  set ix := E.findIdx fun e => decide (distcmp target e.sha n.sha > 0) with hix
  set L := E.take ix ++ n :: E.drop ix with hL
  have hins : L.Pairwise fun a b => dist target a.sha ≤ dist target b.sha := sorted_insert hsorted
  have hLperm : L.Perm (E ++ [n]) :=
    List.perm_middle.trans ((List.take_append_drop ix E).symm ▸ (List.perm_append_singleton n E).symm)
  have hLlen : L.length = E.length + 1 := by rw [hLperm.length_eq, List.length_append, List.length_singleton]
  have hseen : E.length + rest.length = seen.length := by rw [← List.length_append, hperm.length_eq]
  have hmid : (E ++ [n] ++ rest).Perm (seen ++ [n]) := by
    rw [List.append_assoc]
    exact (List.perm_append_comm.append_left E).trans (by rw [← List.append_assoc]; exact hperm.append_right [n])
  by_cases hroom : E.length < k
  · -- with room nothing falls off, and nothing was left out before
    have hrest : rest = [] := List.eq_nil_of_length_eq_zero (by omega)
    rw [if_pos hroom, List.take_of_length_le (by omega)]
    refine ⟨hins, by simp only [hLlen, List.length_append, List.length_singleton]; omega, [], ?_,
      fun _ _ _ hb => absurd hb List.not_mem_nil⟩
    rw [List.append_nil]
    exact hLperm.trans (by simpa [hrest] using hmid)
  · rw [if_neg hroom]
    have hk : E.length = k := by omega
    have hcross := List.pairwise_append.mp ((List.take_append_drop E.length L).symm ▸ hins)
    refine ⟨hcross.1, ?_, L.drop E.length ++ rest, ?_, fun a ha b hb => ?_⟩
    · simp only [List.length_take, hLlen, List.length_append, List.length_singleton]
      omega
    · rw [← List.append_assoc, List.take_append_drop]
      exact (hLperm.append_right rest).trans hmid
    rcases List.mem_append.mp hb with hdrop | hrest
    · exact hcross.2.2 a ha b hdrop
    -- `b` was left out before: `a` is an old entry, or `n` put in before a farther entry
    by_cases hend : ix = E.length
    · have htake : L.take E.length = E := by
        rw [hL, hend, List.take_length, List.drop_length, List.take_left' rfl]
      exact hsep a (htake ▸ ha) b hrest
    · have hixlt : ix < E.length := Nat.lt_of_le_of_ne List.findIdx_le_length hend
      rcases List.mem_append.mp ((List.take_sublist _ L).subset ha) with ha' | ha'
      · exact hsep a ((List.take_sublist _ E).subset ha') b hrest
      rcases List.mem_cons.mp ha' with rfl | ha'
      · have hfar : dist target a.sha < dist target E[ix].sha :=
          (farther_iff _).mp (List.findIdx_getElem (w := hixlt))
        have := hsep E[ix] (List.getElem_mem hixlt) b hrest
        omega
      · exact hsep a ((List.drop_sublist _ E).subset ha') b hrest

theorem push_target (c : NodesByDistance ι) (n : Node ι) (k : Nat) : (c.push n k).target = c.target := by
  unfold NodesByDistance.push
  dsimp only
  split_ifs <;> rfl

theorem Closest.foldl {k : Nat} {seen : List (Node ι)} (c : NodesByDistance ι)
    (h : Closest c.target k seen c.entries) (ns : List (Node ι)) :
    (ns.foldl (fun close n => close.push n k) c).target = c.target ∧
      Closest c.target k (seen ++ ns) (ns.foldl (fun close n => close.push n k) c).entries := by
  induction ns generalizing c seen with
  | nil => exact ⟨rfl, by simpa using h⟩
  | cons n ns ih =>
    have hpush : Closest (c.push n k).target k (seen ++ [n]) (c.push n k).entries := by
      rw [push_target]
      exact Closest.push (E := c.entries) h n
    obtain ⟨htarget, hc⟩ := ih (c.push n k) hpush
    rw [List.foldl_cons, htarget, push_target] at *
    exact ⟨htarget, by simpa using hc⟩

theorem closest_spec (tab : Table (Node ι)) (target : Hash) (k : Nat) :
    Closest target k tab.buckets.toList.flatten (tab.closest target k).entries := by
  unfold Table.closest
  -- the outer loop over the buckets, each bucket pushed entry by entry
  suffices ∀ (bs : List (List (Node ι))) (c : NodesByDistance ι) (seen : List (Node ι)),
      Closest c.target k seen c.entries →
      (bs.foldl (fun close b => b.foldl (fun close n => close.push n k) close) c).target = c.target ∧
        Closest c.target k (seen ++ bs.flatten)
          (bs.foldl (fun close b => b.foldl (fun close n => close.push n k) close) c).entries from
    by simpa using (this tab.buckets.toList ⟨[], target⟩ [] (closest_nil target k)).2
  intro bs
  induction bs with
  | nil => exact fun c seen h => ⟨rfl, by simpa using h⟩
  | cons b bs ih =>
    intro c seen h
    obtain ⟨htarget, hc⟩ := Closest.foldl c h b
    obtain ⟨htarget', hc'⟩ := ih _ _ (htarget ▸ hc)
    rw [List.foldl_cons, List.flatten_cons, ← List.append_assoc]
    exact ⟨htarget'.trans htarget, htarget ▸ hc'⟩

end Closest

/-- After any run of the table from `newTable`, every bucket `i` holds at most `bucketSize`
nodes, all at logarithmic distance `i` from the local node, with distinct IDs and never the local
node; and `closest(target, k)` returns `k` of the table's nodes, or all of them, ordered by their
distance to the target, the number `distcmp` compares, with no node of the table left out nearer
than one returned. -/
theorem table_buckets_closest [DecidableEq ι] (selfNode : Node ι) (evs : List (TableEvent ι)) :
    (∀ i : Fin nBuckets, BucketOk selfNode i (((newTableState selfNode).run evs).tab.getBucket i)) ∧
      ∀ (target : Hash) (k : Nat),
        Closest target k ((newTableState selfNode).run evs).tab.buckets.toList.flatten
          (((newTableState selfNode).run evs).tab.closest target k).entries := by
  have h := run_inv (newTableState_inv selfNode) evs
  refine ⟨fun i => ?_, fun target k => closest_spec _ target k⟩
  have hbucket := h.buckets i
  rwa [h.self_eq] at hbucket

end Zerium.P2p
