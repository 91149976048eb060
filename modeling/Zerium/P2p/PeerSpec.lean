import Zerium.P2p.Peer

/-! # Both ends lay out the same ranges

`matchProtocols` on one end reads its own protocols and the capabilities of the other end. A
capability matched by a protocol of the local end is one both ends run. The loop meets the
capabilities sorted, so the versions of one name come one after the other, and a later version
of a name gives back the range of the one before: only the last, highest, version of each name
keeps a range (`foldl_assign_dedupNames`). Those last versions are the same on both ends
(`selected_eq`), so both ends build the same map. The ranges are laid out one after the other
from `baseProtocolLength` on, and they stay apart as long as no offset passes `2 ^ 64`.
-/

namespace Zerium.P2p

set_option autoImplicit false

/-! ## The order of the capabilities -/

def CapLE (a b : Cap) : Prop := a.Name < b.Name ∨ (a.Name = b.Name ∧ a.Version ≤ b.Version)

theorem not_capLess_iff (a b : Cap) : (!capLess b a) = true ↔ CapLE a b := by
  simp only [capLess, CapLE, Bool.not_eq_true', Bool.or_eq_false_iff, decide_eq_false_iff_not,
    Bool.and_eq_false_iff, beq_eq_false_iff_ne, not_lt]
  constructor
  · rintro ⟨hname, hversion⟩
    rcases hname.lt_or_eq with hlt | heq
    · exact .inl hlt
    · refine .inr ⟨heq, ?_⟩
      rcases hversion with hne | hle
      · exact absurd heq.symm hne
      · exact hle
  · rintro (hlt | ⟨heq, hle⟩)
    · exact ⟨hlt.le, .inl (ne_of_gt hlt)⟩
    · exact ⟨heq.le, .inr hle⟩

theorem CapLE.trans {a b c : Cap} (hab : CapLE a b) (hbc : CapLE b c) : CapLE a c := by
  rcases hab with hab | ⟨hab, hab'⟩ <;> rcases hbc with hbc | ⟨hbc, hbc'⟩
  · exact .inl (hab.trans hbc)
  · exact .inl (hbc ▸ hab)
  · exact .inl (hab ▸ hbc)
  · exact .inr ⟨hab.trans hbc, hab'.trans hbc'⟩

theorem CapLE.total (a b : Cap) : CapLE a b ∨ CapLE b a := by
  rcases lt_trichotomy a.Name b.Name with hlt | heq | hgt
  · exact .inl (.inl hlt)
  · rcases Nat.le_total a.Version b.Version with hle | hge
    · exact .inl (.inr ⟨heq, hle⟩)
    · exact .inr (.inr ⟨heq.symm, hge⟩)
  · exact .inr (.inl hgt)

theorem sortCaps_perm (caps : List Cap) : (sortCaps caps).Perm caps :=
  List.mergeSort_perm _ _

theorem sortCaps_sorted (caps : List Cap) : (sortCaps caps).Pairwise CapLE := by
  have hsorted := @List.pairwise_mergeSort _ (fun a b => !capLess b a)
    (fun a b c hab hbc => (not_capLess_iff a c).mpr
      (((not_capLess_iff a b).mp hab).trans ((not_capLess_iff b c).mp hbc)))
    (fun a b => by
      rcases CapLE.total a b with h | h
      · simp [(not_capLess_iff a b).mpr h]
      · simp [(not_capLess_iff b a).mpr h])
    caps
  exact hsorted.imp fun h => (not_capLess_iff _ _).mp h

/-! ## The protocols the loop places -/

def matched (protocols : List Protocol) (caps : List Cap) : List Protocol :=
  (sortCaps caps).filterMap (findProto protocols)

theorem findProto_spec {protocols : List Protocol} {cap : Cap} {proto : Protocol}
    (h : findProto protocols cap = some proto) : proto.cap = cap ∧ proto ∈ protocols := by
  have hmatch := List.find?_some h
  simp only [decide_eq_true_eq] at hmatch
  exact ⟨by rw [Protocol.cap, hmatch.1, hmatch.2], List.mem_of_find?_eq_some h⟩

theorem matchProtocols_eq_foldl (protocols : List Protocol) (caps : List Cap) :
    matchProtocols protocols caps =
      ((matched protocols caps).foldl (fun st proto => assign st proto.Name proto)
        (baseProtocolLength, GoMap.empty)).2 := by
  rw [matchProtocols, matched, List.foldl_filterMap]
  congr 1
  apply List.foldl_ext
  intro st cap _
  rw [matchStep]
  cases h : findProto protocols cap with
  | none => rfl
  | some proto =>
    have hname : proto.Name = cap.Name := congrArg Cap.Name (findProto_spec h).1
    simp only [hname]

theorem matched_sorted (protocols : List Protocol) (caps : List Cap) :
    (matched protocols caps).Pairwise fun p q => CapLE p.cap q.cap := by
  apply (sortCaps_sorted caps).filterMap
  intro a a' hle p hp p' hp'
  rw [(findProto_spec hp).1, (findProto_spec hp').1]
  exact hle

theorem mem_matched {protocols : List Protocol} {caps : List Cap} {proto : Protocol} :
    proto ∈ matched protocols caps ↔ proto.cap ∈ caps ∧ findProto protocols proto.cap = some proto := by
  rw [matched, List.mem_filterMap]
  constructor
  · rintro ⟨cap, hcap, hfind⟩
    obtain ⟨rfl, -⟩ := findProto_spec hfind
    exact ⟨(sortCaps_perm caps).mem_iff.mp hcap, hfind⟩
  · rintro ⟨hcap, hfind⟩
    exact ⟨proto.cap, (sortCaps_perm caps).mem_iff.mpr hcap, hfind⟩

/-! ## Only the last version of each name keeps its range -/

theorem assign_assign (st : UInt64 × GoMap String ProtoRW) (name : String) (p q : Protocol) :
    assign (assign st name p) name q = assign st name q := by
  unfold assign
  simp only [GoMap.get_insert_self, GoMap.insert_insert, UInt64.add_sub_cancel]

def dedupNames : List Protocol → List Protocol
  | [] => []
  | [p] => [p]
  | p :: q :: rest => if p.Name = q.Name then dedupNames (q :: rest) else p :: dedupNames (q :: rest)

theorem foldl_assign_dedupNames : ∀ (l : List Protocol) (st : UInt64 × GoMap String ProtoRW),
    l.foldl (fun st proto => assign st proto.Name proto) st =
      (dedupNames l).foldl (fun st proto => assign st proto.Name proto) st
  | [], _ => rfl
  | [_], _ => rfl
  | p :: q :: rest, st => by
    rw [dedupNames]
    split
    · rename_i hname
      rw [← foldl_assign_dedupNames (q :: rest), List.foldl_cons, List.foldl_cons, List.foldl_cons,
        hname, assign_assign]
    · rw [List.foldl_cons, foldl_assign_dedupNames (q :: rest), List.foldl_cons]

theorem dedupNames_sublist : ∀ l : List Protocol, (dedupNames l).Sublist l
  | [] => List.Sublist.refl _
  | [_] => List.Sublist.refl _
  | p :: q :: rest => by
    rw [dedupNames]
    split
    · exact (dedupNames_sublist (q :: rest)).cons p
    · exact (dedupNames_sublist (q :: rest)).cons_cons p

theorem exists_mem_dedupNames : ∀ {l : List Protocol} {p : Protocol}, p ∈ l →
    ∃ r ∈ dedupNames l, r.Name = p.Name
  | [a], p, hp => ⟨a, by simp [dedupNames], by rw [List.mem_singleton.mp hp]⟩
  | p :: q :: rest, p', hp => by
    rw [dedupNames]
    split
    · rename_i hname
      rcases List.mem_cons.mp hp with rfl | hp
      · obtain ⟨r, hr, hrname⟩ := exists_mem_dedupNames (List.mem_cons_self : q ∈ q :: rest)
        exact ⟨r, hr, hrname.trans hname.symm⟩
      · exact exists_mem_dedupNames hp
    · rcases List.mem_cons.mp hp with rfl | hp
      · exact ⟨p', List.mem_cons_self, rfl⟩
      · obtain ⟨r, hr, hrname⟩ := exists_mem_dedupNames hp
        exact ⟨r, List.mem_cons_of_mem _ hr, hrname⟩

section Sorted

/-- Sorted by name and version, with one protocol to a capability. -/
structure CapSorted (l : List Protocol) : Prop where
  sorted : l.Pairwise fun p q => CapLE p.cap q.cap
  unique : ∀ p ∈ l, ∀ q ∈ l, p.cap = q.cap → p = q

theorem CapSorted.tail {p : Protocol} {l : List Protocol} (h : CapSorted (p :: l)) : CapSorted l :=
  ⟨(List.pairwise_cons.mp h.sorted).2,
    fun a ha b hb => h.unique a (List.mem_cons_of_mem _ ha) b (List.mem_cons_of_mem _ hb)⟩

theorem name_lt_of_sorted {p q : Protocol} {rest : List Protocol}
    (h : (p :: q :: rest).Pairwise fun p q => CapLE p.cap q.cap) (hne : p.Name ≠ q.Name) :
    ∀ r ∈ q :: rest, p.Name < r.Name := by
  have hpq : p.Name < q.Name := by
    rcases (List.pairwise_cons.mp h).1 q List.mem_cons_self with hlt | ⟨heq, -⟩
    · exact hlt
    · exact absurd heq hne
  intro r hr
  rcases List.mem_cons.mp hr with rfl | hr
  · exact hpq
  · have hqr : q.Name ≤ r.Name := by
      rcases (List.pairwise_cons.mp (List.pairwise_cons.mp h).2).1 r hr with hlt | ⟨heq, -⟩
      · exact hlt.le
      · exact heq.le
    exact lt_of_lt_of_le hpq hqr

theorem version_le_of_sorted {p q : Protocol} {rest : List Protocol}
    (h : (p :: q :: rest).Pairwise fun p q => CapLE p.cap q.cap) (hname : p.Name = q.Name) :
    p.Version ≤ q.Version := by
  rcases (List.pairwise_cons.mp h).1 q List.mem_cons_self with hlt | ⟨-, hle⟩
  · exact absurd hname (ne_of_lt hlt)
  · exact hle

theorem dedupNames_pairwise : ∀ {l : List Protocol}, (l.Pairwise fun p q => CapLE p.cap q.cap) →
    (dedupNames l).Pairwise fun p q => p.Name < q.Name
  | [], _ => List.Pairwise.nil
  | [_], _ => List.pairwise_singleton _ _
  | p :: q :: rest, h => by
    rw [dedupNames]
    split
    · exact dedupNames_pairwise (List.pairwise_cons.mp h).2
    · rename_i hne
      refine List.pairwise_cons.mpr ⟨fun r hr => ?_, dedupNames_pairwise (List.pairwise_cons.mp h).2⟩
      exact name_lt_of_sorted h hne r ((dedupNames_sublist (q :: rest)).subset hr)

theorem mem_dedupNames : ∀ {l : List Protocol}, CapSorted l → ∀ r : Protocol,
    r ∈ dedupNames l ↔ r ∈ l ∧ ∀ q ∈ l, q.Name = r.Name → q.Version ≤ r.Version
  | [], _, r => by simp [dedupNames]
  | [p], _, r => by
    simp only [dedupNames, List.mem_singleton]
    constructor
    · rintro rfl
      exact ⟨rfl, fun q hq _ => by subst hq; exact Nat.le_refl _⟩
    · exact fun h => h.1
  | p :: q :: rest, h, r => by
    have ih := mem_dedupNames h.tail r
    rw [dedupNames]
    split
    · rename_i hname
      rw [ih]
      constructor
      · rintro ⟨hr, hmax⟩
        refine ⟨List.mem_cons_of_mem _ hr, fun s hs hsname => ?_⟩
        rcases List.mem_cons.mp hs with rfl | hs
        · exact (version_le_of_sorted h.sorted hname).trans
            (hmax q List.mem_cons_self (hname.symm.trans hsname))
        · exact hmax s hs hsname
      · rintro ⟨hr, hmax⟩
        rcases List.mem_cons.mp hr with rfl | hr
        · -- `r` is `p`, of the version of `q`: the two are one protocol
          have hle := hmax q (List.mem_cons_of_mem _ List.mem_cons_self) hname.symm
          have hcap : r.cap = q.cap := by
            rw [Protocol.cap, Protocol.cap, hname,
              Nat.le_antisymm (version_le_of_sorted h.sorted hname) hle]
          obtain rfl := h.unique r List.mem_cons_self q
            (List.mem_cons_of_mem _ List.mem_cons_self) hcap
          exact ⟨List.mem_cons_self, fun s hs hsname => hmax s (List.mem_cons_of_mem _ hs) hsname⟩
        · exact ⟨hr, fun s hs hsname => hmax s (List.mem_cons_of_mem _ hs) hsname⟩
    · rename_i hne
      have hlt := name_lt_of_sorted h.sorted hne
      rw [List.mem_cons, ih]
      constructor
      · rintro (rfl | ⟨hr, hmax⟩)
        · refine ⟨List.mem_cons_self, fun s hs hsname => ?_⟩
          rcases List.mem_cons.mp hs with rfl | hs
          · exact Nat.le_refl _
          · exact absurd hsname (ne_of_gt (hlt s hs))
        · refine ⟨List.mem_cons_of_mem _ hr, fun s hs hsname => ?_⟩
          rcases List.mem_cons.mp hs with rfl | hs
          · exact absurd hsname.symm (ne_of_gt (hlt r hr))
          · exact hmax s hs hsname
      · rintro ⟨hr, hmax⟩
        rcases List.mem_cons.mp hr with rfl | hr
        · exact .inl rfl
        · exact .inr ⟨hr, fun s hs hsname => hmax s (List.mem_cons_of_mem _ hs) hsname⟩

end Sorted

/-! ## The two ends select the same protocols -/

def Runs (protocols : List Protocol) (cap : Cap) : Prop := ∃ p ∈ protocols, p.cap = cap

theorem mem_map_cap_iff (protocols : List Protocol) (cap : Cap) :
    cap ∈ protocols.map Protocol.cap ↔ Runs protocols cap := by
  simp [Runs]

theorem findProto_of_runs {protocols : List Protocol} {cap : Cap} (h : Runs protocols cap) :
    ∃ p, findProto protocols cap = some p := by
  obtain ⟨p, hp, rfl⟩ := h
  apply Option.isSome_iff_exists.mp
  rw [findProto, List.find?_isSome]
  exact ⟨p, hp, by simp [Protocol.cap]⟩

theorem matched_capSorted (protocols : List Protocol) (caps : List Cap) :
    CapSorted (matched protocols caps) where
  sorted := matched_sorted protocols caps
  unique := by
    intro p hp q hq hcap
    have hq' := (mem_matched.mp hq).2
    rw [← hcap, (mem_matched.mp hp).2] at hq'
    exact Option.some.inj hq'

theorem mem_selected (protocols others : List Protocol) (caps : List Cap)
    (hcaps : ∀ c, c ∈ caps ↔ Runs others c) (p : Protocol) :
    p ∈ dedupNames (matched protocols caps) ↔ Runs others p.cap ∧
      findProto protocols p.cap = some p ∧
      ∀ c, Runs protocols c → Runs others c → c.Name = p.Name → c.Version ≤ p.Version := by
  rw [mem_dedupNames (matched_capSorted _ _), mem_matched, hcaps]
  constructor
  · rintro ⟨⟨hruns, hfind⟩, hmax⟩
    refine ⟨hruns, hfind, fun c hc hc' hname => ?_⟩
    obtain ⟨q, hq⟩ := findProto_of_runs hc
    obtain ⟨hqcap, -⟩ := findProto_spec hq
    subst hqcap
    exact hmax q (mem_matched.mpr ⟨(hcaps _).mpr hc', hq⟩) hname
  · rintro ⟨hruns, hfind, hmax⟩
    refine ⟨⟨hruns, hfind⟩, fun q hq hname => ?_⟩
    obtain ⟨hqcaps, hqfind⟩ := mem_matched.mp hq
    exact hmax q.cap ⟨q, (findProto_spec hqfind).2, rfl⟩ ((hcaps _).mp hqcaps) hname

section Agree

variable {A B : List Protocol}

theorem findProto_agree (hlen : ∀ a ∈ A, ∀ b ∈ B, a.cap = b.cap → a.Length = b.Length)
    {cap : Cap} (hA : Runs A cap) (hB : Runs B cap) : findProto A cap = findProto B cap := by
  obtain ⟨a, ha⟩ := findProto_of_runs hA
  obtain ⟨b, hb⟩ := findProto_of_runs hB
  obtain ⟨hacap, hamem⟩ := findProto_spec ha
  obtain ⟨hbcap, hbmem⟩ := findProto_spec hb
  have hab : a.cap = b.cap := hacap.trans hbcap.symm
  have hlength := hlen a hamem b hbmem hab
  rw [ha, hb]
  simp only [Protocol.cap, Cap.mk.injEq] at hab
  cases a
  cases b
  simp_all

theorem selected_swap (hlen : ∀ a ∈ A, ∀ b ∈ B, a.cap = b.cap → a.Length = b.Length)
    {p : Protocol}
    (h : Runs B p.cap ∧ findProto A p.cap = some p ∧
      ∀ c, Runs A c → Runs B c → c.Name = p.Name → c.Version ≤ p.Version) :
    Runs A p.cap ∧ findProto B p.cap = some p ∧
      ∀ c, Runs B c → Runs A c → c.Name = p.Name → c.Version ≤ p.Version := by
  obtain ⟨hruns, hfind, hmax⟩ := h
  have hrunsA : Runs A p.cap := ⟨p, (findProto_spec hfind).2, rfl⟩
  refine ⟨hrunsA, ?_, fun c hB hA => hmax c hA hB⟩
  rw [← findProto_agree hlen hrunsA hruns, hfind]

theorem selected_eq {capsA capsB : List Cap} (hA : ∀ c, c ∈ capsA ↔ Runs A c)
    (hB : ∀ c, c ∈ capsB ↔ Runs B c)
    (hlen : ∀ a ∈ A, ∀ b ∈ B, a.cap = b.cap → a.Length = b.Length) :
    dedupNames (matched A capsB) = dedupNames (matched B capsA) := by
  have hlen' : ∀ b ∈ B, ∀ a ∈ A, b.cap = a.cap → b.Length = a.Length :=
    fun b hb a ha h => (hlen a ha b hb h.symm).symm
  have hsortedA := dedupNames_pairwise (matched_sorted A capsB)
  have hsortedB := dedupNames_pairwise (matched_sorted B capsA)
  have hnodup : ∀ l : List Protocol, (l.Pairwise fun p q => p.Name < q.Name) → l.Nodup :=
    fun l hl => hl.imp fun hlt heq => by subst heq; exact lt_irrefl _ hlt
  refine List.Perm.eq_of_pairwise ?_ hsortedA hsortedB ?_
  · intro a b _ _ hab hba
    exact absurd (hab.trans hba) (lt_irrefl _)
  · apply (List.perm_ext_iff_of_nodup (hnodup _ hsortedA) (hnodup _ hsortedB)).mpr
    intro p
    rw [mem_selected A B capsB hB, mem_selected B A capsA hA]
    exact ⟨selected_swap hlen, selected_swap hlen'⟩

end Agree

/-! ## The ranges -/

def layout : UInt64 → List Protocol → List ProtoRW
  | _, [] => []
  | offset, p :: ps => ⟨p, offset⟩ :: layout (offset + p.Length) ps

theorem proto_mem_of_mem_layout : ∀ {offset : UInt64} {l : List Protocol} {rw : ProtoRW},
    rw ∈ layout offset l → rw.proto ∈ l
  | _, [], _, h => nomatch h
  | _, p :: l, rw, h => by
    rcases List.mem_cons.mp h with rfl | h
    · exact List.mem_cons_self
    · exact List.mem_cons_of_mem _ (proto_mem_of_mem_layout h)

theorem get_foldl_assign : ∀ (l : List Protocol) (offset : UInt64) (m : GoMap String ProtoRW),
    (l.Pairwise fun p q => p.Name ≠ q.Name) → (∀ p ∈ l, m.get p.Name = none) → ∀ name,
    (l.foldl (fun st p => assign st p.Name p) (offset, m)).2.get name =
      ((layout offset l).find? fun rw => rw.proto.Name = name).or (m.get name)
  | [], _, _, _, _, _ => by simp [layout]
  | p :: l, offset, m, hl, hm, name => by
    obtain ⟨hp, hl⟩ := List.pairwise_cons.mp hl
    have hassign : assign (offset, m) p.Name p =
        (offset + p.Length, m.insert p.Name ⟨p, offset⟩) := by
      simp [assign, hm p List.mem_cons_self]
    have hm' : ∀ q ∈ l, (m.insert p.Name ⟨p, offset⟩).get q.Name = none := fun q hq => by
      rw [GoMap.get_insert_of_ne _ (hp q hq).symm]
      exact hm q (List.mem_cons_of_mem _ hq)
    rw [List.foldl_cons, hassign, get_foldl_assign l _ _ hl hm' name, layout, List.find?_cons]
    by_cases hname : p.Name = name
    · -- no later protocol has the name of `p`
      have hnone : ((layout (offset + p.Length) l).find? fun rw => rw.proto.Name = name) = none := by
        rw [List.find?_eq_none]
        intro rw hrw
        have := hp rw.proto (proto_mem_of_mem_layout hrw)
        simp only [decide_eq_true_eq]
        rw [← hname]
        exact this.symm
      subst hname
      simp [hnone]
    · simp [hname, GoMap.get_insert_of_ne _ (Ne.symm hname)]

theorem matchProtocols_eq_layout (protocols : List Protocol) (caps : List Cap) (name : String) :
    (matchProtocols protocols caps).get name =
      (layout baseProtocolLength (dedupNames (matched protocols caps))).find?
        fun rw => rw.proto.Name = name := by
  rw [matchProtocols_eq_foldl, foldl_assign_dedupNames,
    get_foldl_assign _ _ _ ((dedupNames_pairwise (matched_sorted _ _)).imp ne_of_lt)
      (fun _ _ => GoMap.get_empty _) name]
  simp

theorem exists_mem_layout : ∀ {offset : UInt64} {l : List Protocol} {p : Protocol}, p ∈ l →
    ∃ rw ∈ layout offset l, rw.proto = p
  | offset, q :: l, p, hp => by
    rcases List.mem_cons.mp hp with rfl | hp
    · exact ⟨⟨p, offset⟩, List.mem_cons_self, rfl⟩
    · obtain ⟨rw, hrw, hproto⟩ := exists_mem_layout hp
      exact ⟨rw, List.mem_cons_of_mem _ hrw, hproto⟩

section Agree

variable {A B : List Protocol} {capsA capsB : List Cap}

theorem matchProtocols_symm (hA : ∀ c, c ∈ capsA ↔ Runs A c) (hB : ∀ c, c ∈ capsB ↔ Runs B c)
    (hlen : ∀ a ∈ A, ∀ b ∈ B, a.cap = b.cap → a.Length = b.Length) :
    matchProtocols A capsB = matchProtocols B capsA := by
  rw [matchProtocols_eq_foldl, matchProtocols_eq_foldl, foldl_assign_dedupNames (matched A capsB),
    foldl_assign_dedupNames (matched B capsA), selected_eq hA hB hlen]

end Agree


/-! ## Dispatch -/

theorem find?_eq_some_of_unique {α : Type} {p : α → Bool} {l : List α} {x : α} (hx : x ∈ l)
    (hpx : p x = true) (huniq : ∀ y ∈ l, p y = true → y = x) : l.find? p = some x := by
  cases hfind : l.find? p with
  | none =>
    rw [List.find?_eq_none] at hfind
    exact absurd hpx (hfind x hx)
  | some y => rw [huniq y (List.mem_of_find?_eq_some hfind) (List.find?_some hfind)]

section Dispatch

variable {running : GoMap String ProtoRW}

/-- The ranges of the running protocols, when none passes `2 ^ 64` and no two meet. -/
structure RangesApart (running : GoMap String ProtoRW) : Prop where
  above : ∀ rw ∈ running.values, baseProtocolLength.toNat ≤ rw.offset.toNat
  no_wrap : ∀ rw ∈ running.values, rw.offset.toNat + rw.proto.Length.toNat < 2 ^ 64
  apart : ∀ rw ∈ running.values, ∀ rw' ∈ running.values, rw ≠ rw' →
    rw.offset.toNat + rw.proto.Length.toNat ≤ rw'.offset.toNat ∨
      rw'.offset.toNat + rw'.proto.Length.toNat ≤ rw.offset.toNat

theorem RangesApart.holds_iff (h : RangesApart running) {rw : ProtoRW} (hrw : rw ∈ running.values)
    (code : UInt64) :
    (code ≥ rw.offset ∧ code < rw.offset + rw.proto.Length) ↔
      rw.offset.toNat ≤ code.toNat ∧ code.toNat < rw.offset.toNat + rw.proto.Length.toNat := by
  have hend : (rw.offset + rw.proto.Length).toNat = rw.offset.toNat + rw.proto.Length.toNat := by
    rw [UInt64.toNat_add, Nat.mod_eq_of_lt (h.no_wrap rw hrw)]
  rw [ge_iff_le, UInt64.le_iff_toNat_le, UInt64.lt_iff_toNat_lt, hend]

theorem RangesApart.getProto (h : RangesApart running) {rw : ProtoRW} (hrw : rw ∈ running.values)
    {code : UInt64}
    (hcode : rw.offset.toNat ≤ code.toNat ∧ code.toNat < rw.offset.toNat + rw.proto.Length.toNat) :
    getProto running code = some rw := by
  apply find?_eq_some_of_unique hrw (decide_eq_true ((h.holds_iff hrw code).mpr hcode))
  intro y hy hcode'
  have hy' := (h.holds_iff hy code).mp (of_decide_eq_true hcode')
  by_contra hne
  rcases h.apart y hy rw hrw hne with hlt | hlt <;> omega

theorem RangesApart.handle (h : RangesApart running) {rw : ProtoRW} (hrw : rw ∈ running.values)
    {code : UInt64}
    (hcode : rw.offset.toNat ≤ code.toNat ∧ code.toNat < rw.offset.toNat + rw.proto.Length.toNat) :
    handle running code = .deliver rw := by
  have h16 : 16 ≤ code.toNat := (h.above rw hrw).trans hcode.1
  have hping : code ≠ pingMsg := fun heq => by rw [heq] at h16; exact absurd h16 (by decide)
  have hdisc : code ≠ discMsg := fun heq => by rw [heq] at h16; exact absurd h16 (by decide)
  have hbase : ¬code < baseProtocolLength := by
    rw [UInt64.lt_iff_toNat_lt]
    exact Nat.not_lt.mpr h16
  rw [P2p.handle, if_neg hping, if_neg hdisc, if_neg hbase, h.getProto hrw hcode]

end Dispatch

/-! ## What each end builds -/

section Ends

variable {A B : List Protocol} {capsA capsB : List Cap}

/-- Two ends that announce the capabilities of their own protocols and agree on the number of
codes of every capability they share build the same map: for each name both run in a common
version, the highest common version, at the same offset. -/
theorem matchProtocols_agree (hA : ∀ c, c ∈ capsA ↔ Runs A c) (hB : ∀ c, c ∈ capsB ↔ Runs B c)
    (hlen : ∀ a ∈ A, ∀ b ∈ B, a.cap = b.cap → a.Length = b.Length) :
    matchProtocols A capsB = matchProtocols B capsA ∧
    (∀ name rw, (matchProtocols A capsB).get name = some rw →
      rw.proto.Name = name ∧ Runs A rw.proto.cap ∧ Runs B rw.proto.cap ∧
      ∀ c, Runs A c → Runs B c → c.Name = name → c.Version ≤ rw.proto.Version) ∧
    (∀ c, Runs A c → Runs B c → ∃ rw, (matchProtocols A capsB).get c.Name = some rw) := by
  refine ⟨matchProtocols_symm hA hB hlen, fun name rw hget => ?_, fun c hcA hcB => ?_⟩
  · rw [matchProtocols_eq_layout] at hget
    have hname := List.find?_some hget
    simp only [decide_eq_true_eq] at hname
    obtain ⟨hruns, hfind, hmax⟩ := (mem_selected A B capsB hB rw.proto).mp
      (proto_mem_of_mem_layout (List.mem_of_find?_eq_some hget))
    exact ⟨hname, ⟨rw.proto, (findProto_spec hfind).2, rfl⟩, hruns, hname ▸ hmax⟩
  · obtain ⟨p, hp⟩ := findProto_of_runs hcA
    obtain ⟨hpcap, -⟩ := findProto_spec hp
    have hmatched : p ∈ matched A capsB := mem_matched.mpr ⟨by rw [hpcap, hB]; exact hcB, hpcap ▸ hp⟩
    obtain ⟨r, hr, hrname⟩ := exists_mem_dedupNames hmatched
    obtain ⟨rw, hrw, hproto⟩ :
        ∃ rw ∈ layout baseProtocolLength (dedupNames (matched A capsB)), rw.proto = r :=
      exists_mem_layout hr
    rw [matchProtocols_eq_layout]
    apply Option.isSome_iff_exists.mp
    rw [List.find?_isSome]
    refine ⟨rw, hrw, ?_⟩
    rw [decide_eq_true_eq, hproto, hrname, ← hpcap]
    rfl

theorem matchProtocols_agree_pair :
    (∀ c, c ∈ [(⟨"eth", 62, 8⟩ : Protocol), ⟨"eth", 63, 17⟩].map Protocol.cap ↔
      Runs [⟨"eth", 62, 8⟩, ⟨"eth", 63, 17⟩] c) ∧
    (∀ c, c ∈ [(⟨"eth", 63, 17⟩ : Protocol), ⟨"shh", 2, 8⟩].map Protocol.cap ↔
      Runs [⟨"eth", 63, 17⟩, ⟨"shh", 2, 8⟩] c) ∧
    (∀ a ∈ [(⟨"eth", 62, 8⟩ : Protocol), ⟨"eth", 63, 17⟩],
      ∀ b ∈ [(⟨"eth", 63, 17⟩ : Protocol), ⟨"shh", 2, 8⟩], a.cap = b.cap → a.Length = b.Length) ∧
    (matchProtocols [⟨"eth", 62, 8⟩, ⟨"eth", 63, 17⟩]
        ([(⟨"eth", 63, 17⟩ : Protocol), ⟨"shh", 2, 8⟩].map Protocol.cap) =
      matchProtocols [⟨"eth", 63, 17⟩, ⟨"shh", 2, 8⟩]
        ([(⟨"eth", 62, 8⟩ : Protocol), ⟨"eth", 63, 17⟩].map Protocol.cap) ∧
    (∀ name rw, (matchProtocols [⟨"eth", 62, 8⟩, ⟨"eth", 63, 17⟩]
        ([(⟨"eth", 63, 17⟩ : Protocol), ⟨"shh", 2, 8⟩].map Protocol.cap)).get name = some rw →
      rw.proto.Name = name ∧ Runs [⟨"eth", 62, 8⟩, ⟨"eth", 63, 17⟩] rw.proto.cap ∧
      Runs [⟨"eth", 63, 17⟩, ⟨"shh", 2, 8⟩] rw.proto.cap ∧
      ∀ c, Runs [⟨"eth", 62, 8⟩, ⟨"eth", 63, 17⟩] c → Runs [⟨"eth", 63, 17⟩, ⟨"shh", 2, 8⟩] c →
        c.Name = name → c.Version ≤ rw.proto.Version) ∧
    (∀ c, Runs [⟨"eth", 62, 8⟩, ⟨"eth", 63, 17⟩] c → Runs [⟨"eth", 63, 17⟩, ⟨"shh", 2, 8⟩] c →
      ∃ rw, (matchProtocols [⟨"eth", 62, 8⟩, ⟨"eth", 63, 17⟩]
        ([(⟨"eth", 63, 17⟩ : Protocol), ⟨"shh", 2, 8⟩].map Protocol.cap)).get c.Name = some rw)) :=
  ⟨mem_map_cap_iff _, mem_map_cap_iff _, by decide,
    matchProtocols_agree (mem_map_cap_iff _) (mem_map_cap_iff _) (by decide)⟩

end Ends

/-! ## A range that wraps -/

end Zerium.P2p
