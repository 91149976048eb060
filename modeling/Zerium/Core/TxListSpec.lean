import Zerium.Core.TxList

/-! # The transaction lists keep their invariant

`TxSortedMap.Valid` is the representation invariant of a `txSortedMap` against the sorted list it
stands for: the map holds exactly the list's transactions under their nonces, the heap holds the
list's nonces, each once and in heap order, and a cache is the list. Each call keeps it and hands
out what the list says, so every run from a new map keeps it, until a `Cap` below zero panics.
`TxList.Valid` adds that the caps bound the cost and gas of every transaction held, which is what
lets `Filter` skip its scan.
-/

namespace Zerium.Core

set_option autoImplicit false

variable {Tx : Type} (nonce : Tx → UInt64)

def Holds (items : GoMap UInt64 Tx) (l : List Tx) : Prop :=
  ∀ k tx, items.get k = some tx ↔ tx ∈ l ∧ nonce tx = k

/-- A map, a heap of nonces and a list agree. -/
structure Indexed (items : GoMap UInt64 Tx) (index : List UInt64) (l : List Tx) : Prop where
  holds : Holds nonce items l
  perm : index.Perm (l.map nonce)
  heap : GoHeap.IsHeap UInt64.toNat index index.length

/-- The representation invariant of `txSortedMap`. -/
structure TxSortedMap.Valid (m : TxSortedMap Tx) (L : NonceList nonce) : Prop where
  indexed : Indexed nonce m.items m.index L.toList
  cache : ∀ c, m.cache = some c → c = L.toList

variable {nonce}

/-! ## Lists sorted by nonce -/

section Sorted

variable {l : List Tx}

theorem nodup_map_of_sorted (hs : l.Pairwise fun a b => nonce a < nonce b) : (l.map nonce).Nodup :=
  List.pairwise_map.mpr (hs.imp UInt64.ne_of_lt)

theorem eq_of_nonce_eq (hs : l.Pairwise fun a b => nonce a < nonce b) {a b : Tx} (ha : a ∈ l)
    (hb : b ∈ l) (h : nonce a = nonce b) : a = b :=
  List.inj_on_of_nodup_map (nodup_map_of_sorted hs) ha hb h

theorem map_perm_of_mem (hs : l.Pairwise fun a b => nonce a < nonce b) {k : UInt64}
    (hk : k ∈ l.map nonce) :
    (l.map nonce).Perm (k :: (l.filter fun tx => nonce tx ≠ k).map nonce) := by
  refine (List.perm_cons_erase hk).trans (List.Perm.cons k ?_)
  have hf : l.filter ((fun x => x != k) ∘ nonce) = l.filter fun tx => nonce tx ≠ k :=
    List.filter_congr fun x _ => Bool.eq_iff_iff.mpr (by simp [bne_iff_ne])
  rw [(nodup_map_of_sorted hs).erase_eq_filter, List.filter_map, hf]

theorem filter_cons_of_sorted {tx : Tx} (hs : (tx :: l).Pairwise fun a b => nonce a < nonce b) :
    (tx :: l).filter (fun a => nonce a ≠ nonce tx) = l := by
  rw [List.filter_cons_of_neg (by simp), List.filter_eq_self]
  intro a ha
  simpa using (UInt64.ne_of_lt ((List.pairwise_cons.mp hs).1 a ha)).symm

theorem filter_take_succ (hs : l.Pairwise fun a b => nonce a < nonce b) {j : Nat}
    (hj : j < l.length) : (l.take (j + 1)).filter (fun a => nonce a ≠ nonce l[j]) = l.take j := by
  have hsplit := List.take_append_getElem hj
  have hs' : (l.take j ++ [l[j]]).Pairwise fun a b => nonce a < nonce b :=
    hsplit ▸ hs.sublist (List.take_sublist _ _)
  rw [← hsplit, List.filter_append, List.filter_singleton, List.filter_eq_self.mpr]
  · simp
  · intro a ha
    have := (List.pairwise_append.mp hs').2.2 a ha l[j] List.mem_cons_self
    simpa using UInt64.ne_of_lt this

theorem takeWhile_dropWhile_of_sorted (t : UInt64) :
    ∀ {l : List Tx}, l.Pairwise (fun a b => nonce a < nonce b) →
      l.takeWhile (fun tx => nonce tx < t) = l.filter (fun tx => nonce tx < t) ∧
        l.dropWhile (fun tx => nonce tx < t) = l.filter (fun tx => t ≤ nonce tx)
  | [], _ => ⟨rfl, rfl⟩
  | a :: l, hs => by
    rw [List.pairwise_cons] at hs
    obtain ⟨ih₁, ih₂⟩ := takeWhile_dropWhile_of_sorted t hs.2
    by_cases ha : nonce a < t
    · have hna : ¬ t ≤ nonce a := UInt64.not_le.mpr ha
      simp [ha, hna, ih₁, ih₂]
    · -- everything after `a` is above it, so at least `t` too
      have hle : t ≤ nonce a := UInt64.not_lt.mp ha
      have hall : ∀ b ∈ l, t ≤ nonce b := fun b hb => UInt64.le_trans hle (UInt64.le_of_lt (hs.1 b hb))
      have hlt : l.filter (fun tx => nonce tx < t) = [] :=
        List.filter_eq_nil_iff.mpr fun b hb => by simpa using UInt64.not_lt.mpr (hall b hb)
      have hge : l.filter (fun tx => t ≤ nonce tx) = l :=
        List.filter_eq_self.mpr fun b hb => by simpa using hall b hb
      simp [ha, hle, hlt, hge]

end Sorted

/-! ## The map holds the list -/

section Holds

variable {items : GoMap UInt64 Tx} {l l' : List Tx}

theorem Holds.perm (h : Holds nonce items l) (hp : l.Perm l') : Holds nonce items l' :=
  fun k tx => by rw [h k tx, hp.mem_iff]

theorem Holds.get_of_mem (h : Holds nonce items l) {tx : Tx} (hm : tx ∈ l) :
    items.get (nonce tx) = some tx :=
  (h _ _).mpr ⟨hm, rfl⟩

theorem Holds.erase (h : Holds nonce items l) (k : UInt64) :
    Holds nonce (items.erase k) (l.filter fun tx => nonce tx ≠ k) := by
  intro k' tx
  rw [GoMap.get_erase, List.mem_filter]
  by_cases hk : k' = k
  · subst hk
    simp
  · rw [if_neg hk, h]
    constructor
    · rintro ⟨hm, rfl⟩
      exact ⟨⟨hm, by simpa using hk⟩, rfl⟩
    · rintro ⟨⟨hm, -⟩, he⟩
      exact ⟨hm, he⟩

theorem Holds.insert (h : Holds nonce items l) (tx : Tx) :
    Holds nonce (items.insert (nonce tx) tx) (tx :: l.filter fun a => nonce a ≠ nonce tx) := by
  intro k tx'
  rw [GoMap.get_insert, List.mem_cons, List.mem_filter]
  by_cases hk : k = nonce tx
  · subst hk
    simp only [if_pos, Option.some.injEq]
    constructor
    · rintro rfl
      exact ⟨Or.inl rfl, rfl⟩
    · rintro ⟨rfl | ⟨-, hne⟩, he⟩
      · rfl
      · exact absurd he (by simpa using hne)
  · rw [if_neg hk, h]
    constructor
    · rintro ⟨hm, rfl⟩
      exact ⟨Or.inr ⟨hm, by simpa using hk⟩, rfl⟩
    · rintro ⟨rfl | ⟨hm, -⟩, he⟩
      · exact absurd he.symm hk
      · exact ⟨hm, he⟩

theorem Holds.keys_perm (h : Holds nonce items l) (hs : l.Pairwise fun a b => nonce a < nonce b) :
    items.keys.Perm (l.map nonce) := by
  refine (List.perm_ext_iff_of_nodup items.nodup (nodup_map_of_sorted hs)).mpr fun k => ?_
  rw [items.mem_keys k, Option.isSome_iff_exists, List.mem_map]
  constructor
  · rintro ⟨tx, htx⟩
    exact ⟨tx, ((h k tx).mp htx)⟩
  · rintro ⟨tx, hm, rfl⟩
    exact ⟨tx, h.get_of_mem hm⟩

end Holds

/-! ## The heap holds the nonces -/

section Indexed

variable {items : GoMap UInt64 Tx} {index : List UInt64} {l : List Tx}

theorem Indexed.index_eq_nil (hi : Indexed nonce items index []) : index = [] :=
  List.Perm.eq_nil hi.perm

theorem Indexed.pop {tx : Tx} (hi : Indexed nonce items index (tx :: l))
    (hs : (tx :: l).Pairwise fun a b => nonce a < nonce b) :
    items.get (nonce tx) = some tx ∧ index[0]? = some (nonce tx) ∧
      ∃ index', GoHeap.pop UInt64.toNat index = some (nonce tx, index') ∧
        Indexed nonce (items.erase (nonce tx)) index' l := by
  have hne : index ≠ [] := by
    rintro rfl
    exact absurd hi.perm.length_eq (by simp)
  obtain ⟨index', hpop, hheap, hperm⟩ := GoHeap.pop_spec hi.heap hne
  -- the root is no greater than the nonce of `tx`, and no nonce of the rest is that small
  have hhead : index.head hne = nonce tx := by
    have hle := hi.heap.head_le hne (hi.perm.symm.subset List.mem_cons_self)
    rcases List.mem_cons.mp (hi.perm.subset (List.head_mem hne)) with h | h
    · exact h
    · obtain ⟨b, hb, hbe⟩ := List.mem_map.mp h
      have hlt := (List.pairwise_cons.mp hs).1 b hb
      rw [hbe, UInt64.lt_iff_toNat_lt] at hlt
      omega
  rw [hhead] at hpop hperm
  refine ⟨hi.holds.get_of_mem List.mem_cons_self, ?_, index', hpop, ⟨?_, ?_, hheap⟩⟩
  · rw [← List.head?_eq_getElem?, List.head?_eq_some_head hne, hhead]
  · exact filter_cons_of_sorted hs ▸ hi.holds.erase (nonce tx)
  · exact List.Perm.cons_inv (hperm.trans hi.perm)

end Indexed

/-! ## Each call of `txSortedMap` -/

namespace TxSortedMap

variable {m : TxSortedMap Tx} {L L' : NonceList nonce}

theorem Valid.holds (hv : m.Valid nonce L) : Holds nonce m.items L.toList := hv.indexed.holds

theorem Valid.of_toList_eq (hv : m.Valid nonce L) (h : L'.toList = L.toList) : m.Valid nonce L' :=
  ⟨h ▸ hv.indexed, h ▸ hv.cache⟩

theorem Valid.length_index (hv : m.Valid nonce L) : m.index.length = L.toList.length := by
  rw [hv.indexed.perm.length_eq, List.length_map]

theorem Valid.Len_eq (hv : m.Valid nonce L) : m.Len = L.toList.length := by
  rw [Len, (hv.holds.keys_perm L.sorted).length_eq, List.length_map]

theorem Valid_newTxSortedMap : (newTxSortedMap : TxSortedMap Tx).Valid nonce NonceList.empty :=
  ⟨⟨fun k tx => by simp [newTxSortedMap, NonceList.empty], List.Perm.nil,
    fun c hc0 hcn => absurd hcn (by simp [newTxSortedMap])⟩, fun c hc => by cases hc⟩

theorem Put_valid (hv : m.Valid nonce L) (tx : Tx) : (m.Put nonce tx).Valid nonce (L.put tx) := by
  have hput : (L.put tx).toList.Perm (tx :: L.toList.filter fun a => nonce a ≠ nonce tx) :=
    List.perm_orderedInsert _ _ _
  have hmap := hput.map nonce
  refine ⟨⟨(hv.holds.insert tx).perm hput.symm, ?_, ?_⟩, fun c hc => by cases hc⟩
  · cases hget : m.items.get (nonce tx) with
    | none =>
      -- a new nonce: no transaction of it is held, and it is pushed on the heap
      have hfilter : (L.toList.filter fun a => nonce a ≠ nonce tx) = L.toList :=
        List.filter_eq_self.mpr fun a ha => by
          have hga := hv.holds.get_of_mem ha
          simp only [decide_eq_true_eq]
          rintro hat
          rw [hat, hget] at hga
          cases hga
      rw [hfilter] at hmap
      simp only [Put, hget]
      exact (GoHeap.push_perm _ _).trans ((hv.indexed.perm.cons _).trans hmap.symm)
    | some old =>
      -- a nonce held already, which the heap keeps
      obtain ⟨hold, hn⟩ := (hv.holds _ _).mp hget
      simp only [Put, hget]
      exact hv.indexed.perm.trans
        ((map_perm_of_mem L.sorted (List.mem_map.mpr ⟨old, hold, hn⟩)).trans hmap.symm)
  · cases hget : m.items.get (nonce tx) with
    | none =>
      simp only [Put, hget]
      exact GoHeap.push_isHeap hv.indexed.heap _
    | some _ =>
      simp only [Put, hget]
      exact hv.indexed.heap

theorem forwardLoop_spec (threshold : UInt64) :
    ∀ (l : List Tx) (fuel : Nat) (items : GoMap UInt64 Tx) (index : List UInt64)
      (removed : List (Option Tx)), l.Pairwise (fun a b => nonce a < nonce b) →
      l.length ≤ fuel → Indexed nonce items index l →
      ∃ items' index', forwardLoop threshold fuel items index removed =
          some (items', index', removed ++ (l.takeWhile fun tx => nonce tx < threshold).map some) ∧
        Indexed nonce items' index' (l.dropWhile fun tx => nonce tx < threshold)
  | [], fuel, items, index, removed, _, _, hi => by
    have hnil := hi.index_eq_nil
    subst hnil
    refine ⟨items, [], ?_, hi⟩
    cases fuel <;> simp [forwardLoop]
  | tx :: l, fuel, items, index, removed, hs, hlen, hi => by
    obtain ⟨hget, h0, index', hpop, hi'⟩ := hi.pop hs
    obtain ⟨fuel, rfl⟩ : ∃ f, fuel = f + 1 := ⟨fuel - 1, by simp at hlen; omega⟩
    by_cases ht : nonce tx < threshold
    · -- the root goes, and the loop goes on with the rest
      obtain ⟨items', index'', hloop, hi''⟩ := forwardLoop_spec threshold l fuel _ index'
        (removed ++ [some tx]) (List.pairwise_cons.mp hs).2 (by simpa using hlen) hi'
      refine ⟨items', index'', ?_, by simpa [ht] using hi''⟩
      simp only [forwardLoop, h0, if_pos ht, hpop, Option.bind_some, hget]
      rw [hloop]
      simp [ht]
    · refine ⟨items, index, ?_, by simpa [ht] using hi⟩
      simp [forwardLoop, h0, ht]

theorem Forward_spec (hv : m.Valid nonce L) (threshold : UInt64) :
    ∃ m', m.Forward threshold =
        some (m', (L.toList.filter fun tx => nonce tx < threshold).map some) ∧
      m'.Valid nonce (L.step (.forward threshold)) := by
  obtain ⟨htake, hdrop⟩ := takeWhile_dropWhile_of_sorted threshold L.sorted
  obtain ⟨items', index', hloop, hi'⟩ := forwardLoop_spec threshold L.toList m.index.length m.items
    m.index [] L.sorted (by rw [hv.length_index]) hv.indexed
  rw [htake] at hloop
  rw [hdrop] at hi'
  have hi'' : Indexed nonce items' index' (L.step (.forward threshold)).toList := hi'
  cases hc : m.cache with
  | none =>
    refine ⟨⟨items', index', none⟩, ?_, hi'', fun c hc' => by cases hc'⟩
    simp [Forward, hloop, hc]
  | some c =>
    -- the cache is the list, and loses the prefix that went
    have hcL := hv.cache c hc
    subst hcL
    have hsplit : (L.toList.filter fun tx => nonce tx < threshold) ++
        (L.step (.forward threshold)).toList = L.toList := by
      show _ ++ L.toList.filter (fun tx => threshold ≤ nonce tx) = _
      rw [← htake, ← hdrop]
      exact List.takeWhile_append_dropWhile
    have hdrop' : ((L.toList.filter fun tx => nonce tx < threshold) ++
        (L.step (.forward threshold)).toList).drop
          (L.toList.filter fun tx => nonce tx < threshold).length =
        (L.step (.forward threshold)).toList := List.drop_left' rfl
    rw [hsplit] at hdrop'
    have hlen : (L.toList.filter fun tx => nonce tx < threshold).length ≤ L.toList.length :=
      List.length_filter_le _ _
    refine ⟨⟨items', index', some (L.step (.forward threshold)).toList⟩, ?_, hi'',
      fun c hc' => by cases hc'; rfl⟩
    simp [Forward, hloop, hc, hlen, hdrop']

theorem capLoop_neg {threshold : Int} (ht : threshold < 0) (index : List UInt64) :
    ∀ (size : Nat) (items : GoMap UInt64 Tx) (drops : List (Option Tx)),
      capLoop threshold index size items drops = none
  | 0, items, drops => by simp [capLoop, ht]
  | size + 1, items, drops => by
    rw [capLoop, if_pos (by omega)]
    split
    · exact capLoop_neg ht index size _ _
    · rfl

theorem capLoop_spec {l : List Tx} (hs : l.Pairwise fun a b => nonce a < nonce b) (n : Nat) :
    ∀ (k : Nat) (items : GoMap UInt64 Tx) (drops : List (Option Tx)), n + k ≤ l.length →
      Holds nonce items (l.take (n + k)) →
      ∃ items', capLoop n (l.map nonce) (n + k) items drops =
          some (items', drops ++ ((l.drop n).take k).reverse.map some) ∧
        Holds nonce items' (l.take n)
  | 0, items, drops, _, h => ⟨items, by cases n <;> simp [capLoop], h⟩
  | k + 1, items, drops, hlen, h => by
    have hj : n + k < l.length := by omega
    -- the transaction at `n + k` is the last one counted, and goes
    have hget : items.get (nonce l[n + k]) = some l[n + k] :=
      h.get_of_mem (by
        rw [show n + (k + 1) = n + k + 1 by omega, ← List.take_append_getElem hj]
        exact List.mem_append_right _ List.mem_cons_self)
    have h' : Holds nonce (items.erase (nonce l[n + k])) (l.take (n + k)) :=
      filter_take_succ hs hj ▸ h.erase _
    obtain ⟨items', hloop, h''⟩ := capLoop_spec hs n k _ (drops ++ [some l[n + k]]) (by omega) h'
    have hidx : (l.map nonce)[n + k]? = some (nonce l[n + k]) := by simp [hj]
    have htake : (l.drop n).take (k + 1) = (l.drop n).take k ++ [l[n + k]] := by
      rw [List.take_add_one, List.getElem?_drop, List.getElem?_eq_getElem hj]
      rfl
    refine ⟨items', ?_, h''⟩
    rw [show n + (k + 1) = n + k + 1 by omega, capLoop, if_pos (by omega), hidx]
    simp only [hget, hloop, htake, List.reverse_append, List.map_append, List.append_assoc]
    rfl

theorem insertionSort_index {items : GoMap UInt64 Tx} {index : List UInt64} {l : List Tx}
    (hi : Indexed nonce items index l) (hs : l.Pairwise fun a b => nonce a < nonce b) :
    index.insertionSort (· ≤ ·) = l.map nonce :=
  List.Perm.eq_of_pairwise' (List.pairwise_insertionSort _ _)
    (List.pairwise_map.mpr (hs.imp UInt64.le_of_lt)) ((List.perm_insertionSort _ _).trans hi.perm)

theorem Cap_neg {threshold : Int} (ht : threshold < 0) (m : TxSortedMap Tx) :
    m.Cap threshold = none := by
  rw [Cap, if_neg (by omega)]
  simp [capLoop_neg ht]

theorem Cap_spec (hv : m.Valid nonce L) (n : Nat) :
    ∃ m', m.Cap n = some (m', (L.toList.drop n).reverse.map some) ∧
      m'.Valid nonce (L.step (.cap n)) := by
  have hstep : (L.step (.cap n)).toList = L.toList.take n := rfl
  by_cases hn : L.toList.length ≤ n
  · -- nothing is over the limit
    refine ⟨m, ?_, hv.of_toList_eq (by rw [hstep, List.take_of_length_le hn])⟩
    rw [Cap, if_pos (by rw [hv.Len_eq]; omega), List.drop_of_length_le hn]
    rfl
  · obtain ⟨k, hk⟩ : ∃ k, L.toList.length = n + k := ⟨L.toList.length - n, by omega⟩
    obtain ⟨items', hloop, h'⟩ := capLoop_spec L.sorted n k m.items [] (by omega)
      (by rw [← hk, List.take_length]; exact hv.holds)
    have hdrops : ((L.toList.drop n).take k).reverse = (L.toList.drop n).reverse := by
      rw [List.take_of_length_le (by simp; omega)]
    -- the heap left is built from the first `n` nonces
    have hi' : Indexed nonce items' (GoHeap.init UInt64.toNat ((L.toList.map nonce).take n))
        (L.step (.cap n)).toList :=
      ⟨hstep ▸ h', (GoHeap.init_perm _).trans (by rw [hstep, List.map_take]),
        GoHeap.init_isHeap _⟩
    rw [Cap, if_neg (by rw [hv.Len_eq]; omega), insertionSort_index hv.indexed L.sorted,
      hv.Len_eq, hk]
    dsimp only
    rw [hloop, Option.bind_some, List.nil_append, hdrops, Int.toNat_natCast]
    cases hc : m.cache with
    | none => exact ⟨_, rfl, hi', fun c hc' => by cases hc'⟩
    | some c =>
      -- the cache is the list, and loses as many at its back
      have hcL := hv.cache c hc
      subst hcL
      refine ⟨⟨items', GoHeap.init UInt64.toNat ((L.toList.map nonce).take n),
        some (L.step (.cap n)).toList⟩, ?_, hi', fun c hc' => by cases hc'; rfl⟩
      have hlen : ((L.toList.drop n).reverse.map some).length = k := by simp; omega
      simp only [hlen, if_pos (show k ≤ L.toList.length by omega), hstep,
        show L.toList.length - k = n by omega]

theorem Remove_spec (hv : m.Valid nonce L) (n : UInt64) :
    ∃ m', m.Remove n = some (m', L.toList.any fun tx => nonce tx = n) ∧
      m'.Valid nonce (L.step (.remove n)) := by
  have hstep : (L.step (.remove n)).toList = L.toList.filter fun tx => nonce tx ≠ n := rfl
  cases hget : m.items.get n with
  | none =>
    -- no transaction of the nonce is held, and nothing changes
    have hno : ∀ tx ∈ L.toList, nonce tx ≠ n := fun tx htx he => by
      rw [← he, hv.holds.get_of_mem htx] at hget
      cases hget
    refine ⟨m, ?_, hv.of_toList_eq ?_⟩
    · simpa [Remove, hget] using hno
    · rw [hstep, List.filter_eq_self.mpr fun tx htx => by simpa using hno tx htx]
  | some tx =>
    obtain ⟨htx, rfl⟩ := (hv.holds _ _).mp hget
    have hmem : nonce tx ∈ L.toList.map nonce := List.mem_map_of_mem htx
    -- the first place of the nonce in the heap
    obtain ⟨i, hi⟩ : ∃ i, m.index.findIdx? (· == nonce tx) = some i := by
      rw [← Option.isSome_iff_exists, List.findIdx?_isSome, List.any_eq_true]
      exact ⟨_, hv.indexed.perm.symm.subset hmem, by simp⟩
    obtain ⟨hlt, hieq, -⟩ := List.findIdx?_eq_some_iff_getElem.mp hi
    rw [beq_iff_eq] at hieq
    obtain ⟨index', hrm, hheap, hperm⟩ := GoHeap.remove_spec hv.indexed.heap hlt
    rw [hieq] at hrm hperm
    refine ⟨⟨m.items.erase (nonce tx), index', none⟩, ?_,
      ⟨⟨hv.holds.erase _, ?_, hheap⟩, fun c hc => by cases hc⟩⟩
    · simp only [Remove, hget, hi, hrm, Option.map_some]
      congr
      exact (List.any_eq_true.mpr ⟨tx, htx, by simp⟩).symm
    · exact List.Perm.cons_inv
        (hperm.trans (hv.indexed.perm.trans (map_perm_of_mem L.sorted hmem)))

theorem consecutive_succ {tx : Tx} {l : List Tx}
    (hs : (tx :: l).Pairwise fun a b => nonce a < nonce b) :
    consecutive nonce (nonce tx + 1).toNat l = consecutive nonce ((nonce tx).toNat + 1) l := by
  cases l with
  | nil => rfl
  | cons b l =>
    have hlt := (List.pairwise_cons.mp hs).1 b List.mem_cons_self
    rw [UInt64.lt_iff_toNat_lt] at hlt
    have hb := (nonce b).toNat_lt
    rw [UInt64.toNat_add, UInt64.toNat_one, Nat.mod_eq_of_lt (by omega)]

theorem readyLoop_spec :
    ∀ (l : List Tx) (fuel : Nat) (next : UInt64) (items : GoMap UInt64 Tx)
      (index : List UInt64) (ready : List (Option Tx)),
      l.Pairwise (fun a b => nonce a < nonce b) → l.length ≤ fuel → Indexed nonce items index l →
      ∃ items' index', readyLoop fuel next items index ready =
          some (items', index', ready ++ (consecutive nonce next.toNat l).map some) ∧
        Indexed nonce items' index' (l.drop (consecutive nonce next.toNat l).length)
  | [], fuel, next, items, index, ready, _, _, hi => by
    have hnil := hi.index_eq_nil
    subst hnil
    refine ⟨items, [], ?_, hi⟩
    cases fuel <;> simp [readyLoop, consecutive]
  | tx :: l, fuel, next, items, index, ready, hs, hlen, hi => by
    obtain ⟨hget, h0, index', hpop, hi'⟩ := hi.pop hs
    obtain ⟨fuel, rfl⟩ : ∃ f, fuel = f + 1 := ⟨fuel - 1, by simp at hlen; omega⟩
    by_cases hn : nonce tx = next
    · -- the lowest nonce is `next`: it goes, and the count moves on
      subst hn
      obtain ⟨items', index'', hloop, hi''⟩ := readyLoop_spec l fuel (nonce tx + 1) _ index'
        (ready ++ [some tx]) (List.pairwise_cons.mp hs).2 (by simpa using hlen) hi'
      rw [consecutive_succ hs] at hloop hi''
      refine ⟨items', index'', ?_, by simpa [consecutive] using hi''⟩
      simp only [readyLoop, h0, hpop, Option.bind_some, hget, hloop]
      simp [consecutive]
    · have hc : consecutive nonce next.toNat (tx :: l) = [] := by
        simp [consecutive, UInt64.toNat_inj, hn]
      refine ⟨items, index, ?_, by simpa [hc] using hi⟩
      simp [readyLoop, h0, hn, hc]

theorem Ready_spec (hv : m.Valid nonce L) (start : UInt64) :
    ∃ m', m.Ready start = some (m', (L.ready start).map some) ∧
      m'.Valid nonce (L.step (.ready start)) := by
  have hstep : (L.step (.ready start)).toList = L.toList.drop (L.ready start).length := rfl
  cases hL : L.toList with
  | nil =>
    have hready : L.ready start = [] := by simp [NonceList.ready, hL]
    have hnil : m.index = [] := by
      have hp := hv.indexed.perm
      rw [hL] at hp
      exact hp.eq_nil
    refine ⟨m, ?_, hv.of_toList_eq (by rw [hstep, hready, hL]; rfl)⟩
    simp [Ready, hnil, hready]
  | cons tx l =>
    have hi : Indexed nonce m.items m.index (tx :: l) := hL ▸ hv.indexed
    have hs : (tx :: l).Pairwise fun a b => nonce a < nonce b := hL ▸ L.sorted
    obtain ⟨-, h0, -⟩ := hi.pop hs
    by_cases hst : start < nonce tx
    · -- the lowest nonce is not ready yet
      have hready : L.ready start = [] := by simp [NonceList.ready, hL, UInt64.not_le.mpr hst]
      refine ⟨m, ?_, hv.of_toList_eq (by rw [hstep, hready]; rfl)⟩
      simp [Ready, h0, hst, hready]
    · have hready : L.ready start = consecutive nonce (nonce tx).toNat (tx :: l) := by
        simp [NonceList.ready, hL, UInt64.not_lt.mp hst]
      obtain ⟨items', index', hloop, hi'⟩ := readyLoop_spec (tx :: l) m.index.length (nonce tx)
        m.items m.index [] hs (by rw [hv.length_index, hL]) hi
      refine ⟨⟨items', index', none⟩, ?_, ⟨by rw [hstep, hready, hL]; exact hi',
        fun c hc => by cases hc⟩⟩
      simp [Ready, h0, hst, hloop, hready]

theorem filterLoop_spec (filter : Tx → Bool) :
    ∀ (ks : List UInt64) (items : GoMap UInt64 Tx) (removed : List Tx) (l : List Tx), ks.Nodup →
      Holds nonce items l →
      (filterLoop filter ks items removed).2 =
          removed ++ ks.filterMap (fun k => (items.get k).filter filter) ∧
        Holds nonce (filterLoop filter ks items removed).1
          (l.filter fun tx => !(decide (nonce tx ∈ ks) && filter tx))
  | [], items, removed, l, _, h => by simpa [filterLoop] using h
  | n :: ns, items, removed, l, hnd, h => by
    obtain ⟨hn, hns⟩ := List.nodup_cons.mp hnd
    cases hget : items.get n with
    | none =>
      -- no transaction has the nonce `n`
      obtain ⟨ih₁, ih₂⟩ := filterLoop_spec filter ns items removed l hns h
      simp only [filterLoop, hget]
      refine ⟨by simp [ih₁, hget], ?_⟩
      convert ih₂ using 1
      apply List.filter_congr
      intro tx htx
      have : nonce tx ≠ n := fun he => by
        rw [← he, h.get_of_mem htx] at hget
        cases hget
      simp [this]
    | some tx =>
      obtain ⟨htx, rfl⟩ := (h _ _).mp hget
      -- `tx` is the only transaction of its nonce
      have honly : ∀ tx' ∈ l, nonce tx' = nonce tx → tx' = tx := fun tx' htx' he => by
        have hg := h.get_of_mem htx'
        rw [he, hget] at hg
        exact (Option.some.inj hg).symm
      by_cases hf : filter tx = true
      · obtain ⟨ih₁, ih₂⟩ := filterLoop_spec filter ns (items.erase (nonce tx)) (removed ++ [tx]) _
          hns (h.erase (nonce tx))
        simp only [filterLoop, hget, if_pos hf]
        refine ⟨?_, ?_⟩
        · have hrest : ns.filterMap (fun k => ((items.erase (nonce tx)).get k).filter filter) =
              ns.filterMap (fun k => (items.get k).filter filter) :=
            List.filterMap_congr fun k hk => by
              have hne : k ≠ nonce tx := fun he => hn (he ▸ hk)
              rw [GoMap.get_erase_of_ne _ hne]
          rw [ih₁, hrest, List.filterMap_cons, hget, Option.filter_some, if_pos hf]
          simp
        · rw [List.filter_filter] at ih₂
          convert ih₂ using 1
          apply List.filter_congr
          intro tx' htx'
          by_cases he : nonce tx' = nonce tx
          · rw [honly tx' htx' he]
            simp [hf]
          · simp [he]
      · obtain ⟨ih₁, ih₂⟩ := filterLoop_spec filter ns items removed l hns h
        simp only [filterLoop, hget, if_neg hf]
        refine ⟨by simp [ih₁, hget, hf], ?_⟩
        convert ih₂ using 1
        apply List.filter_congr
        intro tx' htx'
        by_cases he : nonce tx' = nonce tx
        · rw [honly tx' htx' he]
          simp [hf]
        · simp [he]

theorem Filter_spec (hv : m.Valid nonce L) (filter : Tx → Bool) :
    (m.Filter filter).2.Perm (L.toList.filter filter) ∧
      (m.Filter filter).1.Valid nonce (L.step (.filter filter)) := by
  have hstep : (L.step (.filter filter)).toList = L.toList.filter fun tx => !filter tx := rfl
  obtain ⟨h₁, h₂⟩ := filterLoop_spec filter m.items.keys m.items [] L.toList m.items.nodup hv.holds
  have hkeys := hv.holds.keys_perm L.sorted
  -- what is collected is what `filter` selects, and every transaction's nonce is a key
  have hrem : (filterLoop filter m.items.keys m.items []).2.Perm (L.toList.filter filter) := by
    have hg : ∀ tx ∈ L.toList, ((fun k => (m.items.get k).filter filter) ∘ nonce) tx =
        Option.guard (fun tx => filter tx) tx := fun tx htx => by
      simp [hv.holds.get_of_mem htx, Option.filter_some, Option.guard]
    rw [h₁, List.nil_append]
    refine (hkeys.filterMap _).trans ?_
    rw [List.filterMap_map, List.filterMap_congr hg, List.filterMap_eq_filter]
  have hkept : (L.toList.filter fun tx => !(decide (nonce tx ∈ m.items.keys) && filter tx)) =
      L.toList.filter fun tx => !filter tx :=
    List.filter_congr fun tx htx => by simp [hkeys.mem_iff.mpr (List.mem_map_of_mem htx)]
  rw [hkept, ← hstep] at h₂
  refine ⟨by simp only [Filter]; split <;> exact hrem, ?_⟩
  simp only [Filter]
  split
  · -- the heap is built again from the keys left
    exact ⟨⟨h₂, (GoHeap.init_perm _).trans (h₂.keys_perm (L.step (.filter filter)).sorted),
      GoHeap.init_isHeap _⟩, fun c hc => by cases hc⟩
  · -- nothing was collected, so nothing changes
    next hlen =>
    have hr : (filterLoop filter m.items.keys m.items []).2 = [] :=
      List.eq_nil_of_length_eq_zero (by omega)
    have hnone : L.toList.filter filter = [] := (hr ▸ hrem).symm.eq_nil
    have hall : (L.step (.filter filter)).toList = L.toList := by
      rw [hstep, List.filter_eq_self]
      intro tx htx
      simpa using List.filter_eq_nil_iff.mp hnone tx htx
    exact ⟨⟨h₂, hall ▸ hv.indexed.perm, hv.indexed.heap⟩, hall ▸ hv.cache⟩

theorem Flatten_spec (hv : m.Valid nonce L) :
    (m.Flatten nonce).2 = L.toList ∧ (m.Flatten nonce).1.Valid nonce (L.step .flatten) := by
  cases hc : m.cache with
  | some c =>
    simp only [Flatten, hc]
    exact ⟨hv.cache c hc, hv⟩
  | none =>
    -- the map's values, sorted by nonce, are the list
    have hvals : (m.items.keys.filterMap m.items.get).Perm L.toList := by
      have hg : ∀ tx ∈ L.toList, (m.items.get ∘ nonce) tx = some tx :=
        fun tx htx => hv.holds.get_of_mem htx
      refine ((hv.holds.keys_perm L.sorted).filterMap _).trans ?_
      rw [List.filterMap_map, List.filterMap_congr hg, List.filterMap_some]
    have hsort : (m.items.keys.filterMap m.items.get).insertionSort
        (fun a b => nonce a ≤ nonce b) = L.toList := by
      have : Std.Total fun a b : Tx => nonce a ≤ nonce b := ⟨fun a b => UInt64.le_total _ _⟩
      have : IsTrans Tx fun a b : Tx => nonce a ≤ nonce b := ⟨fun _ _ _ => UInt64.le_trans⟩
      have hp := (List.perm_insertionSort (fun a b : Tx => nonce a ≤ nonce b) _).trans hvals
      exact List.Perm.eq_of_pairwise (fun a b ha hb hab hba =>
          eq_of_nonce_eq L.sorted (hp.subset ha) hb (UInt64.le_antisymm hab hba))
        (List.pairwise_insertionSort _ _) (L.sorted.imp UInt64.le_of_lt) hp
    simp only [Flatten, hc, hsort, true_and]
    exact ⟨hv.indexed, fun c hc' => by cases hc'; rfl⟩

theorem step_spec (hv : m.Valid nonce L) (op : Op Tx) :
    (∃ m', m.step nonce op = some m' ∧ m'.Valid nonce (L.step op)) ∨
      (m.step nonce op = none ∧ ∃ n, op = .cap n ∧ n < 0) := by
  cases op with
  | put tx => exact .inl ⟨_, rfl, Put_valid hv tx⟩
  | forward threshold =>
    obtain ⟨m', h, hv'⟩ := Forward_spec hv threshold
    exact .inl ⟨m', by simp [step, h], hv'⟩
  | filter filter => exact .inl ⟨_, rfl, (Filter_spec hv filter).2⟩
  | cap threshold =>
    by_cases ht : threshold < 0
    · exact .inr ⟨by simp [step, Cap_neg ht], threshold, rfl, ht⟩
    · obtain ⟨m', h, hv'⟩ := Cap_spec hv threshold.toNat
      rw [Int.toNat_of_nonneg (by omega)] at h hv'
      exact .inl ⟨m', by simp [step, h], hv'⟩
  | remove n =>
    obtain ⟨m', h, hv'⟩ := Remove_spec hv n
    exact .inl ⟨m', by simp [step, h], hv'⟩
  | ready start =>
    obtain ⟨m', h, hv'⟩ := Ready_spec hv start
    exact .inl ⟨m', by simp [step, h], hv'⟩
  | flatten => exact .inl ⟨_, rfl, (Flatten_spec hv).2⟩

theorem run_spec : ∀ (ops : List (Op Tx)) (m : TxSortedMap Tx) (L : NonceList nonce),
    m.Valid nonce L →
      (∃ m', m.run nonce ops = some m' ∧ m'.Valid nonce (L.run ops)) ∨
        (m.run nonce ops = none ∧ ∃ n, Op.cap n ∈ ops ∧ n < 0)
  | [], m, _, hv => .inl ⟨m, rfl, hv⟩
  | op :: ops, m, L, hv => by
    rcases step_spec hv op with ⟨m', hstep, hv'⟩ | ⟨hstep, n, rfl, hn⟩
    · rcases run_spec ops m' (L.step op) hv' with ⟨m'', hrun, hv''⟩ | ⟨hrun, n, hmem, hn⟩
      · exact .inl ⟨m'', by simp [run, hstep, hrun], hv''⟩
      · exact .inr ⟨by simp [run, hstep, hrun], n, List.mem_cons_of_mem _ hmem, hn⟩
    · exact .inr ⟨by simp [run, hstep], n, List.mem_cons_self, hn⟩

theorem Valid.index_perm_keys (hv : m.Valid nonce L) : m.index.Perm m.items.keys :=
  hv.indexed.perm.trans (hv.holds.keys_perm L.sorted).symm

theorem Valid.index_nodup (hv : m.Valid nonce L) : m.index.Nodup :=
  hv.index_perm_keys.nodup_iff.mpr m.items.nodup

end TxSortedMap

theorem NonceList.mem_put {L : NonceList nonce} {tx tx' : Tx} (h : tx' ∈ (L.put tx).toList) :
    tx' = tx ∨ tx' ∈ L.toList := by
  rcases (List.mem_orderedInsert _).mp h with rfl | h
  · exact .inl rfl
  · exact .inr (List.mem_filter.mp h).1

/-! ## `txList` -/

namespace TxList

variable {price cost gas : Tx → Int} {l : TxList Tx} {L : NonceList nonce}

/-- The invariant of `txList`: its map is valid, and its caps bound the cost and gas of what it
holds. -/
structure Valid (cost gas : Tx → Int) (l : TxList Tx) (L : NonceList nonce) : Prop where
  txs : l.txs.Valid nonce L
  costcap : ∀ tx ∈ L.toList, cost tx ≤ l.costcap
  gascap : ∀ tx ∈ L.toList, gas tx ≤ l.gascap

theorem Valid.mono (hv : l.Valid cost gas L) {txs : TxSortedMap Tx} {L' : NonceList nonce}
    (htxs : txs.Valid nonce L') (hsub : ∀ tx ∈ L'.toList, tx ∈ L.toList) :
    ({ l with txs := txs } : TxList Tx).Valid cost gas L' :=
  ⟨htxs, fun tx h => hv.costcap tx (hsub tx h), fun tx h => hv.gascap tx (hsub tx h)⟩

theorem Valid_newTxList (strict : Bool) :
    (newTxList strict : TxList Tx).Valid cost gas (NonceList.empty : NonceList nonce) :=
  ⟨TxSortedMap.Valid_newTxSortedMap, fun _ h => (by cases h), fun _ h => (by cases h)⟩

variable (nonce price cost gas) in
theorem Add_cases (l : TxList Tx) (tx : Tx) (priceBump : UInt64) :
    (l.Add nonce price cost gas tx priceBump).1 = l ∨
      (l.Add nonce price cost gas tx priceBump).1 = ⟨l.strict, l.txs.Put nonce tx,
        if l.costcap < cost tx then cost tx else l.costcap,
        if l.gascap < gas tx then gas tx else l.gascap⟩ := by
  unfold Add
  dsimp only
  rw [apply_ite Prod.fst]
  exact ite_eq_or_eq _ _ _

theorem le_raise (cap v : Int) :
    cap ≤ (if cap < v then v else cap) ∧ v ≤ (if cap < v then v else cap) := by
  split <;> omega

variable (price) in
theorem Add_valid (hv : l.Valid cost gas L) (tx : Tx) (priceBump : UInt64) :
    ∃ L' : NonceList nonce, (l.Add nonce price cost gas tx priceBump).1.Valid cost gas L' := by
  rcases Add_cases nonce price cost gas l tx priceBump with h | h
  · rw [h]
    exact ⟨L, hv⟩
  · rw [h]
    refine ⟨L.put tx, TxSortedMap.Put_valid hv.txs tx, fun tx' h => ?_, fun tx' h => ?_⟩
    · rcases NonceList.mem_put h with rfl | h
      · exact (le_raise _ _).2
      · exact le_trans (hv.costcap tx' h) (le_raise _ _).1
    · rcases NonceList.mem_put h with rfl | h
      · exact (le_raise _ _).2
      · exact le_trans (hv.gascap tx' h) (le_raise _ _).1

theorem Filter_spec (hv : l.Valid cost gas L) (costLimit gasLimit : Int) :
    (l.Filter nonce cost gas costLimit gasLimit).2.1.Perm
        (L.toList.filter fun tx => decide (costLimit < cost tx) || decide (gasLimit < gas tx)) ∧
      ∃ L' : NonceList nonce, (l.Filter nonce cost gas costLimit gasLimit).1.Valid cost gas L' ∧
        ∀ tx ∈ L'.toList, tx ∈ L.toList ∧ cost tx ≤ costLimit ∧ gas tx ≤ gasLimit := by
  unfold Filter
  dsimp only
  split
  · next hcap =>
    -- within the caps, nothing is over the limits
    have hwithin : ∀ tx ∈ L.toList, cost tx ≤ costLimit ∧ gas tx ≤ gasLimit := fun tx htx =>
      ⟨le_trans (hv.costcap tx htx) hcap.1, le_trans (hv.gascap tx htx) hcap.2⟩
    have hnone : (L.toList.filter fun tx =>
        decide (costLimit < cost tx) || decide (gasLimit < gas tx)) = [] :=
      List.filter_eq_nil_iff.mpr fun tx htx => by
        have := hwithin tx htx
        simp only [Bool.or_eq_true, decide_eq_true_eq, not_or, not_lt]
        exact this
    exact ⟨by rw [hnone], L, hv, fun tx htx => ⟨htx, hwithin tx htx⟩⟩
  · obtain ⟨hrem, hv₁⟩ := TxSortedMap.Filter_spec hv.txs
      (fun tx => decide (costLimit < cost tx) || decide (gasLimit < gas tx))
    refine ⟨hrem, ?_⟩
    -- what is kept is within the limits, which become the caps
    have hkept : ∀ tx ∈ (L.step (.filter fun tx =>
        decide (costLimit < cost tx) || decide (gasLimit < gas tx))).toList,
        tx ∈ L.toList ∧ cost tx ≤ costLimit ∧ gas tx ≤ gasLimit := fun tx htx => by
      obtain ⟨hm, hf⟩ := List.mem_filter.mp htx
      simp only [Bool.not_eq_true', Bool.or_eq_false_iff, decide_eq_false_iff_not, not_lt] at hf
      exact ⟨hm, hf⟩
    split
    · -- in a strict list, what is above the lowest nonce removed goes too
      obtain ⟨-, hv₂⟩ := TxSortedMap.Filter_spec hv₁ (fun tx => decide
        (lowestNonce nonce (l.txs.Filter fun tx =>
          decide (costLimit < cost tx) || decide (gasLimit < gas tx)).2 < nonce tx))
      have hsub : ∀ tx ∈ ((L.step (.filter fun tx =>
          decide (costLimit < cost tx) || decide (gasLimit < gas tx))).step (.filter fun tx => decide
            (lowestNonce nonce (l.txs.Filter fun tx =>
              decide (costLimit < cost tx) || decide (gasLimit < gas tx)).2 < nonce tx))).toList,
          tx ∈ L.toList ∧ cost tx ≤ costLimit ∧ gas tx ≤ gasLimit :=
        fun tx htx => hkept tx (List.mem_filter.mp htx).1
      exact ⟨_, ⟨hv₂, fun tx h => (hsub tx h).2.1, fun tx h => (hsub tx h).2.2⟩, hsub⟩
    · exact ⟨_, ⟨hv₁, fun tx h => (hkept tx h).2.1, fun tx h => (hkept tx h).2.2⟩, hkept⟩

variable (price) in
theorem step_spec (hv : l.Valid cost gas L) (op : Op Tx) :
    (∃ l', ∃ L' : NonceList nonce, l.step nonce price cost gas op = some l' ∧ l'.Valid cost gas L') ∨
      (l.step nonce price cost gas op = none ∧ ∃ n, op = .cap n ∧ n < 0) := by
  cases op with
  | add tx priceBump =>
    obtain ⟨L', h⟩ := Add_valid price hv tx priceBump
    exact .inl ⟨_, L', rfl, h⟩
  | forward threshold =>
    obtain ⟨m', h, hv'⟩ := TxSortedMap.Forward_spec hv.txs threshold
    exact .inl ⟨_, _, by simp [step, Forward, h],
      hv.mono hv' fun tx htx => (List.mem_filter.mp htx).1⟩
  | filter costLimit gasLimit =>
    obtain ⟨-, L', h, -⟩ := Filter_spec hv costLimit gasLimit
    exact .inl ⟨_, L', rfl, h⟩
  | cap threshold =>
    by_cases ht : threshold < 0
    · exact .inr ⟨by simp [step, Cap, TxSortedMap.Cap_neg ht], threshold, rfl, ht⟩
    · obtain ⟨m', h, hv'⟩ := TxSortedMap.Cap_spec hv.txs threshold.toNat
      rw [Int.toNat_of_nonneg (by omega)] at h hv'
      exact .inl ⟨_, _, by simp [step, Cap, h], hv.mono hv' fun tx htx => List.mem_of_mem_take htx⟩
  | remove tx =>
    obtain ⟨m', h, hv'⟩ := TxSortedMap.Remove_spec hv.txs (nonce tx)
    have hv₁ := hv.mono hv' fun tx' htx' => (List.mem_filter.mp htx').1
    by_cases hfound : (L.toList.any fun tx' => nonce tx' = nonce tx) = false
    · exact .inl ⟨_, _, by simp [step, Remove, h, hfound], hv₁⟩
    · by_cases hstrict : l.strict = true
      · -- in a strict list, what is above the nonce removed goes with it
        have hv₂ := (TxSortedMap.Filter_spec hv' fun tx' => decide (nonce tx < nonce tx')).2
        exact .inl ⟨_, _, by simp [step, Remove, h, hfound, hstrict],
          hv.mono hv₂ fun tx' htx' => (List.mem_filter.mp (List.mem_filter.mp htx').1).1⟩
      · exact .inl ⟨_, _, by simp [step, Remove, h, hfound, hstrict], hv₁⟩
  | ready start =>
    obtain ⟨m', h, hv'⟩ := TxSortedMap.Ready_spec hv.txs start
    exact .inl ⟨_, _, by simp [step, Ready, h], hv.mono hv' fun tx htx => List.mem_of_mem_drop htx⟩
  | flatten => exact .inl ⟨_, _, rfl, hv.mono (TxSortedMap.Flatten_spec hv.txs).2 fun _ htx => htx⟩

theorem run_spec : ∀ (ops : List (Op Tx)) (l : TxList Tx) (L : NonceList nonce),
    l.Valid cost gas L →
      (∃ l', ∃ L' : NonceList nonce, l.run nonce price cost gas ops = some l' ∧
          l'.Valid cost gas L') ∨
        (l.run nonce price cost gas ops = none ∧ ∃ n, Op.cap n ∈ ops ∧ n < 0)
  | [], l, L, hv => .inl ⟨l, L, rfl, hv⟩
  | op :: ops, l, L, hv => by
    rcases step_spec price hv op with ⟨l', L', hstep, hv'⟩ | ⟨hstep, n, rfl, hn⟩
    · rcases run_spec ops l' L' hv' with ⟨l'', L'', hrun, hv''⟩ | ⟨hrun, n, hmem, hn⟩
      · exact .inl ⟨l'', L'', by simp [run, hstep, hrun], hv''⟩
      · exact .inr ⟨by simp [run, hstep, hrun], n, List.mem_cons_of_mem _ hmem, hn⟩
    · exact .inr ⟨by simp [run, hstep], n, List.mem_cons_self, hn⟩

end TxList

variable (nonce price cost gas) in
theorem txList_representation_invariant :
    -- a run of calls on a new `txSortedMap` keeps the invariant, unless a `Cap` below zero
    -- panics on the way
    (∀ ops : List (TxSortedMap.Op Tx),
      (∃ m, newTxSortedMap.run nonce ops = some m ∧ m.Valid nonce (NonceList.empty.run ops)) ∨
        (newTxSortedMap.run nonce ops = none ∧ ∃ n, TxSortedMap.Op.cap n ∈ ops ∧ n < 0)) ∧
    -- the invariant: the heap holds each key once and in heap order, the map holds the sorted
    -- list, a cache is that list, and the calls do what the list says
    (∀ (m : TxSortedMap Tx) (L : NonceList nonce), m.Valid nonce L →
      m.index.Perm m.items.keys ∧ m.index.Nodup ∧
      GoHeap.IsHeap UInt64.toNat m.index m.index.length ∧
      Holds nonce m.items L.toList ∧ (∀ c, m.cache = some c → c = L.toList) ∧
      (m.Flatten nonce).2 = L.toList ∧
      (∀ threshold, ∃ m', m.Forward threshold =
          some (m', (L.toList.filter fun tx => nonce tx < threshold).map some) ∧
        m'.Valid nonce (L.filter fun tx => threshold ≤ nonce tx)) ∧
      (∀ n : Nat, ∃ m', m.Cap n = some (m', (L.toList.drop n).reverse.map some) ∧
        m'.Valid nonce (L.take n)) ∧
      (∀ start, ∃ m', m.Ready start = some (m', (L.ready start).map some) ∧
        m'.Valid nonce (L.drop (L.ready start).length))) ∧
    -- a run of calls on a new `txList` keeps its caps above what it holds
    (∀ (strict : Bool) (ops : List (TxList.Op Tx)),
      (∃ l, ∃ L : NonceList nonce, (newTxList strict).run nonce price cost gas ops = some l ∧
          l.Valid cost gas L) ∨
        ((newTxList strict).run nonce price cost gas ops = none ∧
          ∃ n, TxList.Op.cap n ∈ ops ∧ n < 0)) ∧
    -- so `Filter`, short circuit and all, removes exactly what is over the limits
    (∀ (l : TxList Tx) (L : NonceList nonce), l.Valid cost gas L → ∀ costLimit gasLimit,
      (l.Filter nonce cost gas costLimit gasLimit).2.1.Perm
          (L.toList.filter fun tx => decide (costLimit < cost tx) || decide (gasLimit < gas tx)) ∧
        ∃ L' : NonceList nonce, (l.Filter nonce cost gas costLimit gasLimit).1.Valid cost gas L' ∧
          ∀ tx ∈ L'.toList, tx ∈ L.toList ∧ cost tx ≤ costLimit ∧ gas tx ≤ gasLimit) := by
  refine ⟨fun ops => TxSortedMap.run_spec ops _ _ TxSortedMap.Valid_newTxSortedMap,
    fun m L hv => ⟨hv.index_perm_keys, hv.index_nodup, hv.indexed.heap, hv.holds, hv.cache,
      (TxSortedMap.Flatten_spec hv).1, TxSortedMap.Forward_spec hv, TxSortedMap.Cap_spec hv,
      TxSortedMap.Ready_spec hv⟩,
    fun strict ops => TxList.run_spec ops _ _ (TxList.Valid_newTxList strict),
    fun l L hv costLimit gasLimit => TxList.Filter_spec hv costLimit gasLimit⟩

/-- Five calls on a new map of bare nonces, none of them a `Cap` below zero. -/
theorem txList_representation_invariant_nonces :
    ∃ m, newTxSortedMap.run (fun n : UInt64 => n) [.put 5, .put 3, .put 4, .forward 4, .cap 1] =
        some m ∧ m.Valid (fun n : UInt64 => n)
          (NonceList.empty.run [.put 5, .put 3, .put 4, .forward 4, .cap 1]) := by
  rcases (txList_representation_invariant (fun n : UInt64 => n) (fun _ => 0) (fun _ => 0)
    (fun _ => 0)).1 [.put 5, .put 3, .put 4, .forward 4, .cap 1] with h | ⟨-, n, hn, hneg⟩
  · exact h
  · simp at hn
    omega

end Zerium.Core
