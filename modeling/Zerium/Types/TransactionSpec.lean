import Zerium.Types.Transaction

/-! # The order in which the miner reads transactions

What `TransactionsByPriceAndNonce` is for: for each account, the transactions it still has to
give, its head in the heap and the rest of its list, are `queue`; the whole of them is `pending`.
`Valid` is the representation invariant: the heads are a heap by price, no two of them are of one
account, and the rest stored under an account are that account's. `Peek` gives the head of the
best price, `Shift` takes one transaction off its account's queue and `Pop` the whole queue, and a
run of `Peek` and `Shift` gives each account's queue in its order.
-/

namespace Zerium.Types

set_option autoImplicit false

variable {Tx Addr : Type} [DecidableEq Addr]

/-! ## Lists of transactions of distinct accounts -/

section Accounts

variable {sender : Tx → Addr}

theorem length_filter_sender_le_one {l : List Tx} (hl : (l.map sender).Nodup) (a : Addr) :
    (l.filter fun x => sender x = a).length ≤ 1 := by
  have hsub : ((l.filter fun x => sender x = a).map sender).Nodup :=
    hl.sublist ((List.filter_sublist).map sender)
  have hrep : (l.filter fun x => sender x = a).map sender =
      List.replicate (l.filter fun x => sender x = a).length a := by
    rw [List.eq_replicate_iff, List.length_map]
    refine ⟨rfl, ?_⟩
    rintro b hb
    obtain ⟨x, hx, rfl⟩ := List.mem_map.mp hb
    simpa using (List.mem_filter.mp hx).2
  rw [hrep, List.nodup_replicate] at hsub
  exact hsub

theorem filter_sender_eq_of_perm {l₁ l₂ : List Tx} (hp : l₁.Perm l₂) (hl : (l₁.map sender).Nodup)
    (a : Addr) : (l₁.filter fun x => sender x = a) = l₂.filter fun x => sender x = a := by
  have hfp := hp.filter (fun x => decide (sender x = a))
  have hlen := length_filter_sender_le_one hl a
  generalize l₁.filter (fun x => sender x = a) = f₁ at hfp hlen ⊢
  match f₁, hlen with
  | [], _ => exact (List.Perm.nil_eq hfp)
  | [x], _ => exact (List.perm_singleton.mp hfp.symm).symm

theorem filter_sender_eq_nil {l : List Tx} {a : Addr} (ha : a ∉ l.map sender) :
    (l.filter fun x => sender x = a) = [] := by
  rw [List.filter_eq_nil_iff]
  rintro x hx hxa
  exact ha (List.mem_map.mpr ⟨x, hx, by simpa using hxa⟩)

theorem filter_flatMap_blocks {l : List Tx} {rest : Tx → List Tx}
    (hrest : ∀ h ∈ l, ∀ x ∈ rest h, sender x = sender h) (a : Addr) :
    ((l.flatMap fun h => h :: rest h).filter fun x => sender x = a) =
      (l.filter fun x => sender x = a).flatMap fun h => h :: rest h := by
  induction l with
  | nil => rfl
  | cons h l ih =>
    have hblock : ((h :: rest h).filter fun x => sender x = a) =
        if sender h = a then h :: rest h else [] := by
      by_cases hha : sender h = a
      · rw [if_pos hha, List.filter_cons_of_pos (by simpa using hha)]
        congr 1
        rw [List.filter_eq_self]
        intro x hx
        simpa [hha] using hrest h List.mem_cons_self x hx
      · rw [if_neg hha, List.filter_eq_nil_iff]
        rintro x (_ | ⟨_, hx⟩)
        · simpa using hha
        · simpa [hrest h List.mem_cons_self x hx] using hha
    rw [List.flatMap_cons, List.filter_append, hblock,
      ih fun h' hh' => hrest h' (List.mem_cons_of_mem h hh')]
    by_cases hha : sender h = a
    · simp [hha]
    · simp [hha]

theorem perm_of_filter_sender_eq {l₁ l₂ : List Tx}
    (h : ∀ a, (l₁.filter fun x => sender x = a) = l₂.filter fun x => sender x = a) : l₁.Perm l₂ := by
  classical
  rw [List.perm_iff_count]
  intro x
  -- the count of `x` is that among the transactions of its account
  have h₁ : (l₁.filter fun y => sender y = sender x).count x = l₁.count x :=
    List.count_filter (by simp)
  have h₂ : (l₂.filter fun y => sender y = sender x).count x = l₂.count x :=
    List.count_filter (by simp)
  rw [← h₁, ← h₂, h (sender x)]

end Accounts

namespace TransactionsByPriceAndNonce

variable (sender : Tx → Addr) (price : Tx → Nat)

def rest (t : TransactionsByPriceAndNonce Tx Addr) (h : Tx) : List Tx :=
  (t.txs.get (sender h)).getD []

def queue (t : TransactionsByPriceAndNonce Tx Addr) (a : Addr) : List Tx :=
  (t.heads.filter fun h => sender h = a).flatMap fun h => h :: rest sender t h

def pending (t : TransactionsByPriceAndNonce Tx Addr) : List Tx :=
  t.heads.flatMap fun h => h :: rest sender t h

/-- The representation invariant of `TransactionsByPriceAndNonce`. -/
structure Valid (t : TransactionsByPriceAndNonce Tx Addr) : Prop where
  heap : GoHeap.IsHeap (priceKey price) t.heads t.heads.length
  nodup : (t.heads.map sender).Nodup
  rest_sender : ∀ h ∈ t.heads, ∀ x ∈ rest sender t h, sender x = sender h

variable {sender price} {t : TransactionsByPriceAndNonce Tx Addr}

theorem Valid.pending_filter (hv : Valid sender price t) (a : Addr) :
    ((pending sender t).filter fun x => sender x = a) = queue sender t a :=
  filter_flatMap_blocks hv.rest_sender a

theorem queue_eq_of_perm {t' : TransactionsByPriceAndNonce Tx Addr} (hp : t.heads.Perm t'.heads)
    (hl : (t.heads.map sender).Nodup) (hrest : ∀ h ∈ t.heads, rest sender t' h = rest sender t h)
    (a : Addr) : queue sender t' a = queue sender t a := by
  unfold queue
  rw [← filter_sender_eq_of_perm hp hl a]
  apply List.flatMap_congr
  intro h hh
  rw [hrest h (List.mem_filter.mp hh).1]

omit [DecidableEq Addr] in
theorem heads_eq_cons_of_Peek {tx : Tx} (hp : Peek t = some tx) : ∃ hs, t.heads = tx :: hs := by
  unfold Peek at hp
  match hh : t.heads, hp with
  | x :: hs, hx => exact ⟨hs, by simpa using hx⟩

omit [DecidableEq Addr] in
theorem Valid.Peek_best (hv : Valid sender price t) {tx : Tx} (hp : Peek t = some tx) :
    ∀ h ∈ t.heads, price h ≤ price tx := by
  intro h hh
  obtain ⟨k, hk, rfl⟩ := List.mem_iff_getElem.mp hh
  have hroot := hv.heap.root_le (Nat.le_refl _) hk tx t.heads[k] hp (List.getElem?_eq_getElem hk)
  simpa [priceKey] using hroot

theorem Valid.queue_Peek (hv : Valid sender price t) {tx : Tx} (hp : Peek t = some tx) :
    queue sender t (sender tx) = tx :: rest sender t tx := by
  obtain ⟨hs, hheads⟩ := heads_eq_cons_of_Peek hp
  have hnd := hv.nodup
  rw [hheads, List.map_cons, List.nodup_cons] at hnd
  simp [queue, hheads, filter_sender_eq_nil hnd.1]

theorem queue_of_Peek_none (hp : Peek t = none) (a : Addr) : queue sender t a = [] := by
  have : t.heads = [] := by simpa [Peek] using hp
  simp [queue, this]

omit [DecidableEq Addr] in
theorem pending_perm_of_perm {t' : TransactionsByPriceAndNonce Tx Addr}
    (hp : t.heads.Perm t'.heads) (hrest : ∀ h ∈ t.heads, rest sender t' h = rest sender t h) :
    (pending sender t').Perm (pending sender t) := by
  unfold pending
  have hsame : (t.heads.flatMap fun h => h :: rest sender t' h) =
      t.heads.flatMap fun h => h :: rest sender t h :=
    List.flatMap_congr fun h hh => by rw [hrest h hh]
  rw [← hsame]
  exact (hp.flatMap_right _).symm

theorem queue_cons {x : Tx} {hs : List Tx} (hheads : t.heads = x :: hs)
    (hx : sender x ∉ hs.map sender) (b : Addr) :
    queue sender t b = if b = sender x then x :: rest sender t x else queue sender ⟨t.txs, hs⟩ b := by
  by_cases hb : b = sender x
  · subst hb
    simp [queue, hheads, filter_sender_eq_nil hx]
  · rw [if_neg hb]
    simp [queue, hheads, Ne.symm hb, rest]

theorem rest_insert_of_not_mem {hs : List Tx} {a : Addr} (ha : a ∉ hs.map sender) (r : List Tx) :
    ∀ h ∈ hs, rest sender ⟨t.txs.insert a r, hs⟩ h = rest sender ⟨t.txs, hs⟩ h := by
  intro h hh
  have hne : sender h ≠ a := fun he => ha (List.mem_map.mpr ⟨h, hh, he⟩)
  simp only [rest, GoMap.get_insert_of_ne _ hne]

theorem Valid.Pop_spec (hv : Valid sender price t) {tx : Tx} (hp : Peek t = some tx) :
    ∃ t', Pop price t = some t' ∧ Valid sender price t' ∧
      (∀ a, queue sender t' a = if a = sender tx then [] else queue sender t a) ∧
      (pending sender t').length + (tx :: rest sender t tx).length = (pending sender t).length := by
  obtain ⟨hs, hheads⟩ := heads_eq_cons_of_Peek hp
  have hne : t.heads ≠ [] := by simp [hheads]
  obtain ⟨H, hpop, hheap, hperm⟩ := GoHeap.pop_spec hv.heap hne
  have hhead : t.heads.head hne = tx := by simp [hheads]
  rw [hhead] at hpop hperm
  -- the heads after are the heads before without `tx`
  have hnd : ((tx :: H).map sender).Nodup := ((hperm.map sender).nodup_iff).mpr hv.nodup
  rw [List.map_cons, List.nodup_cons] at hnd
  let t' : TransactionsByPriceAndNonce Tx Addr := ⟨t.txs, H⟩
  have hmem : ∀ h ∈ H, h ∈ t.heads := fun h hh => hperm.subset (List.mem_cons_of_mem tx hh)
  refine ⟨t', by simp [Pop, hpop, t'], ⟨hheap, hnd.2, fun h hh => hv.rest_sender h (hmem h hh)⟩,
    fun a => ?_, ?_⟩
  · -- the queues of `t` are those of `tx` in front of the heads after
    have hq : queue sender t a = queue sender ⟨t.txs, tx :: H⟩ a :=
      queue_eq_of_perm (t := ⟨t.txs, tx :: H⟩) hperm ((hperm.map sender).nodup_iff.mpr hv.nodup)
        (fun _ _ => rfl) a
    rw [hq, queue_cons (t := ⟨t.txs, tx :: H⟩) rfl hnd.1 a]
    by_cases ha : a = sender tx
    · rw [if_pos ha, ha]
      simp [queue, t', filter_sender_eq_nil hnd.1]
    · rw [if_neg ha, if_neg ha]
  · have hlen := (@pending_perm_of_perm Tx Addr sender ⟨t.txs, tx :: H⟩ t hperm
      (fun _ _ => rfl)).length_eq
    rw [hlen]
    simp only [pending, t', rest, List.flatMap_cons, List.length_append]
    omega

theorem Shift_eq {tx : Tx} {hs : List Tx} (hheads : t.heads = tx :: hs) :
    Shift sender price t = match rest sender t tx with
      | nx :: r => some ⟨t.txs.insert (sender tx) r, GoHeap.fix (priceKey price) (nx :: hs) 0⟩
      | [] => Pop price t := by
  unfold Shift rest Pop
  rw [hheads, List.getElem?_cons_zero]
  dsimp only
  rcases t.txs.get (sender tx) with _ | _ | ⟨nx, r⟩ <;> rfl

theorem Valid.queue_replace (hv : Valid sender price t) {tx nx : Tx} {hs r : List Tx}
    (hheads : t.heads = tx :: hs) (hr : rest sender t tx = nx :: r) (hsn : sender nx = sender tx)
    {t' : TransactionsByPriceAndNonce Tx Addr} (htxs : t'.txs = t.txs.insert (sender tx) r)
    (hperm : t'.heads.Perm (nx :: hs)) :
    (∀ a, queue sender t' a = if a = sender tx then (queue sender t a).tail else queue sender t a) ∧
      (pending sender t').length + 1 = (pending sender t).length := by
  have hnd := hv.nodup
  rw [hheads, List.map_cons, List.nodup_cons] at hnd
  -- `s` has the new head in front, where `Fix` starts from
  let s : TransactionsByPriceAndNonce Tx Addr := ⟨t'.txs, nx :: hs⟩
  have hnds : (s.heads.map sender).Nodup := by
    simpa [s, hsn] using hnd
  have hrest : ∀ h ∈ hs, rest sender ⟨t'.txs, hs⟩ h = rest sender ⟨t.txs, hs⟩ h := by
    rw [htxs]
    exact rest_insert_of_not_mem hnd.1 r
  have hrs : rest sender s nx = r := by
    simp [s, rest, htxs, hsn]
  constructor
  · intro a
    have hq' : queue sender t' a = queue sender s a :=
      queue_eq_of_perm (t := s) hperm.symm hnds (fun _ _ => rfl) a
    have hqhs : queue sender ⟨t'.txs, hs⟩ a = queue sender ⟨t.txs, hs⟩ a :=
      queue_eq_of_perm (List.Perm.refl hs) (List.nodup_cons.mp (by simpa [s] using hnds)).2
        hrest a
    rw [hq', queue_cons (t := s) rfl (hsn ▸ hnd.1), queue_cons hheads hnd.1, hsn]
    by_cases ha : a = sender tx
    · simp only [if_pos ha, hrs, hr, List.tail_cons]
    · simp only [if_neg ha]
      exact hqhs
  · have hlen' := (@pending_perm_of_perm Tx Addr sender s t' hperm.symm (fun _ _ => rfl)).length_eq
    have hlenhs := (@pending_perm_of_perm Tx Addr sender ⟨t.txs, hs⟩ ⟨t'.txs, hs⟩
      (List.Perm.refl hs) hrest).length_eq
    have hs' : pending sender s = (nx :: r) ++ pending sender ⟨t'.txs, hs⟩ := by
      simp only [pending, s, List.flatMap_cons, ← hrs]
      rfl
    have ht : pending sender t = (tx :: nx :: r) ++ pending sender ⟨t.txs, hs⟩ := by
      simp only [pending, hheads, List.flatMap_cons, ← hr]
      rfl
    rw [hlen', hs', ht, List.length_append, List.length_append, hlenhs]
    simp only [List.length_cons]
    omega

theorem Valid.Shift_spec (hv : Valid sender price t) {tx : Tx} (hp : Peek t = some tx) :
    ∃ t', Shift sender price t = some t' ∧ Valid sender price t' ∧
      (∀ a, queue sender t' a = if a = sender tx then (queue sender t a).tail else queue sender t a) ∧
      (pending sender t').length + 1 = (pending sender t).length := by
  obtain ⟨hs, hheads⟩ := heads_eq_cons_of_Peek hp
  rw [Shift_eq hheads]
  cases hr : rest sender t tx with
  | nil =>
    -- the account has no more: the head leaves as with `Pop`
    obtain ⟨t', hpop, hv', hqueue, hlen⟩ := hv.Pop_spec hp
    refine ⟨t', hpop, hv', fun a => ?_, by simpa [hr] using hlen⟩
    rw [hqueue a]
    by_cases ha : a = sender tx
    · rw [if_pos ha, if_pos ha, ha, hv.queue_Peek hp, hr]
      rfl
    · rw [if_neg ha, if_neg ha]
  | cons nx r =>
    have hsn : sender nx = sender tx :=
      hv.rest_sender tx (by simp [hheads]) nx (by simp [hr])
    have hnd := hv.nodup
    rw [hheads, List.map_cons, List.nodup_cons] at hnd
    have hh : GoHeap.IsHeap (priceKey price) (tx :: hs) (tx :: hs).length := hheads ▸ hv.heap
    obtain ⟨hfix, hfixp⟩ := GoHeap.fix_spec hh (Nat.succ_pos hs.length : 0 < (tx :: hs).length) nx
    generalize hF : GoHeap.fix (priceKey price) ((tx :: hs).set 0 nx) 0 = F at hfix hfixp
    have hFeq : GoHeap.fix (priceKey price) (nx :: hs) 0 = F := hF
    dsimp only
    rw [hFeq]
    let t' : TransactionsByPriceAndNonce Tx Addr := ⟨t.txs.insert (sender tx) r, F⟩
    have hFmem : ∀ h ∈ F, h = nx ∨ h ∈ hs := fun h hh => by simpa using hfixp.subset hh
    obtain ⟨hqueue, hlen⟩ :=
      hv.queue_replace hheads hr hsn (show t'.txs = t.txs.insert (sender tx) r from rfl) hfixp
    refine ⟨t', rfl, ⟨?_, ?_, ?_⟩, hqueue, hlen⟩
    · -- the heads after `Fix` are a heap
      rw [hfixp.length_eq]
      exact hfix
    · -- of distinct accounts, the new head being of the account of the old
      rw [(hfixp.map sender).nodup_iff, List.set_cons_zero, List.map_cons, hsn]
      exact List.nodup_cons.mpr hnd
    · intro h hh x hx
      rcases hFmem h hh with rfl | hmem
      · have hxr : x ∈ rest sender t tx := by
          simp [t', rest, hsn] at hx
          simp [hr, hx]
        rw [hsn]
        exact hv.rest_sender tx (by simp [hheads]) x hxr
      · have hne : sender h ≠ sender tx :=
          fun he => hnd.1 (List.mem_map.mpr ⟨h, hmem, he⟩)
        have hx' : x ∈ rest sender t h := by
          simpa [t', rest, GoMap.get_insert_of_ne _ hne] using hx
        exact hv.rest_sender h (by simp [hheads, hmem]) x hx'

omit [DecidableEq Addr] in
theorem heads_eq_nil_of_pending {t : TransactionsByPriceAndNonce Tx Addr}
    (h : (pending sender t).length = 0) : t.heads = [] := by
  unfold pending at h
  cases hh : t.heads with
  | nil => rfl
  | cons x xs => simp [hh] at h

theorem Valid.peekShift_queue (hv : Valid sender price t) (fuel : Nat)
    (hfuel : (pending sender t).length ≤ fuel) :
    ∃ out, peekShift sender price fuel t = some out ∧
      ∀ a, (out.filter fun x => sender x = a) = queue sender t a := by
  induction fuel generalizing t with
  | zero =>
    have hnil := heads_eq_nil_of_pending (Nat.le_zero.mp hfuel)
    have hp : Peek t = none := by simp [Peek, hnil]
    refine ⟨[], by simp [peekShift, hp], fun a => ?_⟩
    rw [queue_of_Peek_none hp]
    rfl
  | succ fuel ih =>
    cases hp : Peek t with
    | none =>
      refine ⟨[], by simp [peekShift, hp], fun a => ?_⟩
      rw [queue_of_Peek_none hp]
      rfl
    | some tx =>
      -- one round takes `tx` off its account's queue
      obtain ⟨t', hshift, hv', hqueue, hlen⟩ := hv.Shift_spec hp
      obtain ⟨out, hout, hfilter⟩ := ih hv' (by omega)
      refine ⟨tx :: out, by simp [peekShift, hp, hshift, hout], fun a => ?_⟩
      by_cases ha : sender tx = a
      · rw [List.filter_cons_of_pos (by simpa using ha), hfilter, hqueue, if_pos ha.symm, ← ha,
          hv.queue_Peek hp]
        rfl
      · rw [List.filter_cons_of_neg (by simpa using ha), hfilter, hqueue, if_neg (Ne.symm ha)]

theorem Valid.perm_pending (hv : Valid sender price t) {out : List Tx}
    (hfilter : ∀ a, (out.filter fun x => sender x = a) = queue sender t a) :
    out.Perm (pending sender t) :=
  perm_of_filter_sender_eq fun a => by rw [hfilter a, hv.pending_filter a]

end TransactionsByPriceAndNonce

/-! ## The start -/

section New

variable {sender : Tx → Addr} {price : Tx → Nat} (m : GoMap Addr (List Tx))

/-- What the miner hands `NewTransactionsByPriceAndNonce`: every account of the map has a list,
not empty, of transactions it sent. -/
def Accounts (sender : Tx → Addr) (m : GoMap Addr (List Tx)) : Prop :=
  ∀ a l, m.get a = some l → l ≠ [] ∧ ∀ tx ∈ l, sender tx = a

def allTxs : List Tx := m.keys.flatMap fun a => (m.get a).getD []

variable {m}

theorem newLoop_spec (hm : Accounts sender m) (ks : List Addr) (hks : ks.Nodup)
    (txs : GoMap Addr (List Tx)) (heads : List Tx) (hget : ∀ k ∈ ks, txs.get k = m.get k)
    (hmem : ∀ k ∈ ks, k ∈ m.keys) :
    ∃ txs' H, newLoop sender ks txs heads = some (txs', heads ++ H) ∧ H.map sender = ks ∧
      (∀ h ∈ H, ∃ r, m.get (sender h) = some (h :: r)) ∧
      ∀ k, txs'.get k = if k ∈ ks then (m.get k).map List.tail else txs.get k := by
  induction ks generalizing txs heads with
  | nil => exact ⟨txs, [], by simp [newLoop], rfl, by simp, by simp⟩
  | cons k ks ih =>
    rw [List.nodup_cons] at hks
    obtain ⟨l, hl⟩ := Option.isSome_iff_exists.mp ((m.mem_keys k).mp (hmem k List.mem_cons_self))
    obtain ⟨hne, hsend⟩ := hm k l hl
    obtain ⟨x, r, rfl⟩ := List.exists_cons_of_ne_nil hne
    have hx : sender x = k := hsend x List.mem_cons_self
    -- the rest of the loop sees the other keys as the map has them
    have hget' : ∀ k' ∈ ks, (txs.insert (sender x) r).get k' = m.get k' := by
      intro k' hk'
      have hne' : k' ≠ k := fun he => hks.1 (he ▸ hk')
      rw [hx, GoMap.get_insert_of_ne _ hne', hget k' (List.mem_cons_of_mem k hk')]
    obtain ⟨txs', H, hloop, hmap, hheads, hrest⟩ :=
      ih hks.2 _ (heads ++ [x]) hget' fun k' hk' => hmem k' (List.mem_cons_of_mem k hk')
    refine ⟨txs', x :: H, ?_, by simp [hmap, hx], ?_, fun k' => ?_⟩
    · simp [newLoop, hget k List.mem_cons_self, hl, hloop]
    · rintro h (_ | ⟨_, hh⟩)
      · exact ⟨r, by rw [hx, hl]⟩
      · exact hheads h hh
    · rw [hrest k', hx, GoMap.get_insert]
      by_cases hk : k' = k
      · subst hk
        simp [hks.1, hl]
      · simp [hk]

theorem New_spec (hm : Accounts sender m) :
    ∃ t, NewTransactionsByPriceAndNonce sender price m = some t ∧
      TransactionsByPriceAndNonce.Valid sender price t ∧
      ∀ a, TransactionsByPriceAndNonce.queue sender t a = (m.get a).getD [] := by
  obtain ⟨txs', H, hloop, hmap, hheads, hrest⟩ :=
    newLoop_spec hm m.keys m.nodup m [] (fun _ _ => rfl) fun _ hk => hk
  rw [List.nil_append] at hloop
  let t : TransactionsByPriceAndNonce Tx Addr := ⟨txs', GoHeap.init (priceKey price) H⟩
  have hperm : H.Perm t.heads := (GoHeap.init_perm H).symm
  have hnd : (H.map sender).Nodup := hmap ▸ m.nodup
  -- the rest stored under the account of a head is the tail of its list
  have hrest' : ∀ h ∈ H, ∃ r, m.get (sender h) = some (h :: r) ∧
      TransactionsByPriceAndNonce.rest sender t h = r := by
    intro h hh
    obtain ⟨r, hr⟩ := hheads h hh
    have hk : sender h ∈ m.keys := hmap ▸ List.mem_map_of_mem hh
    exact ⟨r, hr, by simp [TransactionsByPriceAndNonce.rest, t, hrest, hk, hr]⟩
  refine ⟨t, by simp [NewTransactionsByPriceAndNonce, hloop, t], ⟨GoHeap.init_isHeap H, ?_, ?_⟩, ?_⟩
  · exact (hperm.map sender).nodup_iff.mp hnd
  · intro h hh x hx
    obtain ⟨r, hr, hrr⟩ := hrest' h (hperm.symm.subset hh)
    rw [hrr] at hx
    exact (hm _ _ hr).2 x (List.mem_cons_of_mem h hx)
  · intro a
    rw [TransactionsByPriceAndNonce.queue_eq_of_perm (t := ⟨txs', H⟩) hperm hnd (fun _ _ => rfl) a]
    by_cases ha : a ∈ m.keys
    · -- the one head of the account is the first of its list
      obtain ⟨h, hh, rfl⟩ := List.mem_map.mp (hmap ▸ ha : a ∈ H.map sender)
      obtain ⟨r, hr, hrr⟩ := hrest' h hh
      have hone : (H.filter fun x => sender x = sender h) = [h] := by
        have hlen := length_filter_sender_le_one hnd (sender h)
        have hin : h ∈ H.filter fun x => sender x = sender h := List.mem_filter.mpr ⟨hh, by simp⟩
        match hf : H.filter (fun x => sender x = sender h), hlen with
        | [y], _ => rw [hf] at hin; simp_all
        | [], _ => rw [hf] at hin; cases hin
      simp only [TransactionsByPriceAndNonce.queue, hone, List.flatMap_cons, List.flatMap_nil,
        List.append_nil, hr, Option.getD_some]
      rw [← hrr]
      rfl
    · have hnone : m.get a = none := by
        simpa [m.mem_keys a] using ha
      have hnil : (H.filter fun x => sender x = a) = [] := filter_sender_eq_nil (hmap ▸ ha)
      simp [TransactionsByPriceAndNonce.queue, hnil, hnone]

theorem allTxs_filter (hm : Accounts sender m) (a : Addr) :
    ((allTxs m).filter fun tx => sender tx = a) = (m.get a).getD [] := by
  unfold allTxs
  rw [List.filter_flatMap]
  -- a list under a key is of that key's account
  have hblock : ∀ k ∈ m.keys, (((m.get k).getD []).filter fun tx => sender tx = a) =
      if k = a then (m.get k).getD [] else [] := by
    intro k hk
    obtain ⟨l, hl⟩ := Option.isSome_iff_exists.mp ((m.mem_keys k).mp hk)
    have hsend := (hm k l hl).2
    rw [hl, Option.getD_some]
    by_cases hka : k = a
    · rw [if_pos hka, List.filter_eq_self]
      intro x hx
      simp [hsend x hx, hka]
    · rw [if_neg hka, List.filter_eq_nil_iff]
      intro x hx
      simp [hsend x hx, hka]
  rw [List.flatMap_congr hblock]
  have hkeys : ∀ ks : List Addr, ks.Nodup →
      (ks.flatMap fun k => if k = a then (m.get k).getD [] else []) =
        if a ∈ ks then (m.get a).getD [] else [] := by
    intro ks hks
    induction ks with
    | nil => rfl
    | cons k ks ih =>
      rw [List.nodup_cons] at hks
      rw [List.flatMap_cons, ih hks.2]
      by_cases hka : k = a
      · subst hka
        simp [hks.1]
      · simp [hka, Ne.symm hka]
  rw [hkeys m.keys m.nodup]
  by_cases ha : a ∈ m.keys
  · rw [if_pos ha]
  · rw [if_neg ha]
    have hnone : m.get a = none := by
      simpa [m.mem_keys a] using ha
    rw [hnone]
    rfl

end New

namespace TransactionsByPriceAndNonce

variable {sender : Tx → Addr} {price : Tx → Nat} {t t' : TransactionsByPriceAndNonce Tx Addr}

omit [DecidableEq Addr] in
theorem Peek_isSome_of_Pop (h : Pop price t = some t') : ∃ tx, Peek t = some tx := by
  cases hh : t.heads with
  | nil => simp [Pop, GoHeap.pop, hh] at h
  | cons tx hs => exact ⟨tx, by simp [Peek, hh]⟩

theorem Peek_isSome_of_Shift (h : Shift sender price t = some t') : ∃ tx, Peek t = some tx := by
  cases hp : Peek t with
  | none =>
    unfold Shift at h
    rw [show t.heads[0]? = Peek t from rfl, hp] at h
    cases h
  | some tx => exact ⟨tx, rfl⟩

theorem Valid.Shift (hv : Valid sender price t) (h : Shift sender price t = some t') :
    Valid sender price t' := by
  obtain ⟨tx, hp⟩ := Peek_isSome_of_Shift h
  obtain ⟨t'', hshift, hv', -⟩ := hv.Shift_spec hp
  rw [hshift, Option.some.injEq] at h
  exact h ▸ hv'

theorem Valid.Pop (hv : Valid sender price t) (h : Pop price t = some t') : Valid sender price t' := by
  obtain ⟨tx, hp⟩ := Peek_isSome_of_Pop h
  obtain ⟨t'', hpop, hv', -⟩ := hv.Pop_spec hp
  rw [hpop, Option.some.injEq] at h
  exact h ▸ hv'

/-- The states the miner can reach from the map it hands over, with `Shift` after each
transaction it takes and `Pop` after each it cannot. -/
inductive Reachable (sender : Tx → Addr) (price : Tx → Nat) (m : GoMap Addr (List Tx)) :
    TransactionsByPriceAndNonce Tx Addr → Prop
  | new {s : TransactionsByPriceAndNonce Tx Addr} :
      NewTransactionsByPriceAndNonce sender price m = some s → Reachable sender price m s
  | shift {s s' : TransactionsByPriceAndNonce Tx Addr} : Reachable sender price m s →
      TransactionsByPriceAndNonce.Shift sender price s = some s' → Reachable sender price m s'
  | pop {s s' : TransactionsByPriceAndNonce Tx Addr} : Reachable sender price m s →
      TransactionsByPriceAndNonce.Pop price s = some s' → Reachable sender price m s'

theorem Reachable.valid {m : GoMap Addr (List Tx)} (hm : Accounts sender m)
    (h : Reachable sender price m t) : Valid sender price t := by
  induction h with
  | new hnew =>
    obtain ⟨t₀, hnew₀, hv, -⟩ := @New_spec Tx Addr _ sender price m hm
    rw [hnew₀, Option.some.injEq] at hnew
    exact hnew ▸ hv
  | shift _ hshift ih => exact ih.Shift hshift
  | pop _ hpop ih => exact ih.Pop hpop

end TransactionsByPriceAndNonce

open TransactionsByPriceAndNonce in
/-- `TransactionsByPriceAndNonce` as the miner uses it. From a map of accounts to non-empty
nonce-sorted lists of their transactions, `Peek` and `Shift` until there is none give every
transaction once, each account's in the order of its list and so by nonce. In every state the
miner reaches with `Shift` and `Pop`, the transaction `Peek` gives has a price at least that of
every head, and after `Pop` the run gives what it would have given without the rest of that
account. -/
theorem peekShift_price_nonce_order (sender : Tx → Addr) (price nonce : Tx → Nat)
    (m : GoMap Addr (List Tx)) (hm : Accounts sender m)
    (hsorted : ∀ a l, m.get a = some l → l.Pairwise fun x y => nonce x < nonce y) :
    (∃ t, NewTransactionsByPriceAndNonce sender price m = some t ∧
      ∀ fuel, (allTxs m).length ≤ fuel → ∃ out, peekShift sender price fuel t = some out ∧
        out.Perm (allTxs m) ∧ ∀ a, (out.filter fun tx => sender tx = a) = (m.get a).getD [] ∧
          (out.filter fun tx => sender tx = a).Pairwise fun x y => nonce x < nonce y) ∧
    ∀ t, Reachable sender price m t → ∀ tx, Peek t = some tx →
      (∀ h ∈ t.heads, price h ≤ price tx) ∧
      ∃ t', Pop price t = some t' ∧ ∀ fuel, (pending sender t).length ≤ fuel →
        ∃ out out', peekShift sender price fuel t = some out ∧
          peekShift sender price fuel t' = some out' ∧
          ∀ a, (out'.filter fun x => sender x = a) =
            if a = sender tx then [] else out.filter fun x => sender x = a := by
  constructor
  · obtain ⟨t, hnew, hv, hqueue⟩ := @New_spec Tx Addr _ sender price m hm
    -- the pending transactions at the start are those of the map
    have hpend : (pending sender t).Perm (allTxs m) :=
      perm_of_filter_sender_eq fun a => by rw [hv.pending_filter, hqueue, allTxs_filter hm]
    refine ⟨t, hnew, fun fuel hfuel => ?_⟩
    obtain ⟨out, hout, hfilter⟩ := hv.peekShift_queue fuel (hpend.length_eq ▸ hfuel)
    refine ⟨out, hout, (hv.perm_pending hfilter).trans hpend, fun a => ⟨?_, ?_⟩⟩
    · rw [hfilter, hqueue]
    · rw [hfilter, hqueue]
      cases hma : m.get a with
      | none => exact List.Pairwise.nil
      | some l => exact hsorted a l hma
  · intro t hreach tx hp
    have hv := hreach.valid hm
    refine ⟨hv.Peek_best hp, ?_⟩
    obtain ⟨t', hpop, hv', hqueue, hlen⟩ := hv.Pop_spec hp
    refine ⟨t', hpop, fun fuel hfuel => ?_⟩
    obtain ⟨out, hout, hfilter⟩ := hv.peekShift_queue fuel hfuel
    obtain ⟨out', hout', hfilter'⟩ := hv'.peekShift_queue fuel (by simp at hlen; omega)
    refine ⟨out, out', hout, hout', fun a => ?_⟩
    rw [hfilter', hqueue, hfilter]

def twoAccounts : GoMap Nat (List (Nat × Nat × Nat)) :=
  (GoMap.empty.insert 0 [(0, 5, 0), (0, 9, 1)]).insert 1 [(1, 7, 0)]

theorem twoAccounts_accounts : Accounts Prod.fst twoAccounts := by
  intro a l h
  rw [twoAccounts, GoMap.get_insert, GoMap.get_insert] at h
  by_cases h1 : a = 1
  · rw [if_pos h1, Option.some.injEq] at h
    subst h h1
    decide
  · rw [if_neg h1] at h
    by_cases h0 : a = 0
    · rw [if_pos h0, Option.some.injEq] at h
      subst h h0
      decide
    · rw [if_neg h0, GoMap.get_empty] at h
      cases h

theorem peekShift_price_nonce_order_twoAccounts :
    Accounts Prod.fst twoAccounts ∧
      ∃ t out, NewTransactionsByPriceAndNonce Prod.fst (fun tx => tx.2.1) twoAccounts = some t ∧
        TransactionsByPriceAndNonce.peekShift Prod.fst (fun tx => tx.2.1) 3 t = some out ∧
        out.Perm (allTxs twoAccounts) := by
  have hsorted : ∀ a l, twoAccounts.get a = some l →
      l.Pairwise fun (x y : Nat × Nat × Nat) => x.2.2 < y.2.2 := by
    intro a l h
    rw [twoAccounts, GoMap.get_insert, GoMap.get_insert] at h
    split_ifs at h
    · cases h
      decide
    · cases h
      decide
    · rw [GoMap.get_empty] at h
      cases h
  obtain ⟨⟨t, hnew, hrun⟩, -⟩ := peekShift_price_nonce_order Prod.fst (fun tx => tx.2.1)
    (fun tx => tx.2.2) twoAccounts twoAccounts_accounts hsorted
  obtain ⟨out, hout, hperm, -⟩ := hrun 3 (by decide)
  exact ⟨twoAccounts_accounts, t, out, hnew, hout, hperm⟩

end Zerium.Types
