import Zerium.Trie.DecodeSpec
import Zerium.Lib.GoMap

/-! # The trie sync scheduler

`sync.go`: `TrieSync` hands out the hashes of trie nodes it does not have, takes their data back
through `Process`, and schedules the children each node refers to. A node is written to the
memory batch once every child it waits for has been; `commit` then walks up to the parents
that were waiting for it.

Requests are kept in a map from hash to request. The source links a request to its parents by
pointer; here a parent is named by its hash, and writing a field of a request writes the map
entry. The priority queue only matters to `Missing`, which pops it in heap order; it is kept
as the list of pushed hashes with their priority, and `Missing` is not modelled.
-/

namespace Zerium.Trie

set_option autoImplicit false

open Zerium.Rlp

def emptyState : List UInt8 :=
  [0xc5, 0xd2, 0x46, 0x01, 0x86, 0xf7, 0x23, 0x3c, 0x92, 0x7e, 0x7d, 0xb2, 0xdc, 0xc7, 0x03, 0xc0,
   0xe5, 0x00, 0xb6, 0x53, 0xca, 0x82, 0x27, 0x3b, 0x7b, 0xfa, 0xd8, 0x04, 0x5d, 0x85, 0xa4, 0x70]

/-- `TrieSyncLeafCallback`: called with the value of a leaf and the hash of the node that holds
it; its error is reported by its message. -/
abbrev TrieSyncLeafCallback := List UInt8 → List UInt8 → Except String Unit

/-- `DatabaseReader`; a failed `Get` reads as no bytes, and both errors are dropped by the
callers here. -/
structure DatabaseReader where
  Get : List UInt8 → List UInt8
  Has : List UInt8 → Bool

/-- `request`; `data` is `nil` until the node has been delivered. -/
structure Request where
  hash : List UInt8
  data : Option (List UInt8)
  raw : Bool
  parents : List (List UInt8)
  depth : Nat
  deps : Int
  callback : Option TrieSyncLeafCallback

structure SyncResult where
  Hash : List UInt8
  Data : List UInt8
deriving DecidableEq, Repr

structure SyncMemBatch where
  batch : GoMap (List UInt8) (List UInt8)
  order : List (List UInt8)

def newSyncMemBatch : SyncMemBatch := ⟨GoMap.empty, []⟩

inductive SyncError where
  | ErrNotRequested
  | ErrAlreadyProcessed
  /-- an error of `decodeNode` -/
  | decode (err : NodeError)
  /-- an error of the leaf callback -/
  | callback (err : String)
deriving DecidableEq, Repr

structure TrieSync where
  database : DatabaseReader
  membatch : SyncMemBatch
  requests : GoMap (List UInt8) Request
  queue : List (List UInt8 × Nat)

namespace TrieSync

/-- `schedule`: a request for a hash already requested only adds its parents to the old one. -/
def schedule (s : TrieSync) (req : Request) : TrieSync :=
  match s.requests.get req.hash with
  | some old => { s with requests := s.requests.insert req.hash { old with parents := old.parents ++ req.parents } }
  | none => { s with queue := s.queue ++ [(req.hash, req.depth)], requests := s.requests.insert req.hash req }

/-- The common end of `AddSubTrie` and `AddRawEntry`: link a new request to its parent, if it
has one, and schedule it. `none` is the panic on a parent that is not requested. -/
def scheduleUnder (s : TrieSync) (req : Request) (parent : List UInt8) : Option TrieSync :=
  if parent ≠ zeroHash then
    match s.requests.get parent with
    | none => none
    | some ancestor =>
      let s := { s with requests := s.requests.insert parent { ancestor with deps := ancestor.deps + 1 } }
      some (s.schedule { req with parents := [parent] })
  else some (s.schedule req)

/-- `AddSubTrie`; `none` is a panic, in `decodeNode` or on a parent that is not requested. -/
def AddSubTrie (s : TrieSync) (root : List UInt8) (depth : Nat) (parent : List UInt8)
    (callback : Option TrieSyncLeafCallback) : Option TrieSync :=
  if root = emptyRoot then some s
  else if s.membatch.batch.contains root then some s
  else
    match decodeNode (some root) (s.database.Get root) 0 with
    | none => none
    | some (.ok _) => some s
    | some (.error _) =>
      s.scheduleUnder { hash := root, data := none, raw := false, parents := [], depth, deps := 0, callback } parent

/-- `AddRawEntry`; `none` is the panic on a parent that is not requested. -/
def AddRawEntry (s : TrieSync) (hash : List UInt8) (depth : Nat) (parent : List UInt8) :
    Option TrieSync :=
  if hash = emptyState then some s
  else if s.membatch.batch.contains hash then some s
  else if s.database.Has hash then some s
  else s.scheduleUnder { hash, data := none, raw := true, parents := [], depth, deps := 0, callback := none } parent

def NewTrieSync (root : List UInt8) (database : DatabaseReader) (callback : Option TrieSyncLeafCallback) :
    Option TrieSync :=
  AddSubTrie ⟨database, newSyncMemBatch, GoMap.empty, []⟩ root 0 zeroHash callback

def Pending (s : TrieSync) : Nat := s.requests.keys.length

/-- The loop of `children` over the gathered children: report each value to the callback and
request each hash that is neither in the memory batch nor in the database. -/
def childrenLoop (s : TrieSync) (req : Request) : List (Node × Nat) → Except String (List Request)
  | [] => .ok []
  | (node, depth) :: rest => do
    match req.callback, node with
    | some callback, .valueNode v => callback v req.hash
    | _, _ => pure ()
    let here : List Request :=
      match node with
      | .hashNode h =>
        let hash := bytesToHash h
        if s.membatch.batch.contains hash then []
        else if s.database.Has h then []
        else [{ hash, data := none, raw := false, parents := [req.hash], depth, deps := 0,
                callback := req.callback }]
      | _ => []
    let more ← s.childrenLoop req rest
    pure (here ++ more)

/-- `children`; `none` is the panic on a node that is neither short nor full. -/
def children (s : TrieSync) (req : Request) (object : Node) : Option (Except String (List Request)) :=
  match object with
  | .shortNode key val _ => some (s.childrenLoop req [(val, req.depth + key.length)])
  | .fullNode cs _ =>
    some (s.childrenLoop req ((List.finRange 17).filterMap fun i =>
      if (cs i).isNil then none else some (cs i, req.depth + 1)))
  | _ => none

/-- `commit`: write the node to the memory batch, drop its request, and commit every parent
that no longer waits for anything. The source recurses up the parent links; each call here
drops a request that is in the map, so the number of requests bounds the depth, and
`commitFuel` gives one more than that. -/
def commit : Nat → TrieSync → Request → Option TrieSync
  | 0, _, _ => none
  | fuel + 1, s, req =>
    let s := { s with
      membatch := ⟨s.membatch.batch.insert req.hash (req.data.getD []), s.membatch.order ++ [req.hash]⟩
      requests := s.requests.erase req.hash }
    req.parents.foldlM (fun s p =>
      match s.requests.get p with
      | none => some s
      | some parent =>
        let parent := { parent with deps := parent.deps - 1 }
        let s := { s with requests := s.requests.insert p parent }
        if parent.deps = 0 then commit fuel s parent else some s) s

def commitFuel (s : TrieSync) : Nat := s.requests.keys.length + 1

/-- The loop of `Process` from item `i` on, with `committed` so far; `none` is a panic. -/
def processLoop (s : TrieSync) (committed : Bool) (i : Nat) :
    List SyncResult → Option ((Bool × Nat × Option SyncError) × TrieSync)
  | [] => some ((committed, 0, none), s)
  | item :: rest =>
    match s.requests.get item.Hash with
    | none => some ((committed, i, some .ErrNotRequested), s)
    | some request =>
      if request.data.isSome then some ((committed, i, some .ErrAlreadyProcessed), s)
      else if request.raw then
        let request := { request with data := some item.Data }
        let s := { s with requests := s.requests.insert item.Hash request }
        (s.commit s.commitFuel request).bind fun s => s.processLoop true (i + 1) rest
      else
        match decodeNode (some item.Hash) item.Data 0 with
        | none => none
        | some (.error err) => some ((committed, i, some (.decode err)), s)
        | some (.ok node) =>
          -- the request keeps the data from here on, whatever `children` answers
          let request := { request with data := some item.Data }
          let s := { s with requests := s.requests.insert item.Hash request }
          match s.children request node with
          | none => none
          | some (.error err) => some ((committed, i, some (.callback err)), s)
          | some (.ok requests) =>
            if requests.length = 0 ∧ request.deps = 0 then
              (s.commit s.commitFuel request).bind fun s => s.processLoop true (i + 1) rest
            else
              let request := { request with deps := request.deps + requests.length }
              let s := { s with requests := s.requests.insert item.Hash request }
              (requests.foldl schedule s).processLoop committed (i + 1) rest

def Process (s : TrieSync) (results : List SyncResult) :
    Option ((Bool × Nat × Option SyncError) × TrieSync) :=
  s.processLoop false 0 results

/-- `Commit` into a memory database, whose `Put` never fails: the batch is written in the order
its nodes completed and then emptied. -/
def Commit (s : TrieSync) (dbw : MemDatabase) : Nat × MemDatabase × TrieSync :=
  (s.membatch.order.length,
    KVStore.putAll dbw (s.membatch.order.map fun key => (key, (s.membatch.batch.get key).getD [])),
    { s with membatch := newSyncMemBatch })

/-! ## Requests are stored under their own hash

The source finds a request by the hash it was scheduled under and `commit` deletes it by the
hash the request carries; the two agree on every state the scheduler reaches. -/

def Keyed (s : TrieSync) : Prop := ∀ k r, s.requests.get k = some r → r.hash = k

theorem Keyed.insert {s : TrieSync} (h : s.Keyed) {k : List UInt8} {r : Request} (hr : r.hash = k)
    (membatch : SyncMemBatch) (queue : List (List UInt8 × Nat)) :
    Keyed ⟨s.database, membatch, s.requests.insert k r, queue⟩ := by
  intro k' r' hget
  rw [GoMap.get_insert] at hget
  split at hget
  · rename_i hk
    cases hget
    exact hr.trans hk.symm
  · exact h k' r' hget

theorem Keyed.erase {s : TrieSync} (h : s.Keyed) (k : List UInt8) (membatch : SyncMemBatch) :
    Keyed ⟨s.database, membatch, s.requests.erase k, s.queue⟩ := by
  intro k' r' hget
  rw [GoMap.get_erase] at hget
  split at hget
  · cases hget
  · exact h k' r' hget

theorem Keyed.schedule {s : TrieSync} (h : s.Keyed) (req : Request) : (s.schedule req).Keyed := by
  unfold TrieSync.schedule
  split
  · rename_i old hold
    refine h.insert ?_ _ _
    exact h _ old hold
  · exact h.insert rfl _ _

theorem Keyed.foldl_schedule {s : TrieSync} (h : s.Keyed) (reqs : List Request) :
    (reqs.foldl TrieSync.schedule s).Keyed := by
  induction reqs generalizing s with
  | nil => exact h
  | cons req reqs ih => exact ih (h.schedule req)

/-- One parent in the loop of `commit`: its count goes down, and at zero it is committed. -/
def commitParent (fuel : Nat) (s : TrieSync) (p : List UInt8) : Option TrieSync :=
  match s.requests.get p with
  | none => some s
  | some parent =>
    let parent := { parent with deps := parent.deps - 1 }
    let s := { s with requests := s.requests.insert p parent }
    if parent.deps = 0 then s.commit fuel parent else some s

theorem commit_succ (fuel : Nat) (s : TrieSync) (req : Request) :
    s.commit (fuel + 1) req =
      req.parents.foldlM (fun s p => commitParent fuel s p)
        { s with
          membatch := ⟨s.membatch.batch.insert req.hash (req.data.getD []), s.membatch.order ++ [req.hash]⟩
          requests := s.requests.erase req.hash } := rfl

section Commit

variable {fuel : Nat}
  (ih : ∀ (s : TrieSync) (req : Request), s.Keyed → req.hash ∈ s.requests.keys →
    s.requests.keys.length < fuel → ∃ s', s.commit fuel req = some s' ∧ s'.Keyed ∧
      s'.requests.keys.length < s.requests.keys.length)
include ih

theorem commitParent_ok (s : TrieSync) (p : List UInt8) (hs : s.Keyed)
    (hlen : s.requests.keys.length < fuel) :
    ∃ s', commitParent fuel s p = some s' ∧ s'.Keyed ∧ s'.requests.keys.length ≤ s.requests.keys.length := by
  unfold commitParent
  split
  · exact ⟨s, rfl, hs, le_rfl⟩
  · rename_i parent hget
    have hp := GoMap.mem_keys_of_get hget
    have hparent : parent.hash = p := hs _ _ hget
    -- writing the lowered count back keeps the keys
    have hkeyed : Keyed ⟨s.database, s.membatch, s.requests.insert p { parent with deps := parent.deps - 1 }, s.queue⟩ :=
      hs.insert (r := { parent with deps := parent.deps - 1 }) hparent _ _
    have hkeys := GoMap.length_keys_insert_of_mem s.requests hp { parent with deps := parent.deps - 1 }
    dsimp only
    split
    · obtain ⟨s', hc, hk', hlt⟩ := ih _ _ hkeyed
        (by rw [show ({ parent with deps := parent.deps - 1 } : Request).hash = p from hparent]
            exact GoMap.mem_keys_of_get (GoMap.get_insert_self _ _ _))
        (by dsimp only; omega)
      refine ⟨s', hc, hk', ?_⟩
      dsimp only at hlt
      omega
    · exact ⟨_, rfl, hkeyed, hkeys.le⟩

theorem foldlM_commitParent_ok (ps : List (List UInt8)) (s : TrieSync) (hs : s.Keyed)
    (hlen : s.requests.keys.length < fuel) :
    ∃ s', ps.foldlM (fun s p => commitParent fuel s p) s = some s' ∧ s'.Keyed ∧
      s'.requests.keys.length ≤ s.requests.keys.length := by
  induction ps generalizing s with
  | nil => exact ⟨s, rfl, hs, le_rfl⟩
  | cons p ps ihps =>
    obtain ⟨s₁, h₁, hk₁, hle₁⟩ := commitParent_ok ih s p hs hlen
    obtain ⟨s₂, h₂, hk₂, hle₂⟩ := ihps s₁ hk₁ (by omega)
    refine ⟨s₂, ?_, hk₂, le_trans hle₂ hle₁⟩
    rw [List.foldlM_cons, h₁]
    exact h₂

end Commit

theorem commit_ok : ∀ (fuel : Nat) (s : TrieSync) (req : Request), s.Keyed → req.hash ∈ s.requests.keys →
    s.requests.keys.length < fuel → ∃ s', s.commit fuel req = some s' ∧ s'.Keyed ∧
      s'.requests.keys.length < s.requests.keys.length
  | 0, _, _, _, _, hlen => absurd hlen (Nat.not_lt_zero _)
  | fuel + 1, s, req, hs, hmem, hlen => by
    have hkeys := GoMap.length_keys_erase_of_mem s.requests hmem
    have hpos : 0 < s.requests.keys.length := List.length_pos_of_mem hmem
    obtain ⟨s', h, hk, hle⟩ := foldlM_commitParent_ok (commit_ok fuel) req.parents _ (hs.erase req.hash _)
      (by dsimp only; omega)
    refine ⟨s', ?_, hk, ?_⟩
    · rw [commit_succ]
      exact h
    · dsimp only at hle
      omega

/-! ## One item of `Process` -/

section Item

variable {s : TrieSync} {committed : Bool} {i : Nat} {item : SyncResult} {rest : List SyncResult}
  {req : Request}

/-- The scheduler once `Process` has stored an item's data in its request. -/
def withData (s : TrieSync) (item : SyncResult) (req : Request) : TrieSync :=
  { s with requests := s.requests.insert item.Hash { req with data := some item.Data } }

theorem processLoop_not_requested (hreq : s.requests.get item.Hash = none) :
    s.processLoop committed i (item :: rest) = some ((committed, i, some .ErrNotRequested), s) := by
  rw [processLoop, hreq]

theorem processLoop_already_processed (hreq : s.requests.get item.Hash = some req)
    (hdata : req.data.isSome = true) :
    s.processLoop committed i (item :: rest) = some ((committed, i, some .ErrAlreadyProcessed), s) := by
  rw [processLoop, hreq]
  simp only [hdata, if_true]

section Node

variable (hreq : s.requests.get item.Hash = some req) (hdata : req.data = none) (hraw : req.raw = false)
include hreq hdata hraw

theorem processLoop_decode_error {err : NodeError}
    (hdec : decodeNode (some item.Hash) item.Data 0 = some (.error err)) :
    s.processLoop committed i (item :: rest) = some ((committed, i, some (.decode err)), s) := by
  rw [processLoop, hreq]
  simp only [hdata, hraw, hdec, Option.isSome_none, Bool.false_eq_true, if_false]

theorem processLoop_children_error {node : Node} {err : String}
    (hdec : decodeNode (some item.Hash) item.Data 0 = some (.ok node))
    (hch : (s.withData item req).children { req with data := some item.Data } node = some (.error err)) :
    s.processLoop committed i (item :: rest) =
      some ((committed, i, some (.callback err)), s.withData item req) := by
  rw [processLoop, hreq]
  unfold withData at hch ⊢
  simp only [hraw] at hch
  simp only [hdata, hraw, hdec, hch, Option.isSome_none, Bool.false_eq_true, if_false]

/-- `Process` is not atomic on an item whose children fail: the item's request keeps the data,
and every later delivery of the same item is turned away as already processed, leaving the
scheduler as it is, so the request is never committed. -/
theorem processLoop_children_error_keeps_data {node : Node} {err : String}
    (hdec : decodeNode (some item.Hash) item.Data 0 = some (.ok node))
    (hch : (s.withData item req).children { req with data := some item.Data } node = some (.error err)) :
    s.processLoop committed i (item :: rest) =
        some ((committed, i, some (.callback err)), s.withData item req) ∧
      (s.withData item req).requests.get item.Hash ≠ s.requests.get item.Hash ∧
      ∀ committed' j rest', (s.withData item req).processLoop committed' j (item :: rest') =
        some ((committed', j, some .ErrAlreadyProcessed), s.withData item req) := by
  have hget : (s.withData item req).requests.get item.Hash = some { req with data := some item.Data } :=
    GoMap.get_insert_self _ _ _
  refine ⟨processLoop_children_error hreq hdata hraw hdec hch, ?_, fun committed' j rest' => ?_⟩
  · rw [hget, hreq]
    intro h
    have hd := congrArg Request.data (Option.some.inj h)
    simp [hdata] at hd
  · exact processLoop_already_processed hget rfl

end Node

end Item

/-- A state sync whose leaf callback rejects every leaf, over an empty database: the root is
requested, its delivery fails in the callback, and delivering it again is refused. -/
theorem processLoop_leaf_rejected :
    ∃ s, NewTrieSync (List.replicate 32 1) ⟨fun _ => [], fun _ => false⟩
        (some fun _ _ => .error "leaf rejected") = some s ∧
      ∃ s', s.Process [⟨List.replicate 32 1, [0xC2, 0x20, 0x05]⟩] =
          some ((false, 0, some (.callback "leaf rejected")), s') ∧
        s'.requests.get (List.replicate 32 1) ≠ s.requests.get (List.replicate 32 1) ∧
        s'.Process [⟨List.replicate 32 1, [0xC2, 0x20, 0x05]⟩] =
          some ((false, 0, some .ErrAlreadyProcessed), s') := by
  have hnil : decodeNode (some (List.replicate 32 1)) [] 0 = some (.error .ErrUnexpectedEOF) := by
    rw [decodeNode]
    simp
  have hnew : NewTrieSync (List.replicate 32 1) ⟨fun _ => [], fun _ => false⟩
      (some fun _ _ => .error "leaf rejected") =
      some ⟨⟨fun _ => [], fun _ => false⟩, newSyncMemBatch,
        GoMap.empty.insert (List.replicate 32 1)
          ⟨List.replicate 32 1, none, false, [], 0, 0, some fun _ _ => .error "leaf rejected"⟩,
        [(List.replicate 32 1, 0)]⟩ := by
    have hroot : List.replicate 32 (1 : UInt8) ≠ emptyRoot := by decide
    rw [NewTrieSync, AddSubTrie, if_neg hroot]
    simp only [hnil]
    rfl
  -- the root is a leaf with an empty key and the value `5`
  have hdec : decodeNode (some (List.replicate 32 1)) [0xC2, 0x20, 0x05] 0 =
      some (.ok (.shortNode [16] (.valueNode [5]) ⟨some (List.replicate 32 1), 0, false⟩)) := by
    have hv : (Value.list [.bytes [0x20], .bytes [0x05]]).Sized := sized_of_length_lt _ (by decide)
    have hk : Raw.SplitString (Value.payload [.bytes [0x20], .bytes [0x05]]) = some (.ok ([0x20], [0x05])) := by
      decide
    have hval : Raw.SplitString [0x05] = some (.ok ([0x05], [])) := by decide
    rw [show [0xC2, 0x20, 0x05] = (Value.list [.bytes [0x20], .bytes [0x05]]).encoding ++ [] by decide,
      decodeNode_list _ hv, if_pos (by simp), decodeShort_value hk
        (show compactToHex [0x20] = some [16] by decide) (show hasTerm [16] = true by decide) hval]
    rfl
  refine ⟨_, hnew, ?_⟩
  obtain ⟨hfail, hdata, hretry⟩ := @processLoop_children_error_keeps_data
    ⟨⟨fun _ => [], fun _ => false⟩, newSyncMemBatch,
      GoMap.empty.insert (List.replicate 32 1)
        ⟨List.replicate 32 1, none, false, [], 0, 0, some fun _ _ => .error "leaf rejected"⟩,
      [(List.replicate 32 1, 0)]⟩
    false 0 ⟨List.replicate 32 1, [0xC2, 0x20, 0x05]⟩ []
    ⟨List.replicate 32 1, none, false, [], 0, 0, some fun _ _ => .error "leaf rejected"⟩
    (GoMap.get_insert_self _ _ _) rfl rfl _ _ hdec rfl
  exact ⟨_, hfail, hdata, hretry false 0 []⟩

/-! ## Every operation keeps requests under their own hash -/

theorem Keyed.write {s : TrieSync} (h : s.Keyed) {k : List UInt8} {r : Request}
    (hget : s.requests.get k = some r) (r' : Request) (hr' : r'.hash = r.hash) :
    Keyed { s with requests := s.requests.insert k r' } :=
  h.insert (hr'.trans (h k r hget)) _ _

theorem commit_bind_keyed {s : TrieSync} (h : s.Keyed) {k : List UInt8} {r : Request}
    (hget : s.requests.get k = some r) {f : TrieSync → Option ((Bool × Nat × Option SyncError) × TrieSync)}
    {out : (Bool × Nat × Option SyncError) × TrieSync} (r' : Request) (hr' : r'.hash = r.hash)
    (hbind : (({ s with requests := s.requests.insert k r' } : TrieSync).commit
      ({ s with requests := s.requests.insert k r' } : TrieSync).commitFuel r').bind f = some out) :
    ∃ s₁, s₁.Keyed ∧ f s₁ = some out := by
  have hk := h.write hget r' hr'
  have hmem : r'.hash ∈ ({ s with requests := s.requests.insert k r' } : TrieSync).requests.keys := by
    rw [hr', h k r hget]
    exact GoMap.mem_keys_of_get (GoMap.get_insert_self _ _ _)
  obtain ⟨s₁, hc, hk₁, -⟩ := commit_ok (commitFuel _) _ _ hk hmem (Nat.lt_succ_self _)
  rw [hc] at hbind
  exact ⟨s₁, hk₁, hbind⟩

theorem processLoop_keyed (results : List SyncResult) :
    ∀ (s : TrieSync) (committed : Bool) (i : Nat) (out : (Bool × Nat × Option SyncError) × TrieSync),
      s.Keyed → s.processLoop committed i results = some out → out.2.Keyed := by
  induction results with
  | nil =>
    intro s committed i out hs h
    cases h
    exact hs
  | cons item rest ih =>
    intro s committed i out hs h
    unfold processLoop at h
    split at h
    · cases h
      exact hs
    · rename_i request hget
      split at h
      · cases h
        exact hs
      split at h
      · -- a raw entry is committed at once
        dsimp only at h
        obtain ⟨s₁, hk₁, h₁⟩ := commit_bind_keyed hs hget { request with data := some item.Data } rfl h
        exact ih _ _ _ _ hk₁ h₁
      split at h
      · cases h
      · cases h
        exact hs
      rename_i node _
      dsimp only at h
      split at h
      · cases h
      · cases h
        exact hs.write hget _ rfl
      rename_i requests _
      split at h
      · obtain ⟨s₁, hk₁, h₁⟩ := commit_bind_keyed hs hget { request with data := some item.Data } rfl h
        exact ih _ _ _ _ hk₁ h₁
      · -- the children are scheduled after the count is raised
        have hk : Keyed { s with requests := ((s.requests.insert item.Hash { request with data := some item.Data }).insert
            item.Hash { request with data := some item.Data, deps := request.deps + requests.length }) } := by
          rw [GoMap.insert_insert]
          exact hs.write hget _ rfl
        exact ih _ _ _ _ (hk.foldl_schedule requests) h

theorem Keyed.scheduleUnder {s s' : TrieSync} (h : s.Keyed) {req : Request} {parent : List UInt8}
    (hs : s.scheduleUnder req parent = some s') : s'.Keyed := by
  unfold TrieSync.scheduleUnder at hs
  split at hs
  · -- the parent now waits for one more child
    split at hs
    · cases hs
    · rename_i ancestor hget
      cases hs
      refine Keyed.schedule (h.write hget _ ?_) _
      rfl
  · cases hs
    exact h.schedule _

theorem Keyed.AddSubTrie {s s' : TrieSync} (h : s.Keyed) {root : List UInt8} {depth : Nat}
    {parent : List UInt8} {callback : Option TrieSyncLeafCallback}
    (hadd : s.AddSubTrie root depth parent callback = some s') : s'.Keyed := by
  unfold TrieSync.AddSubTrie at hadd
  split at hadd
  · cases hadd
    exact h
  split at hadd
  · cases hadd
    exact h
  split at hadd
  · cases hadd
  · cases hadd
    exact h
  · exact h.scheduleUnder hadd

theorem Keyed.AddRawEntry {s s' : TrieSync} (h : s.Keyed) {hash : List UInt8} {depth : Nat}
    {parent : List UInt8} (hadd : s.AddRawEntry hash depth parent = some s') : s'.Keyed := by
  unfold TrieSync.AddRawEntry at hadd
  split at hadd
  · cases hadd
    exact h
  split at hadd
  · cases hadd
    exact h
  split at hadd
  · cases hadd
    exact h
  · exact h.scheduleUnder hadd

theorem Keyed.NewTrieSync {s : TrieSync} {root : List UInt8} {database : DatabaseReader}
    {callback : Option TrieSyncLeafCallback} (h : TrieSync.NewTrieSync root database callback = some s) :
    s.Keyed :=
  Keyed.AddSubTrie (fun k r hget => by simp at hget) h

theorem Keyed.Commit {s : TrieSync} (h : s.Keyed) (dbw : MemDatabase) : (s.Commit dbw).2.2.Keyed := h

end TrieSync

/-! ## Runs of the scheduler -/

/-- What a caller of the scheduler does. -/
inductive SyncOp where
  | addSubTrie (root : List UInt8) (depth : Nat) (parent : List UInt8) (callback : Option TrieSyncLeafCallback)
  | addRawEntry (hash : List UInt8) (depth : Nat) (parent : List UInt8)
  | process (results : List SyncResult)
  | commit (dbw : MemDatabase)

def SyncOp.run : SyncOp → TrieSync → Option TrieSync
  | .addSubTrie root depth parent callback, s => s.AddSubTrie root depth parent callback
  | .addRawEntry hash depth parent, s => s.AddRawEntry hash depth parent
  | .process results, s => (s.Process results).map Prod.snd
  | .commit dbw, s => some (s.Commit dbw).2.2

def runSync : List SyncOp → TrieSync → Option TrieSync
  | [], s => some s
  | op :: ops, s => (op.run s).bind (runSync ops)

theorem SyncOp.run_keyed {s s' : TrieSync} (op : SyncOp) (h : s.Keyed) (hrun : op.run s = some s') :
    s'.Keyed := by
  cases op with
  | addSubTrie root depth parent callback => exact h.AddSubTrie hrun
  | addRawEntry hash depth parent => exact h.AddRawEntry hrun
  | process results =>
    obtain ⟨out, hout, rfl⟩ := Option.map_eq_some_iff.mp hrun
    exact TrieSync.processLoop_keyed results s false 0 out h hout
  | commit dbw =>
    cases hrun
    exact h.Commit dbw

theorem runSync_keyed {s s' : TrieSync} (ops : List SyncOp) (h : s.Keyed) (hrun : runSync ops s = some s') :
    s'.Keyed := by
  induction ops generalizing s with
  | nil =>
    cases hrun
    exact h
  | cons op ops ih =>
    obtain ⟨s₁, h₁, hrest⟩ := Option.bind_eq_some_iff.mp hrun
    exact ih (op.run_keyed h h₁) hrest

end Zerium.Trie
