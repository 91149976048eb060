import Zerium.Lib.GoMap
import Zerium.Lib.Prque

/-! # The block fetcher (`zrm/fetcher`)

`Fetcher.loop` is one goroutine that owns the fetcher's maps and handles, one at a time, the
announcements, blocks, headers, bodies, import ends and timer fires other goroutines send it;
`step` is one wait with what follows it, and `Reachable` the states of every run. An announcement
goes from `announced` to `fetching`, then to `fetched` or `completing`, and its block to `queued`.
What the loop reads of the node in one iteration is `Env`; time is in nanoseconds and a timer is
its deadline. Requests to peers, hooks, meters and `quit` are left out. An `announce` is a pointer
in Go, shared by `fetching` and a batch's `incomplete`, and the model writes both.
-/

namespace Zerium.Zrm

set_option autoImplicit false

def arriveTimeout : Nat := 500 * 1000000

def gatherSlack : Nat := 100 * 1000000

def fetchTimeout : Nat := 5 * 1000000000

def maxUncleDist : Nat := 7

def maxQueueDist : Nat := 32

def hashLimit : Int := 256

def blockLimit : Int := 64

/-- What the fetcher reads of `core/types`: `Header.Hash()`, `Header.Number`, a header's
`TxHash` and `UncleHash`, and `DeriveSha` and `CalcUncleHash` of the two lists of a body. -/
structure Types (Hash Header Tx : Type) where
  hash : Header → Hash
  number : Header → UInt64
  txHash : Header → Hash
  uncleHash : Header → Hash
  deriveSha : List Tx → Hash
  calcUncleHash : List Header → Hash

/-- A `types.Block`; its `Hash()` and `NumberU64()` are its header's. -/
structure Block (Header Tx : Type) where
  header : Header
  transactions : List Tx
  uncles : List Header

structure Announce (Peer Hash Header : Type) where
  hash : Hash
  number : UInt64
  header : Option Header
  time : Nat
  origin : Peer

abbrev Announces (Peer Hash Header : Type) := {l : List (Announce Peer Hash Header) // l ≠ []}

structure Inject (Peer Header Tx : Type) where
  origin : Peer
  block : Block Header Tx

/-- A `time.Timer`: when it will fire, if it runs, and whether a fire waits in its channel. -/
structure Timer where
  deadline : Option Nat
  fired : Bool
  deriving DecidableEq, Repr

namespace Timer

/-- `time.NewTimer(0)` at `now`. -/
def new (now : Nat) : Timer := ⟨some now, false⟩

def fire (now : Nat) (t : Timer) : Timer :=
  match t.deadline with
  | some d => if d ≤ now then ⟨none, true⟩ else t
  | none => t

/-- `Reset(d)` at `now`, for `d` cut at zero. A fire already in the channel stays there. -/
def reset (now d : Nat) (t : Timer) : Timer := { t with deadline := some (now + d) }

end Timer

structure Fetcher (Peer Hash Header Tx : Type) where
  announces : GoMap Peer Int
  announced : GoMap Hash (Announces Peer Hash Header)
  fetching : GoMap Hash (Announce Peer Hash Header)
  fetched : GoMap Hash (Announces Peer Hash Header)
  completing : GoMap Hash (Announce Peer Hash Header)
  queue : List (Prque.Item (Inject Peer Header Tx) Int)
  queues : GoMap Peer Int
  queued : GoMap Hash (Inject Peer Header Tx)
  fetchTimer : Timer
  completeTimer : Timer
  inserts : List Hash

/-- What one iteration reads of the node: `chainHeight()`, whether `getBlock` finds a hash, and
what `rand.Intn` draws for a hash, taken modulo its bound. -/
structure Env (Hash : Type) where
  height : UInt64
  known : Hash → Bool
  pick : Hash → Nat

/-- The events the `select` of `loop` waits for. -/
inductive Event (Peer Hash Header Tx : Type) where
  | notify (peer : Peer) (hash : Hash) (number : UInt64) (time : Nat)
  | inject (peer : Peer) (block : Block Header Tx)
  | done (hash : Hash)
  | fetchTimer
  | completeTimer
  | headerFilter (peer : Peer) (headers : List Header) (time : Nat)
  | bodyFilter (peer : Peer) (transactions : List (List Tx)) (uncles : List (List Header))
      (time : Nat)

variable {Peer Hash Header Tx : Type} [DecidableEq Peer] [DecidableEq Hash]

/-! ## The counters -/

/-- `m[k]--`, and the `delete` once it is zero, as `forgetHash` and `forgetBlock` do it. -/
def decrement (m : GoMap Peer Int) (k : Peer) : GoMap Peer Int :=
  let m := m.insert k ((m.get k).getD 0 - 1)
  if (m.get k).getD 0 = 0 then m.erase k else m

/-- The loops of `forgetHash` that decrement once for each announcement of a slice. -/
def decrementAll (m : GoMap Peer Int) (l : List (Announce Peer Hash Header)) : GoMap Peer Int :=
  l.foldl (fun m a => decrement m a.origin) m

def slice (s : Option (Announces Peer Hash Header)) : List (Announce Peer Hash Header) :=
  (s.map Subtype.val).getD []

/-- `append(s, a)`. -/
def append (s : Option (Announces Peer Hash Header)) (a : Announce Peer Hash Header) :
    Announces Peer Hash Header :=
  ⟨slice s ++ [a], by simp⟩

/-- `forgetHash(hash)`: every announcement of the hash goes, each stage decrementing its
peer's counter once per record it holds. -/
def forgetHash (hash : Hash) (f : Fetcher Peer Hash Header Tx) : Fetcher Peer Hash Header Tx :=
  let f := { f with announces := decrementAll f.announces (slice (f.announced.get hash)),
                    announced := f.announced.erase hash }
  let f := match f.fetching.get hash with
    | some announce => { f with announces := decrement f.announces announce.origin,
                                fetching := f.fetching.erase hash }
    | none => f
  let f := { f with announces := decrementAll f.announces (slice (f.fetched.get hash)),
                    fetched := f.fetched.erase hash }
  match f.completing.get hash with
  | some announce => { f with announces := decrement f.announces announce.origin,
                              completing := f.completing.erase hash }
  | none => f

/-- `forgetBlock(hash)`. -/
def forgetBlock (hash : Hash) (f : Fetcher Peer Hash Header Tx) : Fetcher Peer Hash Header Tx :=
  match f.queued.get hash with
  | some op => { f with queues := decrement f.queues op.origin, queued := f.queued.erase hash }
  | none => f

/-! ## The timers -/

/-- The loop of `rescheduleFetch` and `rescheduleComplete`: the earliest time of the first
announcement of a slice, from `now` on. -/
def earliest (now : Nat) (m : GoMap Hash (Announces Peer Hash Header)) : Nat :=
  m.keys.foldl (fun e hash =>
    match m.get hash with
    | some announces =>
      if (announces.val.head announces.property).time < e then
        (announces.val.head announces.property).time
      else e
    | none => e) now

/-- `rescheduleFetch(fetchTimer)`. -/
def rescheduleFetch (now : Nat) (f : Fetcher Peer Hash Header Tx) : Fetcher Peer Hash Header Tx :=
  if f.announced.keys.length = 0 then f
  else { f with fetchTimer :=
    f.fetchTimer.reset now (arriveTimeout - (now - earliest now f.announced)) }

/-- `rescheduleComplete(completeTimer)`. -/
def rescheduleComplete (now : Nat) (f : Fetcher Peer Hash Header Tx) :
    Fetcher Peer Hash Header Tx :=
  if f.fetched.keys.length = 0 then f
  else { f with completeTimer :=
    f.completeTimer.reset now (gatherSlack - (now - earliest now f.fetched)) }

/-- `announces[rand.Intn(len(announces))]`. -/
def pick (env : Env Hash) (hash : Hash) (announces : Announces Peer Hash Header) :
    Announce Peer Hash Header :=
  announces.val.get ⟨env.pick hash % announces.val.length,
    Nat.mod_lt _ (List.length_pos_iff.mpr announces.property)⟩

def fetchOne (env : Env Hash) (now : Nat) (f : Fetcher Peer Hash Header Tx) (hash : Hash) :
    Fetcher Peer Hash Header Tx :=
  match f.announced.get hash with
  | some announces =>
    if arriveTimeout - gatherSlack < now - (announces.val.head announces.property).time then
      let announce := pick env hash announces
      let f := forgetHash hash f
      if env.known hash then f else { f with fetching := f.fetching.insert hash announce }
    else f
  | none => f

/-- The case `<-fetchTimer.C`. -/
def onFetchTimer (env : Env Hash) (now : Nat) (f : Fetcher Peer Hash Header Tx) :
    Fetcher Peer Hash Header Tx :=
  rescheduleFetch now (f.announced.keys.foldl (fetchOne env now) f)

def completeOne (env : Env Hash) (f : Fetcher Peer Hash Header Tx) (hash : Hash) :
    Fetcher Peer Hash Header Tx :=
  match f.fetched.get hash with
  | some announces =>
    let announce := pick env hash announces
    let f := forgetHash hash f
    if env.known hash then f else { f with completing := f.completing.insert hash announce }
  | none => f

/-- The case `<-completeTimer.C`. -/
def onCompleteTimer (env : Env Hash) (now : Nat) (f : Fetcher Peer Hash Header Tx) :
    Fetcher Peer Hash Header Tx :=
  rescheduleComplete now (f.fetched.keys.foldl (completeOne env) f)

/-! ## Announcements and the import queue -/

/-- `dist < -maxUncleDist || dist > maxQueueDist` for `dist := int64(number) - int64(height)`. -/
def tooFar (number height : UInt64) : Bool :=
  let dist := number.toInt64 - height.toInt64
  decide (dist < -Int64.ofNat maxUncleDist) || decide (Int64.ofNat maxQueueDist < dist)

/-- The case `notification := <-f.notify`. -/
def notify (env : Env Hash) (now : Nat) (announce : Announce Peer Hash Header)
    (f : Fetcher Peer Hash Header Tx) : Fetcher Peer Hash Header Tx :=
  let count := (f.announces.get announce.origin).getD 0 + 1
  if hashLimit < count then f
  else if 0 < announce.number && tooFar announce.number env.height then f
  else if (f.fetching.get announce.hash).isSome || (f.completing.get announce.hash).isSome then f
  else
    let f := { f with
      announces := f.announces.insert announce.origin count
      announced := f.announced.insert announce.hash (append (f.announced.get announce.hash) announce) }
    if f.announced.keys.length = 1 then rescheduleFetch now f else f

/-- The priority `-float32(number)` the queue orders blocks by. -/
def priority (number : UInt64) : Int := -(Prque.roundFloat32 number.toNat : Int)

/-- `enqueue(peer, block)`. -/
def enqueue (types : Types Hash Header Tx) (env : Env Hash) (peer : Peer) (block : Block Header Tx)
    (f : Fetcher Peer Hash Header Tx) : Fetcher Peer Hash Header Tx :=
  let hash := types.hash block.header
  let count := (f.queues.get peer).getD 0 + 1
  if blockLimit < count then forgetHash hash f
  else if tooFar (types.number block.header) env.height then forgetHash hash f
  else if (f.queued.get hash).isNone then
    let op : Inject Peer Header Tx := ⟨peer, block⟩
    { f with
      queues := f.queues.insert peer count
      queued := f.queued.insert hash op
      queue := Prque.push f.queue op (priority (types.number block.header)) }
  else f

/-- The import loop at the top of each iteration, with fuel for one round per item of the queue:
`PopItem` is `none` exactly when the queue is `Empty`. An item too far ahead goes back and ends
the loop, a stale or known one is forgotten, and any other goes to `insert`. -/
def importQueued (types : Types Hash Header Tx) (env : Env Hash) :
    Nat → Fetcher Peer Hash Header Tx → Fetcher Peer Hash Header Tx
  | 0, f => f
  | fuel + 1, f =>
    match Prque.popItem f.queue with
    | none => f
    | some (op, queue) =>
      let number := types.number op.block.header
      if env.height + 1 < number then { f with queue := Prque.push queue op (priority number) }
      else
        let hash := types.hash op.block.header
        if number + UInt64.ofNat maxUncleDist < env.height || env.known hash then
          importQueued types env fuel (forgetBlock hash { f with queue })
        else importQueued types env fuel { f with queue, inserts := f.inserts ++ [hash] }

/-- The clean-up at the top of each iteration: `forgetHash` of every fetch older than
`fetchTimeout`. `forgetHash` deletes only its own key, so each fetch is read as it was. -/
def expireFetches (now : Nat) (f : Fetcher Peer Hash Header Tx) : Fetcher Peer Hash Header Tx :=
  f.fetching.keys.foldl (fun f hash =>
    match f.fetching.get hash with
    | some announce => if fetchTimeout < now - announce.time then forgetHash hash f else f
    | none => f) f

/-! ## Delivered headers and bodies -/

/-- A header batch split three ways: the headers the fetcher did not ask for, the announcements
that still need a body with the hash they are filed under, and the blocks without a body. -/
structure HeaderSplit (Peer Hash Header Tx : Type) where
  unknown : List Header
  incomplete : List (Hash × Announce Peer Hash Header)
  complete : List (Block Header Tx)

/-- The header loop of the case `filter := <-f.headerFilter` for one header. -/
def filterHeader (types : Types Hash Header Tx) (env : Env Hash) (peer : Peer) (time : Nat)
    (acc : HeaderSplit Peer Hash Header Tx × Fetcher Peer Hash Header Tx) (header : Header) :
    HeaderSplit Peer Hash Header Tx × Fetcher Peer Hash Header Tx :=
  let (s, f) := acc
  let hash := types.hash header
  match f.fetching.get hash with
  | some announce =>
    if announce.origin = peer ∧ (f.fetched.get hash).isNone ∧ (f.completing.get hash).isNone ∧
        (f.queued.get hash).isNone then
      if types.number header ≠ announce.number then (s, forgetHash hash f)
      else if env.known hash then (s, forgetHash hash f)
      else
        let announce := { announce with header := some header, time := time }
        -- the record is shared: an earlier copy of it in `incomplete` changes too
        let s := { s with incomplete :=
          s.incomplete.map fun (e : Hash × Announce Peer Hash Header) =>
            if e.1 = hash then (hash, announce) else e }
        let f := { f with fetching := f.fetching.insert hash announce }
        if types.txHash header = types.deriveSha [] ∧
            types.uncleHash header = types.calcUncleHash [] then
          ({ s with complete := s.complete ++ [(⟨header, [], []⟩ : Block Header Tx)] },
            { f with completing := f.completing.insert hash announce })
        else ({ s with incomplete := s.incomplete ++ [(hash, announce)] }, f)
    else ({ s with unknown := s.unknown ++ [header] }, f)
  | none => ({ s with unknown := s.unknown ++ [header] }, f)

def scheduleIncomplete (now : Nat) (f : Fetcher Peer Hash Header Tx)
    (e : Hash × Announce Peer Hash Header) : Fetcher Peer Hash Header Tx :=
  if (f.completing.get e.1).isSome then f
  else
    let f := { f with fetched := f.fetched.insert e.1 (append (f.fetched.get e.1) e.2) }
    if f.fetched.keys.length = 1 then rescheduleComplete now f else f

/-- A finished block goes to `enqueue` when its hash is still completing. -/
def importComplete (types : Types Hash Header Tx) (env : Env Hash)
    (f : Fetcher Peer Hash Header Tx) (block : Block Header Tx) : Fetcher Peer Hash Header Tx :=
  match f.completing.get (types.hash block.header) with
  | some announce => enqueue types env announce.origin block f
  | none => f

/-- The case `filter := <-f.headerFilter`: the headers sent back, and the state after. -/
def onHeaderFilter (types : Types Hash Header Tx) (env : Env Hash) (now : Nat) (peer : Peer)
    (headers : List Header) (time : Nat) (f : Fetcher Peer Hash Header Tx) :
    List Header × Fetcher Peer Hash Header Tx :=
  let (s, f) := headers.foldl (filterHeader types env peer time) (⟨[], [], []⟩, f)
  let f := s.incomplete.foldl (scheduleIncomplete now) f
  (s.unknown, s.complete.foldl (importComplete types env) f)

def matchBody (types : Types Hash Header Tx) (env : Env Hash) (peer : Peer) (txs : List Tx)
    (uncles : List Header) (acc : List (Block Header Tx) × Bool × Fetcher Peer Hash Header Tx)
    (hash : Hash) : Option (List (Block Header Tx) × Bool × Fetcher Peer Hash Header Tx) :=
  let (blocks, _, f) := acc
  match f.completing.get hash with
  | none => some acc
  | some announce =>
    if (f.queued.get hash).isSome then some acc
    else
      match announce.header with
      | none => none
      | some header =>
        if types.deriveSha txs = types.txHash header ∧
            types.calcUncleHash uncles = types.uncleHash header ∧ announce.origin = peer then
          if env.known hash then some (blocks, true, forgetHash hash f)
          else some (blocks ++ [⟨header, txs, uncles⟩], true, f)
        else some acc

def filterBodies (types : Types Hash Header Tx) (env : Env Hash) (peer : Peer) :
    List (List Tx × List Header) →
      List (Block Header Tx) × List (List Tx × List Header) × Fetcher Peer Hash Header Tx →
      Option (List (Block Header Tx) × List (List Tx × List Header) × Fetcher Peer Hash Header Tx)
  | [], acc => some acc
  | (txs, uncles) :: rest, (blocks, kept, f) => do
    let (blocks, matched, f) ←
      f.completing.keys.foldlM (matchBody types env peer txs uncles) (blocks, false, f)
    filterBodies types env peer rest (blocks, if matched then kept else kept ++ [(txs, uncles)], f)

/-- The case `filter := <-f.bodyFilter`: the bodies sent back, and the state after. -/
def onBodyFilter (types : Types Hash Header Tx) (env : Env Hash) (peer : Peer)
    (transactions : List (List Tx)) (uncles : List (List Header))
    (f : Fetcher Peer Hash Header Tx) :
    Option ((List (List Tx) × List (List Header)) × Fetcher Peer Hash Header Tx) := do
  let bodies := transactions.zip uncles
  let (blocks, kept, f) ← filterBodies types env peer bodies ([], [], f)
  pure ((kept.map Prod.fst ++ transactions.drop bodies.length,
      kept.map Prod.snd ++ uncles.drop bodies.length),
    blocks.foldl (importComplete types env) f)

/-! ## The loop -/

/-- The `select` of `loop`. It is `none` when the event cannot be received (a timer that has not
fired, a `done` that no `insert` sends) and where Go would panic. -/
def handle (types : Types Hash Header Tx) (env : Env Hash) (now : Nat) :
    Event Peer Hash Header Tx → Fetcher Peer Hash Header Tx → Option (Fetcher Peer Hash Header Tx)
  | .notify peer hash number time, f => some (notify env now ⟨hash, number, none, time, peer⟩ f)
  | .inject peer block, f => some (enqueue types env peer block f)
  | .done hash, f =>
    if hash ∈ f.inserts then
      some (forgetBlock hash (forgetHash hash { f with inserts := f.inserts.erase hash }))
    else none
  | .fetchTimer, f =>
    if f.fetchTimer.fired then
      some (onFetchTimer env now { f with fetchTimer := { f.fetchTimer with fired := false } })
    else none
  | .completeTimer, f =>
    if f.completeTimer.fired then
      some (onCompleteTimer env now
        { f with completeTimer := { f.completeTimer with fired := false } })
    else none
  | .headerFilter peer headers time, f => some (onHeaderFilter types env now peer headers time f).2
  | .bodyFilter peer transactions uncles _, f =>
    (onBodyFilter types env peer transactions uncles f).map Prod.snd

def loopHead (types : Types Hash Header Tx) (env : Env Hash) (now : Nat)
    (f : Fetcher Peer Hash Header Tx) : Fetcher Peer Hash Header Tx :=
  let f := expireFetches now f
  importQueued types env f.queue.length f

def fire (now : Nat) (f : Fetcher Peer Hash Header Tx) : Fetcher Peer Hash Header Tx :=
  { f with fetchTimer := f.fetchTimer.fire now, completeTimer := f.completeTimer.fire now }

def step (types : Types Hash Header Tx) (env : Env Hash) (now : Nat)
    (ev : Event Peer Hash Header Tx) (f : Fetcher Peer Hash Header Tx) :
    Option (Fetcher Peer Hash Header Tx) :=
  (handle types env now ev (fire now f)).map (loopHead types env now)

/-- `New`, with the two timers `loop` starts at `now`. -/
def newFetcher (now : Nat) : Fetcher Peer Hash Header Tx where
  announces := .empty
  announced := .empty
  fetching := .empty
  fetched := .empty
  completing := .empty
  queue := []
  queues := .empty
  queued := .empty
  fetchTimer := .new now
  completeTimer := .new now
  inserts := []

/-- `Start` at `now`: the first iteration's top. -/
def start (types : Types Hash Header Tx) (env : Env Hash) (now : Nat) :
    Fetcher Peer Hash Header Tx :=
  loopHead types env now (newFetcher now)

/-- The states of the loop, waiting in its `select`, over every run. -/
inductive Reachable (types : Types Hash Header Tx) : Fetcher Peer Hash Header Tx → Prop
  | start (env : Env Hash) (now : Nat) : Reachable types (start types env now)
  | step {f f' : Fetcher Peer Hash Header Tx} (env : Env Hash) (now : Nat)
      (ev : Event Peer Hash Header Tx) :
      Reachable types f → step types env now ev f = some f' → Reachable types f'

def run (types : Types Hash Header Tx) :
    List (Env Hash × Nat × Event Peer Hash Header Tx) → Fetcher Peer Hash Header Tx →
      Option (Fetcher Peer Hash Header Tx)
  | [], f => some f
  | (env, now, ev) :: rest, f => (step types env now ev f).bind (run types rest)

theorem reachable_of_run {types : Types Hash Header Tx} {f f' : Fetcher Peer Hash Header Tx}
    (hf : Reachable types f) :
    ∀ {inputs : List (Env Hash × Nat × Event Peer Hash Header Tx)},
      run types inputs f = some f' → Reachable types f' := by
  intro inputs
  induction inputs generalizing f with
  | nil =>
    rintro ⟨⟩
    exact hf
  | cons input rest ih =>
    obtain ⟨env, now, ev⟩ := input
    intro hrun
    cases hs : step types env now ev f with
    | none => simp [run, hs] at hrun
    | some g =>
      simp only [run, hs, Option.bind_some] at hrun
      exact ih (hf.step env now ev hs) hrun

def stageRecords (f : Fetcher Peer Hash Header Tx) : List (Announce Peer Hash Header) :=
  f.announced.keys.flatMap (fun hash => slice (f.announced.get hash)) ++
    f.fetching.keys.filterMap f.fetching.get ++
    f.fetched.keys.flatMap (fun hash => slice (f.fetched.get hash)) ++
    f.completing.keys.filterMap f.completing.get

/-- The announcements of `p` the four stages hold. -/
def holding (p : Peer) (f : Fetcher Peer Hash Header Tx) : Nat :=
  (stageRecords f).countP fun a => decide (a.origin = p)

end Zerium.Zrm
