import BtcParser.Rpc.MempoolWatch
import BtcParser.Rpc.SanctionsList
import BtcParser.Rpc.ZmqSequence
import Mathlib.Data.Char
import Mathlib.Data.List.Lex

/-!
`rpc/mempool_watch.py`: `run_mempool_watch`, the loop around the watcher.

A `Round` is what one turn of the `while` meets: the node, the messages that have arrived, the files
of the sanctions list and the clock. The `LoopState` holds the watcher, the list, the session with
the node and the local variables of the function, and an account of what has happened so far.

`mainLoop` is one process as a transition system, started on what any earlier processes have left.
-/

namespace BtcParser.WatchLoop

open MempoolWatch

/-- A txid, a block hash or an address. -/
def Text : Type := List Char

instance : LinearOrder Text := inferInstanceAs (LinearOrder (List Char))

/-- `mempool_watch.*`, and the frequency of what it sets. `zmqEndpoint` is `none` in polling-only
mode. -/
structure Config (P : Type) extends MempoolWatchConfig where
  zmqEndpoint : Option String
  sanctionsListPaths : List P
  reconcileIntervalSeconds : ℚ
  reconcileIntervalSeconds_pos : 0 < reconcileIntervalSeconds

/-- What happens in a process. -/
inductive Happening where
  /-- the node is older than `MIN_PREVOUT_NODE_VERSION` -/
  | oldNode
  /-- `reconcile` has returned, at a time; `false` if a stop has cut it short -/
  | reconciled (source : WatchSource) (complete : Bool) (time : ℚ)
  /-- the messages from one number on and before another have been taken from the socket -/
  | polled (first next : ℕ)
  /-- `handle_events` is called -/
  | handled (events : List (SequenceEvent Text Text))
  /-- `take_gap` has answered true -/
  | gap
  /-- another sanctions list is in use -/
  | listReloaded
  /-- the clock is compared with `next_reconcile` -/
  | looked (time : ℚ)
  /-- an `RpcCliError` has ended the turn -/
  | rpcError
  deriving DecidableEq

variable {P M : Type}

/-- The local variables of `run_mempool_watch`, `stop.is_set()`, and what has happened. -/
structure LoopState (M : Type) where
  watcher : Watcher Text Text Text
  sanctions : Sanctions.SanctionsList M
  subscriber : Option Zmq.Session
  reconcileDue : Bool
  reconcileSource : WatchSource
  nextReconcile : ℚ
  stopped : Bool
  happened : List Happening

/-- What one turn of the loop meets. -/
structure Round (P M : Type) where
  /-- the version `getnetworkinfo` answers -/
  version : Except RpcFailure ℤ
  /-- the surroundings of `reconcile` but for the list, and the time after it -/
  pass : WatchEnv Text Text Text
  reconciledAt : ℚ
  /-- the messages that arrive, each with the number of those lost before it -/
  arriving : List (Fin (2 ^ 32) × List UInt8)
  /-- the surroundings of `handle_events` -/
  batch : WatchEnv Text Text Text
  /-- the files of the list -/
  seen : Sanctions.Seen P M
  lookedAt : ℚ
  /-- a stop has been requested by the end of the turn -/
  stop : Bool

/-- A part of the loop. -/
abbrev Loop (M : Type) := EStateM RpcFailure (LoopState M)

/-! ### The parts of a turn -/

/-- The event of a message, as `handle_events` takes it. -/
def watchEvent (e : Zmq.SequenceEvent) : SequenceEvent Text Text :=
  if e.label = 'A' then .added e.hashHex
  else if e.label = 'R' then .removed e.hashHex
  else if e.label = 'C' then .connected e.hashHex
  else if e.label = 'D' then .disconnected e.hashHex
  else .other

variable [DecidableEq M] (u : Sanctions.Casing) (fileName : P → String) (cfg : Config P)
  (start : ℕ) (it : Round P M)

/-- It has happened. -/
def note (h : Happening) : Loop M Unit := modify fun s => { s with happened := s.happened ++ [h] }

/-- A method of the watcher. -/
def onWatcher {α : Type} (x : Watch Text Text Text α) : Loop M α := fun s =>
  match x { s.watcher with calls := 0 } with
  | .ok a w => .ok a { s with watcher := w }
  | .error f w => .error f { s with watcher := w }

/-- The surroundings of the watcher, with the list that is in use. -/
def LoopState.surroundings (s : LoopState M) (env : WatchEnv Text Text Text) :
    WatchEnv Text Text Text :=
  { env with lookup := fun a => (s.sanctions.lookup u (some a)).map (·.toSanctionedAddress) }

/-- `MIN_PREVOUT_NODE_VERSION`. -/
def minPrevoutNodeVersion : ℤ := 250000

/-- `_warn_if_old_node`. -/
def warnIfOldNode : Loop M Unit :=
  match it.version with
  | .error f => throw f
  | .ok version => if version < minPrevoutNodeVersion then note .oldNode else pure ()

/-- The question for the version, before a startup scan. -/
def warnAtStart (source : WatchSource) : Loop M Unit :=
  if source = .startupScan then warnIfOldNode it else pure ()

/-- The pass, when one is due. -/
def reconcileIfDue : Loop M Unit := do
  let s ← get
  if s.reconcileDue then
    warnAtStart it s.reconcileSource
    let complete ← onWatcher
      (reconcile cfg.toMempoolWatchConfig (s.surroundings u it.pass) s.reconcileSource)
    modify fun t => { t with
      reconcileDue := false
      reconcileSource := .reconcile
      nextReconcile := it.reconciledAt + cfg.reconcileIntervalSeconds
      stopped := t.stopped || !complete
      happened := t.happened ++ [.reconciled s.reconcileSource complete it.reconciledAt] }

/-- The default of `max_events`. -/
def maxEvents : ℕ := 5000

/-- The session when the messages of a turn have arrived. -/
def Round.arrived (z : Zmq.Session) : Zmq.Session :=
  it.arriving.foldl (fun z d => z.step start (.deliver d.1 d.2)) z

/-- What `receive_batch` returns. -/
def batchEvents (z : Zmq.Session) : List (SequenceEvent Text Text) :=
  (z.subscriber.receiveBatch maxEvents z.queue).1.map watchEvent

/-- `handle_events`, when there are any. -/
def handleBatch (events : List (SequenceEvent Text Text)) : Loop M Unit := do
  let s ← get
  if events ≠ [] then
    note (.handled events)
    onWatcher (handleEvents cfg.toMempoolWatchConfig (s.surroundings u it.batch) events)

/-- The messages of a turn, and whether some are missing. -/
def pollSubscriber (z : Zmq.Session) : Loop M Unit := do
  let z := it.arrived start z
  let z' := z.step start (.receiveBatch maxEvents)
  modify fun s => { s with
    subscriber := some z'
    happened := s.happened ++ [.polled z.received.length z'.received.length] }
  handleBatch u cfg it (batchEvents z)
  modify fun s => { s with subscriber := some (z'.step start .takeGap) }
  if z'.subscriber.takeGap.1 then
    modify fun s => { s with reconcileDue := true, happened := s.happened ++ [.gap] }

/-- The messages of a turn; in polling-only mode a second passes. -/
def poll : Loop M Unit := do
  match (← get).subscriber with
  | some z => pollSubscriber u cfg start it z
  | none => note (.polled 0 0)

/-- `reload_if_changed`, and what follows from it. -/
def reloadList : Loop M Unit := do
  let s ← get
  match s.sanctions.reloadIfChanged u fileName cfg.sanctionsListPaths false it.seen with
  | none => pure ()
  | some (list, changed) =>
      modify fun t => { t with sanctions := list }
      if changed then
        modify fun t => { t with
          watcher := { t.watcher with checked := ∅ }
          reconcileDue := true
          happened := t.happened ++ [.listReloaded] }

/-- `time.monotonic() >= next_reconcile`. -/
def lookAtClock : Loop M Unit := do
  note (.looked it.lookedAt)
  if (← get).nextReconcile ≤ it.lookedAt then
    modify fun s => { s with reconcileDue := true }

/-- The body of the `try`. -/
def turn : Loop M Unit := do
  reconcileIfDue u cfg it
  poll u cfg start it
  reloadList u fileName cfg it
  lookAtClock it

/-- A turn of the `while`. -/
def afterTurn (s : LoopState M) : LoopState M :=
  match turn u fileName cfg start it s with
  | .ok _ t => { t with stopped := t.stopped || it.stop }
  | .error _ t => { t with
      reconcileDue := true
      stopped := t.stopped || it.stop
      happened := t.happened ++ [.rpcError] }

/-! ### The process -/

/-- The beginning of the loop, on what a watcher has left and with the list of the constructor. -/
def LoopState.begin (w : Watcher Text Text Text) (list : Sanctions.SanctionsList M) :
    LoopState M where
  watcher := w.restart
  sanctions := list
  subscriber := cfg.zmqEndpoint.map fun _ => .new
  reconcileDue := true
  reconcileSource := .startupScan
  nextReconcile := 0
  stopped := false
  happened := []

/-- A process: it begins on what any earlier processes have left, with the list it has loaded, and
takes turns until a stop. `start` is the counter of the first message of its session. -/
def mainLoop : TransitionSystem (LoopState M) (Round P M) where
  init s := ∃ w seen list, (system cfg.toMempoolWatchConfig).Reach anyStep w
    ∧ Sanctions.SanctionsList.start u fileName cfg.sanctionsListPaths seen = some list
    ∧ s = .begin cfg w list
  step it s t := s.stopped = false ∧ afterTurn u fileName cfg start it s = t

end BtcParser.WatchLoop
