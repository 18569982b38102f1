import BtcParser.Library.History
import BtcParser.Mempool.SequenceGaps
import BtcParser.Mempool.Steps
import BtcParser.Rpc.MempoolWatchLoop

/-!
The loop of `run_mempool_watch` over whole runs of a process.

* `Expected` says of a happening what must have happened before it: before messages are taken from
  the socket a pass has been made, behind which nothing has called for another one.
* `session_turn` is what a turn makes of the session with the node.
* `LoopInv` is the invariant: `LoopInv.turn` keeps it through the four parts of a turn, and
  `reconciles_in_time` follows. It also says that the watcher is one of `MempoolWatch.system`, so
  what holds of all the states reached there holds in this loop.
-/

namespace BtcParser.WatchLoop

open History MempoolWatch Program

variable {P M : Type}

/-! ### What is expected -/

/-- The messages received so far. -/
def LoopState.received (s : LoopState M) : List Zmq.Delivery :=
  match s.subscriber with
  | some z => z.received
  | none => []

/-- The time of a pass. -/
def Happening.passTime : Happening → Option ℚ
  | .reconciled _ _ time => some time
  | _ => none

/-- The events that are handled. -/
def Happening.events : Happening → List (SequenceEvent Text Text)
  | .handled events => events
  | _ => []

/-- The source of a pass: the first one is the startup scan. -/
def sourceAfter (before : List Happening) : WatchSource :=
  if before.any (·.passTime.isSome) then .reconcile else .startupScan

/-- No message is missing before one of those from a number on and before another. -/
def Consecutive (received : List Zmq.Delivery) (first next : ℕ) : Prop :=
  ∀ i p d, first ≤ i + 1 → i + 1 < next → received[i]? = some p → received[i + 1]? = some d →
    d.position = p.position + 1

/-- It does not call for a pass, the last one having been made at `time`. -/
def Quiet (cfg : Config P) (received : List Zmq.Delivery) (time : ℚ) : Happening → Prop
  | .gap => False
  | .listReloaded => False
  | .rpcError => False
  | .looked t => t < time + cfg.reconcileIntervalSeconds
  | .polled first next => Consecutive received first next
  | _ => True

/-- What must have happened before something happens. -/
def Expected (cfg : Config P) (received : List Zmq.Delivery) (before : List Happening) :
    Happening → Prop
  | .polled first next => (∃ time, Since Happening.passTime (Quiet cfg received) time before)
      ∧ first ≤ next ∧ next ≤ received.length
  | .reconciled source _ _ => source = sourceAfter before
      ∧ ∀ source t, .reconciled source false t ∉ before
  | _ => True

lemma Consecutive.append {received : List Zmq.Delivery} {first next : ℕ}
    (h : Consecutive received first next) (hn : next ≤ received.length)
    (more : List Zmq.Delivery) : Consecutive (received ++ more) first next := by
  intro i p d hfirst hnext hp hd
  rw [List.getElem?_append_left (by omega)] at hp hd
  exact h i p d hfirst hnext hp hd

/-- What was expected of the past is expected of it when more has been received. -/
lemma throughout_append {cfg : Config P} {received : List Zmq.Delivery} {l : List Happening}
    (h : Throughout (Expected cfg received) l) (more : List Zmq.Delivery) :
    Throughout (Expected cfg (received ++ more)) l
      ∧ ∀ time, Since Happening.passTime (Quiet cfg received) time l →
        Since Happening.passTime (Quiet cfg (received ++ more)) time l := by
  have hquiet : ∀ before a, a ∈ before → before <+: l → ∀ time, Quiet cfg received time a →
      Quiet cfg (received ++ more) time a := by
    intro before a ha hb time hq
    cases a with
    | polled first next =>
        obtain ⟨front, back, rfl⟩ := List.append_of_mem ha
        obtain ⟨rest, hl⟩ := hb
        have hexp := h front (.polled first next) (back ++ rest) (by rw [← hl]; simp)
        exact hq.append hexp.2.2 more
    | gap => exact hq
    | listReloaded => exact hq
    | rpcError => exact hq
    | looked t => exact hq
    | oldNode => trivial
    | reconciled source c t => trivial
    | handled events => trivial
  refine ⟨fun before a after hl => ?_, fun time hs =>
    hs.mono fun b hb hq => hquiet l b hb (List.prefix_rfl) time hq⟩
  have ha := h before a after hl
  cases a with
  | polled first next =>
      obtain ⟨⟨time, hs⟩, hle, hlen⟩ := ha
      refine ⟨⟨time, hs.mono fun b hb hq => hquiet before b hb ⟨_, hl.symm⟩ time hq⟩, hle, ?_⟩
      rw [List.length_append]
      omega
  | reconciled source c t => exact ha
  | gap => trivial
  | listReloaded => trivial
  | rpcError => trivial
  | looked t => trivial
  | oldNode => trivial
  | handled events => trivial

/-! ### The session with the node -/

variable {start : ℕ}

/-- No message is missing since the last `take_gap` when the next one answers false. -/
lemma consecutive_of_takeGap {z : Zmq.Session} {old new waiting : List Zmq.Delivery}
    (h : Zmq.Tracked start z old new waiting) (hgap : z.subscriber.takeGap.1 = false) {first : ℕ}
    (hfirst : z.taken ≤ first) (next : ℕ) : Consecutive z.received first next := by
  intro i p d hi _ hp hd
  by_contra hne
  have hmissed : z.MissedSince := by
    obtain ⟨hlen, hp⟩ := List.getElem?_eq_some_iff.mp hp
    obtain ⟨hlen', hd⟩ := List.getElem?_eq_some_iff.mp hd
    refine ⟨z.received.take i, p, d, z.received.drop (i + 2), ?_, ?_, hne⟩
    · rw [← hp, ← hd, ← List.drop_eq_getElem_cons, ← List.drop_eq_getElem_cons,
        List.take_append_drop]
    · rw [List.length_take]
      omega
  have htrue : z.subscriber.takeGap.1 = true := h.missedSince_iff.mpr hmissed
  rw [hgap] at htrue
  cases htrue

/-- What a turn makes of a session: `done` are the messages it takes from the socket. -/
structure SessionTurn (start : ℕ) (it : Round P M) (z : Zmq.Session) (done : List Zmq.Delivery) :
    Prop where
  before : (it.arrived start z).received = z.received
  polled : ((it.arrived start z).step start (.receiveBatch maxEvents)).received = z.received ++ done
  after : (((it.arrived start z).step start (.receiveBatch maxEvents)).step start .takeGap).received
    = z.received ++ done
  events : batchEvents (it.arrived start z) = (Zmq.eventsOf done).map watchEvent
  noGap : ((it.arrived start z).step start (.receiveBatch maxEvents)).subscriber.takeGap.1 = false →
    Consecutive (z.received ++ done) z.received.length (z.received ++ done).length
  reached : ∃ calls, (it.arrived start z).step start (.receiveBatch maxEvents)
    = Zmq.run start calls

lemma run_concat (calls : List Zmq.Call) (call : Zmq.Call) :
    (Zmq.run start calls).step start call = Zmq.run start (calls ++ [call]) := by
  rw [Zmq.run, Zmq.run, List.foldl_append]
  rfl

lemma arrived_run (it : Round P M) (calls : List Zmq.Call) :
    it.arrived start (Zmq.run start calls)
      = Zmq.run start (calls ++ it.arriving.map fun d => .deliver d.1 d.2) := by
  rw [Round.arrived, Zmq.run, Zmq.run, List.foldl_append, List.foldl_map]

/-- Messages that arrive wait. -/
lemma tracked_arrived (it : Round P M) {z : Zmq.Session} {old new waiting : List Zmq.Delivery}
    (h : Zmq.Tracked start z old new waiting) :
    ∃ waiting', Zmq.Tracked start (it.arrived start z) old new waiting' := by
  rw [Round.arrived]
  induction it.arriving generalizing z waiting with
  | nil => exact ⟨waiting, h⟩
  | cons d l ih =>
      obtain ⟨e, he⟩ := h.deliver d.1 d.2
      exact ih he

lemma session_turn (it : Round P M) (calls : List Zmq.Call) :
    ∃ done, SessionTurn start it (Zmq.run start calls) done := by
  obtain ⟨old, new, waiting, h⟩ := Zmq.exists_tracked start calls
  obtain ⟨waiting', hz⟩ := tracked_arrived it h
  obtain ⟨done, rest, -, hbatch, -⟩ := hz.receiveBatch maxEvents
  have hrec := h.received
  have hrec' : ((it.arrived start (Zmq.run start calls)).step start
      (.receiveBatch maxEvents)).received = (Zmq.run start calls).received ++ done := by
    rw [hbatch.received, hrec, List.append_assoc]
  refine ⟨done, hz.received.trans hrec.symm, hrec', ?_, ?_, fun hgap => ?_, ?_⟩
  · rw [hbatch.takeGap.received, hrec, List.append_nil, List.append_assoc]
  · have hevents := hbatch.events
    rw [← List.append_assoc] at hevents
    have hall : (it.arrived start (Zmq.run start calls)).events
        ++ ((it.arrived start (Zmq.run start calls)).subscriber.receiveBatch maxEvents
          (it.arrived start (Zmq.run start calls)).queue).1
        = (it.arrived start (Zmq.run start calls)).events ++ Zmq.eventsOf done := by
      rw [hz.events, ← Zmq.eventsOf_append]
      exact (hz.events ▸ hevents)
    rw [batchEvents, List.append_cancel_left hall]
  · rw [← hrec']
    refine consecutive_of_takeGap hbatch hgap ?_ _
    rw [hbatch.taken, hrec, List.length_append]
    omega
  · rw [arrived_run, run_concat]
    exact ⟨_, rfl⟩

/-! ### The invariant -/

/-- What holds between the parts of a turn. -/
structure LoopInv (cfg : Config P) (start : ℕ) (s : LoopState M) : Prop where
  reach : (system cfg.toMempoolWatchConfig).Reach anyStep s.watcher
  session : ∀ z, s.subscriber = some z → ∃ calls, z = Zmq.run start calls
  expected : Throughout (Expected cfg s.received) s.happened
  source : s.reconcileSource = sourceAfter s.happened
  stopped : ∀ source t, .reconciled source false t ∈ s.happened → s.stopped = true
  handled : s.happened.flatMap Happening.events = (Zmq.eventsOf s.received).map watchEvent

/-- A pass has been made, and nothing has called for another one. -/
def UpToDate (cfg : Config P) (s : LoopState M) : Prop :=
  ∃ time, Since Happening.passTime (Quiet cfg s.received) time s.happened
    ∧ s.nextReconcile = time + cfg.reconcileIntervalSeconds

/-- What holds at the end of a turn. -/
structure TurnInv (cfg : Config P) (start : ℕ) (s : LoopState M) : Prop extends
    LoopInv cfg start s where
  upToDate : s.reconcileDue = false → UpToDate cfg s

variable {cfg : Config P} {s t : LoopState M}

lemma sourceAfter_concat (l : List Happening) (h : Happening) :
    sourceAfter (l ++ [h]) = if h.passTime.isSome then .reconcile else sourceAfter l := by
  rw [sourceAfter, List.any_append, List.any_cons, List.any_nil, Bool.or_false, sourceAfter]
  cases h.passTime.isSome <;> simp

/-- Something that is neither a pass nor about messages has happened. -/
lemma LoopInv.aside (hs : LoopInv cfg start s) {h : Happening} (hpass : h.passTime = none)
    (hevents : h.events = []) (hexp : ∀ received before, Expected cfg received before h)
    (hreach : (system cfg.toMempoolWatchConfig).Reach anyStep t.watcher)
    (hsub : t.subscriber = s.subscriber) (hsource : t.reconcileSource = s.reconcileSource)
    (hstop : s.stopped = true → t.stopped = true) (hhap : t.happened = s.happened ++ [h]) :
    LoopInv cfg start t := by
  have hrec : t.received = s.received := by rw [LoopState.received, hsub, LoopState.received]
  refine ⟨hreach, hsub ▸ hs.session, ?_, ?_, fun source time hm => ?_, ?_⟩
  · rw [hhap, hrec]
    exact throughout_concat.mpr ⟨hs.expected, hexp _ _⟩
  · rw [hhap, sourceAfter_concat, hpass, hsource, hs.source]
    rfl
  · rw [hhap, List.mem_append, List.mem_singleton] at hm
    refine hstop (hm.elim (hs.stopped source time) fun heq => ?_)
    rw [← heq] at hpass
    cases hpass
  · rw [hhap, hrec, List.flatMap_append, hs.handled, List.flatMap_singleton, hevents,
      List.append_nil]

/-! ### The parts of a turn -/

lemma onWatcher_triple {α : Type} (x : Watch Text Text Text α) (s : LoopState M) :
    Triple (· = s) (onWatcher x)
      (fun a t => ∃ w, x { s.watcher with calls := 0 } = .ok a w ∧ t = { s with watcher := w })
      fun f t => ∃ w, x { s.watcher with calls := 0 } = .error f w
        ∧ t = { s with watcher := w } := by
  intro t ht
  subst ht
  simp only [onWatcher]
  cases x { t.watcher with calls := 0 } with
  | ok a w => exact ⟨w, rfl, rfl⟩
  | error f w => exact ⟨w, rfl, rfl⟩

/-- A method that is a step of the watcher leaves a state that it reaches. -/
lemma reach_of_step {α : Type} {x : Watch Text Text Text α} {i : Label Text Text Text}
    (hs : (system cfg.toMempoolWatchConfig).Reach anyStep s.watcher)
    (hi : next cfg.toMempoolWatchConfig i s.watcher = stateAfter x { s.watcher with calls := 0 })
    {w : Watcher Text Text Text}
    (hx : (∃ a, x { s.watcher with calls := 0 } = .ok a w)
      ∨ ∃ f, x { s.watcher with calls := 0 } = .error f w) :
    (system cfg.toMempoolWatchConfig).Reach anyStep w := by
  refine .step (i := i) hs trivial ?_
  show next _ i s.watcher = w
  rw [hi, stateAfter]
  rcases hx with ⟨a, hx⟩ | ⟨f, hx⟩ <;> rw [hx]

variable (u : Sanctions.Casing) (fileName : P → String) (it : Round P M)

lemma warnAtStart_triple (s : LoopState M) (hs : LoopInv cfg start s) :
    Triple (· = s) (warnAtStart it s.reconcileSource)
      (fun _ t => LoopInv cfg start t ∧ t.reconcileSource = s.reconcileSource
        ∧ t.stopped = s.stopped) fun _ t => LoopInv cfg start t := by
  have hsame : Triple (· = s) (pure () : Loop M Unit)
      (fun _ t => LoopInv cfg start t ∧ t.reconcileSource = s.reconcileSource
        ∧ t.stopped = s.stopped) fun _ t => LoopInv cfg start t := triple_pure fun t ht => by
    subst ht
    exact ⟨hs, rfl, rfl⟩
  refine triple_ite (fun _ => ?_) fun _ => hsame
  rw [warnIfOldNode]
  cases it.version with
  | error f =>
      refine triple_throw fun t ht => ?_
      rw [ht]
      exact hs
  | ok version =>
      refine triple_ite (fun _ => triple_modify fun t ht => ?_) fun _ => hsame
      subst ht
      exact ⟨hs.aside (h := .oldNode) rfl rfl (fun _ _ => trivial) hs.reach rfl rfl id rfl, rfl,
        rfl⟩

/-- A pass that returns. -/
lemma LoopInv.reconciled (hs : LoopInv cfg start s) (hgo : s.stopped = false) (complete : Bool)
    (time : ℚ) (hreach : (system cfg.toMempoolWatchConfig).Reach anyStep t.watcher)
    (hsub : t.subscriber = s.subscriber) (hsource : t.reconcileSource = .reconcile)
    (hstop : t.stopped = (s.stopped || !complete))
    (hhap : t.happened = s.happened ++ [.reconciled s.reconcileSource complete time]) :
    LoopInv cfg start t := by
  have hrec : t.received = s.received := by rw [LoopState.received, hsub, LoopState.received]
  have hnone : ∀ source t, Happening.reconciled source false t ∉ s.happened := fun source t hm => by
    have := hs.stopped source t hm
    rw [hgo] at this
    cases this
  refine ⟨hreach, hsub ▸ hs.session, ?_, ?_, fun source t' hm => ?_, ?_⟩
  · rw [hhap, hrec]
    exact throughout_concat.mpr ⟨hs.expected, hs.source, hnone⟩
  · rw [hhap, sourceAfter_concat, hsource]
    rfl
  · rw [hhap, List.mem_append, List.mem_singleton] at hm
    have heq := hm.resolve_left (hnone source t')
    cases heq
    rw [hstop]
    exact Bool.or_true _
  · rw [hhap, hrec, List.flatMap_append, hs.handled]
    exact List.append_nil _

lemma reconcileIfDue_triple :
    Triple (fun s : LoopState M => TurnInv cfg start s ∧ s.stopped = false)
      (reconcileIfDue u cfg it)
      (fun _ s => LoopInv cfg start s ∧ UpToDate cfg s ∧ s.reconcileDue = false)
      fun _ s => LoopInv cfg start s := by
  rw [reconcileIfDue]
  refine triple_get fun s hs => triple_ite (fun _ => ?_) fun hdue => ?_
  · obtain ⟨hs, hgo⟩ := hs
    refine (warnAtStart_triple it s hs.toLoopInv).bind fun _ =>
      triple_of_each fun t ht => ?_
    obtain ⟨ht, hsource, hstop⟩ := ht
    have hstep : ∀ w, (∃ a, reconcile cfg.toMempoolWatchConfig (s.surroundings u it.pass)
        s.reconcileSource { t.watcher with calls := 0 } = .ok a w)
        ∨ (∃ f, reconcile cfg.toMempoolWatchConfig (s.surroundings u it.pass)
          s.reconcileSource { t.watcher with calls := 0 } = .error f w) →
        (system cfg.toMempoolWatchConfig).Reach anyStep w := fun w hw =>
      reach_of_step (i := .reconcile (s.surroundings u it.pass) s.reconcileSource) ht.reach rfl hw
    refine Triple.bind ((onWatcher_triple _ t).weaken (fun _ => id) (fun _ _ => id) ?_)
      fun complete => triple_modify fun t' ht' => ?_
    · rintro f _ ⟨w, hw, rfl⟩
      exact ⟨hstep w (.inr ⟨f, hw⟩), ht.session, ht.expected, ht.source, ht.stopped, ht.handled⟩
    · obtain ⟨w, hw, rfl⟩ := ht'
      refine ⟨ht.reconciled (hstop.trans hgo) complete it.reconciledAt (hstep w (.inl ⟨_, hw⟩)) rfl
        rfl rfl (by rw [hsource]), ⟨it.reconciledAt, ?_, rfl⟩, rfl⟩
      exact since_of_mark _ _ rfl
  · have hfalse : s.reconcileDue = false := by simpa using hdue
    refine triple_pure fun t ht => ?_
    subst ht
    exact ⟨hs.1.toLoopInv, hs.1.upToDate hfalse, hfalse⟩

/-- What a turn adds to the account when it takes messages from the socket. -/
def pollItems (it : Round P M) (start : ℕ) (z : Zmq.Session) : List Happening :=
  let z := it.arrived start z
  let events := batchEvents z
  .polled z.received.length (z.step start (.receiveBatch maxEvents)).received.length
    :: if events = [] then [] else [.handled events]

/-- Messages are taken from the socket, and handled. -/
lemma LoopInv.polled (hs : LoopInv cfg start s) {calls calls' : List Zmq.Call}
    {done : List Zmq.Delivery} (hsub : s.subscriber = some (Zmq.run start calls))
    (hturn : SessionTurn start it (Zmq.run start calls) done) (hup : UpToDate cfg s)
    (hreach : (system cfg.toMempoolWatchConfig).Reach anyStep t.watcher)
    (hsub' : t.subscriber = some (Zmq.run start calls'))
    (hrec' : (Zmq.run start calls').received = (Zmq.run start calls).received ++ done)
    (hsource : t.reconcileSource = s.reconcileSource) (hstop : t.stopped = s.stopped)
    (hhap : t.happened = s.happened ++ pollItems it start (Zmq.run start calls)) :
    LoopInv cfg start t := by
  have hrec : s.received = (Zmq.run start calls).received := by rw [LoopState.received, hsub]
  have htrec : t.received = s.received ++ done := by
    rw [LoopState.received, hsub', hrec]
    exact hrec'
  obtain ⟨hexp, hsince⟩ := throughout_append hs.expected done
  obtain ⟨time, hup, -⟩ := hup
  -- receiving is no pass, and it does not lower what has been received
  have hpolled : Throughout (Expected cfg t.received) (s.happened ++ [.polled
      (it.arrived start (Zmq.run start calls)).received.length
      ((it.arrived start (Zmq.run start calls)).step start
        (.receiveBatch maxEvents)).received.length]) := by
    rw [htrec]
    refine throughout_concat.mpr ⟨hexp, ⟨time, hsince time hup⟩, ?_, ?_⟩
    · rw [hturn.before, hturn.polled, List.length_append]
      omega
    · rw [hturn.polled, hrec]
  have hitems : ∀ h ∈ pollItems it start (Zmq.run start calls), h.passTime = none := by
    intro h hh
    simp only [pollItems, List.mem_cons] at hh
    rcases hh with rfl | hh
    · rfl
    · split_ifs at hh
      · cases hh
      · rw [List.mem_singleton.mp hh]
        rfl
  refine ⟨hreach, fun z hz => ⟨calls', ?_⟩, ?_, ?_, fun source time hm => ?_, ?_⟩
  · rw [hsub'] at hz
    exact (Option.some.inj hz).symm
  · rw [hhap, pollItems]
    split_ifs
    · exact hpolled
    · rw [List.append_cons]
      exact throughout_concat.mpr ⟨hpolled, trivial⟩
  · have hany : (pollItems it start (Zmq.run start calls)).any (·.passTime.isSome) = false :=
      List.any_eq_false.mpr fun h hh => by simp [hitems h hh]
    rw [hhap, sourceAfter, List.any_append, hany, Bool.or_false, hsource, hs.source, sourceAfter]
  · rw [hhap, List.mem_append] at hm
    rw [hstop]
    refine hm.elim (hs.stopped source time) fun hm => ?_
    have := hitems _ hm
    cases this
  -- the events of the batch, in the order of their messages
  · have hevents : (pollItems it start (Zmq.run start calls)).flatMap Happening.events
        = batchEvents (it.arrived start (Zmq.run start calls)) := by
      simp only [pollItems, List.flatMap_cons, Happening.events, List.nil_append]
      split_ifs with h
      · rw [h]
        rfl
      · exact List.flatMap_singleton _ _
    rw [hhap, List.flatMap_append, hs.handled, hevents, hturn.events, htrec, Zmq.eventsOf_append,
      List.map_append]

/-- The events of a turn are handled, or an exception leaves them. -/
lemma handleBatch_triple (events : List (SequenceEvent Text Text)) (s : LoopState M)
    (hs : (system cfg.toMempoolWatchConfig).Reach anyStep s.watcher) :
    Triple (· = s) (handleBatch u cfg it events)
      (fun _ t => ∃ w, (system cfg.toMempoolWatchConfig).Reach anyStep w ∧ t = { s with
        watcher := w
        happened := s.happened ++ if events = [] then [] else [.handled events] })
      fun _ t => ∃ w, (system cfg.toMempoolWatchConfig).Reach anyStep w ∧ t = { s with
        watcher := w
        happened := s.happened ++ if events = [] then [] else [.handled events] } := by
  rw [handleBatch]
  refine triple_get fun s' hs' => triple_ite (fun hne => ?_) fun he => triple_pure fun t ht => ?_
  · subst hs'
    refine (triple_modify (Q := fun _ t => t = { s' with
      happened := s'.happened ++ [.handled events] }) fun t ht => by rw [ht]).bind fun _ => ?_
    have hstep : ∀ w, (∃ a, handleEvents cfg.toMempoolWatchConfig (s'.surroundings u it.batch)
        events { s'.watcher with calls := 0 } = .ok a w)
        ∨ (∃ f, handleEvents cfg.toMempoolWatchConfig (s'.surroundings u it.batch)
          events { s'.watcher with calls := 0 } = .error f w) →
        (system cfg.toMempoolWatchConfig).Reach anyStep w := fun w hw =>
      reach_of_step (i := .handleEvents (s'.surroundings u it.batch) events) hs rfl hw
    refine (onWatcher_triple _ _).weaken (fun _ => id) ?_ ?_
    · rintro a _ ⟨w, hw, rfl⟩
      exact ⟨w, hstep w (.inl ⟨a, hw⟩), by rw [if_neg hne]⟩
    · rintro f _ ⟨w, hw, rfl⟩
      exact ⟨w, hstep w (.inr ⟨f, hw⟩), by rw [if_neg hne]⟩
  · subst ht
    exact ⟨t.watcher, hs' ▸ hs, by rw [if_pos (not_not.mp he), List.append_nil, hs']⟩

lemma pollSubscriber_triple {calls : List Zmq.Call} (s : LoopState M) (hs : LoopInv cfg start s)
    (hup : UpToDate cfg s) (hsub : s.subscriber = some (Zmq.run start calls)) :
    Triple (· = s) (pollSubscriber u cfg start it (Zmq.run start calls))
      (fun _ t => TurnInv cfg start t) fun _ t => LoopInv cfg start t := by
  obtain ⟨done, hturn⟩ := session_turn it calls
  obtain ⟨calls', hcalls'⟩ := hturn.reached
  have hrec' : (Zmq.run start calls').received = (Zmq.run start calls).received ++ done :=
    hcalls' ▸ hturn.polled
  rw [pollSubscriber]
  let s₁ : LoopState M := { s with
    subscriber := some ((it.arrived start (Zmq.run start calls)).step start
      (.receiveBatch maxEvents))
    happened := s.happened ++ [.polled (it.arrived start (Zmq.run start calls)).received.length
      ((it.arrived start (Zmq.run start calls)).step start
        (.receiveBatch maxEvents)).received.length] }
  refine (triple_modify (Q := fun _ t => t = s₁) fun t ht => by rw [ht]).bind fun _ => ?_
  have hbatch : Triple (· = s₁) (handleBatch u cfg it _) _ _ :=
    handleBatch_triple u it (batchEvents (it.arrived start (Zmq.run start calls))) s₁ hs.reach
  refine Triple.bind (hbatch.weaken (fun _ => id) (fun _ _ => id) ?_) fun _ =>
    triple_of_each fun t ht => ?_
  -- the handler fails: the messages are gone, and count as received
  · rintro f _ ⟨w, hw, rfl⟩
    exact hs.polled it hsub hturn hup hw (hcalls' ▸ rfl) hrec' rfl rfl (by simp [s₁, pollItems])
  · obtain ⟨w, hw, rfl⟩ := ht
    -- behind the handler the gap is taken
    let s₂ : LoopState M := { s with
      watcher := w
      subscriber := some (((it.arrived start (Zmq.run start calls)).step start
        (.receiveBatch maxEvents)).step start .takeGap)
      happened := s.happened ++ pollItems it start (Zmq.run start calls) }
    have hsub₂ : s₂.subscriber = some (Zmq.run start (calls' ++ [.takeGap])) := by
      rw [← run_concat, ← hcalls']
    have hs₂ : LoopInv cfg start s₂ := hs.polled it hsub hturn hup hw hsub₂
      (by rw [← run_concat, ← hcalls', hturn.after]) rfl rfl rfl
    refine (triple_modify (Q := fun _ t => t = s₂) fun t ht => ?_).bind fun _ =>
      triple_ite (fun _ => triple_modify fun t ht => ?_) fun hgap => triple_pure fun t ht => ?_
    · rw [ht]
      simp [s₁, s₂, pollItems]
    · subst ht
      exact ⟨hs₂.aside (h := .gap) rfl rfl (fun _ _ => trivial) hw rfl rfl id rfl,
        fun h => by cases h⟩
    · subst ht
      refine ⟨hs₂, fun _ => ?_⟩
      obtain ⟨time, hup, hnext⟩ := hup
      refine ⟨time, ?_, hnext⟩
      have hrec : s.received = (Zmq.run start calls).received := by rw [LoopState.received, hsub]
      have hrec₂ : s₂.received = s.received ++ done := hrec ▸ hturn.after
      have hup' := (throughout_append hs.expected done).2 time hup
      have hpolled : Since Happening.passTime (Quiet cfg s₂.received) time (s.happened ++ [.polled
          (it.arrived start (Zmq.run start calls)).received.length
          ((it.arrived start (Zmq.run start calls)).step start
            (.receiveBatch maxEvents)).received.length]) := by
        rw [hrec₂]
        refine hup'.concat ?_
        rw [hturn.before, hturn.polled, hrec]
        exact hturn.noGap (by simpa using hgap)
      show Since _ _ _ (s.happened ++ pollItems it start (Zmq.run start calls))
      rw [pollItems]
      split_ifs
      · exact hpolled
      · rw [List.append_cons]
        exact hpolled.concat trivial

lemma poll_triple :
    Triple (fun s : LoopState M => LoopInv cfg start s ∧ UpToDate cfg s) (poll u cfg start it)
      (fun _ s => TurnInv cfg start s) fun _ s => LoopInv cfg start s := by
  rw [poll]
  refine triple_get fun s hs => ?_
  obtain ⟨hs, hup⟩ := hs
  cases hsub : s.subscriber with
  | some z =>
      obtain ⟨calls, rfl⟩ := hs.session z hsub
      exact pollSubscriber_triple u it s hs hup hsub
  | none =>
      refine triple_modify fun t ht => ?_
      subst ht
      obtain ⟨time, hup, hnext⟩ := hup
      have hpolled : Throughout (Expected cfg t.received) (t.happened ++ [.polled 0 0]) :=
        throughout_concat.mpr ⟨hs.expected, ⟨time, hup⟩, le_rfl, Nat.zero_le _⟩
      refine ⟨⟨hs.reach, hs.session, hpolled, ?_, fun source time hm => ?_, ?_⟩, fun _ =>
        ⟨time, hup.concat fun i p d _ hi => absurd hi (Nat.not_lt_zero _), hnext⟩⟩
      · rw [sourceAfter_concat]
        exact hs.source
      · exact hs.stopped source time (by simpa using hm)
      · rw [List.flatMap_append, hs.handled]
        exact List.append_nil _

variable [DecidableEq M]

lemma reloadList_triple :
    Triple (fun s : LoopState M => TurnInv cfg start s) (reloadList u fileName cfg it)
      (fun _ s => TurnInv cfg start s) fun _ s => LoopInv cfg start s := by
  rw [reloadList]
  refine triple_get fun s hs => ?_
  cases s.sanctions.reloadIfChanged u fileName cfg.sanctionsListPaths false it.seen with
  | none =>
      refine triple_pure fun t ht => ?_
      rw [ht]
      exact hs
  | some r =>
      obtain ⟨list, changed⟩ := r
      refine (triple_modify (Q := fun _ t => t = { s with sanctions := list }) fun t ht => by
        rw [ht]).bind fun _ => triple_ite (fun _ => triple_modify fun t ht => ?_) fun _ =>
          triple_pure fun t ht => ?_
      · subst ht
        have hreach : (system cfg.toMempoolWatchConfig).Reach anyStep
            { s.watcher with checked := ∅ } :=
          .step (i := .listReloaded) hs.reach trivial rfl
        exact ⟨hs.toLoopInv.aside (h := .listReloaded) rfl rfl (fun _ _ => trivial) hreach
          rfl rfl id
          rfl, fun h => by cases h⟩
      · subst ht
        exact ⟨⟨hs.reach, hs.session, hs.expected, hs.source, hs.stopped, hs.handled⟩, hs.upToDate⟩

omit [DecidableEq M] in
lemma lookAtClock_triple :
    Triple (fun s : LoopState M => TurnInv cfg start s) (lookAtClock it)
      (fun _ s => TurnInv cfg start s) fun _ s => LoopInv cfg start s := by
  refine triple_of_each fun s hs => ?_
  have hlooked : LoopInv cfg start { s with happened := s.happened ++ [.looked it.lookedAt] } :=
    hs.toLoopInv.aside (h := .looked it.lookedAt) rfl rfl (fun _ _ => trivial) hs.reach rfl rfl id
      rfl
  rw [lookAtClock, note]
  refine (triple_modify (Q := fun _ t => t = { s with
    happened := s.happened ++ [.looked it.lookedAt] }) fun t ht => by rw [ht]).bind fun _ =>
      triple_get fun t ht => ?_
  subst ht
  refine triple_ite (fun _ => triple_modify fun t ht => ?_) fun hnot => triple_pure fun t ht => ?_
  · subst ht
    exact ⟨⟨hlooked.reach, hlooked.session, hlooked.expected, hlooked.source, hlooked.stopped,
      hlooked.handled⟩, fun h => by cases h⟩
  · subst ht
    refine ⟨hlooked, fun hdue => ?_⟩
    obtain ⟨time, hup, hnext⟩ := hs.upToDate hdue
    refine ⟨time, hup.concat ?_, hnext⟩
    show it.lookedAt < time + cfg.reconcileIntervalSeconds
    rw [← hnext]
    exact not_le.mp hnot

lemma turn_triple :
    Triple (fun s : LoopState M => TurnInv cfg start s ∧ s.stopped = false)
      (turn u fileName cfg start it) (fun _ s => TurnInv cfg start s)
      fun _ s => LoopInv cfg start s :=
  (reconcileIfDue_triple u it).bind fun _ =>
    ((poll_triple u it).pre fun _ hs => ⟨hs.1, hs.2.1⟩).bind fun _ =>
      (reloadList_triple u fileName it).bind fun _ => lookAtClock_triple it

/-- A turn keeps the invariant, also one that an exception ends. -/
lemma TurnInv.turn (hs : TurnInv cfg start s) (hgo : s.stopped = false) :
    TurnInv cfg start (afterTurn u fileName cfg start it s) := by
  have htriple : Triple _ (WatchLoop.turn u fileName cfg start it) _ _ := turn_triple u fileName it
  have hturn := htriple s ⟨hs, hgo⟩
  rw [afterTurn]
  cases hr : WatchLoop.turn u fileName cfg start it s with
  | ok a t =>
      rw [hr] at hturn
      refine ⟨⟨hturn.reach, hturn.session, hturn.expected, hturn.source, fun source time hm => ?_,
        hturn.handled⟩, hturn.upToDate⟩
      show (t.stopped || it.stop) = true
      rw [hturn.stopped source time hm, Bool.true_or]
  | error f t =>
      rw [hr] at hturn
      refine ⟨hturn.aside (h := .rpcError) rfl rfl (fun _ _ => trivial) hturn.reach rfl rfl
        (fun h => ?_) rfl, fun h => by cases h⟩
      show (t.stopped || it.stop) = true
      rw [h, Bool.true_or]

omit [DecidableEq M] in
/-- At the beginning nothing has happened, and a pass is due. -/
lemma turnInv_begin {w : Watcher Text Text Text} (list : Sanctions.SanctionsList M)
    (hw : (system cfg.toMempoolWatchConfig).Reach anyStep w) :
    TurnInv cfg start (.begin cfg w list) := by
  have hreceived : (LoopState.begin cfg w list).received = [] := by
    rw [LoopState.received, LoopState.begin]
    cases cfg.zmqEndpoint <;> rfl
  refine ⟨⟨.step (i := .restart) hw trivial rfl, fun z hz => ⟨[], ?_⟩, throughout_nil _, rfl,
    fun _ _ hm => ?_, ?_⟩, fun h => by cases h⟩
  · simp only [LoopState.begin, Option.map_eq_some_iff] at hz
    obtain ⟨_, _, rfl⟩ := hz
    rfl
  · cases hm
  · rw [hreceived]
    rfl

/-- **The watcher is reconciled in time** in every run of the loop: messages are taken from the
socket only behind a pass that has returned, since when no lost message was noticed, the list has
not changed, no call has failed for good and no look at the clock has found the interval over, and
none is missing between the messages received; the first pass is the startup scan, and no later
one; a pass that a stop has cut short is the last, and the loop ends. What is handled are the
events of all the messages received, in order; and the watcher is one of the transition system of
the watcher. -/
theorem reconciles_in_time {s : LoopState M}
    (hs : (mainLoop u fileName cfg start).Reach anyStep s) :
    Throughout (Expected cfg s.received) s.happened
      ∧ (∀ source time, .reconciled source false time ∈ s.happened → s.stopped = true)
      ∧ s.happened.flatMap Happening.events = (Zmq.eventsOf s.received).map watchEvent
      ∧ (system cfg.toMempoolWatchConfig).Reach anyStep s.watcher := by
  have hinv : TurnInv cfg start s := by
    refine hs.invariant ?_ ?_
    · rintro _ ⟨w, seen, list, hw, -, rfl⟩
      exact turnInv_begin list hw
    · rintro s _ it hs - ⟨hgo, rfl⟩
      exact hs.turn u fileName it hgo
  exact ⟨hinv.expected, hinv.stopped, hinv.handled, hinv.reach⟩

/-! ### A run with a lost message -/

/-- A node with an empty mempool. -/
def emptyNode : Bitcoind Text Text Text where
  getBlockCount := .ok 5
  getRawMempoolTxids := .ok []
  getRawTransaction _ _ := .error .rpcError
  getTxOut _ _ := .error .rpcError
  getTxSpendingPrevout _ := .error .rpcError
  getBlockHash _ := .error .rpcError
  getBlockTxids _ := .error .rpcError
  getBlockHeader _ := .error .rpcError

def emptyEnv : WatchEnv Text Text Text where
  node _ := emptyNode
  lookup _ := none
  listing _ s := s.sort (· ≤ ·)
  listing_nodup _ s := s.sort_nodup _
  mem_listing _ s _ := s.mem_sort _
  stop _ := false

/-- A list without addresses, which does not change. -/
def emptyList : Sanctions.Seen Unit ℕ := ⟨fun _ => some 1, fun _ => .ok [[Sanctions.addressName]]⟩

/-- A message about the block `0`, `D` or another one. -/
def blockMessage : List UInt8 := List.replicate 32 0 ++ [0x44]

/-- The first turn, in which a message of three is lost, and the next one. -/
def lossyRound : Round Unit ℕ :=
  ⟨.ok 270000, emptyEnv, 0, [(0, blockMessage), (1, blockMessage)], emptyEnv, emptyList, 1, false⟩

def nextRound : Round Unit ℕ :=
  ⟨.ok 270000, emptyEnv, 2, [(0, blockMessage)], emptyEnv, emptyList, 3, false⟩

lemma one_le_six : (1 : ℤ) ≤ 6 := by decide

lemma one_le_fifty : (1 : ℤ) ≤ 50 := by decide

lemma interval_pos : (0 : ℚ) < 300 := by norm_num

def lossyConfig : Config Unit :=
  ⟨⟨6, 50, one_le_six, one_le_fifty⟩, some "tcp", [()], 300, interval_pos⟩

def lossyTurns : List (Round Unit ℕ) → LoopState ℕ → LoopState ℕ
  | [], s => s
  | it :: l, s =>
    lossyTurns l (afterTurn Sanctions.asciiCasing (fun _ => "list") lossyConfig 0 it s)

def lossyRun : LoopState ℕ :=
  lossyTurns [lossyRound, nextRound] (.begin lossyConfig .fresh ⟨.empty, [1]⟩)

lemma lossyRun_reach :
    (mainLoop Sanctions.asciiCasing (fun _ => "list") lossyConfig 0).Reach anyStep lossyRun :=
  .step (.step (.init ⟨.fresh, emptyList, ⟨.empty, [1]⟩, .init rfl, rfl, rfl⟩)
    trivial ⟨rfl, rfl⟩) trivial ⟨by decide +kernel, rfl⟩

/-- Behind the lost message comes a pass, and then the next message. -/
theorem reconciles_in_time_lost :
    lossyRun.happened = [.reconciled .startupScan true 0, .polled 0 2,
        .handled [.disconnected (List.replicate 64 '0'), .disconnected (List.replicate 64 '0')],
        .gap, .looked 1, .reconciled .reconcile true 2, .polled 2 3,
        .handled [.disconnected (List.replicate 64 '0')], .looked 3]
      ∧ Throughout (Expected lossyConfig lossyRun.received) lossyRun.happened :=
  ⟨by decide +kernel, (reconciles_in_time _ _ lossyRun_reach).1⟩

end BtcParser.WatchLoop
