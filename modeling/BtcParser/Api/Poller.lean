import BtcParser.Api.RequestBudget

/-!
`api/poller.py`: the threads of the endpoints, and what a 429 does to them.

* `Place` is where a thread is in `endpoint_loop` and in the calls below it, down to the loop of
  `acquire`; `Place.next` says where it goes.
* `Poller.Step` are the steps of all threads, in any order, with any clock readings that do not
  decrease, any responses and any timeouts.
* `stops_promptly` is the result.
-/

namespace BtcParser.Poller

/-- Where a thread is. -/
inductive Place where
  /-- in `stop_event.wait(timeout=start_offset)` -/
  | offset
  /-- at the condition of the loop -/
  | schedule
  /-- at the check of `fetch_and_write` -/
  | entry
  /-- in `acquire`, before the lock -/
  | acquiring (attempt : ℕ)
  /-- in `acquire`, in the wait for a token -/
  | waiting (attempt : ℕ)
  /-- a token was consumed, the GET has not begun -/
  | sending (attempt : ℕ)
  /-- in `session.get` -/
  | inFlight (attempt : ℕ)
  /-- in the backoff before the next attempt -/
  | backingOff (attempt : ℕ)
  /-- a 429 was received and is not handled yet -/
  | rateLimited
  /-- the rows are parsed and written -/
  | writing
  /-- behind `fetch_and_write` -/
  | afterFetch
  /-- in the wait for the next turn -/
  | interval
  /-- `endpoint_loop` has been left -/
  | left
  deriving DecidableEq

/-- What a GET ends with: a `RequestException`, a 429, something else that makes a `FetchError`, or
data. -/
inductive Reply where
  | failed
  | rateLimited
  | rejected
  | data

/-- What a thread does: it goes on, its GET ends, or an exception is raised that nothing catches. -/
inductive Event where
  | go
  | reply (r : Reply)
  | crash

/-- Where a thread goes, apart from `acquire` at the lock, the beginning of a GET and
`handle_rate_limited`. A wait for the stop event ends with its value: by itself if it is set, and
else by the timeout. `registered` says whether the parser of the endpoint is known. -/
def Place.next (maxConnectionRetries : ℕ) (registered stopEvent : Bool) :
    Place → Event → Option Place
  | .offset, .go => some (if stopEvent then .left else .schedule)
  | .schedule, .go => some (if stopEvent then .left else .entry)
  | .entry, .go =>
      some (if stopEvent then .afterFetch else if registered then .acquiring 0 else .afterFetch)
  | .waiting a, .go => some (if stopEvent then .afterFetch else .acquiring a)
  | .inFlight a, .reply .failed =>
      some (if a < maxConnectionRetries then .backingOff a else .afterFetch)
  | .inFlight _, .reply .rateLimited => some .rateLimited
  | .inFlight _, .reply .rejected => some .afterFetch
  | .inFlight _, .reply .data => some .writing
  | .inFlight _, .crash => some .left
  | .backingOff a, .go => some (if stopEvent then .afterFetch else .acquiring (a + 1))
  | .writing, .go => some .afterFetch
  | .writing, .crash => some .left
  | .afterFetch, .go => some (if stopEvent then .left else .interval)
  | .interval, .go => some (if stopEvent then .left else .schedule)
  | _, _ => none

/-- The bucket, the last clock reading, the events, and where the threads are; and for every thread
the GETs begun since the stop event was set, whether it has handled a 429, and the GETs begun since
then. -/
structure State (ι : Type) where
  bucket : TokenBucket
  clock : ℚ
  stopEvent : Bool
  rateLimitedEvent : Bool
  places : ι → Place
  late : ι → ℕ
  limited : ι → Bool
  sinceLimited : ι → ℕ

variable {ι : Type} [DecidableEq ι]

/-- A thread moves. -/
def State.set (s : State ι) (i : ι) (p : Place) : State ι :=
  { s with places := Function.update s.places i p }

/-- A thread begins a GET. -/
def State.beginGet (s : State ι) (i : ι) : State ι :=
  { s with
    late := if s.stopEvent then Function.update s.late i (s.late i + 1) else s.late
    sinceLimited :=
      if s.limited i then Function.update s.sinceLimited i (s.sinceLimited i + 1)
      else s.sinceLimited }

/-- `handle_rate_limited`. -/
def State.handleRateLimited (s : State ι) (i : ι) : State ι :=
  { s with
    rateLimitedEvent := true
    stopEvent := true
    limited := Function.update s.limited i true }

/-- Who moves, and how. -/
inductive Label (ι : Type) where
  /-- the stop event is set by the main thread or the caller -/
  | interrupt
  | lock (i : ι) (now : ℚ)
  | send (i : ι)
  | handle (i : ι)
  | move (i : ι) (e : Event)

/-- The thread that moves. -/
def Label.thread : Label ι → Option ι
  | .interrupt => none
  | .lock i _ => some i
  | .send i => some i
  | .handle i => some i
  | .move i _ => some i

/-- The steps of the threads. -/
inductive Step (c : RateLimit) (maxConnectionRetries : ℕ) (registered : ι → Bool) :
    Label ι → State ι → State ι → Prop
  | interrupt {s : State ι} :
      Step c maxConnectionRetries registered .interrupt s { s with stopEvent := true }
  | acquired {s : State ι} {i : ι} {a : ℕ} {now : ℚ} {b : TokenBucket}
      (hi : s.places i = .acquiring a) (hnow : s.clock ≤ now)
      (hb : s.bucket.tryAcquire c now = (b, none)) :
      Step c maxConnectionRetries registered (.lock i now) s
        ({ s with bucket := b, clock := now }.set i (.sending a))
  | wait {s : State ι} {i : ι} {a : ℕ} {now seconds : ℚ} {b : TokenBucket}
      (hi : s.places i = .acquiring a) (hnow : s.clock ≤ now)
      (hb : s.bucket.tryAcquire c now = (b, some seconds)) :
      Step c maxConnectionRetries registered (.lock i now) s
        ({ s with bucket := b, clock := now }.set i (.waiting a))
  | send {s : State ι} {i : ι} {a : ℕ} (hi : s.places i = .sending a) :
      Step c maxConnectionRetries registered (.send i) s ((s.beginGet i).set i (.inFlight a))
  | handle {s : State ι} {i : ι} (hi : s.places i = .rateLimited) :
      Step c maxConnectionRetries registered (.handle i) s
        ((s.handleRateLimited i).set i .afterFetch)
  | move {s : State ι} {i : ι} {e : Event} {p : Place}
      (hi : (s.places i).next maxConnectionRetries (registered i) s.stopEvent e = some p) :
      Step c maxConnectionRetries registered (.move i e) s (s.set i p)

/-- All runs of the poller. -/
def system (c : RateLimit) (maxConnectionRetries : ℕ) (registered : ι → Bool) :
    TransitionSystem (State ι) (Label ι) where
  init s := ∃ now, s = ⟨.new c now, now, false, false, fun _ => .offset, fun _ => 0,
    fun _ => false, fun _ => 0⟩
  step := Step c maxConnectionRetries registered

/-! ### One thread -/

/-- The GETs a thread begins from here without looking at the stop event. -/
def Place.pending : Place → ℕ
  | .acquiring _ => 1
  | .sending _ => 1
  | _ => 0

/-- The most steps a thread takes from here once the stop event is set. -/
def Place.rank : Place → ℕ
  | .offset => 1
  | .schedule => 1
  | .entry => 2
  | .acquiring _ => 5
  | .waiting _ => 2
  | .sending _ => 4
  | .inFlight _ => 3
  | .backingOff _ => 2
  | .rateLimited => 2
  | .writing => 2
  | .afterFetch => 1
  | .interval => 1
  | .left => 0

lemma pending_le_one (p : Place) : p.pending ≤ 1 := by
  cases p <;> simp [Place.pending]

lemma rank_le (p : Place) : p.rank ≤ 5 := by
  cases p <;> simp [Place.rank]

section Next

variable {m : ℕ} {registered : Bool} {p p' : Place} {e : Event}

/-- Once the stop event is set, every step brings a thread nearer to its end, and none to a GET. -/
lemma next_stopped (h : p.next m registered true e = some p') :
    p'.pending = 0 ∧ p'.rank + 1 ≤ p.rank := by
  rcases p with _ | _ | _ | a | a | a | a | a | _ | _ | _ | _ | _ <;>
    rcases e with _ | (_ | _ | _ | _) | _ <;>
    simp only [Place.next, if_true, Option.some.injEq, reduceCtorEq] at h
  all_goals
    subst h
    first
      | exact ⟨rfl, by simp [Place.rank]⟩
      | (split_ifs <;> exact ⟨rfl, by simp [Place.rank]⟩)

/-- Behind a fetch there is nothing but the end. -/
lemma next_afterFetch (hp : p = .afterFetch ∨ p = .left)
    (h : p.next m registered true e = some p') :
    p' = .left := by
  rcases hp with rfl | rfl <;> rcases e with _ | r | _ <;> simp_all [Place.next]

/-- A thread that has not left has a next step: in `Place.next`, at the lock, at the beginning of a
GET, or in `handle_rate_limited`. -/
lemma exists_next (stopEvent : Bool) (hp : p ≠ .left) :
    (∃ e p', p.next m registered stopEvent e = some p') ∨ (∃ a, p = .acquiring a)
      ∨ (∃ a, p = .sending a) ∨ p = .rateLimited := by
  cases p with
  | acquiring a => exact .inr (.inl ⟨a, rfl⟩)
  | sending a => exact .inr (.inr (.inl ⟨a, rfl⟩))
  | rateLimited => exact .inr (.inr (.inr rfl))
  | inFlight a => exact .inl ⟨.reply .rejected, _, rfl⟩
  | left => exact absurd rfl hp
  | _ => exact .inl ⟨.go, _, rfl⟩

end Next

/-! ### All threads -/

/-- The invariant of a thread: it begins no second GET after the stop event was set, and once it has
handled a 429 it is about to leave. -/
structure ThreadInv (s : State ι) (i : ι) : Prop where
  early : s.stopEvent = false → s.late i = 0
  late : s.late i + (s.places i).pending ≤ 1
  limited : s.limited i = true →
    s.stopEvent = true ∧ (s.places i = .afterFetch ∨ s.places i = .left)
  since : s.sinceLimited i = 0

variable {c : RateLimit} {m : ℕ} {registered : ι → Bool} {s s' : State ι}

/-- Where the threads are after a thread has moved. -/
lemma places_set (s : State ι) (i : ι) (p : Place) (j : ι) :
    (s.set i p).places j = if j = i then p else s.places j :=
  Function.update_apply s.places i p j

omit [DecidableEq ι] in
/-- What the other threads do, or the main thread, leaves the invariant of a thread alone. -/
lemma ThreadInv.frame {i : ι} (h : ThreadInv s i) (hstop : s.stopEvent = true → s'.stopEvent = true)
    (hplace : s'.places i = s.places i) (hlate : s'.late i = s.late i)
    (hlimited : s'.limited i = s.limited i) (hsince : s'.sinceLimited i = s.sinceLimited i) :
    ThreadInv s' i := by
  refine ⟨fun hs => ?_, ?_, fun hl => ?_, ?_⟩
  · rw [hlate]
    exact h.early (Bool.eq_false_iff.mpr fun ht => Bool.eq_false_iff.mp hs (hstop ht))
  · rw [hlate, hplace]
    exact h.late
  · rw [hlimited] at hl
    rw [hplace]
    exact ⟨hstop (h.limited hl).1, (h.limited hl).2⟩
  · rw [hsince]
    exact h.since

omit [DecidableEq ι] in
/-- A thread that is not about to leave has handled no 429. -/
lemma ThreadInv.not_limited {i : ι} (h : ThreadInv s i) (hi : s.places i ≠ .afterFetch)
    (hi' : s.places i ≠ .left) : s.limited i = false :=
  Bool.eq_false_iff.mpr fun hl => (h.limited hl).2.elim hi hi'

/-- A thread moves to a place that promises no more than the place before. -/
lemma ThreadInv.set {i : ι} (h : ThreadInv s i) {p : Place} (hlate : s.late i + p.pending ≤ 1)
    (hlimited : s.limited i = true → p = .left) : ThreadInv (s.set i p) i := by
  refine ⟨h.early, ?_, fun hl => ⟨(h.limited hl).1, ?_⟩, h.since⟩
  · rw [places_set, if_pos rfl]
    exact hlate
  · rw [places_set, if_pos rfl]
    exact .inr (hlimited hl)

/-- A thread begins a GET, which is the only one if the stop event is set. -/
lemma ThreadInv.beginGet {i : ι} {a : ℕ} (h : ThreadInv s i) (hi : s.places i = .sending a) :
    ThreadInv ((s.beginGet i).set i (.inFlight a)) i := by
  have hnot : s.limited i = false := h.not_limited (by simp [hi]) (by simp [hi])
  have hlate := h.late
  rw [hi, Place.pending] at hlate
  refine ⟨fun hs => ?_, ?_, fun hl => ?_, ?_⟩
  · have hs' : s.stopEvent = false := hs
    show (if s.stopEvent = true then _ else s.late) i = 0
    rw [hs', if_neg Bool.false_ne_true]
    exact h.early hs'
  · rw [places_set, if_pos rfl]
    show (if s.stopEvent = true then Function.update s.late i (s.late i + 1) else s.late) i ≤ 1
    split_ifs
    · rw [Function.update_self]
      omega
    · omega
  · exact absurd hl (Bool.eq_false_iff.mp hnot)
  · show (if s.limited i = true then _ else s.sinceLimited) i = 0
    rw [hnot, if_neg Bool.false_ne_true]
    exact h.since

/-- A thread handles its 429. -/
lemma ThreadInv.handle {i : ι} (h : ThreadInv s i) (hi : s.places i = .rateLimited) :
    ThreadInv ((s.handleRateLimited i).set i .afterFetch) i := by
  have hlate := h.late
  rw [hi] at hlate
  refine ⟨fun hs => Bool.noConfusion hs, ?_, fun _ => ⟨rfl, ?_⟩, h.since⟩
  · rw [places_set, if_pos rfl]
    exact hlate
  · rw [places_set, if_pos rfl]
    exact .inl rfl

/-- **The step lemma.** -/
lemma threadInv_step {l : Label ι} (h : ∀ i, ThreadInv s i) (hs : Step c m registered l s s')
    (j : ι) : ThreadInv s' j := by
  have hother : ∀ {t : State ι} {i : ι} {p : Place}, j ≠ i → (t.set i p).places j = t.places j :=
    fun hji => by rw [places_set, if_neg hji]
  cases hs with
  | interrupt => exact (h j).frame (fun _ => rfl) rfl rfl rfl rfl
  -- a token is taken whether the stop event is set or not
  | @acquired _ i a now b hi _ _ =>
      by_cases hji : j = i
      · subst hji
        have hlate : s.late j + (Place.sending a).pending ≤ 1 := by
          have := (h j).late
          rwa [hi] at this
        have hset := (h j).set hlate fun hl => by simpa [hi] using ((h j).limited hl).2
        exact hset.frame id rfl rfl rfl rfl
      · exact (h j).frame id (hother hji) rfl rfl rfl
  | @wait _ i a now seconds b hi _ _ =>
      by_cases hji : j = i
      · subst hji
        have hlate : s.late j + (Place.waiting a).pending ≤ 1 :=
          (Nat.add_le_add_left (Nat.zero_le _) _).trans (h j).late
        have hset := (h j).set hlate fun hl => by simpa [hi] using ((h j).limited hl).2
        exact hset.frame id rfl rfl rfl rfl
      · exact (h j).frame id (hother hji) rfl rfl rfl
  -- the one step that begins a GET
  | @send _ i a hi =>
      by_cases hji : j = i
      · subst hji
        exact (h j).beginGet hi
      · refine (h j).frame id (hother hji) ?_ rfl ?_
        · show (if s.stopEvent = true then _ else s.late) j = s.late j
          split_ifs
          · exact Function.update_of_ne hji _ _
          · rfl
        · show (if s.limited i = true then _ else s.sinceLimited) j = s.sinceLimited j
          split_ifs
          · exact Function.update_of_ne hji _ _
          · rfl
  | @handle _ i hi =>
      by_cases hji : j = i
      · subst hji
        exact (h j).handle hi
      · exact (h j).frame (fun _ => rfl) (hother hji) rfl (Function.update_of_ne hji _ _) rfl
  | @move _ i e p hi =>
      by_cases hji : j = i
      · subst hji
        refine (h j).set ?_ fun hl => ?_
        -- behind the stop event a thread moves towards its end
        · cases hstop : s.stopEvent with
          | true =>
              rw [hstop] at hi
              have := (h j).late
              rw [(next_stopped hi).1]
              omega
          | false =>
              rw [(h j).early hstop, Nat.zero_add]
              exact pending_le_one p
        · obtain ⟨hstop, hplace⟩ := (h j).limited hl
          rw [hstop] at hi
          exact next_afterFetch hplace hi
      · exact (h j).frame id (hother hji) rfl rfl rfl

/-- The run lemma. -/
lemma threadInv_of_reach {allowed : Label ι → State ι → Prop}
    (h : (system c m registered).Reach allowed s) (i : ι) : ThreadInv s i := by
  refine h.invariant (I := fun s => ∀ i, ThreadInv s i) ?_
    (fun _ _ _ hi _ hs => threadInv_step hi hs) i
  rintro _ ⟨now, rfl⟩ j
  exact ⟨fun _ => rfl, Nat.zero_le 1, fun hl => Bool.noConfusion hl, rfl⟩

/-! ### The end of a thread -/

lemma stopEvent_step {l : Label ι} (hs : Step c m registered l s s') (h : s.stopEvent = true) :
    s'.stopEvent = true := by
  cases hs <;> first | exact h | rfl

/-- Once the stop event is set, every step of a thread brings it nearer to its end. -/
lemma rank_step {l : Label ι} (hs : Step c m registered l s s') (h : s.stopEvent = true) (j : ι) :
    (s'.places j).rank + (if decide (l.thread = some j) = true then 1 else 0)
      ≤ (s.places j).rank := by
  have hmove : ∀ {t : State ι} {i : ι} {p : Place}, t.places = s.places →
      l.thread = some i → p.rank + 1 ≤ (s.places i).rank →
      ((t.set i p).places j).rank + (if decide (l.thread = some j) = true then 1 else 0)
        ≤ (s.places j).rank := by
    intro t i p ht hl hp
    rw [places_set, hl]
    by_cases hji : j = i
    · subst hji
      simpa using hp
    · simp [hji, ht, Ne.symm hji]
  cases hs with
  | interrupt => exact le_rfl
  | @acquired _ i a _ _ hi _ _ => exact hmove rfl rfl (by rw [hi]; exact le_rfl)
  | @wait _ i a _ _ _ hi _ _ => exact hmove rfl rfl (by rw [hi]; simp [Place.rank])
  | @send _ i a hi => exact hmove rfl rfl (by rw [hi]; exact le_rfl)
  | @handle _ i hi => exact hmove rfl rfl (by rw [hi]; exact le_rfl)
  | @move _ i e p hi =>
      rw [h] at hi
      exact hmove rfl rfl (next_stopped hi).2

/-- A thread that has not left can move. -/
lemma exists_step {i : ι} (h : s.places i ≠ .left) :
    ∃ l s', l.thread = some i ∧ Step c m registered l s s' := by
  rcases @exists_next m (registered i) (s.places i) s.stopEvent h with
    ⟨e, p, hp⟩ | ⟨a, ha⟩ | ⟨a, ha⟩ | hlimited
  · exact ⟨.move i e, _, rfl, .move hp⟩
  · rcases hb : s.bucket.tryAcquire c s.clock with ⟨b, _ | seconds⟩
    · exact ⟨.lock i s.clock, _, rfl, .acquired ha le_rfl hb⟩
    · exact ⟨.lock i s.clock, _, rfl, .wait ha le_rfl hb⟩
  · exact ⟨.send i, _, rfl, .send ha⟩
  · exact ⟨.handle i, _, rfl, .handle hlimited⟩

/-- **A 429 stops the poller promptly**: in every run of any number of threads, no thread begins
more than one GET after the stop event was set, and none after it has handled a 429 itself; and from
the moment the event is set a thread takes at most five more steps, whatever the others do, and can
move until it has left `endpoint_loop`. -/
theorem stops_promptly (c : RateLimit) (maxConnectionRetries : ℕ) (registered : ι → Bool)
    (s : State ι) (h : (system c maxConnectionRetries registered).Reach anyStep s) :
    (∀ i, s.late i ≤ 1) ∧ (∀ i, s.sinceLimited i = 0)
      ∧ (s.stopEvent = true → ∀ i labels s',
          (system c maxConnectionRetries registered).Path s labels s' →
          labels.countP (fun l => decide (l.thread = some i)) ≤ 5
            ∧ (s'.places i ≠ .left → ∃ l s'', l.thread = some i
              ∧ Step c maxConnectionRetries registered l s' s'')) := by
  have hinv := threadInv_of_reach h
  refine ⟨fun i => ?_, fun i => (hinv i).since, fun hstop i labels s' hpath => ⟨?_, exists_step⟩⟩
  · exact (Nat.le_add_right _ _).trans (hinv i).late
  · have hcount := hpath.countP_le (I := fun s => s.stopEvent = true)
      (fun s => (s.places i).rank) (p := fun l => decide (l.thread = some i))
      (fun _ _ _ hi hs => stopEvent_step hs hi) (fun _ _ _ hi hs => rank_step hs hi i) hstop
    have := rank_le (s.places i)
    omega

/-- Two threads: the first receives a 429 while the second has its token already, and still begins
its GET. -/
theorem stops_promptly_two :
    let c : RateLimit := ⟨60, 2, Rat.num_pos.mp (Int.natCast_pos.mpr (Nat.succ_pos 59)), one_le_two⟩
    ∃ s : State (Fin 2), (system c 0 fun _ => true).Reach anyStep s ∧ s.stopEvent = true
      ∧ s.late 1 = 1 ∧ (∀ i, s.late i ≤ 1) ∧ s.sinceLimited 0 = 0 := by
  intro c
  let s₀ : State (Fin 2) := ⟨.new c 0, 0, false, false, fun _ => .offset, fun _ => 0,
    fun _ => false, fun _ => 0⟩
  have step : ∀ {l : Label (Fin 2)} {s s' : State (Fin 2)},
      (system c 0 fun _ => true).Reach anyStep s → Step c 0 (fun _ => true) l s s' →
      (system c 0 fun _ => true).Reach anyStep s' := fun h hs => h.step trivial hs
  have htoken : ∀ n : ℚ, 1 ≤ n → TokenBucket.tryAcquire c 0 ⟨n, 0⟩ = (⟨n - 1, 0⟩, none) := by
    intro n hn
    simp [TokenBucket.tryAcquire, TokenBucket.refill, hn]
  have h₀ : (system c 0 fun _ => true).Reach anyStep s₀ := .init ⟨0, rfl⟩
  have h₁ := step h₀ (.move (i := 0) (e := .go) rfl)
  have h₂ := step h₁ (.move (i := 0) (e := .go) rfl)
  have h₃ := step h₂ (.move (i := 0) (e := .go) rfl)
  have h₄ := step h₃ (.move (i := 1) (e := .go) rfl)
  have h₅ := step h₄ (.move (i := 1) (e := .go) rfl)
  have h₆ := step h₅ (.move (i := 1) (e := .go) rfl)
  have h₇ := step h₆ (.acquired (i := 0) (a := 0) rfl le_rfl (htoken 2 (by norm_num)))
  have h₈ := step h₇ (.send (i := 0) rfl)
  have h₉ := step h₈ (.move (i := 0) (e := .reply .rateLimited) rfl)
  have h₁₀ := step h₉ (.acquired (i := 1) (a := 0) rfl le_rfl (htoken (2 - 1) (by norm_num)))
  have h₁₁ := step h₁₀ (.handle (i := 0) rfl)
  have h₁₂ := step h₁₁ (.send (i := 1) rfl)
  have hstops := stops_promptly c 0 (fun _ => true) _ h₁₂
  exact ⟨_, h₁₂, rfl, rfl, hstops.1, hstops.2.1 0⟩

end BtcParser.Poller
