import BtcParser.Rpc.ZmqSequence

/-!
Lost messages of the `sequence` topic.

* `jumps` says which of the received messages follow a missing one, and `receiveLoop_frames` what
  `receive_batch` makes of waiting messages.
* `Tracked` splits the delivered messages into those received before the last `take_gap`, those
  received since, and those that wait; `Tracked.step` keeps it.
* `gaps_noticed` is the result.
-/

namespace BtcParser.Zmq

/-! ### One message -/

/-- What `parse_sequence_body` reads off a body that is long enough. -/
def Delivery.event (d : Delivery) : SequenceEvent where
  label := Char.ofNat (d.body.getD 32 0).toNat
  hashHex := toHex (d.body.take 32)
  mempoolSequence :=
    if (Char.ofNat (d.body.getD 32 0).toNat = 'A' ∨ Char.ofNat (d.body.getD 32 0).toNat = 'R')
      ∧ 41 ≤ d.body.length then some (ofLE ((d.body.drop 33).take 8))
    else none

/-- The events of messages: one for each body that is long enough. -/
def eventsOf (ds : List Delivery) : List SequenceEvent :=
  (ds.filter (33 ≤ ·.body.length)).map Delivery.event

lemma eventsOf_append (ds es : List Delivery) :
    eventsOf (ds ++ es) = eventsOf ds ++ eventsOf es := by
  rw [eventsOf, List.filter_append, List.map_append]
  rfl

lemma eventsOf_singleton (d : Delivery) : eventsOf [d] = (parseSequenceBody d.body).toList := by
  rw [parseSequenceBody]
  by_cases h : d.body.length < 33
  · simp [eventsOf, h]
  · simp [eventsOf, h, not_lt.mp h, Delivery.event]

/-- The counter of a message. -/
def counter (start : ℕ) (d : Delivery) : ℕ := (start + d.position) % 2 ^ 32

/-- A message is delivered after another one, with fewer than `2 ^ 32` missing between them. -/
def Close (p d : Delivery) : Prop := p.position < d.position ∧ d.position ≤ p.position + 2 ^ 32

/-- The counters of two messages in a row are consecutive exactly if none is missing. -/
lemma counter_jump_iff {start : ℕ} {p d : Delivery} (h : Close p d) :
    counter start d ≠ (counter start p + 1) &&& 0xFFFFFFFF ↔ d.position ≠ p.position + 1 := by
  have hmask : (counter start p + 1) &&& 0xFFFFFFFF = (counter start p + 1) % 2 ^ 32 :=
    Nat.and_two_pow_sub_one_eq_mod _ 32
  obtain ⟨hlt, hle⟩ := h
  rw [hmask, counter, counter]
  omega

/-- One of the messages follows a missing one; `prev` is the message before them. -/
def jumps : Option Delivery → List Delivery → Bool
  | _, [] => false
  | none, d :: ds => jumps (some d) ds
  | some p, d :: ds => decide (d.position ≠ p.position + 1) || jumps (some d) ds

lemma jumps_cons (prev : Option Delivery) (d : Delivery) (ds : List Delivery) :
    jumps prev (d :: ds) = (jumps prev [d] || jumps (some d) ds) := by
  cases prev <;> simp [jumps]

lemma jumps_append (prev : Option Delivery) (ds es : List Delivery) :
    jumps prev (ds ++ es) = (jumps prev ds || jumps (ds.getLast?.or prev) es) := by
  induction ds generalizing prev with
  | nil => rfl
  | cons d ds ih =>
      have hlast : ((d :: ds).getLast?).or prev = ds.getLast?.or (some d) := by
        rw [List.getLast?_cons]
        cases ds.getLast? <;> rfl
      rw [List.cons_append, jumps_cons, ih, jumps_cons prev d ds, Bool.or_assoc, hlast]

lemma jumps_iff (prev : Option Delivery) (ds : List Delivery) :
    jumps prev ds = true ↔ ∃ before p d after, prev.toList ++ ds = before ++ p :: d :: after
      ∧ d.position ≠ p.position + 1 := by
  induction ds generalizing prev with
  | nil =>
      refine iff_of_false (by cases prev <;> simp [jumps]) ?_
      rintro ⟨before, p, d, after, heq, -⟩
      have hlen := congrArg List.length heq
      have hprev : prev.toList.length ≤ 1 := by cases prev <;> simp
      simp only [List.append_nil, List.length_append, List.length_cons] at hlen
      omega
  | cons d ds ih =>
      rw [jumps_cons, Bool.or_eq_true, ih (some d), Option.toList_some, List.singleton_append]
      constructor
      · rintro (h | ⟨before, p, e, after, heq, hjump⟩)
        · cases prev with
          | none => cases h
          | some p => exact ⟨[], p, d, ds, rfl, by simpa [jumps] using h⟩
        · exact ⟨prev.toList ++ before, p, e, after, by rw [heq, List.append_assoc], hjump⟩
      · rintro ⟨before, p, e, after, heq, hjump⟩
        cases prev with
        | none => exact .inr ⟨before, p, e, after, heq, hjump⟩
        | some q =>
            cases before with
            | nil =>
                obtain ⟨rfl, rfl, rfl⟩ : q = p ∧ d = e ∧ ds = after := by simpa using heq
                exact .inl (by simpa [jumps] using hjump)
            | cons b before =>
                have htail : d :: ds = before ++ p :: e :: after := (List.cons.inj heq).2
                exact .inr ⟨before, p, e, after, htail, hjump⟩

/-! ### Batches -/

variable {start : ℕ}

/-- What the loop makes of one message of the stream. -/
lemma receive_frames {s : Subscriber} {prev : Option Delivery} {d : Delivery}
    (hlast : s.lastCounter = prev.map (counter start)) (hclose : ∀ p ∈ prev, Close p d) :
    s.receive (d.frames start)
      = (⟨some (counter start d), s.gapDetected || jumps prev [d]⟩, parseSequenceBody d.body) := by
  have hlt : (start + d.position) % 2 ^ 32 < 256 ^ 4 := Nat.mod_lt _ (by decide)
  have hcounter : ofLE (toLE 4 ((start + d.position) % 2 ^ 32)) = counter start d := ofLE_toLE hlt
  have hcheck : s.checkCounter (some (toLE 4 ((start + d.position) % 2 ^ 32)))
      = ⟨some (counter start d), s.gapDetected || jumps prev [d]⟩ := by
    simp only [Subscriber.checkCounter, length_toLE, hcounter, hlast]
    cases prev with
    | none => rfl
    | some p =>
        simp only [Option.map_some, jumps, Bool.or_false, counter_jump_iff (hclose p rfl), ne_eq,
          not_true_eq_false, if_false]
  rw [Delivery.frames, Subscriber.receive, if_neg (not_not.mpr rfl)]
  exact congrArg (·, parseSequenceBody d.body) hcheck

/-- A batch takes some of the waiting messages, in order, at least one if its limit allows it. -/
lemma receiveLoop_frames (maxEvents : ℕ) {s : Subscriber} {prev : Option Delivery}
    {waiting : List Delivery} (events : List SequenceEvent)
    (hlast : s.lastCounter = prev.map (counter start))
    (hclose : (prev.toList ++ waiting).IsChain Close) :
    ∃ done rest, waiting = done ++ rest
      ∧ s.receiveLoop maxEvents (waiting.map (Delivery.frames start)) events
        = (events ++ eventsOf done, rest.map (Delivery.frames start),
          ⟨(done.getLast?.or prev).map (counter start), s.gapDetected || jumps prev done⟩)
      ∧ (events.length < maxEvents → waiting ≠ [] → done ≠ []) := by
  induction waiting generalizing s prev events with
  | nil =>
      refine ⟨[], [], rfl, ?_, fun _ h => absurd rfl h⟩
      simp [Subscriber.receiveLoop, eventsOf, jumps, ← hlast]
  | cons d waiting ih =>
      rw [List.map_cons, Subscriber.receiveLoop]
      split_ifs with hfull
      · refine ⟨[], d :: waiting, rfl, ?_, fun h => absurd h (not_lt.mpr hfull)⟩
        simp [eventsOf, jumps, ← hlast]
      · have hnext : ∀ p ∈ prev, Close p d := by
          rintro p rfl
          exact (List.isChain_cons_cons.mp hclose).1
        have htail : ((some d).toList ++ waiting).IsChain Close :=
          (List.isChain_append.mp hclose).2.1
        rw [receive_frames hlast hnext]
        obtain ⟨done, rest, rfl, hloop, -⟩ := @ih
          ⟨some (counter start d), s.gapDetected || jumps prev [d]⟩ (some d)
          (events ++ (parseSequenceBody d.body).toList) rfl htail
        refine ⟨d :: done, rest, rfl, ?_, fun _ _ => List.cons_ne_nil d done⟩
        have hevents : events ++ (parseSequenceBody d.body).toList ++ eventsOf done
            = events ++ eventsOf (d :: done) := by
          rw [← List.singleton_append, eventsOf_append, eventsOf_singleton, List.append_assoc]
        have hprev : done.getLast?.or (some d) = ((d :: done).getLast?).or prev := by
          rw [List.getLast?_cons]
          cases done.getLast? <;> rfl
        rw [hloop, hevents, hprev, Bool.or_assoc, ← jumps_cons]

/-! ### Sessions -/

/-- The delivered messages are those received before the last `take_gap`, those received since, and
those that wait. -/
structure Tracked (start : ℕ) (s : Session) (old new waiting : List Delivery) : Prop where
  delivered : s.delivered = old ++ new ++ waiting
  queue : s.queue = waiting.map (Delivery.frames start)
  taken : s.taken = old.length
  close : s.delivered.IsChain Close
  last : ∀ d ∈ s.delivered.getLast?, d.position + 1 = s.published
  counter : s.subscriber.lastCounter = (old ++ new).getLast?.map (counter start)
  gap : s.subscriber.gapDetected = jumps old.getLast? new
  events : s.events = eventsOf (old ++ new)

namespace Tracked

variable {s : Session} {old new waiting : List Delivery}

lemma received (h : Tracked start s old new waiting) : s.received = old ++ new := by
  have hlen : s.delivered.length - s.queue.length = (old ++ new).length := by
    rw [h.delivered, h.queue, List.length_map, @List.length_append _ (old ++ new),
      Nat.add_sub_cancel]
  rw [Session.received, hlen, h.delivered, List.take_left]

lemma deliver (h : Tracked start s old new waiting) (missing : Fin (2 ^ 32)) (body : List UInt8) :
    ∃ d, Tracked start (s.step start (.deliver missing body)) old new (waiting ++ [d]) := by
  have hmissing := missing.isLt
  refine ⟨⟨s.published + missing, body⟩, ?_, ?_, h.taken, ?_, ?_, h.counter, h.gap, h.events⟩
  · show s.delivered ++ _ = _
    rw [h.delivered, List.append_assoc]
  · show s.queue ++ _ = _
    rw [h.queue, List.map_append]
    rfl
  · refine List.isChain_append.mpr ⟨h.close, List.isChain_singleton _, fun p hp d hd => ?_⟩
    obtain rfl : _ = d := Option.some.inj hd
    have := h.last p hp
    constructor
    · show p.position < s.published + missing
      omega
    · show s.published + missing ≤ p.position + 2 ^ 32
      omega
  · intro d hd
    obtain rfl : _ = d := Option.some.inj (List.getLast?_concat.symm.trans hd)
    rfl

lemma receiveBatch (h : Tracked start s old new waiting) (maxEvents : ℕ) :
    ∃ done rest, waiting = done ++ rest
      ∧ Tracked start (s.step start (.receiveBatch maxEvents)) old (new ++ done) rest
      ∧ (1 ≤ maxEvents → waiting ≠ [] → done ≠ []) := by
  have hclose : ((old ++ new).getLast?.toList ++ waiting).IsChain Close := by
    have hchain := h.close
    rw [h.delivered] at hchain
    rcases List.eq_nil_or_concat' (old ++ new) with hnil | ⟨front, p, hp⟩
    · rw [hnil] at hchain ⊢
      exact hchain
    · rw [hp, List.append_assoc] at hchain
      rw [hp, List.getLast?_concat]
      exact (List.isChain_append.mp hchain).2.1
  obtain ⟨done, rest, rfl, hloop, hsome⟩ := receiveLoop_frames maxEvents [] h.counter hclose
  refine ⟨done, rest, rfl, ⟨?_, ?_, h.taken, h.close, h.last, ?_, ?_, ?_⟩, hsome⟩
  · show s.delivered = _
    rw [h.delivered]
    simp only [List.append_assoc]
  · show (s.subscriber.receiveLoop maxEvents s.queue []).2.1 = _
    rw [h.queue, hloop]
  · show (s.subscriber.receiveLoop maxEvents s.queue []).2.2.lastCounter = _
    rw [h.queue, hloop, ← List.append_assoc, List.getLast?_append (l := old ++ new)]
  · show (s.subscriber.receiveLoop maxEvents s.queue []).2.2.gapDetected = _
    rw [h.queue, hloop, h.gap, jumps_append, List.getLast?_append (l := old)]
  · show s.events ++ (s.subscriber.receiveLoop maxEvents s.queue []).1 = _
    rw [h.queue, hloop, h.events, List.nil_append, ← eventsOf_append, List.append_assoc]

lemma takeGap (h : Tracked start s old new waiting) :
    Tracked start (s.step start .takeGap) (old ++ new) [] waiting := by
  refine ⟨?_, h.queue, ?_, h.close, h.last, ?_, rfl, ?_⟩
  · show s.delivered = _
    rw [h.delivered, List.append_nil]
  · show s.received.length = _
    rw [h.received]
  · show s.subscriber.lastCounter = _
    rw [h.counter, List.append_nil]
  · show s.events = _
    rw [h.events, List.append_nil]

end Tracked

lemma exists_tracked (start : ℕ) (calls : List Call) :
    ∃ old new waiting, Tracked start (run start calls) old new waiting := by
  induction calls using List.reverseRecOn with
  | nil => exact ⟨[], [], [], rfl, rfl, rfl, .nil, (fun d hd => by cases hd), rfl, rfl, rfl⟩
  | append_singleton calls call ih =>
      obtain ⟨old, new, waiting, h⟩ := ih
      rw [run, List.foldl_concat]
      cases call with
      | deliver missing body =>
          obtain ⟨d, hd⟩ := h.deliver missing body
          exact ⟨_, _, _, hd⟩
      | receiveBatch maxEvents =>
          obtain ⟨done, rest, -, hbatch, -⟩ := h.receiveBatch maxEvents
          exact ⟨_, _, _, hbatch⟩
      | takeGap => exact ⟨_, _, _, h.takeGap⟩

/-- Since the last `take_gap` a message was received that follows a missing one. -/
def Session.MissedSince (s : Session) : Prop :=
  ∃ before p d after, s.received = before ++ p :: d :: after ∧ s.taken ≤ before.length + 1
    ∧ d.position ≠ p.position + 1

lemma exists_front {α : Type*} (l : List α) :
    ∃ front, l = front ++ l.getLast?.toList ∧ front.length = l.length - 1 := by
  rcases List.eq_nil_or_concat' l with rfl | ⟨front, a, rfl⟩
  · exact ⟨[], rfl, rfl⟩
  · exact ⟨front, by rw [List.getLast?_concat]; rfl, by simp⟩

/-- The flag says whether a message that follows a missing one was received since. -/
lemma Tracked.missedSince_iff {s : Session} {old new waiting : List Delivery}
    (h : Tracked start s old new waiting) :
    s.subscriber.gapDetected = true ↔ s.MissedSince := by
  obtain ⟨front, hfront, hlen⟩ := exists_front old
  have hsplit : old ++ new = front ++ (old.getLast?.toList ++ new) := by
    rw [← List.append_assoc, ← hfront]
  rw [h.gap, jumps_iff, Session.MissedSince, h.received, h.taken, hsplit]
  constructor
  · rintro ⟨before, p, d, after, heq, hjump⟩
    exact ⟨front ++ before, p, d, after, by rw [heq, List.append_assoc], by
      rw [List.length_append]
      omega, hjump⟩
  · rintro ⟨before, p, d, after, heq, hold, hjump⟩
    rcases List.append_eq_append_iff.mp heq with ⟨mid, rfl, hmid⟩ | ⟨mid, hmid, hrest⟩
    · exact ⟨mid, p, d, after, hmid, hjump⟩
    · have hlong := congrArg List.length hmid
      rw [List.length_append] at hlong
      obtain rfl : mid = [] := List.length_eq_zero_iff.mp (by omega)
      exact ⟨[], p, d, after, hrest.symm, hjump⟩

/-- **Lost messages are always noticed and never invented**: at any point of any session, the next
`take_gap` answers true exactly if a message was received since the last one that follows a missing
message, so never if nothing is missing between the delivered messages; the events returned so far
are those of the messages received so far, one for each body of at least 33 bytes, in order; and the
messages received are the first of those delivered, of which every further batch takes more. -/
theorem gaps_noticed (start : ℕ) (calls : List Call) :
    let s := run start calls
    (s.subscriber.takeGap.1 = true ↔ s.MissedSince)
      ∧ ((∀ before p d after, s.delivered = before ++ p :: d :: after →
          d.position = p.position + 1) → s.subscriber.takeGap.1 = false)
      ∧ s.events = (s.received.filter (33 ≤ ·.body.length)).map Delivery.event
      ∧ s.received <+: s.delivered
      ∧ ∀ maxEvents, 1 ≤ maxEvents → s.received ≠ s.delivered →
          s.received.length < (s.step start (.receiveBatch maxEvents)).received.length := by
  intro s
  obtain ⟨old, new, waiting, h⟩ := exists_tracked start calls
  have hreceived := h.received
  refine ⟨h.missedSince_iff, fun hnone => ?_, ?_, ?_, fun maxEvents hmax hmore => ?_⟩
  · refine Bool.eq_false_iff.mpr fun htrue => ?_
    obtain ⟨before, p, d, after, heq, -, hjump⟩ := h.missedSince_iff.mp htrue
    refine hjump (hnone before p d (after ++ waiting) ?_)
    rw [h.delivered, ← hreceived, heq]
    simp
  · rw [hreceived]
    exact h.events
  · rw [hreceived]
    exact ⟨waiting, h.delivered.symm⟩
  · obtain ⟨done, rest, hwaiting, hbatch, hsome⟩ := h.receiveBatch maxEvents
    have hne : waiting ≠ [] := by
      rintro rfl
      exact hmore (by rw [hreceived, h.delivered, List.append_nil])
    have hpos := List.length_pos_of_ne_nil (hsome hmax hne)
    rw [hreceived, hbatch.received]
    simp only [List.length_append]
    omega

/-- The counter wraps around between two messages. -/
example : (run (2 ^ 32 - 1) [.deliver 0 [], .deliver 0 [], .receiveBatch 5]).subscriber.takeGap.1
    = false := by
  decide

/-- A message is missing, and the flag outlasts a batch without events. -/
example : (run (2 ^ 32 - 1) [.deliver 0 [], .deliver 1 [], .receiveBatch 5, .deliver 0 [],
    .receiveBatch 5]).subscriber.takeGap.1 = true := by
  decide

end BtcParser.Zmq
