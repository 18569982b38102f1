import BtcParser.Library.Bytes

/-!
`rpc/zmq_sequence.py`: the subscriber to the `sequence` topic, on the frames its socket delivers.

`Session.step` are the steps of a session: the node publishes messages with consecutive counters, of
which some are delivered, and the watcher calls `receive_batch` and `take_gap`, in any order.
-/

namespace BtcParser.Zmq

/-- `TOPIC`. -/
def topic : List UInt8 := [0x73, 0x65, 0x71, 0x75, 0x65, 0x6e, 0x63, 0x65]

/-- `SequenceEvent`. -/
structure SequenceEvent where
  label : Char
  hashHex : List Char
  mempoolSequence : Option ℕ
  deriving DecidableEq

/-- `parse_sequence_body`; `none` stands for its `ValueError`. -/
def parseSequenceBody (body : List UInt8) : Option SequenceEvent :=
  if body.length < 33 then none
  else
    let label := Char.ofNat (body.getD 32 0).toNat
    some {
      label := label
      hashHex := toHex (body.take 32)
      mempoolSequence :=
        if (label = 'A' ∨ label = 'R') ∧ 41 ≤ body.length then some (ofLE ((body.drop 33).take 8))
        else none }

/-! ### The subscriber -/

/-- The fields of a `ZmqSequenceSubscriber` that its answers depend on. -/
structure Subscriber where
  lastCounter : Option ℕ
  gapDetected : Bool

/-- `__init__`. -/
def Subscriber.new : Subscriber := ⟨none, false⟩

/-- `_check_counter`. -/
def Subscriber.checkCounter (raw : Option (List UInt8)) (s : Subscriber) : Subscriber :=
  match raw with
  | none => s
  | some raw =>
      if raw.length ≠ 4 then s
      else
        let counter := ofLE raw
        -- the first message of a session has nothing before it
        let jumped := match s.lastCounter with
          | none => false
          | some last => decide (counter ≠ (last + 1) &&& 0xFFFFFFFF)
        ⟨some counter, s.gapDetected || jumped⟩

/-- One message in the loop of `receive_batch`. -/
def Subscriber.receive (frames : List (List UInt8)) (s : Subscriber) :
    Subscriber × Option SequenceEvent :=
  match frames with
  | first :: body :: rest =>
      -- a body that cannot be parsed still counts
      if first ≠ topic then (s, none) else (s.checkCounter rest.head?, parseSequenceBody body)
  | _ => (s, none)

/-- The loop of `receive_batch`: the events of the batch, the messages left in the socket, and the
subscriber. -/
def Subscriber.receiveLoop (maxEvents : ℕ) : List (List (List UInt8)) → List SequenceEvent →
    Subscriber → List SequenceEvent × List (List (List UInt8)) × Subscriber
  | [], events, s => (events, [], s)
  | frames :: queue, events, s =>
      -- the rest stays in the socket
      if maxEvents ≤ events.length then (events, frames :: queue, s)
      else
        let r := s.receive frames
        receiveLoop maxEvents queue (events ++ r.2.toList) r.1

/-- `receive_batch`. What arrives while it polls or drains the socket is in the queue. -/
def Subscriber.receiveBatch (maxEvents : ℕ) (queue : List (List (List UInt8))) (s : Subscriber) :
    List SequenceEvent × List (List (List UInt8)) × Subscriber :=
  s.receiveLoop maxEvents queue []

/-- `take_gap`. -/
def Subscriber.takeGap (s : Subscriber) : Bool × Subscriber :=
  (s.gapDetected, { s with gapDetected := false })

/-! ### Sessions -/

/-- A delivered message: its place in the stream of the node, and its body. -/
structure Delivery where
  position : ℕ
  body : List UInt8

/-- The frames of a message, the counter of the stream having begun at `start`. -/
def Delivery.frames (start : ℕ) (d : Delivery) : List (List UInt8) :=
  [topic, d.body, toLE 4 ((start + d.position) % 2 ^ 32)]

/-- The messages published and delivered, those waiting in the socket, the subscriber, the events
returned so far, and how many messages had been received at the last `take_gap`. -/
structure Session where
  published : ℕ
  delivered : List Delivery
  queue : List (List (List UInt8))
  subscriber : Subscriber
  events : List SequenceEvent
  taken : ℕ

/-- The start of a session. -/
def Session.new : Session := ⟨0, [], [], .new, [], 0⟩

/-- The delivered messages that are not waiting any more. -/
def Session.received (s : Session) : List Delivery :=
  s.delivered.take (s.delivered.length - s.queue.length)

/-- What happens in a session. -/
inductive Call where
  /-- a message is delivered, after the given number of messages that are not -/
  | deliver (missing : Fin (2 ^ 32)) (body : List UInt8)
  | receiveBatch (maxEvents : ℕ)
  | takeGap

/-- The steps of a session. -/
def Session.step (start : ℕ) (s : Session) : Call → Session
  | .deliver missing body =>
      let d : Delivery := ⟨s.published + missing, body⟩
      { s with
        published := d.position + 1
        delivered := s.delivered ++ [d]
        queue := s.queue ++ [d.frames start] }
  | .receiveBatch maxEvents =>
      let r := s.subscriber.receiveBatch maxEvents s.queue
      { s with events := s.events ++ r.1, queue := r.2.1, subscriber := r.2.2 }
  | .takeGap => { s with subscriber := s.subscriber.takeGap.2, taken := s.received.length }

/-- A session. -/
def run (start : ℕ) (calls : List Call) : Session := calls.foldl (Session.step start) .new

end BtcParser.Zmq
