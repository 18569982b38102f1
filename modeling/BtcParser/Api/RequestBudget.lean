import BtcParser.Library.Pacing
import BtcParser.Library.Transition

/-!
`api/rate_limiter.py` and the retry loop of `api/client.py`: the requests of all threads that share
one `TokenBucket`.

* `TokenBucket` is the bucket, `refill` and `tryAcquire` what `acquire` does under the lock.
* `Budget.Step` are the steps of the threads: each runs `_get_with_retry` again and again, its
  turns under the lock, its waits, its requests and its backoffs coming in any order with those of
  the others, with any clock readings that do not decrease.
* `requests_within_budget` is the bound over every window of time.
-/

namespace BtcParser

/-- The arguments of `TokenBucket(...)`, as its constructor accepts them. -/
structure RateLimit where
  requestsPerMinute : ℚ
  bucketSize : ℕ
  requestsPerMinute_pos : 0 < requestsPerMinute
  bucketSize_pos : 1 ≤ bucketSize

namespace RateLimit

variable (c : RateLimit)

/-- `_rate_per_second`. -/
def ratePerSecond : ℚ := c.requestsPerMinute / 60

/-- `_capacity`. -/
def capacity : ℚ := c.bucketSize

lemma ratePerSecond_nonneg : 0 ≤ c.ratePerSecond :=
  div_nonneg c.requestsPerMinute_pos.le (by norm_num)

end RateLimit

/-- The fields of a `TokenBucket` that change. -/
structure TokenBucket where
  tokens : ℚ
  lastRefill : ℚ

namespace TokenBucket

variable (c : RateLimit)

/-- `__init__`. -/
def new (now : ℚ) : TokenBucket := ⟨c.capacity, now⟩

/-- `_refill_locked`. -/
def refill (now : ℚ) (b : TokenBucket) : TokenBucket :=
  if 0 < now - b.lastRefill then
    ⟨min c.capacity (b.tokens + (now - b.lastRefill) * c.ratePerSecond), now⟩
  else b

/-- What `acquire` does under the lock: a token is consumed, or there is a time to wait. -/
def tryAcquire (now : ℚ) (b : TokenBucket) : TokenBucket × Option ℚ :=
  let b := b.refill c now
  if 1 ≤ b.tokens then ({ b with tokens := b.tokens - 1 }, none)
  else (b, some ((1 - b.tokens) / c.ratePerSecond))

end TokenBucket

/-! ### The threads -/

namespace Budget

/-- Where a thread is in `_get_with_retry`, at an attempt. -/
inductive Thread where
  | idle
  /-- in `acquire`, before the lock -/
  | acquiring (attempt : ℕ)
  /-- in `acquire`, waiting -/
  | waiting (attempt : ℕ) (seconds : ℚ)
  /-- a token was consumed at this time, the request is not sent yet -/
  | sending (attempt : ℕ) (token : ℚ)
  /-- the request has failed, in the backoff before the next attempt -/
  | backingOff (attempt : ℕ)

/-- The bucket, the last clock reading, the threads, and what has happened: the times at which
tokens were consumed, and for every request sent the time of its token. -/
structure State (ι : Type) where
  bucket : TokenBucket
  clock : ℚ
  threads : ι → Thread
  taken : List ℚ
  sent : List ℚ

variable {ι : Type} [DecidableEq ι]

/-- A thread moves on. -/
def State.set (s : State ι) (i : ι) (t : Thread) : State ι :=
  { s with threads := Function.update s.threads i t }

/-- Who moves, and how. -/
inductive Label (ι : Type) where
  /-- `_get_with_retry` is called -/
  | call (i : ι)
  /-- a turn under the lock, with this clock reading -/
  | lock (i : ι) (now : ℚ)
  /-- a wait is over; `stopped` if the stop event was set -/
  | wake (i : ι) (stopped : Bool)
  /-- the request is sent; `failed` on a connection failure -/
  | get (i : ι) (failed : Bool)

/-- The steps of the threads. -/
inductive Step (c : RateLimit) (maxConnectionRetries : ℕ) :
    Label ι → State ι → State ι → Prop
  | call {s : State ι} {i : ι} (hi : s.threads i = .idle) :
      Step c maxConnectionRetries (.call i) s (s.set i (.acquiring 0))
  | acquired {s : State ι} {i : ι} {a : ℕ} {now : ℚ} {b : TokenBucket}
      (hi : s.threads i = .acquiring a) (hnow : s.clock ≤ now)
      (hb : s.bucket.tryAcquire c now = (b, none)) :
      Step c maxConnectionRetries (.lock i now) s
        ({ s with bucket := b, clock := now, taken := s.taken ++ [now] }.set i (.sending a now))
  | wait {s : State ι} {i : ι} {a : ℕ} {now seconds : ℚ} {b : TokenBucket}
      (hi : s.threads i = .acquiring a) (hnow : s.clock ≤ now)
      (hb : s.bucket.tryAcquire c now = (b, some seconds)) :
      Step c maxConnectionRetries (.lock i now) s
        ({ s with bucket := b, clock := now }.set i (.waiting a seconds))
  | wake {s : State ι} {i : ι} {a : ℕ} {seconds : ℚ} (hi : s.threads i = .waiting a seconds) :
      Step c maxConnectionRetries (.wake i false) s (s.set i (.acquiring a))
  | abort {s : State ι} {i : ι} {a : ℕ} {seconds : ℚ} (hi : s.threads i = .waiting a seconds) :
      Step c maxConnectionRetries (.wake i true) s (s.set i .idle)
  | respond {s : State ι} {i : ι} {a : ℕ} {token : ℚ} (hi : s.threads i = .sending a token) :
      Step c maxConnectionRetries (.get i false) s
        ({ s with sent := s.sent ++ [token] }.set i .idle)
  | retry {s : State ι} {i : ι} {a : ℕ} {token : ℚ} (hi : s.threads i = .sending a token)
      (ha : a < maxConnectionRetries) :
      Step c maxConnectionRetries (.get i true) s
        ({ s with sent := s.sent ++ [token] }.set i (.backingOff a))
  | giveUp {s : State ι} {i : ι} {a : ℕ} {token : ℚ} (hi : s.threads i = .sending a token)
      (ha : maxConnectionRetries ≤ a) :
      Step c maxConnectionRetries (.get i true) s
        ({ s with sent := s.sent ++ [token] }.set i .idle)
  | again {s : State ι} {i : ι} {a : ℕ} (hi : s.threads i = .backingOff a) :
      Step c maxConnectionRetries (.wake i false) s (s.set i (.acquiring (a + 1)))
  | stop {s : State ι} {i : ι} {a : ℕ} (hi : s.threads i = .backingOff a) :
      Step c maxConnectionRetries (.wake i true) s (s.set i .idle)

/-- All runs of the threads, from a new bucket. -/
def system (ι : Type) [DecidableEq ι] (c : RateLimit) (maxConnectionRetries : ℕ) :
    TransitionSystem (State ι) (Label ι) where
  init s := ∃ now, s = ⟨.new c now, now, fun _ => .idle, [], []⟩
  step := Step c maxConnectionRetries

/-! ### The invariant -/

/-- The time of the token a thread holds and has not used yet. -/
def Thread.token? : Thread → Option ℚ
  | .sending _ token => some token
  | _ => none

/-- The tokens held that satisfy `p`, over all threads. -/
def held [Fintype ι] (p : ℚ → Bool) (threads : ι → Thread) : ℕ :=
  ∑ i, ((threads i).token?.toList.countP p)

/-- The invariant: the bucket is paced, and every token consumed was used for one request or is
held by one thread. -/
structure Inv [Fintype ι] (c : RateLimit) (s : State ι) : Prop where
  paced : Paced c.capacity c.ratePerSecond s.taken s.bucket.tokens s.clock
  refilled : s.bucket.lastRefill = s.clock
  used : ∀ p, s.sent.countP p + held p s.threads = s.taken.countP p

variable [Fintype ι] {c : RateLimit} {m : ℕ} {s s' : State ι}

/-- A thread moves on: the tokens held change by its own. -/
lemma held_update (p : ℚ → Bool) (threads : ι → Thread) (i : ι) (t : Thread) :
    held p (Function.update threads i t) + (threads i).token?.toList.countP p
      = held p threads + t.token?.toList.countP p := by
  unfold held
  rw [← Finset.add_sum_erase _ _ (Finset.mem_univ i),
    ← Finset.add_sum_erase _ _ (Finset.mem_univ i),
    Function.update_self, Finset.sum_congr rfl fun j hj => by
      rw [Function.update_of_ne (Finset.ne_of_mem_erase hj)]]
  omega

omit [DecidableEq ι] in
/-- Under the lock, the bucket is refilled up to now. -/
lemma Inv.refill (h : Inv c s) {now : ℚ} (hnow : s.clock ≤ now) :
    Paced c.capacity c.ratePerSecond s.taken (s.bucket.refill c now).tokens now
      ∧ (s.bucket.refill c now).lastRefill = now := by
  rw [TokenBucket.refill, h.refilled]
  split_ifs with hlt
  · exact ⟨h.paced.refill c.ratePerSecond_nonneg hnow, rfl⟩
  · obtain rfl : now = s.clock := le_antisymm (by linarith) hnow
    exact ⟨h.paced, h.refilled⟩

/-- A thread that held no token and gets none. -/
lemma Inv.move (h : Inv c s) {i : ι} {t : Thread} (hi : (s.threads i).token? = none)
    (ht : t.token? = none) : Inv c (s.set i t) := by
  refine ⟨h.paced, h.refilled, fun p => ?_⟩
  have hheld := held_update p s.threads i t
  simp only [hi, ht, Option.toList_none, List.countP_nil, add_zero] at hheld
  rw [State.set, hheld]
  exact h.used p

/-- A thread uses its token for a request. -/
lemma Inv.send (h : Inv c s) {i : ι} {a : ℕ} {token : ℚ} (hi : s.threads i = .sending a token)
    {t : Thread} (ht : t.token? = none) :
    Inv c ({ s with sent := s.sent ++ [token] }.set i t) := by
  refine ⟨h.paced, h.refilled, fun p => ?_⟩
  have hheld := held_update p s.threads i t
  have hused := h.used p
  rw [hi, ht, Thread.token?, Option.toList_some, Option.toList_none, List.countP_nil,
    add_zero] at hheld
  simp only [State.set, List.countP_append]
  omega

/-- **The step lemma.** -/
lemma inv_step {i : Label ι} (h : Inv c s) (hs : Step c m i s s') : Inv c s' := by
  cases hs with
  | call hi => exact h.move (by rw [hi]; rfl) rfl
  | @acquired _ j a now b hj hnow hb =>
      obtain ⟨hpaced, hlast⟩ := h.refill hnow
      rw [TokenBucket.tryAcquire] at hb
      split_ifs at hb with h1
      · cases hb
        refine ⟨hpaced.take c.ratePerSecond_nonneg h1, hlast, fun p => ?_⟩
        have hheld := held_update p s.threads j (.sending a now)
        have hused := h.used p
        simp only [hj, Thread.token?, Option.toList_none, Option.toList_some, List.countP_nil,
          add_zero] at hheld
        simp only [State.set, List.countP_append]
        omega
      · cases hb
  | @wait _ j a now seconds b hj hnow hb =>
      obtain ⟨hpaced, hlast⟩ := h.refill hnow
      rw [TokenBucket.tryAcquire] at hb
      split_ifs at hb with h1
      · cases hb
      · cases hb
        exact Inv.move (s := { s with bucket := s.bucket.refill c now, clock := now })
          ⟨hpaced, hlast, h.used⟩ (by rw [hj]; rfl) rfl
  | wake hi => exact h.move (by rw [hi]; rfl) rfl
  | abort hi => exact h.move (by rw [hi]; rfl) rfl
  | respond hi => exact h.send hi rfl
  | retry hi _ => exact h.send hi rfl
  | giveUp hi _ => exact h.send hi rfl
  | again hi => exact h.move (by rw [hi]; rfl) rfl
  | stop hi => exact h.move (by rw [hi]; rfl) rfl

/-- The run lemma. -/
lemma inv_of_reach {allowed : Label ι → State ι → Prop}
    (h : (system ι c m).Reach allowed s) : Inv c s := by
  refine h.invariant (I := Inv c) ?_ fun _ _ _ hi _ hs => inv_step hi hs
  rintro _ ⟨now, rfl⟩
  exact ⟨.start (Nat.cast_nonneg _) c.ratePerSecond_nonneg now, rfl, fun p => by
    simp [held, Thread.token?]⟩

/-- **The shared budget**: in every window of time, the requests whose token was taken in it are at
most the bucket size and what the rate allows in the window; and the tokens stay between `0` and
the bucket size. -/
theorem requests_within_budget (c : RateLimit) (maxConnectionRetries : ℕ) (s : State ι)
    (h : (system ι c maxConnectionRetries).Reach anyStep s) :
    (∀ t₀ t₁ : ℚ, t₀ ≤ t₁ →
      (takenIn s.sent t₀ t₁ : ℚ) ≤ c.bucketSize + c.requestsPerMinute / 60 * (t₁ - t₀))
    ∧ 0 ≤ s.bucket.tokens ∧ s.bucket.tokens ≤ c.bucketSize := by
  have hinv := inv_of_reach h
  refine ⟨fun t₀ t₁ ht => ?_, hinv.paced.nonneg, hinv.paced.le_capacity⟩
  have hsent : takenIn s.sent t₀ t₁ ≤ takenIn s.taken t₀ t₁ := by
    have hused := hinv.used fun x => t₀ ≤ x ∧ x ≤ t₁
    simp only [takenIn]
    omega
  calc (takenIn s.sent t₀ t₁ : ℚ) ≤ takenIn s.taken t₀ t₁ := by exact_mod_cast hsent
    _ ≤ c.bucketSize + c.requestsPerMinute / 60 * (t₁ - t₀) := hinv.paced.window t₀ t₁ ht

/-- One request a minute, a bucket of one, two threads: after the request of the first, the second
waits, and the window up to now holds one request. -/
theorem requests_within_budget_two :
    let c : RateLimit := ⟨1, 1, Rat.num_pos.mp Int.one_pos, le_rfl⟩
    ∃ s : State (Fin 2), (system (Fin 2) c 0).Reach anyStep s ∧ s.sent = [0]
      ∧ s.threads 1 = .waiting 0 30 ∧ (takenIn s.sent 0 30 : ℚ) ≤ 1 + 1 / 60 * (30 - 0) := by
  intro c
  let s₀ : State (Fin 2) := ⟨.new c 0, 0, fun _ => .idle, [], []⟩
  have h₀ : (system (Fin 2) c 0).Reach anyStep s₀ := .init ⟨0, rfl⟩
  have step : ∀ {i : Label (Fin 2)} {s s' : State (Fin 2)},
      (system (Fin 2) c 0).Reach anyStep s → Step c 0 i s s' →
      (system (Fin 2) c 0).Reach anyStep s' := fun h hs => h.step trivial hs
  have h₁ := step h₀ (.call (i := 0) rfl)
  have h₂ := step h₁ (.acquired (i := 0) (a := 0) (b := ⟨0, 0⟩) rfl (le_refl 0) (by
    simp [s₀, State.set, TokenBucket.tryAcquire, TokenBucket.refill, TokenBucket.new, c,
      RateLimit.capacity]))
  have h₃ := step h₂ (.respond (i := 0) rfl)
  have h₄ := step h₃ (.call (i := 1) rfl)
  have hwait : TokenBucket.tryAcquire c 30 ⟨0, 0⟩ = (⟨1 / 2, 30⟩, some 30) := by
    norm_num [TokenBucket.tryAcquire, TokenBucket.refill, c, RateLimit.capacity,
      RateLimit.ratePerSecond]
  have h₅ := step h₄ (.wait (i := 1) (a := 0) rfl (by norm_num [s₀, State.set]) hwait)
  exact ⟨_, h₅, rfl, rfl, (requests_within_budget c 0 _ h₅).1 0 30 (by norm_num)⟩

end Budget

end BtcParser
