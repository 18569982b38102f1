import BtcParser.Api.PriceBackfill
import BtcParser.Library.Transition

/-!
Calls of `run_backfill` with one `--start-timestamp`, one after the other.

* `Calls.system`: the runs of such calls, each with its own end, whatever the node answers and
  however each call is ended.
* `notBetween`: no `KeyboardInterrupt` falls between the append of the rows in the flush of the
  loop and the statement that forgets them.
* `Inv`: what then holds at every point of every call.
* `backfill_resumes`: nothing is lost and nothing is written twice.
-/

namespace BtcParser.Prices

/-! ### The system -/

/-- The checkpoint of this start, if there is one. -/
def saved (d : Disk) (start : ℤ) : Option ℤ :=
  d.checkpoint.bind fun row => if row.rangeStart = start then some row.nextTimestamp else none

/-- The export directory, the call that is running, and what is observed of it. -/
structure Calls where
  disk : Disk
  run : Option Run
  /-- the time of the last successful answer to each request -/
  answers : ℤ → Option (Option ℤ)
  /-- where the last call had to continue -/
  resume : ℤ
  /-- the requests of the last call -/
  requests : List ℤ
  /-- the calls that have ended: their end timestamps, and how they ended -/
  returned : List (ℤ × Exit)

/-- The request that an action makes. -/
def Run.request (r : Run) : Action → Option (ℤ × Answer)
  | .go answer _ =>
      if r.pc = .head ∧ r.nextTimestamp ≤ r.endTimestamp then some (r.nextTimestamp, answer)
      else none
  | _ => none

/-- Writing down a request and its answer. -/
def Calls.observe (s : Calls) : Option (ℤ × Answer) → Calls
  | none => s
  | some (t, .price e) => { s with
      requests := s.requests ++ [t]
      answers := Function.update s.answers t (some (e.bind (·.time))) }
  | some (t, _) => { s with requests := s.requests ++ [t] }

namespace Calls

inductive Label
  | call (endTimestamp : ℤ)
  | act (a : Action)
  deriving DecidableEq

/-- What becomes of the session when the running call takes a step. -/
def after (s : Calls) (r : Run) : Disk × Outcome → Calls
  | (d, .running r') => { s with disk := d, run := some r' }
  | (d, .ended exit) => { s with
      disk := d, run := none, returned := s.returned ++ [(r.endTimestamp, exit)] }

def next (start : ℤ) : Label → Calls → Option Calls
  | .call endTimestamp, s =>
      match s.run with
      | some _ => none
      | none => some { s with
          run := some (Run.call start endTimestamp)
          resume := (saved s.disk start).getD start
          requests := [] }
  | .act a, s =>
      match s.run with
      | none => none
      | some r => some ((s.observe (r.request a)).after r (r.act s.disk a))

/-- Calls of the start `start` in a directory without a checkpoint of it. -/
def system (start : ℤ) : TransitionSystem Calls Label where
  init s := (dates s.disk.prices).Nodup ∧ saved s.disk start = none ∧ s.run = none
    ∧ s.requests = [] ∧ s.returned = []
  step l s s' := next start l s = some s'

/-- The rows of the flush of the loop are not interrupted between the append and the statement
that forgets them. -/
def notBetween : Label → Calls → Prop
  | .act .interrupt, s => ∀ r ∈ s.run, r.pc = .flush .clear → r.pendingRows = []
  | _, _ => True

instance : (l : Label) → (s : Calls) → Decidable (notBetween l s)
  | .call _, _ => isTrue trivial
  | .act (.go _ _), _ => isTrue trivial
  | .act .interrupt, s => inferInstanceAs (Decidable (∀ r ∈ s.run, _))
  | .act .kill, _ => isTrue trivial

end Calls

/-! ### The invariant -/

/-- The rows that are pending and not yet in the file. -/
def Run.unwritten (r : Run) : List PriceRow :=
  match r.pc with
  | .flush .clear => []
  | .final .clear _ => []
  | _ => r.pendingRows

/-- The request of `t` has been answered, and the row of its answer is among `rows`. -/
def Written (answers : ℤ → Option (Option ℤ)) (rows : List PriceRow) (t : ℤ) : Prop :=
  ∃ a, answers t = some a ∧ ∀ d, a = some d → d ∈ dates rows

/-- Every minute from `start` and below `c` is written. -/
def Covered (start : ℤ) (answers : ℤ → Option (Option ℤ)) (rows : List PriceRow) (c : ℤ) : Prop :=
  ∃ n : ℕ, c = start + stepSeconds * n
    ∧ ∀ k < n, Written answers rows (start + stepSeconds * (k : ℤ))

/-- The first `m` requests of a call that continues at `resume`. -/
def minutes (resume : ℤ) (m : ℕ) : List ℤ :=
  (List.range m).map fun i : ℕ => resume + stepSeconds * (i : ℤ)

/-- What the answer in hand has to do with the requests. -/
def Asked (answers : ℤ → Option (Option ℤ)) (rows : List PriceRow) (r : Run) : Prop :=
  match r.pc with
  | .entry e => answers r.nextTimestamp = some e.time
  | .added t => answers r.nextTimestamp = some (some t)
  | .advance => Written answers rows r.nextTimestamp
  | _ => True

/-- How many requests there were. -/
def Counted (resume : ℤ) (requests : List ℤ) (r : Run) : Prop :=
  ∃ m : ℕ, r.nextTimestamp = resume + stepSeconds * m ∧
    match r.pc with
    | .entry _ => requests = minutes resume (m + 1)
    | .added _ => requests = minutes resume (m + 1)
    | .advance => requests = minutes resume (m + 1)
    | .final _ _ => requests = minutes resume m ∨ requests = minutes resume (m + 1)
    | _ => requests = minutes resume m

/-- The set of dates is that of the rows, written and pending. -/
def Known (rows : List PriceRow) (r : Run) : Prop :=
  match r.pc with
  | .final _ _ => True
  | .added t => ∀ d, d ∈ dates rows ↔ d = t ∨ d ∈ r.existingDates
  | _ => ∀ d, d ∈ dates rows ↔ d ∈ r.existingDates

/-- A call that has read its files. -/
structure Working (start : ℤ) (d : Disk) (answers : ℤ → Option (Option ℤ)) (resume : ℤ)
    (requests : List ℤ) (r : Run) : Prop where
  nodup : (dates (d.prices ++ r.unwritten)).Nodup
  covered : Covered start answers (d.prices ++ r.unwritten) r.nextTimestamp
  saved_le : ∀ c, saved d start = some c → c ≤ r.nextTimestamp
  asked : Asked answers (d.prices ++ r.unwritten) r
  counted : Counted resume requests r
  known : Known (d.prices ++ r.unwritten) r
  cleared : r.pc = .flush .save ∨ (∃ x, r.pc = .final .save x) → r.pendingRows = []
  finished : ∀ f, r.pc = .final f (.code 0) → r.endTimestamp < r.nextTimestamp

/-- A call that has not read its files. -/
structure Starting (start : ℤ) (d : Disk) (resume : ℤ) (requests : List ℤ) (r : Run) : Prop where
  noPending : r.pendingRows = []
  noRequests : requests = []
  resumes : resume = (saved d start).getD start
  atResume : r.pc = .loaded → r.nextTimestamp = resume

/-- A call at the point where it is. -/
def Run.Inv (start : ℤ) (d : Disk) (answers : ℤ → Option (Option ℤ)) (resume : ℤ)
    (requests : List ℤ) (r : Run) : Prop :=
  r.startTimestamp = start ∧
    if r.pc = .called ∨ r.pc = .loaded then Starting start d resume requests r
    else Working start d answers resume requests r

/-- What holds at every point of the calls. -/
structure Inv (start : ℤ) (s : Calls) : Prop where
  nodup : (dates s.disk.prices).Nodup
  durable : ∀ c, saved s.disk start = some c → Covered start s.answers s.disk.prices c
  returned : ∀ e, (e, Exit.code 0) ∈ s.returned → ∃ c, saved s.disk start = some c ∧ e < c
  requests : ∃ m, s.requests = minutes s.resume m
  run : ∀ r, s.run = some r → r.Inv start s.disk s.answers s.resume s.requests

/-! ### Lemmas on the parts -/

@[simp] lemma dates_append (l l' : List PriceRow) : dates (l ++ l') = dates l ++ dates l' :=
  List.filterMap_append

@[simp] lemma dates_nil : dates [] = [] := rfl

lemma loadCheckpoint_eq (d : Disk) (start : ℤ) :
    loadCheckpoint d start = (saved d start).getD start := by
  rw [loadCheckpoint, saved]
  cases d.checkpoint with
  | none => rfl
  | some row => by_cases h : row.rangeStart = start <;> simp [h]

lemma saved_saveCheckpoint (d : Disk) (start c : ℤ) :
    saved (saveCheckpoint d start c) start = some c := by simp [saved, saveCheckpoint]

lemma mem_existingDates {prices : List PriceRow} {ds : Finset ℤ}
    (h : existingDates prices = some ds) (t : ℤ) : t ∈ dates prices ↔ t ∈ ds := by
  rw [existingDates] at h
  split_ifs at h
  cases h
  exact List.mem_toFinset.symm

variable {start : ℤ} {answers : ℤ → Option (Option ℤ)} {rows rows' : List PriceRow}

lemma Written.mono {t : ℤ} (h : Written answers rows t) (hsub : ∀ d ∈ dates rows, d ∈ dates rows') :
    Written answers rows' t := by
  obtain ⟨a, ha, hd⟩ := h
  exact ⟨a, ha, fun d hda => hsub d (hd d hda)⟩

lemma Covered.mono {c : ℤ} (h : Covered start answers rows c)
    (hsub : ∀ d ∈ dates rows, d ∈ dates rows') : Covered start answers rows' c := by
  obtain ⟨n, hn, hk⟩ := h
  exact ⟨n, hn, fun k hlt => (hk k hlt).mono hsub⟩

/-- A later answer does not matter for the minutes before it. -/
lemma Covered.answered {c t : ℤ} (h : Covered start answers rows c) (hc : c ≤ t)
    (a : Option (Option ℤ)) : Covered start (Function.update answers t a) rows c := by
  obtain ⟨n, hn, hk⟩ := h
  refine ⟨n, hn, fun k hlt => ?_⟩
  obtain ⟨b, hb, hd⟩ := hk k hlt
  refine ⟨b, ?_, hd⟩
  have hne : start + stepSeconds * (k : ℤ) ≠ t := by
    rw [stepSeconds] at hn ⊢
    omega
  rw [Function.update_of_ne hne, hb]

/-- One minute more. -/
lemma Covered.advance {c : ℤ} (h : Covered start answers rows c) (hw : Written answers rows c) :
    Covered start answers rows (c + stepSeconds) := by
  obtain ⟨n, rfl, hk⟩ := h
  refine ⟨n + 1, by push_cast; ring, fun k hlt => ?_⟩
  rcases Nat.lt_succ_iff_lt_or_eq.mp hlt with h | rfl
  · exact hk k h
  · exact hw

lemma covered_start : Covered start answers rows start := ⟨0, by simp, fun k hk => by omega⟩

lemma minutes_succ (resume : ℤ) (m : ℕ) :
    minutes resume (m + 1) = minutes resume m ++ [resume + stepSeconds * m] := by
  rw [minutes, minutes, List.range_succ, List.map_append]
  rfl

/-! ### One step -/

section Step

variable {s : Calls} {d : Disk} {resume : ℤ} {requests : List ℤ}

lemma Inv.moved (hs : Inv start s) {r : Run}
    (h : r.Inv start s.disk s.answers s.resume s.requests) : Inv start { s with run := some r } :=
  ⟨hs.nodup, hs.durable, hs.returned, hs.requests, fun _ hr => by cases hr; exact h⟩

lemma Inv.closed (hs : Inv start s) (e : ℤ) (exit : Exit)
    (h : exit = .code 0 → ∃ c, saved s.disk start = some c ∧ e < c) :
    Inv start { s with run := none, returned := s.returned ++ [(e, exit)] } := by
  refine ⟨hs.nodup, hs.durable, fun e' he' => ?_, hs.requests, fun _ hr => nomatch hr⟩
  rcases List.mem_append.mp he' with he' | he'
  · exact hs.returned e' he'
  · cases List.mem_singleton.mp he'
    exact h rfl

/-- The rows of a flush reach the file. -/
lemma Inv.written (hs : Inv start s) {r r' : Run}
    (h : Working start s.disk s.answers s.resume s.requests r) (hun : r.unwritten = r.pendingRows)
    (h' : r'.Inv start { s.disk with prices := s.disk.prices ++ r.pendingRows } s.answers s.resume
      s.requests) :
    Inv start { s with
      disk := { s.disk with prices := s.disk.prices ++ r.pendingRows }, run := some r' } := by
  have hnodup := h.nodup
  rw [hun] at hnodup
  refine ⟨hnodup, fun c hc => (hs.durable c hc).mono fun t ht => ?_, hs.returned, hs.requests,
    fun _ hr => by cases hr; exact h'⟩
  rw [dates_append]
  exact List.mem_append_left _ ht

/-- A checkpoint is saved behind the rows it counts on. -/
lemma Inv.checkpointed (hs : Inv start s) {r : Run} (hstart : r.startTimestamp = start)
    (h : Working start s.disk s.answers s.resume s.requests r)
    (hclear : r.unwritten = []) (run : Option Run)
    (h' : ∀ r', run = some r' → r'.Inv start (saveCheckpoint s.disk start r.nextTimestamp) s.answers
      s.resume s.requests) :
    Inv start { s with
      disk := saveCheckpoint s.disk r.startTimestamp r.nextTimestamp, run := run } := by
  subst hstart
  have hcovered := h.covered
  rw [hclear, List.append_nil] at hcovered
  refine ⟨hs.nodup, fun c hc => ?_, fun e he => ?_, hs.requests, h'⟩
  · rw [saved_saveCheckpoint] at hc
    cases hc
    exact hcovered
  · obtain ⟨c, hc, hlt⟩ := hs.returned e he
    exact ⟨_, saved_saveCheckpoint _ _ _, lt_of_lt_of_le hlt (h.saved_le c hc)⟩

lemma minutes_next {r : Run} (h : Working start d answers resume requests r) (hpc : r.pc = .head) :
    ∃ m : ℕ, r.nextTimestamp = resume + stepSeconds * m
      ∧ requests ++ [r.nextTimestamp] = minutes resume (m + 1) := by
  obtain ⟨m, hm, hreq⟩ := h.counted
  rw [hpc] at hreq
  exact ⟨m, hm, by rw [minutes_succ, hreq, hm]⟩

/-- A request and its answer are written down. -/
lemma Inv.requested (hs : Inv start s) {r r' : Run}
    (h : Working start s.disk s.answers s.resume s.requests r) (hpc : r.pc = .head)
    (answer : Answer)
    (h' : let t := s.observe (some (r.nextTimestamp, answer))
      r'.Inv start t.disk t.answers t.resume t.requests) :
    Inv start { s.observe (some (r.nextTimestamp, answer)) with run := some r' } := by
  obtain ⟨m, hm, hrequests⟩ := minutes_next h hpc
  cases answer with
  | price e =>
      refine ⟨hs.nodup, fun c hc => (hs.durable c hc).answered (h.saved_le c hc) _, hs.returned,
        ⟨m + 1, hrequests⟩, fun _ hr => by cases hr; exact h'⟩
  | rateLimited =>
      exact ⟨hs.nodup, hs.durable, hs.returned, ⟨m + 1, hrequests⟩,
        fun _ hr => by cases hr; exact h'⟩
  | fetchError =>
      exact ⟨hs.nodup, hs.durable, hs.returned, ⟨m + 1, hrequests⟩,
        fun _ hr => by cases hr; exact h'⟩

lemma Counted.final {r : Run} (h : Counted resume requests r) (exit : Exit) :
    Counted resume requests { r with pc := .final .write exit } := by
  obtain ⟨m, hm, hreq⟩ := h
  refine ⟨m, hm, ?_⟩
  cases hpc : r.pc <;> rw [hpc] at hreq <;> first | exact .inl hreq | exact .inr hreq | exact hreq

/-- A call whose pending rows are not written goes into the `finally` block. -/
lemma Working.final {r : Run} (h : Working start d answers resume requests r)
    (hun : r.unwritten = r.pendingRows) (exit : Exit)
    (hexit : exit = .code 0 → r.endTimestamp < r.nextTimestamp) :
    Working start d answers resume requests { r with pc := .final .write exit } := by
  have hnodup := h.nodup
  have hcovered := h.covered
  rw [hun] at hnodup hcovered
  refine ⟨hnodup, hcovered, h.saved_le, trivial, h.counted.final exit, trivial, fun hc => ?_,
    fun f hf => ?_⟩
  · rcases hc with hc | ⟨x, hc⟩ <;> cases hc
  · cases hf
    exact hexit rfl

lemma Run.Inv.starting {r : Run} (h : r.Inv start d answers resume requests)
    (hpc : r.pc = .called ∨ r.pc = .loaded) : Starting start d resume requests r := by
  have h2 := h.2
  rwa [if_pos hpc] at h2

lemma Run.Inv.working {r : Run} (h : r.Inv start d answers resume requests)
    (hpc : ¬ (r.pc = .called ∨ r.pc = .loaded)) : Working start d answers resume requests r := by
  have h2 := h.2
  rwa [if_neg hpc] at h2

lemma Working.inv {r : Run} (h : Working start d answers resume requests r)
    (hstart : r.startTimestamp = start) (hpc : ¬ (r.pc = .called ∨ r.pc = .loaded)) :
    r.Inv start d answers resume requests := by
  refine ⟨hstart, ?_⟩
  rwa [if_neg hpc]

/-- A `KeyboardInterrupt`. -/
lemma inv_interrupt (hs : Inv start s) {r : Run} (hr : s.run = some r)
    (hbetween : r.pc = .flush .clear → r.pendingRows = []) :
    Inv start (s.after r (s.disk, r.interrupt)) := by
  have hrun := hs.run r hr
  have hraised : Inv start (s.after r (s.disk, .ended .raised)) := hs.closed _ _ nofun
  have hloop : ¬ (r.pc = .called ∨ r.pc = .loaded) → r.unwritten = r.pendingRows →
      Inv start (s.after r (s.disk, .running { r with pc := .final .write .raised })) :=
    fun hpc hun => hs.moved (((hrun.working hpc).final hun .raised nofun).inv hrun.1 (by simp))
  rw [Run.interrupt]
  cases hpc : r.pc with
  | called => exact hraised
  | loaded => exact hraised
  | final f x => exact hraised
  | flush f =>
      refine hloop (by simp [hpc]) ?_
      cases f with
      | clear => rw [Run.unwritten, hpc, hbetween hpc]
      | write => rw [Run.unwritten, hpc]
      | save => rw [Run.unwritten, hpc]
  | _ => exact hloop (by simp [hpc]) (by rw [Run.unwritten, hpc])

/-- The files are read. -/
lemma working_loaded (hs : Inv start s) {r : Run} (hpc : r.pc = .loaded)
    (h : Starting start s.disk s.resume s.requests r) {ds : Finset ℤ}
    (hds : existingDates s.disk.prices = some ds) :
    Working start s.disk s.answers s.resume s.requests
      { r with existingDates := ds, pc := .head } := by
  have hnext : r.nextTimestamp = (saved s.disk start).getD start :=
    (h.atResume hpc).trans h.resumes
  have hrows : s.disk.prices ++ r.pendingRows = s.disk.prices := by
    rw [h.noPending, List.append_nil]
  refine ⟨?_, ?_, fun c hc => ?_, trivial, ⟨0, ?_, h.noRequests⟩, fun t => ?_, ?_, nofun⟩
  · change (dates (s.disk.prices ++ r.pendingRows)).Nodup
    rw [hrows]
    exact hs.nodup
  · change Covered start s.answers (s.disk.prices ++ r.pendingRows) r.nextTimestamp
    rw [hrows, hnext]
    cases hsaved : saved s.disk start with
    | none => exact covered_start
    | some c => exact hs.durable c hsaved
  · rw [hc] at hnext
    exact hnext.ge
  · simpa using h.atResume hpc
  · change t ∈ dates (s.disk.prices ++ r.pendingRows) ↔ t ∈ ds
    rw [hrows]
    exact mem_existingDates hds t
  · rintro (hc | ⟨x, hc⟩) <;> cases hc

variable {r : Run}

/-- What a step inside the loop keeps: no file changes, and no row is forgotten. -/
lemma Working.step (h : Working start d answers resume requests r) {r' : Run}
    (hun : r.unwritten = r.pendingRows) (hun' : r'.unwritten = r'.pendingRows)
    (hpending : r'.pendingRows = r.pendingRows) (hnext : r'.nextTimestamp = r.nextTimestamp)
    (hasked : Asked answers (d.prices ++ r.pendingRows) r')
    (hcounted : Counted resume requests r') (hknown : Known (d.prices ++ r.pendingRows) r')
    (hclear : ¬ (r'.pc = .flush .save ∨ ∃ x, r'.pc = .final .save x))
    (hfinal : ∀ f x, r'.pc ≠ .final f x) :
    Working start d answers resume requests r' := by
  have hrows : d.prices ++ r'.unwritten = d.prices ++ r.pendingRows := by rw [hun', hpending]
  have hnodup := h.nodup
  have hcovered := h.covered
  rw [hun] at hnodup hcovered
  refine ⟨?_, ?_, ?_, ?_, hcounted, ?_, fun hc => absurd hc hclear,
    fun f hf => absurd hf (hfinal f _)⟩
  · rwa [hrows]
  · rwa [hrows, hnext]
  · rw [hnext]
    exact h.saved_le
  · rwa [hrows]
  · rwa [hrows]

/-- A request that fails. -/
lemma working_failed (h : Working start d answers resume requests r) (hpc : r.pc = .head)
    (exit : Exit) (hexit : exit ≠ .code 0) :
    Working start d answers resume (requests ++ [r.nextTimestamp])
      { r with pc := .final .write exit } := by
  obtain ⟨m, hm, hreq⟩ := minutes_next h hpc
  have hfinal := h.final (by rw [Run.unwritten, hpc]) exit fun hx => absurd hx hexit
  exact ⟨hfinal.nodup, hfinal.covered, hfinal.saved_le, trivial, ⟨m, hm, .inr hreq⟩, trivial,
    hfinal.cleared, hfinal.finished⟩

/-- A request that is answered. -/
lemma working_answered (h : Working start d answers resume requests r) (hpc : r.pc = .head)
    (e : Option PriceEntry) :
    Working start d (Function.update answers r.nextTimestamp (some (e.bind (·.time)))) resume
      (requests ++ [r.nextTimestamp])
      { r with pc := match e with
        | none => .advance
        | some e => .entry e } := by
  have hun : r.unwritten = r.pendingRows := by rw [Run.unwritten, hpc]
  obtain ⟨m, hm, hreq⟩ := minutes_next h hpc
  have hnodup := h.nodup
  have hcovered := h.covered.answered le_rfl (some (e.bind (·.time)))
  have hknown := h.known
  rw [hun] at hnodup hcovered
  rw [Known, hpc, hun] at hknown
  cases e with
  | none =>
      refine ⟨hnodup, hcovered, h.saved_le, ⟨none, Function.update_self .., nofun⟩, ⟨m, hm, hreq⟩,
        hknown, ?_, nofun⟩
      rintro (hc | ⟨x, hc⟩) <;> cases hc
  | some e =>
      refine ⟨hnodup, hcovered, h.saved_le, Function.update_self .., ⟨m, hm, hreq⟩, hknown, ?_,
        nofun⟩
      rintro (hc | ⟨x, hc⟩) <;> cases hc

/-- A price whose row there is already, or that carries no time. -/
lemma working_skip (h : Working start d answers resume requests r) {e : PriceEntry}
    (hpc : r.pc = .entry e) (htime : ∀ t, e.time = some t → t ∈ r.existingDates) :
    Working start d answers resume requests { r with pc := .advance } := by
  have hun : r.unwritten = r.pendingRows := by rw [Run.unwritten, hpc]
  obtain ⟨m, hm, hreq⟩ := h.counted
  have hasked := h.asked
  have hknown := h.known
  rw [hpc] at hreq
  rw [Asked, hpc] at hasked
  rw [Known, hpc, hun] at hknown
  refine h.step hun rfl rfl rfl ?_ ⟨m, hm, hreq⟩ hknown (by simp) nofun
  exact ⟨_, hasked, fun t ht => (hknown t).mpr (htime t ht)⟩

/-- A price with a new time. -/
lemma working_append (h : Working start d answers resume requests r) {e : PriceEntry}
    (hpc : r.pc = .entry e) {t : ℤ} (htime : e.time = some t) (hnew : t ∉ r.existingDates) :
    Working start d answers resume requests
      { r with pendingRows := r.pendingRows ++ [⟨some t, e.usd, e.eur⟩], pc := .added t } := by
  have hun : r.unwritten = r.pendingRows := by rw [Run.unwritten, hpc]
  obtain ⟨m, hm, hreq⟩ := h.counted
  have hasked := h.asked
  have hknown := h.known
  have hnodup := h.nodup
  have hcovered := h.covered
  rw [hpc] at hreq
  rw [Asked, hpc] at hasked
  rw [hun] at hnodup hcovered
  rw [Known, hpc, hun] at hknown
  have hdates : dates (d.prices ++ (r.pendingRows ++ [⟨some t, e.usd, e.eur⟩]))
      = dates (d.prices ++ r.pendingRows) ++ [t] := by
    rw [← List.append_assoc, dates_append]
    rfl
  refine ⟨?_, hcovered.mono fun u hu => ?_, h.saved_le, hasked.trans (congrArg some htime),
    ⟨m, hm, hreq⟩, fun u => ?_, ?_, nofun⟩
  · change (dates (d.prices ++ (r.pendingRows ++ [⟨some t, e.usd, e.eur⟩]))).Nodup
    rw [hdates]
    refine hnodup.append (List.nodup_singleton t) (List.disjoint_singleton.mpr fun ht => hnew ?_)
    exact (hknown t).mp ht
  · change u ∈ dates (d.prices ++ (r.pendingRows ++ [⟨some t, e.usd, e.eur⟩]))
    rw [hdates]
    exact List.mem_append_left _ hu
  · change u ∈ dates (d.prices ++ (r.pendingRows ++ [⟨some t, e.usd, e.eur⟩])) ↔ _
    rw [hdates, List.mem_append, List.mem_singleton, hknown u, or_comm]
  · rintro (hc | ⟨x, hc⟩) <;> cases hc

lemma working_added (h : Working start d answers resume requests r) {t : ℤ}
    (hpc : r.pc = .added t) : Working start d answers resume requests
      { r with existingDates := insert t r.existingDates, pc := .advance } := by
  have hun : r.unwritten = r.pendingRows := by rw [Run.unwritten, hpc]
  obtain ⟨m, hm, hreq⟩ := h.counted
  have hasked := h.asked
  have hknown := h.known
  rw [hpc] at hreq
  rw [Asked, hpc] at hasked
  rw [Known, hpc, hun] at hknown
  refine h.step hun rfl rfl rfl ?_ ⟨m, hm, hreq⟩ (fun u => ?_) (by simp) nofun
  · refine ⟨_, hasked, fun u hu => ?_⟩
    cases hu
    exact (hknown t).mpr (.inl rfl)
  · rw [hknown u, Finset.mem_insert]

/-- The timestamp moves on. -/
lemma working_advance (h : Working start d answers resume requests r) (hpc : r.pc = .advance) :
    Working start d answers resume requests { r with
      nextTimestamp := r.nextTimestamp + stepSeconds
      stepsSinceFlush := r.stepsSinceFlush + 1
      pc := .advanced } := by
  have hun : r.unwritten = r.pendingRows := by rw [Run.unwritten, hpc]
  obtain ⟨m, hm, hreq⟩ := h.counted
  have hasked := h.asked
  have hknown := h.known
  have hnodup := h.nodup
  have hcovered := h.covered
  rw [hpc] at hreq
  rw [Asked, hpc, hun] at hasked
  rw [hun] at hnodup hcovered
  rw [Known, hpc, hun] at hknown
  refine ⟨hnodup, hcovered.advance hasked, fun c hc => ?_, trivial, ⟨m + 1, ?_, hreq⟩, hknown, ?_,
    nofun⟩
  · have hle := h.saved_le c hc
    simp only [stepSeconds]
    omega
  · simp only [hm]
    push_cast
    ring
  · rintro (hc | ⟨x, hc⟩) <;> cases hc

/-- Whether to flush is decided. -/
lemma working_advanced (h : Working start d answers resume requests r) (hpc : r.pc = .advanced)
    {pc : Pc} (hcase : pc = .head ∨ pc = .flush .write) :
    Working start d answers resume requests { r with pc := pc } := by
  have hun : r.unwritten = r.pendingRows := by rw [Run.unwritten, hpc]
  obtain ⟨m, hm, hreq⟩ := h.counted
  have hknown := h.known
  rw [hpc] at hreq
  rw [Known, hpc, hun] at hknown
  rcases hcase with rfl | rfl
  · exact h.step hun rfl rfl rfl trivial ⟨m, hm, hreq⟩ hknown (by simp) nofun
  · exact h.step hun rfl rfl rfl trivial ⟨m, hm, hreq⟩ hknown (by simp) nofun

/-- The rows of a flush reach the file. -/
lemma working_written (h : Working start d answers resume requests r) {pc : Pc}
    (hcase : r.pc = .flush .write ∧ pc = .flush .clear
      ∨ ∃ x, r.pc = .final .write x ∧ pc = .final .clear x) :
    Working start { d with prices := d.prices ++ r.pendingRows } answers resume requests
      { r with pc := pc } := by
  obtain ⟨m, hm, hreq⟩ := h.counted
  have hnodup := h.nodup
  have hcovered := h.covered
  have hknown := h.known
  have hfinished := h.finished
  rcases hcase with ⟨hpc, rfl⟩ | ⟨x, hpc, rfl⟩
  · have hun : r.unwritten = r.pendingRows := by rw [Run.unwritten, hpc]
    rw [hpc] at hreq
    rw [hun] at hnodup hcovered
    rw [Known, hpc, hun] at hknown
    have hrows : (d.prices ++ r.pendingRows) ++ [] = d.prices ++ r.pendingRows := List.append_nil _
    refine ⟨hrows.symm ▸ hnodup, hrows.symm ▸ hcovered, h.saved_le, trivial, ⟨m, hm, hreq⟩, ?_, ?_,
      nofun⟩
    · intro u
      change u ∈ dates ((d.prices ++ r.pendingRows) ++ []) ↔ _
      rw [hrows]
      exact hknown u
    · rintro (hc | ⟨x, hc⟩) <;> cases hc
  · have hun : r.unwritten = r.pendingRows := by rw [Run.unwritten, hpc]
    rw [hpc] at hreq
    rw [hun] at hnodup hcovered
    have hrows : (d.prices ++ r.pendingRows) ++ [] = d.prices ++ r.pendingRows := List.append_nil _
    refine ⟨hrows.symm ▸ hnodup, hrows.symm ▸ hcovered, h.saved_le, trivial, ⟨m, hm, hreq⟩, trivial,
      ?_, fun f hf => ?_⟩
    · rintro (hc | ⟨x, hc⟩) <;> cases hc
    · cases hf
      exact hfinished _ hpc

/-- What is written is forgotten. -/
lemma working_cleared (h : Working start d answers resume requests r) {pc : Pc}
    (hcase : r.pc = .flush .clear ∧ pc = .flush .save
      ∨ ∃ x, r.pc = .final .clear x ∧ pc = .final .save x) :
    Working start d answers resume requests
      { r with pendingRows := [], stepsSinceFlush := 0, pc := pc } := by
  obtain ⟨m, hm, hreq⟩ := h.counted
  have hnodup := h.nodup
  have hcovered := h.covered
  have hknown := h.known
  have hfinished := h.finished
  rcases hcase with ⟨hpc, rfl⟩ | ⟨x, hpc, rfl⟩
  · have hun : r.unwritten = [] := by rw [Run.unwritten, hpc]
    rw [hpc] at hreq
    rw [hun] at hnodup hcovered
    rw [Known, hpc, hun] at hknown
    exact ⟨hnodup, hcovered, h.saved_le, trivial, ⟨m, hm, hreq⟩, hknown, fun _ => rfl, nofun⟩
  · have hun : r.unwritten = [] := by rw [Run.unwritten, hpc]
    rw [hpc] at hreq
    rw [hun] at hnodup hcovered
    refine ⟨hnodup, hcovered, h.saved_le, trivial, ⟨m, hm, hreq⟩, trivial, fun _ => rfl,
      fun f hf => ?_⟩
    cases hf
    exact hfinished _ hpc

/-- Back in the loop after a flush. -/
lemma working_saved (h : Working start d answers resume requests r) (hpc : r.pc = .flush .save) :
    Working start (saveCheckpoint d start r.nextTimestamp) answers resume requests
      { r with pc := .head } := by
  have hun : r.unwritten = r.pendingRows := by rw [Run.unwritten, hpc]
  obtain ⟨m, hm, hreq⟩ := h.counted
  have hnodup := h.nodup
  have hcovered := h.covered
  have hknown := h.known
  rw [hpc] at hreq
  rw [hun] at hnodup hcovered
  rw [Known, hpc, hun] at hknown
  refine ⟨hnodup, hcovered, fun c hc => ?_, trivial, ⟨m, hm, hreq⟩, hknown, ?_, nofun⟩
  · rw [saved_saveCheckpoint] at hc
    cases hc
    exact le_rfl
  · rintro (hc | ⟨x, hc⟩) <;> cases hc

/-- The call reads its checkpoint: it has nothing to do, or begins where it says. -/
lemma inv_called (hs : Inv start s) (hr : s.run = some r) (hpc : r.pc = .called)
    (answer : Answer) (elapsed : Bool) : Inv start (s.after r (r.go answer elapsed s.disk)) := by
  have hrun := hs.run r hr
  have hstarting := hrun.starting (.inl hpc)
  rw [Run.go.eq_def, hpc]
  simp only [loadCheckpoint_eq, hrun.1]
  split_ifs with hlt hdone
  · exact hs.closed _ _ nofun
  · refine hs.closed _ _ fun _ => ?_
    cases hsaved : saved s.disk start with
    | none =>
        rw [hsaved, Option.getD_none] at hdone
        omega
    | some c => exact ⟨c, rfl, by rwa [hsaved, Option.getD_some] at hdone⟩
  · refine hs.moved ⟨rfl, ?_⟩
    rw [if_pos (.inr rfl)]
    exact ⟨hstarting.noPending, hstarting.noRequests, hstarting.resumes,
      fun _ => hstarting.resumes.symm⟩

/-- The head of the loop: a request, by its answer, or the end. -/
lemma inv_head (hs : Inv start s) (hr : s.run = some r) (hpc : r.pc = .head) (answer : Answer)
    (elapsed : Bool) : Inv start ((s.observe (r.request (.go answer elapsed))).after r
      (r.go answer elapsed s.disk)) := by
  have hrun := hs.run r hr
  have hw := hrun.working (by simp [hpc])
  have hun : r.unwritten = r.pendingRows := by rw [Run.unwritten, hpc]
  rw [Run.go.eq_def, hpc]
  simp only
  split_ifs with hle
  · have hreq : r.request (.go answer elapsed) = some (r.nextTimestamp, answer) := by
      rw [Run.request, if_pos ⟨hpc, hle⟩]
    rw [hreq]
    cases answer with
    | rateLimited =>
        refine hs.requested hw hpc .rateLimited ?_
        exact (working_failed hw hpc (.code exitRateLimited) (by decide)).inv hrun.1 (by simp)
    | fetchError =>
        refine hs.requested hw hpc .fetchError ?_
        exact (working_failed hw hpc (.code 1) (by decide)).inv hrun.1 (by simp)
    | price e =>
        cases e with
        | none =>
            refine hs.requested hw hpc (.price none) ?_
            exact (working_answered hw hpc none).inv hrun.1 (by simp)
        | some e =>
            refine hs.requested hw hpc (.price (some e)) ?_
            exact (working_answered hw hpc (some e)).inv hrun.1 (by simp)
  · have hreq : r.request (.go answer elapsed) = none := by
      rw [Run.request, if_neg fun h => hle h.2]
    rw [hreq]
    exact hs.moved ((hw.final hun _ fun _ => by omega).inv hrun.1 (by simp))

/-- An entry has been answered: kept, unless its time is missing or known. -/
lemma inv_entry {e : PriceEntry} (hs : Inv start s) (hr : s.run = some r) (hpc : r.pc = .entry e)
    (answer : Answer) (elapsed : Bool) : Inv start (s.after r (r.go answer elapsed s.disk)) := by
  have hrun := hs.run r hr
  have hw := hrun.working (by simp [hpc])
  rw [Run.go.eq_def, hpc]
  simp only
  cases htime : e.time with
  | none => exact hs.moved ((working_skip hw hpc (by simp [htime])).inv hrun.1 (by simp))
  | some t =>
      by_cases hmem : t ∈ r.existingDates
      · simp only [hmem, if_true]
        exact hs.moved ((working_skip hw hpc fun u hu => by
          rw [htime, Option.some.injEq] at hu
          exact hu ▸ hmem).inv hrun.1 (by simp))
      · simp only [hmem, if_false]
        exact hs.moved ((working_append hw hpc htime hmem).inv hrun.1 (by simp))

/-- A flush inside the loop. -/
lemma inv_flush {f : Flush} (hs : Inv start s) (hr : s.run = some r) (hpc : r.pc = .flush f)
    (answer : Answer) (elapsed : Bool) : Inv start (s.after r (r.go answer elapsed s.disk)) := by
  have hrun := hs.run r hr
  have hw := hrun.working (by simp [hpc])
  rw [Run.go.eq_def, hpc]
  cases f with
  | write =>
      exact hs.written hw (by rw [Run.unwritten, hpc])
        ((working_written hw (.inl ⟨hpc, rfl⟩)).inv hrun.1 (by simp))
  | clear => exact hs.moved ((working_cleared hw (.inl ⟨hpc, rfl⟩)).inv hrun.1 (by simp))
  | save =>
      refine hs.checkpointed hrun.1 hw ?_ _ fun r' hr' => ?_
      · rw [Run.unwritten, hpc]
        exact hw.cleared (.inl hpc)
      · cases hr'
        exact (working_saved hw hpc).inv hrun.1 (by simp)

/-- The flush of the `finally` block, with which the call ends. -/
lemma inv_final {f : Flush} {x : Exit} (hs : Inv start s) (hr : s.run = some r)
    (hpc : r.pc = .final f x) (answer : Answer) (elapsed : Bool) :
    Inv start (s.after r (r.go answer elapsed s.disk)) := by
  have hrun := hs.run r hr
  have hw := hrun.working (by simp [hpc])
  rw [Run.go.eq_def, hpc]
  cases f with
  | write =>
      exact hs.written hw (by rw [Run.unwritten, hpc])
        ((working_written hw (.inr ⟨x, hpc, rfl⟩)).inv hrun.1 (by simp))
  | clear => exact hs.moved ((working_cleared hw (.inr ⟨x, hpc, rfl⟩)).inv hrun.1 (by simp))
  | save =>
      have hdone := hs.checkpointed hrun.1 hw (by
        rw [Run.unwritten, hpc]
        exact hw.cleared (.inr ⟨x, hpc⟩)) none nofun
      refine hdone.closed _ _ fun hx => ?_
      subst hx
      exact ⟨_, hrun.1 ▸ saved_saveCheckpoint _ _ _, hw.finished _ hpc⟩

/-- A step of the call that is running. -/
lemma inv_go (hs : Inv start s) (hr : s.run = some r) (answer : Answer) (elapsed : Bool) :
    Inv start ((s.observe (r.request (.go answer elapsed))).after r
      (r.go answer elapsed s.disk)) := by
  have hrun := hs.run r hr
  -- only the head of the loop sends a request
  have hquiet : r.pc ≠ .head → s.observe (r.request (.go answer elapsed)) = s := by
    intro hne
    rw [Run.request, if_neg fun h => hne h.1]
    rfl
  cases hpc : r.pc with
  | called =>
      rw [hquiet (by simp [hpc])]
      exact inv_called hs hr hpc answer elapsed
  | loaded =>
      rw [hquiet (by simp [hpc]), Run.go.eq_def, hpc]
      simp only
      cases hds : existingDates s.disk.prices with
      | none => exact hs.closed _ _ nofun
      | some ds =>
          exact hs.moved ((working_loaded hs hpc (hrun.starting (.inr hpc)) hds).inv hrun.1
            (by simp))
  | head => exact inv_head hs hr hpc answer elapsed
  | entry e =>
      rw [hquiet (by simp [hpc])]
      exact inv_entry hs hr hpc answer elapsed
  | added t =>
      rw [hquiet (by simp [hpc]), Run.go.eq_def, hpc]
      exact hs.moved ((working_added (hrun.working (by simp [hpc])) hpc).inv hrun.1 (by simp))
  | advance =>
      rw [hquiet (by simp [hpc]), Run.go.eq_def, hpc]
      exact hs.moved ((working_advance (hrun.working (by simp [hpc])) hpc).inv hrun.1 (by simp))
  | advanced =>
      rw [hquiet (by simp [hpc]), Run.go.eq_def, hpc]
      have hw := hrun.working (by simp [hpc])
      simp only
      split_ifs
      · exact hs.moved ((working_advanced hw hpc (.inr rfl)).inv hrun.1 (by simp))
      · exact hs.moved ((working_advanced hw hpc (.inl rfl)).inv hrun.1 (by simp))
  | flush f =>
      rw [hquiet (by simp [hpc])]
      exact inv_flush hs hr hpc answer elapsed
  | final f x =>
      rw [hquiet (by simp [hpc])]
      exact inv_final hs hr hpc answer elapsed

end Step

/-! ### Runs -/

variable {s s' : Calls}

/-- What a step keeps. -/
lemma inv_next (hs : Inv start s) {l : Calls.Label} (hl : Calls.notBetween l s)
    (h : Calls.next start l s = some s') : Inv start s' := by
  cases l with
  | call e =>
      rw [Calls.next] at h
      split at h <;> cases h
      refine ⟨hs.nodup, hs.durable, hs.returned, ⟨0, rfl⟩, fun r hr => ?_⟩
      cases hr
      refine ⟨rfl, ?_⟩
      rw [if_pos (.inl rfl)]
      exact ⟨rfl, rfl, rfl, nofun⟩
  | act a =>
      rw [Calls.next] at h
      split at h <;> cases h
      next r hr =>
      cases a with
      | go answer elapsed => exact inv_go hs hr answer elapsed
      | interrupt => exact inv_interrupt hs hr (hl r hr)
      | kill => exact hs.closed _ _ nofun

/-- **A backfill resumes.** Whatever ends the calls of one start: no time is twice in
`prices.csv`; each minute below the checkpoint has been answered, and the row of its answer is
there; a call asks for the minutes from the checkpoint on; and once a call has returned 0, all the
minutes of its range are written. -/
theorem backfill_resumes (start : ℤ) (s : Calls)
    (h : (Calls.system start).Reach Calls.notBetween s) :
    (dates s.disk.prices).Nodup
      ∧ (∀ c, saved s.disk start = some c → ∀ k : ℕ, start + stepSeconds * k < c →
          Written s.answers s.disk.prices (start + stepSeconds * k))
      ∧ (∃ m, s.requests = minutes s.resume m)
      ∧ ∀ e, (e, Exit.code 0) ∈ s.returned → ∀ k : ℕ, start + stepSeconds * k ≤ e →
          Written s.answers s.disk.prices (start + stepSeconds * k) := by
  have hinv : Inv start s := by
    refine h.invariant (fun t ht => ?_) fun t t' l ht hl hstep => inv_next ht hl hstep
    obtain ⟨hnodup, hsaved, hrun, hreq, hret⟩ := ht
    refine ⟨hnodup, fun c hc => ?_, fun e he => ?_, ⟨0, hreq⟩, fun r hr => ?_⟩
    · rw [hsaved] at hc
      cases hc
    · rw [hret] at he
      cases he
    · rw [hrun] at hr
      cases hr
  have hwritten : ∀ c, saved s.disk start = some c → ∀ k : ℕ, start + stepSeconds * k < c →
      Written s.answers s.disk.prices (start + stepSeconds * k) := by
    intro c hc k hk
    obtain ⟨n, rfl, hn⟩ := hinv.durable c hc
    refine hn k ?_
    rw [stepSeconds] at hk
    omega
  refine ⟨hinv.nodup, hwritten, hinv.requests, fun e he k hk => ?_⟩
  obtain ⟨c, hc, hlt⟩ := hinv.returned e he
  exact hwritten c hc k (hk.trans_lt hlt)

/-- An empty directory. -/
def noCalls : Calls := ⟨⟨[], none⟩, none, fun _ => none, 0, [], []⟩

/-- A step of a call; where it makes a request, a price of this time comes back. -/
def goPrice (t : ℤ) : Calls.Label := .act (.go (.price (some ⟨some t, none, none⟩)) false)

/-- A step of a call, with a flush where one can be. -/
def goFlush : Calls.Label := .act (.go .fetchError true)

/-- A call of two minutes: the first is flushed, a `KeyboardInterrupt` falls into the second, the
process is killed between the append of its row and the checkpoint, and a second call returns 0. -/
theorem backfill_resumes_killed : ∃ s, (Calls.system 0).Reach Calls.notBetween s
    ∧ dates s.disk.prices = [7, 67] ∧ s.requests = [60] ∧ (dates s.disk.prices).Nodup := by
  have hrun : (TransitionSystem.exec Calls.notBetween (Calls.next 0)
      ([.call 60] ++ List.replicate 6 (goPrice 7) ++ List.replicate 4 goFlush
        ++ List.replicate 3 (goPrice 67) ++ [.act .interrupt, goPrice 67, .act .kill, .call 60]
        ++ List.replicate 10 (goPrice 67)) noCalls).map
      (fun s => (dates s.disk.prices, s.requests)) = some ([7, 67], [60]) := by decide +kernel
  obtain ⟨s, hs, heq⟩ := Option.map_eq_some_iff.mp hrun
  obtain ⟨hprices, hrequests⟩ := Prod.mk.inj heq
  have hreach := TransitionSystem.Reach.exec (S := Calls.system 0) Calls.notBetween
    (fun _ _ _ h => h) (.init (s := noCalls) ⟨List.nodup_nil, rfl, rfl, rfl, rfl⟩) hs
  exact ⟨s, hreach, hprices, hrequests, (backfill_resumes 0 s hreach).1⟩

/-- A `KeyboardInterrupt` between the append of a row and the statement that forgets it: the
`finally` block appends it again. -/
theorem backfill_interrupted_twice : ¬ ∀ s, (Calls.system 0).Reach anyStep s →
    (dates s.disk.prices).Nodup := by
  intro h
  have hrun : (TransitionSystem.exec anyStep (Calls.next 0)
      ([.call 60] ++ List.replicate 6 (goPrice 7) ++ List.replicate 2 goFlush
        ++ [.act .interrupt, goPrice 67]) noCalls).map (fun s => dates s.disk.prices)
      = some [7, 7] := by decide +kernel
  obtain ⟨s, hs, heq⟩ := Option.map_eq_some_iff.mp hrun
  have hreach := TransitionSystem.Reach.exec (S := Calls.system 0) anyStep
    (fun _ _ _ h => h) (.init (s := noCalls) ⟨List.nodup_nil, rfl, rfl, rfl, rfl⟩) hs
  exact absurd (heq ▸ h s hreach) (by decide)

end BtcParser.Prices
