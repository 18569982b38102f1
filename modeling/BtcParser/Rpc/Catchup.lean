import BtcParser.Rpc.Client

/-!
`rpc/catchup.py`: fetching and parsing blocks ahead of the writer.

`iter_parsed_blocks` is a generator over a queue of futures. A `Prefetch` is its state between two
`next` calls: the heights submitted and not yet yielded, those still to submit, and which of the
submitted futures have completed. At most `workers` futures run at a time, the oldest first; which
of them completes next is the choice of a `schedule`.

* `Prefetch.next` waits for the oldest future, submits one more height, and hands the result out.
* `next_eq`: whatever the schedule, `next` hands out the fetch of the lowest height left.
* `Prefetch.yields` is all that comes out of the generator, and `yields_eq` says what: the fetches
  of the heights in order, up to the first exception.
-/

namespace BtcParser

/-- `PREFETCH_PER_WORKER`. -/
def prefetchPerWorker : ℕ := 4

/-- The generator between two `next` calls. -/
structure Prefetch where
  /-- submitted and not yet yielded, oldest first -/
  pending : List ℤ
  toSubmit : List ℤ
  /-- of `pending`, the completed -/
  completed : List ℤ
  /-- how many futures have completed so far -/
  clock : ℕ
  deriving DecidableEq

namespace Prefetch

/-- The first loop of `iter_parsed_blocks`: fill the window. -/
def start (heights : List ℤ) (workers : ℕ) : Prefetch :=
  ⟨heights.take (prefetchPerWorker * workers), heights.drop (prefetchPerWorker * workers), [], 0⟩

/-- The futures at work: the oldest `workers` of those not yet completed. -/
def running (g : Prefetch) (workers : ℕ) : List ℤ :=
  (g.pending.filter fun h => decide (h ∉ g.completed)).take workers

/-- One of the running futures completes. -/
def complete (schedule : ℕ → ℕ) (workers : ℕ) (g : Prefetch) : Prefetch :=
  match (g.running workers)[schedule g.clock % (g.running workers).length]? with
  | none => g
  | some h => { g with completed := g.completed ++ [h], clock := g.clock + 1 }

/-- Futures complete until the one of height `h` has; at most `fuel` of them. -/
def await (schedule : ℕ → ℕ) (workers : ℕ) (h : ℤ) : ℕ → Prefetch → Prefetch
  | 0, g => g
  | fuel + 1, g =>
      if h ∈ g.completed then g else await schedule workers h fuel (g.complete schedule workers)

/-- `next`: waits for the oldest future and submits one more height. `none` when the generator is
exhausted, or when the oldest future would never complete. -/
def next {β : Type} (fetch : ℤ → β) (schedule : ℕ → ℕ) (workers : ℕ) (g : Prefetch) :
    Option (β × Prefetch) :=
  match g.pending with
  | [] => none
  | h :: _ =>
      -- the oldest height is yielded first, whichever completes first
      let g := g.await schedule workers h g.pending.length
      if h ∈ g.completed then
        some (fetch h,
          { g with
            pending := g.pending.tail ++ g.toSubmit.take 1
            toSubmit := g.toSubmit.drop 1
            completed := g.completed.filter fun h' => decide (h' ≠ h) })
      else none

/-- The heights still to be yielded, in order. -/
def heights (g : Prefetch) : List ℤ := g.pending ++ g.toSubmit

@[simp] lemma heights_start (heights : List ℤ) (workers : ℕ) :
    (start heights workers).heights = heights :=
  List.take_append_drop ..

/-- What holds between two `next` calls: no height twice, completed futures were submitted, and
the queue runs dry only at the end. -/
structure Valid (g : Prefetch) : Prop where
  nodup : g.heights.Nodup
  completed_nodup : g.completed.Nodup
  completed_sub : ∀ h ∈ g.completed, h ∈ g.pending
  submits : g.pending = [] → g.toSubmit = []

lemma valid_start {heights : List ℤ} (hn : heights.Nodup) {workers : ℕ} (hw : 0 < workers) :
    (start heights workers).Valid := by
  refine ⟨by simpa using hn, by simp [start], by simp [start], fun h => ?_⟩
  simp only [start, List.take_eq_nil_iff] at h ⊢
  rcases h with h | rfl
  · simp [prefetchPerWorker] at h
    omega
  · simp

lemma complete_fields (schedule : ℕ → ℕ) (workers : ℕ) (g : Prefetch) :
    (g.complete schedule workers).pending = g.pending
      ∧ (g.complete schedule workers).toSubmit = g.toSubmit := by
  unfold complete
  split <;> simp

lemma await_fields (schedule : ℕ → ℕ) (workers : ℕ) (h : ℤ) (fuel : ℕ) (g : Prefetch) :
    (await schedule workers h fuel g).pending = g.pending
      ∧ (await schedule workers h fuel g).toSubmit = g.toSubmit := by
  induction fuel generalizing g with
  | zero => exact ⟨rfl, rfl⟩
  | succ fuel ih =>
      rw [await]
      split
      · exact ⟨rfl, rfl⟩
      · rw [(ih _).1, (ih _).2]
        exact complete_fields schedule workers g

/-- As long as something is pending that has not completed, one more future completes. -/
lemma complete_valid (schedule : ℕ → ℕ) {workers : ℕ} (hw : 0 < workers) {g : Prefetch}
    (hg : g.Valid) {h : ℤ} (hp : h ∈ g.pending) (hc : h ∉ g.completed) :
    (g.complete schedule workers).Valid
      ∧ (g.complete schedule workers).completed.length = g.completed.length + 1 := by
  have hrun : 0 < (g.running workers).length := by
    have : h ∈ g.pending.filter fun h => decide (h ∉ g.completed) := by simp [hp, hc]
    have hpos := List.length_pos_of_mem this
    simp only [running, List.length_take]
    omega
  have hlt := Nat.mod_lt (schedule g.clock) hrun
  obtain ⟨x, hx⟩ : ∃ x, (g.running workers)[schedule g.clock % (g.running workers).length]?
      = some x := ⟨_, List.getElem?_eq_getElem hlt⟩
  have hmem : x ∈ g.running workers := List.mem_of_getElem? hx
  have hfresh : x ∈ g.pending ∧ x ∉ g.completed := by
    simpa using List.mem_of_mem_take hmem
  have heq : g.complete schedule workers
      = { g with completed := g.completed ++ [x], clock := g.clock + 1 } := by
    simp [complete, hx]
  rw [heq]
  refine ⟨⟨hg.nodup, ?_, ?_, hg.submits⟩, by simp⟩
  · simp only [List.nodup_append, hg.completed_nodup, List.nodup_singleton, true_and,
      List.mem_singleton]
    rintro y hy _ rfl rfl
    exact hfresh.2 hy
  · intro y hy
    simp only [List.mem_append, List.mem_singleton] at hy
    rcases hy with hy | rfl
    · exact hg.completed_sub y hy
    · exact hfresh.1

/-- Waiting is over before the fuel is: each round completes one of the pending futures. -/
lemma await_completed (schedule : ℕ → ℕ) {workers : ℕ} (hw : 0 < workers) {h : ℤ} (fuel : ℕ)
    {g : Prefetch} (hg : g.Valid) (hp : h ∈ g.pending)
    (hfuel : g.pending.length ≤ g.completed.length + fuel) :
    (await schedule workers h fuel g).Valid
      ∧ h ∈ (await schedule workers h fuel g).completed := by
  induction fuel generalizing g with
  | zero =>
      refine ⟨hg, ?_⟩
      have hnd : g.pending.Nodup := (List.nodup_append.mp hg.nodup).1
      have hperm := (hg.completed_nodup.subperm hg.completed_sub).perm_of_length_le
        (by simpa using hfuel)
      exact hperm.mem_iff.mpr hp
  | succ fuel ih =>
      rw [await]
      split_ifs with hc
      · exact ⟨hg, hc⟩
      · obtain ⟨hv, hlen⟩ := complete_valid schedule hw hg hp hc
        exact ih hv (by rwa [(complete_fields ..).1]) (by rw [(complete_fields ..).1]; omega)

/-- **The order of completion does not matter**: while heights are left, `next` hands out the
fetch of the lowest one, and moves on to the rest. -/
theorem next_eq {β : Type} (fetch : ℤ → β) (schedule : ℕ → ℕ) {workers : ℕ} {g : Prefetch}
    (hw : 0 < workers) (hg : g.Valid) {h : ℤ} {hs : List ℤ} (hh : g.heights = h :: hs) :
    ∃ g', g.next fetch schedule workers = some (fetch h, g') ∧ g'.heights = hs ∧ g'.Valid := by
  cases hp : g.pending with
  | nil =>
      simp [heights, hp, hg.submits hp] at hh
  | cons x rest =>
      obtain ⟨rfl, hrest⟩ : x = h ∧ rest ++ g.toSubmit = hs := by
        simpa [heights, hp] using hh
      obtain ⟨hv, hc⟩ := await_completed schedule hw g.pending.length hg
        (h := x) (by simp [hp]) (by omega)
      obtain ⟨hpa, hsa⟩ := await_fields schedule workers x g.pending.length g
      set a := await schedule workers x g.pending.length g with ha
      have hnext : g.next fetch schedule workers = some (fetch x,
          { a with
            pending := a.pending.tail ++ a.toSubmit.take 1
            toSubmit := a.toSubmit.drop 1
            completed := a.completed.filter fun h' => decide (h' ≠ x) }) := by
        simp only [next, hp]
        rw [hp] at ha
        rw [← ha, if_pos hc]
      have htail : rest ++ g.toSubmit.take 1 ++ g.toSubmit.drop 1 = hs := by
        rw [List.append_assoc, List.take_append_drop, hrest]
      refine ⟨_, hnext, by simpa only [heights, hpa, hsa, hp, List.tail_cons] using htail, ?_⟩
      refine ⟨?_, hv.completed_nodup.filter _, ?_, ?_⟩
      · have hnd := hg.nodup
        rw [hh, List.nodup_cons] at hnd
        simpa only [heights, hpa, hsa, hp, List.tail_cons, htail] using hnd.2
      · intro y hy
        simp only [List.mem_filter, decide_eq_true_eq] at hy
        have hy' := hv.completed_sub y hy.1
        rw [hpa, hp, List.mem_cons] at hy'
        simp only [hpa, hp, List.tail_cons, List.mem_append]
        exact .inl (hy'.resolve_left hy.2)
      · intro he
        simp only [hpa, hsa, hp, List.tail_cons, List.append_eq_nil_iff,
          List.take_eq_nil_iff] at he ⊢
        rcases he.2 with h1 | h1
        · omega
        · simp [h1]

/-- What comes out of `n` calls of `next`: the values, and the exception that ended the generator.
-/
def yields {α ε : Type} (fetch : ℤ → Except ε α) (schedule : ℕ → ℕ) (workers : ℕ) :
    ℕ → Prefetch → List α × Option ε
  | 0, _ => ([], none)
  | n + 1, g =>
      match g.next fetch schedule workers with
      | none => ([], none)
      | some (.error e, _) => ([], some e)
      | some (.ok a, g) =>
          let (as, e) := yields fetch schedule workers n g
          (a :: as, e)

/-- The values up to the first exception, and the exception. -/
def upToError {α ε : Type} : List (Except ε α) → List α × Option ε
  | [] => ([], none)
  | .error e :: _ => ([], some e)
  | .ok a :: l => (a :: (upToError l).1, (upToError l).2)

/-- **Every height once and in order**: the generator yields the fetches of the heights left, and
an exception only behind all lower heights. -/
theorem yields_eq {α ε : Type} (fetch : ℤ → Except ε α) (schedule : ℕ → ℕ) {workers : ℕ}
    (hw : 0 < workers) (n : ℕ) {g : Prefetch} (hg : g.Valid) :
    yields fetch schedule workers n g = upToError ((g.heights.take n).map fetch) := by
  induction n generalizing g with
  | zero => rfl
  | succ n ih =>
      cases hh : g.heights with
      | nil =>
          have hp : g.pending = [] := (List.append_eq_nil_iff.mp hh).1
          simp [yields, next, hp, upToError]
      | cons h hs =>
          obtain ⟨g', hnext, rfl, hv⟩ := next_eq fetch schedule hw hg hh
          rw [yields, hnext, List.take_succ_cons, List.map_cons]
          cases fetch h with
          | error e => rfl
          | ok a => simp only [ih hv, upToError]

end Prefetch

end BtcParser
