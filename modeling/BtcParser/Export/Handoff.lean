import BtcParser.Library.Transition
import BtcParser.Rpc.PartWriter

/-!
Part numbers under crashes: no number is handed to `export_base` twice, unless a crash falls
between the `os.replace` of a state part and the counter replacement that follows it.

A `Session` is a sequencer at work: its files, its two fields in memory, the effects of the
running call that are still ahead, and the numbers under which a file was put into `export_base`
so far. A crash may come before any effect; a restart builds the fields anew from the files.

* `Consistent` is the invariant of the files at rest, and `Plan` that of a call under way: in the
  middle of a call the files are `Consistent`, or the very next effect records the closing of the
  part just moved.
* `exports_nodup` is the result. `exports_twice` is the run that goes wrong: the counter still
  calls part `1` open after it was moved, the restarted sequencer appends to a new state part of
  that number, and its rotation replaces the exported part `1`.
-/

namespace BtcParser

/-- A part sequencer at work. -/
structure Session (R : Type) where
  files : PartFiles R
  fields : PartSequencer
  /-- effects of the running call still ahead -/
  pending : List (PartEffect R)
  /-- the numbers put under `export_base` so far -/
  exports : List ℕ

namespace Session

variable {R : Type}

/-- What can happen to a sequencer: a call starts, the running call has its next effect, a
consumer takes an export part away, the process restarts (cleanly or after a crash). -/
inductive Label (R : Type) where
  | batched (rows : List R)
  | atomic (rows : List R)
  | effect
  | consume (n : ℕ)
  | restart

/-- A sequencer built on empty directories. -/
def start : Session R :=
  ⟨.fresh, PartSequencer.load (PartFiles.fresh : PartFiles R), [], []⟩

/-- A call is under way: its effects lie ahead. -/
def call (s : Session R) (r : PartSequencer × List (PartEffect R)) : Session R :=
  { s with fields := r.1, pending := r.2 }

/-- The running call has its next effect. -/
def perform (s : Session R) (e : PartEffect R) (es : List (PartEffect R)) : Session R :=
  { s with files := e.apply s.files, pending := es, exports := s.exports ++ e.exports.toList }

/-- The process comes up again: whatever was ahead is lost, and the fields are read back. -/
def restarted (s : Session R) : Session R :=
  { s with fields := PartSequencer.load s.files, pending := [] }

/-- The steps of a session. A call starts only when none is running. -/
inductive Step (fmt : Format R) : Label R → Session R → Session R → Prop
  | batched {s : Session R} (rows : List R) (h : s.pending = []) :
      Step fmt (.batched rows) s (s.call (s.fields.writeBatched fmt s.files rows))
  | atomic {s : Session R} (rows : List R) (h : s.pending = []) :
      Step fmt (.atomic rows) s (s.call (s.fields.writeAtomic s.files rows))
  | effect {s : Session R} {e : PartEffect R} {es : List (PartEffect R)}
      (h : s.pending = e :: es) : Step fmt .effect s (s.perform e es)
  | consume {s : Session R} (n : ℕ) :
      Step fmt (.consume n) s { s with files := s.files.consume n }
  | restart {s : Session R} : Step fmt .restart s s.restarted

/-- All runs of a part sequencer from empty directories. -/
def system (fmt : Format R) : TransitionSystem (Session R) (Label R) where
  init s := s = start
  step := Step fmt

/-- The step a label names, if it can be taken. -/
def next (fmt : Format R) : Label R → Session R → Option (Session R)
  | .batched rows, s =>
      if s.pending.isEmpty then some (s.call (s.fields.writeBatched fmt s.files rows)) else none
  | .atomic rows, s =>
      if s.pending.isEmpty then some (s.call (s.fields.writeAtomic s.files rows)) else none
  | .effect, s =>
      match s.pending with
      | [] => none
      | e :: es => some (s.perform e es)
  | .consume n, s => some { s with files := s.files.consume n }
  | .restart, s => some s.restarted

lemma step_of_next (fmt : Format R) (i : Label R) (s s' : Session R)
    (h : next fmt i s = some s') : Step fmt i s s' := by
  cases i with
  | batched rows =>
      simp only [next, List.isEmpty_iff, Option.ite_none_right_eq_some, Option.some.injEq] at h
      obtain ⟨hp, rfl⟩ := h
      exact .batched rows hp
  | atomic rows =>
      simp only [next, List.isEmpty_iff, Option.ite_none_right_eq_some, Option.some.injEq] at h
      obtain ⟨hp, rfl⟩ := h
      exact .atomic rows hp
  | effect =>
      cases hp : s.pending with
      | nil => simp [next, hp] at h
      | cons e es =>
          simp only [next, hp, Option.some.injEq] at h
          subst h
          exact .effect hp
  | consume n =>
      cases h
      exact .consume n
  | restart =>
      cases h
      exact .restart

/-- The next effect records the closing of a part that has already been moved. -/
def ClosingUnrecorded (s : Session R) : Prop :=
  match s.pending with
  | .persist n false :: _ => n ∈ s.exports
  | _ => False

instance (s : Session R) : Decidable s.ClosingUnrecorded :=
  match hp : s.pending with
  | .persist n false :: _ =>
      decidable_of_iff (n ∈ s.exports) (by simp [ClosingUnrecorded, hp])
  | [] => isFalse (by simp [ClosingUnrecorded, hp])
  | .persist _ true :: _ => isFalse (by simp [ClosingUnrecorded, hp])
  | .append .. :: _ => isFalse (by simp [ClosingUnrecorded, hp])
  | .handOff _ :: _ => isFalse (by simp [ClosingUnrecorded, hp])
  | .publish .. :: _ => isFalse (by simp [ClosingUnrecorded, hp])

/-- No crash between the `os.replace` of a state part into export and the replacement of the
counter file that follows it. -/
def recordsClosings : Label R → Session R → Prop
  | .restart, s => ¬ s.ClosingUnrecorded
  | _, _ => True

instance (i : Label R) (s : Session R) : Decidable (recordsClosings i s) :=
  match i with
  | .restart => inferInstanceAs (Decidable (¬ s.ClosingUnrecorded))
  | .batched _ => isTrue trivial
  | .atomic _ => isTrue trivial
  | .effect => isTrue trivial
  | .consume _ => isTrue trivial

/-! ### The invariant of the files at rest -/

/-- Files and the numbers exported so far agree with the counter a restart would read. -/
structure Consistent (f : PartFiles R) (exports : List ℕ) : Prop where
  nodup : exports.Nodup
  le : ∀ n ∈ exports, n ≤ (PartSequencer.load f).currentPart
  open_fresh : (PartSequencer.load f).partIsOpen = true →
    (PartSequencer.load f).currentPart ∉ exports
  first_use : f.counter = none →
    exports = [] ∧ f.exported = .empty ∧ ∀ k ∈ f.state.keys, k = 1

/-- The invariant of a call under way, and where it leads. -/
def Plan (fields : PartSequencer) (f : PartFiles R) (exports : List ℕ) :
    List (PartEffect R) → Prop
  | [] => Consistent f exports ∧ PartSequencer.load f = fields
  | e :: es =>
      (Consistent f exports ∨ ∃ n ∈ exports, e = .persist n false)
        ∧ (exports ++ e.exports.toList).Nodup
        ∧ Plan fields (e.apply f) (exports ++ e.exports.toList) es

lemma load_counter {f : PartFiles R} {n : ℕ} {b : Bool} (h : f.counter = some (n, b)) :
    PartSequencer.load f = ⟨n, b⟩ := by
  rw [PartSequencer.load, h]

/-- With a counter file, agreement is a matter of the counter alone. -/
lemma consistent_of_counter {f : PartFiles R} {exports : List ℕ} {n : ℕ} {b : Bool}
    (h : f.counter = some (n, b)) (hnd : exports.Nodup) (hle : ∀ m ∈ exports, m ≤ n)
    (hopen : b = true → n ∉ exports) : Consistent f exports := by
  have hl := load_counter h
  exact ⟨hnd, by simpa [hl] using hle, by simpa [hl] using hopen, by simp [h]⟩

lemma foldl_max_one (l : List ℕ) (h : ∀ k ∈ l, k = 1) (hne : l ≠ []) :
    l.foldl max 0 = 1 := by
  have key : ∀ l : List ℕ, (∀ k ∈ l, k = 1) → l.foldl max 1 = 1 := by
    intro l
    induction l with
    | nil => simp
    | cons a l ih =>
        intro hl
        rw [List.foldl_cons, hl a (by simp), max_self]
        exact ih fun k hk => hl k (by simp [hk])
  cases l with
  | nil => exact absurd rfl hne
  | cons a l =>
      rw [List.foldl_cons, h a (by simp)]
      exact key l fun k hk => h k (by simp [hk])

/-- On first use the sequencer reads the fresh counter, or finds part `1` open. -/
lemma load_first_use {f : PartFiles R} (hc : f.counter = none) (he : f.exported = .empty)
    (hk : ∀ k ∈ f.state.keys, k = 1) :
    PartSequencer.load f = if f.state.keys = [] then ⟨0, false⟩ else ⟨1, true⟩ := by
  rw [PartSequencer.load, hc]
  by_cases hne : f.state.keys = []
  · simp [PartSequencer.highest, hne, he]
  · simp [PartSequencer.highest, hne, foldl_max_one _ hk hne]

/-- Two disks a sequencer cannot tell apart for good: they differ in parts that were taken
away. -/
structure Agree (f g : PartFiles R) : Prop where
  counter : g.counter = f.counter
  state : g.state = f.state
  exported : f.exported = .empty → g.exported = .empty

lemma Consistent.congr {f g : PartFiles R} {exports : List ℕ} (h : Agree f g)
    (hf : Consistent f exports) :
    Consistent g exports ∧ PartSequencer.load g = PartSequencer.load f := by
  have hl : PartSequencer.load g = PartSequencer.load f := by
    cases hc : f.counter with
    | some c =>
        rw [load_counter (n := c.1) (b := c.2) hc,
          load_counter (n := c.1) (b := c.2) (h.counter.trans hc)]
    | none =>
        have he := (hf.first_use hc).2.1
        rw [PartSequencer.load, PartSequencer.load, h.counter, h.state, he, h.exported he]
  refine ⟨⟨hf.nodup, hl ▸ hf.le, hl ▸ hf.open_fresh, fun hc => ?_⟩, hl⟩
  obtain ⟨hex, he, hk⟩ := hf.first_use (h.counter ▸ hc)
  exact ⟨hex, h.exported he, h.state ▸ hk⟩

lemma Agree.apply {f g : PartFiles R} (h : Agree f g) (e : PartEffect R) :
    Agree (e.apply f) (e.apply g) := by
  cases e with
  | append n lines => exact ⟨h.counter, by simp [PartEffect.apply, h.state], h.exported⟩
  | persist n b => exact ⟨rfl, h.state, h.exported⟩
  | publish n lines =>
      exact ⟨h.counter, h.state, fun he => absurd he (Dict.set_ne_empty _ _ _)⟩
  | handOff n =>
      simp only [PartEffect.apply, h.state]
      cases f.state.get? n with
      | none => exact h
      | some p => exact ⟨h.counter, rfl, fun he => absurd he (Dict.set_ne_empty _ _ _)⟩

lemma Plan.congr {fields : PartSequencer} {es : List (PartEffect R)} :
    ∀ {f g : PartFiles R} {exports : List ℕ}, Agree f g → Plan fields f exports es →
      Plan fields g exports es := by
  induction es with
  | nil =>
      intro f g exports h hf
      obtain ⟨hc, hl⟩ := hf.1.congr h
      exact ⟨hc, hl.trans hf.2⟩
  | cons e es ih =>
      intro f g exports h hf
      obtain ⟨hc, hnd, hp⟩ := hf
      exact ⟨hc.imp_left fun hc => (hc.congr h).1, hnd, ih (h.apply e) hp⟩

lemma agree_consume (f : PartFiles R) (n : ℕ) : Agree f (f.consume n) := by
  rw [PartFiles.consume]
  cases hn : f.exported.get? n with
  | none => exact ⟨rfl, rfl, id⟩
  | some p => exact ⟨rfl, rfl, fun he => by simp [he] at hn⟩

/-! ### The two calls keep the invariant -/

/-- Appending keeps files at rest in agreement; on first use it must be part `1` that grows. -/
lemma Consistent.append {f : PartFiles R} {exports : List ℕ} (h : Consistent f exports) {n : ℕ}
    (hn : f.counter = none → n = 1) (lines : Part R) :
    Consistent ((PartEffect.append n lines).apply f) exports := by
  cases hc : f.counter with
  | some c =>
      have hl := load_counter (n := c.1) (b := c.2) hc
      exact consistent_of_counter (n := c.1) (b := c.2) hc h.nodup (by simpa [hl] using h.le)
        (by simpa [hl] using h.open_fresh)
  | none =>
      obtain ⟨hex, he, hk⟩ := h.first_use hc
      subst hex
      refine ⟨by simp, by simp, by simp, fun _ => ⟨rfl, he, fun k hk' => ?_⟩⟩
      simp only [PartEffect.apply, Dict.mem_keys_set] at hk'
      rcases hk' with rfl | hk'
      · exact hn hc
      · exact hk k hk'

/-- On first use the part being written is part `1`. -/
lemma Consistent.first_part {f : PartFiles R} {exports : List ℕ} (h : Consistent f exports)
    (hc : f.counter = none) :
    PartSequencer.load f = ⟨1, true⟩ ∨ PartSequencer.load f = ⟨0, false⟩ := by
  obtain ⟨-, he, hk⟩ := h.first_use hc
  rw [load_first_use hc he hk]
  split <;> simp

/-- Closing the open part, then whatever follows. -/
lemma plan_closeIfOpen {f : PartFiles R} {exports : List ℕ} {fields out : PartSequencer}
    {rest : List (PartEffect R)} (h : Consistent f exports) (hl : PartSequencer.load f = fields)
    (hrest : ∀ g exports', Consistent g exports' →
      PartSequencer.load g = (fields.closeIfOpen f).1 → Plan out g exports' rest) :
    Plan out f exports ((fields.closeIfOpen f).2 ++ rest) := by
  subst hl
  cases ho : (PartSequencer.load f).partIsOpen with
  | false =>
      have hclose : (PartSequencer.load f).closeIfOpen f = (PartSequencer.load f, []) := by
        simp [PartSequencer.closeIfOpen, ho]
      rw [hclose] at hrest ⊢
      exact hrest f exports h rfl
  | true =>
      have hfresh := h.open_fresh ho
      set n := (PartSequencer.load f).currentPart with hn
      -- without a file there is nothing to hand off, and the number is closed all the same
      by_cases hs : f.state.contains n = true
      · have hclose : (PartSequencer.load f).closeIfOpen f
            = (⟨n, false⟩, [.handOff n, .persist n false]) := by
          simp [PartSequencer.closeIfOpen, ho, ← hn, hs]
        rw [hclose] at hrest ⊢
        have hnd : (exports ++ [n]).Nodup := by
          simp only [List.nodup_append, h.nodup, List.nodup_singleton, true_and,
            List.mem_singleton]
          rintro m hm _ rfl rfl
          exact hfresh hm
        refine ⟨.inl h, hnd, .inr ⟨n, by simp [PartEffect.exports], rfl⟩,
          by simpa [PartEffect.exports] using hnd, hrest _ _ ?_ (load_counter rfl)⟩
        refine consistent_of_counter (n := n) (b := false) rfl
          (by simpa [PartEffect.exports] using hnd) ?_ (by simp)
        simp only [PartEffect.exports, Option.toList, List.append_nil, List.mem_append,
          List.mem_singleton]
        rintro m (hm | rfl)
        · exact h.le m hm
        · exact le_rfl
      · have hclose : (PartSequencer.load f).closeIfOpen f
            = (⟨n, false⟩, [.persist n false]) := by
          simp [PartSequencer.closeIfOpen, ho, ← hn, hs]
        rw [hclose] at hrest ⊢
        have hc := consistent_of_counter (f := (PartEffect.persist n false).apply f)
          (n := n) (b := false) rfl h.nodup h.le (by simp)
        exact ⟨.inl h, by simpa [PartEffect.exports] using h.nodup,
          hrest _ _ (by simpa [PartEffect.exports] using hc) (load_counter rfl)⟩

/-- A closed part stays closed. -/
lemma closeIfOpen_closed (s : PartSequencer) (f : PartFiles R) :
    (s.closeIfOpen f).1 = ⟨s.currentPart, false⟩ := by
  obtain ⟨n, b⟩ := s
  cases b <;> rfl

/-- Appending to part `n` and recording it as open. -/
lemma plan_append {f : PartFiles R} {exports : List ℕ} (h : Consistent f exports) {n : ℕ}
    (hn : f.counter = none → n = 1) (hle : ∀ m ∈ exports, m ≤ n) (hfresh : n ∉ exports)
    (lines : Part R) : Plan ⟨n, true⟩ f exports [.append n lines, .persist n true] := by
  have hnd : (exports ++ []).Nodup := by simpa using h.nodup
  have hc := consistent_of_counter
    (f := (PartEffect.persist n true).apply ((PartEffect.append n lines).apply f))
    (n := n) (b := true) rfl h.nodup hle (fun _ => hfresh)
  exact ⟨.inl h, hnd, .inl (by simpa [PartEffect.exports] using h.append hn lines),
    by simpa [PartEffect.exports] using hnd, by simpa [PartEffect.exports] using hc,
    load_counter rfl⟩

lemma plan_writeBatched (fmt : Format R) {f : PartFiles R} {exports : List ℕ}
    {fields : PartSequencer} (h : Consistent f exports) (hl : PartSequencer.load f = fields)
    (rows : List R) :
    Plan (fields.writeBatched fmt f rows).1 f exports (fields.writeBatched fmt f rows).2 := by
  unfold PartSequencer.writeBatched
  split_ifs with hrows hnew
  · exact ⟨h, hl⟩
  · refine plan_closeIfOpen h hl fun g exports' hg hlg => ?_
    rw [closeIfOpen_closed] at hlg
    have hle : ∀ m ∈ exports', m < (fields.closeIfOpen f).1.currentPart + 1 := fun m hm =>
      Nat.lt_succ_of_le (by simpa [hlg, closeIfOpen_closed] using hg.le m hm)
    refine plan_append hg (fun hc => ?_) (fun m hm => (hle m hm).le)
      (fun hm => (hle _ hm).false) _
    rw [closeIfOpen_closed]
    rcases hg.first_part hc with h1 | h0
    · simp [hlg] at h1
    · simp only [hlg, PartSequencer.mk.injEq] at h0
      simp [h0.1]
  · have hopen : fields.partIsOpen = true := by
      cases ho : fields.partIsOpen
      · simp [ho] at hnew
      · rfl
    subst hl
    rw [hopen]
    have hfields : PartSequencer.load f = ⟨(PartSequencer.load f).currentPart, true⟩ := by
      rw [← hopen]
    rw [hfields]
    refine plan_append h (fun hc => ?_) h.le (h.open_fresh hopen) _
    rcases h.first_part hc with h1 | h0
    · rw [h1]
    · simp [h0] at hopen

lemma plan_writeAtomic {f : PartFiles R} {exports : List ℕ} {fields : PartSequencer}
    (h : Consistent f exports) (hl : PartSequencer.load f = fields) (rows : List R) :
    Plan (fields.writeAtomic f rows).1 f exports (fields.writeAtomic f rows).2 := by
  unfold PartSequencer.writeAtomic
  split_ifs with hrows
  · exact ⟨h, hl⟩
  · refine plan_closeIfOpen h hl fun g exports' hg hlg => ?_
    rw [closeIfOpen_closed] at hlg ⊢
    have hle : ∀ m ∈ exports', m ≤ fields.currentPart := by simpa [hlg] using hg.le
    have hnd : (exports' ++ [fields.currentPart + 1]).Nodup := by
      simp only [List.nodup_append, hg.nodup, List.nodup_singleton, true_and,
        List.mem_singleton]
      rintro m hm _ rfl rfl
      exact absurd (hle _ hm) (by omega)
    have hpersist : Consistent
        ((PartEffect.persist (fields.currentPart + 1) false).apply g) exports' :=
      consistent_of_counter rfl hg.nodup (fun m hm => (hle m hm).trans (Nat.le_succ _)) (by simp)
    refine ⟨.inl hg, by simpa [PartEffect.exports] using hg.nodup,
      .inl (by simpa [PartEffect.exports] using hpersist),
      by simpa [PartEffect.exports] using hnd, ?_,
      load_counter (by rw [closeIfOpen_closed]; rfl)⟩
    refine consistent_of_counter (n := fields.currentPart + 1) (b := false) rfl
      (by simpa [PartEffect.exports] using hnd) (fun m hm => ?_) (by simp)
    simp only [PartEffect.exports, Option.toList, List.append_nil, List.mem_append,
      List.mem_singleton] at hm
    rcases hm with hm | rfl
    · exact (hle m hm).trans (Nat.le_succ _)
    · exact le_rfl

/-! ### The result -/

/-- The invariant of a session. -/
def Sound (s : Session R) : Prop := Plan s.fields s.files s.exports s.pending

lemma sound_start : (start : Session R).Sound :=
  ⟨⟨by simp [start], by simp [start], by simp [start], fun _ => ⟨rfl, rfl, by
    simp [start, PartFiles.fresh]⟩⟩, rfl⟩

lemma Plan.nodup {fields : PartSequencer} {f : PartFiles R} {exports : List ℕ}
    {es : List (PartEffect R)} (h : Plan fields f exports es) : exports.Nodup := by
  cases es with
  | nil => exact h.1.nodup
  | cons e es => exact (List.nodup_append.mp h.2.1).1

/-- What one step preserves. -/
lemma sound_step (fmt : Format R) {s s' : Session R} {i : Label R} (h : s.Sound)
    (ha : recordsClosings i s) (hs : Step fmt i s s') : s'.Sound := by
  unfold Sound at h
  cases hs with
  | batched rows hp =>
      rw [hp] at h
      exact plan_writeBatched fmt h.1 h.2 rows
  | atomic rows hp =>
      rw [hp] at h
      exact plan_writeAtomic h.1 h.2 rows
  | effect hp =>
      rw [hp] at h
      exact h.2.2
  | consume n => exact h.congr (agree_consume _ _)
  | restart =>
      cases hp : s.pending with
      | nil =>
          rw [hp] at h
          exact ⟨h.1, rfl⟩
      | cons e es =>
          rw [hp] at h
          rcases h.1 with hc | ⟨n, hn, rfl⟩
          · exact ⟨hc, rfl⟩
          · exact absurd (by simpa [ClosingUnrecorded, hp] using hn) ha

/-- **No part number is exported twice** in a run in which no crash falls between the
`os.replace` of a state part and the counter replacement that follows it. -/
theorem exports_nodup (fmt : Format R) (s : Session R)
    (h : (system fmt).Reach recordsClosings s) : s.exports.Nodup :=
  Plan.nodup <| h.invariant (I := Sound) (fun _ hs => hs ▸ sound_start)
    fun _ _ _ hi ha hs => sound_step fmt hi ha hs

/-- A batched write, a crash before the counter is first persisted, and an atomic write: the
parts `1` and `2` are exported, each once. -/
theorem exports_nodup_atomic :
    ∃ s, (system (⟨1, fun _ => 0⟩ : Format ℕ)).Reach recordsClosings s
      ∧ s.exports = [1, 2] ∧ s.exports.Nodup := by
  have hrun := TransitionSystem.Reach.exec (S := system (⟨1, fun _ => 0⟩ : Format ℕ))
    recordsClosings (step_of_next _) (l := [.batched [7], .effect, .restart, .atomic [8],
      .effect, .effect,
      .effect, .effect]) (.init rfl) rfl
  exact ⟨_, hrun, rfl, exports_nodup _ _ hrun⟩

/-- A crash after the `os.replace` of part `1` and before its closing is recorded, then two more
batched writes: part `1` is exported twice. -/
theorem exports_twice :
    ¬ ∀ s, (system (⟨1, fun _ => 0⟩ : Format ℕ)).Reach anyStep s → s.exports.Nodup := by
  intro h
  have hrun := TransitionSystem.Reach.exec (S := system (⟨1, fun _ => 0⟩ : Format ℕ))
    anyStep (step_of_next _) (l := [.batched [7], .effect, .effect, .batched [8], .effect, .restart,
      .batched [9], .effect, .effect, .batched [10], .effect]) (.init rfl) rfl
  exact absurd (h _ hrun) (by decide)

end Session

end BtcParser
