import BtcParser.Rpc.PartWriter
import Mathlib.Data.List.Sort

/-!
The part sequencer over whole runs without crashes: batched and atomic calls in any order, with
clean restarts between them.

* `PartSession.run` runs a list of calls from empty directories; `log` keeps every effect on the
  disk, in order.
* `Layout` is the abstract state: the rows of the complete parts, and those of the open one.
  `Layout.Describes` relates it to the sequencer and its files.
* `Layout.Describes.close`, `begin`, `extend` and `publish` are the four moves a call is made of.
* `PartSequence` says what holds of every run: how parts are numbered, what they hold, which one
  is open, and that a complete part stays as it is. `part_sequence` proves it.
-/

namespace BtcParser

variable {R : Type}

/-- What is asked of a sequencer. -/
inductive PartOp (R : Type) where
  | batched (rows : List R)
  | atomic (rows : List R)
  /-- the process ends between two calls, and a new one reads the counter file -/
  | restart

/-- The rows passed in. -/
def PartOp.rows : PartOp R → List R
  | batched rows => rows
  | atomic rows => rows
  | restart => []

/-- A sequencer, its files, and the effects it has had so far (no code reads these). -/
structure PartSession (R : Type) where
  seq : PartSequencer
  files : PartFiles R
  log : List (PartEffect R)

namespace PartSession

open PartEffect

/-- Empty directories. -/
def start : PartSession R := ⟨.load (.fresh : PartFiles R), .fresh, []⟩

/-- A call that runs to its end. -/
def call (w : PartSession R) (c : PartSequencer × List (PartEffect R)) : PartSession R :=
  ⟨c.1, applyAll w.files c.2, w.log ++ c.2⟩

/-- One call, or one restart. -/
def step (fmt : Format R) (w : PartSession R) : PartOp R → PartSession R
  | .batched rows => w.call (w.seq.writeBatched fmt w.files rows)
  | .atomic rows => w.call (w.seq.writeAtomic w.files rows)
  | .restart => { w with seq := .load w.files }

/-- The calls one after the other, from empty directories. -/
def run (fmt : Format R) (ops : List (PartOp R)) : PartSession R := ops.foldl (step fmt) start

/-- All parts by ascending number: the export parts, then what lies under `state_base`. -/
def reading (w : PartSession R) : List R :=
  (w.files.exported.sorted.values ++ w.files.state.sorted.values).flatMap Part.rows

lemma call_nil (w : PartSession R) : w.call (w.seq, []) = w := by
  rw [call, applyAll_nil, List.append_nil]

lemma call_append (w : PartSession R) (s s' : PartSequencer) (es es' : List (PartEffect R)) :
    w.call (s', es ++ es') = (w.call (s, es)).call (s', es') := by
  rw [call, call, call, applyAll_append, List.append_assoc]

/-- The log only grows. -/
lemma log_prefix (fmt : Format R) (w : PartSession R) (ops : List (PartOp R)) :
    w.log <+: (ops.foldl (step fmt) w).log := by
  induction ops generalizing w with
  | nil => exact List.prefix_refl _
  | cons op ops ih =>
      refine List.IsPrefix.trans ?_ (ih (w.step fmt op))
      cases op with
      | batched rows => exact List.prefix_append _ _
      | atomic rows => exact List.prefix_append _ _
      | restart => exact List.prefix_refl _

lemma run_append (fmt : Format R) (ops ops' : List (PartOp R)) :
    run fmt (ops ++ ops') = ops'.foldl (step fmt) (run fmt ops) :=
  List.foldl_append

end PartSession

/-! ### The log -/

namespace PartEffect

variable {fmt : Format R}

/-- The number of the part that an effect begins. -/
def begins (f : PartFiles R) : PartEffect R → Option ℕ
  | append n _ => if f.state.contains n then none else some n
  | publish n _ => some n
  | handOff _ => none
  | persist .. => none

/-- The numbers of the parts begun by a list of effects, in order. -/
def begun : PartFiles R → List (PartEffect R) → List ℕ
  | _, [] => []
  | f, e :: es => (e.begins f).toList ++ begun (e.apply f) es

/-- What an effect must not do: append to a part at the cap, or put a part over an export part. -/
def Allowed (fmt : Format R) (f : PartFiles R) : PartEffect R → Prop
  | append n _ => ∀ p, f.state.get? n = some p → fmt.size p < fmt.maxPartBytes
  | publish n _ => f.exported.get? n = none
  | handOff n => f.exported.get? n = none
  | persist .. => True

/-- Every effect of a list is allowed where it happens. -/
def AllAllowed (fmt : Format R) : PartFiles R → List (PartEffect R) → Prop
  | _, [] => True
  | f, e :: es => e.Allowed fmt f ∧ AllAllowed fmt (e.apply f) es

lemma begun_append (f : PartFiles R) (es es' : List (PartEffect R)) :
    begun f (es ++ es') = begun f es ++ begun (applyAll f es) es' := by
  induction es generalizing f with
  | nil => rfl
  | cons e es ih => rw [List.cons_append, begun, begun, ih, List.append_assoc, applyAll_cons]

lemma allAllowed_append {f : PartFiles R} {es es' : List (PartEffect R)} :
    AllAllowed fmt f (es ++ es') ↔ AllAllowed fmt f es ∧ AllAllowed fmt (applyAll f es) es' := by
  induction es generalizing f with
  | nil => exact iff_of_eq (true_and _).symm
  | cons e es ih => rw [List.cons_append, AllAllowed, AllAllowed, ih, applyAll_cons, and_assoc]

/-- An allowed effect leaves the export parts as they are. -/
lemma Allowed.get?_apply {f : PartFiles R} {e : PartEffect R} (h : e.Allowed fmt f) {n : ℕ}
    {p : Part R} (hp : f.exported.get? n = some p) : (e.apply f).exported.get? n = some p := by
  have hset {m : ℕ} {q : Part R} (hm : f.exported.get? m = none) :
      (f.exported.set m q).get? n = some p := by
    rw [Dict.get?_set_ne _ _, hp]
    rintro rfl
    rw [hm] at hp
    cases hp
  cases e with
  | append m l => exact hp
  | persist m b => exact hp
  | publish m l => exact hset h
  | handOff m =>
      rw [apply]
      cases hq : f.state.get? m with
      | none => exact hp
      | some q => exact hset h

/-- So do all of them together. -/
lemma AllAllowed.get?_applyAll {f : PartFiles R} {es : List (PartEffect R)}
    (h : AllAllowed fmt f es) {n : ℕ} {p : Part R} (hp : f.exported.get? n = some p) :
    (applyAll f es).exported.get? n = some p := by
  induction es generalizing f with
  | nil => exact hp
  | cons e es ih =>
      rw [applyAll_cons]
      exact ih h.2 (h.1.get?_apply hp)

end PartEffect

/-! ### The abstract state -/

/-- The rows of each complete part, and those of the open part. -/
structure Layout (R : Type) where
  closed : List (List R)
  current : Option (List R)

namespace Layout

/-- All parts, in the order in which they are begun. -/
def parts (l : Layout R) : List (List R) := l.closed ++ l.current.toList

/-- Parts under their numbers, from `1` on. -/
def numbered (parts : List (List R)) : List (ℕ × Part R) :=
  (parts.zipIdx 1).map fun q => (q.2, writeCsv true q.1)

lemma map_fst_numbered (parts : List (List R)) :
    (numbered parts).map Prod.fst = List.range' 1 parts.length := by
  rw [numbered, List.map_map, ← List.zipIdx_map_snd 1 parts]
  rfl

lemma map_snd_numbered (parts : List (List R)) :
    (numbered parts).map Prod.snd = parts.map (writeCsv true) := by
  conv_rhs => rw [← List.zipIdx_map_fst 1 parts]
  rw [numbered, List.map_map, List.map_map]
  rfl

lemma numbered_concat (parts : List (List R)) (rows : List R) :
    numbered (parts ++ [rows]) = numbered parts ++ [(parts.length + 1, writeCsv true rows)] := by
  rw [numbered, List.zipIdx_append, List.map_append, add_comm parts.length 1]
  rfl

/-- The sequencer and its files, as the abstract state has them. -/
structure Describes (l : Layout R) (fmt : Format R) (w : PartSession R) : Prop where
  exported : w.files.exported.entries = numbered l.closed
  state : w.files.state.entries
    = l.current.toList.map fun rows => (l.closed.length + 1, writeCsv true rows)
  seq : w.seq = ⟨l.parts.length, l.current.isSome⟩
  counter : w.files.counter = some (l.parts.length, l.current.isSome)
    ∨ w.files.counter = none ∧ l.parts = []
  nonempty : ∀ rows ∈ l.parts, rows ≠ []
  files : w.files = PartEffect.applyAll .fresh w.log
  begun : PartEffect.begun .fresh w.log = List.range' 1 l.parts.length
  allowed : PartEffect.AllAllowed fmt .fresh w.log

lemma describes_start (fmt : Format R) : Describes ⟨[], none⟩ fmt .start where
  exported := rfl
  state := rfl
  seq := rfl
  counter := .inr ⟨rfl, rfl⟩
  nonempty rows h := by cases h
  files := rfl
  begun := rfl
  allowed := trivial

/-! ### The moves of a call -/

section Moves

open PartEffect PartSequencer

variable {fmt : Format R} {w : PartSession R} {closed : List (List R)} {old rows : List R}

lemma size_pos (fmt : Format R) (rows : List R) : 0 < fmt.size (writeCsv true rows) :=
  Nat.lt_of_lt_of_le (Nat.succ_pos _) (Nat.le_add_right _ _)

/-- The number of an open part is new under both roots. -/
lemma Describes.get?_exported {l : Layout R} (h : Describes l fmt w) {n : ℕ}
    (hn : l.closed.length < n) : w.files.exported.get? n = none := by
  rw [Dict.get?_eq_none_iff, Dict.keys, h.exported, map_fst_numbered, List.mem_range'_1]
  omega

lemma Describes.get?_state (h : Describes ⟨closed, some old⟩ fmt w) (n : ℕ) :
    w.files.state.get? n = if closed.length + 1 = n then some (writeCsv true old) else none := by
  rw [Dict.get?, h.state]
  rfl

lemma Describes.get?_state_none (h : Describes ⟨closed, none⟩ fmt w) (n : ℕ) :
    w.files.state.get? n = none := by
  rw [Dict.get?, h.state]
  rfl

lemma Describes.nonempty_concat {l : Layout R} (h : Describes l fmt w) (hrows : rows ≠ []) :
    ∀ p ∈ l.closed ++ [rows], p ≠ [] :=
  List.forall_mem_append.mpr ⟨fun p hp => h.nonempty p (List.mem_append_left _ hp),
    List.forall_mem_singleton.mpr hrows⟩

/-- The log of a call, from what its effects do. -/
lemma Describes.files_call {l : Layout R} (h : Describes l fmt w)
    (c : PartSequencer × List (PartEffect R)) :
    (w.call c).files = applyAll .fresh (w.call c).log := by
  rw [PartSession.call, applyAll_append, ← h.files]

lemma Describes.begun_call {l : Layout R} (h : Describes l fmt w)
    (c : PartSequencer × List (PartEffect R)) :
    PartEffect.begun .fresh (w.call c).log
      = List.range' 1 l.parts.length ++ PartEffect.begun w.files c.2 := by
  rw [PartSession.call, begun_append, h.begun, ← h.files]

lemma Describes.allowed_call {l : Layout R} (h : Describes l fmt w)
    {c : PartSequencer × List (PartEffect R)} (hc : AllAllowed fmt w.files c.2) :
    AllAllowed fmt .fresh (w.call c).log := by
  rw [PartSession.call, allAllowed_append, ← h.files]
  exact ⟨h.allowed, hc⟩

/-- Closing the open part: it moves to `export_base` under its number. -/
lemma Describes.close {l : Layout R} (h : Describes l fmt w) :
    Describes ⟨l.parts, none⟩ fmt (w.call (w.seq.closeIfOpen w.files)) := by
  obtain ⟨closed, current⟩ := l
  cases current with
  | none =>
      have hseq : w.seq.closeIfOpen w.files = (w.seq, []) := by
        rw [closeIfOpen, h.seq]
        rfl
      have hparts : (⟨closed, none⟩ : Layout R).parts = closed := List.append_nil closed
      rw [hseq, PartSession.call_nil, hparts]
      exact h
  | some old =>
      -- the open part has the next number, which is not exported yet
      have hget := h.get?_state (closed.length + 1)
      rw [if_pos rfl] at hget
      have hnew := h.get?_exported (Nat.lt_succ_self closed.length)
      have hlen : (⟨closed, some old⟩ : Layout R).parts.length = closed.length + 1 :=
        List.length_append
      have hcall : w.seq.closeIfOpen w.files = (⟨closed.length + 1, false⟩,
          [handOff (closed.length + 1), persist (closed.length + 1) false]) := by
        rw [closeIfOpen, h.seq, hlen]
        simp [Dict.contains, hget]
      have hexp : closed.length + 1 ∉ w.files.exported.keys := Dict.get?_eq_none_iff.mp hnew
      rw [hcall]
      exact {
        exported := by
          simp only [PartSession.call, applyAll_cons, applyAll_nil, apply, hget]
          rw [Dict.entries_set_new hexp, h.exported]
          exact (numbered_concat closed old).symm
        state := by
          simp only [PartSession.call, applyAll_cons, applyAll_nil, apply, hget]
          show Dict.discard w.files.state.entries _ = _
          rw [h.state]
          exact if_pos rfl
        seq := by simp [PartSession.call, Layout.parts]
        counter := .inl (by simp [PartSession.call, apply, hget, Layout.parts])
        nonempty := by simpa [Layout.parts] using h.nonempty
        files := h.files_call _
        begun := by
          rw [h.begun_call]
          simp [PartEffect.begun, begins, Layout.parts]
        allowed := h.allowed_call ⟨hnew, trivial, trivial⟩ }

/-- Beginning a part under `state_base`. -/
lemma Describes.begin (h : Describes ⟨closed, none⟩ fmt w) (hrows : rows ≠ []) :
    Describes ⟨closed, some rows⟩ fmt (w.call (⟨closed.length + 1, true⟩,
      [append (closed.length + 1) (writeCsv true rows), persist (closed.length + 1) true])) := by
  have hget := h.get?_state_none (closed.length + 1)
  have hnew : closed.length + 1 ∉ w.files.state.keys := Dict.get?_eq_none_iff.mp hget
  exact {
    exported := h.exported
    state := by
      simp only [PartSession.call, applyAll_cons, applyAll_nil, apply, hget, Option.getD_none,
        List.nil_append]
      rw [Dict.entries_set_new hnew, h.state]
      rfl
    seq := by simp [PartSession.call, Layout.parts]
    counter := .inl (by simp [PartSession.call, apply, Layout.parts])
    nonempty := h.nonempty_concat hrows
    files := h.files_call _
    begun := by
      rw [h.begun_call]
      simp [PartEffect.begun, begins, Layout.parts, Dict.contains, hget, List.range'_1_concat,
        add_comm]
    allowed := by
      refine h.allowed_call ⟨fun p hp => ?_, trivial, trivial⟩
      rw [hget] at hp
      cases hp }

/-- Appending to the open part. -/
lemma Describes.extend (h : Describes ⟨closed, some old⟩ fmt w)
    (hfull : isFull fmt w.files (closed.length + 1) = false) :
    Describes ⟨closed, some (old ++ rows)⟩ fmt (w.call (⟨closed.length + 1, true⟩,
      [append (closed.length + 1) (writeCsv false rows), persist (closed.length + 1) true])) := by
  have hget := h.get?_state (closed.length + 1)
  rw [if_pos rfl] at hget
  have hpart : writeCsv true old ++ writeCsv false rows = writeCsv true (old ++ rows) := by
    simp [writeCsv]
  exact {
    exported := h.exported
    state := by
      simp only [PartSession.call, applyAll_cons, applyAll_nil, apply, hget, Option.getD_some,
        hpart]
      exact Dict.entries_set_last (l := []) h.state _
    seq := by simp [PartSession.call, Layout.parts]
    counter := .inl (by simp [PartSession.call, apply, Layout.parts])
    nonempty := by
      have hold : old ≠ [] := h.nonempty old (List.mem_append_right _ (List.mem_singleton_self _))
      exact h.nonempty_concat (List.append_ne_nil_of_left_ne_nil hold rows)
    files := h.files_call _
    begun := by
      rw [h.begun_call]
      simp [PartEffect.begun, begins, Layout.parts, Dict.contains, hget]
    allowed := by
      refine h.allowed_call ⟨fun p hp => ?_, trivial, trivial⟩
      rw [isFull, hp] at hfull
      exact not_le.mp (of_decide_eq_false hfull) }

/-- Publishing a part of its own. -/
lemma Describes.publish (h : Describes ⟨closed, none⟩ fmt w) (hrows : rows ≠ []) :
    Describes ⟨closed ++ [rows], none⟩ fmt (w.call (⟨closed.length + 1, false⟩,
      [persist (closed.length + 1) false,
        .publish (closed.length + 1) (writeCsv true rows)])) := by
  have hnew := h.get?_exported (Nat.lt_succ_self closed.length)
  have hexp : closed.length + 1 ∉ w.files.exported.keys := Dict.get?_eq_none_iff.mp hnew
  exact {
    exported := by
      simp only [PartSession.call, applyAll_cons, applyAll_nil, apply]
      rw [Dict.entries_set_new hexp, h.exported]
      exact (numbered_concat closed rows).symm
    state := h.state
    seq := by simp [PartSession.call, Layout.parts]
    counter := .inl (by simp [PartSession.call, apply, Layout.parts])
    nonempty := by
      rw [Layout.parts, Option.toList_none, List.append_nil]
      exact h.nonempty_concat hrows
    files := h.files_call _
    begun := by
      rw [h.begun_call]
      simp [PartEffect.begun, begins, Layout.parts, List.range'_1_concat, add_comm]
    allowed := h.allowed_call ⟨trivial, hnew, trivial⟩ }

/-- Closing, then beginning the next part. -/
lemma Describes.close_begin {l : Layout R} (h : Describes l fmt w) (hrows : rows ≠ []) :
    Describes ⟨l.parts, some rows⟩ fmt (w.call (⟨l.parts.length + 1, true⟩,
      (w.seq.closeIfOpen w.files).2 ++ [append (l.parts.length + 1) (writeCsv true rows),
        persist (l.parts.length + 1) true])) := by
  rw [PartSession.call_append w (w.seq.closeIfOpen w.files).1]
  exact h.close.begin hrows

/-- A closed sequencer has no part under the number that comes next. -/
lemma Describes.fileExists_next {l : Layout R} (h : Describes l fmt w) :
    fileExists fmt w.files (l.parts.length + 1) = false := by
  obtain ⟨closed, current⟩ := l
  cases current with
  | none => rw [fileExists, h.get?_state_none]
  | some old =>
      rw [fileExists, h.get?_state, if_neg]
      simp [Layout.parts]

lemma Describes.currentPart_closeIfOpen {l : Layout R} (h : Describes l fmt w) :
    (w.seq.closeIfOpen w.files).1.currentPart = l.parts.length := by
  have hseq : (w.seq.closeIfOpen w.files).1.currentPart = (l.parts ++ []).length :=
    congrArg PartSequencer.currentPart h.close.seq
  rw [hseq, List.append_nil]

/-- **A batched write**: it goes on with the open part, or begins the next one. -/
lemma Describes.writeBatched {l : Layout R} (h : Describes l fmt w) (rows : List R) :
    ∃ l' : Layout R, Describes l' fmt (w.call (w.seq.writeBatched fmt w.files rows))
      ∧ l'.parts.flatten = l.parts.flatten ++ rows := by
  rw [PartSequencer.writeBatched]
  split_ifs with hrows hnew
  · rw [PartSession.call_nil, List.isEmpty_iff.mp hrows]
    exact ⟨l, h, (List.append_nil _).symm⟩
  · have hne : rows ≠ [] := fun he => hrows (List.isEmpty_iff.mpr he)
    refine ⟨⟨l.parts, some rows⟩, ?_, by simp [Layout.parts]⟩
    simp only [h.currentPart_closeIfOpen, h.fileExists_next]
    exact h.close_begin hne
  · obtain ⟨closed, current⟩ := l
    simp only [h.seq, Bool.or_eq_true, Bool.not_eq_true', not_or, Bool.not_eq_false,
      Bool.not_eq_true] at hnew
    cases current with
    | none => cases hnew.1
    | some old =>
        have hlen : (⟨closed, some old⟩ : Layout R).parts.length = closed.length + 1 :=
          List.length_append
        rw [hlen] at hnew
        have hexists : fileExists fmt w.files (closed.length + 1) = true := by
          rw [fileExists, h.get?_state, if_pos rfl]
          exact decide_eq_true (size_pos fmt old)
        refine ⟨⟨closed, some (old ++ rows)⟩, ?_, by simp [Layout.parts]⟩
        rw [h.seq, hlen, hexists]
        exact h.extend hnew.2

/-- **An atomic write**: it closes the open part, and publishes its own. -/
lemma Describes.writeAtomic {l : Layout R} (h : Describes l fmt w) (rows : List R) :
    ∃ l' : Layout R, Describes l' fmt (w.call (w.seq.writeAtomic w.files rows))
      ∧ l'.parts.flatten = l.parts.flatten ++ rows := by
  rw [PartSequencer.writeAtomic]
  split_ifs with hrows
  · rw [PartSession.call_nil, List.isEmpty_iff.mp hrows]
    exact ⟨l, h, (List.append_nil _).symm⟩
  · have hne : rows ≠ [] := fun he => hrows (List.isEmpty_iff.mpr he)
    refine ⟨⟨l.parts ++ [rows], none⟩, ?_, by simp [Layout.parts]⟩
    simp only [h.currentPart_closeIfOpen]
    rw [PartSession.call_append w (w.seq.closeIfOpen w.files).1]
    exact h.close.publish hne

/-- A restart reads back what the sequencer had in memory. -/
lemma Describes.load {l : Layout R} (h : Describes l fmt w) :
    PartSequencer.load w.files = w.seq := by
  rcases h.counter with hc | ⟨hc, hparts⟩
  · rw [PartSequencer.load, hc, h.seq]
  · obtain ⟨closed, current⟩ := l
    obtain ⟨hclosed, hcurrent⟩ := List.append_eq_nil_iff.mp hparts
    obtain rfl : closed = [] := hclosed
    obtain rfl : current = none := Option.toList_eq_nil_iff.mp hcurrent
    rw [PartSequencer.load, hc, h.seq, highest, highest, Dict.keys, Dict.keys, h.state, h.exported]
    rfl

/-- What one step preserves. -/
lemma Describes.step {l : Layout R} (h : Describes l fmt w) (op : PartOp R) :
    ∃ l' : Layout R, Describes l' fmt (w.step fmt op)
      ∧ l'.parts.flatten = l.parts.flatten ++ op.rows := by
  cases op with
  | batched rows => exact h.writeBatched rows
  | atomic rows => exact h.writeAtomic rows
  | restart =>
      refine ⟨l, ?_, (List.append_nil _).symm⟩
      rw [PartSession.step, h.load]
      exact h

lemma Describes.steps {l : Layout R} (h : Describes l fmt w) (ops : List (PartOp R)) :
    ∃ l' : Layout R, Describes l' fmt (ops.foldl (PartSession.step fmt) w)
      ∧ l'.parts.flatten = l.parts.flatten ++ ops.flatMap PartOp.rows := by
  induction ops generalizing l w with
  | nil => exact ⟨l, h, (List.append_nil _).symm⟩
  | cons op ops ih =>
      obtain ⟨l₁, h₁, hrows₁⟩ := h.step op
      obtain ⟨l₂, h₂, hrows₂⟩ := ih h₁
      refine ⟨l₂, h₂, ?_⟩
      rw [hrows₂, hrows₁, List.flatMap_cons, List.append_assoc]

/-- What a whole run preserves. -/
lemma describes_run (fmt : Format R) (ops : List (PartOp R)) :
    ∃ l : Layout R, Describes l fmt (PartSession.run fmt ops)
      ∧ l.parts.flatten = ops.flatMap PartOp.rows :=
  (describes_start fmt).steps ops

end Moves

end Layout

/-! ### Whole runs -/

open PartEffect

/-- What a sequencer has on disk, and how it came there. -/
structure PartSequence (fmt : Format R) (w : PartSession R) (rows : List R) : Prop where
  /-- parts are begun under the numbers `1`, `2`, `3` and so on, each once -/
  numbers : begun .fresh w.log = List.range' 1 (begun .fresh w.log).length
  /-- reading all parts gives the rows passed in, each once and in order -/
  reading : w.reading = rows
  /-- a part is its header and some rows -/
  header : ∀ p, w.files.Holds p → ∃ rows, rows ≠ [] ∧ p = Line.header :: rows.map Line.row
  /-- one part is open, above all export parts, or none is; the counter file says which -/
  state : (∃ n p, w.files.state.entries = [(n + 1, p)] ∧ w.files.counter = some (n + 1, true)
      ∧ w.files.exported.keys = List.range' 1 n)
    ∨ w.files.state.entries = [] ∧ ((∃ n, w.files.counter = some (n, false)
      ∧ w.files.exported.keys = List.range' 1 n)
      ∨ w.files.counter = none ∧ w.files.exported.entries = [])
  /-- from the effect on that puts a part into `export_base`, it stays as it is -/
  fixed : ∀ before after, w.log = before ++ after → ∀ n p,
    (applyAll .fresh before).exported.get? n = some p → w.files.exported.get? n = some p
  /-- what is appended to a part finds it below the cap -/
  cap : ∀ before n lines after, w.log = before ++ .append n lines :: after → ∀ p,
    (applyAll .fresh before).state.get? n = some p → fmt.size p < fmt.maxPartBytes

namespace Layout.Describes

variable {fmt : Format R} {w : PartSession R} {l : Layout R}

lemma keys_exported (h : Describes l fmt w) :
    w.files.exported.keys = List.range' 1 l.closed.length := by
  rw [Dict.keys, h.exported, map_fst_numbered]

lemma reading_eq (h : Describes l fmt w) : w.reading = l.parts.flatten := by
  have hsorted : w.files.exported.sorted.values = l.closed.map (writeCsv true) := by
    have hkeys : (w.files.exported.entries.map Prod.fst).Pairwise (· ≤ ·) := by
      have hk := h.keys_exported
      rw [Dict.keys] at hk
      rw [hk]
      exact (List.pairwise_lt_range' 1).imp le_of_lt
    have hentries : w.files.exported.sorted.entries = w.files.exported.entries :=
      (List.pairwise_map.mp hkeys).insertionSort_eq
    rw [Dict.values, hentries, h.exported, map_snd_numbered]
  have hstate : w.files.state.sorted.values = l.current.toList.map (writeCsv true) := by
    have hentries : w.files.state.sorted.entries = w.files.state.entries := by
      refine List.Pairwise.insertionSort_eq ?_
      rw [h.state]
      cases l.current with
      | none => exact List.Pairwise.nil
      | some old => exact List.pairwise_singleton _ _
    rw [Dict.values, hentries, h.state, List.map_map]
    rfl
  calc w.reading
      = (l.parts.map (writeCsv true)).flatMap Part.rows := by
        rw [PartSession.reading, hsorted, hstate, ← List.map_append, parts]
    _ = l.parts.flatMap id := by
        rw [List.flatMap_map]
        exact congrArg (l.parts.flatMap ·) (funext fun rows => rows_writeCsv true rows)
    _ = l.parts.flatten := List.flatMap_id ..

lemma header (h : Describes l fmt w) {p : Part R} (hp : w.files.Holds p) :
    ∃ rows, rows ≠ [] ∧ p = Line.header :: rows.map Line.row := by
  have hpart {rows : List R} (hr : rows ∈ l.parts) (he : p = writeCsv true rows) :
      ∃ rows, rows ≠ [] ∧ p = Line.header :: rows.map Line.row :=
    ⟨rows, h.nonempty rows hr, he⟩
  obtain ⟨n, hn | hn⟩ := hp
  · rw [Dict.get?_eq_some_iff, h.state, List.mem_map] at hn
    obtain ⟨rows, hr, he⟩ := hn
    exact hpart (List.mem_append_right _ hr) (congrArg Prod.snd he).symm
  · have hmem : p ∈ l.closed.map (writeCsv true) := by
      rw [← map_snd_numbered, ← h.exported]
      exact List.mem_map_of_mem (Dict.get?_eq_some_iff.mp hn)
    obtain ⟨rows, hr, rfl⟩ := List.mem_map.mp hmem
    exact hpart (List.mem_append_left _ hr) rfl

lemma partSequence (h : Describes l fmt w) : PartSequence fmt w l.parts.flatten where
  numbers := by rw [h.begun, List.length_range']
  reading := h.reading_eq
  header p hp := h.header hp
  state := by
    obtain ⟨closed, current⟩ := l
    cases current with
    | some old =>
        refine .inl ⟨closed.length, _, h.state, ?_, h.keys_exported⟩
        rcases h.counter with hc | ⟨-, hparts⟩
        · simpa [parts] using hc
        · simp [parts] at hparts
    | none =>
        refine .inr ⟨h.state, ?_⟩
        rcases h.counter with hc | ⟨hc, hparts⟩
        · exact .inl ⟨closed.length, by simpa [parts] using hc, h.keys_exported⟩
        · obtain rfl : closed = [] := by simpa [parts] using hparts
          exact .inr ⟨hc, h.exported⟩
  fixed before after hlog n p hp := by
    have hall := h.allowed
    rw [hlog, allAllowed_append] at hall
    rw [h.files, hlog, applyAll_append]
    exact hall.2.get?_applyAll hp
  cap before n lines after hlog p hp := by
    have hall := h.allowed
    rw [hlog, allAllowed_append] at hall
    exact hall.2.1 p hp

end Layout.Describes

/-- **A run of the sequencer**: its parts hold every row once and in order under numbers that
only go up, and no later call changes a part that is complete. -/
theorem part_sequence (fmt : Format R) (ops : List (PartOp R)) :
    PartSequence fmt (PartSession.run fmt ops) (ops.flatMap PartOp.rows)
      ∧ ∀ ops' n p, (PartSession.run fmt ops).files.exported.get? n = some p →
        (PartSession.run fmt (ops ++ ops')).files.exported.get? n = some p := by
  obtain ⟨l, h, hrows⟩ := Layout.describes_run fmt ops
  refine ⟨hrows ▸ h.partSequence, fun ops' n p hp => ?_⟩
  obtain ⟨l', h', -⟩ := Layout.describes_run fmt (ops ++ ops')
  obtain ⟨es, hes⟩ := PartSession.log_prefix fmt (PartSession.run fmt ops) ops'
  rw [← PartSession.run_append] at hes
  rw [h.files] at hp
  exact h'.partSequence.fixed _ es hes.symm n p hp

end BtcParser
