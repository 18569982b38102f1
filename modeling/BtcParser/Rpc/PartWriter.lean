import BtcParser.Library.Dict

/-!
`rpc/part_writer.py`: the part sequencer of one logical CSV (`blocks`, `transactions`, `inputs`
or `outputs`).

A logical CSV lives under two roots. Batched rows are appended to one open part under
`state_base`; a complete part lies under `export_base`, where a consumer may take it away at any
moment. One counter file holds the current part number and whether that part is still open.

Each call is translated into the list of its effects on the disk, in the order in which the code
has them (`PartEffect`): the append, the `os.replace` of the state part into export, the
replacement of the counter file, and the replacement of an export part. Everything a call reads
(the state part and its size) is read under `state_base`, which only the sequencer itself
changes, so the list is determined when the call starts.
-/

namespace BtcParser

/-- A line of a part: the header, or one row. -/
inductive Line (R : Type) where
  | header
  | row (r : R)
  deriving DecidableEq

/-- A part file, line by line. -/
abbrev Part (R : Type) := List (Line R)

/-- The rows of a part. -/
def Part.rows {R : Type} (p : Part R) : List R :=
  p.filterMap fun l => match l with
    | .header => none
    | .row r => some r

/-- What `write_csv` appends. -/
def writeCsv {R : Type} (includeHeader : Bool) (rows : List R) : Part R :=
  (if includeHeader then [Line.header] else []) ++ rows.map Line.row

@[simp] lemma Part.rows_nil {R : Type} : Part.rows ([] : Part R) = [] := rfl

@[simp] lemma Part.rows_append {R : Type} (p q : Part R) :
    Part.rows (p ++ q) = p.rows ++ q.rows :=
  List.filterMap_append ..

@[simp] lemma rows_writeCsv {R : Type} (b : Bool) (rows : List R) :
    (writeCsv b rows).rows = rows := by
  cases b <;> simp [writeCsv, Part.rows, List.filterMap_map]

/-- The rotation cap, and how many bytes a line takes (without its newline). -/
structure Format (R : Type) where
  maxPartBytes : ℕ
  lineBytes : Line R → ℕ

/-- `st_size` of a part. -/
def Format.size {R : Type} (fmt : Format R) (p : Part R) : ℕ :=
  (p.map fun l => fmt.lineBytes l + 1).sum

/-- What one logical CSV has on disk. `consumed` is what a consumer has taken out of
`export_base` so far; no code reads it. -/
structure PartFiles (R : Type) where
  counter : Option (ℕ × Bool)
  state : Dict ℕ (Part R)
  exported : Dict ℕ (Part R)
  consumed : List (Part R)

namespace PartFiles

variable {R : Type}

/-- Empty directories, no counter file. -/
def fresh : PartFiles R := ⟨none, .empty, .empty, []⟩

/-- A consumer takes the export part `n` away. -/
def consume (f : PartFiles R) (n : ℕ) : PartFiles R :=
  match f.exported.get? n with
  | none => f
  | some p => { f with exported := f.exported.erase n, consumed := f.consumed ++ [p] }

/-- `p` is a part under one of the two roots. -/
def Holds (f : PartFiles R) (p : Part R) : Prop :=
  ∃ n, f.state.get? n = some p ∨ f.exported.get? n = some p

lemma Holds.of_consume {f : PartFiles R} {n : ℕ} {p : Part R} (h : (f.consume n).Holds p) :
    f.Holds p := by
  unfold consume at h
  split at h
  · exact h
  · obtain ⟨m, hm | hm⟩ := h
    · exact ⟨m, .inl hm⟩
    · refine ⟨m, .inr ?_⟩
      simp only [Dict.get?_erase, Option.ite_none_left_eq_some] at hm
      exact hm.2

end PartFiles

/-- The effects of a call on the disk, each atomic. -/
inductive PartEffect (R : Type) where
  /-- append to the state part `n` -/
  | append (n : ℕ) (lines : Part R)
  /-- `os.replace` of the state part `n` over the export part `n` -/
  | handOff (n : ℕ)
  /-- `_persist`: replace the counter file -/
  | persist (n : ℕ) (isOpen : Bool)
  /-- `atomic_replace` of the export part `n` -/
  | publish (n : ℕ) (lines : Part R)
  deriving DecidableEq

namespace PartEffect

variable {R : Type}

/-- What an effect does to the disk. -/
def apply (f : PartFiles R) : PartEffect R → PartFiles R
  | append n lines => { f with state := f.state.set n ((f.state.get? n).getD [] ++ lines) }
  | handOff n =>
      match f.state.get? n with
      | none => f
      | some p => { f with state := f.state.erase n, exported := f.exported.set n p }
  | persist n isOpen => { f with counter := some (n, isOpen) }
  | publish n lines => { f with exported := f.exported.set n lines }

/-- The number under which an effect puts a file into `export_base`. -/
def exports : PartEffect R → Option ℕ
  | handOff n => some n
  | publish n _ => some n
  | append .. => none
  | persist .. => none

/-- What an effect writes. -/
def lines : PartEffect R → Option (Part R)
  | append _ l => some l
  | publish _ l => some l
  | handOff _ => none
  | persist .. => none

/-- Where the parts come from: a part that was there, or one that the effect wrote to. -/
lemma holds_apply {f : PartFiles R} {e : PartEffect R} {p : Part R} (h : (e.apply f).Holds p) :
    f.Holds p ∨ ∃ l, e.lines = some l ∧ (p = l ∨ ∃ q, f.Holds q ∧ p = q ++ l) := by
  obtain ⟨m, hm⟩ := h
  cases e with
  | append n l =>
      simp only [apply, Dict.get?_set] at hm
      rcases hm with hm | hm
      · split_ifs at hm
        · simp only [Option.some.injEq] at hm
          refine .inr ⟨l, rfl, ?_⟩
          cases hq : f.state.get? n with
          | none => exact .inl (by simp [← hm, hq])
          | some q => exact .inr ⟨q, ⟨n, .inl hq⟩, by simp [← hm, hq]⟩
        · exact .inl ⟨m, .inl hm⟩
      · exact .inl ⟨m, .inr hm⟩
  | publish n l =>
      simp only [apply, Dict.get?_set] at hm
      rcases hm with hm | hm
      · exact .inl ⟨m, .inl hm⟩
      · split_ifs at hm
        · exact .inr ⟨l, rfl, .inl (Option.some.inj hm).symm⟩
        · exact .inl ⟨m, .inr hm⟩
  | persist n b => exact .inl ⟨m, hm⟩
  | handOff n =>
      refine .inl ?_
      simp only [apply] at hm
      cases hq : f.state.get? n with
      | none =>
          rw [hq] at hm
          exact ⟨m, hm⟩
      | some q =>
          simp only [hq, Dict.get?_erase, Dict.get?_set] at hm
          split_ifs at hm with hmn
          · rcases hm with hm | hm
            · cases hm
            · exact ⟨n, .inl (hq.trans hm)⟩
          · exact ⟨m, hm⟩

/-- The effects of a call, one after the other. -/
def applyAll (f : PartFiles R) (es : List (PartEffect R)) : PartFiles R := es.foldl apply f

@[simp] lemma applyAll_nil (f : PartFiles R) : applyAll f [] = f := rfl

@[simp] lemma applyAll_cons (f : PartFiles R) (e : PartEffect R) (es : List (PartEffect R)) :
    applyAll f (e :: es) = applyAll (apply f e) es := rfl

lemma applyAll_append (f : PartFiles R) (es es' : List (PartEffect R)) :
    applyAll f (es ++ es') = applyAll (applyAll f es) es' :=
  List.foldl_append ..

end PartEffect

/-- The two fields a `PartSequencer` keeps in memory. -/
structure PartSequencer where
  currentPart : ℕ
  partIsOpen : Bool
  deriving DecidableEq

namespace PartSequencer

variable {R : Type}

/-- The highest part number on disk, `0` if there is none. -/
def highest (d : Dict ℕ (Part R)) : ℕ := d.keys.foldl max 0

/-- `__init__`: the persisted counter, or on first use a scan of the two roots. -/
def load (f : PartFiles R) : PartSequencer :=
  match f.counter with
  | some (n, isOpen) => ⟨n, isOpen⟩
  | none =>
      if highest f.state ≠ 0 then ⟨highest f.state, true⟩
      else ⟨highest f.exported, false⟩

/-- `_close_if_open`. -/
def closeIfOpen (s : PartSequencer) (f : PartFiles R) : PartSequencer × List (PartEffect R) :=
  if s.partIsOpen then
    (⟨s.currentPart, false⟩,
      -- `os.replace`, then `_persist`: a crash may come between the two
      (if f.state.contains s.currentPart then [.handOff s.currentPart] else [])
        ++ [.persist s.currentPart false])
  else (s, [])

/-- `target.exists() and target.stat().st_size > 0`. -/
def fileExists (fmt : Format R) (f : PartFiles R) (n : ℕ) : Bool :=
  match f.state.get? n with
  | none => false
  | some p => decide (0 < fmt.size p)

/-- `target.exists() and target.stat().st_size >= max_part_bytes`. -/
def isFull (fmt : Format R) (f : PartFiles R) (n : ℕ) : Bool :=
  match f.state.get? n with
  | none => false
  | some p => decide (fmt.maxPartBytes ≤ fmt.size p)

/-- `write_batched`. -/
def writeBatched (fmt : Format R) (s : PartSequencer) (f : PartFiles R) (rows : List R) :
    PartSequencer × List (PartEffect R) :=
  if rows.isEmpty then (s, [])
  -- no part is open, or the open one has reached the cap: the next number
  else if !s.partIsOpen || isFull fmt f s.currentPart then
    let (closed, effects) := s.closeIfOpen f
    let n := closed.currentPart + 1
    (⟨n, true⟩, effects ++
      [.append n (writeCsv (!fileExists fmt f n) rows), .persist n true])
  else
    -- appended to the open part
    (s, [.append s.currentPart (writeCsv (!fileExists fmt f s.currentPart) rows),
      .persist s.currentPart s.partIsOpen])

/-- `write_atomic`. The counter is persisted before the part is written. -/
def writeAtomic (s : PartSequencer) (f : PartFiles R) (rows : List R) :
    PartSequencer × List (PartEffect R) :=
  if rows.isEmpty then (s, [])
  else
    let (closed, effects) := s.closeIfOpen f
    let n := closed.currentPart + 1
    (⟨n, false⟩, effects ++ [.persist n false, .publish n (writeCsv true rows)])

lemma lines_closeIfOpen {s : PartSequencer} {f : PartFiles R} {e : PartEffect R}
    (he : e ∈ (s.closeIfOpen f).2) : e.lines = none := by
  unfold closeIfOpen at he
  split_ifs at he <;> simp at he <;> rcases he with rfl | rfl <;> rfl

/-- A batched write writes its rows and nothing else. -/
lemma lines_writeBatched {fmt : Format R} {s : PartSequencer} {f : PartFiles R} {rows : List R}
    {e : PartEffect R} (he : e ∈ (s.writeBatched fmt f rows).2) {l : Part R}
    (hl : e.lines = some l) : ∃ b, l = writeCsv b rows := by
  unfold writeBatched at he
  split_ifs at he
  · cases he
  · simp only [List.mem_append, List.mem_cons, List.not_mem_nil, or_false] at he
    rcases he with he | rfl | rfl
    · rw [lines_closeIfOpen he] at hl
      cases hl
    · exact ⟨_, (Option.some.inj hl).symm⟩
    · cases hl
  · simp only [List.mem_cons, List.not_mem_nil, or_false] at he
    rcases he with rfl | rfl
    · exact ⟨_, (Option.some.inj hl).symm⟩
    · cases hl

/-- An atomic write writes its rows and nothing else. -/
lemma lines_writeAtomic {s : PartSequencer} {f : PartFiles R} {rows : List R}
    {e : PartEffect R} (he : e ∈ (s.writeAtomic f rows).2) {l : Part R}
    (hl : e.lines = some l) : ∃ b, l = writeCsv b rows := by
  unfold writeAtomic at he
  split_ifs at he
  · cases he
  · simp only [List.mem_append, List.mem_cons, List.not_mem_nil, or_false] at he
    rcases he with he | rfl | rfl
    · rw [lines_closeIfOpen he] at hl
      cases hl
    · cases hl
    · exact ⟨_, (Option.some.inj hl).symm⟩

end PartSequencer

end BtcParser
