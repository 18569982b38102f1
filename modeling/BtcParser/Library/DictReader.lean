import BtcParser.Library.Dict

/-!
The `csv` module of Python, with its default dialect: what `csv.reader` makes of the lines of a
text, and `csv.DictReader` of its records.

* `records`: the records of a text, and whether `csv.Error` ends them.
* `dictRows`: the rows, each a dictionary from the names of the columns.
* `get?_rowDict`: the value of a column is the one under the last of its names.
* `get?_rowDict_eq_some_none_iff`: it is `None` where the record ends before that.
-/

namespace BtcParser.DictReader

/-! ### Records -/

/-- A record of `csv.reader`. -/
abbrev Record := List (List Char)

/-- Where the reader is within a record. -/
inductive Phase
  | startRecord
  | startField
  | inField
  | inQuotedField
  | quoteInQuotedField
  | eatCrnl
  deriving DecidableEq

/-- The record that is being read: the field so far, and those before it. -/
structure Parser where
  phase : Phase
  field : List Char
  fields : Record

/-- The start of a record. -/
def Parser.fresh : Parser := ⟨.startRecord, [], []⟩

/-- `csv.field_size_limit()`. -/
def fieldLimit : ℕ := 131072

/-- The field ends. -/
def Parser.save (p : Parser) (phase : Phase) : Parser := ⟨phase, [], p.fields ++ [p.field]⟩

/-- A character of the field; `none` stands for the `csv.Error` of one that is too long. -/
def Parser.add (p : Parser) (c : Char) (phase : Phase) : Option Parser :=
  if fieldLimit ≤ p.field.length then none else some ⟨phase, p.field ++ [c], p.fields⟩

/-- The first character of a field; `none` is the end of a line. -/
def Parser.start (p : Parser) : Option Char → Option Parser
  | none => some (p.save .startRecord)
  | some c =>
      if c = '\n' ∨ c = '\r' then some (p.save .eatCrnl)
      else if c = '"' then some { p with phase := .inQuotedField }
      else if c = ',' then some (p.save .startField)
      else p.add c .inField

/-- One character, or the end of a line. -/
def Parser.step (p : Parser) (c : Option Char) : Option Parser :=
  match p.phase with
  | .startRecord =>
      if c = none then some p
      else if c = some '\n' ∨ c = some '\r' then some { p with phase := .eatCrnl }
      else p.start c
  | .startField => p.start c
  | .inField =>
      match c with
      | none => some (p.save .startRecord)
      | some c =>
          if c = '\n' ∨ c = '\r' then some (p.save .eatCrnl)
          else if c = ',' then some (p.save .startField)
          else p.add c .inField
  | .inQuotedField =>
      match c with
      | none => some p
      | some c =>
          if c = '"' then some { p with phase := .quoteInQuotedField } else p.add c .inQuotedField
  | .quoteInQuotedField =>
      match c with
      | none => some (p.save .startRecord)
      | some c =>
          if c = '"' then p.add c .inQuotedField
          else if c = ',' then some (p.save .startField)
          else if c = '\n' ∨ c = '\r' then some (p.save .eatCrnl)
          else p.add c .inField
  | .eatCrnl =>
      if c = some '\n' ∨ c = some '\r' then some p
      else if c = none then some { p with phase := .startRecord }
      else none

/-- The lines of an `io.StringIO`, each with its line feed. -/
def lines : List Char → List (List Char)
  | [] => []
  | c :: cs =>
      if c = '\n' then [c] :: lines cs
      else match lines cs with
        | [] => [[c]]
        | l :: ls => (c :: l) :: ls

/-- The records of lines, read on from `p`, and whether `csv.Error` ends them. A quote that stays
open ends with the text. -/
def recordsFrom (p : Parser) : List (List Char) → List Record × Bool
  | [] =>
      if p.field = [] ∧ p.phase ≠ .inQuotedField then ([], false)
      else ([(p.save .startRecord).fields], false)
  | line :: ls =>
      match (line.map some ++ [none]).foldlM Parser.step p with
      | none => ([], true)
      | some q =>
          if q.phase = .startRecord then
            (q.fields :: (recordsFrom .fresh ls).1, (recordsFrom .fresh ls).2)
          else recordsFrom q ls

/-- The records of a text. -/
def records (text : List Char) : List Record × Bool := recordsFrom .fresh (lines text)

/-! ### Dictionaries -/

/-- A row of a `csv.DictReader`, without the fields for which there is no column. -/
abbrev RawRow := Dict (List Char) (Option (List Char))

/-- The row of a record: where the record is too short, the value is `None`. -/
def rowDict (fieldnames row : Record) : RawRow :=
  fieldnames.zipIdx.foldl (fun d p => d.set p.1 row[p.2]?) .empty

/-- The names of the columns, and the records below them that are not blank. -/
def table (text : List Char) : Record × List Record :=
  match (records text).1 with
  | [] => ([], [])
  | names :: rs => (names, rs.filter fun r => !r.isEmpty)

/-- The rows of a text, and whether `csv.Error` ends them. -/
def dictRows (text : List Char) : List RawRow × Bool :=
  ((table text).2.map (rowDict (table text).1), (records text).2)

/-- The last column with a name. -/
def column (fieldnames : Record) (name : List Char) : Option ℕ :=
  (fieldnames.zipIdx.reverse.find? (·.1 = name)).map Prod.snd

lemma lt_length_of_column {fieldnames : Record} {name : List Char} {i : ℕ}
    (h : column fieldnames name = some i) : i < fieldnames.length := by
  obtain ⟨p, hp, rfl⟩ := Option.map_eq_some_iff.mp h
  have hmem := List.mem_reverse.mp (List.mem_of_find?_eq_some hp)
  exact (List.mem_zipIdx hmem).2.1.trans_eq (Nat.zero_add _)

lemma get?_foldl_set_last {K V A : Type} [DecidableEq K] (f : K × A → V) (l : List (K × A))
    (d : Dict K V) (k : K) :
    (l.foldl (fun d p => d.set p.1 (f p)) d).get? k
      = ((l.reverse.find? (·.1 = k)).map f).or (d.get? k) := by
  induction l generalizing d with
  | nil => rfl
  | cons p l ih =>
      rw [List.foldl_cons, ih, Dict.get?_set, List.reverse_cons, List.find?_append]
      cases l.reverse.find? (·.1 = k) with
      | some q => rfl
      | none =>
          by_cases hk : p.1 = k
          · simp [hk]
          · simp [hk, Ne.symm hk]

/-- The value of a column is the one under the last of its names. -/
theorem get?_rowDict (fieldnames row : Record) (name : List Char) :
    (rowDict fieldnames row).get? name = (column fieldnames name).map (row[·]?) := by
  rw [rowDict, get?_foldl_set_last (fun p => row[p.2]?), column, Option.map_map]
  exact Option.or_none

/-- The record ends before the last column with the name. -/
def Short (fieldnames row : Record) (name : List Char) : Prop :=
  ∃ i, column fieldnames name = some i ∧ row.length ≤ i

/-- A value is `None` where the record ends before the column. -/
theorem get?_rowDict_eq_some_none_iff {fieldnames row : Record} {name : List Char} :
    (rowDict fieldnames row).get? name = some none ↔ Short fieldnames row name := by
  rw [get?_rowDict, Option.map_eq_some_iff, Short]
  simp only [List.getElem?_eq_none_iff]

end BtcParser.DictReader
