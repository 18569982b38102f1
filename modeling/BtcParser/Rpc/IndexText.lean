import BtcParser.Library.Bytes
import BtcParser.Library.Csv
import BtcParser.Library.Transition
import BtcParser.Rpc.ReorgState

/-!
The text of `index/index.csv`: what `IndexStore.flush` of `rpc/reorg_state.py` appends, and how
`_load` reads it back through `read_csv_lenient` of `common/csv_writer.py`.

`readCsv` is the reader of the data frame library, as far as it is relied on: a short line is
filled with nulls, a line with too many fields, an open quote or a bad number is an error.
-/

namespace BtcParser.IndexText

open Csv

/-- A row of `index.csv`, with the strings of the node. -/
abbrev Row := IndexRow (List Char)

/-! ### Numbers -/

/-- A number as it is written. -/
def decimal (z : ℤ) : List Char :=
  if z < 0 then '-' :: Nat.toDigits 10 z.natAbs else Nat.toDigits 10 z.natAbs

/-- The digits of a number, as far as they are ones. -/
def parseDigits (cs : List Char) : Option ℕ :=
  if cs ≠ [] ∧ cs.all Char.isDigit then some (Nat.ofDigitChars 10 cs 0) else none

/-- A number of 64 bits, from its text. -/
def parseInt64 (cs : List Char) : Option ℤ :=
  let z := if cs.head? = some '-' then (parseDigits cs.tail).map fun n : ℕ => -(n : ℤ)
    else (parseDigits cs).map fun n : ℕ => (n : ℤ)
  z.filter fun z => -2 ^ 63 ≤ z ∧ z < 2 ^ 63

/-! ### `pl.read_csv` -/

def heightName : List Char := ['h', 'e', 'i', 'g', 'h', 't']

def blockhashName : List Char := ['b', 'l', 'o', 'c', 'k', 'h', 'a', 's', 'h']

def previousblockhashName : List Char :=
  ['p', 'r', 'e', 'v', 'i', 'o', 'u', 's', 'b', 'l', 'o', 'c', 'k', 'h', 'a', 's', 'h']

def schemaVersionName : List Char :=
  ['s', 'c', 'h', 'e', 'm', 'a', '_', 'v', 'e', 'r', 's', 'i', 'o', 'n']

/-- The columns that are written. -/
def columnNames : List (List Char) :=
  [heightName, blockhashName, previousblockhashName, schemaVersionName]

/-- What `read_csv` returns. -/
structure Frame where
  columns : List (List Char)
  rows : List (List Field)

/-- The cell of a column, `none` if there is no such column. -/
def cell (columns : List (List Char)) (row : List Field) (name : List Char) : Option Field :=
  (columns.idxOf? name).bind fun i => row[i]?

/-- A null, or a number of 64 bits. -/
def Integer : Field → Prop
  | none => True
  | some text => (parseInt64 text).isSome = true

instance : DecidablePred Integer
  | none => isTrue trivial
  | some text => inferInstanceAs (Decidable ((parseInt64 text).isSome = true))

/-- The columns whose type is given as an integer hold integers, or nulls. -/
def IntegerCells (columns : List (List Char)) (row : List Field) : Prop :=
  ∀ name ∈ [heightName, schemaVersionName], ∀ f ∈ cell columns row name, Integer f

instance (columns : List (List Char)) (row : List Field) : Decidable (IntegerCells columns row) :=
  inferInstanceAs (Decidable (∀ name ∈ _, ∀ f ∈ cell columns row name, Integer f))

/-- `pl.read_csv`, with `none` for its errors. -/
def readCsv (text : List Char) : Option Frame :=
  match parse text with
  | none => none
  | some [] => none
  | some (header :: records) =>
      let columns := header.map fun f => f.getD []
      let rows := records.map fun r => r ++ List.replicate (columns.length - r.length) none
      if (∃ r ∈ records, columns.length < r.length) ∨ ∃ r ∈ rows, ¬ IntegerCells columns r
      then none
      else some ⟨columns, rows⟩

/-- `read_csv_lenient`: once more without the last line. -/
def readCsvLenient (text : List Char) : Option Frame :=
  match readCsv text with
  | some frame => some frame
  | none =>
      let lines := splitLines text
      if lines.length ≤ 1 then none else readCsv (joinLines lines.dropLast)

/-! ### `_load` -/

/-- `int(row[name])`, with `none` where it raises. -/
def intCell (columns : List (List Char)) (row : List Field) (name : List Char) : Option ℤ :=
  match cell columns row name with
  | some (some text) => parseInt64 text
  | _ => none

/-- One row of the frame. A part without `schema_version` has version 1. A null `blockhash` only
stands in a line that ends before its `schema_version`, so that it raises as well. -/
def rowOf (columns : List (List Char)) (row : List Field) : Option Row :=
  match intCell columns row heightName, cell columns row blockhashName,
      cell columns row previousblockhashName,
      if schemaVersionName ∈ columns then intCell columns row schemaVersionName else some 1 with
  | some height, some (some blockhash), some previous, some version =>
      some ⟨height, blockhash, previous.filter (· ≠ []), version.toNat⟩
  | _, _, _, _ => none

/-- The rows of a part, `none` where the load raises. -/
def loadPart (text : List Char) : Option (List Row) :=
  match readCsvLenient text with
  | none => none
  | some frame => frame.rows.mapM (rowOf frame.columns)

/-- `_load`: the rows of all the parts that are not empty. -/
def loadParts (parts : List (List Char)) : Option (List Row) :=
  ((parts.filter (· ≠ [])).mapM loadPart).map List.flatten

/-- `__init__`. -/
def load (parts : List (List Char)) : Option (IndexStore (List Char)) :=
  (loadParts parts).map fun rows => ⟨rows.foldl IndexStore.register .empty, .empty, false⟩

/-! ### `flush` -/

/-- The line of a row. -/
def rowText (r : Row) : List Char :=
  renderRecord [decimal r.height, r.blockhash, r.previousblockhash.getD [],
    decimal r.schemaVersion]

/-- The header. -/
def headerText : List Char := renderRecord columnNames

def rowsText (rows : List Row) : List Char := rows.flatMap rowText

/-- What `f.readline()` returns, without its newline. -/
def firstLine (text : List Char) : List Char := text.takeWhile (· ≠ '\n')

/-- Where a flush appends, and what. -/
structure Append where
  /-- the parts before the target -/
  front : List (List Char)
  /-- what the target holds -/
  old : List Char
  /-- what is appended to it -/
  new : List Char

/-- The append of `rows`. -/
def appendOf (maxPartBytes : ℕ) (parts : List (List Char)) (rows : List Row) : Append :=
  match parts.getLast? with
  | none => ⟨[], [], headerText ++ rowsText rows⟩
  | some target =>
      if target = [] then ⟨parts.dropLast, [], headerText ++ rowsText rows⟩
      else if maxPartBytes ≤ target.length then ⟨parts, [], headerText ++ rowsText rows⟩
      else if ¬ schemaVersionName <:+: firstLine target then
        ⟨parts, [], headerText ++ rowsText rows⟩
      else ⟨parts.dropLast, target, rowsText rows⟩

/-- The parts once `k` bytes of the append are on disk. -/
def Append.cut (a : Append) (k : ℕ) : List (List Char) := a.front ++ [a.old ++ a.new.take k]

/-- The parts after the append. -/
def Append.done (a : Append) : List (List Char) := a.front ++ [a.old ++ a.new]

/-! ### Histories -/

/-- A hash as the node writes it. -/
structure Hash where
  chars : List Char
  ne_nil : chars ≠ []
  hex : ∀ c ∈ chars, (hexValue c).isSome = true

/-- A number that a column of 64-bit integers holds. -/
abbrev Int64 := { z : ℤ // -2 ^ 63 ≤ z ∧ z < 2 ^ 63 }

inductive Label
  | add (height : Int64) (blockhash : Hash) (previousblockhash : Option Hash)
      (schemaVersion : Fin (2 ^ 63))
  | flush
  /-- the process dies when `k` bytes of the append are on disk, and starts again -/
  | crash (k : ℕ)
  | restart

/-- The parts on disk and the store, which is `none` where its load has raised; `completed` are
the rows whose lines are on disk in full, in order. -/
structure Session where
  parts : List (List Char)
  store : Option (IndexStore (List Char))
  completed : List Row

/-- The rows whose lines fit into the first `k` bytes. -/
def wholeRows : ℕ → List Row → List Row
  | _, [] => []
  | k, r :: rows =>
      if (rowText r).length ≤ k then r :: wholeRows (k - (rowText r).length) rows else []

/-- The bytes of the header that an append begins with. -/
def Append.headerBytes (a : Append) : ℕ := if a.old = [] then headerText.length else 0

def next (maxPartBytes : ℕ) : Label → Session → Option Session
  | .add height blockhash previousblockhash schemaVersion, s => s.store.map fun st =>
      { s with store := some (st.add height blockhash.chars (previousblockhash.map (·.chars))
          schemaVersion) }
  | .flush, s => s.store.map fun st =>
      if st.pending.entries.isEmpty then s
      else
        let a := appendOf maxPartBytes s.parts st.pending.values
        ⟨a.done, some st.flush, s.completed ++ st.pending.values⟩
  | .crash k, s => s.store.bind fun st =>
      let a := appendOf maxPartBytes s.parts st.pending.values
      if st.pending.entries.isEmpty ∨ a.new.length ≤ k then none
      else some ⟨a.cut k, load (a.cut k),
        s.completed ++ wholeRows (k - a.headerBytes) st.pending.values⟩
  | .restart, s => some { s with store := load s.parts }

/-- The histories of an index that starts without a file. -/
def system (maxPartBytes : ℕ) : TransitionSystem Session Label where
  init s := s = ⟨[], load [], []⟩
  step l s s' := next maxPartBytes l s = some s'

/-- The append starts on a line of its own. -/
def Append.OnNewLine (a : Append) : Prop := a.old = [] ∨ a.old.getLast? = some '\n'

/-- The cut leaves whole lines, a piece of the header, or an open quote. -/
def Append.CutWell (a : Append) (k : ℕ) : Prop :=
  lastLine (a.new.take k) = [] ∨ (a.old = [] ∧ k < headerText.length)
    ∨ (lastLine (a.new.take k)).count '"' % 2 = 1

/-- No append goes onto a torn line, and no crash leaves a row that is torn outside quotes. -/
def mendable (maxPartBytes : ℕ) : Label → Session → Prop
  | .flush, s => ∀ st ∈ s.store, ¬ st.pending.entries.isEmpty →
      (appendOf maxPartBytes s.parts st.pending.values).OnNewLine
  | .crash k, s => ∀ st ∈ s.store,
      (appendOf maxPartBytes s.parts st.pending.values).OnNewLine
        ∧ (appendOf maxPartBytes s.parts st.pending.values).CutWell k
  | _, _ => True

instance (a : Append) : Decidable a.OnNewLine := inferInstanceAs (Decidable (_ ∨ _))

instance (a : Append) (k : ℕ) : Decidable (a.CutWell k) := inferInstanceAs (Decidable (_ ∨ _ ∨ _))

instance (maxPartBytes : ℕ) (l : Label) (s : Session) : Decidable (mendable maxPartBytes l s) :=
  match l with
  | .add .. => isTrue trivial
  | .flush => inferInstanceAs (Decidable (∀ st ∈ s.store, ¬ st.pending.entries.isEmpty → _))
  | .crash _ => inferInstanceAs (Decidable (∀ st ∈ s.store, _ ∧ _))
  | .restart => isTrue trivial

end BtcParser.IndexText
