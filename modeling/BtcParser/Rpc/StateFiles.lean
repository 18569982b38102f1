import BtcParser.Common.CsvWriter
import BtcParser.Rpc.IndexText
import BtcParser.Rpc.ReorgState
import Mathlib.Data.Char
import Mathlib.Data.List.Lex

/-!
The texts of `current.csv`, `latest.csv` and `block_status.csv`, as `rpc/reorg_state.py` writes them
and reads them back without naming the types of their columns.

The data frame library guesses the type of a column from its texts: digits make integers, digits
around an `e` make floats, `true` and `false` make booleans, and the rest stays text.
-/

namespace BtcParser.StateFiles

open Csv IndexText

/-! ### Typed cells -/

/-- The numbers of the reader: which integers a column holds, the floats with what Python makes of
them, and `int` of a text. -/
structure Numbers where
  fits : ℤ → Bool
  Float : Type
  float : List Char → Float
  str : Float → List Char
  trunc : Float → Option ℤ
  nonzero : Float → Bool
  parseInt : List Char → Option ℤ
  /-- a float is shown with a point, a sign or in words -/
  str_notHex : ∀ x, ∃ c ∈ str x, hexValue c = none

/-- Integers of 64 bits, and the float zero. -/
def zeroFloats : Numbers where
  fits z := decide (-2 ^ 63 ≤ z ∧ z < 2 ^ 63)
  Float := Unit
  float _ := ()
  str _ := ['0', '.', '0']
  trunc _ := some 0
  nonzero _ := false
  parseInt _ := none
  str_notHex _ := ⟨'.', List.mem_cons_of_mem _ List.mem_cons_self, rfl⟩

/-- A value of a data frame. -/
inductive Value (R : Numbers)
  | null
  | int (z : ℤ)
  | float (x : R.Float)
  | bool (b : Bool)
  | text (cs : List Char)

variable (R : Numbers)

/-- `int(value)`, with `none` where it raises. -/
def Value.toInt : Value R → Option ℤ
  | .null => none
  | .int z => some z
  | .float x => R.trunc x
  | .bool b => some (if b then 1 else 0)
  | .text cs => R.parseInt cs

/-- `str(value)`. -/
def Value.toStr : Value R → List Char
  | .null => ['N', 'o', 'n', 'e']
  | .int z => decimal z
  | .float x => R.str x
  | .bool b => if b then ['T', 'r', 'u', 'e'] else ['F', 'a', 'l', 's', 'e']
  | .text cs => cs

/-- `bool(value)`. -/
def Value.toBool : Value R → Bool
  | .null => false
  | .int z => z ≠ 0
  | .float x => R.nonzero x
  | .bool b => b
  | .text cs => cs ≠ []

/-! ### Types of columns -/

inductive ColumnType
  | integer
  | float
  | boolean
  | text
  deriving DecidableEq

/-- Decimal digits. -/
def isDigits (cs : List Char) : Bool := !cs.isEmpty && cs.all Char.isDigit

/-- Decimal digits, an `e`, and decimal digits. -/
def isExponential (cs : List Char) : Bool :=
  match cs.dropWhile Char.isDigit with
  | 'e' :: back => isDigits (cs.takeWhile Char.isDigit) && isDigits back
  | _ => false

/-- The text of a boolean. -/
def booleanText (b : Bool) : List Char :=
  if b then ['t', 'r', 'u', 'e'] else ['f', 'a', 'l', 's', 'e']

/-- The type of a column with the given texts, nulls left out. -/
def inferType (cells : List (List Char)) : ColumnType :=
  if cells = [] then .text
  else if cells.all isDigits then .integer
  else if cells.all isExponential then .float
  else if cells.all fun cs => cs = booleanText true || cs = booleanText false then .boolean
  else .text

/-- A cell of a column, with `none` where the library raises. -/
def cellValue : ColumnType → Field → Option (Value R)
  | _, none => some .null
  | .integer, some cs =>
      (parseDigits cs).bind fun n => if R.fits n then some (.int n) else none
  | .float, some cs => some (.float (R.float cs))
  | .boolean, some cs => some (.bool (cs = booleanText true))
  | .text, some cs => some (.text cs)

/-- What `read_csv` returns. -/
structure Frame where
  columns : List (List Char)
  rows : List (List (Value R))

/-- The types of the columns of rows of texts. -/
def columnTypes (width : ℕ) (rows : List (List Field)) : List ColumnType :=
  (List.range width).map fun i => inferType (rows.filterMap fun r => (r[i]?).join)

/-- A row of the columns' types. -/
def rowValues (types : List ColumnType) (row : List Field) : Option (List (Value R)) :=
  (types.zip row).mapM fun p => cellValue R p.1 p.2

/-- The cells of a text, before their columns have types: a line with too few of them is filled with
nulls, one with too many is an error. -/
def readCells (text : List Char) : Option (CsvWriter.Frame Field) :=
  match parse text with
  | none => none
  | some [] => none
  | some (header :: records) =>
      let columns := header.map fun f => f.getD []
      if ∃ r ∈ records, columns.length < r.length then none
      else some ⟨columns, records.map fun r => r ++ List.replicate (columns.length - r.length) none⟩

/-- `pl.read_csv`, with `none` for its errors. -/
def readCsv (text : List Char) : Option (Frame R) :=
  (readCells text).bind fun frame =>
    (frame.rows.mapM (rowValues R (columnTypes frame.columns.length frame.rows))).map fun rows =>
      ⟨frame.columns, rows⟩

/-- The cells of records of the right length are read back. -/
lemma readCells_renderCells {columns : List (List Char)} (hcolumns : columns ≠ [])
    {rows : List (List Field)} (hshape : ∀ r ∈ rows, r.length = columns.length) :
    readCells (renderCells (columns.map some) ++ rows.flatMap renderCells)
      = some ⟨columns, rows⟩ := by
  have hcells : ∀ fs ∈ columns.map some :: rows, fs ≠ [] := by
    intro fs hfs
    rcases List.mem_cons.mp hfs with rfl | hfs
    · simpa using hcolumns
    · rintro rfl
      exact hcolumns (List.length_eq_zero_iff.mp (hshape _ hfs).symm)
  have hnames : (columns.map some).map (fun f : Field => f.getD []) = columns := by
    rw [List.map_map]
    exact List.map_id columns
  have hlong : ¬ ∃ r ∈ rows, columns.length < r.length := by
    rintro ⟨r, hr, hlt⟩
    exact absurd (hshape r hr) hlt.ne'
  have hpad : rows.map (fun r => r ++ List.replicate (columns.length - r.length) none) = rows := by
    refine (List.map_congr_left fun r hr => ?_).trans (List.map_id _)
    rw [hshape r hr, Nat.sub_self, List.replicate_zero, List.append_nil, id]
  rw [readCells, ← List.flatMap_cons, parse_cells _ hcells]
  simp only [hnames, if_neg hlong, hpad]

/-- A text that is neither a number nor a boolean to the reader. -/
def PlainText (cs : List Char) : Prop :=
  isDigits cs = false ∧ isExponential cs = false ∧ ∀ b, cs ≠ booleanText b

instance (cs : List Char) : Decidable (PlainText cs) := inferInstanceAs (Decidable (_ ∧ _ ∧ _))

/-- A column with such a text in it is one of texts. -/
lemma inferType_of_plainText {cells : List (List Char)} {cs : List Char} (hcs : cs ∈ cells)
    (h : PlainText cs) : inferType cells = .text := by
  obtain ⟨hdigits, hexponential, hbool⟩ := h
  have hall : ∀ p : List Char → Bool, p cs = false → ¬ cells.all p = true := fun p hp hall => by
    rw [List.all_eq_true.mp hall cs hcs] at hp
    cases hp
  rw [inferType, if_neg (List.ne_nil_of_mem hcs), if_neg (hall _ hdigits),
    if_neg (hall _ hexponential), if_neg (hall _ (by simp [hbool]))]

/-- `read_csv_lenient`: once more without the last line. -/
def readCsvLenient (text : List Char) : Option (Frame R) :=
  match readCsv R text with
  | some frame => some frame
  | none =>
      let lines := splitLines text
      if lines.length ≤ 1 then none else readCsv R (joinLines lines.dropLast)

/-- `row[name]`. -/
def rowValue (columns : List (List Char)) (row : List (Value R)) (name : List Char) :
    Option (Value R) :=
  (columns.idxOf? name).bind fun i => row[i]?

/-! ### Pointers -/

/-- What a file holds, `none` if it does not exist. -/
abbrev File := Option (List Char)

/-- The text of a data frame: its columns and its rows. -/
def frameText (columns : List (List Char)) (rows : List (List (List Char))) : List Char :=
  renderCells (columns.map some) ++ rows.flatMap fun row => renderCells (row.map some)

/-- `write_single_row_csv`. -/
def writeSingleRowCsv (row : List (List Char × List Char)) : File :=
  some (frameText (row.map Prod.fst) [row.map Prod.snd])

/-- `read_single_row_csv`: `none` where it raises, and inside of it `none` for no row. -/
def readSingleRowCsv (file : File) : Option (Option (List (List Char) × List (Value R))) :=
  match file with
  | none => some none
  | some [] => some none
  | some text => (readCsv R text).map fun frame => frame.rows.head?.map fun row =>
      (frame.columns, row)

/-- `write_pointer`. -/
def writePointer (height : ℤ) (blockhash : List Char) : File :=
  writeSingleRowCsv [(heightName, decimal height), (blockhashName, blockhash)]

/-- `read_pointer`: `none` where it raises, and inside of it `none` for no pointer. -/
def readPointer (file : File) : Option (Option (ℤ × List Char)) :=
  (readSingleRowCsv R file).bind fun found =>
    match found with
    | none => some none
    | some (columns, row) =>
        ((rowValue R columns row heightName).bind (Value.toInt R)).bind fun height =>
          (rowValue R columns row blockhashName).map fun blockhash =>
            some (height, Value.toStr R blockhash)

/-! ### `BlockStatusStore` -/

/-- An entry of the store. -/
abbrev Entry := (ℤ × List Char) × Bool

def canonicalName : List Char := ['c', 'a', 'n', 'o', 'n', 'i', 'c', 'a', 'l']

def statusColumns : List (List Char) := [heightName, blockhashName, canonicalName]

/-- The order of `sorted`, of entries with different keys. -/
def before (e f : Entry) : Prop := e.1.1 < f.1.1 ∨ e.1.1 = f.1.1 ∧ e.1.2 ≤ f.1.2

instance : DecidableRel before := fun e f =>
  inferInstanceAs (Decidable (e.1.1 < f.1.1 ∨ e.1.1 = f.1.1 ∧ e.1.2 ≤ f.1.2))

/-- The cells of an entry. -/
def entryCells (e : Entry) : List (List Char) := [decimal e.1.1, e.1.2, booleanText e.2]

/-- The text `flush` writes for a list of entries. -/
def entriesText (entries : List Entry) : List Char :=
  frameText statusColumns (entries.map entryCells)

/-- `flush`: the file after it. -/
def flushFile (s : BlockStatusStore (List Char)) (file : File) : File :=
  if s.dirty then some (entriesText (s.entries.entries.insertionSort before)) else file

/-- A row of the file. -/
def rowEntry (columns : List (List Char)) (row : List (Value R)) : Option Entry :=
  ((rowValue R columns row heightName).bind (Value.toInt R)).bind fun height =>
    (rowValue R columns row blockhashName).bind fun blockhash =>
      (rowValue R columns row canonicalName).map fun canonical =>
        ((height, Value.toStr R blockhash), Value.toBool R canonical)

/-- `_load`, with `none` where it raises. -/
def loadFile (file : File) : Option (BlockStatusStore (List Char)) :=
  match file with
  | none => some ⟨.empty, false⟩
  | some [] => some ⟨.empty, false⟩
  | some text =>
      (readCsvLenient R text).bind fun frame =>
        (frame.rows.mapM (rowEntry R frame.columns)).map fun entries =>
          ⟨entries.foldl (fun d e => d.set e.1 e.2) .empty, false⟩

end BtcParser.StateFiles
