import BtcParser.Library.Csv
import BtcParser.Library.Dict

/-!
`common/csv_writer.py`: a logical CSV in numbered parts, appended to and read back.

A directory is what its files hold, by name. What the data frame library writes for rows, and what
it reads from texts, is a parameter, `DataFrames`; `DataFrames.Keeps` is what the code can rely on.
-/

namespace BtcParser.CsvWriter

open Csv

/-! ### Files -/

/-- The texts of the files of a directory, by their names. -/
abbrev Directory := Dict (List Char) (List Char)

/-- What a file holds, which is nothing if it does not exist. -/
def Directory.text (dir : Directory) (name : List Char) : List Char := (dir.get? name).getD []

/-- `st_size`, of a text in UTF-8. -/
def fileSize (text : List Char) : ℕ := (text.map Char.utf8Size).sum

/-- The path of a logical CSV, by the two halves of its name. -/
structure BasePath where
  stem : List Char
  suffix : List Char

def BasePath.name (b : BasePath) : List Char := b.stem ++ b.suffix

/-- `f"{part:06d}"`. -/
def sixDigits (part : ℕ) : List Char :=
  List.replicate (6 - (Nat.toDigits 10 part).length) '0' ++ Nat.toDigits 10 part

variable (b : BasePath)

/-- `part_path`. -/
def partPath (part : ℕ) : List Char :=
  if part ≤ 1 then b.name else b.stem ++ '.' :: (sixDigits part ++ b.suffix)

/-- The zeros of Unicode, each the first of ten decimal digits. -/
def decimalZeros : List ℕ :=
  [0x30, 0x660, 0x6f0, 0x7c0, 0x966, 0x9e6, 0xa66, 0xae6, 0xb66, 0xbe6, 0xc66, 0xce6, 0xd66, 0xde6,
    0xe50, 0xed0, 0xf20, 0x1040, 0x1090, 0x17e0, 0x1810, 0x1946, 0x19d0, 0x1a80, 0x1a90, 0x1b50,
    0x1bb0, 0x1c40, 0x1c50, 0xa620, 0xa8d0, 0xa900, 0xa9d0, 0xa9f0, 0xaa50, 0xabf0, 0xff10, 0x104a0,
    0x10d30, 0x11066, 0x110f0, 0x11136, 0x111d0, 0x112f0, 0x11450, 0x114d0, 0x11650, 0x116c0,
    0x11730, 0x118e0, 0x11950, 0x11c50, 0x11d50, 0x11da0, 0x16a60, 0x16ac0, 0x16b50, 0x1d7ce,
    0x1d7d8, 0x1d7e2, 0x1d7ec, 0x1d7f6, 0x1e140, 0x1e2f0, 0x1e950, 0x1fbf0]

/-- `\d`, and the value that `int` takes it for. -/
def decimalDigit (c : Char) : Option ℕ :=
  (decimalZeros.find? fun z => decide (z ≤ c.toNat ∧ c.toNat < z + 10)).map (c.toNat - ·)

/-- `part_re`, and the number that it finds. The `$` of a pattern also stands before a line feed at
the end. -/
def matchPart (name : List Char) : Option ℕ :=
  let digits := (name.drop (b.stem.length + 1)).take 6
  let part := b.stem ++ '.' :: (digits ++ b.suffix)
  if (name = part ∨ name = part ++ ['\n']) ∧ digits.length = 6 then
    (digits.mapM decimalDigit).map (List.foldl (fun n d => 10 * n + d) 0)
  else none

/-- `existing_part_numbers`. -/
def existingPartNumbers (dir : Directory) : List ℕ :=
  ((if dir.contains b.name then [1] else []) ++ dir.keys.filterMap (matchPart b)).insertionSort
    (· ≤ ·)

/-- `all_parts`. -/
def allParts (dir : Directory) : List (List Char) := (existingPartNumbers b dir).map (partPath b)

/-! ### Data frames -/

/-- A data frame: its columns, and its rows of values. -/
structure Frame (V : Type) where
  columns : List (List Char)
  rows : List (List V)

/-- The data frame library: what `write_csv` writes for the names of columns and for rows, and what
`pl.read_csv`, with the arguments that are passed on to it, and `pl.concat` return, with `none`
where they raise. -/
structure DataFrames (V : Type) where
  headerText : List (List Char) → List Char
  rowsText : List (List V) → List Char
  readCsv : List Char → Option (Frame V)
  concat : List (Frame V) → Option (Frame V)

/-- The rows that keep their values: each has a text of its own, from which it is read back,
together with others like it, and frames of such rows are put together as they are. -/
structure DataFrames.Keeps {V : Type} (lib : DataFrames V) (columns : List (List Char))
    (Plain : List V → Prop) : Prop where
  rowsText : ∀ rows, (∀ r ∈ rows, Plain r) →
    lib.rowsText rows = rows.flatMap fun r => lib.rowsText [r]
  readCsv : ∀ rows, rows ≠ [] → (∀ r ∈ rows, Plain r) →
    lib.readCsv (lib.headerText columns ++ lib.rowsText rows) = some ⟨columns, rows⟩
  concat : ∀ frames, frames ≠ [] → (∀ f ∈ frames, f.columns = columns ∧ ∀ r ∈ f.rows, Plain r) →
    lib.concat frames = some ⟨columns, frames.flatMap (·.rows)⟩

/-! ### Writing -/

/-- `_current_part_for_append`. -/
def currentPartForAppend (maxPartBytes : ℕ) (dir : Directory) : List Char :=
  match (existingPartNumbers b dir).getLast? with
  -- nothing on disk: the plain name is the first part
  | none => b.name
  | some n =>
      if maxPartBytes ≤ fileSize (dir.text (partPath b n)) then partPath b (n + 1)
      else partPath b n

variable {V : Type} (lib : DataFrames V)

/-- `write_rows_to_csv`, of rows with the given columns. -/
def writeRowsToCsv (columns : List (List Char)) (maxPartBytes : ℕ) (dir : Directory)
    (rows : List (List V)) : Directory :=
  if rows = [] then dir
  else
    let target := currentPartForAppend b maxPartBytes dir
    let old := dir.text target
    -- `st_size > 0` decides, not whether the file exists
    let header := if 0 < fileSize old then [] else lib.headerText columns
    dir.set target (old ++ (header ++ lib.rowsText rows))

/-! ### Reading -/

/-- `read_csv_lenient`: once more without the last line. -/
def readCsvLenient (text : List Char) : Option (Frame V) :=
  match lib.readCsv text with
  | some frame => some frame
  | none =>
      -- a crash may have cut the last line short
      let lines := splitLines text
      if lines.length ≤ 1 then none else lib.readCsv (joinLines lines.dropLast)

/-- `read_csv_parts`. -/
def readCsvParts (dir : Directory) : Option (Frame V) :=
  -- a file that is empty is passed over
  (((allParts b dir).map dir.text).filter (0 < fileSize ·)).mapM (readCsvLenient lib)
    >>= fun frames =>
    if frames = [] then some ⟨[], []⟩ else lib.concat frames

end BtcParser.CsvWriter
