import BtcParser.Library.Dict
import BtcParser.Rpc.MempoolWatchState
import Mathlib.Data.List.DropRight

/-!
`rpc/sanctions_list.py`: the list of sanctioned addresses, from one or more CSV files.

A file is what `csv.reader` makes of it: its records, or the exception that reading it raises. The
times of modification are of any type, and the lower case of a text is known where it is ASCII.
-/

namespace BtcParser.Sanctions

/-! ### Texts -/

/-- `str.lower`. -/
structure Casing where
  lower : List Char → List Char
  lower_ascii : ∀ cs, (∀ c ∈ cs, c.toNat < 128) → lower cs = cs.map Char.toLower

/-- The casing of texts that are all ASCII. -/
def asciiCasing : Casing := ⟨(·.map Char.toLower), fun _ _ => rfl⟩

/-- `str.isspace`, of one character. -/
def isSpace (c : Char) : Bool :=
  let n := c.toNat
  (9 ≤ n && n ≤ 13) || (28 ≤ n && n ≤ 32) || (8192 ≤ n && n ≤ 8202)
    || [133, 160, 5760, 8232, 8233, 8239, 8287, 12288].contains n

/-- `str.strip`. -/
def strip (cs : List Char) : List Char := (cs.dropWhile isSpace).rdropWhile isSpace

/-- `_BECH32_PREFIXES`. -/
def bech32Prefixes : List (List Char) :=
  [['b', 'c', '1'], ['t', 'b', '1'], ['b', 'c', 'r', 't', '1']]

/-- `s.startswith(_BECH32_PREFIXES)`. -/
def startsWithBech32 (cs : List Char) : Bool := bech32Prefixes.any (·.isPrefixOf cs)

variable (u : Casing)

/-- `normalize_address`. -/
def normalizeAddress (address : List Char) : List Char :=
  let address := strip address
  if startsWithBech32 (u.lower address) then u.lower address else address

/-! ### `_load_file` -/

/-- What ends the load of a file: `OSError`, a `ValueError` of the decoder, `csv.Error`, or the
`ValueError` of a header without the column `address`, with the names it has. -/
inductive LoadError
  | osError
  | valueError
  | csvError
  | noAddressColumn (fieldnames : List (List Char))

/-- A record of `csv.reader`. -/
abbrev Record := List (List Char)

/-- What reading a file gives. -/
abbrev FileRead := Except LoadError (List Record)

/-- `SanctionedAddress`. -/
structure ListedAddress extends SanctionedAddress where
  address : List Char
  deriving DecidableEq

/-- `row.get(name)` of a `csv.DictReader`: of equal names the last one counts, and a short row has
`None` for what is missing. -/
def rowGet (fieldnames : List (List Char)) (row : Record) (name : List Char) :
    Option (List Char) :=
  (fieldnames.zipIdx.reverse.find? (·.1 = name)).bind fun p => row[p.2]?

def addressName : List Char := ['a', 'd', 'd', 'r', 'e', 's', 's']

def nameName : List Char := ['n', 'a', 'm', 'e']

def firstNameName : List Char := ['f', 'i', 'r', 's', 't', '_', 'n', 'a', 'm', 'e']

def sanctionsProgramsName : List Char :=
  ['s', 'a', 'n', 'c', 't', 'i', 'o', 'n', 's', '_', 'p', 'r', 'o', 'g', 'r', 'a', 'm', 's']

/-- `row.get("address") or ""`. -/
def rawAddress (fieldnames : List (List Char)) (row : Record) : List Char :=
  (rowGet fieldnames row addressName).getD []

/-- The entry of a row. -/
def entryOf (listFile : String) (fieldnames : List (List Char)) (row : Record) : ListedAddress where
  address := normalizeAddress u (rawAddress fieldnames row)
  name := String.ofList (strip ((rowGet fieldnames row nameName).getD []))
  firstName := String.ofList (strip ((rowGet fieldnames row firstNameName).getD []))
  sanctionsPrograms := String.ofList (strip ((rowGet fieldnames row sanctionsProgramsName).getD []))
  listFile := listFile

/-- The names of the columns, from the first record. -/
def fieldnamesOf (header : Record) : List (List Char) := header.map fun name => u.lower (strip name)

/-- `_load_file`. An empty file has no entries; `csv.DictReader` skips empty records. -/
def loadFile (listFile : String) : FileRead → Except LoadError (Dict (List Char) ListedAddress)
  | .error e => .error e
  | .ok [] => .ok .empty
  | .ok (header :: records) =>
      let fieldnames := fieldnamesOf u header
      if !fieldnames.contains addressName then .error (.noAddressColumn fieldnames)
      else
        .ok ((records.filter (· ≠ [])).foldl (fun entries row =>
          let entry := entryOf u listFile fieldnames row
          -- the first row of an address counts
          if entry.address = [] then entries else entries.setDefault entry.address entry) .empty)

/-! ### `SanctionsList` -/

variable {P M : Type} [DecidableEq M]

/-- The attributes of a `SanctionsList`. -/
structure SanctionsList (M : Type) where
  entries : Dict (List Char) ListedAddress
  mtimes : List M

/-- What a reload meets: the times of modification, `none` where `stat` raises, and the files. -/
structure Seen (P M : Type) where
  mtime : P → Option M
  read : P → FileRead

variable (fileName : P → String) (paths : List P)

/-- The files, loaded and merged. -/
def loadAll (read : P → FileRead) : Except LoadError (Dict (List Char) ListedAddress) :=
  -- the first file of an address counts, in the order of the paths
  (paths.mapM fun p => loadFile u (fileName p) (read p)).map fun files => files.foldl .merge .empty

/-- `_current_mtimes`. -/
def currentMtimes (seen : Seen P M) : Option (List M) := paths.mapM seen.mtime

/-- `reload_if_changed`, `none` where it raises. -/
def SanctionsList.reloadIfChanged (s : SanctionsList M) (force : Bool) (seen : Seen P M) :
    Option (SanctionsList M × Bool) :=
  match currentMtimes paths seen with
  -- a file that is missing for a moment: the entries stay
  | none => if force then none else some (s, false)
  | some mtimes =>
      if force = false ∧ mtimes = s.mtimes then some (s, false)
      else
        match loadAll u fileName paths seen.read with
        -- the times are taken over, so the same files are not loaded again
        | .error _ => if force then none else some ({ s with mtimes := mtimes }, false)
        | .ok merged => some (⟨merged, mtimes⟩, true)

/-- `__init__`. -/
def SanctionsList.start (seen : Seen P M) : Option (SanctionsList M) :=
  (SanctionsList.reloadIfChanged u fileName paths ⟨.empty, []⟩ true seen).map Prod.fst

/-- `lookup`. -/
def SanctionsList.lookup (s : SanctionsList M) : Option (List Char) → Option ListedAddress
  | none => none
  | some a => if a = [] then none else s.entries.get? (normalizeAddress u a)

end BtcParser.Sanctions
