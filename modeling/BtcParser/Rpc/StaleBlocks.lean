import BtcParser.Common.BlockHeader
import BtcParser.Library.Keyed
import BtcParser.Library.Transition
import BtcParser.Rpc.StateFiles

/-!
`rpc/stale_blocks_state.py` and `rpc/stale_blocks.py`: the registry of stale blocks, and the two
passes that feed it.

`registry.csv` is the list of the rows that were last written, each with the values of its columns;
`first_seen` and `observed_at` are left out. It is read back without naming the types of its
columns, so that a column of texts that look like numbers comes back as numbers: a `ColumnReader` is
what the data frame library makes of the two columns of texts, and `ColumnReader.Documented` what
the code can rely on. A pass handles its sightings one after the other, and the process can stop and
start again between any two of them: `StaleBlocks.system`.
-/

namespace BtcParser

/-- `UNUSABLE` and `HEADER_ONLY`. -/
inductive StaleStatus where
  | unusable
  | headerOnly
  deriving DecidableEq

/-- `_STATUS_RANK`. -/
def StaleStatus.rank : StaleStatus → ℕ
  | .unusable => 0
  | .headerOnly => 1

/-- The `status` of a chain tip. -/
inductive ChainTipStatus where
  | active
  | invalid
  | validFork
  | validHeaders
  | headersOnly
  deriving DecidableEq

/-- The `source` of a sighting. -/
inductive StaleSource where
  | ownNode
  | github
  deriving DecidableEq

/-- `StaleBlockEntry`. -/
structure StaleBlockEntry where
  height : ℤ
  blockhash : List Char
  status : StaleStatus
  headerHex : Option (List Char)
  headerValid : Option Bool
  source : StaleSource
  chaintipStatus : Option ChainTipStatus
  branchlen : Option ℤ
  lastExportedStatus : Option StaleStatus
  deriving DecidableEq

/-! ### Reading texts back -/

/-- What `pl.read_csv` makes of the cells of a column, with `none` where it raises. -/
abbrev ColumnReader (R : StateFiles.Numbers) := List Csv.Field → Option (List (StateFiles.Value R))

/-- Digits, or digits around an `e`. -/
def looksNumeric (cs : List Char) : Bool :=
  StateFiles.isDigits cs || StateFiles.isExponential (cs.map Char.toLower)

/-- A text in hexadecimal, white space aside, that does not look like a number. -/
def IsHexText (cs : List Char) : Prop :=
  (∀ c ∈ cs, (hexValue c).isSome = true ∨ asciiSpace c = true)
    ∧ (∃ c ∈ cs, asciiSpace c = false) ∧ looksNumeric (cs.filter (!asciiSpace ·)) = false

instance (cs : List Char) : Decidable (IsHexText cs) :=
  decidable_of_iff (cs.all (fun c => (hexValue c).isSome || asciiSpace c) = true
      ∧ cs.any (!asciiSpace ·) = true ∧ looksNumeric (cs.filter (!asciiSpace ·)) = false)
    (by simp [IsHexText])

/-- A cell of a column of texts. -/
def textCell {R : StateFiles.Numbers} : Csv.Field → StateFiles.Value R
  | none => .null
  | some cs => .text cs

/-- A column is one of texts if a single cell cannot be a number, and a column of nulls holds
nothing else. -/
structure ColumnReader.Documented {R : StateFiles.Numbers} (read : ColumnReader R) : Prop where
  text : ∀ cells cs, some cs ∈ cells → IsHexText cs → read cells = some (cells.map textCell)
  nulls : ∀ cells, (∀ c ∈ cells, c = none) → read cells = some (cells.map fun _ => .null)

/-! ### The registry -/

/-- `StaleBlockRegistry`, without its path. -/
structure StaleBlockRegistry where
  entries : Keyed StaleBlockEntry.blockhash
  dirty : Bool

/-- `bool` of a text, or of `None`. -/
def truthy : Option (List Char) → Bool
  | some (_ :: _) => true
  | _ => false

namespace StaleBlockRegistry

/-- The registry with the entries of some rows. -/
def ofRows (rows : List StaleBlockEntry) : StaleBlockRegistry := ⟨.load rows, false⟩

/-- `get`. -/
def get (r : StaleBlockRegistry) (blockhash : List Char) : Option StaleBlockEntry :=
  r.entries.get blockhash

/-- `upsert_sighting`, for a hash that is known: the updated entry, and whether it differs. -/
def updated (existing s : StaleBlockEntry) : StaleBlockEntry × Bool :=
  -- the status only rises
  let (e, d) := if existing.status.rank < s.status.rank then
    ({ existing with status := s.status }, true) else (existing, false)
  -- a header fills the gap, and does not take the place of another one
  let (e, d) := if truthy s.headerHex && !truthy e.headerHex then
    ({ e with headerHex := s.headerHex, headerValid := s.headerValid }, true) else (e, d)
  -- `source` and `height` stay those of the first sighting
  let (e, d) := if s.chaintipStatus.isSome && s.chaintipStatus ≠ e.chaintipStatus then
    ({ e with chaintipStatus := s.chaintipStatus }, true) else (e, d)
  if s.branchlen.isSome && s.branchlen ≠ e.branchlen then
    ({ e with branchlen := s.branchlen }, true) else (e, d)

/-- `upsert_sighting`: the sighting is the entry it makes of a new hash. -/
def upsertSighting (r : StaleBlockRegistry) (s : StaleBlockEntry) :
    StaleBlockRegistry × StaleBlockEntry :=
  match r.get s.blockhash with
  | none => (⟨r.entries.put s, true⟩, s)
  | some existing =>
      let (e, d) := updated existing s
      (⟨r.entries.put e, r.dirty || d⟩, e)

/-- `mark_header_status_exported`. -/
def markHeaderStatusExported (r : StaleBlockRegistry) (blockhash : List Char)
    (status : StaleStatus) : StaleBlockRegistry :=
  match r.get blockhash with
  | none => r
  | some e =>
      if e.lastExportedStatus ≠ some status then
        ⟨r.entries.put { e with lastExportedStatus := some status }, true⟩
      else r

/-- The order of the rows, by height and hash. -/
def before (e f : StaleBlockEntry) : Prop :=
  e.height < f.height ∨ e.height = f.height ∧ e.blockhash ≤ f.blockhash

instance : DecidableRel before := fun e f =>
  inferInstanceAs
    (Decidable (e.height < f.height ∨ e.height = f.height ∧ e.blockhash ≤ f.blockhash))

/-- The rows `flush` writes. -/
def rows (r : StaleBlockRegistry) : List StaleBlockEntry := r.entries.all.insertionSort before

/-- A row with what was read in its two columns of texts: `str(row["blockhash"])`, and
`row["header_hex"] or None`, which is kept as its text if it is none. -/
def reread {R : StateFiles.Numbers} (e : StaleBlockEntry) (hash header : StateFiles.Value R) :
    StaleBlockEntry :=
  { e with
    blockhash := hash.toStr
    headerHex := if header.toBool then some header.toStr else none }

/-- `_load`, with `none` where it raises. The columns of numbers, of booleans and of names come back
as they were written. -/
def load {R : StateFiles.Numbers} (read : ColumnReader R) (file : List StaleBlockEntry) :
    Option StaleBlockRegistry :=
  if file = [] then some (ofRows [])
  else
    (read (file.map fun e => some e.blockhash)).bind fun hashes =>
      (read (file.map (·.headerHex))).map fun headers =>
        ofRows ((file.zip (hashes.zip headers)).map fun p => reread p.1 p.2.1 p.2.2)

end StaleBlockRegistry

/-- A row of `stale_block_headers.csv`: the columns of the entry and the six header fields, which
are all empty or none. -/
structure StaleHeaderRow where
  height : ℤ
  hash : List Char
  status : StaleStatus
  headerHex : Option (List Char)
  headerValid : Option Bool
  source : StaleSource
  chaintipStatus : Option ChainTipStatus
  branchlen : Option ℤ
  fields : Option HeaderFields
  deriving DecidableEq

/-- An entry of `getchaintips`; `branchlen` is `none` where the key is absent. -/
structure ChainTip where
  height : ℤ
  hash : List Char
  status : ChainTipStatus
  branchlen : Option ℤ
  deriving DecidableEq

/-- A row of the dataset, `GithubHeaderRow`, as the file has it. -/
structure GithubHeaderRow where
  height : ℤ
  hash : List Char
  header : List Char
  deriving DecidableEq

/-- `GithubHeaderRow.blockhash`. -/
def GithubHeaderRow.blockhash (r : GithubHeaderRow) : List Char := r.hash.map Char.toLower

namespace StaleBlocks

/-- The sightings a pass has still to handle. A tip comes with the answer to `getblockheader`, which
is `none` for an `RpcCliError`. -/
inductive Work where
  | idle
  | nodePoll (todo : List (ChainTip × Option (List Char)))
  | githubPull (todo : List GithubHeaderRow)
  deriving DecidableEq

/-- The registry, `registry.csv`, `stale_block_headers.csv`, and the pass that is running. -/
structure State where
  registry : StaleBlockRegistry
  file : List StaleBlockEntry
  exported : List StaleHeaderRow
  work : Work

/-- The constructor, on empty directories. -/
def State.fresh : State := ⟨.ofRows [], [], [], .idle⟩

/-- `registry.flush()`. -/
def State.flush (s : State) : State :=
  if s.registry.dirty then
    { s with registry := { s.registry with dirty := false }, file := s.registry.rows }
  else s

/-- The row `_export_header_event` writes. -/
def headerEvent (e : StaleBlockEntry) : StaleHeaderRow where
  height := e.height
  hash := e.blockhash
  status := e.status
  headerHex := e.headerHex
  headerValid := e.headerValid
  source := e.source
  chaintipStatus := e.chaintipStatus
  branchlen := e.branchlen
  fields := if truthy e.headerHex then e.headerHex.bind parseHeader else none

variable (sha256 : List UInt8 → List UInt8)

/-- The arguments of `upsert_sighting` in `_ingest_sighting`, as an entry. -/
def sighting (height : ℤ) (blockhash : List Char) (headerHex : Option (List Char))
    (source : StaleSource) (chaintipStatus : Option ChainTipStatus) (branchlen : Option ℤ) :
    StaleBlockEntry :=
  let headerValid := if truthy headerHex then
    some (validateHeaderHash sha256 headerHex blockhash) else none
  let valid := headerValid == some true
  { height := height
    blockhash := blockhash
    status := if valid then .headerOnly else .unusable
    headerHex := if valid then headerHex else none
    headerValid := headerValid
    source := source
    chaintipStatus := chaintipStatus
    branchlen := branchlen
    lastExportedStatus := none }

/-- `_ingest_sighting`. -/
def ingestSighting (s : State) (seen : StaleBlockEntry) : State :=
  let (r, e) := s.registry.upsertSighting seen
  -- the row, then the flush of what it was told with
  if some e.status ≠ e.lastExportedStatus then
    ({ s with
      registry := r.markHeaderStatusExported seen.blockhash e.status
      exported := s.exported ++ [headerEvent e] }).flush
  else { s with registry := r }

/-- `_ACTIVE_OR_INVALID`. -/
def activeOrInvalid : List ChainTipStatus := [.active, .invalid]

/-- The sighting of a tip, in `_run_node_poll`. -/
def pollTip (s : State) (tip : ChainTip) (header : Option (List Char)) : State :=
  ingestSighting s (sighting sha256 tip.height tip.hash header .ownNode (some tip.status)
    (some (tip.branchlen.getD 0)))

/-- A row of the dataset, in `_run_github_pull`. -/
def pullRow (s : State) (row : GithubHeaderRow) : State :=
  -- nothing better can come than the header that is there
  if (s.registry.get row.blockhash).any (·.status = .headerOnly) then s
  else if validateHeaderHash sha256 (some row.header) row.blockhash then
    ingestSighting s (sighting sha256 row.height row.blockhash (some row.header) .github none none)
  else s

/-- What happens next: a pass starts with the answer of its source (a failed `getchaintips` or
download starts none), the running pass takes its next step, or the process starts again. -/
inductive Label where
  | nodePoll (tips : List (ChainTip × Option (List Char)))
  | githubPull (rows : List GithubHeaderRow)
  | proceed
  | restart

variable {R : StateFiles.Numbers} (read : ColumnReader R)

/-- The state after a step, if the step can be taken. A process whose `_load` raises does not
start. -/
def next : Label → State → Option State
  -- one pass at a time
  | .nodePoll tips, s =>
      match s.work with
      | .idle => some { s with work := .nodePoll (tips.filter (·.1.status ∉ activeOrInvalid)) }
      | _ => none
  | .githubPull rows, s =>
      match s.work with
      | .idle => some { s with work := .githubPull rows }
      | _ => none
  | .proceed, s =>
      match s.work with
      | .idle => none
      -- the end of the pass flushes once more
      | .nodePoll [] => some { s.flush with work := .idle }
      | .nodePoll ((tip, header) :: l) =>
          some { pollTip sha256 s tip header with work := .nodePoll l }
      | .githubPull [] => some { s.flush with work := .idle }
      | .githubPull (row :: l) => some { pullRow sha256 s row with work := .githubPull l }
  | .restart, s => (StaleBlockRegistry.load read s.file).map fun r =>
      { s with registry := r, work := .idle }

/-- The pipeline as a transition system. -/
def system : TransitionSystem State Label where
  init s := s = .fresh
  step i s s' := next sha256 read i s = some s'

end StaleBlocks

end BtcParser
