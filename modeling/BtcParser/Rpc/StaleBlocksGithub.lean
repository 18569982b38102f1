import BtcParser.Common.CsvWriter
import BtcParser.Library.DictReader
import BtcParser.Rpc.SanctionsList
import BtcParser.Rpc.StaleBlocks

/-!
`rpc/stale_blocks_github.py` and the way up from it: `fetch_stale_blocks_csv`, `_run_github_pull`
and the loop of `run_stale_blocks_ingest`, with the exceptions they raise.

A download is the body of the response, or the exception of `ApiClient.get_text`. The data frame
library, which writes the registry and the export, takes the integers that `fits` allows and raises
`OverflowError` for others; `ingestSighting` and `State.flush` are what is written otherwise.
-/

namespace BtcParser.StaleBlocks

open DictReader

/-- The exceptions on the way up. -/
inductive Raised
  | keyError
  | valueError
  | typeError
  | csvError
  | overflowError
  | githubFetchError
  deriving DecidableEq

/-! ### `fetch_stale_blocks_csv` -/

/-- What `get_text` raises. -/
inductive DownloadError
  | fetchError
  | rateLimited

/-- What `get_text` gives. -/
abbrev Download := Except DownloadError (List Char)

/-- The white space around the text of an integer. -/
def intSpace (c : Char) : Bool := asciiSpace c || (127 < c.toNat && Sanctions.isSpace c)

/-- `sys.get_int_max_str_digits()`. -/
def intMaxStrDigits : ℕ := 4300

/-- The digits of an integer, of which two may be parted by an underscore. -/
def intDigits (cs : List Char) : Option ℕ :=
  let groups := cs.splitOn '_'
  if groups.any List.isEmpty || decide (intMaxStrDigits < groups.flatten.length) then none
  else (groups.flatten.mapM CsvWriter.decimalDigit).map (List.foldl (fun n d => 10 * n + d) 0)

/-- `int` of a text, `none` for its `ValueError`s. -/
def intText (cs : List Char) : Option ℤ :=
  match (cs.dropWhile intSpace).rdropWhile intSpace with
  | '-' :: ds => (intDigits ds).map fun n => -n
  | '+' :: ds => (intDigits ds).map fun n => n
  | ds => (intDigits ds).map fun n => n

/-- `int`, of a text or `None`. -/
def int : Option (List Char) → Except Raised ℤ
  | none => .error .typeError
  | some cs =>
      match intText cs with
      | none => .error .valueError
      | some n => .ok n

/-- `str`, of a text or `None`. -/
def str : Option (List Char) → List Char
  | none => ['N', 'o', 'n', 'e']
  | some cs => cs

/-- `raw_row[name]`. -/
def item (row : RawRow) (name : List Char) : Except Raised (Option (List Char)) :=
  match row.get? name with
  | none => .error .keyError
  | some value => .ok value

def heightName : List Char := ['h', 'e', 'i', 'g', 'h', 't']

def hashName : List Char := ['h', 'a', 's', 'h']

def headerName : List Char := ['h', 'e', 'a', 'd', 'e', 'r']

/-- `GithubHeaderRow(height=.., blockhash=.., header_hex=..)`. -/
def githubHeaderRow (row : RawRow) : Except Raised GithubHeaderRow := do
  let height ← int (← item row heightName)
  let hash ← item row hashName
  let header ← item row headerName
  return ⟨height, str hash, str header⟩

/-- The exceptions for which a row is skipped. -/
def Raised.skips : Raised → Bool
  | .keyError => true
  | .valueError => true
  | _ => false

/-- The loop over the rows. -/
def headerRows : List RawRow → Except Raised (List GithubHeaderRow)
  | [] => .ok []
  | row :: rows =>
      match githubHeaderRow row with
      | .ok r => (headerRows rows).map (r :: ·)
      -- `except (KeyError, ValueError)`: the row is skipped
      | .error e => if e.skips then headerRows rows else .error e

/-- `fetch_stale_blocks_csv`. -/
def fetchStaleBlocksCsv : Download → Except Raised (List GithubHeaderRow)
  | .error _ => .error .githubFetchError
  | .ok text => do
      let rows ← headerRows (dictRows text).1
      -- the reader fails behind the rows it has given
      if (dictRows text).2 then .error .csvError else .ok rows

/-! ### `_run_github_pull` and `_run_node_poll` -/

variable (sha256 : List UInt8 → List UInt8) (fits : ℤ → Bool)

/-- The integers of an entry can be written. -/
def storable (e : StaleBlockEntry) : Bool := fits e.height && e.branchlen.all fits

/-- `registry.flush()`. -/
def tryFlush (s : State) : Except Raised State :=
  if s.registry.dirty && !s.registry.entries.all.all (storable fits) then .error .overflowError
  else .ok s.flush

/-- `_ingest_sighting`. -/
def tryIngestSighting (s : State) (seen : StaleBlockEntry) : Except Raised State :=
  let (r, e) := s.registry.upsertSighting seen
  if some e.status ≠ e.lastExportedStatus then
    -- the row that is written has the numbers in it
    if storable fits e then
      tryFlush fits { s with
        registry := r.markHeaderStatusExported seen.blockhash e.status
        exported := s.exported ++ [headerEvent e] }
    else .error .overflowError
  else .ok { s with registry := r }

/-- A row of the dataset. -/
def tryPullRow (s : State) (row : GithubHeaderRow) : Except Raised State :=
  if (s.registry.get row.blockhash).any (·.status = .headerOnly) then .ok s
  else if validateHeaderHash sha256 (some row.header) row.blockhash then
    tryIngestSighting fits s
      (sighting sha256 row.height row.blockhash (some row.header) .github none none)
  else .ok s

/-- `_run_github_pull`. -/
def runGithubPull (s : State) (download : Download) : Except Raised (Bool × State) :=
  match fetchStaleBlocksCsv download with
  -- logged, and the pull is over
  | .error .githubFetchError => .ok (false, s)
  | .error e => .error e
  | .ok rows => do
      let s ← rows.foldlM (tryPullRow sha256 fits) s
      let s ← tryFlush fits s
      return (true, s)

/-- A tip with the answer to `getblockheader`, in `_run_node_poll`. -/
def tryPollTip (s : State) (tip : ChainTip × Option (List Char)) : Except Raised State :=
  tryIngestSighting fits s (sighting sha256 tip.1.height tip.1.hash tip.2 .ownNode
    (some tip.1.status) (some (tip.1.branchlen.getD 0)))

/-- `_run_node_poll`; the answer to `getchaintips` is `none` for an `RpcCliError`, which the loop
catches. -/
def runNodePoll (s : State) : Option (List (ChainTip × Option (List Char))) → Except Raised State
  | none => .ok s
  | some tips => do
      let s ← (tips.filter (·.1.status ∉ activeOrInvalid)).foldlM (tryPollTip sha256 fits) s
      tryFlush fits s

/-- What one turn of the loop meets: the tips, and the download if a pull is due. -/
structure Wake where
  tips : Option (List (ChainTip × Option (List Char)))
  download : Option Download

/-- One turn of the loop of `run_stale_blocks_ingest`. -/
def wake (s : State) (w : Wake) : Except Raised State := do
  let s ← runNodePoll sha256 fits s w.tips
  match w.download with
  | none => return s
  | some download => do
      let (_, s) ← runGithubPull sha256 fits s download
      return s

/-- `run_stale_blocks_ingest`, from the registry that `_load` has returned. -/
def runStaleBlocksIngest (r : StaleBlockRegistry) (s : State) (wakes : List Wake) :
    Except Raised State :=
  wakes.foldlM (wake sha256 fits) { s with registry := r }

end BtcParser.StaleBlocks
