import BtcParser.Common.AtomicWrite
import BtcParser.Library.Json
import BtcParser.Library.TextFile
import BtcParser.Rpc.MempoolWatchState

/-!
`rpc/mempool_watch_state.py`: the file `flagged.json`.

An `Entry` is the dataclass `FlaggedTx` with all its fields, as JSON values, and `Entries` is
`FlaggedTxStore._entries`. `flushed` is what `flush` writes and `load` what `_load` makes of the
bytes of the file, `none` where it raises; `put` and `remove` are the methods before their flush. An
entry whose `txid` is not a string is not loaded.

`entryOf` is the entry of a `FlaggedTx` of the watcher.
-/

namespace BtcParser.FlaggedStore

open Json

/-- `FlaggedTx`. -/
structure Entry where
  txid : List Char
  firstSeenAt : Value
  firstSeenHeight : Value
  feeBtc : Value
  vsize : Value
  inputs : Value
  matchRows : Value
  status : Value
  blockHash : Value
  blockHeight : Value

/-! ### The names of the fields -/

def txidName : List Char := ['t', 'x', 'i', 'd']

def firstSeenAtName : List Char := ['f', 'i', 'r', 's', 't', '_', 's', 'e', 'e', 'n', '_', 'a', 't']

def firstSeenHeightName : List Char :=
  ['f', 'i', 'r', 's', 't', '_', 's', 'e', 'e', 'n', '_', 'h', 'e', 'i', 'g', 'h', 't']

def feeBtcName : List Char := ['f', 'e', 'e', '_', 'b', 't', 'c']

def vsizeName : List Char := ['v', 's', 'i', 'z', 'e']

def inputsName : List Char := ['i', 'n', 'p', 'u', 't', 's']

def matchRowsName : List Char := ['m', 'a', 't', 'c', 'h', 'e', 's']

def statusName : List Char := ['s', 't', 'a', 't', 'u', 's']

def blockHashName : List Char := ['b', 'l', 'o', 'c', 'k', '_', 'h', 'a', 's', 'h']

def blockHeightName : List Char := ['b', 'l', 'o', 'c', 'k', '_', 'h', 'e', 'i', 'g', 'h', 't']

/-- The fields of the dataclass. -/
def fieldNames : List (List Char) :=
  [txidName, firstSeenAtName, firstSeenHeightName, feeBtcName, vsizeName, inputsName, matchRowsName,
    statusName, blockHashName, blockHeightName]

/-- `IN_MEMPOOL`. -/
def inMempool : List Char := ['m', 'e', 'm', 'p', 'o', 'o', 'l']

/-- `CONFIRMED`. -/
def confirmed : List Char := ['c', 'o', 'n', 'f', 'i', 'r', 'm', 'e', 'd']

/-! ### The file -/

/-- `FlaggedTxStore._entries`. -/
abbrev Entries := Dict (List Char) Entry

/-- The members of `asdict(entry)`. -/
def Entry.members (e : Entry) : List (List Char × Value) :=
  [(txidName, .str e.txid), (firstSeenAtName, e.firstSeenAt),
    (firstSeenHeightName, e.firstSeenHeight), (feeBtcName, e.feeBtc), (vsizeName, e.vsize),
    (inputsName, e.inputs), (matchRowsName, e.matchRows), (statusName, e.status),
    (blockHashName, e.blockHash), (blockHeightName, e.blockHeight)]

/-- `FlaggedTx(**entry)`, with `none` for the `TypeError` of a name that is unknown or missing. -/
def entryOfMembers (kwargs : List (List Char × Value)) : Option Entry :=
  if kwargs.all fun p => fieldNames.contains p.1 then do
    let txid ← Dict.lookup kwargs txidName
    let firstSeenAt ← Dict.lookup kwargs firstSeenAtName
    let firstSeenHeight ← Dict.lookup kwargs firstSeenHeightName
    let feeBtc ← Dict.lookup kwargs feeBtcName
    let vsize ← Dict.lookup kwargs vsizeName
    let inputs ← Dict.lookup kwargs inputsName
    let matchRows ← Dict.lookup kwargs matchRowsName
    let status := (Dict.lookup kwargs statusName).getD (.str inMempool)
    let blockHash := (Dict.lookup kwargs blockHashName).getD .null
    let blockHeight := (Dict.lookup kwargs blockHeightName).getD .null
    match txid with
    | .str txid => some ⟨txid, firstSeenAt, firstSeenHeight, feeBtc, vsize, inputs, matchRows,
        status, blockHash, blockHeight⟩
    | _ => none
  else none

/-- `payload`. -/
def payload (m : Entries) : Value := .obj (m.entries.map fun p => (p.1, .obj p.2.members))

/-- What `flush` writes. -/
def flushed (m : Entries) : List UInt8 := TextFile.writeText (dumps 1 (sortKeys (payload m)))

/-- `self._entries[txid] = FlaggedTx(**entry)`. -/
def loadEntry (m : Entries) (p : List Char × Value) : Option Entries :=
  match p.2 with
  | .obj kwargs => (entryOfMembers kwargs).map fun e => m.set p.1 e
  | _ => none

/-- `_load`, from the file if it exists. -/
def load (file : Option (List UInt8)) : Option Entries :=
  match file with
  | none => some .empty
  | some [] => some .empty
  | some bytes =>
      match (TextFile.readText bytes).bind loads with
      | some (.obj raw) => raw.foldlM loadEntry .empty
      | _ => none

/-- `put`. -/
def put (m : Entries) (e : Entry) : Entries := m.set e.txid e

/-- `remove`. -/
def remove (m : Entries) (txid : List Char) : Entries := m.erase txid

/-! ### The entries of the watcher -/

/-- A value that may be `None`. -/
def orNull {α : Type} (f : α → Value) : Option α → Value
  | none => .null
  | some a => f a

/-- An entry of `matches`, `_match_row`. -/
def matchRow (btcStr : ℚ → List Char) (r : MatchRow (List Char)) : Value :=
  .obj [
    (['d', 'i', 'r', 'e', 'c', 't', 'i', 'o', 'n'], .str (match r.direction with
      | .input => ['i', 'n', 'p', 'u', 't']
      | .output => ['o', 'u', 't', 'p', 'u', 't'])),
    (['i', 'o', '_', 'i', 'n', 'd', 'e', 'x'], .int r.ioIndex),
    (['a', 'd', 'd', 'r', 'e', 's', 's'], .str r.address),
    (['v', 'a', 'l', 'u', 'e', '_', 's', 'a', 't', 's'], orNull .int r.valueSats),
    (['v', 'a', 'l', 'u', 'e', '_', 'b', 't', 'c'], orNull (fun v => .str (btcStr v)) r.valueBtc),
    (['n', 'a', 'm', 'e'], .str r.entry.name.toList),
    (['f', 'i', 'r', 's', 't', '_', 'n', 'a', 'm', 'e'], .str r.entry.firstName.toList),
    (['s', 'a', 'n', 'c', 't', 'i', 'o', 'n', 's', '_', 'p', 'r', 'o', 'g', 'r', 'a', 'm', 's'],
      .str r.entry.sanctionsPrograms.toList),
    (['l', 'i', 's', 't', '_', 'f', 'i', 'l', 'e'], .str r.entry.listFile.toList)]

/-- The entry of a transaction that was first seen at this time. `btcStr` is the decimal text of an
amount. -/
def entryOf (btcStr : ℚ → List Char) (firstSeenAt : List Char)
    (t : FlaggedTx (List Char) (List Char) (List Char)) : Entry where
  txid := t.txid
  firstSeenAt := .str firstSeenAt
  firstSeenHeight := .int t.firstSeenHeight
  feeBtc := orNull (fun v => .str (btcStr v)) t.feeBtc
  vsize := orNull .int t.vsize
  inputs := .arr (t.inputs.map fun p => .arr [.str p.1, .int p.2])
  matchRows := .arr (t.matchRows.map (matchRow btcStr))
  status := .str (match t.status with
    | .inMempool => inMempool
    | .confirmed .. => confirmed)
  blockHash := match t.status with
    | .inMempool => .null
    | .confirmed hash _ => .str hash
  blockHeight := match t.status with
    | .inMempool => .null
    | .confirmed _ height => .int height

end BtcParser.FlaggedStore
