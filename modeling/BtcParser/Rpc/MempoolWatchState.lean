import BtcParser.Library.Keyed
import BtcParser.Rpc.BlockParser

/-!
`rpc/mempool_watch_state.py`: the transactions the mempool watcher is tracking.

A `FlaggedTx` is one entry. Its status, its block hash and its block height are one value here
(`TxStatus`), since an entry has a block exactly while it is confirmed. `FlaggedTxs` is the
dictionary of the store.
-/

namespace BtcParser

/-- `status`, and with it `block_hash` and `block_height`. -/
inductive TxStatus (H : Type) where
  | inMempool
  | confirmed (blockHash : H) (blockHeight : ℤ)
  deriving DecidableEq

/-- `status == IN_MEMPOOL`. -/
def TxStatus.isInMempool {H : Type} : TxStatus H → Bool
  | .inMempool => true
  | .confirmed .. => false

@[simp] lemma TxStatus.isInMempool_inMempool {H : Type} :
    (inMempool : TxStatus H).isInMempool = true := rfl

@[simp] lemma TxStatus.isInMempool_confirmed {H : Type} (h : H) (height : ℤ) :
    (confirmed h height).isInMempool = false := rfl

/-- A row of the sanctions list. -/
structure SanctionedAddress where
  name : String
  firstName : String
  sanctionsPrograms : String
  listFile : String
  deriving DecidableEq

/-- The two sides of a transaction. -/
inductive Direction where
  | input
  | output
  deriving DecidableEq

/-- A matched input or output, `_match_row`. -/
structure MatchRow (A : Type) where
  direction : Direction
  ioIndex : ℤ
  address : A
  valueSats : Option ℤ
  valueBtc : Option ℚ
  entry : SanctionedAddress
  deriving DecidableEq

/-- An entry of the store, without its timestamp. -/
structure FlaggedTx (X H A : Type) where
  txid : X
  firstSeenHeight : ℤ
  feeBtc : Option ℚ
  vsize : Option ℤ
  inputs : List (X × ℕ)
  matchRows : List (MatchRow A)
  status : TxStatus H
  deriving DecidableEq

/-- `FlaggedTxStore._entries`. `put` and `remove` are the methods before their flush, and `dumped`
is what `json.dumps(..., sort_keys=True)` makes of it. -/
abbrev FlaggedTxs (X H A : Type) [DecidableEq X] := Keyed (FlaggedTx.txid : FlaggedTx X H A → X)

end BtcParser
