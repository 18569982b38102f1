import BtcParser.Library.Transition
import BtcParser.Library.Triple
import BtcParser.Rpc.MempoolWatchState

/-!
`rpc/mempool_watch.py`: the mempool watcher.

The methods of `MempoolWatcher` are programs over a `Watcher`: its attributes, `flagged.json`, the
number of calls made so far and what was exported. What the surroundings do is fixed by a
`WatchEnv`: the node every call meets, the sanctions list, the order in which sets are listed, and
when a stop is requested. The calls of the thread pool are made one after the other; as every call
meets a node of its own, this is one of their interleavings.

`MempoolWatch.system` is the loop of `run_mempool_watch`: reconcile passes and batches of events in
any order, each of which may end in an `RpcCliError`, reloads of the list, and restarts.
-/

namespace BtcParser

/-- `mempool_watch.*` of the configuration, with what its loader checks. -/
structure MempoolWatchConfig where
  forgetAfterConfirmations : ℤ
  maxConfirmationScanBlocks : ℤ
  forgetAfterConfirmations_pos : 1 ≤ forgetAfterConfirmations
  maxConfirmationScanBlocks_pos : 1 ≤ maxConfirmationScanBlocks

/-- How a call fails: `RpcError`, or an `RpcCliError` that is not one. -/
inductive RpcFailure where
  | rpcError
  | rpcCliError
  deriving DecidableEq

/-- An output: `scriptPubKey.address`, `scriptPubKey.addresses` and `value`. -/
structure TxOut (A : Type) where
  address : Option A
  addresses : List A
  value : Option ℚ

/-- An entry of `vin`; `prevout` is `none` where the key is absent. -/
inductive VIn (X A : Type) where
  | coinbase
  | spend (txid : X) (vout : ℕ) (prevout : Option (Option (TxOut A)))

/-- An entry of `vout`. -/
structure VOut (A : Type) extends TxOut A where
  n : ℤ

/-- A decoded transaction. -/
structure RawTx (X A : Type) where
  vin : List (VIn X A)
  vout : List (VOut A)
  fee : Option ℚ
  vsize : Option ℤ

/-- What a node answers. `getBlockHeader` is `confirmations`, and `-1` where the key is absent. -/
structure Bitcoind (X H A : Type) where
  getBlockCount : Except RpcFailure ℤ
  getRawMempoolTxids : Except RpcFailure (List X)
  getRawTransaction : X → Option H → Except RpcFailure (RawTx X A)
  getTxOut : X → ℕ → Except RpcFailure (Option (TxOut A))
  getTxSpendingPrevout : List (X × ℕ) → Except RpcFailure (List (Option X))
  getBlockHash : ℤ → Except RpcFailure H
  getBlockTxids : H → Except RpcFailure (ℤ × ℤ × List X)
  getBlockHeader : H → Except RpcFailure ℤ

/-- The surroundings of a call of the watcher. -/
structure WatchEnv (X H A : Type) where
  /-- the node met by the `n`-th call -/
  node : ℕ → Bitcoind X H A
  /-- `SanctionsList.lookup` -/
  lookup : A → Option SanctionedAddress
  /-- the order in which a set is iterated over -/
  listing : ℕ → Finset X → List X
  listing_nodup : ∀ n s, (listing n s).Nodup
  mem_listing : ∀ n s x, x ∈ listing n s ↔ x ∈ s
  /-- `stop.is_set()` after this number of calls -/
  stop : ℕ → Bool

attribute [simp] WatchEnv.mem_listing

/-- The `event` column. -/
inductive WatchEvent where
  | seen
  | confirmed
  | unconfirmed
  | replaced
  | removed
  deriving DecidableEq

/-- The `source` column. -/
inductive WatchSource where
  | startupScan
  | reconcile
  | zmq
  | reorg
  deriving DecidableEq

/-- The `detail` column. -/
inductive WatchDetail (H : Type) where
  | removedFromMempool
  | leftMempoolUnobserved
  | leftActiveChain (height : ℤ) (blockHash : H)
  deriving DecidableEq

/-- One call of `_export`: a row of `sanctioned_tx_events.csv` for each match of `tx`. -/
structure Exported (X H A : Type) where
  event : WatchEvent
  tx : FlaggedTx X H A
  /-- `block_hash` and `block_height` -/
  block : Option (H × ℤ)
  source : WatchSource
  replacedByTxid : Option X
  detail : Option (WatchDetail H)
  deriving DecidableEq

/-- What happens to the transactions: the exports, and the entries that are only forgotten. -/
inductive TraceItem (X H A : Type) where
  | exported (e : Exported X H A)
  | forgotten (txid : X) (confirmations : ℤ)
  deriving DecidableEq

/-- The attributes of a `MempoolWatcher`, `flagged.json`, and what has happened. -/
structure Watcher (X H A : Type) [DecidableEq X] where
  store : FlaggedTxs X H A
  file : FlaggedTxs X H A
  checked : Finset X
  unfetched : Finset X
  tipHeight : ℤ
  calls : ℕ
  trace : List (TraceItem X H A)

/-- `SequenceEvent`. -/
inductive SequenceEvent (X H : Type) where
  | added (txid : X)
  | removed (txid : X)
  | connected (blockHash : H)
  | disconnected (blockHash : H)
  | other
  deriving DecidableEq

/-- The txid of an `A` event. -/
def SequenceEvent.addedTxid {X H : Type} : SequenceEvent X H → Option X
  | .added x => some x
  | _ => none

variable {X H A : Type}

/-! ### The objects -/

namespace Watcher

variable [LinearOrder X]

/-- The constructor, on an empty `state_dir`. -/
def fresh : Watcher X H A := ⟨.empty, .empty, ∅, ∅, 0, 0, []⟩

/-- A call has been made. -/
def tick (w : Watcher X H A) (n : ℕ) : Watcher X H A := { w with calls := w.calls + n }

/-- `_export`. -/
def exportRows (w : Watcher X H A) (e : Exported X H A) : Watcher X H A :=
  { w with trace := w.trace ++ [.exported e] }

/-- `store.put`. -/
def put (w : Watcher X H A) (e : FlaggedTx X H A) : Watcher X H A :=
  { w with store := w.store.put e, file := (w.store.put e).dumped }

/-- `store.remove`. -/
def remove (w : Watcher X H A) (x : X) : Watcher X H A :=
  if w.store.contains x then
    { w with store := w.store.remove x, file := (w.store.remove x).dumped }
  else w

/-- The entry `_on_added` makes. -/
def newEntry (w : Watcher X H A) (x : X) (tx : RawTx X A) (rows : List (MatchRow A)) :
    FlaggedTx X H A where
  txid := x
  firstSeenHeight := w.tipHeight
  feeBtc := tx.fee
  vsize := tx.vsize
  inputs := tx.vin.filterMap fun
    | .coinbase => none
    | .spend y n _ => some (y, n)
  matchRows := rows
  status := .inMempool

/-- `_on_added`, for a transaction that was fetched. -/
def add (w : Watcher X H A) (x : X) (tx : RawTx X A) (rows : List (MatchRow A))
    (source : WatchSource) : Watcher X H A :=
  let w := { w with checked := insert x w.checked }
  if rows.isEmpty || w.store.contains x then w
  else
    let e := w.newEntry x tx rows
    (w.exportRows ⟨.seen, e, none, source, none, none⟩).put e

/-- `_mark_confirmed`. -/
def markConfirmed (w : Watcher X H A) (e : FlaggedTx X H A) (h : H) (height : ℤ)
    (source : WatchSource) : Watcher X H A :=
  let e := { e with status := .confirmed h height }
  (w.exportRows ⟨.confirmed, e, some (h, height), source, none, none⟩).put e

/-- `_check_confirmed_depth`, for a block that has left the active chain. -/
def unconfirm (w : Watcher X H A) (e : FlaggedTx X H A) (h : H) (height : ℤ) : Watcher X H A :=
  let e := { e with status := .inMempool }
  (w.exportRows ⟨.unconfirmed, e, some (h, height), .reorg, none,
    some (.leftActiveChain height h)⟩).put e

/-- `_check_confirmed_depth`, for a block that is deep enough. -/
def forget (w : Watcher X H A) (x : X) (confirmations : ℤ) : Watcher X H A :=
  { w.remove x with trace := w.trace ++ [.forgotten x confirmations] }

/-- `_on_left_unmined`, after its call. -/
def leave (w : Watcher X H A) (e : FlaggedTx X H A) (replacedBy : Option X) (source : WatchSource)
    (detail : WatchDetail H) : Watcher X H A :=
  let w := match replacedBy with
    | some y => w.exportRows ⟨.replaced, e, none, source, some y, none⟩
    | none => w.exportRows ⟨.removed, e, none, source, none, some detail⟩
  w.remove e.txid

/-- A new process: the constructor, on what the last one has left. -/
def restart (w : Watcher X H A) : Watcher X H A :=
  { w with store := w.file, checked := ∅, unfetched := ∅, tipHeight := 0 }

end Watcher

/-- A program of the watcher. -/
abbrev Watch (X H A : Type) [LinearOrder X] := EStateM RpcFailure (Watcher X H A)

namespace MempoolWatch

variable [LinearOrder X] (cfg : MempoolWatchConfig) (env : WatchEnv X H A)

/-- A call. -/
def rpc {α : Type} (ask : Bitcoind X H A → Except RpcFailure α) : Watch X H A α := fun w =>
  match ask (env.node w.calls) with
  | .ok a => .ok a (w.tick 1)
  | .error f => .error f (w.tick 1)

/-- A call whose `RpcError` is caught. -/
def rpcCaught {α : Type} (ask : Bitcoind X H A → Except RpcFailure α) :
    Watch X H A (Option α) := fun w =>
  match ask (env.node w.calls) with
  | .ok a => .ok (some a) (w.tick 1)
  | .error .rpcError => .ok none (w.tick 1)
  | .error .rpcCliError => .error .rpcCliError (w.tick 1)

/-! ### Matching a decoded transaction against the list -/

/-- `_prevout`. -/
def prevoutOf (txid : X) (vout : ℕ) : Option (Option (TxOut A)) → Watch X H A (Option (TxOut A))
  | some out => pure out
  | none => do
      match ← rpcCaught env (·.getTxOut txid vout) with
      | none => pure none
      | some (some out) => pure (some out)
      | some none =>
          match ← rpcCaught env (·.getRawTransaction txid none) with
          | none => pure none
          | some parent => pure (parent.vout[vout]?.map (·.toTxOut))

/-- `_script_address`. -/
def scriptAddress (out : TxOut A) : Option A :=
  match out.address, out.addresses with
  | some a, _ => some a
  | none, [a] => some a
  | none, _ => none

/-- The row of an input or output, if its address is on the list. -/
def matchRow (direction : Direction) (index : ℤ) (out : TxOut A) : Option (MatchRow A) := do
  let a ← scriptAddress out
  let entry ← env.lookup a
  pure ⟨direction, index, a, btcToSats out.value, out.value, entry⟩

/-- The inputs of `match_tx`, from an index on. -/
def matchInputs : ℕ → List (VIn X A) → Watch X H A (List (MatchRow A))
  | _, [] => pure []
  | i, .coinbase :: l => matchInputs (i + 1) l
  | i, .spend txid vout prevout :: l => do
      let out ← prevoutOf env txid vout prevout
      let rows ← matchInputs (i + 1) l
      pure ((out.bind (matchRow env .input i)).toList ++ rows)

/-- `match_tx`. -/
def matchTx (tx : RawTx X A) : Watch X H A (List (MatchRow A)) := do
  let rows ← matchInputs env 0 tx.vin
  pure (rows ++ tx.vout.filterMap fun o => matchRow env .output o.n o.toTxOut)

/-! ### Fetching -/

/-- `_fetch_and_match`. -/
def fetchAndMatch (x : X) (blockHash : Option H) :
    Watch X H A (Option (RawTx X A × List (MatchRow A))) := do
  match ← rpcCaught env (·.getRawTransaction x blockHash) with
  | none => pure none
  | some tx =>
      let rows ← matchTx env tx
      pure (some (tx, rows))

/-- `_fetch_many`. -/
def fetchMany : List X → Watch X H A (List (X × Option (RawTx X A × List (MatchRow A))))
  | [] => pure []
  | x :: l => do
      let f ← fetchAndMatch env x none
      let fs ← fetchMany l
      pure ((x, f) :: fs)

/-! ### The handlers -/

/-- `_on_added`. -/
def onAdded (x : X) (fetched : Option (RawTx X A × List (MatchRow A))) (source : WatchSource) :
    Watch X H A Unit :=
  match fetched with
  | none => pure ()
  | some (tx, rows) => modify fun w => w.add x tx rows source

/-- The replacement `_on_left_unmined` finds among the answers to `gettxspendingprevout`. -/
def replacement (x : X) (spends : List (Option X)) : Option X :=
  (spends.filterMap id).find? (· ≠ x)

/-- `replaced_by` in `_on_left_unmined`. -/
def replacedBy (e : FlaggedTx X H A) : Watch X H A (Option X) :=
  if e.inputs.isEmpty then pure none
  else do
    -- an `RpcError` of an older node is caught, and no replacement is named
    let spends ← rpcCaught env (·.getTxSpendingPrevout e.inputs)
    pure (spends.bind (replacement e.txid))

/-- `_on_left_unmined`. -/
def onLeftUnmined (e : FlaggedTx X H A) (source : WatchSource) (detail : WatchDetail H) :
    Watch X H A Unit := do
  let replacedBy ← replacedBy env e
  modify fun w => w.leave e replacedBy source detail

/-- `_on_removed`. -/
def onRemoved (x : X) : Watch X H A Unit := do
  -- it may be announced again
  modify fun w => { w with checked := w.checked.erase x }
  match (← get).store.get x with
  | none => pure ()
  | some e =>
      if e.status.isInMempool then onLeftUnmined env e .zmq .removedFromMempool else pure ()

/-- `_check_confirmed_depth`, for one entry. -/
def checkDepth (e : FlaggedTx X H A) : Watch X H A Unit :=
  match e.status with
  | .inMempool => pure ()
  | .confirmed h height => do
      let confirmations ← rpc env (·.getBlockHeader h)
      -- the block is not on the active chain: the entry waits again
      if confirmations = -1 then modify fun w => w.unconfirm e h height
      else if cfg.forgetAfterConfirmations ≤ confirmations then
        modify fun w => w.forget e.txid confirmations
      else pure ()

/-- `_check_confirmed_depth`. -/
def checkConfirmedDepth : Watch X H A Unit := do
  (← get).store.all.forM (checkDepth cfg env)

/-- `_on_block_connected`, for one of the entries. -/
def confirmIfIn (inBlock : Finset X) (h : H) (height : ℤ) (e : FlaggedTx X H A) :
    Watch X H A Unit :=
  if e.status.isInMempool && e.txid ∈ inBlock then
    modify fun w => w.markConfirmed e h height .zmq
  else pure ()

/-- `_on_block_connected`. -/
def onBlockConnected (h : H) : Watch X H A Unit := do
  let (height, _, txids) ← rpc env (·.getBlockTxids h)
  let inBlock := txids.toFinset
  -- blocks may be connected below the tip of the last reconcile
  modify fun w => { w with tipHeight := max w.tipHeight height }
  let w ← get
  -- what could not be fetched from the mempool is in the block now
  (env.listing w.calls (w.unfetched ∩ inBlock)).forM fun x => do
    onAdded x (← fetchAndMatch env x (some h)) .zmq
  modify fun w => { w with unfetched := w.unfetched \ inBlock, checked := w.checked \ inBlock }
  (← get).store.all.forM (confirmIfIn inBlock h height)
  checkConfirmedDepth cfg env

/-- One event of `handle_events`. -/
def applyEvent (fetched : List (X × Option (RawTx X A × List (MatchRow A)))) :
    SequenceEvent X H → Watch X H A Unit
  | .added x =>
      match Dict.lookup fetched x with
      -- checked before the batch, so it was not fetched
      | none => pure ()
      -- gone again: the block it may be in, or the next reconcile, is waited for
      | some none => modify fun w => { w with unfetched := insert x w.unfetched }
      | some (some f) => onAdded x (some f) .zmq
  | .removed x => do
      modify fun w => { w with unfetched := w.unfetched.erase x }
      onRemoved env x
  | .connected h => onBlockConnected cfg env h
  | .disconnected _ => checkConfirmedDepth cfg env
  | .other => pure ()

/-- The txids `handle_events` fetches. -/
def addedTxids (events : List (SequenceEvent X H)) (w : Watcher X H A) : Finset X :=
  (events.filterMap (·.addedTxid)).toFinset \ w.checked

/-- `handle_events`. -/
def handleEvents (events : List (SequenceEvent X H)) : Watch X H A Unit := do
  let w ← get
  let fetched ← fetchMany env (env.listing w.calls (addedTxids events w))
  events.forM (applyEvent cfg env fetched)

/-! ### Reconcile -/

/-- `block_cache`. -/
abbrev BlockCache (X H : Type) := Dict ℤ (H × List X)

/-- The block at a height, from the cache or from the node. -/
def cachedBlock (height : ℤ) (cache : BlockCache X H) :
    Watch X H A ((H × List X) × BlockCache X H) :=
  match cache.get? height with
  | some b => pure (b, cache)
  | none => do
      let h ← rpc env (·.getBlockHash height)
      let (_, _, txids) ← rpc env (·.getBlockTxids h)
      pure ((h, txids), cache.set height (h, txids))

/-- `range(tip_height, lowest - 1, -1)`. -/
def scanHeights (tip : ℤ) (e : FlaggedTx X H A) : List ℤ :=
  -- not below the height it was first seen at
  let lowest := max (max e.firstSeenHeight (tip - cfg.maxConfirmationScanBlocks + 1)) 0
  (List.range (tip + 1 - lowest).toNat).map fun k : ℕ => tip - k

/-- The loop of `_find_confirming_block`. -/
def findConfirmingBlock (x : X) :
    List ℤ → BlockCache X H → Watch X H A (Option (H × ℤ) × BlockCache X H)
  | [], cache => pure (none, cache)
  | height :: l, cache => do
      let (b, cache) ← cachedBlock env height cache
      if x ∈ b.2 then pure (some (b.1, height), cache)
      else findConfirmingBlock x l cache

/-- `RECONCILE_CHUNK`. -/
def reconcileChunk : ℕ := 500

/-- The chunks of the new txids, of which there are at most `fuel`; `false` after a stop. -/
def checkNew (source : WatchSource) : ℕ → List X → Watch X H A Bool
  | 0, _ => pure true
  | _ + 1, [] => pure true
  | fuel + 1, x :: l => do
      -- between two chunks only
      if env.stop (← get).calls then pure false
      else
        let fetched ← fetchMany env ((x :: l).take reconcileChunk)
        fetched.forM fun p => onAdded p.1 p.2 source
        checkNew source fuel ((x :: l).drop reconcileChunk)

/-- The tracked transactions that are missing from the mempool. -/
def resolveMissing (source : WatchSource) (mempool : Finset X) :
    List (FlaggedTx X H A) → BlockCache X H → Watch X H A Unit
  | [], _ => pure ()
  | e :: l, cache => do
      if e.status.isInMempool && !(e.txid ∈ mempool : Bool) then
        let tip := (← get).tipHeight
        let (found, cache) ← findConfirmingBlock env e.txid (scanHeights cfg tip e) cache
        match found with
        | some (h, height) => modify fun w => w.markConfirmed e h height source
        -- not found in the window: it was replaced or removed
        | none => onLeftUnmined env e source .leftMempoolUnobserved
        resolveMissing source mempool l cache
      else resolveMissing source mempool l cache

/-- `reconcile`; `false` if a stop was requested on the way. -/
def reconcile (source : WatchSource) : Watch X H A Bool := do
  let mempool ← rpc env (·.getRawMempoolTxids)
  let tip ← rpc env (·.getBlockCount)
  modify fun w => { w with tipHeight := tip }
  let w ← get
  let new := env.listing w.calls (mempool.toFinset \ w.checked)
  -- what has left the mempool is looked at again when it comes back
  modify fun w => { w with checked := w.checked ∩ mempool.toFinset }
  -- a stop leaves the missing ones for the next reconcile
  if ← checkNew env source new.length new then
    resolveMissing cfg env source mempool.toFinset (← get).store.all .empty
    checkConfirmedDepth cfg env
    pure true
  else pure false

/-! ### The process -/

/-- What happens next: a pass or a batch, in its surroundings, a new sanctions list (and
`checked.clear()`), or a crash and a restart. -/
inductive Label (X H A : Type) where
  | reconcile (env : WatchEnv X H A) (source : WatchSource)
  | handleEvents (env : WatchEnv X H A) (events : List (SequenceEvent X H))
  | listReloaded
  | restart

/-- The state a program leaves, also when it is abandoned. -/
def stateAfter {α : Type} (x : Watch X H A α) (w : Watcher X H A) : Watcher X H A :=
  match x w with
  | .ok _ w' => w'
  | .error _ w' => w'

/-- The state after a step. -/
def next : Label X H A → Watcher X H A → Watcher X H A
  | .reconcile env source, w => stateAfter (reconcile cfg env source) { w with calls := 0 }
  | .handleEvents env events, w => stateAfter (handleEvents cfg env events) { w with calls := 0 }
  | .listReloaded, w => { w with checked := ∅ }
  | .restart, w => w.restart

/-- The watcher as a transition system. -/
def system : TransitionSystem (Watcher X H A) (Label X H A) where
  init w := w = .fresh
  step i w w' := next cfg i w = w'

end MempoolWatch

end BtcParser
