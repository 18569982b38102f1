import BtcParser.Library.Transition
import BtcParser.Rpc.Catchup
import BtcParser.Rpc.ReorgState
import Mathlib.Logic.Function.Basic

/-!
`rpc/ingest.py`: one pass of the block parser, and the loop around it.

A pass is a program over a `World`: the objects in memory, the files on disk, the number of calls
made so far and the trace of what the pass did. What the surroundings do is fixed by a `PassEnv`:
the node each call meets, the nodes the catch-up workers meet, the completion order of the
workers, the heights at which a stop is requested, and what a consumer takes out of `export_base`
between two store operations.

Every change of a file is one `effect` and leaves a snapshot of the disk in the trace; a store
operation that has returned leaves a `completed` event. `Ingest.system` is the loop of
`run_rpc_ingest` with crashes at any effect, restarts, and a consumer.
-/

namespace BtcParser

/-- `rpc.*` of the configuration, with what its loader checks. -/
structure RpcConfig where
  reorgConfirmations : ℕ
  maxReorgDepth : ℕ
  batchSize : ℕ
  catchupWorkers : ℕ
  maxReorgDepth_pos : 1 ≤ maxReorgDepth
  batchSize_pos : 1 ≤ batchSize
  catchupWorkers_pos : 1 ≤ catchupWorkers

/-- The four logical CSVs, in the order of the dictionary of sequencers. -/
inductive Kind where
  | blocks
  | transactions
  | inputs
  | outputs
  deriving DecidableEq

/-- The keys of the dictionary of sequencers. -/
def Kind.all : List Kind := [.blocks, .transactions, .inputs, .outputs]

lemma Kind.mem_all (k : Kind) : k ∈ Kind.all := by
  cases k <;> decide

variable {H ρ : Type}

/-- The size of the files: rotation cap and bytes per line of the exported parts, and when a part
of `index.csv` is at the cap. -/
structure Formats (H ρ : Type) where
  parts : Format (Row H ρ)
  indexIsFull : IndexPart H → Bool

/-- A row of a reorg log. -/
structure LogRow (H : Type) where
  attached : Bool
  height : ℤ
  blockhash : H
  deriving DecidableEq

/-- An audit file under `reorg/`. -/
structure ReorgLog (H : Type) where
  lowest : ℤ
  highest : ℤ
  rows : List (LogRow H)
  deriving DecidableEq

/-- The files under `state_dir` and `output_dir`. -/
structure Disk (H ρ : Type) where
  current : Option (Pointer H)
  latest : Option (Pointer H)
  index : List (IndexPart H)
  status : Dict (ℤ × H) Bool
  reorgLogs : List (ReorgLog H)
  parts : Kind → PartFiles (Row H ρ)

/-- Empty directories. -/
def Disk.fresh : Disk H ρ := ⟨none, none, [], .empty, [], fun _ => .fresh⟩

/-- A consumer takes an export part away. -/
def Disk.consume (d : Disk H ρ) (k : Kind) (n : ℕ) : Disk H ρ :=
  { d with parts := Function.update d.parts k ((d.parts k).consume n) }

/-- An effect on the parts of one kind. -/
def Disk.applyPart (d : Disk H ρ) (k : Kind) (e : PartEffect (Row H ρ)) : Disk H ρ :=
  { d with parts := Function.update d.parts k (e.apply (d.parts k)) }

/-- The objects of the process. -/
structure Memory (H : Type) where
  index : IndexStore H
  status : BlockStatusStore H
  sequencers : Kind → PartSequencer

/-- The constructors of `run_rpc_ingest`. -/
def Memory.load [DecidableEq H] (d : Disk H ρ) : Memory H :=
  ⟨.load d.index, .load d.status, fun k => .load (d.parts k)⟩

/-- The store operations, with what they wrote. -/
inductive StoreOp (H ρ : Type) where
  | latestWritten (p : Pointer H)
  | currentWritten (p : Pointer H)
  | drained (k : Kind) (atomic : Bool) (rows : List (Row H ρ))
  | indexFlushed (rows : List (IndexRow H))
  | statusFlushed
  | reorgLogged (log : ReorgLog H)

/-- What a pass leaves in its trace. -/
inductive Event (H ρ : Type) where
  /-- a file has changed; the disk now -/
  | effect (d : Disk H ρ)
  /-- a store operation has returned; the disk now -/
  | completed (op : StoreOp H ρ) (d : Disk H ρ)
  /-- the loop takes up the block `h` after `last`, with this index -/
  | handled (h : H) (last : Option H) (index : IndexStore H)

/-- The disk an event leaves behind. -/
def Event.disk? : Event H ρ → Option (Disk H ρ)
  | .effect d => some d
  | .completed _ d => some d
  | .handled .. => none

/-- What a pass works on. -/
structure World (H ρ : Type) where
  mem : Memory H
  disk : Disk H ρ
  calls : ℕ
  trace : List (Event H ρ)

/-- How a pass fails: `RpcCliError`, or one of the `RuntimeError`s with what its text names. -/
inductive Fault (H : Type) where
  | rpcCliError
  | maxReorgDepthExceeded (height : ℤ)
  | unindexedBlock (h : Option H) (height : ℤ)
  | noEarlierBlock (height : ℤ)
  | unexpectedHeight (h : H) (height expected : ℤ)
  | stopIteration
  deriving DecidableEq

/-- The surroundings of a pass. -/
structure PassEnv {H ρ : Type} (T : BlockTree H ρ) where
  /-- the node met by the `n`-th call of the main process -/
  node : ℕ → Node T
  /-- the nodes a worker meets with its two calls for a height -/
  worker : ℤ → Node T × Node T
  /-- which running worker completes next -/
  schedule : ℕ → ℕ
  /-- `stop.is_set()` before a height -/
  stop : ℤ → Bool
  /-- what a consumer takes away before the store operation that starts at this length of the
  trace -/
  consumer : ℕ → List (Kind × ℕ)
  /-- which of the highest seeded rows an unstable sort leaves last -/
  tie : ℕ

/-- A program of the process. -/
abbrev Pass (H ρ : Type) := EStateM (Fault H) (World H ρ)

/-! ### Store operations -/

namespace World

/-- One change of the files. -/
def effect (w : World H ρ) (f : Disk H ρ → Disk H ρ) : World H ρ :=
  { w with disk := f w.disk, trace := w.trace ++ [.effect (f w.disk)] }

/-- A store operation returns. -/
def completed (w : World H ρ) (op : StoreOp H ρ) : World H ρ :=
  { w with trace := w.trace ++ [.completed op w.disk] }

/-- A consumer takes export parts away. -/
def consumed (w : World H ρ) (cs : List (Kind × ℕ)) : World H ρ :=
  { w with disk := cs.foldl (fun d c => d.consume c.1 c.2) w.disk }

/-- `write_pointer(latest_path, ...)`. -/
def writeLatest (w : World H ρ) (p : Pointer H) : World H ρ :=
  (w.effect fun d => { d with latest := some p }).completed (.latestWritten p)

/-- `write_pointer(current_path, ...)`. -/
def writeCurrent (w : World H ρ) (p : Pointer H) : World H ρ :=
  (w.effect fun d => { d with current := some p }).completed (.currentWritten p)

/-- `write_reorg_log(...)`. -/
def writeReorgLog (w : World H ρ) (log : ReorgLog H) : World H ρ :=
  (w.effect fun d => { d with reorgLogs := d.reorgLogs ++ [log] }).completed (.reorgLogged log)

/-- The effects of a sequencer call. -/
def partEffects (w : World H ρ) (k : Kind) (es : List (PartEffect (Row H ρ))) : World H ρ :=
  es.foldl (fun w e => w.effect fun d => d.applyPart k e) w

/-- A sequencer call: `seq.write_atomic(data)` or `seq.write_batched(data)`. -/
def callParts (fmt : Format (Row H ρ)) (w : World H ρ) (atomic : Bool) (k : Kind)
    (rows : List (Row H ρ)) : PartSequencer × List (PartEffect (Row H ρ)) :=
  if atomic then (w.mem.sequencers k).writeAtomic (w.disk.parts k) rows
  else (w.mem.sequencers k).writeBatched fmt (w.disk.parts k) rows

/-- A sequencer call with its effects. -/
def writeParts (fmt : Format (Row H ρ)) (w : World H ρ) (atomic : Bool) (k : Kind)
    (rows : List (Row H ρ)) : World H ρ :=
  let (s, es) := w.callParts fmt atomic k rows
  (partEffects { w with mem := { w.mem with
    sequencers := Function.update w.mem.sequencers k s } } k es).completed (.drained k atomic rows)

variable [DecidableEq H]

/-- `index.flush()`. -/
def indexFlush (isFull : IndexPart H → Bool) (w : World H ρ) : World H ρ :=
  let s := w.mem.index
  if s.pending.entries.isEmpty then w.completed (.indexFlushed [])
  else
    ({ w with mem := { w.mem with index := s.flush } }.effect fun d =>
      { d with index := s.flushParts isFull d.index }).completed (.indexFlushed s.pending.values)

/-- `block_status.flush()`. -/
def statusFlush (w : World H ρ) : World H ρ :=
  let s := w.mem.status
  if s.dirty then
    ({ w with mem := { w.mem with status := s.flush } }.effect fun d =>
      { d with status := s.flushFile d.status }).completed .statusFlushed
  else w.completed .statusFlushed

end World

namespace Ingest

variable [DecidableEq H] {T : BlockTree H ρ} (cfg : RpcConfig) (fmt : Formats H ρ)
  (env : PassEnv T)

/-- A call: answered, or `RpcCliError`. -/
def rpc {α : Type} (ask : Node T → Option α) : Pass H ρ α := fun w =>
  match ask (env.node w.calls) with
  | some a => .ok a { w with calls := w.calls + 1 }
  | none => .error .rpcCliError { w with calls := w.calls + 1 }

/-- A store operation, after the consumer's turn. -/
def store (op : World H ρ → World H ρ) : Pass H ρ Unit := do
  modify fun w => w.consumed (env.consumer w.trace.length)
  modify op

/-! ### The blocks of the loop -/

/-- The local variables of the forward loop. -/
structure Loop (H ρ : Type) where
  /-- `last_processed_height` -/
  height : ℤ
  /-- `last_hash` -/
  hash : Option H
  prevTime : Option ℤ
  /-- `batch_buffers`, the frames of a batch already concatenated -/
  buffers : Kind → List (Row H ρ)
  processed : ℕ

/-- The rows `_buffer_export` stages. -/
def rowsOf (b : ParsedBlock H ρ) (prevTime : Option ℤ) : Kind → List (Row H ρ)
  | .blocks => [.block ⟨b.height, b.blockHash, b.previousblockhash,
      prevTime.map fun t => b.blockTime - t, b.blockEvent⟩]
  | .transactions => b.transactions.map .detail
  | .inputs => b.inputs.map .detail
  | .outputs => b.outputs.map .detail

/-- `_buffer_export`. -/
def bufferExport (b : ParsedBlock H ρ) (l : Loop H ρ) : Pass H ρ (Kind → List (Row H ρ)) := do
  modify fun w => { w with mem := { w.mem with
    index := w.mem.index.add b.height b.blockHash b.previousblockhash
      currentIndexSchemaVersion } }
  pure fun k => l.buffers k ++ rowsOf b l.prevTime k

/-- `block_status.set_canonical_if_present(height, block_hash, True)`. -/
def confirmCanonical (height : ℤ) (h : H) : Pass H ρ Unit := modify fun w =>
  { w with mem := { w.mem with status := w.mem.status.setCanonicalIfPresent height h true } }

/-- The loop takes up a block. -/
def handling (h : H) (l : Loop H ρ) : Pass H ρ Unit := modify fun w =>
  { w with trace := w.trace ++ [.handled h l.hash w.mem.index] }

/-- `_process_height`, and the variables it updates in the loop. -/
def processHeight (height : ℤ) (l : Loop H ρ) : Pass H ρ (Loop H ρ) := do
  let h ← rpc env (·.getBlockHash height)
  if !(← get).mem.index.needsExport h then
    -- indexed at the current version: only the time of its header is missing
    let time ← rpc env (·.getBlockHeader h)
    handling h l
    confirmCanonical height h
    pure ⟨height, some h, some time, l.buffers, l.processed + 1⟩
  else
    -- new, or exported under an older version: fetched and parsed in full
    let b ← rpc env (·.getBlock h)
    handling h l
    let buffers ← bufferExport b l
    confirmCanonical height h
    pure ⟨height, some h, some b.blockTime, buffers, l.processed + 1⟩

/-- `_process_prefetched`, and the variables it updates in the loop. -/
def processPrefetched (height : ℤ) (b : ParsedBlock H ρ) (l : Loop H ρ) :
    Pass H ρ (Loop H ρ) := do
  handling b.blockHash l
  let buffers ←
    -- the workers parse every height, whether it is indexed or not
    if (← get).mem.index.needsExport b.blockHash then bufferExport b l else pure l.buffers
  confirmCanonical b.height b.blockHash
  pure ⟨height, some b.blockHash, some b.blockTime, buffers, l.processed + 1⟩

/-- `_fetch_and_parse`, in a worker. -/
def fetchAndParse (height : ℤ) : Except (Fault H) (ParsedBlock H ρ) :=
  match (env.worker height).1.getBlockHash height with
  | none => .error .rpcCliError
  -- the chain may have changed between the two calls
  | some h =>
      match (env.worker height).2.getBlock h with
      | none => .error .rpcCliError
      | some b =>
          if b.height ≠ height then .error (.unexpectedHeight h b.height height) else .ok b

/-- `next(prefetched)`. -/
def nextParsed (g : Prefetch) : Pass H ρ (ParsedBlock H ρ × Prefetch) :=
  match g.next (fetchAndParse env) env.schedule cfg.catchupWorkers with
  | none => throw .stopIteration
  | some (.error e, _) => throw e
  | some (.ok b, g) => pure (b, g)

/-! ### Reorg recovery -/

/-- The walk of `_recover_from_reorg` from a detached block down: the detached blocks from the
highest on, the live hashes met on the way, and the common ancestor. `fuel` blocks may be
detached. -/
def walkBack : ℕ → ℤ → H → Pass H ρ (List (ℤ × H) × List (ℤ × H) × (ℤ × H))
  -- `max_reorg_depth` blocks are detached, and none of them was the fork
  | 0, height, _ => throw (.maxReorgDepthExceeded height)
  | fuel + 1, height, h => do
      match (← get).mem.index.get h with
      | none => throw (.unindexedBlock (some h) height)
      | some row =>
          if height ≤ 0 then throw (.noEarlierBlock height)
          else
            match row.previousblockhash with
            | none => throw (.noEarlierBlock height)
            | some previous =>
                -- the live block one height below is compared with the parent
                let live ← rpc env (·.getBlockHash (height - 1))
                if live = previous then
                  pure ([(height, h)], [(height - 1, live)], (height - 1, live))
                else
                  let (detached, lives, ancestor) ← walkBack fuel (height - 1) previous
                  pure ((height, h) :: detached, (height - 1, live) :: lives, ancestor)

/-- The audit of the attached range: `n` heights from `height` on, live hashes already known not
asked for again. -/
def attachedRows (lives : List (ℤ × H)) : ℕ → ℤ → Pass H ρ (List (LogRow H))
  | 0, _ => pure []
  | n + 1, height => do
      -- the walk has asked for the heights down to the fork
      let live ←
        match lives.lookup height with
        | some live => pure live
        | none => rpc env (·.getBlockHash height)
      let rows ← attachedRows lives n (height + 1)
      pure (⟨true, height, live⟩ :: rows)

/-- `block_status.set_canonical(h, bh, False)` for the detached blocks. -/
def setDetached (detached : List (ℤ × H)) (s : BlockStatusStore H) : BlockStatusStore H :=
  detached.foldl (fun s d => s.setCanonical d.1 d.2 false) s

/-- `_recover_from_reorg`. -/
def recoverFromReorg (height : ℤ) (h : H) : Pass H ρ (ℤ × H) := do
  let (detached, lives, ancestor) ← walkBack env cfg.maxReorgDepth height h
  -- from the lowest detached block up
  modify fun w =>
    { w with mem := { w.mem with status := setDetached detached.reverse w.mem.status } }
  let attached ← attachedRows env lives (height - ancestor.1).toNat (ancestor.1 + 1)
  -- the flags are on disk before the audit file is
  store env World.statusFlush
  store env (·.writeReorgLog ⟨ancestor.1 + 1, height,
    (detached.reverse.map fun d => ⟨false, d.1, d.2⟩) ++ attached⟩)
  pure ancestor

/-! ### One pass -/

/-- `_drain`: every buffer is written and cleared. -/
def drain (atomic : Bool) (buffers : Kind → List (Row H ρ)) : List Kind → Pass H ρ Unit
  | [] => pure ()
  | k :: ks => do
      store env (·.writeParts fmt.parts atomic k (buffers k))
      drain atomic buffers ks

/-- What the pass has settled before its loop. -/
structure Goal where
  latest : ℤ
  parallelEnd : ℤ
  atomic : Bool

/-- The checkpoint of the loop: the buffers drained, the two tables flushed, the pointer moved. -/
def checkpoint (g : Goal) (l : Loop H ρ) : Pass H ρ (Loop H ρ) := do
  drain fmt env g.atomic l.buffers Kind.all
  store env (World.indexFlush fmt.indexIsFull)
  store env World.statusFlush
  -- last, so that a pointer on disk has the rows of its block behind it
  store env (·.writeCurrent (l.height, l.hash))
  pure { l with buffers := fun _ => [] }

/-- A checkpoint when one is due. -/
def checkpointIfDue (g : Goal) (l : Loop H ρ) : Pass H ρ (Loop H ρ) :=
  if g.atomic || l.processed % cfg.batchSize == 0 then checkpoint fmt env g l else pure l

/-- The forward loop: `n` heights are left. -/
def forward (g : Goal) : ℕ → Option Prefetch → Loop H ρ → Pass H ρ (Loop H ρ)
  | 0, _, l => pure l
  | n + 1, prefetched, l =>
      let height := l.height + 1
      -- `stop.is_set()` is asked before every height
      if env.stop height then pure l
      else
        match (if height ≤ g.parallelEnd then prefetched else none) with
        | some p => do
            let (b, p) ← nextParsed cfg env p
            -- a worker may have seen another branch: the pass ends here, and is no failure
            if l.hash ≠ none ∧ b.previousblockhash ≠ l.hash then pure l
            else
              let l ← processPrefetched height b l
              let l ← checkpointIfDue cfg fmt env g l
              forward g n (if height = g.parallelEnd then none else some p) l
        | none => do
            -- by one call after the other, and without a look at the parent
            let l ← processHeight env height l
            let l ← checkpointIfDue cfg fmt env g l
            forward g n prefetched l

/-- The heights from `height` on, `n` of them. -/
def heightRange (height : ℤ) : ℕ → List ℤ
  | 0 => []
  | n + 1 => height :: heightRange (height + 1) n

/-- The end of the pass: the last checkpoint, and whether the pass caught up. -/
def finish (g : Goal) (l : Loop H ρ) : Pass H ρ Bool := do
  drain fmt env g.atomic l.buffers Kind.all
  store env (World.indexFlush fmt.indexIsFull)
  store env World.statusFlush
  match l.hash with
  | some h => store env (·.writeCurrent (l.height, some h))
  -- no block has been taken up since the empty start
  | none => pure ()
  pure (decide (g.latest ≤ l.height))

/-- `seed_index_from_blocks_csv`. -/
def seedFromBlocks : Pass H ρ (Option (Pointer H)) := do
  let rows := seedRows ((← get).disk.parts .blocks)
  match seedTop env.tie rows with
  | none => pure none
  -- the rows of an export without an index: staged, and flushed at once
  | some top => do
      modify fun w => { w with mem := { w.mem with index := seedIndex w.mem.index rows } }
      store env (World.indexFlush fmt.indexIsFull)
      pure (some (top.height, some top.hash))

/-- Where the pass starts from: `current.csv`, or what is found on disk, or nothing. -/
def readCurrent : Pass H ρ (Option (Pointer H)) := do
  match (← get).disk.current with
  | some p => pure (some p)
  | none => seedFromBlocks fmt env

/-- The pointer the pass continues from: checked against the live chain, after recovery if it has
left it. -/
def resume : Option (Pointer H) → Pass H ρ (Pointer H)
  | none => pure (-1, none)
  | some (height, hash) => do
      let live ← rpc env (·.getBlockHash height)
      if some live = hash then pure (height, hash)
      else
        match hash with
        | none => throw (.unindexedBlock none height)
        | some h => do
            -- the pointer is not on the live chain any more
            let ancestor ← recoverFromReorg cfg env height h
            pure (ancestor.1, some ancestor.2)

/-- The rewind to the earliest block of an older event schema. -/
def rewindToStale (p : Pointer H) : Pass H ρ (Pointer H) := do
  let (stale, index) := (← get).mem.index.earliestStale
  modify fun w => { w with mem := { w.mem with index := index } }
  match stale with
  | none => pure p
  | some row =>
      -- never up: rows above the pointer are reached by the loop
      if row.height - 1 < p.1 then pure (row.height - 1, row.previousblockhash) else pure p

/-- `int(get_block_header(rpc_config, current_hash)["time"])`, or `None`. -/
def headerTime : Option H → Pass H ρ (Option ℤ)
  | none => pure none
  | some h => do
      let time ← rpc env (·.getBlockHeader h)
      pure (some time)

/-- The loop from a pointer, with what is settled before it. -/
def catchUp (tip latest : ℤ) (p : Pointer H) : Pass H ρ Bool := do
  let prevTime ← headerTime env p.2
  -- near the tip every block is written as a part of its own
  let atomic := decide (latest - p.1 ≤ max (cfg.reorgConfirmations : ℤ) 1)
  let parallelEnd := min latest (tip - cfg.maxReorgDepth)
  -- workers only for a long range, below what a reorg may replace
  let prefetched :=
    if 1 < cfg.catchupWorkers ∧ atomic = false
        ∧ (prefetchPerWorker * cfg.catchupWorkers : ℕ) < parallelEnd - p.1 then
      some (Prefetch.start (heightRange (p.1 + 1) (parallelEnd - p.1).toNat) cfg.catchupWorkers)
    else none
  let g : Goal := ⟨latest, parallelEnd, atomic⟩
  let l ← forward cfg fmt env g (latest - p.1).toNat prefetched
    ⟨p.1, p.2, prevTime, fun _ => [], 0⟩
  finish fmt env g l

/-- The pass from the pointer it has found on. -/
def proceed (tip latest : ℤ) (current : Option (Pointer H)) : Pass H ρ Bool := do
  let p ← resume cfg env current
  let p ← rewindToStale p
  if latest ≤ p.1 then
    store env (·.writeCurrent p)
    store env World.statusFlush
    pure true
  else catchUp cfg fmt env tip latest p

/-- `_run_one_pass`. -/
def runOnePass : Pass H ρ Bool := do
  let tip ← rpc env (·.getBlockCount)
  let latest := tip - cfg.reorgConfirmations
  if latest < 0 then pure true
  else
    let latestHash ← rpc env (·.getBlockHash latest)
    store env (·.writeLatest (latest, some latestHash))
    let current ← readCurrent fmt env
    proceed cfg fmt env tip latest current

/-! ### The loop around it -/

/-- `run_rpc_ingest` between two passes; `log` is all that has happened so far. -/
structure State (H ρ : Type) where
  mem : Memory H
  disk : Disk H ρ
  log : List (Event H ρ)

/-- Nothing parsed yet: empty directories. -/
def State.start : State H ρ := ⟨.load (Disk.fresh : Disk H ρ), .fresh, []⟩

/-- What can happen: a pass, a pass cut short by a crash at an event of its trace, a restart,
a consumer taking an export part away. -/
inductive Label {H ρ : Type} (T : BlockTree H ρ) where
  | pass (env : PassEnv T)
  | crash (env : PassEnv T) (n : ℕ)
  | restart
  | consume (k : Kind) (n : ℕ)

/-- A pass from this state. -/
def State.run (s : State H ρ) : EStateM.Result (Fault H) (World H ρ) Bool :=
  runOnePass cfg fmt env ⟨s.mem, s.disk, 0, []⟩

/-- The trace of a pass, completed or not. -/
def State.trace (s : State H ρ) : List (Event H ρ) :=
  match s.run cfg fmt env with
  | .ok _ w => w.trace
  | .error _ w => w.trace

/-- After the pass: an `RpcCliError` discards the staged index rows and keeps the process, any
other exception ends it. -/
def State.afterPass (s : State H ρ) : State H ρ :=
  match s.run cfg fmt env with
  | .ok _ w => ⟨w.mem, w.disk, s.log ++ w.trace⟩
  -- `index.discard_pending()`: what was staged is fetched again
  | .error .rpcCliError w =>
      ⟨{ w.mem with index := w.mem.index.discardPending }, w.disk, s.log ++ w.trace⟩
  -- any other exception leaves the process, and the next one loads the files
  | .error _ w => ⟨.load w.disk, w.disk, s.log ++ w.trace⟩

/-- The step a label names, if it can be taken. -/
def next : Label T → State H ρ → Option (State H ρ)
  | .pass env, s => some (s.afterPass cfg fmt env)
  | .crash env n, s =>
      ((s.trace cfg fmt env)[n]?.bind Event.disk?).map fun d =>
        ⟨.load d, d, s.log ++ (s.trace cfg fmt env).take (n + 1)⟩
  | .restart, s => some ⟨.load s.disk, s.disk, s.log⟩
  | .consume k n, s => some { s with disk := s.disk.consume k n }

/-- All runs of `run_rpc_ingest` from empty directories. -/
def system (T : BlockTree H ρ) : TransitionSystem (State H ρ) (Label T) where
  init s := s = State.start
  step i s s' := next cfg fmt i s = some s'

/-! ### Concrete settings, for concrete runs -/

/-- No confirmations, one block a batch, no workers. -/
def plainConfig : RpcConfig := ⟨0, 2, 1, 1, by decide, by decide, by decide⟩

/-- Files that never fill up. -/
def plainFormats : Formats ℕ ℕ := ⟨⟨1000, fun _ => 0⟩, fun _ => false⟩

/-- Surroundings in which only the node matters. -/
def plainEnv (node : ℕ → Node forkTree) : PassEnv forkTree where
  node := node
  worker _ := (node 0, node 0)
  schedule := id
  stop _ := false
  consumer _ := []
  tie := 0

end Ingest

end BtcParser
