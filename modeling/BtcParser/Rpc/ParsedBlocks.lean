import BtcParser.Rpc.BlockParser
import BtcParser.Rpc.Client

/-!
`build_parsed_block` of `rpc/catchup.py`: from a payload to the `ParsedBlock` the writer takes.

The three frames are the lists of their rows, and a missing or empty `previousblockhash` is `none`.
-/

namespace BtcParser

open BlockParser

/-- A row of one of the four files, as `aggregate_block` makes it. -/
inductive ExportedRow where
  | block (e : BlockParser.BlockEvent)
  | transaction (e : TxEvent)
  | input (e : InputEvent)
  | output (e : OutputEvent)

namespace ExportedRow

def block? : ExportedRow → Option BlockParser.BlockEvent
  | block e => some e
  | _ => none

def transaction? : ExportedRow → Option TxEvent
  | transaction e => some e
  | _ => none

def input? : ExportedRow → Option InputEvent
  | input e => some e
  | _ => none

def output? : ExportedRow → Option OutputEvent
  | output e => some e
  | _ => none

end ExportedRow

/-- `build_parsed_block`. -/
def buildParsedBlock (env : Env) (block : Block) :
    Except Rejected (ParsedBlock String ExportedRow) := do
  let aggregate ← aggregateBlock env block
  let height ← require "height" block.height
  let blockHash ← require "hash" block.hash
  return {
    height := height
    blockHash := blockHash
    previousblockhash := block.native.previousblockhash.filter fun s => s ≠ ""
    blockTime := aggregate.blockEvent.time
    blockEvent := .block aggregate.blockEvent
    transactions := aggregate.txEvents.map .transaction
    inputs := aggregate.inputEvents.map .input
    outputs := aggregate.outputEvents.map .output }

/-- Every block is what `build_parsed_block` makes of a payload. The matcher may be another one for
every block, since `run_rpc_ingest` loads it anew. -/
def BlockTree.Parsed (T : BlockTree String ExportedRow) (config : Config) : Prop :=
  ∀ h, ∃ env payload, env.config = config ∧ buildParsedBlock env payload = .ok (T.block h)

end BtcParser
