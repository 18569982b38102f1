import Mathlib.Tactic

/-!
`rpc/block_parser.py`: from the payload of a `getblock <hash> 3` to the rows of a block, of its
transactions, and of their inputs and outputs.

The payload is typed, a key that may be missing or null being an `Option`. Amounts and averages
are exact rationals.
-/

namespace BtcParser

/-! ### Amounts -/

/-- `Decimal.to_integral_value()`: to the nearest integer, and to the even one of two. -/
def toIntegralValue (q : ℚ) : ℤ :=
  if q - ⌊q⌋ < 1 / 2 then ⌊q⌋
  else if 1 / 2 < q - ⌊q⌋ then ⌊q⌋ + 1
  else if ⌊q⌋ % 2 = 0 then ⌊q⌋ else ⌊q⌋ + 1

/-- `SATOSHIS_PER_BTC`. -/
def satoshisPerBtc : ℚ := 100000000

/-- `btc_to_sats`. -/
def btcToSats (value : Option ℚ) : Option ℤ :=
  value.map fun v => toIntegralValue (v * satoshisPerBtc)

namespace BlockParser

/-! ### The payload -/

structure ScriptPubKey where
  hex : Option String
  type : Option String
  address : Option String

structure Prevout where
  generated : Option Bool
  value : Option ℚ
  height : Option ℤ
  scriptPubKey : ScriptPubKey

/-- An entry of `vin`. An item of the witness that is no string is `none`. -/
structure Vin where
  txid : Option String
  vout : Option ℕ
  coinbase : Option String
  txinwitness : List (Option String)
  scriptSigHex : Option String
  sequence : Option ℕ
  prevout : Option Prevout

structure Vout where
  value : Option ℚ
  scriptPubKey : ScriptPubKey

structure Tx where
  txid : Option String
  hash : Option String
  version : Option ℤ
  size : Option ℕ
  vsize : Option ℕ
  weight : Option ℕ
  locktime : Option ℕ
  vin : List Vin
  vout : List Vout
  fee : Option ℚ

/-- The fields of a block that reach its row as they are. -/
structure NativeFields where
  version : Option ℤ
  versionHex : Option String
  merkleroot : Option String
  mediantime : Option ℤ
  nonce : Option ℕ
  bits : Option String
  target : Option String
  difficulty : Option ℚ
  chainwork : Option String
  nTx : Option ℕ
  previousblockhash : Option String
  strippedsize : Option ℕ
  size : Option ℕ
  weight : Option ℕ

structure Block where
  hash : Option String
  height : Option ℤ
  time : Option ℤ
  tx : List Tx
  native : NativeFields

/-! ### Script types -/

/-- `SCRIPT_TYPES`. -/
inductive ScriptType
  | nonstandard
  | pubkey
  | pubkeyhash
  | scripthash
  | multisig
  | nulldata
  | witnessV0Keyhash
  | witnessV0Scripthash
  | witnessV1Taproot
  | witnessUnknown
  | anchor
  | other
  deriving DecidableEq

/-- The script type as Bitcoin Core writes it. -/
def ScriptType.name : ScriptType → String
  | nonstandard => "nonstandard"
  | pubkey => "pubkey"
  | pubkeyhash => "pubkeyhash"
  | scripthash => "scripthash"
  | multisig => "multisig"
  | nulldata => "nulldata"
  | witnessV0Keyhash => "witness_v0_keyhash"
  | witnessV0Scripthash => "witness_v0_scripthash"
  | witnessV1Taproot => "witness_v1_taproot"
  | witnessUnknown => "witness_unknown"
  | anchor => "anchor"
  | other => "other"

/-- `SCRIPT_TYPES`, in order. -/
def scriptTypes : List ScriptType :=
  [.nonstandard, .pubkey, .pubkeyhash, .scripthash, .multisig, .nulldata, .witnessV0Keyhash,
    .witnessV0Scripthash, .witnessV1Taproot, .witnessUnknown, .anchor, .other]

/-- `normalized_script_type`. -/
def normalizedScriptType (value : Option String) : ScriptType :=
  (value.bind fun s => scriptTypes.find? fun t => t.name = s ∧ t ≠ .other).getD .other

/-- The twelve counters of one prefix. -/
abbrev ScriptTypeCounts := ScriptType → ℕ

/-- `init_script_type_counts`. -/
def initScriptTypeCounts : ScriptTypeCounts := fun _ => 0

/-- `counts[key] += 1`. -/
def ScriptTypeCounts.bump (counts : ScriptTypeCounts) (t : ScriptType) : ScriptTypeCounts :=
  Function.update counts t (counts t + 1)

/-! ### Helpers -/

/-- `hex_data_bytes`. -/
def hexDataBytes (value : Option String) : ℕ :=
  match value with
  | none => 0
  | some s => s.length / 2

/-- `float(sum / count)` of values that may be none. -/
def averageOrNone (values : List ℚ) : Option ℚ :=
  if values = [] then none else some (values.sum / values.length)

/-- `median_or_none`. -/
def medianOrNone (values : List ℚ) : Option ℚ :=
  let sorted := values.insertionSort (· ≤ ·)
  let n := sorted.length
  if n % 2 = 1 then sorted[n / 2]?
  else match sorted[n / 2 - 1]?, sorted[n / 2]? with
    | some a, some b => some ((a + b) / 2)
    | _, _ => none

/-- `BIP125_RBF_SEQUENCE_THRESHOLD`. -/
def bip125RbfSequenceThreshold : ℕ := 0xFFFFFFFE

/-- `BIP68_DISABLE_FLAG`. -/
def bip68DisableFlag : ℕ := 1 <<< 31

/-- `BIP68_TYPE_FLAG`. -/
def bip68TypeFlag : ℕ := 1 <<< 22

/-- `BIP68_VALUE_MASK`. -/
def bip68ValueMask : ℕ := 0x0000FFFF

inductive LocktimeType
  | blocks
  | time
  deriving DecidableEq

/-- `decode_sequence`: whether the input signals, and the relative locktime. -/
def decodeSequence (sequence : Option ℕ) (txVersion : Option ℤ) (isCoinbase : Bool) :
    Bool × Option LocktimeType × Option ℕ :=
  match sequence with
  | none => (false, none, none)
  | some seq =>
      let signalsRbf := !isCoinbase && decide (seq < bip125RbfSequenceThreshold)
      if isCoinbase = true ∨ txVersion.getD 0 < 2 ∨ seq &&& bip68DisableFlag ≠ 0 then
        (signalsRbf, none, none)
      else
        (signalsRbf, some (if seq &&& bip68TypeFlag ≠ 0 then .time else .blocks),
          some (seq &&& bip68ValueMask))

/-- The part of `RpcConfig` the parser reads, as the loader of `config.yaml` checks it. -/
structure Config where
  blocksPerDay : ℕ
  maxBlockWeight : ℕ
  halvingIntervalBlocks : ℕ
  initialSubsidySats : ℕ
  blocksPerDay_pos : 1 ≤ blocksPerDay
  maxBlockWeight_pos : 1 ≤ maxBlockWeight
  halvingIntervalBlocks_pos : 1 ≤ halvingIntervalBlocks

/-- `block_subsidy_sats`. -/
def blockSubsidySats (height : ℤ) (config : Config) : ℕ :=
  let halvings := height / config.halvingIntervalBlocks
  if 64 ≤ halvings then 0 else config.initialSubsidySats >>> halvings.toNat

/-! ### Rows -/

/-- What every row of a transaction repeats. -/
structure TxKey where
  blockHash : String
  blockHeight : ℤ
  blockTime : ℤ
  txIndex : ℕ
  txid : Option String
  isCoinbase : Bool

/-- A row of `inputs.csv`. -/
structure InputEvent where
  key : TxKey
  inputIndex : ℕ
  prevoutTxid : Option String
  prevoutVout : Option ℕ
  valueSats : Option ℤ
  prevoutHeight : Option ℤ
  inputAgeBlocks : Option ℤ
  prevoutGenerated : Option Bool
  prevoutType : Option ScriptType
  prevoutAddress : Option String
  scriptsigBytes : ℕ
  coinbaseHex : Option String
  witnessItemCount : ℕ
  witnessDataBytes : ℕ
  sequence : Option ℕ
  signalsRbf : Bool
  relativeLocktimeType : Option LocktimeType
  relativeLocktimeValue : Option ℕ

/-- A row of `outputs.csv`. -/
structure OutputEvent where
  key : TxKey
  outputIndex : ℕ
  valueSats : Option ℤ
  scriptType : ScriptType
  scriptBytes : ℕ
  address : Option String
  isOpReturn : Bool

inductive FeeSource
  | coinbase
  | rpc
  | derived
  | unavailable
  deriving DecidableEq

/-- A row of `transactions.csv`. -/
structure TxEvent where
  key : TxKey
  wtxid : Option String
  version : Option ℤ
  size : Option ℕ
  vsize : Option ℕ
  weight : Option ℕ
  locktime : Option ℕ
  feeSats : Option ℤ
  feeSource : FeeSource
  feeRateSatVb : Option ℚ
  inputValueSats : Option ℤ
  outputValueSats : ℤ
  outputValueMinSats : Option ℤ
  outputValueMaxSats : Option ℤ
  outputValueAvgSats : Option ℚ
  vinCount : ℕ
  voutCount : ℕ
  prevoutValueKnownCount : ℕ
  prevoutHeightKnownCount : ℕ
  generatedInputCount : ℕ
  inputAgeMinBlocks : Option ℤ
  inputAgeMaxBlocks : Option ℤ
  inputAgeAvgBlocks : Option ℚ
  inputAgeValueWeightedAvgBlocks : Option ℚ
  coinDaysDestroyedBtc : ℚ
  witnessInputCount : ℕ
  witnessItemCount : ℕ
  witnessDataBytes : ℕ
  scriptsigBytes : ℕ
  scriptpubkeyBytes : ℕ
  signalsRbf : Bool
  opReturnCount : ℕ
  opReturnScriptBytes : ℕ
  zeroValueOutputCount : ℕ
  vinTypeCounts : ScriptTypeCounts
  voutTypeCounts : ScriptTypeCounts

/-! ### Transactions -/

/-- The counters of the loop over the inputs. -/
structure InputTotals where
  vinTypeCounts : ScriptTypeCounts
  inputValuesSats : List ℤ
  inputAgesBlocks : List ℤ
  inputAgeValuePairs : List (ℤ × ℤ)
  prevoutValueKnownCount : ℕ
  prevoutHeightKnownCount : ℕ
  generatedInputCount : ℕ
  witnessInputCount : ℕ
  witnessItemCount : ℕ
  witnessDataBytes : ℕ
  scriptsigBytes : ℕ
  signalsRbf : Bool
  inputEvents : List InputEvent

def InputTotals.init : InputTotals :=
  ⟨initScriptTypeCounts, [], [], [], 0, 0, 0, 0, 0, 0, 0, false, []⟩

/-- The branch for a known prevout in the loop over the inputs. -/
def countPrevout (blockHeight : ℤ) (prevout : Prevout) (a : InputTotals) : InputTotals :=
  let a := if prevout.generated = some true
    then { a with generatedInputCount := a.generatedInputCount + 1 } else a
  let prevoutValueSats := btcToSats prevout.value
  let a := match prevoutValueSats with
    | none => a
    | some v => { a with
        prevoutValueKnownCount := a.prevoutValueKnownCount + 1
        inputValuesSats := a.inputValuesSats ++ [v] }
  let a := match prevout.height with
    | none => a
    | some h =>
        let age := max 0 (blockHeight - h)
        let a := { a with
          prevoutHeightKnownCount := a.prevoutHeightKnownCount + 1
          inputAgesBlocks := a.inputAgesBlocks ++ [age] }
        match prevoutValueSats with
        | none => a
        | some v => { a with inputAgeValuePairs := a.inputAgeValuePairs ++ [(age, v)] }
  { a with vinTypeCounts := a.vinTypeCounts.bump (normalizedScriptType prevout.scriptPubKey.type) }

/-- The row of an input. -/
def inputEvent (key : TxKey) (txVersion : Option ℤ) (vin : Vin) (inputIndex : ℕ) : InputEvent :=
  let decoded := decodeSequence vin.sequence txVersion key.isCoinbase
  { key := key
    inputIndex := inputIndex
    prevoutTxid := vin.txid
    prevoutVout := vin.vout
    valueSats := vin.prevout.bind fun p => btcToSats p.value
    prevoutHeight := vin.prevout.bind fun p => p.height
    inputAgeBlocks := (vin.prevout.bind fun p => p.height).map fun h => max 0 (key.blockHeight - h)
    prevoutGenerated := vin.prevout.bind fun p => p.generated
    prevoutType := vin.prevout.map fun p => normalizedScriptType p.scriptPubKey.type
    prevoutAddress := vin.prevout.bind fun p => p.scriptPubKey.address
    scriptsigBytes := hexDataBytes vin.scriptSigHex
    coinbaseHex := vin.coinbase
    witnessItemCount := vin.txinwitness.length
    witnessDataBytes := (vin.txinwitness.map hexDataBytes).sum
    sequence := vin.sequence
    signalsRbf := decoded.1
    relativeLocktimeType := decoded.2.1
    relativeLocktimeValue := decoded.2.2 }

/-- The body of the loop over the inputs. -/
def countInput (key : TxKey) (txVersion : Option ℤ) (a : InputTotals) (p : Vin × ℕ) :
    InputTotals :=
  let vin := p.1
  let a := if vin.txinwitness ≠ [] then { a with
      witnessInputCount := a.witnessInputCount + 1
      witnessItemCount := a.witnessItemCount + vin.txinwitness.length
      witnessDataBytes := a.witnessDataBytes + (vin.txinwitness.map hexDataBytes).sum } else a
  let a := { a with scriptsigBytes := a.scriptsigBytes + hexDataBytes vin.scriptSigHex }
  let a := if (decodeSequence vin.sequence txVersion key.isCoinbase).1 = true
    then { a with signalsRbf := true } else a
  let a := match vin.prevout with
    | none => a
    | some prevout => countPrevout key.blockHeight prevout a
  { a with inputEvents := a.inputEvents ++ [inputEvent key txVersion vin p.2] }

/-- The counters of the loop over the outputs. -/
structure OutputTotals where
  voutTypeCounts : ScriptTypeCounts
  outputValuesSats : List ℤ
  scriptpubkeyBytes : ℕ
  opReturnCount : ℕ
  opReturnScriptBytes : ℕ
  zeroValueOutputCount : ℕ
  coinbaseOutputAddresses : List String
  outputEvents : List OutputEvent

def OutputTotals.init : OutputTotals :=
  ⟨initScriptTypeCounts, [], 0, 0, 0, 0, [], []⟩

/-- The row of an output. -/
def outputEvent (key : TxKey) (vout : Vout) (outputIndex : ℕ) : OutputEvent :=
  let scriptType := normalizedScriptType vout.scriptPubKey.type
  { key := key
    outputIndex := outputIndex
    valueSats := btcToSats vout.value
    scriptType := scriptType
    scriptBytes := hexDataBytes vout.scriptPubKey.hex
    address := vout.scriptPubKey.address
    isOpReturn := decide (scriptType = .nulldata) }

/-- The body of the loop over the outputs. -/
def countOutput (key : TxKey) (a : OutputTotals) (p : Vout × ℕ) : OutputTotals :=
  let vout := p.1
  let a := match btcToSats vout.value with
    | none => a
    | some v =>
        let a := { a with outputValuesSats := a.outputValuesSats ++ [v] }
        if v = 0 then { a with zeroValueOutputCount := a.zeroValueOutputCount + 1 } else a
  let scriptBytes := hexDataBytes vout.scriptPubKey.hex
  let a := { a with scriptpubkeyBytes := a.scriptpubkeyBytes + scriptBytes }
  let scriptType := normalizedScriptType vout.scriptPubKey.type
  let a := { a with voutTypeCounts := a.voutTypeCounts.bump scriptType }
  let a := if scriptType = .nulldata then { a with
      opReturnCount := a.opReturnCount + 1
      opReturnScriptBytes := a.opReturnScriptBytes + scriptBytes } else a
  let a := match vout.scriptPubKey.address with
    | none => a
    | some address => if key.isCoinbase = true ∧ address ≠ "" then { a with
        coinbaseOutputAddresses := a.coinbaseOutputAddresses ++ [address] } else a
  { a with outputEvents := a.outputEvents ++ [outputEvent key vout p.2] }

/-- `TransactionAggregate`. -/
structure TransactionAggregate where
  event : TxEvent
  coinbaseScriptSigHex : Option String
  coinbaseOutputAddresses : List String
  inputEvents : List InputEvent
  outputEvents : List OutputEvent

/-- `is_coinbase`. -/
def Tx.isCoinbase (tx : Tx) : Bool :=
  match tx.vin with
  | [] => false
  | vin :: _ => vin.coinbase.isSome

/-- The fee of a transaction, and where it comes from. -/
def feeOf (tx : Tx) (i : InputTotals) (o : OutputTotals) : Option ℤ × FeeSource :=
  let prevoutValuesComplete := tx.isCoinbase = true ∨ i.prevoutValueKnownCount = tx.vin.length
  if tx.isCoinbase = true then (some 0, .coinbase)
  else match tx.fee with
    | some fee => (btcToSats (some fee), .rpc)
    | none =>
        if prevoutValuesComplete then
          (some (i.inputValuesSats.sum - o.outputValuesSats.sum), .derived)
        else (none, .unavailable)

/-- The sum of `age * value`. -/
def ageValueSum (pairs : List (ℤ × ℤ)) : ℤ := (pairs.map fun p => p.1 * p.2).sum

/-- `input_age_value_weighted_avg`. -/
def inputAgeValueWeightedAvg (pairs : List (ℤ × ℤ)) : Option ℚ :=
  let denominator := (pairs.map Prod.snd).sum
  if 0 < denominator then some (ageValueSum pairs / denominator) else none

/-- `coin_days_destroyed_btc`. -/
def coinDaysDestroyedBtc (config : Config) (pairs : List (ℤ × ℤ)) : ℚ :=
  if pairs = [] then 0 else (ageValueSum pairs : ℚ) / config.blocksPerDay / satoshisPerBtc

/-- `aggregate_transaction`. -/
def aggregateTransaction (config : Config) (blockHash : String) (blockHeight blockTime : ℤ)
    (txIndex : ℕ) (tx : Tx) : TransactionAggregate :=
  let isCoinbase := tx.isCoinbase
  let key : TxKey := ⟨blockHash, blockHeight, blockTime, txIndex, tx.txid, isCoinbase⟩
  -- one loop over the inputs and one over the outputs
  let i := tx.vin.zipIdx.foldl (countInput key tx.version) .init
  let o := tx.vout.zipIdx.foldl (countOutput key) .init
  let inputValueSats := i.inputValuesSats.sum
  let outputValueSats := o.outputValuesSats.sum
  let fee := feeOf tx i o
  let vsize := tx.vsize.getD 0
  let event : TxEvent :=
    { key := key
      -- only where it differs from the txid
      wtxid := if tx.hash ≠ tx.txid then tx.hash else none
      version := tx.version
      size := tx.size
      vsize := tx.vsize
      weight := tx.weight
      locktime := tx.locktime
      feeSats := fee.1
      feeSource := fee.2
      feeRateSatVb := if 0 < vsize ∧ isCoinbase = false
        then fee.1.map fun f => (f : ℚ) / vsize else none
      -- a coinbase spends nothing
      inputValueSats := if isCoinbase = true then none else some inputValueSats
      outputValueSats := outputValueSats
      outputValueMinSats := o.outputValuesSats.min?
      outputValueMaxSats := o.outputValuesSats.max?
      outputValueAvgSats := averageOrNone (o.outputValuesSats.map (↑))
      vinCount := tx.vin.length
      voutCount := tx.vout.length
      prevoutValueKnownCount := i.prevoutValueKnownCount
      prevoutHeightKnownCount := i.prevoutHeightKnownCount
      generatedInputCount := i.generatedInputCount
      inputAgeMinBlocks := i.inputAgesBlocks.min?
      inputAgeMaxBlocks := i.inputAgesBlocks.max?
      inputAgeAvgBlocks := averageOrNone (i.inputAgesBlocks.map (↑))
      inputAgeValueWeightedAvgBlocks := inputAgeValueWeightedAvg i.inputAgeValuePairs
      coinDaysDestroyedBtc := coinDaysDestroyedBtc config i.inputAgeValuePairs
      witnessInputCount := i.witnessInputCount
      witnessItemCount := i.witnessItemCount
      witnessDataBytes := i.witnessDataBytes
      scriptsigBytes := i.scriptsigBytes
      scriptpubkeyBytes := o.scriptpubkeyBytes
      signalsRbf := i.signalsRbf
      opReturnCount := o.opReturnCount
      opReturnScriptBytes := o.opReturnScriptBytes
      zeroValueOutputCount := o.zeroValueOutputCount
      vinTypeCounts := i.vinTypeCounts
      voutTypeCounts := o.voutTypeCounts }
  { event := event
    coinbaseScriptSigHex := if isCoinbase = true then tx.vin.head?.bind (·.coinbase) else none
    coinbaseOutputAddresses := o.coinbaseOutputAddresses
    inputEvents := i.inputEvents
    outputEvents := o.outputEvents }

/-! ### Blocks -/

/-- `PoolMatch`. -/
structure PoolMatch where
  poolId : Option ℤ
  poolName : Option String
  poolLink : Option String
  matchMethod : String

/-- `UNKNOWN_MATCH`. -/
def unknownMatch : PoolMatch := ⟨none, none, none, "unknown"⟩

/-- What the block parser takes besides the payload. `log2OfHex` is `math.log2(int(s, 16))`, and
`none` where that raises. -/
structure Env where
  config : Config
  poolMatcher : Option (Option String → List String → PoolMatch)
  log2OfHex : String → Option ℚ

/-- `_match_mining_pool`. -/
def matchMiningPool (env : Env) (scriptSigHex : Option String) (addresses : List String) :
    PoolMatch :=
  match env.poolMatcher with
  | none => unknownMatch
  | some poolMatcher => poolMatcher scriptSigHex addresses

/-- The lists of the loop over the transactions. -/
structure Collected where
  txEvents : List TxEvent
  inputEvents : List InputEvent
  outputEvents : List OutputEvent
  coinbaseScriptSigHex : Option String
  coinbaseOutputAddresses : List String

/-- The body of the loop over the transactions. -/
def collectTx (config : Config) (blockHash : String) (blockHeight blockTime : ℤ) (c : Collected)
    (p : Tx × ℕ) : Collected :=
  let t := aggregateTransaction config blockHash blockHeight blockTime p.2 p.1
  let c := { c with
    txEvents := c.txEvents ++ [t.event]
    inputEvents := c.inputEvents ++ t.inputEvents
    outputEvents := c.outputEvents ++ t.outputEvents }
  if p.2 = 0 then { c with
    coinbaseScriptSigHex := t.coinbaseScriptSigHex
    coinbaseOutputAddresses := t.coinbaseOutputAddresses } else c

/-- The counters of the loop over `tx_events`. -/
structure BlockTotals where
  totalVinCount : ℕ
  totalVoutCount : ℕ
  coinDaysDestroyedBtc : ℚ
  vsizeValues : List ℕ
  segwitTxCount : ℕ
  taprootOutputTxCount : ℕ
  opReturnTxCount : ℕ
  opReturnOutputCount : ℕ
  opReturnScriptBytes : ℕ
  witnessInputCount : ℕ
  witnessItemCount : ℕ
  witnessDataBytes : ℕ
  scriptsigBytes : ℕ
  scriptpubkeyBytes : ℕ

def BlockTotals.init : BlockTotals := ⟨0, 0, 0, [], 0, 0, 0, 0, 0, 0, 0, 0, 0, 0⟩

/-- The body of the loop over `tx_events`. -/
def countTx (a : BlockTotals) (tx : TxEvent) : BlockTotals :=
  let a := { a with
    totalVinCount := a.totalVinCount + tx.vinCount
    totalVoutCount := a.totalVoutCount + tx.voutCount
    coinDaysDestroyedBtc := a.coinDaysDestroyedBtc + tx.coinDaysDestroyedBtc
    vsizeValues := a.vsizeValues ++ [tx.vsize.getD 0] }
  let a := if 0 < tx.witnessInputCount then { a with segwitTxCount := a.segwitTxCount + 1 } else a
  let a := if 0 < tx.voutTypeCounts .witnessV1Taproot then
    { a with taprootOutputTxCount := a.taprootOutputTxCount + 1 } else a
  let a := if 0 < tx.opReturnCount then { a with opReturnTxCount := a.opReturnTxCount + 1 } else a
  { a with
    opReturnOutputCount := a.opReturnOutputCount + tx.opReturnCount
    opReturnScriptBytes := a.opReturnScriptBytes + tx.opReturnScriptBytes
    witnessInputCount := a.witnessInputCount + tx.witnessInputCount
    witnessItemCount := a.witnessItemCount + tx.witnessItemCount
    witnessDataBytes := a.witnessDataBytes + tx.witnessDataBytes
    scriptsigBytes := a.scriptsigBytes + tx.scriptsigBytes
    scriptpubkeyBytes := a.scriptpubkeyBytes + tx.scriptpubkeyBytes }

/-- The counters of the loop over `regular_txs`. -/
structure RegularTotals where
  knownFees : List ℤ
  knownFeeRates : List ℚ
  totalRegularVsize : ℕ
  rbfTxCount : ℕ
  taprootInputTxCount : ℕ
  inputValueCompleteTxCount : ℕ
  regularInputValueSats : ℤ
  regularOutputValueSats : ℤ

def RegularTotals.init : RegularTotals := ⟨[], [], 0, 0, 0, 0, 0, 0⟩

/-- The body of the loop over `regular_txs`. -/
def countRegular (a : RegularTotals) (tx : TxEvent) : RegularTotals :=
  -- the averages are over the transactions with a known fee
  let a := match tx.feeSats with
    | none => a
    | some fee => { a with knownFees := a.knownFees ++ [fee] }
  let a := match tx.feeRateSatVb with
    | none => a
    | some rate => { a with knownFeeRates := a.knownFeeRates ++ [rate] }
  let a := { a with totalRegularVsize := a.totalRegularVsize + tx.vsize.getD 0 }
  let a := if tx.signalsRbf = true then { a with rbfTxCount := a.rbfTxCount + 1 } else a
  let a := if 0 < tx.vinTypeCounts .witnessV1Taproot then
    { a with taprootInputTxCount := a.taprootInputTxCount + 1 } else a
  -- a sum over some of the inputs would be wrong
  let a := if tx.prevoutValueKnownCount = tx.vinCount then { a with
      inputValueCompleteTxCount := a.inputValueCompleteTxCount + 1
      regularInputValueSats := a.regularInputValueSats + tx.inputValueSats.getD 0 } else a
  { a with regularOutputValueSats := a.regularOutputValueSats + tx.outputValueSats }

/-- A row of `blocks.csv`. The caller fills in `timeSincePrevBlockSec`. -/
structure BlockEvent where
  hash : String
  height : ℤ
  time : ℤ
  native : NativeFields
  timeSincePrevBlockSec : Option ℤ
  chainworkLog2 : Option ℚ
  weightUtilizationPct : Option ℚ
  blockSubsidySats : ℕ
  poolMatch : PoolMatch
  regularTxCount : ℕ
  totalVinCount : ℕ
  totalVoutCount : ℕ
  coinbaseValueSats : Option ℤ
  coinbaseVoutCount : Option ℕ
  totalFeesSats : ℤ
  feeKnownTxCount : ℕ
  feeUnknownTxCount : ℤ
  feeAvgSats : Option ℚ
  feeMedianSats : Option ℚ
  feeMaxSats : Option ℤ
  feeRateAvgSatVb : Option ℚ
  feeRateMedianSatVb : Option ℚ
  feeRateMaxSatVb : Option ℚ
  effectiveFeeRateSatVb : Option ℚ
  regularInputValueSats : ℤ
  inputValueCompleteTxCount : ℕ
  regularOutputValueSats : ℤ
  coinDaysDestroyedBtc : ℚ
  txVsizeAvg : Option ℚ
  txVsizeMedian : Option ℚ
  txVsizeMax : Option ℕ
  segwitTxCount : ℕ
  rbfTxCount : ℕ
  taprootInputTxCount : ℕ
  taprootOutputTxCount : ℕ
  opReturnTxCount : ℕ
  opReturnOutputCount : ℕ
  opReturnScriptBytes : ℕ
  witnessInputCount : ℕ
  witnessItemCount : ℕ
  witnessDataBytes : ℕ
  scriptsigBytes : ℕ
  scriptpubkeyBytes : ℕ
  vinTypeTotals : ScriptTypeCounts
  voutTypeTotals : ScriptTypeCounts

/-- `BlockAggregate`. -/
structure BlockAggregate where
  blockEvent : BlockEvent
  txEvents : List TxEvent
  inputEvents : List InputEvent
  outputEvents : List OutputEvent

/-- What makes `aggregate_block` raise. -/
inductive Rejected
  | keyError (key : String)
  | chainwork (value : String)

/-- `block[key]`. -/
def require {α : Type} (key : String) (value : Option α) : Except Rejected α :=
  match value with
  | none => .error (.keyError key)
  | some a => .ok a

/-- `chainwork_log2`: an empty string counts as missing. -/
def chainworkLog2 (env : Env) (chainwork : Option String) : Except Rejected (Option ℚ) :=
  match chainwork with
  | none => .ok none
  | some s =>
      if s = "" then .ok none
      else match env.log2OfHex s with
        | none => .error (.chainwork s)
        | some q => .ok (some q)

/-- The totals of one prefix over `tx_events`. -/
def scriptTypeTotals (counts : TxEvent → ScriptTypeCounts) (txEvents : List TxEvent) :
    ScriptTypeCounts :=
  txEvents.foldl (fun totals tx t => totals t + counts tx t) fun _ => 0

/-- `aggregate_block`. -/
def aggregateBlock (env : Env) (block : Block) : Except Rejected BlockAggregate := do
  let blockHash ← require "hash" block.hash
  let blockHeight ← require "height" block.height
  let blockTime ← require "time" block.time
  let c := block.tx.zipIdx.foldl (collectTx env.config blockHash blockHeight blockTime)
    ⟨[], [], [], none, []⟩
  let regularTxs := c.txEvents.filter fun tx => !tx.key.isCoinbase
  -- the first transaction, whatever it is
  let coinbaseTx := c.txEvents.head?
  let poolMatch := matchMiningPool env c.coinbaseScriptSigHex c.coinbaseOutputAddresses
  let a := c.txEvents.foldl countTx .init
  let r := regularTxs.foldl countRegular .init
  let totalFeesSats := r.knownFees.sum
  let log2 ← chainworkLog2 env block.native.chainwork
  let blockEvent : BlockEvent :=
    { hash := blockHash
      height := blockHeight
      time := blockTime
      native := block.native
      -- set by the caller, who knows the block before
      timeSincePrevBlockSec := none
      chainworkLog2 := log2
      weightUtilizationPct := block.native.weight.map fun w =>
        (w : ℚ) / env.config.maxBlockWeight * 100
      blockSubsidySats := blockSubsidySats blockHeight env.config
      poolMatch := poolMatch
      regularTxCount := regularTxs.length
      totalVinCount := a.totalVinCount
      totalVoutCount := a.totalVoutCount
      coinbaseValueSats := coinbaseTx.map (·.outputValueSats)
      coinbaseVoutCount := coinbaseTx.map (·.voutCount)
      totalFeesSats := totalFeesSats
      feeKnownTxCount := r.knownFees.length
      feeUnknownTxCount := (regularTxs.length : ℤ) - r.knownFees.length
      feeAvgSats := averageOrNone (r.knownFees.map (↑))
      feeMedianSats := medianOrNone (r.knownFees.map (↑))
      feeMaxSats := r.knownFees.max?
      feeRateAvgSatVb := averageOrNone r.knownFeeRates
      feeRateMedianSatVb := medianOrNone r.knownFeeRates
      feeRateMaxSatVb := r.knownFeeRates.max?
      -- only if the fee of every regular transaction is known
      effectiveFeeRateSatVb := if r.knownFees ≠ [] ∧ r.knownFees.length = regularTxs.length
          ∧ 0 < r.totalRegularVsize
        then some ((totalFeesSats : ℚ) / r.totalRegularVsize) else none
      regularInputValueSats := r.regularInputValueSats
      inputValueCompleteTxCount := r.inputValueCompleteTxCount
      regularOutputValueSats := r.regularOutputValueSats
      coinDaysDestroyedBtc := a.coinDaysDestroyedBtc
      txVsizeAvg := averageOrNone (a.vsizeValues.map (↑))
      txVsizeMedian := medianOrNone (a.vsizeValues.map (↑))
      txVsizeMax := a.vsizeValues.max?
      segwitTxCount := a.segwitTxCount
      rbfTxCount := r.rbfTxCount
      taprootInputTxCount := r.taprootInputTxCount
      taprootOutputTxCount := a.taprootOutputTxCount
      opReturnTxCount := a.opReturnTxCount
      opReturnOutputCount := a.opReturnOutputCount
      opReturnScriptBytes := a.opReturnScriptBytes
      witnessInputCount := a.witnessInputCount
      witnessItemCount := a.witnessItemCount
      witnessDataBytes := a.witnessDataBytes
      scriptsigBytes := a.scriptsigBytes
      scriptpubkeyBytes := a.scriptpubkeyBytes
      vinTypeTotals := scriptTypeTotals (·.vinTypeCounts) c.txEvents
      voutTypeTotals := scriptTypeTotals (·.voutTypeCounts) c.txEvents }
  return ⟨blockEvent, c.txEvents, c.inputEvents, c.outputEvents⟩

end BlockParser

end BtcParser
