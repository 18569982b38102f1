import BtcParser.Library.Tally
import BtcParser.Rpc.BlockParser

/-!
The rows of one block agree with each other.

* `InputTotals.recompute`, `OutputTotals.recompute`, `BlockTotals.recompute`,
  `RegularTotals.recompute`: the counters of the four loops as functions of the rows. One step of
  each loop keeps its counters equal to them.
* `TxEvent.Agrees`, `BlockEvent.Agrees`: a row is the one recomputed from the rows below it.
* `rows_agree`: so it is for every payload that `aggregate_block` accepts.
-/

namespace BtcParser.BlockParser

/-! ### The loop over the inputs -/

/-- The age and the value of an input, where both are known. -/
def InputEvent.ageValue (r : InputEvent) : Option (ℤ × ℤ) :=
  r.inputAgeBlocks.bind fun age => r.valueSats.map fun value => (age, value)

/-- The counters of the loop over the inputs, recomputed from the rows. -/
def InputTotals.recompute (rows : List InputEvent) : InputTotals where
  vinTypeCounts t := rows.countP (·.prevoutType = some t)
  inputValuesSats := rows.filterMap (·.valueSats)
  inputAgesBlocks := rows.filterMap (·.inputAgeBlocks)
  inputAgeValuePairs := rows.filterMap (·.ageValue)
  prevoutValueKnownCount := rows.countP (·.valueSats.isSome)
  prevoutHeightKnownCount := rows.countP (·.prevoutHeight.isSome)
  generatedInputCount := rows.countP (·.prevoutGenerated = some true)
  witnessInputCount := rows.countP (0 < ·.witnessItemCount)
  witnessItemCount := (rows.map (·.witnessItemCount)).sum
  witnessDataBytes := (rows.map (·.witnessDataBytes)).sum
  scriptsigBytes := (rows.map (·.scriptsigBytes)).sum
  signalsRbf := rows.any (·.signalsRbf)
  inputEvents := rows

lemma ScriptTypeCounts.bump_apply (counts : ScriptTypeCounts) (t u : ScriptType) :
    counts.bump t u = counts u + if t = u then 1 else 0 := by
  rw [bump, Function.update_apply]
  split_ifs with h h' h'
  · rw [h]
  · exact absurd h.symm h'
  · exact absurd h'.symm h
  · rfl

/-- What a known prevout adds to the counters. -/
lemma countPrevout_eq (blockHeight : ℤ) (p : Prevout) (a : InputTotals) :
    countPrevout blockHeight p a =
      let value := btcToSats p.value
      let age := p.height.map fun h => max 0 (blockHeight - h)
      { a with
        vinTypeCounts := a.vinTypeCounts.bump (normalizedScriptType p.scriptPubKey.type)
        inputValuesSats := a.inputValuesSats ++ value.toList
        inputAgesBlocks := a.inputAgesBlocks ++ age.toList
        inputAgeValuePairs := a.inputAgeValuePairs
          ++ (age.bind fun x => value.map fun v => (x, v)).toList
        prevoutValueKnownCount := a.prevoutValueKnownCount + if value.isSome then 1 else 0
        prevoutHeightKnownCount := a.prevoutHeightKnownCount + if p.height.isSome then 1 else 0
        generatedInputCount :=
          a.generatedInputCount + if p.generated = some true then 1 else 0 } := by
  rw [countPrevout]
  by_cases hg : p.generated = some true <;> cases hh : p.height <;>
    cases hv : btcToSats p.value <;> simp [hg]

/-- What an input adds to the counters, read off its row. -/
lemma countInput_eq (key : TxKey) (version : Option ℤ) (a : InputTotals) (p : Vin × ℕ) :
    countInput key version a p =
      let row := inputEvent key version p.1 p.2
      { vinTypeCounts := fun t => a.vinTypeCounts t + if row.prevoutType = some t then 1 else 0
        inputValuesSats := a.inputValuesSats ++ row.valueSats.toList
        inputAgesBlocks := a.inputAgesBlocks ++ row.inputAgeBlocks.toList
        inputAgeValuePairs := a.inputAgeValuePairs ++ row.ageValue.toList
        prevoutValueKnownCount :=
          a.prevoutValueKnownCount + if row.valueSats.isSome then 1 else 0
        prevoutHeightKnownCount :=
          a.prevoutHeightKnownCount + if row.prevoutHeight.isSome then 1 else 0
        generatedInputCount :=
          a.generatedInputCount + if row.prevoutGenerated = some true then 1 else 0
        witnessInputCount := a.witnessInputCount + if 0 < row.witnessItemCount then 1 else 0
        witnessItemCount := a.witnessItemCount + row.witnessItemCount
        witnessDataBytes := a.witnessDataBytes + row.witnessDataBytes
        scriptsigBytes := a.scriptsigBytes + row.scriptsigBytes
        signalsRbf := a.signalsRbf || row.signalsRbf
        inputEvents := a.inputEvents ++ [row] } := by
  obtain ⟨⟨txid, vout, coinbase, witness, scriptSig, sequence, prevout⟩, n⟩ := p
  by_cases hs : (decodeSequence sequence version key.isCoinbase).1 = true <;>
    cases witness <;> cases prevout <;>
    simp [countInput, countPrevout_eq, inputEvent, InputEvent.ageValue, hs, funext_iff,
      ScriptTypeCounts.bump_apply]

/-- One more input. -/
lemma countInput_recompute (key : TxKey) (version : Option ℤ) (rows : List InputEvent)
    (p : Vin × ℕ) :
    countInput key version (.recompute rows) p
      = .recompute (rows ++ [inputEvent key version p.1 p.2]) := by
  rw [countInput_eq]
  simp only [InputTotals.recompute, List.countP_append, List.filterMap_append, List.map_append,
    List.sum_append, List.any_append, filterMap_singleton_toList]
  simp

/-- The counters after the loop over the inputs are those of its rows. -/
lemma foldl_countInput (key : TxKey) (version : Option ℤ) (vins : List Vin) :
    vins.zipIdx.foldl (countInput key version) .init
      = .recompute (vins.zipIdx.map fun p => inputEvent key version p.1 p.2) :=
  foldl_of_snoc (countInput_recompute key version) vins.zipIdx []

/-! ### The loop over the outputs -/

/-- The payout address of an output, which only the coinbase transaction has. -/
def OutputEvent.payoutAddress (r : OutputEvent) : Option String :=
  if r.key.isCoinbase = true ∧ r.address ≠ some "" then r.address else none

/-- The counters of the loop over the outputs, recomputed from the rows. -/
def OutputTotals.recompute (rows : List OutputEvent) : OutputTotals where
  voutTypeCounts t := rows.countP (·.scriptType = t)
  outputValuesSats := rows.filterMap (·.valueSats)
  scriptpubkeyBytes := (rows.map (·.scriptBytes)).sum
  opReturnCount := rows.countP (·.isOpReturn)
  opReturnScriptBytes := ((rows.filter (·.isOpReturn)).map (·.scriptBytes)).sum
  zeroValueOutputCount := rows.countP (·.valueSats = some 0)
  coinbaseOutputAddresses := rows.filterMap (·.payoutAddress)
  outputEvents := rows

/-- What an output adds to the counters, read off its row. -/
lemma countOutput_eq (key : TxKey) (a : OutputTotals) (p : Vout × ℕ) :
    countOutput key a p =
      let row := outputEvent key p.1 p.2
      { voutTypeCounts := fun t => a.voutTypeCounts t + if row.scriptType = t then 1 else 0
        outputValuesSats := a.outputValuesSats ++ row.valueSats.toList
        scriptpubkeyBytes := a.scriptpubkeyBytes + row.scriptBytes
        opReturnCount := a.opReturnCount + if row.isOpReturn then 1 else 0
        opReturnScriptBytes := a.opReturnScriptBytes + if row.isOpReturn then row.scriptBytes else 0
        zeroValueOutputCount := a.zeroValueOutputCount + if row.valueSats = some 0 then 1 else 0
        coinbaseOutputAddresses := a.coinbaseOutputAddresses ++ row.payoutAddress.toList
        outputEvents := a.outputEvents ++ [row] } := by
  obtain ⟨⟨value, hex, type, address⟩, n⟩ := p
  have hvalue : btcToSats value = none ∨ btcToSats value = some 0
      ∨ ∃ v, btcToSats value = some v ∧ v ≠ 0 := by
    rcases btcToSats value with _ | v
    · exact .inl rfl
    · by_cases hv : v = 0
      · exact .inr (.inl (by rw [hv]))
      · exact .inr (.inr ⟨v, rfl, hv⟩)
  have haddress : address = none ∨ address = some "" ∨ ∃ s, address = some s ∧ s ≠ "" := by
    rcases address with _ | s
    · exact .inl rfl
    · by_cases hs : s = ""
      · exact .inr (.inl (by rw [hs]))
      · exact .inr (.inr ⟨s, rfl, hs⟩)
  by_cases hop : normalizedScriptType type = .nulldata <;> by_cases hc : key.isCoinbase = true <;>
    obtain hv | hv | ⟨v, hv, hv0⟩ := hvalue <;> obtain rfl | rfl | ⟨s, rfl, hs⟩ := haddress <;>
    simp_all [countOutput, outputEvent, OutputEvent.payoutAddress, funext_iff,
      ScriptTypeCounts.bump_apply]

/-- One more output. -/
lemma countOutput_recompute (key : TxKey) (rows : List OutputEvent) (p : Vout × ℕ) :
    countOutput key (.recompute rows) p = .recompute (rows ++ [outputEvent key p.1 p.2]) := by
  rw [countOutput_eq]
  simp only [OutputTotals.recompute, List.countP_append, List.filterMap_append, List.map_append,
    List.filter_append, List.sum_append, filterMap_singleton_toList]
  cases h : (outputEvent key p.1 p.2).isOpReturn <;> simp [h]

/-- The counters after the loop over the outputs are those of its rows. -/
lemma foldl_countOutput (key : TxKey) (vouts : List Vout) :
    vouts.zipIdx.foldl (countOutput key) .init
      = .recompute (vouts.zipIdx.map fun p => outputEvent key p.1 p.2) :=
  foldl_of_snoc (countOutput_recompute key) vouts.zipIdx []

/-! ### Transactions -/

/-- The row of a transaction agrees with the rows of its inputs and outputs. -/
structure TxEvent.Agrees (config : Config) (e : TxEvent) (ins : List InputEvent)
    (outs : List OutputEvent) : Prop where
  inputKeys : ∀ r ∈ ins, r.key = e.key
  outputKeys : ∀ r ∈ outs, r.key = e.key
  vinCount : e.vinCount = ins.length
  voutCount : e.voutCount = outs.length
  witnessInputCount : e.witnessInputCount = ins.countP (0 < ·.witnessItemCount)
  witnessItemCount : e.witnessItemCount = (ins.map (·.witnessItemCount)).sum
  witnessDataBytes : e.witnessDataBytes = (ins.map (·.witnessDataBytes)).sum
  scriptsigBytes : e.scriptsigBytes = (ins.map (·.scriptsigBytes)).sum
  scriptpubkeyBytes : e.scriptpubkeyBytes = (outs.map (·.scriptBytes)).sum
  opReturnCount : e.opReturnCount = outs.countP (·.isOpReturn)
  opReturnScriptBytes :
    e.opReturnScriptBytes = ((outs.filter (·.isOpReturn)).map (·.scriptBytes)).sum
  outputValueSats : e.outputValueSats = (outs.filterMap (·.valueSats)).sum
  outputValueMinSats : e.outputValueMinSats = (outs.filterMap (·.valueSats)).min?
  outputValueMaxSats : e.outputValueMaxSats = (outs.filterMap (·.valueSats)).max?
  outputValueAvgSats :
    e.outputValueAvgSats = averageOrNone ((outs.filterMap (·.valueSats)).map (↑))
  inputValueSats : e.inputValueSats =
    if e.key.isCoinbase = true then none else some (ins.filterMap (·.valueSats)).sum
  prevoutValueKnownCount : e.prevoutValueKnownCount = ins.countP (·.valueSats.isSome)
  prevoutHeightKnownCount : e.prevoutHeightKnownCount = ins.countP (·.prevoutHeight.isSome)
  generatedInputCount : e.generatedInputCount = ins.countP (·.prevoutGenerated = some true)
  zeroValueOutputCount : e.zeroValueOutputCount = outs.countP (·.valueSats = some 0)
  inputAgeMinBlocks : e.inputAgeMinBlocks = (ins.filterMap (·.inputAgeBlocks)).min?
  inputAgeMaxBlocks : e.inputAgeMaxBlocks = (ins.filterMap (·.inputAgeBlocks)).max?
  inputAgeAvgBlocks :
    e.inputAgeAvgBlocks = averageOrNone ((ins.filterMap (·.inputAgeBlocks)).map (↑))
  inputAgeValueWeightedAvgBlocks :
    e.inputAgeValueWeightedAvgBlocks = inputAgeValueWeightedAvg (ins.filterMap (·.ageValue))
  coinDaysDestroyedBtc :
    e.coinDaysDestroyedBtc = BlockParser.coinDaysDestroyedBtc config (ins.filterMap (·.ageValue))
  signalsRbf : e.signalsRbf = true ↔ ∃ r ∈ ins, r.signalsRbf = true
  vinTypeCounts : ∀ t, e.vinTypeCounts t = ins.countP (·.prevoutType = some t)
  voutTypeCounts : ∀ t, e.voutTypeCounts t = outs.countP (·.scriptType = t)
  voutTypeCounts_sum : (scriptTypes.map e.voutTypeCounts).sum = e.voutCount

/-- Every output has one of the twelve script types. -/
lemma sum_countP_scriptType (outs : List OutputEvent) :
    (scriptTypes.map fun t => outs.countP (·.scriptType = t)).sum = outs.length := by
  induction outs with
  | nil => rfl
  | cons r outs ih =>
      have hone : (scriptTypes.map fun t => if r.scriptType = t then 1 else 0).sum = 1 := by
        cases r.scriptType <;> rfl
      simp only [List.countP_cons, decide_eq_true_eq, List.sum_map_add, ih, hone,
        List.length_cons]

variable (config : Config) (blockHash : String) (blockHeight blockTime : ℤ) (txIndex : ℕ) (tx : Tx)

/-- The rows of one transaction agree. -/
lemma aggregateTransaction_agrees :
    let t := aggregateTransaction config blockHash blockHeight blockTime txIndex tx
    t.event.Agrees config t.inputEvents t.outputEvents := by
  simp only [aggregateTransaction, foldl_countInput, foldl_countOutput]
  constructor
  case inputKeys =>
    intro r hr
    obtain ⟨p, -, rfl⟩ := List.mem_map.mp hr
    rfl
  case outputKeys =>
    intro r hr
    obtain ⟨p, -, rfl⟩ := List.mem_map.mp hr
    rfl
  case vinCount => simp [InputTotals.recompute]
  case voutCount => simp [OutputTotals.recompute]
  case signalsRbf => simp only [InputTotals.recompute, List.any_eq_true]
  case voutTypeCounts_sum =>
    refine (sum_countP_scriptType _).trans ?_
    simp
  all_goals first | rfl | exact fun _ => rfl

/-- Every input of the transaction has a known value. -/
def TxEvent.Complete (e : TxEvent) : Prop := e.prevoutValueKnownCount = e.vinCount

instance (e : TxEvent) : Decidable e.Complete := inferInstanceAs (Decidable (_ = _))

/-- What the rest of the block needs of a row: a derived fee is that of complete inputs, and a
coinbase transaction does not signal. -/
structure TxEvent.Sound (e : TxEvent) : Prop where
  derived : e.key.isCoinbase = false → e.feeSource = .derived →
    e.Complete ∧ e.feeSats = some (e.inputValueSats.getD 0 - e.outputValueSats)
  quiet : e.key.isCoinbase = true → e.signalsRbf = false

lemma decodeSequence_coinbase (sequence : Option ℕ) (version : Option ℤ) :
    (decodeSequence sequence version true).1 = false := by
  cases sequence <;> simp [decodeSequence]

lemma feeOf_derived {tx : Tx} {i : InputTotals} {o : OutputTotals}
    (h : (feeOf tx i o).2 = .derived) : tx.isCoinbase = false
      ∧ i.prevoutValueKnownCount = tx.vin.length
      ∧ (feeOf tx i o).1 = some (i.inputValuesSats.sum - o.outputValuesSats.sum) := by
  rw [feeOf] at h ⊢
  cases hc : tx.isCoinbase with
  | true => simp [hc] at h
  | false =>
      cases hfee : tx.fee with
      | some fee => simp [hc, hfee] at h
      | none =>
          by_cases hknown : i.prevoutValueKnownCount = tx.vin.length
          · simp [hknown]
          · simp [hc, hfee, hknown] at h

lemma aggregateTransaction_sound :
    (aggregateTransaction config blockHash blockHeight blockTime txIndex tx).event.Sound := by
  constructor
  · intro hc hd
    obtain ⟨-, hcomplete, hfee⟩ := feeOf_derived hd
    refine ⟨hcomplete, hfee.trans ?_⟩
    have hcoin : tx.isCoinbase = false := hc
    simp [aggregateTransaction, hcoin]
  · intro hc
    have hcoin : tx.isCoinbase = true := hc
    simp only [aggregateTransaction, foldl_countInput, InputTotals.recompute]
    rw [List.any_eq_false]
    intro r hr
    obtain ⟨p, -, rfl⟩ := List.mem_map.mp hr
    simp [inputEvent, hcoin, decodeSequence_coinbase]

/-! ### The loops over the transactions -/

/-- The counters of the loop over `tx_events`, recomputed from the rows. -/
def BlockTotals.recompute (txs : List TxEvent) : BlockTotals where
  totalVinCount := (txs.map (·.vinCount)).sum
  totalVoutCount := (txs.map (·.voutCount)).sum
  coinDaysDestroyedBtc := (txs.map (·.coinDaysDestroyedBtc)).sum
  vsizeValues := txs.map (·.vsize.getD 0)
  segwitTxCount := txs.countP (0 < ·.witnessInputCount)
  taprootOutputTxCount := txs.countP (0 < ·.voutTypeCounts .witnessV1Taproot)
  opReturnTxCount := txs.countP (0 < ·.opReturnCount)
  opReturnOutputCount := (txs.map (·.opReturnCount)).sum
  opReturnScriptBytes := (txs.map (·.opReturnScriptBytes)).sum
  witnessInputCount := (txs.map (·.witnessInputCount)).sum
  witnessItemCount := (txs.map (·.witnessItemCount)).sum
  witnessDataBytes := (txs.map (·.witnessDataBytes)).sum
  scriptsigBytes := (txs.map (·.scriptsigBytes)).sum
  scriptpubkeyBytes := (txs.map (·.scriptpubkeyBytes)).sum

lemma countTx_recompute (txs : List TxEvent) (tx : TxEvent) :
    countTx (.recompute txs) tx = .recompute (txs ++ [tx]) := by
  by_cases hw : 0 < tx.witnessInputCount <;>
    by_cases ht : 0 < tx.voutTypeCounts .witnessV1Taproot <;>
    by_cases ho : 0 < tx.opReturnCount <;>
    simp [countTx, BlockTotals.recompute, hw, ht, ho]

lemma foldl_countTx (txs : List TxEvent) : txs.foldl countTx .init = .recompute txs :=
  foldl_of_snoc_self BlockTotals.recompute countTx_recompute txs

/-- The counters of the loop over `regular_txs`, recomputed from the rows. -/
def RegularTotals.recompute (regular : List TxEvent) : RegularTotals where
  knownFees := regular.filterMap (·.feeSats)
  knownFeeRates := regular.filterMap (·.feeRateSatVb)
  totalRegularVsize := (regular.map (·.vsize.getD 0)).sum
  rbfTxCount := regular.countP (·.signalsRbf)
  taprootInputTxCount := regular.countP (0 < ·.vinTypeCounts .witnessV1Taproot)
  inputValueCompleteTxCount := regular.countP (·.Complete)
  regularInputValueSats := ((regular.filter (·.Complete)).map (·.inputValueSats.getD 0)).sum
  regularOutputValueSats := (regular.map (·.outputValueSats)).sum

lemma countRegular_recompute (regular : List TxEvent) (tx : TxEvent) :
    countRegular (.recompute regular) tx = .recompute (regular ++ [tx]) := by
  by_cases hc : tx.prevoutValueKnownCount = tx.vinCount <;>
    by_cases hs : tx.signalsRbf = true <;>
    by_cases ht : 0 < tx.vinTypeCounts .witnessV1Taproot <;>
    cases hf : tx.feeSats <;> cases hr : tx.feeRateSatVb <;>
    simp [countRegular, RegularTotals.recompute, TxEvent.Complete, hc, hs, ht, hf, hr]

lemma foldl_countRegular (regular : List TxEvent) :
    regular.foldl countRegular .init = .recompute regular :=
  foldl_of_snoc_self RegularTotals.recompute countRegular_recompute regular

lemma scriptTypeTotals_apply (counts : TxEvent → ScriptTypeCounts) (txs : List TxEvent)
    (t : ScriptType) : scriptTypeTotals counts txs t = (txs.map (counts · t)).sum := by
  have hsnoc : ∀ (rows : List TxEvent) (tx : TxEvent),
      (fun t => (rows.map (counts · t)).sum + counts tx t)
        = fun t => ((rows ++ [tx]).map (counts · t)).sum := by
    intro rows tx
    funext t
    rw [List.map_append, List.sum_append, List.map_singleton, List.sum_singleton]
  exact congrFun (foldl_of_snoc_self (fun rows t => (rows.map (counts · t)).sum) hsnoc txs) t

/-- What the loop over the transactions collects. -/
lemma foldl_collectTx (config : Config) (blockHash : String) (blockHeight blockTime : ℤ)
    (l : List (Tx × ℕ)) (c : Collected) :
    let f := fun p : Tx × ℕ =>
      aggregateTransaction config blockHash blockHeight blockTime p.2 p.1
    let c' := l.foldl (collectTx config blockHash blockHeight blockTime) c
    c'.txEvents = c.txEvents ++ l.map (fun p => (f p).event)
      ∧ c'.inputEvents = c.inputEvents ++ l.flatMap (fun p => (f p).inputEvents)
      ∧ c'.outputEvents = c.outputEvents ++ l.flatMap (fun p => (f p).outputEvents) := by
  induction l generalizing c with
  | nil => simp
  | cons p l ih =>
      obtain ⟨ht, hi, ho⟩ := ih (collectTx config blockHash blockHeight blockTime c p)
      rw [List.foldl_cons]
      refine ⟨ht.trans ?_, hi.trans ?_, ho.trans ?_⟩ <;>
        (rw [collectTx]; simp only; split_ifs <;> simp)

/-! ### Blocks -/

/-- The transactions that are no coinbase. -/
def regularTxs (txs : List TxEvent) : List TxEvent := txs.filter fun tx => !tx.key.isCoinbase

/-- The row of a block agrees with the rows of its transactions. -/
structure BlockEvent.Agrees (b : BlockEvent) (txs : List TxEvent) : Prop where
  regularTxCount : b.regularTxCount = (regularTxs txs).length
  totalVinCount : b.totalVinCount = (txs.map (·.vinCount)).sum
  totalVoutCount : b.totalVoutCount = (txs.map (·.voutCount)).sum
  coinbaseValueSats : b.coinbaseValueSats = txs.head?.map (·.outputValueSats)
  coinbaseVoutCount : b.coinbaseVoutCount = txs.head?.map (·.voutCount)
  totalFeesSats : b.totalFeesSats = ((regularTxs txs).filterMap (·.feeSats)).sum
  feeKnownTxCount : b.feeKnownTxCount = (regularTxs txs).countP (·.feeSats.isSome)
  feeUnknownTxCount : b.feeUnknownTxCount = (regularTxs txs).countP (·.feeSats.isNone)
  feeAvgSats : b.feeAvgSats = averageOrNone (((regularTxs txs).filterMap (·.feeSats)).map (↑))
  feeMedianSats :
    b.feeMedianSats = medianOrNone (((regularTxs txs).filterMap (·.feeSats)).map (↑))
  feeMaxSats : b.feeMaxSats = ((regularTxs txs).filterMap (·.feeSats)).max?
  feeRateAvgSatVb : b.feeRateAvgSatVb = averageOrNone ((regularTxs txs).filterMap (·.feeRateSatVb))
  feeRateMedianSatVb :
    b.feeRateMedianSatVb = medianOrNone ((regularTxs txs).filterMap (·.feeRateSatVb))
  feeRateMaxSatVb : b.feeRateMaxSatVb = ((regularTxs txs).filterMap (·.feeRateSatVb)).max?
  effectiveFeeRateSatVb : b.effectiveFeeRateSatVb =
    if regularTxs txs ≠ [] ∧ (∀ e ∈ regularTxs txs, e.feeSats.isSome = true)
      ∧ 0 < ((regularTxs txs).map (·.vsize.getD 0)).sum
    then some ((((regularTxs txs).filterMap (·.feeSats)).sum : ℤ)
      / (((regularTxs txs).map (·.vsize.getD 0)).sum : ℕ) : ℚ) else none
  regularInputValueSats : b.regularInputValueSats =
    (((regularTxs txs).filter (·.Complete)).map (·.inputValueSats.getD 0)).sum
  inputValueCompleteTxCount : b.inputValueCompleteTxCount = (regularTxs txs).countP (·.Complete)
  regularOutputValueSats :
    b.regularOutputValueSats = ((regularTxs txs).map (·.outputValueSats)).sum
  coinDaysDestroyedBtc : b.coinDaysDestroyedBtc = (txs.map (·.coinDaysDestroyedBtc)).sum
  txVsizeAvg : b.txVsizeAvg = averageOrNone ((txs.map (·.vsize.getD 0)).map (↑))
  txVsizeMedian : b.txVsizeMedian = medianOrNone ((txs.map (·.vsize.getD 0)).map (↑))
  txVsizeMax : b.txVsizeMax = (txs.map (·.vsize.getD 0)).max?
  segwitTxCount : b.segwitTxCount = txs.countP (0 < ·.witnessInputCount)
  rbfTxCount : b.rbfTxCount = txs.countP (·.signalsRbf)
  taprootInputTxCount :
    b.taprootInputTxCount = (regularTxs txs).countP (0 < ·.vinTypeCounts .witnessV1Taproot)
  taprootOutputTxCount :
    b.taprootOutputTxCount = txs.countP (0 < ·.voutTypeCounts .witnessV1Taproot)
  opReturnTxCount : b.opReturnTxCount = txs.countP (0 < ·.opReturnCount)
  opReturnOutputCount : b.opReturnOutputCount = (txs.map (·.opReturnCount)).sum
  opReturnScriptBytes : b.opReturnScriptBytes = (txs.map (·.opReturnScriptBytes)).sum
  witnessInputCount : b.witnessInputCount = (txs.map (·.witnessInputCount)).sum
  witnessItemCount : b.witnessItemCount = (txs.map (·.witnessItemCount)).sum
  witnessDataBytes : b.witnessDataBytes = (txs.map (·.witnessDataBytes)).sum
  scriptsigBytes : b.scriptsigBytes = (txs.map (·.scriptsigBytes)).sum
  scriptpubkeyBytes : b.scriptpubkeyBytes = (txs.map (·.scriptpubkeyBytes)).sum
  vinTypeTotals : ∀ t, b.vinTypeTotals t = (txs.map (·.vinTypeCounts t)).sum
  voutTypeTotals : ∀ t, b.voutTypeTotals t = (txs.map (·.voutTypeCounts t)).sum
  voutTypeTotals_sum : (scriptTypes.map b.voutTypeTotals).sum = b.totalVoutCount

/-- A coinbase transaction does not signal, so that the regular ones are all that do. -/
lemma countP_regularTxs {txs : List TxEvent} (h : ∀ e ∈ txs, e.Sound) :
    (regularTxs txs).countP (·.signalsRbf) = txs.countP (·.signalsRbf) := by
  rw [regularTxs, List.countP_filter]
  refine List.countP_congr fun e he => ?_
  cases hc : e.key.isCoinbase with
  | false => simp
  | true => simp [(h e he).quiet hc]

/-- Every transaction has as many outputs as its script types count. -/
lemma sum_scriptTypeTotals {txs : List TxEvent}
    (h : ∀ e ∈ txs, (scriptTypes.map e.voutTypeCounts).sum = e.voutCount) :
    (scriptTypes.map (scriptTypeTotals (·.voutTypeCounts) txs)).sum
      = (txs.map (·.voutCount)).sum := by
  simp only [funext (scriptTypeTotals_apply (·.voutTypeCounts) txs)]
  induction txs with
  | nil => rfl
  | cons e txs ih =>
      simp only [List.map_cons, List.sum_cons, List.sum_map_add]
      rw [ih fun e' he' => h e' (List.mem_cons_of_mem _ he')]
      exact congrArg (· + _) (h e List.mem_cons_self)

lemma length_filterMap_eq_countP (f : TxEvent → Option ℤ) (txs : List TxEvent) :
    (txs.filterMap f).length = txs.countP fun e => (f e).isSome := by
  induction txs with
  | nil => rfl
  | cons e txs ih => cases h : f e <;> simp [h, ih]

lemma length_sub_filterMap_eq_countP (f : TxEvent → Option ℤ) (txs : List TxEvent) :
    (txs.length : ℤ) - (txs.filterMap f).length = txs.countP fun e => (f e).isNone := by
  induction txs with
  | nil => rfl
  | cons e txs ih =>
      cases h : f e <;> simp [h] <;> omega

lemma bind_eq_ok {α β : Type} {x : Except Rejected α} {f : α → Except Rejected β} {b : β}
    (h : x >>= f = .ok b) : ∃ a, x = .ok a ∧ f a = .ok b := by
  cases x with
  | error e => cases h
  | ok a => exact ⟨a, rfl, h⟩

/-- The fees are all known exactly when there are as many of them as transactions. -/
lemma knownFees_complete (txs : List TxEvent) :
    (txs.filterMap (·.feeSats) ≠ [] ∧ (txs.filterMap (·.feeSats)).length = txs.length)
      ↔ txs ≠ [] ∧ ∀ e ∈ txs, e.feeSats.isSome = true := by
  have hall : (txs.filterMap (·.feeSats)).length = txs.length
      ↔ ∀ e ∈ txs, e.feeSats.isSome = true := by
    rw [length_filterMap_eq_countP, List.countP_eq_length]
  rw [hall]
  refine and_congr_left fun h => not_congr ?_
  rw [← List.length_eq_zero_iff, ← List.length_eq_zero_iff, hall.mpr h]

/-- The rows of the transactions that an accepted payload gives: they carry the hash of its block,
and the row of the block is recomputed from them. -/
lemma aggregateBlock_ok {env : Env} {block : Block} {a : BlockAggregate}
    (h : aggregateBlock env block = .ok a) :
    block.hash = some a.blockEvent.hash ∧ ∃ blockHeight blockTime,
      let f := fun p : Tx × ℕ =>
        aggregateTransaction env.config a.blockEvent.hash blockHeight blockTime p.2 p.1
      a.txEvents = block.tx.zipIdx.map (fun p => (f p).event)
        ∧ a.inputEvents = block.tx.zipIdx.flatMap (fun p => (f p).inputEvents)
        ∧ a.outputEvents = block.tx.zipIdx.flatMap (fun p => (f p).outputEvents)
        ∧ ((∀ e ∈ a.txEvents, e.Sound ∧ (scriptTypes.map e.voutTypeCounts).sum = e.voutCount)
          → a.blockEvent.Agrees a.txEvents) := by
  rw [aggregateBlock] at h
  obtain ⟨blockHash, hhash, h⟩ := bind_eq_ok h
  obtain ⟨blockHeight, -, h⟩ := bind_eq_ok h
  obtain ⟨blockTime, -, h⟩ := bind_eq_ok h
  obtain ⟨log2, -, h⟩ := bind_eq_ok h
  cases h
  obtain ⟨htxs, hins, houts⟩ := foldl_collectTx env.config blockHash blockHeight blockTime
    block.tx.zipIdx ⟨[], [], [], none, []⟩
  refine ⟨?_, blockHeight, blockTime, htxs, hins, houts, fun hsound => ?_⟩
  · cases hb : block.hash with
    | none =>
        rw [hb] at hhash
        cases hhash
    | some x =>
        rw [hb] at hhash
        cases hhash
        rfl
  -- a coinbase does not signal, so those that do are regular
  · have hquiet := countP_regularTxs fun e he => (hsound e he).1
    have htypes := sum_scriptTypeTotals fun e he => (hsound e he).2
    simp only [foldl_countTx, foldl_countRegular] at hquiet htypes ⊢
    constructor
    case feeKnownTxCount => exact length_filterMap_eq_countP _ _
    case feeUnknownTxCount => exact length_sub_filterMap_eq_countP _ _
    case effectiveFeeRateSatVb =>
      refine if_congr ?_ rfl rfl
      rw [← and_assoc, ← and_assoc]
      exact and_congr_left fun _ => knownFees_complete _
    case rbfTxCount => exact hquiet
    case vinTypeTotals => exact scriptTypeTotals_apply _ _
    case voutTypeTotals => exact scriptTypeTotals_apply _ _
    case voutTypeTotals_sum => exact htypes
    all_goals rfl

/-- The rows of an accepted payload agree with each other. -/
lemma aggregateBlock_agrees {env : Env} {block : Block} {a : BlockAggregate}
    (h : aggregateBlock env block = .ok a) :
    a.blockEvent.Agrees a.txEvents ∧ (∀ e ∈ a.txEvents, e.Sound)
      ∧ (∀ (i : ℕ) (e : TxEvent), a.txEvents[i]? = some e →
          e.key.blockHash = a.blockEvent.hash ∧ e.key.txIndex = i
          ∧ e.Agrees env.config (a.inputEvents.filter (·.key.txIndex = i))
              (a.outputEvents.filter (·.key.txIndex = i)))
      ∧ (∀ r ∈ a.inputEvents, ∃ e ∈ a.txEvents, e.key = r.key)
      ∧ ∀ r ∈ a.outputEvents, ∃ e ∈ a.txEvents, e.key = r.key := by
  obtain ⟨-, blockHeight, blockTime, htxs, hins, houts, hblock⟩ := aggregateBlock_ok h
  have hrows := fun j tx =>
    aggregateTransaction_agrees env.config a.blockEvent.hash blockHeight blockTime j tx
  have hsound : ∀ e ∈ a.txEvents, e.Sound
      ∧ (scriptTypes.map e.voutTypeCounts).sum = e.voutCount := by
    rw [htxs]
    intro e he
    obtain ⟨p, -, rfl⟩ := List.mem_map.mp he
    exact ⟨aggregateTransaction_sound .., (hrows p.2 p.1).voutTypeCounts_sum⟩
  refine ⟨hblock hsound, fun e he => (hsound e he).1, fun i e he => ?_, fun r hr => ?_,
    fun r hr => ?_⟩
  · -- the rows of the transaction are found again by its index
    rw [htxs, List.getElem?_map, List.getElem?_zipIdx, Nat.zero_add, Option.map_map,
      Option.map_eq_some_iff] at he
    obtain ⟨tx, htx, rfl⟩ := he
    have hin := filter_flatMap_zipIdx (R := InputEvent) (P := Tx)
      (f := fun p => (aggregateTransaction env.config a.blockEvent.hash blockHeight blockTime
        p.2 p.1).inputEvents)
      (fun p r hr => congrArg TxKey.txIndex ((hrows p.2 p.1).inputKeys r hr)) block.tx 0 i tx htx
    have hout := filter_flatMap_zipIdx (R := OutputEvent) (P := Tx)
      (f := fun p => (aggregateTransaction env.config a.blockEvent.hash blockHeight blockTime
        p.2 p.1).outputEvents)
      (fun p r hr => congrArg TxKey.txIndex ((hrows p.2 p.1).outputKeys r hr)) block.tx 0 i tx htx
    rw [Nat.zero_add] at hin hout
    rw [hins, houts, hin, hout]
    exact ⟨rfl, rfl, hrows i tx⟩
  · rw [hins] at hr
    obtain ⟨p, hp, hr⟩ := List.mem_flatMap.mp hr
    exact ⟨_, htxs ▸ List.mem_map_of_mem hp, ((hrows p.2 p.1).inputKeys r hr).symm⟩
  · rw [houts] at hr
    obtain ⟨p, hp, hr⟩ := List.mem_flatMap.mp hr
    exact ⟨_, htxs ▸ List.mem_map_of_mem hp, ((hrows p.2 p.1).outputKeys r hr).symm⟩

/-- Where every fee is derived, the fees are the inputs less the outputs. -/
lemma totalFees_of_derived {txs : List TxEvent} (hsound : ∀ e ∈ txs, e.Sound)
    (hc : ∀ e ∈ txs, e.key.isCoinbase = false) (hd : ∀ e ∈ txs, e.feeSource = .derived) :
    (txs.filterMap (·.feeSats)).sum
      = ((txs.filter (·.Complete)).map (·.inputValueSats.getD 0)).sum
        - (txs.map (·.outputValueSats)).sum := by
  induction txs with
  | nil => rfl
  | cons e txs ih =>
      have hmem : e ∈ e :: txs := List.mem_cons_self
      obtain ⟨hcomplete, hfee⟩ := (hsound e hmem).derived (hc e hmem) (hd e hmem)
      have hrest := ih (fun f hf => hsound f (List.mem_cons_of_mem _ hf))
        (fun f hf => hc f (List.mem_cons_of_mem _ hf))
        fun f hf => hd f (List.mem_cons_of_mem _ hf)
      rw [List.filterMap_cons_some hfee, List.filter_cons_of_pos (by simp [hcomplete])]
      simp only [List.map_cons, List.sum_cons, hrest]
      ring

/-- **The rows of one block agree.** The row of the block is the one recomputed from the rows of
its transactions, and the row of each transaction is the one recomputed from the rows of its
inputs and outputs. -/
theorem rows_agree (env : Env) (block : Block) (a : BlockAggregate)
    (h : aggregateBlock env block = .ok a) :
    a.blockEvent.Agrees a.txEvents
      ∧ (∀ (i : ℕ) (e : TxEvent), a.txEvents[i]? = some e → e.key.txIndex = i
          ∧ e.Agrees env.config (a.inputEvents.filter (·.key.txIndex = i))
              (a.outputEvents.filter (·.key.txIndex = i)))
      ∧ a.blockEvent.feeKnownTxCount + a.blockEvent.feeUnknownTxCount
          = a.blockEvent.regularTxCount
      ∧ ((∀ e ∈ a.txEvents, e.key.isCoinbase = false → e.feeSource = .derived) →
          a.blockEvent.totalFeesSats
            = a.blockEvent.regularInputValueSats - a.blockEvent.regularOutputValueSats) := by
  obtain ⟨hagrees, hsound, hrows, -⟩ := aggregateBlock_agrees h
  refine ⟨hagrees, fun i e he => (hrows i e he).2, ?_, fun hderived => ?_⟩
  · have hknown := length_filterMap_eq_countP (·.feeSats) (regularTxs a.txEvents)
    have hunknown := length_sub_filterMap_eq_countP (·.feeSats) (regularTxs a.txEvents)
    rw [hagrees.feeKnownTxCount, hagrees.feeUnknownTxCount, hagrees.regularTxCount, ← hunknown,
      hknown]
    ring
  · rw [hagrees.totalFeesSats, hagrees.regularInputValueSats, hagrees.regularOutputValueSats]
    refine totalFees_of_derived (fun e he => hsound e (List.mem_of_mem_filter he))
      (fun e he => ?_) fun e he => ?_
    · simpa using List.of_mem_filter he
    · exact hderived e (List.mem_of_mem_filter he) (by simpa using List.of_mem_filter he)

/-- A block of a coinbase transaction and of one that spends a known output. -/
def twoTxBlock : Block where
  hash := some "00"
  height := some 10
  time := some 1700000000
  native := ⟨none, none, none, none, none, none, none, none, none, none, none, none, none, none⟩
  tx :=
    [{ txid := some "c0", hash := some "c1", version := some 2, size := none, vsize := none
       weight := none, locktime := none, fee := none
       vin := [⟨none, none, some "0a", [some "00"], none, none, none⟩]
       vout := [⟨some 50, ⟨some "51", some "witness_v1_taproot", some "bc1p"⟩⟩,
         ⟨some 0, ⟨some "6a00", some "nulldata", none⟩⟩] },
     { txid := some "a0", hash := some "a0", version := some 2, size := none, vsize := some 100
       weight := none, locktime := none, fee := none
       vin := [⟨some "90", some 0, none, [], some "00", some 0xFFFFFFFD,
         some ⟨some true, some 1, some 4, ⟨none, some "pubkeyhash", none⟩⟩⟩]
       vout := [⟨some (9 / 10), ⟨some "51", some "unheard_of", none⟩⟩] }]

/-- A parser without a pool matcher. -/
def plainEnv : Env where
  config := ⟨144, 4000000, 210000, 5000000000, by decide, by decide, by decide⟩
  poolMatcher := none
  log2OfHex _ := none

theorem rows_agree_twoTxBlock : ∃ a, aggregateBlock plainEnv twoTxBlock = .ok a
    ∧ a.blockEvent.Agrees a.txEvents :=
  ⟨_, rfl, (rows_agree plainEnv twoTxBlock _ rfl).1⟩

end BtcParser.BlockParser
