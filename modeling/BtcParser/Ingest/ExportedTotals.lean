import BtcParser.Block.Totals
import BtcParser.Ingest.ExportedOnce
import BtcParser.Rpc.ParsedBlocks

/-!
The exported files add up.

* `BlockTree.Parsed.rows`: the rows of one block agree with each other and carry its hash.
* `Disk.blockEvents`, `Disk.txEvents`, `Disk.inputEvents`, `Disk.outputEvents`: what the four files
  hold, in whatever order.
* `Disk.Totalled`: the totals of a `blocks` row are those of the `transactions` rows with its hash,
  those of a `transactions` row are those of the `inputs` and `outputs` rows with its hash and
  index, and no row is without the one above it.
* `exported_totals` is the result: so it is whenever `index.flush()` has returned.
-/

namespace BtcParser

open BlockParser

/-! ### The rows of one block -/

namespace BlockTree

variable (T : BlockTree String ExportedRow)

/-- The `transactions` rows of a block. -/
def txEvents (h : String) : List TxEvent :=
  (T.block h).transactions.filterMap ExportedRow.transaction?

/-- The `inputs` rows of a block. -/
def inputEvents (h : String) : List InputEvent := (T.block h).inputs.filterMap ExportedRow.input?

/-- The `outputs` rows of a block. -/
def outputEvents (h : String) : List OutputEvent :=
  (T.block h).outputs.filterMap ExportedRow.output?

end BlockTree

/-- The rows of a parsed block agree with each other, and carry its hash. -/
lemma BlockTree.Parsed.rows {T : BlockTree String ExportedRow} {config : Config}
    (hT : T.Parsed config) (h : String) :
    ∃ b, (T.block h).blockEvent = .block b ∧ b.hash = h ∧ b.Agrees (T.txEvents h)
      ∧ (∀ (i : ℕ) (e : TxEvent), (T.txEvents h)[i]? = some e →
          e.key.blockHash = h ∧ e.key.txIndex = i
          ∧ e.Agrees config ((T.inputEvents h).filter (·.key.txIndex = i))
              ((T.outputEvents h).filter (·.key.txIndex = i)))
      ∧ (∀ r ∈ T.inputEvents h, ∃ e ∈ T.txEvents h, e.key = r.key)
      ∧ ∀ r ∈ T.outputEvents h, ∃ e ∈ T.txEvents h, e.key = r.key := by
  obtain ⟨env, payload, rfl, hp⟩ := hT h
  rw [buildParsedBlock] at hp
  obtain ⟨a, ha, hp⟩ := bind_eq_ok hp
  obtain ⟨height, -, hp⟩ := bind_eq_ok hp
  obtain ⟨blockHash, hhash, hp⟩ := bind_eq_ok hp
  have hb : T.block h = _ := (Except.ok.inj hp).symm
  have hkey : a.blockEvent.hash = h := by
    rw [(aggregateBlock_ok ha).1] at hhash
    cases hhash
    rw [← T.blockHash_block h, hb]
  have htxs : T.txEvents h = a.txEvents := by
    simp [txEvents, hb, Function.comp_def, ExportedRow.transaction?]
  have hins : T.inputEvents h = a.inputEvents := by
    simp [inputEvents, hb, Function.comp_def, ExportedRow.input?]
  have houts : T.outputEvents h = a.outputEvents := by
    simp [outputEvents, hb, Function.comp_def, ExportedRow.output?]
  obtain ⟨hagrees, -, hrows⟩ := aggregateBlock_agrees ha
  rw [htxs, hins, houts]
  exact ⟨a.blockEvent, by rw [hb], hkey, hagrees, hkey ▸ hrows⟩

/-! ### The files -/

/-- What a row holds of its `ParsedBlock`. -/
def Row.fields {H ρ : Type} : Row H ρ → ρ
  | .block e => e.fields
  | .detail r => r

lemma Row.fields_untimed {H ρ : Type} (r : Row H ρ) : r.untimed.fields = r.fields := by
  cases r <;> rfl

namespace Disk

variable (d : Disk String ExportedRow)

/-- The block events written so far. -/
def blockEvents : Multiset BlockParser.BlockEvent :=
  (d.parts .blocks).written.filterMap fun r => r.fields.block?

/-- The transaction events written so far. -/
def txEvents : Multiset TxEvent :=
  (d.parts .transactions).written.filterMap fun r => r.fields.transaction?

/-- The input events written so far. -/
def inputEvents : Multiset InputEvent :=
  (d.parts .inputs).written.filterMap fun r => r.fields.input?

/-- The output events written so far. -/
def outputEvents : Multiset OutputEvent :=
  (d.parts .outputs).written.filterMap fun r => r.fields.output?

/-- The four files add up: each row is recomputed from the rows below it, which are found by the
hash of their block and the index of their transaction, and none is without the row above it. -/
structure Totalled (config : Config) : Prop where
  nodup : (d.blockEvents.map (·.hash)).Nodup
  blocks : ∀ b ∈ d.blockEvents, ∃ txs : List TxEvent,
    d.txEvents.filter (·.key.blockHash = b.hash) = txs ∧ b.Agrees txs
      ∧ ∀ (i : ℕ) (e : TxEvent), txs[i]? = some e → e.key.txIndex = i
  transactions : ∀ e ∈ d.txEvents, (∃ b ∈ d.blockEvents, b.hash = e.key.blockHash)
    ∧ ∃ (ins : List InputEvent) (outs : List OutputEvent),
      (d.inputEvents.filter (·.key.blockHash = e.key.blockHash)).filter
          (·.key.txIndex = e.key.txIndex) = ins
        ∧ (d.outputEvents.filter (·.key.blockHash = e.key.blockHash)).filter
          (·.key.txIndex = e.key.txIndex) = outs
        ∧ e.Agrees config ins outs
  inputs : ∀ r ∈ d.inputEvents, ∃ e ∈ d.txEvents, e.key = r.key
  outputs : ∀ r ∈ d.outputEvents, ∃ e ∈ d.txEvents, e.key = r.key

end Disk

variable {T : BlockTree String ExportedRow} {d : Disk String ExportedRow} {hs : List String}

/-- The rows of the files that hold a ledger of blocks, row by row. -/
lemma filterMap_written {R : Type} (g : ExportedRow → Option R) {k : Kind}
    (h : d.written k = (hs.map (blockRows T k)).sum) :
    (d.parts k).written.filterMap (fun r => g r.fields)
      = (hs.map fun x => (blockRows T k x).filterMap fun r => g r.fields).sum := by
  rw [← filterMap_sum_map, ← h, Disk.written, Multiset.filterMap_map]
  congr 1
  funext r
  exact congrArg g r.fields_untimed.symm

/-- **The files that hold the rows of some parsed blocks, each once, add up.** -/
lemma totalled_of_ledger {config : Config} (hT : T.Parsed config) (hn : hs.Nodup)
    (h : ∀ k, d.written k = (hs.map (blockRows T k)).sum) : d.Totalled config := by
  have hblocks : d.blockEvents
      = (hs.map fun x => (((T.block x).blockEvent.block?).toList : Multiset _)).sum := by
    rw [Disk.blockEvents, filterMap_written _ (h .blocks)]
    congr 2
  have htxs : d.txEvents = (hs.map fun x => (T.txEvents x : Multiset _)).sum := by
    rw [Disk.txEvents, filterMap_written _ (h .transactions)]
    simp [blockRows, Ingest.rowsOf, BlockTree.txEvents, Row.fields]
  have hins : d.inputEvents = (hs.map fun x => (T.inputEvents x : Multiset _)).sum := by
    rw [Disk.inputEvents, filterMap_written _ (h .inputs)]
    simp [blockRows, Ingest.rowsOf, BlockTree.inputEvents, Row.fields]
  have houts : d.outputEvents = (hs.map fun x => (T.outputEvents x : Multiset _)).sum := by
    rw [Disk.outputEvents, filterMap_written _ (h .outputs)]
    simp [blockRows, Ingest.rowsOf, BlockTree.outputEvents, Row.fields]
  -- the rows of a block carry its hash
  have htx : ∀ x, ∀ e ∈ (T.txEvents x : Multiset TxEvent), e.key.blockHash = x := by
    intro x e he
    obtain ⟨-, -, -, -, hrows, -⟩ := hT.rows x
    obtain ⟨i, hi⟩ := List.mem_iff_getElem?.mp (Multiset.mem_coe.mp he)
    exact (hrows i e hi).1
  have hin : ∀ x, ∀ r ∈ (T.inputEvents x : Multiset InputEvent), r.key.blockHash = x := by
    intro x r hr
    obtain ⟨-, -, -, -, -, hup, -⟩ := hT.rows x
    obtain ⟨e, he, hkey⟩ := hup r (Multiset.mem_coe.mp hr)
    exact hkey ▸ htx x e (Multiset.mem_coe.mpr he)
  have hout : ∀ x, ∀ r ∈ (T.outputEvents x : Multiset OutputEvent), r.key.blockHash = x := by
    intro x r hr
    obtain ⟨-, -, -, -, -, -, hup⟩ := hT.rows x
    obtain ⟨e, he, hkey⟩ := hup r (Multiset.mem_coe.mp hr)
    exact hkey ▸ htx x e (Multiset.mem_coe.mpr he)
  constructor
  case nodup =>
    have hmap : d.blockEvents.map (·.hash) = (hs : Multiset String) := by
      rw [hblocks, ← Multiset.filterMap_eq_map, filterMap_sum_map]
      -- one row of the blocks file for each block
      have hone : ∀ x, (((T.block x).blockEvent.block?).toList : Multiset _).filterMap
          (some ∘ BlockParser.BlockEvent.hash) = {x} := by
        intro x
        obtain ⟨b, hb, hhash, -⟩ := hT.rows x
        rw [hb, ← hhash]
        rfl
      rw [funext hone, ← Multiset.sum_coe, ← Multiset.map_coe, Multiset.sum_map_singleton]
    rw [hmap]
    exact hn
  -- the rows with the hash of a block are those it was parsed into
  case blocks =>
    intro b hb
    rw [hblocks, mem_sum_map] at hb
    obtain ⟨x, hx, hb⟩ := hb
    obtain ⟨b', hb', rfl, hagrees, hrows, -⟩ := hT.rows x
    obtain rfl : b = b' := by simpa [hb', ExportedRow.block?] using hb
    exact ⟨T.txEvents b.hash, by rw [htxs, filter_sum_map htx hn hx], hagrees,
      fun i e he => (hrows i e he).2.1⟩
  case transactions =>
    intro e he
    rw [htxs, mem_sum_map] at he
    obtain ⟨x, hx, he⟩ := he
    obtain rfl := htx x e he
    obtain ⟨b, hb, hhash, -, hrows, -⟩ := hT.rows e.key.blockHash
    obtain ⟨i, hi⟩ := List.mem_iff_getElem?.mp (Multiset.mem_coe.mp he)
    obtain ⟨-, hindex, hagrees⟩ := hrows i e hi
    refine ⟨⟨b, ?_, hhash⟩, _, _, ?_, ?_, hindex ▸ hagrees⟩
    · rw [hblocks, mem_sum_map]
      exact ⟨_, hx, by simp [hb, ExportedRow.block?]⟩
    · rw [hins, filter_sum_map hin hn hx, Multiset.filter_coe, hindex]
    · rw [houts, filter_sum_map hout hn hx, Multiset.filter_coe, hindex]
  -- a row below a transaction: its block has the row of the transaction
  case inputs =>
    intro r hr
    rw [hins, mem_sum_map] at hr
    obtain ⟨x, hx, hr⟩ := hr
    obtain ⟨-, -, -, -, -, hup, -⟩ := hT.rows x
    obtain ⟨e, he, hkey⟩ := hup r (Multiset.mem_coe.mp hr)
    exact ⟨e, htxs ▸ mem_sum_map.mpr ⟨x, hx, Multiset.mem_coe.mpr he⟩, hkey⟩
  case outputs =>
    intro r hr
    rw [houts, mem_sum_map] at hr
    obtain ⟨x, hx, hr⟩ := hr
    obtain ⟨-, -, -, -, -, -, hup⟩ := hT.rows x
    obtain ⟨e, he, hkey⟩ := hup r (Multiset.mem_coe.mp hr)
    exact ⟨e, htxs ▸ mem_sum_map.mpr ⟨x, hx, Multiset.mem_coe.mpr he⟩, hkey⟩

namespace Ingest

/-- When `index.flush()` has returned, the rows written are those of the blocks of `index.csv`. -/
lemma RestExport.written_eq {H ρ : Type} [DecidableEq H] {T : BlockTree H ρ} {s : State H ρ}
    (h : RestExport T s) {e : Event H ρ} (he : e ∈ s.log) {d : Disk H ρ}
    (hd : e.flushed? = some d) (k : Kind) :
    d.written k = ((IndexStore.loadRows d.index).keys.map (blockRows T k)).sum := by
  obtain ⟨hacc, hcur⟩ := h.log e he
  cases e with
  | completed op d' =>
      cases op with
      | indexFlushed rows =>
          cases hd
          rw [← ledger_of_allCurrent (hcur d rfl)]
          simpa using hacc.2.2 rows rfl k
      | _ => cases hd
  | _ => cases hd

/-- **The exported files add up**: in every run without a crash, whenever `index.flush()` has
returned, every row written is recomputed from the rows of the file below. -/
theorem exported_totals (cfg : RpcConfig) (fmt : Formats String ExportedRow)
    (T : BlockTree String ExportedRow) (config : Config) (hT : T.Parsed config)
    (s : State String ExportedRow) (h : (system cfg fmt T).Reach noCrash s) :
    ∀ e ∈ s.log, ∀ d, e.flushed? = some d → d.Totalled config := fun _ he _ hd =>
  totalled_of_ledger hT (Dict.keys_nodup _) ((restExport_of_reach h).written_eq he hd)

/-- The payload of a block `b` on a block `a`. Every other hash is that of a first block, too. -/
def plainPayload (h : String) : Block :=
  { twoTxBlock with
    hash := some h
    height := some (if h = "b" then 1 else 0)
    native := { twoTxBlock.native with
      previousblockhash := if h = "b" then some "a" else none } }

lemma isSome_plainPayload (h : String) :
    (buildParsedBlock BlockParser.plainEnv (plainPayload h)).toOption.isSome = true := rfl

/-- The blocks of these payloads. -/
def plainTree : BlockTree String ExportedRow where
  block h := (buildParsedBlock BlockParser.plainEnv (plainPayload h)).toOption.get
    (isSome_plainPayload h)
  blockHash_block _ := rfl
  block_nonneg h := by
    show (0 : ℤ) ≤ if h = "b" then 1 else 0
    split_ifs <;> decide
  block_genesis h := by
    show Option.filter (fun s => decide (s ≠ "")) (if h = "b" then some "a" else none) = none
      ↔ (if h = "b" then 1 else 0 : ℤ) = 0
    split_ifs <;> decide
  block_parent h p hp := by
    have hp : Option.filter (fun s => decide (s ≠ "")) (if h = "b" then some "a" else none)
      = some p := hp
    show (if h = "b" then 1 else 0 : ℤ) = (if p = "b" then 1 else 0) + 1
    split_ifs at hp with hb
    · obtain ⟨rfl, -⟩ : "a" = p ∧ ¬p = "" := by simpa using hp
      simp [hb]
    · simp at hp

lemma parsed_plainTree : plainTree.Parsed BlockParser.plainEnv.config :=
  fun h => ⟨BlockParser.plainEnv, plainPayload h, rfl, rfl⟩

lemma height_plainChain {i : ℕ} {h : String} (hh : ["a", "b"][i]? = some h) :
    plainTree.height h = i := by
  rcases i with _ | _ | i
  · cases hh
    rfl
  · cases hh
    rfl
  · cases hh

lemma linked_plainChain {i : ℕ} {h h' : String} (hh : ["a", "b"][i]? = some h)
    (hh' : ["a", "b"][i + 1]? = some h') : plainTree.parent h' = some h := by
  rcases i with _ | i
  · cases hh
    cases hh'
    rfl
  · cases hh'

/-- The chain of `a` and `b`. -/
def plainChain : ActiveChain plainTree where
  hashes := ["a", "b"]
  ne_nil := List.cons_ne_nil _ _
  height_eq _ _ := height_plainChain
  linked _ _ _ := linked_plainChain

/-- A node on this chain. -/
def plainSurroundings : PassEnv plainTree where
  node _ := ⟨plainChain, fun _ => false⟩
  worker _ := (⟨plainChain, fun _ => false⟩, ⟨plainChain, fun _ => false⟩)
  schedule := id
  stop _ := false
  consumer _ := []
  tie := 0

/-- Two blocks of two transactions each are exported, and the files add up. -/
theorem exported_totals_twoBlocks :
    let s := State.start.afterPass plainConfig ⟨⟨1000, fun _ => 0⟩, fun _ => false⟩
      plainSurroundings
    ∃ e ∈ s.log, ∃ d, e.flushed? = some d ∧ (IndexStore.loadRows d.index).keys = ["a", "b"]
      ∧ d.Totalled BlockParser.plainEnv.config := by
  intro s
  have hreach : (system plainConfig ⟨⟨1000, fun _ => 0⟩, fun _ => false⟩ plainTree).Reach
      noCrash s := .step (i := .pass plainSurroundings) (.init rfl) trivial rfl
  obtain ⟨e, he, hk⟩ : ∃ e ∈ s.log,
      (e.flushed?.map fun d => (IndexStore.loadRows d.index).keys) = some ["a", "b"] := by
    decide +kernel
  obtain ⟨d, hd, hkeys⟩ := Option.map_eq_some_iff.mp hk
  exact ⟨e, he, d, hd, hkeys,
    exported_totals _ _ _ _ parsed_plainTree s hreach e he d hd⟩

end Ingest

end BtcParser
