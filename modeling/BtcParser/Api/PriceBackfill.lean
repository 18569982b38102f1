import Mathlib.Tactic

/-!
`prices.csv` and its two writers: the live poll (`api/poller.py` with the parser of
`api/mempool_endpoints.py`) and `api/price_gap_backfill.py`.

A call of `run_backfill` is a machine of small steps, one for each point at which a signal or
another writer can come in between. Each write of a file is one step.
-/

namespace BtcParser.Prices

/-- A row of `prices.csv`. -/
structure PriceRow where
  dateUnix : Option ℤ
  usd : Option ℚ
  eur : Option ℚ
  deriving DecidableEq

/-- The values of `date_unix`, one for each row that has one. -/
def dates (rows : List PriceRow) : List ℤ := rows.filterMap (·.dateUnix)

/-- A price as the endpoints send it. -/
structure PriceEntry where
  time : Option ℤ
  usd : Option ℚ
  eur : Option ℚ
  deriving DecidableEq

/-- `write_rows_to_csv` on the logical `prices.csv`, all parts of it in order. -/
def writeRowsToCsv (rows prices : List PriceRow) : List PriceRow := prices ++ rows

/-! ### The live poll -/

/-- What the request of a poll comes back with. A payload that the parser cannot read is
`data none`. -/
inductive Response
  | data (entry : Option PriceEntry)
  | rateLimited
  | fetchError
  deriving DecidableEq

/-- `parse_prices`. -/
def parsePrices (data : PriceEntry) : List PriceRow := [⟨data.time, data.usd, data.eur⟩]

/-- `fetch_and_write` for the endpoint with the parser `prices`: `prices.csv` afterwards. -/
def fetchAndWrite (stopped : Bool) (response : Response) (prices : List PriceRow) :
    List PriceRow :=
  if stopped then prices
  else match response with
    | .data (some data) => writeRowsToCsv (parsePrices data) prices
    | .data none => prices
    | .rateLimited => prices
    | .fetchError => prices

/-! ### The files of the backfill -/

/-- `price_gap_backfill_state.csv`. -/
structure Checkpoint where
  rangeStart : ℤ
  nextTimestamp : ℤ
  deriving DecidableEq

/-- The export directory. -/
structure Disk where
  prices : List PriceRow
  checkpoint : Option Checkpoint
  deriving DecidableEq

/-- `_existing_dates`: raises on a row without a date. -/
def existingDates (prices : List PriceRow) : Option (Finset ℤ) :=
  if ∀ r ∈ prices, r.dateUnix.isSome then some (dates prices).toFinset else none

/-- `_load_checkpoint`. -/
def loadCheckpoint (d : Disk) (startTimestamp : ℤ) : ℤ :=
  match d.checkpoint with
  | none => startTimestamp
  | some row => if row.rangeStart ≠ startTimestamp then startTimestamp else row.nextTimestamp

/-- `_save_checkpoint`. -/
def saveCheckpoint (d : Disk) (startTimestamp nextTimestamp : ℤ) : Disk :=
  { d with checkpoint := some ⟨startTimestamp, nextTimestamp⟩ }

/-! ### A call of `run_backfill` -/

/-- `STEP_SECONDS`. -/
def stepSeconds : ℤ := 60

/-- `FLUSH_EVERY_STEPS`. -/
def flushEverySteps : ℕ := 1000

/-- `EXIT_RATE_LIMITED`. -/
def exitRateLimited : ℕ := 75

/-- How a call ends: with a value, with an exception, or with the process. -/
inductive Exit
  | code (n : ℕ)
  | raised
  | killed
  deriving DecidableEq

/-- The statements of `flush` that can be told apart from outside. -/
inductive Flush
  | write
  | clear
  | save
  deriving DecidableEq

/-- Where a call is. -/
inductive Pc
  /-- before the checkpoint is loaded -/
  | called
  /-- before the dates of `prices.csv` are read -/
  | loaded
  /-- at the test of the loop -/
  | head
  /-- with a price in hand -/
  | entry (e : PriceEntry)
  /-- its row is pending, its date not yet in the set -/
  | added (t : ℤ)
  /-- before the timestamp moves on -/
  | advance
  /-- before the question whether to flush -/
  | advanced
  /-- in the flush of the loop -/
  | flush (f : Flush)
  /-- in the flush of the `finally` block -/
  | final (f : Flush) (exit : Exit)
  deriving DecidableEq

/-- The variables of a call. -/
structure Run where
  startTimestamp : ℤ
  endTimestamp : ℤ
  nextTimestamp : ℤ
  existingDates : Finset ℤ
  pendingRows : List PriceRow
  stepsSinceFlush : ℕ
  pc : Pc
  deriving DecidableEq

/-- A call with its arguments. -/
def Run.call (startTimestamp endTimestamp : ℤ) : Run :=
  ⟨startTimestamp, endTimestamp, startTimestamp, ∅, [], 0, .called⟩

/-- What the request of a backfill comes back with: `price none` where the answer carries no
price. -/
inductive Answer
  | price (entry : Option PriceEntry)
  | rateLimited
  | fetchError
  deriving DecidableEq

/-- A call after a step. -/
inductive Outcome
  | running (r : Run)
  | ended (exit : Exit)
  deriving DecidableEq

/-- One step of a call. `answer` is used where a request is made, `elapsed` where the time since
the last flush is looked at. -/
def Run.go (answer : Answer) (elapsed : Bool) (d : Disk) (r : Run) : Disk × Outcome :=
  match r.pc with
  | .called =>
      if r.endTimestamp < r.startTimestamp then (d, .ended (.code 1))
      else
        let next := loadCheckpoint d r.startTimestamp
        if r.endTimestamp < next then (d, .ended (.code 0))
        else (d, .running { r with nextTimestamp := next, pc := .loaded })
  | .loaded =>
      match Prices.existingDates d.prices with
      | none => (d, .ended .raised)
      | some dates => (d, .running { r with existingDates := dates, pc := .head })
  -- `while next_timestamp <= end_timestamp`
  | .head =>
      if r.nextTimestamp ≤ r.endTimestamp then
        match answer with
        | .rateLimited => (d, .running { r with pc := .final .write (.code exitRateLimited) })
        | .fetchError => (d, .running { r with pc := .final .write (.code 1) })
        | .price none => (d, .running { r with pc := .advance })
        | .price (some e) => (d, .running { r with pc := .entry e })
      else (d, .running { r with pc := .final .write (.code 0) })
  | .entry e =>
      match e.time with
      | none => (d, .running { r with pc := .advance })
      | some t =>
          if t ∈ r.existingDates then (d, .running { r with pc := .advance })
          else (d, .running { r with
            pendingRows := r.pendingRows ++ [⟨some t, e.usd, e.eur⟩], pc := .added t })
  -- known from here on, also to the next answers of this call
  | .added t =>
      (d, .running { r with existingDates := insert t r.existingDates, pc := .advance })
  | .advance => (d, .running { r with
      nextTimestamp := r.nextTimestamp + stepSeconds
      stepsSinceFlush := r.stepsSinceFlush + 1
      pc := .advanced })
  | .advanced =>
      if flushEverySteps ≤ r.stepsSinceFlush ∨ elapsed = true
      then (d, .running { r with pc := .flush .write })
      else (d, .running { r with pc := .head })
  -- `flush()` in the loop
  | .flush .write => ({ d with prices := writeRowsToCsv r.pendingRows d.prices },
      .running { r with pc := .flush .clear })
  | .flush .clear => (d, .running { r with
      pendingRows := [], stepsSinceFlush := 0, pc := .flush .save })
  | .flush .save => (saveCheckpoint d r.startTimestamp r.nextTimestamp,
      .running { r with pc := .head })
  -- `flush()` in the `finally` block
  | .final .write exit => ({ d with prices := writeRowsToCsv r.pendingRows d.prices },
      .running { r with pc := .final .clear exit })
  | .final .clear exit => (d, .running { r with
      pendingRows := [], stepsSinceFlush := 0, pc := .final .save exit })
  | .final .save exit => (saveCheckpoint d r.startTimestamp r.nextTimestamp, .ended exit)

/-- `KeyboardInterrupt`: out of the loop it goes through the `finally` block, from elsewhere it
ends the call. -/
def Run.interrupt (r : Run) : Outcome :=
  match r.pc with
  | .called => .ended .raised
  | .loaded => .ended .raised
  | .final _ _ => .ended .raised
  -- in the loop, between any two of its statements
  | _ => .running { r with pc := .final .write .raised }

/-- What can happen to a call. -/
inductive Action
  | go (answer : Answer) (elapsed : Bool)
  | interrupt
  | kill
  deriving DecidableEq

def Run.act (d : Disk) (r : Run) : Action → Disk × Outcome
  | .go answer elapsed => r.go answer elapsed d
  | .interrupt => (d, r.interrupt)
  | .kill => (d, .ended .killed)

end BtcParser.Prices
