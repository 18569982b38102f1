import BtcParser.Api.PriceBackfill

/-!
`run_backfill` of `api/price_gap_backfill.py` together with its `_Validator`, down to the JSON
values that the two servers answer with.

`Backfill.call` is a call that runs to its end: no signal comes, and no other writer. What differs
between two such calls is in their `Moment`s, one for each request: the readings of the clock, and
the answer of the validation server. The steps of a call are those of `Run.go`
(`Backfill.call_is_run`); here the values are read out of the answers too, and each access that can
raise does.
-/

namespace BtcParser.Prices

/-! ### Values -/

/-- The exceptions that the accesses to an answer can raise. -/
inductive PyError
  | attributeError
  | indexError
  | keyError
  | overflowError
  | typeError
  | valueError
  deriving DecidableEq

/-- A decoded JSON value; the floats are those of a type `F`. The keys of an object are
distinct. -/
inductive Json (F : Type)
  | null
  | bool (b : Bool)
  | int (n : ℤ)
  | float (x : F)
  | str (s : List Char)
  | arr (items : List (Json F))
  | obj (fields : List (String × Json F))

/-- Floats, and the conversions to them and from them. -/
structure Floats (F : Type) where
  /-- `float(n)`, and `none` where it raises `OverflowError` -/
  ofInt : ℤ → Option F
  ofBool : Bool → F
  /-- `float(s)`, and `none` where it raises `ValueError` -/
  ofStr : List Char → Option F
  isZero : F → Bool
  /-- `(value - reference) / reference * 100.0` -/
  percent : F → F → F
  /-- `abs(d) > self.warn_percent` -/
  exceeds : F → Bool
  /-- `int(x)`, which raises on what is not finite -/
  toInt : F → Except PyError ℤ
  /-- `int(s)`, and `none` where it raises `ValueError` -/
  intOfStr : List Char → Option ℤ
  /-- what a column of `prices.csv` has of a value -/
  column : Json F → Option ℚ

variable {F : Type}

namespace Json

variable (py : Floats F)

/-- The value of a key, `None` where it is absent. -/
def field (fields : List (String × Json F)) (key : String) : Json F :=
  match fields.find? fun p => p.1 = key with
  | some p => p.2
  | none => .null

/-- `entry.get(key)`. -/
def get (key : String) : Json F → Except PyError (Json F)
  | .obj fields => .ok (field fields key)
  | _ => .error .attributeError

/-- `bool(value)`. -/
def truthy : Json F → Bool
  | .null => false
  | .bool b => b
  | .int n => n ≠ 0
  | .float x => !py.isZero x
  | .str s => !s.isEmpty
  | .arr items => !items.isEmpty
  | .obj fields => !fields.isEmpty

/-- `prices[0]`. -/
def first : Json F → Except PyError (Json F)
  | .arr (item :: _) => .ok item
  | .arr [] => .error .indexError
  | .str (c :: _) => .ok (.str [c])
  | .str [] => .error .indexError
  | .obj _ => .error .keyError
  | _ => .error .typeError

/-- `value is None`. -/
def isNone : Json F → Bool
  | .null => true
  | _ => false

/-- `float(value)`. -/
def toFloat : Json F → Except PyError F
  | .bool b => .ok (py.ofBool b)
  | .int n => match py.ofInt n with
      | some x => .ok x
      | none => .error .overflowError
  | .float x => .ok x
  | .str s => match py.ofStr s with
      | some x => .ok x
      | none => .error .valueError
  | _ => .error .typeError

/-- `int(value)`. -/
def toInt : Json F → Except PyError ℤ
  | .bool b => .ok (if b then 1 else 0)
  | .int n => .ok n
  | .float x => py.toInt x
  | .str s => match py.intOfStr s with
      | some n => .ok n
      | none => .error .valueError
  | _ => .error .typeError

end Json

/-! ### Requests -/

/-- How a request goes: it fails, or there is a response with a status and a body. `json` is
`none` where the body cannot be decoded. -/
inductive HttpResponse (F : Type)
  | requestException
  | response (statusCode : ℤ) (json : Option (Json F))

/-- What `fetch_historical_price` returns or raises. -/
inductive Fetched (F : Type)
  | data (data : Json F)
  | rateLimited
  | fetchError

/-- `fetch_historical_price`. -/
def fetchHistoricalPrice : HttpResponse F → Fetched F
  | .requestException => .fetchError
  | .response statusCode json =>
      if statusCode = 429 then .rateLimited
      else if statusCode ≠ 200 then .fetchError
      else match json with
        | some data => .data data
        | none => .fetchError

/-- `_first_price`. -/
def firstPrice (py : Floats F) : Json F → Except PyError (Json F)
  | .obj fields =>
      let prices := Json.field fields "prices"
      if prices.truthy py then prices.first else .ok .null
  | _ => .ok .null

/-- What `except (TypeError, ValueError)` makes of an exception. -/
def caught {α : Type} : Except PyError α → Except PyError (Option α)
  | .ok a => .ok (some a)
  | .error .typeError => .ok none
  | .error .valueError => .ok none
  | .error e => .error e

/-- `_percent_diff`. -/
def percentDiff (py : Floats F) (value reference : Json F) : Except PyError (Option F) := do
  match ← caught (value.toFloat py) with
  | none => pure none
  | some v =>
      match ← caught (reference.toFloat py) with
      | none => pure none
      | some r => pure (if py.isZero r then none else some (py.percent v r))

/-! ### `_Validator` -/

/-- `VALIDATION_MIN_INTERVAL_SECONDS`. -/
def validationMinIntervalSeconds : ℚ := 1

/-- `VALIDATION_RATE_LIMITED_BACKOFF_SECONDS`. -/
def validationRateLimitedBackoffSeconds : ℚ := 60

/-- What happens around one request of a backfill: the clock in `observe`, in `_validate` and
behind a 429, what the validation server answers, and whether the next flush is due by then. -/
structure Moment (F : Type) where
  observed : ℚ
  asked : ℚ
  limited : ℚ
  validation : HttpResponse F
  flushDue : Bool

/-- `datapoints_seen`, `pending` and `not_before`. -/
structure Pace where
  datapointsSeen : ℕ
  pending : Bool
  notBefore : ℚ

/-- The attributes of a `_Validator` that change. -/
structure Validator where
  pace : Pace
  checked : ℕ
  warnings : ℕ
  failed : ℕ

/-- The constructor. -/
def Validator.new : Validator := ⟨⟨0, false, 0⟩, 0, 0, 0⟩

/-- Whether `observe` validates a datapoint. -/
def Pace.turn (every : ℤ) (now : ℚ) (p : Pace) : Pace × Bool :=
  if every ≤ 0 then (p, false)
  else
    let pending := p.pending || decide ((p.datapointsSeen : ℤ) % every = 0)
    if pending = true ∧ p.notBefore ≤ now then (⟨p.datapointsSeen + 1, false, p.notBefore⟩, true)
    else (⟨p.datapointsSeen + 1, pending, p.notBefore⟩, false)

/-- `not_before` after a validation. -/
def Pace.validated (m : Moment F) (p : Pace) : Pace :=
  match fetchHistoricalPrice m.validation with
  | .rateLimited => { p with notBefore := m.limited + validationRateLimitedBackoffSeconds }
  | _ => { p with notBefore := m.asked + validationMinIntervalSeconds }

namespace Validator

variable (py : Floats F)

/-- The comparison of `_validate`, with what it counts. -/
def compare (entry reference : Json F) (v : Validator) : Except PyError Validator := do
  let usdDiff ← percentDiff py (← entry.get "USD") (← reference.get "USD")
  let eurDiff ← percentDiff py (← entry.get "EUR") (← reference.get "EUR")
  -- the log line reads `time` too, of what are objects by now
  pure { v with
    checked := v.checked + 1
    warnings := if usdDiff.any py.exceeds || eurDiff.any py.exceeds then v.warnings + 1
      else v.warnings }

/-- `_validate`. -/
def validate (m : Moment F) (entry : Json F) (v : Validator) : Except PyError Validator :=
  let v := { v with pace := v.pace.validated m }
  match fetchHistoricalPrice m.validation with
  | .rateLimited => .ok { v with failed := v.failed + 1 }
  | .fetchError => .ok { v with failed := v.failed + 1 }
  | .data data => do
      let reference ← firstPrice py data
      if reference.isNone then pure { v with failed := v.failed + 1 }
      else v.compare py entry reference

/-- `observe`. -/
def observe (every : ℤ) (m : Moment F) (entry : Json F) (v : Validator) :
    Except PyError Validator :=
  let turn := v.pace.turn every m.observed
  let v := { v with pace := turn.1 }
  if turn.2 then v.validate py m entry else .ok v

end Validator

/-! ### `run_backfill` -/

/-- How the loop ends. -/
inductive Stop
  | complete
  | rateLimited
  | fetchError
  | raised (e : PyError)
  /-- an exception out of `observe` -/
  | observeRaised (e : PyError)
  deriving DecidableEq

/-- How the call ends then. -/
def Stop.exit : Stop → Exit
  | .complete => .code 0
  | .rateLimited => .code exitRateLimited
  | .fetchError => .code 1
  | .raised _ => .raised
  | .observeRaised _ => .raised

/-- The variables of a call, and the export directory. -/
structure Backfill where
  disk : Disk
  nextTimestamp : ℤ
  existingDates : Finset ℤ
  pendingRows : List PriceRow
  stepsSinceFlush : ℕ
  validator : Validator

namespace Backfill

variable (py : Floats F)

/-- `flush`. -/
def flush (startTimestamp : ℤ) (s : Backfill) : Backfill :=
  { s with
    disk := saveCheckpoint { s.disk with prices := writeRowsToCsv s.pendingRows s.disk.prices }
      startTimestamp s.nextTimestamp
    pendingRows := []
    stepsSinceFlush := 0 }

/-- The end of an iteration. -/
def advance (startTimestamp : ℤ) (flushDue : Bool) (s : Backfill) : Backfill :=
  let s := { s with
    nextTimestamp := s.nextTimestamp + stepSeconds
    stepsSinceFlush := s.stepsSinceFlush + 1 }
  if flushEverySteps ≤ s.stepsSinceFlush ∨ flushDue = true then s.flush startTimestamp else s

/-- The row of an entry, which is pending if its date is new. -/
def take (entry : Json F) (s : Backfill) : Except PyError Backfill := do
  let time ← entry.get "time"
  if time.isNone then pure s
  else
    let dateUnix ← time.toInt py
    if dateUnix ∈ s.existingDates then pure s
    else
      let usd ← entry.get "USD"
      let eur ← entry.get "EUR"
      pure { s with
        pendingRows := s.pendingRows ++ [⟨some dateUnix, py.column usd, py.column eur⟩]
        existingDates := insert dateUnix s.existingDates }

/-- The entry of an answer of the data source, `null` where it has none; or the end of the
loop. -/
def entryOf (response : HttpResponse F) : Except Stop (Json F) :=
  match fetchHistoricalPrice response with
  | .rateLimited => .error .rateLimited
  | .fetchError => .error .fetchError
  | .data data => (firstPrice py data).mapError .raised

/-- An iteration of the loop. -/
def iterate (every startTimestamp : ℤ) (response : HttpResponse F) (m : Moment F)
    (s : Backfill) : Except Stop Backfill := do
  let entry ← entryOf py response
  if entry.isNone then pure (s.advance startTimestamp m.flushDue)
  else
    let validator ← (s.validator.observe py every m entry).mapError .observeRaised
    let s ← ({ s with validator := validator }.take py entry).mapError .raised
    pure (s.advance startTimestamp m.flushDue)

/-- `total_steps`. -/
def totalSteps (nextTimestamp endTimestamp : ℤ) : ℕ :=
  ((endTimestamp - nextTimestamp) / stepSeconds + 1).toNat

/-- The loop, from the `i`-th request on. The first argument bounds the number of iterations, and
`complete_of_loop` says that `total_steps` is enough. -/
def loop (every startTimestamp endTimestamp : ℤ) (source : ℕ → HttpResponse F)
    (moment : ℕ → Moment F) : ℕ → ℕ → Backfill → Backfill × Stop
  | 0, _, s => (s, .complete)
  | n + 1, i, s =>
      if s.nextTimestamp ≤ endTimestamp then
        match iterate py every startTimestamp (source i) (moment i) s with
        | .ok s' => loop every startTimestamp endTimestamp source moment n (i + 1) s'
        | .error stop => (s, stop)
      else (s, .complete)

/-- The arguments of a call. -/
structure Arguments where
  startTimestamp : ℤ
  endTimestamp : ℤ
  validateEvery : ℤ

/-- What is left of a call: the files, how it ended, and whether `observe` raised. -/
structure Ended where
  disk : Disk
  exit : Exit
  observeRaised : Bool

/-- The variables before the loop. -/
def opened (d : Disk) (nextTimestamp : ℤ) (existingDates : Finset ℤ) : Backfill :=
  ⟨d, nextTimestamp, existingDates, [], 0, .new⟩

/-- The `finally` block, and the end of the call. -/
def finished (startTimestamp : ℤ) (r : Backfill × Stop) : Ended :=
  ⟨(r.1.flush startTimestamp).disk, r.2.exit, match r.2 with
    | .observeRaised _ => true
    | _ => false⟩

/-- `run_backfill`. -/
def call (args : Arguments) (source : ℕ → HttpResponse F) (moment : ℕ → Moment F) (d : Disk) :
    Ended :=
  if args.endTimestamp < args.startTimestamp then ⟨d, .code 1, false⟩
  else
    let next := loadCheckpoint d args.startTimestamp
    if args.endTimestamp < next then ⟨d, .code 0, false⟩
    else match Prices.existingDates d.prices with
      | none => ⟨d, .raised, false⟩
      | some dates => finished args.startTimestamp <|
          loop py args.validateEvery args.startTimestamp args.endTimestamp source moment
            (totalSteps next args.endTimestamp) 0 (opened d next dates)

end Backfill

end BtcParser.Prices
