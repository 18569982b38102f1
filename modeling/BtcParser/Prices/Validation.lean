import BtcParser.Api.PriceValidation

/-!
Whether the validation server can get at what a backfill writes.

* `Proper` are the answers of the validation server that `_validate` can compare, or can tell
  that there is nothing to compare; `validate_isOk` says that it raises on all others.
* `Harmless`: each validation of a call meets a proper answer. It follows the datapoints of the
  source and the pace of the validator, and nothing that is written.
* `Same` relates the variables of two calls after the same number of requests, however they were
  flushed. `loop_same` is the run lemma for two calls.
* `validation_iff`: `observe` raises in neither of two calls and they end alike if and only if
  both are harmless.
-/

namespace BtcParser.Prices

variable {F : Type} (py : Floats F)

/-! ### What a validation can compare -/

/-- An integer that no float can hold. -/
def Overflows (value : Json F) : Prop := ∃ n, value = .int n ∧ py.ofInt n = none

/-- A value that is a float, or can be read as one. -/
def Converts (value : Json F) : Prop := ∃ x, value.toFloat py = .ok x

/-- Neither value overflows; the second one is not looked at if the first one does not convert. -/
def Comparable (value reference : Json F) : Prop :=
  ¬ Overflows py value ∧ (Converts py value → ¬ Overflows py reference)

/-- Two objects whose prices can be compared. -/
def ComparableEntries (entry reference : Json F) : Prop :=
  ∃ own first, entry = .obj own ∧ reference = .obj first
    ∧ Comparable py (Json.field own "USD") (Json.field first "USD")
    ∧ Comparable py (Json.field own "EUR") (Json.field first "EUR")

/-- There is no price in the answer: it is no object, its `prices` are false, or their first item
is `null`. -/
def NoPrice (data : Json F) : Prop :=
  ∀ fields, data = .obj fields → (Json.field fields "prices").truthy py = false
    ∨ ∃ rest, Json.field fields "prices" = .arr (.null :: rest)

/-- The answer fails, has no price, or has a first price that can be compared with the entry. -/
def Proper (entry : Json F) (validation : HttpResponse F) : Prop :=
  ∀ data, fetchHistoricalPrice validation = .data data → NoPrice py data
    ∨ ∃ fields first rest, data = .obj fields
      ∧ Json.field fields "prices" = .arr (first :: rest) ∧ ComparableEntries py entry first

variable {py}

variable (py) in
lemma toFloat_cases (value : Json F) :
    (∃ x, value.toFloat py = .ok x ∧ ¬ Overflows py value)
      ∨ (value.toFloat py = .error .typeError ∨ value.toFloat py = .error .valueError)
        ∧ ¬ Overflows py value
      ∨ value.toFloat py = .error .overflowError ∧ Overflows py value := by
  have hno (h : ∀ n, value ≠ .int n) : ¬ Overflows py value := fun ⟨n, hn, _⟩ => h n hn
  cases value with
  | int n =>
      cases hn : py.ofInt n with
      | some x =>
          refine .inl ⟨x, by rw [Json.toFloat, hn], fun ⟨m, hm, hnone⟩ => ?_⟩
          cases hm
          rw [hn] at hnone
          cases hnone
      | none => exact .inr (.inr ⟨by rw [Json.toFloat, hn], n, rfl, hn⟩)
  | bool b => exact .inl ⟨_, rfl, hno fun n hn => by cases hn⟩
  | float x => exact .inl ⟨_, rfl, hno fun n hn => by cases hn⟩
  | str s =>
      cases hs : py.ofStr s with
      | some x => exact .inl ⟨x, by rw [Json.toFloat, hs], hno fun n hn => by cases hn⟩
      | none => exact .inr (.inl ⟨.inr (by rw [Json.toFloat, hs]), hno fun n hn => by cases hn⟩)
  | null => exact .inr (.inl ⟨.inl rfl, hno fun n hn => by cases hn⟩)
  | arr items => exact .inr (.inl ⟨.inl rfl, hno fun n hn => by cases hn⟩)
  | obj fields => exact .inr (.inl ⟨.inl rfl, hno fun n hn => by cases hn⟩)

variable (py) in
/-- What a conversion comes to under the `except` of `_percent_diff`. -/
lemma caught_toFloat (value : Json F) :
    (∃ x, caught (value.toFloat py) = .ok (some x) ∧ Converts py value ∧ ¬ Overflows py value)
      ∨ caught (value.toFloat py) = .ok none ∧ ¬ Converts py value ∧ ¬ Overflows py value
      ∨ caught (value.toFloat py) = .error .overflowError ∧ Overflows py value := by
  rcases toFloat_cases py value with ⟨x, hx, hno⟩ | ⟨hx, hno⟩ | ⟨hx, hover⟩
  · exact .inl ⟨x, by rw [hx, caught], ⟨x, hx⟩, hno⟩
  · refine .inr (.inl ⟨?_, fun ⟨y, hy⟩ => ?_, hno⟩)
    · rcases hx with hx | hx <;> rw [hx, caught]
    · rcases hx with hx | hx <;> rw [hx] at hy <;> cases hy
  · exact .inr (.inr ⟨by rw [hx]; rfl, hover⟩)

/-- `_percent_diff` raises on what cannot be compared, and on nothing else. -/
lemma percentDiff_isOk (value reference : Json F) :
    (∃ d, percentDiff py value reference = .ok d) ↔ Comparable py value reference := by
  rw [percentDiff]
  rcases caught_toFloat py value with ⟨x, hx, hc, hno⟩ | ⟨hx, hc, hno⟩ | ⟨hx, hover⟩
  · rcases caught_toFloat py reference with ⟨y, hy, -, hno'⟩ | ⟨hy, -, hno'⟩ | ⟨hy, hover'⟩
    · rw [hx]
      refine iff_of_true ⟨if py.isZero y then none else some (py.percent x y), ?_⟩
        ⟨hno, fun _ => hno'⟩
      show (caught (reference.toFloat py)).bind _ = _
      rw [hy]
      rfl
    · rw [hx]
      refine iff_of_true ⟨none, ?_⟩ ⟨hno, fun _ => hno'⟩
      show (caught (reference.toFloat py)).bind _ = _
      rw [hy]
      rfl
    · rw [hx]
      refine iff_of_false (fun ⟨d, hd⟩ => ?_) fun h => h.2 hc hover'
      have hraise : (caught (reference.toFloat py)).bind _ = Except.ok d := hd
      rw [hy] at hraise
      cases hraise
  · rw [hx]
    exact iff_of_true ⟨none, rfl⟩ ⟨hno, fun h => absurd h hc⟩
  · rw [hx]
    refine iff_of_false (fun ⟨d, hd⟩ => ?_) fun h => h.1 hover
    cases hd

lemma isNone_eq_true {value : Json F} : value.isNone = true ↔ value = .null := by
  cases value with
  | null => exact iff_of_true rfl rfl
  | _ => exact iff_of_false Bool.false_ne_true fun h => by cases h

lemma get_of_not_obj {value : Json F} (h : ∀ fields, value ≠ .obj fields) (key : String) :
    value.get key = .error .attributeError := by
  cases value with
  | obj fields => exact absurd rfl (h fields)
  | _ => rfl

lemma firstPrice_of_not_obj {data : Json F} (h : ∀ fields, data ≠ .obj fields) :
    firstPrice py data = .ok .null := by
  cases data with
  | obj fields => exact absurd rfl (h fields)
  | _ => rfl

/-- The comparison of two objects. -/
lemma compare_obj (own first : List (String × Json F)) (v : Validator) :
    v.compare py (.obj own) (.obj first)
      = (percentDiff py (Json.field own "USD") (Json.field first "USD")).bind fun usdDiff =>
        (percentDiff py (Json.field own "EUR") (Json.field first "EUR")).bind fun eurDiff =>
        .ok { v with
          checked := v.checked + 1
          warnings := if usdDiff.any py.exceeds || eurDiff.any py.exceeds then v.warnings + 1
            else v.warnings } := rfl

variable (py) in
/-- The comparison needs two objects, and prices that can be compared. -/
lemma compare_cases (entry reference : Json F) (v : Validator) :
    (∃ v', v.compare py entry reference = .ok v' ∧ v'.pace = v.pace)
        ∧ ComparableEntries py entry reference
      ∨ (∃ e, v.compare py entry reference = .error e)
        ∧ ¬ ComparableEntries py entry reference := by
  by_cases hentry : ∃ own, entry = .obj own
  · obtain ⟨own, rfl⟩ := hentry
    by_cases hreference : ∃ first, reference = .obj first
    · obtain ⟨first, rfl⟩ := hreference
      rw [compare_obj]
      cases husd : percentDiff py (Json.field own "USD") (Json.field first "USD") with
      | error e =>
          refine .inr ⟨⟨e, rfl⟩, ?_⟩
          rintro ⟨own', first', ho, hf, hcmp, -⟩
          cases ho
          cases hf
          obtain ⟨d, hd⟩ := (percentDiff_isOk _ _).mpr hcmp
          rw [husd] at hd
          cases hd
      | ok usd =>
          have husd' := (percentDiff_isOk _ _).mp ⟨usd, husd⟩
          cases heur : percentDiff py (Json.field own "EUR") (Json.field first "EUR") with
          | error e =>
              refine .inr ⟨⟨e, rfl⟩, ?_⟩
              rintro ⟨own', first', ho, hf, -, hcmp⟩
              cases ho
              cases hf
              obtain ⟨d, hd⟩ := (percentDiff_isOk _ _).mpr hcmp
              rw [heur] at hd
              cases hd
          | ok eur =>
              have heur' := (percentDiff_isOk _ _).mp ⟨eur, heur⟩
              exact .inl ⟨⟨_, rfl, rfl⟩, own, first, rfl, rfl, husd', heur'⟩
    · have hget := get_of_not_obj (fun first hf => hreference ⟨first, hf⟩) "USD"
      refine .inr ⟨⟨.attributeError, ?_⟩, fun ⟨_, first, _, hf, _⟩ => hreference ⟨first, hf⟩⟩
      show (reference.get "USD").bind _ = _
      rw [hget]
      rfl
  · have hget := get_of_not_obj (fun own ho => hentry ⟨own, ho⟩) "USD"
    refine .inr ⟨⟨.attributeError, ?_⟩, fun ⟨own, _, ho, _⟩ => hentry ⟨own, ho⟩⟩
    show (entry.get "USD").bind _ = _
    rw [hget]
    rfl

variable (py) in
/-- What `_first_price` makes of an answer. -/
lemma firstPrice_cases (data : Json F) :
    NoPrice py data ∧ firstPrice py data = .ok .null
      ∨ (∃ fields item rest, data = .obj fields ∧ Json.field fields "prices" = .arr (item :: rest)
        ∧ item.isNone = false ∧ firstPrice py data = .ok item)
      ∨ ¬ NoPrice py data
        ∧ (∀ fields items, data = .obj fields → Json.field fields "prices" ≠ .arr items)
        ∧ ((∃ e, firstPrice py data = .error e) ∨ ∃ c, firstPrice py data = .ok (.str [c])) := by
  by_cases hobj : ∃ fields, data = .obj fields
  · obtain ⟨fields, rfl⟩ := hobj
    by_cases ht : (Json.field fields "prices").truthy py = true
    · have hfirst : firstPrice py (.obj fields) = (Json.field fields "prices").first := if_pos ht
      rw [hfirst]
      cases hp : Json.field fields "prices" with
      | arr items =>
          cases items with
          | nil =>
              rw [hp] at ht
              cases ht
          | cons item rest =>
              cases hi : item.isNone with
              | false => exact .inr (.inl ⟨fields, item, rest, rfl, hp, hi, rfl⟩)
              | true =>
                  obtain rfl := isNone_eq_true.mp hi
                  refine .inl ⟨fun fields' hf => .inr ⟨rest, ?_⟩, rfl⟩
                  cases hf
                  exact hp
      | _ =>
          -- neither a list nor false: there is no first item, or it is a character
          refine .inr (.inr ⟨fun hno => ?_, fun fields' items hf => ?_, ?_⟩)
          · rcases hno fields rfl with hfalse | ⟨rest, hrest⟩
            · rw [ht] at hfalse
              cases hfalse
            · rw [hp] at hrest
              cases hrest
          · cases hf
            rw [hp]
            exact fun hc => by cases hc
          · first
              | exact .inl ⟨_, rfl⟩
              | next s =>
                  cases s with
                  | nil => exact .inl ⟨_, rfl⟩
                  | cons c s => exact .inr ⟨c, rfl⟩
    · refine .inl ⟨fun fields' hf => ?_, if_neg ht⟩
      cases hf
      exact .inl (Bool.eq_false_iff.mpr ht)
  · refine .inl ⟨fun fields hf => absurd ⟨fields, hf⟩ hobj, ?_⟩
    exact firstPrice_of_not_obj fun fields hf => hobj ⟨fields, hf⟩

lemma validate_data {m : Moment F} {data : Json F}
    (hfetch : fetchHistoricalPrice m.validation = .data data) (entry : Json F) (v : Validator) :
    v.validate py m entry = (firstPrice py data).bind fun reference =>
      if reference.isNone then
        .ok { v with pace := v.pace.validated m, failed := v.failed + 1 }
      else ({ v with pace := v.pace.validated m } : Validator).compare py entry reference := by
  rw [Validator.validate, hfetch]
  rfl

/-- `_validate` gets through a proper answer, and raises on any other. -/
lemma validate_cases (m : Moment F) (entry : Json F) (v : Validator) :
    (∃ v', v.validate py m entry = .ok v' ∧ v'.pace = v.pace.validated m)
        ∧ Proper py entry m.validation
      ∨ (∃ e, v.validate py m entry = .error e) ∧ ¬ Proper py entry m.validation := by
  cases hfetch : fetchHistoricalPrice m.validation with
  | rateLimited =>
      refine .inl ⟨?_, fun data hdata => by rw [hfetch] at hdata; cases hdata⟩
      rw [Validator.validate, hfetch]
      exact ⟨_, rfl, rfl⟩
  | fetchError =>
      refine .inl ⟨?_, fun data hdata => by rw [hfetch] at hdata; cases hdata⟩
      rw [Validator.validate, hfetch]
      exact ⟨_, rfl, rfl⟩
  | data data =>
      have hproper : Proper py entry m.validation ↔ NoPrice py data
          ∨ ∃ fields first rest, data = .obj fields
            ∧ Json.field fields "prices" = .arr (first :: rest)
              ∧ ComparableEntries py entry first := by
        refine ⟨fun h => h data hfetch, fun h data' hdata => ?_⟩
        rw [hfetch] at hdata
        cases hdata
        exact h
      rw [hproper, validate_data hfetch]
      rcases firstPrice_cases py data with ⟨hno, hfirst⟩ |
        ⟨fields, item, rest, rfl, hp, hi, hfirst⟩ | ⟨hno, harr, hfirst⟩
      · rw [hfirst]
        exact .inl ⟨⟨_, rfl, rfl⟩, .inl hno⟩
      · rw [hfirst]
        have hcompare := compare_cases py entry item { v with pace := v.pace.validated m }
        have hbind : (Except.ok item : Except PyError (Json F)).bind (fun reference =>
            if reference.isNone then
              .ok { v with pace := v.pace.validated m, failed := v.failed + 1 }
            else ({ v with pace := v.pace.validated m } : Validator).compare py entry reference)
            = ({ v with pace := v.pace.validated m } : Validator).compare py entry item := by
          rw [Except.bind, hi]
          rfl
        rw [hbind]
        rcases hcompare with ⟨hok, hcmp⟩ | ⟨herr, hcmp⟩
        · exact .inl ⟨hok, .inr ⟨fields, item, rest, rfl, hp, hcmp⟩⟩
        · refine .inr ⟨herr, ?_⟩
          rintro (hno | ⟨fields', first, rest', hf, hp', hcmp'⟩)
          · rcases hno fields rfl with hfalse | ⟨rest', hrest⟩
            · rw [hp] at hfalse
              cases hfalse
            · rw [hp] at hrest
              cases hrest
              cases hi
          · cases hf
            rw [hp] at hp'
            cases hp'
            exact hcmp hcmp'
      · have hnot : ¬ (NoPrice py data ∨ ∃ fields first rest, data = .obj fields
            ∧ Json.field fields "prices" = .arr (first :: rest)
            ∧ ComparableEntries py entry first) := by
          rintro (h | ⟨fields, first, rest, hf, hp, -⟩)
          · exact hno h
          · exact harr fields _ hf hp
        rcases hfirst with ⟨e, hfirst⟩ | ⟨c, hfirst⟩
        · rw [hfirst]
          exact .inr ⟨⟨e, rfl⟩, hnot⟩
        · rw [hfirst]
          -- a character is not an object either
          rcases compare_cases py entry (.str [c]) { v with pace := v.pace.validated m } with
            ⟨-, own, first, -, hf, -⟩ | ⟨herr, -⟩
          · cases hf
          · exact .inr ⟨herr, hnot⟩

/-! ### One datapoint -/

/-- The pace behind a datapoint. -/
def Pace.observed (every : ℤ) (m : Moment F) (p : Pace) : Pace :=
  if (p.turn every m.observed).2 then (p.turn every m.observed).1.validated m
  else (p.turn every m.observed).1

variable (py) in
/-- `observe` raises on what is not proper when it validates, and never otherwise. -/
lemma observe_cases (every : ℤ) (m : Moment F) (entry : Json F) (v : Validator) :
    (∃ v', v.observe py every m entry = .ok v' ∧ v'.pace = v.pace.observed every m)
        ∧ ((v.pace.turn every m.observed).2 = true → Proper py entry m.validation)
      ∨ (∃ e, v.observe py every m entry = .error e)
        ∧ ¬ ((v.pace.turn every m.observed).2 = true → Proper py entry m.validation) := by
  rw [Validator.observe, Pace.observed]
  by_cases hturn : (v.pace.turn every m.observed).2 = true
  · simp only [hturn, if_true, forall_const]
    exact validate_cases m entry _
  · simp only [hturn, if_false, Bool.false_eq_true, false_imp_iff]
    exact .inl ⟨⟨_, rfl, rfl⟩, trivial⟩

namespace Backfill

variable (py) in
/-- The time of the entry can be read, or is absent. -/
def Takes (entry : Json F) : Prop :=
  ∃ fields, entry = .obj fields ∧ ((Json.field fields "time").isNone = true
    ∨ ∃ n, (Json.field fields "time").toInt py = .ok n)

/-- A row for a date that has none yet. -/
def addRow (row : ℤ × Option ℚ × Option ℚ) (s : Backfill) : Backfill :=
  if row.1 ∈ s.existingDates then s
  else { s with
    pendingRows := s.pendingRows ++ [⟨some row.1, row.2.1, row.2.2⟩]
    existingDates := insert row.1 s.existingDates }

variable (py) in
/-- What becomes of an entry depends on the entry alone. -/
lemma take_cases (entry : Json F) :
    (∃ e, ∀ s, take py entry s = .error e) ∧ ¬ Takes py entry
      ∨ ((∀ s, take py entry s = .ok s) ∨ ∃ row, ∀ s, take py entry s = .ok (s.addRow row))
        ∧ Takes py entry := by
  by_cases hobj : ∃ fields, entry = .obj fields
  · obtain ⟨fields, rfl⟩ := hobj
    have htake (s : Backfill) : take py (.obj fields) s
        = if (Json.field fields "time").isNone then .ok s
          else ((Json.field fields "time").toInt py).bind fun n =>
            .ok (s.addRow (n, py.column (Json.field fields "USD"),
              py.column (Json.field fields "EUR"))) := by
      refine if_congr Iff.rfl rfl ?_
      refine congrArg ((Json.field fields "time").toInt py).bind (funext fun n => ?_)
      rw [addRow]
      split_ifs <;> rfl
    simp only [htake]
    cases htime : (Json.field fields "time").isNone with
    | true => exact .inr ⟨.inl fun s => rfl, fields, rfl, .inl htime⟩
    | false =>
        cases hint : (Json.field fields "time").toInt py with
        | error e =>
            refine .inl ⟨⟨e, fun s => rfl⟩, ?_⟩
            rintro ⟨fields', hf, hnone | ⟨n, hn⟩⟩
            · cases hf
              rw [htime] at hnone
              cases hnone
            · cases hf
              rw [hint] at hn
              cases hn
        | ok n => exact .inr ⟨.inr ⟨_, fun s => rfl⟩, fields, rfl, .inr ⟨n, hint⟩⟩
  · refine .inl ⟨⟨.attributeError, fun s => ?_⟩, fun ⟨fields, hf, _⟩ => hobj ⟨fields, hf⟩⟩
    show (entry.get "time").bind _ = _
    rw [get_of_not_obj fun fields hf => hobj ⟨fields, hf⟩]
    rfl

@[simp] lemma addRow_nextTimestamp (row : ℤ × Option ℚ × Option ℚ) (s : Backfill) :
    (s.addRow row).nextTimestamp = s.nextTimestamp := by
  rw [addRow]
  split_ifs <;> rfl

@[simp] lemma addRow_validator (row : ℤ × Option ℚ × Option ℚ) (s : Backfill) :
    (s.addRow row).validator = s.validator := by
  rw [addRow]
  split_ifs <;> rfl

@[simp] lemma advance_nextTimestamp (start : ℤ) (flushDue : Bool) (s : Backfill) :
    (s.advance start flushDue).nextTimestamp = s.nextTimestamp + stepSeconds := by
  simp only [advance]
  split_ifs <;> rfl

@[simp] lemma advance_validator (start : ℤ) (flushDue : Bool) (s : Backfill) :
    (s.advance start flushDue).validator = s.validator := by
  simp only [advance]
  split_ifs <;> rfl

section Iterate

variable {response : HttpResponse F} {entry : Json F} (every start : ℤ) (m : Moment F)
  (s : Backfill)

lemma iterate_stop {stop : Stop} (h : entryOf py response = .error stop) :
    iterate py every start response m s = .error stop := by
  show (entryOf py response).bind _ = _
  rw [h]
  rfl

lemma iterate_none (h : entryOf py response = .ok entry) (hn : entry.isNone = true) :
    iterate py every start response m s = .ok (s.advance start m.flushDue) := by
  show (entryOf py response).bind _ = _
  rw [h]
  show (if entry.isNone = true then _ else _) = _
  rw [if_pos hn]
  rfl

lemma iterate_some (h : entryOf py response = .ok entry) (hn : entry.isNone = false) :
    iterate py every start response m s
      = ((s.validator.observe py every m entry).mapError .observeRaised).bind fun validator =>
        ((take py entry { s with validator := validator }).mapError .raised).bind fun s =>
          .ok (s.advance start m.flushDue) := by
  show (entryOf py response).bind _ = _
  rw [h]
  show (if entry.isNone = true then _ else _) = _
  rw [if_neg (Bool.not_eq_true _ ▸ hn)]
  rfl

variable {every m s}

lemma iterate_observeRaised (h : entryOf py response = .ok entry) (hn : entry.isNone = false)
    {e : PyError} (he : s.validator.observe py every m entry = .error e) :
    iterate py every start response m s = .error (.observeRaised e) := by
  rw [iterate_some _ _ _ _ h hn, he]
  rfl

lemma iterate_raised (h : entryOf py response = .ok entry) (hn : entry.isNone = false)
    {v : Validator} (hv : s.validator.observe py every m entry = .ok v) {e : PyError}
    (he : take py entry { s with validator := v } = .error e) :
    iterate py every start response m s = .error (.raised e) := by
  rw [iterate_some _ _ _ _ h hn, hv]
  show ((take py entry { s with validator := v }).mapError Stop.raised).bind _ = _
  rw [he]
  rfl

lemma iterate_taken (h : entryOf py response = .ok entry) (hn : entry.isNone = false)
    {v : Validator} (hv : s.validator.observe py every m entry = .ok v) {t : Backfill}
    (ht : take py entry { s with validator := v } = .ok t) :
    iterate py every start response m s = .ok (t.advance start m.flushDue) := by
  rw [iterate_some _ _ _ _ h hn, hv]
  show ((take py entry { s with validator := v }).mapError Stop.raised).bind _ = _
  rw [ht]
  rfl

lemma entryOf_ne_observeRaised {stop : Stop} (h : entryOf py response = .error stop)
    (e : PyError) : stop ≠ .observeRaised e := by
  rintro rfl
  rw [entryOf] at h
  cases hf : fetchHistoricalPrice response with
  | rateLimited => simp [hf] at h
  | fetchError => simp [hf] at h
  | data data =>
      rw [hf] at h
      cases hp : firstPrice py data with
      | ok item => simp [hp, Except.mapError] at h
      | error e => simp [hp, Except.mapError] at h

variable (py) in
/-- What an iteration comes to. -/
lemma iterate_cases (every start : ℤ) (response : HttpResponse F) (m : Moment F) (s : Backfill) :
    (∃ stop, stop ≠ .complete ∧ iterate py every start response m s = .error stop)
      ∨ ∃ v, ∃ t : Backfill, iterate py every start response m s = .ok (t.advance start m.flushDue)
        ∧ (t = { s with validator := v } ∨ ∃ row, t = { s with validator := v }.addRow row) := by
  cases hentry : entryOf py response with
  | error stop =>
      refine .inl ⟨stop, ?_, iterate_stop _ _ _ _ hentry⟩
      rintro rfl
      rw [entryOf] at hentry
      cases hf : fetchHistoricalPrice response with
      | rateLimited => simp [hf] at hentry
      | fetchError => simp [hf] at hentry
      | data data => cases hp : firstPrice py data <;> simp [hf, hp, Except.mapError] at hentry
  | ok entry =>
      cases hn : entry.isNone with
      | true => exact .inr ⟨s.validator, s, iterate_none _ _ _ _ hentry hn, .inl rfl⟩
      | false =>
          cases hv : s.validator.observe py every m entry with
          | error e => exact .inl ⟨_, by simp, iterate_observeRaised start hentry hn hv⟩
          | ok v =>
              rcases take_cases py entry with ⟨⟨e, he⟩, -⟩ | ⟨htake | ⟨row, htake⟩, -⟩
              · exact .inl ⟨_, by simp, iterate_raised start hentry hn hv (he _)⟩
              · exact .inr ⟨v, _, iterate_taken start hentry hn hv (htake _), .inl rfl⟩
              · exact .inr ⟨v, _, iterate_taken start hentry hn hv (htake _), .inr ⟨row, rfl⟩⟩

lemma iterate_ne_complete : iterate py every start response m s ≠ .error .complete := by
  rcases iterate_cases py every start response m s with ⟨stop, hne, he⟩ | ⟨v, t, he, -⟩
  · rw [he]
    exact fun h => hne (Except.error.inj h)
  · rw [he]
    exact fun h => by cases h

lemma nextTimestamp_of_iterate {t : Backfill} (h : iterate py every start response m s = .ok t) :
    t.nextTimestamp = s.nextTimestamp + stepSeconds := by
  rcases iterate_cases py every start response m s with ⟨stop, -, he⟩ | ⟨v, t', he, ht'⟩
  · rw [he] at h
    cases h
  · rw [he] at h
    cases h
    rw [advance_nextTimestamp]
    rcases ht' with rfl | ⟨row, rfl⟩
    · rfl
    · rw [addRow_nextTimestamp]

end Iterate

/-! ### Whole calls -/

section Loop

variable (py) (every start endTimestamp : ℤ) (source : ℕ → HttpResponse F)

/-- Each validation from the `i`-th request on meets a proper answer. -/
def Harmless (moment : ℕ → Moment F) : ℕ → ℕ → ℤ → Pace → Prop
  | 0, _, _, _ => True
  | n + 1, i, next, p =>
      next ≤ endTimestamp → ∀ entry, entryOf py (source i) = .ok entry →
        (entry.isNone = true → Harmless moment n (i + 1) (next + stepSeconds) p)
        ∧ (entry.isNone = false →
          ((p.turn every (moment i).observed).2 = true → Proper py entry (moment i).validation)
          ∧ (Takes py entry →
            Harmless moment n (i + 1) (next + stepSeconds) (p.observed every (moment i))))

variable {py every start endTimestamp source}

/-- No exception comes out of `observe` if and only if every validation is harmless. -/
lemma harmless_iff (moment : ℕ → Moment F) (n i : ℕ) (s : Backfill) :
    Harmless py every endTimestamp source moment n i s.nextTimestamp s.validator.pace
      ↔ ∀ e, (loop py every start endTimestamp source moment n i s).2 ≠ .observeRaised e := by
  induction n generalizing i s with
  | zero => exact iff_of_true trivial fun e h => by cases h
  | succ n ih =>
      rw [Harmless, loop]
      by_cases hnext : s.nextTimestamp ≤ endTimestamp
      swap
      · rw [if_neg hnext]
        exact iff_of_true (fun h => absurd h hnext) fun e h => by cases h
      rw [if_pos hnext, forall_prop_of_true hnext]
      cases hentry : entryOf py (source i) with
      | error stop =>
          rw [iterate_stop _ _ _ _ hentry]
          refine iff_of_true (fun entry h => by cases h) fun e => ?_
          exact entryOf_ne_observeRaised hentry e
      | ok entry =>
          simp only [Except.ok.injEq, forall_eq']
          cases hn : entry.isNone with
          | true =>
              rw [iterate_none _ _ _ _ hentry hn]
              simp only [forall_const, reduceCtorEq, false_imp_iff, and_true]
              have hih := ih (i + 1) (s.advance start (moment i).flushDue)
              rwa [advance_nextTimestamp, advance_validator] at hih
          | false =>
              simp only [reduceCtorEq, false_imp_iff, true_and, forall_const]
              rcases observe_cases py every (moment i) entry s.validator with
                ⟨⟨v, hv, hpace⟩, hproper⟩ | ⟨⟨e, he⟩, hproper⟩
              · refine (and_iff_right hproper).trans ?_
                rcases take_cases py entry with ⟨⟨e, he⟩, hnot⟩ | ⟨htake, htakes⟩
                · rw [iterate_raised start hentry hn hv (he _)]
                  exact iff_of_true (fun h => absurd h hnot) fun e' h => by cases h
                · obtain ⟨t, ht, hnextt, hvt⟩ : ∃ t : Backfill,
                      take py entry { s with validator := v } = .ok t
                        ∧ t.nextTimestamp = s.nextTimestamp ∧ t.validator = v := by
                    rcases htake with htake | ⟨row, htake⟩
                    · exact ⟨_, htake _, rfl, rfl⟩
                    · exact ⟨_, htake _, addRow_nextTimestamp _ _, addRow_validator _ _⟩
                  have hih := ih (i + 1) (t.advance start (moment i).flushDue)
                  rw [advance_nextTimestamp, advance_validator, hnextt, hvt, hpace] at hih
                  rw [iterate_taken start hentry hn hv ht, forall_prop_of_true htakes]
                  exact hih
              · rw [iterate_observeRaised start hentry hn he]
                exact iff_of_false (fun h => hproper h.1) fun h => h e rfl

/-- Two calls after the same number of requests. -/
structure Same (s s' : Backfill) : Prop where
  next : s.nextTimestamp = s'.nextTimestamp
  dates : s.existingDates = s'.existingDates
  rows : s.disk.prices ++ s.pendingRows = s'.disk.prices ++ s'.pendingRows

/-- When either of them flushes makes no difference. -/
lemma Same.advance {s s' : Backfill} (h : Same s s') (flushDue flushDue' : Bool) :
    Same (s.advance start flushDue) (s'.advance start flushDue') := by
  have hrows (s : Backfill) (flushDue : Bool) :
      (s.advance start flushDue).disk.prices ++ (s.advance start flushDue).pendingRows
        = s.disk.prices ++ s.pendingRows := by
    simp only [Backfill.advance]
    split_ifs
    · exact List.append_nil _
    · rfl
  have hdates (s : Backfill) (flushDue : Bool) :
      (s.advance start flushDue).existingDates = s.existingDates := by
    simp only [Backfill.advance]
    split_ifs <;> rfl
  refine ⟨?_, ?_, ?_⟩
  · rw [advance_nextTimestamp, advance_nextTimestamp, h.next]
  · rw [hdates, hdates, h.dates]
  · rw [hrows, hrows, h.rows]

lemma Same.addRow {s s' : Backfill} (h : Same s s') (row : ℤ × Option ℚ × Option ℚ) :
    Same (s.addRow row) (s'.addRow row) := by
  rw [Backfill.addRow, Backfill.addRow, h.dates]
  split_ifs
  · exact h
  · refine ⟨h.next, rfl, ?_⟩
    show s.disk.prices ++ (s.pendingRows ++ _) = s'.disk.prices ++ (s'.pendingRows ++ _)
    rw [← List.append_assoc, h.rows, List.append_assoc]

lemma Same.withValidator {s s' : Backfill} (h : Same s s') (v v' : Validator) :
    Same { s with validator := v } { s' with validator := v' } := ⟨h.next, h.dates, h.rows⟩

/-- Two calls whose validators do not raise go on alike. -/
lemma loop_same {moment moment' : ℕ → Moment F} (n i : ℕ) {s s' : Backfill} (h : Same s s')
    (hs : ∀ e, (loop py every start endTimestamp source moment n i s).2 ≠ .observeRaised e)
    (hs' : ∀ e, (loop py every start endTimestamp source moment' n i s').2 ≠ .observeRaised e) :
    Same (loop py every start endTimestamp source moment n i s).1
        (loop py every start endTimestamp source moment' n i s').1
      ∧ (loop py every start endTimestamp source moment n i s).2
        = (loop py every start endTimestamp source moment' n i s').2 := by
  induction n generalizing i s s' with
  | zero => exact ⟨h, rfl⟩
  | succ n ih =>
      rw [loop] at hs hs' ⊢
      rw [loop]
      rw [← h.next] at hs' ⊢
      split_ifs at hs hs' ⊢ with hnext
      swap
      · exact ⟨h, rfl⟩
      -- what the data source answers does not depend on the validation
      cases hentry : entryOf py (source i) with
      | error stop =>
          rw [iterate_stop _ _ _ _ hentry, iterate_stop _ _ _ _ hentry]
          exact ⟨h, rfl⟩
      | ok entry =>
          cases hn : entry.isNone with
          | true =>
              rw [iterate_none _ _ _ _ hentry hn] at hs hs' ⊢
              rw [iterate_none _ _ _ _ hentry hn]
              exact ih (i + 1) (h.advance _ _) hs hs'
          | false =>
              cases hv : s.validator.observe py every (moment i) entry with
              -- `observe` does not raise in either of the two
              | error e =>
                  rw [iterate_observeRaised start hentry hn hv] at hs
                  exact absurd rfl (hs e)
              | ok v =>
                  cases hv' : s'.validator.observe py every (moment' i) entry with
                  | error e =>
                      rw [iterate_observeRaised start hentry hn hv'] at hs'
                      exact absurd rfl (hs' e)
                  | ok v' =>
                      rcases take_cases py entry with ⟨⟨e, he⟩, -⟩ | ⟨htake | ⟨row, htake⟩, -⟩
                      · rw [iterate_raised start hentry hn hv (he _),
                          iterate_raised start hentry hn hv' (he _)]
                        exact ⟨h, rfl⟩
                      · rw [iterate_taken start hentry hn hv (htake _)] at hs ⊢
                        rw [iterate_taken start hentry hn hv' (htake _)] at hs' ⊢
                        exact ih (i + 1) ((h.withValidator v v').advance _ _) hs hs'
                      · rw [iterate_taken start hentry hn hv (htake _)] at hs ⊢
                        rw [iterate_taken start hentry hn hv' (htake _)] at hs' ⊢
                        exact ih (i + 1) (((h.withValidator v v').addRow row).advance _ _) hs hs'

/-- What the last flush leaves. -/
lemma Same.finished {s s' : Backfill} (h : Same s s') (stop : Stop) :
    finished start (s, stop) = finished start (s', stop) := by
  have hdisk : (s.flush start).disk = (s'.flush start).disk := by
    show (⟨s.disk.prices ++ s.pendingRows, some ⟨start, s.nextTimestamp⟩⟩ : Disk)
      = ⟨s'.disk.prices ++ s'.pendingRows, some ⟨start, s'.nextTimestamp⟩⟩
    rw [h.rows, h.next]
  rw [Backfill.finished, Backfill.finished, hdisk]

lemma finished_observeRaised (r : Backfill × Stop) :
    (finished start r).observeRaised = false ↔ ∀ e, r.2 ≠ .observeRaised e := by
  obtain ⟨s, stop⟩ := r
  cases stop with
  | observeRaised e => exact iff_of_false (fun h => by cases h) fun h => h e rfl
  | _ => exact iff_of_true rfl fun e h => by cases h

/-- `total_steps` is enough for the loop to come to its end. -/
lemma complete_of_loop (moment : ℕ → Moment F) {n : ℕ} (i : ℕ) {s : Backfill}
    (hn : totalSteps s.nextTimestamp endTimestamp ≤ n)
    (hs : (loop py every start endTimestamp source moment n i s).2 = .complete) :
    endTimestamp < (loop py every start endTimestamp source moment n i s).1.nextTimestamp := by
  induction n generalizing i s with
  | zero =>
      rw [totalSteps, stepSeconds] at hn
      show endTimestamp < s.nextTimestamp
      omega
  | succ n ih =>
      rw [loop] at hs ⊢
      split_ifs at hs ⊢ with hnext
      swap
      · exact not_le.mp hnext
      cases hiter : iterate py every start (source i) (moment i) s with
      | error stop =>
          rw [hiter] at hs
          obtain rfl : stop = .complete := hs
          exact absurd hiter (iterate_ne_complete start)
      | ok t =>
          rw [hiter] at hs
          refine ih (i + 1) ?_ hs
          rw [nextTimestamp_of_iterate start hiter]
          rw [totalSteps, stepSeconds] at hn ⊢
          omega

end Loop

variable (py) in
/-- Each validation of a call that gets to its loop meets a proper answer. -/
def HarmlessCall (args : Arguments) (source : ℕ → HttpResponse F) (moment : ℕ → Moment F)
    (d : Disk) : Prop :=
  args.startTimestamp ≤ args.endTimestamp →
    loadCheckpoint d args.startTimestamp ≤ args.endTimestamp →
    (Prices.existingDates d.prices).isSome = true →
    Harmless py args.validateEvery args.endTimestamp source moment
      (totalSteps (loadCheckpoint d args.startTimestamp) args.endTimestamp) 0
      (loadCheckpoint d args.startTimestamp) Validator.new.pace

/-- A call ends before its loop, or with it. -/
lemma call_cases (py : Floats F) (args : Arguments) (source : ℕ → HttpResponse F) (d : Disk) :
    (∃ r : Ended, r.observeRaised = false ∧ ∀ moment, call py args source moment d = r
        ∧ HarmlessCall py args source moment d)
      ∨ ∃ s n, ∀ moment, call py args source moment d
          = finished args.startTimestamp (loop py args.validateEvery args.startTimestamp
            args.endTimestamp source moment n 0 s)
        ∧ (HarmlessCall py args source moment d ↔ Harmless py args.validateEvery
          args.endTimestamp source moment n 0 s.nextTimestamp s.validator.pace) := by
  by_cases horder : args.endTimestamp < args.startTimestamp
  · exact .inl ⟨⟨d, .code 1, false⟩, rfl, fun moment => ⟨if_pos horder, fun h => by omega⟩⟩
  by_cases hpast : args.endTimestamp < loadCheckpoint d args.startTimestamp
  · refine .inl ⟨⟨d, .code 0, false⟩, rfl, fun moment => ⟨?_, fun _ h => by omega⟩⟩
    rw [call, if_neg horder]
    exact if_pos hpast
  cases hdates : Prices.existingDates d.prices with
  | none =>
      refine .inl ⟨⟨d, .raised, false⟩, rfl, fun moment => ⟨?_, fun _ _ h => ?_⟩⟩
      · rw [call, if_neg horder]
        simp only [if_neg hpast, hdates]
      · rw [hdates] at h
        cases h
  | some dates =>
      refine .inr ⟨opened d (loadCheckpoint d args.startTimestamp) dates,
        totalSteps (loadCheckpoint d args.startTimestamp) args.endTimestamp, fun moment => ⟨?_, ?_⟩⟩
      · rw [call, if_neg horder]
        simp only [if_neg hpast, hdates]
      · rw [HarmlessCall, forall_prop_of_true (not_lt.mp horder),
          forall_prop_of_true (not_lt.mp hpast), hdates]
        exact forall_prop_of_true rfl

/-- **Validation and the backfill**: in two calls with the same arguments, files and answers of
the data source no exception comes out of `observe`, and both end with the same files in the same
way, if and only if each validation of either call meets a proper answer. -/
theorem validation_iff (py : Floats F) (args : Arguments) (source : ℕ → HttpResponse F)
    (moment moment' : ℕ → Moment F) (d : Disk) :
    ((call py args source moment d).observeRaised = false
        ∧ (call py args source moment' d).observeRaised = false
        ∧ (call py args source moment d).disk = (call py args source moment' d).disk
        ∧ (call py args source moment d).exit = (call py args source moment' d).exit)
      ↔ HarmlessCall py args source moment d ∧ HarmlessCall py args source moment' d := by
  rcases call_cases py args source d with ⟨r, hr, hcall⟩ | ⟨s, n, hcall⟩
  · rw [(hcall moment).1, (hcall moment').1]
    exact iff_of_true ⟨hr, hr, rfl, rfl⟩ ⟨(hcall moment).2, (hcall moment').2⟩
  · rw [(hcall moment).1, (hcall moment').1, (hcall moment).2, (hcall moment').2,
      finished_observeRaised, finished_observeRaised, harmless_iff, harmless_iff]
    refine ⟨fun h => ⟨h.1, h.2.1⟩, fun ⟨hs, hs'⟩ => ⟨hs, hs', ?_⟩⟩
    obtain ⟨hsame, hstop⟩ := loop_same n 0 (⟨rfl, rfl, rfl⟩ : Same s s) hs hs'
    have hfinished : finished args.startTimestamp (loop py args.validateEvery args.startTimestamp
        args.endTimestamp source moment n 0 s) = finished args.startTimestamp (loop py
        args.validateEvery args.startTimestamp args.endTimestamp source moment' n 0 s) := by
      refine (hsame.finished _).trans ?_
      rw [hstop]
    rw [hfinished]
    exact ⟨rfl, rfl⟩

/-! ### The same call, statement by statement -/

/-- A step of a call as the machine takes it. -/
def ActStep (p q : Disk × Outcome) : Prop := ∃ r a, p.2 = .running r ∧ q = r.act p.1 a

/-- The variables of the machine. -/
def running (start endTimestamp : ℤ) (pc : Pc) (s : Backfill) : Disk × Outcome :=
  (s.disk, .running ⟨start, endTimestamp, s.nextTimestamp, s.existingDates, s.pendingRows,
    s.stepsSinceFlush, pc⟩)

section Path

open Relation

variable {start endTimestamp : ℤ} {s : Backfill}

lemma actStep_go (answer : Answer) (elapsed : Bool) {d : Disk} {r : Run} {q : Disk × Outcome}
    (h : r.go answer elapsed d = q) : ActStep (d, .running r) q :=
  ⟨r, .go answer elapsed, rfl, h.symm⟩

/-- The three statements of a flush. -/
lemma path_flush :
    ReflTransGen ActStep (running start endTimestamp (.flush .write) s)
      (running start endTimestamp .head (s.flush start)) :=
  .head (actStep_go .fetchError false rfl) <| .head (actStep_go .fetchError false rfl) <|
    .single (actStep_go .fetchError false rfl)

lemma path_final (exit : Exit) :
    ReflTransGen ActStep (running start endTimestamp (.final .write exit) s)
      ((s.flush start).disk, .ended exit) :=
  .head (actStep_go .fetchError false rfl) <| .head (actStep_go .fetchError false rfl) <|
    .single (actStep_go .fetchError false rfl)

lemma path_advance (flushDue : Bool) :
    ReflTransGen ActStep (running start endTimestamp .advance s)
      (running start endTimestamp .head (s.advance start flushDue)) := by
  let t : Backfill := { s with
    nextTimestamp := s.nextTimestamp + stepSeconds
    stepsSinceFlush := s.stepsSinceFlush + 1 }
  have hcount : ActStep (running start endTimestamp .advance s)
      (running start endTimestamp .advanced t) := actStep_go .fetchError false rfl
  refine .head hcount ?_
  rw [advance]
  by_cases hflush : flushEverySteps ≤ t.stepsSinceFlush ∨ flushDue = true
  · have hdue : ActStep (running start endTimestamp .advanced t)
        (running start endTimestamp (.flush .write) t) :=
      actStep_go .fetchError flushDue (if_pos hflush)
    rw [if_pos hflush]
    exact .head hdue path_flush
  · rw [if_neg hflush]
    exact .single (actStep_go .fetchError flushDue (if_neg hflush))

/-- An iteration is a path of the machine from the test of the loop to the test of the loop. -/
lemma path_iterate {every : ℤ} {response : HttpResponse F} {m : Moment F} {t : Backfill}
    (hnext : s.nextTimestamp ≤ endTimestamp)
    (h : iterate py every start response m s = .ok t) :
    ReflTransGen ActStep (running start endTimestamp .head s)
      (running start endTimestamp .head t) := by
  rcases iterate_cases py every start response m s with ⟨stop, -, he⟩ | ⟨v, t', he, ht'⟩
  · rw [he] at h
    cases h
  rw [he] at h
  cases h
  let u : Backfill := { s with validator := v }
  rcases ht' with rfl | ⟨row, rfl⟩
  · have hskip : ActStep (running start endTimestamp .head s)
        (running start endTimestamp .advance u) := actStep_go (.price none) false (if_pos hnext)
    exact .head hskip (path_advance m.flushDue)
  · let e : PriceEntry := ⟨some row.1, row.2.1, row.2.2⟩
    have hentry : ActStep (running start endTimestamp .head s)
        (running start endTimestamp (.entry e) u) :=
      actStep_go (.price (some e)) false (if_pos hnext)
    refine .head hentry ?_
    rw [addRow]
    by_cases hdate : row.1 ∈ u.existingDates
    · have hknown : ActStep (running start endTimestamp (.entry e) u)
          (running start endTimestamp .advance u) := actStep_go .fetchError false (if_pos hdate)
      rw [if_pos hdate]
      exact .head hknown (path_advance m.flushDue)
    · have hnew : ActStep (running start endTimestamp (.entry e) u)
          (running start endTimestamp (.added row.1)
            { u with pendingRows := u.pendingRows ++ [⟨some row.1, row.2.1, row.2.2⟩] }) :=
        actStep_go .fetchError false (if_neg hdate)
      rw [if_neg hdate]
      refine .head hnew (.head (b := running start endTimestamp .advance { u with
        pendingRows := u.pendingRows ++ [⟨some row.1, row.2.1, row.2.2⟩]
        existingDates := insert row.1 u.existingDates }) ?_ (path_advance m.flushDue))
      exact actStep_go .fetchError false rfl

/-- What ends an iteration ends the loop of the machine, an exception as a signal does. -/
lemma path_stop {stop : Stop} (hnext : s.nextTimestamp ≤ endTimestamp) (hstop : stop ≠ .complete) :
    ReflTransGen ActStep (running start endTimestamp .head s)
      ((s.flush start).disk, .ended stop.exit) := by
  refine .head (b := running start endTimestamp (.final .write stop.exit) s) ?_ (path_final _)
  cases stop with
  | complete => exact absurd rfl hstop
  | rateLimited => exact actStep_go .rateLimited false (if_pos hnext)
  | fetchError => exact actStep_go .fetchError false (if_pos hnext)
  | raised e => exact ⟨_, .interrupt, rfl, rfl⟩
  | observeRaised e => exact ⟨_, .interrupt, rfl, rfl⟩

lemma path_loop {every : ℤ} {source : ℕ → HttpResponse F} {moment : ℕ → Moment F} (n i : ℕ)
    (hn : totalSteps s.nextTimestamp endTimestamp ≤ n) :
    ReflTransGen ActStep (running start endTimestamp .head s)
      (((loop py every start endTimestamp source moment n i s).1.flush start).disk,
        .ended (loop py every start endTimestamp source moment n i s).2.exit) := by
  have hpast {t : Backfill} (ht : ¬ t.nextTimestamp ≤ endTimestamp) :
      ReflTransGen ActStep (running start endTimestamp .head t)
        ((t.flush start).disk, .ended (.code 0)) :=
    .head (actStep_go .fetchError false (if_neg ht)) (path_final _)
  induction n generalizing i s with
  | zero =>
      refine hpast fun hle => ?_
      rw [totalSteps, stepSeconds] at hn
      omega
  | succ n ih =>
      rw [loop]
      split_ifs with hnext
      swap
      · exact hpast hnext
      cases hiter : iterate py every start (source i) (moment i) s with
      | error stop =>
          refine path_stop hnext ?_
          rintro rfl
          exact iterate_ne_complete start hiter
      | ok t =>
          refine (path_iterate hnext hiter).trans (ih (i + 1) ?_)
          rw [nextTimestamp_of_iterate start hiter]
          rw [totalSteps, stepSeconds] at hn ⊢
          omega

/-- **A call** with a validator is a run of the machine of `run_backfill`, which has none. -/
theorem call_is_run (py : Floats F) (args : Arguments) (source : ℕ → HttpResponse F)
    (moment : ℕ → Moment F) (d : Disk) :
    ReflTransGen ActStep (d, .running (.call args.startTimestamp args.endTimestamp))
      ((call py args source moment d).disk, .ended (call py args source moment d).exit) := by
  simp only [call]
  by_cases horder : args.endTimestamp < args.startTimestamp
  · rw [if_pos horder]
    exact .single (actStep_go .fetchError false (if_pos horder))
  rw [if_neg horder]
  by_cases hpast : args.endTimestamp < loadCheckpoint d args.startTimestamp
  · rw [if_pos hpast]
    exact .single (actStep_go .fetchError false ((if_neg horder).trans (if_pos hpast)))
  rw [if_neg hpast]
  have hloaded : ActStep (d, .running (.call args.startTimestamp args.endTimestamp))
      (running args.startTimestamp args.endTimestamp .loaded
        (opened d (loadCheckpoint d args.startTimestamp) ∅)) :=
    actStep_go .fetchError false ((if_neg horder).trans (if_neg hpast))
  refine .head hloaded ?_
  cases hdates : Prices.existingDates d.prices with
  | none =>
      refine .single (actStep_go .fetchError false ?_)
      simp only [Run.go, opened, hdates]
  | some dates =>
      have hopened : ActStep (running args.startTimestamp args.endTimestamp .loaded
            (opened d (loadCheckpoint d args.startTimestamp) ∅))
          (running args.startTimestamp args.endTimestamp .head
            (opened d (loadCheckpoint d args.startTimestamp) dates)) := by
        refine actStep_go .fetchError false ?_
        simp only [Run.go, opened, hdates]
        rfl
      exact .head hopened (path_loop _ 0 le_rfl)

end Path

/-- A server that answers with a number where the list of prices should be. -/
def brokenMoment : Moment ℚ :=
  ⟨0, 0, 0, .response 200 (some (.obj [("prices", .int 5)])), false⟩

/-- A server that does not know the path. -/
def missingMoment : Moment ℚ := ⟨0, 0, 0, .response 404 none, false⟩

/-- Exact floats; the columns take integers. -/
def exactFloats : Floats ℚ where
  ofInt n := some n
  ofBool b := if b then 1 else 0
  ofStr _ := none
  isZero x := x = 0
  percent value reference := (value - reference) / reference * 100
  exceeds x := 2 < |x|
  toInt x := .ok ⌊x⌋
  intOfStr _ := none
  column value := match value with
    | .int n => some n
    | _ => none

/-- One minute, whose price the source has. -/
def oneMinute : ℕ → HttpResponse ℚ := fun _ =>
  .response 200 (some (.obj [("prices", .arr [.obj [("time", .int 60), ("USD", .int 3)]])]))

/-- The row of the minute is lost when the validation server answers with a number. -/
theorem validation_brokenServer :
    (call exactFloats ⟨60, 60, 1⟩ oneMinute (fun _ => brokenMoment) ⟨[], none⟩).observeRaised = true
      ∧ (call exactFloats ⟨60, 60, 1⟩ oneMinute (fun _ => brokenMoment) ⟨[], none⟩).disk
        = ⟨[], some ⟨60, 60⟩⟩
      ∧ (call exactFloats ⟨60, 60, 1⟩ oneMinute (fun _ => brokenMoment) ⟨[], none⟩).exit = .raised
      ∧ (call exactFloats ⟨60, 60, 1⟩ oneMinute (fun _ => missingMoment) ⟨[], none⟩).disk
        = ⟨[⟨some 60, some 3, none⟩], some ⟨60, 120⟩⟩
      ∧ (call exactFloats ⟨60, 60, 1⟩ oneMinute (fun _ => missingMoment) ⟨[], none⟩).exit
        = .code 0 :=
  ⟨rfl, rfl, rfl, rfl, rfl⟩

end Backfill

end BtcParser.Prices
