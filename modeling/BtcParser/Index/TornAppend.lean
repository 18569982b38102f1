import BtcParser.Rpc.IndexText

/-!
Crashes in the middle of an append to `index.csv`.

* `loadPart_rows`: the rows of whole lines are read back.
* `Mended`: the parts that are read in spite of what a crash has left at their end.
* `append_done`, `append_cut`: what an append makes of such parts, and what a crash in it does.
* `torn_appends`: every load of a history succeeds, and finds the rows whose lines are complete.
-/

namespace BtcParser.IndexText

open Csv

/-! ### Rows that fit into their columns -/

/-- The characters of a hash. -/
def Hex (cs : List Char) : Prop := cs ≠ [] ∧ ∀ c ∈ cs, (hexValue c).isSome = true

/-- A row as `add` stages it. -/
structure Fits (r : Row) : Prop where
  height : -2 ^ 63 ≤ r.height ∧ r.height < 2 ^ 63
  schemaVersion : r.schemaVersion < 2 ^ 63
  blockhash : Hex r.blockhash
  previousblockhash : ∀ p, r.previousblockhash = some p → Hex p

lemma Hex.not_special {cs : List Char} (h : Hex cs) : ∀ c ∈ cs, ¬ Special c := by
  rintro c hc (rfl | rfl | rfl) <;> exact absurd (h.2 _ hc) (by decide)

lemma mem_decimal {z : ℤ} {c : Char} (hc : c ∈ decimal z) : c = '-' ∨ c.isDigit = true := by
  rw [decimal] at hc
  split_ifs at hc
  · rcases List.mem_cons.mp hc with h | h
    · exact .inl h
    · exact .inr (Nat.isDigit_of_mem_toDigits (by decide) (by decide) h)
  · exact .inr (Nat.isDigit_of_mem_toDigits (by decide) (by decide) hc)

lemma decimal_not_special (z : ℤ) : ∀ c ∈ decimal z, ¬ Special c := by
  rintro c hc (rfl | rfl | rfl) <;> exact absurd (mem_decimal hc) (by decide)

lemma decimal_ne_nil (z : ℤ) : decimal z ≠ [] := by
  rw [decimal]
  split_ifs
  · exact List.cons_ne_nil _ _
  · exact Nat.toDigits_ne_nil

lemma parseDigits_toDigits (n : ℕ) : parseDigits (Nat.toDigits 10 n) = some n := by
  have hall : (Nat.toDigits 10 n).all Char.isDigit = true :=
    List.all_eq_true.mpr fun c hc => Nat.isDigit_of_mem_toDigits (by decide) (by decide) hc
  rw [parseDigits, if_pos ⟨Nat.toDigits_ne_nil, hall⟩, Nat.ofDigitChars_ten_toDigits]

/-- A number of 64 bits is read back from its text. -/
lemma parseInt64_decimal {z : ℤ} (h : -2 ^ 63 ≤ z ∧ z < 2 ^ 63) :
    parseInt64 (decimal z) = some z := by
  have hread : (if (decimal z).head? = some '-'
      then (parseDigits (decimal z).tail).map fun n : ℕ => -(n : ℤ)
      else (parseDigits (decimal z)).map fun n : ℕ => (n : ℤ)) = some z := by
    rw [decimal]
    split_ifs with hz hminus hminus
    · rw [List.tail_cons, parseDigits_toDigits, Option.map_some]
      exact congrArg some (by omega)
    · exact absurd rfl hminus
    · have hmem := List.mem_of_mem_head? hminus
      exact absurd (Nat.isDigit_of_mem_toDigits (by decide) (by decide) hmem) (by decide)
    · rw [parseDigits_toDigits, Option.map_some]
      exact congrArg some (by omega)
  rw [parseInt64, hread]
  exact Option.filter_eq_some_iff.mpr ⟨rfl, by simpa using h⟩

/-! ### The lines of rows -/

/-- The fields of a row. -/
def rowFields (r : Row) : List (List Char) :=
  [decimal r.height, r.blockhash, r.previousblockhash.getD [], decimal r.schemaVersion]

/-- The text of rows with its header, as records. -/
lemma headerText_append (rows : List Row) :
    headerText ++ rowsText rows = (columnNames :: rows.map rowFields).flatMap renderRecord := by
  rw [List.flatMap_cons, List.flatMap_map]
  rfl

lemma records_ne_nil (rows : List Row) : ∀ fs ∈ columnNames :: rows.map rowFields, fs ≠ [] := by
  intro fs hfs
  rcases List.mem_cons.mp hfs with rfl | hfs
  · decide
  · obtain ⟨r, -, rfl⟩ := List.mem_map.mp hfs
    exact List.cons_ne_nil _ _

/-- What `read_csv` makes of the fields of rows. -/
def frameOf (rows : List Row) : Frame := ⟨columnNames, rows.map fun r => (rowFields r).map some⟩

lemma integerCells_rowFields {r : Row} (h : Fits r) :
    IntegerCells columnNames ((rowFields r).map some) := by
  have hheight : cell columnNames ((rowFields r).map some) heightName
      = some (some (decimal r.height)) := rfl
  have hversion : cell columnNames ((rowFields r).map some) schemaVersionName
      = some (some (decimal r.schemaVersion)) := rfl
  have hv := h.schemaVersion
  intro name hname f hf
  rcases List.mem_cons.mp hname with rfl | hname
  · rw [hheight] at hf
    cases hf
    rw [Integer, parseInt64_decimal h.height]
    rfl
  · cases List.mem_singleton.mp hname
    rw [hversion] at hf
    cases hf
    rw [Integer, parseInt64_decimal (by omega)]
    rfl

/-- Whole lines are read. -/
lemma readCsv_rows {rows : List Row} (h : ∀ r ∈ rows, Fits r) :
    readCsv (headerText ++ rowsText rows) = some (frameOf rows) := by
  have hcolumns : (columnNames.map some).map (fun f : Field => f.getD []) = columnNames := rfl
  have hlength : ∀ fs ∈ (rows.map rowFields).map (·.map some), fs.length = columnNames.length := by
    intro fs hfs
    obtain ⟨l, hl, rfl⟩ := List.mem_map.mp hfs
    obtain ⟨r, -, rfl⟩ := List.mem_map.mp hl
    rfl
  have hpad : ((rows.map rowFields).map (·.map some)).map
      (fun r => r ++ List.replicate (columnNames.length - r.length) (none : Field))
        = (rows.map rowFields).map (·.map some) := by
    refine (List.map_congr_left fun fs hfs => ?_).trans (List.map_id _)
    rw [hlength fs hfs, Nat.sub_self, List.replicate_zero, List.append_nil, id]
  rw [readCsv, headerText_append, parse_records _ (records_ne_nil rows), List.map_cons]
  simp only [hcolumns, hpad]
  rw [if_neg, List.map_map]
  · rfl
  · rintro (⟨fs, hfs, hlt⟩ | ⟨fs, hfs, hint⟩)
    · exact absurd (hlength fs hfs) hlt.ne'
    · obtain ⟨l, hl, rfl⟩ := List.mem_map.mp hfs
      obtain ⟨r, hr, rfl⟩ := List.mem_map.mp hl
      exact hint (integerCells_rowFields (h r hr))

lemma rowOf_rowFields {r : Row} (h : Fits r) :
    rowOf columnNames ((rowFields r).map some) = some r := by
  have hv := h.schemaVersion
  have hheight : intCell columnNames ((rowFields r).map some) heightName = some r.height :=
    parseInt64_decimal h.height
  have hversion : intCell columnNames ((rowFields r).map some) schemaVersionName
      = some (r.schemaVersion : ℤ) := parseInt64_decimal (by omega)
  have hblockhash : cell columnNames ((rowFields r).map some) blockhashName
      = some (some r.blockhash) := rfl
  have hprevious : cell columnNames ((rowFields r).map some) previousblockhashName
      = some (some (r.previousblockhash.getD [])) := rfl
  have hnull : (some (r.previousblockhash.getD [])).filter (· ≠ []) = r.previousblockhash := by
    cases hp : r.previousblockhash with
    | none => rfl
    | some p =>
      exact Option.filter_eq_some_iff.mpr ⟨rfl, by simpa using (h.previousblockhash p hp).1⟩
  rw [rowOf, hheight, hblockhash, hprevious, if_pos (by decide), hversion]
  simp only [hnull, Int.toNat_natCast]

lemma mapM_rowOf {rows : List Row} (h : ∀ r ∈ rows, Fits r) :
    (frameOf rows).rows.mapM (rowOf columnNames) = some rows := by
  rw [frameOf]
  induction rows with
  | nil => rfl
  | cons r rows ih =>
      have hrest := ih fun r' hr' => h r' (List.mem_cons_of_mem _ hr')
      rw [List.map_cons, List.mapM_cons, rowOf_rowFields (h r List.mem_cons_self), hrest]
      rfl

/-- The rows of whole lines are read back. -/
theorem loadPart_rows {rows : List Row} (h : ∀ r ∈ rows, Fits r) :
    loadPart (headerText ++ rowsText rows) = some rows := by
  rw [loadPart, readCsvLenient, readCsv_rows h]
  exact mapM_rowOf h

/-! ### What a crash leaves -/

/-- A row that is torn within the quotes of its `previousblockhash`. -/
def openRow (r : Row) : List Char := decimal r.height ++ ',' :: (r.blockhash ++ [',', '"'])

/-- A part and the rows it holds. -/
inductive Mended : List Char → List Row → Prop
  /-- the header is torn, or nothing is there -/
  | fragment (k : ℕ) (hk : k < headerText.length) : Mended (headerText.take k) []
  | whole (rows : List Row) (h : ∀ r ∈ rows, Fits r) : Mended (headerText ++ rowsText rows) rows
  | opened (rows : List Row) (h : ∀ r ∈ rows, Fits r) (r : Row) (hr : Fits r) :
      Mended (headerText ++ rowsText rows ++ openRow r) rows

/-- The line of a row, without its newline. -/
def rowLine (r : Row) : List Char := renderLine (rowFields r)

lemma rowsText_eq (rows : List Row) : rowsText rows = joinLines (rows.map rowLine) := by
  rw [joinLines, List.flatMap_map]
  rfl

lemma headerText_append_lines (rows : List Row) :
    headerText ++ rowsText rows = joinLines (renderLine columnNames :: rows.map rowLine) := by
  rw [rowsText_eq]
  rfl

lemma Fits.not_special {r : Row} (h : Fits r) : ∀ f ∈ rowFields r, ∀ c ∈ f, ¬ Special c := by
  intro f hf
  simp only [rowFields, List.mem_cons, List.not_mem_nil, or_false] at hf
  rcases hf with rfl | rfl | rfl | rfl
  · exact decimal_not_special _
  · exact h.blockhash.not_special
  · cases hp : r.previousblockhash with
    | none => exact fun c hc => absurd hc List.not_mem_nil
    | some p => exact (h.previousblockhash p hp).not_special
  · exact decimal_not_special _

lemma Fits.newline_notMem {r : Row} (h : Fits r) : '\n' ∉ rowLine r :=
  newline_notMem_renderLine fun f hf hc => h.not_special f hf _ hc (.inr (.inr rfl))

lemma rowText_append {r : Row} (h : Fits r) : rowText r = decimal r.height ++ ',' :: (r.blockhash
    ++ ',' :: (renderField (r.previousblockhash.getD [])
    ++ ',' :: (decimal r.schemaVersion ++ ['\n']))) := by
  have hheight := renderField_plain (decimal_ne_nil r.height) (decimal_not_special r.height)
  have hversion := renderField_plain (decimal_ne_nil r.schemaVersion)
    (decimal_not_special r.schemaVersion)
  have hhash := renderField_plain h.blockhash.1 h.blockhash.not_special
  simp [rowText, renderRecord, renderLine, hheight, hversion, hhash]

/-- A row that is cut within a quote. -/
lemma take_rowText {r : Row} (h : Fits r) {j : ℕ}
    (hodd : ((rowText r).take j).count '"' % 2 = 1) : (rowText r).take j = openRow r := by
  have hheight : '"' ∉ decimal r.height := fun hc => decimal_not_special _ _ hc (.inr (.inl rfl))
  have hversion : '"' ∉ decimal r.schemaVersion :=
    fun hc => decimal_not_special _ _ hc (.inr (.inl rfl))
  have hhash : '"' ∉ r.blockhash := fun hc => h.blockhash.not_special _ hc (.inr (.inl rfl))
  cases hp : r.previousblockhash with
  | none =>
      have hfront : '"' ∉ decimal r.height ++ ',' :: (r.blockhash ++ [',']) := by
        simp [hheight, hhash]
      have hback : '"' ∉ ',' :: (decimal r.schemaVersion ++ ['\n']) := by
        simp [hversion]
      have htext : rowText r = (decimal r.height ++ ',' :: (r.blockhash ++ [',']))
          ++ '"' :: '"' :: ',' :: (decimal r.schemaVersion ++ ['\n']) := by
        rw [rowText_append h, hp]
        simp [renderField, escape]
      rw [htext] at hodd ⊢
      rw [take_of_odd_quotes hfront hback hodd]
      simp [openRow]
  | some p =>
      have hprev := h.previousblockhash p hp
      have hquote : '"' ∉ p := fun hc => hprev.not_special _ hc (.inr (.inl rfl))
      have htext : '"' ∉ rowText r := by
        rw [rowText_append h, hp, Option.getD_some, renderField_plain hprev.1 hprev.not_special]
        simp [hheight, hhash, hversion, hquote]
      rw [List.count_eq_zero_of_not_mem fun hc => htext (List.mem_of_mem_take hc)] at hodd
      exact absurd hodd (by decide)

/-! ### Reading the parts -/

lemma run_openRow {r : Row} (h : Fits r) (records : List (List Field)) :
    Reader.run ⟨records, [], .fresh⟩ (openRow r)
      = ⟨records, [some (decimal r.height), some r.blockhash], .quoted []⟩ := by
  have hfields : openRow r = (renderField (decimal r.height) ++ [','])
      ++ ((renderField r.blockhash ++ [',']) ++ ['"']) := by
    rw [renderField_plain (decimal_ne_nil _) (decimal_not_special _),
      renderField_plain h.blockhash.1 h.blockhash.not_special]
    simp [openRow]
  rw [hfields, Reader.run_append, run_renderField _ _ (.inl rfl), if_pos rfl, Reader.run_append,
    run_renderField _ _ (.inl rfl), if_pos rfl]
  rfl

/-- The line with the open quote is dropped. -/
lemma loadPart_opened {rows : List Row} (h : ∀ r ∈ rows, Fits r) {r : Row} (hr : Fits r) :
    loadPart (headerText ++ rowsText rows ++ openRow r) = some rows := by
  have hopen : readCsv (headerText ++ rowsText rows ++ openRow r) = none := by
    rw [readCsv, headerText_append, parse_open _ (records_ne_nil rows) (run_openRow hr _)]
  have hne : openRow r ≠ [] := by
    simp [openRow]
  have hline : '\n' ∉ openRow r := by
    have hheight : '\n' ∉ decimal r.height :=
      fun hc => decimal_not_special _ _ hc (.inr (.inr rfl))
    have hhash : '\n' ∉ r.blockhash :=
      fun hc => hr.blockhash.not_special _ hc (.inr (.inr rfl))
    simp [openRow, hheight, hhash]
  have hlines : ∀ l ∈ renderLine columnNames :: rows.map rowLine, '\n' ∉ l := by
    intro l hl
    rcases List.mem_cons.mp hl with rfl | hl
    · decide
    · obtain ⟨r', hr', rfl⟩ := List.mem_map.mp hl
      exact (h r' hr').newline_notMem
  have hsplit : splitLines (headerText ++ rowsText rows ++ openRow r)
      = (renderLine columnNames :: rows.map rowLine) ++ [openRow r] := by
    rw [headerText_append_lines]
    exact splitLines_lines _ hlines hne hline
  rw [loadPart, readCsvLenient, hopen]
  simp only [hsplit]
  rw [if_neg (by simp), List.dropLast_concat, ← headerText_append_lines, readCsv_rows h]
  exact mapM_rowOf h

lemma loadPart_fragment : ∀ k < headerText.length,
    headerText.take k = [] ∨ loadPart (headerText.take k) = some [] := by
  decide +kernel

/-- What a crash has left is read as the rows that are complete. -/
lemma Mended.loadPart {part : List Char} {rows : List Row} (h : Mended part rows)
    (hne : part ≠ []) : loadPart part = some rows := by
  cases h with
  | fragment k hk => exact (loadPart_fragment k hk).resolve_left hne
  | whole _ h => exact loadPart_rows h
  | opened _ h r hr => exact loadPart_opened h hr

lemma Mended.nil {rows : List Row} (h : Mended [] rows) : rows = [] := by
  generalize hnil : ([] : List Char) = part at h
  cases h with
  | fragment => rfl
  | whole => simp [headerText, renderRecord] at hnil
  | opened => simp [openRow] at hnil

/-- The parts on disk and the rows they hold. -/
inductive MendedParts : List (List Char) → List Row → Prop
  | nil : MendedParts [] []
  | concat {front : List (List Char)} {part : List Char} {rows last : List Row}
      (hfront : MendedParts front rows) (hpart : Mended part last) :
      MendedParts (front ++ [part]) (rows ++ last)

lemma MendedParts.getLast {front : List (List Char)} {part : List Char} {done : List Row}
    (h : MendedParts (front ++ [part]) done) :
    ∃ rows last, MendedParts front rows ∧ Mended part last ∧ done = rows ++ last := by
  generalize hparts : front ++ [part] = parts at h
  cases h with
  | nil => simp at hparts
  | concat hfront hpart =>
      obtain ⟨rfl, rfl⟩ := List.append_singleton_inj.mp hparts
      exact ⟨_, _, hfront, hpart, rfl⟩

/-- The load finds the rows of all the parts. -/
lemma MendedParts.loadParts {parts : List (List Char)} {rows : List Row}
    (h : MendedParts parts rows) : loadParts parts = some rows := by
  induction h with
  | nil => rfl
  | @concat front part rows last hfront hpart ih =>
      obtain ⟨found, hfound, rfl⟩ := Option.map_eq_some_iff.mp ih
      rw [IndexText.loadParts, List.filter_append, List.mapM_append, hfound]
      by_cases hne : part = []
      · subst hne
        rw [hpart.nil, List.append_nil]
        simp
      · rw [List.filter_cons_of_pos (by simpa using hne), List.filter_nil, List.mapM_cons,
          hpart.loadPart hne]
        simp

/-! ### Appends -/

lemma fragment_header : ∀ k < headerText.length, headerText.take k = []
    ∨ ¬ schemaVersionName <:+: firstLine (headerText.take k)
    ∨ (headerText.take k).getLast? ≠ some '\n' := by
  decide +kernel

lemma openRow_getLast? (text : List Char) (r : Row) :
    (text ++ openRow r).getLast? ≠ some '\n' := by
  have hlast : text ++ openRow r
      = (text ++ decimal r.height ++ ',' :: (r.blockhash ++ [','])) ++ ['"'] := by
    simp [openRow]
  rw [hlast, List.getLast?_concat]
  decide

/-- An append of `rows` that begins a part, or goes onto the whole lines of `old`. -/
inductive Append.Extends (rows : List Row) : Append → List Row → List Row → Prop
  | part {parts : List (List Char)} {front : List Row} (hfront : MendedParts parts front) :
      Extends rows ⟨parts, [], headerText ++ rowsText rows⟩ front []
  | lines {parts : List (List Char)} {front old : List Row} (hfront : MendedParts parts front)
      (hold : ∀ r ∈ old, Fits r) :
      Extends rows ⟨parts, headerText ++ rowsText old, rowsText rows⟩ front old

/-- A flush that begins on a line of its own goes onto whole lines, or begins a part. -/
lemma appendOf_extends {maxPartBytes : ℕ} {parts : List (List Char)} {rows done : List Row}
    (h : MendedParts parts done) (hline : (appendOf maxPartBytes parts rows).OnNewLine) :
    ∃ front old, Append.Extends rows (appendOf maxPartBytes parts rows) front old
      ∧ done = front ++ old := by
  rcases List.eq_nil_or_concat parts with rfl | ⟨front, target, rfl⟩
  · exact ⟨done, [], .part h, (List.append_nil _).symm⟩
  · rw [List.concat_eq_append] at h hline ⊢
    obtain ⟨frontRows, last, hfront, hpart, rfl⟩ := h.getLast
    rw [appendOf, List.getLast?_concat] at hline ⊢
    simp only [List.dropLast_concat] at hline ⊢
    split_ifs at hline ⊢ with hempty hfull hheader
    · subst hempty
      rw [hpart.nil]
      exact ⟨frontRows, [], .part hfront, rfl⟩
    · exact ⟨_, [], .part h, (List.append_nil _).symm⟩
    · have hend := hline.resolve_left hempty
      cases hpart with
      | fragment k hk =>
          rcases fragment_header k hk with hnil | hfirst | hlast
          · exact absurd hnil hempty
          · exact absurd hheader hfirst
          · exact absurd hend hlast
      | whole _ hold => exact ⟨frontRows, last, .lines hfront hold, rfl⟩
      | opened _ _ r => exact absurd hend (openRow_getLast? _ r)
    · exact ⟨_, [], .part h, (List.append_nil _).symm⟩

variable {a : Append} {rows front old : List Row}

lemma rowsText_append (rows rows' : List Row) :
    rowsText (rows ++ rows') = rowsText rows ++ rowsText rows' := List.flatMap_append

/-- The append in full. -/
lemma append_done (h : a.Extends rows front old) (hrows : ∀ r ∈ rows, Fits r) :
    MendedParts a.done (front ++ old ++ rows) := by
  cases h with
  | part hfront =>
      rw [List.append_nil]
      exact hfront.concat (.whole rows hrows)
  | lines hfront hold =>
      rw [List.append_assoc, Append.done, List.append_assoc, ← rowsText_append]
      exact hfront.concat (.whole _ fun r hr => (List.mem_append.mp hr).elim (hold r) (hrows r))

lemma rowText_ne_nil (r : Row) : 0 < (rowText r).length := by
  simp [rowText, renderRecord]

lemma wholeRows_zero (rows : List Row) : wholeRows 0 rows = [] := by
  cases rows with
  | nil => rfl
  | cons r rows => rw [wholeRows, if_neg (by have := rowText_ne_nil r; omega)]

lemma mem_of_mem_wholeRows {k : ℕ} {r : Row} (h : r ∈ wholeRows k rows) : r ∈ rows := by
  induction rows generalizing k with
  | nil => exact h
  | cons r' rows ih =>
      rw [wholeRows] at h
      split_ifs at h
      · rcases List.mem_cons.mp h with rfl | h
        · exact List.mem_cons_self
        · exact List.mem_cons_of_mem _ (ih h)
      · exact absurd h List.not_mem_nil

/-- Bytes of rows are whole lines and a piece of one more. -/
lemma take_rowsText (k : ℕ) (rows : List Row) (hk : k < (rowsText rows).length) :
    ∃ r ∈ rows, ∃ j < (rowText r).length,
      (rowsText rows).take k = rowsText (wholeRows k rows) ++ (rowText r).take j := by
  induction rows generalizing k with
  | nil => exact absurd hk (Nat.not_lt_zero _)
  | cons r rows ih =>
      have hcons : rowsText (r :: rows) = rowText r ++ rowsText rows := List.flatMap_cons
      rw [hcons, List.length_append] at hk
      rw [hcons, wholeRows, List.take_append]
      split_ifs with hle
      · obtain ⟨r', hr', j, hj, htake⟩ := ih (k - (rowText r).length) (by omega)
        refine ⟨r', List.mem_cons_of_mem _ hr', j, hj, ?_⟩
        have hcons' (l : List Row) : rowsText (r :: l) = rowText r ++ rowsText l :=
          List.flatMap_cons
        rw [List.take_of_length_le hle, htake, hcons', List.append_assoc]
      · refine ⟨r, List.mem_cons_self, k, by omega, ?_⟩
        rw [Nat.sub_eq_zero_of_le (by omega), List.take_zero, List.append_nil]
        rfl

/-- Rows that are cut at the end of a line, or within quotes. -/
lemma take_rowsText_mended {k : ℕ} (hrows : ∀ r ∈ rows, Fits r) (hk : k < (rowsText rows).length)
    (hold : ∀ r ∈ old, Fits r)
    (hcut : lastLine ((rowsText rows).take k) = []
      ∨ (lastLine ((rowsText rows).take k)).count '"' % 2 = 1) :
    Mended (headerText ++ rowsText old ++ (rowsText rows).take k) (old ++ wholeRows k rows) := by
  obtain ⟨r, hr, j, hj, htake⟩ := take_rowsText k rows hk
  have hfits : ∀ r' ∈ old ++ wholeRows k rows, Fits r' := by
    intro r' hr'
    rcases List.mem_append.mp hr' with h | h
    · exact hold r' h
    · exact hrows r' (mem_of_mem_wholeRows h)
  have hline : '\n' ∉ (rowText r).take j := by
    have htext : (rowText r).take j = (rowLine r).take j := by
      have hlen : (rowText r).length = (rowLine r).length + 1 := by
        simp [rowText, rowLine, rowFields, renderRecord]
      have hle : j ≤ (rowLine r).length := by omega
      exact List.take_append_of_le_length hle
    rw [htext]
    exact fun hmem => (hrows r hr).newline_notMem (List.mem_of_mem_take hmem)
  rw [htake] at hcut ⊢
  rw [rowsText_eq (wholeRows k rows), lastLine_append, lastLine_torn hline] at hcut
  rw [← List.append_assoc, List.append_assoc headerText, ← rowsText_append]
  rcases hcut with hnil | hodd
  · rw [hnil, List.append_nil]
    exact .whole _ hfits
  · rw [take_rowText (hrows r hr) hodd]
    exact .opened _ hfits r (hrows r hr)

lemma headerText_eq : headerText = joinLines [renderLine columnNames] := rfl

/-- A crash in an append. -/
lemma append_cut {k : ℕ} (h : Append.Extends rows a front old) (hrows : ∀ r ∈ rows, Fits r)
    (hk : k < a.new.length) (hcut : a.CutWell k) :
    MendedParts (a.cut k) (front ++ old ++ wholeRows (k - a.headerBytes) rows) := by
  cases h with
  | @part parts front hfront =>
      rw [Append.headerBytes, if_pos rfl, List.append_nil, Append.cut, List.nil_append]
      by_cases hheader : k < headerText.length
      · rw [Nat.sub_eq_zero_of_le hheader.le, wholeRows_zero,
          List.take_append_of_le_length hheader.le]
        exact hfront.concat (.fragment k hheader)
      · have hlen : k - headerText.length < (rowsText rows).length := by
          rw [List.length_append] at hk
          omega
        have htake : (headerText ++ rowsText rows).take k
            = headerText ++ (rowsText rows).take (k - headerText.length) := by
          rw [List.take_append, List.take_of_length_le (by omega)]
        have hrest : lastLine ((rowsText rows).take (k - headerText.length)) = []
            ∨ (lastLine ((rowsText rows).take (k - headerText.length))).count '"' % 2 = 1 := by
          rw [Append.CutWell, htake, headerText_eq, lastLine_append, ← headerText_eq] at hcut
          tauto
        rw [htake]
        have hnone : ∀ r ∈ ([] : List Row), Fits r := fun r hr => absurd hr List.not_mem_nil
        have hmended := take_rowsText_mended hrows hlen hnone hrest
        rw [rowsText, List.flatMap_nil, List.append_nil] at hmended
        exact hfront.concat hmended
  | @lines parts front old hfront hold =>
      have hne : headerText ++ rowsText old ≠ [] := by
        simp [headerText, renderRecord]
      rw [Append.headerBytes, if_neg hne, Nat.sub_zero, List.append_assoc]
      refine hfront.concat (take_rowsText_mended hrows hk hold ?_)
      exact hcut.imp id fun h => h.resolve_left fun h => hne h.1

/-! ### Histories -/

/-- What holds all along. -/
structure Inv (s : Session) : Prop where
  parts : MendedParts s.parts s.completed
  store : s.store ≠ none
  pending : ∀ st ∈ s.store, ∀ r ∈ st.pending.values, Fits r

lemma Hash.hexChars (h : Hash) : Hex h.chars := ⟨h.ne_nil, h.hex⟩

/-- A staged row fits into its columns. -/
lemma fits_add {st : IndexStore (List Char)} (h : ∀ r ∈ st.pending.values, Fits r) (n : Int64)
    (b : Hash) (p : Option Hash) (v : Fin (2 ^ 63)) :
    ∀ r ∈ (st.add n b.chars (p.map (·.chars)) v).pending.values, Fits r := by
  intro r hr
  obtain ⟨x, hx⟩ := Dict.mem_values_iff.mp hr
  rcases st.get?_pending_add hx with hx | ⟨-, rfl⟩
  · exact h r (Dict.mem_values_iff.mpr ⟨x, hx⟩)
  · refine ⟨n.2, v.2, b.hexChars, fun q hq => ?_⟩
    obtain ⟨p', -, rfl⟩ := Option.map_eq_some_iff.mp hq
    exact p'.hexChars

lemma load_of_mended {parts : List (List Char)} {rows : List Row} (h : MendedParts parts rows) :
    load parts = some ⟨rows.foldl IndexStore.register .empty, .empty, false⟩ := by
  rw [load, h.loadParts]
  rfl

/-- A load finds the parts mended and stages nothing. -/
lemma Inv.ofLoad {parts : List (List Char)} {rows : List Row} (h : MendedParts parts rows) :
    Inv ⟨parts, load parts, rows⟩ := by
  refine ⟨h, ?_, ?_⟩
  · rw [load_of_mended h]
    exact Option.some_ne_none _
  · intro st hst r hr
    rw [load_of_mended h] at hst
    cases hst
    exact absurd hr List.not_mem_nil

/-- A step keeps it. -/
lemma Inv.next {maxPartBytes : ℕ} {l : Label} {s s' : Session} (h : Inv s)
    (hl : mendable maxPartBytes l s) (hs : next maxPartBytes l s = some s') : Inv s' := by
  obtain ⟨st, hst⟩ := Option.ne_none_iff_exists'.mp h.store
  have hfits := h.pending st hst
  cases l with
  | add n b p v =>
      rw [IndexText.next, hst, Option.map_some] at hs
      cases hs
      refine ⟨h.parts, Option.some_ne_none _, fun st' hst' => ?_⟩
      cases hst'
      exact fits_add hfits n b p v
  | flush =>
      rw [IndexText.next, hst, Option.map_some] at hs
      split_ifs at hs with hempty
      · cases hs
        exact h
      · cases hs
        obtain ⟨front, old, hext, hdone⟩ := appendOf_extends h.parts (hl st hst hempty)
        refine ⟨?_, Option.some_ne_none _, fun st' hst' r hr => ?_⟩
        · rw [hdone]
          exact append_done hext hfits
        · cases hst'
          rw [IndexStore.flush_pending] at hr
          exact absurd hr List.not_mem_nil
  | crash k =>
      rw [IndexText.next, hst, Option.bind_some] at hs
      obtain ⟨hnone, hs⟩ := Option.ite_none_left_eq_some.mp hs
      cases hs
      obtain ⟨hline, hcut⟩ := hl st hst
      obtain ⟨front, old, hext, hdone⟩ := appendOf_extends h.parts hline
      refine Inv.ofLoad ?_
      rw [hdone]
      exact append_cut hext hfits (not_le.mp fun hle => hnone (.inr hle)) hcut
  | restart =>
      cases hs
      exact Inv.ofLoad h.parts

/-- **Torn appends** In a history of adds, flushes, crashes and restarts in which every append
begins on a line of its own, and every crash leaves whole lines, a piece of the header or an open
quote, the index can be loaded at any time: the load finds the rows whose lines are complete, each
as it was staged and no other, and the last row of each hash is what `get` returns. -/
theorem torn_appends {maxPartBytes : ℕ} {s : Session}
    (h : (system maxPartBytes).Reach (mendable maxPartBytes) s) :
    loadParts s.parts = some s.completed ∧ s.store ≠ none
      ∧ ∃ st, load s.parts = some st ∧ st.pending = .empty
        ∧ ∀ b, st.get b = s.completed.reverse.find? fun r => r.blockhash = b := by
  have hinv : Inv s := by
    refine h.invariant ?_ fun s s' l hi ha hs => hi.next ha hs
    intro s hs
    rw [system] at hs
    subst hs
    exact Inv.ofLoad .nil
  refine ⟨hinv.parts.loadParts, hinv.store, _, load_of_mended hinv.parts, rfl, fun b => ?_⟩
  rw [IndexStore.get, IndexStore.get?_foldl_register]
  exact Option.or_none

/-- `MAX_PART_BYTES` of `common/csv_writer.py`. -/
def maxPartBytes : ℕ := 900000000

/-- A hash of one digit. -/
def digitHash (n : Fin 16) : Hash where
  chars := [hexDigit n]
  ne_nil := List.cons_ne_nil _ _
  hex c hc := by rw [List.mem_singleton.mp hc, hexValue_hexDigit n.2, Option.isSome_some]

/-- The row of a block in a chain of 15. -/
def addBlock (n : Fin 15) : Label :=
  .add ⟨n, by omega⟩ (digitHash n.succ) (if n = 0 then none else some (digitHash n.castSucc)) 2

lemma reach_exec {allowed : Label → Session → Prop} [∀ l s, Decidable (allowed l s)]
    {labels : List Label} {s : Session} (h : TransitionSystem.exec allowed (next maxPartBytes)
      labels ⟨[], load [], []⟩ = some s) : (system maxPartBytes).Reach allowed s :=
  .exec allowed (fun _ _ _ h => h) (.init rfl) h

/-- The header is cut, and later a flush behind the first of its two lines. -/
theorem torn_appends_twice : ∃ s, (system maxPartBytes).Reach (mendable maxPartBytes) s
    ∧ s.completed.map (·.height) = [0, 1, 3] ∧ loadParts s.parts = some s.completed := by
  have hrun : (TransitionSystem.exec (mendable maxPartBytes) (next maxPartBytes)
      [addBlock 0, .crash 10, addBlock 0, .flush, addBlock 1, addBlock 2, .crash 8, addBlock 3,
        .flush, .restart] ⟨[], load [], []⟩).map (fun s => s.completed.map (·.height))
      = some [0, 1, 3] := by decide +kernel
  obtain ⟨s, hs, heq⟩ := Option.map_eq_some_iff.mp hrun
  exact ⟨s, reach_exec hs, heq, (torn_appends (reach_exec hs)).1⟩

/-- A crash behind the first comma of a row: the load raises. A crash right before a newline, and
a flush after it: both rows are dropped. -/
theorem torn_appends_lost : (∃ s, (system maxPartBytes).Reach anyStep s ∧ load s.parts = none)
    ∧ ¬ ∀ s, (system maxPartBytes).Reach anyStep s → loadParts s.parts = some s.completed := by
  constructor
  · have hrun : (TransitionSystem.exec anyStep (next maxPartBytes) [addBlock 0, .crash 52]
        ⟨[], load [], []⟩).map (fun s => load s.parts) = some none := by decide +kernel
    obtain ⟨s, hs, heq⟩ := Option.map_eq_some_iff.mp hrun
    exact ⟨s, reach_exec hs, heq⟩
  · intro h
    have hrun : (TransitionSystem.exec anyStep (next maxPartBytes)
        [addBlock 0, addBlock 1, .crash 66, addBlock 2, .flush] ⟨[], load [], []⟩).map
        (fun s => ((loadParts s.parts).map List.length, s.completed.length))
        = some (some 1, 2) := by decide +kernel
    obtain ⟨s, hs, heq⟩ := Option.map_eq_some_iff.mp hrun
    obtain ⟨hload, hcompleted⟩ := Prod.mk.inj heq
    rw [h s (reach_exec hs), Option.map_some, hcompleted] at hload
    exact absurd hload (by decide)

end BtcParser.IndexText
