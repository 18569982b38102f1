import BtcParser.Index.TornAppend
import BtcParser.Library.Lists
import BtcParser.Rpc.StateFiles

/-!
When the state files give back what was written.

* `toDigits_of_digits`: digits that do not begin with a zero are those of their number.
* `kept_iff`: which hashes survive the type that their column is given.
* `readCsv_entries` is what the reader makes of the lines of entries.
* `state_files_iff`: a pointer and a set of entries are read back exactly when their hashes do not
  all look like floats, and are plain numbers that fit if they all look like integers.
-/

namespace BtcParser

namespace StateFiles

open Csv IndexText

/-! ### Digits -/

lemma digitChar_of_isDigit {c : Char} (h : c.isDigit = true) :
    ∃ n < 10, c = Nat.digitChar n ∧ c.toNat - '0'.toNat = n := by
  have hc : 48 ≤ c.toNat ∧ c.toNat ≤ 57 := by
    simp only [Char.isDigit, Bool.and_eq_true, decide_eq_true_eq, UInt32.le_iff_toNat_le,
      ge_iff_le] at h
    exact h
  refine ⟨c.toNat - 48, by omega, ?_, rfl⟩
  apply Char.toNat_inj.mp
  rw [Nat.toNat_digitChar_of_lt_ten (by omega)]
  omega

/-- Digits that do not begin with a zero are those of their number. -/
lemma toDigits_of_digits {cs : List Char} (hne : cs ≠ []) (hd : ∀ c ∈ cs, c.isDigit = true)
    (hzero : cs.head? ≠ some '0') : Nat.toDigits 10 (Nat.ofDigitChars 10 cs 0) = cs := by
  induction cs using List.reverseRecOn with
  | nil => exact absurd rfl hne
  | append_singleton front c ih =>
      obtain ⟨n, hn, hc, hval⟩ := digitChar_of_isDigit (hd c (by simp))
      rw [Nat.ofDigitChars_append, Nat.ofDigitChars_cons, Nat.ofDigitChars_nil, hval]
      by_cases hfront : front = []
      · rw [hfront, List.nil_append, Nat.ofDigitChars_nil, mul_zero, zero_add,
          Nat.toDigits_of_lt_base hn, hc]
      · have hhead : front.head? ≠ some '0' := by
          rwa [List.head?_append_of_ne_nil _ hfront] at hzero
        have hrest := ih hfront (fun c hc => hd c (List.mem_append_left _ hc)) hhead
        have hpos : 0 < Nat.ofDigitChars 10 front 0 := by
          rw [Nat.pos_iff_ne_zero]
          intro h0
          rw [h0] at hrest
          rw [← hrest] at hhead
          exact hhead rfl
        rw [← Nat.toDigits_append_toDigits (by decide) hpos hn, hrest,
          Nat.toDigits_of_lt_base hn, hc]

lemma ofDigitChars_lt {cs : List Char} (hd : ∀ c ∈ cs, c.isDigit = true) :
    Nat.ofDigitChars 10 cs 0 < 10 ^ cs.length := by
  induction cs using List.reverseRecOn with
  | nil => simp
  | append_singleton front c ih =>
      obtain ⟨n, hn, -, hval⟩ := digitChar_of_isDigit (hd c (by simp))
      have hrest := ih fun c hc => hd c (List.mem_append_left _ hc)
      rw [Nat.ofDigitChars_append, Nat.ofDigitChars_cons, Nat.ofDigitChars_nil, hval,
        List.length_append, List.length_singleton, pow_succ]
      omega

/-- Digits are those of their number exactly when they do not begin with a zero, unless they are a
single one. -/
lemma toDigits_eq_iff {cs : List Char} (hlen : 1 < cs.length) (hd : ∀ c ∈ cs, c.isDigit = true) :
    Nat.toDigits 10 (Nat.ofDigitChars 10 cs 0) = cs ↔ cs.head? ≠ some '0' := by
  have hne : cs ≠ [] := List.ne_nil_of_length_pos (by omega)
  refine ⟨fun h hzero => ?_, toDigits_of_digits hne hd⟩
  obtain ⟨c, rest, rfl⟩ := List.exists_cons_of_ne_nil hne
  obtain rfl : c = '0' := by simpa using hzero
  rw [List.length_cons] at hlen
  -- without the zero there is one digit less
  have hlt : Nat.ofDigitChars 10 ('0' :: rest) 0 < 10 ^ rest.length := by
    rw [Nat.ofDigitChars_cons]
    exact ofDigitChars_lt fun c hc => hd c (List.mem_cons_of_mem _ hc)
  have hle := (Nat.length_toDigits_le_iff (by decide) (by omega)).mpr hlt
  rw [h, List.length_cons] at hle
  omega

/-! ### Hashes -/

/-- A block hash: 64 digits of hexadecimal in lower case. -/
structure IsHash (cs : List Char) : Prop where
  length : cs.length = 64
  hex : ∀ c ∈ cs, c.isDigit = true ∨ c ∈ ['a', 'b', 'c', 'd', 'e', 'f']

/-- The hash of a block. -/
abbrev Hash := { cs : List Char // IsHash cs }

lemma IsHash.hexValue {cs : List Char} (h : IsHash cs) : ∀ c ∈ cs, (hexValue c).isSome = true := by
  have hletters : ∀ c ∈ ['a', 'b', 'c', 'd', 'e', 'f'], (BtcParser.hexValue c).isSome = true :=
    List.all_eq_true.mp (by rfl)
  have hdigits : ∀ n < 10, (BtcParser.hexValue (Nat.digitChar n)).isSome = true := by
    intro n hn
    interval_cases n <;> rfl
  intro c hc
  rcases h.hex c hc with hd | hl
  · obtain ⟨n, hn, rfl, -⟩ := digitChar_of_isDigit hd
    exact hdigits n hn
  · exact hletters c hl

variable (R : Numbers)

/-- The hash survives in a column of the type. -/
def Kept (ty : ColumnType) (cs : List Char) : Prop :=
  ∃ v, cellValue R ty (some cs) = some v ∧ Value.toStr R v = cs

/-- A number that its text begins with no zero, and that fits. -/
def PlainNumber (cs : List Char) : Prop :=
  cs.head? ≠ some '0' ∧ R.fits (Nat.ofDigitChars 10 cs 0 : ℕ) = true

lemma isDigits_iff {cs : List Char} :
    isDigits cs = true ↔ cs ≠ [] ∧ ∀ c ∈ cs, c.isDigit = true := by
  rw [isDigits, Bool.and_eq_true, List.all_eq_true]
  simp

lemma parseDigits_of_isDigits {cs : List Char} (h : isDigits cs = true) :
    parseDigits cs = some (Nat.ofDigitChars 10 cs 0) := by
  obtain ⟨hne, hd⟩ := isDigits_iff.mp h
  rw [parseDigits, if_pos ⟨hne, List.all_eq_true.mpr hd⟩]

/-- A hash that is read as an integer is kept if it is the text of that integer. -/
lemma kept_integer {cs : List Char} (h : IsHash cs) (hd : isDigits cs = true) :
    Kept R .integer cs ↔ PlainNumber R cs := by
  have hone : 1 < cs.length := by
    rw [h.length]
    decide
  rw [Kept, cellValue, parseDigits_of_isDigits hd, Option.bind_some, PlainNumber,
    ← toDigits_eq_iff hone (isDigits_iff.mp hd).2]
  constructor
  · rintro ⟨v, hv, hstr⟩
    rw [Option.ite_none_right_eq_some] at hv
    obtain ⟨hfits, hv⟩ := hv
    obtain rfl := Option.some.inj hv
    exact ⟨hstr, hfits⟩
  · rintro ⟨hdigits, hfits⟩
    exact ⟨.int (Nat.ofDigitChars 10 cs 0 : ℕ), if_pos hfits, hdigits⟩

/-- No float is shown as a hash. -/
lemma not_kept_float {cs : List Char} (h : IsHash cs) : ¬ Kept R .float cs := by
  rintro ⟨v, hv, hstr⟩
  obtain rfl := Option.some.inj hv
  obtain ⟨c, hc, hnone⟩ := R.str_notHex (R.float cs)
  have := h.hexValue c (hstr ▸ hc)
  rw [hnone] at this
  cases this

lemma kept_text (cs : List Char) : Kept R .text cs := ⟨.text cs, rfl, rfl⟩

lemma not_isDigits_of_exponential {cs : List Char} (h : isExponential cs = true) :
    isDigits cs = false := by
  rw [Bool.eq_false_iff]
  intro hd
  have hdrop : cs.dropWhile Char.isDigit = [] := by
    rw [List.dropWhile_eq_nil_iff]
    exact (isDigits_iff.mp hd).2
  rw [isExponential, hdrop] at h
  cases h

lemma not_booleanText {cs : List Char} (h : IsHash cs) (v : Bool) : cs ≠ booleanText v := by
  rintro rfl
  cases v <;> exact absurd h.length (by decide)

/-- The type of a column of hashes. -/
lemma inferType_hashes {cells : List (List Char)} (hne : cells ≠ [])
    (h : ∀ cs ∈ cells, IsHash cs) :
    inferType cells
      = if cells.all isDigits then .integer
        else if cells.all isExponential then .float else .text := by
  obtain ⟨cs, hcs⟩ := List.exists_mem_of_ne_nil _ hne
  have hbool : (cells.all fun cs => cs = booleanText true || cs = booleanText false) = false := by
    rw [List.all_eq_false]
    exact ⟨cs, hcs, by simp [not_booleanText (h cs hcs)]⟩
  rw [inferType, if_neg hne, hbool]
  simp

/-- The hashes of some rows are read back. -/
def HashesRead (hashes : List (List Char)) : Prop :=
  ¬ (hashes ≠ [] ∧ ∀ cs ∈ hashes, isExponential cs = true)
    ∧ ((∀ cs ∈ hashes, isDigits cs = true) → ∀ cs ∈ hashes, PlainNumber R cs)

/-- All hashes of a column are kept exactly when they do not all look like floats, and are plain
numbers if they all look like integers. -/
lemma kept_iff {hashes : List (List Char)} (hne : hashes ≠ []) (h : ∀ cs ∈ hashes, IsHash cs) :
    (∀ cs ∈ hashes, Kept R (inferType hashes) cs) ↔ HashesRead R hashes := by
  obtain ⟨cs₀, hcs₀⟩ := List.exists_mem_of_ne_nil _ hne
  rw [inferType_hashes hne h, HashesRead]
  by_cases hd : ∀ cs ∈ hashes, isDigits cs = true
  · have hfloat : ¬ (hashes ≠ [] ∧ ∀ cs ∈ hashes, isExponential cs = true) := fun hx => by
      have := not_isDigits_of_exponential (hx.2 cs₀ hcs₀)
      rw [hd cs₀ hcs₀] at this
      cases this
    rw [if_pos (List.all_eq_true.mpr hd)]
    simp only [hfloat, not_false_eq_true, true_and]
    exact ⟨fun hk _ cs hcs => (kept_integer R (h cs hcs) (hd cs hcs)).mp (hk cs hcs),
      fun hp cs hcs => (kept_integer R (h cs hcs) (hd cs hcs)).mpr (hp hd cs hcs)⟩
  · rw [if_neg (by rwa [List.all_eq_true])]
    by_cases hx : ∀ cs ∈ hashes, isExponential cs = true
    · rw [if_pos (List.all_eq_true.mpr hx)]
      exact iff_of_false (fun hk => not_kept_float R (h cs₀ hcs₀) (hk cs₀ hcs₀))
        fun hr => hr.1 ⟨hne, hx⟩
    · rw [if_neg (by rwa [List.all_eq_true])]
      exact iff_of_true (fun cs _ => kept_text R cs)
        ⟨fun hall => hx hall.2, fun hall => absurd hall hd⟩

/-! ### Lines -/

/-- An entry of a block. -/
structure IsEntry (e : Entry) : Prop where
  height : 0 ≤ e.1.1
  hash : IsHash e.1.2

/-- The values of an entry, in columns of integers, of the given type and of booleans. -/
def typedRow (ty : ColumnType) (e : Entry) : Option (List (Value R)) :=
  if R.fits e.1.1 then (cellValue R ty (some e.1.2)).map fun v =>
    [.int e.1.1, v, .bool e.2] else none

lemma isDigits_decimal {z : ℤ} (h : 0 ≤ z) : isDigits (decimal z) = true := by
  rw [decimal, if_neg (not_lt.mpr h), isDigits_iff]
  exact ⟨Nat.toDigits_ne_nil, fun c hc => Nat.isDigit_of_mem_toDigits (by decide) (by decide) hc⟩

lemma cellValue_decimal {z : ℤ} (h : 0 ≤ z) :
    cellValue R .integer (some (decimal z)) = if R.fits z then some (.int z) else none := by
  have hvalue : parseDigits (decimal z) = some z.natAbs := by
    rw [decimal, if_neg (not_lt.mpr h), parseDigits_toDigits]
  have hcast : ((z.natAbs : ℕ) : ℤ) = z := Int.natAbs_of_nonneg h
  rw [cellValue, hvalue, Option.bind_some, hcast]

lemma inferType_heights {cells : List (List Char)} (hne : cells ≠ [])
    (h : ∀ cs ∈ cells, isDigits cs = true) : inferType cells = .integer := by
  rw [inferType, if_neg hne, if_pos (List.all_eq_true.mpr h)]

lemma inferType_booleans {flags : List Bool} (hne : flags ≠ []) :
    inferType (flags.map booleanText) = .boolean := by
  obtain ⟨b, hb⟩ := List.exists_mem_of_ne_nil _ hne
  have hmem : booleanText b ∈ flags.map booleanText := List.mem_map_of_mem hb
  have hd : ∀ b, isDigits (booleanText b) = false := by decide
  have hx : ∀ b, isExponential (booleanText b) = false := by decide
  have hdigits : (flags.map booleanText).all isDigits = false :=
    List.all_eq_false.mpr ⟨_, hmem, by simp [hd]⟩
  have hexp : (flags.map booleanText).all isExponential = false :=
    List.all_eq_false.mpr ⟨_, hmem, by simp [hx]⟩
  have hbool : ((flags.map booleanText).all
      fun cs => cs = booleanText true || cs = booleanText false) = true := by
    rw [List.all_eq_true]
    intro cs hcs
    obtain ⟨b, -, rfl⟩ := List.mem_map.mp hcs
    cases b <;> simp
  rw [inferType, if_neg (by simpa using hne), hdigits, hexp, hbool]
  rfl

/-- The cells of entries are read back as texts. -/
lemma readCells_frameText {columns : List (List Char)} (hcolumns : columns ≠ [])
    {rows : List (List (List Char))} (h : ∀ row ∈ rows, row.length = columns.length) :
    readCells (frameText columns rows) = some ⟨columns, rows.map (·.map some)⟩ := by
  have htext : frameText columns rows
      = renderCells (columns.map some) ++ (rows.map (·.map some)).flatMap renderCells := by
    rw [frameText, List.flatMap_map]
  rw [htext, readCells_renderCells hcolumns]
  intro r hr
  obtain ⟨row, hrow, rfl⟩ := List.mem_map.mp hr
  rw [List.length_map]
  exact h row hrow

lemma columnTypes_entries {rows : List Entry} (hne : rows ≠ []) (h : ∀ e ∈ rows, IsEntry e) :
    columnTypes statusColumns.length ((rows.map entryCells).map (·.map some))
      = [.integer, inferType (rows.map (·.1.2)), .boolean] := by
  have hcolumn (i : ℕ) (f : Entry → List Char) (hf : ∀ e, (entryCells e)[i]? = some (f e)) :
      ((rows.map entryCells).map (·.map some)).filterMap
        (fun r : List Field => (r[i]?).join) = rows.map f := by
    have heach : ∀ e : Entry, (((entryCells e).map some)[i]?).join = some (f e) := fun e => by
      simp [hf e]
    rw [List.map_map, List.filterMap_map]
    exact (List.filterMap_congr fun e _ => heach e).trans (congrFun List.filterMap_eq_map rows)
  have hheights : inferType (rows.map fun e => decimal e.1.1) = .integer := by
    refine inferType_heights (by simpa using hne) fun cs hcs => ?_
    obtain ⟨e, he, rfl⟩ := List.mem_map.mp hcs
    exact isDigits_decimal (h e he).height
  have hflags : inferType (rows.map fun e => booleanText e.2) = .boolean := by
    have hflags : inferType ((rows.map (·.2)).map booleanText) = .boolean :=
      inferType_booleans (by simpa using hne)
    rwa [List.map_map] at hflags
  rw [columnTypes]
  show [inferType _, inferType _, inferType _] = _
  rw [hcolumn 0 _ fun _ => rfl, hcolumn 1 _ fun _ => rfl, hcolumn 2 _ fun _ => rfl, hheights,
    hflags]

lemma rowValues_entry (ty : ColumnType) {e : Entry} (h : IsEntry e) :
    rowValues R [.integer, ty, .boolean] ((entryCells e).map some) = typedRow R ty e := by
  have hbool : cellValue R .boolean (some (booleanText e.2)) = some (.bool e.2) := by
    cases e.2 <;> rfl
  rw [rowValues, entryCells, typedRow]
  simp only [List.map_cons, List.map_nil, List.zip_cons_cons, List.zip_nil_right, List.mapM_cons,
    List.mapM_nil, cellValue_decimal R h.height, hbool]
  split_ifs
  · cases cellValue R ty (some e.1.2) <;> rfl
  · rfl

/-- What the reader makes of the lines of entries. -/
lemma readCsv_entries {rows : List Entry} (h : ∀ e ∈ rows, IsEntry e) :
    readCsv R (entriesText rows)
      = (rows.mapM (typedRow R (inferType (rows.map (·.1.2))))).map
          fun values => ⟨statusColumns, values⟩ := by
  have hlength : ∀ row ∈ rows.map entryCells, row.length = statusColumns.length := by
    intro row hrow
    obtain ⟨e, -, rfl⟩ := List.mem_map.mp hrow
    rfl
  rw [readCsv, entriesText, readCells_frameText (by decide) hlength, Option.bind_some]
  congr 1
  rw [List.map_map, List.mapM_map]
  rcases eq_or_ne rows [] with rfl | hne
  · rfl
  · rw [← List.map_map, columnTypes_entries hne h]
    exact mapM_congr_mem fun e he => rowValues_entry R _ (h e he)

/-! ### Files of entries -/

/-- What an entry is read as. -/
def ReadAs (ty : ColumnType) (e e' : Entry) : Prop :=
  R.fits e.1.1 = true
    ∧ ∃ v, cellValue R ty (some e.1.2) = some v ∧ e' = ((e.1.1, Value.toStr R v), e.2)

lemma rowEntry_values (z : ℤ) (v : Value R) (b : Bool) :
    rowEntry R statusColumns [.int z, v, .bool b] = some ((z, Value.toStr R v), b) :=
  rfl

/-- The values of rows that are typed are read as entries. -/
lemma forall₂_of_mapM {ty : ColumnType} {rows : List Entry} {values : List (List (Value R))}
    (h : rows.mapM (typedRow R ty) = some values) :
    ∃ entries, values.mapM (rowEntry R statusColumns) = some entries
      ∧ List.Forall₂ (ReadAs R ty) rows entries := by
  induction rows generalizing values with
  | nil =>
      cases h
      exact ⟨[], rfl, .nil⟩
  | cons e rows ih =>
      obtain ⟨value, rest, hvalue, hrest, rfl⟩ := mapM_cons_eq_some_iff.mp h
      rw [typedRow, Option.ite_none_right_eq_some] at hvalue
      obtain ⟨hfits, hvalue⟩ := hvalue
      obtain ⟨v, hv, rfl⟩ := Option.map_eq_some_iff.mp hvalue
      obtain ⟨entries, hentries, hall⟩ := ih hrest
      refine ⟨((e.1.1, Value.toStr R v), e.2) :: entries, ?_, .cons ⟨hfits, v, hv, rfl⟩ hall⟩
      rw [List.mapM_cons, rowEntry_values, hentries]
      rfl

lemma mapM_of_forall₂ {ty : ColumnType} {rows entries : List Entry}
    (h : List.Forall₂ (ReadAs R ty) rows entries) :
    ∃ values, rows.mapM (typedRow R ty) = some values
      ∧ values.mapM (rowEntry R statusColumns) = some entries := by
  induction h with
  | nil => exact ⟨[], rfl, rfl⟩
  | @cons e e' rows entries he hrest ih =>
      obtain ⟨hfits, v, hv, rfl⟩ := he
      obtain ⟨values, hvalues, hentries⟩ := ih
      refine ⟨[.int e.1.1, v, .bool e.2] :: values, ?_, ?_⟩
      · rw [List.mapM_cons, typedRow, if_pos hfits, hv, hvalues]
        rfl
      · rw [List.mapM_cons, rowEntry_values, hentries]
        rfl

/-- The lines of entries. -/
lemma entriesText_eq (rows : List Entry) :
    entriesText rows = joinLines ((statusColumns :: rows.map entryCells).map
      fun cells => renderCellLine (cells.map some)) := by
  have := joinLines_renderCellLine ((statusColumns :: rows.map entryCells).map (·.map some))
  rw [List.map_map] at this
  refine Eq.trans ?_ this.symm
  rw [entriesText, frameText, List.map_cons, List.flatMap_cons, List.flatMap_map, List.flatMap_map,
    List.flatMap_map]

lemma newline_notMem_entry {e : Entry} (h : IsEntry e) :
    '\n' ∉ renderCellLine ((entryCells e).map some) := by
  have hheight : '\n' ∉ decimal e.1.1 := fun hmem => by
    have := (isDigits_iff.mp (isDigits_decimal h.height)).2 _ hmem
    cases this
  have hhash : '\n' ∉ e.1.2 := fun hmem => by
    have := h.hash.hexValue _ hmem
    cases this
  have hflag : '\n' ∉ booleanText e.2 := by cases e.2 <;> decide
  refine newline_notMem_renderCellLine fun f hf cs hcs => ?_
  obtain ⟨cell, hcell, rfl⟩ := List.mem_map.mp hf
  obtain rfl := Option.mem_some.mp hcs
  simp only [entryCells, List.mem_cons, List.not_mem_nil, or_false] at hcell
  rcases hcell with rfl | rfl | rfl
  · exact hheight
  · exact hhash
  · exact hflag

/-- Dropping the last line drops the last entry. -/
lemma dropLast_lines {rows : List Entry} (h : ∀ e ∈ rows, IsEntry e) (hne : rows ≠ []) :
    ¬ (splitLines (entriesText rows)).length ≤ 1
      ∧ joinLines (splitLines (entriesText rows)).dropLast = entriesText rows.dropLast := by
  have hlines : splitLines (entriesText rows) = (statusColumns :: rows.map entryCells).map
      fun cells => renderCellLine (cells.map some) := by
    rw [entriesText_eq]
    refine splitLines_joinLines _ fun l hl => ?_
    obtain ⟨cells, hcells, rfl⟩ := List.mem_map.mp hl
    rcases List.mem_cons.mp hcells with rfl | hcells
    · decide
    · obtain ⟨e, he, rfl⟩ := List.mem_map.mp hcells
      exact newline_notMem_entry (h e he)
  have hmap : rows.map entryCells ≠ [] := by simpa using hne
  rw [hlines]
  constructor
  · have := List.length_pos_of_ne_nil hne
    simp only [List.length_map, List.length_cons]
    omega
  · rw [entriesText_eq, ← List.map_dropLast, List.dropLast_cons_of_ne_nil hmap, ← List.map_dropLast]

lemma entriesText_ne_nil (rows : List Entry) : entriesText rows ≠ [] := by
  rw [entriesText, frameText]
  exact List.append_ne_nil_of_left_ne_nil (by decide) _

/-- The store of some entries. -/
def storeOf (entries : List Entry) : BlockStatusStore (List Char) :=
  ⟨entries.foldl (fun d e => d.set e.1 e.2) .empty, false⟩

/-- The type of the column of hashes. -/
def hashType (rows : List Entry) : ColumnType := inferType (rows.map (·.1.2))

lemma loadFile_some {text : List Char} (hne : text ≠ []) :
    loadFile R (some text) = (readCsvLenient R text).bind fun frame =>
      (frame.rows.mapM (rowEntry R frame.columns)).map storeOf := by
  cases text with
  | nil => exact absurd rfl hne
  | cons c text => rfl

/-- What a load of entries makes of them: all are read, or all but the last. -/
lemma loadFile_cases {rows : List Entry} (h : ∀ e ∈ rows, IsEntry e)
    {s : BlockStatusStore (List Char)} (hs : loadFile R (some (entriesText rows)) = some s) :
    (∃ entries, List.Forall₂ (ReadAs R (hashType rows)) rows entries ∧ s = storeOf entries)
      ∨ ∃ entries, entries.length < rows.length ∧ s = storeOf entries := by
  rw [loadFile_some R (entriesText_ne_nil rows), readCsvLenient, readCsv_entries R h] at hs
  cases hrows : rows.mapM (typedRow R (inferType (rows.map (·.1.2)))) with
  | some values =>
      obtain ⟨entries, hentries, hread⟩ := forall₂_of_mapM R hrows
      rw [hrows] at hs
      simp only [Option.map_some, Option.bind_some, hentries, Option.some.injEq] at hs
      exact .inl ⟨entries, hread, hs.symm⟩
  | none =>
      have hne : rows ≠ [] := by
        rintro rfl
        cases hrows
      obtain ⟨hlines, hdrop⟩ := dropLast_lines h hne
      have hfront : ∀ e ∈ rows.dropLast, IsEntry e := fun e he => h e (List.mem_of_mem_dropLast he)
      rw [hrows] at hs
      simp only [Option.map_none, if_neg hlines, hdrop] at hs
      rw [readCsv_entries R hfront] at hs
      cases hvalues : rows.dropLast.mapM (typedRow R (inferType (rows.dropLast.map (·.1.2)))) with
      | none =>
          rw [hvalues] at hs
          cases hs
      | some values =>
          obtain ⟨entries, hentries, hread⟩ := forall₂_of_mapM R hvalues
          rw [hvalues] at hs
          simp only [Option.map_some, Option.bind_some, hentries, Option.some.injEq] at hs
          refine .inr ⟨entries, ?_, hs.symm⟩
          have := List.length_pos_of_ne_nil hne
          rw [← hread.length_eq, List.length_dropLast]
          omega

/-- A load of entries that are all read. -/
lemma loadFile_of_forall₂ {rows entries : List Entry} (h : ∀ e ∈ rows, IsEntry e)
    (hread : List.Forall₂ (ReadAs R (hashType rows)) rows entries) :
    loadFile R (some (entriesText rows)) = some (storeOf entries) := by
  obtain ⟨values, hvalues, hentries⟩ := mapM_of_forall₂ R hread
  rw [hashType] at hvalues
  rw [loadFile_some R (entriesText_ne_nil rows), readCsvLenient, readCsv_entries R h, hvalues]
  simp only [Option.map_some, Option.bind_some, hentries]

/-! ### Reading back -/

/-- The keys of a store are read back from its file. -/
def RowsRead (rows : List (ℤ × List Char)) : Prop :=
  (∀ r ∈ rows, R.fits r.1 = true) ∧ HashesRead R (rows.map Prod.snd)

/-- Only which rows there are matters. -/
lemma RowsRead.congr {rows rows' : List (ℤ × List Char)} (h : ∀ r, r ∈ rows ↔ r ∈ rows') :
    RowsRead R rows ↔ RowsRead R rows' := by
  have hnil : rows = [] ↔ rows' = [] := by
    simp only [List.eq_nil_iff_forall_not_mem, h]
  simp only [RowsRead, HashesRead, List.mem_map, ne_eq, List.map_eq_nil_iff, h, hnil]

/-- Entries are read as they are exactly when their keys are read back. -/
lemma forall₂_self_iff {rows : List Entry} (h : ∀ e ∈ rows, IsEntry e) :
    List.Forall₂ (ReadAs R (hashType rows)) rows rows ↔ RowsRead R (rows.map Prod.fst) := by
  have hself (e : Entry) : ReadAs R (hashType rows) e e
      ↔ R.fits e.1.1 = true ∧ Kept R (hashType rows) e.1.2 := by
    refine and_congr_right fun _ => exists_congr fun v => and_congr_right fun _ => ?_
    constructor
    · intro he
      exact (congrArg (·.1.2) he).symm
    · intro hv
      rw [hv]
  rw [List.forall₂_same]
  simp only [hself, RowsRead, List.map_map, List.mem_map, forall_exists_index, and_imp,
    forall_apply_eq_imp_iff₂]
  rcases eq_or_ne rows [] with rfl | hne
  · simp [HashesRead]
  · have hkept : (∀ cs ∈ rows.map (·.1.2), Kept R (hashType rows) cs)
        ↔ HashesRead R (rows.map (·.1.2)) := by
      refine kept_iff R (by simpa using hne) fun cs hcs => ?_
      obtain ⟨e, he, rfl⟩ := List.mem_map.mp hcs
      exact (h e he).hash
    have hmap : rows.map (Prod.snd ∘ Prod.fst) = rows.map (·.1.2) := rfl
    rw [hmap, ← hkept]
    simp only [List.mem_map, forall_exists_index, and_imp, forall_apply_eq_imp_iff₂]
    exact ⟨fun hall => ⟨fun e he => (hall e he).1, fun e he => (hall e he).2⟩,
      fun hall e he => ⟨hall.1 e he, hall.2 e he⟩⟩

/-- A hash that is the text of some value of a column is kept in the column. -/
lemma kept_of_toStr {ty : ColumnType} {cs cs' : List Char} {v : Value R} (h : IsHash cs)
    (hv : cellValue R ty (some cs') = some v) (hstr : Value.toStr R v = cs) : Kept R ty cs := by
  cases ty with
  | text => exact kept_text R cs
  | float =>
      obtain rfl := Option.some.inj hv
      obtain ⟨c, hc, hnone⟩ := R.str_notHex (R.float cs')
      have := h.hexValue c (hstr ▸ hc)
      rw [hnone] at this
      cases this
  | boolean =>
      obtain rfl := Option.some.inj hv
      have hlen := h.length
      rw [← hstr, Value.toStr] at hlen
      split_ifs at hlen <;> cases hlen
  | integer =>
      obtain ⟨n, -, hn⟩ := Option.bind_eq_some_iff.mp hv
      rw [Option.ite_none_right_eq_some] at hn
      obtain ⟨hfits, hn⟩ := hn
      obtain rfl := Option.some.inj hn
      have htext : cs = Nat.toDigits 10 n := hstr.symm
      refine ⟨.int n, ?_, hstr⟩
      rw [htext, cellValue, parseDigits_toDigits, Option.bind_some, if_pos hfits]

lemma keys_storeOf_length (entries : List Entry) :
    (storeOf entries).entries.keys.length ≤ entries.length := by
  have hfold (d : Dict (ℤ × List Char) Bool) :
      (entries.foldl (fun d e => d.set e.1 e.2) d).keys.length
        ≤ d.keys.length + entries.length := by
    induction entries generalizing d with
    | nil => rfl
    | cons e entries ih =>
        have hset := d.length_keys_set_le e.1 e.2
        have hrest := ih (d.set e.1 e.2)
        rw [List.foldl_cons, List.length_cons]
        omega
  have := hfold .empty
  rwa [Dict.keys_empty, List.length_nil, zero_add] at this

lemma mem_keys_storeOf {entries : List Entry} {k : ℤ × List Char}
    (h : k ∈ (storeOf entries).entries.keys) : ∃ e ∈ entries, e.1 = k := by
  have hfold (d : Dict (ℤ × List Char) Bool) :
      k ∈ (entries.foldl (fun d e => d.set e.1 e.2) d).keys →
        k ∈ d.keys ∨ ∃ e ∈ entries, e.1 = k := by
    clear h
    induction entries generalizing d with
    | nil => exact fun hk => .inl hk
    | cons e entries ih =>
        intro hk
        rcases ih (d.set e.1 e.2) hk with hk | ⟨e', he', hk⟩
        · rcases (Dict.mem_keys_set _ _ _ _).mp hk with hk | hk
          · exact .inr ⟨e, List.mem_cons_self, hk.symm⟩
          · exact .inl hk
        · exact .inr ⟨e', List.mem_cons_of_mem _ he', hk⟩
  exact (hfold .empty h).resolve_left List.not_mem_nil

/-- The store of the entries of a dictionary, in any order. -/
lemma get?_storeOf {d : Dict (ℤ × List Char) Bool} {rows : List Entry}
    (hperm : rows.Perm d.entries) (k : ℤ × List Char) :
    (storeOf rows).entries.get? k = d.get? k := by
  have hnd : (rows.map Prod.fst).Nodup := (hperm.map _).nodup_iff.mpr d.nodup
  rw [storeOf, Dict.get?_foldl_set rows hnd, Dict.get?_empty, Option.or_none]
  ext v
  rw [Dict.lookup_eq_some_iff hnd, hperm.mem_iff, Dict.get?_eq_some_iff]

/-- A set of entries is read back exactly when its keys are. -/
lemma store_read_iff {d : Dict (ℤ × List Char) Bool} (h : ∀ e ∈ d.entries, IsEntry e) :
    (∃ s, loadFile R (flushFile ⟨d, true⟩ none) = some s ∧ ∀ k, s.entries.get? k = d.get? k)
      ↔ RowsRead R d.keys := by
  have hperm := List.perm_insertionSort before d.entries
  have hfile : flushFile ⟨d, true⟩ none
      = some (entriesText (d.entries.insertionSort before)) := rfl
  generalize d.entries.insertionSort before = rows at hperm hfile
  have hrows : ∀ e ∈ rows, IsEntry e := fun e he => h e (hperm.mem_iff.mp he)
  have hkeys : RowsRead R (rows.map Prod.fst) ↔ RowsRead R d.keys :=
    RowsRead.congr R fun _ => (hperm.map Prod.fst).mem_iff
  rw [hfile, ← hkeys, ← forall₂_self_iff R hrows]
  constructor
  · rintro ⟨s, hs, hget⟩
    have hsub : ∀ e ∈ rows, e.1 ∈ s.entries.keys := fun e he => by
      rw [Dict.mem_keys_iff]
      exact ⟨e.2, (hget e.1).trans (Dict.get?_eq_some_iff.mpr (hperm.mem_iff.mp he))⟩
    rcases loadFile_cases R hrows hs with ⟨entries, hread, rfl⟩ | ⟨entries, hlen, rfl⟩
    · rw [List.forall₂_same]
      intro e he
      obtain ⟨-, -, hfits, -⟩ := exists_of_forall₂ hread he
      -- the hash is the text of the value of some row
      obtain ⟨e', he', hkey⟩ := mem_keys_storeOf (hsub e he)
      obtain ⟨e₀, -, -, v, hv, rfl⟩ := exists_of_forall₂ hread.flip he'
      obtain ⟨v', hv', hstr⟩ := kept_of_toStr R (hrows e he).hash hv (congrArg Prod.snd hkey)
      exact ⟨hfits, v', hv', by rw [hstr]⟩
    · have hcount : rows.length ≤ (storeOf entries).entries.keys.length := by
        have hnd : (rows.map Prod.fst).Nodup := (hperm.map _).nodup_iff.mpr d.nodup
        have := (List.subperm_of_subset hnd fun k hk => by
          obtain ⟨e, he, rfl⟩ := List.mem_map.mp hk
          exact hsub e he).length_le
        rwa [List.length_map] at this
      have := keys_storeOf_length entries
      omega
  · intro hread
    exact ⟨_, loadFile_of_forall₂ R hrows hread, get?_storeOf hperm⟩

/-- What the pointer file is read as. -/
lemma readPointer_writePointer {height : ℤ} {cs : List Char} (hheight : 0 ≤ height) :
    readPointer R (writePointer height cs)
      = if R.fits height then
          (cellValue R (inferType [cs]) (some cs)).map fun v => some (height, Value.toStr R v)
        else none := by
  have hread : readCells (frameText [heightName, blockhashName] [[decimal height, cs]])
      = some ⟨[heightName, blockhashName], [[some (decimal height), some cs]]⟩ :=
    readCells_frameText (by decide) (by simp)
  have htypes : columnTypes 2 [[some (decimal height), some cs]] = [.integer, inferType [cs]] := by
    have hinteger : inferType [decimal height] = .integer :=
      inferType_heights (by simp) (by simpa using isDigits_decimal hheight)
    rw [← hinteger]
    rfl
  have hvalues : readCsv R (frameText [heightName, blockhashName] [[decimal height, cs]])
      = if R.fits height then (cellValue R (inferType [cs]) (some cs)).map fun v =>
          ⟨[heightName, blockhashName], [[.int height, v]]⟩
        else none := by
    rw [readCsv, hread, Option.bind_some]
    simp only [List.length_cons, List.length_nil, htypes, List.mapM_cons, List.mapM_nil, rowValues,
      List.zip_cons_cons, List.zip_nil_right, cellValue_decimal R hheight]
    split_ifs
    · cases cellValue R (inferType [cs]) (some cs) <;> rfl
    · rfl
  have hsingle : readSingleRowCsv R (writePointer height cs)
      = (readCsv R (frameText [heightName, blockhashName] [[decimal height, cs]])).map
          fun frame => frame.rows.head?.map fun row => (frame.columns, row) :=
    rfl
  rw [readPointer, hsingle, hvalues]
  split_ifs
  · cases cellValue R (inferType [cs]) (some cs) <;> rfl
  · rfl

/-- A pointer is read back exactly when its row is. -/
lemma pointer_read_iff {height : ℤ} {cs : List Char} (hheight : 0 ≤ height) (h : IsHash cs) :
    readPointer R (writePointer height cs) = some (some (height, cs))
      ↔ RowsRead R [(height, cs)] := by
  have hkept := kept_iff R (List.cons_ne_nil cs []) (by simpa using h)
  simp only [List.mem_singleton, forall_eq] at hkept
  rw [readPointer_writePointer R hheight, RowsRead, List.map_singleton, ← hkept, Kept]
  simp only [List.mem_singleton, forall_eq]
  by_cases hfits : R.fits height = true
  · simp [hfits]
  · simp [hfits]

/-! ### Calls of `set_canonical` -/

/-- A call: the block and the flag. -/
abbrev Call := (ℕ × Hash) × Bool

/-- The key of the entry that a call is about. -/
def Call.key (c : Call) : ℤ × List Char := (c.1.1, c.1.2.1)

/-- The store after some calls, from an empty one. -/
def afterCalls (calls : List Call) : BlockStatusStore (List Char) :=
  calls.foldl (fun s c => s.setCanonical c.key.1 c.key.2 c.2) (.load .empty)

lemma afterCalls_concat (calls : List Call) (c : Call) :
    afterCalls (calls ++ [c]) = (afterCalls calls).setCanonical c.key.1 c.key.2 c.2 := by
  rw [afterCalls, List.foldl_concat, afterCalls]

lemma mem_keys_afterCalls (calls : List Call) (k : ℤ × List Char) :
    k ∈ (afterCalls calls).entries.keys ↔ k ∈ calls.map Call.key := by
  induction calls using List.reverseRecOn with
  | nil => rfl
  | append_singleton calls c ih =>
      rw [Dict.mem_keys_iff] at ih
      rw [afterCalls_concat, Dict.mem_keys_iff, BlockStatusStore.get?_setCanonical, List.map_append,
        List.mem_append, ← ih]
      split_ifs with hk
      · simp [hk]
      · have : k ≠ c.key := hk
        simp [this]

lemma dirty_afterCalls {calls : List Call} (hne : calls ≠ []) :
    (afterCalls calls).dirty = true := by
  induction calls using List.reverseRecOn with
  | nil => exact absurd rfl hne
  | append_singleton calls c ih =>
      rw [afterCalls_concat, BlockStatusStore.setCanonical]
      split_ifs with hsame
      · refine ih fun hnil => ?_
        rw [hnil] at hsame
        cases hsame
      · rfl

/-- **When the state files give back what was written**: for every height and hash a pointer is read
back, and for every sequence of calls a store is read back after `flush`, exactly when the heights
fit, the hashes do not all consist of digits around an `e`, and, if they all consist of digits, none
of them begins with a zero and all of them fit. -/
theorem state_files_iff :
    (∀ (height : ℕ) (blockhash : Hash),
        readPointer R (writePointer height blockhash.1) = some (some ((height : ℤ), blockhash.1))
          ↔ RowsRead R [((height : ℤ), blockhash.1)])
      ∧ ∀ calls : List Call,
        (∃ s, loadFile R (flushFile (afterCalls calls) none) = some s
            ∧ ∀ k, s.entries.get? k = (afterCalls calls).entries.get? k)
          ↔ RowsRead R (calls.map Call.key) := by
  refine ⟨fun height blockhash => pointer_read_iff R (Int.natCast_nonneg height) blockhash.2,
    fun calls => ?_⟩
  rw [← RowsRead.congr R (mem_keys_afterCalls calls)]
  rcases eq_or_ne calls [] with rfl | hne
  · exact iff_of_true ⟨_, rfl, fun _ => rfl⟩ (by simp [afterCalls, RowsRead, HashesRead,
      BlockStatusStore.load])
  · have hentries : ∀ e ∈ (afterCalls calls).entries.entries, IsEntry e := by
      intro e he
      have hkey : e.1 ∈ (afterCalls calls).entries.keys := List.mem_map_of_mem he
      obtain ⟨c, -, hc⟩ := List.mem_map.mp ((mem_keys_afterCalls calls e.1).mp hkey)
      exact ⟨hc ▸ Int.natCast_nonneg c.1.1, hc ▸ c.1.2.2⟩
    have hstore : afterCalls calls = ⟨(afterCalls calls).entries, true⟩ := by
      rw [← dirty_afterCalls hne]
    rw [hstore]
    exact store_read_iff R hentries

lemma isHash_of_all {cs : List Char} (hlen : cs.length = 64)
    (hall : cs.all (fun c => c.isDigit || ['a', 'b', 'c', 'd', 'e', 'f'].contains c) = true) :
    IsHash cs := by
  refine ⟨hlen, fun c hc => ?_⟩
  have := List.all_eq_true.mp hall c hc
  rwa [Bool.or_eq_true, List.contains_iff_mem] at this

/-- A hash of zeros and a one. -/
def digitHash : Hash := ⟨List.replicate 63 '0' ++ ['1'], isHash_of_all rfl rfl⟩

/-- A hash that reads as a zero with an exponent. -/
def floatHash : Hash :=
  ⟨List.replicate 40 '0' ++ 'e' :: List.replicate 23 '1', isHash_of_all rfl rfl⟩

/-- The hashes come back as the number one and as the float zero, and the entry of the first is not
found again. -/
theorem state_files_numbers :
    readPointer zeroFloats (writePointer 1 digitHash.1) = some (some (1, ['1']))
      ∧ readPointer zeroFloats (writePointer 1 floatHash.1) = some (some (1, ['0', '.', '0']))
      ∧ (loadFile zeroFloats (flushFile (afterCalls [((1, digitHash), false)]) none)).map
          (fun s => (s.entries.get? (1, digitHash.1), s.entries.get? (1, ['1'])))
        = some (none, some false) := by
  refine ⟨?_, ?_, ?_⟩ <;> decide +kernel

end StateFiles

end BtcParser
