import BtcParser.Common.CsvWriter
import BtcParser.Library.Lists
import BtcParser.Rpc.StateFiles

/-!
The parts of a logical CSV are one file.

* `partPath_injective`: no two numbers have the same name, and `matchPart_partPath` reads the number
  off the name.
* `Rotated` describes a directory by the calls that went into each of its parts, and
  `existingPartNumbers_eq` says what a scan of it finds.
* `Rotated.writeRows` is the step lemma of `write_rows_to_csv`, and `rotated_csv` the result.
-/

namespace BtcParser

namespace CsvWriter

open Csv

/-! ### Names -/

lemma ofDigitChars_sixDigits (n : ℕ) : Nat.ofDigitChars 10 (sixDigits n) 0 = n := by
  rw [sixDigits, Nat.ofDigitChars_append, Nat.ofDigitChars_replicate_zero, mul_zero,
    Nat.ofDigitChars_ten_toDigits]

lemma length_sixDigits {n : ℕ} (h : n < 1000000) : (sixDigits n).length = 6 := by
  have hle : (Nat.toDigits 10 n).length ≤ 6 := Nat.toDigits_length 10 n 6 (by decide) h
  rw [sixDigits, List.length_append, List.length_replicate]
  omega

lemma all_sixDigits (n : ℕ) : (sixDigits n).all Char.isDigit = true := by
  rw [List.all_eq_true]
  intro c hc
  rcases List.mem_append.mp hc with hc | hc
  · rw [List.eq_of_mem_replicate hc]
    rfl
  · exact Nat.isDigit_of_mem_toDigits (by decide) (by decide) hc

variable {b : BasePath}

/-- The digits of ASCII have their values. -/
lemma decimalDigit_of_isDigit {c : Char} (h : c.isDigit = true) :
    decimalDigit c = some (c.toNat - 48) := by
  have hrange : 0x30 ≤ c.toNat ∧ c.toNat < 0x30 + 10 := by
    rw [Char.isDigit, Bool.and_eq_true, decide_eq_true_iff, decide_eq_true_iff] at h
    have hlow : (48 : ℕ) ≤ c.toNat := h.1
    have hhigh : c.toNat ≤ 57 := h.2
    omega
  rw [decimalDigit, decimalZeros, List.find?_cons_of_pos]
  · rfl
  · exact decide_eq_true hrange

lemma foldl_decimals (ds : List Char) (n : ℕ) :
    (ds.map fun c => c.toNat - 48).foldl (fun n d => 10 * n + d) n = Nat.ofDigitChars 10 ds n := by
  rw [List.foldl_map]
  rfl

/-- The place of the number in a name. -/
lemma digits_of_name {digits rest : List Char} (hlen : digits.length = 6) :
    ((b.stem ++ '.' :: (digits ++ rest)).drop (b.stem.length + 1)).take 6 = digits := by
  have hsplit : b.stem ++ '.' :: (digits ++ rest) = (b.stem ++ ['.']) ++ (digits ++ rest) := by
    simp
  rw [hsplit, List.drop_left' (by simp), List.take_left' hlen]

lemma matchPart_of_digits {digits name : List Char} (hlen : digits.length = 6)
    (hname : name = b.stem ++ '.' :: (digits ++ b.suffix)
      ∨ name = b.stem ++ '.' :: (digits ++ b.suffix) ++ ['\n']) :
    matchPart b name = (digits.mapM decimalDigit).map (List.foldl (fun n d => 10 * n + d) 0) := by
  have hdigits : (name.drop (b.stem.length + 1)).take 6 = digits := by
    rcases hname with rfl | rfl
    · exact digits_of_name hlen
    · rw [List.append_assoc, List.cons_append, List.append_assoc]
      exact digits_of_name hlen
  rw [matchPart, hdigits]
  exact if_pos ⟨hname, hlen⟩

/-- The name of a part tells its number. -/
lemma matchPart_partPath {n : ℕ} (h1 : 1 < n) (h : n < 1000000) :
    matchPart b (partPath b n) = some n := by
  have hname : partPath b n = b.stem ++ '.' :: (sixDigits n ++ b.suffix) :=
    if_neg (not_le.mpr h1)
  have hvalues : (sixDigits n).mapM decimalDigit
      = some ((sixDigits n).map fun c => c.toNat - 48) := by
    rw [mapM_eq_some_iff, List.map_map]
    exact List.map_congr_left fun c hc =>
      decimalDigit_of_isDigit (List.all_eq_true.mp (all_sixDigits n) c hc)
  rw [matchPart_of_digits (length_sixDigits h) (.inl hname), hvalues, Option.map_some,
    foldl_decimals, ofDigitChars_sixDigits]

lemma matchPart_name : matchPart b b.name = none := by
  refine if_neg fun h => ?_
  rcases h.1 with h | h <;>
  · have hlen := congrArg List.length h
    simp only [BasePath.name, List.length_append, List.length_cons] at hlen
    omega

/-- No two parts have the same name. -/
lemma partPath_injective {n m : ℕ} (hn : 1 ≤ n) (hm : 1 ≤ m) (h : partPath b n = partPath b m) :
    n = m := by
  have hne {k : ℕ} : b.stem ++ '.' :: (sixDigits k ++ b.suffix) ≠ b.name := fun he => by
    have hlen := congrArg List.length he
    simp only [BasePath.name, List.length_append, List.length_cons] at hlen
    omega
  rw [partPath, partPath] at h
  split_ifs at h with h1 h2 h2
  · omega
  · exact absurd h.symm hne
  · exact absurd h hne
  · have hdigits : sixDigits n = sixDigits m := by
      simpa using h
    rw [← ofDigitChars_sixDigits n, hdigits, ofDigitChars_sixDigits]

/-! ### What a part holds -/

variable {V : Type} (b) (lib : DataFrames V) (columns : List (List Char)) (maxPartBytes : ℕ)

/-- The text of a part, from the calls that went into it: one header, and then their rows. -/
def partText : List (List (List V)) → List Char
  | [] => []
  | calls => lib.headerText columns ++ calls.flatMap lib.rowsText

/-- The directory has one part for each list of calls. Every part but the last is full, and no part
was before its last call. -/
structure Rotated (dir : Directory) (parts : List (List (List (List V)))) : Prop where
  entries : dir.entries
    = (parts.zipIdx 1).map fun p => (partPath b p.2, partText lib columns p.1)
  filled : ∀ calls ∈ parts, calls ≠ []
  full : ∀ calls ∈ parts.dropLast, maxPartBytes ≤ fileSize (partText lib columns calls)
  below : ∀ calls ∈ parts, fileSize (partText lib columns calls.dropLast) < maxPartBytes

variable {b lib columns maxPartBytes} {dir : Directory} {parts : List (List (List (List V)))}
  {Plain : List V → Prop}

lemma Rotated.keys (h : Rotated b lib columns maxPartBytes dir parts) :
    dir.keys = (List.range' 1 parts.length).map (partPath b) := by
  rw [Dict.keys, h.entries, List.map_map, ← List.zipIdx_map_snd 1 parts, List.map_map]
  rfl

/-- What a scan of the directory finds. -/
lemma existingPartNumbers_eq (h : Rotated b lib columns maxPartBytes dir parts)
    (hfew : parts.length < 1000000) :
    existingPartNumbers b dir = List.range' 1 parts.length := by
  have hscan : (if dir.contains b.name then [1] else []) ++ dir.keys.filterMap (matchPart b)
      = List.range' 1 parts.length := by
    have hkeys := h.keys
    cases hlen : parts.length with
    | zero =>
        rw [hlen] at hkeys
        have hnone : dir.contains b.name = false := by
          rw [Dict.contains_eq_false, Dict.get?_eq_none_iff, hkeys]
          exact List.not_mem_nil
        rw [hnone, hkeys]
        rfl
    | succ k =>
        rw [hlen, List.range'_succ, List.map_cons] at hkeys
        have hsome : dir.contains b.name = true := by
          rw [Dict.contains_eq_true, ← Dict.mem_keys_iff, hkeys]
          exact List.mem_cons_self
        have hone : matchPart b (partPath b 1) = none := matchPart_name
        have hrest : ((List.range' 2 k).map (partPath b)).filterMap (matchPart b)
            = List.range' 2 k := by
          rw [List.filterMap_map]
          refine (List.filterMap_congr fun n hn => ?_).trans List.filterMap_some
          have hn' := List.mem_range'_1.mp hn
          exact matchPart_partPath (by omega) (by omega)
        rw [hsome, hkeys, List.filterMap_cons, hone, hrest, List.range'_succ]
        rfl
  rw [existingPartNumbers, hscan]
  exact (List.pairwise_le_range').insertionSort_eq

/-- The parts are found by their numbers. -/
lemma Rotated.text_eq (h : Rotated b lib columns maxPartBytes dir parts) {i : ℕ}
    (hi : i < parts.length) : dir.text (partPath b (i + 1)) = partText lib columns parts[i] := by
  have hmem : (partPath b (i + 1), partText lib columns parts[i]) ∈ dir.entries := by
    rw [h.entries]
    refine List.mem_map.mpr ⟨(parts[i], i + 1), ?_, rfl⟩
    rw [List.mk_mem_zipIdx_iff_le_and_getElem?_sub]
    exact ⟨Nat.le_add_left 1 i, List.getElem?_eq_getElem hi⟩
  rw [Directory.text, Dict.get?_eq_some_iff.mpr hmem, Option.getD_some]

/-! ### Writing -/

lemma partText_append {calls : List (List (List V))} (hne : calls ≠ []) (rows : List (List V)) :
    partText lib columns (calls ++ [rows]) = partText lib columns calls ++ lib.rowsText rows := by
  obtain ⟨first, rest, rfl⟩ := List.exists_cons_of_ne_nil hne
  simp [partText]

lemma fileSize_pos {text : List Char} (h : text ≠ []) : 0 < fileSize text := by
  obtain ⟨c, cs, rfl⟩ := List.exists_cons_of_ne_nil h
  have := c.utf8Size_pos
  simp only [fileSize, List.map_cons, List.sum_cons]
  omega

lemma partText_ne_nil (hheader : lib.headerText columns ≠ []) {calls : List (List (List V))}
    (hne : calls ≠ []) : partText lib columns calls ≠ [] := by
  obtain ⟨first, rest, rfl⟩ := List.exists_cons_of_ne_nil hne
  simp [partText, hheader]

lemma Rotated.next_notMem (h : Rotated b lib columns maxPartBytes dir parts) :
    partPath b (parts.length + 1) ∉ dir.keys := by
  rw [h.keys]
  intro hmem
  obtain ⟨n, hn, heq⟩ := List.mem_map.mp hmem
  have hn' := List.mem_range'_1.mp hn
  have := partPath_injective (by omega) (by omega) heq
  omega

/-- A part is started. -/
lemma Rotated.start (h : Rotated b lib columns maxPartBytes dir parts) (hcap : 1 ≤ maxPartBytes)
    (rows : List (List V))
    (hfull : ∀ calls ∈ parts.getLast?, maxPartBytes ≤ fileSize (partText lib columns calls)) :
    Rotated b lib columns maxPartBytes
      (dir.set (partPath b (parts.length + 1)) (partText lib columns [rows]))
      (parts ++ [[rows]]) := by
  refine ⟨?_, ?_, ?_, ?_⟩
  · rw [Dict.entries_set_new h.next_notMem, h.entries, List.zipIdx_append, List.map_append,
      add_comm 1]
    rfl
  · simpa [or_imp, forall_and] using h.filled
  · intro calls hmem
    rw [List.dropLast_concat] at hmem
    rcases List.eq_nil_or_concat' parts with rfl | ⟨front, last, rfl⟩
    · cases hmem
    · rcases List.mem_append.mp hmem with hmem | hmem
      · exact h.full calls (by rwa [List.dropLast_concat])
      · obtain rfl := List.mem_singleton.mp hmem
        exact hfull calls (by rw [List.getLast?_concat]; rfl)
  · intro calls hmem
    rcases List.mem_append.mp hmem with hmem | hmem
    · exact h.below calls hmem
    · obtain rfl := List.mem_singleton.mp hmem
      exact hcap

/-- A part goes on. -/
lemma Rotated.goOn {front : List (List (List (List V)))} {calls : List (List (List V))}
    (h : Rotated b lib columns maxPartBytes dir (front ++ [calls])) (rows : List (List V))
    (hbelow : fileSize (partText lib columns calls) < maxPartBytes) :
    Rotated b lib columns maxPartBytes
      (dir.set (partPath b (front.length + 1)) (partText lib columns (calls ++ [rows])))
      (front ++ [calls ++ [rows]]) := by
  have hentries := h.entries
  rw [List.zipIdx_append, List.map_append, add_comm 1] at hentries
  refine ⟨?_, ?_, ?_, ?_⟩
  · rw [Dict.entries_set_last hentries, List.zipIdx_append, List.map_append, add_comm 1]
    rfl
  · intro p hp
    rcases List.mem_append.mp hp with hp | hp
    · exact h.filled p (List.mem_append_left _ hp)
    · obtain rfl := List.mem_singleton.mp hp
      simp
  · have hfull := h.full
    rw [List.dropLast_concat] at hfull ⊢
    exact hfull
  · intro p hp
    rcases List.mem_append.mp hp with hp | hp
    · exact h.below p (List.mem_append_left _ hp)
    · obtain rfl := List.mem_singleton.mp hp
      rwa [List.dropLast_concat]

lemma writeRowsToCsv_new {rows : List (List V)} (hne : rows ≠ [])
    (hold : dir.text (currentPartForAppend b maxPartBytes dir) = []) :
    writeRowsToCsv b lib columns maxPartBytes dir rows
      = dir.set (currentPartForAppend b maxPartBytes dir) (partText lib columns [rows]) := by
  rw [writeRowsToCsv, if_neg (by simpa using hne)]
  simp only [hold]
  simp [fileSize, partText]

lemma writeRowsToCsv_old (hheader : lib.headerText columns ≠ []) {rows : List (List V)}
    (hne : rows ≠ []) {calls : List (List (List V))}
    (hcalls : calls ≠ [])
    (hold : dir.text (currentPartForAppend b maxPartBytes dir) = partText lib columns calls) :
    writeRowsToCsv b lib columns maxPartBytes dir rows
      = dir.set (currentPartForAppend b maxPartBytes dir)
        (partText lib columns (calls ++ [rows])) := by
  rw [writeRowsToCsv, if_neg (by simpa using hne), partText_append hcalls]
  simp only [hold, fileSize_pos (partText_ne_nil hheader hcalls), if_true, List.nil_append]

/-- A name that no part has yet holds nothing. -/
lemma Rotated.text_next (h : Rotated b lib columns maxPartBytes dir parts) :
    dir.text (partPath b (parts.length + 1)) = [] := by
  rw [Directory.text, Dict.get?_eq_none_iff.mpr h.next_notMem, Option.getD_none]

/-- A call that has rows starts a part or goes into the last one. -/
lemma Rotated.writeRows (hheader : lib.headerText columns ≠ [])
    (h : Rotated b lib columns maxPartBytes dir parts) (hcap : 1 ≤ maxPartBytes)
    {rows : List (List V)} (hne : rows ≠ []) (hfew : parts.length < 1000000) :
    Rotated b lib columns maxPartBytes (writeRowsToCsv b lib columns maxPartBytes dir rows)
        (parts ++ [[rows]])
      ∨ ∃ front calls, parts = front ++ [calls] ∧
        Rotated b lib columns maxPartBytes (writeRowsToCsv b lib columns maxPartBytes dir rows)
          (front ++ [calls ++ [rows]]) := by
  have hnumbers := existingPartNumbers_eq h hfew
  rcases List.eq_nil_or_concat' parts with rfl | ⟨front, calls, rfl⟩
  · have htarget : currentPartForAppend b maxPartBytes dir = partPath b 1 := by
      rw [currentPartForAppend, hnumbers]
      rfl
    left
    rw [writeRowsToCsv_new hne (by rw [htarget]; exact h.text_next), htarget]
    exact h.start hcap rows (by simp)
  · have htext : dir.text (partPath b (front.length + 1)) = partText lib columns calls := by
      rw [h.text_eq (i := front.length) (by simp)]
      simp
    have htarget : currentPartForAppend b maxPartBytes dir
        = if maxPartBytes ≤ fileSize (partText lib columns calls)
          then partPath b (front.length + 1 + 1)
          else partPath b (front.length + 1) := by
      rw [currentPartForAppend, hnumbers, List.length_append, List.length_singleton,
        List.range'_concat, List.getLast?_concat]
      simp only [one_mul, add_comm 1, htext]
    split_ifs at htarget with hfull
    · left
      have hnext := h.text_next
      rw [List.length_append, List.length_singleton] at hnext
      rw [writeRowsToCsv_new hne (by rw [htarget, hnext]), htarget]
      have hstart := h.start hcap rows (by simpa using hfull)
      rwa [List.length_append, List.length_singleton] at hstart
    · right
      have hcalls : calls ≠ [] := h.filled calls (by simp)
      refine ⟨front, calls, rfl, ?_⟩
      rw [writeRowsToCsv_old hheader hne hcalls (by rw [htarget, htext]), htarget]
      exact h.goOn rows (not_le.mp hfull)

/-! ### Reading -/

/-- The text of a part is the one of its rows. -/
lemma readCsv_partText (hlib : lib.Keeps columns Plain) {calls : List (List (List V))}
    (hne : calls.flatten ≠ []) (hplain : ∀ r ∈ calls.flatten, Plain r) :
    lib.readCsv (partText lib columns calls) = some ⟨columns, calls.flatten⟩ := by
  have hrows : calls.flatMap lib.rowsText = lib.rowsText calls.flatten := by
    have heach : ∀ rows ∈ calls, lib.rowsText rows = rows.flatMap fun r => lib.rowsText [r] :=
      fun rows hrows => hlib.rowsText rows fun r hr =>
        hplain r (List.mem_flatten.mpr ⟨_, hrows, hr⟩)
    rw [hlib.rowsText _ hplain, List.flatMap_congr heach, ← List.flatMap_id, List.flatMap_assoc]
    rfl
  have htext : partText lib columns calls
      = lib.headerText columns ++ lib.rowsText calls.flatten := by
    obtain ⟨first, rest, rfl⟩ :=
      List.exists_cons_of_ne_nil (l := calls) (by rintro rfl; exact hne rfl)
    rw [← hrows]
    rfl
  rw [htext, hlib.readCsv _ hne hplain]

/-- The texts of the parts, in the order in which they are read. -/
lemma Rotated.texts (h : Rotated b lib columns maxPartBytes dir parts)
    (hfew : parts.length < 1000000) :
    (allParts b dir).map dir.text = parts.map (partText lib columns) := by
  rw [allParts, existingPartNumbers_eq h hfew]
  refine List.ext_getElem (by simp) fun i hi hi' => ?_
  have hi'' : i < parts.length := by simpa using hi'
  rw [List.getElem_map, List.getElem_map, List.getElem_map, List.getElem_range', one_mul,
    add_comm 1, h.text_eq hi'']

/-- All rows are read back, in order. -/
lemma Rotated.readCsvParts_eq (hlib : lib.Keeps columns Plain)
    (hheader : lib.headerText columns ≠ [])
    (h : Rotated b lib columns maxPartBytes dir parts) (hfew : parts.length < 1000000)
    (hfilled : ∀ calls ∈ parts, calls.flatten ≠ [])
    (hplain : ∀ r ∈ parts.flatten.flatten, Plain r) :
    (readCsvParts b lib dir).map (·.rows) = some parts.flatten.flatten := by
  have hfilter : (parts.map (partText lib columns)).filter (0 < fileSize ·)
      = parts.map (partText lib columns) := by
    rw [List.filter_eq_self]
    intro text htext
    obtain ⟨calls, hcalls, rfl⟩ := List.mem_map.mp htext
    exact decide_eq_true (fileSize_pos (partText_ne_nil hheader (h.filled calls hcalls)))
  have hrows : ∀ calls ∈ parts, ∀ r ∈ calls.flatten, Plain r := fun calls hcalls r hr =>
    hplain r (by
      rw [List.flatten_flatten]
      exact List.mem_flatten.mpr ⟨_, List.mem_map_of_mem hcalls, hr⟩)
  have hread : (parts.map (partText lib columns)).mapM (readCsvLenient lib)
      = some (parts.map fun calls => ⟨columns, calls.flatten⟩) := by
    rw [mapM_eq_some_iff, List.map_map, List.map_map]
    refine List.map_congr_left fun calls hcalls => ?_
    rw [Function.comp_apply, readCsvLenient,
      readCsv_partText hlib (hfilled calls hcalls) (hrows calls hcalls)]
    rfl
  rw [readCsvParts, h.texts hfew, hfilter, hread, Option.bind_eq_bind, Option.bind_some]
  split_ifs with hempty
  · obtain rfl := List.map_eq_nil_iff.mp hempty
    rfl
  · rw [hlib.concat _ hempty fun f hf => ?_]
    · simp [List.flatMap_def, List.flatten_flatten, Function.comp_def]
    · obtain ⟨calls, hcalls, rfl⟩ := List.mem_map.mp hf
      exact ⟨rfl, hrows calls hcalls⟩

/-! ### Sequences of calls -/

/-- The directory after a sequence of calls. -/
def writeAll (b : BasePath) (lib : DataFrames V) (columns : List (List Char)) (maxPartBytes : ℕ)
    (calls : List (List (List V))) : Directory :=
  calls.foldl (writeRowsToCsv b lib columns maxPartBytes) .empty

lemma length_keys_writeRowsToCsv (dir : Directory) (rows : List (List V)) :
    dir.keys.length ≤ (writeRowsToCsv b lib columns maxPartBytes dir rows).keys.length := by
  rw [writeRowsToCsv]
  split_ifs
  · rfl
  · refine (List.subperm_of_subset dir.keys_nodup fun k hk => ?_).length_le
    exact (Dict.mem_keys_set _ _ _ _).mpr (.inr hk)

lemma writeAll_concat (calls : List (List (List V))) (rows : List (List V)) :
    writeAll b lib columns maxPartBytes (calls ++ [rows])
      = writeRowsToCsv b lib columns maxPartBytes
        (writeAll b lib columns maxPartBytes calls) rows := by
  rw [writeAll, writeAll, List.foldl_concat]

/-- After every sequence of calls the directory consists of the parts they went into. -/
lemma rotated_writeAll (hheader : lib.headerText columns ≠ []) (hcap : 1 ≤ maxPartBytes)
    (calls : List (List (List V)))
    (hfew : (writeAll b lib columns maxPartBytes calls).keys.length < 1000000) :
    ∃ parts, Rotated b lib columns maxPartBytes (writeAll b lib columns maxPartBytes calls) parts
      ∧ parts.flatten = calls.filter (· ≠ []) := by
  induction calls using List.reverseRecOn with
  | nil => exact ⟨[], ⟨rfl, by simp, by simp, by simp⟩, rfl⟩
  | append_singleton calls rows ih =>
      rw [writeAll_concat] at hfew ⊢
      obtain ⟨parts, hparts, hcalls⟩ := ih ((length_keys_writeRowsToCsv _ _).trans_lt hfew)
      by_cases hne : rows = []
      · refine ⟨parts, ?_, by simpa [hne] using hcalls⟩
        rw [writeRowsToCsv, if_pos hne]
        exact hparts
      · have hlen : parts.length < 1000000 := by
          have hkeys := congrArg List.length hparts.keys
          rw [List.length_map, List.length_range'] at hkeys
          rw [← hkeys]
          exact (length_keys_writeRowsToCsv _ _).trans_lt hfew
        have hflat : calls.filter (· ≠ []) ++ [rows] = (calls ++ [rows]).filter (· ≠ []) := by
          simp [List.filter_append, hne]
        rcases hparts.writeRows hheader hcap hne hlen with hnew | ⟨front, last, rfl, hon⟩
        · exact ⟨_, hnew, by rw [List.flatten_append, hcalls, ← hflat]; simp⟩
        · refine ⟨_, hon, ?_⟩
          rw [← hflat, ← hcalls]
          simp

/-- **Rotated parts are one file**: after any sequence of calls that takes fewer than a million
parts, the files are the parts in order, each with one header at its top and the rows of whole calls
below; every part but the last has reached the cap, and was below it before its last call; the calls
are in the parts in order; and reading the parts gives all rows in order, if they are of a kind that
keeps its values. -/
theorem rotated_csv (b : BasePath) (lib : DataFrames V) (columns : List (List Char))
    (maxPartBytes : ℕ) (hheader : lib.headerText columns ≠ []) (hcap : 1 ≤ maxPartBytes)
    (calls : List (List (List V)))
    (hfew : (writeAll b lib columns maxPartBytes calls).keys.length < 1000000) :
    ∃ parts, Rotated b lib columns maxPartBytes (writeAll b lib columns maxPartBytes calls) parts
      ∧ parts.flatten = calls.filter (· ≠ [])
      ∧ ∀ Plain, lib.Keeps columns Plain → (∀ rows ∈ calls, ∀ r ∈ rows, Plain r) →
        (readCsvParts b lib (writeAll b lib columns maxPartBytes calls)).map (·.rows)
          = some calls.flatten := by
  obtain ⟨parts, hparts, hcalls⟩ := rotated_writeAll hheader hcap calls hfew
  have hrows : parts.flatten.flatten = calls.flatten := by
    rw [hcalls]
    exact List.flatten_filter_ne_nil
  have hlen : parts.length < 1000000 := by
    have hkeys := congrArg List.length hparts.keys
    rw [List.length_map, List.length_range'] at hkeys
    rwa [← hkeys]
  refine ⟨parts, hparts, hcalls, fun Plain hlib hplain => ?_⟩
  rw [hparts.readCsvParts_eq hlib hheader hlen (fun part hpart => ?_) fun r hr => ?_, hrows]
  · -- a part begins with a call that has rows
    obtain ⟨rows, rest, rfl⟩ := List.exists_cons_of_ne_nil (hparts.filled part hpart)
    have hmem : rows ∈ calls.filter (· ≠ []) :=
      hcalls ▸ List.mem_flatten.mpr ⟨_, hpart, List.mem_cons_self⟩
    have hne : rows ≠ [] := by simpa using List.of_mem_filter hmem
    simp [hne]
  · rw [hrows] at hr
    obtain ⟨rows, hmem, hr⟩ := List.mem_flatten.mp hr
    exact hplain rows hmem r hr

/-! ### A reader that guesses the types of the columns -/

open StateFiles in
/-- The cell of a value. -/
def cellText (R : Numbers) : Value R → Field
  | .null => none
  | .int z => some (IndexText.decimal z)
  | .float x => some (R.str x)
  | .bool v => some (booleanText v)
  | .text cs => some cs

/-- Frames that are written as they are, and read back with the types their texts suggest. -/
def guessing (R : StateFiles.Numbers) : DataFrames (StateFiles.Value R) where
  headerText columns := renderCells (columns.map some)
  rowsText rows := rows.flatMap fun r => renderCells (r.map (cellText R))
  readCsv text := (StateFiles.readCsv R text).map fun frame => ⟨frame.columns, frame.rows⟩
  concat
    | [] => none
    | f :: fs =>
        if ∀ g ∈ fs, g.columns = f.columns then some ⟨f.columns, (f :: fs).flatMap (·.rows)⟩
        else none

/-- A row of nulls and of texts that are no numbers. -/
def PlainRow (R : StateFiles.Numbers) (columns : List (List Char)) (r : List (StateFiles.Value R)) :
    Prop :=
  r.length = columns.length ∧ ∀ v ∈ r, v = .null ∨ ∃ cs, v = .text cs ∧ StateFiles.PlainText cs

variable {R : StateFiles.Numbers}

/-- Columns of nulls and of texts that are no numbers are columns of texts. -/
lemma columnTypes_plain {rows : List (List (StateFiles.Value R))}
    (h : ∀ r ∈ rows, PlainRow R columns r) :
    StateFiles.columnTypes columns.length (rows.map (·.map (cellText R)))
      = List.replicate columns.length .text := by
  rw [StateFiles.columnTypes, List.eq_replicate_iff]
  refine ⟨by simp, fun t ht => ?_⟩
  obtain ⟨i, -, rfl⟩ := List.mem_map.mp ht
  rcases List.eq_nil_or_concat' ((rows.map (·.map (cellText R))).filterMap
    fun r : List Field => (r[i]?).join) with hnil | ⟨front, cs, hcells⟩
  · rw [hnil]
    rfl
  · have hmem : cs ∈ (rows.map (·.map (cellText R))).filterMap
        fun r : List Field => (r[i]?).join := hcells ▸ List.mem_append_right _ List.mem_cons_self
    refine StateFiles.inferType_of_plainText hmem ?_
    obtain ⟨cells, hcells, hcs⟩ := List.mem_filterMap.mp hmem
    obtain ⟨r, hr, rfl⟩ := List.mem_map.mp hcells
    rw [Option.join_eq_some_iff, List.getElem?_map, Option.map_eq_some_iff] at hcs
    obtain ⟨v, hv, hcs⟩ := hcs
    rcases (h r hr).2 v (List.mem_of_getElem? hv) with rfl | ⟨text, rfl, htext⟩
    · cases hcs
    · cases hcs
      exact htext

lemma rowValues_plain {r : List (StateFiles.Value R)} (h : PlainRow R columns r) :
    StateFiles.rowValues R (List.replicate columns.length .text) (r.map (cellText R)) = some r := by
  rw [StateFiles.rowValues, ← h.1, mapM_eq_some_iff]
  refine List.ext_getElem (by simp) fun i hi hi' => ?_
  have hi'' : i < r.length := by simpa using hi'
  rcases h.2 r[i] (List.getElem_mem hi'') with hv | ⟨text, hv, -⟩ <;>
    simp [hv, cellText, StateFiles.cellValue]

lemma keeps_guessing (hcolumns : columns ≠ []) :
    (guessing R).Keeps columns (PlainRow R columns) where
  rowsText rows _ := by simp [guessing]
  readCsv rows _ h := by
    have hcells : StateFiles.readCells ((guessing R).headerText columns
      ++ (guessing R).rowsText rows)
        = some ⟨columns, rows.map (·.map (cellText R))⟩ := by
      have hlength : ∀ r ∈ rows.map (·.map (cellText R)), r.length = columns.length := by
        rw [List.forall_mem_map]
        exact fun r hr => (List.length_map _).trans (h r hr).1
      have hread := StateFiles.readCells_renderCells hcolumns hlength
      rwa [List.flatMap_map] at hread
    have hvalues : (rows.map (·.map (cellText R))).mapM
        (StateFiles.rowValues R (List.replicate columns.length .text)) = some rows := by
      rw [mapM_eq_some_iff, List.map_map]
      exact List.map_congr_left fun r hr => rowValues_plain (h r hr)
    show (StateFiles.readCsv R _).map _ = _
    rw [StateFiles.readCsv, hcells, Option.bind_some, columnTypes_plain h, hvalues]
    rfl
  concat frames hne h := by
    obtain ⟨f, fs, rfl⟩ := List.exists_cons_of_ne_nil hne
    have hf := (h f List.mem_cons_self).1
    have hsame : ∀ g ∈ fs, g.columns = f.columns := fun g hg =>
      (h g (List.mem_cons_of_mem f hg)).1.trans hf.symm
    show (if ∀ g ∈ fs, g.columns = f.columns then _ else _) = _
    rw [if_pos hsame, hf]

/-- Three calls, of which the second has no rows, and a cap that every call reaches. -/
theorem rotated_csv_threeCalls :
    (readCsvParts ⟨['a'], ['.', 'c']⟩ (guessing StateFiles.zeroFloats)
        (writeAll ⟨['a'], ['.', 'c']⟩ (guessing StateFiles.zeroFloats) [['x'], ['y']] 4
          [[[.text ['a'], .null]], [], [[.text ['b'], .text ['1', 'c']]]])).map (·.rows)
      = some [[.text ['a'], .null], [.text ['b'], .text ['1', 'c']]] := by
  obtain ⟨_, _, _, hread⟩ := rotated_csv ⟨['a'], ['.', 'c']⟩ (guessing StateFiles.zeroFloats)
    [['x'], ['y']] 4 (by decide) (by decide)
    [[[.text ['a'], .null]], [], [[.text ['b'], .text ['1', 'c']]]] (by decide +kernel)
  have htext : ∀ cs, StateFiles.PlainText cs →
    (.text cs : StateFiles.Value StateFiles.zeroFloats) = .null
      ∨ ∃ cs', (.text cs : StateFiles.Value StateFiles.zeroFloats) = .text cs'
        ∧ StateFiles.PlainText cs' := fun cs h => .inr ⟨cs, rfl, h⟩
  refine hread _ (keeps_guessing (by decide)) ?_
  simp only [List.forall_mem_cons, List.not_mem_nil, false_imp_iff, forall_true_iff, and_true,
    true_and]
  refine ⟨⟨rfl, ?_⟩, ⟨rfl, ?_⟩⟩ <;> simp only [List.forall_mem_cons, List.not_mem_nil,
    false_imp_iff, forall_true_iff, and_true]
  · exact ⟨htext _ (by decide), .inl trivial⟩
  · exact ⟨htext _ (by decide), htext _ (by decide)⟩

/-- A text of digits comes back as a number. -/
theorem rotated_csv_retyped :
    (readCsvParts ⟨['a'], ['.', 'c']⟩ (guessing StateFiles.zeroFloats)
        (writeAll ⟨['a'], ['.', 'c']⟩ (guessing StateFiles.zeroFloats) [['x']] 1000
          [[[.text ['0', '0', '7']]]])).map (·.rows) = some [[.int 7]]
      ∧ (readCsvParts ⟨['a'], ['.', 'c']⟩ (guessing StateFiles.zeroFloats)
        (writeAll ⟨['a'], ['.', 'c']⟩ (guessing StateFiles.zeroFloats) [['x']] 1000
          [[[.text ['0', '0', '7']]]])).map (·.rows)
        ≠ some [[[.text ['0', '0', '7']]]].flatten := by
  have hread : (readCsvParts ⟨['a'], ['.', 'c']⟩ (guessing StateFiles.zeroFloats)
      (writeAll ⟨['a'], ['.', 'c']⟩ (guessing StateFiles.zeroFloats) [['x']] 1000
        [[[.text ['0', '0', '7']]]])).map (·.rows) = some [[.int 7]] := by
    rfl
  refine ⟨hread, fun h => ?_⟩
  rw [hread] at h
  simp at h

end CsvWriter

end BtcParser
