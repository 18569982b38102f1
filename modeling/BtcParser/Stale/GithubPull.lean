import BtcParser.Library.Lists
import BtcParser.Rpc.StaleBlocksGithub
import BtcParser.Stale.Provenance

/-!
Which bodies of the dataset the pull survives.

* `readable` is the row that can be read of a record, and `Promised` what a pull is to do: return
  the readable rows or raise `GithubFetchError`, and end with `True` or `False`.
* `headerRows_iff`: the loop returns the readable rows if every record is `Whole`. A record that
  ends before its height raises `TypeError`, and one that ends before its hash or its header is not
  skipped.
* `foldlM_tryPullRow`: the rows can be written if the data frame library takes the heights of
  the blocks that are new.
* `promised_iff`: when a pull does what is promised.
* `survives`: the daemon goes on as long as its pulls do.
-/

namespace BtcParser

namespace StaleBlocks

open DictReader

/-! ### What is promised -/

/-- The row that can be read: its height is a number, and it has a hash and a header. -/
def readable (row : RawRow) : Option GithubHeaderRow := do
  let height ← intText (← (row.get? heightName).join)
  let hash ← (row.get? hashName).join
  let header ← (row.get? headerName).join
  return ⟨height, hash, header⟩

/-- The readable rows of a text. -/
def readableRows (text : List Char) : List GithubHeaderRow := (dictRows text).1.filterMap readable

/-- The fetch returns the readable rows or raises `GithubFetchError`, and the pull returns. -/
structure Promised (sha256 : List UInt8 → List UInt8) (fits : ℤ → Bool) (s : State)
    (download : Download) : Prop where
  fetched : fetchStaleBlocksCsv download = .error .githubFetchError
    ∨ ∃ text, download = .ok text ∧ fetchStaleBlocksCsv download = .ok (readableRows text)
  returned : ∃ b s', runGithubPull sha256 fits s download = .ok (b, s')

/-- A record that ends neither before its height nor, if the height is a number and there are the
columns of the hash and the header, before one of these. -/
structure Whole (fieldnames row : Record) : Prop where
  height : ¬ Short fieldnames row heightName
  others : ∀ i text n, column fieldnames heightName = some i → row[i]? = some text →
    intText text = some n → (column fieldnames hashName).isSome →
      (column fieldnames headerName).isSome →
        ¬ Short fieldnames row hashName ∧ ¬ Short fieldnames row headerName

/-- A record with as many fields as there are columns is whole. -/
lemma whole_of_length {fieldnames row : Record} (h : fieldnames.length ≤ row.length) :
    Whole fieldnames row := by
  have hlong (name : List Char) : ¬ Short fieldnames row name := by
    rintro ⟨i, hi, hshort⟩
    have := lt_length_of_column hi
    omega
  exact ⟨hlong _, fun _ _ _ _ _ _ _ _ => ⟨hlong _, hlong _⟩⟩

/-! ### The fetch -/

/-- `Whole`, of the row of a record. -/
structure Sound (row : RawRow) : Prop where
  height : row.get? heightName ≠ some none
  others : ∀ text n, row.get? heightName = some (some text) → intText text = some n →
    row.get? hashName ≠ none → row.get? headerName ≠ none →
      row.get? hashName ≠ some none ∧ row.get? headerName ≠ some none

lemma sound_rowDict_iff {fieldnames row : Record} :
    Sound (rowDict fieldnames row) ↔ Whole fieldnames row := by
  have hnone (name : List Char) :
      (rowDict fieldnames row).get? name ≠ none ↔ (column fieldnames name).isSome = true := by
    rw [get?_rowDict, ne_eq, Option.map_eq_none_iff, Option.isSome_iff_ne_none]
  have hshort (name : List Char) :
      (rowDict fieldnames row).get? name ≠ some none ↔ ¬ Short fieldnames row name :=
    not_congr get?_rowDict_eq_some_none_iff
  constructor
  · rintro ⟨hheight, hothers⟩
    refine ⟨(hshort _).mp hheight, fun i text n hi htext hn hhash hheader => ?_⟩
    have hget : (rowDict fieldnames row).get? heightName = some (some text) := by
      rw [get?_rowDict, hi, Option.map_some, htext]
    obtain ⟨h₁, h₂⟩ := hothers text n hget hn ((hnone _).mpr hhash) ((hnone _).mpr hheader)
    exact ⟨(hshort _).mp h₁, (hshort _).mp h₂⟩
  · rintro ⟨hheight, hothers⟩
    refine ⟨(hshort _).mpr hheight, fun text n hget hn hhash hheader => ?_⟩
    rw [get?_rowDict, Option.map_eq_some_iff] at hget
    obtain ⟨i, hi, htext⟩ := hget
    obtain ⟨h₁, h₂⟩ := hothers i text n hi htext hn ((hnone _).mp hhash) ((hnone _).mp hheader)
    exact ⟨(hshort _).mpr h₁, (hshort _).mpr h₂⟩

/-- A row without a column, or with no number as its height, is skipped. -/
lemma githubHeaderRow_skip {row : RawRow} (hheight : row.get? heightName ≠ some none)
    (hno : ∀ text n, row.get? heightName = some (some text) → intText text = some n →
      row.get? hashName = none ∨ row.get? headerName = none) :
    ∃ e, githubHeaderRow row = .error e ∧ e.skips = true ∧ readable row = none ∧ Sound row := by
  have hsound : Sound row := ⟨hheight, fun text n ht hn hhash hheader =>
    ((hno text n ht hn).elim hhash hheader).elim⟩
  cases hh : row.get? heightName with
  | none =>
      refine ⟨.keyError, ?_, rfl, ?_, hsound⟩
      · rw [githubHeaderRow, item, hh]
        rfl
      · simp [readable, hh]
  | some value =>
      cases value with
      | none => exact absurd hh hheight
      | some text =>
          cases hn : intText text with
          | none =>
              refine ⟨.valueError, ?_, rfl, ?_, hsound⟩
              · simp [githubHeaderRow, item, int, hh, hn, bind, Except.bind]
              · simp [readable, hh, hn]
          | some n =>
              rcases hno text n hh hn with hhash | hheader
              · refine ⟨.keyError, ?_, rfl, ?_, hsound⟩
                · simp [githubHeaderRow, item, int, hh, hn, hhash, bind, Except.bind]
                · simp [readable, hh, hhash]
              · refine ⟨.keyError, ?_, rfl, ?_, hsound⟩
                · cases hhash : row.get? hashName <;>
                    simp [githubHeaderRow, item, int, hh, hn, hhash, hheader, bind, Except.bind]
                · simp [readable, hh, hheader]

/-- A row with the three columns and a number as its height is read. -/
lemma githubHeaderRow_read {row : RawRow} {text : List Char} {n : ℤ}
    {hash header : Option (List Char)} (hheight : row.get? heightName = some (some text))
    (hn : intText text = some n) (hhash : row.get? hashName = some hash)
    (hheader : row.get? headerName = some header) :
    githubHeaderRow row = .ok ⟨n, str hash, str header⟩
      ∧ readable row = hash.bind fun bh => header.map fun hex => ⟨n, bh, hex⟩ := by
  constructor
  · simp [githubHeaderRow, item, int, hheight, hn, hhash, hheader, bind, Except.bind, pure,
      Except.pure]
  · cases hash <;> cases header <;> simp [readable, hheight, hn, hhash, hheader]

/-- What becomes of a row: it is read, it is skipped, it raises `TypeError`, or it is read without a
hash or a header. -/
lemma githubHeaderRow_cases (row : RawRow) :
    (∃ r, githubHeaderRow row = .ok r ∧ readable row = some r ∧ Sound row)
      ∨ (∃ e, githubHeaderRow row = .error e ∧ e.skips = true ∧ readable row = none ∧ Sound row)
      ∨ (githubHeaderRow row = .error .typeError ∧ ¬ Sound row)
      ∨ ∃ r, githubHeaderRow row = .ok r ∧ readable row = none ∧ ¬ Sound row := by
  by_cases hheight : row.get? heightName = some none
  · refine .inr (.inr (.inl ⟨?_, fun h => h.height hheight⟩))
    rw [githubHeaderRow, item, hheight]
    rfl
  by_cases hno : ∀ text n, row.get? heightName = some (some text) → intText text = some n →
      row.get? hashName = none ∨ row.get? headerName = none
  · exact .inr (.inl (githubHeaderRow_skip hheight hno))
  · push Not at hno
    obtain ⟨text, n, htext, hn, hhash, hheader⟩ := hno
    obtain ⟨hash, hhash'⟩ := Option.ne_none_iff_exists'.mp hhash
    obtain ⟨header, hheader'⟩ := Option.ne_none_iff_exists'.mp hheader
    obtain ⟨hok, hread⟩ := githubHeaderRow_read htext hn hhash' hheader'
    have hsound : Sound row ↔ hash ≠ none ∧ header ≠ none := by
      constructor
      · intro h
        have := h.others text n htext hn hhash hheader
        rwa [hhash', hheader', ne_eq, ne_eq, Option.some.injEq, Option.some.injEq] at this
      · intro h
        refine ⟨hheight, fun _ _ _ _ _ _ => ?_⟩
        rwa [hhash', hheader', ne_eq, ne_eq, Option.some.injEq, Option.some.injEq]
    cases hash with
    | none => exact .inr (.inr (.inr ⟨_, hok, hread, fun h => (hsound.mp h).1 rfl⟩))
    | some bh =>
        cases header with
        | none => exact .inr (.inr (.inr ⟨_, hok, hread, fun h => (hsound.mp h).2 rfl⟩))
        | some hex => exact .inl ⟨_, hok, hread, hsound.mpr (by simp)⟩

/-- The loop has a row for every readable one. -/
lemma length_readable_le {rows : List RawRow} {l : List GithubHeaderRow}
    (h : headerRows rows = .ok l) : (rows.filterMap readable).length ≤ l.length := by
  induction rows generalizing l with
  | nil => exact Nat.zero_le _
  | cons row rows ih =>
      rw [headerRows] at h
      rcases githubHeaderRow_cases row with ⟨r, hrow, hread, -⟩ | ⟨e, hrow, hskip, hread, -⟩
        | ⟨hrow, -⟩ | ⟨r, hrow, hread, -⟩
      · obtain ⟨l', hl', rfl⟩ := exists_of_map_eq_ok (by simpa only [hrow] using h)
        rw [List.filterMap_cons_some hread, List.length_cons, List.length_cons]
        exact Nat.succ_le_succ (ih hl')
      · rw [List.filterMap_cons_none hread]
        simp only [hrow, hskip, if_true] at h
        exact ih h
      · simp only [hrow, Raised.skips, Bool.false_eq_true, if_false] at h
        cases h
      · obtain ⟨l', hl', rfl⟩ := exists_of_map_eq_ok (by simpa only [hrow] using h)
        rw [List.filterMap_cons_none hread, List.length_cons]
        exact (ih hl').trans (Nat.le_succ _)

/-- The loop returns the readable rows where every row is sound. -/
lemma headerRows_iff (rows : List RawRow) :
    headerRows rows = .ok (rows.filterMap readable) ↔ ∀ row ∈ rows, Sound row := by
  induction rows with
  | nil => simp [headerRows]
  | cons row rows ih =>
      rw [List.forall_mem_cons, headerRows]
      rcases githubHeaderRow_cases row with ⟨r, hrow, hread, hs⟩ | ⟨e, hrow, hskip, hread, hs⟩
        | ⟨hrow, hs⟩ | ⟨r, hrow, hread, hs⟩
      · rw [List.filterMap_cons_some hread, hrow, and_iff_right hs, ← ih]
        cases headerRows rows <;> simp [Except.map]
      · rw [List.filterMap_cons_none hread, hrow, and_iff_right hs, ← ih]
        simp only [hskip, if_true]
      · simp [hrow, hs, Raised.skips]
      -- a row that is read without a hash or a header is one too many
      · refine iff_of_false (fun h => ?_) fun h => hs h.1
        rw [List.filterMap_cons_none hread] at h
        obtain ⟨l, hl, heq⟩ := exists_of_map_eq_ok (by simpa only [hrow] using h)
        have hle := length_readable_le hl
        rw [← heq, List.length_cons] at hle
        omega

/-- Of a row only `TypeError` gets out of the loop. -/
lemma headerRows_error {rows : List RawRow} {e : Raised} (h : headerRows rows = .error e) :
    e = .typeError := by
  induction rows with
  | nil => cases h
  | cons row rows ih =>
      rw [headerRows] at h
      have hmap (r : GithubHeaderRow) (h : (headerRows rows).map (r :: ·) = .error e) :
          e = .typeError := by
        cases hl : headerRows rows with
        | error e' =>
            rw [hl] at h
            exact ih (hl.trans (congrArg Except.error (Except.error.inj h)))
        | ok l =>
            rw [hl] at h
            cases h
      rcases githubHeaderRow_cases row with ⟨r, hrow, -⟩ | ⟨e', hrow, hskip, -⟩ | ⟨hrow, -⟩
        | ⟨r, hrow, -⟩
      · exact hmap r (by simpa only [hrow] using h)
      · simp only [hrow, hskip, if_true] at h
        exact ih h
      · simp only [hrow, Raised.skips, Bool.false_eq_true, if_false] at h
        exact (Except.error.inj h).symm
      · exact hmap r (by simpa only [hrow] using h)

/-- The fetch returns the readable rows of a body where reading it raises no `csv.Error` and every
record is whole. -/
theorem fetchStaleBlocksCsv_iff (text : List Char) :
    fetchStaleBlocksCsv (.ok text) = .ok (readableRows text)
      ↔ (records text).2 = false ∧ ∀ row ∈ (table text).2, Whole (table text).1 row := by
  have hsound : (∀ row ∈ (dictRows text).1, Sound row)
      ↔ ∀ row ∈ (table text).2, Whole (table text).1 row := by
    simp only [dictRows, List.forall_mem_map, sound_rowDict_iff]
  rw [← hsound, ← headerRows_iff, fetchStaleBlocksCsv, readableRows]
  cases hrows : headerRows (dictRows text).1 with
  | error e => simp [bind, Except.bind]
  | ok rows => cases herr : (records text).2 <;> simp [bind, Except.bind, dictRows, herr]

lemma fetchStaleBlocksCsv_ne (text : List Char) :
    fetchStaleBlocksCsv (.ok text) ≠ .error .githubFetchError := by
  rw [fetchStaleBlocksCsv]
  cases hrows : headerRows (dictRows text).1 with
  | error e =>
      rw [headerRows_error hrows]
      exact fun h => nomatch h
  | ok rows => cases herr : (records text).2 <;> simp [bind, Except.bind, dictRows, herr]

/-! ### The pull -/

variable {sha256 : List UInt8 → List UInt8} {fits : ℤ → Bool}

variable (fits) in
/-- The registry can be written. -/
def Storable (s : State) : Prop := ∀ bh e, s.registry.get bh = some e → storable fits e = true

variable (sha256) in
/-- The header of the row is the one of its block. -/
def Valid (r : GithubHeaderRow) : Prop :=
  validateHeaderHash sha256 (some r.header) r.blockhash = true

variable (sha256) in
/-- The row is the first with a valid header of a block that is not in the registry. -/
structure New (s : State) (earlier : List GithubHeaderRow) (r : GithubHeaderRow) : Prop where
  unknown : s.registry.get r.blockhash = none
  valid : Valid sha256 r
  first : ∀ q ∈ earlier, q.blockhash = r.blockhash → ¬ Valid sha256 q

variable (sha256 fits) in
/-- The heights of the blocks that are new can be written. -/
def HeightsFit (s : State) (rows : List GithubHeaderRow) : Prop :=
  ∀ l₁ r l₂, rows = l₁ ++ r :: l₂ → New sha256 s l₁ r → fits r.height = true

lemma tryFlush_eq {s : State} (hs : Storable fits s) : tryFlush fits s = .ok s.flush := by
  have hall : s.registry.entries.all.all (storable fits) = true :=
    List.all_eq_true.mpr fun e he => hs _ e (Keyed.mem_all.mp he)
  rw [tryFlush, hall]
  simp

lemma Storable.flush {s : State} (hs : Storable fits s) : Storable fits s.flush :=
  fun bh e he => hs bh e (by rwa [← get_flush])

lemma Storable.of_map {s s' : State} (hs : Storable fits s) {seen : StaleBlockEntry}
    (hseen : storable fits (s.registry.upsertSighting seen).2 = true)
    (h : ∀ bh, (s'.registry.get bh).map (storable fits)
      = if bh = seen.blockhash then some (storable fits (s.registry.upsertSighting seen).2)
        else (s.registry.get bh).map (storable fits)) : Storable fits s' := by
  intro bh e he
  have hbh := h bh
  rw [he, Option.map_some] at hbh
  split_ifs at hbh with heq
  · exact (Option.some.inj hbh).trans hseen
  · obtain ⟨e₀, he₀, hst⟩ := Option.map_eq_some_iff.mp hbh.symm
    exact hst.symm.trans (hs bh e₀ he₀)

/-- A sighting whose entry can be written is ingested. -/
lemma tryIngestSighting_eq {s : State} (hs : Storable fits s) {seen : StaleBlockEntry}
    (hseen : storable fits (s.registry.upsertSighting seen).2 = true) :
    tryIngestSighting fits s seen = .ok (ingestSighting s seen) := by
  rw [tryIngestSighting, ingestSighting]
  simp only [hseen, if_true]
  split_ifs with hnew
  · refine tryFlush_eq (hs.of_map hseen fun bh => ?_)
    rw [map_get_mark fun _ _ => rfl, get_upsertSighting]
    split_ifs <;> rfl
  · rfl

lemma Storable.ingest {s : State} (hs : Storable fits s) {seen : StaleBlockEntry}
    (hseen : storable fits (s.registry.upsertSighting seen).2 = true) :
    Storable fits (ingestSighting s seen) :=
  hs.of_map hseen (map_get_ingest _ (fun _ _ => rfl) s seen)

/-- The entry of a sighting can be written if it is known or its height can be written. -/
lemma storable_upsert {s : State} (hs : Storable fits s) (seen : StaleBlockEntry)
    (hheight : s.registry.get seen.blockhash = none → fits seen.height = true)
    (hbranch : seen.branchlen.all fits = true) :
    storable fits (s.registry.upsertSighting seen).2 = true := by
  rw [StaleBlockRegistry.upsertSighting]
  cases hget : s.registry.get seen.blockhash with
  | none => simp [storable, hheight hget, hbranch]
  | some e =>
      have he := hs _ e hget
      simp only [storable, Bool.and_eq_true] at he ⊢
      simp only [StaleBlockRegistry.updated]
      split_ifs <;> first | exact he | exact ⟨he.1, hbranch⟩

lemma isNone_get_ingest (s : State) (seen : StaleBlockEntry) (bh : List Char) :
    (ingestSighting s seen).registry.get bh = none
      ↔ s.registry.get bh = none ∧ bh ≠ seen.blockhash := by
  have hmap := map_get_ingest (fun _ => ()) (fun _ _ => rfl) s seen bh
  rw [← Option.map_eq_none_iff (f := fun _ => ()), hmap]
  split_ifs with hbh <;> simp [hbh]

/-- The sighting of a row. -/
abbrev sightingOf (sha256 : List UInt8 → List UInt8) (r : GithubHeaderRow) : StaleBlockEntry :=
  sighting sha256 r.height r.blockhash (some r.header) .github none none

/-- A row of a new block raises unless its height can be written. -/
lemma tryPullRow_new {s : State} (hs : Storable fits s) {r : GithubHeaderRow}
    (hr : New sha256 s [] r) :
    tryPullRow sha256 fits s r
      = if fits r.height = true then .ok (ingestSighting s (sightingOf sha256 r))
        else .error .overflowError := by
  have hget : s.registry.get (sightingOf sha256 r).blockhash = none := hr.unknown
  have hvalid : validateHeaderHash sha256 (some r.header) r.blockhash = true := hr.valid
  have hrow : tryPullRow sha256 fits s r = tryIngestSighting fits s (sightingOf sha256 r) := by
    rw [tryPullRow, hr.unknown, hvalid]
    rfl
  rw [hrow]
  split_ifs with hfits
  · exact tryIngestSighting_eq hs (storable_upsert hs _ (fun _ => hfits) rfl)
  · have hseen : storable fits (sightingOf sha256 r) = false := by
      simp [storable, sighting, hfits]
    have hlast : (sightingOf sha256 r).lastExportedStatus = none := rfl
    rw [tryIngestSighting, StaleBlockRegistry.upsertSighting, hget]
    simp [hseen, hlast]

/-- Any other row is skipped or completes an entry. -/
lemma tryPullRow_old {s : State} (hs : Storable fits s) {r : GithubHeaderRow}
    (hr : ¬ New sha256 s [] r) :
    ∃ s', tryPullRow sha256 fits s r = .ok s' ∧ Storable fits s'
      ∧ ∀ bh, s'.registry.get bh = none ↔ s.registry.get bh = none := by
  rw [tryPullRow]
  split_ifs with honly hvalid
  · exact ⟨s, rfl, hs, fun _ => Iff.rfl⟩
  · have hknown : s.registry.get r.blockhash ≠ none := fun hget =>
      hr ⟨hget, hvalid, fun q hq => nomatch hq⟩
    have hseen := storable_upsert hs (sightingOf sha256 r) (fun hget => absurd hget hknown) rfl
    refine ⟨_, tryIngestSighting_eq hs hseen, hs.ingest hseen, fun bh => ?_⟩
    rw [isNone_get_ingest, and_iff_left_iff_imp]
    rintro hget rfl
    exact hknown hget
  · exact ⟨s, rfl, hs, fun _ => Iff.rfl⟩

/-- The blocks that are new behind a row are those that are new once it is pulled. -/
lemma heightsFit_cons {s s' : State} {r : GithubHeaderRow} {rows : List GithubHeaderRow}
    (h : ∀ bh, s'.registry.get bh = none
      ↔ s.registry.get bh = none ∧ ¬ (r.blockhash = bh ∧ Valid sha256 r)) :
    HeightsFit sha256 fits s (r :: rows)
      ↔ (New sha256 s [] r → fits r.height = true) ∧ HeightsFit sha256 fits s' rows := by
  have hnew (l : List GithubHeaderRow) (q : GithubHeaderRow) :
      New sha256 s (r :: l) q ↔ New sha256 s' l q := by
    constructor
    · rintro ⟨hunknown, hvalid, hfirst⟩
      refine ⟨(h _).mpr ⟨hunknown, fun hr => ?_⟩, hvalid, fun p hp => ?_⟩
      · exact hfirst r List.mem_cons_self hr.1 hr.2
      · exact hfirst p (List.mem_cons_of_mem _ hp)
    · rintro ⟨hunknown, hvalid, hfirst⟩
      obtain ⟨hs, hr⟩ := (h _).mp hunknown
      refine ⟨hs, hvalid, fun p hp hbh => ?_⟩
      rcases List.mem_cons.mp hp with rfl | hp
      · exact fun hv => hr ⟨hbh, hv⟩
      · exact hfirst p hp hbh
  constructor
  · intro hfit
    refine ⟨hfit [] r rows rfl, fun l₁ q l₂ hl hq => ?_⟩
    exact hfit (r :: l₁) q l₂ (congrArg (r :: ·) hl) ((hnew l₁ q).mpr hq)
  · rintro ⟨hr, hrest⟩ l₁ q l₂ hl hq
    cases l₁ with
    | nil =>
        obtain ⟨rfl, -⟩ := List.cons.inj hl
        exact hr hq
    | cons p l₁ =>
        obtain ⟨rfl, htail⟩ := List.cons.inj hl
        exact hrest l₁ q l₂ htail ((hnew l₁ q).mp hq)

/-- The rows can be written if the heights of the new blocks can be. -/
lemma foldlM_tryPullRow (sha256 : List UInt8 → List UInt8) {s : State} (hs : Storable fits s)
    (rows : List GithubHeaderRow) :
    (HeightsFit sha256 fits s rows
        ∧ ∃ s', rows.foldlM (tryPullRow sha256 fits) s = .ok s' ∧ Storable fits s')
      ∨ (¬ HeightsFit sha256 fits s rows
        ∧ ∃ e, rows.foldlM (tryPullRow sha256 fits) s = .error e) := by
  induction rows generalizing s with
  | nil =>
      refine .inl ⟨fun l₁ r l₂ h => ?_, s, rfl, hs⟩
      exact absurd h.symm (by simp)
  | cons r rows ih =>
      have hrest {s' : State} (hok : tryPullRow sha256 fits s r = .ok s') :
          (r :: rows).foldlM (tryPullRow sha256 fits) s
            = rows.foldlM (tryPullRow sha256 fits) s' := by
        rw [List.foldlM_cons, hok]
        rfl
      by_cases hr : New sha256 s [] r
      · by_cases hfits : fits r.height = true
        · have hok := (tryPullRow_new hs hr).trans (if_pos hfits)
          have hs' := hs.ingest (storable_upsert hs (sightingOf sha256 r) (fun _ => hfits) rfl)
          have hget (bh : List Char) :
              (ingestSighting s (sightingOf sha256 r)).registry.get bh = none
                ↔ s.registry.get bh = none ∧ ¬ (r.blockhash = bh ∧ Valid sha256 r) := by
            rw [isNone_get_ingest, ne_comm, and_iff_left hr.valid]
            rfl
          rw [hrest hok, heightsFit_cons hget, and_iff_right fun _ => hfits]
          exact ih hs'
        · refine .inr ⟨fun h => hfits (h [] r rows rfl hr), .overflowError, ?_⟩
          rw [List.foldlM_cons, tryPullRow_new hs hr, if_neg hfits]
          rfl
      · obtain ⟨s', hok, hs', hsame⟩ := tryPullRow_old hs hr
        have hget (bh : List Char) : s'.registry.get bh = none
            ↔ s.registry.get bh = none ∧ ¬ (r.blockhash = bh ∧ Valid sha256 r) := by
          rw [hsame, iff_self_and]
          rintro hnone ⟨rfl, hvalid⟩
          exact hr ⟨hnone, hvalid, fun q hq => nomatch hq⟩
        rw [hrest hok, heightsFit_cons hget, and_iff_right fun h => absurd h hr]
        exact ih hs'

lemma runGithubPull_ok {s : State} {download : Download} {rows : List GithubHeaderRow}
    (h : fetchStaleBlocksCsv download = .ok rows) :
    runGithubPull sha256 fits s download = (do
      let s ← rows.foldlM (tryPullRow sha256 fits) s
      let s ← tryFlush fits s
      return (true, s)) := by
  rw [runGithubPull, h]

/-- **Exactly when a pull is survived.** It is if the download fails. A body is read into its
readable rows, and the pull returns, if reading it raises no `csv.Error`, every record below the
header is whole, and the heights of the blocks that are new can be written. -/
theorem promised_iff (sha256 : List UInt8 → List UInt8) (fits : ℤ → Bool) (s : State)
    (hs : Storable fits s) (download : Download) :
    Promised sha256 fits s download ↔ ∀ text, download = .ok text →
      (records text).2 = false ∧ (∀ row ∈ (table text).2, Whole (table text).1 row)
        ∧ HeightsFit sha256 fits s (readableRows text) := by
  cases download with
  | error e => exact iff_of_true ⟨.inl rfl, false, s, rfl⟩ fun _ h => nomatch h
  | ok text =>
      constructor
      · rintro ⟨hfetched, b, s', hreturned⟩ text' htext
        cases htext
        have hfetch : fetchStaleBlocksCsv (.ok text) = .ok (readableRows text) := by
          rcases hfetched with herr | ⟨text', htext, hfetch⟩
          · exact absurd herr (fetchStaleBlocksCsv_ne text)
          · cases htext
            exact hfetch
        obtain ⟨herr, hwhole⟩ := (fetchStaleBlocksCsv_iff text).mp hfetch
        refine ⟨herr, hwhole, ?_⟩
        rcases foldlM_tryPullRow sha256 hs (readableRows text) with ⟨hfit, -⟩ | ⟨-, e, hraise⟩
        · exact hfit
        · rw [runGithubPull_ok hfetch, hraise] at hreturned
          cases hreturned
      · intro h
        obtain ⟨herr, hwhole, hfit⟩ := h text rfl
        have hfetch := (fetchStaleBlocksCsv_iff text).mpr ⟨herr, hwhole⟩
        refine ⟨.inr ⟨text, rfl, hfetch⟩, ?_⟩
        rcases foldlM_tryPullRow sha256 hs (readableRows text) with ⟨-, s', hok, hs'⟩ | ⟨hno, -⟩
        · refine ⟨true, s'.flush, ?_⟩
          rw [runGithubPull_ok hfetch, hok]
          simp only [bind, Except.bind, tryFlush_eq hs']
          rfl
        · exact absurd hfit hno

/-- A body with the columns in another order, a height that is no number, and a field too many. -/
def damagedBody : List Char :=
  "header,height,hash\nbb,x,aa\nbb,5,aa,cc\n".toList

/-- It is survived. -/
theorem promised_iff_damaged :
    Promised genesisSha256 (fun _ => true) .fresh (.ok damagedBody) := by
  refine (promised_iff genesisSha256 _ .fresh (fun _ _ h => nomatch h) _).mpr fun text htext => ?_
  cases htext
  have hlength : ∀ row ∈ (table damagedBody).2, (table damagedBody).1.length ≤ row.length := by
    decide +kernel
  exact ⟨by decide +kernel, fun row hrow => whole_of_length (hlength row hrow),
    fun _ _ _ _ _ => rfl⟩

/-- A body with a record that ends before its height. -/
def shortBody : List Char := "hash,header,height\nabc\n".toList

/-- It raises `TypeError` on the way up, which nobody catches. -/
theorem short_record_raises :
    fetchStaleBlocksCsv (.ok shortBody) = .error .typeError
      ∧ runGithubPull genesisSha256 (fun _ => true) .fresh (.ok shortBody) = .error .typeError
      ∧ ¬ Promised genesisSha256 (fun _ => true) .fresh (.ok shortBody) := by
  have hrows : headerRows (dictRows shortBody).1 = .error .typeError := by rfl
  have hfetch : fetchStaleBlocksCsv (.ok shortBody) = .error .typeError := by
    rw [fetchStaleBlocksCsv, hrows]
    rfl
  have hpull : runGithubPull genesisSha256 (fun _ => true) .fresh (.ok shortBody)
      = .error .typeError := by
    rw [runGithubPull, hfetch]
  refine ⟨hfetch, hpull, fun h => ?_⟩
  obtain ⟨b, s', hreturned⟩ := h.returned
  rw [hpull] at hreturned
  cases hreturned

/-! ### The daemon -/

/-- The numbers of the entries that are read back are those of the rows. -/
lemma storable_load {R : StateFiles.Numbers} {read : ColumnReader R} {s : State}
    {r : StaleBlockRegistry} (hload : StaleBlockRegistry.load read s.file = some r)
    (hfile : ∀ e ∈ s.file, storable fits e = true) : Storable fits { s with registry := r } := by
  intro bh e he
  rw [StaleBlockRegistry.load] at hload
  split_ifs at hload with hempty
  · cases hload
    cases Keyed.mem_of_get_load he
  · obtain ⟨hashes, -, hload⟩ := Option.bind_eq_some_iff.mp hload
    obtain ⟨headers, -, rfl⟩ := Option.map_eq_some_iff.mp hload
    obtain ⟨p, hp, rfl⟩ := List.mem_map.mp (Keyed.mem_of_get_load he)
    exact hfile p.1 (List.of_mem_zip hp).1

/-- A poll of tips with numbers that can be written. -/
lemma runNodePoll_ok (sha256 : List UInt8 → List UInt8) {s : State} (hs : Storable fits s)
    {answer : Option (List (ChainTip × Option (List Char)))}
    (hfits : ∀ tips, answer = some tips → ∀ tip ∈ tips,
      fits tip.1.height = true ∧ fits (tip.1.branchlen.getD 0) = true) :
    ∃ s', runNodePoll sha256 fits s answer = .ok s' ∧ Storable fits s' := by
  cases answer with
  | none => exact ⟨s, rfl, hs⟩
  | some tips =>
      have htip : ∀ tip ∈ tips.filter (·.1.status ∉ activeOrInvalid), ∀ s, Storable fits s →
          ∃ s', tryPollTip sha256 fits s tip = .ok s' ∧ Storable fits s' := by
        intro tip hmem s hs
        obtain ⟨hheight, hbranch⟩ := hfits tips rfl tip (List.mem_of_mem_filter hmem)
        have hseen := storable_upsert hs (sighting sha256 tip.1.height tip.1.hash tip.2 .ownNode
          (some tip.1.status) (some (tip.1.branchlen.getD 0))) (fun _ => hheight) hbranch
        exact ⟨_, tryIngestSighting_eq hs hseen, hs.ingest hseen⟩
      obtain ⟨s', hok, hs'⟩ := exists_foldlM_ok htip hs
      refine ⟨s'.flush, ?_, hs'.flush⟩
      rw [runNodePoll, hok]
      exact tryFlush_eq hs'

lemma Storable.pull {s s' : State} (hs : Storable fits s) {download : Download} {b : Bool}
    (h : runGithubPull sha256 fits s download = .ok (b, s')) : Storable fits s' := by
  cases hfetch : fetchStaleBlocksCsv download with
  | error e =>
      rw [runGithubPull, hfetch] at h
      cases e <;> cases h
      exact hs
  | ok rows =>
      rw [runGithubPull_ok hfetch] at h
      rcases foldlM_tryPullRow sha256 hs rows with ⟨-, t, hok, ht⟩ | ⟨-, e, hraise⟩
      · rw [hok] at h
        simp only [bind, Except.bind, tryFlush_eq ht] at h
        cases h
        exact ht.flush
      · rw [hraise] at h
        cases h

/-- **The daemon goes on as long as its pulls do.** From a registry that was written and is loaded,
with tips whose numbers can be written, no exception ends the loop unless a pull raises it. -/
theorem survives (sha256 : List UInt8 → List UInt8) (fits : ℤ → Bool) {R : StateFiles.Numbers}
    (read : ColumnReader R) {s : State} {r : StaleBlockRegistry}
    (hload : StaleBlockRegistry.load read s.file = some r)
    (hfile : ∀ e ∈ s.file, storable fits e = true) {wakes : List Wake}
    (htips : ∀ w ∈ wakes, ∀ tips, w.tips = some tips → ∀ tip ∈ tips,
      fits tip.1.height = true ∧ fits (tip.1.branchlen.getD 0) = true)
    (hpulls : ∀ w ∈ wakes, ∀ download, w.download = some download → ∀ s, Storable fits s →
      Promised sha256 fits s download) :
    ∃ s', runStaleBlocksIngest sha256 fits r s wakes = .ok s' ∧ Storable fits s' := by
  refine exists_foldlM_ok (fun w hw s hs => ?_) (storable_load hload hfile)
  obtain ⟨s₁, hpoll, hs₁⟩ := runNodePoll_ok sha256 hs (htips w hw)
  rw [wake, hpoll]
  cases hdown : w.download with
  | none => exact ⟨s₁, rfl, hs₁⟩
  | some download =>
      obtain ⟨b, s₂, hpull⟩ := (hpulls w hw download hdown s₁ hs₁).returned
      refine ⟨s₂, ?_, hs₁.pull hpull⟩
      simp only [bind, Except.bind, hpull]
      rfl

end StaleBlocks

end BtcParser
