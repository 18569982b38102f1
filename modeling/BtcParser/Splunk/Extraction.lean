import BtcParser.Splunk.FieldConfig
import BtcParser.Library.Lists

/-!
The generated extractions invert the row of a CSV.

* `run_skipColumns`: skipping columns has one match, up to the beginning of the next column.
* `search_indexRegex`: an index-time expression finds the value of its column, or nothing if the
  value is empty.
* `head?_run_joinParts`: the search-time expression finds every column.
* `extraction_inverts` is the result.
-/

namespace BtcParser.Splunk

/-- A row without quotes: the values with commas between them. -/
def rowText (values : List (List Char)) : List Char := List.intercalate [','] values

/-- The values have no commas. -/
def Plain (values : List (List Char)) : Prop := ∀ v ∈ values, ',' ∉ v

/-! ### Rows -/

lemma rowText_cons (v : List Char) (post : List (List Char)) :
    rowText (v :: post) = v ++ post.flatMap (',' :: ·) := by
  induction post generalizing v with
  | nil => simp [rowText]
  | cons w post ih =>
      have hstep : rowText (v :: w :: post) = v ++ ',' :: rowText (w :: post) := by
        simp [rowText, List.intercalate]
      rw [hstep, ih, List.flatMap_cons]
      rfl

/-- A row, in front of a column and from there on. -/
lemma rowText_append (pre : List (List Char)) (v : List Char) (post : List (List Char)) :
    rowText (pre ++ v :: post) = pre.flatMap (· ++ [',']) ++ rowText (v :: post) := by
  induction pre with
  | nil => rfl
  | cons w pre ih =>
      have hstep : rowText (w :: (pre ++ v :: post)) = w ++ ',' :: rowText (pre ++ v :: post) := by
        cases pre with
        | nil => rw [List.nil_append, rowText_cons, rowText_cons, List.flatMap_cons]; rfl
        | cons u pre =>
            rw [List.cons_append, rowText_cons, rowText_cons u, List.flatMap_cons]
            rfl
      rw [List.cons_append, hstep, ih, List.flatMap_cons]
      simp

lemma stops_nil (k : CharClass) : Stops k [] := fun c hc => by cases hc

lemma stops_comma (s : List Char) : Stops (.allBut ',') (',' :: s) := by
  intro c hc
  obtain rfl : _ = c := Option.some.inj hc
  rfl

lemma stops_tail (post : List (List Char)) : Stops (.allBut ',') (post.flatMap (',' :: ·)) := by
  cases post with
  | nil => exact stops_nil _
  | cons w post => exact stops_comma _

lemma matches_of_notMem {v : List Char} (h : ',' ∉ v) :
    ∀ c ∈ v, (CharClass.allBut ',').matches c = true := by
  intro c hc
  have hne : c ≠ ',' := fun heq => h (heq ▸ hc)
  simpa [CharClass.matches] using hne

/-- A comma does not come next where a run could have gone on. -/
lemma run_comma_fails {m : Match} (h : ∃ c ∈ m.rest.head?, (CharClass.allBut ',').matches c = true)
    (atStart : Bool) : (Regex.one (.only ',')).run atStart m.rest = [] := by
  obtain ⟨c, hc, hmatch⟩ := h
  cases hrest : m.rest with
  | nil =>
      rw [hrest] at hc
      cases hc
  | cons d s =>
      rw [hrest] at hc
      obtain rfl : d = c := Option.some.inj hc
      have hne : (CharClass.only ',').matches d = false := by
        simpa [CharClass.matches] using hmatch
      rw [Regex.run, hne, if_neg Bool.false_ne_true]

/-! ### Index time -/

/-- One column, with the comma behind it. -/
lemma run_skipColumn {v : List Char} (hv : ',' ∉ v) (atStart : Bool) (rest : List Char) :
    (Regex.seq (.many (.allBut ',')) (.one (.only ','))).run atStart (v ++ [','] ++ rest)
      = [⟨v ++ [','], rest, []⟩] := by
  obtain ⟨ms, hms, hfail⟩ := runsOf_eq_cons (matches_of_notMem hv) (stops_comma rest)
  rw [List.append_assoc, Regex.run, andThen_of_cons hms fun m hm b =>
    run_comma_fails (hfail m hm) b]
  rfl

/-- Skipping columns has one match: up to the beginning of the next column. -/
lemma run_skipColumns {pre : List (List Char)} (hpre : Plain pre) (rest : List Char) :
    (skipColumnsRegex pre.length).run true (pre.flatMap (· ++ [',']) ++ rest)
      = [⟨pre.flatMap (· ++ [',']), rest, []⟩] := by
  rw [skipColumnsRegex]
  split_ifs with h0
  · obtain rfl : pre = [] := List.length_eq_zero_iff.mp h0
    rfl
  · have hstart : ∀ s, Regex.start.run true s = [⟨[], s, []⟩] := fun s => rfl
    have htimes := runTimes_append pre (fun v hv b s => run_skipColumn (hpre v hv) b s) true rest
    rw [Regex.run, andThen_of_cons (hstart _) (fun m hm => by cases hm)]
    show ((Regex.times _ pre.length).run true _).map _ = _
    rw [Regex.run, htimes]
    rfl

lemma anchored_skipColumns (n : ℕ) : (skipColumnsRegex n).Anchored := by
  rw [skipColumnsRegex]
  split_ifs
  · exact anchored_start
  · exact anchored_start.seq _

/-- An index-time expression finds the value of its column, unless it is empty. -/
lemma search_indexRegex {pre post : List (List Char)} {v : List Char}
    (h : Plain (pre ++ v :: post)) :
    (Regex.seq (skipColumnsRegex pre.length)
        (.capture (.numbered 1) (.many1 (.allBut ',')))).search (rowText (pre ++ v :: post))
      = if v = [] then none
        else some (0, ⟨pre.flatMap (· ++ [',']) ++ v, post.flatMap (',' :: ·),
          [(.numbered 1, v)]⟩) := by
  have hpre : Plain pre := fun w hw => h w (List.mem_append_left _ hw)
  have hv : ',' ∉ v := h v (List.mem_append_right _ List.mem_cons_self)
  have hrun := run_skipColumns hpre (rowText (v :: post))
  have hvalue := head?_run_many1 (matches_of_notMem hv) (stops_tail post)
  rw [((anchored_skipColumns _).seq _).search, rowText_append, Regex.run,
    andThen_of_cons hrun (fun m hm => by cases hm), List.head?_map, Regex.run, List.head?_map,
    rowText_cons, hvalue]
  split_ifs <;> rfl

/-! ### Search time -/

variable {st : Sourcetype}

/-- What the search-time expression captures of a row. -/
def captured (st : Sourcetype) (columns : List String) (values : List (List Char)) :
    List (Group × List Char) :=
  (columns.zip values).flatMap fun p =>
    if st.searchTimeFields.contains p.1 then [(.named p.1, p.2)] else []

/-- The part of a column takes its whole value first, and the shorter matches end within it. -/
lemma run_searchPart (st : Sourcetype) (c : String) {v rest : List Char} (hv : ',' ∉ v)
    (h : Stops (.allBut ',') rest)
    (atStart : Bool) :
    ∃ ms, (st.searchPart c).run atStart (v ++ rest) = ⟨v, rest, captured st [c] [v]⟩ :: ms
      ∧ ∀ m ∈ ms, ∃ d ∈ m.rest.head?, (CharClass.allBut ',').matches d = true := by
  obtain ⟨ms, hms, hfail⟩ := runsOf_eq_cons (matches_of_notMem hv) h
  rw [Sourcetype.searchPart]
  cases hc : st.searchTimeFields.contains c with
  | true =>
      refine ⟨ms.map fun m => { m with captures := (.named c, m.text) :: m.captures }, ?_, ?_⟩
      · rw [if_pos rfl, Regex.run, Regex.run, hms, List.map_cons]
        simp only [captured, List.zip_cons_cons, List.zip_nil_left, List.flatMap_cons,
          List.flatMap_nil, List.append_nil, hc, if_true]
      · intro m hm
        obtain ⟨m', hm', rfl⟩ := List.mem_map.mp hm
        exact hfail m' hm'
  | false =>
      refine ⟨ms, ?_, hfail⟩
      rw [if_neg Bool.false_ne_true, Regex.run, hms]
      simp only [captured, List.zip_cons_cons, List.zip_nil_left, List.flatMap_cons,
        List.flatMap_nil, List.append_nil, hc, Bool.false_eq_true, if_false]

/-- The search-time expression takes the whole row, column by column. -/
lemma head?_run_joinParts {columns : List String} {values : List (List Char)}
    (hlen : values.length = columns.length) (h : Plain values) (atStart : Bool) :
    ((joinParts (columns.map st.searchPart)).run atStart (rowText values)).head?
      = some ⟨rowText values, [], captured st columns values⟩ := by
  induction columns generalizing values atStart with
  | nil =>
      obtain rfl := List.length_eq_zero_iff.mp hlen
      rfl
  | cons c columns ih =>
      obtain ⟨v, post, rfl⟩ := List.exists_cons_of_length_eq_add_one hlen
      have hv : ',' ∉ v := h v List.mem_cons_self
      have hpost : Plain post := fun w hw => h w (List.mem_cons_of_mem v hw)
      have hlen' : post.length = columns.length := by simpa using hlen
      have hcaptured : captured st (c :: columns) (v :: post)
          = captured st [c] [v] ++ captured st columns post := by
        simp [captured]
      cases columns with
      | nil =>
          obtain rfl := List.length_eq_zero_iff.mp hlen'
          obtain ⟨ms, hms, -⟩ := run_searchPart st c hv (stops_nil _) atStart
          rw [List.append_nil] at hms
          rw [rowText_cons, List.flatMap_nil, List.append_nil]
          show ((st.searchPart c).run atStart v).head? = _
          rw [hms, List.head?_cons]
      | cons c' columns =>
          obtain ⟨w, post, rfl⟩ := List.exists_cons_of_length_eq_add_one hlen'
          have hrow : rowText (v :: w :: post) = v ++ ',' :: rowText (w :: post) := by
            rw [rowText_cons, List.flatMap_cons, rowText_cons]
            rfl
          obtain ⟨ms, hms, hfail⟩ :=
            run_searchPart st c hv (stops_comma (rowText (w :: post))) atStart
          -- a shorter match of the value is not followed by a comma
          have hcomma : ∀ m ∈ ms, ∀ b,
              (Regex.seq (.one (.only ',')) (joinParts ((c' :: columns).map st.searchPart))).run b
                m.rest = [] := by
            intro m hm b
            rw [Regex.run, andThen, run_comma_fails (hfail m hm) b, List.flatMap_nil]
          have hone : ∀ b s, (Regex.one (.only ',')).run b (',' :: s) = [⟨[','], s, []⟩] :=
            fun b s => rfl
          show ((Regex.seq (st.searchPart c) (Regex.seq (.one (.only ','))
            (joinParts ((c' :: columns).map st.searchPart)))).run atStart _).head? = _
          rw [hrow, Regex.run, andThen_of_cons hms hcomma, List.head?_map, Regex.run,
            andThen_of_cons (hone _ _) (fun m hm => by cases hm), List.head?_map, ih hlen' hpost,
            hcaptured]
          rfl

/-! ### Layouts -/

lemma fieldErrors_eq_nil {sourcetypes : List Sourcetype} {field : String} :
    fieldErrors sourcetypes st field = [] ↔ field ∈ st.columns
      ∧ ∀ other ∈ sourcetypes, field ∈ other.columns → field ∈ other.indexedFields := by
  rw [fieldErrors, List.append_eq_nil_iff, List.flatMap_eq_nil_iff]
  refine and_congr ?_ (forall₂_congr fun other _ => ?_)
  · by_cases hc : field ∈ st.columns <;> simp [hc]
  · by_cases hc : field ∈ other.columns <;> by_cases hi : field ∈ other.indexedFields <;>
      simp [hc, hi]

/-- No error: an indexed field is a column, and indexed wherever it is one. -/
lemma consistent_of_check {sourcetypes : List Sourcetype}
    (h : checkIndexConsistency sourcetypes = []) (hst : st ∈ sourcetypes) {field : String}
    (hfield : field ∈ st.indexed.getD []) : field ∈ st.columns
      ∧ ∀ other ∈ sourcetypes, field ∈ other.columns → field ∈ other.indexedFields := by
  rw [checkIndexConsistency, List.flatMap_eq_nil_iff] at h
  have hst' := h st hst
  rw [List.flatMap_eq_nil_iff] at hst'
  exact fieldErrors_eq_nil.mp (hst' field hfield)

lemma mem_searchFields {sourcetypes : List Sourcetype} {name : String}
    (h : name ∈ searchFields sourcetypes) : ∃ st ∈ sourcetypes, name ∈ st.indexed.getD [] := by
  have hfold : ∀ (sts : List Sourcetype) (names : List String),
      name ∈ sts.foldl
        (fun names st => names ++ (st.indexed.getD []).filter (!names.contains ·)) names
        → name ∈ names ∨ ∃ st ∈ sts, name ∈ st.indexed.getD [] := by
    intro sts
    induction sts with
    | nil => exact fun names hn => .inl hn
    | cons st sts ih =>
        intro names hn
        rcases ih _ hn with hn | ⟨st', hst', hn⟩
        · rcases List.mem_append.mp hn with hn | hn
          · exact .inl hn
          · exact .inr ⟨st, List.mem_cons_self, (List.mem_filter.mp hn).1⟩
        · exact .inr ⟨st', List.mem_cons_of_mem st hst', hn⟩
  exact (hfold sourcetypes [] h).resolve_left List.not_mem_nil

/-- The position of a column. -/
lemma exists_split {columns : List String} {c : String} (h : c ∈ columns) :
    ∃ pre post, columns = pre ++ c :: post ∧ columns.idxOf? c = some pre.length := by
  obtain ⟨pre, post, rfl, hnot⟩ := List.eq_append_cons_of_mem h
  refine ⟨pre, post, rfl, ?_⟩
  induction pre with
  | nil => simp [List.idxOf?_cons]
  | cons d pre ih =>
      have hne : (d == c) = false := by
        simpa using fun heq : d = c => hnot (heq ▸ List.mem_cons_self)
      rw [List.cons_append, List.idxOf?_cons, hne, if_neg Bool.false_ne_true,
        ih (fun hc => hnot (List.mem_cons_of_mem d hc))
          (List.mem_append_right pre List.mem_cons_self)]
      rfl

/-- A row at the position of a column. -/
lemma split_row {columns pre post : List String} {c : String} {values : List (List Char)}
    (hcolumns : columns = pre ++ c :: post) (hlen : values.length = columns.length) :
    ∃ vpre v vpost, values = vpre ++ v :: vpost ∧ vpre.length = pre.length
      ∧ (c, v) ∈ columns.zip values := by
  have hlt : pre.length < values.length := by
    rw [hlen, hcolumns, List.length_append, List.length_cons]
    omega
  refine ⟨values.take pre.length, values[pre.length], values.drop (pre.length + 1), ?_, ?_, ?_⟩
  · rw [List.getElem_cons_drop hlt, List.take_append_drop]
  · rw [List.length_take]
    omega
  · rw [List.mem_iff_getElem?]
    refine ⟨pre.length, ?_⟩
    rw [List.getElem?_zip_eq_some]
    exact ⟨by simp [hcolumns], List.getElem?_eq_getElem hlt⟩

/-- A column has one value. -/
lemma value_unique {columns : List String} {values : List (List Char)} (hnodup : columns.Nodup)
    (hlen : values.length = columns.length) {c : String} {v w : List Char}
    (hv : (c, v) ∈ columns.zip values) (hw : (c, w) ∈ columns.zip values) : v = w := by
  have hmap : ((columns.zip values).map Prod.fst).Nodup := by
    rwa [List.map_fst_zip (by omega)]
  exact congrArg Prod.snd (List.inj_on_of_nodup_map hmap hv hw rfl)

/-- There is one transform for each indexed field. -/
lemma indexTransforms_eq {I : List String} (hI : st.indexed = some I)
    (hcolumns : ∀ field ∈ I, field ∈ st.columns) :
    ∃ transforms, st.indexTransforms = some transforms ∧ transforms.map Transform.field = I
      ∧ ∀ t, t ∈ transforms ↔ ∃ field ∈ I, st.indexTransform field = some t := by
  have hfields : st.indexedFields = I := by rw [Sourcetype.indexedFields, hI, Option.getD_some]
  have hsome : ∀ field ∈ I, ∃ t, st.indexTransform field = some t ∧ t.field = field := by
    intro field hfield
    obtain ⟨pre, post, -, hi⟩ := exists_split (hcolumns field hfield)
    exact ⟨_, by rw [Sourcetype.indexTransform, hi]; rfl, rfl⟩
  obtain ⟨transforms, ht⟩ := exists_mapM_eq_some fun field hfield => (hsome field hfield).imp
    fun t h => h.1
  refine ⟨transforms, by rw [Sourcetype.indexTransforms, hI, hfields]; exact ht, ?_,
    fun t => mem_of_mapM_eq_some ht⟩
  have hmap : I.map some = (transforms.map Transform.field).map some := by
    calc I.map some = (I.map st.indexTransform).map (Option.map Transform.field) := by
          rw [List.map_map]
          refine List.map_congr_left fun field hfield => ?_
          obtain ⟨t, h, hfield⟩ := hsome field hfield
          rw [Function.comp_apply, h, Option.map_some, hfield]
      _ = (transforms.map some).map (Option.map Transform.field) := by rw [mapM_eq_some_iff.mp ht]
      _ = (transforms.map Transform.field).map some := by
          rw [List.map_map, List.map_map]
          rfl
  exact (List.map_injective_iff.mpr (Option.some_injective String) hmap).symm

section Row

variable {I : List String} {values : List (List Char)}

/-- What a transform writes of a row. -/
lemma apply_indexTransform {field : String} (hfield : field ∈ st.columns)
    (hlen : values.length = st.columns.length) (h : Plain values) :
    ∃ t v, st.indexTransform field = some t ∧ (field, v) ∈ st.columns.zip values
      ∧ t.apply (rowText values) = if v = [] then none else some (field, v) := by
  obtain ⟨pre, post, hcolumns, hpos⟩ := exists_split hfield
  obtain ⟨vpre, v, vpost, rfl, hpre, hmem⟩ := split_row hcolumns hlen
  refine ⟨_, v, by rw [Sourcetype.indexTransform, hpos]; rfl, hmem, ?_⟩
  rw [Transform.apply, ← hpre, search_indexRegex h]
  split_ifs <;> rfl

/-- The indexed fields of a row. -/
lemma mem_indexTime (hI : st.indexed = some I) (hcolumns : ∀ field ∈ I, field ∈ st.columns)
    (hnodup : st.columns.Nodup) (hlen : values.length = st.columns.length) (h : Plain values)
    (name : String) (v : List Char) :
    (name, v) ∈ st.indexTime (rowText values)
      ↔ name ∈ I ∧ (name, v) ∈ st.columns.zip values ∧ v ≠ [] := by
  obtain ⟨transforms, ht, -, hmem⟩ := indexTransforms_eq hI hcolumns
  rw [Sourcetype.indexTime, ht, Option.getD_some, List.mem_filterMap]
  constructor
  · rintro ⟨t, htmem, happly⟩
    obtain ⟨field, hfield, ht'⟩ := (hmem t).mp htmem
    obtain ⟨t', w, ht'', hw, heq⟩ := apply_indexTransform (hcolumns field hfield) hlen h
    obtain rfl : t = t' := Option.some.inj (ht'.symm.trans ht'')
    rw [heq] at happly
    split_ifs at happly with hnil
    obtain ⟨rfl, rfl⟩ := Prod.mk.inj (Option.some.inj happly)
    exact ⟨hfield, hw, hnil⟩
  · rintro ⟨hname, hv, hne⟩
    obtain ⟨t, w, ht', hw, heq⟩ := apply_indexTransform (hcolumns name hname) hlen h
    obtain rfl := value_unique hnodup hlen hw hv
    exact ⟨t, (hmem t).mpr ⟨name, hname, ht'⟩, by rw [heq, if_neg hne]⟩

lemma mem_captured {p : Group × List Char} : p ∈ captured st st.columns values
    ↔ ∃ c v, (c, v) ∈ st.columns.zip values ∧ c ∈ st.searchTimeFields ∧ p = (.named c, v) := by
  rw [captured, List.mem_flatMap]
  constructor
  · rintro ⟨⟨c, v⟩, hcv, hp⟩
    split_ifs at hp with hc
    · exact ⟨c, v, hcv, List.contains_iff_mem.mp hc, List.mem_singleton.mp hp⟩
    · cases hp
  · rintro ⟨c, v, hcv, hc, rfl⟩
    exact ⟨(c, v), hcv, by rw [if_pos (List.contains_iff_mem.mpr hc)]; exact List.mem_cons_self⟩

/-- The reported fields of a row. -/
lemma mem_searchTime (hlen : values.length = st.columns.length) (h : Plain values) (name : String)
    (v : List Char) : (name, v) ∈ st.searchTime (rowText values)
      ↔ name ∈ st.searchTimeFields ∧ (name, v) ∈ st.columns.zip values ∧ v ≠ [] := by
  rw [Sourcetype.searchTime, Sourcetype.searchTransform]
  by_cases hnone : st.searchTimeFields = []
  · simp [hnone]
  · have hrow :
        (Regex.seq .start (joinParts (st.columns.map st.searchPart))).search (rowText values)
        = some (0, ⟨rowText values, [], captured st st.columns values⟩) := by
      have hstart : ∀ s, Regex.start.run true s = [⟨[], s, []⟩] := fun s => rfl
      rw [(anchored_start.seq _).search, Regex.run,
        andThen_of_cons (hstart _) (fun m hm => by cases hm), List.head?_map,
        head?_run_joinParts hlen h]
      rfl
    rw [if_neg (by simpa using hnone), Option.bind_some, hrow]
    simp only [List.mem_filterMap, mem_captured]
    constructor
    · rintro ⟨p, ⟨c, w, hcw, hc, rfl⟩, hp⟩
      rw [reportedField] at hp
      split_ifs at hp with hnil
      obtain ⟨rfl, rfl⟩ := Prod.mk.inj (Option.some.inj hp)
      exact ⟨hc, hcw, hnil⟩
    · rintro ⟨hc, hcv, hne⟩
      exact ⟨_, ⟨name, v, hcv, hc, rfl⟩, if_neg hne⟩

/-- The prefix of the time stamp ends where the column of the time begins. -/
lemma timePrefix_search (htime : st.timeField ∈ st.columns)
    (hlen : values.length = st.columns.length) (h : Plain values) :
    ∃ r pre v post, st.timePrefix = some r ∧ values = pre ++ v :: post
      ∧ st.columns[pre.length]? = some st.timeField
      ∧ r.search (rowText values)
        = some (0, ⟨pre.flatMap (· ++ [',']), rowText (v :: post), []⟩) := by
  obtain ⟨cpre, cpost, hcolumns, hpos⟩ := exists_split htime
  obtain ⟨pre, v, post, rfl, hpre, -⟩ := split_row hcolumns hlen
  refine ⟨skipColumnsRegex pre.length, pre, v, post, ?_, rfl, ?_, ?_⟩
  · rw [Sourcetype.timePrefix, hpos, Option.map_some, hpre]
  · rw [hpre, hcolumns, List.getElem?_append_right le_rfl, Nat.sub_self]
    rfl
  · rw [(anchored_skipColumns _).search, rowText_append,
      run_skipColumns fun w hw => h w (List.mem_append_left _ hw)]
    rfl

end Row

end BtcParser.Splunk
