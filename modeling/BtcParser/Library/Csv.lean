import Mathlib.Data.List.TakeWhile
import Mathlib.Tactic

/-!
Comma-separated texts, as a reader that goes from character to character sees them.

* `Csv.parse`: the records of a text, `none` where a quote stays open.
* `Csv.renderRecord`: a record as a line, its fields quoted where they have to be.
* `parse_records`, `parse_open`: what the reader makes of whole lines, and of whole lines before
  an open quote.
* `parse_cells`: records with nulls are read back.
* `splitLines_lines`: lines are found again in their text, and what stands behind the last.
-/

namespace BtcParser.Csv

/-! ### Reading -/

/-- A field as it is read: an empty one that is not quoted is `none`. -/
abbrev Field := Option (List Char)

/-- Where the reader is within a field. -/
inductive Cursor
  | fresh
  | bare (cs : List Char)
  | quoted (cs : List Char)
  | closed (cs : List Char)
  deriving DecidableEq

/-- The field that ends here. -/
def Cursor.field : Cursor → Field
  | .fresh => none
  | .bare cs => some cs
  | .quoted cs => some cs
  | .closed cs => some cs

/-- The records that are complete, and the fields of the one that is not. -/
structure Reader where
  records : List (List Field)
  fields : List Field
  cursor : Cursor
  deriving DecidableEq

/-- One character. -/
def Reader.step (r : Reader) (c : Char) : Reader :=
  match r.cursor with
  | .quoted cs =>
      if c = '"' then { r with cursor := .closed cs }
      else { r with cursor := .quoted (cs ++ [c]) }
  | .fresh =>
      if c = ',' then { r with fields := r.fields ++ [none] }
      else if c = '\n' then ⟨r.records ++ [r.fields ++ [none]], [], .fresh⟩
      else if c = '"' then { r with cursor := .quoted [] }
      else { r with cursor := .bare [c] }
  | .bare cs =>
      if c = ',' then { r with fields := r.fields ++ [some cs], cursor := .fresh }
      else if c = '\n' then ⟨r.records ++ [r.fields ++ [some cs]], [], .fresh⟩
      else { r with cursor := .bare (cs ++ [c]) }
  | .closed cs =>
      if c = ',' then { r with fields := r.fields ++ [some cs], cursor := .fresh }
      else if c = '\n' then ⟨r.records ++ [r.fields ++ [some cs]], [], .fresh⟩
      else if c = '"' then { r with cursor := .quoted (cs ++ ['"']) }
      else { r with cursor := .bare (cs ++ [c]) }

/-- A text, read on from `r`. -/
def Reader.run (r : Reader) (text : List Char) : Reader := text.foldl Reader.step r

/-- The end of the text. -/
def Reader.finish (r : Reader) : Option (List (List Field)) :=
  match r.cursor with
  | .quoted _ => none
  | .fresh => if r.fields = [] then some r.records else some (r.records ++ [r.fields ++ [none]])
  | .bare cs => some (r.records ++ [r.fields ++ [some cs]])
  | .closed cs => some (r.records ++ [r.fields ++ [some cs]])

/-- The records of a text, the last of which may lack its newline. -/
def parse (text : List Char) : Option (List (List Field)) :=
  (Reader.run ⟨[], [], .fresh⟩ text).finish

/-! ### Writing -/

/-- A character that has to be quoted. -/
def Special (c : Char) : Prop := c = ',' ∨ c = '"' ∨ c = '\n'

instance : DecidablePred Special := fun _ => inferInstanceAs (Decidable (_ ∨ _ ∨ _))

/-- The inside of a quoted field, its quotes doubled. -/
def escape (cs : List Char) : List Char := cs.flatMap fun c => if c = '"' then ['"', '"'] else [c]

/-- A field as it is written: quoted if it is empty or has to be. -/
def renderField (cs : List Char) : List Char :=
  if cs = [] ∨ cs.any (Special ·) then '"' :: escape cs ++ ['"'] else cs

/-- A record as it is written, without its newline. -/
def renderLine : List (List Char) → List Char
  | [] => []
  | [f] => renderField f
  | f :: fs => renderField f ++ ',' :: renderLine fs

/-- A record as it is written. -/
def renderRecord (fs : List (List Char)) : List Char := renderLine fs ++ ['\n']

/-! ### Round trip -/

lemma not_quoted_iff {cs : List Char} :
    ¬ (cs = [] ∨ cs.any (Special ·) = true) ↔ cs ≠ [] ∧ ∀ c ∈ cs, ¬ Special c := by
  rw [not_or, List.any_eq_true]
  simp only [decide_eq_true_eq, not_exists, not_and]

lemma Reader.run_append (r : Reader) (l l' : List Char) : r.run (l ++ l') = (r.run l).run l' :=
  List.foldl_append ..

lemma Reader.run_cons (r : Reader) (c : Char) (l : List Char) : r.run (c :: l) = (r.step c).run l :=
  rfl

variable {records : List (List Field)} {fields : List Field}

/-- What needs no quotes is read as it stands. -/
lemma run_bare (cs seen : List Char) (h : ∀ c ∈ cs, ¬ Special c) :
    Reader.run ⟨records, fields, .bare seen⟩ cs = ⟨records, fields, .bare (seen ++ cs)⟩ := by
  induction cs generalizing seen with
  | nil => rw [List.append_nil]; rfl
  | cons c cs ih =>
      have hc := h c List.mem_cons_self
      simp only [Special, not_or] at hc
      rw [Reader.run_cons, Reader.step]
      simp only [hc, if_false]
      rw [ih _ fun d hd => h d (List.mem_cons_of_mem _ hd), List.append_assoc,
        List.singleton_append]

lemma run_plain {cs : List Char} (hne : cs ≠ []) (h : ∀ c ∈ cs, ¬ Special c) :
    Reader.run ⟨records, fields, .fresh⟩ cs = ⟨records, fields, .bare cs⟩ := by
  obtain ⟨c, cs, rfl⟩ := List.exists_cons_of_ne_nil hne
  have hc := h c List.mem_cons_self
  simp only [Special, not_or] at hc
  rw [Reader.run_cons, Reader.step]
  simp only [hc, if_false]
  rw [run_bare _ _ fun d hd => h d (List.mem_cons_of_mem _ hd), List.singleton_append]

/-- The inside of a quoted field. -/
lemma run_escape (cs seen : List Char) :
    Reader.run ⟨records, fields, .quoted seen⟩ (escape cs)
      = ⟨records, fields, .quoted (seen ++ cs)⟩ := by
  induction cs generalizing seen with
  | nil => rw [List.append_nil]; rfl
  | cons c cs ih =>
      have hstep : Reader.run ⟨records, fields, .quoted seen⟩ (if c = '"' then ['"', '"'] else [c])
          = ⟨records, fields, .quoted (seen ++ [c])⟩ := by
        by_cases hc : c = '"'
        · subst hc
          rfl
        · rw [if_neg hc, Reader.run_cons, Reader.step]
          simp only [hc, if_false]
          rfl
      rw [escape, List.flatMap_cons, Reader.run_append, hstep]
      exact (ih _).trans (by rw [List.append_assoc, List.singleton_append])

/-- A field that is written and ended by a comma or a newline is read. -/
lemma run_renderField (cs : List Char) (c : Char) (hc : c = ',' ∨ c = '\n') :
    Reader.run ⟨records, fields, .fresh⟩ (renderField cs ++ [c])
      = if c = ',' then ⟨records, fields ++ [some cs], .fresh⟩
        else ⟨records ++ [fields ++ [some cs]], [], .fresh⟩ := by
  rw [renderField]
  split_ifs with hq hcomma hcomma
  · rw [List.cons_append, List.cons_append, Reader.run_cons, List.append_assoc, Reader.run_append]
    have hquote : Reader.step ⟨records, fields, .fresh⟩ '"' = ⟨records, fields, .quoted []⟩ := rfl
    rw [hquote, run_escape, hcomma]
    rfl
  · rw [List.cons_append, List.cons_append, Reader.run_cons, List.append_assoc, Reader.run_append]
    have hquote : Reader.step ⟨records, fields, .fresh⟩ '"' = ⟨records, fields, .quoted []⟩ := rfl
    rw [hquote, run_escape, hc.resolve_left hcomma]
    rfl
  · obtain ⟨hne, hplain⟩ := not_quoted_iff.mp hq
    rw [Reader.run_append, run_plain hne hplain, hcomma]
    rfl
  · obtain ⟨hne, hplain⟩ := not_quoted_iff.mp hq
    rw [Reader.run_append, run_plain hne hplain, hc.resolve_left hcomma]
    rfl

/-- A record that is written is read. -/
lemma run_renderRecord (fs : List (List Char)) (hne : fs ≠ []) :
    Reader.run ⟨records, fields, .fresh⟩ (renderRecord fs)
      = ⟨records ++ [fields ++ fs.map some], [], .fresh⟩ := by
  induction fs generalizing fields with
  | nil => exact absurd rfl hne
  | cons f fs ih =>
      cases fs with
      | nil => exact run_renderField f '\n' (.inr rfl)
      | cons g fs =>
          have hline : renderRecord (f :: g :: fs)
              = (renderField f ++ [',']) ++ renderRecord (g :: fs) := by
            simp [renderRecord, renderLine]
          rw [hline, Reader.run_append, run_renderField f ',' (.inl rfl), if_pos rfl,
            ih (by simp), List.append_assoc]
          rfl

lemma run_records (l : List (List (List Char))) (hne : ∀ fs ∈ l, fs ≠ []) :
    Reader.run ⟨records, [], .fresh⟩ (l.flatMap renderRecord)
      = ⟨records ++ l.map (·.map some), [], .fresh⟩ := by
  induction l generalizing records with
  | nil => rw [List.map_nil, List.append_nil]; rfl
  | cons fs l ih =>
      rw [List.flatMap_cons, Reader.run_append, run_renderRecord fs (hne fs List.mem_cons_self),
        ih fun fs' h => hne fs' (List.mem_cons_of_mem _ h), List.append_assoc]
      rfl

/-- Records are read back from their lines. -/
theorem parse_records (l : List (List (List Char))) (hne : ∀ fs ∈ l, fs ≠ []) :
    parse (l.flatMap renderRecord) = some (l.map (·.map some)) := by
  rw [parse, run_records l hne]
  rfl

/-- A quote that stays open behind whole lines makes the text unreadable. -/
theorem parse_open (l : List (List (List Char))) (hne : ∀ fs ∈ l, fs ≠ []) {torn cs : List Char}
    {fields' : List Field}
    (htorn : Reader.run ⟨l.map (·.map some), [], .fresh⟩ torn
      = ⟨l.map (·.map some), fields', .quoted cs⟩) :
    parse (l.flatMap renderRecord ++ torn) = none := by
  rw [parse, Reader.run_append, run_records l hne, List.nil_append, htorn]
  rfl

/-! ### Lines -/

/-- The lines of a text, the last of which may lack its newline. -/
def splitLines : List Char → List (List Char)
  | [] => []
  | c :: cs =>
      if c = '\n' then [] :: splitLines cs
      else match splitLines cs with
        | [] => [[c]]
        | l :: ls => (c :: l) :: ls

/-- The text of lines. -/
def joinLines (ls : List (List Char)) : List Char := ls.flatMap (· ++ ['\n'])

/-- What stands behind the last newline. -/
def lastLine (text : List Char) : List Char := (text.reverse.takeWhile (· ≠ '\n')).reverse

lemma splitLines_line (l rest : List Char) (h : '\n' ∉ l) :
    splitLines (l ++ '\n' :: rest) = l :: splitLines rest := by
  induction l with
  | nil => rfl
  | cons c l ih =>
      rw [List.mem_cons, not_or] at h
      rw [List.cons_append, splitLines, if_neg (Ne.symm h.1), ih h.2]

lemma splitLines_torn (torn : List Char) (hne : torn ≠ []) (h : '\n' ∉ torn) :
    splitLines torn = [torn] := by
  induction torn with
  | nil => exact absurd rfl hne
  | cons c torn ih =>
      rw [List.mem_cons, not_or] at h
      rw [splitLines, if_neg (Ne.symm h.1)]
      cases torn with
      | nil => rfl
      | cons d torn => rw [ih (by simp) h.2]

/-- Lines are found again in their text, and what stands behind the last of them. -/
theorem splitLines_lines (ls : List (List Char)) (hls : ∀ l ∈ ls, '\n' ∉ l) {torn : List Char}
    (hne : torn ≠ []) (h : '\n' ∉ torn) : splitLines (joinLines ls ++ torn) = ls ++ [torn] := by
  induction ls with
  | nil => exact splitLines_torn torn hne h
  | cons l ls ih =>
      rw [joinLines, List.flatMap_cons, List.append_assoc, List.append_assoc, List.singleton_append,
        splitLines_line l _ (hls l List.mem_cons_self)]
      exact congrArg _ (ih fun l' hl' => hls l' (List.mem_cons_of_mem _ hl'))

lemma splitLines_joinLines (ls : List (List Char)) (hls : ∀ l ∈ ls, '\n' ∉ l) :
    splitLines (joinLines ls) = ls := by
  induction ls with
  | nil => rfl
  | cons l ls ih =>
      rw [joinLines, List.flatMap_cons, List.append_assoc, List.singleton_append,
        splitLines_line l _ (hls l List.mem_cons_self)]
      exact congrArg _ (ih fun l' hl' => hls l' (List.mem_cons_of_mem _ hl'))

/-- The lines before a text do not belong to its last line. -/
lemma lastLine_append (ls : List (List Char)) (text : List Char) :
    lastLine (joinLines ls ++ text) = lastLine text := by
  have hlines : (joinLines ls).reverse.takeWhile (· ≠ '\n') = [] := by
    rcases List.eq_nil_or_concat ls with rfl | ⟨front, l, rfl⟩
    · rfl
    · simp [joinLines]
  rw [lastLine, lastLine, List.reverse_append, List.takeWhile_append, hlines, List.append_nil]
  split_ifs with hall
  · rw [(List.takeWhile_prefix _).eq_of_length hall]
  · rfl

/-- Without a newline, all of it is the last line. -/
lemma lastLine_torn {torn : List Char} (h : '\n' ∉ torn) : lastLine torn = torn := by
  have hpos : ∀ c ∈ torn.reverse, decide (c ≠ '\n') = true := by
    intro c hc
    refine decide_eq_true fun he => h ?_
    rw [← he]
    exact List.mem_reverse.mp hc
  rw [lastLine, List.takeWhile_eq_self_iff.mpr hpos, List.reverse_reverse]

lemma newline_notMem_escape {cs : List Char} (h : '\n' ∉ cs) : '\n' ∉ escape cs := by
  rintro hmem
  obtain ⟨c, hc, hin⟩ := List.mem_flatMap.mp hmem
  split_ifs at hin
  · exact absurd hin (by decide)
  · cases List.mem_singleton.mp hin
    exact h hc

lemma newline_notMem_renderField {cs : List Char} (h : '\n' ∉ cs) : '\n' ∉ renderField cs := by
  rw [renderField]
  split_ifs
  · simpa using newline_notMem_escape h
  · exact h

/-- Fields without newlines make one line. -/
lemma newline_notMem_renderLine {fs : List (List Char)} (h : ∀ f ∈ fs, '\n' ∉ f) :
    '\n' ∉ renderLine fs := by
  induction fs with
  | nil => exact List.not_mem_nil
  | cons f fs ih =>
      have hf := newline_notMem_renderField (h f List.mem_cons_self)
      cases fs with
      | nil => exact hf
      | cons g fs =>
          have hrest := ih fun f' hf' => h f' (List.mem_cons_of_mem _ hf')
          rw [renderLine.eq_3 _ _ (by simp), List.mem_append, List.mem_cons]
          rintro (h | h | h)
          · exact hf h
          · exact absurd h (by decide)
          · exact hrest h

lemma renderField_plain {cs : List Char} (hne : cs ≠ []) (h : ∀ c ∈ cs, ¬ Special c) :
    renderField cs = cs :=
  if_neg (not_quoted_iff.mpr ⟨hne, h⟩)

/-- A line with one quoted field, which is empty, is cut within it where a quote is open. -/
lemma take_of_odd_quotes {front back : List Char} (hfront : '"' ∉ front) (hback : '"' ∉ back)
    {j : ℕ} (hodd : ((front ++ '"' :: '"' :: back).take j).count '"' % 2 = 1) :
    (front ++ '"' :: '"' :: back).take j = front ++ ['"'] := by
  have hnone : (front.take j).count '"' = 0 :=
    List.count_eq_zero_of_not_mem fun hmem => hfront (List.mem_of_mem_take hmem)
  rw [List.take_append] at hodd ⊢
  match hj : j - front.length with
  | 0 => simp [hj, hnone] at hodd
  | 1 =>
      rw [List.take_of_length_le (by omega)]
      rfl
  | n + 2 =>
      have hrest : (back.take n).count '"' = 0 :=
        List.count_eq_zero_of_not_mem fun hmem => hback (List.mem_of_mem_take hmem)
      simp [hj, hnone, hrest] at hodd

/-! ### Records with nulls -/

/-- A cell as it is written: a null as nothing, and a text quoted if it is empty or has to be. -/
def renderCell : Field → List Char
  | none => []
  | some cs =>
      if cs = [] ∨ cs.any (fun c => Special c ∨ c = '\r') then '"' :: escape cs ++ ['"'] else cs

/-- Cells as they are written, without the newline. -/
def renderCellLine : List Field → List Char
  | [] => []
  | [f] => renderCell f
  | f :: fs => renderCell f ++ ',' :: renderCellLine fs

/-- Cells as they are written. -/
def renderCells (fs : List Field) : List Char := renderCellLine fs ++ ['\n']

lemma run_quoted (cs : List Char) :
    Reader.run ⟨records, fields, .fresh⟩ ('"' :: escape cs ++ ['"'])
      = ⟨records, fields, .closed cs⟩ := by
  have hquote : Reader.step ⟨records, fields, .fresh⟩ '"' = ⟨records, fields, .quoted []⟩ := rfl
  rw [List.cons_append, Reader.run_cons, Reader.run_append, hquote, run_escape]
  rfl

/-- A cell that is written and ended by a comma or a newline is read. -/
lemma run_renderCell (f : Field) (c : Char) (hc : c = ',' ∨ c = '\n') :
    Reader.run ⟨records, fields, .fresh⟩ (renderCell f ++ [c])
      = if c = ',' then ⟨records, fields ++ [f], .fresh⟩
        else ⟨records ++ [fields ++ [f]], [], .fresh⟩ := by
  cases f with
  | none => rcases hc with rfl | rfl <;> rfl
  | some cs =>
      rw [renderCell]
      split_ifs with hq hcomma hcomma
      · rw [Reader.run_append, run_quoted, hcomma]
        rfl
      · rw [Reader.run_append, run_quoted, hc.resolve_left hcomma]
        rfl
      all_goals
        simp only [not_or, List.any_eq_true, decide_eq_true_eq, not_exists, not_and] at hq
        rw [Reader.run_append, run_plain hq.1 fun d hd => (hq.2 d hd).1]
      · rw [hcomma]
        rfl
      · rw [hc.resolve_left hcomma]
        rfl

/-- Cells that are written are read. -/
lemma run_renderCells (fs : List Field) (hne : fs ≠ []) :
    Reader.run ⟨records, fields, .fresh⟩ (renderCells fs)
      = ⟨records ++ [fields ++ fs], [], .fresh⟩ := by
  induction fs generalizing fields with
  | nil => exact absurd rfl hne
  | cons f fs ih =>
      cases fs with
      | nil => exact run_renderCell f '\n' (.inr rfl)
      | cons g fs =>
          have hline : renderCells (f :: g :: fs)
              = (renderCell f ++ [',']) ++ renderCells (g :: fs) := by
            simp [renderCells, renderCellLine]
          rw [hline, Reader.run_append, run_renderCell f ',' (.inl rfl), if_pos rfl,
            ih (by simp), List.append_assoc]
          rfl

lemma run_cells (l : List (List Field)) (hne : ∀ fs ∈ l, fs ≠ []) :
    Reader.run ⟨records, [], .fresh⟩ (l.flatMap renderCells) = ⟨records ++ l, [], .fresh⟩ := by
  induction l generalizing records with
  | nil => rw [List.append_nil]; rfl
  | cons fs l ih =>
      rw [List.flatMap_cons, Reader.run_append, run_renderCells fs (hne fs List.mem_cons_self),
        ih fun fs' h => hne fs' (List.mem_cons_of_mem _ h), List.append_assoc]
      rfl

/-- Records with nulls are read back from their lines. -/
theorem parse_cells (l : List (List Field)) (hne : ∀ fs ∈ l, fs ≠ []) :
    parse (l.flatMap renderCells) = some l := by
  rw [parse, run_cells l hne]
  rfl

lemma newline_notMem_renderCell {f : Field} (h : ∀ cs ∈ f, '\n' ∉ cs) : '\n' ∉ renderCell f := by
  cases f with
  | none => exact List.not_mem_nil
  | some cs =>
      have hcs := h cs rfl
      rw [renderCell]
      split_ifs
      · simpa using newline_notMem_escape hcs
      · exact hcs

/-- Cells without newlines make one line. -/
lemma newline_notMem_renderCellLine {fs : List Field} (h : ∀ f ∈ fs, ∀ cs ∈ f, '\n' ∉ cs) :
    '\n' ∉ renderCellLine fs := by
  induction fs with
  | nil => exact List.not_mem_nil
  | cons f fs ih =>
      have hf := newline_notMem_renderCell (h f List.mem_cons_self)
      cases fs with
      | nil => exact hf
      | cons g fs =>
          have hrest := ih fun f' hf' => h f' (List.mem_cons_of_mem _ hf')
          rw [renderCellLine.eq_3 _ _ (by simp), List.mem_append, List.mem_cons]
          rintro (h | h | h)
          · exact hf h
          · exact absurd h (by decide)
          · exact hrest h

lemma joinLines_renderCellLine (l : List (List Field)) :
    joinLines (l.map renderCellLine) = l.flatMap renderCells := by
  rw [joinLines, List.flatMap_map]
  rfl

end BtcParser.Csv
