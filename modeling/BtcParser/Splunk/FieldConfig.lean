import BtcParser.Library.Regex

/-!
`splunk/build_field_config.py`: the field extractions that are generated from `export_schema.py`.

A generated `REGEX` is the expression and not its text, which is `Regex.text` of it. The names of
the stanzas and the settings that have nothing to do with fields are left out.
-/

namespace BtcParser.Splunk

/-- The fields of a `Sourcetype` that the extraction depends on. -/
structure Sourcetype where
  name : String
  columns : List String
  timeField : String
  indexed : Option (List String)

namespace Sourcetype

variable (st : Sourcetype)

/-- `indexed_fields`. -/
def indexedFields : List String := st.indexed.getD st.columns

/-- `search_time_fields`. -/
def searchTimeFields : List String := st.columns.filter fun c => !st.indexedFields.contains c

end Sourcetype

/-- `_skip_columns_regex`. -/
def skipColumnsRegex (n : ℕ) : Regex :=
  if n = 0 then .start
  else .seq .start (.times (.seq (.many (.allBut ',')) (.one (.only ','))) n)

/-- The text of the expression. -/
example : (skipColumnsRegex 12).text = "^(?:[^,]*,)\x7b12\x7d".toList := by
  decide +kernel

/-! ### Consistency -/

/-- The errors of `_check_index_consistency`, with the names they mention. -/
inductive IndexError where
  | notAColumn (sourcetype field : String)
  | notIndexed (field sourcetype other : String)
  deriving DecidableEq

/-- The errors about one indexed field of a sourcetype. -/
def fieldErrors (sourcetypes : List Sourcetype) (st : Sourcetype) (field : String) :
    List IndexError :=
  (if st.columns.contains field then [] else [.notAColumn st.name field])
    ++ sourcetypes.flatMap fun other =>
      if other.columns.contains field && !other.indexedFields.contains field then
        [.notIndexed field st.name other.name]
      else []

/-- `_check_index_consistency`. -/
def checkIndexConsistency (sourcetypes : List Sourcetype) : List IndexError :=
  sourcetypes.flatMap fun st => (st.indexed.getD []).flatMap (fieldErrors sourcetypes st)

/-! ### Index time -/

/-- A transform of `index_transforms`, which writes `field::$1`. -/
structure Transform where
  field : String
  regex : Regex

namespace Sourcetype

variable (st : Sourcetype)

/-- The transform of a field; `none` stands for the `ValueError` of `index`. -/
def indexTransform (field : String) : Option Transform :=
  (st.columns.idxOf? field).map fun i =>
    ⟨field, .seq (skipColumnsRegex i) (.capture (.numbered 1) (.many1 (.allBut ',')))⟩

/-- The transforms that `index_transforms` writes for a sourcetype. -/
def indexTransforms : Option (List Transform) :=
  if st.indexed.isNone then some [] else st.indexedFields.mapM st.indexTransform

/-- The `TIME_PREFIX` of `_index_props_positional`; `none` stands for the `ValueError` of `index`.
-/
def timePrefix : Option Regex := (st.columns.idxOf? st.timeField).map skipColumnsRegex

/-! ### Search time -/

/-- The part of a column in `search_transforms`. -/
def searchPart (c : String) : Regex :=
  if st.searchTimeFields.contains c then .capture (.named c) (.many (.allBut ','))
  else .many (.allBut ',')

end Sourcetype

/-- `",".join(parts)`. -/
def joinParts : List Regex → Regex
  | [] => .empty
  | [r] => r
  | r :: rs => .seq r (.seq (.one (.only ',')) (joinParts rs))

/-- The expression that `search_transforms` writes for a sourcetype, if it writes one. -/
def Sourcetype.searchTransform (st : Sourcetype) : Option Regex :=
  if st.searchTimeFields.isEmpty then none
  else some (.seq .start (joinParts (st.columns.map st.searchPart)))

/-- The names that `search_fields` declares with `INDEXED = true`. -/
def searchFields (sourcetypes : List Sourcetype) : List String :=
  sourcetypes.foldl (fun names st => names ++ (st.indexed.getD []).filter (!names.contains ·)) []

/-! ### What the settings do to an event -/

/-- What a transform writes: its field with the first group, if the expression is found. -/
def Transform.apply (t : Transform) (raw : List Char) : Option (String × List Char) :=
  (t.regex.search raw).bind fun p => (p.2.group (.numbered 1)).map fun v => (t.field, v)

/-- The field of a named group, unless its value is empty. -/
def reportedField : Group × List Char → Option (String × List Char)
  | (.named name, v) => if v = [] then none else some (name, v)
  | (.numbered _, _) => none

namespace Sourcetype

variable (st : Sourcetype) (raw : List Char)

/-- The indexed fields of an event. -/
def indexTime : List (String × List Char) :=
  (st.indexTransforms.getD []).filterMap (Transform.apply · raw)

/-- The fields that the report extracts from an event. -/
def searchTime : List (String × List Char) :=
  match st.searchTransform.bind (Regex.search · raw) with
  | none => []
  | some p => p.2.captures.filterMap reportedField

end Sourcetype

end BtcParser.Splunk
