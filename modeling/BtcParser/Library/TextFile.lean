import Mathlib.Tactic

/-!
Text files in UTF-8: the bytes a text is written as, and the text that bytes are read as, where
every line break becomes a `'\n'`.

* `readText_writeText`: a text without carriage returns is read back.
-/

namespace BtcParser.TextFile

/-- The bytes of a text. -/
def writeText (cs : List Char) : List UInt8 := cs.flatMap String.utf8EncodeChar

/-- Every line break as a `'\n'`. -/
def universalNewlines : List Char → List Char
  | '\r' :: '\n' :: cs => '\n' :: universalNewlines cs
  | '\r' :: cs => '\n' :: universalNewlines cs
  | c :: cs => c :: universalNewlines cs
  | [] => []

/-- The text of the bytes, `none` if they are not UTF-8. -/
def readText (bytes : List UInt8) : Option (List Char) :=
  bytes.toByteArray.utf8Decode?.map fun cs => universalNewlines cs.toList

lemma universalNewlines_of_notMem {cs : List Char} (h : '\r' ∉ cs) : universalNewlines cs = cs := by
  induction cs with
  | nil => rfl
  | cons c cs ih =>
      rw [List.mem_cons, not_or] at h
      rw [universalNewlines, ih h.2]
      · exact fun _ hc _ => h.1 hc.symm
      · exact fun hc => h.1 hc.symm

/-- **A text is read back**, but for its carriage returns. -/
theorem readText_writeText {cs : List Char} (h : '\r' ∉ cs) :
    readText (writeText cs) = some cs := by
  have hbytes : (writeText cs).toByteArray = cs.utf8Encode := by rw [writeText, List.utf8Encode]
  rw [readText, hbytes, List.utf8Decode?_utf8Encode, Option.map_some,
    universalNewlines_of_notMem h]

end BtcParser.TextFile
