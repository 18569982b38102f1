import BtcParser.Library.Bytes
import BtcParser.Library.Dict
import Mathlib.Data.Char
import Mathlib.Data.List.Lex

/-!
JSON texts: written with an indent, and read back.

A text is read as a document: one value, with white space around it. An object is what its pairs
make of it when a later one with the same key takes the place of an earlier one. The code points
that are no characters, the halves of surrogate pairs, cannot stand alone here.

Main results:
* `read_render`: in front of anything that ends it, a value that was written is read back;
* `loads_dumps`: the text of a value is read back as the value;
* `plain_sortKeys`, `sortKeys_sortKeys`: the same value with its keys in order;
* `mem_dumps`: the characters of a text.
-/

namespace BtcParser.Json

/-- A JSON value. A number with a fraction or an exponent is its text. -/
inductive Value where
  | null
  | bool (b : Bool)
  | int (n : ℤ)
  | real (text : List Char)
  | str (s : List Char)
  | arr (items : List Value)
  | obj (members : List (List Char × Value))

/-! ### Writing -/

/-- The escape of a code unit. -/
def unicodeEscape (n : ℕ) : List Char := '\\' :: 'u' :: (hexText 4 n)

/-- A character in a string: what is not printable, or not ASCII, is escaped. -/
def escape (c : Char) : List Char :=
  if c = '"' then ['\\', '"']
  else if c = '\\' then ['\\', '\\']
  else if c = '\n' then ['\\', 'n']
  else if c = '\r' then ['\\', 'r']
  else if c = '\t' then ['\\', 't']
  else if c = Char.ofNat 12 then ['\\', 'f']
  else if c = Char.ofNat 8 then ['\\', 'b']
  else if 32 ≤ c.toNat ∧ c.toNat < 127 then [c]
  else if c.toNat < 0x10000 then unicodeEscape c.toNat
  else unicodeEscape (0xD800 + (c.toNat - 0x10000) / 1024)
    ++ unicodeEscape (0xDC00 + (c.toNat - 0x10000) % 1024)

/-- A string. -/
def renderString (s : List Char) : List Char := '"' :: (s.flatMap escape ++ ['"'])

/-- An integer. -/
def renderInt (n : ℤ) : List Char :=
  if n < 0 then '-' :: Nat.toDigits 10 n.natAbs else Nat.toDigits 10 n.natAbs

/-- A line break, and the indent of a level. -/
def newline (indent level : ℕ) : List Char := '\n' :: List.replicate (indent * level) ' '

mutual

/-- A value at a level, with this indent. -/
def render (indent level : ℕ) : Value → List Char
  | .null => ['n', 'u', 'l', 'l']
  | .bool true => ['t', 'r', 'u', 'e']
  | .bool false => ['f', 'a', 'l', 's', 'e']
  | .int n => renderInt n
  | .real text => text
  | .str s => renderString s
  | .arr [] => ['[', ']']
  | .arr (v :: items) =>
      '[' :: (newline indent (level + 1) ++ (render indent (level + 1) v
        ++ (renderItems indent (level + 1) items ++ (newline indent level ++ [']']))))
  | .obj [] => ['\x7b', '\x7d']
  | .obj ((k, v) :: members) =>
      '\x7b' :: (newline indent (level + 1) ++ (renderString k ++ (':' :: ' '
        :: (render indent (level + 1) v ++ (renderMembers indent (level + 1) members
          ++ (newline indent level ++ ['\x7d']))))))

/-- The items behind the first. -/
def renderItems (indent level : ℕ) : List Value → List Char
  | [] => []
  | v :: items => ',' :: (newline indent level ++ (render indent level v
      ++ renderItems indent level items))

/-- The members behind the first. -/
def renderMembers (indent level : ℕ) : List (List Char × Value) → List Char
  | [] => []
  | (k, v) :: members => ',' :: (newline indent level ++ (renderString k ++ (':' :: ' '
      :: (render indent level v ++ renderMembers indent level members))))

end

/-- The text of a value. -/
def dumps (indent : ℕ) (v : Value) : List Char := render indent 0 v

/-! ### Reading -/

/-- White space. -/
def isSpace (c : Char) : Bool := c = ' ' || c = '\t' || c = '\n' || c = '\r'

def skipSpace (cs : List Char) : List Char := cs.dropWhile isSpace

/-- Four hexadecimal digits. -/
def readHex (a b c d : Char) : Option ℕ := do
  let a ← hexValue a
  let b ← hexValue b
  let c ← hexValue c
  let d ← hexValue d
  pure (4096 * a + 256 * b + 16 * c + d)

/-- What a letter stands for behind a backslash. -/
def unescape (c : Char) : Option Char :=
  if c = '"' ∨ c = '\\' ∨ c = '/' then some c
  else if c = 'n' then some '\n'
  else if c = 'r' then some '\r'
  else if c = 't' then some '\t'
  else if c = 'f' then some (Char.ofNat 12)
  else if c = 'b' then some (Char.ofNat 8)
  else none

/-- A character in front of what is read behind it. -/
def consChar (c : Char) (p : Option (List Char × List Char)) : Option (List Char × List Char) :=
  p.map fun p => (c :: p.1, p.2)

/-- A string behind its first quote, and the rest of the text. -/
def readString : List Char → Option (List Char × List Char)
  | [] => none
  | '"' :: r => some ([], r)
  | '\\' :: 'u' :: a :: b :: c :: d :: r =>
      match readHex a b c d with
      | none => none
      | some n =>
          if n < 0xD800 ∨ 0xDFFF < n then consChar (Char.ofNat n) (readString r)
          else
            match r with
            | '\\' :: 'u' :: a :: b :: c :: d :: r =>
                match readHex a b c d with
                | none => none
                | some m =>
                    if n < 0xDC00 ∧ 0xDC00 ≤ m ∧ m ≤ 0xDFFF then
                      consChar (Char.ofNat (0x10000 + 1024 * (n - 0xD800) + (m - 0xDC00)))
                        (readString r)
                    else none
            | _ => none
  | '\\' :: e :: r =>
      match unescape e with
      | none => none
      | some c => consChar c (readString r)
  | c :: r => if c.toNat < 32 then none else consChar c (readString r)

/-- A key at the beginning of a text, and the rest behind the colon. -/
def readKey (cs : List Char) : Option (List Char × List Char) :=
  match cs with
  | '"' :: r =>
      match readString r with
      | none => none
      | some (k, r) =>
          match skipSpace r with
          | ':' :: r => some (k, skipSpace r)
          | _ => none
  | _ => none

/-- `(\.[0-9]+)?`, at the beginning of a text. -/
def readFraction (cs : List Char) : List Char :=
  match cs with
  | '.' :: r => if r.takeWhile Char.isDigit = [] then [] else '.' :: r.takeWhile Char.isDigit
  | _ => []

/-- `([eE][-+]?[0-9]+)?`, at the beginning of a text. -/
def readExponent (cs : List Char) : List Char :=
  match cs with
  | [] => []
  | e :: r =>
      if e = 'e' ∨ e = 'E' then
        let sign := r.take (if r.head? = some '-' ∨ r.head? = some '+' then 1 else 0)
        let digits := (r.drop sign.length).takeWhile Char.isDigit
        if digits = [] then [] else e :: (sign ++ digits)
      else []

/-- `0|[1-9][0-9]*`, at the beginning of a text. -/
def readDigits (cs : List Char) : List Char :=
  match cs with
  | '0' :: _ => ['0']
  | _ => cs.takeWhile Char.isDigit

/-- A number, and the rest of the text. -/
def readNumber (cs : List Char) : Option (Value × List Char) :=
  let negative : Bool := cs.head? = some '-'
  let unsigned := if negative then cs.tail else cs
  let digits := readDigits unsigned
  let rest := unsigned.drop digits.length
  let fraction := readFraction rest
  let exponent := readExponent (rest.drop fraction.length)
  if digits = [] then none
  else if fraction ++ exponent = [] then
    let n : ℤ := Nat.ofDigitChars 10 digits 0
    some (.int (if negative then -n else n), rest)
  else
    some (.real ((if negative then ['-'] else []) ++ digits ++ fraction ++ exponent),
      rest.drop (fraction ++ exponent).length)

/-- What the pairs of an object make of it. -/
def members (pairs : List (List Char × Value)) : List (List Char × Value) :=
  (pairs.foldl (fun d p => d.set p.1 p.2) (Dict.empty : Dict (List Char) Value)).entries

mutual

/-- A value at the beginning of a text, and the rest of it. `fuel` bounds the depth. -/
def readValue : ℕ → List Char → Option (Value × List Char)
  | 0, _ => none
  | fuel + 1, cs =>
      match cs with
      | '"' :: r => (readString r).map fun p => (.str p.1, p.2)
      | '[' :: r =>
          match skipSpace r with
          | ']' :: r => some (.arr [], r)
          | r => (readItems fuel r).map fun p => (.arr p.1, p.2)
      | '\x7b' :: r =>
          match skipSpace r with
          | '\x7d' :: r => some (.obj [], r)
          | r => (readMembers fuel r).map fun p => (.obj (members p.1), p.2)
      | 'n' :: 'u' :: 'l' :: 'l' :: r => some (.null, r)
      | 't' :: 'r' :: 'u' :: 'e' :: r => some (.bool true, r)
      | 'f' :: 'a' :: 'l' :: 's' :: 'e' :: r => some (.bool false, r)
      | 'N' :: 'a' :: 'N' :: r => some (.real ['N', 'a', 'N'], r)
      | 'I' :: 'n' :: 'f' :: 'i' :: 'n' :: 'i' :: 't' :: 'y' :: r =>
          some (.real ['I', 'n', 'f', 'i', 'n', 'i', 't', 'y'], r)
      | '-' :: 'I' :: 'n' :: 'f' :: 'i' :: 'n' :: 'i' :: 't' :: 'y' :: r =>
          some (.real ['-', 'I', 'n', 'f', 'i', 'n', 'i', 't', 'y'], r)
      | cs => readNumber cs

/-- The items of an array from one on, and the rest behind the bracket. -/
def readItems : ℕ → List Char → Option (List Value × List Char)
  | 0, _ => none
  | fuel + 1, cs =>
      match readValue fuel cs with
      | none => none
      | some (v, r) =>
          match skipSpace r with
          | ']' :: r => some ([v], r)
          | ',' :: r => (readItems fuel (skipSpace r)).map fun p => (v :: p.1, p.2)
          | _ => none

/-- The members of an object from one on, and the rest behind the brace. -/
def readMembers : ℕ → List Char → Option (List (List Char × Value) × List Char)
  | 0, _ => none
  | fuel + 1, cs =>
      match readKey cs with
      | none => none
      | some (k, r) =>
          match readValue fuel r with
          | none => none
          | some (v, r) =>
              match skipSpace r with
              | '\x7d' :: r => some ([(k, v)], r)
              | ',' :: r => (readMembers fuel (skipSpace r)).map fun p => ((k, v) :: p.1, p.2)
              | _ => none

end

/-- The value of a text, `none` if it is not one. -/
def loads (cs : List Char) : Option Value :=
  match readValue (2 * cs.length + 2) (skipSpace cs) with
  | none => none
  | some (v, r) => if skipSpace r = [] then some v else none

/-! ### Reading a string -/

lemma readHex_hexText {n : ℕ} (hn : n < 0x10000) :
    ∃ a b c d, hexText 4 n = [a, b, c, d] ∧ readHex a b c d = some n := by
  refine ⟨hexDigit (n / 16 / 16 / 16), hexDigit (n / 16 / 16 % 16), hexDigit (n / 16 % 16),
    hexDigit (n % 16), ?_, ?_⟩
  · rw [hexText_succ 2, hexText_succ 1, hexText_succ 0]
    have h : n / 16 / 16 / 16 < 16 := by omega
    rw [hexText, Nat.toDigits_of_lt_base h, hexDigit_eq_digitChar h]
    rfl
  · rw [readHex, hexValue_hexDigit (by omega), hexValue_hexDigit (by omega),
      hexValue_hexDigit (by omega), hexValue_hexDigit (by omega)]
    simp only [Option.bind_eq_bind, Option.bind_some, Option.pure_def, Option.some.injEq]
    omega

lemma readString_unicode {n : ℕ} (hn : n < 0xD800 ∨ 0xDFFF < n) (h : n < 0x10000)
    (r : List Char) :
    readString (unicodeEscape n ++ r) = consChar (Char.ofNat n) (readString r) := by
  obtain ⟨a, b, c, d, ht, hv⟩ := readHex_hexText h
  rw [unicodeEscape, ht]
  simp only [List.cons_append, List.nil_append, readString, hv, if_pos hn]

/-- A surrogate pair. -/
lemma readString_pair {n m : ℕ} (hn : 0xD800 ≤ n ∧ n < 0xDC00) (hm : 0xDC00 ≤ m ∧ m ≤ 0xDFFF)
    (r : List Char) : readString (unicodeEscape n ++ (unicodeEscape m ++ r))
      = consChar (Char.ofNat (0x10000 + 1024 * (n - 0xD800) + (m - 0xDC00))) (readString r) := by
  obtain ⟨a, b, c, d, ht, hv⟩ := readHex_hexText (n := n) (by omega)
  obtain ⟨a', b', c', d', ht', hv'⟩ := readHex_hexText (n := m) (by omega)
  rw [unicodeEscape, ht, unicodeEscape, ht']
  have h1 : ¬ (n < 0xD800 ∨ 0xDFFF < n) := by omega
  have h2 : n < 0xDC00 ∧ 0xDC00 ≤ m ∧ m ≤ 0xDFFF := ⟨hn.2, hm⟩
  simp only [List.cons_append, List.nil_append, readString, hv, hv', if_neg h1, if_pos h2]

lemma readString_plain {c : Char} (h1 : c ≠ '"') (h2 : c ≠ '\\') (h3 : 32 ≤ c.toNat)
    (r : List Char) : readString (c :: r) = consChar c (readString r) := by
  rw [readString.eq_def]
  split <;> simp_all

lemma readString_escape (c : Char) (r : List Char) :
    readString (escape c ++ r) = consChar c (readString r) := by
  rw [escape]
  split_ifs with h1 h2 h3 h4 h5 h6 h7 h8 h9
  · subst h1; rfl
  · subst h2; rfl
  · subst h3; rfl
  · subst h4; rfl
  · subst h5; rfl
  · subst h6; rfl
  · subst h7; rfl
  · exact readString_plain h1 h2 h8.1 r
  · have hvalid : c.toNat < 0xD800 ∨ 0xDFFF < c.toNat ∧ c.toNat < 0x110000 := c.valid
    rw [readString_unicode (by omega) h9, Char.ofNat_toNat]
  · have hvalid : c.toNat < 0xD800 ∨ 0xDFFF < c.toNat ∧ c.toNat < 0x110000 := c.valid
    have hsum : 0x10000 + 1024 * (0xD800 + (c.toNat - 0x10000) / 1024 - 0xD800)
        + (0xDC00 + (c.toNat - 0x10000) % 1024 - 0xDC00) = c.toNat := by omega
    rw [List.append_assoc, readString_pair (by omega) (by omega), hsum, Char.ofNat_toNat]

/-- A string is read back. -/
lemma readString_flatMap (s r : List Char) :
    readString (s.flatMap escape ++ '"' :: r) = some (s, r) := by
  induction s with
  | nil => rfl
  | cons c s ih =>
      rw [List.flatMap_cons, List.append_assoc, readString_escape, ih]
      rfl

/-! ### Reading a number -/

/-- Behind a number there is nothing that could belong to it. -/
def Stops (r : List Char) : Prop :=
  ∀ c ∈ r.head?, c.isDigit = false ∧ c ≠ '.' ∧ c ≠ 'e' ∧ c ≠ 'E'

lemma takeWhile_digits {ds r : List Char} (hd : ∀ c ∈ ds, c.isDigit = true) (hr : Stops r) :
    (ds ++ r).takeWhile Char.isDigit = ds := by
  rw [List.takeWhile_append_of_pos hd]
  cases r with
  | nil => simp
  | cons c r => rw [List.takeWhile_cons_of_neg (by simp [(hr c rfl).1]), List.append_nil]

lemma head_toDigits {n : ℕ} (hn : 0 < n) : (Nat.toDigits 10 n).head? ≠ some '0' := by
  induction n using Nat.strongRecOn with
  | ind n ih =>
      by_cases h : n < 10
      · rw [Nat.toDigits_of_lt_base h]
        interval_cases n <;> decide
      · rw [Nat.toDigits_of_base_le (by decide) (not_lt.mp h)]
        have := ih (n / 10) (by omega) (by omega)
        rw [List.head?_append]
        cases hh : (Nat.toDigits 10 (n / 10)).head? with
        | none => exact absurd (List.head?_eq_none_iff.mp hh) Nat.toDigits_ne_nil
        | some c => rwa [hh] at this

lemma readDigits_toDigits (n : ℕ) {r : List Char} (hr : Stops r) :
    readDigits (Nat.toDigits 10 n ++ r) = Nat.toDigits 10 n := by
  have hd : ∀ c ∈ Nat.toDigits 10 n, c.isDigit = true := fun c hc =>
    Nat.isDigit_of_mem_toDigits (by decide) (by decide) hc
  rcases Nat.eq_zero_or_pos n with rfl | hn
  · rfl
  · have hhead := head_toDigits hn
    cases hds : Nat.toDigits 10 n with
    | nil => exact absurd hds Nat.toDigits_ne_nil
    | cons d ds =>
        rw [hds] at hhead hd
        have hne : d ≠ '0' := fun h => hhead (by rw [h]; rfl)
        rw [List.cons_append, readDigits, ← List.cons_append, takeWhile_digits hd hr]
        exact fun x h => hne (List.cons.inj h).1

lemma readFraction_of_stops {r : List Char} (hr : Stops r) : readFraction r = [] := by
  cases r with
  | nil => rfl
  | cons c r =>
      rw [readFraction.eq_def]
      split
      · rename_i h
        exact absurd (List.cons.inj h).1 (hr c rfl).2.1
      · rfl

lemma readExponent_of_stops {r : List Char} (hr : Stops r) : readExponent r = [] := by
  cases r with
  | nil => rfl
  | cons c r =>
      have hc := hr c rfl
      rw [readExponent, if_neg (by simp [hc.2.2.1, hc.2.2.2])]

/-- The number in front of something else. -/
lemma readNumber_of_digits (negative : Bool) (n : ℕ) {r : List Char} (hr : Stops r) :
    readNumber ((if negative then ['-'] else []) ++ (Nat.toDigits 10 n ++ r))
      = some (.int (if negative then -n else n), r) := by
  have hne : Nat.toDigits 10 n ≠ [] := Nat.toDigits_ne_nil
  have hhead : (Nat.toDigits 10 n).head? ≠ some '-' := fun h =>
    absurd (Nat.isDigit_of_mem_toDigits (b := 10) (n := n) (by decide) (by decide)
      (List.mem_of_head? h)) (by decide)
  have hdrop : (Nat.toDigits 10 n ++ r).drop (Nat.toDigits 10 n).length = r := List.drop_left
  cases negative with
  | true =>
      simp [readNumber, readDigits_toDigits n hr, hne, hdrop, readFraction_of_stops hr,
        readExponent_of_stops hr, Nat.ofDigitChars_ten_toDigits]
  | false =>
      simp [readNumber, readDigits_toDigits n hr, hne, hdrop, readFraction_of_stops hr,
        readExponent_of_stops hr, Nat.ofDigitChars_ten_toDigits, hhead]

lemma readNumber_renderInt (n : ℤ) {r : List Char} (hr : Stops r) :
    readNumber (renderInt n ++ r) = some (.int n, r) := by
  rw [renderInt]
  split_ifs with h
  · have hn : -((n.natAbs : ℕ) : ℤ) = n := by omega
    have := readNumber_of_digits true n.natAbs hr
    rw [if_pos rfl, if_pos rfl, hn] at this
    exact this
  · have hn : ((n.natAbs : ℕ) : ℤ) = n := by omega
    have := readNumber_of_digits false n.natAbs hr
    rw [if_neg Bool.false_ne_true, if_neg Bool.false_ne_true, hn] at this
    exact this

/-! ### Reading what was written -/

mutual

/-- Without numbers that are no integers, and with no key twice in an object. -/
def Plain : Value → Prop
  | .real _ => False
  | .arr items => PlainItems items
  | .obj members => (members.map Prod.fst).Nodup ∧ PlainMembers members
  | _ => True

def PlainItems : List Value → Prop
  | [] => True
  | v :: items => Plain v ∧ PlainItems items

def PlainMembers : List (List Char × Value) → Prop
  | [] => True
  | (_, v) :: members => Plain v ∧ PlainMembers members

end

mutual

/-- The number of values and of places for them. -/
def size : Value → ℕ
  | .arr items => 1 + sizeItems items
  | .obj members => 1 + sizeMembers members
  | _ => 1

def sizeItems : List Value → ℕ
  | [] => 0
  | v :: items => 1 + size v + sizeItems items

def sizeMembers : List (List Char × Value) → ℕ
  | [] => 0
  | (_, v) :: members => 1 + size v + sizeMembers members

end

lemma length_newline (indent level : ℕ) : 1 ≤ (newline indent level).length := by
  simp [newline]

mutual

lemma size_le_length (indent level : ℕ) : ∀ v, Plain v →
    size v ≤ (render indent level v).length
  | .null, _ => by simp [size, render]
  | .bool true, _ => by simp [size, render]
  | .bool false, _ => by simp [size, render]
  | .int n, _ => by
      simp only [size, render, renderInt]
      split_ifs
      · simp
      · exact List.length_pos_of_ne_nil Nat.toDigits_ne_nil
  | .real _, h => absurd h (by rw [Plain]; exact id)
  | .str s, _ => by simp [size, render, renderString]
  | .arr [], _ => by simp [size, sizeItems, render]
  | .arr (v :: items), h => by
      rw [Plain, PlainItems] at h
      have h₁ := size_le_length indent (level + 1) v h.1
      have h₂ := sizeItems_le_length indent (level + 1) items h.2
      have h₃ := length_newline indent (level + 1)
      rw [size, sizeItems, render]
      simp only [List.length_cons, List.length_append]
      omega
  | .obj [], _ => by simp [size, sizeMembers, render]
  | .obj ((k, v) :: members), h => by
      rw [Plain, PlainMembers] at h
      have h₁ := size_le_length indent (level + 1) v h.2.1
      have h₂ := sizeMembers_le_length indent (level + 1) members h.2.2
      have h₃ := length_newline indent (level + 1)
      rw [size, sizeMembers, render]
      simp only [List.length_cons, List.length_append]
      omega

lemma sizeItems_le_length (indent level : ℕ) : ∀ items, PlainItems items →
    sizeItems items ≤ (renderItems indent level items).length
  | [], _ => by simp [sizeItems]
  | v :: items, h => by
      rw [PlainItems] at h
      have h₁ := size_le_length indent level v h.1
      have h₂ := sizeItems_le_length indent level items h.2
      rw [sizeItems, renderItems]
      simp only [List.length_cons, List.length_append]
      omega

lemma sizeMembers_le_length (indent level : ℕ) : ∀ members, PlainMembers members →
    sizeMembers members ≤ (renderMembers indent level members).length
  | [], _ => by simp [sizeMembers]
  | (k, v) :: members, h => by
      rw [PlainMembers] at h
      have h₁ := size_le_length indent level v h.1
      have h₂ := sizeMembers_le_length indent level members h.2
      rw [sizeMembers, renderMembers]
      simp only [List.length_cons, List.length_append]
      omega

end

lemma skipSpace_newline (indent level : ℕ) (cs : List Char) :
    skipSpace (newline indent level ++ cs) = skipSpace cs := by
  rw [skipSpace, List.dropWhile_append_of_pos fun c hc => ?_]
  · rfl
  · rcases List.mem_cons.mp hc with rfl | hc
    · rfl
    · rw [(List.mem_replicate.mp hc).2]
      rfl

lemma skipSpace_cons {c : Char} (h : isSpace c = false) (cs : List Char) :
    skipSpace (c :: cs) = c :: cs := by
  rw [skipSpace, List.dropWhile_cons_of_neg (by simp [h])]

lemma stops_newline (indent level : ℕ) (cs : List Char) : Stops (newline indent level ++ cs) := by
  intro c hc
  obtain rfl : '\n' = c := Option.some.inj hc
  decide

lemma stops_cons {c : Char} (h : c.isDigit = false ∧ c ≠ '.' ∧ c ≠ 'e' ∧ c ≠ 'E')
    (cs : List Char) : Stops (c :: cs) := by
  intro d hd
  obtain rfl : c = d := Option.some.inj hd
  exact h

/-- The first character of a value. -/
lemma render_head (indent level : ℕ) {v : Value} (hv : Plain v) :
    ∃ c cs, render indent level v = c :: cs ∧ isSpace c = false ∧ c ≠ ']' := by
  cases v with
  | null => exact ⟨_, _, rfl, rfl, by decide⟩
  | bool b => cases b <;> exact ⟨_, _, rfl, rfl, by decide⟩
  | int n =>
      rw [render, renderInt]
      split_ifs
      · exact ⟨_, _, rfl, rfl, by decide⟩
      · cases hds : Nat.toDigits 10 n.natAbs with
        | nil => exact absurd hds Nat.toDigits_ne_nil
        | cons d ds =>
            have hdigit := Nat.isDigit_of_mem_toDigits (b := 10) (n := n.natAbs) (c := d)
              (by decide) (by decide) (hds ▸ List.mem_cons_self)
            refine ⟨d, ds, rfl, Bool.eq_false_iff.mpr fun h => ?_, fun h => ?_⟩
            · simp only [isSpace, Bool.or_eq_true, decide_eq_true_eq] at h
              rcases h with ((rfl | rfl) | rfl) | rfl <;> exact absurd hdigit (by decide)
            · rw [h] at hdigit
              exact absurd hdigit (by decide)
  | real text =>
      rw [Plain] at hv
      exact hv.elim
  | str s => exact ⟨_, _, rfl, rfl, by decide⟩
  | arr items => cases items <;> exact ⟨_, _, rfl, rfl, by decide⟩
  | obj members =>
      cases members with
      | nil => exact ⟨_, _, rfl, rfl, by decide⟩
      | cons p members => exact ⟨_, _, rfl, rfl, by decide⟩

lemma skipSpace_render (indent level : ℕ) {v : Value} (hv : Plain v) (cs : List Char) :
    skipSpace (render indent level v ++ cs) = render indent level v ++ cs := by
  obtain ⟨c, r, hr, hc, -⟩ := render_head indent level hv
  rw [hr, List.cons_append, skipSpace_cons hc]

lemma members_of_nodup {pairs : List (List Char × Value)} (h : (pairs.map Prod.fst).Nodup) :
    members pairs = pairs := by
  suffices hfold : ∀ d : Dict (List Char) Value, (∀ p ∈ pairs, p.1 ∉ d.keys) →
      (pairs.foldl (fun d p => d.set p.1 p.2) d).entries = d.entries ++ pairs by
    rw [members, hfold _ fun p _ => by simp]
    rfl
  induction pairs with
  | nil => exact fun d _ => (List.append_nil _).symm
  | cons p pairs ih =>
      intro d hd
      rw [List.map_cons, List.nodup_cons] at h
      have hnew := hd p List.mem_cons_self
      rw [List.foldl_cons, ih h.2, Dict.entries_set_new hnew, List.append_assoc]
      · rfl
      · intro q hq hmem
        rw [Dict.mem_keys_set] at hmem
        rcases hmem with hmem | hmem
        · exact h.1 (hmem ▸ List.mem_map_of_mem hq)
        · exact hd q (List.mem_cons_of_mem _ hq) hmem

lemma readValue_digit (fuel : ℕ) {c : Char} (hc : c.isDigit = true) (cs : List Char) :
    readValue (fuel + 1) (c :: cs) = readNumber (c :: cs) := by
  rw [readValue]
  all_goals
    intro r h
    obtain ⟨rfl, -⟩ := List.cons.inj h
    exact absurd hc (by decide)

lemma readValue_minus (fuel : ℕ) {c : Char} (hc : c.isDigit = true) (cs : List Char) :
    readValue (fuel + 1) ('-' :: c :: cs) = readNumber ('-' :: c :: cs) := by
  rw [readValue]
  all_goals
    intro r h
    obtain ⟨hd, ht⟩ := List.cons.inj h
    first
      | exact absurd hd (by decide)
      | (obtain ⟨rfl, -⟩ := List.cons.inj ht
         exact absurd hc (by decide))

lemma readValue_arr (fuel : ℕ) {c : Char} {cs r : List Char} (hr : skipSpace r = c :: cs)
    (hc : c ≠ ']') : readValue (fuel + 1) ('[' :: r)
      = (readItems fuel (c :: cs)).map fun p => (.arr p.1, p.2) := by
  rw [readValue, hr]
  split
  · rename_i h
    exact absurd (List.cons.inj h).1 hc
  · rfl

lemma readValue_obj (fuel : ℕ) {c : Char} {cs r : List Char} (hr : skipSpace r = c :: cs)
    (hc : c ≠ '\x7d') : readValue (fuel + 1) ('\x7b' :: r)
      = (readMembers fuel (c :: cs)).map fun p => (.obj (members p.1), p.2) := by
  rw [readValue, hr]
  split
  · rename_i h
    exact absurd (List.cons.inj h).1 hc
  · rfl

lemma readKey_renderString (k r : List Char) :
    readKey (renderString k ++ (':' :: r)) = some (k, skipSpace r) := by
  rw [renderString, List.cons_append, List.append_assoc, List.singleton_append, readKey,
    readString_flatMap]
  rfl

/-- A number is what is left when it is none of the others. -/
lemma readValue_number (fuel : ℕ) (n : ℤ) {r : List Char} (hr : Stops r) :
    readValue (fuel + 1) (renderInt n ++ r) = some (.int n, r) := by
  rw [← readNumber_renderInt n hr]
  have hdigit : ∀ m c ds, Nat.toDigits 10 m = c :: ds → c.isDigit = true := fun m c ds h =>
    Nat.isDigit_of_mem_toDigits (b := 10) (n := m) (by decide) (by decide)
      (h ▸ List.mem_cons_self)
  cases hds : Nat.toDigits 10 n.natAbs with
  | nil => exact absurd hds Nat.toDigits_ne_nil
  | cons c ds =>
      rw [renderInt, hds]
      split_ifs
      · exact readValue_minus fuel (hdigit _ _ _ hds) _
      · exact readValue_digit fuel (hdigit _ _ _ hds) _

lemma size_pos (v : Value) : 0 < size v := by
  cases v <;> simp [size]

/-- With this fuel a value is read back from its text. -/
def ReadsValue (indent fuel : ℕ) : Prop :=
  ∀ level v r, Plain v → size v ≤ fuel → Stops r →
    readValue fuel (render indent level v ++ r) = some (v, r)

/-- With this fuel the items of a list are read back. -/
def ReadsItems (indent fuel : ℕ) : Prop :=
  ∀ level v items r, Plain v → PlainItems items → sizeItems (v :: items) ≤ fuel →
    readItems fuel (render indent (level + 1) v ++ (renderItems indent (level + 1) items
      ++ (newline indent level ++ (']' :: r)))) = some (v :: items, r)

/-- With this fuel the members of an object are read back. -/
def ReadsMembers (indent fuel : ℕ) : Prop :=
  ∀ level k v members r, Plain v → PlainMembers members →
    sizeMembers ((k, v) :: members) ≤ fuel →
    readMembers fuel (renderString k ++ (':' :: ' ' :: (render indent (level + 1) v
      ++ (renderMembers indent (level + 1) members ++ (newline indent level ++ ('\x7d' :: r))))))
      = some ((k, v) :: members, r)

variable {indent fuel : ℕ}

lemma readsValue_succ (ihi : ReadsItems indent fuel) (ihm : ReadsMembers indent fuel) :
    ReadsValue indent (fuel + 1) := by
  intro level v r hv hs hr
  cases v with
  | null => rfl
  | bool b => cases b <;> rfl
  | int n => exact readValue_number fuel n hr
  | real text =>
      rw [Plain] at hv
      exact hv.elim
  | str s =>
      rw [render, renderString, List.cons_append, List.append_assoc, List.singleton_append,
        readValue, readString_flatMap]
      rfl
  | arr items =>
      cases items with
      | nil => rfl
      | cons v items =>
          rw [Plain, PlainItems] at hv
          rw [size] at hs
          -- the first item starts with a character that does not close the list
          obtain ⟨c, cs, hc, hspace, hne⟩ := render_head indent (level + 1) hv.1
          have hread := ihi level v items r hv.1 hv.2 (by omega)
          rw [render]
          simp only [List.cons_append, List.append_assoc, List.nil_append]
          rw [hc, List.cons_append] at hread ⊢
          rw [readValue_arr fuel (by rw [skipSpace_newline, skipSpace_cons hspace]) hne, hread]
          rfl
  | obj members =>
      cases members with
      | nil => rfl
      | cons p members =>
          obtain ⟨k, v⟩ := p
          rw [Plain, PlainMembers] at hv
          rw [size] at hs
          have hread := ihm level k v members r hv.2.1 hv.2.2 (by omega)
          rw [render]
          simp only [List.cons_append, List.append_assoc, List.nil_append]
          rw [renderString, List.cons_append] at hread ⊢
          rw [readValue_obj fuel (by rw [skipSpace_newline]; exact skipSpace_cons rfl _)
            (by decide), hread, Option.map_some, members_of_nodup hv.1]

lemma readsItems_succ (ihv : ReadsValue indent fuel) (ihi : ReadsItems indent fuel) :
    ReadsItems indent (fuel + 1) := by
  intro level v items r hv hi hs
  rw [sizeItems] at hs
  cases items with
  | nil =>
      rw [readItems, renderItems, List.nil_append,
        ihv (level + 1) v _ hv (by omega) (stops_newline _ _ _)]
      simp only [skipSpace_newline]
      rw [skipSpace_cons (by decide)]
      rfl
  | cons w items =>
      rw [PlainItems] at hi
      rw [readItems, renderItems, List.cons_append,
        ihv (level + 1) v _ hv (by omega) (stops_cons (by decide) _)]
      have hread := ihi level w items r hi.1 hi.2 (by omega)
      simp only [List.append_assoc]
      rw [skipSpace_cons (by decide)]
      simp only [skipSpace_newline]
      rw [skipSpace_render _ _ hi.1, hread]
      rfl

lemma readsMembers_succ (ihv : ReadsValue indent fuel) (ihm : ReadsMembers indent fuel) :
    ReadsMembers indent (fuel + 1) := by
  intro level k v members r hv hm hs
  rw [sizeMembers] at hs
  have hkey : ∀ cs, skipSpace (' ' :: (render indent (level + 1) v ++ cs))
      = render indent (level + 1) v ++ cs :=
    fun cs => skipSpace_render indent (level + 1) hv cs
  rw [readMembers, readKey_renderString]
  dsimp only
  rw [hkey]
  cases members with
  | nil =>
      rw [renderMembers, List.nil_append,
        ihv (level + 1) v _ hv (by omega) (stops_newline _ _ _)]
      simp only [skipSpace_newline]
      rw [skipSpace_cons (by decide)]
      rfl
  | cons p members =>
      obtain ⟨k', w⟩ := p
      rw [PlainMembers] at hm
      rw [renderMembers, List.cons_append,
        ihv (level + 1) v _ hv (by omega) (stops_cons (by decide) _)]
      have hread := ihm level k' w members r hm.1 hm.2 (by omega)
      simp only [List.append_assoc, List.cons_append]
      rw [skipSpace_cons (by decide)]
      simp only [skipSpace_newline]
      rw [renderString, List.cons_append, skipSpace_cons (by decide)]
      rw [renderString, List.cons_append] at hread
      rw [hread]
      rfl

/-- **What was written is read back**, in front of anything that ends it. -/
lemma read_render (indent fuel : ℕ) :
    ReadsValue indent fuel ∧ ReadsItems indent fuel ∧ ReadsMembers indent fuel := by
  induction fuel with
  | zero =>
      refine ⟨fun level v r _ hs => ?_, fun level v items r _ _ hs => ?_,
        fun level k v members r _ _ hs => ?_⟩
      · have := size_pos v
        omega
      · rw [sizeItems] at hs
        omega
      · rw [sizeMembers] at hs
        omega
  | succ fuel ih =>
      obtain ⟨ihv, ihi, ihm⟩ := ih
      exact ⟨readsValue_succ ihi ihm, readsItems_succ ihv ihi, readsMembers_succ ihv ihm⟩

/-- **The text of a value is read back as the value.** -/
theorem loads_dumps (indent : ℕ) {v : Value} (hv : Plain v) :
    loads (dumps indent v) = some v := by
  have hsize := size_le_length indent 0 v hv
  have hread := (read_render indent (2 * (dumps indent v).length + 2)).1 0 v [] hv
    (by rw [dumps]; omega) fun c hc => absurd hc (by simp)
  have hskip := skipSpace_render indent 0 hv []
  rw [List.append_nil] at hread hskip
  rw [loads]
  rw [dumps] at hread ⊢
  rw [hskip, hread]
  rfl

/-! ### Keys in order -/

mutual

/-- The value with the members of its objects in the order of their keys. -/
def sortKeys : Value → Value
  | .arr items => .arr (sortItems items)
  | .obj members => .obj ((sortMembers members).insertionSort fun p q => p.1 ≤ q.1)
  | v => v

def sortItems : List Value → List Value
  | [] => []
  | v :: items => sortKeys v :: sortItems items

def sortMembers : List (List Char × Value) → List (List Char × Value)
  | [] => []
  | (k, v) :: members => (k, sortKeys v) :: sortMembers members

end

lemma sortMembers_eq (members : List (List Char × Value)) :
    sortMembers members = members.map fun p => (p.1, sortKeys p.2) := by
  induction members with
  | nil => rfl
  | cons p members ih =>
      obtain ⟨k, v⟩ := p
      rw [sortMembers, ih]
      rfl

lemma plainMembers_iff {members : List (List Char × Value)} :
    PlainMembers members ↔ ∀ p ∈ members, Plain p.2 := by
  induction members with
  | nil => simp [PlainMembers]
  | cons p members ih =>
      obtain ⟨k, v⟩ := p
      rw [PlainMembers, ih, List.forall_mem_cons]

lemma keys_insertionSort (members : List (List Char × Value)) :
    ((members.insertionSort fun p q => p.1 ≤ q.1).map Prod.fst).Perm (members.map Prod.fst) :=
  (List.perm_insertionSort _ _).map _

lemma keys_sortMembers (members : List (List Char × Value)) :
    (sortMembers members).map Prod.fst = members.map Prod.fst := by
  rw [sortMembers_eq, List.map_map]
  rfl

mutual

lemma plain_sortKeys : ∀ v, Plain v → Plain (sortKeys v)
  | .null, h | .bool _, h | .int _, h | .str _, h | .real _, h => h
  | .arr items, h => by
      rw [Plain] at h
      rw [sortKeys, Plain]
      exact plainItems_sortItems items h
  | .obj members, h => by
      rw [Plain] at h
      rw [sortKeys, Plain, (keys_insertionSort _).nodup_iff, keys_sortMembers, plainMembers_iff]
      refine ⟨h.1, fun p hp => ?_⟩
      exact plainMembers_iff.mp (plainMembers_sortMembers members h.2) p
        ((List.perm_insertionSort _ _).mem_iff.mp hp)

lemma plainItems_sortItems : ∀ items, PlainItems items → PlainItems (sortItems items)
  | [], _ => trivial
  | v :: items, h => by
      rw [PlainItems] at h
      rw [sortItems, PlainItems]
      exact ⟨plain_sortKeys v h.1, plainItems_sortItems items h.2⟩

lemma plainMembers_sortMembers : ∀ members, PlainMembers members →
    PlainMembers (sortMembers members)
  | [], _ => trivial
  | (k, v) :: members, h => by
      rw [PlainMembers] at h
      rw [sortMembers, PlainMembers]
      exact ⟨plain_sortKeys v h.1, plainMembers_sortMembers members h.2⟩

end

lemma insertionSort_idem (members : List (List Char × Value)) :
    ((members.insertionSort fun p q => p.1 ≤ q.1).insertionSort fun p q => p.1 ≤ q.1)
      = members.insertionSort fun p q => p.1 ≤ q.1 := by
  have : IsTrans (List Char × Value) fun p q => p.1 ≤ q.1 := ⟨fun _ _ _ => le_trans⟩
  have : Std.Total (α := List Char × Value) fun p q => p.1 ≤ q.1 := ⟨fun _ _ => le_total _ _⟩
  exact List.Pairwise.insertionSort_eq (List.pairwise_insertionSort _ _)

lemma sortMembers_insertionSort (members : List (List Char × Value)) :
    sortMembers (members.insertionSort fun p q => p.1 ≤ q.1)
      = (sortMembers members).insertionSort fun p q => p.1 ≤ q.1 := by
  rw [sortMembers_eq, sortMembers_eq]
  exact List.map_insertionSort _ _ _ _ fun p _ q _ => Iff.rfl

mutual

@[simp] lemma sortKeys_sortKeys : ∀ v, sortKeys (sortKeys v) = sortKeys v
  | .null | .bool _ | .int _ | .str _ | .real _ => rfl
  | .arr items => by
      rw [sortKeys, sortKeys, sortItems_sortItems items]
  | .obj members => by
      rw [sortKeys, sortKeys, sortMembers_insertionSort, sortMembers_sortMembers members,
        insertionSort_idem]

lemma sortItems_sortItems : ∀ items, sortItems (sortItems items) = sortItems items
  | [] => rfl
  | v :: items => by
      rw [sortItems, sortItems, sortKeys_sortKeys v, sortItems_sortItems items]

lemma sortMembers_sortMembers : ∀ members, sortMembers (sortMembers members) = sortMembers members
  | [] => rfl
  | (k, v) :: members => by
      rw [sortMembers, sortMembers, sortKeys_sortKeys v, sortMembers_sortMembers members]

end

/-! ### The characters of a text -/

/-- A character that can be printed, or a line break. -/
def Printed (c : Char) : Prop := c = '\n' ∨ 32 ≤ c.toNat ∧ c.toNat < 127

lemma printed_hexDigit {n : ℕ} (hn : n < 16) : Printed (hexDigit n) := by
  right
  interval_cases n <;> decide

lemma printed_unicodeEscape {n : ℕ} (hn : n < 0x10000) : ∀ c ∈ unicodeEscape n, Printed c := by
  have htext : hexText 4 n = [hexDigit (n / 16 / 16 / 16), hexDigit (n / 16 / 16 % 16),
      hexDigit (n / 16 % 16), hexDigit (n % 16)] := by
    have h : n / 16 / 16 / 16 < 16 := by omega
    rw [hexText_succ 2, hexText_succ 1, hexText_succ 0, hexText, Nat.toDigits_of_lt_base h,
      hexDigit_eq_digitChar h]
    rfl
  rw [unicodeEscape, htext]
  simp only [List.forall_mem_cons, List.not_mem_nil, false_imp_iff, implies_true, and_true]
  refine ⟨.inr (by decide), .inr (by decide), printed_hexDigit (by omega),
    printed_hexDigit (by omega), printed_hexDigit (by omega), printed_hexDigit (by omega)⟩

lemma printed_escape (c : Char) : ∀ d ∈ escape c, Printed d := by
  have hpair : ∀ d : Char, 32 ≤ d.toNat ∧ d.toNat < 127 → ∀ e ∈ ['\\', d], Printed e := by
    intro d hd e he
    rcases List.mem_pair.mp he with rfl | rfl
    · exact .inr (by decide)
    · exact .inr hd
  rw [escape]
  split_ifs with h1 h2 h3 h4 h5 h6 h7 h8 h9
  · exact hpair _ (by decide)
  · exact hpair _ (by decide)
  · exact hpair _ (by decide)
  · exact hpair _ (by decide)
  · exact hpair _ (by decide)
  · exact hpair _ (by decide)
  · exact hpair _ (by decide)
  · intro d hd
    rw [List.mem_singleton.mp hd]
    exact .inr h8
  · exact printed_unicodeEscape h9
  · have hvalid : c.toNat < 0xD800 ∨ 0xDFFF < c.toNat ∧ c.toNat < 0x110000 := c.valid
    rw [List.forall_mem_append]
    exact ⟨printed_unicodeEscape (by omega), printed_unicodeEscape (by omega)⟩

lemma printed_renderString (s : List Char) : ∀ c ∈ renderString s, Printed c := by
  rw [renderString, List.forall_mem_cons, List.forall_mem_append]
  refine ⟨.inr (by decide), fun c hc => ?_, fun c hc => ?_⟩
  · obtain ⟨d, -, hd⟩ := List.mem_flatMap.mp hc
    exact printed_escape d c hd
  · rw [List.mem_singleton.mp hc]
    exact .inr (by decide)

lemma printed_toDigits (n : ℕ) : ∀ c ∈ Nat.toDigits 10 n, Printed c := by
  intro c hc
  have hdigit := Nat.isDigit_of_mem_toDigits (by decide) (by decide) hc
  right
  simp only [Char.isDigit, Bool.and_eq_true, decide_eq_true_eq] at hdigit
  exact ⟨le_trans (by decide) (UInt32.le_iff_toNat_le.mp hdigit.1),
    lt_of_le_of_lt (UInt32.le_iff_toNat_le.mp hdigit.2) (by decide)⟩

lemma printed_renderInt (n : ℤ) : ∀ c ∈ renderInt n, Printed c := by
  rw [renderInt]
  split_ifs
  · rw [List.forall_mem_cons]
    exact ⟨.inr (by decide), printed_toDigits _⟩
  · exact printed_toDigits _

lemma printed_newline (indent level : ℕ) : ∀ c ∈ newline indent level, Printed c := by
  rw [newline, List.forall_mem_cons]
  refine ⟨.inl rfl, fun c hc => ?_⟩
  rw [List.eq_of_mem_replicate hc]
  exact .inr (by decide)

mutual

lemma printed_render (indent level : ℕ) : ∀ v, Plain v → ∀ c ∈ render indent level v, Printed c
  | .null, _ | .bool true, _ | .bool false, _ | .arr [], _ | .obj [], _ => by
      simp only [render, List.forall_mem_cons, List.not_mem_nil, false_imp_iff, implies_true,
        and_true]
      simp [Printed]
  | .int n, _ => by
      rw [render]
      exact printed_renderInt n
  | .real _, h => absurd h (by rw [Plain]; exact id)
  | .str s, _ => by
      rw [render]
      exact printed_renderString s
  | .arr (v :: items), h => by
      rw [Plain, PlainItems] at h
      simp only [render, List.forall_mem_cons, List.forall_mem_append]
      exact ⟨.inr (by decide), printed_newline _ _, printed_render _ _ v h.1,
        printed_renderItems _ _ items h.2, printed_newline _ _, .inr (by decide), by simp⟩
  | .obj ((k, v) :: members), h => by
      rw [Plain, PlainMembers] at h
      simp only [render, List.forall_mem_cons, List.forall_mem_append]
      exact ⟨.inr (by decide), printed_newline _ _, printed_renderString k, .inr (by decide),
        .inr (by decide), printed_render _ _ v h.2.1, printed_renderMembers _ _ members h.2.2,
        printed_newline _ _, .inr (by decide), by simp⟩

lemma printed_renderItems (indent level : ℕ) : ∀ items, PlainItems items →
    ∀ c ∈ renderItems indent level items, Printed c
  | [], _ => by simp [renderItems]
  | v :: items, h => by
      rw [PlainItems] at h
      simp only [renderItems, List.forall_mem_cons, List.forall_mem_append]
      exact ⟨.inr (by decide), printed_newline _ _, printed_render _ _ v h.1,
        printed_renderItems _ _ items h.2⟩

lemma printed_renderMembers (indent level : ℕ) : ∀ members, PlainMembers members →
    ∀ c ∈ renderMembers indent level members, Printed c
  | [], _ => by simp [renderMembers]
  | (k, v) :: members, h => by
      rw [PlainMembers] at h
      simp only [renderMembers, List.forall_mem_cons, List.forall_mem_append]
      exact ⟨.inr (by decide), printed_newline _ _, printed_renderString k, .inr (by decide),
        .inr (by decide), printed_render _ _ v h.1, printed_renderMembers _ _ members h.2⟩

end

/-- A text is ASCII, and has no control characters but line breaks. -/
lemma mem_dumps (indent : ℕ) {v : Value} (hv : Plain v) : ∀ c ∈ dumps indent v, Printed c :=
  printed_render indent 0 v hv

end BtcParser.Json
