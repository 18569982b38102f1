import Mathlib.Tactic

/-!
Regular expressions without alternatives, and the matches a backtracking search finds.

The matches at a position are listed in the order in which the search tries them, the longest run of
a class first, so that the match it reports is the first one.

* `runsOf_eq_cons`: in front of a character outside the class, or at the end, the first run is all
  of it, and the others end in front of a character of the class.
* `andThen_of_cons`: if what follows fails behind all matches but the first one, that one stands.
* `runTimes_append`: a piece that has one match each time has one match for all of them.
* `Regex.Anchored.search`: an expression with `^` matches at the beginning or not at all.
-/

namespace BtcParser

/-- One character, or all but one. -/
inductive CharClass where
  | only (c : Char)
  | allBut (c : Char)

/-- The characters of a class. -/
def CharClass.matches : CharClass → Char → Bool
  | .only c, d => d == c
  | .allBut c, d => d != c

/-- The key of a group: its number, or its name. -/
inductive Group where
  | numbered (n : ℕ)
  | named (name : String)
  deriving DecidableEq

/-- The expressions: the empty one, `^`, a character, a run `k*` or `k+`, `(?:r){n}`, a group, and
one expression behind the other. -/
inductive Regex where
  | empty
  | start
  | one (k : CharClass)
  | many (k : CharClass)
  | many1 (k : CharClass)
  | times (r : Regex) (n : ℕ)
  | capture (g : Group) (r : Regex)
  | seq (r s : Regex)

/-- A match: its text, what is behind it, and the groups. -/
structure Match where
  text : List Char
  rest : List Char
  captures : List (Group × List Char)
  deriving DecidableEq

/-- A match with another one behind it. -/
def Match.append (m m' : Match) : Match :=
  ⟨m.text ++ m'.text, m'.rest, m.captures ++ m'.captures⟩

/-- What a group has captured last. -/
def Match.group (m : Match) (g : Group) : Option (List Char) :=
  ((m.captures.filter (·.1 = g)).getLast?).map Prod.snd

/-- The runs of a class at the beginning of a text, the longest first. -/
def runsOf (k : CharClass) : List Char → List Match
  | [] => [⟨[], [], []⟩]
  | c :: s =>
      if k.matches c then (runsOf k s).map (Match.append ⟨[c], [], []⟩) ++ [⟨[], c :: s, []⟩]
      else [⟨[], c :: s, []⟩]

/-- The matches of one expression behind those of another one. -/
def andThen (f g : Bool → List Char → List Match) (atStart : Bool) (s : List Char) : List Match :=
  (f atStart s).flatMap fun m => (g (atStart && m.text.isEmpty) m.rest).map m.append

/-- The matches of an expression so many times. -/
def runTimes (f : Bool → List Char → List Match) : ℕ → Bool → List Char → List Match
  | 0 => fun _ s => [⟨[], s, []⟩]
  | n + 1 => andThen f (runTimes f n)

/-- The matches at the beginning of a text, which is the start of the subject or not. -/
def Regex.run : Regex → Bool → List Char → List Match
  | .empty, _, s => [⟨[], s, []⟩]
  | .start, atStart, s => if atStart then [⟨[], s, []⟩] else []
  | .one _, _, [] => []
  | .one k, _, c :: s => if k.matches c then [⟨[c], s, []⟩] else []
  | .many k, _, s => runsOf k s
  | .many1 k, _, s => (runsOf k s).filter fun m => m.text ≠ []
  | .times r n, atStart, s => runTimes r.run n atStart s
  | .capture g r, atStart, s =>
      (r.run atStart s).map fun m => { m with captures := (g, m.text) :: m.captures }
  | .seq r t, atStart, s => andThen r.run t.run atStart s

/-- The first match in a text, with the number of characters in front of it. -/
def Regex.searchFrom (r : Regex) : Bool → List Char → Option (ℕ × Match)
  | atStart, [] => (r.run atStart []).head?.map (0, ·)
  | atStart, c :: s =>
      match (r.run atStart (c :: s)).head? with
      | some m => some (0, m)
      | none => (r.searchFrom false s).map fun p => (p.1 + 1, p.2)

/-- A search. -/
def Regex.search (r : Regex) (s : List Char) : Option (ℕ × Match) := r.searchFrom true s

/-! ### Texts -/

/-- The text of a class. -/
def CharClass.text : CharClass → List Char
  | .only c => [c]
  | .allBut c => ['[', '^', c, ']']

/-- The text of an expression. -/
def Regex.text : Regex → List Char
  | .empty => []
  | .start => ['^']
  | .one k => k.text
  | .many k => k.text ++ ['*']
  | .many1 k => k.text ++ ['+']
  | .times r n => ['(', '?', ':'] ++ r.text ++ [')', '\x7b'] ++ Nat.toDigits 10 n ++ ['\x7d']
  | .capture (.numbered _) r => '(' :: r.text ++ [')']
  | .capture (.named name) r => ['(', '?', '<'] ++ name.toList ++ '>' :: r.text ++ [')']
  | .seq r s => r.text ++ s.text

/-! ### Runs of a class -/

variable {k : CharClass}

/-- A text does not go on with a character of the class. -/
def Stops (k : CharClass) (rest : List Char) : Prop := ∀ c ∈ rest.head?, k.matches c = false

lemma runsOf_stop {rest : List Char} (h : Stops k rest) : runsOf k rest = [⟨[], rest, []⟩] := by
  cases rest with
  | nil => rfl
  | cons c rest =>
      have hc : k.matches c = false := h c rfl
      rw [runsOf, hc, if_neg Bool.false_ne_true]

/-- The first run is all there is of the class, and the shorter ones end in front of a character of
it. -/
lemma runsOf_eq_cons {v rest : List Char} (hv : ∀ c ∈ v, k.matches c = true) (h : Stops k rest) :
    ∃ ms, runsOf k (v ++ rest) = ⟨v, rest, []⟩ :: ms
      ∧ ∀ m ∈ ms, ∃ c ∈ m.rest.head?, k.matches c = true := by
  induction v with
  | nil => exact ⟨[], runsOf_stop h, fun m hm => by cases hm⟩
  | cons c v ih =>
      have hc := hv c List.mem_cons_self
      obtain ⟨ms, hms, htail⟩ := ih fun d hd => hv d (List.mem_cons_of_mem c hd)
      refine ⟨ms.map (Match.append ⟨[c], [], []⟩) ++ [⟨[], c :: (v ++ rest), []⟩], ?_, ?_⟩
      · rw [List.cons_append, runsOf, if_pos hc, hms]
        rfl
      · intro m hm
        rcases List.mem_append.mp hm with hm | hm
        · obtain ⟨m', hm', rfl⟩ := List.mem_map.mp hm
          exact htail m' hm'
        · obtain rfl := List.mem_singleton.mp hm
          exact ⟨c, rfl, hc⟩

/-- The first match of `k+` is the run, if there is one. -/
lemma head?_run_many1 {v rest : List Char} (hv : ∀ c ∈ v, k.matches c = true) (h : Stops k rest)
    (atStart : Bool) : ((Regex.many1 k).run atStart (v ++ rest)).head?
      = if v = [] then none else some ⟨v, rest, []⟩ := by
  rw [Regex.run]
  split_ifs with hnil
  · subst hnil
    rw [List.nil_append, runsOf_stop h]
    rfl
  · obtain ⟨ms, hms, -⟩ := runsOf_eq_cons hv h
    rw [hms, List.filter_cons_of_pos (by simpa using hnil), List.head?_cons]

/-! ### One expression behind the other -/

@[simp] lemma Match.append_start (s : List Char) (m : Match) : Match.append ⟨[], s, []⟩ m = m := rfl

/-- If what follows fails behind all matches but the first one, that one stands. -/
lemma andThen_of_cons {f g : Bool → List Char → List Match} {atStart : Bool} {s : List Char}
    {m : Match} {ms : List Match} (hf : f atStart s = m :: ms)
    (hfail : ∀ m' ∈ ms, ∀ b, g b m'.rest = []) :
    andThen f g atStart s = (g (atStart && m.text.isEmpty) m.rest).map m.append := by
  have hnone :
      (ms.flatMap fun m' => (g (atStart && m'.text.isEmpty) m'.rest).map m'.append) = [] := by
    rw [List.flatMap_eq_nil_iff]
    intro m' hm'
    rw [hfail m' hm', List.map_nil]
  rw [andThen, hf, List.flatMap_cons, hnone, List.append_nil]

/-- A piece with one match each time. -/
lemma runTimes_append {α : Type*} {f : Bool → List Char → List Match} {piece : α → List Char}
    (l : List α) (hf : ∀ a ∈ l, ∀ b rest, f b (piece a ++ rest) = [⟨piece a, rest, []⟩])
    (atStart : Bool) (rest : List Char) :
    runTimes f l.length atStart (l.flatMap piece ++ rest) = [⟨l.flatMap piece, rest, []⟩] := by
  induction l generalizing atStart with
  | nil => rfl
  | cons a l ih =>
      rw [List.flatMap_cons, List.append_assoc, List.length_cons, runTimes,
        andThen_of_cons (hf a List.mem_cons_self atStart _) (fun m' hm' => by cases hm'),
        ih fun a' ha' => hf a' (List.mem_cons_of_mem a ha')]
      rfl

/-! ### Anchors -/

/-- The expression matches only at the start of the subject. -/
def Regex.Anchored (r : Regex) : Prop := ∀ s, r.run false s = []

lemma anchored_start : Regex.start.Anchored := fun _ => rfl

lemma Regex.Anchored.seq {r : Regex} (h : r.Anchored) (t : Regex) : (Regex.seq r t).Anchored := by
  intro s
  rw [Regex.run, andThen, h s, List.flatMap_nil]

lemma Regex.Anchored.searchFrom_false {r : Regex} (h : r.Anchored) (s : List Char) :
    r.searchFrom false s = none := by
  induction s with
  | nil => rw [Regex.searchFrom, h, List.head?_nil, Option.map_none]
  | cons c s ih =>
      rw [Regex.searchFrom, h, ih]
      rfl

/-- An anchored expression matches at the beginning or not at all. -/
lemma Regex.Anchored.search {r : Regex} (h : r.Anchored) (s : List Char) :
    r.search s = (r.run true s).head?.map (0, ·) := by
  cases s with
  | nil => rw [Regex.search, Regex.searchFrom]
  | cons c s =>
      rw [Regex.search, Regex.searchFrom]
      cases (r.run true (c :: s)).head? with
      | none => rw [h.searchFrom_false s, Option.map_none, Option.map_none]
      | some m => rfl

end BtcParser
