import BtcParser.Rpc.SanctionsList
import BtcParser.Library.Lists
import BtcParser.Library.Transition

/-!
The list in use is the last good one.

* `specLookup` says what an address is looked up to: the first row, in the order of the files and of
  their rows, whose normalized address is the one asked for.
* `get?_loadFile` and `get?_loadAll` are the two levels of merging, `reloadIfChanged_false` all that
  a reload does.
* `History` remembers the contents of the last load and the modification times met last. `Inv.next`
  is the step lemma, and `lookup_last_good` the result.
-/

namespace BtcParser

namespace Sanctions

variable (u : Casing)

/-! ### The specification -/

/-- The rows of a file, each with the address as it is written there. -/
def rowsOf (listFile : String) : FileRead → List (List Char × ListedAddress)
  | .ok (header :: records) =>
      let fieldnames := fieldnamesOf u header
      (records.filter (· ≠ [])).map fun row =>
        (rawAddress fieldnames row, entryOf u listFile fieldnames row)
  | _ => []

variable {P M : Type} [DecidableEq M]
variable (fileName : P → String) (paths : List P)

/-- The rows of all files. -/
def allRows (read : P → FileRead) : List (List Char × ListedAddress) :=
  paths.flatMap fun p => rowsOf u (fileName p) (read p)

/-- The first of some rows whose normalized address is `key`, none having an empty one. -/
def firstRow (rows : List (List Char × ListedAddress)) (key : List Char) : Option ListedAddress :=
  if key = [] then none
  else (rows.find? fun r => normalizeAddress u r.1 = key).map Prod.snd

/-- What looking an address up should give, from the contents of the files. -/
def specLookup (read : P → FileRead) : Option (List Char) → Option ListedAddress
  | none => none
  | some a => firstRow u (allRows u fileName paths read) (normalizeAddress u a)

/-! ### Texts -/

lemma isAlphanum_iff {c : Char} : c.isAlphanum = true ↔
    (48 ≤ c.toNat ∧ c.toNat ≤ 57) ∨ (65 ≤ c.toNat ∧ c.toNat ≤ 90)
      ∨ (97 ≤ c.toNat ∧ c.toNat ≤ 122) := by
  have hdef : c.isAlphanum = ((decide (65 ≤ c.val ∧ c.val ≤ 90)
      || (decide (97 ≤ c.val) && decide (c.val ≤ 122)))
        || (decide (48 ≤ c.val) && decide (c.val ≤ 57))) := rfl
  rw [hdef]
  simp only [Bool.or_eq_true, Bool.and_eq_true, decide_eq_true_eq, UInt32.le_iff_toNat_le]
  change ((65 ≤ c.toNat ∧ c.toNat ≤ 90) ∨ (97 ≤ c.toNat ∧ c.toNat ≤ 122))
    ∨ (48 ≤ c.toNat ∧ c.toNat ≤ 57) ↔ _
  tauto

lemma toNat_toLower (c : Char) :
    c.toLower.toNat = if 65 ≤ c.toNat ∧ c.toNat ≤ 90 then c.toNat + 32 else c.toNat := by
  have hiff : c.val ≥ 'A'.val ∧ c.val ≤ 'Z'.val ↔ 65 ≤ c.toNat ∧ c.toNat ≤ 90 := by
    simp only [ge_iff_le, UInt32.le_iff_toNat_le]
    rfl
  by_cases h : c.val ≥ 'A'.val ∧ c.val ≤ 'Z'.val
  · have hadd : c.toNat + 32 < 2 ^ 32 := by
      have := hiff.mp h
      omega
    have hval : c.toLower.val = c.val + ('a'.val - 'A'.val) := congrArg Char.val (dif_pos h)
    rw [if_pos (hiff.mp h)]
    exact (congrArg UInt32.toNat hval).trans
      ((UInt32.toNat_add _ _).trans (Nat.mod_eq_of_lt hadd))
  · have hself : c.toLower = c := dif_neg h
    rw [hself, if_neg (mt hiff.mpr h)]

lemma isSpace_of_isAlphanum {c : Char} (h : c.isAlphanum = true) : isSpace c = false := by
  have hc := isAlphanum_iff.mp h
  simp only [isSpace, List.contains_cons, List.contains_nil, Bool.or_eq_false_iff,
    Bool.and_eq_false_iff, decide_eq_false_iff_not, beq_eq_false_iff_ne, and_true]
  omega

/-- An address is written with letters and digits. -/
def IsWord (a : List Char) : Prop := ∀ c ∈ a, c.isAlphanum = true

lemma strip_word {a : List Char} (h : IsWord a) : strip a = a := by
  have hdrop : a.dropWhile isSpace = a := by
    cases a with
    | nil => rfl
    | cons c a => rw [List.dropWhile_cons, isSpace_of_isAlphanum (h c (by simp))]; rfl
  rw [strip, hdrop, List.rdropWhile_eq_self_iff]
  intro hne
  simp [isSpace_of_isAlphanum (h _ (List.getLast_mem hne))]

lemma lower_word {a : List Char} (h : IsWord a) : u.lower a = a.map Char.toLower :=
  u.lower_ascii a fun c hc => by
    have := isAlphanum_iff.mp (h c hc)
    omega

lemma isAlphanum_toLower (c : Char) : c.toLower.isAlphanum = c.isAlphanum := by
  rw [Bool.eq_iff_iff, isAlphanum_iff, isAlphanum_iff, toNat_toLower]
  split_ifs <;> omega

/-- Two spellings are spellings of words together. -/
lemma IsWord.of_toLower {a b : List Char} (h : IsWord a)
    (hab : b.map Char.toLower = a.map Char.toLower) : IsWord b := by
  intro c hc
  have hmem : c.toLower ∈ a.map Char.toLower := hab ▸ List.mem_map_of_mem hc
  obtain ⟨d, hd, hcd⟩ := List.mem_map.mp hmem
  rw [← isAlphanum_toLower, ← hcd, isAlphanum_toLower]
  exact h d hd

/-- An address with a prefix of bech32, in some spelling. -/
lemma normalizeAddress_word {a : List Char} (h : IsWord a) :
    normalizeAddress u a
      = if startsWithBech32 (a.map Char.toLower) then a.map Char.toLower else a := by
  rw [normalizeAddress, strip_word h, lower_word u h]

lemma startsWithBech32_toLower {a : List Char} (h : startsWithBech32 a = true) :
    startsWithBech32 (a.map Char.toLower) = true := by
  simp only [startsWithBech32, List.any_eq_true, List.isPrefixOf_iff_prefix] at h ⊢
  obtain ⟨pre, hmem, t, rfl⟩ := h
  have hpre : ∀ q ∈ bech32Prefixes, q.map Char.toLower = q := by decide
  exact ⟨pre, hmem, t.map Char.toLower, by rw [List.map_append, hpre pre hmem]⟩

/-- What is normalized to a word that no prefix of bech32 starts is that word itself. -/
lemma normalizeAddress_eq_word {a raw : List Char} (ha : IsWord a)
    (hb : startsWithBech32 (a.map Char.toLower) = false) :
    normalizeAddress u raw = a ↔ strip raw = a := by
  have hne (h : startsWithBech32 (u.lower (strip raw)) = true) : u.lower (strip raw) ≠ a := by
    rintro rfl
    rw [startsWithBech32_toLower h] at hb
    cases hb
  rw [normalizeAddress]
  split_ifs with h
  · refine iff_of_false (hne h) fun hs => ?_
    rw [hs, lower_word u ha, hb] at h
    cases h
  · rfl

/-! ### Loading -/

lemma firstRow_cons (r : List Char × ListedAddress) (rows : List (List Char × ListedAddress))
    (key : List Char) : firstRow u (r :: rows) key
      = (if normalizeAddress u r.1 = [] then none
          else if normalizeAddress u r.1 = key then some r.2 else none).or
        (firstRow u rows key) := by
  rw [firstRow, firstRow, List.find?_cons]
  by_cases hk : normalizeAddress u r.1 = key
  · by_cases he : key = [] <;> simp [hk, he]
  · by_cases he : key = [] <;> simp [hk, he]

lemma firstRow_append (rows rows' : List (List Char × ListedAddress)) (key : List Char) :
    firstRow u (rows ++ rows') key = (firstRow u rows key).or (firstRow u rows' key) := by
  induction rows with
  | nil => simp [firstRow]
  | cons r rows ih => rw [List.cons_append, firstRow_cons, firstRow_cons, ih, Option.or_assoc]

lemma get?_foldl_rows (raw : Record → List Char) (entry : Record → ListedAddress)
    (hentry : ∀ row, (entry row).address = normalizeAddress u (raw row)) (rows : List Record)
    (d : Dict (List Char) ListedAddress) (key : List Char) :
    (rows.foldl (fun entries row =>
        if (entry row).address = [] then entries
        else entries.setDefault (entry row).address (entry row)) d).get? key
      = (d.get? key).or (firstRow u (rows.map fun row => (raw row, entry row)) key) := by
  induction rows generalizing d with
  | nil => simp [firstRow]
  | cons row rows ih =>
      rw [List.foldl_cons, ih, List.map_cons, firstRow_cons, ← Option.or_assoc, hentry]
      by_cases he : normalizeAddress u (raw row) = []
      · rw [if_pos he, if_pos he, Option.or_none]
      · rw [if_neg he, if_neg he, Dict.get?_setDefault]

/-- A file that loads has the first row for every address. -/
lemma get?_loadFile {listFile : String} {file : FileRead} {d : Dict (List Char) ListedAddress}
    (h : loadFile u listFile file = .ok d) (key : List Char) :
    d.get? key = firstRow u (rowsOf u listFile file) key := by
  match file, h with
  | .ok [], h =>
      cases h
      simp [rowsOf, firstRow]
  | .ok (header :: records), h =>
      rw [loadFile] at h
      split at h
      · cases h
      · cases h
        rw [get?_foldl_rows u (rawAddress (fieldnamesOf u header)) _ fun row => rfl,
          Dict.get?_empty, Option.none_or, rowsOf]

lemma findSome?_files {read : P → FileRead} {files : List (Dict (List Char) ListedAddress)}
    (h : (paths.mapM fun p => loadFile u (fileName p) (read p)) = .ok files) (key : List Char) :
    (files.findSome? fun e => e.get? key) = firstRow u (allRows u fileName paths read) key := by
  induction paths generalizing files with
  | nil =>
      cases h
      simp [allRows, firstRow]
  | cons p paths ih =>
      have hall : allRows u fileName (p :: paths) read
          = rowsOf u (fileName p) (read p) ++ allRows u fileName paths read :=
        List.flatMap_cons
      rw [List.mapM_cons] at h
      cases hp : loadFile u (fileName p) (read p) with
      | error e =>
          rw [hp] at h
          cases h
      | ok d =>
          cases hrest : paths.mapM fun p => loadFile u (fileName p) (read p) with
          | error e =>
              rw [hp, hrest] at h
              cases h
          | ok rest =>
              rw [hp, hrest] at h
              cases h
              rw [List.findSome?_cons, ih hrest, hall, firstRow_append, get?_loadFile u hp]
              cases firstRow u (rowsOf u (fileName p) (read p)) key <;> rfl

/-- All files that load have the first row for every address. -/
lemma get?_loadAll {read : P → FileRead} {d : Dict (List Char) ListedAddress}
    (h : loadAll u fileName paths read = .ok d) (key : List Char) :
    d.get? key = firstRow u (allRows u fileName paths read) key := by
  rw [loadAll] at h
  cases hm : paths.mapM fun p => loadFile u (fileName p) (read p) with
  | error e =>
      rw [hm] at h
      cases h
  | ok files =>
      rw [hm] at h
      cases h
      rw [Dict.get?_foldl_merge, Dict.get?_empty, Option.none_or, findSome?_files u _ _ hm]

/-! ### Reloading -/

/-- All that a reload does. -/
inductive Reloaded (s : SanctionsList M) (seen : Seen P M) : SanctionsList M → Bool → Prop
  | unseen (h : currentMtimes paths seen = none) : Reloaded s seen s false
  | same (h : currentMtimes paths seen = some s.mtimes) : Reloaded s seen s false
  | broken {mtimes : List M} (h : currentMtimes paths seen = some mtimes) (hne : mtimes ≠ s.mtimes)
      {e : LoadError} (he : loadAll u fileName paths seen.read = .error e) :
      Reloaded s seen { s with mtimes := mtimes } false
  | loaded {mtimes : List M} (h : currentMtimes paths seen = some mtimes) (hne : mtimes ≠ s.mtimes)
      {merged : Dict (List Char) ListedAddress}
      (hm : loadAll u fileName paths seen.read = .ok merged) :
      Reloaded s seen ⟨merged, mtimes⟩ true

/-- Nothing is raised by a reload. -/
lemma reloadIfChanged_false (s : SanctionsList M) (seen : Seen P M) :
    ∃ s' loaded, s.reloadIfChanged u fileName paths false seen = some (s', loaded)
      ∧ Reloaded u fileName paths s seen s' loaded := by
  rw [SanctionsList.reloadIfChanged]
  cases hm : currentMtimes paths seen with
  | none => exact ⟨s, false, rfl, .unseen hm⟩
  | some mtimes =>
      by_cases he : mtimes = s.mtimes
      · exact ⟨s, false, by simp [he], .same (he ▸ hm)⟩
      · cases hl : loadAll u fileName paths seen.read with
        | error e => exact ⟨{ s with mtimes := mtimes }, false, by simp [he], .broken hm he hl⟩
        | ok merged => exact ⟨⟨merged, mtimes⟩, true, by simp [he], .loaded hm he hl⟩

omit [DecidableEq M] in
/-- What an address is looked up to, by what is in `_entries`. -/
lemma lookup_eq_specLookup {s : SanctionsList M} {read : P → FileRead}
    (h : ∀ key, s.entries.get? key = firstRow u (allRows u fileName paths read) key)
    (a : Option (List Char)) : s.lookup u a = specLookup u fileName paths read a := by
  match a with
  | none => rfl
  | some [] =>
      have : normalizeAddress u [] = [] := normalizeAddress_word u (a := []) (by simp [IsWord])
      rw [specLookup, this]
      rfl
  | some (c :: a) => exact h _

/-! ### Runs -/

/-- The list in use, with the files as they were at the last load that succeeded, and the times of
modification as they were when all of them could last be asked for. -/
structure History (P M : Type) where
  list : SanctionsList M
  good : P → FileRead
  mtime : P → Option M

/-- The constructor, and any sequence of reloads. -/
def system : TransitionSystem (History P M) (Seen P M) where
  init h := ∃ seen, SanctionsList.start u fileName paths seen = some h.list
    ∧ h.good = seen.read ∧ h.mtime = seen.mtime
  step seen h h' := ∃ loaded, h.list.reloadIfChanged u fileName paths false seen
      = some (h'.list, loaded)
    ∧ h'.good = (if loaded then seen.read else h.good)
    ∧ h'.mtime = (if (currentMtimes paths seen).isSome then seen.mtime else h.mtime)

/-- The entries are those of the last good files, and the memory of the times is right. -/
structure Inv (h : History P M) : Prop where
  entries : ∀ key, h.list.entries.get? key = firstRow u (allRows u fileName paths h.good) key
  mtimes : paths.mapM h.mtime = some h.list.mtimes

lemma Inv.init {h : History P M} (h0 : (system u fileName paths).init h) :
    Inv u fileName paths h := by
  obtain ⟨seen, hs, hgood, hmtime⟩ := h0
  obtain ⟨⟨s, b⟩, hs, rfl⟩ := Option.map_eq_some_iff.mp hs
  rw [SanctionsList.reloadIfChanged] at hs
  cases hm : currentMtimes paths seen with
  | none =>
      rw [hm] at hs
      cases hs
  | some mtimes =>
      cases hl : loadAll u fileName paths seen.read with
      | error e => simp [hm, hl] at hs
      | ok merged =>
          simp only [hm, hl, Bool.true_eq_false, false_and, if_false, Option.some.injEq,
            Prod.mk.injEq] at hs
          obtain ⟨hs, rfl⟩ := hs
          exact ⟨fun key => by rw [← hs, hgood, get?_loadAll u fileName paths hl],
            by rw [← hs, hmtime, ← hm, currentMtimes]⟩

/-- A reload keeps the invariant. -/
lemma Inv.next {h h' : History P M} {seen : Seen P M} (hinv : Inv u fileName paths h)
    (hstep : (system u fileName paths).step seen h h') : Inv u fileName paths h' := by
  obtain ⟨loaded, hr, hgood, hmtime⟩ := hstep
  obtain ⟨s', loaded', hr', hdone⟩ := reloadIfChanged_false u fileName paths h.list seen
  rw [hr, Option.some.injEq, Prod.mk.injEq] at hr'
  obtain ⟨rfl, rfl⟩ := hr'
  obtain ⟨s', good, mtime⟩ := h'
  simp only at hdone hgood hmtime
  subst hgood hmtime
  have hsome {mtimes : List M} (hm : currentMtimes paths seen = some mtimes) :
      paths.mapM (if (currentMtimes paths seen).isSome = true then seen.mtime else h.mtime)
        = some mtimes := by
    rw [if_pos (by rw [hm]; rfl)]
    exact hm
  cases hdone with
  | unseen hm => exact ⟨hinv.entries, by rw [hm]; exact hinv.mtimes⟩
  | same hm => exact ⟨hinv.entries, hsome hm⟩
  | broken hm hne he => exact ⟨hinv.entries, hsome hm⟩
  | loaded hm hne hl => exact ⟨get?_loadAll u fileName paths hl, hsome hm⟩

lemma Inv.of_reach {h : History P M} (hr : (system u fileName paths).Reach anyStep h) :
    Inv u fileName paths h :=
  hr.invariant (fun _ h0 => Inv.init u fileName paths h0)
    fun _ _ _ hinv _ hs => Inv.next u fileName paths hinv hs

omit [DecidableEq M] in
/-- A time of modification that has changed shows in the times compared. -/
lemma currentMtimes_of_changed {h : History P M} (hinv : Inv u fileName paths h)
    {seen : Seen P M} (hsome : ∀ p ∈ paths, (seen.mtime p).isSome)
    (hchanged : ∃ p ∈ paths, seen.mtime p ≠ h.mtime p) :
    ∃ mtimes, currentMtimes paths seen = some mtimes ∧ mtimes ≠ h.list.mtimes := by
  have hall : ∀ o ∈ paths.map seen.mtime, o.isSome = true := by simpa using hsome
  have hmtimes : (paths.filterMap seen.mtime).map some = paths.map seen.mtime := by
    rw [List.map_filterMap_some_eq_filter_map_isSome, List.filter_eq_self.mpr hall]
  refine ⟨_, mapM_eq_some_iff.mpr hmtimes.symm, fun heq => ?_⟩
  obtain ⟨p, hp, hne⟩ := hchanged
  have hsame : paths.map seen.mtime = paths.map h.mtime := by
    rw [mapM_eq_some_iff.mp hinv.mtimes, ← heq, hmtimes]
  exact hne (List.map_inj_left.mp hsame p hp)

/-- **The last good list is in use**: after any sequence of reloads, whatever the files and their
times of modification were, an address is looked up to the first row that is listed under it in the
contents of the last reload that succeeded. No reload raises, one that fails changes no lookup, and
when a time of modification has changed the files are read again. The spellings of a bech32 address
have one answer, and another address is found exactly as it is listed. -/
theorem lookup_last_good {h : History P M} (hr : (system u fileName paths).Reach anyStep h) :
    (∀ a, h.list.lookup u a = specLookup u fileName paths h.good a)
      ∧ (∀ seen : Seen P M, ∃ s' loaded,
          h.list.reloadIfChanged u fileName paths false seen = some (s', loaded)
          ∧ (∀ a, s'.lookup u a
              = if loaded then specLookup u fileName paths seen.read a else h.list.lookup u a)
          ∧ ((∀ p ∈ paths, (seen.mtime p).isSome) → (∃ p ∈ paths, seen.mtime p ≠ h.mtime p) →
              (loaded = true ↔ ∃ merged, loadAll u fileName paths seen.read = .ok merged)))
      ∧ (∀ a b, IsWord a → startsWithBech32 (a.map Char.toLower) = true →
          b.map Char.toLower = a.map Char.toLower →
          h.list.lookup u (some b) = h.list.lookup u (some a))
      ∧ ∀ a, a ≠ [] → IsWord a → startsWithBech32 (a.map Char.toLower) = false →
          h.list.lookup u (some a)
            = ((allRows u fileName paths h.good).find? fun r => strip r.1 = a).map Prod.snd := by
  have hinv := Inv.of_reach u fileName paths hr
  have hspec := lookup_eq_specLookup u fileName paths hinv.entries
  refine ⟨hspec, fun seen => ?_, fun a b ha hb hab => ?_, fun a hne ha hb => ?_⟩
  · obtain ⟨s', loaded, hs, hdone⟩ := reloadIfChanged_false u fileName paths h.list seen
    refine ⟨s', loaded, hs, ?_, fun hsome hchanged => ?_⟩
    · cases hdone with
      | unseen | same | broken => exact fun a => rfl
      | loaded hm hne hl =>
          exact lookup_eq_specLookup u fileName paths (get?_loadAll u fileName paths hl)
    · obtain ⟨mtimes, hm, hne⟩ := currentMtimes_of_changed u fileName paths hinv hsome hchanged
      cases hdone with
      | unseen hm' => simp [hm] at hm'
      | same hm' => exact absurd (Option.some.inj (hm.symm.trans hm')) hne
      | broken _ _ he => simp [he]
      | loaded _ _ hl => simp [hl]
  · have hw := ha.of_toLower hab
    rw [hspec, hspec, specLookup, specLookup, normalizeAddress_word u ha,
      normalizeAddress_word u hw, hab]
    simp [hb]
  · rw [hspec, specLookup, normalizeAddress_word u ha, hb, firstRow]
    simp only [Bool.false_eq_true, if_false, hne, normalizeAddress_eq_word u ha hb]

/-- A list of one address, in upper case, stays in use when its file is broken. -/
theorem lookup_last_good_broken :
    ∃ h : History Unit ℕ, (system asciiCasing (fun _ => "list.csv") [()]).Reach anyStep h
      ∧ h.list.mtimes = [2]
      ∧ (h.list.lookup asciiCasing (some ['b', 'c', '1', 'Q'])).map (·.address)
        = some ['b', 'c', '1', 'q'] := by
  let seen : Seen Unit ℕ :=
    ⟨fun _ => some 1, fun _ => .ok [[addressName], [['B', 'C', '1', 'Q']]]⟩
  let s : SanctionsList ℕ :=
    ⟨⟨[(['b', 'c', '1', 'q'], entryOf asciiCasing "list.csv" [addressName] [['B', 'C', '1', 'Q']])],
      by simp⟩, [1]⟩
  have h0 : (system asciiCasing (fun _ => "list.csv") [()]).Reach anyStep
      (⟨s, seen.read, seen.mtime⟩ : History Unit ℕ) := .init ⟨seen, rfl, rfl, rfl⟩
  have hr : (system asciiCasing (fun _ => "list.csv") [()]).Reach anyStep
      (⟨{ s with mtimes := [2] }, seen.read, fun _ => some 2⟩ : History Unit ℕ) :=
    .step (i := ⟨fun _ => some 2, fun _ => .error .osError⟩) h0 trivial ⟨false, rfl, rfl, rfl⟩
  refine ⟨_, hr, rfl, ?_⟩
  rw [(lookup_last_good asciiCasing _ _ hr).1]
  rfl

end Sanctions

end BtcParser
