import BtcParser.Rpc.Client
import BtcParser.Rpc.PartWriter
import Mathlib.Data.List.MinMax

/-!
`rpc/reorg_state.py`: the state files of the block parser and their in-memory views.

* `IndexStore` is the view of `index/index.csv`; `add` stages a row, `flush` appends the staged
  rows to the last part and makes them visible.
* `BlockStatusStore` is the view of `block_status.csv`. The file is modelled by the entries it
  holds.
* A `Pointer` is the one row of `current.csv` or `latest.csv`.
* `seedIndexFromBlocksCsv` rebuilds an index from the blocks parts on disk.

A `previousblockhash` that is the empty string is `none` here, and so is a `blockhash` of `None`.
-/

namespace BtcParser

variable {H ρ : Type}

/-- The row of `current.csv` or `latest.csv`. -/
abbrev Pointer (H : Type) := ℤ × Option H

/-- `CURRENT_INDEX_SCHEMA_VERSION`. -/
def currentIndexSchemaVersion : ℕ := 2

/-- A row of `index.csv`. -/
structure IndexRow (H : Type) where
  height : ℤ
  blockhash : H
  previousblockhash : Option H
  schemaVersion : ℕ
  deriving DecidableEq

/-- One part of `index.csv`. A part written before the column `schema_version` existed has no
such column; the versions its rows carry here mean nothing. -/
structure IndexPart (H : Type) where
  hasSchemaVersion : Bool
  rows : List (IndexRow H)
  deriving DecidableEq

/-- The rows of a part as `_load` reads them. -/
def IndexPart.read (p : IndexPart H) : List (IndexRow H) :=
  if p.hasSchemaVersion then p.rows else p.rows.map fun r => { r with schemaVersion := 1 }

/-! ### `IndexStore` -/

/-- The in-memory view of `index.csv`. -/
structure IndexStore (H : Type) where
  byHash : Dict H (IndexRow H)
  pending : Dict H (IndexRow H)
  allCurrent : Bool
  deriving DecidableEq

/-- `min(rows, key=height)` of a nonempty list: the first row of least height. -/
def lowestRow (r : IndexRow H) (rs : List (IndexRow H)) : IndexRow H :=
  rs.foldl (fun m r => if r.height < m.height then r else m) r

lemma lowestRow_spec (r : IndexRow H) (rs : List (IndexRow H)) :
    lowestRow r rs ∈ r :: rs ∧ ∀ r' ∈ r :: rs, (lowestRow r rs).height ≤ r'.height := by
  induction rs generalizing r with
  | nil => simp [lowestRow]
  | cons r₁ rs ih =>
      have hstep : lowestRow r (r₁ :: rs)
          = lowestRow (if r₁.height < r.height then r₁ else r) rs := rfl
      rw [hstep]
      obtain ⟨hmem, hle⟩ := ih (if r₁.height < r.height then r₁ else r)
      split_ifs at hmem hle ⊢ with hlt
      · refine ⟨by simp only [List.mem_cons] at hmem ⊢; tauto, fun r' hr' => ?_⟩
        rcases List.mem_cons.mp hr' with rfl | hr'
        · exact (hle r₁ (by simp)).trans hlt.le
        · exact hle r' hr'
      · refine ⟨by simp only [List.mem_cons] at hmem ⊢; tauto, fun r' hr' => ?_⟩
        simp only [List.mem_cons] at hr' hle
        rcases hr' with rfl | rfl | hr'
        · exact hle _ (.inl rfl)
        · exact (hle r (.inl rfl)).trans (not_lt.mp hlt)
        · exact hle r' (.inr hr')

/-- Where `flush` appends: to the last part, unless it is full or lacks the version column. -/
def appendIndexRows (isFull : IndexPart H → Bool) (parts : List (IndexPart H))
    (rows : List (IndexRow H)) : List (IndexPart H) :=
  match parts.getLast? with
  | none => [⟨true, rows⟩]
  | some p =>
      if isFull p then parts ++ [⟨true, rows⟩]
      else if p.hasSchemaVersion then parts.dropLast ++ [⟨true, p.rows ++ rows⟩]
      -- its header names fewer columns than the rows have
      else parts ++ [⟨true, rows⟩]

lemma read_appendIndexRows (isFull : IndexPart H → Bool) (parts : List (IndexPart H))
    (rows : List (IndexRow H)) :
    (appendIndexRows isFull parts rows).flatMap IndexPart.read
      = parts.flatMap IndexPart.read ++ rows := by
  unfold appendIndexRows
  split
  · next h => simp [List.getLast?_eq_none_iff.mp h, IndexPart.read]
  · next p h =>
      obtain ⟨front, rfl⟩ := List.getLast?_eq_some_iff.mp h
      split_ifs with hfull hv
      · simp [IndexPart.read]
      · simp [IndexPart.read, hv]
      · simp [IndexPart.read]

namespace IndexStore

variable [DecidableEq H]

/-- `_register`. -/
def register (d : Dict H (IndexRow H)) (r : IndexRow H) : Dict H (IndexRow H) :=
  d.set r.blockhash r

/-- What registering a list of rows leaves is the last row of each hash. -/
lemma get?_foldl_register (rows : List (IndexRow H)) (d : Dict H (IndexRow H)) (h : H) :
    (rows.foldl register d).get? h
      = (rows.reverse.find? fun r => r.blockhash = h).or (d.get? h) := by
  induction rows generalizing d with
  | nil => rfl
  | cons r rows ih =>
      rw [List.foldl_cons, ih, List.reverse_cons, List.find?_append, register, Dict.get?_set,
        Option.or_assoc]
      by_cases hh : h = r.blockhash
      · simp [hh]
      · simp [hh, Ne.symm hh]

/-- What `_load` reads back from the parts. -/
def loadRows (parts : List (IndexPart H)) : Dict H (IndexRow H) :=
  (parts.flatMap IndexPart.read).foldl register .empty

/-- `__init__`. -/
def load (parts : List (IndexPart H)) : IndexStore H := ⟨loadRows parts, .empty, false⟩

/-- `get`. -/
def get (s : IndexStore H) (h : H) : Option (IndexRow H) := s.byHash.get? h

/-- `contains`. -/
def contains (s : IndexStore H) (h : H) : Bool := s.byHash.contains h

/-- `self._by_hash.get(h) or self._pending.get(h)`. -/
def row? (s : IndexStore H) (h : H) : Option (IndexRow H) :=
  (s.byHash.get? h).or (s.pending.get? h)

/-- `needs_export`. -/
def needsExport (s : IndexStore H) (h : H) : Bool :=
  match s.row? h with
  -- never seen
  | none => true
  -- exported with the columns of an older version
  | some r => decide (r.schemaVersion < currentIndexSchemaVersion)

/-- The rows older than the current schema. -/
def staleRows (s : IndexStore H) : List (IndexRow H) :=
  s.byHash.values.filter fun r => decide (r.schemaVersion < currentIndexSchemaVersion)

lemma mem_staleRows {s : IndexStore H} {r : IndexRow H} :
    r ∈ s.staleRows ↔ (∃ h, s.byHash.get? h = some r)
      ∧ r.schemaVersion < currentIndexSchemaVersion := by
  simp [staleRows, Dict.mem_values_iff]

/-- `earliest_stale`, and the store with its cached answer. -/
def earliestStale (s : IndexStore H) : Option (IndexRow H) × IndexStore H :=
  if s.allCurrent then (none, s)
  else
    match s.staleRows with
    -- the answer is kept, and rows flushed later are not looked at
    | [] => (none, { s with allCurrent := true })
    | r :: rs => (some (lowestRow r rs), s)

/-- `add`. -/
def add (s : IndexStore H) (height : ℤ) (h : H) (previousblockhash : Option H)
    (schemaVersion : ℕ) : IndexStore H :=
  let row : IndexRow H := ⟨height, h, previousblockhash, schemaVersion⟩
  match s.row? h with
  | none => { s with pending := s.pending.set h row }
  | some e =>
      -- known at this version
      if schemaVersion ≤ e.schemaVersion then s
      else { s with pending := s.pending.set h row }

/-- `discard_pending`. -/
def discardPending (s : IndexStore H) : IndexStore H := { s with pending := .empty }

/-- What `flush` does in memory. -/
def flush (s : IndexStore H) : IndexStore H :=
  if s.pending.entries.isEmpty then s
  else { s with byHash := s.byHash.update s.pending, pending := .empty }

/-- What `flush` does on disk. -/
def flushParts (s : IndexStore H) (isFull : IndexPart H → Bool) (parts : List (IndexPart H)) :
    List (IndexPart H) :=
  if s.pending.entries.isEmpty then parts else appendIndexRows isFull parts s.pending.values

variable (s : IndexStore H)

omit [DecidableEq H] in
@[simp] lemma discardPending_byHash : s.discardPending.byHash = s.byHash := rfl

omit [DecidableEq H] in
@[simp] lemma discardPending_pending : s.discardPending.pending = .empty := rfl

@[simp] lemma load_byHash (parts : List (IndexPart H)) : (load parts).byHash = loadRows parts := rfl

@[simp] lemma load_pending (parts : List (IndexPart H)) : (load parts).pending = .empty := rfl

omit [DecidableEq H] in
lemma earliestStale_eq (s : IndexStore H) :
    s.earliestStale.2 = { s with allCurrent := s.earliestStale.2.allCurrent } := by
  unfold earliestStale
  split
  · rfl
  · split <;> rfl

omit [DecidableEq H] in
@[simp] lemma earliestStale_byHash : s.earliestStale.2.byHash = s.byHash := by
  rw [earliestStale_eq]

omit [DecidableEq H] in
@[simp] lemma earliestStale_pending : s.earliestStale.2.pending = s.pending := by
  rw [earliestStale_eq]

@[simp] lemma earliestStale_row? (h : H) : s.earliestStale.2.row? h = s.row? h := by
  rw [row?, row?, earliestStale_byHash, earliestStale_pending]

omit [DecidableEq H] in
/-- The row `earliest_stale` picks is stale, and none is lower. -/
lemma earliestStale_some {r : IndexRow H} (h : s.earliestStale.1 = some r) :
    r ∈ s.staleRows ∧ ∀ r' ∈ s.staleRows, r.height ≤ r'.height := by
  unfold earliestStale at h
  split_ifs at h
  split at h
  · cases h
  · next r₀ rs hs =>
      cases h
      rw [hs]
      exact lowestRow_spec r₀ rs

omit [DecidableEq H] in
/-- The answer is cached once there is no stale row. -/
lemma earliestStale_allCurrent :
    s.earliestStale.2.allCurrent = true ↔ s.allCurrent = true ∨ s.staleRows = [] := by
  unfold earliestStale
  split
  · next h => simp [h]
  · next h => split <;> simp_all

omit [DecidableEq H] in
lemma earliestStale_eq_none (h : s.earliestStale.1 = none) :
    s.allCurrent = true ∨ s.staleRows = [] := by
  unfold earliestStale at h
  split_ifs at h with ha
  · exact .inl ha
  · split at h
    · exact .inr ‹_›
    · cases h

/-- What `add` can do. -/
lemma add_cases (height : ℤ) (h : H) (p : Option H) (v : ℕ) :
    (∃ e, s.row? h = some e ∧ v ≤ e.schemaVersion ∧ s.add height h p v = s)
      ∨ (∀ e, s.row? h = some e → e.schemaVersion < v)
        ∧ s.add height h p v = { s with pending := s.pending.set h ⟨height, h, p, v⟩ } := by
  unfold add
  cases hr : s.row? h with
  | none => exact .inr ⟨by simp, rfl⟩
  | some e =>
      by_cases hv : v ≤ e.schemaVersion
      · exact .inl ⟨e, rfl, hv, by simp [hv]⟩
      · refine .inr ⟨fun e' he => ?_, by simp [hv]⟩
        cases he
        omega

/-- Where a staged row comes from. -/
lemma get?_pending_add {n : ℤ} {h x : H} {p : Option H} {v : ℕ} {r : IndexRow H}
    (hr : (s.add n h p v).pending.get? x = some r) :
    s.pending.get? x = some r ∨ x = h ∧ r = ⟨n, h, p, v⟩ := by
  rcases s.add_cases n h p v with ⟨e, -, -, he⟩ | ⟨-, he⟩
  · exact .inl (he ▸ hr)
  · rw [he, Dict.get?_set] at hr
    split_ifs at hr with hx
    · exact .inr ⟨hx, (Option.some.inj hr).symm⟩
    · exact .inl hr

@[simp] lemma add_allCurrent (height : ℤ) (h : H) (p : Option H) (v : ℕ) :
    (s.add height h p v).allCurrent = s.allCurrent := by
  rcases s.add_cases height h p v with ⟨e, -, -, he⟩ | ⟨-, he⟩ <;> rw [he]

@[simp] lemma add_byHash (height : ℤ) (h : H) (p : Option H) (v : ℕ) :
    (s.add height h p v).byHash = s.byHash := by
  rcases s.add_cases height h p v with ⟨e, -, -, he⟩ | ⟨-, he⟩ <;> rw [he]

omit [DecidableEq H] in
lemma pending_eq_empty_of_isEmpty (h : s.pending.entries.isEmpty = true) : s.pending = .empty := by
  obtain ⟨b, ⟨entries, hn⟩, c⟩ := s
  simp only [List.isEmpty_iff] at h
  subst h
  rfl

@[simp] lemma flush_byHash : s.flush.byHash = s.byHash.update s.pending := by
  unfold flush
  split_ifs with h
  · rw [s.pending_eq_empty_of_isEmpty h, Dict.update_empty]
  · rfl

@[simp] lemma flush_pending : s.flush.pending = .empty := by
  unfold flush
  split_ifs with h
  · exact s.pending_eq_empty_of_isEmpty h
  · rfl

/-- Reading back what `flush` wrote gives what it made visible. -/
lemma loadRows_flushParts (isFull : IndexPart H → Bool) (parts : List (IndexPart H))
    (hk : ∀ h r, s.pending.get? h = some r → r.blockhash = h) :
    loadRows (s.flushParts isFull parts) = (loadRows parts).update s.pending := by
  unfold flushParts
  split_ifs with h
  · rw [s.pending_eq_empty_of_isEmpty h, Dict.update_empty]
  · rw [loadRows, read_appendIndexRows, List.foldl_append, Dict.values, List.foldl_map]
    refine List.foldl_ext _ _ _ fun d p hp => ?_
    rw [register, hk p.1 p.2 (Dict.get?_eq_some_iff.mpr hp)]

lemma flush_eq : s.flush = ⟨s.byHash.update s.pending, .empty, s.allCurrent⟩ := by
  unfold flush
  split_ifs with h
  · rw [s.pending_eq_empty_of_isEmpty h, Dict.update_empty, ← s.pending_eq_empty_of_isEmpty h]
  · rfl

lemma needsExport_eq_false {h : H} :
    s.needsExport h = false
      ↔ ∃ r, s.row? h = some r ∧ currentIndexSchemaVersion ≤ r.schemaVersion := by
  unfold needsExport
  cases s.row? h <;> simp

/-- A block that needs exporting is staged. -/
lemma add_of_needsExport {h : H} (hn : s.needsExport h = true) (n : ℤ) (p : Option H) :
    s.add n h p currentIndexSchemaVersion
      = { s with pending := s.pending.set h ⟨n, h, p, currentIndexSchemaVersion⟩ } := by
  rcases s.add_cases n h p currentIndexSchemaVersion with ⟨e, hr, hv, -⟩ | ⟨-, he⟩
  · rw [s.needsExport_eq_false.mpr ⟨e, hr, hv⟩] at hn
    cases hn
  · exact he

/-- The block is in the index, flushed or staged. -/
def Has (s : IndexStore H) (h : H) : Prop :=
  s.byHash.contains h = true ∨ s.pending.contains h = true

instance (h : H) : Decidable (s.Has h) := inferInstanceAs (Decidable (_ ∨ _))

variable {s}

lemma has_iff {h : H} : s.Has h ↔ ∃ r, s.row? h = some r := by
  rw [Has, Dict.contains, Dict.contains, row?]
  cases s.byHash.get? h <;> cases s.pending.get? h <;> simp

lemma has_add {n : ℤ} {h x : H} {p : Option H} {v : ℕ} :
    (s.add n h p v).Has x ↔ x = h ∨ s.Has x := by
  rcases s.add_cases n h p v with ⟨e, hr, -, he⟩ | ⟨-, he⟩
  · rw [he]
    exact ⟨.inr, fun hx => hx.elim (fun hx => hx ▸ has_iff.mpr ⟨e, hr⟩) id⟩
  · rw [he, Has, Dict.contains_set, Has]
    tauto

lemma has_of_needsExport {h : H} (hn : s.needsExport h = false) : s.Has h := by
  obtain ⟨r, hr, -⟩ := (needsExport_eq_false s).mp hn
  exact has_iff.mpr ⟨r, hr⟩

lemma has_earliestStale {h : H} : s.earliestStale.2.Has h ↔ s.Has h := by
  simp [Has]

lemma has_of_get {h : H} {r : IndexRow H} (hr : s.get h = some r) : s.Has h :=
  .inl (Dict.contains_eq_true.mpr ⟨r, hr⟩)

lemma has_flush {h : H} : s.flush.Has h ↔ s.Has h := by
  rw [Has, flush_byHash, flush_pending, Dict.contains_update, Has]
  simp

end IndexStore

/-! ### `BlockStatusStore` -/

/-- The in-memory view of `block_status.csv`. -/
structure BlockStatusStore (H : Type) where
  entries : Dict (ℤ × H) Bool
  dirty : Bool
  deriving DecidableEq

namespace BlockStatusStore

variable [DecidableEq H]

/-- `__init__`. -/
def load (d : Dict (ℤ × H) Bool) : BlockStatusStore H := ⟨d, false⟩

/-- `set_canonical`. -/
def setCanonical (s : BlockStatusStore H) (height : ℤ) (h : H) (canonical : Bool) :
    BlockStatusStore H :=
  if s.entries.get? (height, h) = some canonical then s
  else ⟨s.entries.set (height, h) canonical, true⟩

/-- `set_canonical_if_present`. -/
def setCanonicalIfPresent (s : BlockStatusStore H) (height : ℤ) (h : H) (canonical : Bool) :
    BlockStatusStore H :=
  match s.entries.get? (height, h) with
  -- a block that was never detached has no entry and needs none
  | none => s
  | some c => if c = canonical then s else ⟨s.entries.set (height, h) canonical, true⟩

/-- What `flush` does in memory. -/
def flush (s : BlockStatusStore H) : BlockStatusStore H := { s with dirty := false }

/-- What `flush` does on disk. -/
def flushFile (s : BlockStatusStore H) (d : Dict (ℤ × H) Bool) : Dict (ℤ × H) Bool :=
  if s.dirty then s.entries else d

lemma get?_setCanonical (s : BlockStatusStore H) (n : ℤ) (h : H) (b : Bool) (k : ℤ × H) :
    (s.setCanonical n h b).entries.get? k
      = if k = (n, h) then some b else s.entries.get? k := by
  rw [setCanonical]
  split_ifs with hs hk hk
  · rw [hk, hs]
  · rfl
  · rw [hk, Dict.get?_set_self]
  · rw [Dict.get?_set_ne _ hk]

lemma get?_setCanonicalIfPresent (s : BlockStatusStore H) (n : ℤ) (h : H) (b : Bool)
    (k : ℤ × H) : (s.setCanonicalIfPresent n h b).entries.get? k
      = if k = (n, h) then (s.entries.get? k).map fun _ => b else s.entries.get? k := by
  rw [setCanonicalIfPresent]
  split
  · next hs =>
      split_ifs with hk
      · rw [hk, hs, Option.map_none]
      · rfl
  · next c hs =>
      split_ifs with hc hk hk
      · rw [hk, hs, Option.map_some, hc]
      · rfl
      · rw [hk, Dict.get?_set_self, hs, Option.map_some]
      · rw [Dict.get?_set_ne _ hk]

end BlockStatusStore

/-! ### Exported rows, and the seeding from them -/

/-- A `blocks` row. `fields` stands for the columns that nothing reads back. -/
structure BlockEvent (H ρ : Type) where
  height : ℤ
  hash : H
  previousblockhash : Option H
  timeSincePrevBlockSec : Option ℤ
  fields : ρ
  deriving DecidableEq

/-- A row of one of the four exported files. -/
inductive Row (H ρ : Type) where
  | block (e : BlockEvent H ρ)
  | detail (r : ρ)
  deriving DecidableEq

/-- The block event of a `blocks` row. -/
def Row.blockEvent? : Row H ρ → Option (BlockEvent H ρ)
  | .block e => some e
  | .detail _ => none

/-- `existing_part_numbers`: the names carry six digits. -/
def existingPartNumbers {R : Type} (d : Dict ℕ (Part R)) : List ℕ :=
  (d.keys.filter fun n => decide (n ≤ 999999)).insertionSort (· ≤ ·)

/-- The blocks parts on disk by ascending number, an export part hiding a state part of the same
number. -/
def seedParts (f : PartFiles (Row H ρ)) : List (Part (Row H ρ)) :=
  ((existingPartNumbers f.state ++ existingPartNumbers f.exported).dedup.insertionSort
    (· ≤ ·)).filterMap fun n => (f.exported.get? n).or (f.state.get? n)

/-- The block events of a part. -/
def blockEvents (p : Part (Row H ρ)) : List (BlockEvent H ρ) := p.rows.filterMap Row.blockEvent?

@[simp] lemma blockEvents_nil : blockEvents ([] : Part (Row H ρ)) = [] := rfl

@[simp] lemma blockEvents_append (p q : Part (Row H ρ)) :
    blockEvents (p ++ q) = blockEvents p ++ blockEvents q := by
  simp [blockEvents]

@[simp] lemma blockEvents_writeCsv (b : Bool) (rows : List (Row H ρ)) :
    blockEvents (writeCsv b rows) = rows.filterMap Row.blockEvent? := by
  simp [blockEvents]

/-- The rows `seed_index_from_blocks_csv` finds. -/
def seedRows (f : PartFiles (Row H ρ)) : List (BlockEvent H ρ) :=
  (seedParts f).flatMap blockEvents

/-- A seeded row is a row of a part on disk, all of whose rows are seeded. -/
lemma mem_seedRows {f : PartFiles (Row H ρ)} {e : BlockEvent H ρ} (he : e ∈ seedRows f) :
    ∃ p, f.Holds p ∧ e ∈ blockEvents p ∧ ∀ e' ∈ blockEvents p, e' ∈ seedRows f := by
  obtain ⟨p, hp, he⟩ := List.mem_flatMap.mp he
  refine ⟨p, ?_, he, fun e' he' => List.mem_flatMap.mpr ⟨p, hp, he'⟩⟩
  obtain ⟨n, -, hn⟩ := List.mem_filterMap.mp hp
  rcases Option.or_eq_some_iff.mp hn with h | ⟨-, h⟩
  · exact ⟨n, .inr h⟩
  · exact ⟨n, .inl h⟩

/-- The rows of greatest height. The unstable `frame.sort` leaves one of them last. -/
def highestRows (rows : List (BlockEvent H ρ)) : List (BlockEvent H ρ) :=
  rows.filter fun e => rows.all fun e' => decide (e'.height ≤ e.height)

/-- `top`: the row of greatest height the sort leaves last, `tie` deciding among equals. -/
def seedTop (tie : ℕ) (rows : List (BlockEvent H ρ)) : Option (BlockEvent H ρ) :=
  (highestRows rows)[tie % (highestRows rows).length]?

lemma highestRows_ne_nil {rows : List (BlockEvent H ρ)} (h : rows ≠ []) :
    highestRows rows ≠ [] := by
  obtain ⟨e, he⟩ := Option.ne_none_iff_exists'.mp
    (mt (List.argmax_eq_none (f := BlockEvent.height)).mp h)
  refine List.ne_nil_of_mem (a := e) (List.mem_filter.mpr ⟨List.argmax_mem he, ?_⟩)
  simpa using fun e' he' => List.le_of_mem_argmax he' he

lemma seedTop_mem {tie : ℕ} {rows : List (BlockEvent H ρ)} {top : BlockEvent H ρ}
    (h : seedTop tie rows = some top) : top ∈ highestRows rows :=
  List.mem_of_getElem? h

lemma seedTop_eq_none {tie : ℕ} {rows : List (BlockEvent H ρ)} (h : seedTop tie rows = none) :
    rows = [] := by
  by_contra hne
  have hpos := List.length_pos_iff.mpr (highestRows_ne_nil hne)
  rw [seedTop, List.getElem?_eq_none_iff] at h
  exact absurd (Nat.mod_lt tie hpos) (not_lt.mpr h)

/-- What `seed_index_from_blocks_csv` stages. -/
def seedIndex [DecidableEq H] (s : IndexStore H) (rows : List (BlockEvent H ρ)) : IndexStore H :=
  rows.foldl (fun s e => s.add e.height e.hash e.previousblockhash 1) s

/-- Where a staged row comes from, after seeding. -/
lemma get?_pending_seedIndex [DecidableEq H] {s : IndexStore H} {rows : List (BlockEvent H ρ)}
    {x : H} {r : IndexRow H} (hr : (seedIndex s rows).pending.get? x = some r) :
    s.pending.get? x = some r ∨ ∃ e ∈ rows, e.hash = x := by
  induction rows generalizing s with
  | nil => exact .inl hr
  | cons e rows ih =>
      rcases ih hr with hr | ⟨e', he', hx⟩
      · exact (s.get?_pending_add hr).imp_right fun h => ⟨e, by simp, h.1.symm⟩
      · exact .inr ⟨e', by simp [he'], hx⟩

lemma has_seedIndex [DecidableEq H] {s : IndexStore H} {rows : List (BlockEvent H ρ)} {x : H} :
    (seedIndex s rows).Has x ↔ s.Has x ∨ ∃ e ∈ rows, e.hash = x := by
  induction rows generalizing s with
  | nil => simp [seedIndex]
  | cons e rows ih =>
      show (seedIndex (s.add e.height e.hash e.previousblockhash 1) rows).Has x ↔ _
      rw [ih, IndexStore.has_add]
      simp only [List.mem_cons, exists_eq_or_imp, eq_comm (a := x)]
      tauto

end BtcParser
