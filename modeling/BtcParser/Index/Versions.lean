import BtcParser.Rpc.ReorgState

/-!
The index store as a map from hashes to rows of the highest version.

* `IndexOp` is one call on the store, or a reload from disk; `IndexWorld.run` runs a list of them
  on an index that an older version of the program left, or on none.
* `MapView` says that what the store answers is what its history says: the rows ever flushed,
  which are those on disk, and the rows staged since.
* `Keeps` is the condition on a single call. `mapView_iff`: the store is a map in every state of a
  run if and only if every call of the run meets it.

Two things break the map. Both lookups prefer a committed row to a staged one, although the
staged one is newer; and the answer that nothing is stale is never taken back.
-/

namespace BtcParser

variable {H ρ : Type}

/-- What can happen to an index store. -/
inductive IndexOp (H ρ : Type) where
  | add (height : ℤ) (blockhash : H) (previousblockhash : Option H) (schemaVersion : ℕ)
  | flush
  | discardPending
  | earliestStale
  /-- `seed_index_from_blocks_csv` with these blocks parts on disk -/
  | seed (files : PartFiles (Row H ρ))
  /-- a new process loads the parts -/
  | reload

/-- A store and the parts of `index.csv`. `staged` are the rows passed to `add` since the last
flush, discard or load; no code reads them. -/
structure IndexWorld (H : Type) where
  store : IndexStore H
  parts : List (IndexPart H)
  staged : List (IndexRow H)

namespace IndexWorld

variable [DecidableEq H]

/-- The store over the parts an older version left, which have no column `schema_version`. -/
def start (legacy : List (List (IndexRow H))) : IndexWorld H :=
  ⟨.load (legacy.map (IndexPart.mk false)), legacy.map (IndexPart.mk false), []⟩

/-- `add`. -/
def add (w : IndexWorld H) (r : IndexRow H) : IndexWorld H :=
  { w with
    store := w.store.add r.height r.blockhash r.previousblockhash r.schemaVersion
    staged := w.staged ++ [r] }

/-- `flush`. -/
def flush (isFull : IndexPart H → Bool) (w : IndexWorld H) : IndexWorld H :=
  ⟨w.store.flush, w.store.flushParts isFull w.parts, []⟩

/-- The row that the seeding adds for a blocks row. -/
def seeded (e : BlockEvent H ρ) : IndexRow H := ⟨e.height, e.hash, e.previousblockhash, 1⟩

omit [DecidableEq H] in
lemma seeded_old (e : BlockEvent H ρ) :
    (seeded e).schemaVersion < currentIndexSchemaVersion := Nat.lt_succ_self 1

/-- One call, or one reload. -/
def step (isFull : IndexPart H → Bool) (w : IndexWorld H) : IndexOp H ρ → IndexWorld H
  | .add height h previousblockhash v => w.add ⟨height, h, previousblockhash, v⟩
  | .flush => w.flush isFull
  | .discardPending => { w with store := w.store.discardPending, staged := [] }
  | .earliestStale => { w with store := w.store.earliestStale.2 }
  | .seed files =>
      let rows := seedRows files
      -- without any row nothing is flushed either
      if rows.isEmpty then w else ((rows.map seeded).foldl add w).flush isFull
  | .reload => ⟨.load w.parts, w.parts, []⟩

/-- The calls one after the other. -/
def run (isFull : IndexPart H → Bool) (legacy : List (List (IndexRow H)))
    (ops : List (IndexOp H ρ)) : IndexWorld H :=
  ops.foldl (step isFull) (start legacy)

omit [DecidableEq H] in
/-- The rows ever flushed: those on disk. -/
def flushed (w : IndexWorld H) : List (IndexRow H) := w.parts.flatMap IndexPart.read

/-- The store answers like a map from hashes to rows of the highest version. -/
structure MapView (w : IndexWorld H) : Prop where
  needsExport : ∀ h, w.store.needsExport h = false ↔ ∃ r ∈ w.flushed ++ w.staged,
    r.blockhash = h ∧ currentIndexSchemaVersion ≤ r.schemaVersion
  contains : ∀ h, w.store.contains h = true ↔ ∃ r ∈ w.flushed, r.blockhash = h
  isSome_get : ∀ h, (w.store.get h).isSome = w.store.contains h
  get : ∀ h r, w.store.get h = some r → r ∈ w.flushed ∧ r.blockhash = h
    ∧ ∀ r' ∈ w.flushed, r'.blockhash = h → r'.schemaVersion ≤ r.schemaVersion
  noneStale : w.store.earliestStale.1 = none
    ↔ ∀ h r, w.store.get h = some r → currentIndexSchemaVersion ≤ r.schemaVersion
  earliestStale : ∀ r, w.store.earliestStale.1 = some r →
    w.store.get r.blockhash = some r ∧ r.schemaVersion < currentIndexSchemaVersion
    ∧ ∀ h r', w.store.get h = some r' → r'.schemaVersion < currentIndexSchemaVersion →
      r.height ≤ r'.height
  reload : ∀ h, (IndexStore.load w.parts).get h = w.store.get h

/-- Nothing older than the current schema is staged. -/
def NoneStaleStaged (w : IndexWorld H) : Prop :=
  ∀ h r, w.store.pending.get? h = some r → currentIndexSchemaVersion ≤ r.schemaVersion

/-- No row of the current schema is added for a hash whose committed row is older; and once
`earliest_stale` has answered `None`, nothing older than the current schema is flushed. -/
def Keeps (w : IndexWorld H) : IndexOp H ρ → Prop
  | .add _ h _ v => currentIndexSchemaVersion ≤ v →
      ∀ r, w.store.get h = some r → currentIndexSchemaVersion ≤ r.schemaVersion
  | .flush => w.store.allCurrent = true → w.NoneStaleStaged
  | .seed files => w.store.allCurrent = true → seedRows files ≠ [] →
      w.NoneStaleStaged ∧ ∀ e ∈ seedRows files, w.store.Has e.hash
  | .discardPending => True
  | .earliestStale => True
  | .reload => True

/-! ### The invariant -/

/-- How the store, the parts and the staged rows hang together in a run that keeps the map. -/
structure Inv (w : IndexWorld H) : Prop where
  loaded : w.store.byHash = IndexStore.loadRows w.parts
  known : ∀ r ∈ w.flushed, ∃ e, w.store.byHash.get? r.blockhash = some e
  highest : ∀ h r, w.store.byHash.get? h = some r → r ∈ w.flushed ∧ r.blockhash = h
    ∧ ∀ r' ∈ w.flushed, r'.blockhash = h → r'.schemaVersion ≤ r.schemaVersion
  pending : ∀ h r, w.store.pending.get? h = some r → r ∈ w.staged ∧ r.blockhash = h
  newer : ∀ h r e, w.store.pending.get? h = some r → w.store.byHash.get? h = some e →
    e.schemaVersion < r.schemaVersion
  /-- a staged row is behind a current committed one, or behind the pending one -/
  staged : ∀ r ∈ w.staged, currentIndexSchemaVersion ≤ r.schemaVersion →
    ∃ e, w.store.row? r.blockhash = some e ∧ currentIndexSchemaVersion ≤ e.schemaVersion
  cached : w.store.allCurrent = true →
    ∀ h r, w.store.byHash.get? h = some r → currentIndexSchemaVersion ≤ r.schemaVersion

namespace Inv

variable {w : IndexWorld H} {isFull : IndexPart H → Bool}

/-- The invariant makes the store a map. -/
lemma mapView (hw : w.Inv) : w.MapView where
  needsExport h := by
    rw [IndexStore.needsExport_eq_false]
    refine ⟨fun ⟨r, hr, hv⟩ => ⟨r, ?_⟩, fun ⟨r, hr, hh, hv⟩ => ?_⟩
    -- the row is in the table, or staged
    · rcases Option.or_eq_some_iff.mp hr with hr | ⟨-, hr⟩
      · obtain ⟨hmem, hh, -⟩ := hw.highest h r hr
        exact ⟨List.mem_append_left _ hmem, hh, hv⟩
      · obtain ⟨hmem, hh⟩ := hw.pending h r hr
        exact ⟨List.mem_append_right _ hmem, hh, hv⟩
    · subst hh
      rcases List.mem_append.mp hr with hr | hr
      · obtain ⟨e, he⟩ := hw.known r hr
        refine ⟨e, ?_, hv.trans ((hw.highest _ e he).2.2 r hr rfl)⟩
        rw [IndexStore.row?, he, Option.some_or]
      · exact hw.staged r hr hv
  contains h := by
    rw [IndexStore.contains, Dict.contains_eq_true]
    constructor
    · rintro ⟨r, hr⟩
      exact ⟨r, (hw.highest h r hr).1, (hw.highest h r hr).2.1⟩
    · rintro ⟨r, hr, rfl⟩
      exact hw.known r hr
  isSome_get h := rfl
  get h r hr := hw.highest h r hr
  noneStale := by
    constructor
    · intro hnone h r hr
      -- `None` is the cached answer, or what a look at the rows gives
      rcases w.store.earliestStale_eq_none hnone with hcached | hrows
      · exact hw.cached hcached h r hr
      · by_contra hv
        have hmem : r ∈ w.store.staleRows := IndexStore.mem_staleRows.mpr ⟨⟨h, hr⟩, not_le.mp hv⟩
        rw [hrows] at hmem
        cases hmem
    · intro hall
      rw [Option.eq_none_iff_forall_ne_some]
      intro r hr
      obtain ⟨hmem, -⟩ := w.store.earliestStale_some hr
      obtain ⟨⟨h, hget⟩, hv⟩ := IndexStore.mem_staleRows.mp hmem
      exact absurd (hall h r hget) (not_le.mpr hv)
  earliestStale r hr := by
    obtain ⟨hmem, hlow⟩ := w.store.earliestStale_some hr
    obtain ⟨⟨h, hget⟩, hv⟩ := IndexStore.mem_staleRows.mp hmem
    obtain rfl := (hw.highest h r hget).2.1
    exact ⟨hget, hv, fun h' r' hr' hv' => hlow r' (IndexStore.mem_staleRows.mpr ⟨⟨h', hr'⟩, hv'⟩)⟩
  reload h := by
    rw [IndexStore.get, IndexStore.load_byHash, ← hw.loaded]
    rfl

/-- Adding a row keeps the invariant, unless the row is current and the committed one is not. -/
lemma add (hw : w.Inv) {r : IndexRow H} (hr : currentIndexSchemaVersion ≤ r.schemaVersion →
    ∀ e, w.store.get r.blockhash = some e → currentIndexSchemaVersion ≤ e.schemaVersion) :
    (w.add r).Inv := by
  have hcases := w.store.add_cases r.height r.blockhash r.previousblockhash r.schemaVersion
  -- a current row is not hidden by what is added
  have hrow : ∀ h e, w.store.row? h = some e → currentIndexSchemaVersion ≤ e.schemaVersion →
      ∃ e', (w.add r).store.row? h = some e' ∧ currentIndexSchemaVersion ≤ e'.schemaVersion := by
    intro h e he hv
    rcases hcases with ⟨-, -, -, hsame⟩ | ⟨hlt, hset⟩
    · exact ⟨e, by rw [IndexWorld.add, hsame, he], hv⟩
    · rw [IndexWorld.add, hset, IndexStore.row?, Dict.get?_set]
      split_ifs with hh
      · subst hh
        cases hb : w.store.byHash.get? r.blockhash with
        | some e' =>
            rw [IndexStore.row?, hb, Option.some_or] at he
            obtain rfl := Option.some.inj he
            exact ⟨e', Option.some_or, hv⟩
        | none => exact ⟨r, Option.none_or, hv.trans (hlt e he).le⟩
      · exact ⟨e, he, hv⟩
  exact {
    loaded := by
      rw [IndexWorld.add, IndexStore.add_byHash]
      exact hw.loaded
    known := by
      intro r' hr'
      rw [IndexWorld.add, IndexStore.add_byHash]
      exact hw.known r' hr'
    highest := by
      intro h r' hr'
      rw [IndexWorld.add, IndexStore.add_byHash] at hr'
      exact hw.highest h r' hr'
    pending := by
      intro h r' hr'
      rcases w.store.get?_pending_add hr' with hr' | ⟨rfl, rfl⟩
      · exact ⟨List.mem_append_left _ (hw.pending h r' hr').1, (hw.pending h r' hr').2⟩
      · exact ⟨List.mem_append_right _ (List.mem_singleton_self _), rfl⟩
    newer := by
      intro h r' e hr' he
      rw [IndexWorld.add, IndexStore.add_byHash] at he
      rcases hcases with ⟨-, -, -, hsame⟩ | ⟨hlt, hset⟩
      · rw [IndexWorld.add, hsame] at hr'
        exact hw.newer h r' e hr' he
      · rw [IndexWorld.add, hset, Dict.get?_set] at hr'
        split_ifs at hr' with hh
        · obtain rfl := Option.some.inj hr'
          refine hlt e ?_
          rw [IndexStore.row?, ← hh, he, Option.some_or]
        · exact hw.newer h r' e hr' he
    staged := by
      intro r' hr' hv
      rcases List.mem_append.mp hr' with hr' | hr'
      · obtain ⟨e, he, hve⟩ := hw.staged r' hr' hv
        exact hrow _ e he hve
      · obtain rfl := List.mem_singleton.mp hr'
        rcases hcases with ⟨e, he, hle, -⟩ | ⟨-, hset⟩
        · exact hrow _ e he (hv.trans hle)
        · rw [IndexWorld.add, hset, IndexStore.row?, Dict.get?_set_self]
          cases hb : w.store.byHash.get? r'.blockhash with
          | some e => exact ⟨e, Option.some_or, hr hv e hb⟩
          | none => exact ⟨r', Option.none_or, hv⟩
    cached := by
      intro hc h r' hr'
      rw [IndexWorld.add, IndexStore.add_allCurrent] at hc
      rw [IndexWorld.add, IndexStore.add_byHash] at hr'
      exact hw.cached hc h r' hr' }

/-- What a flush puts on disk. -/
lemma flushed_flush (w : IndexWorld H) :
    (w.flush isFull).flushed = w.flushed ++ w.store.pending.values := by
  rw [flushed, IndexWorld.flush, IndexStore.flushParts]
  split_ifs with hp
  · rw [w.store.pending_eq_empty_of_isEmpty hp, Dict.values_empty, List.append_nil]
    rfl
  · exact read_appendIndexRows isFull w.parts _

/-- A flush keeps the invariant, unless it flushes an old row behind the cached answer. -/
lemma flush (hw : w.Inv) (hk : w.store.allCurrent = true → w.NoneStaleStaged) :
    (w.flush isFull).Inv := by
  have hbyHash : (w.flush isFull).store.byHash = w.store.byHash.update w.store.pending :=
    w.store.flush_byHash
  have hpending : (w.flush isFull).store.pending = .empty := w.store.flush_pending
  have hvalues {r : IndexRow H} (hr : r ∈ w.store.pending.values) :
      w.store.pending.get? r.blockhash = some r := by
    obtain ⟨h, hh⟩ := Dict.mem_values_iff.mp hr
    rwa [(hw.pending h r hh).2]
  exact {
    loaded := by
      rw [hbyHash, hw.loaded]
      exact (w.store.loadRows_flushParts isFull w.parts fun h r hr => (hw.pending h r hr).2).symm
    known := by
      intro r hr
      rw [flushed_flush, List.mem_append] at hr
      rw [← Dict.contains_eq_true, hbyHash, Dict.contains_update]
      rcases hr with hr | hr
      · exact .inl (Dict.contains_eq_true.mpr (hw.known r hr))
      · exact .inr (Dict.contains_eq_true.mpr ⟨r, hvalues hr⟩)
    highest := by
      intro h r hr
      rw [hbyHash, Dict.get?_update] at hr
      rw [flushed_flush]
      -- a staged row takes the place of the row in the table, and is newer
      rcases Option.or_eq_some_iff.mp hr with hr | ⟨hnone, hr⟩
      · refine ⟨List.mem_append_right _ (Dict.mem_values_iff.mpr ⟨h, hr⟩), (hw.pending h r hr).2,
          fun r' hr' hh => ?_⟩
        subst hh
        rcases List.mem_append.mp hr' with hr' | hr'
        · obtain ⟨e, he⟩ := hw.known r' hr'
          exact ((hw.highest _ e he).2.2 r' hr' rfl).trans (hw.newer _ r e hr he).le
        · obtain rfl := Option.some.inj ((hvalues hr').symm.trans hr)
          exact le_rfl
      · obtain ⟨hmem, hh, hmax⟩ := hw.highest h r hr
        refine ⟨List.mem_append_left _ hmem, hh, fun r' hr' hh' => ?_⟩
        rcases List.mem_append.mp hr' with hr' | hr'
        · exact hmax r' hr' hh'
        · rw [← hh', hvalues hr'] at hnone
          cases hnone
    pending := by
      intro h r hr
      rw [hpending] at hr
      cases hr
    newer := by
      intro h r e hr
      rw [hpending] at hr
      cases hr
    staged := by
      intro r hr
      cases hr
    cached := by
      intro hc h r hr
      rw [IndexWorld.flush, IndexStore.flush_eq] at hc
      rw [hbyHash, Dict.get?_update] at hr
      rcases Option.or_eq_some_iff.mp hr with hr | ⟨-, hr⟩
      · exact hk hc h r hr
      · exact hw.cached hc h r hr }

/-- Without its staged rows the store keeps the invariant. -/
lemma cleared (hw : w.Inv) {b : Bool} (hb : b = true → w.store.allCurrent = true) :
    Inv ⟨⟨w.store.byHash, .empty, b⟩, w.parts, []⟩ where
  loaded := hw.loaded
  known := hw.known
  highest := hw.highest
  pending h r hr := by cases hr
  newer h r e hr := by cases hr
  staged r hr := by cases hr
  cached hc := hw.cached (hb hc)

lemma earliestStale (hw : w.Inv) : Inv { w with store := w.store.earliestStale.2 } where
  loaded := by
    rw [IndexStore.earliestStale_byHash]
    exact hw.loaded
  known := by
    rw [IndexStore.earliestStale_byHash]
    exact hw.known
  highest := by
    rw [IndexStore.earliestStale_byHash]
    exact hw.highest
  pending := by
    rw [IndexStore.earliestStale_pending]
    exact hw.pending
  newer := by
    rw [IndexStore.earliestStale_byHash, IndexStore.earliestStale_pending]
    exact hw.newer
  staged r hr hv := by
    rw [IndexStore.earliestStale_row?]
    exact hw.staged r hr hv
  cached hc h r hr := by
    rw [IndexStore.earliestStale_byHash] at hr
    rcases (IndexStore.earliestStale_allCurrent w.store).mp hc with hc | hrows
    · exact hw.cached hc h r hr
    · by_contra hv
      have hmem : r ∈ w.store.staleRows := IndexStore.mem_staleRows.mpr ⟨⟨h, hr⟩, not_le.mp hv⟩
      rw [hrows] at hmem
      cases hmem

/-- The rows of an older version all count as version 1. -/
lemma start (legacy : List (List (IndexRow H))) : Inv (IndexWorld.start legacy) where
  loaded := rfl
  known r hr := by
    have hget := IndexStore.get?_foldl_register (IndexWorld.start legacy).flushed .empty r.blockhash
    cases hf : (IndexWorld.start legacy).flushed.reverse.find? fun r' =>
        decide (r'.blockhash = r.blockhash) with
    | none => simpa using List.find?_eq_none.mp hf r (List.mem_reverse.mpr hr)
    | some e => exact ⟨e, hget.trans (by rw [hf, Option.some_or])⟩
  highest h r hr := by
    have hget := IndexStore.get?_foldl_register (IndexWorld.start legacy).flushed .empty h
    have hf := hget.symm.trans hr
    rw [Dict.get?_empty, Option.or_none] at hf
    have hversion : ∀ r' ∈ (IndexWorld.start legacy).flushed, r'.schemaVersion = 1 := by
      intro r' hr'
      obtain ⟨p, hp, hmem⟩ := List.mem_flatMap.mp hr'
      obtain ⟨rows, -, rfl⟩ := List.mem_map.mp hp
      obtain ⟨r₀, -, rfl⟩ := List.mem_map.mp hmem
      rfl
    have hmem := List.mem_reverse.mp (List.mem_of_find?_eq_some hf)
    have hh : r.blockhash = h := by simpa using List.find?_some hf
    refine ⟨hmem, hh, fun r' hr' _ => ?_⟩
    rw [hversion r' hr', hversion r hmem]
  pending h r hr := by cases hr
  newer h r e hr := by cases hr
  staged r hr := by cases hr
  cached hc := by cases hc

lemma addAll (hw : w.Inv) (rows : List (BlockEvent H ρ)) :
    ((rows.map seeded).foldl IndexWorld.add w).Inv := by
  induction rows generalizing w with
  | nil => exact hw
  | cons e rows ih => exact ih (hw.add fun hv => absurd hv (not_le.mpr (seeded_old e)))

end Inv

/-! ### Seeding -/

lemma allCurrent_addAll (w : IndexWorld H) (rows : List (BlockEvent H ρ)) :
    ((rows.map seeded).foldl add w).store.allCurrent = w.store.allCurrent := by
  induction rows generalizing w with
  | nil => rfl
  | cons e rows ih => exact (ih (w.add (seeded e))).trans (w.store.add_allCurrent _ _ _ _)

/-- Behind the cached answer, a row of version 1 is staged unless its hash is known. -/
lemma noneStaleStaged_add {w : IndexWorld H} (hw : w.Inv) (hc : w.store.allCurrent = true)
    (e : BlockEvent H ρ) :
    (w.add (seeded e)).NoneStaleStaged ↔ w.NoneStaleStaged ∧ w.store.Has e.hash := by
  rcases w.store.add_cases e.height e.hash e.previousblockhash 1 with
    ⟨e', he', -, hsame⟩ | ⟨hlt, hset⟩
  · have hstore : (w.add (seeded e)).store = w.store := hsame
    rw [NoneStaleStaged, hstore]
    exact ⟨fun hn => ⟨hn, IndexStore.has_iff.mpr ⟨e', he'⟩⟩, And.left⟩
  · have hstore : (w.add (seeded e)).store
        = { w.store with pending := w.store.pending.set e.hash (seeded e) } := hset
    constructor
    · intro hn
      have hversion := hn e.hash (seeded e) (by rw [hstore, Dict.get?_set_self])
      exact absurd hversion (not_le.mpr (seeded_old e))
    · rintro ⟨hn, hhas⟩
      obtain ⟨e', he'⟩ := IndexStore.has_iff.mp hhas
      have hold := hlt e' he'
      have hnew : currentIndexSchemaVersion ≤ e'.schemaVersion := by
        rcases Option.or_eq_some_iff.mp he' with he' | ⟨-, he'⟩
        · exact hw.cached hc _ _ he'
        · exact hn _ _ he'
      rw [currentIndexSchemaVersion] at hnew
      omega

lemma noneStaleStaged_addAll {w : IndexWorld H} (hw : w.Inv) (hc : w.store.allCurrent = true)
    (rows : List (BlockEvent H ρ)) :
    ((rows.map seeded).foldl add w).NoneStaleStaged
      ↔ w.NoneStaleStaged ∧ ∀ e ∈ rows, w.store.Has e.hash := by
  induction rows generalizing w with
  | nil => simp
  | cons e rows ih =>
      have hadd : (w.add (seeded e)).Inv := hw.addAll [e]
      have hhas {x : H} : (w.add (seeded e)).store.Has x ↔ x = e.hash ∨ w.store.Has x :=
        IndexStore.has_add
      rw [List.map_cons, List.foldl_cons, ih hadd ((w.store.add_allCurrent _ _ _ _).trans hc),
        noneStaleStaged_add hw hc, List.forall_mem_cons, and_assoc]
      refine and_congr_right fun _ => and_congr_right fun he => ?_
      refine forall₂_congr fun e' _ => ?_
      rw [hhas]
      exact ⟨fun h => h.elim (fun h => h ▸ he) id, .inr⟩

/-! ### Runs -/

section Runs

variable {w : IndexWorld H} (isFull : IndexPart H → Bool)

/-- What one call preserves. -/
lemma Inv.step (hw : w.Inv) {op : IndexOp H ρ} (hk : w.Keeps op) : (w.step isFull op).Inv := by
  cases op with
  | add n h p v => exact hw.add hk
  | flush => exact hw.flush hk
  | discardPending => exact hw.cleared id
  | earliestStale => exact hw.earliestStale
  | seed files =>
      rw [IndexWorld.step]
      split_ifs with hrows
      · exact hw
      · refine (hw.addAll _).flush fun hc => ?_
        rw [allCurrent_addAll] at hc
        have hne : seedRows files ≠ [] := fun he => hrows (List.isEmpty_iff.mpr he)
        exact (noneStaleStaged_addAll hw hc _).mpr (hk hc hne)
  | reload =>
      have hload : IndexStore.load w.parts = ⟨w.store.byHash, .empty, false⟩ := by
        rw [hw.loaded]
        rfl
      rw [IndexWorld.step, hload]
      exact hw.cleared fun hc => by cases hc

/-- A current row added over an old committed one is not seen. -/
lemma not_mapView_add {r e : IndexRow H} (hr : currentIndexSchemaVersion ≤ r.schemaVersion)
    (he : w.store.get r.blockhash = some e) (hold : e.schemaVersion < currentIndexSchemaVersion) :
    ¬ (w.add r).MapView := by
  intro hview
  have hneeds := (hview.needsExport r.blockhash).mpr
    ⟨r, List.mem_append_right _ (List.mem_append_right _ (List.mem_singleton_self r)), rfl, hr⟩
  obtain ⟨e', he', hv⟩ := (IndexStore.needsExport_eq_false _).mp hneeds
  rw [IndexStore.row?, add, IndexStore.add_byHash,
    show w.store.byHash.get? r.blockhash = some e from he, Option.some_or] at he'
  obtain rfl := Option.some.inj he'
  exact absurd hv (not_le.mpr hold)

/-- An old row flushed behind the cached answer is not found. -/
lemma not_mapView_flush (hc : w.store.allCurrent = true) (hn : ¬ w.NoneStaleStaged) :
    ¬ (w.flush isFull).MapView := by
  intro hview
  refine hn fun h r hr => ?_
  have hflush : (w.flush isFull).store = ⟨w.store.byHash.update w.store.pending, .empty, true⟩ := by
    rw [flush, IndexStore.flush_eq, hc]
  refine hview.noneStale.mp ?_ h r ?_
  · rw [hflush]
    rfl
  · rw [hflush, IndexStore.get, Dict.get?_update, hr, Option.some_or]

/-- A call that does not meet the condition breaks the map. -/
lemma Inv.not_mapView_step (hw : w.Inv) {op : IndexOp H ρ} (hk : ¬ w.Keeps op) :
    ¬ (w.step isFull op).MapView := by
  cases op with
  | add n h p v =>
      simp only [Keeps, not_forall, not_le] at hk
      obtain ⟨hv, e, he, hold⟩ := hk
      exact not_mapView_add hv he hold
  | flush =>
      obtain ⟨hc, hn⟩ := Classical.not_imp.mp hk
      exact not_mapView_flush isFull hc hn
  | seed files =>
      obtain ⟨hc, hk⟩ := Classical.not_imp.mp hk
      obtain ⟨hne, hn⟩ := Classical.not_imp.mp hk
      rw [IndexWorld.step]
      simp only [List.isEmpty_eq_false_iff.mpr hne]
      refine not_mapView_flush isFull ((allCurrent_addAll w _).trans hc) fun hall => hn ?_
      exact (noneStaleStaged_addAll hw hc _).mp hall
  | discardPending => exact absurd trivial hk
  | earliestStale => exact absurd trivial hk
  | reload => exact absurd trivial hk

variable (legacy : List (List (IndexRow H)))

lemma run_concat (ops : List (IndexOp H ρ)) (op : IndexOp H ρ) :
    run isFull legacy (ops ++ [op]) = (run isFull legacy ops).step isFull op :=
  List.foldl_concat ..

/-- What a run of such calls preserves. -/
lemma inv_run {ops : List (IndexOp H ρ)}
    (hk : ∀ pre op, pre ++ [op] <+: ops → (run isFull legacy pre).Keeps op) :
    (run isFull legacy ops).Inv := by
  induction ops using List.reverseRecOn with
  | nil => exact Inv.start legacy
  | append_singleton ops op ih =>
      rw [run_concat]
      have hinv := ih fun pre op' hpre => hk pre op' (hpre.trans (List.prefix_append _ _))
      exact hinv.step isFull (hk ops op (List.prefix_refl _))

/-- A run that is a map all along keeps the invariant. -/
lemma inv_run_of_mapView {ops : List (IndexOp H ρ)}
    (hview : ∀ pre, pre <+: ops → (run isFull legacy pre).MapView) :
    (run isFull legacy ops).Inv := by
  induction ops using List.reverseRecOn with
  | nil => exact Inv.start legacy
  | append_singleton ops op ih =>
      have hinv := ih fun pre hpre => hview pre (hpre.trans (List.prefix_append _ _))
      have hlast := hview (ops ++ [op]) (List.prefix_refl _)
      rw [run_concat] at hlast ⊢
      refine hinv.step isFull ?_
      by_contra hk
      exact hinv.not_mapView_step isFull hk hlast

/-- **The index store as a map**: in every state of a run it answers like a map from hashes to
rows of the highest version if and only if no call of the run adds a current row over an old
committed one, or flushes an old row after `earliest_stale` has answered `None`. -/
theorem mapView_iff (ops : List (IndexOp H ρ)) :
    (∀ pre, pre <+: ops → (run isFull legacy pre).MapView)
      ↔ ∀ pre op, pre ++ [op] <+: ops → (run isFull legacy pre).Keeps op := by
  constructor
  · intro hview pre op hpre
    have hinv := inv_run_of_mapView isFull legacy fun pre' hpre' =>
      hview pre' ((hpre'.trans (List.prefix_append pre [op])).trans hpre)
    by_contra hk
    have hlast := hview _ hpre
    rw [run_concat] at hlast
    exact hinv.not_mapView_step isFull hk hlast
  · intro hk pre hpre
    refine (inv_run isFull legacy fun pre' op hpre' => ?_).mapView
    exact hk pre' op (hpre'.trans hpre)

end Runs

/-- A block of an older version is exported again, and its new row is staged. -/
def addedOverOld : IndexWorld ℕ :=
  @run ℕ Unit _ (fun _ => false) [[⟨0, 7, none, 1⟩]] [.add 0 7 none 2]

/-- Blocks are seeded after `earliest_stale` has answered. -/
def flushedBehindAnswer : IndexWorld ℕ :=
  @run ℕ Unit _ (fun _ => false) [] [.earliestStale, .add 0 7 none 1, .flush]

/-- The staged row is not seen in the one, the old row not found in the other. -/
theorem mapView_twoFailures :
    (addedOverOld.store.needsExport 7 = true ∧ ⟨0, 7, none, 2⟩ ∈ addedOverOld.staged
      ∧ ¬ addedOverOld.MapView)
    ∧ flushedBehindAnswer.store.get 7 = some ⟨0, 7, none, 1⟩
      ∧ flushedBehindAnswer.store.earliestStale.1 = none ∧ ¬ flushedBehindAnswer.MapView := by
  have hneeds : addedOverOld.store.needsExport 7 = true := rfl
  have hstaged : ⟨0, 7, none, 2⟩ ∈ addedOverOld.staged := List.mem_singleton_self _
  have hget : flushedBehindAnswer.store.get 7 = some ⟨0, 7, none, 1⟩ := rfl
  have hnone : flushedBehindAnswer.store.earliestStale.1 = none := rfl
  refine ⟨⟨hneeds, hstaged, fun hview => ?_⟩, hget, hnone, fun hview => ?_⟩
  · have hfalse := (hview.needsExport 7).mpr ⟨_, List.mem_append_right _ hstaged, rfl, le_rfl⟩
    rw [hneeds] at hfalse
    cases hfalse
  · exact absurd (hview.noneStale.mp hnone 7 _ hget) (by decide)

end IndexWorld

end BtcParser
