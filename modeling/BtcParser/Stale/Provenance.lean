import BtcParser.Stale.Sightings

/-!
Where the headers on record come from.

* `Event` is one call of `_ingest_sighting` with any arguments, a flush, or a restart that reads
  `registry.csv` back as it was written; a step of the pipeline is a sequence of them
  (`events_of_next`).
* `supplier` is the sighting that supplied the header of a hash, from the history of sightings.
* `headerHex_ingest` and `source_ingest` say what a sighting makes of the header and of the source
  of an entry: the header is filled in when it is missing, the source never changes.
* `provenance_iff`: the column `source` is right as long as no header arrives for an entry that
  another source created without one, and after such a sighting it is wrong.
-/

namespace BtcParser

namespace StaleBlocks

variable (sha256 : List UInt8 → List UInt8)

/-! ### Histories -/

/-- What can happen to the registry. -/
inductive Event where
  | sighting (height : ℤ) (blockhash : List Char) (headerHex : Option (List Char))
      (source : StaleSource) (chaintipStatus : Option ChainTipStatus) (branchlen : Option ℤ)
  | flush
  | restart

/-- The state and all sightings so far. -/
structure History where
  state : State
  sightings : List StaleBlockEntry

/-- The history after an event. -/
def nextEvent (k : History) : Event → History
  | .sighting height blockhash headerHex source chaintipStatus branchlen =>
      let seen := sighting sha256 height blockhash headerHex source chaintipStatus branchlen
      ⟨ingestSighting k.state seen, k.sightings ++ [seen]⟩
  | .flush => ⟨k.state.flush, k.sightings⟩
  | .restart => ⟨{ k.state with registry := .ofRows k.state.file }, k.sightings⟩

/-- The histories that start on empty directories. -/
def historySystem : TransitionSystem History Event where
  init k := k = ⟨.fresh, []⟩
  step i k k' := nextEvent sha256 k i = k'

/-- The sighting that supplied the header of a hash: the first one that had it. -/
def supplier (sightings : List StaleBlockEntry) (blockhash : List Char) : Option StaleBlockEntry :=
  sightings.find? fun seen => decide (seen.blockhash = blockhash) && truthy seen.headerHex

/-- An entry with a header, and a row with one, name the source that supplied it. -/
structure Provenance (k : History) : Prop where
  entries : ∀ bh e, k.state.registry.get bh = some e → truthy e.headerHex = true →
    ∃ seen, supplier k.sightings bh = some seen ∧ e.headerHex = seen.headerHex
      ∧ e.source = seen.source
  rows : ∀ r ∈ k.state.exported, r.status = .headerOnly →
    ∃ seen, supplier k.sightings r.hash = some seen ∧ r.headerHex = seen.headerHex
      ∧ r.source = seen.source

/-- No valid header arrives for an entry without one that has another source. -/
def Attributed : Event → History → Prop
  | .sighting _ blockhash headerHex source _ _, k =>
      validateHeaderHash sha256 headerHex blockhash = true →
        ∀ e, k.state.registry.get blockhash = some e →
          truthy e.headerHex = true ∨ e.source = source
  | _, _ => True

/-! ### One sighting -/

variable {sha256}

/-- The hash and the source of an entry stay, and its header is filled in when it is missing. -/
lemma columns_updated (existing seen : StaleBlockEntry) :
    (StaleBlockRegistry.updated existing seen).1.blockhash = existing.blockhash
      ∧ (StaleBlockRegistry.updated existing seen).1.source = existing.source
      ∧ (StaleBlockRegistry.updated existing seen).1.headerHex
        = if truthy seen.headerHex && !truthy existing.headerHex then seen.headerHex
          else existing.headerHex := by
  simp only [StaleBlockRegistry.updated]
  split_ifs <;> exact ⟨rfl, rfl, rfl⟩

lemma blockhash_upsertSighting (r : StaleBlockRegistry) (seen : StaleBlockEntry) :
    (r.upsertSighting seen).2.blockhash = seen.blockhash := by
  rw [StaleBlockRegistry.upsertSighting]
  cases hget : r.get seen.blockhash with
  | none => rfl
  | some e => exact (columns_updated e seen).1.trans (Keyed.key_of_get hget)

lemma get_upsertSighting (r : StaleBlockRegistry) (seen : StaleBlockEntry) (bh : List Char) :
    (r.upsertSighting seen).1.get bh
      = if bh = seen.blockhash then some (r.upsertSighting seen).2 else r.get bh := by
  have hkey := blockhash_upsertSighting r seen
  rw [StaleBlockRegistry.upsertSighting] at hkey ⊢
  cases hget : r.get seen.blockhash with
  | none => exact Keyed.get_put _ _ _
  | some e =>
      simp only [hget] at hkey ⊢
      rw [StaleBlockRegistry.get, Keyed.get_put, hkey]
      rfl

lemma get_flush (s : State) (bh : List Char) : s.flush.registry.get bh = s.registry.get bh := by
  rw [State.flush]
  split_ifs <;> rfl

/-- A column that marking an export does not touch. -/
def Unmarked {α : Type} (φ : StaleBlockEntry → α) : Prop :=
  ∀ e st, φ { e with lastExportedStatus := st } = φ e

lemma map_get_mark {α : Type} {φ : StaleBlockEntry → α} (hφ : Unmarked φ)
    (r : StaleBlockRegistry) (blockhash : List Char) (st : StaleStatus) (bh : List Char) :
    ((r.markHeaderStatusExported blockhash st).get bh).map φ = (r.get bh).map φ := by
  rw [StaleBlockRegistry.markHeaderStatusExported]
  cases hget : r.get blockhash with
  | none => rfl
  | some e =>
      simp only
      split_ifs with hne
      · have hkey : e.blockhash = blockhash := Keyed.key_of_get hget
        rw [StaleBlockRegistry.get, Keyed.get_put]
        by_cases hbh : bh = blockhash
        · rw [if_pos (hbh.trans hkey.symm), hbh, hget, Option.map_some, Option.map_some, hφ]
        · rw [if_neg fun hb => hbh (hb.trans hkey)]
          rfl
      · rfl

/-- After a sighting the entry of its hash is the one that `upsert_sighting` returns. -/
lemma map_get_ingest {α : Type} (φ : StaleBlockEntry → α) (hφ : Unmarked φ) (s : State)
    (seen : StaleBlockEntry) (bh : List Char) :
    ((ingestSighting s seen).registry.get bh).map φ
      = if bh = seen.blockhash then some (φ (s.registry.upsertSighting seen).2)
        else (s.registry.get bh).map φ := by
  have hingest : ((ingestSighting s seen).registry.get bh).map φ
      = ((s.registry.upsertSighting seen).1.get bh).map φ := by
    rw [ingestSighting]
    simp only
    split_ifs with hnew
    · rw [get_flush]
      exact map_get_mark hφ _ _ _ _
    · rfl
  rw [hingest, get_upsertSighting]
  split_ifs <;> rfl

lemma EntryOk.truthy_eq {e : StaleBlockEntry} (h : EntryOk sha256 e) :
    truthy e.headerHex = e.headerHex.isSome := by
  rw [EntryOk] at h
  cases hst : e.status with
  | unusable =>
      rw [hst] at h
      rw [show e.headerHex = none from h]
      rfl
  | headerOnly =>
      rw [hst] at h
      obtain ⟨hex, hhex, hof⟩ := h
      rw [hhex, truthy_of_header hof, Option.isSome_some]

/-- The header of a hash that is on record, or the one that comes in. -/
lemma headerHex_ingest {s : State} (hs : ∀ h e, s.registry.get h = some e → EntryOk sha256 e)
    {seen : StaleBlockEntry} (hseen : EntryOk sha256 seen) (bh : List Char) :
    ((ingestSighting s seen).registry.get bh).bind (·.headerHex)
      = ((s.registry.get bh).bind (·.headerHex)).or
        (if bh = seen.blockhash then seen.headerHex else none) := by
  have hjoin (o : Option StaleBlockEntry) :
      o.bind (·.headerHex) = (o.map (·.headerHex)).join := by
    cases o <;> rfl
  rw [hjoin, hjoin, map_get_ingest _ fun _ _ => rfl]
  split_ifs with hbh
  · rw [StaleBlockRegistry.upsertSighting, hbh]
    cases hget : s.registry.get seen.blockhash with
    | none => rfl
    | some e =>
        have hcol := (columns_updated e seen).2.2
        rw [(hs _ e hget).truthy_eq, hseen.truthy_eq] at hcol
        refine (congrArg (Option.join ∘ some) hcol).trans ?_
        cases he : e.headerHex <;> cases seen.headerHex <;> simp [he]
  · rw [Option.or_none]

/-- The source of a hash that is on record, or the one that comes in. -/
lemma source_ingest (s : State) (seen : StaleBlockEntry) (bh : List Char) :
    ((ingestSighting s seen).registry.get bh).map (·.source)
      = ((s.registry.get bh).map (·.source)).or
        (if bh = seen.blockhash then some seen.source else none) := by
  rw [map_get_ingest _ fun _ _ => rfl]
  split_ifs with hbh
  · rw [StaleBlockRegistry.upsertSighting, hbh]
    cases hget : s.registry.get seen.blockhash with
    | none => rfl
    | some e => exact congrArg some (columns_updated e seen).2.1
  · rw [Option.or_none]

/-- At most the row of the entry that `upsert_sighting` returns is exported. -/
lemma exported_ingest_eq (s : State) (seen : StaleBlockEntry) :
    (ingestSighting s seen).exported = s.exported
      ∨ (ingestSighting s seen).exported
        = s.exported ++ [headerEvent (s.registry.upsertSighting seen).2] := by
  rw [ingestSighting]
  simp only
  split_ifs
  · exact .inr (exported_flush _)
  · exact .inl rfl

lemma ingestSighting_work (s : State) (work : Work) (seen : StaleBlockEntry) :
    ingestSighting { s with work := work } seen = { ingestSighting s seen with work := work } := by
  simp only [ingestSighting, State.flush]
  split_ifs <;> rfl

lemma truthy_sighting (height : ℤ) (blockhash : List Char) (headerHex : Option (List Char))
    (source : StaleSource) (chaintipStatus : Option ChainTipStatus) (branchlen : Option ℤ) :
    truthy (sighting sha256 height blockhash headerHex source chaintipStatus branchlen).headerHex
      = validateHeaderHash sha256 headerHex blockhash := by
  by_cases hv : validateHeaderHash sha256 headerHex blockhash = true
  · obtain ⟨hex, rfl, hof⟩ := (validateHeaderHash_iff sha256 headerHex blockhash).mp hv
    simp [sighting, truthy_of_header hof, hv]
  · simp [sighting, Bool.eq_false_iff.mpr hv, truthy]

/-! ### Runs -/

lemma supplier_append (l : List StaleBlockEntry) (seen : StaleBlockEntry) (bh : List Char) :
    supplier (l ++ [seen]) bh
      = (supplier l bh).or
        (if bh = seen.blockhash ∧ truthy seen.headerHex = true then some seen else none) := by
  rw [supplier, List.find?_append, List.find?_singleton]
  by_cases hs : bh = seen.blockhash ∧ truthy seen.headerHex = true
  · rw [if_pos hs, if_pos (by simp [hs])]
    rfl
  · have hs' : ¬ (decide (seen.blockhash = bh) && truthy seen.headerHex) = true := fun hc => by
      rw [Bool.and_eq_true, decide_eq_true_eq] at hc
      exact hs ⟨hc.1.symm, hc.2⟩
    rw [if_neg hs, if_neg hs']
    rfl

lemma truthy_supplier {l : List StaleBlockEntry} {bh : List Char} {seen : StaleBlockEntry}
    (h : supplier l bh = some seen) : truthy seen.headerHex = true := by
  have := List.find?_some h
  simp only [Bool.and_eq_true] at this
  exact this.2

variable (sha256) in
/-- The registry has the headers that were supplied, and its file has its sources. -/
structure Held (k : History) : Prop where
  base : Inv sha256 { k.state with work := .nodePoll [] }
  header : ∀ bh, (k.state.registry.get bh).bind (·.headerHex)
    = (supplier k.sightings bh).bind (·.headerHex)
  onDisk : ∀ bh, (k.state.onDisk bh).map (·.source) = (k.state.registry.get bh).map (·.source)

/-- A sighting keeps the headers and sources in step. -/
lemma Held.sighting {k : History} (hk : Held sha256 k) {seen : StaleBlockEntry}
    (hseen : EntryOk sha256 seen) (hlast : seen.lastExportedStatus = none) :
    Held sha256 ⟨ingestSighting k.state seen, k.sightings ++ [seen]⟩ := by
  have hsight := sighted_ingest (s := { k.state with work := .nodePoll [] }) hk.base.entries
    hseen hlast
  rw [ingestSighting_work] at hsight
  refine ⟨hk.base.sighted hsight nofun, fun bh => ?_, fun bh => ?_⟩
  · have hheader := headerHex_ingest (s := k.state) (fun h e he => (hk.base.entries h e he).1)
      hseen bh
    rw [hheader, hk.header, supplier_append]
    cases hsup : supplier k.sightings bh with
    | none =>
        simp only [Option.bind_none, Option.none_or, hseen.truthy_eq]
        cases hx : seen.headerHex <;> split_ifs <;> simp_all
    | some s₀ =>
        have := truthy_supplier hsup
        cases hx : s₀.headerHex with
        | none => simp [hx, truthy] at this
        | some hex => simp [hx]
  · cases hsight with
    | @quiet e _ he hget hcore hclean hfile hexp =>
        have hsame : (ingestSighting k.state seen).onDisk bh = k.state.onDisk bh := by
          rw [State.onDisk, State.onDisk, show (ingestSighting k.state seen).file = _ from hfile]
        rw [hsame, hk.onDisk, source_ingest]
        by_cases hbh : bh = seen.blockhash
        · rw [hbh, show k.state.registry.get seen.blockhash = some e from he, Option.map_some,
            Option.some_or]
        · rw [if_neg hbh, Option.or_none]
    | told hhash hok hnew hget hclean hdisk hnodup hexp => exact congrArg _ (hdisk bh)

/-- Every event keeps them in step. -/
lemma Held.next {k : History} (hk : Held sha256 k) (i : Event) :
    Held sha256 (nextEvent sha256 k i) := by
  cases i with
  | sighting height blockhash headerHex source chaintipStatus branchlen =>
      exact hk.sighting (entryOk_sighting _ _ _ _ _ _) rfl
  | flush =>
      have hflush : Inv sha256 { k.state.flush with work := .nodePoll [] } := by
        have := hk.base.flush.1
        rw [State.flush] at this ⊢
        split_ifs at this ⊢ <;> exact this
      refine ⟨hflush, fun bh => ?_, fun bh => ?_⟩
      · show (k.state.flush.registry.get bh).bind _ = _
        rw [get_flush, hk.header]
        rfl
      · show (k.state.flush.onDisk bh).map _ = (k.state.flush.registry.get bh).map _
        rw [get_flush, ← hk.onDisk, State.flush]
        split_ifs
        · rw [hk.onDisk]
          exact congrArg _ (get_load_rows _ _)
        · rfl
  | restart =>
      have hload := hk.base.restart
      refine ⟨hload.work fun hidle => Work.noConfusion hidle, fun bh => ?_, fun _ => rfl⟩
      have hcore := hk.base.core bh
      have hheader : (k.state.onDisk bh).bind (·.headerHex)
          = (k.state.registry.get bh).bind (·.headerHex) := by
        have hjoin (o : Option StaleBlockEntry) :
            o.bind (·.headerHex) = (o.map coreOf).bind (·.2.1) := by
          cases o <;> rfl
        rw [hjoin, hjoin]
        exact congrArg (fun o => Option.bind o (·.2.1)) hcore
      exact hheader.trans (hk.header bh)

/-- An entry whose header was supplied has the source of the sighting. -/
def Sourced (k : History) : Prop :=
  ∀ bh e seen, k.state.registry.get bh = some e → supplier k.sightings bh = some seen →
    e.source = seen.source

/-- The entry of a hash whose header was supplied has that header. -/
lemma Held.of_supplier {k : History} (hk : Held sha256 k) {bh : List Char}
    {seen : StaleBlockEntry} (h : supplier k.sightings bh = some seen) :
    ∃ e, k.state.registry.get bh = some e ∧ e.headerHex = seen.headerHex := by
  have hheader := hk.header bh
  have ht := truthy_supplier h
  rw [h, Option.bind_some] at hheader
  cases hx : seen.headerHex with
  | none => simp [hx, truthy] at ht
  | some hex =>
      rw [hx] at hheader
      obtain ⟨e, he, hhex⟩ := Option.bind_eq_some_iff.mp hheader
      exact ⟨e, he, hhex⟩

lemma Held.supplier_of {k : History} (hk : Held sha256 k) {bh : List Char} {e : StaleBlockEntry}
    (he : k.state.registry.get bh = some e) (ht : truthy e.headerHex = true) :
    ∃ seen, supplier k.sightings bh = some seen ∧ e.headerHex = seen.headerHex := by
  have hheader := hk.header bh
  rw [he, Option.bind_some] at hheader
  cases hx : e.headerHex with
  | none => simp [hx, truthy] at ht
  | some hex =>
      rw [hx] at hheader
      obtain ⟨seen, hsup, hhex⟩ := Option.bind_eq_some_iff.mp hheader.symm
      exact ⟨seen, hsup, hhex.symm⟩

/-- A sighting that is attributed keeps the sources. -/
lemma Sourced.sighting {k : History} (hk : Held sha256 k) (hs : Sourced k)
    (seen : StaleBlockEntry)
    (ha : truthy seen.headerHex = true → ∀ e, k.state.registry.get seen.blockhash = some e →
      truthy e.headerHex = true ∨ e.source = seen.source) :
    Sourced ⟨ingestSighting k.state seen, k.sightings ++ [seen]⟩ := by
  intro bh e' seen' he' hsup'
  have hsource := source_ingest k.state seen bh
  rw [show (ingestSighting k.state seen).registry.get bh = some e' from he'] at hsource
  rw [supplier_append] at hsup'
  cases hsup : supplier k.sightings bh with
  | some s₀ =>
      obtain ⟨e, he, -⟩ := hk.of_supplier hsup
      rw [hsup, Option.some_or, Option.some.injEq] at hsup'
      rw [he, Option.map_some, Option.map_some, Option.some_or, Option.some.injEq] at hsource
      rw [hsource, hs bh e s₀ he hsup, hsup']
  | none =>
      rw [hsup, Option.none_or, Option.ite_none_right_eq_some] at hsup'
      obtain ⟨⟨rfl, ht⟩, hseen'⟩ := hsup'
      obtain rfl := Option.some.inj hseen'
      cases hget : k.state.registry.get seen.blockhash with
      | none =>
          rw [hget, Option.map_none, Option.none_or, if_pos rfl, Option.map_some,
            Option.some.injEq] at hsource
          exact hsource
      | some e =>
          rw [hget, Option.map_some, Option.map_some, Option.some_or, Option.some.injEq] at hsource
          rcases ha ht e hget with hte | hsrc
          · obtain ⟨s₀, hs₀, -⟩ := hk.supplier_of hget hte
            rw [hsup] at hs₀
            cases hs₀
          · rw [hsource, hsrc]

/-- The exported rows with a header name the source that supplied it. -/
def RowsSourced (k : History) : Prop :=
  ∀ r ∈ k.state.exported, r.status = .headerOnly →
    ∃ seen, supplier k.sightings r.hash = some seen ∧ r.headerHex = seen.headerHex
      ∧ r.source = seen.source

/-- What is exported after a sighting is right if the entries are. -/
lemma RowsSourced.sighting {k : History} {seen : StaleBlockEntry} (hr : RowsSourced k)
    (hk' : Held sha256 ⟨ingestSighting k.state seen, k.sightings ++ [seen]⟩)
    (hs' : Sourced ⟨ingestSighting k.state seen, k.sightings ++ [seen]⟩) :
    RowsSourced ⟨ingestSighting k.state seen, k.sightings ++ [seen]⟩ := by
  have hold : ∀ r ∈ k.state.exported, r.status = .headerOnly →
      ∃ s₀, supplier (k.sightings ++ [seen]) r.hash = some s₀ ∧ r.headerHex = s₀.headerHex
        ∧ r.source = s₀.source := by
    intro r hmem hst
    obtain ⟨s₀, hsup, h⟩ := hr r hmem hst
    exact ⟨s₀, by rw [supplier_append, hsup, Option.some_or], h⟩
  intro r hmem hst
  rcases exported_ingest_eq k.state seen with hexp | hexp
  · exact hold r (hexp ▸ hmem) hst
  · have hnew : r ∈ k.state.exported ++ [headerEvent (k.state.registry.upsertSighting seen).2] :=
      hexp ▸ hmem
    rcases List.mem_append.mp hnew with hmem' | hmem'
    · exact hold r hmem' hst
    · have hok := hk'.base.rows r hmem
      obtain rfl := List.mem_singleton.mp hmem'
      -- the row is the one of the entry that is now on record
      have hget := map_get_ingest (fun e => (e.headerHex, e.source)) (fun _ _ => rfl) k.state
        seen seen.blockhash
      rw [if_pos rfl] at hget
      obtain ⟨e, he, hcol⟩ := Option.map_eq_some_iff.mp hget
      obtain ⟨hhex, hsrc⟩ := Prod.mk.inj hcol
      rw [RowOk, hst] at hok
      obtain ⟨hex, -, -, hx, hof, -⟩ := hok
      have ht : truthy e.headerHex = true := by
        rw [hhex, show (k.state.registry.upsertSighting seen).2.headerHex = some hex from hx]
        exact truthy_of_header hof
      obtain ⟨s₀, hsup, hh⟩ := hk'.supplier_of he ht
      refine ⟨s₀, ?_, hhex.symm.trans hh, hsrc.symm.trans (hs' _ e s₀ he hsup)⟩
      rw [← hsup]
      exact congrArg _ (blockhash_upsertSighting _ _)

/-- What leaves the sources alone leaves them right. -/
lemma Sourced.congr {k : History} (hs : Sourced k) {s : State}
    (h : ∀ bh, (s.registry.get bh).map (·.source) = (k.state.registry.get bh).map (·.source)) :
    Sourced ⟨s, k.sightings⟩ := by
  intro bh e seen he hsup
  have hsource := h bh
  rw [show s.registry.get bh = some e from he, Option.map_some] at hsource
  obtain ⟨e₀, he₀, hsrc⟩ := Option.map_eq_some_iff.mp hsource.symm
  rw [← hsrc]
  exact hs bh e₀ seen he₀ hsup

/-- Nothing is on record, and nothing was sighted. -/
lemma held_fresh : Held sha256 ⟨.fresh, []⟩ :=
  ⟨inv_fresh.work nofun, fun _ => rfl, fun _ => rfl⟩

/-- The registry has what was supplied in every history. -/
lemma held_of_reach {allowed : Event → History → Prop} {k : History}
    (hk : (historySystem sha256).Reach allowed k) : Held sha256 k := by
  refine hk.invariant (fun k h0 => ?_) fun k k' i hheld _ hstep => ?_
  · obtain rfl : k = ⟨.fresh, []⟩ := h0
    exact held_fresh
  · obtain rfl : nextEvent sha256 k i = k' := hstep
    exact hheld.next i

/-- The sources are right in every history whose events are all attributed. -/
lemma sourced_of_attributed {k : History}
    (hk : (historySystem sha256).Reach (Attributed sha256) k) :
    Held sha256 k ∧ Sourced k ∧ RowsSourced k := by
  refine hk.invariant (I := fun k => Held sha256 k ∧ Sourced k ∧ RowsSourced k)
    (fun k h0 => ?_) fun k k' i hI ha hstep => ?_
  · obtain rfl : k = ⟨.fresh, []⟩ := h0
    exact ⟨held_fresh, fun _ _ _ he => (nomatch he), fun _ hr => (nomatch hr)⟩
  · obtain rfl : nextEvent sha256 k i = k' := hstep
    obtain ⟨hheld, hs, hr⟩ := hI
    have hheld' := hheld.next i
    cases i with
    | sighting height blockhash headerHex source chaintipStatus branchlen =>
        have hs' := hs.sighting hheld (StaleBlocks.sighting sha256 height blockhash headerHex
          source chaintipStatus branchlen) fun ht => ha (by rwa [truthy_sighting] at ht)
        exact ⟨hheld', hs', hr.sighting hheld' hs'⟩
    | flush =>
        refine ⟨hheld', hs.congr fun bh => by rw [get_flush], fun r hmem => hr r ?_⟩
        rwa [← exported_flush]
    | restart => exact ⟨hheld', hs.congr hheld.onDisk, hr⟩

/-- **The source of a header**: as long as no valid header arrives for an entry without one that has
another source, every entry and every exported row with a header names the source that supplied it;
and in whatever history such a header arrives, the entry then names the wrong one. -/
theorem provenance_iff (sha256 : List UInt8 → List UInt8) :
    (∀ k, (historySystem sha256).Reach (Attributed sha256) k → Provenance k)
      ∧ ∀ k, (historySystem sha256).Reach anyStep k → ∀ i, ¬ Attributed sha256 i k →
        ¬ Provenance (nextEvent sha256 k i) := by
  refine ⟨fun k hk => ?_, fun k hk i hi hp => ?_⟩
  · obtain ⟨hheld, hs, hr⟩ := sourced_of_attributed hk
    refine ⟨fun bh e he ht => ?_, hr⟩
    obtain ⟨seen, hsup, hhex⟩ := hheld.supplier_of he ht
    exact ⟨seen, hsup, hhex, hs bh e seen he hsup⟩
  · have hheld := held_of_reach hk
    cases i with
    | sighting height blockhash headerHex source chaintipStatus branchlen =>
        simp only [Attributed, not_forall, not_or] at hi
        obtain ⟨hvalid, e, he, hte, hne⟩ := hi
        let seen := StaleBlocks.sighting sha256 height blockhash headerHex source chaintipStatus
          branchlen
        have hseen : truthy seen.headerHex = true := (truthy_sighting _ _ _ _ _ _).trans hvalid
        have hsup : supplier (k.sightings ++ [seen]) blockhash = some seen := by
          rw [supplier_append, if_pos ⟨rfl, hseen⟩]
          cases hold : supplier k.sightings blockhash with
          | none => rfl
          | some s₀ =>
              obtain ⟨e₀, he₀, hhex⟩ := hheld.of_supplier hold
              obtain rfl := Option.some.inj (he.symm.trans he₀)
              exact absurd (hhex ▸ truthy_supplier hold) hte
        obtain ⟨e', he', hhex⟩ := (hheld.next (.sighting height blockhash headerHex source
          chaintipStatus branchlen)).of_supplier hsup
        have hsource := source_ingest k.state seen blockhash
        rw [show (ingestSighting k.state seen).registry.get blockhash = some e' from he',
          he] at hsource
        obtain ⟨seen', hsup', -, hsrc⟩ := hp.entries blockhash e' he' (hhex ▸ hseen)
        obtain rfl := Option.some.inj (hsup.symm.trans hsup')
        exact hne ((Option.some.inj hsource).symm.trans hsrc)
    | flush => exact hi trivial
    | restart => exact hi trivial

/-- A tip whose header could not be fetched. -/
def genesisTip : Event := .sighting 0 genesisHash none .ownNode (some .headersOnly) (some 0)

/-- Its row in the dataset. -/
def genesisRow : Event := .sighting 0 genesisHash (some (toHex genesisRaw)) .github none none

/-- The row comes first, and is named as the source. -/
theorem provenance_iff_rowFirst :
    ∃ k, (historySystem genesisSha256).Reach (Attributed genesisSha256) k
      ∧ (k.state.registry.get genesisHash).map (fun e => (truthy e.headerHex, e.source))
        = some (true, .github)
      ∧ Provenance k := by
  have h₁ : (historySystem genesisSha256).Reach (Attributed genesisSha256)
      (nextEvent genesisSha256 ⟨.fresh, []⟩ genesisRow) :=
    .step (i := genesisRow) (.init rfl) (fun _ _ he => nomatch he) rfl
  have h₂ : (historySystem genesisSha256).Reach (Attributed genesisSha256)
      (nextEvent genesisSha256 (nextEvent genesisSha256 ⟨.fresh, []⟩ genesisRow) genesisTip) :=
    .step (i := genesisTip) h₁ (fun hv => nomatch hv) rfl
  exact ⟨_, h₂, by decide +kernel, (provenance_iff genesisSha256).1 _ h₂⟩

/-- The tip comes first, and the header of the row goes by the name of the own node. -/
theorem provenance_tipFirst :
    ∃ k, (historySystem genesisSha256).Reach anyStep k
      ∧ (k.state.registry.get genesisHash).map (fun e => (truthy e.headerHex, e.source))
        = some (true, .ownNode)
      ∧ (supplier k.sightings genesisHash).map (·.source) = some .github
      ∧ k.state.exported.map (fun r => (r.status, r.source))
        = [(.unusable, .ownNode), (.headerOnly, .ownNode)]
      ∧ ¬ Provenance k := by
  let k := nextEvent genesisSha256 (nextEvent genesisSha256 ⟨.fresh, []⟩ genesisTip) genesisRow
  have hk : (historySystem genesisSha256).Reach anyStep k :=
    .step (.step (.init rfl) trivial rfl) trivial rfl
  have hentry : (k.state.registry.get genesisHash).map (fun e => (truthy e.headerHex, e.source))
      = some (true, .ownNode) := by
    decide +kernel
  have hsup : (supplier k.sightings genesisHash).map (·.source) = some .github := by
    decide +kernel
  refine ⟨k, hk, hentry, hsup, by decide +kernel, fun hp => ?_⟩
  obtain ⟨e, he, hcol⟩ := Option.map_eq_some_iff.mp hentry
  obtain ⟨ht, hsrc⟩ := Prod.mk.inj hcol
  obtain ⟨seen, hseen, -, hsource⟩ := hp.entries _ e he ht
  rw [hseen, Option.map_some, ← hsource, hsrc] at hsup
  cases hsup

/-! ### The pipeline -/

/-- A step of the pipeline is a sequence of events, a restart if the registry comes back. -/
theorem events_of_next {R : StateFiles.Numbers} {read : ColumnReader R} (hread : read.Documented)
    {s s' : State} (hs : Inv sha256 s) {i : Label} (hi : Restartable i s)
    (h : next sha256 read i s = some s') (sightings : List StaleBlockEntry) :
    ∃ events : List Event, ({ s' with work := .idle } : State)
      = (events.foldl (nextEvent sha256) ⟨{ s with work := .idle }, sightings⟩).state := by
  have hflush (s : State) : ({ s.flush with work := .idle } : State)
      = ({ s with work := .idle } : State).flush := by
    rw [State.flush, State.flush]
    split_ifs <;> rfl
  cases i with
  | nodePoll tips =>
      rw [StaleBlocks.next] at h
      split at h <;> cases h
      exact ⟨[], rfl⟩
  | githubPull rows =>
      rw [StaleBlocks.next] at h
      split at h <;> cases h
      exact ⟨[], rfl⟩
  | proceed =>
      rw [StaleBlocks.next] at h
      split at h <;> cases h
      · exact ⟨[.flush], hflush s⟩
      · next tip header l hw =>
        exact ⟨[.sighting tip.height tip.hash header .ownNode (some tip.status)
          (some (tip.branchlen.getD 0))], (ingestSighting_work _ _ _).symm⟩
      · exact ⟨[.flush], hflush s⟩
      · next row l hw =>
        rw [pullRow]
        split_ifs
        · exact ⟨[], rfl⟩
        · exact ⟨[.sighting row.height row.blockhash (some row.header) .github none none],
            (ingestSighting_work _ _ _).symm⟩
        · exact ⟨[], rfl⟩
  | restart =>
      rw [StaleBlocks.next, hs.load hread hi] at h
      cases h
      exact ⟨[.restart], rfl⟩

end StaleBlocks

end BtcParser
