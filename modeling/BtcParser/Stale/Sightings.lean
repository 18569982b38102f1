import BtcParser.Library.Lists
import BtcParser.Rpc.StaleBlocks

/-!
What the stale-header pipeline exports, and what it remembers.

* `EntryOk`: an entry with a header has one that belongs to its hash, and the other entries have
  none.
* `Sighted` says all that one sighting does: nothing but a change of the tip's columns, or one
  exported row for a new status, after which the registry is on disk.
* `load_of_readsBack`: a registry in which a hash and a header cannot be taken for numbers is read
  back as it was written.
* `Inv` ties the registry, its file and the exports together. `Inv.next` is the step lemma, and
  `stale_headers_once` the result, for the runs that restart with such a registry only.
-/

namespace BtcParser

namespace StaleBlocks

variable (sha256 : List UInt8 → List UInt8)

/-! ### Entries and rows -/

/-- A header that belongs to the hash, or no header. -/
def EntryOk (e : StaleBlockEntry) : Prop :=
  match e.status with
  | .headerOnly => ∃ hex, e.headerHex = some hex ∧ IsHeaderOf sha256 hex e.blockhash
  | .unusable => e.headerHex = none

/-- A row with a header has the one that belongs to its hash, and the fields that are decoded from
exactly its bytes; the other rows have neither header nor fields. -/
def RowOk (r : StaleHeaderRow) : Prop :=
  match r.status with
  | .headerOnly => ∃ hex f raw, r.headerHex = some hex ∧ IsHeaderOf sha256 hex r.hash
      ∧ fromHex hex = some raw ∧ r.fields = some f ∧ f = headerFields raw
      ∧ serializeHeader f = some raw
  | .unusable => r.headerHex = none ∧ r.fields = none

/-- The exported statuses of a hash. -/
def statusesOf (blockhash : List Char) (rows : List StaleHeaderRow) : List StaleStatus :=
  (rows.filter (·.hash = blockhash)).map (·.status)

/-- The statuses that may have been exported of a hash, according to its entry. -/
def Told : Option StaleBlockEntry → List StaleStatus → Prop
  | none, l => l = []
  | some e, l =>
      match e.status with
      | .unusable => l = [.unusable]
      | .headerOnly => l = [.headerOnly] ∨ l = [.unusable, .headerOnly]

variable {sha256}

/-- A header that belongs to a hash is a text that is not empty. -/
lemma truthy_of_header {hex blockhash : List Char} (h : IsHeaderOf sha256 hex blockhash) :
    truthy (some hex) = true := by
  cases hex with
  | nil =>
      obtain ⟨raw, hraw, hlen, -⟩ := h
      cases hraw
      cases hlen
  | cons => rfl

/-- The row of a sound entry is sound. -/
lemma EntryOk.rowOk {e : StaleBlockEntry} (h : EntryOk sha256 e) :
    RowOk sha256 (headerEvent e) := by
  rw [EntryOk] at h
  show match e.status with
    | .headerOnly => _
    | .unusable => _
  cases hs : e.status with
  | unusable =>
      simp only [hs] at h ⊢
      simp [headerEvent, h, truthy]
  | headerOnly =>
      simp only [hs] at h ⊢
      obtain ⟨hex, hhex, hof⟩ := h
      obtain ⟨raw, hraw, hlen, -⟩ := id hof
      have hfields : (headerEvent e).fields = some (headerFields raw) := by
        simp only [headerEvent, hhex, truthy_of_header hof, if_true, Option.bind_some]
        exact parseHeader_iff.mpr ⟨raw, hraw, hlen, rfl⟩
      exact ⟨hex, _, raw, hhex, hof, hraw, hfields, rfl, serializeHeader_headerFields hlen⟩

/-- Every sighting is sound. -/
lemma entryOk_sighting (height : ℤ) (blockhash : List Char) (headerHex : Option (List Char))
    (source : StaleSource) (chaintipStatus : Option ChainTipStatus) (branchlen : Option ℤ) :
    EntryOk sha256
      (sighting sha256 height blockhash headerHex source chaintipStatus branchlen) := by
  rw [EntryOk]
  by_cases hv : validateHeaderHash sha256 headerHex blockhash = true
  · obtain ⟨hex, rfl, hof⟩ := (validateHeaderHash_iff sha256 headerHex blockhash).mp hv
    simp only [sighting, truthy_of_header hof, hv, if_true, beq_self_eq_true]
    exact ⟨hex, rfl, hof⟩
  · have : ((if truthy headerHex then some (validateHeaderHash sha256 headerHex blockhash)
        else none) == some true) = false := by
      split_ifs <;> simp [hv]
    simp only [sighting, this, Bool.false_eq_true, if_false]

/-! ### One sighting -/

/-- What `flush` writes is read back. -/
lemma get_load_rows (r : StaleBlockRegistry) (h : List Char) :
    (Keyed.load r.rows : Keyed StaleBlockEntry.blockhash).get h = r.get h := by
  have hperm := List.perm_insertionSort StaleBlockRegistry.before r.entries.all
  have hnd : (r.rows.map StaleBlockEntry.blockhash).Nodup :=
    (hperm.map _).nodup_iff.mpr r.entries.all_nodup
  ext e
  rw [Keyed.get_load hnd, StaleBlockRegistry.rows, hperm.mem_iff, Keyed.mem_all]
  constructor
  · rintro ⟨hmem, rfl⟩
    exact hmem
  · intro he
    obtain rfl := Keyed.key_of_get he
    exact ⟨he, rfl⟩

lemma rows_nodup (r : StaleBlockRegistry) : (r.rows.map StaleBlockEntry.blockhash).Nodup :=
  ((List.perm_insertionSort _ _).map _).nodup_iff.mpr r.entries.all_nodup

/-- The entry as `registry.csv` has it. -/
def State.onDisk (s : State) (h : List Char) : Option StaleBlockEntry :=
  (Keyed.load s.file : Keyed StaleBlockEntry.blockhash).get h

/-- The columns that matter for what was exported. -/
def coreOf (e : StaleBlockEntry) : StaleStatus × Option (List Char) × Option StaleStatus :=
  (e.status, e.headerHex, e.lastExportedStatus)

variable (sha256) in
/-- All that one sighting does. -/
inductive Sighted (s : State) (blockhash : List Char) (s' : State) : Prop
  /-- the status is known: at most the columns of the tip change -/
  | quiet {e f : StaleBlockEntry} (he : s.registry.get blockhash = some e)
      (hget : ∀ h, s'.registry.get h = if h = blockhash then some f else s.registry.get h)
      (hcore : coreOf f = coreOf e)
      (hclean : s'.registry.dirty = false → f = e ∧ s.registry.dirty = false)
      (hfile : s'.file = s.file) (hexp : s'.exported = s.exported)
  /-- a row is exported for a new status, and the registry is written -/
  | told {e : StaleBlockEntry} (hhash : e.blockhash = blockhash) (hok : EntryOk sha256 e)
      (hnew : s.registry.get blockhash = none
        ∨ ∃ e₀, s.registry.get blockhash = some e₀ ∧ e₀.status = .unusable ∧ e.status = .headerOnly)
      (hget : ∀ h, s'.registry.get h = if h = blockhash
        then some { e with lastExportedStatus := some e.status } else s.registry.get h)
      (hclean : s'.registry.dirty = false) (hdisk : ∀ h, s'.onDisk h = s'.registry.get h)
      (hnodup : (s'.file.map StaleBlockEntry.blockhash).Nodup)
      (hexp : s'.exported = s.exported ++ [headerEvent e])

lemma Sighted.work {s s' : State} {bh : List Char} (h : Sighted sha256 s bh s')
    (work : Work) : Sighted sha256 s bh { s' with work := work } := by
  cases h with
  | quiet he hget hcore hclean hfile hexp => exact .quiet he hget hcore hclean hfile hexp
  | told hhash hok hnew hget hclean hdisk hnodup hexp =>
      exact .told hhash hok hnew hget hclean hdisk hnodup hexp

/-- What an update changes: a status that is known keeps its header. -/
lemma updated_of_known {existing seen : StaleBlockEntry} (hex : EntryOk sha256 existing)
    (hseen : EntryOk sha256 seen)
    (hknown : existing.status = .headerOnly ∨ seen.status = .unusable) :
    coreOf (StaleBlockRegistry.updated existing seen).1 = coreOf existing
      ∧ (StaleBlockRegistry.updated existing seen).1.blockhash = existing.blockhash
      ∧ ((StaleBlockRegistry.updated existing seen).2 = false →
        (StaleBlockRegistry.updated existing seen).1 = existing) := by
  have hrank : ¬ existing.status.rank < seen.status.rank := by
    rcases hknown with h | h
    · rw [h]
      cases seen.status <;> decide
    · rw [h]
      cases existing.status <;> decide
  have hheader : (truthy seen.headerHex && !truthy existing.headerHex) = false := by
    rcases hknown with h | h
    · rw [EntryOk, h] at hex
      obtain ⟨hex, hhex, hof⟩ := hex
      simp [hhex, truthy_of_header hof]
    · rw [EntryOk, h] at hseen
      simp [show seen.headerHex = none from hseen, truthy]
  rw [StaleBlockRegistry.updated]
  simp only [if_neg hrank, hheader, Bool.false_eq_true, if_false]
  split_ifs <;> simp [coreOf]

/-- A header for a hash without one is taken over. -/
lemma updated_of_new {existing seen : StaleBlockEntry} (hex : EntryOk sha256 existing)
    (hseen : EntryOk sha256 seen) (hhash : existing.blockhash = seen.blockhash)
    (hold : existing.status = .unusable) (hnew : seen.status = .headerOnly) :
    EntryOk sha256 (StaleBlockRegistry.updated existing seen).1
      ∧ (StaleBlockRegistry.updated existing seen).1.status = .headerOnly
      ∧ (StaleBlockRegistry.updated existing seen).1.blockhash = existing.blockhash
      ∧ (StaleBlockRegistry.updated existing seen).1.lastExportedStatus
        = existing.lastExportedStatus := by
  rw [EntryOk, hold] at hex
  rw [EntryOk, hnew] at hseen
  obtain ⟨hex', hhex, hof⟩ := hseen
  have hnone : existing.headerHex = none := hex
  rw [← hhash] at hof
  simp only [StaleBlockRegistry.updated, hold, hnew, hhex, hnone, truthy_of_header hof,
    StaleStatus.rank]
  split_ifs <;> simp_all [EntryOk, truthy]

/-- Marking an entry of this hash as exported, and writing the registry. -/
lemma told_of_put {s : State} {r : StaleBlockRegistry} {e : StaleBlockEntry}
    (hget : ∀ h, r.get h = if h = e.blockhash then some e else s.registry.get h)
    (hlast : e.lastExportedStatus ≠ some e.status) (hok : EntryOk sha256 e)
    (hnew : s.registry.get e.blockhash = none
      ∨ ∃ e₀, s.registry.get e.blockhash = some e₀ ∧ e₀.status = .unusable
        ∧ e.status = .headerOnly) :
    Sighted sha256 s e.blockhash (State.flush { s with
      registry := r.markHeaderStatusExported e.blockhash e.status
      exported := s.exported ++ [headerEvent e] }) := by
  have hmark : r.markHeaderStatusExported e.blockhash e.status
      = ⟨r.entries.put { e with lastExportedStatus := some e.status }, true⟩ := by
    rw [StaleBlockRegistry.markHeaderStatusExported, hget, if_pos rfl]
    simp only [ne_eq, hlast, not_false_eq_true, if_true]
  rw [State.flush, hmark, if_pos rfl]
  refine .told rfl hok hnew (fun h => ?_) rfl (fun h => ?_) (rows_nodup _) rfl
  · rw [StaleBlockRegistry.get, Keyed.get_put]
    simp only
    split_ifs with hh
    · rfl
    · have := hget h
      rwa [if_neg hh] at this
  · exact get_load_rows _ h

/-- What `_ingest_sighting` does to a registry of sound entries that are all exported. -/
lemma sighted_ingest {s : State} {seen : StaleBlockEntry}
    (hs : ∀ h e, s.registry.get h = some e →
      EntryOk sha256 e ∧ e.lastExportedStatus = some e.status)
    (hseen : EntryOk sha256 seen) (hlast : seen.lastExportedStatus = none) :
    Sighted sha256 s seen.blockhash (ingestSighting s seen) := by
  rw [ingestSighting, StaleBlockRegistry.upsertSighting]
  cases hget : s.registry.get seen.blockhash with
  | none =>
      simp only [hlast, ne_eq, reduceCtorEq, not_false_eq_true, if_true]
      exact told_of_put (fun h => Keyed.get_put _ _ _) (by simp [hlast]) hseen (.inl hget)
  | some e =>
      obtain ⟨hok, hexp⟩ := hs _ e hget
      have hhash : e.blockhash = seen.blockhash := Keyed.key_of_get hget
      by_cases hknown : e.status = .headerOnly ∨ seen.status = .unusable
      · obtain ⟨hcore, hkey, hdirty⟩ := updated_of_known hok hseen hknown
        simp only [coreOf, Prod.mk.injEq] at hcore
        have hquiet : ¬ (some (StaleBlockRegistry.updated e seen).1.status
            ≠ (StaleBlockRegistry.updated e seen).1.lastExportedStatus) := by
          rw [hcore.1, hcore.2.2, hexp]
          exact fun h => h rfl
        simp only [if_neg hquiet]
        refine .quiet hget (fun h => ?_) (f := (StaleBlockRegistry.updated e seen).1) ?_ ?_ rfl rfl
        · rw [StaleBlockRegistry.get, Keyed.get_put, hkey, hhash]
          rfl
        · simp [coreOf, hcore]
        · intro hclean
          simp only [Bool.or_eq_false_iff] at hclean
          exact ⟨hdirty hclean.2, hclean.1⟩
      · simp only [not_or] at hknown
        have hold : e.status = .unusable := by
          cases h : e.status with
          | unusable => rfl
          | headerOnly => exact absurd h hknown.1
        have hnew : seen.status = .headerOnly := by
          cases h : seen.status with
          | unusable => exact absurd h hknown.2
          | headerOnly => rfl
        obtain ⟨hok', hstatus, hkey, hlast'⟩ := updated_of_new hok hseen hhash hold hnew
        rw [hexp, hold] at hlast'
        have htold : some (StaleBlockRegistry.updated e seen).1.status
            ≠ (StaleBlockRegistry.updated e seen).1.lastExportedStatus := by
          rw [hstatus, hlast']
          simp
        simp only [if_pos htold]
        rw [hhash] at hkey
        rw [← hkey]
        refine told_of_put (fun h => Keyed.get_put _ _ _) htold.symm hok'
          (.inr ⟨e, ?_, hold, hstatus⟩)
        rw [hkey, hget]

/-! ### Reading back -/

/-- A hash in the file does not look like a number, and neither does a header, if there is one. -/
def ReadsBack (file : List StaleBlockEntry) : Prop :=
  file = [] ∨ (∃ e ∈ file, IsHexText e.blockhash)
    ∧ (file.filterMap (·.headerHex) = [] ∨ ∃ hex ∈ file.filterMap (·.headerHex), IsHexText hex)

instance (file : List StaleBlockEntry) : Decidable (ReadsBack file) :=
  inferInstanceAs (Decidable (_ ∨ _ ∧ (_ ∨ _)))

/-- The condition: the process starts again with such a file only. -/
def Restartable : Label → State → Prop
  | .restart, s => ReadsBack s.file
  | _, _ => True

instance : ∀ i s, Decidable (Restartable i s)
  | .restart, s => inferInstanceAs (Decidable (ReadsBack s.file))
  | .nodePoll _, _ => .isTrue trivial
  | .githubPull _, _ => .isTrue trivial
  | .proceed, _ => .isTrue trivial

variable {R : StateFiles.Numbers} {read : ColumnReader R}

lemma reread_text {e : StaleBlockEntry} (h : e.headerHex ≠ some []) :
    StaleBlockRegistry.reread e (textCell (R := R) (some e.blockhash)) (textCell e.headerHex)
      = e := by
  obtain ⟨height, blockhash, status, headerHex, headerValid, source, chaintipStatus, branchlen,
    last⟩ := e
  cases headerHex with
  | none => rfl
  | some hex =>
      have hne : hex ≠ [] := fun he => h (congrArg some he)
      simp [StaleBlockRegistry.reread, textCell, StateFiles.Value.toStr, StateFiles.Value.toBool,
        hne]

/-- Where the columns come back as texts, so does the registry. -/
lemma load_of_texts {file : List StaleBlockEntry} (hne : file ≠ [])
    (hheader : ∀ e ∈ file, e.headerHex ≠ some [])
    (hhashes : read (file.map fun e => some e.blockhash)
      = some ((file.map fun e => some e.blockhash).map textCell))
    (hheaders : read (file.map (·.headerHex)) = some ((file.map (·.headerHex)).map textCell)) :
    StaleBlockRegistry.load read file = some (.ofRows file) := by
  rw [StaleBlockRegistry.load, if_neg hne, hhashes, hheaders, Option.bind_some, Option.map_some]
  refine congrArg (fun rows => some (StaleBlockRegistry.ofRows rows)) ?_
  refine List.ext_getElem (by simp) fun i hi hi' => ?_
  simpa using reread_text (hheader file[i] (List.getElem_mem hi'))

/-- A file in which a hash and a header cannot be taken for numbers is read back as it is. -/
lemma load_of_readsBack (hread : read.Documented) {file : List StaleBlockEntry}
    (h : ReadsBack file) (hheader : ∀ e ∈ file, e.headerHex ≠ some []) :
    StaleBlockRegistry.load read file = some (.ofRows file) := by
  rcases h with rfl | ⟨⟨e, he, hhash⟩, hheaders⟩
  · rfl
  · refine load_of_texts (List.ne_nil_of_mem he) hheader
      (hread.text _ _ (List.mem_map_of_mem (f := fun e => some e.blockhash) he) hhash) ?_
    rcases hheaders with hnone | ⟨hex, hhex, htext⟩
    · have hnulls : ∀ c ∈ file.map (·.headerHex), c = none := by
        rw [List.forall_mem_map]
        exact List.filterMap_eq_nil_iff.mp hnone
      rw [hread.nulls _ hnulls]
      exact congrArg some (List.map_congr_left fun c hc => by rw [hnulls c hc]; rfl)
    · obtain ⟨e', he', hhex⟩ := List.mem_filterMap.mp hhex
      exact hread.text _ _ (hhex ▸ List.mem_map_of_mem he') htext

/-! ### Runs -/

/-- Registry, file and exports. -/
structure Inv (sha256 : List UInt8 → List UInt8) (s : State) : Prop where
  entries : ∀ h e, s.registry.get h = some e →
    EntryOk sha256 e ∧ e.lastExportedStatus = some e.status
  core : ∀ h, (s.onDisk h).map coreOf = (s.registry.get h).map coreOf
  clean : s.registry.dirty = false → ∀ h, s.onDisk h = s.registry.get h
  nodup : (s.file.map StaleBlockEntry.blockhash).Nodup
  told : ∀ h, Told (s.registry.get h) (statusesOf h s.exported)
  rows : ∀ r ∈ s.exported, RowOk sha256 r
  idle : s.work = .idle → s.registry.dirty = false

variable {s s' : State}

lemma told_of_core {e e' : StaleBlockEntry} (h : coreOf e' = coreOf e) {l : List StaleStatus}
    (hl : Told (some e) l) : Told (some e') l := by
  simp only [coreOf, Prod.mk.injEq] at h
  simpa only [Told, h.1] using hl

lemma entryOk_of_core {e e' : StaleBlockEntry} (h : coreOf e' = coreOf e)
    (hh : e'.blockhash = e.blockhash)
    (he : EntryOk sha256 e ∧ e.lastExportedStatus = some e.status) :
    EntryOk sha256 e' ∧ e'.lastExportedStatus = some e'.status := by
  simp only [coreOf, Prod.mk.injEq] at h
  exact ⟨by simpa only [EntryOk, h, hh] using he.1, by rw [h.2.2, h.1, he.2]⟩

lemma statusesOf_append (h : List Char) (rows : List StaleHeaderRow) (e : StaleBlockEntry) :
    statusesOf h (rows ++ [headerEvent e])
      = if e.blockhash = h then statusesOf h rows ++ [e.status] else statusesOf h rows := by
  have hhash : (headerEvent e).hash = e.blockhash := rfl
  have hstatus : (headerEvent e).status = e.status := rfl
  by_cases heq : e.blockhash = h <;> simp [statusesOf, hhash, hstatus, heq]

/-- A sighting keeps the invariant, while a pass is running. -/
lemma Inv.sighted {bh : List Char} (hs : Inv sha256 s) (h : Sighted sha256 s bh s')
    (hwork : s'.work ≠ .idle) : Inv sha256 s' := by
  cases h with
  -- nothing to tell: at most the fields that no row repeats have changed
  | @quiet e e' he hget hcore hclean hfile hexp =>
      have hkey : e.blockhash = bh := Keyed.key_of_get he
      have hkey' : e'.blockhash = bh := by
        have := hget bh
        rw [if_pos rfl] at this
        exact Keyed.key_of_get this
      have hdisk : ∀ h, s'.onDisk h = s.onDisk h := fun h => by
        rw [State.onDisk, State.onDisk, hfile]
      refine ⟨fun h d hd => ?_, fun h => ?_, fun hc h => ?_, hfile ▸ hs.nodup, fun h => ?_,
        hexp ▸ hs.rows, fun hidle => absurd hidle hwork⟩
      · rw [hget] at hd
        split_ifs at hd with hh
        · cases hd
          exact entryOk_of_core hcore (hkey'.trans hkey.symm) (hs.entries bh e he)
        · exact hs.entries h d hd
      · rw [hdisk, hs.core, hget]
        split_ifs with hh
        · rw [hh, he, Option.map_some, Option.map_some, hcore]
        · rfl
      · obtain ⟨rfl, hc⟩ := hclean hc
        rw [hdisk, hs.clean hc, hget]
        split_ifs with hh
        · rw [hh, he]
        · rfl
      · rw [hexp, hget]
        split_ifs with hh
        · subst hh
          exact told_of_core hcore (he ▸ hs.told h)
        · exact hs.told h
  -- a row was exported, and the registry flushed behind it
  | @told e hhash hok hnew hget hclean hdisk hnodup hexp =>
      subst hhash
      refine ⟨fun h d hd => ?_, fun h => by rw [hdisk], fun _ => hdisk, hnodup, fun h => ?_,
        fun r hr => ?_, fun _ => hclean⟩
      · rw [hget] at hd
        split_ifs at hd with hh
        · cases hd
          exact ⟨hok, rfl⟩
        · exact hs.entries h d hd
      · rw [hexp, hget, statusesOf_append]
        have htold := hs.told h
        by_cases hh : h = e.blockhash
        · subst hh
          simp only [if_true]
          -- the first row of the hash, or the second behind `unusable`
          rcases hnew with hnone | ⟨e₀, he₀, hold, hnew⟩
          · rw [hnone] at htold
            rw [show statusesOf e.blockhash s.exported = [] from htold]
            simp only [Told]
            cases e.status <;> simp
          · rw [he₀, Told, hold] at htold
            simp only [Told, hnew]
            rw [show statusesOf e.blockhash s.exported = [.unusable] from htold]
            exact .inr rfl
        · rw [if_neg hh, if_neg (Ne.symm hh)]
          exact htold
      · rw [hexp] at hr
        rcases List.mem_append.mp hr with hr | hr
        · exact hs.rows r hr
        · obtain rfl := List.mem_singleton.mp hr
          exact hok.rowOk

/-- Only the work to do has changed. -/
lemma Inv.work (hs : Inv sha256 s) {work : Work} (hw : work = .idle → s.registry.dirty = false) :
    Inv sha256 { s with work := work } :=
  ⟨hs.entries, hs.core, hs.clean, hs.nodup, hs.told, hs.rows, hw⟩

/-- `flush` writes what is in memory. -/
lemma Inv.flush (hs : Inv sha256 s) :
    Inv sha256 s.flush ∧ s.flush.registry.dirty = false
      ∧ ∀ h, s.flush.registry.get h = s.registry.get h := by
  rw [State.flush]
  split_ifs with hd
  · exact ⟨⟨hs.entries, fun h => congrArg _ (get_load_rows s.registry h),
      fun _ h => get_load_rows s.registry h, rows_nodup _, hs.told, hs.rows, fun _ => rfl⟩, rfl,
      fun _ => rfl⟩
  · exact ⟨hs, by simpa using hd, fun _ => rfl⟩

/-- The process starts again with what is on disk. -/
lemma Inv.restart (hs : Inv sha256 s) :
    Inv sha256 { s with registry := .ofRows s.file, work := .idle } := by
  have hcore : ∀ h e, s.onDisk h = some e →
      ∃ e₀, s.registry.get h = some e₀ ∧ coreOf e = coreOf e₀ := by
    intro h e he
    have := hs.core h
    rw [he, Option.map_some] at this
    obtain ⟨e₀, he₀, hc⟩ := Option.map_eq_some_iff.mp this.symm
    exact ⟨e₀, he₀, hc.symm⟩
  refine ⟨fun h e he => ?_, fun _ => rfl, fun _ _ => rfl, hs.nodup, fun h => ?_, hs.rows,
    fun _ => rfl⟩
  · obtain ⟨e₀, he₀, hc⟩ := hcore h e he
    have hkey : e.blockhash = h := Keyed.key_of_get he
    have hkey₀ : e₀.blockhash = h := Keyed.key_of_get he₀
    exact entryOk_of_core hc (hkey.trans hkey₀.symm) (hs.entries h e₀ he₀)
  · show Told (s.onDisk h) _
    cases he : s.onDisk h with
    | none =>
        have hcore := hs.core h
        rw [he, Option.map_none] at hcore
        have htold := hs.told h
        rwa [Option.map_eq_none_iff.mp hcore.symm] at htold
    | some e =>
        obtain ⟨e₀, he₀, hc⟩ := hcore h e he
        have htold := hs.told h
        rw [he₀] at htold
        exact told_of_core hc htold

/-- A registry that the condition lets through is read back as it was written. -/
lemma Inv.load (hs : Inv sha256 s) (hread : read.Documented) (h : ReadsBack s.file) :
    StaleBlockRegistry.load read s.file = some (.ofRows s.file) := by
  refine load_of_readsBack hread h fun e he hempty => ?_
  have hdisk : s.onDisk e.blockhash = some e := (Keyed.get_load hs.nodup).mpr ⟨he, rfl⟩
  have hcore := hs.core e.blockhash
  rw [hdisk, Option.map_some] at hcore
  obtain ⟨e₀, he₀, hc⟩ := Option.map_eq_some_iff.mp hcore.symm
  simp only [coreOf, Prod.mk.injEq] at hc
  have hok := (hs.entries _ e₀ he₀).1
  rw [EntryOk] at hok
  -- an entry has the header of its block, or none
  cases hst : e₀.status with
  | unusable =>
      simp only [hst] at hok
      rw [hc.2.1, hempty] at hok
      cases hok
  | headerOnly =>
      simp only [hst] at hok
      obtain ⟨hex, hhex, hof⟩ := hok
      rw [hc.2.1, hempty] at hhex
      cases hhex
      cases truthy_of_header hof

lemma inv_fresh : Inv sha256 .fresh := by
  have hget : ∀ h, State.fresh.registry.get h = none := fun _ => rfl
  have hdisk : ∀ h, State.fresh.onDisk h = none := fun _ => rfl
  refine ⟨fun h e he => ?_, fun h => ?_, fun _ h => ?_, List.nodup_nil, fun h => ?_, fun r hr => ?_,
    fun _ => rfl⟩
  · rw [hget] at he
    cases he
  · rw [hget, hdisk]
  · rw [hget, hdisk]
  · rw [hget]
    rfl
  · cases hr

/-- Every step that the condition allows keeps the invariant. -/
lemma Inv.next (hread : read.Documented) (hs : Inv sha256 s) {i : Label} (hi : Restartable i s)
    (h : next sha256 read i s = some s') : Inv sha256 s' := by
  cases i with
  | nodePoll tips =>
      rw [StaleBlocks.next] at h
      split at h <;> cases h
      exact hs.work nofun
  | githubPull rows =>
      rw [StaleBlocks.next] at h
      split at h <;> cases h
      exact hs.work nofun
  | proceed =>
      rw [StaleBlocks.next] at h
      split at h <;> cases h
      · exact (hs.flush.1).work fun _ => hs.flush.2.1
      · next tip header l hw =>
        have hsight := sighted_ingest hs.entries
          (entryOk_sighting tip.height tip.hash header .ownNode (some tip.status)
            (some (tip.branchlen.getD 0))) rfl
        exact hs.sighted (hsight.work _) nofun
      · exact (hs.flush.1).work fun _ => hs.flush.2.1
      · next row l hw =>
        rw [pullRow]
        split_ifs
        · exact hs.work nofun
        · have hsight := sighted_ingest hs.entries
            (entryOk_sighting row.height row.blockhash (some row.header) .github none none) rfl
          exact hs.sighted (hsight.work _) nofun
        · exact hs.work nofun
  | restart =>
      rw [StaleBlocks.next, hs.load hread hi] at h
      cases h
      exact hs.restart

lemma exported_flush (s : State) : s.flush.exported = s.exported := by
  rw [State.flush]
  split_ifs <;> rfl

lemma exported_ingest (s : State) (seen : StaleBlockEntry) :
    ∃ rows, (ingestSighting s seen).exported = s.exported ++ rows := by
  rw [ingestSighting]
  simp only
  split_ifs
  · exact ⟨_, exported_flush _⟩
  · exact ⟨[], (List.append_nil _).symm⟩

/-- No exported row is ever taken back. -/
lemma exported_next {i : Label} (h : next sha256 read i s = some s') :
    ∃ rows, s'.exported = s.exported ++ rows := by
  have hsame : ∃ rows, s.exported = s.exported ++ rows := ⟨[], (List.append_nil _).symm⟩
  cases i with
  | nodePoll tips =>
      rw [StaleBlocks.next] at h
      split at h <;> cases h
      exact hsame
  | githubPull rows =>
      rw [StaleBlocks.next] at h
      split at h <;> cases h
      exact hsame
  | proceed =>
      rw [StaleBlocks.next] at h
      split at h <;> cases h
      · exact ⟨[], by simp [exported_flush]⟩
      · exact exported_ingest _ _
      · exact ⟨[], by simp [exported_flush]⟩
      · rw [pullRow]
        split_ifs
        · exact hsame
        · exact exported_ingest _ _
        · exact hsame
  | restart =>
      obtain ⟨r, -, rfl⟩ := Option.map_eq_some_iff.mp h
      exact hsame

/-- A header that is on record stays on record: its export cannot be taken back. -/
lemma Inv.headerOnly_stays (hread : read.Documented) (hs : Inv sha256 s) {i : Label}
    (hi : Restartable i s) (h : StaleBlocks.next sha256 read i s = some s') (bh : List Char)
    (hb : (s.registry.get bh).map (·.status) = some .headerOnly) :
    (s'.registry.get bh).map (·.status) = some .headerOnly := by
  obtain ⟨rows, hrows⟩ := exported_next h
  have hgrow : statusesOf bh s'.exported = statusesOf bh s.exported ++ statusesOf bh rows := by
    rw [hrows, statusesOf, List.filter_append, List.map_append]
    rfl
  obtain ⟨e, he, hst⟩ := Option.map_eq_some_iff.mp hb
  have htold := hs.told bh
  have htold' := (hs.next hread hi h).told bh
  rw [he, Told, hst] at htold
  rw [hgrow] at htold'
  cases he' : s'.registry.get bh with
  | none =>
      rw [he', Told] at htold'
      rcases htold with h' | h' <;> rw [h'] at htold' <;> cases htold'
  | some e' =>
      rw [he', Told] at htold'
      rw [Option.map_some]
      cases hst' : e'.status with
      | headerOnly => rfl
      | unusable =>
          rw [hst'] at htold'
          rcases htold with h' | h' <;> rw [h'] at htold' <;> cases htold'

/-- **Every status is exported once, and every header is the one of its block**: in every state of
every run, with any answers of the node and any rows of the dataset, and restarts between any two
sightings whose registry cannot be taken for one of numbers. The exported statuses of a hash are in
order and without repetition; a header that is on record stays on record; every entry and every
exported row with a header has the 80 bytes whose digest is the hash, and the fields decoded from
them, and all others have none; and when no pass is running, `registry.csv` has exactly the entries
in memory. -/
theorem stale_headers_once (sha256 : List UInt8 → List UInt8) (read : ColumnReader R)
    (hread : read.Documented) (s : State) (hs : (system sha256 read).Reach Restartable s) :
    (∀ h, statusesOf h s.exported ∈ [[], [.unusable], [.unusable, .headerOnly], [.headerOnly]])
      ∧ (∀ i s', Restartable i s → (system sha256 read).step i s s' → ∀ h,
        (s.registry.get h).map (·.status) = some .headerOnly →
        (s'.registry.get h).map (·.status) = some .headerOnly)
      ∧ (∀ h e, s.registry.get h = some e → EntryOk sha256 e)
      ∧ (∀ r ∈ s.exported, RowOk sha256 r)
      ∧ (s.work = .idle → ∀ e, e ∈ s.file ↔ e ∈ s.registry.entries.all) := by
  have hinv : Inv sha256 s := hs.invariant
    (fun t h0 => by
      obtain rfl : t = .fresh := h0
      exact inv_fresh)
    fun _ _ _ ht hi hstep => ht.next hread hi hstep
  refine ⟨fun h => ?_, fun i s' hi hstep => hinv.headerOnly_stays hread hi hstep, fun h e he =>
    (hinv.entries h e he).1, hinv.rows, fun hidle e => ?_⟩
  · have htold := hinv.told h
    cases he : s.registry.get h with
    | none =>
        rw [he, Told] at htold
        simp [htold]
    | some e =>
        rw [he, Told] at htold
        cases hst : e.status with
        | unusable =>
            rw [hst] at htold
            simp [show statusesOf h s.exported = [.unusable] from htold]
        | headerOnly =>
            rw [hst] at htold
            rcases htold with htold | htold <;> simp [htold]
  · have hdisk := hinv.clean (hinv.idle hidle) e.blockhash
    rw [Keyed.mem_all,
      show s.registry.entries.get e.blockhash = s.registry.get e.blockhash from rfl,
      ← hdisk, State.onDisk, Keyed.get_load hinv.nodup]
    simp

/-- The header of the first block. -/
def genesisRaw : List UInt8 :=
  [1, 0, 0, 0] ++ List.replicate 32 0 ++
  [0x3b, 0xa3, 0xed, 0xfd, 0x7a, 0x7b, 0x12, 0xb2, 0x7a, 0xc7, 0x2c, 0x3e, 0x67, 0x76, 0x8f,
   0x61, 0x7f, 0xc8, 0x1b, 0xc3, 0x88, 0x8a, 0x51, 0x32, 0x3a, 0x9f, 0xb8, 0xaa, 0x4b, 0x1e,
   0x5e, 0x4a, 0x29, 0xab, 0x5f, 0x49, 0xff, 0xff, 0x00, 0x1d, 0x1d, 0xac, 0x2b, 0x7c]

/-- The digest of the header. -/
def genesisDigest : List UInt8 :=
  [0xaf, 0x42, 0x03, 0x1e, 0x80, 0x5f, 0xf4, 0x93, 0xa0, 0x73, 0x41, 0xe2, 0xf7, 0x4f, 0xf5,
   0x81, 0x49, 0xd2, 0x2a, 0xb9, 0xba, 0x19, 0xf6, 0x13, 0x43, 0xe2, 0xc8, 0x6c, 0x71, 0xc5,
   0xd6, 0x6d]

/-- The digest of the digest, which is the hash of the block in reverse. -/
def genesisDoubleDigest : List UInt8 :=
  [0x6f, 0xe2, 0x8c, 0x0a, 0xb6, 0xf1, 0xb3, 0x72, 0xc1, 0xa6, 0xa2, 0x46, 0xae, 0x63, 0xf7,
   0x4f, 0x93, 0x1e, 0x83, 0x65, 0xe1, 0x5a, 0x08, 0x9c, 0x68, 0xd6, 0x19, 0x00, 0x00, 0x00,
   0x00, 0x00]

/-- The hash of the block. -/
def genesisHash : List Char := toHex genesisDoubleDigest.reverse

/-- The digest function on the header and on its digest. -/
def genesisSha256 (data : List UInt8) : List UInt8 :=
  if data.length = 80 then genesisDigest else genesisDoubleDigest

/-- The reader that guesses the type of a column from all of its cells. -/
def guessColumn (R : StateFiles.Numbers) : ColumnReader R := fun cells =>
  cells.mapM (StateFiles.cellValue R (StateFiles.inferType (cells.filterMap id)))

lemma isDigit_of_isDigits {cs : List Char} (h : StateFiles.isDigits cs = true) :
    ∀ c ∈ cs, c.isDigit = true := by
  rw [StateFiles.isDigits, Bool.and_eq_true] at h
  exact List.all_eq_true.mp h.2

lemma isDigit_of_isExponential {cs : List Char} (h : StateFiles.isExponential cs = true) :
    ∀ c ∈ cs, c.isDigit = true ∨ c = 'e' := by
  rw [StateFiles.isExponential] at h
  split at h
  · next back hdrop =>
    rw [Bool.and_eq_true] at h
    intro c hc
    rw [← List.takeWhile_append_dropWhile (p := Char.isDigit) (l := cs), hdrop, List.mem_append,
      List.mem_cons] at hc
    rcases hc with hc | rfl | hc
    · exact .inl (List.mem_takeWhile_imp hc)
    · exact .inr rfl
    · exact .inl (isDigit_of_isDigits h.2 c hc)
  · cases h

lemma toNat_of_isDigit {c : Char} (h : c.isDigit = true) : 48 ≤ c.toNat ∧ c.toNat ≤ 57 :=
  Char.isDigit_iff_toNat.mp h

lemma not_asciiSpace_of_isDigit {c : Char} (h : c.isDigit = true) : asciiSpace c = false := by
  have hrange := toNat_of_isDigit h
  have hblank : c ≠ ' ' := by
    rintro rfl
    exact absurd hrange.1 (by decide)
  rw [asciiSpace, decide_eq_false hblank, Bool.false_or, Bool.and_eq_false_iff]
  exact .inr (decide_eq_false (by omega))

lemma toLower_of_isDigit {c : Char} (h : c.isDigit = true) : c.toLower = c := by
  have hrange := toNat_of_isDigit h
  refine dif_neg fun hupper => ?_
  have hlow : 65 ≤ c.toNat := hupper.1
  omega

/-- A text that is a number to the reader looks like one. -/
lemma looksNumeric_of_numeric {cs : List Char}
    (h : StateFiles.isDigits cs = true ∨ StateFiles.isExponential cs = true) :
    looksNumeric (cs.filter (!asciiSpace ·)) = true := by
  have hchars : ∀ c ∈ cs, c.isDigit = true ∨ c = 'e' :=
    h.elim (fun h c hc => .inl (isDigit_of_isDigits h c hc)) isDigit_of_isExponential
  have hkeep : cs.filter (!asciiSpace ·) = cs := by
    rw [List.filter_eq_self]
    intro c hc
    rcases hchars c hc with hd | rfl
    · simp [not_asciiSpace_of_isDigit hd]
    · rfl
  have hlower : cs.map Char.toLower = cs := by
    refine (List.map_congr_left fun c hc => ?_).trans (List.map_id cs)
    rcases hchars c hc with hd | rfl
    · exact toLower_of_isDigit hd
    · rfl
  rw [hkeep, looksNumeric, hlower, Bool.or_eq_true]
  exact h

/-- The guess is a column of texts. -/
lemma inferType_of_hexText {cells : List (List Char)} {cs : List Char} (hcs : cs ∈ cells)
    (h : IsHexText cs) : StateFiles.inferType cells = .text := by
  obtain ⟨hhex, -, hnot⟩ := h
  have hnumeric : ¬ (StateFiles.isDigits cs = true ∨ StateFiles.isExponential cs = true) := by
    intro hn
    rw [looksNumeric_of_numeric hn] at hnot
    cases hnot
  refine StateFiles.inferType_of_plainText hcs ⟨Bool.eq_false_iff.mpr fun h => hnumeric (.inl h),
    Bool.eq_false_iff.mpr fun h => hnumeric (.inr h), ?_⟩
  rintro b rfl
  cases b with
  | true => exact absurd (hhex 't' (by simp [StateFiles.booleanText])) (by decide)
  | false => exact absurd (hhex 'l' (by simp [StateFiles.booleanText])) (by decide)

lemma documented_guessColumn (R : StateFiles.Numbers) : (guessColumn R).Documented where
  text cells cs hcs h := by
    rw [guessColumn, inferType_of_hexText (List.mem_filterMap.mpr ⟨_, hcs, rfl⟩) h,
      mapM_eq_some_iff, List.map_map]
    refine List.map_congr_left fun c _ => ?_
    cases c <;> rfl
  nulls cells h := by
    rw [guessColumn, mapM_eq_some_iff, List.map_map]
    refine List.map_congr_left fun c hc => ?_
    rw [h c hc]
    rfl

/-- A tip whose header could not be fetched, and then its row in the dataset, with restarts behind
both. -/
theorem stale_headers_once_genesis :
    ∃ s, (system genesisSha256 (guessColumn StateFiles.zeroFloats)).Reach Restartable s
      ∧ statusesOf genesisHash s.exported = [.unusable, .headerOnly]
      ∧ ∀ r ∈ s.exported, RowOk genesisSha256 r := by
  have h₀ : (system genesisSha256 (guessColumn StateFiles.zeroFloats)).Reach Restartable
      State.fresh := .init rfl
  let labels : List Label := [.nodePoll [(⟨0, genesisHash, .headersOnly, none⟩, none)], .proceed,
    .proceed, .restart, .githubPull [⟨0, genesisHash, toHex genesisRaw⟩], .proceed, .proceed,
    .restart]
  have hrun : ((TransitionSystem.exec Restartable
      (next genesisSha256 (guessColumn StateFiles.zeroFloats)) labels State.fresh).map
      fun s => statusesOf genesisHash s.exported) = some [.unusable, .headerOnly] := by
    decide +kernel
  obtain ⟨s, hs, hst⟩ := Option.map_eq_some_iff.mp hrun
  have hreach := h₀.exec Restartable (fun _ _ _ h => h) hs
  exact ⟨s, hreach, hst, (stale_headers_once genesisSha256 _ (documented_guessColumn _) s
    hreach).2.2.2.1⟩

/-- A hash of digits. -/
def digitHash : List Char := List.replicate 63 '0' ++ ['7']

/-- It comes back from the restart as another one: the tip is exported once more, and the registry
in memory is not the one on disk. -/
theorem stale_headers_twice :
    (∃ s, (system genesisSha256 (guessColumn StateFiles.zeroFloats)).Reach anyStep s
      ∧ s.work = .idle ∧ ¬ ∀ e, e ∈ s.file ↔ e ∈ s.registry.entries.all)
    ∧ ∃ s, (system genesisSha256 (guessColumn StateFiles.zeroFloats)).Reach anyStep s
      ∧ statusesOf digitHash s.exported = [.unusable, .unusable] := by
  have h₀ : (system genesisSha256 (guessColumn StateFiles.zeroFloats)).Reach anyStep State.fresh :=
    .init rfl
  let poll : List Label :=
    [.nodePoll [(⟨0, digitHash, .headersOnly, none⟩, none)], .proceed, .proceed]
  constructor
  · have hrun : ((TransitionSystem.exec anyStep
        (next genesisSha256 (guessColumn StateFiles.zeroFloats))
        (poll ++ [.restart]) State.fresh).map
        fun s => (s.work, s.file.map (·.blockhash), s.registry.entries.all.map (·.blockhash)))
        = some (.idle, [digitHash], [['7']]) := by
      decide +kernel
    obtain ⟨s, hs, hst⟩ := Option.map_eq_some_iff.mp hrun
    simp only [Prod.mk.injEq] at hst
    obtain ⟨hidle, hfile, hentries⟩ := hst
    refine ⟨s, h₀.exec anyStep (fun _ _ _ h => h) hs, hidle, fun hsame => ?_⟩
    have hmem : digitHash ∈ s.file.map (·.blockhash) := hfile ▸ List.mem_singleton_self _
    obtain ⟨e, he, hhash⟩ := List.mem_map.mp hmem
    have hother := List.mem_map_of_mem (f := (·.blockhash)) ((hsame e).mp he)
    rw [hentries, hhash] at hother
    exact absurd hother (by decide)
  · have hrun : ((TransitionSystem.exec anyStep
        (next genesisSha256 (guessColumn StateFiles.zeroFloats)) (poll ++ .restart :: poll)
        State.fresh).map fun s => statusesOf digitHash s.exported)
        = some [.unusable, .unusable] := by
      decide +kernel
    obtain ⟨s, hs, hst⟩ := Option.map_eq_some_iff.mp hrun
    exact ⟨s, h₀.exec anyStep (fun _ _ _ h => h) hs, hst⟩

end StaleBlocks

end BtcParser
