import BtcParser.Ingest.Ledger

/-!
Without a crash every block is exported exactly once.

* `AllCurrent` and `First` are what the accounts of `Ledger` need to be exact: every index row is
  of the current schema version, and as long as there is no `current.csv` nothing has been
  written, so that no index is ever seeded.
* `exported_once` is the result: whenever `index.flush()` has returned, the rows written are those
  of the blocks in `index.csv`, each once.
-/

namespace BtcParser

variable {H ρ : Type} [DecidableEq H] {T : BlockTree H ρ}

/-- Every row is of the current schema version. -/
def AllCurrent (d : Dict H (IndexRow H)) : Prop :=
  ∀ h r, d.get? h = some r → currentIndexSchemaVersion ≤ r.schemaVersion

lemma AllCurrent.update {d e : Dict H (IndexRow H)} (hd : AllCurrent d) (he : AllCurrent e) :
    AllCurrent (d.update e) := by
  intro h r hr
  rw [Dict.get?_update, Option.or_eq_some_iff] at hr
  exact hr.elim (he h r) fun hr => hd h r hr.2

/-- Then the ledger leaves out no block. -/
lemma ledger_of_allCurrent {d : Dict H (IndexRow H)} (hd : AllCurrent d) (k : Kind) :
    ledger T k d = (d.keys.map (blockRows T k)).sum := by
  have htotal : ledger T k d = d.total fun h _ => blockRows T k h :=
    Dict.total_congr fun h r hr => if_neg (hd h r hr).not_gt
  rw [htotal, Dict.total, Dict.keys, List.map_map]
  rfl

/-- The disk when `index.flush()` has just returned. -/
def Event.flushed? : Event H ρ → Option (Disk H ρ)
  | .completed (.indexFlushed _) d => some d
  | _ => none

/-- The hash in a `blocks` row. -/
def Row.hash? (r : Row H ρ) : Option H := r.blockEvent?.map BlockEvent.hash

omit [DecidableEq H] in
lemma Row.hash?_untimed (r : Row H ρ) : r.untimed.hash? = r.hash? := by
  cases r <;> rfl

omit [DecidableEq H] in
/-- The `blocks` rows written name the blocks of the ledger. -/
lemma hashes_of_written {d : Disk H ρ} {hs : List H}
    (h : d.written .blocks = (hs.map (blockRows T .blocks)).sum) :
    (d.parts .blocks).written.filterMap Row.hash? = hs := by
  have hmap : (d.parts .blocks).written.filterMap Row.hash?
      = (d.written .blocks).filterMap Row.hash? := by
    rw [Disk.written, Multiset.filterMap_map]
    congr 1
    funext r
    exact r.hash?_untimed.symm
  have hrows : ∀ hs : List H,
      (hs.map (blockRows T .blocks)).sum.filterMap Row.hash? = (hs : Multiset H) := by
    intro hs
    induction hs with
    | nil => rfl
    | cons x hs ih =>
        have hx : (blockRows T .blocks x).filterMap Row.hash? = {(T.block x).blockHash} := rfl
        rw [List.map_cons, List.sum_cons, Multiset.filterMap_add, ih, hx, T.blockHash_block]
        rfl
  rw [hmap, h, hrows]

omit [DecidableEq H] in
/-- The other files hold the rows themselves. -/
lemma written_details {d : Disk H ρ} {hs : List H} {k : Kind} (hk : k ≠ .blocks)
    (h : d.written k = (hs.map (blockRows T k)).sum) :
    (d.parts k).written = (hs.map (blockRows T k)).sum := by
  have hdetail : ∀ (x : H), ∀ r ∈ blockRows T k x, ∃ y, r = .detail y := by
    intro x r hr
    cases k <;> simp [blockRows, Ingest.rowsOf] at hr hk <;> exact hr.imp fun y hy => hy.2.symm
  have hsum : ∀ hs : List H, ∀ r ∈ (hs.map (blockRows T k)).sum, ∃ y, r = Row.detail y := by
    intro hs
    induction hs with
    | nil => simp
    | cons x hs ih =>
        intro r hr
        rw [List.map_cons, List.sum_cons, Multiset.mem_add] at hr
        exact hr.elim (hdetail x r) (ih r)
  rw [← h, Disk.written]
  refine ((Multiset.map_congr rfl fun r hr => ?_).trans (Multiset.map_id _)).symm
  have hmem : r.untimed ∈ d.written k := Multiset.mem_map_of_mem _ hr
  rw [h] at hmem
  obtain ⟨y, hy⟩ := hsum hs _ hmem
  cases r with
  | block e => cases hy
  | detail r => rfl

namespace Ingest

/-- As long as there is no `current.csv` nothing has been written. -/
def First (s : IndexStore H) (d : Disk H ρ) : Point H ρ → Prop
  | .seeded _ _ => False
  | .looping _ l => d.current = none → s.byHash = .empty ∧ (l.hash = none → s.pending = .empty)
  | .saving _ l _ _ => d.current = none →
      s.byHash = .empty ∧ (l.hash = none → s.pending = .empty)
  | .indexed _ l _ => d.current = none → l.hash = none → s.byHash = .empty
  | .flagged _ l _ => d.current = none → l.hash = none → s.byHash = .empty
  | _ => d.current = none → s.byHash = .empty

/-- The invariant of a pass in a run without crashes. -/
structure ExportInv (T : BlockTree H ρ) (c : Point H ρ) (w : World H ρ) : Prop where
  ledger : LedgerInv T 0 c w
  current : AllCurrent w.mem.index.byHash ∧ AllCurrent w.mem.index.pending
  first : First w.mem.index w.disk c
  flushed : w.All fun e => ∀ d, e.flushed? = some d → AllCurrent (IndexStore.loadRows d.index)

variable {cfg : RpcConfig} {fmt : Formats H ρ} {env : PassEnv T} {w : World H ρ}

lemma allCurrent_empty : AllCurrent (.empty : Dict H (IndexRow H)) := fun h r hr => by simp at hr

omit [DecidableEq H] in
/-- Nothing written, nothing to seed from. -/
lemma seedRows_eq_nil {d : Disk H ρ} (h : d.written .blocks = 0) :
    seedRows (d.parts .blocks) = [] := by
  refine List.eq_nil_iff_forall_not_mem.mpr fun e he => ?_
  obtain ⟨p, hp, hep, -⟩ := mem_seedRows he
  obtain ⟨r, hr, -⟩ := List.mem_filterMap.mp hep
  have hmem := Multiset.mem_map_of_mem Row.untimed (PartFiles.mem_written hp hr)
  rw [← Disk.written, h] at hmem
  simp at hmem

lemma allCurrent_takeIndex {s : IndexStore H} (hs : AllCurrent s.pending) (h : H) :
    AllCurrent (takeIndex T h s).pending := by
  intro x r hr
  unfold takeIndex at hr
  split_ifs at hr
  · rcases s.get?_pending_add hr with hr | ⟨-, rfl⟩
    · exact hs x r hr
    · exact le_rfl
  · exact hs x r hr

lemma allCurrent_flush {s : IndexStore H} (hs : AllCurrent s.byHash ∧ AllCurrent s.pending) :
    AllCurrent s.flush.byHash ∧ AllCurrent s.flush.pending := by
  simpa using ⟨hs.1.update hs.2, allCurrent_empty⟩

/-- Other operations return no flushed index. -/
lemma flushed_completed {op : StoreOp H ρ} {d : Disk H ρ} (h : ∀ rows, op ≠ .indexFlushed rows) :
    ∀ d', (Event.completed op d).flushed? = some d'
      → AllCurrent (IndexStore.loadRows d'.index) := by
  intro d' hd
  cases op with
  | indexFlushed rows => exact absurd rfl (h rows)
  | _ => cases hd

/-- Without a pointer nothing has been indexed, and so nothing exported. -/
lemma ExportInv.seedRows_eq_nil {latest : ℤ} (h : ExportInv T (.looked latest) w)
    (hc : w.disk.current = none) : seedRows (w.disk.parts .blocks) = [] := by
  have hempty : w.mem.index.byHash = .empty := h.first hc
  exact Ingest.seedRows_eq_nil <| by simpa [hempty, BtcParser.ledger] using h.ledger.point .blocks

/-- **The step lemma.** -/
lemma exportInv_step {c c' : Point H ρ} {w' : World H ρ} (h : ExportInv T c w)
    (hs : Step cfg fmt env c w c' w') : ExportInv T c' w' := by
  have hledger := ledgerInv_step h.ledger hs
  have hinv := h
  obtain ⟨⟨⟨hw, hpt, hq⟩, -, -, -⟩, hcur, hfirst, hall⟩ := h
  cases hs with
  | tick n => exact ⟨hledger, hcur, hfirst, hall⟩
  | consume cs =>
      refine ⟨hledger, hcur, ?_, hall⟩
      cases c with
      | seeded latest p => exact hfirst.elim
      | _ => simpa [First] using hfirst
  | fail f hc =>
      refine ⟨hledger, hcur, ?_, hall⟩
      cases c with
      | looping g l => exact fun h => (hfirst h).1
      | _ => first | exact hfirst | exact hc.elim
  | idle _ _ => exact ⟨hledger, hcur, hfirst, hall⟩
  | look _ _ _ =>
      exact ⟨hledger, hcur, hfirst, hall.writeLatest (by rintro d ⟨⟩)
        (flushed_completed (by rintro rows ⟨⟩))⟩
  | resume _ => exact ⟨hledger, hcur, hfirst, hall⟩
  | fresh _ _ => exact ⟨hledger, hcur, hfirst, hall⟩
  -- there is nothing to seed from
  | seed hc ht => simp [hinv.seedRows_eq_nil hc, highestRows] at ht
  | seedFlush => exact hfirst.elim
  | live _ => exact ⟨hledger, hcur, hfirst, hall⟩
  | detach _ _ _ => exact ⟨hledger, hcur, hfirst, hall⟩
  | recordFlags =>
      refine ⟨hledger, by simpa using hcur, by simpa [First] using hfirst, hall.statusFlush
        (by rintro d ⟨⟩) (flushed_completed (by rintro rows ⟨⟩))⟩
  | recordLog log =>
      exact ⟨hledger, hcur, hfirst, hall.writeReorgLog (by rintro d ⟨⟩)
        (flushed_completed (by rintro rows ⟨⟩))⟩
  | keep _ => exact ⟨hledger, by simpa using hcur, by simpa [First] using hfirst, hall⟩
  | rewind _ _ => exact ⟨hledger, by simpa using hcur, by simpa [First] using hfirst, hall⟩
  | settle _ =>
      exact ⟨hledger, hcur, by rintro ⟨⟩, hall.writeCurrent (by rintro d ⟨⟩)
        (flushed_completed (by rintro rows ⟨⟩))⟩
  | settled =>
      refine ⟨hledger, by simpa using hcur, by simpa [First] using hfirst, hall.statusFlush
        (by rintro d ⟨⟩) (flushed_completed (by rintro rows ⟨⟩))⟩
  | enter _ => exact ⟨hledger, hcur, fun h => ⟨hfirst h, fun _ => hq id⟩, hall⟩
  -- a block is buffered only if it is new to the index, which then has it
  | process _ _ =>
      exact ⟨hledger, ⟨by simpa [takeBlock] using hcur.1, allCurrent_takeIndex hcur.2 _⟩,
        fun h => ⟨by simpa [takeBlock] using (hfirst h).1, by rintro ⟨⟩⟩,
        hall.push rfl (by rintro d ⟨⟩)⟩
  | prefetched _ _ _ =>
      exact ⟨hledger, ⟨by simpa [takeBlock] using hcur.1, allCurrent_takeIndex hcur.2 _⟩,
        fun h => ⟨by simpa [takeBlock] using (hfirst h).1, by rintro ⟨⟩⟩,
        hall.push rfl (by rintro d ⟨⟩)⟩
  | save => exact ⟨hledger, hcur, hfirst, hall⟩
  | halt _ => exact ⟨hledger, hcur, hfirst, hall⟩
  -- the buffered rows are written; the ledger says which
  | drain =>
      refine ⟨hledger, by simpa using hcur,
        by simpa [First, Loop.clear, Disk.applyParts] using hfirst,
        hall.writeParts (by rintro _ _ _ d ⟨⟩) (flushed_completed (by rintro rows ⟨⟩))⟩
  -- from here on a restart finds the blocks again
  | flushIndex =>
      have hflush := allCurrent_flush hcur
      refine ⟨hledger, by rw [World.indexFlush_mem]; exact hflush, ?_, hall.indexFlush
        (by rintro d ⟨⟩) fun rows d hd => ?_⟩
      · intro hc hl
        rw [World.indexFlush_disk] at hc
        obtain ⟨hb, hp⟩ := hfirst hc
        simp [hb, hp hl, Dict.update_empty]
      · cases hd
        have hload := (hw.indexFlush fmt.indexIsFull).loaded
        simp only [World.indexFlush_mem, World.indexFlush_disk] at hload
        rw [← hload]
        exact hflush.1
  | flushStatus =>
      refine ⟨hledger, by simpa using hcur, by simpa [First] using hfirst, hall.statusFlush
        (by rintro d ⟨⟩) (flushed_completed (by rintro rows ⟨⟩))⟩
  | point _ =>
      exact ⟨hledger, hcur, by rintro ⟨⟩, hall.writeCurrent (by rintro d ⟨⟩)
        (flushed_completed (by rintro rows ⟨⟩))⟩
  | close _ =>
      exact ⟨hledger, hcur, by rintro ⟨⟩, hall.writeCurrent (by rintro d ⟨⟩)
        (flushed_completed (by rintro rows ⟨⟩))⟩
  | closeFresh hh => exact ⟨hledger, hcur, fun h => hfirst h hh, hall⟩

/-- Between two passes. -/
structure RestExport (T : BlockTree H ρ) (s : State H ρ) : Prop where
  ledger : RestLedger T 0 s
  current : AllCurrent (IndexStore.loadRows s.disk.index)
  first : s.disk.current = none → IndexStore.loadRows s.disk.index = .empty
  log : ∀ e ∈ s.log, Event.Accounted T 0 e
    ∧ ∀ d, e.flushed? = some d → AllCurrent (IndexStore.loadRows d.index)

lemma restExport_start : RestExport T (State.start : State H ρ) :=
  ⟨restLedger_fresh, allCurrent_empty, fun _ => rfl, by rintro e ⟨⟩⟩

lemma RestExport.exportInv {s : State H ρ} (h : RestExport T s) : ExportInv T .start s.world := by
  refine ⟨h.ledger.ledgerInv, ?_, fun hc => ?_, by rintro e ⟨⟩⟩
  · simp only [State.world, h.ledger.rest.pending, h.ledger.rest.loaded]
    exact ⟨h.current, allCurrent_empty⟩
  · exact h.ledger.rest.loaded.trans (h.first hc)

lemma RestExport.ends {s : State H ρ} (h : RestExport T s) {c : Point H ρ} {w : World H ρ}
    (hw : Ends cfg fmt env s c w) : ExportInv T c w :=
  hw.invariant (I := ExportInv T) (fun _ _ _ _ => exportInv_step) h.exportInv

lemma restExport_next {i : Label T} {s s' : State H ρ} (h : RestExport T s) (ha : noCrash i s)
    (hs : next cfg fmt i s = some s') : RestExport T s' := by
  have hledger := restLedger_next h.ledger ha hs
  have hlog : ∀ {env : PassEnv T} {c : Point H ρ} {w : World H ρ}, Ends cfg fmt env s c w →
      ∀ e ∈ s.log ++ w.trace, Event.Accounted T 0 e
        ∧ ∀ d, e.flushed? = some d → AllCurrent (IndexStore.loadRows d.index) := by
    intro env c w hw e he
    have hend := h.ends hw
    exact (List.mem_append.mp he).elim (h.log e) fun he =>
      ⟨hend.ledger.accounted e he, hend.flushed e he⟩
  have hend : ∀ {env : PassEnv T} {c : Point H ρ} {w : World H ρ}, Ends cfg fmt env s c w →
      AllCurrent (IndexStore.loadRows w.disk.index)
        ∧ (w.disk.current = none → IndexStore.loadRows w.disk.index = .empty) := by
    intro env c w hw
    obtain ⟨hl, hc, hf, -⟩ := h.ends hw
    rw [← hl.records.recorded.loaded]
    cases hw with
    | ok => exact ⟨hc.1, hf⟩
    | error => exact ⟨hc.1, hf⟩
  cases outcome_of_next hs with
  | done hw => exact ⟨hledger, (hend hw).1, (hend hw).2, hlog hw⟩
  | abandoned hw => exact ⟨hledger, (hend hw).1, (hend hw).2, hlog hw⟩
  | died hw => exact ⟨hledger, (hend hw).1, (hend hw).2, hlog hw⟩
  | crash => exact ha.elim
  | restart => exact ⟨hledger, h.current, h.first, h.log⟩
  | consume k n => exact ⟨hledger, h.current, h.first, h.log⟩

/-- **The run lemma.** -/
lemma restExport_of_reach {s : State H ρ} (h : (system cfg fmt T).Reach noCrash s) :
    RestExport T s :=
  h.invariant (I := RestExport T) (by rintro _ rfl; exact restExport_start)
    fun _ _ _ hs ha hstep => restExport_next hs ha hstep

end Ingest

end BtcParser
