import BtcParser.Rpc.IngestFrame
import BtcParser.Rpc.IngestSteps

/-!
What the state files record is true: heights and parents are those of the blocks named, whatever
the node does and wherever a pass is cut short.

* `DiskTrue` is the property of the files. It holds in every snapshot, so it is found after a
  crash at any effect.
* `Recorded` adds what relates the objects in memory to the files: the index in memory is the one
  a reload would give, and `block_status.csv` lags behind only while the table is dirty.
* `recInv_step` is the step lemma, and `rest_next` says what a step of the loop around the passes
  keeps.
-/

namespace BtcParser

variable {H ρ : Type} [DecidableEq H] {T : BlockTree H ρ}

/-- The rows of an index tell the truth about their blocks. -/
def IndexTrue (T : BlockTree H ρ) (d : Dict H (IndexRow H)) : Prop :=
  ∀ h r, d.get? h = some r →
    r.blockhash = h ∧ r.height = T.height h ∧ r.previousblockhash = T.parent h

/-- So does a `blocks` row. -/
def EventTrue (T : BlockTree H ρ) (e : BlockEvent H ρ) : Prop :=
  e.height = T.height e.hash ∧ e.previousblockhash = T.parent e.hash

lemma indexTrue_empty : IndexTrue T (.empty : Dict H (IndexRow H)) := fun h r hr => by
  simp at hr

lemma IndexTrue.set {d : Dict H (IndexRow H)} (hd : IndexTrue T d) {n : ℤ} {h : H} {p : Option H}
    (hn : n = T.height h) (hp : p = T.parent h) (v : ℕ) : IndexTrue T (d.set h ⟨n, h, p, v⟩) := by
  intro x r hr
  rw [Dict.get?_set] at hr
  split_ifs at hr with hx
  · cases hr
    exact ⟨hx.symm, hx ▸ hn, hx ▸ hp⟩
  · exact hd x r hr

lemma IndexTrue.update {d e : Dict H (IndexRow H)} (hd : IndexTrue T d) (he : IndexTrue T e) :
    IndexTrue T (d.update e) := by
  intro x r hr
  rw [Dict.get?_update, Option.or_eq_some_iff] at hr
  rcases hr with hr | ⟨-, hr⟩
  · exact he x r hr
  · exact hd x r hr

lemma IndexTrue.add {s : IndexStore H} (hs : IndexTrue T s.pending) {n : ℤ} {h : H}
    {p : Option H} (hn : n = T.height h) (hp : p = T.parent h) (v : ℕ) :
    IndexTrue T (s.add n h p v).pending := by
  rcases s.add_cases n h p v with ⟨-, -, -, he⟩ | ⟨-, he⟩
  · rwa [he]
  · rw [he]
    exact hs.set hn hp v

lemma IndexTrue.seed {s : IndexStore H} (hs : IndexTrue T s.pending)
    {rows : List (BlockEvent H ρ)} (hr : ∀ e ∈ rows, EventTrue T e) :
    IndexTrue T (seedIndex s rows).pending := by
  induction rows generalizing s with
  | nil => exact hs
  | cons e rows ih =>
      have he := hr e (by simp)
      exact ih (hs.add he.1 he.2 1) fun e' he' => hr e' (by simp [he'])

@[simp] lemma seedIndex_byHash (s : IndexStore H) (rows : List (BlockEvent H ρ)) :
    (seedIndex s rows).byHash = s.byHash := by
  induction rows generalizing s with
  | nil => rfl
  | cons e rows ih => exact (ih _).trans (s.add_byHash ..)

omit [DecidableEq H] in
lemma eventTrue_rowsOf (h : H) (prevTime : Option ℤ) {e : BlockEvent H ρ}
    (he : e ∈ (Ingest.rowsOf (T.block h) prevTime .blocks).filterMap Row.blockEvent?) :
    EventTrue T e := by
  simp only [Ingest.rowsOf, List.filterMap_cons, Row.blockEvent?, List.filterMap_nil,
    List.mem_singleton] at he
  subst he
  simp [EventTrue, BlockTree.height, BlockTree.parent]

/-- The files tell the truth about the blocks they name. -/
structure DiskTrue (T : BlockTree H ρ) (d : Disk H ρ) : Prop where
  index : IndexTrue T (IndexStore.loadRows d.index)
  blocks : d.BlocksAll (EventTrue T)
  current : ∀ p, d.current = some p → ∃ h, p.2 = some h ∧ T.height h = p.1

lemma diskTrue_fresh : DiskTrue T (Disk.fresh : Disk H ρ) :=
  ⟨indexTrue_empty, Disk.blocksAll_fresh, by rintro p ⟨⟩⟩

lemma DiskTrue.consume {d : Disk H ρ} (hd : DiskTrue T d) (k : Kind) (n : ℕ) :
    DiskTrue T (d.consume k n) :=
  ⟨hd.index, hd.blocks.consume n, hd.current⟩

lemma DiskTrue.applyPart {d : Disk H ρ} (hd : DiskTrue T d) {k : Kind}
    {e : PartEffect (Row H ρ)}
    (he : k = .blocks → ∀ l, e.lines = some l → ∀ b ∈ blockEvents l, EventTrue T b) :
    DiskTrue T (d.applyPart k e) :=
  ⟨hd.index, hd.blocks.applyPart he, hd.current⟩

/-- The objects in memory and the files belong together. -/
structure Recorded (T : BlockTree H ρ) (w : World H ρ) : Prop where
  kept : w.Kept (DiskTrue T)
  loaded : w.mem.index.byHash = IndexStore.loadRows w.disk.index
  pending : IndexTrue T w.mem.index.pending
  synced : w.mem.status.dirty = false → w.mem.status.entries = w.disk.status

namespace Ingest

/-- A pointer names a block of its height, or nothing below height `0`. -/
def PointerTrue (T : BlockTree H ρ) (p : Pointer H) : Prop :=
  match p.2 with
  | some h => T.height h = p.1
  | none => p.1 = -1

omit [DecidableEq H] in
lemma PointerTrue.height {n : ℤ} {hash : Option H} {h : H} (hp : PointerTrue T (n, hash))
    (hh : hash = some h) : T.height h = n := by
  subst hh
  exact hp

omit [DecidableEq H] in
/-- One below a block stands its parent. -/
lemma pointerTrue_parent {row : IndexRow H} {h : H} (hr : row.blockhash = h
    ∧ row.height = T.height h ∧ row.previousblockhash = T.parent h) :
    PointerTrue T (row.height - 1, row.previousblockhash) := by
  obtain ⟨-, hn, hp⟩ := hr
  cases hpar : T.parent h with
  | none =>
      have := T.parent_eq_none.mp hpar
      simp [PointerTrue, hp, hpar, hn, this]
  | some p =>
      have := T.height_of_parent hpar
      simp only [PointerTrue, hp, hpar, hn]
      omega

/-- The local variables of the loop tell the truth. -/
def LoopTrue (T : BlockTree H ρ) (l : Loop H ρ) : Prop :=
  PointerTrue T (l.height, l.hash)
    ∧ ∀ e ∈ (l.buffers .blocks).filterMap Row.blockEvent?, EventTrue T e

/-- What holds of the local variables at a control point. -/
def PointTrue (T : BlockTree H ρ) : Point H ρ → Prop
  | .looked latest => 0 ≤ latest
  | .seeded latest p => 0 ≤ latest ∧ ∃ h, p.2 = some h ∧ T.height h = p.1
  | .located latest p => 0 ≤ latest ∧ ∃ h, p.2 = some h ∧ T.height h = p.1
  | .detached latest a => 0 ≤ latest ∧ T.height a.2 = a.1
  | .recorded latest a => 0 ≤ latest ∧ T.height a.2 = a.1
  | .based latest p => 0 ≤ latest ∧ PointerTrue T p
  | .rewound latest p => 0 ≤ latest ∧ PointerTrue T p
  | .looping _ l => LoopTrue T l
  | .saving _ l ks _ => LoopTrue T l ∧ ks.Nodup ∧ ∀ k ∉ ks, l.buffers k = []
  | .indexed _ l _ => LoopTrue T l ∧ ∀ k, l.buffers k = []
  | .flagged _ l _ => LoopTrue T l ∧ ∀ k, l.buffers k = []
  | _ => True

omit [DecidableEq H] in
lemma WalkBack.height [DecidableEq H] {env : PassEnv T} {index : IndexStore H} {n : ℤ} {h : H}
    {ds : List (ℤ × H)} {a : ℤ × H} (hw : WalkBack env index n h ds a) : T.height a.2 = a.1 := by
  induction hw with
  | found _ _ _ hlive => exact hlive.height
  | walk _ _ _ _ _ _ ih => exact ih

lemma LoopTrue.take {l : Loop H ρ} (hl : LoopTrue T l) {h : H}
    (hh : T.height h = l.height + 1) (index : IndexStore H) : LoopTrue T (l.take T h index) := by
  refine ⟨hh, fun e he => ?_⟩
  simp only [Loop.take] at he
  split_ifs at he
  · rw [List.filterMap_append, List.mem_append] at he
    exact he.elim (hl.2 e) (eventTrue_rowsOf h _)
  · exact hl.2 e he

omit [DecidableEq H] in
lemma buffers_clear {l : Loop H ρ} {k k' : Kind} (h : k' ≠ k → l.buffers k' = []) :
    (l.clear k).buffers k' = [] := by
  by_cases hk : k' = k
  · subst hk
    simp [Loop.clear]
  · simpa [Loop.clear, hk] using h hk

omit [DecidableEq H] in
lemma LoopTrue.clear {l : Loop H ρ} (hl : LoopTrue T l) (k : Kind) : LoopTrue T (l.clear k) := by
  refine ⟨hl.1, fun e he => ?_⟩
  by_cases hk : k = .blocks
  · subst hk
    simp [Loop.clear] at he
  · simp only [Loop.clear, Function.update_of_ne (Ne.symm hk)] at he
    exact hl.2 e he

end Ingest

namespace Recorded

open Ingest

variable {w : World H ρ}

lemma byHash (h : Recorded T w) : IndexTrue T w.mem.index.byHash := h.loaded ▸ h.kept.disk.index

lemma contains_of_has (hr : Recorded T w) (hq : w.mem.index.pending = .empty) {h : H}
    (hh : w.mem.index.Has h) : (IndexStore.loadRows w.disk.index).contains h = true := by
  rw [← hr.loaded]
  simpa [IndexStore.Has, hq] using hh

lemma tick (h : Recorded T w) (n : ℕ) : Recorded T { w with calls := n } :=
  ⟨⟨h.kept.disk, h.kept.trace⟩, h.loaded, h.pending, h.synced⟩

lemma consumed (h : Recorded T w) (cs : List (Kind × ℕ)) : Recorded T (w.consumed cs) :=
  ⟨h.kept.consumed (fun _ _ _ hd => hd.consume _ _) cs, by simpa using h.loaded, h.pending,
    by simpa using h.synced⟩

lemma writeLatest (h : Recorded T w) (p : Pointer H) : Recorded T (w.writeLatest p) :=
  ⟨(h.kept.effect ⟨h.kept.disk.index, h.kept.disk.blocks, h.kept.disk.current⟩).completed _,
    h.loaded, h.pending, h.synced⟩

lemma writeReorgLog (h : Recorded T w) (log : ReorgLog H) : Recorded T (w.writeReorgLog log) :=
  ⟨(h.kept.effect ⟨h.kept.disk.index, h.kept.disk.blocks, h.kept.disk.current⟩).completed _,
    h.loaded, h.pending, h.synced⟩

lemma writeCurrent (h : Recorded T w) {n : ℤ} {x : H} (hx : T.height x = n) :
    Recorded T (w.writeCurrent (n, some x)) :=
  ⟨(h.kept.effect ⟨h.kept.disk.index, h.kept.disk.blocks, by
      rintro p ⟨⟩
      exact ⟨x, rfl, hx⟩⟩).completed _, h.loaded, h.pending, h.synced⟩

lemma indexFlush (h : Recorded T w) (isFull : IndexPart H → Bool) :
    Recorded T (w.indexFlush isFull) := by
  have hload := w.mem.index.loadRows_flushParts isFull w.disk.index fun x r hr =>
    (h.pending x r hr).1
  have hindex : IndexTrue T
      (IndexStore.loadRows (w.mem.index.flushParts isFull w.disk.index)) := by
    rw [hload]
    exact h.kept.disk.index.update h.pending
  refine ⟨h.kept.indexFlush ⟨hindex, h.kept.disk.blocks, h.kept.disk.current⟩, ?_, ?_, ?_⟩
  · simp [hload, h.loaded]
  · simpa using indexTrue_empty
  · simpa using h.synced

lemma statusFlush (h : Recorded T w) : Recorded T w.statusFlush := by
  refine ⟨h.kept.statusFlush ⟨h.kept.disk.index, h.kept.disk.blocks, h.kept.disk.current⟩,
    by simpa using h.loaded, by simpa using h.pending, fun _ => ?_⟩
  simp only [World.statusFlush_mem, World.statusFlush_disk, BlockStatusStore.flush,
    BlockStatusStore.flushFile]
  split_ifs with hd
  · rfl
  · exact h.synced (by simpa using hd)

lemma writeParts (h : Recorded T w) {fmt : Format (Row H ρ)} {atomic : Bool} {k : Kind}
    {rows : List (Row H ρ)}
    (hr : k = .blocks → ∀ e ∈ rows.filterMap Row.blockEvent?, EventTrue T e) :
    Recorded T (w.writeParts fmt atomic k rows) := by
  refine ⟨h.kept.writeParts fun d e hd _ hl => hd.applyPart fun hk l hel b hb => ?_,
    by simpa [Disk.applyParts] using h.loaded, by simpa using h.pending,
    by simpa [Disk.applyParts] using h.synced⟩
  obtain ⟨c, rfl⟩ := hl l hel
  exact hr hk b (by simpa using hb)

/-- The objects may change in ways that no row of the index sees. -/
lemma withIndex (h : Recorded T w) {index : IndexStore H} (hb : index.byHash = w.mem.index.byHash)
    (hp : IndexTrue T index.pending) : Recorded T { w with mem := { w.mem with index := index } } :=
  ⟨⟨h.kept.disk, h.kept.trace⟩, hb.trans h.loaded, hp, h.synced⟩

end Recorded

namespace BlockStatusStore

/-- A table that is clean afterwards was left alone. -/
lemma eq_of_not_dirty_setCanonical {s : BlockStatusStore H} {n : ℤ} {h : H} {b : Bool}
    (hd : (s.setCanonical n h b).dirty = false) : s.setCanonical n h b = s := by
  unfold setCanonical at hd ⊢
  split_ifs at hd ⊢
  rfl

lemma eq_of_not_dirty_setCanonicalIfPresent {s : BlockStatusStore H} {n : ℤ} {h : H} {b : Bool}
    (hd : (s.setCanonicalIfPresent n h b).dirty = false) : s.setCanonicalIfPresent n h b = s := by
  unfold setCanonicalIfPresent at hd ⊢
  split at hd
  · rfl
  · split_ifs at hd ⊢
    rfl

lemma eq_of_not_dirty_setDetached {ds : List (ℤ × H)} {s : BlockStatusStore H}
    (hd : (Ingest.setDetached ds s).dirty = false) : Ingest.setDetached ds s = s := by
  induction ds generalizing s with
  | nil => rfl
  | cons d ds ih =>
      have h1 := ih hd
      have hd' : (s.setCanonical d.1 d.2 false).dirty = false :=
        (congrArg BlockStatusStore.dirty h1).symm.trans hd
      exact h1.trans (eq_of_not_dirty_setCanonical hd')

end BlockStatusStore

namespace Ingest

open BlockStatusStore

/-- Where rows of the index may be staged and not yet flushed. -/
def Point.stages : Point H ρ → Prop
  | .seeded .. => True
  | .looping .. => True
  | .saving .. => True
  | .failed .. => True
  | _ => False

/-- What holds at every step of a pass. -/
structure RecInv (T : BlockTree H ρ) (c : Point H ρ) (w : World H ρ) : Prop where
  recorded : Recorded T w
  point : PointTrue T c
  quiet : ¬ c.stages → w.mem.index.pending = .empty

variable {cfg : RpcConfig} {fmt : Formats H ρ} {env : PassEnv T}

lemma recorded_takeBlock {w : World H ρ} (hw : Recorded T w) (h : H) (l : Loop H ρ) :
    Recorded T (takeBlock T h l w) := by
  refine ⟨⟨hw.kept.disk, hw.kept.trace.push rfl (by rintro d ⟨⟩)⟩, ?_, ?_, fun hd => ?_⟩
  · simpa [takeBlock] using hw.loaded
  · simp only [takeBlock, takeIndex]
    split_ifs
    · exact hw.pending.add rfl rfl _
    · exact hw.pending
  · simp only [takeBlock] at hd ⊢
    have he := eq_of_not_dirty_setCanonicalIfPresent hd
    rw [he] at hd ⊢
    exact hw.synced hd

/-- **The step lemma**: every step keeps the records true. -/
lemma recInv_step {c c' : Point H ρ} {w w' : World H ρ} (h : RecInv T c w)
    (hs : Step cfg fmt env c w c' w') : RecInv T c' w' := by
  obtain ⟨hw, hc, hq⟩ := h
  cases hs with
  | tick n => exact ⟨hw.tick n, hc, hq⟩
  | consume cs => exact ⟨hw.consumed cs, hc, hq⟩
  | fail f _ => exact ⟨hw, trivial, fun h => absurd trivial h⟩
  | idle _ _ => exact ⟨hw, trivial, hq⟩
  | look _ h0 _ => exact ⟨hw.writeLatest _, h0, hq⟩
  | resume hp => exact ⟨hw, ⟨hc, hw.kept.disk.current _ hp⟩, hq⟩
  | fresh _ _ => exact ⟨hw, ⟨hc, rfl⟩, hq⟩
  | seed _ ht =>
      have hrows := hw.kept.disk.blocks.seedRows
      exact ⟨hw.withIndex (by simp) (hw.pending.seed hrows), ⟨hc, _, rfl,
        (hrows _ (List.mem_of_mem_filter ht)).1.symm⟩, fun h => absurd trivial h⟩
  | seedFlush => exact ⟨hw.indexFlush _, hc, fun _ => by simp⟩
  | live hh =>
      obtain ⟨h0, h, ⟨⟩, hx⟩ := hc
      exact ⟨hw, ⟨h0, hx⟩, hq⟩
  -- the flags on disk are the old ones until they are flushed
  | detach _ _ hwalk =>
      refine ⟨⟨⟨hw.kept.disk, hw.kept.trace⟩, hw.loaded, hw.pending, fun hd => ?_⟩, ⟨hc.1,
        hwalk.height⟩, hq⟩
      have he := eq_of_not_dirty_setDetached hd
      simp only [he] at hd ⊢
      exact hw.synced hd
  | recordFlags => exact ⟨hw.statusFlush, hc, fun _ => by simpa using hq id⟩
  | recordLog log => exact ⟨hw.writeReorgLog log, hc, hq⟩
  | keep _ => exact ⟨hw.withIndex (by simp) (by simpa using hw.pending), hc,
      fun _ => by simpa using hq id⟩
  -- a row knows the height and the hash of its parent
  | @rewind _ _ p row h hlt =>
      refine ⟨hw.withIndex (by simp) (by simpa using hw.pending), ⟨hc.1, ?_⟩,
        fun _ => by simpa using hq id⟩
      obtain ⟨⟨x, hx⟩, -⟩ := IndexStore.mem_staleRows.mp
        (IndexStore.earliestStale_some _ h).1
      exact pointerTrue_parent (hw.byHash x row hx)
  -- a pointer without a hash is at the height `-1`, below every last height
  | @settle _ _ p h =>
      obtain ⟨n, hash⟩ := p
      obtain ⟨h0, hp⟩ := hc
      cases hash with
      | some x => exact ⟨hw.writeCurrent hp, trivial, hq⟩
      | none =>
          simp only [PointerTrue] at hp h
          omega
  | settled => exact ⟨hw.statusFlush, trivial, fun _ => by simpa using hq id⟩
  | enter h => exact ⟨hw, ⟨hc.2, by simp⟩, fun h => absurd trivial h⟩
  | process _ hh =>
      exact ⟨recorded_takeBlock hw _ _, hc.take hh.height _, fun h => absurd trivial h⟩
  | prefetched _ hh _ =>
      exact ⟨recorded_takeBlock hw _ _, hc.take hh.height _, fun h => absurd trivial h⟩
  | save => exact ⟨hw, ⟨hc, by decide, fun k hk => absurd (Kind.mem_all k) hk⟩, hq⟩
  | halt _ => exact ⟨hw, ⟨hc, by decide, fun k hk => absurd (Kind.mem_all k) hk⟩, hq⟩
  -- a buffer that is written is cleared, and the others wait
  | drain =>
      obtain ⟨hl, hks, hb⟩ := hc
      rw [List.nodup_cons] at hks
      refine ⟨hw.writeParts fun hk => hk ▸ hl.2, ⟨hl.clear _, hks.2, fun k' hk' => ?_⟩,
        fun h => absurd trivial h⟩
      exact buffers_clear fun hne => hb k' (by simp [hne, hk'])
  | flushIndex => exact ⟨hw.indexFlush _, ⟨hc.1, fun k => hc.2.2 k (by simp)⟩, fun _ => by simp⟩
  | flushStatus => exact ⟨hw.statusFlush, hc, fun _ => by simpa using hq id⟩
  -- the loop holds a block of its height
  | point hh =>
      exact ⟨hw.writeCurrent (hc.1.1.height hh), hc.1, fun h => absurd trivial h⟩
  | close hh => exact ⟨hw.writeCurrent (hc.1.1.height hh), trivial, hq⟩
  | closeFresh _ => exact ⟨hw, trivial, hq⟩

/-! ### Between two passes -/

/-- What holds of the process and its files between two passes. -/
structure Rest (T : BlockTree H ρ) (s : State H ρ) : Prop where
  disk : DiskTrue T s.disk
  loaded : s.mem.index.byHash = IndexStore.loadRows s.disk.index
  pending : s.mem.index.pending = .empty
  synced : s.mem.status.dirty = false → s.mem.status.entries = s.disk.status

lemma rest_load {d : Disk H ρ} (hd : DiskTrue T d) (log : List (Event H ρ)) :
    Rest T ⟨.load d, d, log⟩ :=
  ⟨hd, rfl, rfl, fun _ => rfl⟩

lemma Rest.recInv {s : State H ρ} (h : Rest T s) : RecInv T .start s.world :=
  ⟨⟨⟨h.disk, by rintro e ⟨⟩⟩, h.loaded, h.pending ▸ indexTrue_empty, h.synced⟩, trivial,
    fun _ => h.pending⟩

/-- The records are true wherever a pass ends. -/
lemma Rest.ends {s : State H ρ} (h : Rest T s) {c : Point H ρ} {w : World H ρ}
    (hw : Ends cfg fmt env s c w) : RecInv T c w :=
  hw.invariant (I := RecInv T) (fun _ _ _ _ => recInv_step) h.recInv

lemma rest_next {i : Label T} {s s' : State H ρ} (h : Rest T s)
    (hs : next cfg fmt i s = some s') : Rest T s' := by
  cases outcome_of_next hs with
  | done hw =>
      obtain ⟨hw, -, hq⟩ := h.ends hw
      exact ⟨hw.kept.disk, hw.loaded, hq id, hw.synced⟩
  | abandoned hw =>
      obtain ⟨hw, -, -⟩ := h.ends hw
      exact ⟨hw.kept.disk, hw.loaded, rfl, hw.synced⟩
  | died hw => exact rest_load (h.ends hw).recorded.kept.disk _
  | crash hw hn hd =>
      exact rest_load ((h.ends hw).recorded.kept.trace _ (List.mem_of_getElem? hn) _ hd) _
  | restart => exact rest_load h.disk _
  | consume k n => exact ⟨h.disk.consume k n, h.loaded, h.pending, h.synced⟩

end Ingest

end BtcParser
