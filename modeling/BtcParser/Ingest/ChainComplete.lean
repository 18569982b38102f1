import BtcParser.Ingest.Records

/-!
The files are closed under parents, as long as the loop takes up no block whose parent it has
neither just processed nor indexed.

* `Rooted d n h` is the property: following `previousblockhash` from the block `h` of height `n`
  through the index reaches a block of height `0`, one height at a time.
* `DiskClosed` is the invariant of the files: the index is closed under parents, each part of
  `blocks` is closed up to the index, and `current.csv` names an indexed block. It holds in every
  snapshot, so a crash before the first `current.csv` and the seeding after it are covered.
* `EventLinked` says of a block taken up that its parent is there. When that is so, from what the
  nodes answer, is the matter of the modules that build on this one.
* `chainInv_step` is the step lemma, and `restClosed_next` what a step of the loop around the passes
  keeps.
-/

namespace BtcParser

variable {H ρ : Type} [DecidableEq H] {T : BlockTree H ρ}

/-- Following `previousblockhash` from the block `h` of height `n` reaches height `0`. -/
inductive Rooted (d : Dict H (IndexRow H)) : ℤ → H → Prop
  | genesis {h : H} {row : IndexRow H} (hrow : d.get? h = some row) (h0 : row.height = 0) :
      Rooted d 0 h
  | step {n : ℤ} {h p : H} {row : IndexRow H} (hrow : d.get? h = some row)
      (hn : row.height = n + 1) (hp : row.previousblockhash = some p) (hr : Rooted d n p) :
      Rooted d (n + 1) h

/-- In a true index that is closed under parents, every block is rooted. -/
lemma rooted_of_closed {d : Dict H (IndexRow H)} (ht : IndexTrue T d)
    (hc : ParentClosed T.parent (fun h => d.contains h = true)) {h : H}
    (hh : d.contains h = true) : Rooted d (T.height h) h := by
  obtain ⟨n, hn⟩ := Int.eq_ofNat_of_zero_le (T.height_nonneg h)
  induction n generalizing h with
  | zero =>
      obtain ⟨row, hrow⟩ := Dict.contains_eq_true.mp hh
      rw [hn]
      exact .genesis hrow ((ht h row hrow).2.1.trans hn)
  | succ n ih =>
      obtain ⟨row, hrow⟩ := Dict.contains_eq_true.mp hh
      obtain ⟨p, hp, hheight⟩ := T.exists_parent (h := h) (by omega)
      obtain ⟨-, hrn, hrp⟩ := ht h row hrow
      have hroot := ih (hc h p hh hp) (by push_cast at hn; omega)
      rw [show T.height h = T.height p + 1 by omega]
      exact .step hrow (by omega) (hrp.trans hp) hroot

/-- Above height `0`, the parent of a rooted block is in the index. -/
lemma Rooted.parent {d : Dict H (IndexRow H)} {n : ℤ} {h : H} (hr : Rooted d n h) (hn : 0 < n) :
    ∃ row p, d.get? h = some row ∧ row.previousblockhash = some p ∧ d.contains p = true := by
  cases hr with
  | genesis => exact absurd hn (lt_irrefl 0)
  | step hrow _ hp hr =>
      refine ⟨_, _, hrow, hp, ?_⟩
      cases hr with
      | genesis hrow _ => exact Dict.contains_eq_true.mpr ⟨_, hrow⟩
      | step hrow _ _ _ => exact Dict.contains_eq_true.mpr ⟨_, hrow⟩

/-- The files are closed under parents. -/
structure DiskClosed (T : BlockTree H ρ) (d : Disk H ρ) : Prop where
  index : ParentClosed T.parent (fun h => (IndexStore.loadRows d.index).contains h = true)
  blocks : ∀ part, (d.parts .blocks).Holds part → ∀ e ∈ blockEvents part,
    ∀ p, T.parent e.hash = some p → (IndexStore.loadRows d.index).contains p = true
      ∨ ∃ e' ∈ blockEvents part, e'.hash = p
  current : ∀ n h, d.current = some (n, some h) →
    (IndexStore.loadRows d.index).contains h = true

lemma diskClosed_fresh : DiskClosed T (Disk.fresh : Disk H ρ) where
  index := fun h p hh => by simp [Disk.fresh, IndexStore.loadRows] at hh
  blocks := by rintro p ⟨n, hn | hn⟩ <;> cases hn
  current := by rintro n h ⟨⟩

lemma DiskClosed.consume {d : Disk H ρ} (hd : DiskClosed T d) (k : Kind) (n : ℕ) :
    DiskClosed T (d.consume k n) :=
  ⟨hd.index, fun p hp => hd.blocks p (Disk.holds_consume hp), hd.current⟩

/-- The parents of some rows are in the index or among the rows. -/
def RowsClosed (T : BlockTree H ρ) (d : Dict H (IndexRow H)) (rows : List (BlockEvent H ρ)) :
    Prop :=
  ∀ e ∈ rows, ∀ p, T.parent e.hash = some p → d.contains p = true ∨ ∃ e' ∈ rows, e'.hash = p

lemma DiskClosed.applyPart {d : Disk H ρ} (hd : DiskClosed T d) {k : Kind}
    {e : PartEffect (Row H ρ)} (he : k = .blocks → ∀ l, e.lines = some l →
      RowsClosed T (IndexStore.loadRows d.index) (blockEvents l)) :
    DiskClosed T (d.applyPart k e) where
  index := hd.index
  current := hd.current
  blocks part hpart := by
    rcases Disk.holds_applyPart hpart with hpart | ⟨hk, l, hl, rfl | ⟨q, hq, rfl⟩⟩
    · exact hd.blocks part hpart
    · exact he hk _ hl
    · intro b hb p hp
      simp only [blockEvents_append, List.mem_append] at hb ⊢
      rcases hb with hb | hb
      · rcases hd.blocks q hq b hb p hp with h | ⟨e', he', rfl⟩
        · exact .inl h
        · exact .inr ⟨e', .inl he', rfl⟩
      · rcases he hk l hl b hb p hp with h | ⟨e', he', rfl⟩
        · exact .inl h
        · exact .inr ⟨e', .inr he', rfl⟩

/-- Files that are true and closed name a rooted block in `current.csv`. -/
lemma DiskClosed.rooted {d : Disk H ρ} (hd : DiskClosed T d) (ht : DiskTrue T d) {n : ℤ}
    {hash : Option H} (hc : d.current = some (n, hash)) :
    ∃ h, hash = some h ∧ Rooted (IndexStore.loadRows d.index) n h := by
  obtain ⟨h, rfl, hn⟩ := ht.current _ hc
  refine ⟨h, rfl, ?_⟩
  simp only at hn
  exact hn ▸ rooted_of_closed ht.index hd.index (hd.current n h hc)

/-- The block taken up builds on the one just processed, or on an indexed one. -/
def EventLinked (T : BlockTree H ρ) : Event H ρ → Prop
  | .handled h last index =>
      match T.parent h with
      | none => True
      | some p => last = some p ∨ index.Has p
  | _ => True

instance (e : Event H ρ) : Decidable (EventLinked T e) :=
  match e with
  | .effect _ => isTrue trivial
  | .completed _ _ => isTrue trivial
  | .handled h last index =>
      match hp : T.parent h with
      | none => isTrue (by simp [EventLinked, hp])
      | some p => decidable_of_iff (last = some p ∨ index.Has p) (by simp [EventLinked, hp])

lemma EventLinked.parent {h p : H} {last : Option H} {index : IndexStore H}
    (he : EventLinked T (.handled h last index : Event H ρ)) (hp : T.parent h = some p) :
    last = some p ∨ index.Has p := by
  simpa [EventLinked, hp] using he

lemma eventLinked_of_parent {h : H} {last : Option H} (hp : T.parent h = last)
    (index : IndexStore H) : EventLinked T (.handled h last index : Event H ρ) := by
  simp only [EventLinked, hp]
  cases last with
  | none => trivial
  | some p => exact .inl rfl

/-- A block whose parent is indexed is linked. -/
lemma eventLinked_of_has {h : H} {last : Option H} {index : IndexStore H}
    (hp : ∀ p, T.parent h = some p → index.Has p) :
    EventLinked T (.handled h last index : Event H ρ) := by
  cases hpar : T.parent h with
  | none => simp [EventLinked, hpar]
  | some p => simpa [EventLinked, hpar] using .inr (hp p hpar)

namespace Ingest

/-- The `blocks` buffer holds the staged blocks, and only blocks that are indexed or staged. -/
structure Buffered (s : IndexStore H) (rows : List (Row H ρ)) : Prop where
  has : ∀ e ∈ rows.filterMap Row.blockEvent?, s.Has e.hash
  staged : ∀ h, s.pending.contains h = true →
    ∃ e ∈ rows.filterMap Row.blockEvent?, e.hash = h

/-- What the local variables name is indexed. -/
def PointIndexed (s : IndexStore H) : Point H ρ → Prop
  | .seeded _ p => ∀ h, p.2 = some h → s.Has h
  | .located _ p => ∀ h, p.2 = some h → s.Has h
  | .detached _ a => s.Has a.2
  | .recorded _ a => s.Has a.2
  | .based _ p => ∀ h, p.2 = some h → s.Has h
  | .rewound _ p => ∀ h, p.2 = some h → s.Has h
  | .looping _ l => (∀ h, l.hash = some h → s.Has h) ∧ Buffered s (l.buffers .blocks)
  | .saving _ l ks _ => (∀ h, l.hash = some h → s.Has h)
      ∧ (.blocks ∈ ks → Buffered s (l.buffers .blocks))
  | .indexed _ l _ => ∀ h, l.hash = some h → s.Has h
  | .flagged _ l _ => ∀ h, l.hash = some h → s.Has h
  | _ => True

/-- Files and index are closed under parents. -/
structure Closed (T : BlockTree H ρ) (w : World H ρ) : Prop where
  kept : w.Kept (DiskClosed T)
  staged : ParentClosed T.parent w.mem.index.Has

/-- What holds at every step of a pass whose blocks are linked. -/
def ChainInv (T : BlockTree H ρ) (c : Point H ρ) (w : World H ρ) : Prop :=
  RecInv T c w
    ∧ (w.All (EventLinked T) → Closed T w ∧ PointIndexed w.mem.index c)

variable {cfg : RpcConfig} {fmt : Formats H ρ} {env : PassEnv T} {w : World H ρ}

lemma Closed.writeCurrent (hc : Closed T w) (hr : Recorded T w)
    (hq : w.mem.index.pending = .empty) {p : Pointer H}
    (hp : ∀ h, p.2 = some h → w.mem.index.Has h) : Closed T (w.writeCurrent p) := by
  refine ⟨(hc.kept.effect ⟨hc.kept.disk.index, hc.kept.disk.blocks, ?_⟩).completed _, hc.staged⟩
  rintro n h ⟨⟩
  exact hr.contains_of_has hq (hp h rfl)

lemma Closed.indexFlush (hc : Closed T w) (hr : Recorded T w) (isFull : IndexPart H → Bool) :
    Closed T (w.indexFlush isFull) := by
  have hload := w.mem.index.loadRows_flushParts isFull w.disk.index fun x r hx =>
    (hr.pending x r hx).1
  have hhas : ∀ h, (IndexStore.loadRows (w.mem.index.flushParts isFull w.disk.index)).contains h
      = true ↔ w.mem.index.Has h := fun h => by
    rw [hload, Dict.contains_update, IndexStore.Has, hr.loaded]
  have hmono : ∀ h, (IndexStore.loadRows w.disk.index).contains h = true →
      w.mem.index.Has h := fun h hh => .inl (hr.loaded ▸ hh)
  refine ⟨hc.kept.indexFlush ⟨hc.staged.congr hhas, fun part hpart e he p hp => ?_,
    fun n h hcur => (hhas h).mpr (hmono h (hc.kept.disk.current n h hcur))⟩, ?_⟩
  · exact (hc.kept.disk.blocks part hpart e he p hp).imp_left fun h => (hhas p).mpr (hmono p h)
  · rw [World.indexFlush_mem]
    exact hc.staged.congr fun h => IndexStore.has_flush

lemma Closed.statusFlush (hc : Closed T w) : Closed T w.statusFlush :=
  ⟨hc.kept.statusFlush ⟨hc.kept.disk.index, hc.kept.disk.blocks, hc.kept.disk.current⟩,
    by simpa using hc.staged⟩

lemma Closed.writeParts (hc : Closed T w) (hr : Recorded T w) {format : Format (Row H ρ)}
    {atomic : Bool} {k : Kind} {rows : List (Row H ρ)}
    (hb : k = .blocks → Buffered w.mem.index rows) :
    Closed T (w.writeParts format atomic k rows) := by
  refine ⟨hc.kept.writeParts fun d e hd hi hl => hd.applyPart fun hk l hel => ?_,
    by simpa using hc.staged⟩
  obtain ⟨b, rfl⟩ := hl l hel
  obtain ⟨hhas, hstaged⟩ := hb hk
  rw [hi, ← hr.loaded, blockEvents_writeCsv]
  intro e' he' p hp
  exact (hc.staged _ _ (hhas e' he') hp).imp_right fun h => hstaged p h

/-- Seeding keeps the index closed: each part is closed up to the index. -/
lemma Closed.seed (hc : Closed T w) (hr : Recorded T w) :
    Closed T { w with mem := { w.mem with
      index := seedIndex w.mem.index (seedRows (w.disk.parts .blocks)) } } := by
  refine ⟨⟨hc.kept.disk, hc.kept.trace⟩, fun h p hh hp => ?_⟩
  simp only [has_seedIndex] at hh ⊢
  rcases hh with hh | ⟨e, he, rfl⟩
  · exact .inl (hc.staged h p hh hp)
  · obtain ⟨part, hpart, hep, hall⟩ := mem_seedRows he
    rcases hc.kept.disk.blocks part hpart e hep p hp with h | ⟨e', he', rfl⟩
    · exact .inl (.inl (hr.loaded ▸ h))
    · exact .inr ⟨e', hall e' he', rfl⟩

/-- The ancestor found by the walk is the parent of an indexed block. -/
lemma WalkBack.has {index : IndexStore H} (hs : ParentClosed T.parent index.Has)
    (ht : IndexTrue T index.byHash) {n : ℤ} {h : H} {ds : List (ℤ × H)} {a : ℤ × H}
    (hw : WalkBack env index n h ds a) : index.Has a.2 := by
  induction hw with
  | found hrow hp _ _ =>
      exact hs _ _ (IndexStore.has_of_get hrow) ((ht _ _ hrow).2.2.symm.trans hp)
  | walk _ _ _ _ _ _ ih => exact ih

lemma has_takeIndex {index : IndexStore H} {h x : H} :
    (takeIndex T h index).Has x ↔ x = h ∨ index.Has x := by
  unfold takeIndex
  split_ifs with hn
  · exact IndexStore.has_add
  · rw [Bool.not_eq_true] at hn
    exact ⟨.inr, fun hx => hx.elim (fun hx => hx ▸ IndexStore.has_of_needsExport hn) id⟩

/-- What the buffer holds after a block is taken up. -/
lemma Buffered.take {index : IndexStore H} {l : Loop H ρ}
    (hb : Buffered index (l.buffers .blocks)) (h : H) :
    Buffered (takeIndex T h index) ((l.take T h index).buffers .blocks) := by
  have hev : (rowsOf (T.block h) l.prevTime .blocks).filterMap Row.blockEvent?
      = [⟨T.height h, h, T.parent h, l.prevTime.map fun t => (T.block h).blockTime - t,
          (T.block h).blockEvent⟩] := by
    simp [rowsOf, Row.blockEvent?, BlockTree.height, BlockTree.parent]
  refine ⟨fun e he => has_takeIndex.mpr ?_, fun x hx => ?_⟩
  · simp only [Loop.take] at he
    split_ifs at he
    · rw [List.filterMap_append, hev, List.mem_append, List.mem_singleton] at he
      rcases he with he | rfl
      · exact .inr (hb.has e he)
      · exact .inl rfl
    · exact .inr (hb.has e he)
  · simp only [Loop.take, takeIndex] at hx ⊢
    split_ifs at hx ⊢ with hn
    · rw [List.filterMap_append, hev]
      rw [index.add_of_needsExport hn] at hx
      rcases (Dict.contains_set _ _ _ _).mp hx with rfl | hx
      · exact ⟨_, List.mem_append_right _ (List.mem_singleton.mpr rfl), rfl⟩
      · obtain ⟨e', he', rfl⟩ := hb.staged x hx
        exact ⟨e', List.mem_append_left _ he', rfl⟩
    · exact hb.staged x hx

lemma Closed.take (hc : Closed T w) {l : Loop H ρ}
    (hl : ∀ h, l.hash = some h → w.mem.index.Has h) {h : H}
    (he : EventLinked T (.handled h l.hash w.mem.index)) : Closed T (takeBlock T h l w) := by
  exact ⟨⟨hc.kept.disk, hc.kept.trace.push rfl (by rintro d ⟨⟩)⟩,
    hc.staged.insert (h := h) (fun x => has_takeIndex) fun p hp => (he.parent hp).elim (hl p) id⟩

/-- **The step lemma**: a step that takes up no unlinked block keeps files and index closed. -/
lemma chainInv_step {c c' : Point H ρ} {w' : World H ρ} (h : ChainInv T c w)
    (hs : Step cfg fmt env c w c' w') : ChainInv T c' w' := by
  obtain ⟨hrec, hchain⟩ := h
  have hrec' := recInv_step hrec hs
  refine ⟨hrec', fun hall => ?_⟩
  -- the events of this step are linked, so those before it are
  obtain ⟨hc, hp⟩ := hchain fun e he => hall e (hs.trace.subset he)
  obtain ⟨hw, hpt, hq⟩ := hrec
  cases hs with
  | tick n => exact ⟨⟨⟨hc.kept.disk, hc.kept.trace⟩, hc.staged⟩, hp⟩
  | consume cs => exact ⟨⟨hc.kept.consumed (fun _ _ _ hd => hd.consume _ _) cs, hc.staged⟩, hp⟩
  | fail f _ => exact ⟨hc, trivial⟩
  | idle _ _ => exact ⟨hc, trivial⟩
  | look _ _ _ =>
      exact ⟨⟨(hc.kept.effect ⟨hc.kept.disk.index, hc.kept.disk.blocks,
        hc.kept.disk.current⟩).completed _, hc.staged⟩, trivial⟩
  -- a pointer is written only to a block of the index
  | @resume _ _ p hcur =>
      obtain ⟨n, hash⟩ := p
      refine ⟨hc, fun h hh => .inl ?_⟩
      simp only at hh
      rw [hw.loaded]
      exact hc.kept.disk.current n h (hh ▸ hcur)
  | fresh _ _ => exact ⟨hc, by rintro h ⟨⟩⟩
  | seed _ ht =>
      refine ⟨hc.seed hw, ?_⟩
      rintro h ⟨⟩
      exact has_seedIndex.mpr (.inr ⟨_, List.mem_of_mem_filter ht, rfl⟩)
  | seedFlush =>
      refine ⟨hc.indexFlush hw _, fun h hh => ?_⟩
      rw [World.indexFlush_mem]
      exact IndexStore.has_flush.mpr (hp h hh)
  | live hh => exact ⟨hc, hp⟩
  -- the block where the walk ends is below an indexed one
  | detach _ _ hwalk =>
      exact ⟨⟨⟨hc.kept.disk, hc.kept.trace⟩, hc.staged⟩, hwalk.has hc.staged hw.byHash⟩
  | recordFlags => exact ⟨hc.statusFlush, by rw [World.statusFlush_mem]; exact hp⟩
  | recordLog log =>
      refine ⟨⟨(hc.kept.effect ⟨hc.kept.disk.index, hc.kept.disk.blocks,
        hc.kept.disk.current⟩).completed _, hc.staged⟩, ?_⟩
      rintro h ⟨⟩
      exact hp
  | keep _ =>
      exact ⟨⟨⟨hc.kept.disk, hc.kept.trace⟩, hc.staged.congr fun _ => IndexStore.has_earliestStale⟩,
        fun h hh => IndexStore.has_earliestStale.mpr (hp h hh)⟩
  -- the parent of a stale row is indexed, since the rows are closed under parents
  | rewind h _ =>
      refine ⟨⟨⟨hc.kept.disk, hc.kept.trace⟩, hc.staged.congr fun _ =>
        IndexStore.has_earliestStale⟩, fun x hx => IndexStore.has_earliestStale.mpr ?_⟩
      obtain ⟨⟨y, hy⟩, -⟩ := IndexStore.mem_staleRows.mp (IndexStore.earliestStale_some _ h).1
      exact hc.staged y x (.inl (Dict.contains_eq_true.mpr ⟨_, hy⟩))
        ((hw.byHash y _ hy).2.2.symm.trans hx)
  | settle h => exact ⟨hc.writeCurrent hw (hq id) hp, trivial⟩
  | settled => exact ⟨hc.statusFlush, trivial⟩
  | enter h =>
      refine ⟨hc, hp, ⟨by simp, fun h hh => ?_⟩⟩
      rw [hq id] at hh
      cases hh
  -- the parent of the block is the one the loop holds, which is indexed or staged
  | process _ hh =>
      have he := hall _ (List.mem_append_right _ (List.mem_singleton.mpr rfl))
      refine ⟨hc.take hp.1 he, ?_, hp.2.take _⟩
      rintro x ⟨⟩
      exact has_takeIndex.mpr (.inl rfl)
  | prefetched _ hh _ =>
      have he := hall _ (List.mem_append_right _ (List.mem_singleton.mpr rfl))
      refine ⟨hc.take hp.1 he, ?_, hp.2.take _⟩
      rintro x ⟨⟩
      exact has_takeIndex.mpr (.inl rfl)
  | save => exact ⟨hc, hp.1, fun _ => hp.2⟩
  | halt _ => exact ⟨hc, hp.1, fun _ => hp.2⟩
  -- the rows of the blocks file are those of staged blocks
  | @drain _ l _ k ks _ =>
      refine ⟨hc.writeParts hw fun hk => hk ▸ hp.2 (by simp [hk]),
        by rw [World.writeParts_mem]; exact hp.1, fun hks => ?_⟩
      have hne : Kind.blocks ≠ k := fun he => (List.nodup_cons.mp hpt.2.1).1 (he ▸ hks)
      simpa [Loop.clear, hne] using hp.2 (by simp [hks])
  | flushIndex =>
      refine ⟨hc.indexFlush hw _, fun h hh => ?_⟩
      rw [World.indexFlush_mem]
      exact IndexStore.has_flush.mpr (hp.1 h hh)
  | flushStatus => exact ⟨hc.statusFlush, by rw [World.statusFlush_mem]; exact hp⟩
  -- the pointer is moved behind the flush: its block is in the table
  | point hh =>
      refine ⟨hc.writeCurrent hw (hq id) fun x hx => hp x (hh.trans hx), hp, ?_⟩
      refine ⟨by simp [hpt.2], fun h hh => ?_⟩
      simp only [World.writeCurrent_mem, hq id] at hh
      cases hh
  | close hh => exact ⟨hc.writeCurrent hw (hq id) fun x hx => hp x (hh.trans hx), trivial⟩
  | closeFresh _ => exact ⟨hc, trivial⟩

/-- In the passes of this step, every block taken up is linked. -/
def linked (cfg : RpcConfig) (fmt : Formats H ρ) : Label T → State H ρ → Prop
  | .pass env, s => ∀ e ∈ s.trace cfg fmt env, EventLinked T e
  | .crash env _, s => ∀ e ∈ s.trace cfg fmt env, EventLinked T e
  | _, _ => True

/-- True and closed files, now and in the past. -/
structure RestClosed (T : BlockTree H ρ) (s : State H ρ) : Prop where
  rest : Rest T s
  closed : DiskClosed T s.disk
  log : ∀ e ∈ s.log, ∀ d, e.disk? = some d → DiskTrue T d ∧ DiskClosed T d

lemma RestClosed.chainInv {s : State H ρ} (h : RestClosed T s) : ChainInv T .start s.world :=
  ⟨h.rest.recInv, fun _ => ⟨⟨⟨h.closed, by rintro e ⟨⟩⟩, h.closed.index.congr fun x => by
    simp [IndexStore.Has, State.world, h.rest.pending, h.rest.loaded]⟩, trivial⟩⟩

lemma RestClosed.ends {s : State H ρ} (h : RestClosed T s) {c : Point H ρ} {w : World H ρ}
    (hw : Ends cfg fmt env s c w) (hl : ∀ e ∈ s.trace cfg fmt env, EventLinked T e) :
    Closed T w := by
  have hend := hw.invariant (I := ChainInv T) (fun _ _ _ _ => chainInv_step) h.chainInv
  rw [hw.trace_eq] at hl
  exact (hend.2 hl).1

lemma restClosed_next {i : Label T} {s s' : State H ρ} (h : RestClosed T s)
    (ha : linked cfg fmt i s) (hs : next cfg fmt i s = some s') : RestClosed T s' := by
  have hrest := rest_next h.rest hs
  -- the log after a pass, or after a part of one
  have hlog : ∀ {env : PassEnv T} {c : Point H ρ} {w : World H ρ} (l : List (Event H ρ)),
      Ends cfg fmt env s c w → (∀ e ∈ s.trace cfg fmt env, EventLinked T e) → l ⊆ w.trace →
      ∀ e ∈ s.log ++ l, ∀ d, e.disk? = some d → DiskTrue T d ∧ DiskClosed T d := by
    intro env c w l hw hl hsub e he d hd
    rcases List.mem_append.mp he with he | he
    · exact h.log e he d hd
    · exact ⟨(h.rest.ends hw).recorded.kept.trace e (hsub he) d hd,
        (h.ends hw hl).kept.trace e (hsub he) d hd⟩
  cases outcome_of_next hs with
  | done hw => exact ⟨hrest, (h.ends hw ha).kept.disk, hlog _ hw ha (List.Subset.refl _)⟩
  | abandoned hw => exact ⟨hrest, (h.ends hw ha).kept.disk, hlog _ hw ha (List.Subset.refl _)⟩
  | died hw => exact ⟨hrest, (h.ends hw ha).kept.disk, hlog _ hw ha (List.Subset.refl _)⟩
  | crash hw hn hd =>
      exact ⟨hrest, (h.ends hw ha).kept.trace _ (List.mem_of_getElem? hn) _ hd,
        hlog _ hw ha (List.take_subset _ _)⟩
  | restart => exact ⟨hrest, h.closed, h.log⟩
  | consume k n => exact ⟨hrest, h.closed.consume k n, h.log⟩

end Ingest

end BtcParser
