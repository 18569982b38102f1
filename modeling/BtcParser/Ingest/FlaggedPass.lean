import BtcParser.Ingest.Flags

/-!
A pass over a chain that does not change, and the flags.

* `Aligned` is what a pass finds that nothing is waiting for `current.csv`: the records are in
  step, and no row is of an older schema or could be seeded.
* `PassFlags` is the invariant of a pass over `Z`: the records are on the way to `Z` in memory, on
  disk and in every snapshot, and what recovery and the loop have put right is as `PointFlags`
  says. In an aligned pass every write of `current.csv` leaves the records in step.
* `passFlags_step` is the step lemma.
-/

namespace BtcParser

variable {H ρ : Type} [DecidableEq H] {T : BlockTree H ρ}

/-- The records in the files when `current.csv` has just been written. -/
def Event.written? : Event H ρ → Option (Records H)
  | .completed (.currentWritten _) d => some d.records
  | _ => none

/-- Nothing is waiting for `current.csv`. -/
structure Aligned (T : BlockTree H ρ) (w : World H ρ) : Prop where
  records : InStep T w.disk.records
  mem : w.mem.status.entries = w.disk.status
  index : AllCurrent w.disk.records.index
  rows : w.disk.current = none → w.disk.BlocksAll fun _ => False

/-- The files are on the way to the active chain. -/
structure DiskMidway (Z : ActiveChain T) (n : ℤ) (d : Disk H ρ) : Prop where
  records : Midway Z n d.records
  rows : d.current = none → d.BlocksAll fun e => e.hash ∈ Z ∧ T.height e.hash ≤ n

lemma DiskMidway.consume {Z : ActiveChain T} {n : ℤ} {d : Disk H ρ} (hd : DiskMidway Z n d)
    (k : Kind) (j : ℕ) : DiskMidway Z n (d.consume k j) :=
  ⟨hd.records, fun hc => (hd.rows hc).consume j⟩

namespace Ingest

/-- The variables of the loop and the records, in a pass over `Z`. -/
structure LoopFlags (Z : ActiveChain T) (n : ℤ) (aligned : Prop) (l : Loop H ρ)
    (index : IndexStore H) (r : Records H) : Prop where
  nonneg : 0 ≤ n
  le : l.height ≤ n
  hash : ∀ h, l.hash = some h → h ∈ Z
  facing : Facing Z n aligned l.height r
  staged : ∀ x row, index.pending.get? x = some row → T.height x ≤ l.height
  rows : ∀ e ∈ (l.buffers .blocks).filterMap Row.blockEvent?, e.hash ∈ Z ∧ T.height e.hash ≤ n

/-- The pointer a pass over `Z` continues from. -/
structure BaseFlags (Z : ActiveChain T) (n : ℤ) (aligned : Prop) (p : Pointer H)
    (w : World H ρ) : Prop where
  hash : ∀ h, p.2 = some h → h ∈ Z
  mem : Facing Z n aligned p.1 w.records
  disk : Facing Z n aligned p.1 w.disk.records
  old : ∀ x row, w.disk.records.index.get? x = some row →
    row.schemaVersion < currentIndexSchemaVersion → ¬ aligned ∧ p.1 ≤ n

/-- A pointer that comes from the rows on disk. -/
structure Seeded (Z : ActiveChain T) (n : ℤ) (aligned : Prop) (p : Pointer H) (w : World H ρ) :
    Prop where
  current : w.disk.current = none
  not_aligned : ¬ aligned
  le : p.1 ≤ n
  hash : ∀ h, p.2 = some h → h ∈ Z

/-- What has been put right at a control point. -/
def PointFlags (Z : ActiveChain T) (n : ℤ) (aligned : Prop) (w : World H ρ) : Point H ρ → Prop
  | .start => aligned → Aligned T w
  | .looked m => m = n ∧ (aligned → Aligned T w)
  | .seeded m p => m = n ∧ Seeded Z n aligned p w
  | .located m p => m = n
      ∧ (w.disk.current = some p ∧ (aligned → Aligned T w) ∨ Seeded Z n aligned p w)
  | .detached m a => m = n ∧ a.2 ∈ Z ∧ Facing Z n aligned a.1 w.records
      ∧ ∀ x row, w.disk.records.index.get? x = some row →
        row.schemaVersion < currentIndexSchemaVersion → ¬ aligned ∧ a.1 ≤ n
  | .recorded m a => m = n ∧ BaseFlags Z n aligned (a.1, some a.2) w
  | .based m p => m = n ∧ BaseFlags Z n aligned p w
  | .rewound m p => m = n ∧ BaseFlags Z n aligned p w
  | .settled => InStep T w.records ∧ ∀ p, w.disk.current = some p → ∃ h ∈ Z, p.2 = some h
  | .looping g l => g.latest = n ∧ LoopFlags Z n aligned l w.mem.index w.records
  | .saving g l _ _ => g.latest = n ∧ LoopFlags Z n aligned l w.mem.index w.records
  | .indexed g l _ => g.latest = n ∧ LoopFlags Z n aligned l w.mem.index w.records
  | .flagged g l _ => g.latest = n ∧ LoopFlags Z n aligned l w.mem.index w.records
      ∧ w.mem.status.dirty = false
  | .done b => b = true → InStep T w.disk.records
      ∧ ∀ p, w.disk.current = some p → (∃ h ∈ Z, p.2 = some h) ∧ w.mem.status.dirty = false
  | .failed _ => True

/-- The invariant of a pass over `Z`. -/
structure PassFlags (Z : ActiveChain T) (n : ℤ) (aligned : Prop) (c : Point H ρ)
    (w : World H ρ) : Prop where
  records : RecInv T c w
  kept : w.Kept (DiskMidway Z n)
  mem : Midway Z n w.records
  young : ∀ x row, w.mem.index.pending.get? x = some row → x ∈ Z ∧ T.height x ≤ n
    ∧ (row.schemaVersion < currentIndexSchemaVersion → w.disk.current = none)
  writes : aligned → w.All fun e => ∀ r, e.written? = some r → InStep T r
  point : PointFlags Z n aligned w c

end Ingest

/-! ### What the operations do to the records -/

namespace World

variable (w : World H ρ)

@[simp] lemma records_consumed (cs : List (Kind × ℕ)) :
    (w.consumed cs).disk.records = w.disk.records := by
  simp [Disk.records]

@[simp] lemma records_writeParts (fmt : Format (Row H ρ)) (atomic : Bool) (k : Kind)
    (rows : List (Row H ρ)) : (w.writeParts fmt atomic k rows).disk.records = w.disk.records := by
  simp [Disk.records, Disk.applyParts]

lemma records_of {w w' : World H ρ} (hd : w'.disk.records = w.disk.records)
    (hm : w'.mem.status = w.mem.status) : w'.records = w.records := by
  rw [World.records, World.records, hd, hm]

variable {w}

lemma records_indexFlush (hw : Recorded T w) (isFull : IndexPart H → Bool) :
    (w.indexFlush isFull).disk.records
      = { w.disk.records with index := w.disk.records.index.update w.mem.index.pending } := by
  simp only [Disk.records, indexFlush_disk]
  rw [w.mem.index.loadRows_flushParts isFull w.disk.index fun x r hr => (hw.pending x r hr).1]

/-- After a flush the flags on disk are those in memory. -/
lemma records_statusFlush (hw : Recorded T w) : w.statusFlush.disk.records = w.records := by
  simp only [World.records, Disk.records, statusFlush_disk, BlockStatusStore.flushFile]
  split_ifs with hd
  · rfl
  · rw [hw.synced (by simpa using hd)]

end World

namespace Ingest

variable {Z : ActiveChain T} {env : PassEnv T} {n m : ℤ} {aligned : Prop} {cfg : RpcConfig}
  {fmt : Formats H ρ} {c c' : Point H ρ} {w w' : World H ρ} {g : Goal} {l : Loop H ρ}
  {p : Pointer H}

/-- A step that changes neither the records nor the objects. -/
lemma PointFlags.of_same (hd : w'.disk.records = w.disk.records)
    (hs : w'.mem.status = w.mem.status) (hi : w'.mem.index = w.mem.index)
    (hb : w.disk.BlocksAll (fun _ => False) → w'.disk.BlocksAll fun _ => False)
    (h : PointFlags Z n aligned w c) : PointFlags Z n aligned w' c := by
  have hc : w'.disk.current = w.disk.current := congrArg Records.current hd
  have hst : w'.disk.status = w.disk.status := congrArg Records.flags hd
  have hr : w'.records = w.records := World.records_of hd hs
  have hal : Aligned T w → Aligned T w' := fun ha =>
    ⟨hd ▸ ha.records, by rw [hs, hst, ha.mem], hd ▸ ha.index, fun hn => hb (ha.rows (hc ▸ hn))⟩
  have hseed : ∀ {p}, Seeded Z n aligned p w → Seeded Z n aligned p w' := fun hp =>
    ⟨hc.trans hp.current, hp.not_aligned, hp.le, hp.hash⟩
  have hbase : ∀ {p}, BaseFlags Z n aligned p w → BaseFlags Z n aligned p w' := fun hp =>
    ⟨hp.hash, hr ▸ hp.mem, hd ▸ hp.disk, hd ▸ hp.old⟩
  cases c with
  | start => exact fun ha => hal (h ha)
  | looked m => exact ⟨h.1, fun ha => hal (h.2 ha)⟩
  | seeded m p => exact ⟨h.1, hseed h.2⟩
  | located m p =>
      exact ⟨h.1, h.2.imp (fun hp => ⟨hc.trans hp.1, fun ha => hal (hp.2 ha)⟩) hseed⟩
  | detached m a => exact ⟨h.1, h.2.1, hr ▸ h.2.2.1, hd ▸ h.2.2.2⟩
  | recorded m a => exact ⟨h.1, hbase h.2⟩
  | based m p => exact ⟨h.1, hbase h.2⟩
  | rewound m p => exact ⟨h.1, hbase h.2⟩
  | settled => exact ⟨hr ▸ h.1, hc ▸ h.2⟩
  | looping g l => exact ⟨h.1, hr ▸ hi ▸ h.2⟩
  | saving g l ks last => exact ⟨h.1, hr ▸ hi ▸ h.2⟩
  | indexed g l last => exact ⟨h.1, hr ▸ hi ▸ h.2⟩
  | flagged g l last => exact ⟨h.1, hr ▸ hi ▸ h.2.1, hs ▸ h.2.2⟩
  | done b => exact fun hb => ⟨hd ▸ (h hb).1, hc ▸ hs ▸ (h hb).2⟩
  | failed f => trivial

/-! ### Up to the pointer -/

lemma PassFlags.seed (h : PassFlags Z n aligned (.looked m) w)
    (hc : w.disk.current = none) {top : BlockEvent H ρ}
    (ht : top ∈ highestRows (seedRows (w.disk.parts .blocks)))
    (hrec : RecInv T (.seeded m (top.height, some top.hash)) { w with mem := { w.mem with
      index := seedIndex w.mem.index (seedRows (w.disk.parts .blocks)) } }) :
    PassFlags Z n aligned (.seeded m (top.height, some top.hash)) { w with mem := { w.mem with
      index := seedIndex w.mem.index (seedRows (w.disk.parts .blocks)) } } := by
  have hrows := (h.kept.disk.rows hc).seedRows
  have htop := List.mem_of_mem_filter ht
  have htrue := (h.records.recorded.kept.disk.blocks.seedRows top htop).1
  refine ⟨hrec, ⟨h.kept.disk, h.kept.trace⟩, h.mem, fun x row hx => ?_, h.writes, h.point.1, hc,
    fun ha => ((h.point.2 ha).rows hc).seedRows top htop, ?_, ?_⟩
  · rcases get?_pending_seedIndex hx with hx | ⟨e, he, rfl⟩
    · exact h.young x row hx
    · exact ⟨(hrows e he).1, (hrows e he).2, fun _ => hc⟩
  · simp only
    rw [htrue]
    exact (hrows top htop).2
  · rintro _ ⟨⟩
    exact (hrows top htop).1

/-- The index is flushed. -/
lemma PassFlags.indexFlush (h : PassFlags Z n aligned c w) (isFull : IndexPart H → Bool) :
    (w.indexFlush isFull).Kept (DiskMidway Z n) ∧ Midway Z n (w.indexFlush isFull).records
      ∧ (aligned → (w.indexFlush isFull).All fun e => ∀ r, e.written? = some r → InStep T r)
      ∧ (w.indexFlush isFull).records
        = { w.records with index := w.records.index.update w.mem.index.pending } := by
  have hd := World.records_indexFlush h.records.recorded isFull
  have hr : (w.indexFlush isFull).records
      = { w.records with index := w.records.index.update w.mem.index.pending } := by
    rw [World.records, hd]
    simp [World.records]
  have hdisk : (w.indexFlush isFull).disk
      = { w.disk with index := w.mem.index.flushParts isFull w.disk.index } :=
    World.indexFlush_disk w isFull
  refine ⟨h.kept.indexFlush ⟨?_, h.kept.disk.rows⟩, hr ▸ h.mem.update h.young,
    fun ha => (h.writes ha).indexFlush (by rintro _ ⟨⟩) (by rintro _ _ ⟨⟩), hr⟩
  rw [← hdisk, hd]
  exact h.kept.disk.records.update h.young

/-- The flags are flushed. -/
lemma PassFlags.statusFlush (h : PassFlags Z n aligned c w) :
    w.statusFlush.Kept (DiskMidway Z n) ∧ w.statusFlush.records = w.records
      ∧ (aligned → w.statusFlush.All fun e => ∀ r, e.written? = some r → InStep T r) := by
  have hd := World.records_statusFlush h.records.recorded
  refine ⟨h.kept.statusFlush ⟨?_, h.kept.disk.rows⟩, ?_,
    fun ha => (h.writes ha).statusFlush (by rintro _ ⟨⟩) (by rintro _ ⟨⟩)⟩
  · rw [← World.statusFlush_disk, hd]
    exact h.mem
  · rw [World.records, hd]
    simp [World.records, BlockStatusStore.flush]

/-- `current.csv` is written. -/
lemma PassFlags.writeCurrent (h : PassFlags Z n aligned c w) {x : H} (hx : x ∈ Z)
    (hm : T.height x = m) (h0 : 0 ≤ n) (hmem : Facing Z n aligned m w.records)
    (hdisk : Facing Z n aligned m w.disk.records)
    (hold : ∀ y row, w.disk.records.index.get? y = some row →
      row.schemaVersion < currentIndexSchemaVersion → m ≤ n) :
    (w.writeCurrent (m, some x)).Kept (DiskMidway Z n)
      ∧ Midway Z n (w.writeCurrent (m, some x)).records
      ∧ (aligned → (w.writeCurrent (m, some x)).All
        fun e => ∀ r, e.written? = some r → InStep T r) := by
  have hwrite := h.kept.disk.records.write hdisk hx hm h0 hold
  refine ⟨(h.kept.effect (f := fun d => { d with current := some (m, some x) })
    ⟨hwrite, by rintro ⟨⟩⟩).completed _, h.mem.write hmem hx hm h0 hold,
    fun ha => (h.writes ha).writeCurrent (by rintro _ ⟨⟩) ?_⟩
  rintro _ ⟨⟩
  exact hdisk.inStep h.kept.disk.records hx hm (.inl ha)

lemma PassFlags.seedFlush (h : PassFlags Z n aligned (.seeded m p) w)
    (hrec : RecInv T (.located m p) (w.indexFlush fmt.indexIsFull)) :
    PassFlags Z n aligned (.located m p) (w.indexFlush fmt.indexIsFull) := by
  obtain ⟨hkept, hmid, hwrites, -⟩ := h.indexFlush fmt.indexIsFull
  obtain ⟨hm, hseed⟩ := h.point
  refine ⟨hrec, hkept, hmid, by simp, hwrites, hm, .inr ⟨?_, hseed.not_aligned, hseed.le,
    hseed.hash⟩⟩
  simpa using hseed.current

/-! ### The pointer and the chain -/

/-- The pointer is on the chain. -/
lemma PassFlags.live {x : H} (h : PassFlags Z n aligned (.located m (T.height x, some x)) w)
    (hx : x ∈ Z) : BaseFlags Z n aligned (T.height x, some x) w := by
  have hhash : ∀ y, some x = some y → y ∈ Z := by
    rintro _ ⟨⟩
    exact hx
  rcases h.point.2 with ⟨hc, hal⟩ | hs
  · have htop : w.disk.records.top = some x := by simp [Records.top, Disk.records, hc]
    have hmem : aligned → InStep T w.records := fun ha => by
      rw [World.records, (hal ha).mem]
      exact (hal ha).records
    refine ⟨hhash, Facing.live h.mem htop hx hmem,
      Facing.live h.kept.disk.records htop hx fun ha => (hal ha).records,
      fun y row hrow hv => ⟨fun ha => ?_, ?_⟩⟩
    · exact ((hal ha).index y row hrow).not_gt hv
    · exact (h.kept.disk.records.old y row hrow hv).2 _ hc
  · have hc : w.disk.records.current = none := hs.current
    exact ⟨hhash, Facing.bare h.mem hc (fun ha => absurd ha hs.not_aligned) _,
      Facing.bare h.kept.disk.records hc (fun ha => absurd ha hs.not_aligned) _,
      fun _ _ _ _ => ⟨hs.not_aligned, hs.le⟩⟩

/-- The pointer is off the chain: then it comes from `current.csv`. -/
lemma PassFlags.detach (hon : env.On Z) {k : ℤ} {x : H} {ds : List (ℤ × H)} {a : ℤ × H}
    (h : PassFlags Z n aligned (.located m (k, some x)) w) (hx : x ∉ Z) (hle : k ≤ Z.tip)
    (hw : WalkBack env w.mem.index k x ds a)
    (hrec : RecInv T (.detached m a)
      { w with mem := { w.mem with status := setDetached ds.reverse w.mem.status } }) :
    PassFlags Z n aligned (.detached m a)
      { w with mem := { w.mem with status := setDetached ds.reverse w.mem.status } } := by
  obtain ⟨hm, ⟨hc, hal⟩ | hs⟩ := h.point
  · obtain ⟨-, y, hy, hheight⟩ := h.records.point
    obtain rfl : x = y := Option.some.inj hy
    have ht := h.records.recorded.byHash
    have htop : w.disk.records.top = some x := by simp [Records.top, Disk.records, hc]
    obtain ⟨hmid, hfacing⟩ := hw.facing (s := w.mem.status) hon ht hheight hx hle htop h.mem
      fun ha => by
        rw [(hal ha).mem]
        exact (hal ha).records
    obtain ⟨-, -, haz, hah, hlt, -⟩ := hw.detached hon ht hheight hx
    refine ⟨hrec, ⟨h.kept.disk, h.kept.trace⟩, hmid, h.young, h.writes, hm, haz, hfacing,
      fun y row hrow hv => ⟨fun ha => ?_, ?_⟩⟩
    · exact ((hal ha).index y row hrow).not_gt hv
    · exact hlt.le.trans ((h.kept.disk.records.old y row hrow hv).2 _ hc)
  · exact absurd (hs.hash x rfl) hx

lemma PassFlags.recordFlags {a : ℤ × H} (h : PassFlags Z n aligned (.detached m a) w)
    (hrec : RecInv T (.recorded m a) w.statusFlush) :
    PassFlags Z n aligned (.recorded m a) w.statusFlush := by
  obtain ⟨hkept, hr, hwrites⟩ := h.statusFlush
  obtain ⟨hm, haz, hfacing, hold⟩ := h.point
  have hd := World.records_statusFlush h.records.recorded
  refine ⟨hrec, hkept, hr ▸ h.mem, by simpa using h.young, hwrites, hm, ?_, hr ▸ hfacing,
    hd ▸ hfacing, hd ▸ hold⟩
  rintro _ ⟨⟩
  exact haz

/-- Older rows are gone through again. They are of blocks of the chain, and so are their
parents. -/
lemma BaseFlags.rewind (h : BaseFlags Z n aligned p w) (hr : Recorded T w) {row : IndexRow H}
    (hmid : Midway Z n w.disk.records) (hstale : w.mem.index.earliestStale.1 = some row)
    (hlt : row.height - 1 < p.1) :
    BaseFlags Z n aligned (row.height - 1, row.previousblockhash) w := by
  obtain ⟨⟨x, hx⟩, hv⟩ := IndexStore.mem_staleRows.mp (IndexStore.earliestStale_some _ hstale).1
  have hx' : w.disk.records.index.get? x = some row := by rwa [hr.loaded] at hx
  obtain ⟨hev, hle⟩ := h.old x row hx' hv
  refine ⟨fun y hy => ?_, h.mem.rewind hlt.le hle hev, h.disk.rewind hlt.le hle hev,
    fun _ _ _ _ => ⟨hev, hlt.le.trans hle⟩⟩
  exact Z.parentClosed x y (hmid.old x row hx' hv).1 ((hr.byHash x row hx).2.2.symm.trans hy)

/-- Nothing to parse: the pointer is written, and the records are in step. -/
lemma PassFlags.settle (h : PassFlags Z n aligned (.rewound m p) w) (hle : m ≤ p.1)
    (hrec : RecInv T .settled (w.writeCurrent p)) :
    PassFlags Z n aligned .settled (w.writeCurrent p) := by
  obtain ⟨rfl, hbase⟩ := h.point
  obtain ⟨h0, hp⟩ := h.records.point
  obtain ⟨k, hash⟩ := p
  cases hash with
  | none =>
      simp only [PointerTrue] at hp hle
      omega
  | some x =>
      have hx := hbase.hash x rfl
      have hm : T.height x = k := hp
      obtain ⟨hkept, hmid, hwrites⟩ := h.writeCurrent hx hm h0 hbase.mem hbase.disk
        fun y row hrow hv => (hbase.old y row hrow hv).2
      have hpending := h.records.quiet id
      refine ⟨hrec, hkept, hmid, fun y row hy => ?_, hwrites,
        hbase.mem.inStep h.mem hx hm (.inr hle), ?_⟩
      · rw [World.writeCurrent_mem, hpending] at hy
        simp at hy
      · rintro _ ⟨⟩
        exact ⟨x, hx, rfl⟩

lemma PassFlags.settled (h : PassFlags Z n aligned .settled w)
    (hrec : RecInv T (.done true) w.statusFlush) :
    PassFlags Z n aligned (.done true) w.statusFlush := by
  obtain ⟨hkept, hr, hwrites⟩ := h.statusFlush
  refine ⟨hrec, hkept, hr ▸ h.mem, by simpa using h.young, hwrites, fun _ => ⟨?_, fun p hp => ?_⟩⟩
  · rw [World.records_statusFlush h.records.recorded]
    exact h.point.1
  · exact ⟨h.point.2 p (by simpa using hp), by simp [BlockStatusStore.flush]⟩

/-! ### The loop -/

/-- A block of the chain is taken up. -/
lemma PassFlags.take {x : H} (h : PassFlags Z n aligned (.looping g l) w)
    (hlt : l.height < g.latest) (hx : Z.hashAt (l.height + 1) = some x)
    (hrec : RecInv T (.looping g (l.take T x w.mem.index)) (takeBlock T x l w)) :
    PassFlags Z n aligned (.looping g (l.take T x w.mem.index)) (takeBlock T x l w) := by
  obtain ⟨hg, hloop⟩ := h.point
  have hz := Z.mem_of_hashAt hx
  have hheight := Z.height_of_hashAt hx
  have hle : l.height + 1 ≤ n := by omega
  -- a staged row is one of before, or that of the block, of the current schema
  have hstaged : ∀ y row, (takeBlock T x l w).mem.index.pending.get? y = some row →
      w.mem.index.pending.get? y = some row
        ∨ y = x ∧ row.schemaVersion = currentIndexSchemaVersion := by
    intro y row hy
    simp only [takeBlock, takeIndex] at hy
    split_ifs at hy
    · exact (w.mem.index.get?_pending_add hy).imp_right fun hy => ⟨hy.1, by rw [hy.2]⟩
    · exact .inl hy
  refine ⟨hrec, ⟨h.kept.disk, h.kept.trace.push rfl (by rintro d ⟨⟩)⟩,
    h.mem.confirm hz (by omega), fun y row hy => ?_,
    fun ha => (h.writes ha).push rfl (by rintro _ ⟨⟩), hg,
    ⟨hloop.nonneg, by simpa [Loop.take] using hle, ?_, hloop.facing.confirm hz hheight,
      fun y row hy => ?_, fun e he => ?_⟩⟩
  · rcases hstaged y row hy with hy | ⟨rfl, hv⟩
    · exact h.young y row hy
    · exact ⟨hz, by omega, fun hlt => absurd hv hlt.ne⟩
  · rintro _ ⟨⟩
    exact hz
  · rcases hstaged y row hy with hy | ⟨rfl, -⟩
    · exact (hloop.staged y row hy).trans (by simp [Loop.take])
    · simp [Loop.take, hheight]
  · simp only [Loop.take] at he
    split_ifs at he
    · rw [List.filterMap_append, List.mem_append] at he
      rcases he with he | he
      · exact hloop.rows e he
      · simp only [rowsOf, List.filterMap_cons, Row.blockEvent?, List.filterMap_nil,
          List.mem_singleton] at he
        subst he
        simp only [T.blockHash_block]
        exact ⟨hz, by omega⟩
    · exact hloop.rows e he

lemma LoopFlags.clear {index : IndexStore H} {r : Records H}
    (h : LoopFlags Z n aligned l index r) (k : Kind) :
    LoopFlags Z n aligned (l.clear k) index r := by
  refine ⟨h.nonneg, h.le, h.hash, h.facing, h.staged, fun e he => ?_⟩
  by_cases hk : k = .blocks
  · subst hk
    simp [Loop.clear] at he
  · simp only [Loop.clear, Function.update_of_ne (Ne.symm hk)] at he
    exact h.rows e he

lemma PassFlags.drain {k : Kind} {ks : List Kind} {last : Bool}
    (h : PassFlags Z n aligned (.saving g l (k :: ks) last) w)
    (hrec : RecInv T (.saving g (l.clear k) ks last)
      (w.writeParts fmt.parts g.atomic k (l.buffers k))) :
    PassFlags Z n aligned (.saving g (l.clear k) ks last)
      (w.writeParts fmt.parts g.atomic k (l.buffers k)) := by
  obtain ⟨hg, hloop⟩ := h.point
  have hr : (w.writeParts fmt.parts g.atomic k (l.buffers k)).records = w.records :=
    World.records_of (World.records_writeParts ..) (by simp)
  refine ⟨hrec, h.kept.writeParts fun d e hd _ hl => ⟨hd.records, fun hc =>
      (hd.rows hc).applyPart fun hk s hs b hb => ?_⟩, hr ▸ h.mem,
    by simpa [Disk.applyParts] using h.young,
    fun ha => (h.writes ha).writeParts (by rintro _ _ _ _ ⟨⟩) (by rintro _ ⟨⟩), hg, ?_⟩
  · obtain ⟨b', rfl⟩ := hl s hs
    rw [blockEvents_writeCsv] at hb
    subst hk
    exact hloop.rows b hb
  · rw [hr, World.writeParts_mem]
    exact hloop.clear k

lemma PassFlags.flushIndex {last : Bool} (h : PassFlags Z n aligned (.saving g l [] last) w)
    (hrec : RecInv T (.indexed g l last) (w.indexFlush fmt.indexIsFull)) :
    PassFlags Z n aligned (.indexed g l last) (w.indexFlush fmt.indexIsFull) := by
  obtain ⟨hkept, hmid, hwrites, hr⟩ := h.indexFlush fmt.indexIsFull
  obtain ⟨hg, hloop⟩ := h.point
  exact ⟨hrec, hkept, hmid, by simp, hwrites, hg, hloop.nonneg, hloop.le, hloop.hash,
    hr ▸ hloop.facing.update hloop.staged, by simp, hloop.rows⟩

lemma PassFlags.flushStatus {last : Bool} (h : PassFlags Z n aligned (.indexed g l last) w)
    (hrec : RecInv T (.flagged g l last) w.statusFlush) :
    PassFlags Z n aligned (.flagged g l last) w.statusFlush := by
  obtain ⟨hkept, hr, hwrites⟩ := h.statusFlush
  obtain ⟨hg, hloop⟩ := h.point
  refine ⟨hrec, hkept, hr ▸ h.mem, by simpa using h.young, hwrites, hg, ?_,
    by simp [BlockStatusStore.flush]⟩
  rw [hr, World.statusFlush_mem]
  exact hloop

/-- A checkpoint moves the pointer. -/
lemma PassFlags.checkpoint {last : Bool} {x : H} (h : PassFlags Z n aligned (.flagged g l last) w)
    (hx : l.hash = some x) :
    (w.writeCurrent (l.height, some x)).Kept (DiskMidway Z n)
      ∧ Midway Z n (w.writeCurrent (l.height, some x)).records
      ∧ (aligned → (w.writeCurrent (l.height, some x)).All
        fun e => ∀ r, e.written? = some r → InStep T r)
      ∧ LoopFlags Z n aligned l w.mem.index (w.writeCurrent (l.height, some x)).records
      ∧ (n ≤ l.height → InStep T (w.writeCurrent (l.height, some x)).disk.records) := by
  obtain ⟨-, hloop, hdirty⟩ := h.point
  have hz := hloop.hash x hx
  have hheight := h.records.point.1.1.height hx
  have hclean : w.disk.records = w.records := by
    rw [World.records, h.records.recorded.synced hdirty]
    rfl
  obtain ⟨hkept, hmid, hwrites⟩ := h.writeCurrent hz hheight hloop.nonneg hloop.facing
    (hclean ▸ hloop.facing) fun _ _ _ _ => hloop.le
  exact ⟨hkept, hmid, hwrites, ⟨hloop.nonneg, hloop.le, hloop.hash, hloop.facing.write hz hheight,
    hloop.staged, hloop.rows⟩, fun hle => (hclean ▸ hloop.facing).inStep h.kept.disk.records hz
      hheight (.inr hle)⟩

lemma PassFlags.unstaged {last : Bool} (h : PassFlags Z n aligned (.flagged g l last) w) (x : H) :
    w.mem.index.pending.get? x = none := by
  rw [h.records.quiet id, Dict.get?_empty]

lemma PassFlags.movePointer {last : Bool} {x : H} (h : PassFlags Z n aligned (.flagged g l last) w)
    (hx : l.hash = some x) (hrec : RecInv T (.looping g l) (w.writeCurrent (l.height, some x))) :
    PassFlags Z n aligned (.looping g l) (w.writeCurrent (l.height, some x)) := by
  obtain ⟨hkept, hmid, hwrites, hloop, -⟩ := h.checkpoint hx
  exact ⟨hrec, hkept, hmid, fun y row hy => absurd ((h.unstaged y).symm.trans hy) (by simp),
    hwrites, h.point.1, hloop⟩

lemma PassFlags.close {x : H} (h : PassFlags Z n aligned (.flagged g l true) w)
    (hx : l.hash = some x)
    (hrec : RecInv T (.done (decide (g.latest ≤ l.height))) (w.writeCurrent (l.height, some x))) :
    PassFlags Z n aligned (.done (decide (g.latest ≤ l.height)))
      (w.writeCurrent (l.height, some x)) := by
  obtain ⟨hkept, hmid, hwrites, hloop, hin⟩ := h.checkpoint hx
  obtain ⟨hg, -, hdirty⟩ := h.point
  refine ⟨hrec, hkept, hmid, fun y row hy => absurd ((h.unstaged y).symm.trans hy) (by simp),
    hwrites, fun hdone => ⟨hin (hg ▸ of_decide_eq_true hdone), ?_⟩⟩
  rintro _ ⟨⟩
  exact ⟨⟨x, hloop.hash x hx, rfl⟩, hdirty⟩

/-- The chain is too short for a pass to look at it: nothing is recorded. -/
lemma PassFlags.idle (h : PassFlags Z n aligned .start w) (hneg : n < 0)
    (hrec : RecInv T (.done true) w) : PassFlags Z n aligned (.done true) w := by
  have hc : w.disk.current = none := by
    by_contra hc
    have := h.mem.looked hc
    omega
  refine ⟨hrec, h.kept, h.mem, h.young, h.writes, fun _ => ⟨⟨fun x hx hs => ?_, fun x hf _ =>
    (h.kept.disk.records.bare hc).1 x hf⟩, fun p hp => ?_⟩⟩
  · by_contra hf
    have hle := h.kept.disk.records.above x ((h.kept.disk.records.bare hc).2 x hx) hx hf hs
    have := T.height_nonneg x
    omega
  · rw [hc] at hp
    cases hp

/-- **The step lemma.** -/
lemma passFlags_step (hon : env.On Z) (hn : n = Z.tip - cfg.reorgConfirmations)
    (h : PassFlags Z n aligned c w) (hs : Step cfg fmt env c w c' w') :
    PassFlags Z n aligned c' w' := by
  have hrec := recInv_step h.records hs
  cases hs with
  | tick k =>
      exact ⟨hrec, ⟨h.kept.disk, h.kept.trace⟩, h.mem, h.young, h.writes,
        PointFlags.of_same (w := w) rfl rfl rfl id h.point⟩
  | consume cs =>
      have hd := w.records_consumed cs
      exact ⟨hrec, h.kept.consumed (fun _ _ _ hd => hd.consume _ _) cs,
        World.records_of hd rfl ▸ h.mem, by simpa using h.young, h.writes,
        h.point.of_same hd rfl rfl
          (w.consumed_disk cs (D := Disk.BlocksAll _) fun _ _ _ hb => hb.consume _)⟩
  | fail f _ => exact ⟨hrec, h.kept, h.mem, h.young, h.writes, trivial⟩
  -- the chain is too low: no height is confirmed yet
  | idle ht hneg => exact h.idle (by rw [hn, ← hon.tip ht]; exact hneg) hrec
  | look ht _ _ =>
      refine ⟨hrec, (h.kept.effect ⟨h.kept.disk.records, h.kept.disk.rows⟩).completed _, h.mem,
        h.young, fun ha => (h.writes ha).writeLatest (by rintro _ ⟨⟩) (by rintro _ ⟨⟩),
        by rw [hon.tip ht, hn], fun ha => ?_⟩
      exact ⟨(h.point ha).records, (h.point ha).mem, (h.point ha).index, (h.point ha).rows⟩
  | resume hc =>
      exact ⟨hrec, h.kept, h.mem, h.young, h.writes, h.point.1, .inl ⟨hc, h.point.2⟩⟩
  -- neither a pointer nor rows: the flags, if any, are those of a pass that was cut short
  | fresh hc _ =>
      refine ⟨hrec, h.kept, h.mem, h.young, h.writes, h.point.1, by rintro _ ⟨⟩,
        Facing.bare h.mem hc (fun ha => ?_) _,
        Facing.bare h.kept.disk.records hc (fun ha => (h.point.2 ha).records) _,
        fun x row hrow hv => ⟨fun ha => ((h.point.2 ha).index x row hrow).not_gt hv, ?_⟩⟩
      · rw [World.records, (h.point.2 ha).mem]
        exact (h.point.2 ha).records
      · have h0 : 0 ≤ n := h.point.1 ▸ h.records.point
        simp only
        omega
  | seed hc ht => exact h.seed hc ht hrec
  | seedFlush => exact h.seedFlush hrec
  -- the pointer is on the chain: there is nothing to detach
  | @live m k _ x hh =>
      have hk := hh.height
      subst hk
      exact ⟨hrec, h.kept, h.mem, h.young, h.writes, h.point.1,
        h.live (Z.mem_of_hashAt (hon.hashAt hh))⟩
  -- the pointer is off the chain: the walk finds what has to be flagged
  | @detach m k _ x live ds a hh hne hw =>
      have hat := hon.hashAt hh
      refine h.detach hon (fun hz => hne ?_) (Z.hashAt_isSome.mp (by simp [hat])).2 hw hrec
      obtain ⟨-, y, hy, hheight⟩ := h.records.point
      cases hy
      rw [Z.mem_iff, hheight, hat] at hz
      exact Option.some.inj hz
  | recordFlags => exact h.recordFlags hrec
  | recordLog log =>
      refine ⟨hrec, (h.kept.effect ⟨h.kept.disk.records, h.kept.disk.rows⟩).completed _, h.mem,
        h.young, fun ha => (h.writes ha).writeReorgLog (by rintro _ ⟨⟩) (by rintro _ ⟨⟩),
        h.point.1, h.point.2.hash, h.point.2.mem, h.point.2.disk, h.point.2.old⟩
  | keep _ =>
      exact ⟨hrec, ⟨h.kept.disk, h.kept.trace⟩, h.mem, by simpa using h.young, h.writes,
        h.point.1, h.point.2.hash, h.point.2.mem, h.point.2.disk, h.point.2.old⟩
  -- the rows above the new pointer are processed again, and confirmed then
  | rewind hstale hlt =>
      have hbase := h.point.2.rewind h.records.recorded h.kept.disk.records hstale hlt
      exact ⟨hrec, ⟨h.kept.disk, h.kept.trace⟩, h.mem, by simpa using h.young, h.writes,
        h.point.1, hbase.hash, hbase.mem, hbase.disk, hbase.old⟩
  | settle hle => exact h.settle hle hrec
  | settled => exact h.settled hrec
  -- the loop begins: the heights above the pointer are still to come
  | enter hlt =>
      obtain ⟨hg, hbase⟩ := h.point
      have hpending := h.records.quiet id
      exact ⟨hrec, h.kept, h.mem, h.young, h.writes, hg, hg ▸ h.records.point.1,
        by simp only; omega, hbase.hash, hbase.mem, by simp [hpending], by simp⟩
  | process hlt hh => exact h.take hlt (hon.hashAt hh) hrec
  | prefetched hlt hh _ => exact h.take hlt (hon.hashAt_worker hh) hrec
  | save => exact ⟨hrec, h.kept, h.mem, h.young, h.writes, h.point⟩
  | halt _ => exact ⟨hrec, h.kept, h.mem, h.young, h.writes, h.point⟩
  | drain => exact h.drain hrec
  | flushIndex => exact h.flushIndex hrec
  | flushStatus => exact h.flushStatus hrec
  | point hx => exact h.movePointer hx hrec
  | close hx => exact h.close hx hrec
  -- without a block taken up the pass has not caught up
  | closeFresh hx =>
      refine ⟨hrec, h.kept, h.mem, h.young, h.writes, fun hdone => ?_⟩
      obtain ⟨hg, hloop, -⟩ := h.point
      have hpoint := h.records.point.1.1
      simp only [PointerTrue, hx] at hpoint
      have h0 := hloop.nonneg
      simp only [decide_eq_true_eq] at hdone
      omega

end Ingest

end BtcParser
