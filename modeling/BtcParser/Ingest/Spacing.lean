import BtcParser.Ingest.FixedChain
import BtcParser.Ingest.ExportedOnce

/-!
The time since the previous block, in the `blocks` rows.

The loop hands the time of one block on to the next (`prevTime`), and takes it over from the
pointer the pass starts from, from a skipped block, and from a block fetched inline or by a worker.

* `Spaced` is the property of a row: its spacing is taken against the block its
  `previousblockhash` names.
* `LoopOn` is the invariant of the loop, for a pass whose nodes have one chain throughout: the
  block just processed is on the chain, and `prevTime` is its time. So the block taken up next is
  its child.
* A pointer that is rewound to a stale row need not be on the chain. In runs without a crash no
  row is stale (`AllCurrent`).
* `block_spacing` is the result.
-/

namespace BtcParser

variable {H ρ : Type} {T : BlockTree H ρ}

/-- The time between the block and its parent. -/
def BlockTree.spacing (T : BlockTree H ρ) (h : H) : Option ℤ :=
  (T.parent h).map fun p => (T.block h).blockTime - (T.block p).blockTime

lemma BlockTree.spacing_eq_none {h : H} : T.spacing h = none ↔ T.height h = 0 := by
  rw [spacing, Option.map_eq_none_iff, T.parent_eq_none]

/-- The row tells the truth about its block, the spacing included. -/
structure Spaced (T : BlockTree H ρ) (e : BlockEvent H ρ) : Prop where
  row : EventTrue T e
  spacing : e.timeSincePrevBlockSec = T.spacing e.hash

/-- The spacing of a row, in the terms of the row. -/
lemma Spaced.eq {e : BlockEvent H ρ} (h : Spaced T e) :
    e.timeSincePrevBlockSec = e.previousblockhash.map fun p =>
      (T.block e.hash).blockTime - (T.block p).blockTime := by
  rw [h.spacing, BlockTree.spacing, h.row.2]

/-- Height `0` has none, and only height `0`. -/
lemma Spaced.eq_none_iff {e : BlockEvent H ρ} (h : Spaced T e) :
    e.timeSincePrevBlockSec = none ↔ e.height = 0 := by
  rw [h.spacing, BlockTree.spacing_eq_none, h.row.1]

/-- Every `blocks` row written so far is spaced. -/
def Disk.Spaced (T : BlockTree H ρ) (d : Disk H ρ) : Prop :=
  ∀ r ∈ (d.parts .blocks).written, ∀ e, r.blockEvent? = some e → BtcParser.Spaced T e

lemma Disk.Spaced.consume {d : Disk H ρ} (hd : d.Spaced T) (k : Kind) (n : ℕ) :
    (d.consume k n).Spaced T := by
  intro r hr
  by_cases hk : Kind.blocks = k
  · subst hk
    simp only [Disk.consume, Function.update_self, PartFiles.written_consume] at hr
    exact hd r hr
  · simp only [Disk.consume, Function.update_of_ne hk] at hr
    exact hd r hr

variable [DecidableEq H]

namespace Ingest

/-- The variables of the loop, in a pass over `Z`. -/
structure LoopOn (Z : ActiveChain T) (l : Loop H ρ) : Prop where
  hash : ∀ h, l.hash = some h → h ∈ Z
  prevTime : l.prevTime = l.hash.map fun h => (T.block h).blockTime
  rows : ∀ e ∈ (l.buffers .blocks).filterMap Row.blockEvent?, Spaced T e

/-- What the pass over `Z` continues from is on `Z`. -/
def PointOn (Z : ActiveChain T) : Point H ρ → Prop
  | .detached _ a => a.2 ∈ Z
  | .recorded _ a => a.2 ∈ Z
  | .based _ p => ∀ h, p.2 = some h → h ∈ Z
  | .rewound _ p => ∀ h, p.2 = some h → h ∈ Z
  | .looping _ l => LoopOn Z l
  | .saving _ l _ _ => LoopOn Z l
  | .indexed _ l _ => LoopOn Z l
  | .flagged _ l _ => LoopOn Z l
  | _ => True

/-- The invariant of a pass over `Z`, in a run without crashes. -/
structure SpacingInv (Z : ActiveChain T) (c : Point H ρ) (w : World H ρ) : Prop where
  exported : ExportInv T c w
  point : PointOn Z c
  rows : w.disk.Spaced T

variable {Z : ActiveChain T} {env : PassEnv T} {cfg : RpcConfig} {fmt : Formats H ρ}

omit [DecidableEq H] in
/-- The row `_buffer_export` stages when `prevTime` is the time of the parent. -/
lemma spaced_rowsOf {h : H} {prevTime : Option ℤ}
    (ht : prevTime = (T.parent h).map fun p => (T.block p).blockTime) {e : BlockEvent H ρ}
    (he : e ∈ (rowsOf (T.block h) prevTime .blocks).filterMap Row.blockEvent?) : Spaced T e := by
  refine ⟨eventTrue_rowsOf h prevTime he, ?_⟩
  simp only [rowsOf, List.filterMap_cons, Row.blockEvent?, List.filterMap_nil,
    List.mem_singleton] at he
  subst he
  simp [BlockTree.spacing, ht, Function.comp_def]

/-- A block of `Z` is taken up: it is the child of the block just processed. -/
lemma LoopOn.take {l : Loop H ρ} (hl : LoopOn Z l) (ht : LoopTrue T l) {x : H}
    (hx : Z.hashAt (l.height + 1) = some x) (index : IndexStore H) :
    LoopOn Z (l.take T x index) := by
  have hparent : T.parent x = l.hash := Z.parent_of_next ht.1 hl.hash hx
  have htime : l.prevTime = (T.parent x).map fun p => (T.block p).blockTime := by
    rw [hparent, hl.prevTime]
  refine ⟨?_, rfl, fun e he => ?_⟩
  · rintro _ ⟨⟩
    exact Z.mem_of_hashAt hx
  · simp only [Loop.take] at he
    split_ifs at he
    · rw [List.filterMap_append, List.mem_append] at he
      exact he.elim (hl.rows e) (spaced_rowsOf htime)
    · exact hl.rows e he

omit [DecidableEq H] in
lemma LoopOn.clear {l : Loop H ρ} (hl : LoopOn Z l) (k : Kind) : LoopOn Z (l.clear k) := by
  refine ⟨hl.hash, hl.prevTime, fun e he => ?_⟩
  by_cases hk : k = .blocks
  · subst hk
    simp [Loop.clear] at he
  · simp only [Loop.clear, Function.update_of_ne (Ne.symm hk)] at he
    exact hl.rows e he

/-- The common ancestor is on the chain. -/
lemma WalkBack.ancestor_mem {index : IndexStore H} {n : ℤ} {h : H} {ds : List (ℤ × H)}
    {a : ℤ × H} (hw : WalkBack env index n h ds a) (hon : env.On Z) : a.2 ∈ Z := by
  induction hw with
  | found _ _ _ hlive => exact Z.mem_of_hashAt (hon.hashAt hlive)
  | walk _ _ _ _ _ _ ih => exact ih

/-- Where all rows are current there is nothing to rewind to. -/
lemma earliestStale_of_allCurrent {s : IndexStore H} (hs : AllCurrent s.byHash) :
    s.earliestStale.1 = none := by
  rw [Option.eq_none_iff_forall_ne_some]
  intro row hrow
  obtain ⟨⟨h, hh⟩, hlt⟩ := IndexStore.mem_staleRows.mp (IndexStore.earliestStale_some _ hrow).1
  exact absurd hlt (hs h row hh).not_gt

omit [DecidableEq H] in
/-- A drained buffer of spaced rows. -/
lemma spaced_writeParts {w : World H ρ} (hw : w.disk.Spaced T) {k : Kind}
    (hn : Numbered (w.mem.sequencers k) (w.disk.parts k)) {rows : List (Row H ρ)}
    (hr : k = .blocks → ∀ e ∈ rows.filterMap Row.blockEvent?, Spaced T e)
    (fmt : Format (Row H ρ)) (atomic : Bool) : (w.writeParts fmt atomic k rows).disk.Spaced T := by
  intro r hmem e he
  rw [World.rows_writeParts hn, Multiset.mem_add] at hmem
  rcases hmem with hmem | hmem
  · exact hw r hmem e he
  · split_ifs at hmem with hk
    · exact hr hk.symm e (List.mem_filterMap.mpr ⟨r, by simpa using hmem, he⟩)
    · simp at hmem

/-- **The step lemma**: a pass over `Z` keeps `prevTime` the time of the block just processed. -/
lemma spacingInv_step {c c' : Point H ρ} {w w' : World H ρ} (hon : env.On Z)
    (h : SpacingInv Z c w) (hs : Step cfg fmt env c w c' w') : SpacingInv Z c' w' := by
  have hexp := exportInv_step h.exported hs
  have htrue := h.exported.ledger.records.point
  obtain ⟨he, hp, hr⟩ := h
  cases hs with
  | tick n => exact ⟨hexp, hp, hr⟩
  | consume cs =>
      exact ⟨hexp, hp, w.consumed_disk cs (D := Disk.Spaced T) (fun d k n hd => hd.consume k n) hr⟩
  | fail f _ => exact ⟨hexp, trivial, hr⟩
  | idle _ _ => exact ⟨hexp, trivial, hr⟩
  | look _ _ _ => exact ⟨hexp, trivial, hr⟩
  | resume _ => exact ⟨hexp, trivial, hr⟩
  | fresh _ _ => exact ⟨hexp, by rintro h ⟨⟩, hr⟩
  | seed _ _ => exact ⟨hexp, trivial, hr⟩
  | seedFlush => exact ⟨hexp, trivial, by simpa [Disk.Spaced] using hr⟩
  | live hh =>
      refine ⟨hexp, ?_, hr⟩
      rintro _ ⟨⟩
      exact Z.mem_of_hashAt (hon.hashAt hh)
  | detach _ _ hwalk => exact ⟨hexp, hwalk.ancestor_mem hon, hr⟩
  | recordFlags => exact ⟨hexp, hp, by simpa [Disk.Spaced] using hr⟩
  | recordLog log =>
      refine ⟨hexp, ?_, hr⟩
      rintro _ ⟨⟩
      exact hp
  | keep _ => exact ⟨hexp, hp, hr⟩
  -- the rows are all current, so there is nothing to go back to
  | rewind hstale _ =>
      rw [earliestStale_of_allCurrent he.current.1] at hstale
      cases hstale
  | settle _ => exact ⟨hexp, trivial, hr⟩
  | settled => exact ⟨hexp, trivial, by simpa [Disk.Spaced] using hr⟩
  | enter _ => exact ⟨hexp, ⟨hp, rfl, by simp⟩, hr⟩
  | process _ hh => exact ⟨hexp, LoopOn.take hp htrue (hon.hashAt hh) _, hr⟩
  | prefetched _ hh _ => exact ⟨hexp, LoopOn.take hp htrue (hon.hashAt_worker hh) _, hr⟩
  | save => exact ⟨hexp, hp, hr⟩
  | halt _ => exact ⟨hexp, hp, hr⟩
  -- the rows that are written carry the distance to the block before
  | drain =>
      exact ⟨hexp, LoopOn.clear hp _, spaced_writeParts hr (he.ledger.numbered _)
        (fun hk => hk ▸ hp.rows) _ _⟩
  | flushIndex => exact ⟨hexp, hp, by simpa [Disk.Spaced] using hr⟩
  | flushStatus => exact ⟨hexp, hp, by simpa [Disk.Spaced] using hr⟩
  | point _ => exact ⟨hexp, hp, hr⟩
  | close _ => exact ⟨hexp, trivial, hr⟩
  | closeFresh _ => exact ⟨hexp, trivial, hr⟩

/-! ### Between two passes -/

/-- No crash, and during a pass the chain does not change. -/
def steadyPasses (i : Label T) (s : State H ρ) : Prop :=
  noCrash i s ∧ ∃ Z, i.On Z

/-- Between two passes. -/
structure RestSpaced (T : BlockTree H ρ) (s : State H ρ) : Prop where
  exported : RestExport T s
  rows : s.disk.Spaced T

lemma RestSpaced.ends {s : State H ρ} (h : RestSpaced T s) (hon : env.On Z) {c : Point H ρ}
    {w : World H ρ} (hw : Ends cfg fmt env s c w) : SpacingInv Z c w :=
  hw.invariant (I := SpacingInv Z) (fun _ _ _ _ hi hs => spacingInv_step hon hi hs)
    ⟨h.exported.exportInv, trivial, h.rows⟩

lemma restSpaced_next {i : Label T} {s s' : State H ρ} (h : RestSpaced T s)
    (ha : steadyPasses i s) (hs : next cfg fmt i s = some s') : RestSpaced T s' := by
  have hexp := restExport_next h.exported ha.1 hs
  obtain ⟨hcrash, Z, hon⟩ := ha
  cases outcome_of_next hs with
  | done hw => exact ⟨hexp, (h.ends hon hw).rows⟩
  | abandoned hw => exact ⟨hexp, (h.ends hon hw).rows⟩
  | died hw => exact ⟨hexp, (h.ends hon hw).rows⟩
  | crash => exact hcrash.elim
  | restart => exact ⟨hexp, h.rows⟩
  | consume k n => exact ⟨hexp, h.rows.consume k n⟩

/-- **Block spacing**: in every run in which the chain changes between two passes only, every
`blocks` row written has the time since the block its `previousblockhash` names, and none exactly
at height `0`. -/
theorem block_spacing (cfg : RpcConfig) (fmt : Formats H ρ) (s : State H ρ)
    (h : (system cfg fmt T).Reach steadyPasses s) :
    ∀ r ∈ (s.disk.parts .blocks).written, ∀ e, r = .block e →
      (e.timeSincePrevBlockSec = e.previousblockhash.map fun p =>
        (T.block e.hash).blockTime - (T.block p).blockTime)
      ∧ (e.timeSincePrevBlockSec = none ↔ e.height = 0) := by
  have hrun : RestSpaced T s := h.invariant (I := RestSpaced T)
    (by
      rintro _ rfl
      exact ⟨restExport_start, by simp [Disk.Spaced, State.start, Disk.fresh]⟩)
    fun _ _ _ hs ha hstep => restSpaced_next hs ha hstep
  rintro r hr e rfl
  have hspaced := hrun.rows _ hr e rfl
  exact ⟨hspaced.eq, hspaced.eq_none_iff⟩

/-- The chain goes from `0, 2, 4` to `0, 1, 3` and back to `0, 2, 4, 6`: the block `1` is spaced
against the common ancestor, and the block `6` against the skipped block `4`. -/
theorem block_spacing_flipped :
    let pass (s : State ℕ ℕ) h := s.afterPass plainConfig plainFormats
      (plainEnv fun _ => onBranch h)
    let s := pass (pass (pass .start 4) 3) 6
    (∀ e : BlockEvent ℕ ℕ, e ∈ [⟨0, 0, none, none, 0⟩, ⟨1, 1, some 0, some 1, 1⟩,
        ⟨3, 6, some 4, some 2, 6⟩] → Row.block e ∈ (s.disk.parts .blocks).written)
      ∧ ∀ r ∈ (s.disk.parts .blocks).written, ∀ e, r = .block e →
        (e.timeSincePrevBlockSec = e.previousblockhash.map fun p : ℕ => (e.hash : ℤ) - (p : ℤ))
        ∧ (e.timeSincePrevBlockSec = none ↔ e.height = 0) := by
  intro pass s
  have hstep : ∀ s h, (system plainConfig plainFormats forkTree).Reach steadyPasses s →
      (system plainConfig plainFormats forkTree).Reach steadyPasses (pass s h) := fun s h hs =>
    .step (i := .pass (plainEnv fun _ => onBranch h)) hs
      ⟨trivial, branch h, fun _ => rfl, fun _ => ⟨rfl, rfl⟩⟩ rfl
  refine ⟨by decide +kernel, ?_⟩
  exact block_spacing _ _ s (hstep _ 6 (hstep _ 3 (hstep .start 4 (.init rfl))))

end Ingest

end BtcParser
