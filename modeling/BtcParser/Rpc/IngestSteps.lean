import BtcParser.Library.Program
import BtcParser.Rpc.IngestFrame

/-!
A pass as a transition system.

The text of `_run_one_pass` is given control points (`Point`), and `Step` says what happens from
one to the next: one constructor for each thing a pass does, with the guard the code has there.
What a call answered is only known to be the answer of some node of the surroundings
(`PassEnv.answers`), so a property that every step preserves holds whatever the node does between
two calls.

* `WalkBack` is what the walk of the reorg recovery has found out, and `Loop.take` and `World.take`
  are what the loop does with a block, fetched inline or by a worker.
* `follows_runOnePass` is the refinement: every run of the program is a path of `Step`.
* `Ends.invariant` draws the conclusion: what every step preserves holds where the pass ends.
  `Outcome` are the steps of the loop around it.
-/

namespace BtcParser

variable {H ρ : Type} {T : BlockTree H ρ}

/-- Some node of the surroundings gives this answer. -/
def PassEnv.answers (env : PassEnv T) {α : Type} (ask : Node T → Option α) (a : α) : Prop :=
  ∃ k, ask (env.node k) = some a

/-- The node says that `h` is the active block at height `n`. -/
def PassEnv.hashIs (env : PassEnv T) (n : ℤ) (h : H) : Prop :=
  env.answers (·.getBlockHash n) h

/-- A worker was told that `h` is the active block at height `n`. -/
def PassEnv.workerHashIs (env : PassEnv T) (n : ℤ) (h : H) : Prop :=
  (env.worker n).1.getBlockHash n = some h

lemma PassEnv.hashIs.height {env : PassEnv T} {n : ℤ} {h : H} (hn : env.hashIs n h) :
    T.height h = n := by
  obtain ⟨k, hk⟩ := hn
  exact ActiveChain.height_of_hashAt _ (Node.hashAt_of_getBlockHash hk)

lemma PassEnv.workerHashIs.height {env : PassEnv T} {n : ℤ} {h : H}
    (hn : env.workerHashIs n h) : T.height h = n :=
  ActiveChain.height_of_hashAt _ (Node.hashAt_of_getBlockHash hn)

namespace Ingest

variable [DecidableEq H]

/-- What the loop's variables become when a block is taken up; `index` is the index before. -/
def Loop.take (T : BlockTree H ρ) (h : H) (index : IndexStore H) (l : Loop H ρ) : Loop H ρ where
  height := l.height + 1
  hash := some h
  prevTime := some (T.block h).blockTime
  buffers := if index.needsExport h then fun k => l.buffers k ++ rowsOf (T.block h) l.prevTime k
    else l.buffers
  processed := l.processed + 1

/-- What the index becomes. -/
def takeIndex (T : BlockTree H ρ) (h : H) (index : IndexStore H) : IndexStore H :=
  if index.needsExport h then
    index.add (T.height h) h (T.parent h) currentIndexSchemaVersion
  else index

@[simp] lemma takeIndex_byHash (h : H) (index : IndexStore H) :
    (takeIndex T h index).byHash = index.byHash := by
  unfold takeIndex
  split_ifs <;> simp

/-- What the world becomes. -/
def takeBlock (T : BlockTree H ρ) (h : H) (l : Loop H ρ) (w : World H ρ) : World H ρ :=
  { w with
    mem := { w.mem with
      index := takeIndex T h w.mem.index
      status := w.mem.status.setCanonicalIfPresent (T.height h) h true }
    trace := w.trace ++ [.handled h l.hash w.mem.index] }

/-- A buffer has been written and cleared. -/
def Loop.clear (l : Loop H ρ) (k : Kind) : Loop H ρ :=
  { l with buffers := Function.update l.buffers k [] }

/-- What the walk of `_recover_from_reorg` finds from the block `h` of height `n` down: the
detached blocks and the common ancestor. -/
inductive WalkBack (env : PassEnv T) (index : IndexStore H) :
    ℤ → H → List (ℤ × H) → ℤ × H → Prop
  | found {n : ℤ} {h p : H} {row : IndexRow H} (hrow : index.get h = some row)
      (hp : row.previousblockhash = some p) (hn : 0 < n) (hlive : env.hashIs (n - 1) p) :
      WalkBack env index n h [(n, h)] (n - 1, p)
  | walk {n : ℤ} {h p live : H} {row : IndexRow H} {detached : List (ℤ × H)} {ancestor : ℤ × H}
      (hrow : index.get h = some row) (hp : row.previousblockhash = some p) (hn : 0 < n)
      (hlive : env.hashIs (n - 1) live) (hne : live ≠ p)
      (hw : WalkBack env index (n - 1) p detached ancestor) :
      WalkBack env index n h ((n, h) :: detached) ancestor

/-- The control points of a pass. -/
inductive Point (H ρ : Type) where
  | start
  /-- the tip is known, `latest.csv` is written -/
  | looked (latest : ℤ)
  /-- an index has been seeded, not yet flushed -/
  | seeded (latest : ℤ) (p : Pointer H)
  /-- a pointer is known, not yet compared with the live chain -/
  | located (latest : ℤ) (p : Pointer H)
  /-- recovery has set its flags -/
  | detached (latest : ℤ) (ancestor : ℤ × H)
  /-- recovery has flushed its flags -/
  | recorded (latest : ℤ) (ancestor : ℤ × H)
  /-- the pointer is compared -/
  | based (latest : ℤ) (p : Pointer H)
  /-- the pointer is rewound to the earliest stale block -/
  | rewound (latest : ℤ) (p : Pointer H)
  /-- nothing to parse, the pointer is written -/
  | settled
  | looping (g : Goal) (l : Loop H ρ)
  /-- in a checkpoint, these buffers still to be drained; `last` when it is the last of the pass -/
  | saving (g : Goal) (l : Loop H ρ) (ks : List Kind) (last : Bool)
  /-- in a checkpoint, the index flushed -/
  | indexed (g : Goal) (l : Loop H ρ) (last : Bool)
  /-- in a checkpoint, the flags flushed -/
  | flagged (g : Goal) (l : Loop H ρ) (last : Bool)
  | done (caughtUp : Bool)
  | failed (f : Fault H)

/-- Where a pass can raise an exception. -/
def Point.raises : Point H ρ → Prop
  | .start => True
  | .located .. => True
  | .detached .. => True
  | .rewound .. => True
  | .looping .. => True
  | _ => False

/-- Why the loop ends. -/
def Halts (env : PassEnv T) (g : Goal) (l : Loop H ρ) : Prop :=
  g.latest ≤ l.height ∨ env.stop (l.height + 1) = true
    ∨ l.hash ≠ none ∧ ∃ h, env.workerHashIs (l.height + 1) h ∧ T.parent h ≠ l.hash

/-- The steps of a pass. -/
inductive Step (cfg : RpcConfig) (fmt : Formats H ρ) (env : PassEnv T) :
    Point H ρ → World H ρ → Point H ρ → World H ρ → Prop
  | tick {c : Point H ρ} {w : World H ρ} (n : ℕ) : Step cfg fmt env c w c { w with calls := n }
  | consume {c : Point H ρ} {w : World H ρ} (cs : List (Kind × ℕ)) :
      Step cfg fmt env c w c (w.consumed cs)
  | fail {c : Point H ρ} {w : World H ρ} (f : Fault H) (hc : c.raises) :
      Step cfg fmt env c w (.failed f) w
  | idle {w : World H ρ} {tip : ℤ} (ht : env.answers (·.getBlockCount) tip)
      (h : tip - cfg.reorgConfirmations < 0) : Step cfg fmt env .start w (.done true) w
  | look {w : World H ρ} {tip : ℤ} {h : H} (ht : env.answers (·.getBlockCount) tip)
      (h0 : 0 ≤ tip - cfg.reorgConfirmations)
      (hh : env.hashIs (tip - cfg.reorgConfirmations) h) :
      Step cfg fmt env .start w (.looked (tip - cfg.reorgConfirmations))
        (w.writeLatest (tip - cfg.reorgConfirmations, some h))
  | resume {latest : ℤ} {w : World H ρ} {p : Pointer H} (hp : w.disk.current = some p) :
      Step cfg fmt env (.looked latest) w (.located latest p) w
  | fresh {latest : ℤ} {w : World H ρ} (hc : w.disk.current = none)
      (hr : seedRows (w.disk.parts .blocks) = []) :
      Step cfg fmt env (.looked latest) w (.based latest (-1, none)) w
  | seed {latest : ℤ} {w : World H ρ} {top : BlockEvent H ρ} (hc : w.disk.current = none)
      (ht : top ∈ highestRows (seedRows (w.disk.parts .blocks))) :
      Step cfg fmt env (.looked latest) w (.seeded latest (top.height, some top.hash))
        { w with mem := { w.mem with
          index := seedIndex w.mem.index (seedRows (w.disk.parts .blocks)) } }
  | seedFlush {latest : ℤ} {w : World H ρ} {p : Pointer H} :
      Step cfg fmt env (.seeded latest p) w (.located latest p) (w.indexFlush fmt.indexIsFull)
  | live {latest n : ℤ} {w : World H ρ} {h : H} (hh : env.hashIs n h) :
      Step cfg fmt env (.located latest (n, some h)) w (.based latest (n, some h)) w
  | detach {latest n : ℤ} {w : World H ρ} {h live : H} {detached : List (ℤ × H)}
      {ancestor : ℤ × H} (hh : env.hashIs n live) (hne : live ≠ h)
      (hw : WalkBack env w.mem.index n h detached ancestor) :
      Step cfg fmt env (.located latest (n, some h)) w (.detached latest ancestor)
        { w with mem := { w.mem with status := setDetached detached.reverse w.mem.status } }
  | recordFlags {latest : ℤ} {w : World H ρ} {ancestor : ℤ × H} :
      Step cfg fmt env (.detached latest ancestor) w (.recorded latest ancestor) w.statusFlush
  | recordLog {latest : ℤ} {w : World H ρ} {ancestor : ℤ × H} (log : ReorgLog H) :
      Step cfg fmt env (.recorded latest ancestor) w
        (.based latest (ancestor.1, some ancestor.2)) (w.writeReorgLog log)
  | keep {latest : ℤ} {w : World H ρ} {p : Pointer H}
      (h : ∀ row, w.mem.index.earliestStale.1 = some row → p.1 ≤ row.height - 1) :
      Step cfg fmt env (.based latest p) w (.rewound latest p)
        { w with mem := { w.mem with index := w.mem.index.earliestStale.2 } }
  | rewind {latest : ℤ} {w : World H ρ} {p : Pointer H} {row : IndexRow H}
      (h : w.mem.index.earliestStale.1 = some row) (hlt : row.height - 1 < p.1) :
      Step cfg fmt env (.based latest p) w
        (.rewound latest (row.height - 1, row.previousblockhash))
        { w with mem := { w.mem with index := w.mem.index.earliestStale.2 } }
  | settle {latest : ℤ} {w : World H ρ} {p : Pointer H} (h : latest ≤ p.1) :
      Step cfg fmt env (.rewound latest p) w .settled (w.writeCurrent p)
  | settled {w : World H ρ} : Step cfg fmt env .settled w (.done true) w.statusFlush
  | enter {g : Goal} {w : World H ρ} {p : Pointer H} (h : p.1 < g.latest) :
      Step cfg fmt env (.rewound g.latest p) w
        (.looping g ⟨p.1, p.2, p.2.map fun h => (T.block h).blockTime, fun _ => [], 0⟩) w
  | process {g : Goal} {l : Loop H ρ} {w : World H ρ} {h : H} (hl : l.height < g.latest)
      (hh : env.hashIs (l.height + 1) h) :
      Step cfg fmt env (.looping g l) w (.looping g (l.take T h w.mem.index)) (takeBlock T h l w)
  | prefetched {g : Goal} {l : Loop H ρ} {w : World H ρ} {h : H} (hl : l.height < g.latest)
      (hh : env.workerHashIs (l.height + 1) h) (hp : l.hash ≠ none → T.parent h = l.hash) :
      Step cfg fmt env (.looping g l) w (.looping g (l.take T h w.mem.index)) (takeBlock T h l w)
  | save {g : Goal} {l : Loop H ρ} {w : World H ρ} :
      Step cfg fmt env (.looping g l) w (.saving g l Kind.all false) w
  | halt {g : Goal} {l : Loop H ρ} {w : World H ρ} (h : Halts env g l) :
      Step cfg fmt env (.looping g l) w (.saving g l Kind.all true) w
  | drain {g : Goal} {l : Loop H ρ} {w : World H ρ} {k : Kind} {ks : List Kind} {last : Bool} :
      Step cfg fmt env (.saving g l (k :: ks) last) w (.saving g (l.clear k) ks last)
        (w.writeParts fmt.parts g.atomic k (l.buffers k))
  | flushIndex {g : Goal} {l : Loop H ρ} {w : World H ρ} {last : Bool} :
      Step cfg fmt env (.saving g l [] last) w (.indexed g l last) (w.indexFlush fmt.indexIsFull)
  | flushStatus {g : Goal} {l : Loop H ρ} {w : World H ρ} {last : Bool} :
      Step cfg fmt env (.indexed g l last) w (.flagged g l last) w.statusFlush
  | point {g : Goal} {l : Loop H ρ} {w : World H ρ} {h : H} (hh : l.hash = some h) :
      Step cfg fmt env (.flagged g l false) w (.looping g l) (w.writeCurrent (l.height, some h))
  | close {g : Goal} {l : Loop H ρ} {w : World H ρ} {h : H} (hh : l.hash = some h) :
      Step cfg fmt env (.flagged g l true) w (.done (decide (g.latest ≤ l.height)))
        (w.writeCurrent (l.height, some h))
  | closeFresh {g : Goal} {l : Loop H ρ} {w : World H ρ} (hh : l.hash = none) :
      Step cfg fmt env (.flagged g l true) w (.done (decide (g.latest ≤ l.height))) w

lemma Step.trace {cfg : RpcConfig} {fmt : Formats H ρ} {env : PassEnv T} {c c' : Point H ρ}
    {w w' : World H ρ} (h : Step cfg fmt env c w c' w') : w.trace <+: w'.trace := by
  cases h with
  | look | recordLog | settle | point | close =>
      exact (World.trace_effect _ _).trans (World.trace_completed _ _)
  | seedFlush | flushIndex => exact w.trace_indexFlush _
  | recordFlags | settled | flushStatus => exact w.trace_statusFlush
  | drain => exact w.trace_writeParts _ _ _ _
  | process | prefetched => exact List.prefix_append _ _
  | _ => exact List.prefix_rfl

/-! ### The program follows the steps -/

section Refinement

open Program

variable {cfg : RpcConfig} {fmt : Formats H ρ} {env : PassEnv T}

lemma follows_rpc {α β : Type} {c : Point H ρ} {ask : Node T → Option α} {y : α → Pass H ρ β}
    {w : World H ρ} {k : β → Point H ρ} (hc : c.raises)
    (hy : ∀ a, env.answers ask a →
      Follows (Step cfg fmt env) c (y a) { w with calls := w.calls + 1 } k .failed) :
    Follows (Step cfg fmt env) c (rpc env ask >>= y) w k .failed := by
  cases ha : ask (env.node w.calls) with
  | none =>
      have hr : rpc env ask w = .error .rpcCliError { w with calls := w.calls + 1 } := by
        rw [rpc, ha]
      refine follows_bind (m := fun _ => c) ?_ fun a t ht => by simp [hr] at ht
      unfold Follows
      rw [hr]
      exact (Steps.single (.tick _)).trans (.single (.fail _ hc))
  | some a =>
      have hr : rpc env ask w = .ok a { w with calls := w.calls + 1 } := by
        rw [rpc, ha]
      refine follows_bind (m := fun _ => c) ?_ fun b t ht => ?_
      · unfold Follows
        rw [hr]
        exact .single (.tick _)
      · rw [hr] at ht
        cases ht
        exact hy a ⟨_, ha⟩

lemma follows_store {c c' : Point H ρ} {op : World H ρ → World H ρ} {w : World H ρ}
    (h : ∀ w, Step cfg fmt env c w c' (op w)) :
    Follows (Step cfg fmt env) c (store env op) w (fun _ => c') .failed :=
  follows_modify (.single (.consume _)) (.single (h _))

variable (env) in
/-- What `_process_height` does: nothing before its calls are answered, then all of it. -/
lemma processHeight_eq (l : Loop H ρ) (w : World H ρ) :
    match processHeight env (l.height + 1) l w with
    | .ok l' t => ∃ h n, env.hashIs (l.height + 1) h ∧ l' = l.take T h w.mem.index
        ∧ t = { takeBlock T h l w with calls := n }
    | .error _ t => ∃ n, t = { w with calls := n } := by
  unfold processHeight
  simp only [bind_apply, rpc, get_apply]
  cases hh : (env.node w.calls).getBlockHash (l.height + 1) with
  | none => exact ⟨_, rfl⟩
  | some h =>
      have hhash : env.hashIs (l.height + 1) h := ⟨_, hh⟩
      have hheight := hhash.height
      cases hn : w.mem.index.needsExport h with
      | false =>
          simp only [hn, Bool.not_false, if_true, bind_apply, rpc]
          cases ht : (env.node (w.calls + 1)).getBlockHeader h with
          | none => exact ⟨_, rfl⟩
          | some time =>
              have htime := Node.time_of_getBlockHeader ht
              refine ⟨h, w.calls + 2, hhash, ?_, ?_⟩
              · simp [Loop.take, hn, htime]
              · simp [takeBlock, takeIndex, hn, hheight]
      | true =>
          simp only [hn, Bool.not_true, Bool.false_eq_true, if_false, bind_apply, rpc]
          cases hb : (env.node (w.calls + 1)).getBlock h with
          | none => exact ⟨_, rfl⟩
          | some b =>
              have hblock := Node.block_of_getBlock hb
              refine ⟨h, w.calls + 2, hhash, ?_, ?_⟩
              · simp [Loop.take, hn, hblock]
              · simp only [takeBlock, takeIndex, hn, if_true, hblock, BlockTree.blockHash_block]
                rw [← hheight]
                rfl

/-- What `_process_prefetched` does. -/
lemma processPrefetched_eq (l : Loop H ρ) (w : World H ρ) (h : H) :
    processPrefetched (l.height + 1) (T.block h) l w
      = .ok (l.take T h w.mem.index) (takeBlock T h l w) := by
  cases hn : w.mem.index.needsExport h <;>
    simp only [processPrefetched, handling, bufferExport, bind_apply, modify_apply, get_apply, hn,
      BlockTree.blockHash_block, takeBlock, takeIndex, Loop.take, if_true, if_false,
      Bool.false_eq_true] <;> rfl

omit [DecidableEq H] in
/-- What a worker hands out is the block it was told is active at its height. -/
lemma fetchAndParse_ok {n : ℤ} {b : ParsedBlock H ρ} (hb : fetchAndParse env n = .ok b) :
    ∃ h, env.workerHashIs n h ∧ b = T.block h := by
  unfold fetchAndParse at hb
  split at hb
  · cases hb
  · next h hh =>
      split at hb
      · cases hb
      · next b' hb' =>
          split_ifs at hb
          cases hb
          exact ⟨h, hh, Node.block_of_getBlock hb'⟩

variable (fmt env) in
omit [DecidableEq H] in
/-- The buffers are written one after the other; nothing fails. -/
lemma drain_ok (atomic : Bool) (buffers : Kind → List (Row H ρ)) (ks : List Kind)
    (w : World H ρ) : ∃ t, drain fmt env atomic buffers ks w = .ok () t := by
  induction ks generalizing w with
  | nil => exact ⟨w, rfl⟩
  | cons k ks ih => exact ih _

variable (fmt env) in
lemma checkpoint_ok (g : Goal) (l : Loop H ρ) (w : World H ρ) :
    ∃ t, checkpoint fmt env g l w = .ok { l with buffers := fun _ => [] } t := by
  obtain ⟨t, ht⟩ := drain_ok fmt env g.atomic l.buffers Kind.all w
  rw [checkpoint, bind_apply, ht]
  exact ⟨_, rfl⟩

lemma checkpointIfDue_ok {g : Goal} {l l' : Loop H ρ} {w t : World H ρ}
    (h : checkpointIfDue cfg fmt env g l w = .ok l' t) :
    l'.height = l.height ∧ l'.hash = l.hash := by
  unfold checkpointIfDue at h
  split_ifs at h
  · obtain ⟨u, hu⟩ := checkpoint_ok fmt env g l w
    rw [hu] at h
    cases h
    exact ⟨rfl, rfl⟩
  · cases h
    exact ⟨rfl, rfl⟩

lemma follows_drain {g : Goal} {last : Bool} (buffers : Kind → List (Row H ρ)) (ks : List Kind)
    (hks : ks.Nodup) (l : Loop H ρ) (hl : ∀ k ∈ ks, l.buffers k = buffers k) (w : World H ρ) :
    Follows (Step cfg fmt env) (.saving g l ks last) (drain fmt env g.atomic buffers ks) w
      (fun _ => .saving g (ks.foldl Loop.clear l) [] last) .failed := by
  induction ks generalizing l w with
  | nil => exact .refl _ _
  | cons k ks ih =>
      rw [List.nodup_cons] at hks
      refine follows_bind (follows_store fun w => ?_) fun _ t _ => ih hks.2 (l.clear k) ?_ t
      · rw [← hl k (by simp)]
        exact .drain
      · intro k' hk'
        have hne : k' ≠ k := fun he => hks.1 (he ▸ hk')
        simp [Loop.clear, hne, hl k' (by simp [hk'])]

omit [DecidableEq H] in
lemma foldl_clear (l : Loop H ρ) :
    Kind.all.foldl Loop.clear l = { l with buffers := fun _ => [] } := by
  have : (Kind.all.foldl Loop.clear l).buffers = fun _ => [] := by
    funext k
    cases k <;> simp [Kind.all, Loop.clear]
  rw [← this]
  rfl

/-- The drain and the flushes of a checkpoint. -/
lemma follows_save {β : Type} {g : Goal} {last : Bool} {l : Loop H ρ} {w : World H ρ}
    {y : Unit → Pass H ρ β} {k : β → Point H ρ}
    (hy : ∀ t, Follows (Step cfg fmt env) (.flagged g { l with buffers := fun _ => [] } last)
      (y ()) t k .failed) :
    Follows (Step cfg fmt env) (.saving g l Kind.all last) (do
      drain fmt env g.atomic l.buffers Kind.all
      store env (World.indexFlush fmt.indexIsFull)
      store env World.statusFlush
      y ()) w k .failed := by
  refine follows_bind (follows_drain _ _ (by decide) l (fun _ _ => rfl) w) fun _ t _ => ?_
  rw [foldl_clear]
  exact follows_bind (follows_store fun _ => .flushIndex) fun _ t _ =>
    follows_bind (follows_store fun _ => .flushStatus) fun _ t _ => hy t

lemma follows_checkpointIfDue {g : Goal} {l : Loop H ρ} {w : World H ρ} {h : H}
    (hh : l.hash = some h) :
    Follows (Step cfg fmt env) (.looping g l) (checkpointIfDue cfg fmt env g l) w
      (fun l' => .looping g l') .failed := by
  unfold checkpointIfDue
  split_ifs
  · unfold checkpoint
    refine .of_steps (.single .save) (follows_save (l := l) (y := fun _ => do
      store env (·.writeCurrent (l.height, l.hash))
      pure ({ l with buffers := fun _ => [] } : Loop H ρ)) fun t => ?_)
    rw [hh]
    exact follows_bind (follows_store fun _ => .point rfl) fun _ t _ => .refl _ _
  · exact .refl _ _

lemma follows_finish {g : Goal} {l : Loop H ρ} {w : World H ρ} :
    Follows (Step cfg fmt env) (.saving g l Kind.all true) (finish fmt env g l) w
      .done .failed := by
  unfold finish
  cases hh : l.hash with
  | some h =>
      refine follows_save (l := l) (y := fun _ => do
        store env (·.writeCurrent (l.height, some h))
        pure (decide (g.latest ≤ l.height))) fun t => ?_
      exact follows_bind (follows_store fun _ => .close (l := { l with buffers := fun _ => [] }) hh)
        fun _ t _ => .refl _ _
  | none =>
      refine follows_save (l := l) (y := fun _ => do
        pure (decide (g.latest ≤ l.height))) fun t => ?_
      exact .of_steps (.single (.closeFresh (l := { l with buffers := fun _ => [] }) hh))
        (.refl _ _)

/-- What the loop knows of its worker pool: it will be handed the heights still to come. -/
def Feeds (g : Goal) (height : ℤ) (prefetched : Option Prefetch) : Prop :=
  ∀ p, prefetched = some p → p.Valid
    ∧ p.heights = heightRange (height + 1) (g.parallelEnd - height).toNat

lemma follows_processHeight {g : Goal} {l : Loop H ρ} (hl : l.height < g.latest)
    (w : World H ρ) :
    Follows (Step cfg fmt env) (.looping g l) (processHeight env (l.height + 1) l) w
      (fun l' => .looping g l') .failed := by
  have heq := processHeight_eq env l w
  unfold Follows
  cases hr : processHeight env (l.height + 1) l w with
  | ok l' t =>
      rw [hr] at heq
      obtain ⟨h, n, hh, rfl, rfl⟩ := heq
      exact (Steps.single (.process hl hh)).trans (.single (.tick n))
  | error f t =>
      rw [hr] at heq
      obtain ⟨n, rfl⟩ := heq
      exact (Steps.single (.tick n)).trans (.single (.fail (c := .looping g l) f trivial))

variable (env) in
omit [DecidableEq H] in
lemma nextParsed_ok (hw : 0 < cfg.catchupWorkers) {g : Goal} {height : ℤ} {p : Prefetch}
    (hp : Feeds g height (some p)) (hle : height + 1 ≤ g.parallelEnd) (w : World H ρ) :
    match nextParsed cfg env p w with
    | .ok (b, p') t => t = w ∧ fetchAndParse env (height + 1) = .ok b
        ∧ Feeds g (height + 1) (some p')
    | .error _ t => t = w := by
  obtain ⟨hv, hh⟩ := hp p rfl
  obtain ⟨n, hn⟩ : ∃ n : ℕ, (g.parallelEnd - height).toNat = n + 1 :=
    ⟨(g.parallelEnd - height).toNat - 1, by omega⟩
  rw [hn, heightRange] at hh
  obtain ⟨p', hnext, hh', hv'⟩ := Prefetch.next_eq (fetchAndParse env)
    env.schedule hw hv hh
  unfold nextParsed
  rw [hnext]
  cases hf : fetchAndParse env (height + 1) with
  | error e => rfl
  | ok b =>
      refine ⟨rfl, rfl, fun q hq => ?_⟩
      cases hq
      exact ⟨hv', by rw [hh']; congr 1; omega⟩

/-- The loop, up to the last checkpoint. -/
lemma follows_forward (hw : 0 < cfg.catchupWorkers) (g : Goal) (n : ℕ)
    (prefetched : Option Prefetch) (l : Loop H ρ)
    (w : World H ρ) (hn : g.latest = l.height + n) (hp : Feeds g l.height prefetched) :
    Follows (Step cfg fmt env) (.looping g l) (forward cfg fmt env g n prefetched l) w
      (fun l' => .saving g l' Kind.all true) .failed := by
  induction n generalizing prefetched l w with
  | zero => exact Steps.single (.halt (.inl (by omega)))
  | succ n ih =>
      have hlt : l.height < g.latest := by omega
      -- what follows a block taken up from here
      have hnext : ∀ (pf : Option Prefetch) (h : H) (t : World H ρ) (index : IndexStore H),
          Feeds g (l.height + 1) pf →
          Follows (Step cfg fmt env) (.looping g (l.take T h index)) (do
            let l ← checkpointIfDue cfg fmt env g (l.take T h index)
            forward cfg fmt env g n pf l) t (fun l' => .saving g l' Kind.all true) .failed := by
        intro pf h t index hpf
        refine follows_bind (follows_checkpointIfDue (h := h) rfl) fun l' t ht => ?_
        have hheight : l'.height = l.height + 1 := (checkpointIfDue_ok ht).1
        exact ih pf l' t (by push_cast at hn; omega) (hheight ▸ hpf)
      unfold forward
      by_cases hstop : env.stop (l.height + 1) = true
      · simp only [hstop, if_true]
        exact Steps.single (.halt (.inr (.inl hstop)))
      simp only [hstop, if_false, Bool.false_eq_true]
      cases hpf : (if l.height + 1 ≤ g.parallelEnd then prefetched else none) with
      -- one call after the other; the window, if there was one, is used up
      | none =>
          refine follows_bind (follows_processHeight hlt w) fun l' t ht => ?_
          have heq := processHeight_eq env l w
          rw [ht] at heq
          obtain ⟨h, -, -, rfl, -⟩ := heq
          refine hnext _ h t _ fun p hpp => ?_
          obtain ⟨hv, hh⟩ := hp p hpp
          have hge : ¬ l.height + 1 ≤ g.parallelEnd := fun hle => by simp [hle, hpp] at hpf
          rw [show (g.parallelEnd - l.height).toNat = 0 by omega] at hh
          rw [show (g.parallelEnd - (l.height + 1)).toNat = 0 by omega]
          exact ⟨hv, hh⟩
      -- the next block from the workers
      | some p =>
          obtain ⟨hle, rfl⟩ : l.height + 1 ≤ g.parallelEnd ∧ prefetched = some p := by
            simpa using hpf
          have hparsed := nextParsed_ok env hw hp hle w
          refine follows_bind (m := fun _ => .looping g l) ?_ fun bp t ht => ?_
          · unfold Follows
            cases hr : nextParsed cfg env p w with
            | ok bp t =>
                rw [hr] at hparsed
                exact hparsed.1 ▸ .refl _ _
            | error f t =>
                rw [hr] at hparsed
                exact hparsed ▸ .single (.fail (c := .looping g l) f trivial)
          · obtain ⟨b, p'⟩ := bp
            rw [ht] at hparsed
            obtain ⟨rfl, hb, hp'⟩ := hparsed
            obtain ⟨h, hh, rfl⟩ := fetchAndParse_ok hb
            -- a block that does not fit ends the loop
            by_cases hlink : l.hash ≠ none ∧ (T.block h).previousblockhash ≠ l.hash
            · simp only [hlink, ne_eq, not_false_eq_true, and_self, if_true]
              exact Steps.single (.halt (.inr (.inr ⟨hlink.1, h, hh, hlink.2⟩)))
            · simp only [hlink, if_false]
              refine follows_bind (m := fun l' => .looping g l') ?_ fun l' t' ht' => ?_
              · unfold Follows
                rw [processPrefetched_eq]
                exact .single (.prefetched hlt hh fun hne => by
                  by_contra hp; exact hlink ⟨hne, hp⟩)
              · rw [processPrefetched_eq] at ht'
                cases ht'
                refine hnext _ h _ _ ?_
                split_ifs
                · exact fun q hq => by cases hq
                · exact hp'

variable (env) in
/-- The walk changes nothing but the number of calls. -/
lemma walkBack_eq (fuel : ℕ) (n : ℤ) (h : H) (w : World H ρ) :
    match walkBack env fuel n h w with
    | .ok r t => (∃ k, t = { w with calls := k }) ∧ WalkBack env w.mem.index n h r.1 r.2.2
    | .error _ t => ∃ k, t = { w with calls := k } := by
  induction fuel generalizing n h w with
  | zero => exact ⟨_, rfl⟩
  | succ fuel ih =>
      simp only [walkBack, bind_apply, get_apply]
      cases hrow : w.mem.index.get h with
      | none => exact ⟨_, rfl⟩
      | some row =>
          simp only
          split_ifs with hn
          · exact ⟨_, rfl⟩
          cases hp : row.previousblockhash with
          | none => exact ⟨_, rfl⟩
          | some p =>
              simp only [bind_apply, rpc]
              cases hl : (env.node w.calls).getBlockHash (n - 1) with
              | none => exact ⟨_, rfl⟩
              | some live =>
                  have hlive : env.hashIs (n - 1) live := ⟨_, hl⟩
                  simp only
                  by_cases heq : live = p
                  · subst heq
                    simp only [if_true, pure_apply]
                    exact ⟨⟨_, rfl⟩, .found hrow hp (by omega) hlive⟩
                  · simp only [heq, if_false, bind_apply]
                    have hrec := ih (n - 1) p { w with calls := w.calls + 1 }
                    cases hr : walkBack env fuel (n - 1) p { w with calls := w.calls + 1 } with
                    | error f t =>
                        rw [hr] at hrec
                        exact hrec
                    | ok r t =>
                        rw [hr] at hrec
                        obtain ⟨⟨k, rfl⟩, hw⟩ := hrec
                        exact ⟨⟨k, rfl⟩, .walk hrow hp (by omega) hlive heq hw⟩

variable (env) in
omit [DecidableEq H] in
/-- So does the audit. -/
lemma attachedRows_eq (lives : List (ℤ × H)) (n : ℕ) (height : ℤ) (w : World H ρ) :
    match attachedRows env lives n height w with
    | .ok _ t => ∃ k, t = { w with calls := k }
    | .error _ t => ∃ k, t = { w with calls := k } := by
  induction n generalizing height w with
  | zero => exact ⟨_, rfl⟩
  | succ n ih =>
      have htail : ∀ (live : H) (k : ℕ),
          match (do
            let rows ← attachedRows env lives n (height + 1)
            pure (⟨true, height, live⟩ :: rows) : Pass H ρ (List (LogRow H)))
              { w with calls := k } with
          | .ok _ t => ∃ k, t = { w with calls := k }
          | .error _ t => ∃ k, t = { w with calls := k } := by
        intro live k
        have hrec := ih (height + 1) { w with calls := k }
        rw [bind_apply]
        cases hr : attachedRows env lives n (height + 1) { w with calls := k } with
        | ok rows t =>
            rw [hr] at hrec
            exact hrec
        | error f t =>
            rw [hr] at hrec
            exact hrec
      unfold attachedRows
      cases hlookup : lives.lookup height with
      | some live => exact htail live w.calls
      | none =>
          simp only [bind_apply, rpc]
          cases hl : (env.node w.calls).getBlockHash height with
          | none => exact ⟨_, rfl⟩
          | some live => exact htail live (w.calls + 1)

lemma follows_recoverFromReorg {latest n : ℤ} {h live : H} {w : World H ρ}
    (hh : env.hashIs n live) (hne : live ≠ h) :
    Follows (Step cfg fmt env) (.located latest (n, some h)) (recoverFromReorg cfg env n h) w
      (fun ancestor => .based latest (ancestor.1, some ancestor.2)) .failed := by
  have heq := walkBack_eq env cfg.maxReorgDepth n h w
  unfold recoverFromReorg
  refine follows_bind (m := fun _ => .located latest (n, some h)) ?_ fun r t ht => ?_
  · unfold Follows
    cases hr : walkBack env cfg.maxReorgDepth n h w with
    | ok r t =>
        rw [hr] at heq
        obtain ⟨⟨k, rfl⟩, -⟩ := heq
        exact .single (.tick k)
    | error f t =>
        rw [hr] at heq
        obtain ⟨k, rfl⟩ := heq
        exact (Steps.single (.tick k)).trans
          (.single (.fail (c := .located latest (n, some h)) f trivial))
  · obtain ⟨detached, lives, ancestor⟩ := r
    rw [ht] at heq
    obtain ⟨⟨k, rfl⟩, hw⟩ := heq
    refine follows_modify (.single (.detach hh hne hw)) ?_
    refine follows_bind (m := fun _ => .detached latest ancestor) ?_ fun rows u _ => ?_
    · set v : World H ρ := _
      have hatt := attachedRows_eq env lives (n - ancestor.1).toNat (ancestor.1 + 1) v
      unfold Follows
      cases hr : attachedRows env lives (n - ancestor.1).toNat (ancestor.1 + 1) v with
      | ok rows u =>
          rw [hr] at hatt
          obtain ⟨k, rfl⟩ := hatt
          exact .single (.tick k)
      | error f u =>
          rw [hr] at hatt
          obtain ⟨k, rfl⟩ := hatt
          exact (Steps.single (.tick k)).trans
            (.single (.fail (c := .detached latest ancestor) f trivial))
    · exact follows_bind (follows_store fun _ => .recordFlags) fun _ u _ =>
        follows_bind (follows_store fun _ => .recordLog _) fun _ u _ => .refl _ _

/-- The control point of the pointer found, if any. -/
def Point.found (latest : ℤ) : Option (Pointer H) → Point H ρ
  | none => .based latest (-1, none)
  | some p => .located latest p

lemma follows_readCurrent {latest : ℤ} {w : World H ρ} :
    Follows (Step cfg fmt env) (.looked latest) (readCurrent fmt env) w (Point.found latest)
      .failed := by
  unfold readCurrent
  refine follows_get ?_
  cases hc : w.disk.current with
  | some p => exact Steps.single (.resume hc)
  | none =>
      show Follows _ _ (seedFromBlocks fmt env) w _ _
      unfold seedFromBlocks
      refine follows_get ?_
      cases ht : seedTop env.tie (seedRows (w.disk.parts .blocks)) with
      | none =>
          simp only [ht]
          exact Steps.single (.fresh hc (seedTop_eq_none ht))
      | some top =>
          simp only [ht]
          refine follows_modify (.single (.seed hc (seedTop_mem ht))) ?_
          exact follows_bind (m := fun _ => .located latest (top.height, some top.hash))
            (follows_store fun _ => .seedFlush) fun _ u _ => Steps.refl _ _

lemma follows_resume {latest : ℤ} {current : Option (Pointer H)} {w : World H ρ} :
    Follows (Step cfg fmt env) (Point.found latest current) (resume cfg env current) w
      (fun p => .based latest p) .failed := by
  match current with
  | none => exact .refl _ _
  | some (n, hash) =>
      refine follows_rpc trivial fun live hlive => ?_
      by_cases hh : some live = hash
      · subst hh
        simp only [if_true]
        exact Steps.single (.live hlive)
      · simp only [hh, if_false]
        cases hash with
        | none => exact Steps.single (.fail (c := .located latest (n, none)) _ trivial)
        | some h =>
            exact follows_bind (follows_recoverFromReorg hlive fun he => hh (he ▸ rfl))
              fun _ u _ => .refl _ _

lemma follows_rewindToStale {latest : ℤ} {p : Pointer H} {w : World H ρ} :
    Follows (Step cfg fmt env) (.based latest p) (rewindToStale p) w
      (fun p => .rewound latest p) .failed := by
  unfold rewindToStale
  refine follows_get ?_
  cases hs : w.mem.index.earliestStale.1 with
  | none =>
      simp only [hs]
      exact follows_modify (.single (.keep fun row hrow => by rw [hs] at hrow; cases hrow))
        (.refl _ _)
  | some row =>
      simp only [hs]
      split_ifs with hlt
      · exact follows_modify (.single (.rewind hs hlt)) (.refl _ _)
      · refine follows_modify (.single (.keep fun row' hrow => ?_)) (.refl _ _)
        rw [hs] at hrow
        cases hrow
        omega

lemma feeds_none (g : Goal) (height : ℤ) : Feeds g height none := fun p hp => by cases hp

lemma heightRange_nodup (n : ℕ) (height : ℤ) : (heightRange height n).Nodup := by
  have hge : ∀ (n : ℕ) (height m : ℤ), m ∈ heightRange height n → height ≤ m := by
    intro n
    induction n with
    | zero => simp [heightRange]
    | succ n ih =>
        intro height m hm
        rw [heightRange, List.mem_cons] at hm
        rcases hm with rfl | hm
        · exact le_rfl
        · have := ih _ _ hm
          omega
  induction n generalizing height with
  | zero => simp [heightRange]
  | succ n ih =>
      rw [heightRange, List.nodup_cons]
      refine ⟨fun hm => ?_, ih _⟩
      have := hge _ _ _ hm
      omega

omit [DecidableEq H] in
/-- The pool a pass starts, if it does. -/
lemma feeds_start (cfg : RpcConfig) (g : Goal) (n : ℤ) (p : Prop) [Decidable p] :
    Feeds g n (if p then some (Prefetch.start
      (heightRange (n + 1) (g.parallelEnd - n).toNat) cfg.catchupWorkers) else none) := by
  split_ifs
  · rintro _ ⟨⟩
    exact ⟨Prefetch.valid_start (heightRange_nodup _ _) cfg.catchupWorkers_pos,
      Prefetch.heights_start _ _⟩
  · exact feeds_none _ _

variable (env) in
omit [DecidableEq H] in
lemma headerTime_eq (hash : Option H) (w : World H ρ) :
    match headerTime env hash w with
    | .ok r t => r = hash.map (fun h => (T.block h).blockTime) ∧ ∃ k, t = { w with calls := k }
    | .error _ t => ∃ k, t = { w with calls := k } := by
  cases hash with
  | none => exact ⟨rfl, _, rfl⟩
  | some h =>
      simp only [headerTime, bind_apply, rpc]
      cases ht : (env.node w.calls).getBlockHeader h with
      | none => exact ⟨_, rfl⟩
      | some time => exact ⟨by rw [Node.time_of_getBlockHeader ht]; rfl, _, rfl⟩

lemma follows_catchUp {tip latest : ℤ} {p : Pointer H} {w : World H ρ} (h : p.1 < latest) :
    Follows (Step cfg fmt env) (.rewound latest p) (catchUp cfg fmt env tip latest p) w .done
      .failed := by
  have hw : 0 < cfg.catchupWorkers := cfg.catchupWorkers_pos
  -- the loop and the last checkpoint, from a given plan
  have hloop : ∀ (g : Goal) (pf : Option Prefetch) (t : World H ρ), g.latest = latest →
      Feeds g p.1 pf →
      Follows (Step cfg fmt env) (.rewound latest p) (do
        let l ← forward cfg fmt env g (latest - p.1).toNat pf
          ⟨p.1, p.2, p.2.map fun h => (T.block h).blockTime, fun _ => [], 0⟩
        finish fmt env g l) t .done .failed := by
    rintro g pf t rfl hpf
    refine .of_steps (.single (.enter h)) ?_
    exact follows_bind (follows_forward hw g _ pf _ t (by simp only; omega) hpf) fun l u _ =>
      follows_finish
  have htime := headerTime_eq env p.2 w
  refine follows_bind (m := fun _ => .rewound latest p) ?_ fun prevTime t ht => ?_
  · unfold Follows
    cases hr : headerTime env p.2 w with
    | ok prevTime t =>
        rw [hr] at htime
        obtain ⟨-, k, rfl⟩ := htime
        exact .single (.tick k)
    | error f t =>
        rw [hr] at htime
        obtain ⟨k, rfl⟩ := htime
        exact (Steps.single (.tick k)).trans (.single (.fail (c := .rewound latest p) f trivial))
  · rw [ht] at htime
    obtain ⟨rfl, -⟩ := htime
    exact hloop _ _ t rfl (feeds_start cfg _ _ _)

variable (cfg fmt env) in
lemma follows_proceed (tip latest : ℤ) (current : Option (Pointer H)) (w : World H ρ) :
    Follows (Step cfg fmt env) (Point.found latest current)
      (proceed cfg fmt env tip latest current) w .done .failed := by
  refine follows_bind follows_resume fun p t _ => ?_
  refine follows_bind follows_rewindToStale fun p t _ => ?_
  split_ifs with hle
  · exact follows_bind (follows_store fun _ => .settle hle) fun _ t _ =>
      follows_bind (follows_store fun _ => .settled) fun _ t _ => .refl _ _
  · exact follows_catchUp (by omega)

variable (cfg fmt env) in
/-- **Refinement**: the run of a pass is a path of `Step`. -/
theorem follows_runOnePass (w : World H ρ) :
    Follows (Step cfg fmt env) .start (runOnePass cfg fmt env) w .done .failed := by
  refine follows_rpc trivial fun tip htip => ?_
  by_cases h0 : tip - cfg.reorgConfirmations < 0
  · simp only [h0, if_true]
    exact Steps.single (.idle htip h0)
  · simp only [h0, if_false]
    refine follows_rpc trivial fun h hh => ?_
    exact follows_bind (follows_store fun _ => .look htip (by omega) hh) fun _ t _ =>
      follows_bind follows_readCurrent fun current t _ => follows_proceed _ _ _ _ _ _ _

/-! ### The loop around the pass -/

/-- What a pass starts with. -/
def State.world (s : State H ρ) : World H ρ := ⟨s.mem, s.disk, 0, []⟩

/-- The pass has ended at this control point, in this world. -/
inductive Ends (cfg : RpcConfig) (fmt : Formats H ρ) (env : PassEnv T) (s : State H ρ) :
    Point H ρ → World H ρ → Prop
  | ok {b : Bool} {w : World H ρ} (h : s.run cfg fmt env = .ok b w) :
      Ends cfg fmt env s (.done b) w
  | error {f : Fault H} {w : World H ρ} (h : s.run cfg fmt env = .error f w) :
      Ends cfg fmt env s (.failed f) w

lemma Ends.trace_eq {s : State H ρ} {c : Point H ρ} {w : World H ρ}
    (h : Ends cfg fmt env s c w) : s.trace cfg fmt env = w.trace := by
  cases h with
  | ok h => simp [State.trace, h]
  | error h => simp [State.trace, h]

variable (cfg fmt env) in
lemma exists_ends (s : State H ρ) : ∃ c w, Ends cfg fmt env s c w := by
  cases h : s.run cfg fmt env with
  | ok b w => exact ⟨_, _, .ok h⟩
  | error f w => exact ⟨_, _, .error h⟩

/-- What every step of a pass preserves holds where the pass ends. -/
theorem Ends.invariant {I : Point H ρ → World H ρ → Prop} {s : State H ρ} {c : Point H ρ}
    {w : World H ρ} (h : Ends cfg fmt env s c w)
    (hstep : ∀ c w c' w', I c w → Step cfg fmt env c w c' w' → I c' w')
    (h0 : I .start s.world) : I c w := by
  have hI := (follows_runOnePass cfg fmt env s.world).invariant
    hstep h0
  cases h with
  | ok h =>
      rw [State.world, ← State.run, h] at hI
      exact hI
  | error h =>
      rw [State.world, ← State.run, h] at hI
      exact hI

variable (cfg fmt) in
/-- The steps of `run_rpc_ingest`, by what became of the pass. -/
inductive Outcome : Label T → State H ρ → State H ρ → Prop
  | done {env : PassEnv T} {s : State H ρ} {b : Bool} {w : World H ρ}
      (h : Ends cfg fmt env s (.done b) w) :
      Outcome (.pass env) s ⟨w.mem, w.disk, s.log ++ w.trace⟩
  | abandoned {env : PassEnv T} {s : State H ρ} {w : World H ρ}
      (h : Ends cfg fmt env s (.failed .rpcCliError) w) :
      Outcome (.pass env) s
        ⟨{ w.mem with index := w.mem.index.discardPending }, w.disk, s.log ++ w.trace⟩
  | died {env : PassEnv T} {s : State H ρ} {f : Fault H} {w : World H ρ}
      (h : Ends cfg fmt env s (.failed f) w) :
      Outcome (.pass env) s ⟨.load w.disk, w.disk, s.log ++ w.trace⟩
  | crash {env : PassEnv T} {s : State H ρ} {c : Point H ρ} {w : World H ρ} {n : ℕ}
      {e : Event H ρ} {d : Disk H ρ} (h : Ends cfg fmt env s c w) (hn : w.trace[n]? = some e)
      (hd : e.disk? = some d) :
      Outcome (.crash env n) s ⟨.load d, d, s.log ++ w.trace.take (n + 1)⟩
  | restart {s : State H ρ} : Outcome .restart s ⟨.load s.disk, s.disk, s.log⟩
  | consume {s : State H ρ} (k : Kind) (n : ℕ) :
      Outcome (.consume k n) s { s with disk := s.disk.consume k n }

lemma outcome_of_next {i : Label T} {s s' : State H ρ} (h : next cfg fmt i s = some s') :
    Outcome cfg fmt i s s' := by
  cases i with
  | pass env =>
      simp only [next, Option.some.injEq] at h
      subst h
      unfold State.afterPass
      split
      · next b w hr => exact .done (.ok hr)
      · next w hr => exact .abandoned (.error hr)
      · next f w _ hr => exact .died (.error hr)
  | crash env n =>
      simp only [next, Option.map_eq_some_iff, Option.bind_eq_some_iff] at h
      obtain ⟨d, ⟨e, he, hd⟩, rfl⟩ := h
      obtain ⟨c, w, hw⟩ := exists_ends cfg fmt env s
      rw [hw.trace_eq] at he ⊢
      exact .crash hw he hd
  | restart =>
      cases h
      exact .restart
  | consume k n =>
      cases h
      exact .consume k n

end Refinement

end Ingest

end BtcParser
