import BtcParser.Ingest.Spacing
import BtcParser.Library.Alike

/-!
The number of catch-up workers does not matter.

Two processes run side by side, configured alike but for `rpc.catchup_workers`, and meet the same
surroundings but for the order in which their workers complete: nodes that answer every call from
one chain, which may be another one for each pass.

* `World.uncounted` forgets how many calls a pass has made, and nothing else. The parts of a pass
  that know of no worker are `Alike` to it, whatever node the pass meets.
* `forward_succ`: one round of the loop takes up the next block of the chain, fetched inline or by
  a worker. `TrapAt` is where the two differ, over a node that fails to fetch some blocks; so
  without a trap the loop is alike with any pool and without one (`alike_forward`).
* `CalmInv` is what a worker pool needs: the loop starts on the chain. It does unless the pass
  rewinds to a row of an older schema that is not on the chain.
* `lockstep` runs the two processes, and `workers_agree` is the result: they are always in the same
  state, memory, files and everything that was ever on disk.
-/

namespace BtcParser

open Program

variable {H ρ : Type}

/-- All of a world but the number of calls. -/
def World.uncounted (w : World H ρ) : World H ρ := { w with calls := 0 }

lemma World.eq_of_uncounted {w w' : World H ρ} (h : w.uncounted = w'.uncounted) :
    ∃ n, w' = { w with calls := n } := by
  obtain ⟨mem, disk, calls, trace⟩ := w
  obtain ⟨mem', disk', calls', trace'⟩ := w'
  simp only [uncounted, World.mk.injEq, true_and] at h
  obtain ⟨rfl, rfl, rfl⟩ := h
  exact ⟨calls', rfl⟩

lemma World.partEffects_calls (w : World H ρ) (n : ℕ) (k : Kind)
    (es : List (PartEffect (Row H ρ))) :
    ({ w with calls := n } : World H ρ).partEffects k es
      = { w.partEffects k es with calls := n } := by
  induction es generalizing w with
  | nil => rfl
  | cons e es ih => exact ih (w.effect fun d => d.applyPart k e)

/-- The configurations differ in the number of workers at most. -/
structure RpcConfig.SameButWorkers (cfg cfg' : RpcConfig) : Prop where
  reorgConfirmations : cfg.reorgConfirmations = cfg'.reorgConfirmations
  maxReorgDepth : cfg.maxReorgDepth = cfg'.maxReorgDepth
  batchSize : cfg.batchSize = cfg'.batchSize

variable {T : BlockTree H ρ}

/-- A node with this chain that answers every call. -/
def ActiveChain.node (Z : ActiveChain T) : Node T := ⟨Z, fun _ => false⟩

/-- A node with this chain that fails to fetch the blocks of some heights, and nothing else. -/
def ActiveChain.failing (Z : ActiveChain T) (S : ℤ → Bool) : Node T where
  chain := Z
  fails
    | .block h => S (T.height h)
    | _ => false

lemma ActiveChain.node_eq (Z : ActiveChain T) : Z.node = Z.failing fun _ => false := by
  rw [node, failing, Node.mk.injEq]
  exact ⟨rfl, funext fun r => by cases r <;> rfl⟩

/-- The whole pass meets one node. -/
structure PassEnv.Meets (env : PassEnv T) (N : Node T) : Prop where
  node : ∀ k, env.node k = N
  worker : ∀ n, env.worker n = (N, N)

/-- The whole pass meets one node, and it answers every call. -/
abbrev PassEnv.Steady (env : PassEnv T) (Z : ActiveChain T) : Prop := env.Meets Z.node

/-- The surroundings differ in the order in which workers complete at most. -/
structure PassEnv.Twins (env env' : PassEnv T) (N : Node T) : Prop where
  left : env.Meets N
  right : env'.Meets N
  stop : env.stop = env'.stop
  consumer : env.consumer = env'.consumer
  tie : env.tie = env'.tie

lemma PassEnv.Meets.on {env : PassEnv T} {N : Node T} (h : env.Meets N) : env.On N.chain :=
  ⟨fun k => by rw [h.node], fun n => by rw [h.worker]; exact ⟨rfl, rfl⟩⟩

lemma PassEnv.Steady.on {env : PassEnv T} {Z : ActiveChain T} (h : env.Steady Z) : env.On Z :=
  PassEnv.Meets.on h

lemma PassEnv.Steady.failing {env : PassEnv T} {Z : ActiveChain T} (h : env.Steady Z) :
    env.Meets (Z.failing fun _ => false) :=
  Z.node_eq ▸ h

namespace Ingest

variable [DecidableEq H] {N : Node T} {Z : ActiveChain T} {env env' : PassEnv T}
  {cfg cfg' : RpcConfig} {fmt : Formats H ρ}

/-! ### The parts that know of no worker -/

section Parts

variable {P : World H ρ → Prop} {α β : Type}

omit [DecidableEq H] in
lemma rpc_meets (hs : env.Meets N) {ask : Node T → Option α} {a : α}
    (ha : ask N = some a) (w : World H ρ) :
    rpc env ask w = .ok a { w with calls := w.calls + 1 } := by
  rw [rpc, hs.node, ha]

omit [DecidableEq H] in
lemma alike_rpc (ht : env.Twins env' N) (ask : Node T → Option α) :
    Alike World.uncounted P (rpc env ask) (rpc env' ask) := by
  intro s t _ hview
  obtain ⟨n, rfl⟩ := World.eq_of_uncounted hview
  rw [rpc, rpc, ht.left.node, ht.right.node]
  cases ask N <;> rfl

omit [DecidableEq H] in
/-- A program that goes on after a call. -/
lemma alike_rpc_bind (ht : env.Twins env' N) (hP : ∀ w n, P w → P { w with calls := n })
    {ask : Node T → Option α} {y y' : α → Pass H ρ β}
    (hy : ∀ a, ask N = some a → Alike World.uncounted P (y a) (y' a)) :
    Alike World.uncounted P (rpc env ask >>= y) (rpc env' ask >>= y') := by
  intro s t hs hview
  obtain ⟨n, rfl⟩ := World.eq_of_uncounted hview
  rw [bind_apply, bind_apply, rpc, rpc, ht.left.node, ht.right.node]
  cases ha : ask N with
  | none => rfl
  | some a => exact hy a ha _ _ (hP s _ hs) rfl

omit [DecidableEq H] in
lemma alike_store (ht : env.Twins env' N) {op : World H ρ → World H ρ}
    (hop : ∀ w n, op { w with calls := n } = { op w with calls := n }) :
    Alike World.uncounted P (store env op) (store env' op) := by
  refine (alike_modify fun s t _ hview => ?_).seq fun _ => alike_modify fun s t _ hview => ?_
  · obtain ⟨n, rfl⟩ := World.eq_of_uncounted hview
    rw [ht.consumer]
    rfl
  · obtain ⟨n, rfl⟩ := World.eq_of_uncounted hview
    rw [hop s n]
    rfl

omit [DecidableEq H] in
lemma writeParts_calls (f : Format (Row H ρ)) (atomic : Bool) (k : Kind) (rows : List (Row H ρ))
    (w : World H ρ) (n : ℕ) : ({ w with calls := n } : World H ρ).writeParts f atomic k rows
      = { w.writeParts f atomic k rows with calls := n } := by
  simp only [World.writeParts]
  exact congrArg (World.completed · _)
    (World.partEffects_calls { w with mem := { w.mem with sequencers := _ } } n k _)

lemma indexFlush_calls (isFull : IndexPart H → Bool) (w : World H ρ) (n : ℕ) :
    ({ w with calls := n } : World H ρ).indexFlush isFull
      = { w.indexFlush isFull with calls := n } := by
  simp only [World.indexFlush]
  split_ifs <;> rfl

omit [DecidableEq H] in
lemma statusFlush_calls (w : World H ρ) (n : ℕ) :
    ({ w with calls := n } : World H ρ).statusFlush = { w.statusFlush with calls := n } := by
  simp only [World.statusFlush]
  split_ifs <;> rfl

lemma alike_walkBack (ht : env.Twins env' N) (fuel : ℕ) (n : ℤ) (h : H) :
    Alike World.uncounted P (walkBack env fuel n h) (walkBack env' fuel n h) := by
  induction fuel generalizing n h P with
  | zero => exact alike_throw _
  | succ fuel ih =>
      refine alike_get fun s t _ hview => ?_
      obtain ⟨c, rfl⟩ := World.eq_of_uncounted hview
      cases s.mem.index.get h with
      | none => exact alike_throw _
      | some row =>
          refine alike_ite (fun _ => alike_throw _) fun _ => ?_
          cases row.previousblockhash with
          | none => exact alike_throw _
          | some p =>
              refine (alike_rpc ht _).seq fun live => ?_
              exact alike_ite (fun _ => alike_pure _) fun _ =>
                (ih (n - 1) p).seq fun r => alike_pure _

omit [DecidableEq H] in
lemma alike_attachedRows (ht : env.Twins env' N) (lives : List (ℤ × H)) (n : ℕ) (height : ℤ) :
    Alike World.uncounted P (attachedRows env lives n height)
      (attachedRows env' lives n height) := by
  induction n generalizing height P with
  | zero => exact alike_pure _
  | succ n ih =>
      unfold attachedRows
      cases lives.lookup height with
      | some live =>
          exact (alike_pure live).seq fun live => (ih (height + 1)).seq fun rows => alike_pure _
      | none =>
          exact (alike_rpc ht _).seq fun live => (ih (height + 1)).seq fun rows => alike_pure _

lemma alike_recoverFromReorg (hcfg : cfg.SameButWorkers cfg') (ht : env.Twins env' N) (n : ℤ)
    (h : H) : Alike World.uncounted P (recoverFromReorg cfg env n h)
      (recoverFromReorg cfg' env' n h) := by
  unfold recoverFromReorg
  rw [hcfg.maxReorgDepth]
  refine (alike_walkBack ht _ n h).seq fun r => ?_
  refine (alike_modify fun s t _ hview => ?_).seq fun _ => ?_
  · obtain ⟨c, rfl⟩ := World.eq_of_uncounted hview
    rfl
  · refine (alike_attachedRows ht _ _ _).seq fun attached => ?_
    exact (alike_store ht statusFlush_calls).seq fun _ =>
      (alike_store ht fun _ _ => rfl).seq fun _ => alike_pure _

lemma alike_readCurrent (ht : env.Twins env' N) :
    Alike World.uncounted P (readCurrent fmt env) (readCurrent fmt env') := by
  refine alike_get fun s t _ hview => ?_
  obtain ⟨c, rfl⟩ := World.eq_of_uncounted hview
  cases s.disk.current with
  | some p => exact alike_pure _
  | none =>
      refine alike_get fun s t _ hview => ?_
      obtain ⟨c, rfl⟩ := World.eq_of_uncounted hview
      simp only [ht.tie]
      cases seedTop env'.tie (seedRows (s.disk.parts .blocks)) with
      | none => exact alike_pure _
      | some top =>
          refine (alike_modify fun s t _ hview => ?_).seq fun _ =>
            (alike_store ht (indexFlush_calls _)).seq fun _ => alike_pure _
          obtain ⟨c, rfl⟩ := World.eq_of_uncounted hview
          rfl

lemma alike_resume (hcfg : cfg.SameButWorkers cfg') (ht : env.Twins env' N)
    (current : Option (Pointer H)) :
    Alike World.uncounted P (resume cfg env current) (resume cfg' env' current) := by
  match current with
  | none => exact alike_pure _
  | some (n, hash) =>
      refine (alike_rpc ht _).seq fun live => alike_ite (fun _ => alike_pure _) fun _ => ?_
      cases hash with
      | none => exact alike_throw _
      | some h => exact (alike_recoverFromReorg hcfg ht n h).seq fun _ => alike_pure _

omit [DecidableEq H] in
lemma alike_rewindToStale (p : Pointer H) :
    Alike World.uncounted P (rewindToStale p : Pass H ρ (Pointer H)) (rewindToStale p) := by
  refine alike_get fun s t _ hview => ?_
  obtain ⟨c, rfl⟩ := World.eq_of_uncounted hview
  dsimp only
  generalize s.mem.index.earliestStale = q
  refine (alike_modify fun s t _ hview => ?_).seq fun _ => ?_
  · obtain ⟨c, rfl⟩ := World.eq_of_uncounted hview
    rfl
  · cases q.1 with
    | none => exact alike_pure _
    | some row => exact alike_ite (fun _ => alike_pure _) fun _ => alike_pure _

omit [DecidableEq H] in
lemma alike_headerTime (ht : env.Twins env' N) (hash : Option H) :
    Alike World.uncounted P (headerTime env hash) (headerTime env' hash) := by
  cases hash with
  | none => exact alike_pure _
  | some h => exact (alike_rpc ht _).seq fun _ => alike_pure _

omit [DecidableEq H] in
lemma alike_drain (ht : env.Twins env' N) (atomic : Bool) (buffers : Kind → List (Row H ρ))
    (ks : List Kind) :
    Alike World.uncounted P (drain fmt env atomic buffers ks)
      (drain fmt env' atomic buffers ks) := by
  induction ks generalizing P with
  | nil => exact alike_pure _
  | cons k ks ih => exact (alike_store ht (writeParts_calls _ _ _ _)).seq fun _ => ih

lemma alike_checkpointIfDue (hcfg : cfg.SameButWorkers cfg') (ht : env.Twins env' N) (g : Goal)
    (l : Loop H ρ) :
    Alike World.uncounted P (checkpointIfDue cfg fmt env g l)
      (checkpointIfDue cfg' fmt env' g l) := by
  unfold checkpointIfDue
  rw [hcfg.batchSize]
  refine alike_ite (fun _ => ?_) fun _ => alike_pure _
  exact (alike_drain ht _ _ _).seq fun _ => (alike_store ht (indexFlush_calls _)).seq fun _ =>
    (alike_store ht statusFlush_calls).seq fun _ =>
      (alike_store ht fun _ _ => rfl).seq fun _ => alike_pure _

lemma alike_finish (ht : env.Twins env' N) (g : Goal) (l : Loop H ρ) :
    Alike World.uncounted P (finish fmt env g l) (finish fmt env' g l) := by
  refine (alike_drain ht _ _ _).seq fun _ => (alike_store ht (indexFlush_calls _)).seq fun _ =>
    (alike_store ht statusFlush_calls).seq fun _ => ?_
  cases l.hash with
  | none => exact (alike_pure _).seq fun _ => alike_pure _
  | some h => exact (alike_store ht fun _ _ => rfl).seq fun _ => alike_pure _

end Parts

/-! ### The loop -/

/-- A pointer to a block of the chain, or below it. -/
def OnChain (Z : ActiveChain T) (p : Pointer H) : Prop :=
  PointerTrue T p ∧ ∀ h, p.2 = some h → h ∈ Z

omit [DecidableEq H] in
/-- Above it the chain goes on, up to its tip. -/
lemma OnChain.next {n : ℤ} {hash : Option H} (hp : OnChain Z (n, hash)) (hle : n + 1 ≤ Z.tip) :
    ∃ x, Z.hashAt (n + 1) = some x ∧ T.parent x = hash := by
  have h0 : 0 ≤ n + 1 := by
    cases hash with
    | none =>
        have hn : n = -1 := hp.1
        omega
    | some h =>
        have hn : T.height h = n := hp.1
        have := T.height_nonneg h
        omega
  obtain ⟨x, hx⟩ := Z.exists_hashAt h0 hle
  exact ⟨x, hx, Z.parent_of_next hp.1 hp.2 hx⟩

variable {S : ℤ → Bool}

/-- The loop processes a height inline. It asks for the block only if it is to be exported. -/
lemma processHeight_failing (hs : env.Meets (Z.failing S)) {l : Loop H ρ} {x : H}
    (hx : Z.hashAt (l.height + 1) = some x) (w : World H ρ)
    (hopen : w.mem.index.needsExport x = true → S (l.height + 1) = false) :
    ∃ n, processHeight env (l.height + 1) l w
      = .ok (l.take T x w.mem.index) { takeBlock T x l w with calls := n } := by
  have heq := processHeight_eq env l w
  cases hr : processHeight env (l.height + 1) l w with
  | ok l' t =>
      rw [hr] at heq
      obtain ⟨y, n, hy, rfl, rfl⟩ := heq
      have hxy : Z.hashAt (l.height + 1) = some y := hs.on.hashAt hy
      rw [hx, Option.some.injEq] at hxy
      subst hxy
      exact ⟨n, rfl⟩
  | error f t =>
      -- no call fails
      have hhash : ∀ w : World H ρ, rpc env (·.getBlockHash (l.height + 1)) w
          = .ok x { w with calls := w.calls + 1 } := rpc_meets hs hx
      have htime : ∀ w : World H ρ, rpc env (·.getBlockHeader x) w
          = .ok (T.block x).blockTime { w with calls := w.calls + 1 } := rpc_meets hs rfl
      simp only [processHeight, bind_apply, hhash, get_apply] at hr
      cases hn : w.mem.index.needsExport x with
      | false =>
          simp only [hn, Bool.not_false, if_true, bind_apply, htime] at hr
          cases hr
      | true =>
          have hblock : ∀ w : World H ρ, rpc env (·.getBlock x) w
              = .ok (T.block x) { w with calls := w.calls + 1 } := rpc_meets hs <| by
            rw [Node.getBlock, if_neg]
            simp only [ActiveChain.failing, Z.height_of_hashAt hx, hopen hn, Bool.false_eq_true,
              not_false_eq_true]
          simp only [hn, Bool.not_true, Bool.false_eq_true, if_false, bind_apply, hblock] at hr
          cases hr

/-- The fetch of a block to be exported fails. -/
lemma processHeight_fails (hs : env.Meets (Z.failing S)) {l : Loop H ρ} {x : H}
    (hx : Z.hashAt (l.height + 1) = some x) {w : World H ρ}
    (hn : w.mem.index.needsExport x = true) (hS : S (l.height + 1) = true) :
    ∃ c, processHeight env (l.height + 1) l w = .error .rpcCliError { w with calls := c } := by
  have hhash : ∀ w : World H ρ, rpc env (·.getBlockHash (l.height + 1)) w
      = .ok x { w with calls := w.calls + 1 } := rpc_meets hs hx
  have hblock : ∀ w : World H ρ, rpc env (·.getBlock x) w
      = .error .rpcCliError { w with calls := w.calls + 1 } := fun w => by
    rw [rpc, hs.node, Node.getBlock, if_pos]
    simp only [ActiveChain.failing, Z.height_of_hashAt hx, hS]
  refine ⟨w.calls + 2, ?_⟩
  simp only [processHeight, bind_apply, hhash, get_apply, hn, Bool.not_true, Bool.false_eq_true,
    if_false, hblock]

variable (cfg) in
omit [DecidableEq H] in
/-- What a worker hands out: the block, if it can be fetched. -/
lemma nextParsed_failing (hs : env.Meets (Z.failing S)) {g : Goal} {n : ℤ} {p : Prefetch}
    (hp : Feeds g n (some p)) (hle : n + 1 ≤ g.parallelEnd) {x : H}
    (hx : Z.hashAt (n + 1) = some x) (w : World H ρ) :
    if S (n + 1) then nextParsed cfg env p w = .error .rpcCliError w
    else ∃ p', nextParsed cfg env p w = .ok (T.block x, p') w ∧ Feeds g (n + 1) (some p') := by
  have hheight : (T.block x).height = n + 1 := Z.height_of_hashAt hx
  have hh : (Z.failing S).getBlockHash (n + 1) = some x := hx
  have hparsed := nextParsed_ok env cfg.catchupWorkers_pos hp hle w
  obtain ⟨hv, hheights⟩ := hp p rfl
  rw [show (g.parallelEnd - n).toNat = (g.parallelEnd - (n + 1)).toNat + 1 by omega,
    heightRange] at hheights
  obtain ⟨p', hnext, -, -⟩ :=
    Prefetch.next_eq (fetchAndParse env) env.schedule cfg.catchupWorkers_pos hv hheights
  split_ifs with hS
  · have hb : (Z.failing S).getBlock x = none := by
      rw [Node.getBlock, if_pos]
      exact (congrArg S hheight).trans hS
    have hfetch : fetchAndParse env (n + 1) = .error .rpcCliError := by
      simp only [fetchAndParse, hs.worker, hh, hb]
    unfold nextParsed
    rw [hnext, hfetch]
    rfl
  · have hb : (Z.failing S).getBlock x = some (T.block x) := by
      rw [Node.getBlock, if_neg]
      exact fun hf => hS ((congrArg S hheight).symm.trans hf)
    have hfetch : fetchAndParse env (n + 1) = .ok (T.block x) := by
      simp only [fetchAndParse, hs.worker, hh, hb, hheight, ne_eq, not_true_eq_false, if_false]
    have hr : nextParsed cfg env p w = .ok (T.block x, p') w := by
      unfold nextParsed
      rw [hnext, hfetch]
      rfl
    rw [hr] at hparsed
    exact ⟨p', hr, hparsed.2.2⟩

omit [DecidableEq H] in
/-- A pool that is not used has no heights left. -/
lemma Feeds.unused {g : Goal} {n : ℤ} {pf : Option Prefetch} (hp : Feeds g n pf)
    (hpf : n + 1 ≤ g.parallelEnd → pf = none) : Feeds g (n + 1) pf := by
  intro p hpp
  obtain ⟨hv, hh⟩ := hp p hpp
  have hge : ¬ n + 1 ≤ g.parallelEnd := fun hle => by
    rw [hpf hle] at hpp
    cases hpp
  rw [show (g.parallelEnd - n).toNat = 0 by omega] at hh
  rw [show (g.parallelEnd - (n + 1)).toNat = 0 by omega]
  exact ⟨hv, hh⟩

variable (cfg fmt) in
/-- One round of the loop without the pool: the next block of the chain is taken up. -/
lemma forward_inline (hs : env.Meets (Z.failing S)) {g : Goal} {l : Loop H ρ}
    {pf : Option Prefetch} (hpf : l.height + 1 ≤ g.parallelEnd → pf = none)
    (hstop : env.stop (l.height + 1) = false) {x : H} (hx : Z.hashAt (l.height + 1) = some x)
    (n : ℕ) (w : World H ρ)
    (hopen : w.mem.index.needsExport x = true → S (l.height + 1) = false) :
    ∃ c, forward cfg fmt env g (n + 1) pf l w
      = (checkpointIfDue cfg fmt env g (l.take T x w.mem.index) >>= forward cfg fmt env g n pf)
          { takeBlock T x l w with calls := c } := by
  obtain ⟨c, hc⟩ := processHeight_failing hs hx w hopen
  have hnone : (if l.height + 1 ≤ g.parallelEnd then pf else none) = none := by
    split_ifs with hle
    · exact hpf hle
    · rfl
  refine ⟨c, ?_⟩
  unfold forward
  simp only [hstop, Bool.false_eq_true, if_false, hnone]
  exact bind_of_ok hc _

variable (cfg fmt) in
/-- One round of the loop, with a pool or without: the next block of the chain is taken up. -/
lemma forward_succ (hs : env.Meets (Z.failing S)) {g : Goal} {l : Loop H ρ}
    {pf : Option Prefetch} (hp : Feeds g l.height pf) (hl : OnChain Z (l.height, l.hash))
    (hstop : env.stop (l.height + 1) = false) {x : H} (hx : Z.hashAt (l.height + 1) = some x)
    (hS : S (l.height + 1) = false) (n : ℕ) (w : World H ρ) :
    ∃ c pf', Feeds g (l.height + 1) pf' ∧ (pf' = none ↔ pf = none ∨ l.height + 1 = g.parallelEnd)
      ∧ forward cfg fmt env g (n + 1) pf l w
        = (checkpointIfDue cfg fmt env g (l.take T x w.mem.index) >>= forward cfg fmt env g n pf')
            { takeBlock T x l w with calls := c } := by
  cases hpf : (if l.height + 1 ≤ g.parallelEnd then pf else none) with
  | none =>
      have hunused : l.height + 1 ≤ g.parallelEnd → pf = none := fun hle => by
        rwa [if_pos hle] at hpf
      obtain ⟨c, hc⟩ := forward_inline cfg fmt hs hunused hstop hx n w fun _ => hS
      exact ⟨c, pf, hp.unused hunused,
        ⟨.inl, fun h => h.elim id fun heq => hunused heq.le⟩, hc⟩
  | some p =>
      obtain ⟨hle, rfl⟩ : l.height + 1 ≤ g.parallelEnd ∧ pf = some p := by simpa using hpf
      have hparsed := nextParsed_failing cfg hs hp hle hx w
      rw [hS] at hparsed
      obtain ⟨p', hr, hp'⟩ := hparsed
      have hlink : ¬ (l.hash ≠ none ∧ (T.block x).previousblockhash ≠ l.hash) := fun h =>
        h.2 (Z.parent_of_next hl.1 hl.2 hx)
      refine ⟨w.calls, if l.height + 1 = g.parallelEnd then none else some p', ?_, by simp, ?_⟩
      · split_ifs
        · exact feeds_none _ _
        · exact hp'
      · unfold forward
        simp only [hstop, Bool.false_eq_true, if_false, hle, if_true]
        refine (bind_of_ok hr _).trans ?_
        simp only [hlink, if_false]
        exact bind_of_ok (processPrefetched_eq l w x) _

variable (cfg fmt) in
/-- One that fails, with a pool or without: the next block cannot be fetched. -/
lemma forward_fails (hs : env.Meets (Z.failing S)) {g : Goal} {l : Loop H ρ}
    {pf : Option Prefetch} (hp : Feeds g l.height pf) (hstop : env.stop (l.height + 1) = false)
    {x : H} (hx : Z.hashAt (l.height + 1) = some x) (hS : S (l.height + 1) = true) (n : ℕ)
    (w : World H ρ)
    (hn : l.height + 1 ≤ g.parallelEnd ∧ pf ≠ none ∨ w.mem.index.needsExport x = true) :
    ∃ c, forward cfg fmt env g (n + 1) pf l w = .error .rpcCliError { w with calls := c } := by
  unfold forward
  simp only [hstop, Bool.false_eq_true, if_false]
  cases hpf : (if l.height + 1 ≤ g.parallelEnd then pf else none) with
  | none =>
      have hneeds := hn.resolve_left fun h => h.2 (by rwa [if_pos h.1] at hpf)
      obtain ⟨c, hc⟩ := processHeight_fails hs hx hneeds hS
      refine ⟨c, ?_⟩
      simp only [bind_apply, hc]
  | some p =>
      obtain ⟨hle, rfl⟩ : l.height + 1 ≤ g.parallelEnd ∧ pf = some p := by simpa using hpf
      have hparsed := nextParsed_failing cfg hs hp hle hx w
      rw [if_pos hS] at hparsed
      refine ⟨w.calls, ?_⟩
      simp only [bind_apply, hparsed]

/-- Of the blocks above `n` that cannot be fetched the index knows what it knew before. -/
def Ahead (T : BlockTree H ρ) (S : ℤ → Bool) (s₀ : IndexStore H) (n : ℤ) (s : IndexStore H) :
    Prop :=
  ∀ y, n < T.height y → S (T.height y) = true →
    s.byHash.get? y = s₀.byHash.get? y ∧ s.pending.get? y = none

variable {s₀ s : IndexStore H} {n : ℤ}

lemma ahead_of_false : Ahead T (fun _ => false) s₀ n s := fun _ _ hS => by cases hS

lemma Ahead.needsExport (h : Ahead T S s₀ n s) (hq : s₀.pending = .empty) {y : H}
    (hy : n < T.height y) (hS : S (T.height y) = true) : s.needsExport y = s₀.needsExport y := by
  obtain ⟨hb, hp⟩ := h y hy hS
  simp only [IndexStore.needsExport, IndexStore.row?, hb, hp, hq, Dict.get?_empty]

lemma Ahead.take (h : Ahead T S s₀ n s) {x : H} (hx : T.height x = n + 1) :
    Ahead T S s₀ (n + 1) (takeIndex T x s) := by
  intro y hy hS
  obtain ⟨hb, hp⟩ := h y (by omega) hS
  refine ⟨by rw [takeIndex_byHash, hb], Option.eq_none_iff_forall_ne_some.mpr fun r hr => ?_⟩
  unfold takeIndex at hr
  split_ifs at hr
  · rcases s.get?_pending_add hr with hr | ⟨rfl, -⟩
    · rw [hp] at hr
      cases hr
    · omega
  · rw [hp] at hr
    cases hr

lemma Ahead.flush (h : Ahead T S s₀ n s) : Ahead T S s₀ n s.flush := by
  intro y hy hS
  obtain ⟨hb, hp⟩ := h y hy hS
  rw [s.flush_byHash, s.flush_pending, Dict.get?_update, hp, Dict.get?_empty]
  exact ⟨hb, rfl⟩

omit [DecidableEq H] in
lemma drain_index {atomic : Bool} {buffers : Kind → List (Row H ρ)} {ks : List Kind}
    {w t : World H ρ} (h : drain fmt env atomic buffers ks w = .ok () t) :
    t.mem.index = w.mem.index := by
  induction ks generalizing w with
  | nil =>
      cases h
      rfl
  | cons k ks ih =>
      refine (ih h).trans ?_
      rw [World.writeParts_mem, World.consumed_mem]

/-- A checkpoint flushes the index, and does nothing else with it. -/
lemma Ahead.checkpointIfDue {g : Goal} {l l' : Loop H ρ} {w t : World H ρ}
    (ha : Ahead T S s₀ n w.mem.index) (h : Ingest.checkpointIfDue cfg fmt env g l w = .ok l' t) :
    Ahead T S s₀ n t.mem.index := by
  unfold Ingest.checkpointIfDue at h
  split_ifs at h
  · obtain ⟨u, hu⟩ := drain_ok fmt env g.atomic l.buffers Kind.all w
    rw [checkpoint, bind_of_ok hu] at h
    cases h
    simp only [World.writeCurrent_mem, World.statusFlush_mem, World.indexFlush_mem,
      World.consumed_mem, drain_index hu]
    exact ha.flush
  · cases h
    exact ha

/-- The pool is asked for the block of height `h`, which is indexed and cannot be fetched: the
first such height above `n`, up to the end `e` of the pool. -/
structure TrapAt (Z : ActiveChain T) (S stop : ℤ → Bool) (s : IndexStore H) (n e h : ℤ) : Prop where
  above : n < h
  pooled : h ≤ e
  indexed : ∃ x, Z.hashAt h = some x ∧ s.needsExport x = false
  fails : S h = true
  first : ∀ m, n < m → m < h → S m = false
  reached : ∀ m, n < m → m ≤ h → stop m = false

/-- It stays ahead of the loop. -/
lemma trapAt_succ {stop : ℤ → Bool} {e h : ℤ} (hS : S (n + 1) = false)
    (hstop : stop (n + 1) = false) :
    TrapAt Z S stop s n e h ↔ TrapAt Z S stop s (n + 1) e h := by
  constructor
  · rintro ⟨habove, hpooled, hindexed, hfails, hfirst, hreached⟩
    have hne : h ≠ n + 1 := by
      rintro rfl
      rw [hS] at hfails
      cases hfails
    exact ⟨by omega, hpooled, hindexed, hfails, fun m hm => hfirst m (by omega),
      fun m hm => hreached m (by omega)⟩
  · rintro ⟨habove, hpooled, hindexed, hfails, hfirst, hreached⟩
    refine ⟨by omega, hpooled, hindexed, hfails, fun m hm hlt => ?_, fun m hm hle => ?_⟩
    · rcases (show m = n + 1 ∨ n + 1 < m by omega) with rfl | hm
      · exact hS
      · exact hfirst m hm hlt
    · rcases (show m = n + 1 ∨ n + 1 < m by omega) with rfl | hm
      · exact hstop
      · exact hreached m hm hle

/-- **The loop** is alike with any two pools, unless one is asked for an indexed block that cannot
be fetched. -/
lemma alike_forward (hcfg : cfg.SameButWorkers cfg') (ht : env.Twins env' (Z.failing S)) (g : Goal)
    (htip : g.latest ≤ Z.tip) (hq : s₀.pending = .empty) (n : ℕ) (pf pf' : Option Prefetch)
    (l : Loop H ρ) (hn : g.latest = l.height + n) (hl : OnChain Z (l.height, l.hash))
    (hp : Feeds g l.height pf) (hp' : Feeds g l.height pf')
    (hopen : (pf = none ∧ pf' = none) ∨ ∀ h, ¬ TrapAt Z S env.stop s₀ l.height g.parallelEnd h) :
    Alike World.uncounted (fun w => Ahead T S s₀ l.height w.mem.index)
      (forward cfg fmt env g n pf l) (forward cfg' fmt env' g n pf' l) := by
  induction n generalizing pf pf' l with
  | zero => exact alike_pure _
  | succ n ih =>
      intro s t hs hview
      obtain ⟨c, rfl⟩ := World.eq_of_uncounted hview
      cases hstop : env.stop (l.height + 1) with
      | true =>
          have hstop' : env'.stop (l.height + 1) = true := ht.stop ▸ hstop
          simp only [forward, hstop, hstop', if_true]
          rfl
      | false =>
          have hstop' : env'.stop (l.height + 1) = false := ht.stop ▸ hstop
          obtain ⟨x, hx, -⟩ := hl.next (by push_cast at hn; omega)
          have hxh := Z.height_of_hashAt hx
          -- the rest of the loop, from the block on
          have hrest : ∀ c₁ c₂ pf₁ pf₂, Feeds g (l.height + 1) pf₁ → Feeds g (l.height + 1) pf₂ →
              ((pf₁ = none ∧ pf₂ = none)
                ∨ ∀ h, ¬ TrapAt Z S env.stop s₀ (l.height + 1) g.parallelEnd h) →
              viewed World.uncounted ((checkpointIfDue cfg fmt env g (l.take T x s.mem.index)
                  >>= forward cfg fmt env g n pf₁) { takeBlock T x l s with calls := c₁ })
                = viewed World.uncounted ((checkpointIfDue cfg' fmt env' g (l.take T x s.mem.index)
                  >>= forward cfg' fmt env' g n pf₂) { takeBlock T x l s with calls := c₂ }) := by
            intro c₁ c₂ pf₁ pf₂ hp₁ hp₂ hopen'
            refine Alike.bind (P := fun w => Ahead T S s₀ (l.height + 1) w.mem.index)
              (Q := fun l' w => (l'.height = l.height + 1 ∧ l'.hash = some x)
                ∧ Ahead T S s₀ (l.height + 1) w.mem.index)
              (E := fun _ _ => True) (alike_checkpointIfDue hcfg ht g _)
              (triple_of_runs (fun _ _ _ ha hr => ⟨checkpointIfDue_ok hr, ha.checkpointIfDue hr⟩)
                fun _ _ _ _ _ => trivial)
              (fun l' => alike_of_pure (fun _ h => h.1) fun hl' => ?_) _ _ (hs.take hxh) rfl
            obtain ⟨hheight, hhash⟩ := hl'
            have hloop := ih pf₁ pf₂ l' (by push_cast at hn; omega)
              (by rw [hheight, hhash]; exact ⟨hxh, by rintro y ⟨⟩; exact Z.mem_of_hashAt hx⟩)
              (hheight ▸ hp₁) (hheight ▸ hp₂) (hheight ▸ hopen')
            exact fun w v hw => hloop w v (hheight ▸ hw.2)
          cases hS : S (l.height + 1) with
          | false =>
              obtain ⟨c₁, pf₁, hp₁, hnone₁, hr₁⟩ :=
                forward_succ cfg fmt ht.left hp hl hstop hx hS n s
              obtain ⟨c₂, pf₂, hp₂, hnone₂, hr₂⟩ :=
                forward_succ cfg' fmt ht.right hp' hl hstop' hx hS n { s with calls := c }
              rw [hr₁, hr₂]
              exact hrest c₁ c₂ pf₁ pf₂ hp₁ hp₂ (hopen.imp
                (fun h => ⟨hnone₁.mpr (.inl h.1), hnone₂.mpr (.inl h.2)⟩)
                fun h k hk => h k ((trapAt_succ hS hstop).mpr hk))
          | true =>
              have hsame : s.mem.index.needsExport x = s₀.needsExport x :=
                hs.needsExport hq (by omega) (by rw [hxh, hS])
              cases hneeds : s.mem.index.needsExport x with
              -- both ask for the block
              | true =>
                  obtain ⟨c₁, hr₁⟩ :=
                    forward_fails cfg fmt ht.left hp hstop hx hS n s (.inr hneeds)
                  obtain ⟨c₂, hr₂⟩ := forward_fails cfg' fmt ht.right hp' hstop' hx hS n
                    { s with calls := c } (.inr hneeds)
                  rw [hr₁, hr₂]
                  rfl
              -- neither does
              | false =>
                  have hunused : l.height + 1 ≤ g.parallelEnd → pf = none ∧ pf' = none :=
                    fun hle => hopen.resolve_right fun h => h (l.height + 1) ⟨by omega, hle,
                      ⟨x, hx, hsame ▸ hneeds⟩, hS, fun m hm hlt => by omega, fun m hm hle' => by
                        rwa [show m = l.height + 1 by omega]⟩
                  obtain ⟨c₁, hr₁⟩ := forward_inline cfg fmt ht.left (fun hle => (hunused hle).1)
                    hstop hx n s fun h => by rw [hneeds] at h; cases h
                  obtain ⟨c₂, hr₂⟩ := forward_inline cfg' fmt ht.right (fun hle => (hunused hle).2)
                    hstop' hx n { s with calls := c } fun h => by rw [hneeds] at h; cases h
                  rw [hr₁, hr₂]
                  refine hrest c₁ c₂ pf pf' (hp.unused fun hle => (hunused hle).1)
                    (hp'.unused fun hle => (hunused hle).2) ?_
                  by_cases hle : l.height + 1 ≤ g.parallelEnd
                  · exact .inl (hunused hle)
                  · exact .inr fun k hk => hle (hk.above.le.trans hk.pooled)

/-! ### Where the loop starts -/

/-- Every row of an older schema, flushed or staged, is of a block with the property `P`. -/
def StaleIn (P : H → Prop) (s : IndexStore H) : Prop :=
  ∀ x r, s.byHash.get? x = some r ∨ s.pending.get? x = some r →
    r.schemaVersion < currentIndexSchemaVersion → P x

variable {Q : H → Prop}

lemma StaleIn.seed {s : IndexStore H} (hs : StaleIn Q s) {rows : List (BlockEvent H ρ)}
    (hr : ∀ e ∈ rows, Q e.hash) : StaleIn Q (seedIndex s rows) := by
  intro x r hx hv
  rw [seedIndex_byHash] at hx
  rcases hx with hx | hx
  · exact hs x r (.inl hx) hv
  · rcases get?_pending_seedIndex hx with hx | ⟨e, he, rfl⟩
    · exact hs x r (.inr hx) hv
    · exact hr e he

lemma StaleIn.flush {s : IndexStore H} (hs : StaleIn Q s) : StaleIn Q s.flush := by
  intro x r hx hv
  rw [s.flush_byHash, s.flush_pending, Dict.get?_update] at hx
  simp only [Dict.get?_empty, reduceCtorEq, or_false, Option.or_eq_some_iff] at hx
  rcases hx with hx | ⟨-, hx⟩
  · exact hs x r (.inr hx) hv
  · exact hs x r (.inl hx) hv

/-- Before the pass looks for stale rows. -/
def Point.early : Point H ρ → Prop
  | .start => True
  | .looked _ => True
  | .seeded .. => True
  | .located .. => True
  | .detached .. => True
  | .recorded .. => True
  | .based .. => True
  | _ => False

/-- The pointers that have been compared with the chain are on it. -/
def PointCalm (Z : ActiveChain T) : Point H ρ → Prop
  | .detached _ a => a.2 ∈ Z
  | .recorded _ a => a.2 ∈ Z
  | .based _ p => ∀ h, p.2 = some h → h ∈ Z
  | .rewound _ p => ∀ h, p.2 = some h → h ∈ Z
  | _ => True

/-- What is found on disk of an older schema, or of no known one, is on the chain. -/
structure Calm (Z : ActiveChain T) (index : IndexStore H) (d : Disk H ρ) : Prop where
  stale : StaleIn (· ∈ Z) index
  seeds : d.current = none → d.BlocksAll fun e => e.hash ∈ Z

/-- The invariant of a pass up to its loop. -/
structure CalmInv (Z : ActiveChain T) (c : Point H ρ) (w : World H ρ) : Prop where
  records : RecInv T c w
  calm : c.early → Calm Z w.mem.index w.disk
  point : PointCalm Z c

variable {c c' : Point H ρ} {w w' : World H ρ}

/-- **The step lemma.** -/
lemma calmInv_step (hon : env.On Z) (h : CalmInv Z c w) (hs : Step cfg fmt env c w c' w') :
    CalmInv Z c' w' := by
  have hrec := recInv_step h.records hs
  cases hs with
  | tick n => exact ⟨hrec, h.calm, h.point⟩
  | consume cs =>
      refine ⟨hrec, fun he => ⟨(h.calm he).stale, fun hc => ?_⟩, h.point⟩
      rw [World.consumed_current] at hc
      exact World.consumed_disk (D := fun d => d.BlocksAll fun e => e.hash ∈ Z) _ _
        (fun _ _ _ hd => hd.consume _) ((h.calm he).seeds hc)
  | look _ _ _ => exact ⟨hrec, fun _ => ⟨(h.calm trivial).stale, (h.calm trivial).seeds⟩, trivial⟩
  | resume _ => exact ⟨hrec, fun _ => h.calm trivial, trivial⟩
  | fresh _ _ => exact ⟨hrec, fun _ => h.calm trivial, by rintro x ⟨⟩⟩
  -- the rows to be seeded are on the chain
  | seed hc _ =>
      have hcalm := h.calm trivial
      exact ⟨hrec, fun _ => ⟨hcalm.stale.seed (hcalm.seeds hc).seedRows, hcalm.seeds⟩, trivial⟩
  | seedFlush =>
      have hcalm := h.calm trivial
      refine ⟨hrec, fun _ => ⟨?_, ?_⟩, trivial⟩
      · rw [World.indexFlush_mem]
        exact hcalm.stale.flush
      · rw [World.indexFlush_disk]
        exact hcalm.seeds
  | live hh =>
      refine ⟨hrec, fun _ => h.calm trivial, ?_⟩
      rintro x ⟨⟩
      exact Z.mem_of_hashAt (hon.hashAt hh)
  -- the fork is on the chain
  | detach _ _ hw =>
      exact ⟨hrec, fun _ => ⟨(h.calm trivial).stale, (h.calm trivial).seeds⟩, hw.ancestor_mem hon⟩
  | recordFlags =>
      have hcalm := h.calm trivial
      refine ⟨hrec, fun _ => ⟨?_, ?_⟩, h.point⟩
      · rw [World.statusFlush_mem]
        exact hcalm.stale
      · rw [World.statusFlush_disk]
        exact hcalm.seeds
  | recordLog log =>
      refine ⟨hrec, fun _ => ⟨(h.calm trivial).stale, (h.calm trivial).seeds⟩, ?_⟩
      rintro x ⟨⟩
      exact h.point
  | keep _ => exact ⟨hrec, fun he => he.elim, h.point⟩
  -- the parent of a stale row on the chain is on the chain
  | @rewind _ _ p row hrow _ =>
      refine ⟨hrec, fun he => he.elim, fun y hy => ?_⟩
      obtain ⟨⟨x, hx⟩, hv⟩ := IndexStore.mem_staleRows.mp (IndexStore.earliestStale_some _ hrow).1
      have hparent := (h.records.recorded.byHash x row hx).2.2
      exact Z.parentClosed x y ((h.calm trivial).stale x row (.inl hx) hv) (hparent ▸ hy)
  | _ => exact ⟨hrec, fun he => he.elim, trivial⟩

/-! ### A pass -/

/-- **The loop with what is settled before it** is alike. -/
lemma alike_catchUp (hcfg : cfg.SameButWorkers cfg') (ht : env.Twins env' Z.node) {tip latest : ℤ}
    (htip : latest ≤ Z.tip) {p : Pointer H} (hp : OnChain Z p) (hlt : p.1 < latest)
    (P : World H ρ → Prop) :
    Alike World.uncounted P (catchUp cfg fmt env tip latest p)
      (catchUp cfg' fmt env' tip latest p) := by
  unfold catchUp
  rw [hcfg.reorgConfirmations, hcfg.maxReorgDepth]
  refine (alike_headerTime ht p.2).seq fun prevTime => ?_
  -- the loop and the last checkpoint, from any two plans
  have hloop : ∀ (g : Goal) (pf pf' : Option Prefetch), g.latest = latest → Feeds g p.1 pf →
      Feeds g p.1 pf' →
      Alike World.uncounted (fun _ => True)
        (forward cfg fmt env g (latest - p.1).toNat pf ⟨p.1, p.2, prevTime, fun _ => [], 0⟩
          >>= finish fmt env g)
        (forward cfg' fmt env' g (latest - p.1).toNat pf' ⟨p.1, p.2, prevTime, fun _ => [], 0⟩
          >>= finish fmt env' g) := by
    rintro g pf pf' rfl hpf hpf'
    refine Alike.seq (fun w v _ => ?_) fun l => alike_finish ht g l
    exact alike_forward hcfg (Z.node_eq ▸ ht) g htip
      (show (IndexStore.load [] : IndexStore H).pending = .empty from rfl) (g.latest - p.1).toNat
      pf pf' ⟨p.1, p.2, prevTime, fun _ => [], 0⟩ (by simp only; omega) hp hpf hpf'
      (.inr fun h hh => Bool.false_ne_true hh.fails) w v ahead_of_false
  exact hloop _ _ _ rfl (feeds_start cfg _ _ _) (feeds_start cfg' _ _ _)

lemma alike_proceed (hcfg : cfg.SameButWorkers cfg') (ht : env.Twins env' Z.node) {tip latest : ℤ}
    (htip : latest ≤ Z.tip) (current : Option (Pointer H)) :
    Alike World.uncounted (CalmInv Z (.found latest current))
      (proceed cfg fmt env tip latest current) (proceed cfg' fmt env' tip latest current) := by
  have hstep : ∀ c w c' w', CalmInv Z c w → Step cfg fmt env c w c' w' → CalmInv Z c' w' :=
    fun _ _ _ _ => calmInv_step ht.left.on
  refine (alike_resume hcfg ht current).bind
    (triple_of_follows hstep fun w _ => follows_resume) fun p => ?_
  refine (alike_rewindToStale p).bind
    (triple_of_follows hstep fun w _ => follows_rewindToStale) fun p => ?_
  refine alike_of_pure (p := OnChain Z p) (fun w hw => ⟨hw.records.point.2, hw.point⟩) fun hp => ?_
  refine alike_ite (fun _ => ?_) fun hle => alike_catchUp hcfg ht htip hp (by omega) _
  exact (alike_store ht fun _ _ => rfl).seq fun _ =>
    (alike_store ht statusFlush_calls).seq fun _ => alike_pure _

/-- **One pass** is alike. -/
theorem alike_runOnePass (hcfg : cfg.SameButWorkers cfg') (ht : env.Twins env' Z.node) :
    Alike World.uncounted (CalmInv Z .start) (runOnePass cfg fmt env)
      (runOnePass cfg' fmt env') := by
  have hstep : ∀ c w c' w', CalmInv Z c w → Step cfg fmt env c w c' w' → CalmInv Z c' w' :=
    fun _ _ _ _ => calmInv_step ht.left.on
  have htick : ∀ (w : World H ρ) n, CalmInv Z .start w → CalmInv Z .start { w with calls := n } :=
    fun w n hw => hstep _ _ _ _ hw (.tick n)
  unfold runOnePass
  rw [← hcfg.reorgConfirmations]
  refine alike_rpc_bind ht htick fun tip htip => ?_
  have htipZ : tip = Z.tip := (Option.some.inj htip).symm
  refine alike_ite (fun _ => alike_pure _) fun h0 => ?_
  refine alike_rpc_bind ht htick fun x hx => ?_
  have hlook : ∀ w : World H ρ, Step cfg fmt env .start w (.looked (tip - cfg.reorgConfirmations))
      (w.writeLatest (tip - cfg.reorgConfirmations, some x)) := fun w =>
    .look ⟨0, by rw [ht.left.node]; exact htip⟩ (by omega) ⟨0, by rw [ht.left.node]; exact hx⟩
  refine (alike_store ht fun _ _ => rfl).bind
    (triple_of_follows hstep fun w _ => follows_store hlook) fun _ => ?_
  refine (alike_readCurrent ht).bind
    (triple_of_follows hstep fun w _ => follows_readCurrent) fun current => ?_
  exact alike_proceed hcfg ht (by omega) current

/-! ### Two processes side by side -/

variable (fmt) in
lemma viewed_run (hcfg : cfg.SameButWorkers cfg') (ht : env.Twins env' Z.node) {s : State H ρ}
    (hs : Rest T s) (hc : Calm Z s.mem.index s.disk) :
    viewed World.uncounted (s.run cfg fmt env) = viewed World.uncounted (s.run cfg' fmt env') :=
  alike_runOnePass hcfg ht _ _ ⟨hs.recInv, fun _ => hc, trivial⟩ rfl

variable (fmt) in
/-- The pass ends the same way, in the same world but for the calls. -/
lemma afterPass_eq (hcfg : cfg.SameButWorkers cfg') (ht : env.Twins env' Z.node) {s : State H ρ}
    (hs : Rest T s) (hc : Calm Z s.mem.index s.disk) :
    s.afterPass cfg fmt env = s.afterPass cfg' fmt env'
      ∧ s.trace cfg fmt env = s.trace cfg' fmt env' := by
  have hview := viewed_run fmt hcfg ht hs hc
  unfold State.afterPass State.trace
  cases hr : s.run cfg fmt env with
  | ok b w =>
      cases hr' : s.run cfg' fmt env' with
      | ok b' w' =>
          rw [hr, hr', viewed, viewed, Prod.mk.injEq] at hview
          obtain ⟨n, rfl⟩ := World.eq_of_uncounted hview.2
          exact ⟨rfl, rfl⟩
      | error f' w' => simp [hr, hr', viewed] at hview
  | error f w =>
      cases hr' : s.run cfg' fmt env' with
      | ok b' w' => simp [hr, hr', viewed] at hview
      | error f' w' =>
          rw [hr, hr', viewed, viewed, Prod.mk.injEq, Except.error.injEq] at hview
          obtain ⟨rfl, hview⟩ := hview
          obtain ⟨n, rfl⟩ := World.eq_of_uncounted hview
          cases f <;> exact ⟨rfl, rfl⟩

/-- The same happens to both processes, and a pass or a crash in one meets nodes that answer every
call from one chain, on which all rows of an older schema are. -/
def SameEvents : Label T × Label T → State H ρ × State H ρ → Prop
  | (.pass env, .pass env'), p =>
      ∃ Z : ActiveChain T, env.Twins env' Z.node ∧ Calm Z p.1.mem.index p.1.disk
  | (.crash env n, .crash env' n'), p =>
      n = n' ∧ ∃ Z : ActiveChain T, env.Twins env' Z.node ∧ Calm Z p.1.mem.index p.1.disk
  | (.restart, .restart), _ => True
  | (.consume k n, .consume k' n'), _ => k = k' ∧ n = n'
  | _, _ => False

variable (cfg cfg' fmt) in
/-- Two processes, side by side, each with directories of its own. -/
def lockstep (T : BlockTree H ρ) :
    TransitionSystem (State H ρ × State H ρ) (Label T × Label T) where
  init p := p = (State.start, State.start)
  step i p q := next cfg fmt i.1 p.1 = some q.1 ∧ next cfg' fmt i.2 p.2 = some q.2

variable (fmt) in
/-- From one state they do the same. -/
lemma next_eq_next (hcfg : cfg.SameButWorkers cfg') {i : Label T × Label T} {s : State H ρ}
    (hs : Rest T s) (hi : SameEvents i (s, s)) : next cfg fmt i.1 s = next cfg' fmt i.2 s := by
  obtain ⟨i, i'⟩ := i
  cases i with
  | pass env =>
      cases i' with
      | pass env' =>
          obtain ⟨Z, ht, hc⟩ := hi
          simp only [next, (afterPass_eq fmt hcfg ht hs hc).1]
      | _ => exact hi.elim
  | crash env n =>
      cases i' with
      | crash env' n' =>
          obtain ⟨rfl, Z, ht, hc⟩ := hi
          simp only [next, (afterPass_eq fmt hcfg ht hs hc).2]
      | _ => exact hi.elim
  | restart =>
      cases i' with
      | restart => rfl
      | _ => exact hi.elim
  | consume k n =>
      cases i' with
      | consume k' n' =>
          obtain ⟨rfl, rfl⟩ := hi
          rfl
      | _ => exact hi.elim

/-- **The workers do not matter**: two processes that differ in `rpc.catchup_workers` and in the
order in which their workers complete, and to which the same happens, are in the same state at
every time: the same objects in memory, the same files, and the same files at every moment before.
-/
theorem workers_agree (cfg cfg' : RpcConfig) (hcfg : cfg.SameButWorkers cfg')
    (fmt : Formats H ρ) (p : State H ρ × State H ρ)
    (h : (lockstep cfg cfg' fmt T).Reach SameEvents p) :
    p.1 = p.2 ∧ ∀ i : Label T × Label T,
      SameEvents i p → next cfg fmt i.1 p.1 = next cfg' fmt i.2 p.2 := by
  have hrun : p.1 = p.2 ∧ Rest T p.1 := by
    refine h.invariant (I := fun p => p.1 = p.2 ∧ Rest T p.1) ?_ ?_
    · rintro _ rfl
      exact ⟨rfl, rest_load diskTrue_fresh _⟩
    · rintro ⟨s, s'⟩ ⟨t, t'⟩ i ⟨heq, hs⟩ hi ⟨hstep, hstep'⟩
      cases heq
      have hnext := next_eq_next fmt hcfg hs hi
      rw [hstep, hstep', Option.some.injEq] at hnext
      exact ⟨hnext, rest_next hs hstep⟩
  obtain ⟨s, s'⟩ := p
  obtain ⟨heq, hs⟩ := hrun
  cases heq
  exact ⟨rfl, fun i hi => next_eq_next fmt hcfg hs hi⟩

/-- Eleven blocks: the first nine fetched by two workers that complete out of order, and all of them
fetched inline. -/
theorem workers_agree_pool :
    let env : PassEnv forkTree := ⟨fun _ => onBranch 20, fun _ => (onBranch 20, onBranch 20),
      fun n => n + 1, fun _ => false, fun _ => [], 0⟩
    let cfg : ℕ → RpcConfig := fun n =>
      ⟨0, 1, 4, n + 1, by decide, by decide, Nat.le_add_left 1 n⟩
    (State.start.afterPass (cfg 1) plainFormats env).disk.current = some (10, some 20)
      ∧ State.start.afterPass (cfg 1) plainFormats env
        = State.start.afterPass (cfg 0) plainFormats (plainEnv fun _ => onBranch 20) := by
  intro env cfg
  have htwins : env.Twins (plainEnv fun _ => onBranch 20) (branch 20).node :=
    ⟨⟨fun _ => rfl, fun _ => rfl⟩, ⟨fun _ => rfl, fun _ => rfl⟩, rfl, rfl, rfl⟩
  have hcalm : Calm (branch 20) (State.start : State ℕ ℕ).mem.index State.start.disk := by
    refine ⟨fun x r hx => ?_, fun _ => Disk.blocksAll_fresh⟩
    rcases hx with hx | hx <;> cases hx
  have hnext : ∀ (cfg : RpcConfig) (env : PassEnv forkTree), next cfg plainFormats (.pass env)
      State.start = some (State.start.afterPass cfg plainFormats env) := fun _ _ => rfl
  have hstart : (lockstep (cfg 1) (cfg 0) plainFormats forkTree).Reach SameEvents
      (State.start, State.start) := .init rfl
  have hreach : (lockstep (cfg 1) (cfg 0) plainFormats forkTree).Reach SameEvents
      (State.start.afterPass (cfg 1) plainFormats env,
        State.start.afterPass (cfg 0) plainFormats (plainEnv fun _ => onBranch 20)) := by
    refine hstart.step (i := (.pass env, .pass (plainEnv fun _ => onBranch 20)))
      ⟨branch 20, htwins, hcalm⟩ ?_
    dsimp only [lockstep]
    exact ⟨hnext _ _, hnext _ _⟩
  have hagree := (workers_agree (cfg 1) (cfg 0) ⟨rfl, rfl, rfl⟩ plainFormats _ hreach).1
  dsimp only at hagree
  exact ⟨by decide +kernel, hagree⟩

end Ingest

end BtcParser
