import BtcParser.Ingest.Backfill

/-!
A pass with catch-up workers, and the same pass without them.

Both meet a node whose chain stands still and that fails to fetch the blocks of some heights. The
workers fetch every block of their range; the loop without them fetches a block only if it is to be
exported, and asks for the header of the others.

* `forward_trapped`: a loop that comes to a `TrapAt` fails there with the workers, and goes on
  without them. `alike_forward` is the other case, and `catchUp_agrees_iff` puts them together.
* `StartsAt` is the height a pass goes on from, by what is on disk and in the index:
  `starts_of_resume` and `resume_of_starts`.
* `run_proceeds`: both passes come to the pointer on disk in the same world, and `run_agrees_iff`
  is what is known of the rest.
* `pool_agrees_iff` is the result: the two passes do the same unless there is a trap on the way.
  `pool_fails_alone` is a pass with one.
-/

namespace BtcParser

open Program

variable {H ρ : Type} [DecidableEq H] {T : BlockTree H ρ}

namespace Ingest

variable {cfg cfg' : RpcConfig} {fmt : Formats H ρ} {env env' : PassEnv T} {Z : ActiveChain T}
  {N : Node T} {S : ℤ → Bool} {s₀ : IndexStore H} {s t : World H ρ} {g : Goal} {l : Loop H ρ}
  {n h : ℤ}

/-! ### The loop -/

/-- The trace only grows along a program that follows the steps. -/
lemma trace_of_follows {α : Type} {c : Point H ρ} {x : Pass H ρ α} {k : α → Point H ρ}
    {e : Fault H → Point H ρ} (hx : Follows (Step cfg fmt env) c x s k e) :
    s.trace <+: (left (x s)).trace := by
  have hI := hx.invariant (I := fun _ w => s.trace <+: w.trace)
    (fun _ _ _ _ hw hs => hw.trans (Step.trace hs)) List.prefix_rfl
  cases hr : x s with
  | ok a w => rwa [hr] at hI
  | error f w => rwa [hr] at hI

/-- What comes behind a block follows the steps. -/
lemma follows_behind {n : ℕ} (hn : g.latest = l.height + 1 + n) (x : H) (index : IndexStore H)
    (w : World H ρ) :
    Follows (Step cfg fmt env) (.looping g (l.take T x index))
      ((checkpointIfDue cfg fmt env g (l.take T x index) >>= forward cfg fmt env g n none)
        >>= finish fmt env g) w .done .failed := by
  refine follows_bind (m := fun l' => .saving g l' Kind.all true) ?_ fun l' u _ => follows_finish
  refine follows_bind (follows_checkpointIfDue (h := x) rfl) fun l' u hl' => ?_
  have hheight : l'.height = l.height + 1 := (checkpointIfDue_ok hl').1
  exact follows_forward cfg.catchupWorkers_pos g n none l' u (by omega) (feeds_none _ _)

variable (fmt) in
/-- The checkpoint behind a block is the same, and raises nothing. -/
lemma checkpointIfDue_twins (hcfg : cfg.SameButWorkers cfg') (ht : env.Twins env' N) (g : Goal)
    (l : Loop H ρ) (w : World H ρ) (c c' : ℕ) :
    ∃ l' v v', checkpointIfDue cfg fmt env g l { w with calls := c } = .ok l' v
      ∧ checkpointIfDue cfg' fmt env' g l { w with calls := c' } = .ok l' v'
      ∧ v.uncounted = v'.uncounted := by
  obtain ⟨l', v, hr⟩ := checkpointIfDue_run cfg fmt env g l { w with calls := c }
  obtain ⟨l'', v', hr'⟩ := checkpointIfDue_run cfg' fmt env' g l { w with calls := c' }
  have hsame : viewed World.uncounted (checkpointIfDue cfg fmt env g l { w with calls := c })
      = viewed World.uncounted (checkpointIfDue cfg' fmt env' g l { w with calls := c' }) :=
    alike_checkpointIfDue (P := fun _ => True) hcfg ht g l _ _ trivial rfl
  rw [hr, hr', viewed, viewed, Prod.mk.injEq, Except.ok.injEq] at hsame
  obtain ⟨rfl, hview⟩ := hsame
  exact ⟨l', v, v', hr, hr', hview⟩

variable (cfg cfg' fmt) in
/-- At the trap itself: the pool hands out the exception, and without it only the header of the
block is asked for. -/
lemma forward_at_trap (ht : env.Twins env' (Z.failing S)) (hq : s₀.pending = .empty) {n : ℕ}
    {p : Prefetch} (hn : g.latest = l.height + 1 + n) (hp : Feeds g l.height (some p))
    (htrap : TrapAt Z S env.stop s₀ l.height g.parallelEnd (l.height + 1))
    (ha : Ahead T S s₀ l.height s.mem.index) (c : ℕ) :
    ∃ u, forward cfg fmt env g (n + 1) (some p) l s = .error .rpcCliError u
      ∧ u.trace.length < (left ((forward cfg' fmt env' g (n + 1) none l >>= finish fmt env' g)
        { s with calls := c })).trace.length := by
  obtain ⟨x, hx, hindexed⟩ := htrap.indexed
  have hstop : env.stop (l.height + 1) = false := htrap.reached _ htrap.above le_rfl
  rw [← ha.needsExport hq (by rw [Z.height_of_hashAt hx]; omega)
    (by rw [Z.height_of_hashAt hx, htrap.fails])] at hindexed
  obtain ⟨c₁, hr₁⟩ :=
    forward_fails cfg fmt ht.left hp hstop hx htrap.fails n s (.inl ⟨htrap.pooled, by simp⟩)
  obtain ⟨c₂, hr₂⟩ := forward_inline cfg' fmt ht.right
    (show l.height + 1 ≤ g.parallelEnd → (none : Option Prefetch) = none from fun _ => rfl)
    (ht.stop ▸ hstop) hx n { s with calls := c } fun hneeds => by
      rw [hindexed] at hneeds
      cases hneeds
  have hrest : Follows (Step cfg' fmt env') (.looping g (l.take T x s.mem.index)) _
      { takeBlock T x l s with calls := c₂ } .done .failed := follows_behind hn x s.mem.index _
  refine ⟨_, hr₁, ?_⟩
  rw [bind_apply, hr₂, ← bind_apply]
  exact lt_of_lt_of_le (by simp [takeBlock]) (trace_of_follows hrest).length_le

variable (fmt) in
/-- **On the way to a trap** the loop with the workers fails there, and the other one goes on. -/
lemma forward_trapped (hcfg : cfg.SameButWorkers cfg') (ht : env.Twins env' (Z.failing S))
    (htip : g.latest ≤ Z.tip) (hend : g.parallelEnd ≤ g.latest) (hq : s₀.pending = .empty) (n : ℕ)
    (p : Prefetch) (hn : g.latest = l.height + n) (hl : OnChain Z (l.height, l.hash))
    (hp : Feeds g l.height (some p)) (htrap : TrapAt Z S env.stop s₀ l.height g.parallelEnd h)
    (ha : Ahead T S s₀ l.height s.mem.index) (hview : s.uncounted = t.uncounted) :
    ∃ u, forward cfg fmt env g n (some p) l s = .error .rpcCliError u
      ∧ u.trace.length < (left ((forward cfg' fmt env' g n none l >>= finish fmt env' g)
        t)).trace.length := by
  have habove := htrap.above
  have hpooled := htrap.pooled
  induction n generalizing p l s t with
  | zero =>
      push_cast at hn
      omega
  | succ n ih =>
      push_cast at hn
      obtain ⟨c, rfl⟩ := World.eq_of_uncounted hview
      rcases (show h = l.height + 1 ∨ l.height + 1 < h by omega) with rfl | hbelow
      · exact forward_at_trap cfg cfg' fmt ht hq (by omega) hp htrap ha c
      -- below the trap nothing fails, and both take up the block
      · have hS : S (l.height + 1) = false := htrap.first _ (by omega) hbelow
        have hstop : env.stop (l.height + 1) = false := htrap.reached _ (by omega) hbelow.le
        obtain ⟨x, hx, -⟩ := hl.next (by omega)
        have hxh := Z.height_of_hashAt hx
        obtain ⟨c₁, pf₁, hp₁, hnone₁, hr₁⟩ := forward_succ cfg fmt ht.left hp hl hstop hx hS n s
        obtain ⟨c₂, pf₂, -, hnone₂, hr₂⟩ := forward_succ cfg' fmt ht.right (feeds_none _ _) hl
          (ht.stop ▸ hstop) hx hS n { s with calls := c }
        obtain rfl : pf₂ = none := hnone₂.mpr (.inl rfl)
        obtain ⟨p₁, rfl⟩ : ∃ p₁, pf₁ = some p₁ := Option.ne_none_iff_exists'.mp fun hnil =>
          (hnone₁.mp hnil).elim (by simp) (by omega)
        obtain ⟨l₁, v₁, v₂, hck₁, hck₂, hsame⟩ := checkpointIfDue_twins fmt hcfg ht g
          (l.take T x s.mem.index) (takeBlock T x l s) c₁ c₂
        obtain ⟨hheight, hhash⟩ := checkpointIfDue_ok hck₁
        have hheight' : l₁.height = l.height + 1 := hheight
        have hck₂' : (checkpointIfDue cfg' fmt env' g (l.take T x s.mem.index)
            >>= forward cfg' fmt env' g n none) { takeBlock T x l s with calls := c₂ }
            = forward cfg' fmt env' g n none l₁ v₂ := bind_of_ok hck₂ _
        rw [hr₁, bind_of_ok hck₁, bind_apply, hr₂.trans hck₂', ← bind_apply]
        refine ih p₁ (by omega) ?_ (hheight' ▸ hp₁) (hheight' ▸ (trapAt_succ hS hstop).mp htrap)
          (hheight' ▸ (ha.take hxh).checkpointIfDue hck₁) hsame (by omega)
        rw [hheight, hhash]
        exact ⟨hxh, by rintro y ⟨⟩; exact Z.mem_of_hashAt hx⟩

/-! ### The loop with what is settled before it -/

/-- The height the workers fetch up to. -/
def parallelEndOf (cfg : RpcConfig) (Z : ActiveChain T) : ℤ :=
  min (latestOf cfg Z) (Z.tip - cfg.maxReorgDepth)

/-- A pass that goes on from the height `n` uses its workers. -/
structure Pooled (cfg : RpcConfig) (Z : ActiveChain T) (n : ℤ) : Prop where
  workers : 1 < cfg.catchupWorkers
  backlog : max (cfg.reorgConfirmations : ℤ) 1 < latestOf cfg Z - n
  range : (prefetchPerWorker * cfg.catchupWorkers : ℕ) < parallelEndOf cfg Z - n

instance (cfg : RpcConfig) (Z : ActiveChain T) (n : ℤ) : Decidable (Pooled cfg Z n) :=
  decidable_of_iff (1 < cfg.catchupWorkers ∧ max (cfg.reorgConfirmations : ℤ) 1 < latestOf cfg Z - n
    ∧ (prefetchPerWorker * cfg.catchupWorkers : ℕ) < parallelEndOf cfg Z - n)
    ⟨fun h => ⟨h.1, h.2.1, h.2.2⟩, fun h => ⟨h.workers, h.backlog, h.range⟩⟩

/-- What is settled before the loop. -/
def goalOf (cfg : RpcConfig) (Z : ActiveChain T) (n : ℤ) : Goal :=
  ⟨latestOf cfg Z, parallelEndOf cfg Z,
    decide (latestOf cfg Z - n ≤ max (cfg.reorgConfirmations : ℤ) 1)⟩

/-- The workers at the start of the loop, if they are used. -/
def poolOf (cfg : RpcConfig) (Z : ActiveChain T) (n : ℤ) : Option Prefetch :=
  if Pooled cfg Z n then
    some (.start (heightRange (n + 1) (parallelEndOf cfg Z - n).toNat) cfg.catchupWorkers)
  else none

/-- The variables at the start of the loop. -/
def loopFrom (T : BlockTree H ρ) (p : Pointer H) : Loop H ρ :=
  ⟨p.1, p.2, p.2.map fun x => (T.block x).blockTime, fun _ => [], 0⟩

omit [DecidableEq H] in
lemma feeds_poolOf (cfg : RpcConfig) (Z : ActiveChain T) (n : ℤ) :
    Feeds (goalOf cfg Z n) n (poolOf cfg Z n) :=
  feeds_start cfg (goalOf cfg Z n) n (Pooled cfg Z n)

omit [DecidableEq H] in
lemma goalOf_eq (hcfg : cfg.SameButWorkers cfg') : goalOf cfg' Z n = goalOf cfg Z n := by
  rw [goalOf, goalOf, parallelEndOf, parallelEndOf, latestOf, latestOf, hcfg.reorgConfirmations,
    hcfg.maxReorgDepth]

variable (cfg fmt) in
/-- No header fails. -/
lemma catchUp_failing (hs : env.Meets (Z.failing S)) (p : Pointer H) (w : World H ρ) :
    ∃ c, catchUp cfg fmt env Z.tip (latestOf cfg Z) p w
      = (forward cfg fmt env (goalOf cfg Z p.1) (latestOf cfg Z - p.1).toNat (poolOf cfg Z p.1)
        (loopFrom T p) >>= finish fmt env (goalOf cfg Z p.1)) { w with calls := c } := by
  have hpool : (if 1 < cfg.catchupWorkers
        ∧ decide (latestOf cfg Z - p.1 ≤ max (cfg.reorgConfirmations : ℤ) 1) = false
        ∧ (prefetchPerWorker * cfg.catchupWorkers : ℕ) < parallelEndOf cfg Z - p.1
      then some (Prefetch.start (heightRange (p.1 + 1) (parallelEndOf cfg Z - p.1).toNat)
        cfg.catchupWorkers) else none) = poolOf cfg Z p.1 := by
    refine if_congr ?_ rfl rfl
    rw [decide_eq_false_iff_not, not_le]
    exact ⟨fun h => ⟨h.1, h.2.1, h.2.2⟩, fun h => ⟨h.workers, h.backlog, h.range⟩⟩
  obtain ⟨n, hash⟩ := p
  cases hash with
  | none => exact ⟨w.calls, hpool ▸ rfl⟩
  | some x =>
      have htime : ∀ w : World H ρ, rpc env (·.getBlockHeader x) w
          = .ok (T.block x).blockTime { w with calls := w.calls + 1 } := rpc_meets hs rfl
      refine ⟨w.calls + 1, ?_⟩
      rw [← hpool, catchUp, headerTime]
      simp only [bind_assoc, pure_bind]
      rw [bind_of_ok (htime w)]
      rfl

omit [DecidableEq H] in
/-- Two runs with traces of different lengths are told apart. -/
lemma viewed_ne_of_length {α : Type} {r r' : EStateM.Result (Fault H) (World H ρ) α}
    (hlt : (left r).trace.length < (left r').trace.length) :
    viewed World.uncounted r ≠ viewed World.uncounted r' := by
  intro heq
  have hleft := congrArg Prod.snd heq
  rw [viewed_snd, viewed_snd] at hleft
  exact hlt.ne (congrArg (fun w => w.trace.length) hleft)

variable (fmt) in
/-- **The loop with what is settled before it**, with workers and without. -/
lemma catchUp_agrees_iff (hcfg : cfg.SameButWorkers cfg') (hseq : cfg'.catchupWorkers = 1)
    (ht : env.Twins env' (Z.failing S)) {p : Pointer H} (hp : OnChain Z p)
    (hlt : p.1 < latestOf cfg Z) (hq : s₀.pending = .empty) (ha : Ahead T S s₀ p.1 s.mem.index)
    (hview : s.uncounted = t.uncounted) :
    viewed World.uncounted (catchUp cfg fmt env Z.tip (latestOf cfg Z) p s)
        = viewed World.uncounted (catchUp cfg' fmt env' Z.tip (latestOf cfg Z) p t)
      ↔ ¬ (Pooled cfg Z p.1 ∧ ∃ h, TrapAt Z S env.stop s₀ p.1 (parallelEndOf cfg Z) h) := by
  obtain ⟨c, rfl⟩ := World.eq_of_uncounted hview
  have htip : latestOf cfg Z ≤ Z.tip := by
    have := Int.natCast_nonneg cfg.reorgConfirmations
    simp only [latestOf]
    omega
  have hnone : poolOf cfg' Z p.1 = none := if_neg fun h => by
    have := h.workers
    omega
  have hlatest : latestOf cfg' Z = latestOf cfg Z := congrArg Goal.latest (goalOf_eq (n := 0) hcfg)
  obtain ⟨c₁, hr₁⟩ := catchUp_failing cfg fmt ht.left p s
  obtain ⟨c₂, hr₂⟩ := catchUp_failing cfg' fmt ht.right p { s with calls := c }
  have hn : (goalOf cfg Z p.1).latest = (loopFrom T p).height + (latestOf cfg Z - p.1).toNat := by
    simp only [goalOf, loopFrom]
    omega
  have hfeeds := feeds_poolOf cfg Z p.1
  rw [hlatest, hnone, goalOf_eq hcfg] at hr₂
  rw [hr₁, hr₂]
  by_cases htrap : Pooled cfg Z p.1 ∧ ∃ h, TrapAt Z S env.stop s₀ p.1 (parallelEndOf cfg Z) h
  · refine iff_of_false ?_ (not_not.mpr htrap)
    obtain ⟨hpooled, h, htrap⟩ := htrap
    rw [poolOf, if_pos hpooled] at hfeeds ⊢
    obtain ⟨u, hu, hlonger⟩ := forward_trapped (s := { s with calls := c₁ })
      (t := { s with calls := c₂ }) fmt hcfg ht htip (min_le_left _ _) hq _ _ hn hp hfeeds htrap
      ha rfl
    refine viewed_ne_of_length ?_
    rw [bind_apply, hu]
    exact hlonger
  -- without a trap on the way the two loops are alike
  · refine iff_of_true (Alike.seq (P := fun w => Ahead T S s₀ p.1 w.mem.index) ?_
      (fun l => alike_finish ht _ l) _ _ ha rfl) htrap
    refine alike_forward hcfg ht _ htip hq _ _ none _ hn hp hfeeds (feeds_none _ _) ?_
    by_cases hpooled : Pooled cfg Z p.1
    · exact .inr fun h hh => htrap ⟨hpooled, h, hh⟩
    · exact .inl ⟨if_neg hpooled, rfl⟩

/-! ### Where the loop starts -/

/-- The height a pass goes on from: below the chain without a pointer, and else the height of the
fork, if the recovery can get to it. -/
inductive StartsAt (cfg : RpcConfig) (Z : ActiveChain T) (s : State H ρ) : ℤ → Prop
  | fresh (hcur : s.disk.current = none) : StartsAt cfg Z s (-1)
  | resumed {x a : H} (hcur : s.disk.current = some (T.height x, some x))
      (hlow : T.height x ≤ Z.tip) (ha : Shared Z x a)
      (hdepth : T.height x - T.height a ≤ cfg.maxReorgDepth)
      (hin : ∀ b ∉ Z, Ancestor T.parent b x → s.mem.index.byHash.contains b = true) :
      StartsAt cfg Z s (T.height a)

variable {σ : State H ρ} {w w' : World H ρ} {p : Pointer H}

/-- There is one such height. -/
lemma StartsAt.unique {m : ℤ} (hn : StartsAt cfg Z σ n) (hm : StartsAt cfg Z σ m) : n = m := by
  cases hn with
  | fresh hcur =>
      cases hm with
      | fresh => rfl
      | resumed hcur' =>
          rw [hcur] at hcur'
          cases hcur'
  | @resumed x a hcur _ ha _ _ =>
      cases hm with
      | fresh hcur' =>
          rw [hcur] at hcur'
          cases hcur'
      | @resumed y b hcur' _ hb _ _ =>
          rw [hcur, Option.some.injEq, Prod.mk.injEq, Option.some.injEq] at hcur'
          obtain ⟨-, rfl⟩ := hcur'
          exact le_antisymm (hb.highest a ha.mem ha.below) (ha.highest b hb.mem hb.below)

lemma StartsAt.neg_one_le (hn : StartsAt cfg Z σ n) : -1 ≤ n := by
  cases hn with
  | fresh => exact le_rfl
  | @resumed x a _ _ _ _ _ =>
      have := T.height_nonneg a
      omega

/-- The pass goes on from there. -/
lemma resume_of_starts (hs : env.Meets (Z.failing S)) (ht : IndexTrue T w.mem.index.byHash)
    (hindex : w.mem.index = σ.mem.index) (hn : StartsAt cfg Z σ n) :
    ∃ p t, resume cfg env σ.disk.current w = .ok p t := by
  cases hn with
  | fresh hcur =>
      rw [hcur]
      exact ⟨_, _, rfl⟩
  | @resumed x a hcur hlow ha hdepth hin =>
      rw [hcur]
      exact (resume_ok_iff (serves_of_failing hs) ht rfl).mpr
        ⟨⟨hlow, a, ha.mem, ha.below, hdepth⟩, hindex ▸ hin⟩

/-- And from nowhere else. -/
lemma starts_of_resume (fmt : Formats H ρ) (hs : env.Meets (Z.failing S))
    (h0 : 0 ≤ latestOf cfg Z)
    (hq : σ.mem.index.pending = .empty) (ht : IndexTrue T σ.mem.index.byHash)
    (htrue : ∀ p, σ.disk.current = some p → ∃ x, p.2 = some x ∧ T.height x = p.1)
    (hindex : w.mem.index = σ.mem.index) (hcur : w.disk.current = σ.disk.current)
    (hlatest : w.disk.latest = some (latestOf cfg Z, Z.hashAt (latestOf cfg Z)))
    (hr : resume cfg env σ.disk.current w = .ok p w') :
    StartsAt cfg Z σ p.1 ∧ OnChain Z p ∧ w'.mem.index = σ.mem.index := by
  cases hc : σ.disk.current with
  | none =>
      rw [hc] at hr
      cases hr
      exact ⟨.fresh hc, ⟨rfl, by rintro x ⟨⟩⟩, hindex⟩
  | some q =>
      obtain ⟨x, hx, hheight⟩ := htrue q hc
      obtain ⟨m, hash⟩ := q
      simp only at hx hheight
      subst hx hheight
      rw [hc] at hr hcur
      have hbehind : Behind cfg Z σ.mem.index x (.found (latestOf cfg Z)
          (some (T.height x, some x))) w :=
        ⟨fun _ => ⟨hindex, hcur⟩, fun _ => hlatest, rfl, rfl⟩
      have hon : env.On Z := hs.on
      have hstep : ∀ c v c' v', Behind cfg Z σ.mem.index x c v → Step cfg fmt env c v c' v' →
          Behind cfg Z σ.mem.index x c' v' := fun _ _ _ _ => behind_step hon h0 hq ht
      have hbased : Behind cfg Z σ.mem.index x (.based (latestOf cfg Z) p) w' :=
        (triple_of_follows hstep fun v _ => follows_resume).of_ok hbehind hr
      obtain ⟨-, a, rfl, ha⟩ := hbased.point
      obtain ⟨⟨hlow, b, hb, hbx, hdepth⟩, hin⟩ :=
        (resume_ok_iff (serves_of_failing hs) (hindex ▸ ht) rfl).mp
          (show ∃ q t, resume cfg env (some (T.height x, some x)) w = .ok q t from ⟨_, _, hr⟩)
      have hle := ha.highest b hb hbx
      exact ⟨.resumed hc hlow ha (by omega) (hindex ▸ hin),
        ⟨rfl, by rintro y ⟨⟩; exact ha.mem⟩, (hbased.early trivial).1⟩

/-! ### A pass -/

/-- Without rows of an older schema nothing is rewound. -/
lemma rewindToStale_current (hcur : AllCurrent w.mem.index.byHash) (p : Pointer H) :
    rewindToStale p w
      = .ok p { w with mem := { w.mem with index := w.mem.index.earliestStale.2 } } := by
  have hnone : w.mem.index.earliestStale.1 = none := by
    cases hrow : w.mem.index.earliestStale.1 with
    | none => rfl
    | some row =>
        obtain ⟨⟨x, hx⟩, hv⟩ :=
          IndexStore.mem_staleRows.mp (w.mem.index.earliestStale_some hrow).1
        exact absurd hv (hcur x row hx).not_gt
  simp only [rewindToStale, bind_apply, get_apply, modify_apply, hnone, pure_apply]

variable (fmt) in
/-- **The pass from a pointer that can be resumed on**, with workers and without. -/
lemma proceed_agrees_iff (hcfg : cfg.SameButWorkers cfg') (hseq : cfg'.catchupWorkers = 1)
    (ht : env.Twins env' (Z.failing S)) (hq : w.mem.index.pending = .empty)
    (hcur : AllCurrent w.mem.index.byHash) {current : Option (Pointer H)}
    (hr : resume cfg env current w = .ok p w') (hp : OnChain Z p)
    (hindex : w'.mem.index = w.mem.index) :
    viewed World.uncounted (proceed cfg fmt env Z.tip (latestOf cfg Z) current w)
        = viewed World.uncounted (proceed cfg' fmt env' Z.tip (latestOf cfg Z) current w)
      ↔ ¬ (Pooled cfg Z p.1
        ∧ ∃ h, TrapAt Z S env.stop w.mem.index p.1 (parallelEndOf cfg Z) h) := by
  have hsame := alike_resume (P := fun _ => True) hcfg ht current w w trivial rfl
  rw [hr] at hsame
  cases hr' : resume cfg' env' current w with
  | error f v =>
      rw [hr'] at hsame
      simp [viewed] at hsame
  | ok q v =>
      rw [hr', viewed, viewed, Prod.mk.injEq, Except.ok.injEq] at hsame
      obtain ⟨rfl, hview⟩ := hsame
      obtain ⟨c, rfl⟩ := World.eq_of_uncounted hview
      rw [proceed, proceed, bind_of_ok hr, bind_of_ok hr',
        bind_of_ok (rewindToStale_current (hindex ▸ hcur) p),
        bind_of_ok (rewindToStale_current (hindex ▸ hcur) p)]
      by_cases hle : latestOf cfg Z ≤ p.1
      -- there is nothing to parse
      · rw [if_pos hle, if_pos hle]
        refine iff_of_true (((alike_store (P := fun _ => True) ht fun _ _ => rfl).seq fun _ =>
          (alike_store ht statusFlush_calls).seq fun _ => alike_pure _) _ _ trivial rfl) fun h => ?_
        have := h.1.range
        have := min_le_left (latestOf cfg Z) (Z.tip - cfg.maxReorgDepth)
        simp only [parallelEndOf] at *
        omega
      · rw [if_neg hle, if_neg hle]
        refine catchUp_agrees_iff fmt hcfg hseq ht hp (not_le.mp hle) hq (fun y _ _ => ?_) rfl
        simp only [hindex, IndexStore.earliestStale_byHash, IndexStore.earliestStale_pending, hq,
          Dict.get?_empty, and_self]

variable (fmt) in
/-- Both passes come to the pointer on disk in the same world: nothing is seeded. -/
lemma run_proceeds (hcfg : cfg.SameButWorkers cfg') (ht : env.Twins env' (Z.failing S))
    (h0 : 0 ≤ latestOf cfg Z) (hσ : RestExport T σ) :
    ∃ u : World H ρ, u.mem.index = σ.mem.index ∧ u.disk.current = σ.disk.current
      ∧ u.disk.latest = some (latestOf cfg Z, Z.hashAt (latestOf cfg Z))
      ∧ σ.run cfg fmt env = proceed cfg fmt env Z.tip (latestOf cfg Z) σ.disk.current u
      ∧ σ.run cfg' fmt env' = proceed cfg' fmt env' Z.tip (latestOf cfg Z) σ.disk.current u := by
  have hlatest : latestOf cfg' Z = latestOf cfg Z := congrArg Goal.latest (goalOf_eq (n := 0) hcfg)
  obtain ⟨x, hx⟩ : ∃ x, Z.hashAt (latestOf cfg Z) = some x := Z.exists_hashAt h0 <| by
    have := Int.natCast_nonneg cfg.reorgConfirmations
    simp only [latestOf]
    omega
  set u : World H ρ := ((⟨σ.mem, σ.disk, 2, []⟩ : World H ρ).consumed
    (env.consumer 0)).writeLatest (latestOf cfg Z, some x) with hu
  have hcur : u.disk.current = σ.disk.current :=
    World.consumed_current (⟨σ.mem, σ.disk, 2, []⟩ : World H ρ) (env.consumer 0)
  have hstep : ∀ c v c' v', ExportInv T c v → Step cfg fmt env c v c' v' → ExportInv T c' v' :=
    fun _ _ _ _ => exportInv_step
  have hlooked : ExportInv T (.looked (latestOf cfg Z)) u :=
    hstep _ _ _ _ (hstep _ _ _ _ (hstep _ _ _ _ hσ.exportInv (.tick 2))
      (.consume (env.consumer 0))) <| .look
        (show env.answers (·.getBlockCount) Z.tip from ⟨0, by rw [ht.left.node]; rfl⟩) h0
        ⟨0, by rw [ht.left.node]; exact hx⟩
  -- without a pointer there are no rows, either
  have hread : ∀ e : PassEnv T, readCurrent fmt e u = .ok σ.disk.current u := by
    intro e
    cases hc : σ.disk.current with
    | some p => simp [readCurrent, bind_apply, hcur, hc]
    | none =>
        have hnil : seedRows (u.disk.parts .blocks) = [] := hlooked.seedRows_eq_nil (hcur.trans hc)
        simp [readCurrent, seedFromBlocks, bind_apply, hcur, hc, hnil, seedTop, highestRows]
  refine ⟨u, ?_, hcur, ?_, ?_, ?_⟩
  · rw [hu, World.writeLatest_mem, World.consumed_mem]
  · rw [hu, World.writeLatest_disk, hx]
  · rw [run_looked fmt ht.left h0 hx σ, ← hu, bind_of_ok (hread env)]
  · rw [run_looked fmt ht.right (hlatest ▸ h0) (hlatest ▸ hx) σ, hlatest, ← ht.consumer, ← hu,
      bind_of_ok (hread env')]

variable (fmt) in
/-- A pass that cannot be resumed fails with workers as without. -/
lemma proceed_of_error (hcfg : cfg.SameButWorkers cfg') (ht : env.Twins env' N) {tip latest : ℤ}
    {current : Option (Pointer H)} {f : Fault H} (hr : resume cfg env current w = .error f w') :
    viewed World.uncounted (proceed cfg fmt env tip latest current w)
      = viewed World.uncounted (proceed cfg' fmt env' tip latest current w) := by
  have hsame := alike_resume (P := fun _ => True) hcfg ht current w w trivial rfl
  rw [hr] at hsame
  cases hr' : resume cfg' env' current w with
  | ok q v => simp [hr', viewed] at hsame
  | error g v =>
      rw [hr', viewed, viewed, Prod.mk.injEq, Except.error.injEq] at hsame
      simp only [proceed, bind_apply, hr, hr', viewed, hsame.1, hsame.2]

variable (fmt) in
/-- **The whole pass**, with workers and without. -/
lemma run_agrees_iff (hcfg : cfg.SameButWorkers cfg') (hseq : cfg'.catchupWorkers = 1)
    (ht : env.Twins env' (Z.failing S)) (hσ : RestExport T σ) :
    viewed World.uncounted (σ.run cfg fmt env) = viewed World.uncounted (σ.run cfg' fmt env')
      ↔ ¬ ∃ n, StartsAt cfg Z σ n ∧ Pooled cfg Z n
        ∧ ∃ h, TrapAt Z S env.stop σ.mem.index n (parallelEndOf cfg Z) h := by
  by_cases h0 : 0 ≤ latestOf cfg Z
  · have hrest := hσ.ledger.rest
    have hrec := hrest.recInv.recorded
    obtain ⟨u, hindex, hcur, hlatest, hrun, hrun'⟩ := run_proceeds fmt hcfg ht h0 hσ
    rw [hrun, hrun']
    cases hr : resume cfg env σ.disk.current u with
    | error f v =>
        refine iff_of_true (proceed_of_error fmt hcfg ht hr) fun ⟨n, hn, _⟩ => ?_
        obtain ⟨p, t, hok⟩ := resume_of_starts ht.left (hindex ▸ hrec.byHash) hindex hn
        rw [hr] at hok
        cases hok
    | ok p v =>
        obtain ⟨hstart, hon, hv⟩ := starts_of_resume fmt ht.left h0 hrest.pending hrec.byHash
          hrec.kept.disk.current hindex hcur hlatest hr
        rw [proceed_agrees_iff fmt hcfg hseq ht (hindex ▸ hrest.pending)
          (hindex ▸ hσ.exportInv.current.1) hr hon (hv.trans hindex.symm), hindex]
        refine not_congr ⟨fun h => ⟨p.1, hstart, h⟩, ?_⟩
        rintro ⟨n, hn, h⟩
        exact hn.unique hstart ▸ h
  -- a chain that is too low: there is nothing to be done
  · have hlatest : latestOf cfg' Z = latestOf cfg Z :=
      congrArg Goal.latest (goalOf_eq (n := 0) hcfg)
    rw [run_short fmt ht.left (not_le.mp h0), run_short fmt ht.right (hlatest ▸ not_le.mp h0)]
    refine iff_of_true rfl ?_
    rintro ⟨n, hn, hpooled, -⟩
    have hend : parallelEndOf cfg Z ≤ latestOf cfg Z := min_le_left _ _
    have := hn.neg_one_le
    have := hpooled.range
    omega

/-- **When the workers do not matter**: from any state that passes have left, a pass with workers
does what the pass without them does, over a node that fails to fetch the blocks of the heights in
`S`, unless the workers come to a height in `S` before a stop whose block is already indexed, and
only then. What comes out of the generator is always right. -/
theorem pool_agrees_iff (cfg₀ cfg cfg' : RpcConfig) (fmt : Formats H ρ) (s : State H ρ)
    (h : (system cfg₀ fmt T).Reach noCrash s) (hcfg : cfg.SameButWorkers cfg')
    (hseq : cfg'.catchupWorkers = 1) (Z : ActiveChain T) (S : ℤ → Bool) (env env' : PassEnv T)
    (ht : env.Twins env' (Z.failing S)) :
    (viewed World.uncounted (s.run cfg fmt env) = viewed World.uncounted (s.run cfg' fmt env')
      ↔ ¬ ∃ n, StartsAt cfg Z s n ∧ Pooled cfg Z n
        ∧ ∃ h, TrapAt Z S env.stop s.mem.index n (parallelEndOf cfg Z) h)
    ∧ ∀ (n : ℤ) (k m : ℕ), Prefetch.yields (fetchAndParse env) env.schedule cfg.catchupWorkers m
        (.start (heightRange n k) cfg.catchupWorkers)
      = Prefetch.upToError (((heightRange n k).take m).map (fetchAndParse env)) := by
  refine ⟨run_agrees_iff fmt hcfg hseq ht (restExport_of_reach h), fun n k m => ?_⟩
  rw [Prefetch.yields_eq _ _ cfg.catchupWorkers_pos m
    (Prefetch.valid_start (heightRange_nodup k n) cfg.catchupWorkers_pos), Prefetch.heights_start]

/-! ### A pass over a node that has lost a block -/

/-- The configuration with `n + 1` workers. -/
def poolConfig (n : ℕ) : RpcConfig :=
  { plainConfig with catchupWorkers := n + 1, catchupWorkers_pos := Nat.le_add_left 1 n }

/-- A pass has followed the chain `0, 2, 4`, and the next one `0, 1, 3`. -/
def flippedState : State ℕ ℕ :=
  (State.start.afterPass plainConfig plainFormats (plainEnv fun _ => onBranch 4)).afterPass
    plainConfig plainFormats (plainEnv fun _ => onBranch 3)

/-- Then the chain of the node is `0, 2, ..., 22`, and the block of height `n` cannot be fetched. -/
def lostEnv (n : ℤ) : PassEnv forkTree :=
  plainEnv fun _ => (branch 22).failing fun m => decide (m = n)

lemma twins_lostEnv (n : ℤ) :
    (lostEnv n).Twins (lostEnv n) ((branch 22).failing fun m => decide (m = n)) :=
  ⟨⟨fun _ => rfl, fun _ => rfl⟩, ⟨fun _ => rfl, fun _ => rfl⟩, rfl, rfl, rfl⟩

lemma reach_flippedState : (system plainConfig plainFormats forkTree).Reach noCrash flippedState :=
  .step (i := .pass (plainEnv fun _ => onBranch 3))
    (.step (i := .pass (plainEnv fun _ => onBranch 4)) (.init rfl) trivial rfl) trivial rfl

/-- The pass goes back to the block `0` and two workers fetch the heights from `1` to `9`. Without
the block of height `3`, which has never been exported, it fails as the pass without workers does;
without that of height `1`, which is indexed, only the one with workers fails. -/
theorem pool_agrees_iff_lost :
    viewed World.uncounted (flippedState.run (poolConfig 1) plainFormats (lostEnv 3))
        = viewed World.uncounted (flippedState.run (poolConfig 0) plainFormats (lostEnv 3))
      ∧ viewed World.uncounted (flippedState.run (poolConfig 1) plainFormats (lostEnv 1))
        ≠ viewed World.uncounted (flippedState.run (poolConfig 0) plainFormats (lostEnv 1)) := by
  have hbelow : ∀ b, Ancestor forkTree.parent b 3 → b = 3 ∨ b = 1 ∨ b = 0 := by
    intro b hb
    rw [ancestor_iff (show forkTree.parent 3 = some 1 from rfl),
      ancestor_iff (show forkTree.parent 1 = some 0 from rfl)] at hb
    refine hb.imp_right (Or.imp_right fun hb => ?_)
    cases hb with
    | refl => rfl
    | step hp => cases hp
  have hstart : StartsAt (poolConfig 1) (branch 22) flippedState (forkTree.height 0) := by
    refine .resumed (x := 3) (by decide +kernel) (by decide)
      ⟨by decide, .step (p := 1) rfl (.step rfl .refl), fun b hb hb3 => ?_⟩ (by decide)
      fun b hb hb3 => ?_
    · rcases hbelow b hb3 with rfl | rfl | rfl
      · exact absurd hb (by decide)
      · exact absurd hb (by decide)
      · exact le_rfl
    · rcases hbelow b hb3 with rfl | rfl | rfl
      · decide +kernel
      · decide +kernel
      · exact absurd (by decide) hb
  constructor
  · refine (pool_agrees_iff plainConfig (poolConfig 1) (poolConfig 0) plainFormats _
      reach_flippedState ⟨rfl, rfl, rfl⟩ rfl _ _ _ _ (twins_lostEnv 3)).1.mpr ?_
    rintro ⟨n, -, -, h, htrap⟩
    obtain rfl : h = 3 := of_decide_eq_true htrap.fails
    obtain ⟨x, hx, hindexed⟩ := htrap.indexed
    obtain rfl : 6 = x := Option.some.inj hx
    exact absurd hindexed (by decide +kernel)
  · refine mt (pool_agrees_iff plainConfig (poolConfig 1) (poolConfig 0) plainFormats _
      reach_flippedState ⟨rfl, rfl, rfl⟩ rfl _ _ _ _ (twins_lostEnv 1)).1.mp (not_not.mpr ?_)
    exact ⟨_, hstart, by decide, 1, by decide, by decide, ⟨2, rfl, by decide +kernel⟩, rfl,
      fun m hm hlt => decide_eq_false hlt.ne, fun _ _ _ => rfl⟩

/-- Not even the return value is the same: without the block of height `1` the pass with two workers
raises, and the one with one worker returns `True`. -/
theorem pool_fails_alone :
    ¬ ∀ (cfg cfg' : RpcConfig) (s : State ℕ ℕ),
      (system plainConfig plainFormats forkTree).Reach noCrash s → cfg.SameButWorkers cfg' →
      cfg'.catchupWorkers = 1 → ∀ (Z : ActiveChain forkTree) (S : ℤ → Bool)
      (env env' : PassEnv forkTree), env.Twins env' (Z.failing S) →
        (viewed World.uncounted (s.run cfg plainFormats env)).1
          = (viewed World.uncounted (s.run cfg' plainFormats env')).1 := by
  intro hall
  have hsame := hall (poolConfig 1) (poolConfig 0) _ reach_flippedState ⟨rfl, rfl, rfl⟩ rfl _ _ _ _
    (twins_lostEnv 1)
  have hrun : (finished (flippedState.run (poolConfig 1) plainFormats (lostEnv 1))).map Prod.fst
      = none := by decide +kernel
  have hrun' : (finished (flippedState.run (poolConfig 0) plainFormats (lostEnv 1))).map Prod.fst
      = some true := by decide +kernel
  cases hr : flippedState.run (poolConfig 1) plainFormats (lostEnv 1) with
  | ok b w =>
      rw [hr] at hrun
      cases hrun
  | error f w =>
      cases hr' : flippedState.run (poolConfig 0) plainFormats (lostEnv 1) with
      | ok b w' =>
          rw [hr, hr'] at hsame
          cases hsame
      | error g w' =>
          rw [hr'] at hrun'
          cases hrun'

end Ingest

end BtcParser
