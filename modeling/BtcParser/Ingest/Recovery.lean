import BtcParser.Ingest.FixedChain

/-!
`_recover_from_reorg`, call by call.

* `Walk` is what the walk back meets when the node's answers are taken one after the other, and
  `recoverFromReorg_walked` and `recoverFromReorg_stuck` say what the recovery does then.
* `recovery_atomic_iff` says when a recovery that raises leaves the flags alone: unless the call
  after the walk fails and one of the blocks detached was not flagged before.
* `recovery_finds_fork` is the recovery over a fixed chain: it ends at the highest height at which
  the stored chain and the live one agree, or raises and changes nothing.
-/

namespace BtcParser

variable {H ρ : Type} [DecidableEq H] {T : BlockTree H ρ}

namespace Ingest

open Program

/-! ### The walk back -/

/-- What the walk back from the block `h` of height `n` meets, its first call being the `k`-th of
the pass: the detached blocks, the live hashes, and the common ancestor. -/
inductive Walk (env : PassEnv T) (index : IndexStore H) :
    ℕ → ℤ → H → List (ℤ × H) → List (ℤ × H) → ℤ × H → Prop
  | found {k : ℕ} {n : ℤ} {h p : H} {row : IndexRow H} (hrow : index.get h = some row)
      (hp : row.previousblockhash = some p) (hn : 0 < n)
      (hlive : (env.node k).getBlockHash (n - 1) = some p) :
      Walk env index k n h [(n, h)] [(n - 1, p)] (n - 1, p)
  | walk {k : ℕ} {n : ℤ} {h p live : H} {row : IndexRow H} {detached lives : List (ℤ × H)}
      {a : ℤ × H} (hrow : index.get h = some row) (hp : row.previousblockhash = some p)
      (hn : 0 < n) (hlive : (env.node k).getBlockHash (n - 1) = some live) (hne : live ≠ p)
      (hw : Walk env index (k + 1) (n - 1) p detached lives a) :
      Walk env index k n h ((n, h) :: detached) ((n - 1, live) :: lives) a

variable {cfg : RpcConfig} {env : PassEnv T} {index : IndexStore H} {k : ℕ} {n : ℤ} {h : H}
  {detached lives : List (ℤ × H)} {a : ℤ × H}

lemma Walk.length (hw : Walk env index k n h detached lives a) :
    (detached.length : ℤ) = n - a.1 := by
  induction hw with
  | found => simp
  | walk _ _ _ _ _ _ ih =>
      rw [List.length_cons]
      push_cast
      omega

lemma Walk.lt (hw : Walk env index k n h detached lives a) : a.1 < n := by
  cases hw with
  | found => simp
  | walk _ _ _ _ _ hw =>
      have := hw.length
      omega

omit [DecidableEq H] in
lemma lookup_cons_ne {l : List (ℤ × H)} {m n : ℤ} {x : H} (hne : m ≠ n) :
    ((n, x) :: l).lookup m = l.lookup m := by
  rw [List.lookup_cons, beq_false_of_ne hne]

/-- The live hash at the height the walk starts from is not asked for. -/
lemma Walk.lookup_self (hw : Walk env index k n h detached lives a) {m : ℤ} (hm : n ≤ m) :
    lives.lookup m = none := by
  induction hw with
  | found => exact lookup_cons_ne (by omega)
  | walk _ _ _ _ _ _ ih => exact (lookup_cons_ne (by omega)).trans (ih (by omega))

/-- Those below it are, down to the ancestor's. -/
lemma Walk.lookup (hw : Walk env index k n h detached lives a) {m : ℤ} (ha : a.1 ≤ m)
    (hm : m < n) : ∃ x j, lives.lookup m = some x ∧ (env.node j).getBlockHash m = some x := by
  induction hw with
  | @found k n h p _ _ _ _ hlive =>
      obtain rfl : m = n - 1 := by simp only at ha; omega
      exact ⟨p, k, List.lookup_cons_self, hlive⟩
  | @walk k n h p live _ _ _ _ _ _ _ hlive _ _ ih =>
      by_cases hmn : m = n - 1
      · subst hmn
        exact ⟨live, k, List.lookup_cons_self, hlive⟩
      · rw [lookup_cons_ne hmn]
        exact ih ha (by omega)

/-- The walk of the code is the walk. -/
lemma walkBack_ok_iff (fuel : ℕ) (w : World H ρ) (r : List (ℤ × H) × List (ℤ × H) × (ℤ × H))
    (t : World H ρ) : walkBack env fuel n h w = .ok r t
      ↔ Walk env w.mem.index w.calls n h r.1 r.2.1 r.2.2 ∧ r.1.length ≤ fuel
        ∧ t = { w with calls := w.calls + r.1.length } := by
  induction fuel generalizing n h w r t with
  | zero =>
      refine ⟨nofun, fun ⟨hw, hlen, _⟩ => ?_⟩
      have := hw.length
      have := hw.lt
      omega
  | succ fuel ih =>
      simp only [walkBack, bind_apply, get_apply]
      constructor
      · intro hr
        cases hrow : w.mem.index.get h with
        | none => simp [hrow] at hr
        | some row =>
            simp only [hrow] at hr
            split_ifs at hr with hn
            · cases hr
            cases hp : row.previousblockhash with
            | none => simp [hp] at hr
            | some p =>
                simp only [hp, bind_apply, rpc] at hr
                cases hl : (env.node w.calls).getBlockHash (n - 1) with
                | none => simp [hl] at hr
                | some live =>
                    simp only [hl] at hr
                    -- the block below is on both chains, or the walk goes on from it
                    by_cases heq : live = p
                    · subst heq
                      simp only [if_true, pure_apply] at hr
                      cases hr
                      exact ⟨.found hrow hp (by omega) hl, by simp, rfl⟩
                    · simp only [heq, if_false, bind_apply] at hr
                      cases hs : walkBack env fuel (n - 1) p { w with calls := w.calls + 1 } with
                      | error f u => simp [hs] at hr
                      | ok s u =>
                          obtain ⟨hw, hlen, rfl⟩ := (ih _ s u).mp hs
                          simp only [hs, pure_apply] at hr
                          cases hr
                          refine ⟨.walk hrow hp (by omega) hl heq hw, by simpa using hlen, ?_⟩
                          simp only [List.length_cons]
                          congr 1
                          omega
      · rintro ⟨hw, hlen, rfl⟩
        obtain ⟨ds, ls, a⟩ := r
        simp only at hw hlen ⊢
        -- the same along the walk: the code takes its branches
        cases hw with
        | found hrow hp hn hlive =>
            simp only [hrow, hp, show ¬ n ≤ 0 by omega, if_false, bind_apply, rpc, hlive, if_true,
              pure_apply, List.length_singleton]
        | @walk _ _ _ p live row ds ls _ hrow hp hn hlive hne hw =>
            have hs := (ih { w with calls := w.calls + 1 } (ds, ls, a) _).mpr
              ⟨hw, by simpa using hlen, rfl⟩
            simp only [hrow, hp, show ¬ n ≤ 0 by omega, if_false, bind_apply, rpc, hlive, hne, hs,
              pure_apply, List.length_cons]
            congr 2
            omega

/-- A walk that raises has changed nothing, after at most as many calls as blocks may be
detached. -/
lemma walkBack_error (fuel : ℕ) {w t : World H ρ} {f : Fault H}
    (hr : walkBack env fuel n h w = .error f t) :
    ∃ j ≤ fuel, t = { w with calls := w.calls + j } := by
  induction fuel generalizing n h w t with
  | zero =>
      cases hr
      exact ⟨0, le_rfl, rfl⟩
  | succ fuel ih =>
      simp only [walkBack, bind_apply, get_apply] at hr
      cases hrow : w.mem.index.get h with
      | none =>
          simp only [hrow, throw_apply] at hr
          cases hr
          exact ⟨0, by omega, rfl⟩
      | some row =>
          simp only [hrow] at hr
          split_ifs at hr with hn
          · cases hr
            exact ⟨0, by omega, rfl⟩
          cases hp : row.previousblockhash with
          | none =>
              simp only [hp, throw_apply] at hr
              cases hr
              exact ⟨0, by omega, rfl⟩
          | some p =>
              simp only [hp, bind_apply, rpc] at hr
              cases hl : (env.node w.calls).getBlockHash (n - 1) with
              | none =>
                  simp only [hl] at hr
                  cases hr
                  exact ⟨1, by omega, rfl⟩
              | some live =>
                  simp only [hl] at hr
                  split_ifs at hr
                  · cases hr
                  simp only [bind_apply] at hr
                  cases hs : walkBack env fuel (n - 1) p { w with calls := w.calls + 1 } with
                  | ok r u => simp [hs] at hr
                  | error g u =>
                      simp only [hs] at hr
                      cases hr
                      obtain ⟨j, hj, rfl⟩ := ih hs
                      exact ⟨j + 1, by omega,
                        by simp only [World.mk.injEq, true_and, and_true]; omega⟩

/-! ### The recovery -/

variable (env) in
omit [DecidableEq H] in
/-- The audit of the attached range when all live hashes but the highest are known: one call. -/
lemma attachedRows_known {top : ℤ} (htop : lives.lookup top = none) (live : ℤ → H) (j : ℕ)
    (hlive : ∀ m, top - j ≤ m → m < top → lives.lookup m = some (live m)) (w : World H ρ) :
    attachedRows env lives (j + 1) (top - j) w
      = match (env.node w.calls).getBlockHash top with
        | none => .error .rpcCliError { w with calls := w.calls + 1 }
        | some x => .ok ((heightRange (top - j) j).map (fun m => ⟨true, m, live m⟩)
            ++ [⟨true, top, x⟩]) { w with calls := w.calls + 1 } := by
  induction j with
  | zero =>
      simp only [Nat.cast_zero, sub_zero, attachedRows, htop, bind_apply, rpc]
      cases (env.node w.calls).getBlockHash top <;> rfl
  | succ j ih =>
      have hnext : top - (j + 1 : ℕ) + 1 = top - j := by omega
      have hrest := ih fun m hm => hlive m (by omega)
      rw [attachedRows, hlive _ le_rfl (by omega)]
      simp only [bind_apply, pure_apply, hnext, hrest]
      cases (env.node w.calls).getBlockHash top with
      | none => rfl
      | some x => simp only [heightRange, hnext, List.map_cons, List.cons_append]

variable {w : World H ρ}

/-- The audit of a walk. -/
lemma Walk.attachedRows (hw : Walk env index k n h detached lives a) (w : World H ρ) :
    ∃ live : ℤ → H, (∀ m, a.1 ≤ m → m < n → lives.lookup m = some (live m))
      ∧ Ingest.attachedRows env lives (n - a.1).toNat (a.1 + 1) w
        = match (env.node w.calls).getBlockHash n with
          | none => .error .rpcCliError { w with calls := w.calls + 1 }
          | some x => .ok ((heightRange (a.1 + 1) (detached.length - 1)).map
              (fun m => ⟨true, m, live m⟩) ++ [⟨true, n, x⟩]) { w with calls := w.calls + 1 } := by
  have hlen := hw.length
  have hlt := hw.lt
  have hlive : ∀ m, a.1 ≤ m → m < n → lives.lookup m = some ((lives.lookup m).getD h) := by
    intro m ha hm
    obtain ⟨x, -, hx, -⟩ := hw.lookup ha hm
    rw [hx, Option.getD_some]
  refine ⟨fun m => (lives.lookup m).getD h, hlive, ?_⟩
  have hrows := attachedRows_known env (hw.lookup_self le_rfl)
    (fun m => (lives.lookup m).getD h) (detached.length - 1)
    (fun m hm => hlive m (by omega)) w
  rwa [show detached.length - 1 + 1 = (n - a.1).toNat by omega,
    show n - (detached.length - 1 : ℕ) = a.1 + 1 by omega] at hrows

/-- Without a walk the recovery raises and changes nothing. -/
lemma recoverFromReorg_stuck
    (hno : ¬ ∃ detached lives a, Walk env w.mem.index w.calls n h detached lives a
      ∧ detached.length ≤ cfg.maxReorgDepth) :
    ∃ f, ∃ j ≤ cfg.maxReorgDepth,
      recoverFromReorg cfg env n h w = .error f { w with calls := w.calls + j } := by
  cases hr : walkBack env cfg.maxReorgDepth n h w with
  | ok r t =>
      obtain ⟨hw, hlen, -⟩ := (walkBack_ok_iff _ w r t).mp hr
      exact absurd ⟨_, _, _, hw, hlen⟩ hno
  | error f t =>
      obtain ⟨j, hj, rfl⟩ := walkBack_error _ hr
      exact ⟨f, j, hj, by rw [recoverFromReorg, bind_apply, hr]⟩

/-- After a walk, the call of the audit may fail: the flags are set by then. -/
lemma recoverFromReorg_fails (hw : Walk env w.mem.index w.calls n h detached lives a)
    (hlen : detached.length ≤ cfg.maxReorgDepth)
    (hfail : (env.node (w.calls + detached.length)).getBlockHash n = none) :
    recoverFromReorg cfg env n h w = .error .rpcCliError
      { w with
        mem := { w.mem with status := setDetached detached.reverse w.mem.status }
        calls := w.calls + detached.length + 1 } := by
  have hr := (walkBack_ok_iff cfg.maxReorgDepth w (detached, lives, a) _).mpr ⟨hw, hlen, rfl⟩
  obtain ⟨live, -, hrows⟩ := hw.attachedRows { w with
    mem := { w.mem with status := setDetached detached.reverse w.mem.status }
    calls := w.calls + detached.length }
  simp only [recoverFromReorg, bind_apply, hr, modify_apply, hrows, hfail]

variable (cfg) in
/-- Or all is done: the flags are set and flushed, and the log is written. -/
lemma recoverFromReorg_ok (hw : Walk env w.mem.index w.calls n h detached lives a)
    (hlen : detached.length ≤ cfg.maxReorgDepth) {x : H}
    (hx : (env.node (w.calls + detached.length)).getBlockHash n = some x) :
    ∃ (live : ℤ → H) (t : World H ρ),
      (∀ m, a.1 ≤ m → m < n → lives.lookup m = some (live m))
      ∧ recoverFromReorg cfg env n h w = .ok a t
      ∧ t.mem = { w.mem with status := (setDetached detached.reverse w.mem.status).flush }
      ∧ t.disk.status = (setDetached detached.reverse w.mem.status).flushFile w.disk.status
      ∧ t.disk.reorgLogs = w.disk.reorgLogs ++ [⟨a.1 + 1, n,
          (detached.reverse.map fun d => ⟨false, d.1, d.2⟩)
          ++ ((heightRange (a.1 + 1) (detached.length - 1)).map fun m => ⟨true, m, live m⟩)
          ++ [⟨true, n, x⟩]⟩]
      ∧ t.calls = w.calls + detached.length + 1 := by
  have hr := (walkBack_ok_iff cfg.maxReorgDepth w (detached, lives, a) _).mpr ⟨hw, hlen, rfl⟩
  obtain ⟨live, hlive, hrows⟩ := hw.attachedRows { w with
    mem := { w.mem with status := setDetached detached.reverse w.mem.status }
    calls := w.calls + detached.length }
  rw [hx] at hrows
  simp only [recoverFromReorg, bind_apply, hr, modify_apply, hrows, store, pure_apply]
  refine ⟨live, _, hlive, rfl, by simp, by simp, by simp, ?_⟩
  simp [World.consumed, World.writeReorgLog, World.effect, World.completed]

/-! ### Atomicity -/

lemma get?_setDetached (ds : List (ℤ × H)) (s : BlockStatusStore H) (q : ℤ × H) :
    (setDetached ds s).entries.get? q = if q ∈ ds then some false else s.entries.get? q := by
  induction ds generalizing s with
  | nil => simp [setDetached]
  | cons d ds ih =>
      rw [show setDetached (d :: ds) s = setDetached ds (s.setCanonical d.1 d.2 false) from rfl, ih,
        BlockStatusStore.get?_setCanonical]
      by_cases hq : q ∈ ds
      · simp [hq]
      · simp [hq]

/-- The flags are left alone if the blocks were flagged before, and only then. -/
lemma setDetached_eq_self {ds : List (ℤ × H)} {s : BlockStatusStore H} :
    setDetached ds s = s ↔ ∀ d ∈ ds, s.entries.get? d = some false := by
  constructor
  · intro heq d hd
    rw [← heq, get?_setDetached, if_pos hd]
  · intro hall
    induction ds with
    | nil => rfl
    | cons d ds ih =>
        have hd : s.setCanonical d.1 d.2 false = s := if_pos (hall d (by simp))
        rw [show setDetached (d :: ds) s = setDetached ds (s.setCanonical d.1 d.2 false) from rfl,
          hd, ih fun e he => hall e (by simp [he])]

/-- The walk succeeds, the call after it fails, and some block detached was not flagged before. -/
def AuditFails (cfg : RpcConfig) (env : PassEnv T) (w : World H ρ) (n : ℤ) (h : H) : Prop :=
  ∃ detached lives a, Walk env w.mem.index w.calls n h detached lives a
    ∧ detached.length ≤ cfg.maxReorgDepth
    ∧ (env.node (w.calls + detached.length)).getBlockHash n = none
    ∧ ∃ d ∈ detached, w.mem.status.entries.get? d ≠ some false

/-- **Atomicity of the recovery**: when it raises, the flags in memory and the files are as before,
unless the audit's call fails after blocks have been flagged. -/
theorem recovery_atomic_iff (cfg : RpcConfig) (env : PassEnv T) (w : World H ρ) (n : ℤ) (h : H) :
    (∀ f t, recoverFromReorg cfg env n h w = .error f t →
      t.mem.status = w.mem.status ∧ t.disk.status = w.disk.status
        ∧ t.disk.reorgLogs = w.disk.reorgLogs) ↔ ¬ AuditFails cfg env w n h := by
  constructor
  · rintro hatomic ⟨detached, lives, a, hw, hlen, hfail, d, hd, hflag⟩
    have hsame := (hatomic _ _ (recoverFromReorg_fails hw hlen hfail)).1
    exact hflag (setDetached_eq_self.mp hsame d (List.mem_reverse.mpr hd))
  · intro hno f t ht
    by_cases hwalk : ∃ detached lives a, Walk env w.mem.index w.calls n h detached lives a
        ∧ detached.length ≤ cfg.maxReorgDepth
    · obtain ⟨detached, lives, a, hw, hlen⟩ := hwalk
      cases hx : (env.node (w.calls + detached.length)).getBlockHash n with
      | none =>
          rw [recoverFromReorg_fails hw hlen hx] at ht
          cases ht
          refine ⟨setDetached_eq_self.mpr fun d hd => ?_, rfl, rfl⟩
          by_contra hflag
          exact hno ⟨detached, lives, a, hw, hlen, hx, d, List.mem_reverse.mp hd, hflag⟩
      | some x =>
          obtain ⟨-, u, -, hu, -⟩ := recoverFromReorg_ok cfg hw hlen hx
          rw [hu] at ht
          cases ht
    · obtain ⟨g, j, -, hu⟩ := recoverFromReorg_stuck hwalk
      rw [hu] at ht
      cases ht
      exact ⟨rfl, rfl, rfl⟩

/-- The node reorganises from `0, 2` to `0, 1` and fails the call of the audit: the recovery
raises, and the block `2` is flagged. -/
theorem recovery_not_atomic :
    ¬ ∀ (cfg : RpcConfig) (env : PassEnv forkTree) (w : World ℕ ℕ) (n : ℤ) (h : ℕ) f t,
      recoverFromReorg cfg env n h w = .error f t →
        t.mem.status = w.mem.status ∧ t.disk.status = w.disk.status
          ∧ t.disk.reorgLogs = w.disk.reorgLogs := by
  intro hatomic
  let w := (State.start.afterPass plainConfig plainFormats (plainEnv fun _ => onBranch 2)).world
  let env := plainEnv fun k => if k = 1 then ⟨branch 1, fun _ => true⟩ else onBranch 1
  have hrun : (match recoverFromReorg plainConfig env 1 2 w with
      | .ok _ _ => none
      | .error _ t => some (t.mem.status.entries.get? (1, 2))) = some (some false)
      ∧ w.mem.status.entries.get? (1, 2) = none := by decide +kernel
  cases hr : recoverFromReorg plainConfig env 1 2 w with
  | ok _ t =>
      rw [hr] at hrun
      cases hrun.1
  | error f t =>
      rw [hr, ← (hatomic _ _ _ _ _ _ _ hr).1] at hrun
      simp only [Option.some.injEq] at hrun
      rw [hrun.1] at hrun
      cases hrun.2

/-! ### The fork point -/

/-- The node has the active chain `Z` and answers every `getblockhash`. -/
def Serves (env : PassEnv T) (Z : ActiveChain T) : Prop :=
  ∀ k m, (env.node k).getBlockHash m = Z.hashAt m

/-- The index holds the chain that starts with these hashes at height `n` and goes down: every
block has a row with its height and the next hash, and the last is not indexed or has no
predecessor. -/
structure StoredChain (index : IndexStore H) (n : ℤ) (stored : List H) : Prop where
  link : ∀ (i : ℕ) x y, stored[i]? = some x → stored[i + 1]? = some y →
    ∃ row, index.get x = some row ∧ row.height = n - i ∧ row.previousblockhash = some y
  last : ∀ (i : ℕ) x row, stored[i]? = some x → stored[i + 1]? = none →
    index.get x = some row → row.previousblockhash = none
  floor : (stored.length : ℤ) ≤ n + 1

/-- The stored block at a height. -/
def storedAt (n : ℤ) (stored : List H) (m : ℤ) : Option H :=
  if m ≤ n then stored[(n - m).toNat]? else none

/-- The highest height below `n` at which the two chains agree, and the block there. -/
structure ForkAt (Z : ActiveChain T) (n : ℤ) (stored : List H) (a : ℤ) (x : H) : Prop where
  below : a < n
  held : storedAt n stored a = some x
  live : Z.hashAt a = some x
  highest : ∀ m, a < m → m < n → Z.hashAt m ≠ storedAt n stored m

/-- The `d` highest blocks of the stored chain, the highest first. -/
def detachedBlocks : ℕ → ℤ → List H → List (ℤ × H)
  | d + 1, n, h :: rest => (n, h) :: detachedBlocks d (n - 1) rest
  | _, _, _ => []

variable {Z : ActiveChain T} {p : H} {rest : List H}

omit [DecidableEq H] in
lemma storedAt_cons {m : ℤ} (hm : m < n) : storedAt n (h :: rest) m = storedAt (n - 1) rest m := by
  rw [storedAt, storedAt, if_pos hm.le, if_pos (by omega),
    show (n - m).toNat = (n - 1 - m).toNat + 1 by omega, List.getElem?_cons_succ]

lemma StoredChain.tail (hs : StoredChain index n (h :: p :: rest)) :
    StoredChain index (n - 1) (p :: rest) := by
  refine ⟨fun i x y hx hy => ?_, fun i x row hx hy => hs.last (i + 1) x row hx hy, ?_⟩
  · obtain ⟨row, hrow, hheight, hprev⟩ := hs.link (i + 1) x y hx hy
    exact ⟨row, hrow, by push_cast at hheight; omega, hprev⟩
  · have := hs.floor
    simp only [List.length_cons] at this ⊢
    push_cast at this ⊢
    omega

/-- A fork is found by the walk. -/
lemma walk_of_fork (henv : Serves env Z) (htip : n ≤ Z.tip)
    (hs : StoredChain index n (h :: rest)) {x : H} {m : ℤ} (hf : ForkAt Z n (h :: rest) m x) :
    ∃ lives, Walk env index k n h (detachedBlocks (n - m).toNat n (h :: rest)) lives (m, x) := by
  induction rest generalizing n h k with
  | nil =>
      have hnone := hf.held
      rw [storedAt_cons hf.below, storedAt] at hnone
      simp at hnone
  | cons p rest ih =>
      obtain ⟨row, hrow, -, hp⟩ := hs.link 0 h p rfl rfl
      have hn : 0 < n := by
        have := hs.floor
        simp only [List.length_cons] at this
        push_cast at this
        omega
      obtain ⟨live, hlive⟩ := Z.exists_hashAt (n := n - 1) (by omega) (by omega)
      have hstored : storedAt n (h :: p :: rest) (n - 1) = some p := by
        rw [storedAt_cons (by omega), storedAt, if_pos le_rfl]
        simp
      have hbelow := hf.below
      by_cases hm : m = n - 1
      · subst hm
        obtain rfl : p = x := Option.some.inj (hstored.symm.trans hf.held)
        rw [show (n - (n - 1)).toNat = 1 by omega]
        exact ⟨_, .found hrow hp hn ((henv k _).trans hf.live)⟩
      · have hne : live ≠ p := fun heq =>
          hf.highest (n - 1) (by omega) (by omega) (by rw [hlive, hstored, heq])
        have hf' : ForkAt Z (n - 1) (p :: rest) m x := by
          refine ⟨by omega, storedAt_cons hbelow ▸ hf.held, hf.live, fun j hj hjn => ?_⟩
          rw [← storedAt_cons (h := h) (by omega)]
          exact hf.highest j hj (by omega)
        obtain ⟨lives, hw⟩ := ih (k := k + 1) (by omega) hs.tail hf'
        rw [show (n - m).toNat = (n - 1 - m).toNat + 1 by omega]
        exact ⟨_, .walk hrow hp hn ((henv k _).trans hlive) hne hw⟩

/-- What the walk finds is a fork. -/
lemma Walk.fork (hw : Walk env index k n h detached lives a) (henv : Serves env Z)
    (hs : StoredChain index n (h :: rest)) : ForkAt Z n (h :: rest) a.1 a.2 := by
  -- the row of the block names the next block of the stored chain
  have hnext : ∀ {n : ℤ} {h p : H} {row : IndexRow H} {rest : List H},
      StoredChain index n (h :: rest) → index.get h = some row →
      row.previousblockhash = some p → ∃ rest', rest = p :: rest' := by
    intro n h p row rest hs hrow hp
    cases rest with
    | nil =>
        rw [hs.last 0 h row rfl rfl hrow] at hp
        cases hp
    | cons q rest =>
        obtain ⟨row', hrow', -, hq⟩ := hs.link 0 h q rfl rfl
        rw [hrow] at hrow'
        cases hrow'
        rw [hp] at hq
        cases hq
        exact ⟨rest, rfl⟩
  induction hw generalizing rest with
  | @found k n h p row hrow hp hn hlive =>
      obtain ⟨rest, rfl⟩ := hnext hs hrow hp
      refine ⟨by simp, ?_, (henv k _).symm.trans hlive, fun m hm hmn => by simp only at hm; omega⟩
      rw [storedAt_cons (by simp), storedAt, if_pos le_rfl]
      simp
  | @walk k n h p live row _ _ a hrow hp hn hlive hne hw ih =>
      obtain ⟨rest, rfl⟩ := hnext hs hrow hp
      have hf := ih hs.tail
      have hlt := hw.lt
      refine ⟨by omega, ?_, hf.live, fun m hm hmn => ?_⟩
      · rw [storedAt_cons (by omega)]
        exact hf.held
      · rw [storedAt_cons hmn]
        by_cases hmn' : m = n - 1
        · subst hmn'
          rw [← henv k, hlive, storedAt, if_pos le_rfl]
          simpa using hne
        · exact hf.highest m hm (by omega)

lemma heightRange_succ (m : ℤ) (j : ℕ) : heightRange m (j + 1) = heightRange m j ++ [m + j] := by
  induction j generalizing m with
  | zero => simp [heightRange]
  | succ j ih =>
      rw [heightRange, ih (m + 1), heightRange, List.cons_append]
      congr 3
      push_cast
      omega

lemma mem_heightRange {m i : ℤ} {j : ℕ} (hi : i ∈ heightRange m j) : m ≤ i ∧ i < m + j := by
  induction j generalizing m with
  | zero => simp [heightRange] at hi
  | succ j ih =>
      rw [heightRange, List.mem_cons] at hi
      rcases hi with rfl | hi
      · exact ⟨le_rfl, by push_cast; omega⟩
      · have := ih hi
        push_cast
        omega

/-- The audit rows of the attached range: the live hashes at `j` heights from `m` on. -/
def attachedLog (Z : ActiveChain T) (m : ℤ) (j : ℕ) : List (LogRow H) :=
  (heightRange m j).filterMap fun i => (Z.hashAt i).map fun x => ⟨true, i, x⟩

omit [DecidableEq H] in
lemma attachedLog_eq {m : ℤ} {j : ℕ} {live : ℤ → H} {x : H}
    (hlive : ∀ i, m ≤ i → i < m + j → Z.hashAt i = some (live i)) (hx : Z.hashAt (m + j) = some x) :
    attachedLog Z m (j + 1)
      = (heightRange m j).map (fun i => ⟨true, i, live i⟩) ++ [⟨true, m + j, x⟩] := by
  rw [attachedLog, heightRange_succ, List.filterMap_append, ← List.filterMap_eq_map]
  congr 1
  · refine List.filterMap_congr fun i hi => ?_
    obtain ⟨hl, hu⟩ := mem_heightRange hi
    rw [hlive i hl hu]
    rfl
  · simp [hx]

/-- What the recovery has done when it returns the fork point. -/
structure Recovered (Z : ActiveChain T) (w : World H ρ) (n : ℤ) (stored : List H) (a : ℤ)
    (t : World H ρ) : Prop where
  flags : ∀ q, t.mem.status.entries.get? q
    = if q ∈ detachedBlocks (n - a).toNat n stored then some false
      else w.mem.status.entries.get? q
  file : (w.mem.status.dirty = false → w.mem.status.entries = w.disk.status) →
    t.disk.status = t.mem.status.entries
  log : t.disk.reorgLogs = w.disk.reorgLogs ++ [⟨a + 1, n,
    ((detachedBlocks (n - a).toNat n stored).reverse.map fun d => ⟨false, d.1, d.2⟩)
      ++ attachedLog Z (a + 1) (n - a).toNat⟩]
  index : t.mem.index = w.mem.index
  calls : t.calls = w.calls + (n - a).toNat + 1

/-- **The recovery finds the fork point**, if it is not deeper than allowed, flags exactly the
stored blocks above it and logs them together with the live ones; otherwise it raises and changes
nothing. -/
theorem recovery_finds_fork (cfg : RpcConfig) (env : PassEnv T) (Z : ActiveChain T)
    (henv : Serves env Z) (w : World H ρ) (n : ℤ) (h : H) (rest : List H)
    (hs : StoredChain w.mem.index n (h :: rest)) (htip : n ≤ Z.tip) :
    (∀ a x, ForkAt Z n (h :: rest) a x → n - a ≤ cfg.maxReorgDepth →
      ∃ t, recoverFromReorg cfg env n h w = .ok (a, x) t ∧ Recovered Z w n (h :: rest) a t)
    ∧ ((¬ ∃ a x, ForkAt Z n (h :: rest) a x ∧ n - a ≤ cfg.maxReorgDepth) →
      ∃ f t, recoverFromReorg cfg env n h w = .error f t ∧ t.mem = w.mem ∧ t.disk = w.disk
        ∧ t.trace = w.trace ∧ t.calls ≤ w.calls + cfg.maxReorgDepth) := by
  constructor
  · intro a x hf hdepth
    obtain ⟨lives, hw⟩ := walk_of_fork (k := w.calls) henv htip hs hf
    have hlen := hw.length
    have hlt := hw.lt
    simp only at hlen hlt
    have hfloor := hs.floor
    simp only [List.length_cons] at hfloor
    push_cast at hfloor
    -- the one height of the range whose live hash the walk has not asked for
    obtain ⟨top, htop⟩ := Z.exists_hashAt (n := n) (by omega) htip
    obtain ⟨live, t, hlive, ht, hmem, hdisk, hlog, hcalls⟩ :=
      recoverFromReorg_ok cfg hw (by omega) ((henv _ _).trans htop)
    -- the others are known from the walk
    have hlookup : ∀ m, a ≤ m → m < n → Z.hashAt m = some (live m) := by
      intro m ha hm
      obtain ⟨y, j, hy, hj⟩ := hw.lookup ha hm
      rw [← henv j, hj, ← hy, hlive m ha hm]
    refine ⟨t, ht, fun q => ?_, fun hsync => ?_, ?_, by rw [hmem], by rw [hcalls]; omega⟩
    · rw [hmem, BlockStatusStore.flush, get?_setDetached]
      simp only [List.mem_reverse]
    · rw [hdisk, hmem, BlockStatusStore.flush, BlockStatusStore.flushFile]
      split_ifs with hd
      · rfl
      · have heq := BlockStatusStore.eq_of_not_dirty_setDetached (by simpa using hd)
        rw [heq] at hd ⊢
        exact (hsync (by simpa using hd)).symm
    · obtain ⟨j, hj⟩ : ∃ j, (n - a).toNat = j + 1 := ⟨(n - a).toNat - 1, by omega⟩
      have hn : a + 1 + (j : ℤ) = n := by omega
      have hattached : attachedLog Z (a + 1) (n - a).toNat
          = (heightRange (a + 1) j).map (fun i => ⟨true, i, live i⟩) ++ [⟨true, n, top⟩] := by
        rw [hj, attachedLog_eq (fun i hi hin => hlookup i (by omega) (by omega)) (hn ▸ htop), hn]
      rw [hlog, hattached,
        show (detachedBlocks (n - a).toNat n (h :: rest)).length - 1 = j by omega,
        List.append_assoc]
  · intro hno
    -- a walk that ends would end in a fork
    have hstuck : ¬ ∃ detached lives a, Walk env w.mem.index w.calls n h detached lives a
        ∧ detached.length ≤ cfg.maxReorgDepth := by
      rintro ⟨detached, lives, a, hw, hlen⟩
      have := hw.length
      exact hno ⟨a.1, a.2, hw.fork henv hs, by omega⟩
    obtain ⟨f, j, hj, hr⟩ := recoverFromReorg_stuck hstuck
    exact ⟨f, _, hr, rfl, rfl, rfl, by simp only; omega⟩

/-- The stored chain is `0, 2, 4`, the live one `0, 1, 3`: the recovery walks down two blocks. -/
theorem recovery_finds_fork_twoBlocks :
    let w := (State.start.afterPass plainConfig plainFormats (plainEnv fun _ => onBranch 4)).world
    ∃ t, recoverFromReorg plainConfig (plainEnv fun _ => onBranch 3) 2 4 w = .ok (0, 0) t
      ∧ Recovered (branch 3) w 2 [4, 2, 0] 0 t := by
  intro w
  have hrows : w.mem.index.get 4 = some ⟨2, 4, some 2, 2⟩
      ∧ w.mem.index.get 2 = some ⟨1, 2, some 0, 2⟩
      ∧ w.mem.index.get 0 = some ⟨0, 0, none, 2⟩ := by decide +kernel
  have hs : StoredChain w.mem.index 2 [4, 2, 0] := by
    refine ⟨fun i x y hx hy => ?_, fun i x row hx hy hrow => ?_, by simp⟩
    · match i with
      | 0 =>
          cases hx
          cases hy
          exact ⟨_, hrows.1, rfl, rfl⟩
      | 1 =>
          cases hx
          cases hy
          exact ⟨_, hrows.2.1, rfl, rfl⟩
      | i + 2 => simp at hy
    · match i with
      | 0 => simp at hy
      | 1 => simp at hy
      | 2 =>
          cases hx
          rw [hrows.2.2] at hrow
          cases hrow
          rfl
      | i + 3 => simp at hx
  have hf : ForkAt (branch 3) 2 [4, 2, 0] 0 0 := by
    refine ⟨by decide, by decide, by decide, fun m hm hmn => ?_⟩
    obtain rfl : m = 1 := by omega
    decide
  have henv : Serves (plainEnv (fun _ => onBranch 3)) (branch 3) := fun _ _ => rfl
  exact (recovery_finds_fork _ _ _ henv w 2 4 [2, 0] hs (by decide)).1 0 0 hf (by decide)

end Ingest

end BtcParser
