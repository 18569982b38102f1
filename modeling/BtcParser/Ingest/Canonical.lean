import BtcParser.Ingest.FlaggedPass

/-!
The flags of `block_status.csv` agree with the active chain after a pass that returns `True`.

* `watched` are the runs in which the chain changes only between two steps of the process, by
  reorgs that are not too deep. Beside the process they keep its node's active chain and, for the
  condition only, records it has written: `Notes` says which may be noted.
* `undisturbed` is the condition: the chain is reorganised only while the files and the flags in
  memory are as noted, and never left too short to be looked at. Between two reorgs anything may
  happen: passes that fail at any call, stops, crashes at any effect, restarts, a growing chain.
* `RestFlags` is what holds between two steps, and `restFlags_next` the step lemma.
* `flagged_iff` is the result, and `flags_differ` the run that goes wrong: recovery has flagged a
  block, the pass is abandoned before it has moved `current.csv`, and the chain changes back.
-/

namespace BtcParser

variable {H ρ : Type} [DecidableEq H] {T : BlockTree H ρ}

namespace Ingest

/-- The process together with the active chain of its node, and noted records. -/
structure Watched (T : BlockTree H ρ) where
  state : State H ρ
  chain : ActiveChain T
  noted : Records H

/-- What can happen to them: a step of the process, or a reorg of the node. -/
inductive Change (T : BlockTree H ρ) where
  | process (i : Label T)
  | reorg (Z : ActiveChain T)

/-- How many blocks of `Z` are not on `Z'`. -/
def reorgDepth (Z Z' : ActiveChain T) : ℕ := Z.hashes.countP (· ∉ Z')

/-- The files and the flags in memory are as in these records, and no row is of an older schema
or could be seeded: a pass that starts here has nothing to make good. -/
structure State.AsIn (s : State H ρ) (r : Records H) : Prop where
  disk : s.disk.records = r
  mem : s.mem.status.entries = r.flags
  index : AllCurrent r.index
  rows : s.disk.current = none → s.disk.BlocksAll fun _ => False

lemma State.AsIn.flags {s : State H ρ} {r : Records H} (h : s.AsIn r) :
    s.mem.status.entries = s.disk.status :=
  h.mem.trans (congrArg Records.flags h.disk).symm

variable (cfg : RpcConfig) (fmt : Formats H ρ)

/-- What a step of the process leaves in its log. -/
def State.events (s : State H ρ) : Label T → List (Event H ρ)
  | .pass env => s.trace cfg fmt env
  | .crash env n => (s.trace cfg fmt env).take (n + 1)
  | _ => []

/-- The records that may be noted after a step: those noted before; those at a write of
`current.csv`, when the step started as noted; those that a pass has left which returned `True`. -/
inductive Notes : Label T → State H ρ → Records H → Records H → Prop
  | same {i : Label T} {s : State H ρ} {r : Records H} : Notes i s r r
  | written {i : Label T} {s : State H ρ} {r r' : Records H} {e : Event H ρ} (h : s.AsIn r)
      (he : e ∈ s.events cfg fmt i) (hr : e.written? = some r') : Notes i s r r'
  | caughtUp {env : PassEnv T} {s : State H ρ} {r : Records H} {w : World H ρ}
      (h : s.run cfg fmt env = .ok true w) : Notes (.pass env) s r w.disk.records

/-- The steps of all three. -/
inductive Changes : Change T → Watched T → Watched T → Prop
  | process {i : Label T} {s s' : State H ρ} {Z : ActiveChain T} {r r' : Records H} (hi : i.On Z)
      (hs : next cfg fmt i s = some s') (hr : Notes cfg fmt i s r r') :
      Changes (.process i) ⟨s, Z, r⟩ ⟨s', Z, r'⟩
  | reorg {s : State H ρ} {Z Z' : ActiveChain T} {r : Records H}
      (hd : reorgDepth Z Z' ≤ cfg.maxReorgDepth) : Changes (.reorg Z') ⟨s, Z, r⟩ ⟨s, Z', r⟩

/-- All runs from empty directories in which the chain changes between two steps only. -/
def watched (T : BlockTree H ρ) : TransitionSystem (Watched T) (Change T) where
  init p := p.state = State.start ∧ p.noted = Disk.records (Disk.fresh : Disk H ρ)
  step := Changes cfg fmt

/-- The chain only grows, or the process is as noted. And the chain is high enough for a pass to
look at it, or there is no `current.csv` yet. -/
def undisturbed : Change T → Watched T → Prop
  | .process _, _ => True
  | .reorg Z, p => (reorgDepth p.chain Z = 0 ∨ p.state.AsIn p.noted)
      ∧ (0 ≤ Z.tip - cfg.reorgConfirmations ∨ p.state.disk.current = none)

variable {cfg fmt} {Z Z' : ActiveChain T} {env : PassEnv T} {s s' : State H ρ} {r r' : Records H}
  {n : ℤ}

/-- Between two steps, when the passes process the heights up to `n`. -/
structure RestFlags (Z : ActiveChain T) (n : ℤ) (s : State H ρ) (r : Records H) : Prop where
  rest : Rest T s
  disk : DiskMidway Z n s.disk
  mem : Midway Z n s.world.records
  noted : InStep T r


lemma restFlags_load {d : Disk H ρ} (ht : DiskTrue T d) (hd : DiskMidway Z n d) (hr : InStep T r)
    (log : List (Event H ρ)) : RestFlags Z n ⟨.load d, d, log⟩ r :=
  ⟨rest_load ht log, hd, hd.records, hr⟩

lemma RestFlags.start (h : RestFlags Z n s r) : PassFlags Z n (s.AsIn r) .start s.world := by
  refine ⟨h.rest.recInv, ⟨h.disk, by rintro e ⟨⟩⟩, h.mem, ?_, fun _ => by rintro e ⟨⟩,
    fun ha => ⟨ha.disk ▸ h.noted, ?_, ha.disk ▸ ha.index, ha.rows⟩⟩
  · simp [State.world, h.rest.pending]
  · exact ha.flags

lemma RestFlags.ends (h : RestFlags Z (Z.tip - cfg.reorgConfirmations) s r) (hon : env.On Z)
    {c : Point H ρ} {w : World H ρ} (hw : Ends cfg fmt env s c w) :
    PassFlags Z (Z.tip - cfg.reorgConfirmations) (s.AsIn r) c w :=
  hw.invariant (I := PassFlags Z _ (s.AsIn r)) (fun _ _ _ _ => passFlags_step hon rfl) h.start

/-- What may be noted is in step. -/
lemma RestFlags.notes (h : RestFlags Z (Z.tip - cfg.reorgConfirmations) s r) {i : Label T}
    (hi : i.On Z) (hr : Notes cfg fmt i s r r') : InStep T r' := by
  cases hr with
  | same => exact h.noted
  | @written _ _ _ _ e ha he hr =>
      cases i with
      | pass env =>
          obtain ⟨c, w, hw⟩ := exists_ends cfg fmt env s
          rw [State.events, hw.trace_eq] at he
          exact (h.ends hi hw).writes ha e he r' hr
      | crash env k =>
          obtain ⟨c, w, hw⟩ := exists_ends cfg fmt env s
          rw [State.events, hw.trace_eq] at he
          exact (h.ends hi hw).writes ha e (List.mem_of_mem_take he) r' hr
      | restart => cases he
      | consume k n => cases he
  | caughtUp hrun => exact ((h.ends hi (.ok hrun)).point rfl).1

/-- A step of the process. -/
lemma RestFlags.next (h : RestFlags Z (Z.tip - cfg.reorgConfirmations) s r) {i : Label T}
    (hi : i.On Z) (hs : Ingest.next cfg fmt i s = some s') (hr : Notes cfg fmt i s r r') :
    RestFlags Z (Z.tip - cfg.reorgConfirmations) s' r' := by
  have hrest := rest_next h.rest hs
  have hnoted := h.notes hi hr
  cases outcome_of_next hs with
  | done hw => exact ⟨hrest, (h.ends hi hw).kept.disk, (h.ends hi hw).mem, hnoted⟩
  | abandoned hw => exact ⟨hrest, (h.ends hi hw).kept.disk, (h.ends hi hw).mem, hnoted⟩
  | died hw => exact restFlags_load hrest.disk (h.ends hi hw).kept.disk hnoted _
  | crash hw hn hd =>
      exact restFlags_load hrest.disk
        ((h.ends hi hw).kept.trace _ (List.mem_of_getElem? hn) _ hd) hnoted _
  | restart => exact restFlags_load hrest.disk h.disk hnoted _
  | consume k n => exact ⟨hrest, h.disk.consume k n, h.mem, hnoted⟩

omit [DecidableEq H] in
/-- A chain none of whose blocks is lost. -/
lemma mem_of_reorgDepth_eq_zero [DecidableEq H] (hd : reorgDepth Z Z' = 0) :
    (∀ x ∈ Z, x ∈ Z') ∧ Z.tip ≤ Z'.tip := by
  have hmem : ∀ x ∈ Z, x ∈ Z' := by
    intro x hx
    have := List.countP_eq_zero.mp hd x hx
    simpa using this
  have h0 : 0 ≤ Z.tip := by
    have := List.length_pos_iff.mpr Z.ne_nil
    rw [ActiveChain.tip]
    omega
  obtain ⟨x, hx⟩ := Z.exists_hashAt h0 le_rfl
  exact ⟨hmem, Z.height_of_hashAt hx ▸ Z'.height_le_tip (hmem x (Z.mem_of_hashAt hx))⟩

/-- The chain grows. -/
lemma RestFlags.grow (h : RestFlags Z (Z.tip - cfg.reorgConfirmations) s r)
    (hd : reorgDepth Z Z' = 0) : RestFlags Z' (Z'.tip - cfg.reorgConfirmations) s r := by
  obtain ⟨hz, htip⟩ := mem_of_reorgDepth_eq_zero hd
  have hn : Z.tip - cfg.reorgConfirmations ≤ Z'.tip - cfg.reorgConfirmations := by omega
  refine ⟨h.rest, ⟨h.disk.records.grow hz hn, fun hc p hp e he => ?_⟩, h.mem.grow hz hn, h.noted⟩
  obtain ⟨hez, hle⟩ := h.disk.rows hc p hp e he
  exact ⟨hz _ hez, hle.trans hn⟩

/-- The chain is reorganised while the process is as noted. -/
lemma RestFlags.reorg {n' : ℤ} (h : RestFlags Z n s r) (ha : s.AsIn r)
    (h0 : s.disk.current ≠ none → 0 ≤ n') : RestFlags Z' n' s r := by
  have hworld : s.world.records = r := by
    rw [← ha.disk]
    exact congrArg (fun flags => { s.disk.records with flags := flags }) ha.flags
  have hbare : r.current = none → ∀ x, ¬ Flagged T r.flags x := by
    rw [← ha.disk]
    exact fun hc => (h.disk.records.bare hc).1
  have hmid : Midway Z' n' r :=
    h.noted.midway ha.index hbare (ha.disk ▸ h0)
  exact ⟨h.rest, ⟨ha.disk ▸ hmid, fun hc p hp e he => (ha.rows hc p hp e he).elim⟩,
    hworld ▸ hmid, h.noted⟩

lemma restFlags_fresh (h0 : (Disk.fresh : Disk H ρ).current ≠ none → 0 ≤ n) :
    RestFlags Z n (State.start : State H ρ) (Disk.fresh : Disk H ρ).records := by
  have hin : InStep T (Disk.fresh : Disk H ρ).records := ⟨by rintro x ⟨⟩, by rintro x ⟨⟩⟩
  refine restFlags_load diskTrue_fresh ⟨hin.midway (by rintro x row ⟨⟩) (by rintro - x ⟨⟩) h0,
    fun _ => Disk.blocksAll_fresh⟩ hin []

/-- **The step lemma.** -/
lemma restFlags_next {i : Change T} {p q : Watched T}
    (h : RestFlags p.chain (p.chain.tip - cfg.reorgConfirmations) p.state p.noted)
    (ha : undisturbed cfg i p) (hs : Changes cfg fmt i p q) :
    RestFlags q.chain (q.chain.tip - cfg.reorgConfirmations) q.state q.noted := by
  cases hs with
  | process hi hs hr => exact h.next hi hs hr
  | reorg _ =>
      obtain ⟨hd | has, hlook⟩ := ha
      · exact h.grow hd
      · exact h.reorg has fun hc => hlook.resolve_right hc

lemma on_plainEnv (h : ℕ) : (plainEnv fun _ => onBranch h).On (branch h) :=
  ⟨fun _ => rfl, fun _ => ⟨rfl, rfl⟩⟩

/-- The node has the chain `0, 1` and fails the call number `4`: in a pass that comes from
`0, 2`, that of the audit behind the flags. -/
def auditFails : PassEnv forkTree :=
  plainEnv fun k => if k = 4 then ⟨branch 1, fun _ => true⟩ else onBranch 1

lemma on_auditFails : auditFails.On (branch 1) := by
  refine ⟨fun k => ?_, fun _ => ⟨rfl, rfl⟩⟩
  simp only [auditFails, plainEnv]
  split_ifs <;> rfl

/-- A pass has caught up with `0, 2`. -/
def caughtUpState : State ℕ ℕ :=
  State.start.afterPass plainConfig plainFormats (plainEnv fun _ => onBranch 2)

/-- The next one, over `0, 1`, has flagged the block `2` and failed. -/
def waitingState : State ℕ ℕ := caughtUpState.afterPass plainConfig plainFormats auditFails

/-- The next one has caught up with `0, 1, 3`. -/
def recoveredState : State ℕ ℕ :=
  waitingState.afterPass plainConfig plainFormats (plainEnv fun _ => onBranch 3)

section

variable {allowed : Change T → Watched T → Prop}

lemma reach_pass (h : (watched cfg fmt T).Reach allowed ⟨s, Z, r⟩)
    (ha : allowed (.process (.pass env)) ⟨s, Z, r⟩) (hon : env.On Z) :
    (watched cfg fmt T).Reach allowed ⟨s.afterPass cfg fmt env, Z, r⟩ :=
  h.step ha (.process (i := .pass env) hon rfl .same)

/-- A pass that returns `True`, noted. -/
lemma reach_caughtUp (h : (watched cfg fmt T).Reach allowed ⟨s, Z, r⟩)
    (ha : allowed (.process (.pass env)) ⟨s, Z, r⟩) (hon : env.On Z)
    (hrun : (Program.finished (s.run cfg fmt env)).map Prod.fst = some true) :
    (watched cfg fmt T).Reach allowed
      ⟨s.afterPass cfg fmt env, Z, (s.afterPass cfg fmt env).disk.records⟩ := by
  obtain ⟨⟨b, w⟩, hr, rfl⟩ := Option.map_eq_some_iff.mp hrun
  rw [Program.finished_eq_some] at hr
  have hs : s.afterPass cfg fmt env = ⟨w.mem, w.disk, s.log ++ w.trace⟩ := by
    rw [State.afterPass, hr]
  refine h.step ha (.process (i := .pass env) hon rfl ?_)
  rw [hs]
  exact .caughtUp hr

lemma reach_reorg (h : (watched cfg fmt T).Reach allowed ⟨s, Z, r⟩)
    (ha : allowed (.reorg Z') ⟨s, Z, r⟩) (hd : reorgDepth Z Z' ≤ cfg.maxReorgDepth) :
    (watched cfg fmt T).Reach allowed ⟨s, Z', r⟩ :=
  h.step ha (.reorg hd)

end

lemma undisturbed_asIn (ha : s.AsIn r) (h0 : 0 ≤ Z'.tip - cfg.reorgConfirmations) :
    undisturbed cfg (.reorg Z') ⟨s, Z, r⟩ :=
  ⟨.inr ha, .inl h0⟩

/-- The process is as noted right after such a pass. -/
lemma State.asIn_records (hc : s.disk.current ≠ none)
    (hm : s.mem.status.entries = s.disk.status)
    (hi : ∀ row ∈ (IndexStore.loadRows s.disk.index).values,
      currentIndexSchemaVersion ≤ row.schemaVersion) : s.AsIn s.disk.records :=
  ⟨rfl, hm, fun x _ hrow => hi _ (Dict.mem_values_iff.mpr ⟨x, hrow⟩), fun hnone => absurd hnone hc⟩

end Ingest

end BtcParser
