import BtcParser.Ingest.FixedChain

/-!
Where the active chain may change during a pass.

The sequential path of the loop asks `getblockhash` for one height after the other, and takes every
answer for the successor of the block before. A `Lookup` is such a call, with the node that answers
it and the node that the loop has the height below from: the one before in the loop, a worker, or
the comparison of `current.csv` with the live chain.

* `forwardLookups`, `catchUpLookups`, `proceedLookups` and `State.lookups` follow the text of the
  pass and list its lookups.
* `settled` is the condition: between the two answers of a lookup, the chain has not changed at the
  height below. It may change above, at any time, and at all heights where a worker has fetched the
  block or the pointer is still to be compared.
* `linked_of_settled`: then every block taken up is linked.
* `current_rooted` is the result, and `current_not_rooted` the run that goes wrong: the chain
  changes between two `getblockhash` calls of one pass.
-/

namespace BtcParser

open Program

variable {H ρ : Type} {T : BlockTree H ρ}

namespace Ingest

/-- A `getblockhash` of the loop for the height above this one: the node that the block of this
height is from, and the node that answers. -/
structure Lookup (T : BlockTree H ρ) where
  height : ℤ
  before : Node T
  now : Node T

/-- The chain has the same block at the height in both answers. -/
def Lookup.Settled (q : Lookup T) : Prop :=
  q.now.chain.hashAt q.height = q.before.chain.hashAt q.height

variable [DecidableEq H]

instance (q : Lookup T) : Decidable q.Settled := inferInstanceAs (Decidable (_ = _))

section Lookups

variable (cfg : RpcConfig) (fmt : Formats H ρ) (env : PassEnv T)

/-- The lookups of `forward`; the block of the height before it is from the node `before`. -/
def forwardLookups (g : Goal) :
    ℕ → Option Prefetch → Node T → Loop H ρ → World H ρ → List (Lookup T)
  | 0, _, _, _, _ => []
  | n + 1, prefetched, before, l, w =>
      let height := l.height + 1
      if env.stop height then []
      else
        match (if height ≤ g.parallelEnd then prefetched else none) with
        | some p =>
            onSuccess (nextParsed cfg env p w) fun bp w =>
              if l.hash ≠ none ∧ bp.1.previousblockhash ≠ l.hash then []
              else
                onSuccess (processPrefetched height bp.1 l w) fun l w =>
                  onSuccess (checkpointIfDue cfg fmt env g l w) fun l w =>
                    forwardLookups g n (if height = g.parallelEnd then none else some bp.2)
                      (env.worker height).1 l w
        | none =>
            let now := env.node w.calls
            ⟨l.height, before, now⟩ ::
              onSuccess (processHeight env height l w) fun l w =>
                onSuccess (checkpointIfDue cfg fmt env g l w) fun l w =>
                  forwardLookups g n prefetched now l w

/-- The lookups of `catchUp`. -/
def catchUpLookups (tip latest : ℤ) (before : Node T) (p : Pointer H) (w : World H ρ) :
    List (Lookup T) :=
  onSuccess (headerTime env p.2 w) fun prevTime w =>
    let atomic := decide (latest - p.1 ≤ max (cfg.reorgConfirmations : ℤ) 1)
    let parallelEnd := min latest (tip - cfg.maxReorgDepth)
    let prefetched :=
      if 1 < cfg.catchupWorkers ∧ atomic = false
          ∧ (prefetchPerWorker * cfg.catchupWorkers : ℕ) < parallelEnd - p.1 then
        some (Prefetch.start (heightRange (p.1 + 1) (parallelEnd - p.1).toNat) cfg.catchupWorkers)
      else none
    forwardLookups cfg fmt env ⟨latest, parallelEnd, atomic⟩ (latest - p.1).toNat prefetched before
      ⟨p.1, p.2, prevTime, fun _ => [], 0⟩ w

/-- The node that has been found to have the pointer `p` on its chain. The comparison is the first
call of `resume`, made when `calls` calls had been made, and the walk of the recovery from there
makes one call a height. -/
def comparedBy (calls : ℕ) (current : Option (Pointer H)) (p : Pointer H) : Node T :=
  match current with
  | none => env.node calls
  | some (height, _) => env.node (calls + (height - p.1).toNat)

/-- The lookups of `proceed`. -/
def proceedLookups (tip latest : ℤ) (current : Option (Pointer H)) (w : World H ρ) :
    List (Lookup T) :=
  onSuccess (resume cfg env current w) fun p w' =>
    onSuccess (rewindToStale p w') fun q w' =>
      if latest ≤ q.1 then []
      else catchUpLookups cfg fmt env tip latest (comparedBy env w.calls current p) q w'

/-- The lookups of a pass from this state. -/
def State.lookups (s : State H ρ) : List (Lookup T) :=
  onSuccess (rpc env (·.getBlockCount) s.world) fun tip w =>
    let latest := tip - cfg.reorgConfirmations
    if latest < 0 then []
    else
      onSuccess (rpc env (·.getBlockHash latest) w) fun latestHash w =>
        onSuccess (store env (·.writeLatest (latest, some latestHash)) w) fun _ w =>
          onSuccess (readCurrent fmt env w) fun current w =>
            proceedLookups cfg fmt env tip latest current w

end Lookups

/-- In the passes of this step, the chain is settled below every lookup. -/
def settled (cfg : RpcConfig) (fmt : Formats H ρ) : Label T → State H ρ → Prop
  | .pass env, s => ∀ q ∈ s.lookups cfg fmt env, q.Settled
  | .crash env _, s => ∀ q ∈ s.lookups cfg fmt env, q.Settled
  | _, _ => True

/-! ### What the pass leaves in the trace -/

section Linked

variable {cfg : RpcConfig} {fmt : Formats H ρ} {env : PassEnv T} {w : World H ρ}

/-- No unlinked block has been taken up, and the blocks of `has` are indexed. -/
structure LinkedSo (T : BlockTree H ρ) (has : H → Prop) (w : World H ρ) : Prop where
  linked : w.All (EventLinked T)
  has : ∀ x, has x → w.mem.index.Has x

namespace LinkedSo

variable {has : H → Prop} (h : LinkedSo T has w)

section

include h

lemma consumed (cs : List (Kind × ℕ)) : LinkedSo T has (w.consumed cs) := ⟨h.linked, h.has⟩

lemma writeParts {format : Format (Row H ρ)} {atomic : Bool} {k : Kind} {rows : List (Row H ρ)} :
    LinkedSo T has (w.writeParts format atomic k rows) :=
  ⟨h.linked.writeParts (fun _ _ _ => trivial) trivial, by simpa using h.has⟩

lemma indexFlush {isFull : IndexPart H → Bool} : LinkedSo T has (w.indexFlush isFull) := by
  refine ⟨h.linked.indexFlush trivial fun _ => trivial, fun x hx => ?_⟩
  rw [World.indexFlush_mem]
  exact IndexStore.has_flush.mpr (h.has x hx)

lemma statusFlush : LinkedSo T has w.statusFlush :=
  ⟨h.linked.statusFlush trivial trivial, by simpa using h.has⟩

lemma writeCurrent (p : Pointer H) : LinkedSo T has (w.writeCurrent p) :=
  ⟨h.linked.writeCurrent trivial trivial, h.has⟩

end

variable (cfg fmt env)

include h

/-- The buffers are written. -/
lemma drain (atomic : Bool) (buffers : Kind → List (Row H ρ)) (ks : List Kind) :
    ∃ t, Ingest.drain fmt env atomic buffers ks w = .ok () t ∧ LinkedSo T has t := by
  induction ks generalizing w with
  | nil => exact ⟨w, rfl, h⟩
  | cons k ks ih => exact ih (h.consumed _).writeParts

/-- A checkpoint takes up no block. -/
lemma checkpointIfDue (g : Goal) (l : Loop H ρ) :
    ∃ l' t, Ingest.checkpointIfDue cfg fmt env g l w = .ok l' t ∧ LinkedSo T has t := by
  unfold Ingest.checkpointIfDue
  split_ifs
  · obtain ⟨t, ht, hl⟩ := h.drain fmt env g.atomic l.buffers Kind.all
    rw [checkpoint, bind_apply, ht]
    exact ⟨_, _, rfl,
      (((hl.consumed _).indexFlush.consumed _).statusFlush.consumed _).writeCurrent _⟩
  · exact ⟨l, w, rfl, h⟩

/-- Neither does the end of the pass. -/
lemma finish (g : Goal) (l : Loop H ρ) :
    (left (Ingest.finish fmt env g l w)).All (EventLinked T) := by
  obtain ⟨t, ht, hl⟩ := h.drain fmt env g.atomic l.buffers Kind.all
  rw [Ingest.finish, bind_apply, ht]
  cases l.hash with
  | none => exact (((hl.consumed _).indexFlush.consumed _).statusFlush).linked
  | some x =>
      exact ((((hl.consumed _).indexFlush.consumed _).statusFlush.consumed _).writeCurrent _).linked

end LinkedSo

omit [DecidableEq H] in
/-- A block that the node has next on its chain is linked, if the chain is settled below it and the
block there is known. -/
lemma Lookup.Settled.parent {q : Lookup T} (hs : q.Settled) {h p : H}
    (hh : q.now.chain.hashAt (q.height + 1) = some h) (hp : T.parent h = some p) :
    q.before.chain.hashAt q.height = some p := by
  have hheight := q.now.chain.height_of_hashAt hh
  have hpheight := T.height_of_parent hp
  have hmem := q.now.chain.parentClosed h p (q.now.chain.mem_of_hashAt hh) hp
  rw [← hs, ← q.now.chain.mem_iff.mp hmem]
  congr 1
  omega

/-- The block that `_process_height` takes up is the answer to its first call. -/
lemma processHeight_hash {n : ℤ} {l l' : Loop H ρ} {t : World H ρ}
    (h : processHeight env n l w = .ok l' t) : (env.node w.calls).getBlockHash n = l'.hash := by
  unfold processHeight at h
  simp only [bind_apply, rpc, get_apply] at h
  cases hh : (env.node w.calls).getBlockHash n with
  | none => simp only [hh, reduceCtorEq] at h
  | some x =>
      simp only [hh] at h
      cases hn : w.mem.index.needsExport x with
      | false =>
          simp only [hn, Bool.not_false, if_true, bind_apply, rpc] at h
          split at h <;> cases h
          rfl
      | true =>
          simp only [hn, Bool.not_true, Bool.false_eq_true, if_false, bind_apply, rpc] at h
          split at h <;> cases h
          rfl

omit [DecidableEq H] in
/-- The successor of a pointer without a block is of height `0`. -/
lemma PointerTrue.parent_of_last {n : ℤ} {hash : Option H} (hp : PointerTrue T (n, hash)) {h : H}
    (hh : T.height h = n + 1) (hlast : hash ≠ none → T.parent h = hash) : T.parent h = hash := by
  cases hash with
  | none =>
      have hn : n = -1 := hp
      exact T.parent_eq_none.mpr (by omega)
  | some p => exact hlast (by simp)

variable (cfg fmt env) in
/-- After a checkpoint the loop goes on with the index that it had. -/
lemma checkpointIfDue_linked {g : Goal} {l : Loop H ρ} {h : H} (hh : l.hash = some h)
    (hi : ChainInv T (.looping g l) w) (hl : w.All (EventLinked T)) :
    ∃ l' t, checkpointIfDue cfg fmt env g l w = .ok l' t ∧ l'.height = l.height
      ∧ ChainInv T (.looping g l') t ∧ LinkedSo T w.mem.index.Has t := by
  have hlinked : LinkedSo T w.mem.index.Has w := ⟨hl, fun _ hx => hx⟩
  obtain ⟨l', t, hr, ht⟩ := hlinked.checkpointIfDue cfg fmt env g l
  have hfollows : Follows (Step cfg fmt env) (.looping g l) (checkpointIfDue cfg fmt env g l) w
      (fun l' => .looping g l') .failed := follows_checkpointIfDue hh
  unfold Follows at hfollows
  rw [hr] at hfollows
  exact ⟨l', t, hr, (checkpointIfDue_ok hr).1,
    hfollows.invariant (I := ChainInv T) (fun _ _ _ _ => chainInv_step) hi, ht⟩

/-- The block that a node has at this height is indexed once it is taken up. -/
lemma has_takeBlock {N : Node T} {n : ℤ} {h : H} (hat : N.chain.hashAt n = some h) (l : Loop H ρ)
    (x : H) (hx : N.chain.hashAt n = some x) : (takeBlock T h l w).mem.index.Has x := by
  rw [hat, Option.some.injEq] at hx
  exact has_takeIndex.mpr (.inl hx.symm)

/-- What is asked of the rounds of the loop from a control point on. -/
def LoopLinked (cfg : RpcConfig) (fmt : Formats H ρ) (env : PassEnv T) (g : Goal) (n : ℕ) : Prop :=
  ∀ (pf : Option Prefetch) (before : Node T) (l : Loop H ρ) (w : World H ρ),
    g.latest = l.height + n → Feeds g l.height pf → ChainInv T (.looping g l) w →
    w.All (EventLinked T) → (∀ x, before.chain.hashAt l.height = some x → w.mem.index.Has x) →
    (∀ q ∈ forwardLookups cfg fmt env g n pf before l w, q.Settled) →
    (left (forward cfg fmt env g n pf l w)).All (EventLinked T)

variable {g : Goal} {n : ℕ} {l : Loop H ρ} {pf : Option Prefetch} {before : Node T}

/-- The loop goes on behind a block taken up. -/
lemma LoopLinked.next (ih : LoopLinked cfg fmt env g n) (hn : g.latest = l.height + 1 + n)
    (hp : Feeds g (l.height + 1) pf) {h : H} {index : IndexStore H}
    (hi : ChainInv T (.looping g (l.take T h index)) w) (hl : w.All (EventLinked T))
    (hb : ∀ x, before.chain.hashAt (l.height + 1) = some x → w.mem.index.Has x)
    (hs : ∀ q ∈ onSuccess (checkpointIfDue cfg fmt env g (l.take T h index) w)
      fun l w => forwardLookups cfg fmt env g n pf before l w, q.Settled) :
    (left ((checkpointIfDue cfg fmt env g (l.take T h index) >>= forward cfg fmt env g n pf)
      w)).All (EventLinked T) := by
  obtain ⟨l', t, hr, hheight, hi', ht⟩ :=
    checkpointIfDue_linked cfg fmt env (h := h) rfl hi hl
  have hheight' : l'.height = l.height + 1 := hheight
  rw [hr] at hs
  rw [bind_of_ok hr]
  exact ih pf before l' t (hheight' ▸ hn) (hheight' ▸ hp) hi' ht.linked
    (fun x hx => ht.has x (hb x (hheight' ▸ hx))) hs

/-- A round in which the block is fetched inline: its parent is the block that the node before had
at this height, by the condition. -/
lemma LoopLinked.inline (ih : LoopLinked cfg fmt env g n) (hn : g.latest = l.height + 1 + n)
    (hp : Feeds g (l.height + 1) pf) (hi : ChainInv T (.looping g l) w)
    (hl : w.All (EventLinked T))
    (hb : ∀ x, before.chain.hashAt l.height = some x → w.mem.index.Has x)
    (hsettled : Lookup.Settled ⟨l.height, before, env.node w.calls⟩)
    (hs : ∀ q ∈ onSuccess (processHeight env (l.height + 1) l w) fun l' t =>
      onSuccess (checkpointIfDue cfg fmt env g l' t) fun l' t =>
        forwardLookups cfg fmt env g n pf (env.node w.calls) l' t, q.Settled) :
    (left ((do
      let l ← processHeight env (l.height + 1) l
      let l ← checkpointIfDue cfg fmt env g l
      forward cfg fmt env g n pf l) w)).All (EventLinked T) := by
  have heq := processHeight_eq env l w
  cases hr : processHeight env (l.height + 1) l w with
  | error f t =>
      rw [hr] at heq
      obtain ⟨c, rfl⟩ := heq
      rw [left_bind, hr]
      exact hl
  | ok l' t =>
      rw [hr] at heq hs
      obtain ⟨h, c, hh, rfl, rfl⟩ := heq
      have hat := Node.hashAt_of_getBlockHash (processHeight_hash hr)
      have hlinked : EventLinked T (.handled h l.hash w.mem.index : Event H ρ) :=
        eventLinked_of_has fun p hpar => hb p (hsettled.parent hat hpar)
      have hstep : Step cfg fmt env (.looping g l) w
          (.looping g (l.take T h w.mem.index)) (takeBlock T h l w) :=
        .process (by omega) hh
      have htick : Step cfg fmt env (.looping g (l.take T h w.mem.index)) (takeBlock T h l w)
          (.looping g (l.take T h w.mem.index)) { takeBlock T h l w with calls := c } := .tick c
      rw [bind_of_ok hr]
      exact ih.next hn hp (chainInv_step (chainInv_step hi hstep) htick) (hl.push rfl hlinked)
        (has_takeBlock hat l) hs

/-- A round in which a worker has fetched the block: the loop has looked at its parent itself. -/
lemma LoopLinked.prefetched (ih : LoopLinked cfg fmt env g n) (hn : g.latest = l.height + 1 + n)
    {p : Prefetch} (hp : Feeds g l.height (some p)) (hle : l.height + 1 ≤ g.parallelEnd)
    (hi : ChainInv T (.looping g l) w) (hl : w.All (EventLinked T))
    (hs : ∀ q ∈ onSuccess (nextParsed cfg env p w) fun bp t =>
      if l.hash ≠ none ∧ bp.1.previousblockhash ≠ l.hash then []
      else
        onSuccess (processPrefetched (l.height + 1) bp.1 l t) fun l' t =>
          onSuccess (checkpointIfDue cfg fmt env g l' t) fun l' t =>
            forwardLookups cfg fmt env g n
              (if l.height + 1 = g.parallelEnd then none else some bp.2)
              (env.worker (l.height + 1)).1 l' t, q.Settled) :
    (left ((do
      let (b, p) ← nextParsed cfg env p
      if l.hash ≠ none ∧ b.previousblockhash ≠ l.hash then pure l
      else
        let l' ← processPrefetched (l.height + 1) b l
        let l' ← checkpointIfDue cfg fmt env g l'
        forward cfg fmt env g n (if l.height + 1 = g.parallelEnd then none else some p) l')
      w)).All (EventLinked T) := by
  have hparsed := nextParsed_ok env cfg.catchupWorkers_pos hp hle w
  cases hr : nextParsed cfg env p w with
  | error f t =>
      rw [hr] at hparsed
      rw [left_bind, hr]
      exact hparsed ▸ hl
  | ok bp t =>
      obtain ⟨b, p'⟩ := bp
      rw [hr] at hparsed hs
      obtain ⟨rfl, hfetched, hp'⟩ := hparsed
      obtain ⟨h, hh, rfl⟩ := fetchAndParse_ok hfetched
      rw [bind_of_ok hr]
      -- a block that does not fit is not taken up
      by_cases hlink : l.hash ≠ none ∧ (T.block h).previousblockhash ≠ l.hash
      · simp only [hlink, ne_eq, not_false_eq_true, and_self, if_true]
        exact hl
      · simp only [hlink, if_false, onSuccess] at hs ⊢
        rw [processPrefetched_eq] at hs
        rw [bind_of_ok (processPrefetched_eq l t h)]
        -- the workers compare the parent, so no lookup is needed for it
        have hlast : l.hash ≠ none → T.parent h = l.hash := fun hne => by
          by_contra hpar
          exact hlink ⟨hne, hpar⟩
        have hstep : Step cfg fmt env (.looping g l) t
            (.looping g (l.take T h t.mem.index)) (takeBlock T h l t) :=
          .prefetched (by omega) hh hlast
        have hlinked : EventLinked T (.handled h l.hash t.mem.index : Event H ρ) :=
          eventLinked_of_parent (hi.1.point.1.parent_of_last hh.height hlast) _
        refine ih.next hn ?_ (chainInv_step hi hstep) (hl.push rfl hlinked)
          (has_takeBlock (Node.hashAt_of_getBlockHash hh) l) hs
        split_ifs
        · exact feeds_none _ _
        · exact hp'

variable (cfg fmt env) in
/-- **The loop** takes up linked blocks only, if the chain is settled below its lookups and the
block that it starts from is known. -/
lemma linked_forward (g : Goal) (n : ℕ) : LoopLinked cfg fmt env g n := by
  induction n with
  | zero => exact fun _ _ _ _ _ _ _ hl _ _ => hl
  | succ n ih =>
      intro pf before l w hn hp hi hl hb hs
      replace hn : g.latest = l.height + 1 + n := by push_cast at hn; omega
      unfold forward
      unfold forwardLookups at hs
      by_cases hstop : env.stop (l.height + 1) = true
      · simp only [hstop, if_true]
        exact hl
      simp only [hstop, if_false, Bool.false_eq_true] at hs ⊢
      cases hpf : (if l.height + 1 ≤ g.parallelEnd then pf else none) with
      | none =>
          simp only [hpf, List.mem_cons, forall_eq_or_imp] at hs
          refine ih.inline hn (fun p hpp => ?_) hi hl hb hs.1 hs.2
          -- a pool that is not used has no heights left
          obtain ⟨hv, hheights⟩ := hp p hpp
          have hge : ¬ l.height + 1 ≤ g.parallelEnd := fun hle => by simp [hle, hpp] at hpf
          rw [show (g.parallelEnd - l.height).toNat = 0 by omega] at hheights
          rw [show (g.parallelEnd - (l.height + 1)).toNat = 0 by omega]
          exact ⟨hv, hheights⟩
      | some p =>
          obtain ⟨hle, rfl⟩ : l.height + 1 ≤ g.parallelEnd ∧ pf = some p := by simpa using hpf
          simp only [hpf] at hs
          exact ih.prefetched hn hp hle hi hl hs

/-- The loop and the last checkpoint. -/
lemma linked_loop (hn : g.latest = l.height + n) (hp : Feeds g l.height pf)
    (hi : ChainInv T (.looping g l) w) (hl : w.All (EventLinked T))
    (hb : ∀ x, before.chain.hashAt l.height = some x → w.mem.index.Has x)
    (hs : ∀ q ∈ forwardLookups cfg fmt env g n pf before l w, q.Settled) :
    (left ((forward cfg fmt env g n pf l >>= finish fmt env g) w)).All (EventLinked T) := by
  have hloop := linked_forward cfg fmt env g n pf before l w hn hp hi hl hb hs
  cases hf : forward cfg fmt env g n pf l w with
  | error f u =>
      rw [left_bind, hf]
      rwa [hf] at hloop
  | ok l u =>
      rw [hf] at hloop
      rw [bind_of_ok hf]
      have hlinked : LinkedSo T (fun _ => False) u := ⟨hloop, fun _ => False.elim⟩
      exact hlinked.finish fmt env g l

/-- The blocks of a chain below an indexed one are indexed. -/
lemma has_below {index : IndexStore H} (hc : ParentClosed T.parent index.Has) {Z : ActiveChain T}
    {m n : ℤ} {h x : H} (hh : Z.hashAt n = some h) (hi : index.Has h) (hle : m ≤ n)
    (hx : Z.hashAt m = some x) : index.Has x := by
  have hm := Z.height_of_hashAt hx
  have hn := Z.height_of_hashAt hh
  exact hc.ancestor (Z.ancestor_of_le (Z.mem_of_hashAt hx) (Z.mem_of_hashAt hh) (by omega)) hi

/-- The loop with what is settled before it. -/
lemma linked_catchUp {tip latest : ℤ} {before : Node T} {p : Pointer H} (h : p.1 < latest)
    (hi : ChainInv T (.rewound latest p) w) (hl : w.All (EventLinked T))
    (hb : ∀ x, before.chain.hashAt p.1 = some x → w.mem.index.Has x)
    (hs : ∀ q ∈ catchUpLookups cfg fmt env tip latest before p w, q.Settled) :
    (left (catchUp cfg fmt env tip latest p w)).All (EventLinked T) := by
  unfold catchUp
  unfold catchUpLookups at hs
  have htime := headerTime_eq env p.2 w
  rw [left_bind]
  cases hr : headerTime env p.2 w with
  | error f t =>
      rw [hr] at htime
      obtain ⟨c, rfl⟩ := htime
      exact hl
  | ok prevTime t =>
      rw [hr] at htime hs
      obtain ⟨rfl, c, rfl⟩ := htime
      simp only [onSuccess] at hs
      set atomic := decide (latest - p.1 ≤ max (cfg.reorgConfirmations : ℤ) 1)
      set parallelEnd := min latest (tip - cfg.maxReorgDepth)
      have htick : Step cfg fmt env (.rewound latest p) w (.rewound latest p)
          { w with calls := c } := .tick c
      have henter : Step cfg fmt env (.rewound latest p) { w with calls := c }
          (.looping ⟨latest, parallelEnd, atomic⟩
            ⟨p.1, p.2, p.2.map fun h => (T.block h).blockTime, fun _ => [], 0⟩)
          { w with calls := c } := .enter (g := ⟨latest, parallelEnd, atomic⟩) h
      exact linked_loop (by simp only; omega) (feeds_start cfg _ _ _)
        (chainInv_step (chainInv_step hi htick) henter) hl hb hs

/-- The walk ends with the call whose answer is the common ancestor. -/
lemma walkBack_found {fuel : ℕ} {n : ℤ} {h : H} {w t : World H ρ}
    {r : List (ℤ × H) × List (ℤ × H) × (ℤ × H)} (hr : walkBack env fuel n h w = .ok r t) :
    r.2.2.1 ≤ n - 1
      ∧ (env.node (w.calls + (n - 1 - r.2.2.1).toNat)).chain.hashAt r.2.2.1 = some r.2.2.2 := by
  induction fuel generalizing n h w r with
  | zero => cases hr
  | succ fuel ih =>
      simp only [walkBack, bind_apply, get_apply] at hr
      cases hrow : w.mem.index.get h with
      | none =>
          simp only [hrow] at hr
          cases hr
      | some row =>
          simp only [hrow] at hr
          split_ifs at hr
          · cases hr
          cases hp : row.previousblockhash with
          | none =>
              simp only [hp] at hr
              cases hr
          | some p =>
              simp only [hp, bind_apply, rpc] at hr
              cases hl : (env.node w.calls).getBlockHash (n - 1) with
              | none =>
                  simp only [hl] at hr
                  cases hr
              | some live =>
                  simp only [hl] at hr
                  by_cases heq : live = p
                  · simp only [heq, if_true, pure_apply] at hr
                    cases hr
                    refine ⟨le_rfl, ?_⟩
                    simpa [heq] using Node.hashAt_of_getBlockHash hl
                  · simp only [heq, if_false, bind_apply] at hr
                    split at hr
                    · next r' u hw =>
                        obtain ⟨detached, lives, ancestor⟩ := r'
                        cases hr
                        obtain ⟨hle, hat⟩ := ih hw
                        simp only at hle hat ⊢
                        refine ⟨by omega, ?_⟩
                        rw [← hat]
                        congr 3
                        omega
                    · cases hr

/-- So does the recovery. -/
lemma recover_found {n : ℤ} {h : H} {w t : World H ρ} {a : ℤ × H}
    (hr : recoverFromReorg cfg env n h w = .ok a t) :
    a.1 ≤ n - 1 ∧ (env.node (w.calls + (n - 1 - a.1).toNat)).chain.hashAt a.1 = some a.2 := by
  rw [recoverFromReorg, bind_apply] at hr
  split at hr
  · next r u hw =>
      obtain ⟨detached, lives, ancestor⟩ := r
      simp only [bind_apply, modify_apply] at hr
      split at hr
      · cases hr
        exact walkBack_found hw
      · cases hr
  · cases hr

/-- The pointer a pass continues from is on the chain of the node that it was compared with. -/
lemma resume_compared {current : Option (Pointer H)} {p : Pointer H} {t : World H ρ}
    (hr : resume cfg env current w = .ok p t) (x : H) (hx : p.2 = some x) :
    (comparedBy env w.calls current p).chain.hashAt p.1 = some x := by
  cases current with
  | none =>
      cases hr
      cases hx
  | some c =>
      obtain ⟨n, hash⟩ := c
      simp only [resume, bind_apply, rpc] at hr
      cases hl : (env.node w.calls).getBlockHash n with
      | none =>
          simp only [hl] at hr
          cases hr
      | some live =>
          simp only [hl] at hr
          by_cases hlive : some live = hash
          · simp only [hlive, if_true, pure_apply] at hr
            cases hr
            simp only at hx
            rw [hx, Option.some.injEq] at hlive
            simpa [comparedBy, hlive] using Node.hashAt_of_getBlockHash hl
          · simp only [hlive, if_false] at hr
            cases hash with
            | none => cases hr
            | some h =>
                simp only [bind_apply] at hr
                split at hr
                · next ancestor u hrec =>
                    cases hr
                    cases hx
                    obtain ⟨hle, hat⟩ := recover_found hrec
                    simp only [comparedBy]
                    rw [← hat]
                    congr 3
                    simp only
                    omega
                · cases hr

/-- The program takes up no unlinked block. -/
def Quiet (T : BlockTree H ρ) {α : Type} (x : Pass H ρ α) : Prop :=
  ∀ w, w.All (EventLinked T) → (left (x w)).All (EventLinked T)

section Quiet

variable {α β : Type}

lemma Quiet.bind {x : Pass H ρ α} {y : α → Pass H ρ β} (hx : Quiet T x) (hy : ∀ a, Quiet T (y a)) :
    Quiet T (x >>= y) := by
  intro w hw
  have hleft := hx w hw
  rw [left_bind]
  cases hr : x w with
  | ok a t =>
      rw [hr] at hleft
      exact hy a t hleft
  | error f t =>
      rw [hr] at hleft
      exact hleft

lemma quiet_pure (a : α) : Quiet T (pure a : Pass H ρ α) := fun _ hw => hw

lemma quiet_throw (f : Fault H) : Quiet T (throw f : Pass H ρ α) := fun _ hw => hw

lemma quiet_get {y : World H ρ → Pass H ρ α} (hy : ∀ w, Quiet T (y w)) : Quiet T (get >>= y) :=
  fun w hw => hy w w hw

lemma quiet_modify {f : World H ρ → World H ρ} (hf : ∀ w, (f w).trace = w.trace) :
    Quiet T (modify f : Pass H ρ Unit) := by
  intro w hw e he
  rw [modify_apply, left, hf w] at he
  exact hw e he

variable (env) in
lemma quiet_rpc (ask : Node T → Option α) : Quiet T (rpc env ask) := by
  intro w hw
  rw [rpc]
  cases ask (env.node w.calls) <;> exact hw

lemma quiet_store {op : World H ρ → World H ρ}
    (hop : ∀ w : World H ρ, w.All (EventLinked T) → (op w).All (EventLinked T)) :
    Quiet T (store env op) := fun w hw => hop (w.consumed (env.consumer w.trace.length)) hw

lemma quiet_statusFlush : Quiet T (store env World.statusFlush) :=
  quiet_store fun _ hw => hw.statusFlush trivial trivial

variable (cfg env) in
/-- The comparison and the recovery take up no block. -/
lemma quiet_resume (current : Option (Pointer H)) : Quiet T (resume cfg env current) := by
  have hwalk : ∀ fuel n h, Quiet T (walkBack env fuel n h) := fun fuel n h w hw => by
    have heq := walkBack_eq env fuel n h w
    cases hr : walkBack env fuel n h w with
    | ok r t =>
        rw [hr] at heq
        obtain ⟨⟨k, rfl⟩, -⟩ := heq
        exact hw
    | error f t =>
        rw [hr] at heq
        obtain ⟨k, rfl⟩ := heq
        exact hw
  have haudit : ∀ lives n height, Quiet T (attachedRows env lives n height) :=
    fun lives n height w hw => by
      have heq := attachedRows_eq env lives n height w
      cases hr : attachedRows env lives n height w <;>
      · rw [hr] at heq
        obtain ⟨k, rfl⟩ := heq
        exact hw
  cases current with
  | none => exact quiet_pure _
  | some c =>
      obtain ⟨n, hash⟩ := c
      refine (quiet_rpc _ _).bind fun live => ?_
      split_ifs
      · exact quiet_pure _
      · cases hash with
        | none => exact quiet_throw _
        | some h =>
            refine Quiet.bind ?_ fun _ => quiet_pure _
            refine Quiet.bind (hwalk _ _ _) fun r => ?_
            refine Quiet.bind (quiet_modify fun _ => rfl) fun _ => ?_
            refine Quiet.bind (haudit _ _ _) fun rows => ?_
            refine Quiet.bind quiet_statusFlush fun _ => ?_
            exact Quiet.bind (quiet_store fun _ hw => hw.writeReorgLog trivial trivial)
              fun _ => quiet_pure _

/-- Neither does the rewind to an older schema. -/
lemma quiet_rewindToStale (p : Pointer H) : Quiet T (rewindToStale p : Pass H ρ (Pointer H)) := by
  refine quiet_get fun w => Quiet.bind (quiet_modify fun _ => rfl) fun _ => ?_
  split
  · exact quiet_pure _
  · split_ifs <;> exact quiet_pure _

variable (fmt env) in
lemma quiet_readCurrent : Quiet T (readCurrent fmt env) := by
  refine quiet_get fun w => ?_
  cases w.disk.current with
  | some p => exact quiet_pure _
  | none =>
      refine quiet_get fun w => ?_
      simp only
      cases seedTop env.tie (seedRows (w.disk.parts .blocks)) with
      | none => exact quiet_pure _
      | some top =>
          refine Quiet.bind (quiet_modify fun _ => rfl) fun _ => ?_
          exact Quiet.bind (quiet_store fun _ hw => hw.indexFlush trivial fun _ => trivial)
            fun _ => quiet_pure _

end Quiet

/-- The rewind goes down, and leaves the indexed blocks alone. -/
lemma rewindToStale_keeps {p q : Pointer H} {w t : World H ρ} (h : rewindToStale p w = .ok q t) :
    q.1 ≤ p.1 ∧ ∀ x, w.mem.index.Has x → t.mem.index.Has x := by
  have hhas : ∀ x, w.mem.index.Has x → w.mem.index.earliestStale.2.Has x := fun _ hx =>
    IndexStore.has_earliestStale.mpr hx
  simp only [rewindToStale, bind_apply, get_apply, modify_apply] at h
  cases hst : w.mem.index.earliestStale.1 with
  | none =>
    simp only [hst] at h
    cases h
    exact ⟨le_rfl, hhas⟩
  | some row =>
    simp only [hst] at h
    split_ifs at h with hlt
    · cases h
      exact ⟨hlt.le, hhas⟩
    · cases h
      exact ⟨le_rfl, hhas⟩

/-- **From the pointer on**: the blocks below it on the chain it was compared with are indexed, so
the first lookup finds a block whose parent is. -/
lemma linked_proceed {tip latest : ℤ} {current : Option (Pointer H)}
    (hi : ChainInv T (Point.found latest current) w) (hl : w.All (EventLinked T))
    (hs : ∀ q ∈ proceedLookups cfg fmt env tip latest current w, q.Settled) :
    (left (proceed cfg fmt env tip latest current w)).All (EventLinked T) := by
  have hstep : ∀ c w c' w', ChainInv T c w → Step cfg fmt env c w c' w' → ChainInv T c' w' :=
    fun _ _ _ _ => chainInv_step
  have hresume := quiet_resume cfg env current w hl
  have hfollows : Follows (Step cfg fmt env) (Point.found latest current) (resume cfg env current) w
      (fun p => .based latest p) .failed := follows_resume
  have hbased := hfollows.invariant hstep hi
  rw [proceedLookups] at hs
  rw [proceed]
  cases hr : resume cfg env current w with
  | error f t =>
      rw [hr] at hresume
      rw [left_bind, hr]
      exact hresume
  | ok p t =>
      rw [hr] at hresume hbased hs
      rw [bind_of_ok hr]
      have hcompared := resume_compared hr
      have hrewind := quiet_rewindToStale p t hresume
      have hfollows' : Follows (Step cfg fmt env) (.based latest p) (rewindToStale p) t
          (fun p => .rewound latest p) .failed := follows_rewindToStale
      have hrewound := hfollows'.invariant hstep hbased
      simp only [onSuccess] at hs
      cases hr' : rewindToStale p t with
      | error f u =>
          rw [hr'] at hrewind
          rw [left_bind, hr']
          exact hrewind
      | ok q u =>
          rw [hr'] at hrewind hrewound hs
          rw [bind_of_ok hr']
          obtain ⟨hle, hhas⟩ := rewindToStale_keeps hr'
          simp only at hs ⊢
          split_ifs at hs ⊢ with hdone
          · exact Quiet.bind (quiet_store fun _ hw => hw.writeCurrent trivial trivial)
              (fun _ => quiet_statusFlush.bind fun _ => quiet_pure _) u hrewind
          · refine linked_catchUp (by omega) hrewound hrewind (fun x hx => hhas x ?_) hs
            obtain ⟨hclosed, hindexed⟩ := hbased.2 hresume
            cases hp : p.2 with
            | none =>
                -- nothing is below height `0`
                have hlow : p.1 = -1 := by
                  have htrue := hbased.1.point.2
                  rwa [PointerTrue, hp] at htrue
                have hheight := ActiveChain.height_of_hashAt _ hx
                have hnonneg := T.height_nonneg x
                omega
            | some y => exact has_below hclosed.staged (hcompared y hp) (hindexed y hp) hle hx

omit [DecidableEq H] in
lemma rpc_ok {α : Type} {ask : Node T → Option α} {a : α} {w t : World H ρ}
    (h : rpc env ask w = .ok a t) : env.answers ask a ∧ t = { w with calls := w.calls + 1 } := by
  rw [rpc] at h
  cases ha : ask (env.node w.calls) with
  | none => simp only [ha, reduceCtorEq] at h
  | some b =>
      simp only [ha] at h
      cases h
      exact ⟨⟨_, ha⟩, rfl⟩

/-- From the height of the chain on. -/
lemma linked_look {tip : ℤ} (h0 : 0 ≤ tip - cfg.reorgConfirmations)
    (htip : env.answers (·.getBlockCount) tip) (hi : ChainInv T .start w)
    (hl : w.All (EventLinked T))
    (hs : ∀ q ∈ onSuccess (rpc env (·.getBlockHash (tip - cfg.reorgConfirmations)) w)
      fun latestHash w =>
        onSuccess (store env
          (·.writeLatest (tip - cfg.reorgConfirmations, some latestHash)) w) fun _ w =>
          onSuccess (readCurrent fmt env w) fun current w =>
            proceedLookups cfg fmt env tip (tip - cfg.reorgConfirmations) current w, q.Settled) :
    (left ((do
      let latestHash ← rpc env (·.getBlockHash (tip - cfg.reorgConfirmations))
      store env (·.writeLatest (tip - cfg.reorgConfirmations, some latestHash))
      let current ← readCurrent fmt env
      proceed cfg fmt env tip (tip - cfg.reorgConfirmations) current) w)).All (EventLinked T) := by
  have hstep : ∀ c w c' w', ChainInv T c w → Step cfg fmt env c w c' w' → ChainInv T c' w' :=
    fun _ _ _ _ => chainInv_step
  have hquiet := quiet_rpc env (·.getBlockHash (tip - cfg.reorgConfirmations)) w hl
  cases hr : rpc env (·.getBlockHash (tip - cfg.reorgConfirmations)) w with
  | error f t =>
      rw [left_bind, hr]
      rwa [hr] at hquiet
  | ok latestHash t =>
      rw [hr] at hquiet hs
      rw [bind_of_ok hr]
      obtain ⟨hhash, rfl⟩ := rpc_ok hr
      set v : World H ρ := { w with calls := w.calls + 1 }
      set u := (v.consumed (env.consumer v.trace.length)).writeLatest
        (tip - cfg.reorgConfirmations, some latestHash) with hu
      have hstored : store env (·.writeLatest (tip - cfg.reorgConfirmations, some latestHash)) v
          = .ok () u := rfl
      -- behind the first write the pass is where its lookups begin
      have hlooked : ChainInv T (.looked (tip - cfg.reorgConfirmations)) u :=
        hstep _ _ _ _ (hstep _ _ _ _ (hstep _ _ _ _ hi (.tick (w.calls + 1))) (.consume _))
          (.look htip h0 hhash)
      have hvlinked : (v.consumed (env.consumer v.trace.length)).All (EventLinked T) := hquiet
      have hlinked : u.All (EventLinked T) := hvlinked.writeLatest trivial trivial
      have hread := quiet_readCurrent fmt env u hlinked
      have hfollows : Follows (Step cfg fmt env) (.looked (tip - cfg.reorgConfirmations))
          (readCurrent fmt env) u (Point.found (tip - cfg.reorgConfirmations)) .failed :=
        follows_readCurrent
      have hfound := hfollows.invariant hstep hlooked
      simp only [onSuccess, hstored] at hs
      rw [bind_of_ok hstored]
      cases hr' : readCurrent fmt env u with
      | error f t =>
          rw [left_bind, hr']
          rwa [hr'] at hread
      | ok current t =>
          rw [hr'] at hread hfound hs
          rw [bind_of_ok hr']
          exact linked_proceed hfound hread hs

/-- **One pass** whose lookups are settled takes up linked blocks only. -/
lemma linked_runOnePass {s : State H ρ} (hi : ChainInv T .start s.world)
    (hs : ∀ q ∈ s.lookups cfg fmt env, q.Settled) :
    (left (runOnePass cfg fmt env s.world)).All (EventLinked T) := by
  have hl : s.world.All (EventLinked T) := fun e he => by cases he
  rw [State.lookups] at hs
  rw [runOnePass]
  have hquiet := quiet_rpc env (·.getBlockCount) s.world hl
  cases hr : rpc env (·.getBlockCount) s.world with
  | error f t =>
      rw [left_bind, hr]
      rwa [hr] at hquiet
  | ok tip t =>
      rw [hr] at hquiet hs
      rw [bind_of_ok hr]
      obtain ⟨htip, rfl⟩ := rpc_ok hr
      simp only [onSuccess] at hs
      split_ifs at hs ⊢ with h0
      · exact hquiet
      have htick : Step cfg fmt env .start s.world .start { s.world with calls := 1 } := .tick 1
      exact linked_look (by omega) htip (chainInv_step hi htick) hquiet hs

end Linked

/-- The blocks of a pass whose lookups are settled are linked. -/
lemma RestClosed.linked {cfg : RpcConfig} {fmt : Formats H ρ} {i : Label T} {s : State H ρ}
    (h : RestClosed T s) (hs : settled cfg fmt i s) : Ingest.linked cfg fmt i s := by
  have hpass : ∀ env : PassEnv T, (∀ q ∈ s.lookups cfg fmt env, q.Settled) →
      ∀ e ∈ s.trace cfg fmt env, EventLinked T e := by
    intro env hs e he
    have hrun := linked_runOnePass h.chainInv hs
    refine hrun e ?_
    unfold State.trace at he
    change e ∈ (left (s.run cfg fmt env)).trace
    cases hr : s.run cfg fmt env with
    | ok b w =>
        rw [hr] at he
        exact he
    | error f w =>
        rw [hr] at he
        exact he
  cases i with
  | pass env => exact hpass env hs
  | crash env n => exact hpass env hs
  | restart => trivial
  | consume k n => trivial

/-- In every run whose lookups are settled the files are true and closed, at every moment. -/
lemma restClosed_of_reach {cfg : RpcConfig} {fmt : Formats H ρ} {s : State H ρ}
    (h : (system cfg fmt T).Reach (settled cfg fmt) s) : RestClosed T s :=
  h.invariant (I := RestClosed T)
    (by rintro _ rfl; exact ⟨rest_load diskTrue_fresh _, diskClosed_fresh, by rintro e ⟨⟩⟩)
    fun _ _ _ hs ha hstep => restClosed_next hs (hs.linked ha) hstep

/-- **The chain of `current.csv` is complete in the index**, at every moment of every run in which
the chain is settled below every lookup. -/
theorem current_rooted (cfg : RpcConfig) (fmt : Formats H ρ) (s : State H ρ)
    (h : (system cfg fmt T).Reach (settled cfg fmt) s) :
    ∀ e ∈ s.log, ∀ d, e.disk? = some d → ∀ n hash, d.current = some (n, hash) →
      ∃ x, hash = some x ∧ Rooted (IndexStore.loadRows d.index) n x := by
  intro e he d hd n hash hcur
  obtain ⟨ht, hc⟩ := (restClosed_of_reach h).log e he d hd
  exact hc.rooted ht hcur

/-- The pass over `0, 1, 3`, and then over `0, 2, 4`: the second goes back to `0`, and while it is
in its loop a block comes on top. -/
theorem current_rooted_grows :
    let env := plainEnv fun k => if k < 8 then onBranch 4 else onBranch 6
    let pass (s : State ℕ ℕ) env := s.afterPass plainConfig plainFormats env
    let s := pass (pass .start (plainEnv fun _ => onBranch 3)) env
    ∃ e ∈ s.log, ∃ d, e.disk? = some d ∧ d.current = some (2, some 4)
      ∧ ∃ x, some 4 = some x ∧ Rooted (IndexStore.loadRows d.index) 2 x := by
  intro env pass s
  have hfirst : (system plainConfig plainFormats forkTree).Reach (settled plainConfig plainFormats)
      (State.start.afterPass plainConfig plainFormats (plainEnv fun _ => onBranch 3)) :=
    .step (i := .pass (plainEnv fun _ => onBranch 3)) (.init rfl)
      (show ∀ q ∈ _, Lookup.Settled q by decide +kernel) rfl
  have hreach : (system plainConfig plainFormats forkTree).Reach
      (settled plainConfig plainFormats) s :=
    .step (i := .pass env) hfirst (show ∀ q ∈ _, Lookup.Settled q by decide +kernel) rfl
  obtain ⟨e, he, hd⟩ : ∃ e ∈ s.log, (e.disk?.bind Disk.current) = some (2, some 4) := by
    decide +kernel
  obtain ⟨d, hd, hc⟩ := Option.bind_eq_some_iff.mp hd
  exact ⟨e, he, d, hd, hc, current_rooted _ _ s hreach e he d hd 2 (some 4) hc⟩

/-- The chain changes from `0, 2, 4` to `0, 1, 3` between the `getblockhash` of height `1` and
that of height `2`: the pass exports `0`, `2` and `3`, and `current.csv` names `3`, whose parent `1`
was never exported. -/
theorem current_not_rooted :
    ¬ ∀ s, (system plainConfig plainFormats forkTree).Reach anyStep s →
      ∀ e ∈ s.log, ∀ d, e.disk? = some d → ∀ n hash, d.current = some (n, hash) →
        ∃ x, hash = some x ∧ Rooted (IndexStore.loadRows d.index) n x := by
  intro h
  set env := plainEnv fun k => if k < 6 then onBranch 4 else onBranch 3
  have hreach : (system plainConfig plainFormats forkTree).Reach anyStep
      (State.start.afterPass plainConfig plainFormats env) :=
    .step (i := .pass env) (.init rfl) trivial rfl
  obtain ⟨e, he, hdec⟩ : ∃ e ∈ (State.start.afterPass plainConfig plainFormats env).log,
      (e.disk?.map fun d => (d.current,
        ((IndexStore.loadRows d.index).get? 3).map IndexRow.previousblockhash,
        (IndexStore.loadRows d.index).contains 1))
        = some (some (2, some 3), some (some 1), false) := by
    decide +kernel
  obtain ⟨d, hd, hcur⟩ := Option.map_eq_some_iff.mp hdec
  simp only [Prod.mk.injEq] at hcur
  obtain ⟨hcur, hrow, hmiss⟩ := hcur
  obtain ⟨x, hx, hr⟩ := h _ hreach e he d hd 2 (some 3) hcur
  cases hx
  obtain ⟨row, p, hget, hp, hc⟩ := hr.parent (by decide)
  rw [hget, Option.map_some, hp] at hrow
  cases hrow
  rw [hmiss] at hc
  cases hc

end Ingest

end BtcParser
