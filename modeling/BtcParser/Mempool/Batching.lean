import BtcParser.Mempool.Answers

/-!
Events in one batch, and the same events in two.

`handle_events` decides once, from the state before the batch, which of the announced transactions
it fetches; the events are applied one after the other and change that state.

* `Steady` is a condition on `checked` and the events: no transaction is announced again behind an
  event that may take it out of `checked` or out of the store.
* `SameOutcome` compares two runs, and `Batches` is what batching is expected to be.
* `batches_of_steady`: for a steady batch it makes no difference where the batch is cut, in any
  state and with any answers.
-/

namespace BtcParser

variable {X H A : Type}

/-! ### Events -/

namespace SequenceEvent

/-- The event may take `x` out of `checked`. -/
def lifts (x : X) : SequenceEvent X H → Prop
  | .removed y => y = x
  | .connected _ => True
  | _ => False

/-- The event makes the watcher look at the depth of the confirmed entries. -/
def asksDepth : SequenceEvent X H → Bool
  | .connected _ => true
  | .disconnected _ => true
  | _ => false

end SequenceEvent

open SequenceEvent

/-- No transaction is announced behind an event that may have changed what is known of it: behind
an `R` of it or a `C`, when it was in `checked` before or has been announced before that event; or
behind the first `C` or `D`, when it has been announced before that one. -/
structure Steady (checked : Finset X) (events : List (SequenceEvent X H)) : Prop where
  known : ∀ x ∈ checked, ∀ e, e.lifts x → ¬ [e, .added x].Sublist events
  announced : ∀ x, x ∉ checked → ∀ e, e.lifts x → ¬ [.added x, e, .added x].Sublist events
  depth : ∀ x, x ∉ checked → .added x ∈ events.takeWhile (!·.asksDepth) →
    .added x ∉ events.dropWhile (!·.asksDepth)

lemma sublist_of_split {e : SequenceEvent X H} {x : X} {p q : List (SequenceEvent X H)}
    (hq : .added x ∈ q) : [e, .added x].Sublist (p ++ e :: q) :=
  (List.Sublist.cons_cons e (List.singleton_sublist.mpr hq)).trans (List.sublist_append_right p _)

lemma sublist_of_split' {e : SequenceEvent X H} {x : X} {p q : List (SequenceEvent X H)}
    (hp : .added x ∈ p) (hq : .added x ∈ q) :
    [.added x, e, .added x].Sublist (p ++ e :: q) := by
  show (([.added x] : List (SequenceEvent X H)) ++ [e, .added x]).Sublist (p ++ e :: q)
  exact (List.singleton_sublist.mpr hp).append
    (List.Sublist.cons_cons e (List.singleton_sublist.mpr hq))

/-- The first event of a steady batch that looks at the depth. -/
lemma Steady.first_depth {checked : Finset X} {p q : List (SequenceEvent X H)}
    {e : SequenceEvent X H} (h : Steady checked (p ++ e :: q)) {x : X} (hx : x ∉ checked)
    (hp : ∀ e ∈ p, e.asksDepth = false) (he : e.asksDepth = true) (hxp : .added x ∈ p) :
    .added x ∉ q := by
  have hquiet : ∀ e ∈ p, (!e.asksDepth) = true := fun e he => by simp [hp e he]
  have hdepth := h.depth x hx
  rw [List.takeWhile_append_of_pos hquiet, List.dropWhile_append_of_pos hquiet,
    List.takeWhile_cons_of_neg (by simp [he]), List.dropWhile_cons_of_neg (by simp [he]),
    List.append_nil] at hdepth
  exact fun hq => hdepth hxp (List.mem_cons_of_mem _ hq)

/-- The exports among what has happened. -/
def TraceItem.exported? : TraceItem X H A → Option (Exported X H A)
  | .exported e => some e
  | .forgotten _ _ => none

/-- What batching may not change. -/
def Watcher.outcome [DecidableEq X] (w : Watcher X H A) :
    List (Exported X H A) × FlaggedTxs X H A × Finset X × Finset X :=
  (w.trace.filterMap (·.exported?), w.store, w.checked, w.unfetched)

namespace MempoolWatch

open Program

/-- Both runs return, or both end with the same exception, and with the same outcome. -/
def SameOutcome [DecidableEq X] :
    EStateM.Result RpcFailure (Watcher X H A) Unit →
    EStateM.Result RpcFailure (Watcher X H A) Unit →
      Prop
  | .ok _ t, .ok _ u => t.outcome = u.outcome
  | .error f t, .error g u => f = g ∧ t.outcome = u.outcome
  | _, _ => False

variable [LinearOrder X] {cfg : MempoolWatchConfig} {env : WatchEnv X H A} {F : X → Fetched X A}

/-- What batching is expected to be: one call does what two calls do, and a transaction whose last
`A` or `R` is an `A` ends in `checked` or `unfetched`, unless a later block contains it. -/
structure Batches (cfg : MempoolWatchConfig) (env : WatchEnv X H A) (w : Watcher X H A)
    (e₁ e₂ : List (SequenceEvent X H)) : Prop where
  same : SameOutcome (handleEvents cfg env (e₁ ++ e₂) w)
    ((handleEvents cfg env e₁ >>= fun _ => handleEvents cfg env e₂) w)
  covered : ∀ t, handleEvents cfg env (e₁ ++ e₂) w = .ok () t →
    ∀ x p q, e₁ ++ e₂ = p ++ .added x :: q → .removed x ∉ q →
      (∀ h, .connected h ∈ q → ∀ b, (env.node 0).getBlockTxids h = .ok b → x ∉ b.2.2) →
      x ∈ t.checked ∨ x ∈ t.unfetched

/-! ### What the events do -/

/-- The block of a confirmed entry is neither deep nor gone. -/
def Shallow (cfg : MempoolWatchConfig) (env : WatchEnv X H A) (e : FlaggedTx X H A) : Prop :=
  ∀ h height, e.status = .confirmed h height →
    ∃ c, (env.node 0).getBlockHeader h = .ok c ∧ c ≠ -1 ∧ c < cfg.forgetAfterConfirmations

/-- Looking at the depth changes nothing. -/
def AllShallow (cfg : MempoolWatchConfig) (env : WatchEnv X H A) (w : Watcher X H A) : Prop :=
  ∀ x e, w.store.get x = some e → Shallow cfg env e

omit [LinearOrder X] in
lemma shallow_of_inMempool {e : FlaggedTx X H A} (h : e.status = .inMempool) :
    Shallow cfg env e := by
  intro b height hb
  rw [h] at hb
  cases hb

/-- The entry of a transaction that has been added: the old one, or a new one that waits. -/
lemma get_add_self (w : Watcher X H A) (x : X) (tx : RawTx X A) (rows : List (MatchRow A))
    (source : WatchSource) :
    rows = [] ∧ (w.add x tx rows source).store.get x = w.store.get x
      ∨ ∃ e, (w.add x tx rows source).store.get x = some e
        ∧ (w.store.get x = some e ∨ e.status = .inMempool) := by
  rw [Watcher.add]
  simp only
  split_ifs with h
  · rw [Bool.or_eq_true, List.isEmpty_iff, Keyed.contains_iff] at h
    rcases h with h | ⟨e, he⟩
    · exact .inl ⟨h, rfl⟩
    · exact .inr ⟨e, he, .inl he⟩
  · refine .inr ⟨_, (Watcher.get_put _ _ _).trans (if_pos rfl), .inr rfl⟩

/-- Nothing happens to a transaction that is checked, and is on record if it has to be. -/
lemma add_eq_self {w : Watcher X H A} {x : X} (hx : x ∈ w.checked) {rows : List (MatchRow A)}
    (hr : rows = [] ∨ ∃ e, w.store.get x = some e) (tx : RawTx X A) (source : WatchSource) :
    w.add x tx rows source = w := by
  have hif : (rows.isEmpty || w.store.contains x) = true := by
    rw [Bool.or_eq_true, List.isEmpty_iff, Keyed.contains_iff]
    exact hr
  rw [Watcher.add]
  simp only
  rw [if_pos hif, Finset.insert_eq_self.mpr hx]

/-- After a look at the depth, the next one changes nothing. -/
lemma checkConfirmedDepth_settles (hc : env.Constant) (w : Watcher X H A) :
    Triple (· = w) (checkConfirmedDepth cfg env)
      (fun _ t => (t.checked = w.checked ∧ t.unfetched = w.unfetched) ∧ AllShallow cfg env t
        ∧ ∀ x e, w.store.get x = some e → Shallow cfg env e → t.store.get x = some e)
      fun _ _ => True := by
  -- the entries that are not shallow are still to come
  let I : List (FlaggedTx X H A) → Watcher X H A → Prop := fun l t =>
    (t.checked = w.checked ∧ t.unfetched = w.unfetched)
      ∧ (∀ x e, t.store.get x = some e → Shallow cfg env e ∨ e ∈ l)
      ∧ ∀ x e, w.store.get x = some e → Shallow cfg env e → t.store.get x = some e
  refine (checkConfirmedDepth_rule (I := I) (E := fun _ => True) (fun e l t t' hI hcur hstep => ?_)
    fun _ _ _ => trivial).weaken ?_ (fun _ t hI => ⟨hI.1, fun x e hx => ?_, hI.2.2⟩) fun _ _ h => h
  · obtain ⟨⟨hchecked, hunfetched⟩, hshallow, hkept⟩ := hI
    have hsets := hstep.sets
    have hhead := hcur.head
    refine ⟨⟨hsets.1.trans hchecked, hsets.2.trans hunfetched⟩, fun x e' hx => ?_,
      fun x e' hx hs => ?_⟩
    · by_cases hxe : x = e.txid
      · subst hxe
        left
        cases hstep with
        | waiting hs =>
            rw [hhead] at hx
            cases hx
            exact shallow_of_inMempool hs
        | shallow hs hcall hne hlt =>
            rw [show (t.tick 1).store = t.store from rfl, hhead] at hx
            cases hx
            intro h height hh
            rw [hs] at hh
            cases hh
            exact ⟨_, hc.node t.calls ▸ hcall, hne, hlt⟩
        | left hs _ =>
            rw [Watcher.get_unconfirm, if_pos rfl] at hx
            cases hx
            exact shallow_of_inMempool rfl
        | deep hs _ _ _ =>
            rw [Watcher.get_forget, if_pos rfl] at hx
            cases hx
      · rw [hstep.get_ne x hxe] at hx
        refine (hshallow x e' hx).imp_right fun hmem => ?_
        rcases List.mem_cons.mp hmem with rfl | hmem
        · exact absurd (Keyed.key_of_get hx).symm hxe
        · exact hmem
    -- a shallow entry is left alone
    · have hold := hkept x e' hx hs
      -- the entry itself: what becomes of it, by what the node says
      by_cases hxe : x = e.txid
      · subst hxe
        rw [hhead] at hold
        cases hold
        cases hstep with
        | waiting => exact hhead
        | shallow => exact hhead
        | left hst hcall =>
            obtain ⟨c, hcall', hne, -⟩ := hs _ _ hst
            rw [hc.node, hcall', Except.ok.injEq] at hcall
            exact absurd hcall hne
        | deep hst hcall _ hle =>
            obtain ⟨c, hcall', -, hlt⟩ := hs _ _ hst
            rw [hc.node, hcall', Except.ok.injEq] at hcall
            exact absurd hle (hcall ▸ hlt).not_ge
      -- another one is as it was
      · rw [hstep.get_ne x hxe]
        exact hold
  · rintro t rfl
    refine ⟨⟨rfl, rfl⟩, fun x e hx => .inr (Keyed.mem_all.mpr ?_), fun _ _ hx _ => hx⟩
    rw [Keyed.key_of_get hx]
    exact hx
  · exact (hI.2.1 x e hx).resolve_right (by simp)

lemma onRemoved_sets (x : X) (w : Watcher X H A) :
    Triple (· = w) (onRemoved env x)
      (fun _ t => t.checked = w.checked.erase x ∧ t.unfetched = w.unfetched
        ∧ ∀ y, t.store.get y = w.store.get y ∨ y = x ∧ t.store.get y = none) fun _ _ => True := by
  rw [onRemoved]
  refine Triple.bind (triple_modify (Q := fun _ t => t = { w with checked := w.checked.erase x })
    fun t ht => by rw [ht]) fun _ => triple_get fun u hu => ?_
  subst hu
  have hsame : Triple (· = ({ w with checked := w.checked.erase x } : Watcher X H A))
      (pure () : Watch X H A Unit)
      (fun _ t => t.checked = w.checked.erase x ∧ t.unfetched = w.unfetched
        ∧ ∀ y, t.store.get y = w.store.get y ∨ y = x ∧ t.store.get y = none) fun _ _ => True :=
    triple_pure fun t ht => by
      subst ht
      exact ⟨rfl, rfl, fun y => .inl rfl⟩
  cases hx : w.store.get x with
  | none =>
      simp only
      exact hsame
  | some e =>
      simp only
      refine triple_ite (fun _ => ?_) fun _ => hsame
      refine (onLeftUnmined_triple e .zmq .removedFromMempool _).weaken (fun _ => id)
        (fun _ t ht => ?_) fun _ _ _ => trivial
      obtain ⟨n, y, rfl⟩ := ht
      refine ⟨?_, ?_, fun z => ?_⟩
      · cases y <;> exact Watcher.checked_remove _ _
      · cases y <;> exact Watcher.unfetched_remove _ _
      · rw [Watcher.get_leave]
        by_cases hz : z = e.txid
        · exact .inr ⟨hz.trans (Keyed.key_of_get hx), if_pos hz⟩
        · exact .inl (if_neg hz)

lemma onBlockConnected_sets (hc : env.Constant) (h : H) (w : Watcher X H A) :
    Triple (· = w) (onBlockConnected cfg env h)
      (fun _ t => AllShallow cfg env t ∧ ∃ b, (env.node 0).getBlockTxids h = .ok b
        ∧ t.checked = w.checked \ b.2.2.toFinset ∧ t.unfetched = w.unfetched \ b.2.2.toFinset)
      fun _ _ => True := by
  rw [onBlockConnected]
  refine ((rpc_triple _ w).weaken (fun _ => id) (fun _ _ => id) fun _ _ _ => trivial).bind
    fun b => triple_of_each fun t hbt => ?_
  obtain ⟨hb, ht⟩ := hbt
  subst ht
  rw [hc.node] at hb
  obtain ⟨height, c, txids⟩ := b
  refine Triple.bind (triple_modify
    (Q := fun _ t => t.checked = w.checked ∧ t.unfetched = w.unfetched)
    fun t ht => by rw [ht]; exact ⟨rfl, rfl⟩) fun _ => triple_get fun u hu => ?_
  -- the transactions fetched again are in the block
  let I : List X → Watcher X H A → Prop := fun l t => (∀ x ∈ l, x ∈ txids.toFinset)
    ∧ t.checked \ txids.toFinset = w.checked \ txids.toFinset ∧ t.unfetched = w.unfetched
  have hadd : ∀ x l, Triple (I (x :: l))
      (do onAdded x (← fetchAndMatch env x (some h)) .zmq) (fun _ => I l) fun _ _ => True := by
    intro x l
    refine Triple.bind (Q := fun _ => I (x :: l)) (((reads_fetchAndMatch x (some h)).triple
      (P := I (x :: l)) fun t n ht => ht).weaken (fun _ => id) (fun _ _ => id) fun _ _ _ => trivial)
      fun f t ht => ?_
    rw [onAdded_apply]
    refine ⟨fun y hy => ht.1 y (List.mem_cons_of_mem _ hy), ?_⟩
    cases f with
    | none => exact ht.2
    | some f =>
        rw [afterAdded, mem_checked_add, unfetched_add]
        exact ⟨(Finset.insert_sdiff_of_mem _ (ht.1 x List.mem_cons_self)).trans ht.2.1, ht.2.2⟩
  have hadds := triple_forM hadd (env.listing u.calls (u.unfetched ∩ txids.toFinset))
  refine Triple.bind ((hadds.weaken (fun t ht => ?_) (fun _ t ht => ht.2) fun _ _ h => h))
    fun _ => ?_
  · subst ht
    refine ⟨fun x hx => ?_, by rw [hu.1], hu.2⟩
    rw [env.mem_listing, Finset.mem_inter] at hx
    exact hx.2
  refine Triple.bind (triple_modify (Q := fun _ t => t.checked = w.checked \ txids.toFinset
    ∧ t.unfetched = w.unfetched \ txids.toFinset) fun t ht => ?_) fun _ => triple_get fun v hv => ?_
  · exact ⟨ht.1, by simp only [ht.2]⟩
  have hconfirm := triple_forM (I := fun _ t => t.checked = w.checked \ txids.toFinset
      ∧ t.unfetched = w.unfetched \ txids.toFinset) (E := fun _ _ => True)
    (f := confirmIfIn (A := A) txids.toFinset h height)
    (fun e _ => triple_of_each fun t ht => (confirmIfIn_triple _ h height e t).post fun _ s hs => by
      rw [hs]
      split_ifs
      · exact ht
      · exact ht) v.store.all
  refine Triple.bind (hconfirm.pre fun t ht => (show t = v from ht) ▸ hv) fun _ =>
    triple_of_each fun t ht => ?_
  refine (checkConfirmedDepth_settles hc t).post fun _ s hs => ⟨hs.2.1, _, hb, ?_, ?_⟩
  · exact hs.1.1.trans ht.1
  · exact hs.1.2.trans ht.2

/-- An `A`, as a function of the state; `f` is what has been fetched. -/
def afterAnnounced (x : X) (f : Option (Fetched X A)) (w : Watcher X H A) : Watcher X H A :=
  match f with
  | none => w
  | some none => { w with unfetched := insert x w.unfetched }
  | some (some (tx, rows)) => w.add x tx rows .zmq

lemma applyEvent_added (fs : List (X × Fetched X A)) (x : X) (w : Watcher X H A) :
    applyEvent cfg env fs (.added x) w = .ok () (afterAnnounced x (Dict.lookup fs x) w) := by
  rw [applyEvent]
  rcases Dict.lookup fs x with _ | (_ | f) <;> rfl

lemma afterAnnounced_other (x : X) (f : Option (Fetched X A)) (w : Watcher X H A) {y : X}
    (hy : y ≠ x) : (y ∈ (afterAnnounced x f w).checked ↔ y ∈ w.checked)
      ∧ (afterAnnounced x f w).store.get y = w.store.get y := by
  rcases f with _ | (_ | ⟨tx, rows⟩)
  · exact ⟨Iff.rfl, rfl⟩
  · exact ⟨Iff.rfl, rfl⟩
  · rw [afterAnnounced, mem_checked_add, Finset.mem_insert]
    exact ⟨or_iff_right hy, Watcher.get_add_ne w hy tx rows .zmq⟩

/-- What an event does to a transaction that it neither announces nor lifts. -/
lemma applyEvent_keeps (hc : env.Constant) {x : X} {e : SequenceEvent X H} (hl : ¬ e.lifts x)
    (ha : e ≠ .added x) (fs : List (X × Fetched X A)) (w : Watcher X H A) :
    Triple (· = w) (applyEvent cfg env fs e)
      (fun _ t => (x ∈ t.checked ↔ x ∈ w.checked) ∧ ∀ e', w.store.get x = some e' →
        Shallow cfg env e' ∨ e.asksDepth = false → t.store.get x = some e') fun _ _ => True := by
  cases e with
  | added y =>
      rintro t rfl
      rw [applyEvent_added]
      have hother := afterAnnounced_other y (Dict.lookup fs y) t (y := x) fun h => ha (by rw [h])
      exact ⟨hother.1, fun e' he' _ => hother.2.trans he'⟩
  | removed y =>
      have hne : x ≠ y := fun h => hl h.symm
      rw [applyEvent]
      refine Triple.bind (triple_modify
        (Q := fun _ t => t = { w with unfetched := w.unfetched.erase y }) fun t ht => by rw [ht])
        fun _ => (onRemoved_sets y _).post fun _ t ht => ⟨?_, fun e' he' _ => ?_⟩
      · rw [ht.1, Finset.mem_erase]
        exact and_iff_right hne
      · exact ((ht.2.2 x).resolve_right fun h => hne h.1).trans he'
  | connected h => exact absurd trivial hl
  | disconnected h =>
      refine (checkConfirmedDepth_settles hc w).post fun _ t ht => ⟨by rw [ht.1.1], ?_⟩
      exact fun e' he' hs => ht.2.2 x e' he' (hs.resolve_right (by simp [asksDepth]))
  | other =>
      refine triple_pure fun t ht => ?_
      subst ht
      exact ⟨Iff.rfl, fun _ h _ => h⟩

/-- Only an `A` puts a transaction into `checked`. -/
lemma applyEvent_checked (hc : env.Constant) {x : X} {e : SequenceEvent X H} (ha : e ≠ .added x)
    (fs : List (X × Fetched X A)) (w : Watcher X H A) :
    Triple (· = w) (applyEvent cfg env fs e) (fun _ t => x ∈ t.checked → x ∈ w.checked)
      fun _ _ => True := by
  by_cases hl : e.lifts x
  · cases e with
    | removed y =>
        rw [applyEvent]
        refine Triple.bind (triple_modify
          (Q := fun _ t => t = { w with unfetched := w.unfetched.erase y }) fun t ht => by rw [ht])
          fun _ => (onRemoved_sets y _).post fun _ t ht hx => ?_
        rw [ht.1] at hx
        exact Finset.mem_of_mem_erase hx
    | connected h =>
        refine (onBlockConnected_sets hc h w).post fun _ t ht hx => ?_
        obtain ⟨b, -, hchecked, -⟩ := ht.2
        rw [hchecked, Finset.mem_sdiff] at hx
        exact hx.1
    | _ => exact hl.elim
  · exact (applyEvent_keeps hc hl ha fs w).post fun _ t ht => ht.1.mp

/-- What looks at the depth settles the entries, and nothing else unsettles them. -/
lemma applyEvent_settled (hc : env.Constant) (e : SequenceEvent X H)
    (fs : List (X × Fetched X A)) (w : Watcher X H A)
    (h : e.asksDepth = true ∨ AllShallow cfg env w) :
    Triple (· = w) (applyEvent cfg env fs e) (fun _ => AllShallow cfg env) fun _ _ => True := by
  cases e with
  | added y =>
      have hs : AllShallow cfg env w := h.resolve_left (by simp [asksDepth])
      rintro t rfl
      rw [applyEvent_added]
      intro x e hx
      by_cases hxy : x = y
      · subst hxy
        rcases hf : Dict.lookup fs x with _ | (_ | ⟨tx, rows⟩)
        · rw [hf] at hx
          exact hs x e hx
        · rw [hf] at hx
          exact hs x e hx
        · rw [hf] at hx
          replace hx : (t.add x tx rows .zmq).store.get x = some e := hx
          rcases get_add_self t x tx rows .zmq with ⟨-, hold⟩ | ⟨e', he', hold⟩
          · exact hs x e (hold ▸ hx)
          · rw [he', Option.some.injEq] at hx
            subst hx
            exact hold.elim (hs x e') shallow_of_inMempool
      · rw [(afterAnnounced_other y _ t hxy).2] at hx
        exact hs x e hx
  | removed y =>
      have hs : AllShallow cfg env w := h.resolve_left (by simp [asksDepth])
      rw [applyEvent]
      refine Triple.bind (triple_modify
        (Q := fun _ t => t = { w with unfetched := w.unfetched.erase y }) fun t ht => by rw [ht])
        fun _ => (onRemoved_sets y _).post fun _ t ht x e hx => ?_
      rcases ht.2.2 x with hold | ⟨-, hnone⟩
      · exact hs x e (hold ▸ hx)
      · rw [hnone] at hx
        cases hx
  | connected b => exact (onBlockConnected_sets hc b w).post fun _ t ht => ht.1
  | disconnected b => exact (checkConfirmedDepth_settles hc w).post fun _ t ht => ht.2.1
  | other =>
      have hs : AllShallow cfg env w := h.resolve_left (by simp [asksDepth])
      exact triple_pure fun t ht => ht ▸ hs

/-! ### One half of a batch and the other -/

/-- What has been fetched of `x` is of no consequence, as long as its entry stays. -/
def Vouched (cfg : MempoolWatchConfig) (env : WatchEnv X H A) (F : X → Fetched X A) (x : X)
    (stays : Prop) (w : Watcher X H A) : Prop :=
  ∃ tx rows, F x = some (tx, rows)
    ∧ (rows = [] ∨ ∃ e, w.store.get x = some e ∧ (Shallow cfg env e ∨ stays))

/-- What is known after the events `p` of a steady batch, of the transactions announced among the
events `q` still to come. -/
structure Passed (cfg : MempoolWatchConfig) (env : WatchEnv X H A) (F : X → Fetched X A)
    (checked : Finset X) (p q : List (SequenceEvent X H)) (w : Watcher X H A) : Prop where
  known : ∀ x ∈ checked, .added x ∈ q → x ∈ w.checked
  announced : ∀ x, x ∉ checked → .added x ∈ q → x ∈ w.checked →
    .added x ∈ p ∧ Vouched cfg env F x (∀ e ∈ p, e.asksDepth = false) w
  settled : (∃ e ∈ p, e.asksDepth = true) → AllShallow cfg env w

/-- **The step lemma**: an event of a steady batch. -/
lemma Passed.step (hc : env.Constant) {checked : Finset X} {p q : List (SequenceEvent X H)}
    {e : SequenceEvent X H} (hs : Steady checked (p ++ e :: q)) {s : Finset X}
    (he : ∀ x, e = .added x → (x ∈ s ↔ x ∉ checked)) {w : Watcher X H A}
    (h : Passed cfg env F checked p (e :: q) w) :
    Triple (· = w) (applyEvent cfg env (fetches env F s) e)
      (fun _ => Passed cfg env F checked (p ++ [e]) q) fun _ _ => True := by
  -- the depths have been looked at once a block has come or gone
  have hsettled : Triple (· = w) (applyEvent cfg env (fetches env F s) e)
      (fun _ t => (∃ e' ∈ p ++ [e], e'.asksDepth = true) → AllShallow cfg env t)
      fun _ _ => True := by
    by_cases hdepth : ∃ e' ∈ p ++ [e], e'.asksDepth = true
    · refine (applyEvent_settled hc e _ w ?_).post fun _ t ht _ => ht
      obtain ⟨e', he', hd⟩ := hdepth
      rcases List.mem_append.mp he' with hp | hp
      · exact .inr (h.settled ⟨e', hp, hd⟩)
      · rw [List.mem_singleton] at hp
        exact .inl (hp ▸ hd)
    · exact triple_of_runs (fun _ _ _ _ _ h => absurd h hdepth) fun _ _ _ _ _ => trivial
  -- what happens to a transaction announced later
  have hother : ∀ x, .added x ∈ q → e ≠ .added x → (x ∈ checked ∨ .added x ∈ p) →
      Triple (· = w) (applyEvent cfg env (fetches env F s) e)
        (fun _ t => (x ∈ t.checked ↔ x ∈ w.checked) ∧ ∀ e', w.store.get x = some e' →
          Shallow cfg env e' ∨ e.asksDepth = false → t.store.get x = some e') fun _ _ => True := by
    intro x hq hne hx
    refine applyEvent_keeps hc (fun hl => ?_) hne _ w
    by_cases hcx : x ∈ checked
    · exact hs.known x hcx e hl (sublist_of_split hq)
    · exact hs.announced x hcx e hl (sublist_of_split' (hx.resolve_left hcx) hq)
  refine triple_of_runs (fun u _ t hu hr => ⟨fun x hx hq => ?_, fun x hx hq ht => ?_,
    hsettled.of_ok hu hr⟩) fun _ _ _ _ _ => trivial
  -- known before the batch: it is not fetched, and its announcement changes nothing
  · have hxu : x ∈ u.checked := by
      rw [hu]
      exact h.known x hx (List.mem_cons_of_mem _ hq)
    -- announced in the batch
    by_cases hex : e = .added x
    · have hnone : Dict.lookup (fetches env F s) x = none := by
        rw [lookup_fetches, if_neg fun hxs => (he x hex).mp hxs hx]
      rw [hex, applyEvent_added, hnone] at hr
      cases hr
      exact hxu
    · have hkeeps := (hother x hq hex (.inl hx)).of_ok hu hr
      rw [hu] at hxu
      exact hkeeps.1.mpr hxu
  · subst hu
    by_cases hex : e = .added x
    · subst hex
      refine ⟨by simp, ?_⟩
      have hsome : Dict.lookup (fetches env F s) x = some (F x) := by
        rw [lookup_fetches, if_pos ((he x rfl).mpr hx)]
      rw [applyEvent_added, hsome] at hr
      cases hF : F x with
      | none =>
          rw [hF] at hr
          cases hr
          obtain ⟨-, tx, rows, hsomeF, -⟩ := h.announced x hx List.mem_cons_self ht
          rw [hF] at hsomeF
          cases hsomeF
      | some f =>
          obtain ⟨tx, rows⟩ := f
          rw [hF] at hr
          cases hr
          refine ⟨tx, rows, hF, ?_⟩
          -- no rows, or an entry: the old one or a new one
          rcases get_add_self u x tx rows .zmq with ⟨hrows, -⟩ | ⟨e', he', hold | hnew⟩
          · exact .inl hrows
          · refine .inr ⟨e', he', ?_⟩
            by_cases hquiet : ∃ e ∈ p, e.asksDepth = true
            · exact .inl (h.settled hquiet x e' hold)
            · right
              simp only [not_exists, not_and, Bool.not_eq_true] at hquiet
              rintro e he
              rcases List.mem_append.mp he with he | he
              · exact hquiet e he
              · rw [List.mem_singleton] at he
                rw [he]
                rfl
          · exact .inr ⟨e', he', .inl (shallow_of_inMempool hnew)⟩
    -- announced before this event, and again behind it
    · have hxu := (applyEvent_checked hc hex _ u).of_ok rfl hr ht
      obtain ⟨hp, tx, rows, hF, hv⟩ := h.announced x hx (List.mem_cons_of_mem _ hq) hxu
      have hkeeps := (hother x hq hex (.inr hp)).of_ok rfl hr
      refine ⟨List.mem_append_left _ hp, tx, rows, hF, hv.imp_right ?_⟩
      rintro ⟨e', he', hshallow | hquiet⟩
      · exact ⟨e', hkeeps.2 e' he' (.inl hshallow), .inl hshallow⟩
      · cases hd : e.asksDepth with
        | true => exact absurd hq (hs.first_depth hx hquiet hd hp)
        | false =>
            refine ⟨e', hkeeps.2 e' he' (.inr hd), .inr fun e'' he'' => ?_⟩
            rcases List.mem_append.mp he'' with he'' | he''
            · exact hquiet e'' he''
            · rw [List.mem_singleton] at he''
              rw [he'', hd]

/-- The run lemma: the events `e₁` of a steady batch `e₁ ++ e₂`. -/
lemma passed_applyEvents (hc : env.Constant) {e₁ e₂ : List (SequenceEvent X H)}
    {w : Watcher X H A} (hs : Steady w.checked (e₁ ++ e₂)) {s : Finset X}
    (hmem : ∀ x, .added x ∈ e₁ ++ e₂ → (x ∈ s ↔ x ∉ w.checked)) :
    Triple (· = w) (applyEvents cfg env F s e₁)
      (fun _ => Passed cfg env F w.checked e₁ e₂) fun _ _ => True := by
  have hrun := triple_forM (E := fun _ _ => True) (f := applyEvent cfg env (fetches env F s))
    (I := fun l t => ∃ p, p ++ l = e₁ ∧ Passed cfg env F w.checked p (l ++ e₂) t)
    (fun e l => triple_of_each fun t ⟨p, hp, ht⟩ => ?_) e₁
  · refine hrun.weaken (fun t ht => ⟨[], rfl, ?_⟩) (fun _ t ⟨p, hp, ht⟩ => ?_) fun _ _ h => h
    · rw [ht]
      exact ⟨fun _ hx _ => hx, fun _ hx _ hx' => absurd hx' hx, by simp⟩
    · rw [List.append_nil] at hp
      exact hp ▸ ht
  · have hevents : e₁ ++ e₂ = p ++ e :: (l ++ e₂) := by simp [← hp]
    rw [hevents] at hs hmem
    refine (Passed.step hc hs (fun x hx => hmem x (by simp [hx])) ht).post fun _ u hu => ?_
    exact ⟨p ++ [e], by simp [hp], hu⟩

/-- The transaction is announced once more among the events `q`, and nothing comes of it. -/
structure Repeats (cfg : MempoolWatchConfig) (env : WatchEnv X H A) (F : X → Fetched X A) (x : X)
    (q : List (SequenceEvent X H)) (w : Watcher X H A) : Prop where
  checked : x ∈ w.checked
  vouched : Vouched cfg env F x (.added x ∉ q.dropWhile (!·.asksDepth)) w
  unlifted : ∀ e, e.lifts x → ¬ [e, .added x].Sublist q

lemma Repeats.tail {x : X} {q : List (SequenceEvent X H)} {w : Watcher X H A}
    (h : Repeats cfg env F x (.added x :: q) w) : Repeats cfg env F x q w := by
  refine ⟨h.checked, ?_, fun e he hq => h.unlifted e he (hq.cons _)⟩
  have hv := h.vouched
  rwa [List.dropWhile_cons_of_pos (by rfl)] at hv

/-- Announcing it changes nothing. -/
lemma Repeats.afterAnnounced {x : X} {q : List (SequenceEvent X H)} {w : Watcher X H A}
    (h : Repeats cfg env F x q w) : afterAnnounced x (some (F x)) w = w := by
  obtain ⟨tx, rows, hF, hv⟩ := h.vouched
  rw [hF]
  exact add_eq_self h.checked (hv.imp_right fun ⟨e, he, _⟩ => ⟨e, he⟩) tx .zmq

lemma Repeats.step (hc : env.Constant) {x : X} {e : SequenceEvent X H}
    {q : List (SequenceEvent X H)} {w : Watcher X H A} (h : Repeats cfg env F x (e :: q) w)
    (hq : .added x ∈ q) (ha : e ≠ .added x) (fs : List (X × Fetched X A)) :
    Triple (· = w) (applyEvent cfg env fs e) (fun _ => Repeats cfg env F x q) fun _ _ => True := by
  have hl : ¬ e.lifts x := fun hl => h.unlifted e hl (sublist_of_split (p := []) hq)
  refine (applyEvent_keeps hc hl ha fs w).post fun _ t ht => ⟨ht.1.mpr h.checked, ?_,
    fun e' he' hq' => h.unlifted e' he' (hq'.cons _)⟩
  obtain ⟨tx, rows, hF, hv⟩ := h.vouched
  refine ⟨tx, rows, hF, hv.imp_right ?_⟩
  rintro ⟨e', he', hshallow | hstays⟩
  · exact ⟨e', ht.2 e' he' (.inl hshallow), .inl hshallow⟩
  · cases hd : e.asksDepth with
    | true =>
        rw [List.dropWhile_cons_of_neg (by simp [hd])] at hstays
        exact absurd (List.mem_cons_of_mem _ hq) hstays
    | false =>
        rw [List.dropWhile_cons_of_pos (by simp [hd])] at hstays
        exact ⟨e', ht.2 e' he' (.inr hd), .inr hstays⟩

/-- What is fetched in excess has no consequences. -/
lemma applyEvents_eq (hc : env.Constant) {s s' : Finset X} {q : List (SequenceEvent X H)}
    {w : Watcher X H A} (hsub : ∀ x, .added x ∈ q → x ∈ s' → x ∈ s)
    (hrep : ∀ x, .added x ∈ q → x ∈ s → x ∉ s' → Repeats cfg env F x q w) :
    applyEvents cfg env F s q w = applyEvents cfg env F s' q w := by
  induction q generalizing w with
  | nil => rfl
  | cons e q ih =>
      have hevent : applyEvent cfg env (fetches env F s) e w
          = applyEvent cfg env (fetches env F s') e w := by
        by_cases hex : ∃ x, e = .added x
        · obtain ⟨x, rfl⟩ := hex
          have hx : SequenceEvent.added x ∈ (.added x :: q : List (SequenceEvent X H)) :=
            List.mem_cons_self
          rw [applyEvent_added, applyEvent_added, lookup_fetches, lookup_fetches]
          by_cases hs : x ∈ s
          · by_cases hs' : x ∈ s'
            · rw [if_pos hs, if_pos hs']
            · rw [if_pos hs, if_neg hs', (hrep x hx hs hs').afterAnnounced]
              rfl
          · rw [if_neg hs, if_neg fun hs' => hs (hsub x hx hs')]
        · rw [applyEvent_congr fun x hx => absurd ⟨x, hx⟩ hex]
      rw [applyEvents_cons, applyEvents_cons, bind_apply, bind_apply, hevent]
      cases hr : applyEvent cfg env (fetches env F s') e w with
      | error f t => rfl
      | ok a t =>
          refine ih (fun x hx => hsub x (List.mem_cons_of_mem _ hx)) fun x hx hs hs' => ?_
          have hrepeats := hrep x (List.mem_cons_of_mem _ hx) hs hs'
          by_cases hex : e = .added x
          · subst hex
            rw [applyEvent_added, lookup_fetches, if_neg hs'] at hr
            cases hr
            exact hrepeats.tail
          · exact (hrepeats.step hc hx hex _).of_ok rfl hr

/-- Between the two halves: what the second call fetches again is fetched in excess. -/
lemma Passed.repeats {checked : Finset X} {e₁ e₂ : List (SequenceEvent X H)}
    (hs : Steady checked (e₁ ++ e₂)) {w : Watcher X H A}
    (h : Passed cfg env F checked e₁ e₂ w) {x : X} (hx : .added x ∈ e₂) (hn : x ∉ checked)
    (hw : x ∈ w.checked) : Repeats cfg env F x e₂ w := by
  obtain ⟨hp, tx, rows, hF, hv⟩ := h.announced x hn hx hw
  refine ⟨hw, ⟨tx, rows, hF, hv.imp_right ?_⟩, fun e hl hq => ?_⟩
  · rintro ⟨e, he, hstays⟩
    refine ⟨e, he, hstays.imp_right fun hquiet => ?_⟩
    have hneg : ∀ e ∈ e₁, (!e.asksDepth) = true := fun e he => by simp [hquiet e he]
    have hdepth := hs.depth x hn
    rw [List.takeWhile_append_of_pos hneg, List.dropWhile_append_of_pos hneg] at hdepth
    exact hdepth (List.mem_append_left _ hp)
  · exact hs.announced x hn e hl ((List.singleton_sublist.mpr hp).append hq)

/-- A transaction stays in `checked` or `unfetched` until an `R` of it or a block with it. -/
lemma applyEvents_covers (hc : env.Constant) {x : X} {q : List (SequenceEvent X H)}
    (hr : .removed x ∉ q)
    (hb : ∀ h, .connected h ∈ q → ∀ b, (env.node 0).getBlockTxids h = .ok b → x ∉ b.2.2)
    (s : Finset X) :
    Triple (fun w => x ∈ w.checked ∨ x ∈ w.unfetched) (applyEvents cfg env F s q)
      (fun _ t => x ∈ t.checked ∨ x ∈ t.unfetched) fun _ _ => True := by
  have hrun := triple_forM (E := fun _ _ => True) (f := applyEvent cfg env (fetches env F s))
    (I := fun l t => (∀ e ∈ l, e ∈ q) ∧ (x ∈ t.checked ∨ x ∈ t.unfetched))
    (fun e l => triple_of_each fun w ⟨hl, hx⟩ => ?_) q
  · exact hrun.weaken (fun t ht => ⟨fun _ => id, ht⟩) (fun _ _ ht => ht.2) fun _ _ h => h
  · have he := hl e List.mem_cons_self
    have htail : ∀ e ∈ l, e ∈ q := fun e he => hl e (List.mem_cons_of_mem _ he)
    cases e with
    | added y =>
        rintro t rfl
        rw [applyEvent_added]
        refine ⟨htail, ?_⟩
        rcases Dict.lookup (fetches env F s) y with _ | (_ | ⟨tx, rows⟩)
        · exact hx
        · exact hx.imp_right (Finset.mem_insert_of_mem)
        · rw [MempoolWatch.afterAnnounced, mem_checked_add, unfetched_add]
          exact hx.imp_left (Finset.mem_insert_of_mem)
    | removed y =>
        have hne : x ≠ y := fun h => hr (h ▸ he)
        rw [applyEvent]
        refine Triple.bind (triple_modify
          (Q := fun _ t => t = { w with unfetched := w.unfetched.erase y }) fun t ht => by rw [ht])
          fun _ => (onRemoved_sets y _).post fun _ t ht => ⟨htail, ?_⟩
        rw [ht.1, ht.2.1, Finset.mem_erase, Finset.mem_erase]
        exact hx.imp (⟨hne, ·⟩) (⟨hne, ·⟩)
    | connected h =>
        refine (onBlockConnected_sets hc h w).post fun _ t ht => ⟨htail, ?_⟩
        obtain ⟨b, hbh, hchecked, hunfetched⟩ := ht.2
        have hxb : x ∉ b.2.2.toFinset := fun h' => hb h he b hbh (List.mem_toFinset.mp h')
        rw [hchecked, hunfetched, Finset.mem_sdiff, Finset.mem_sdiff]
        exact hx.imp (⟨·, hxb⟩) (⟨·, hxb⟩)
    | disconnected h =>
        refine (checkConfirmedDepth_settles hc w).post fun _ t ht => ⟨htail, ?_⟩
        rw [ht.1.1, ht.1.2]
        exact hx
    | other =>
        refine triple_pure fun t ht => ?_
        subst ht
        exact ⟨htail, hx⟩

/-- A transaction is in `checked` or `unfetched` when it has just been announced. -/
lemma covered_afterAnnounced {x : X} {s : Finset X} {w : Watcher X H A}
    (h : x ∉ s → x ∈ w.checked) :
    let t := afterAnnounced x (Dict.lookup (fetches env F s) x) w
    x ∈ t.checked ∨ x ∈ t.unfetched := by
  intro t
  rw [show t = afterAnnounced x (Dict.lookup (fetches env F s) x) w from rfl, lookup_fetches]
  by_cases hs : x ∈ s
  · rw [if_pos hs]
    cases F x with
    | none => exact .inr (Finset.mem_insert_self _ _)
    | some f =>
        left
        rw [MempoolWatch.afterAnnounced, mem_checked_add]
        exact Finset.mem_insert_self _ _
  · rw [if_neg hs]
    exact .inl (h hs)

/-- For a steady batch it makes no difference where it is cut. -/
theorem batches_of_steady (hc : env.Constant) {e₁ e₂ : List (SequenceEvent X H)}
    {w : Watcher X H A} (hs : Steady w.checked (e₁ ++ e₂)) : Batches cfg env w e₁ e₂ := by
  choose F hF using fun x => exists_yields_fetchAndMatch hc x none
  have hmem : ∀ x, SequenceEvent.added x ∈ e₁ ++ e₂ →
      (x ∈ addedTxids (e₁ ++ e₂) w ↔ x ∉ w.checked) := fun x hx => by
    rw [mem_addedTxids]
    exact and_iff_right hx
  obtain ⟨n, hn⟩ := handleEvents_apply cfg hc hF (e₁ ++ e₂) w
  set s := addedTxids (e₁ ++ e₂) w
  constructor
  · obtain ⟨n₁, hn₁⟩ := handleEvents_apply cfg hc hF e₁ w
    -- the first call fetches what the whole one does, as far as it asks for it
    have hfirst : applyEvents cfg env F (addedTxids e₁ w) e₁ = applyEvents cfg env F s e₁ :=
      applyEvents_congr fun x hx => by
        rw [mem_addedTxids, hmem x (List.mem_append_left _ hx)]
        exact and_iff_right hx
    rw [hfirst] at hn₁
    rw [hn, bind_apply, hn₁, applyEvents_append, bind_apply]
    cases hr : applyEvents cfg env F s e₁ w with
    | error f t => exact ⟨rfl, rfl⟩
    | ok a t =>
        have hpassed := (passed_applyEvents hc hs hmem).of_ok rfl hr
        obtain ⟨n₂, hn₂⟩ := handleEvents_apply cfg hc hF e₂ (t.tick n₁)
        -- the second call does not fetch again what is known, and what it does was asked in vain
        have hsecond : applyEvents cfg env F s e₂ t
            = applyEvents cfg env F (addedTxids e₂ t) e₂ t := by
          refine applyEvents_eq hc (fun x hx hx' => ?_) fun x hx hxs hx' => ?_
          · rw [hmem x (List.mem_append_right _ hx)]
            rw [mem_addedTxids] at hx'
            exact fun hk => hx'.2 (hpassed.known x hk hx)
          · rw [hmem x (List.mem_append_right _ hx)] at hxs
            rw [mem_addedTxids, not_and_not_right] at hx'
            exact hpassed.repeats hs hx hxs (hx' hx)
        show SameOutcome (mapState (·.tick n) (applyEvents cfg env F s e₂ t))
          (handleEvents cfg env e₂ (t.tick n₁))
        rw [hn₂, addedTxids_tick, commutes_applyEvents n₁ hc _ e₂ t, hsecond]
        cases applyEvents cfg env F (addedTxids e₂ t) e₂ t with
        | ok b u => rfl
        | error f u => exact ⟨rfl, rfl⟩
  -- an announced transaction is checked in the end, or waits to be fetched
  · intro t ht x p q hpq hr hb
    rw [hn] at ht
    obtain ⟨u, hu, rfl⟩ := mapState_ok ht
    rw [hpq] at hs hu hmem
    rw [applyEvents_append, bind_apply] at hu
    cases hv : applyEvents cfg env F s p w with
    | error f v =>
        rw [hv] at hu
        cases hu
    | ok a v =>
        have hpassed := (passed_applyEvents hc hs hmem).of_ok rfl hv
        rw [hv] at hu
        simp only [applyEvents_cons, bind_apply, applyEvent_added] at hu
        show x ∈ u.checked ∨ x ∈ u.unfetched
        refine (applyEvents_covers hc hr hb s).of_ok (covered_afterAnnounced fun hx => ?_) hu
        have hk := (hmem x (by simp)).not.mp hx
        rw [not_not] at hk
        exact hpassed.known x hk List.mem_cons_self

end MempoolWatch

end BtcParser
