import BtcParser.Mempool.Lifecycle

/-!
Reconcile passes on a node that does not change.

A reconcile treats the missing transactions first and the confirmed ones last, so that what it finds
unconfirmed is left for the next one. `Settled` is a state in which a reconcile has nothing to do,
and `Checked` what any complete reconcile knows of the mempool afterwards.

* `reconcile_settles`: what a complete reconcile achieves from any state, and more if every
  confirmed entry named an active block before.
* `reconcile_settled`: from a settled state it changes nothing but the number of calls.
* `reconcile_converges` puts them together.
-/

namespace BtcParser

namespace MempoolWatch

open Program

variable {X H A : Type} [LinearOrder X] {cfg : MempoolWatchConfig} {env : WatchEnv X H A}
  {b : Bitcoind X H A} {c : TxChain X H} {w w' : Watcher X H A}

/-! ### States -/

/-- The hash is on the chain. -/
def OnActive (c : TxChain X H) (h : H) : Prop := ∃ n txids, c.blockAt n = some (h, txids)

/-- The hash is on the chain, and not as deep as `forget_after_confirmations`. -/
def OnShallow (cfg : MempoolWatchConfig) (c : TxChain X H) (h : H) : Prop :=
  ∃ n txids, c.blockAt n = some (h, txids) ∧ c.tip - n + 1 < cfg.forgetAfterConfirmations

/-- Every confirmed entry is confirmed by a block with the property `p`. -/
def ConfirmedBy (p : H → Prop) (w : Watcher X H A) : Prop :=
  ∀ x e h n, w.store.get x = some e → e.status = .confirmed h n → p h

/-- Every entry that is not confirmed has the property `p`. -/
def WaitingIn (p : X → Prop) (w : Watcher X H A) : Prop :=
  ∀ x e, w.store.get x = some e → e.status = .inMempool → p x

/-- What was checked is in the mempool, and what was not is not given out by the node. -/
structure Checked (b : Bitcoind X H A) (c : TxChain X H) (mempool : Finset X)
    (w : Watcher X H A) : Prop where
  tip : w.tipHeight = c.tip
  subset : w.checked ⊆ mempool
  rest : ∀ x ∈ mempool, x ∉ w.checked → b.getRawTransaction x none = .error .rpcError

/-- A reconcile has nothing to do. -/
structure Settled (cfg : MempoolWatchConfig) (b : Bitcoind X H A) (c : TxChain X H)
    (mempool : Finset X) (w : Watcher X H A) : Prop where
  checked : Checked b c mempool w
  waiting : WaitingIn (· ∈ mempool) w
  confirmed : ConfirmedBy (OnShallow cfg c) w

/-- Nothing but the number of calls has changed. -/
def Unchanged (w w' : Watcher X H A) : Prop := w' = { w with calls := w'.calls }

/-- The transaction was reported as unconfirmed between the two states. -/
def JustUnconfirmed (w w' : Watcher X H A) (x : X) : Prop :=
  ∃ e, .exported e ∈ w'.trace.drop w.trace.length ∧ e.tx.txid = x ∧ e.event = .unconfirmed

omit [LinearOrder X] in
lemma OnShallow.onActive {h : H} (hh : OnShallow cfg c h) : OnActive c h := by
  obtain ⟨n, txids, hb, -⟩ := hh
  exact ⟨n, txids, hb⟩

lemma unchanged_tick (h : Unchanged w w') (n : ℕ) : Unchanged w (w'.tick n) := by
  rw [Unchanged] at h ⊢
  rw [Watcher.tick, h]

/-! ### Fetching from a node that does not change -/

/-- A fetch gives nothing exactly if the node does not give the transaction out. -/
lemma fetchAndMatch_none (henv : ∀ n, env.node n = b) (x : X) :
    Triple (fun _ => True) (fetchAndMatch env x none)
      (fun f _ => f = none ↔ b.getRawTransaction x none = .error .rpcError) fun _ _ => True := by
  refine triple_of_runs (fun s f t _ hr => ?_) fun _ _ _ _ _ => trivial
  rw [fetchAndMatch, bind_apply, rpcCaught, henv] at hr
  cases hx : b.getRawTransaction x none with
  | error failure =>
      cases failure with
      | rpcError =>
          simp only [hx] at hr
          cases hr
          simp
      | rpcCliError =>
          simp only [hx] at hr
          cases hr
  | ok tx =>
      simp only [hx, bind_apply] at hr
      cases hm : matchTx env tx (s.tick 1) with
      | error g u =>
          rw [hm] at hr
          cases hr
      | ok rows u =>
          rw [hm] at hr
          cases hr
          simp

/-! ### From a settled state -/

lemma DepthStep.settled {e : FlaggedTx X H A} (h : DepthStep cfg env e w w')
    (henv : ∀ n, (env.node n).OnChain c) (he : w.store.get e.txid = some e)
    (hw : ConfirmedBy (OnShallow cfg c) w) : w' = w ∨ w' = w.tick 1 := by
  have hdepth : ∀ {h height k}, e.status = .confirmed h height →
      (env.node w.calls).getBlockHeader h = .ok k → 1 ≤ k ∧ k < cfg.forgetAfterConfirmations := by
    intro h height k hs hk
    obtain ⟨n, txids, hn, hlt⟩ := hw _ e h height he hs
    have := (henv _).active n h txids k hn hk
    have := (TxChain.bounds_of_blockAt hn).2
    omega
  cases h with
  | waiting => exact .inl rfl
  | shallow => exact .inr rfl
  | left hs hc => exact absurd (hdepth hs hc).1 (by omega)
  | deep hs hc _ hle => exact absurd (hdepth hs hc).2 (by omega)

/-- From a settled state a reconcile changes nothing. -/
lemma reconcile_settled {source : WatchSource} {mempool : List X} (henv : ∀ n, env.node n = b)
    (hb : b.OnChain c) (hm : b.getRawMempoolTxids = .ok mempool)
    (hw : Settled cfg b c mempool.toFinset w) :
    Triple (· = w) (reconcile cfg env source)
      (fun done t => done = true → Unchanged w t) fun _ _ => True := by
  have hchain : ∀ n, (env.node n).OnChain c := fun n => henv n ▸ hb
  have hrule := reconcile_rule cfg env source (P := (· = w))
    (E := fun _ => True)
    (G := fun x f => f = none ↔ b.getRawTransaction x none = .error .rpcError)
    (F := fun _ _ _ => True) (C := fun _ => True)
    (I := fun m l t => m = mempool.toFinset ∧ Unchanged w t
      ∧ ∀ x ∈ l, b.getRawTransaction x none = .error .rpcError)
    (J := fun m _ t => m = mempool.toFinset ∧ Unchanged w t) (K := fun _ _ t => Unchanged w t)
    ?_ (fetchAndMatch_none henv) (fun _ _ _ n h => ⟨h.1, unchanged_tick h.2.1 n, h.2.2⟩) ?_
    (fun _ _ h => ⟨h.1, h.2.1⟩) trivial (fun _ _ _ _ _ _ => by split <;> trivial) ?_
    (fun _ _ h => h.2) ?_ (fun _ _ _ => trivial) (fun _ _ _ _ => trivial)
    (fun _ _ _ _ _ => trivial) (fun _ _ _ _ => trivial)
  · refine hrule.post fun done t ht hdone => ?_
    subst hdone
    simpa using ht
  -- the snapshot is the mempool, and what is new in it cannot be fetched
  · rintro t m tip rfl hm' htip
    rw [henv] at hm' htip
    obtain rfl : mempool = m := Except.ok.inj (hm.symm.trans hm')
    refine ⟨rfl, ?_, fun x hx => ?_⟩
    · rw [Unchanged, reconcileStart, hb.count tip htip, ← hw.checked.tip,
        Finset.inter_eq_left.mpr hw.checked.subset]
      rfl
    · simp only [WatchEnv.mem_listing, Finset.mem_sdiff] at hx
      exact hw.checked.rest x hx.1 hx.2
  · rintro m x l t f ⟨rfl, hun, hl⟩ hf
    rw [hf.mpr (hl x List.mem_cons_self)]
    exact ⟨rfl, hun, fun y hy => hl y (List.mem_cons_of_mem _ hy)⟩
  · rintro m e l t t' ⟨rfl, hun⟩ hcur hstep
    refine ⟨rfl, ?_⟩
    have hget : w.store.get e.txid = some e := by
      rw [← hcur.head, hun]
    have hwait : e.status.isInMempool = true → e.txid ∈ mempool.toFinset := fun hs =>
      hw.waiting _ e hget (by
        cases hst : e.status with
        | inMempool => rfl
        | confirmed => simp [hst] at hs)
    -- a waiting entry is in the mempool, so the loop skips every entry
    cases hstep with
    | skipped => exact hun
    | found hs hx => exact absurd (hwait hs) hx
    | gone hs hx => exact absurd (hwait hs) hx
  · intro m e l t t' hun hcur hstep
    have hconf : ConfirmedBy (OnShallow cfg c) t := by
      rw [hun]
      exact hw.confirmed
    obtain rfl | rfl := hstep.settled hchain hcur.head hconf
    · exact hun
    · exact unchanged_tick hun 1

/-! ### From any state -/

lemma Checked.congr {mempool : Finset X} (h : Checked b c mempool w)
    (hc : w'.checked = w.checked) (ht : w'.tipHeight = w.tipHeight) : Checked b c mempool w' :=
  ⟨ht.trans h.tip, hc ▸ h.subset, hc ▸ h.rest⟩

lemma JustUnconfirmed.mono {w₀ : Watcher X H A} {x : X} (hx : JustUnconfirmed w₀ w x)
    (hlen : w₀.trace.length ≤ w.trace.length) (h : Changes cfg w w') : JustUnconfirmed w₀ w' x := by
  obtain ⟨e, he, hrest⟩ := hx
  obtain ⟨items, hitems⟩ := h.trace
  refine ⟨e, ?_, hrest⟩
  rw [hitems, List.drop_append_of_le_length hlen]
  exact List.mem_append_left _ he

variable (cfg) in
lemma length_le_of_changes {w₀ : Watcher X H A} (hlen : w₀.trace.length ≤ w.trace.length)
    (h : Changes cfg w w') : w₀.trace.length ≤ w'.trace.length := by
  obtain ⟨items, hitems⟩ := h.trace
  rw [hitems, List.length_append]
  omega

lemma MissingStep.checked_eq {F : FlaggedTx X H A → ℤ → Option (H × ℤ) → Prop}
    {source : WatchSource} {mempool : Finset X} {e : FlaggedTx X H A}
    (h : MissingStep F source mempool e w w') :
    w'.checked = w.checked ∧ w'.tipHeight = w.tipHeight := by
  cases h with
  | skipped => exact ⟨rfl, rfl⟩
  | found => exact ⟨rfl, rfl⟩
  | gone _ _ _ n y =>
      cases y <;>
      · simp only [Watcher.leave, Watcher.remove]
        split_ifs <;> exact ⟨rfl, rfl⟩

lemma DepthStep.checked_eq {e : FlaggedTx X H A} (h : DepthStep cfg env e w w') :
    w'.checked = w.checked ∧ w'.tipHeight = w.tipHeight := by
  cases h with
  | waiting => exact ⟨rfl, rfl⟩
  | shallow => exact ⟨rfl, rfl⟩
  | left => exact ⟨rfl, rfl⟩
  | deep =>
      simp only [Watcher.forget, Watcher.remove]
      split_ifs <;> exact ⟨rfl, rfl⟩

/-- What is known of the entries when `l` are still to come in the loop over the missing ones. -/
structure Resolving (c : TxChain X H) (mempool : Finset X) (active : Prop)
    (l : List (FlaggedTx X H A)) (w : Watcher X H A) : Prop where
  waiting : WaitingIn (fun x => x ∈ mempool ∨ x ∈ l.map (·.txid)) w
  confirmed : active → ConfirmedBy (OnActive c) w

lemma Resolving.step {mempool : Finset X} {active : Prop} {e : FlaggedTx X H A}
    {l : List (FlaggedTx X H A)} {source : WatchSource}
    (hw : Resolving c mempool active (e :: l) w) (hcur : Current (e :: l) w)
    (h : MissingStep (fun e tip found => Searched c e.txid (scanHeights cfg tip e) found) source
      mempool e w w') : Resolving c mempool active l w' := by
  have hother : ∀ y ≠ e.txid, ∀ e', w'.store.get y = some e' → w.store.get y = some e' :=
    fun y hy e' he' => h.get_ne y hy ▸ he'
  -- the entry itself is in the mempool, confirmed on the chain, or no longer there
  have hself : ∀ e', w'.store.get e.txid = some e' →
      (e'.status = .inMempool → e.txid ∈ mempool) ∧
      (active → ∀ h n, e'.status = .confirmed h n → OnActive c h) := by
    intro e' he'
    cases h with
    | skipped hskip =>
        rw [hcur.head] at he'
        cases he'
        exact ⟨fun hs => hskip (by rw [hs]; rfl),
          fun ha h n hs => hw.confirmed ha _ e h n hcur.head hs⟩
    | found _ _ hf =>
        rw [Watcher.get_markConfirmed, if_pos rfl] at he'
        cases he'
        refine ⟨nofun, fun _ h n hs => ?_⟩
        cases hs
        obtain ⟨-, ⟨txids, hb, -⟩, -⟩ := hf
        exact ⟨_, txids, hb⟩
    | gone =>
        rw [Watcher.get_leave, if_pos rfl] at he'
        cases he'
  refine ⟨fun y e' he' hs => ?_, fun ha y e' h n he' hs => ?_⟩
  · by_cases hy : y = e.txid
    · subst hy
      exact .inl ((hself e' he').1 hs)
    · refine (hw.waiting y e' (hother y hy e' he') hs).imp_right fun hmem => ?_
      simpa [hy] using hmem
  · by_cases hy : y = e.txid
    · subst hy
      exact (hself e' he').2 ha h n hs
    · exact hw.confirmed ha y e' h n (hother y hy e' he') hs

/-- What is known of the entries when `l` are still to come in the check of the depths. -/
structure Deciding (cfg : MempoolWatchConfig) (c : TxChain X H) (mempool : Finset X)
    (active : Prop) (w₀ : Watcher X H A) (l : List (FlaggedTx X H A)) (w : Watcher X H A) :
    Prop where
  waiting : WaitingIn (fun x => x ∈ mempool ∨ JustUnconfirmed w₀ w x) w
  confirmed : ∀ x e h n, w.store.get x = some e → e.status = .confirmed h n →
    OnShallow cfg c h ∨ x ∈ l.map (·.txid)
  length : w₀.trace.length ≤ w.trace.length
  active_waiting : active → WaitingIn (· ∈ mempool) w
  active_confirmed : active → ConfirmedBy (OnActive c) w

lemma Deciding.step {mempool : Finset X} {active : Prop} {w₀ : Watcher X H A}
    {e : FlaggedTx X H A} {l : List (FlaggedTx X H A)}
    (hw : Deciding cfg c mempool active w₀ (e :: l) w) (henv : ∀ n, (env.node n).OnChain c)
    (hcur : Current (e :: l) w) (h : DepthStep cfg env e w w') :
    Deciding cfg c mempool active w₀ l w' := by
  have hchanges : Changes cfg w w' := h.changes hcur.head
  have hother : ∀ y ≠ e.txid, ∀ e', w'.store.get y = some e' → w.store.get y = some e' :=
    fun y hy e' he' => h.get_ne y hy ▸ he'
  -- the entry itself stays in the mempool, is shallow, was just unconfirmed, or is not there
  have hself : ∀ e', w'.store.get e.txid = some e' →
      (e'.status = .inMempool → (e.status = .inMempool ∨ JustUnconfirmed w₀ w' e.txid)
        ∧ (active → e.status = .inMempool)) ∧
      ∀ h n, e'.status = .confirmed h n → OnShallow cfg c h := by
    intro e' he'
    cases h with
    | waiting hs =>
        rw [hcur.head] at he'
        cases he'
        exact ⟨fun _ => ⟨.inl hs, fun _ => hs⟩, fun h n hs' => absurd (hs.symm.trans hs') nofun⟩
    | @shallow h height k hs hc hne hlt =>
        rw [show (w.tick 1).store = w.store from rfl, hcur.head] at he'
        cases he'
        refine ⟨fun hs' => absurd (hs.symm.trans hs') nofun, fun h' n' hs' => ?_⟩
        obtain ⟨rfl, rfl⟩ := TxStatus.confirmed.inj (hs.symm.trans hs')
        -- a block with so few confirmations is active, and not deep
        by_cases hact : OnActive c h
        · obtain ⟨n, txids, hb⟩ := hact
          have := (henv _).active n h txids k hb hc
          exact ⟨n, txids, hb, by omega⟩
        · exact absurd ((henv _).stale h k (fun n txids hb => hact ⟨n, txids, hb⟩) hc) hne
    | @left h height hs hc =>
        rw [Watcher.get_unconfirm, if_pos rfl] at he'
        cases he'
        refine ⟨fun _ => ⟨.inr ⟨⟨.unconfirmed, { e with status := .inMempool }, some (h, height),
          .reorg, none, some (.leftActiveChain height h)⟩, ?_, rfl, rfl⟩, fun ha => ?_⟩, nofun⟩
        · show _ ∈ (w.trace ++ [_]).drop w₀.trace.length
          rw [List.drop_append_of_le_length hw.length]
          exact List.mem_append_right _ List.mem_cons_self
        · obtain ⟨n, txids, hb⟩ := hw.active_confirmed ha _ e h height hcur.head hs
          have := (henv _).active n h txids _ hb hc
          have := (TxChain.bounds_of_blockAt hb).2
          omega
    | deep =>
        rw [Watcher.get_forget, if_pos rfl] at he'
        cases he'
  refine ⟨fun y e' he' hs => ?_, fun y e' h n he' hs => ?_,
    length_le_of_changes _ hw.length hchanges,
    fun ha y e' he' hs => ?_, fun ha y e' h n he' hs => ?_⟩
  · by_cases hy : y = e.txid
    · subst hy
      rcases ((hself e' he').1 hs).1 with hin | hjust
      · exact (hw.waiting _ e hcur.head hin).imp_right fun hj => hj.mono hw.length hchanges
      · exact .inr hjust
    · exact (hw.waiting y e' (hother y hy e' he') hs).imp_right fun hj => hj.mono hw.length hchanges
  · by_cases hy : y = e.txid
    · subst hy
      exact .inl ((hself e' he').2 h n hs)
    · refine (hw.confirmed y e' h n (hother y hy e' he') hs).imp_right fun hmem => ?_
      simpa [hy] using hmem
  · by_cases hy : y = e.txid
    · subst hy
      exact hw.active_waiting ha _ e hcur.head (((hself e' he').1 hs).2 ha)
    · exact hw.active_waiting ha y e' (hother y hy e' he') hs
  · by_cases hy : y = e.txid
    · subst hy
      exact ((hself e' he').2 h n hs).onActive
    · exact hw.active_confirmed ha y e' h n (hother y hy e' he') hs

/-- The new transactions: what was added is in the mempool, and what was not is not given out. -/
structure Scanning (b : Bitcoind X H A) (c : TxChain X H) (mempool : Finset X) (active : Prop)
    (w₀ : Watcher X H A) (l : List X) (w : Watcher X H A) : Prop where
  tip : w.tipHeight = c.tip
  subset : w.checked ⊆ mempool
  todo : ∀ x ∈ l, x ∈ mempool
  rest : ∀ x ∈ mempool, x ∉ w.checked →
    x ∈ l ∨ b.getRawTransaction x none = .error .rpcError
  length : w₀.trace.length ≤ w.trace.length
  confirmed : active → ConfirmedBy (OnActive c) w

lemma Scanning.step {mempool : Finset X} {active : Prop} {w₀ : Watcher X H A} {x : X}
    {l : List X} {f : Option (RawTx X A × List (MatchRow A))} {source : WatchSource}
    (hw : Scanning b c mempool active w₀ (x :: l) w)
    (hf : f = none ↔ b.getRawTransaction x none = .error .rpcError) :
    Scanning b c mempool active w₀ l (afterAdded x f source w) := by
  have htodo := fun y hy => hw.todo y (List.mem_cons_of_mem x hy)
  cases f with
  | none =>
      refine ⟨hw.tip, hw.subset, htodo, fun y hy hc => ?_, hw.length, hw.confirmed⟩
      rcases hw.rest y hy hc with hmem | hfail
      · rcases List.mem_cons.mp hmem with rfl | hmem
        · exact .inr (hf.mp rfl)
        · exact .inl hmem
      · exact .inr hfail
  | some p =>
      obtain ⟨tx, rows⟩ := p
      have hfields : (w.add x tx rows source).tipHeight = w.tipHeight
          ∧ (w.add x tx rows source).checked = insert x w.checked := by
        rw [Watcher.add]
        simp only
        split_ifs <;> exact ⟨rfl, rfl⟩
      refine ⟨hfields.1.trans hw.tip, ?_, htodo, fun y hy hc => ?_,
        length_le_of_changes plainConfig hw.length
          (.single (.add w x tx rows source)), fun ha y e h n he hs => ?_⟩
      · rw [afterAdded, hfields.2]
        exact Finset.insert_subset (hw.todo x List.mem_cons_self) hw.subset
      · rw [afterAdded, hfields.2, Finset.mem_insert, not_or] at hc
        exact (hw.rest y hy hc.2).imp_left fun hmem => (List.mem_cons.mp hmem).resolve_left hc.1
      · rw [afterAdded, Watcher.add] at he
        simp only at he
        split_ifs at he with hif
        · exact hw.confirmed ha y e h n he hs
        · rw [Watcher.get_put] at he
          split_ifs at he
          · cases he
            cases hs
          · exact hw.confirmed ha y e h n he hs

/-- What a complete reconcile on a node that does not change achieves, from any state. -/
lemma reconcile_settles {source : WatchSource} {mempool : List X} (henv : ∀ n, env.node n = b)
    (hb : b.OnChain c) (hm : b.getRawMempoolTxids = .ok mempool) :
    Triple (· = w) (reconcile cfg env source)
      (fun done t => done = true → Checked b c mempool.toFinset t
        ∧ Deciding cfg c mempool.toFinset (ConfirmedBy (OnActive c) w) w [] t) fun _ _ => True := by
  have hchain : ∀ n, (env.node n).OnChain c := fun n => henv n ▸ hb
  have hrule := reconcile_rule cfg env source (P := (· = w))
    (E := fun _ => True)
    (G := fun x f => f = none ↔ b.getRawTransaction x none = .error .rpcError)
    (F := fun e tip found => Searched c e.txid (scanHeights cfg tip e) found) (C := CacheOf c)
    (I := fun m l t => m = mempool.toFinset ∧ Scanning b c m (ConfirmedBy (OnActive c) w) w l t)
    (J := fun m l t => m = mempool.toFinset ∧ Checked b c m t ∧ w.trace.length ≤ t.trace.length
      ∧ Resolving c m (ConfirmedBy (OnActive c) w) l t)
    (K := fun m l t => m = mempool.toFinset ∧ Checked b c m t
      ∧ Deciding cfg c m (ConfirmedBy (OnActive c) w) w l t)
    ?_ (fetchAndMatch_none henv)
    (fun _ _ _ _ h => ⟨h.1, h.2.tip, h.2.subset, h.2.todo, h.2.rest, h.2.length, h.2.confirmed⟩)
    (fun _ _ _ _ _ h hf => ⟨h.1, h.2.step hf⟩) ?_ nofun
    (fun e tip _ hcache => findConfirmingBlock_triple hchain e.txid _ (scanHeights_pairwise tip e)
      hcache) ?_ ?_ ?_ (fun _ _ _ => trivial) (fun _ _ _ _ => trivial)
    (fun _ _ _ _ _ => trivial) (fun _ _ _ _ => trivial)
  · refine hrule.post fun done t ht hdone => ?_
    subst hdone
    rw [if_pos rfl] at ht
    obtain ⟨m, rfl, hchecked, hdeciding⟩ := ht
    exact ⟨hchecked, hdeciding⟩
  -- the new transactions are those of the snapshot that are not checked
  · rintro t m tip rfl hm' htip
    rw [henv] at hm' htip
    obtain rfl : mempool = m := Except.ok.inj (hm.symm.trans hm')
    refine ⟨rfl, hb.count tip htip, Finset.inter_subset_right, fun x hx => ?_, fun x hx hc => ?_,
      le_rfl, id⟩
    · rw [WatchEnv.mem_listing, Finset.mem_sdiff] at hx
      exact hx.1
    · refine .inl ?_
      rw [WatchEnv.mem_listing, Finset.mem_sdiff]
      exact ⟨hx, fun hc' => hc (Finset.mem_inter.mpr ⟨hc', hx⟩)⟩
  -- what is missing was on record before the loop, and is looked for
  · rintro m t ⟨rfl, hscan⟩
    refine ⟨rfl, ⟨hscan.tip, hscan.subset, fun x hx hc => ?_⟩, hscan.length,
      fun x e he _ => .inr ?_, hscan.confirmed⟩
    · exact (hscan.rest x hx hc).resolve_left List.not_mem_nil
    · obtain rfl := Keyed.key_of_get he
      exact List.mem_map_of_mem (Keyed.mem_all.mpr he)
  · rintro m e l t t' ⟨rfl, hchecked, hlen, hres⟩ hcur hstep
    exact ⟨rfl, hchecked.congr hstep.checked_eq.1 hstep.checked_eq.2,
      length_le_of_changes cfg hlen (hstep.changes hcur.head), hres.step hcur hstep⟩
  -- now every waiting entry is in the mempool, and the depths follow
  · rintro m t ⟨rfl, hchecked, hlen, hres⟩
    refine ⟨rfl, hchecked, ?_⟩
    have hwait : WaitingIn (· ∈ mempool.toFinset) t := fun x e he hs =>
      (hres.waiting x e he hs).resolve_right (by simp)
    refine ⟨fun x e he hs => .inl (hwait x e he hs), fun x e h n he hs => .inr ?_, hlen,
      fun _ => hwait, hres.confirmed⟩
    obtain rfl := Keyed.key_of_get he
    exact List.mem_map_of_mem (Keyed.mem_all.mpr he)
  · rintro m e l t t' ⟨rfl, hchecked, hdec⟩ hcur hstep
    exact ⟨rfl, hchecked.congr hstep.checked_eq.1 hstep.checked_eq.2, hdec.step hchain hcur hstep⟩

/-- **Reconcile converges in two steps**: three complete reconciles in a row on a node that does not
change. After the first, from any state, every confirmed entry names an active block, and every
other one is in the mempool or was just reported as unconfirmed. If all of these are in the mempool,
the second changes nothing and exports nothing. The third never does. -/
theorem reconcile_converges (cfg : MempoolWatchConfig) (b : Bitcoind X H A) (c : TxChain X H)
    (hb : b.OnChain c) (mempool : List X) (hm : b.getRawMempoolTxids = .ok mempool)
    (env₁ env₂ env₃ : WatchEnv X H A) (h₁ : ∀ n, env₁.node n = b) (h₂ : ∀ n, env₂.node n = b)
    (h₃ : ∀ n, env₃.node n = b) (s₁ s₂ s₃ : WatchSource) (w w₁ w₂ w₃ : Watcher X H A)
    (hr₁ : reconcile cfg env₁ s₁ w = .ok true w₁) (hr₂ : reconcile cfg env₂ s₂ w₁ = .ok true w₂)
    (hr₃ : reconcile cfg env₃ s₃ w₂ = .ok true w₃) :
    ConfirmedBy (OnActive c) w₁
      ∧ WaitingIn (fun x => x ∈ mempool ∨ JustUnconfirmed w w₁ x) w₁
      ∧ (WaitingIn (· ∈ mempool) w₁ → Unchanged w₁ w₂)
      ∧ Unchanged w₂ w₃ := by
  obtain ⟨hc₁, hd₁⟩ := (reconcile_settles h₁ hb hm).of_ok rfl hr₁ rfl
  obtain ⟨hc₂, hd₂⟩ := (reconcile_settles h₂ hb hm).of_ok rfl hr₂ rfl
  have hshallow : ∀ {w₀ t : Watcher X H A} {active : Prop},
      Deciding cfg c mempool.toFinset active w₀ [] t → ConfirmedBy (OnShallow cfg c) t :=
    fun hd x e h n he hs => (hd.confirmed x e h n he hs).resolve_right (by simp)
  have hactive : ConfirmedBy (OnActive c) w₁ := fun x e h n he hs =>
    (hshallow hd₁ x e h n he hs).onActive
  refine ⟨hactive, fun x e he hs => ?_, fun hwait => ?_, ?_⟩
  · simpa using hd₁.waiting x e he hs
  · have hsettled : Settled cfg b c mempool.toFinset w₁ :=
      ⟨hc₁, fun x e he hs => List.mem_toFinset.mpr (hwait x e he hs), hshallow hd₁⟩
    exact (reconcile_settled h₂ hb hm hsettled).of_ok rfl hr₂ rfl
  · have hsettled : Settled cfg b c mempool.toFinset w₂ :=
      ⟨hc₂, hd₂.active_waiting hactive, hshallow hd₂⟩
    exact (reconcile_settled h₃ hb hm hsettled).of_ok rfl hr₃ rfl

/-- The watcher that has seen a transaction, and then that it was mined in block `1`. -/
def confirmedInOne : Watcher (Fin 4) ℕ ℕ :=
  next plainConfig (.reconcile (plainEnv ⟨[(0, []), (1, [plainTx])], by decide⟩ []) .reconcile)
    (next plainConfig (.reconcile (plainEnv ⟨[(0, [])], by decide⟩ [plainTx]) .startupScan) .fresh)

/-- The block has left the chain, and the transaction is not in the mempool: three reconciles. -/
def afterReorg : ℕ → Watcher (Fin 4) ℕ ℕ
  | 0 => confirmedInOne
  | n + 1 => stateAfter (reconcile plainConfig
      (plainEnv ⟨[(0, []), (2, [])], by decide⟩ []) .reconcile) (afterReorg n)

/-- A reconcile that runs to its end. -/
def ranToEnd (x : Watch X H A Bool) (w : Watcher X H A) : Bool :=
  match x w with
  | .ok done _ => done
  | .error .. => false

lemma eq_of_ranToEnd {x : Watch X H A Bool} (h : ranToEnd x w = true) :
    x w = .ok true (stateAfter x w) := by
  rw [ranToEnd] at h
  rw [stateAfter]
  cases hr : x w with
  | error f t => simp [hr] at h
  | ok done t =>
      simp only [hr] at h
      rw [h]

theorem reconcile_converges_reorg : Unchanged (afterReorg 2) (afterReorg 3) :=
  (reconcile_converges plainConfig _ ⟨[(0, []), (2, [])], by decide⟩ (nodeOf_onChain _ _ _) [] rfl
    (plainEnv _ []) (plainEnv _ []) (plainEnv _ []) (fun _ => rfl) (fun _ => rfl) (fun _ => rfl)
    .reconcile .reconcile .reconcile (afterReorg 0) (afterReorg 1) (afterReorg 2) (afterReorg 3)
    (eq_of_ranToEnd (by decide +kernel)) (eq_of_ranToEnd (by decide +kernel))
    (eq_of_ranToEnd (by decide +kernel))).2.2.2

/-- The first of them leaves an entry behind that is neither confirmed nor in the mempool, and the
second reports it as removed. -/
theorem reconcile_leaves_unconfirmed :
    let env := plainEnv ⟨[(0, []), (2, [])], by decide⟩ []
    (system plainConfig).Reach anyStep (afterReorg 0)
      ∧ reconcile plainConfig env .reconcile (afterReorg 0) = .ok true (afterReorg 1)
      ∧ ¬ WaitingIn (· ∈ ([] : List (Fin 4))) (afterReorg 1)
      ∧ reconcile plainConfig env .reconcile (afterReorg 1) = .ok true (afterReorg 2)
      ∧ exportsOf 0 (afterReorg 1).trace = [.seen, .confirmed, .unconfirmed]
      ∧ exportsOf 0 (afterReorg 2).trace = [.seen, .confirmed, .unconfirmed, .removed]
      ∧ (afterReorg 2).store.contains 0 = false := by
  have h₀ : (system plainConfig).Reach anyStep (.fresh : Watcher (Fin 4) ℕ ℕ) := .init rfl
  have h₁ := h₀.step (i := .reconcile (plainEnv ⟨[(0, [])], by decide⟩ [plainTx]) .startupScan)
    trivial rfl
  have h₂ := h₁.step
    (i := .reconcile (plainEnv ⟨[(0, []), (1, [plainTx])], by decide⟩ []) .reconcile) trivial rfl
  refine ⟨h₂, eq_of_ranToEnd (by decide +kernel), fun h => ?_, eq_of_ranToEnd (by decide +kernel),
    by decide +kernel, by decide +kernel, by decide +kernel⟩
  have hcontains : (afterReorg 1).store.contains 0 = true := by decide +kernel
  obtain ⟨e, he⟩ := Keyed.contains_iff.mp hcontains
  have hstatus : ((afterReorg 1).store.get 0).map (·.status) = some .inMempool := by decide +kernel
  rw [he] at hstatus
  exact absurd (h 0 e he (Option.some.inj hstatus)) List.not_mem_nil

end MempoolWatch

end BtcParser
