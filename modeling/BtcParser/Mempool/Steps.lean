import BtcParser.Rpc.MempoolWatch

/-!
What the programs of the watcher do to its state.

* `Change` lists everything a handler may do between two calls: an entry is confirmed, unconfirmed,
  forgotten or given up only while it is the current entry of its txid and has the right status.
* `Reads`: a program that only makes calls.
* `checkConfirmedDepth_rule`, `resolveMissing_rule`, `checkNew_rule`: the loops of a reconcile, for
  any invariant that may depend on the entries still to come. `DepthStep` and `MissingStep` say all
  that happens to one entry.
* `reconcile_changes`, `handleEvents_changes`: every run, also an abandoned one, is a sequence of
  changes.
-/

namespace BtcParser

namespace Watcher

variable {X H A : Type} [LinearOrder X]

/-! ### What the operations change -/

@[simp] lemma get_put (w : Watcher X H A) (e : FlaggedTx X H A) (y : X) :
    (w.put e).store.get y = if y = e.txid then some e else w.store.get y :=
  Keyed.get_put _ _ _

@[simp] lemma file_put (w : Watcher X H A) (e : FlaggedTx X H A) (y : X) :
    (w.put e).file.get y = (w.put e).store.get y := by
  simp only [put, Keyed.get_dumped]

@[simp] lemma get_remove (w : Watcher X H A) (x y : X) :
    (w.remove x).store.get y = if y = x then none else w.store.get y := by
  rw [remove]
  split_ifs with h hy hy
  · simp [Keyed.get_remove, hy]
  · simp [Keyed.get_remove, hy]
  · subst hy
    cases hg : w.store.get y with
    | none => rfl
    | some e => exact absurd (Keyed.contains_iff.mpr ⟨e, hg⟩) h
  · rfl

lemma file_remove {w : Watcher X H A} (hw : ∀ y, w.file.get y = w.store.get y) (x y : X) :
    (w.remove x).file.get y = (w.remove x).store.get y := by
  rw [remove]
  split_ifs
  · simp only [Keyed.get_dumped]
  · exact hw y

@[simp] lemma trace_remove (w : Watcher X H A) (x : X) : (w.remove x).trace = w.trace := by
  rw [remove]
  split_ifs <;> rfl

@[simp] lemma checked_remove (w : Watcher X H A) (x : X) : (w.remove x).checked = w.checked := by
  rw [remove]
  split_ifs <;> rfl

@[simp] lemma unfetched_remove (w : Watcher X H A) (x : X) :
    (w.remove x).unfetched = w.unfetched := by
  rw [remove]
  split_ifs <;> rfl

lemma get_add_ne (w : Watcher X H A) {x y : X} (hy : y ≠ x) (tx : RawTx X A)
    (rows : List (MatchRow A)) (source : WatchSource) :
    (w.add x tx rows source).store.get y = w.store.get y := by
  rw [add]
  simp only
  split_ifs
  · rfl
  · exact (get_put _ _ _).trans (if_neg hy)

@[simp] lemma get_markConfirmed (w : Watcher X H A) (e : FlaggedTx X H A) (h : H) (height : ℤ)
    (source : WatchSource) (y : X) :
    (w.markConfirmed e h height source).store.get y
      = if y = e.txid then some { e with status := .confirmed h height } else w.store.get y :=
  get_put _ _ _

@[simp] lemma get_unconfirm (w : Watcher X H A) (e : FlaggedTx X H A) (h : H) (height : ℤ) (y : X) :
    (w.unconfirm e h height).store.get y
      = if y = e.txid then some { e with status := .inMempool } else w.store.get y :=
  get_put _ _ _

@[simp] lemma get_forget (w : Watcher X H A) (x : X) (c : ℤ) (y : X) :
    (w.forget x c).store.get y = if y = x then none else w.store.get y :=
  get_remove _ _ _

@[simp] lemma get_leave (w : Watcher X H A) (e : FlaggedTx X H A) (r : Option X)
    (source : WatchSource) (detail : WatchDetail H) (y : X) :
    (w.leave e r source detail).store.get y = if y = e.txid then none else w.store.get y := by
  cases r <;> exact get_remove _ _ _

end Watcher

namespace MempoolWatch

open Program Relation

variable {X H A : Type} [LinearOrder X] {cfg : MempoolWatchConfig} {env : WatchEnv X H A}

lemma mem_checked_add (w : Watcher X H A) (x : X) (tx : RawTx X A) (rows : List (MatchRow A))
    (source : WatchSource) : (w.add x tx rows source).checked = insert x w.checked := by
  rw [Watcher.add]
  simp only
  split_ifs <;> rfl

lemma unfetched_add (w : Watcher X H A) (x : X) (tx : RawTx X A) (rows : List (MatchRow A))
    (source : WatchSource) : (w.add x tx rows source).unfetched = w.unfetched := by
  rw [Watcher.add]
  simp only
  split_ifs <;> rfl

/-! ### The changes -/

/-- What happens to the state between two calls. -/
inductive Change (cfg : MempoolWatchConfig) : Watcher X H A → Watcher X H A → Prop
  | bookkeeping (w : Watcher X H A) (checked unfetched : Finset X) (tip : ℤ) (n : ℕ) :
      Change cfg w
        { w with checked := checked, unfetched := unfetched, tipHeight := tip, calls := n }
  | add (w : Watcher X H A) (x : X) (tx : RawTx X A) (rows : List (MatchRow A))
      (source : WatchSource) : Change cfg w (w.add x tx rows source)
  | confirm (w : Watcher X H A) {e : FlaggedTx X H A} (he : w.store.get e.txid = some e)
      (hs : e.status.isInMempool = true) (h : H) (height : ℤ) (source : WatchSource) :
      Change cfg w (w.markConfirmed e h height source)
  | unconfirm (w : Watcher X H A) {e : FlaggedTx X H A} (he : w.store.get e.txid = some e)
      (hs : e.status.isInMempool = false) (h : H) (height : ℤ) :
      Change cfg w (w.unconfirm e h height)
  | forget (w : Watcher X H A) {e : FlaggedTx X H A} (he : w.store.get e.txid = some e)
      (hs : e.status.isInMempool = false) {c : ℤ} (hc : cfg.forgetAfterConfirmations ≤ c) :
      Change cfg w (w.forget e.txid c)
  | leave (w : Watcher X H A) {e : FlaggedTx X H A} (he : w.store.get e.txid = some e)
      (hs : e.status.isInMempool = true) (y : Option X) (source : WatchSource)
      (detail : WatchDetail H) : Change cfg w (w.leave e y source detail)

/-- Finitely many changes. -/
abbrev Changes (cfg : MempoolWatchConfig) : Watcher X H A → Watcher X H A → Prop :=
  ReflTransGen (Change cfg)

lemma Change.tick (w : Watcher X H A) (n : ℕ) : Change cfg w (w.tick n) :=
  .bookkeeping w w.checked w.unfetched w.tipHeight _

/-! ### Programs that only make calls -/

/-- `x` changes nothing but the number of calls. -/
def Reads {α : Type} (x : Watch X H A α) : Prop :=
  ∀ w, ∃ n, stateAfter x w = w.tick n

lemma tick_tick (w : Watcher X H A) (m n : ℕ) : (w.tick m).tick n = w.tick (m + n) := by
  simp [Watcher.tick, add_assoc]

lemma reads_pure {α : Type} (a : α) : Reads (pure a : Watch X H A α) := fun _ => ⟨0, rfl⟩

lemma Reads.bind {α β : Type} {x : Watch X H A α} {y : α → Watch X H A β} (hx : Reads x)
    (hy : ∀ a, Reads (y a)) : Reads (x >>= y) := by
  intro w
  obtain ⟨m, hm⟩ := hx w
  rw [stateAfter] at hm ⊢
  rw [bind_apply]
  cases hr : x w with
  | error f t =>
      rw [hr] at hm
      exact ⟨m, hm⟩
  | ok a t =>
      rw [hr] at hm
      obtain ⟨n, hn⟩ := hy a t
      rw [stateAfter] at hn
      simp only at hm ⊢
      exact ⟨m + n, by rw [hn, hm, tick_tick]⟩

lemma reads_rpc {α : Type} (ask : Bitcoind X H A → Except RpcFailure α) :
    Reads (rpc env ask) := by
  intro w
  refine ⟨1, ?_⟩
  rw [stateAfter, rpc]
  cases ask (env.node w.calls) <;> rfl

lemma reads_rpcCaught {α : Type} (ask : Bitcoind X H A → Except RpcFailure α) :
    Reads (rpcCaught env ask) := by
  intro w
  refine ⟨1, ?_⟩
  rw [stateAfter, rpcCaught]
  rcases ask (env.node w.calls) with (_ | _) | _ <;> rfl

/-- What a program that only makes calls does to an assertion that calls do not touch. -/
lemma Reads.triple {α : Type} {x : Watch X H A α} (hx : Reads x) {P : Watcher X H A → Prop}
    (hP : ∀ w n, P w → P (w.tick n)) : Triple P x (fun _ => P) fun _ => P := by
  refine triple_of_runs (fun w a t hw hr => ?_) fun w f t hw hr => ?_
  · obtain ⟨n, hn⟩ := hx w
    rw [stateAfter, hr] at hn
    simp only at hn
    exact hn ▸ hP w n hw
  · obtain ⟨n, hn⟩ := hx w
    rw [stateAfter, hr] at hn
    simp only at hn
    exact hn ▸ hP w n hw

lemma reads_prevoutOf (x : X) (n : ℕ) (prevout : Option (Option (TxOut A))) :
    Reads (prevoutOf env x n prevout) := by
  cases prevout with
  | some out => exact reads_pure _
  | none =>
      refine (reads_rpcCaught _).bind fun o => ?_
      rcases o with _ | (_ | _)
      · exact reads_pure _
      · refine (reads_rpcCaught _).bind fun o => ?_
        cases o <;> exact reads_pure _
      · exact reads_pure _

lemma reads_matchInputs (l : List (VIn X A)) (i : ℕ) : Reads (matchInputs env i l) := by
  induction l generalizing i with
  | nil => exact reads_pure _
  | cons v l ih =>
      cases v with
      | coinbase => exact ih (i + 1)
      | spend x n prevout =>
          exact (reads_prevoutOf x n prevout).bind fun _ => (ih (i + 1)).bind fun _ => reads_pure _

lemma reads_fetchAndMatch (x : X) (blockHash : Option H) :
    Reads (fetchAndMatch env x blockHash) := by
  refine (reads_rpcCaught _).bind fun o => ?_
  cases o with
  | none => exact reads_pure _
  | some tx =>
      exact ((reads_matchInputs tx.vin 0).bind fun _ => reads_pure _).bind fun _ => reads_pure _

lemma reads_fetchMany (l : List X) : Reads (fetchMany env l) := by
  induction l with
  | nil => exact reads_pure _
  | cons x l ih =>
      exact (reads_fetchAndMatch x none).bind fun _ => ih.bind fun _ => reads_pure _

lemma reads_cachedBlock (height : ℤ) (cache : BlockCache X H) :
    Reads (cachedBlock env height cache) := by
  rw [cachedBlock]
  split
  · exact reads_pure _
  · exact (reads_rpc _).bind fun _ => (reads_rpc _).bind fun _ => reads_pure _

lemma reads_findConfirmingBlock (x : X) (l : List ℤ) (cache : BlockCache X H) :
    Reads (findConfirmingBlock env x l cache) := by
  induction l generalizing cache with
  | nil => exact reads_pure _
  | cons height l ih =>
      refine (reads_cachedBlock height cache).bind fun p => ?_
      split
      split_ifs
      · exact reads_pure _
      · exact ih _

/-! ### The entries of a loop -/

/-- The entries `l` are current, and of different transactions. -/
def Current (l : List (FlaggedTx X H A)) (w : Watcher X H A) : Prop :=
  (∀ e ∈ l, w.store.get e.txid = some e) ∧ (l.map (·.txid)).Nodup

lemma current_all (w : Watcher X H A) : Current w.store.all w :=
  ⟨fun _ he => Keyed.mem_all.mp he, w.store.all_nodup⟩

lemma Current.head {e : FlaggedTx X H A} {l : List (FlaggedTx X H A)} {w : Watcher X H A}
    (h : Current (e :: l) w) : w.store.get e.txid = some e :=
  h.1 e List.mem_cons_self

lemma Current.notMem {e : FlaggedTx X H A} {l : List (FlaggedTx X H A)} {w : Watcher X H A}
    (h : Current (e :: l) w) : e.txid ∉ l.map (·.txid) :=
  (List.nodup_cons.mp h.2).1

/-- A handler leaves the entries alone that it is not called for. -/
lemma Current.tail {e : FlaggedTx X H A} {l : List (FlaggedTx X H A)} {w w' : Watcher X H A}
    (h : Current (e :: l) w) (hw : ∀ y ≠ e.txid, w'.store.get y = w.store.get y) :
    Current l w' := by
  refine ⟨fun e' he' => ?_, (List.nodup_cons.mp h.2).2⟩
  have hne : e'.txid ≠ e.txid := fun heq => h.notMem (heq ▸ List.mem_map_of_mem he')
  rw [hw _ hne]
  exact h.1 e' (List.mem_cons_of_mem _ he')

/-- All that `_check_confirmed_depth` does with one entry. -/
inductive DepthStep (cfg : MempoolWatchConfig) (env : WatchEnv X H A) (e : FlaggedTx X H A) :
    Watcher X H A → Watcher X H A → Prop
  | waiting {w : Watcher X H A} (hs : e.status = .inMempool) : DepthStep cfg env e w w
  | shallow {w : Watcher X H A} {h : H} {height c : ℤ} (hs : e.status = .confirmed h height)
      (hc : (env.node w.calls).getBlockHeader h = .ok c) (hne : c ≠ -1)
      (hlt : c < cfg.forgetAfterConfirmations) : DepthStep cfg env e w (w.tick 1)
  | left {w : Watcher X H A} {h : H} {height : ℤ} (hs : e.status = .confirmed h height)
      (hc : (env.node w.calls).getBlockHeader h = .ok (-1)) :
      DepthStep cfg env e w ((w.tick 1).unconfirm e h height)
  | deep {w : Watcher X H A} {h : H} {height c : ℤ} (hs : e.status = .confirmed h height)
      (hc : (env.node w.calls).getBlockHeader h = .ok c) (hne : c ≠ -1)
      (hle : cfg.forgetAfterConfirmations ≤ c) :
      DepthStep cfg env e w ((w.tick 1).forget e.txid c)

lemma DepthStep.get_ne {e : FlaggedTx X H A} {w w' : Watcher X H A}
    (h : DepthStep cfg env e w w') (y : X) (hy : y ≠ e.txid) :
    w'.store.get y = w.store.get y := by
  cases h with
  | waiting => rfl
  | shallow => rfl
  | left => exact (Watcher.get_unconfirm _ _ _ _ _).trans (if_neg hy)
  | deep => exact (Watcher.get_forget _ _ _ _).trans (if_neg hy)

/-- It touches neither of the sets. -/
lemma DepthStep.sets {e : FlaggedTx X H A} {w w' : Watcher X H A} (h : DepthStep cfg env e w w') :
    w'.checked = w.checked ∧ w'.unfetched = w.unfetched := by
  cases h with
  | waiting => exact ⟨rfl, rfl⟩
  | shallow => exact ⟨rfl, rfl⟩
  | left => exact ⟨rfl, rfl⟩
  | deep => exact ⟨Watcher.checked_remove _ _, Watcher.unfetched_remove _ _⟩

lemma checkDepth_triple (e : FlaggedTx X H A) (w : Watcher X H A) :
    Triple (· = w) (checkDepth cfg env e) (fun _ => DepthStep cfg env e w)
      fun _ t => t = w.tick 1 := by
  cases hs : e.status with
  | inMempool =>
      simp only [checkDepth, hs]
      exact triple_pure fun s h => h ▸ .waiting hs
  | confirmed h height =>
      simp only [checkDepth, hs]
      rintro s rfl
      rw [bind_apply, rpc]
      cases hc : (env.node s.calls).getBlockHeader h with
      | error f => rfl
      | ok c =>
          simp only
          split_ifs with hne hle
          · exact .left hs (hne ▸ hc)
          · exact .deep hs hc hne hle
          · exact .shallow hs hc hne (not_le.mp hle)

/-- The rule of `_check_confirmed_depth`. -/
lemma checkConfirmedDepth_rule {I : List (FlaggedTx X H A) → Watcher X H A → Prop}
    {E : Watcher X H A → Prop}
    (hI : ∀ e l w w', I (e :: l) w → Current (e :: l) w → DepthStep cfg env e w w' → I l w')
    (hE : ∀ l w, I l w → E (w.tick 1)) :
    Triple (fun w => I w.store.all w) (checkConfirmedDepth cfg env) (fun _ => I []) fun _ => E := by
  refine triple_get fun w hw => ?_
  refine (triple_forM (I := fun l w => I l w ∧ Current l w) (fun e l =>
    triple_of_each fun s hs => ?_) w.store.all).weaken
    (fun s hs => by rw [hs]; exact ⟨hw, current_all _⟩) (fun _ _ h => h.1) fun _ _ h => h
  refine (checkDepth_triple e s).weaken (fun _ => id) (fun _ t h => ?_) fun _ t h => h ▸ hE _ _ hs.1
  exact ⟨hI e l s t hs.1 hs.2 h, hs.2.tail h.get_ne⟩

lemma reads_replacedBy (e : FlaggedTx X H A) : Reads (replacedBy env e) := by
  rw [replacedBy]
  split_ifs
  · exact reads_pure _
  · exact (reads_rpcCaught _).bind fun _ => reads_pure _

lemma onLeftUnmined_triple (e : FlaggedTx X H A) (source : WatchSource) (detail : WatchDetail H)
    (w : Watcher X H A) :
    Triple (· = w) (onLeftUnmined env e source detail)
      (fun _ t => ∃ n y, t = (w.tick n).leave e y source detail) fun _ t => ∃ n, t = w.tick n := by
  have hread := (show Reads (replacedBy env e) from reads_replacedBy e).triple
    (P := fun t => ∃ n, t = w.tick n)
    fun t n ⟨m, hm⟩ => ⟨m + n, by rw [hm, tick_tick]⟩
  refine (hread.pre fun t ht => ⟨0, ht⟩).bind fun y => triple_modify fun t ⟨n, hn⟩ => ?_
  exact ⟨n, y, by rw [hn]⟩

/-- All that the loop over the missing transactions does with one entry: `F` says what the search
may find. -/
inductive MissingStep (F : FlaggedTx X H A → ℤ → Option (H × ℤ) → Prop) (source : WatchSource)
    (mempool : Finset X) (e : FlaggedTx X H A) : Watcher X H A → Watcher X H A → Prop
  | skipped {w : Watcher X H A} (h : e.status.isInMempool = true → e.txid ∈ mempool) :
      MissingStep F source mempool e w w
  | found {w : Watcher X H A} {h : H} {height : ℤ} (hs : e.status.isInMempool = true)
      (hx : e.txid ∉ mempool) (hf : F e w.tipHeight (some (h, height))) (n : ℕ) :
      MissingStep F source mempool e w ((w.tick n).markConfirmed e h height source)
  | gone {w : Watcher X H A} (hs : e.status.isInMempool = true) (hx : e.txid ∉ mempool)
      (hf : F e w.tipHeight none) (n : ℕ) (y : Option X) :
      MissingStep F source mempool e w ((w.tick n).leave e y source .leftMempoolUnobserved)

lemma MissingStep.get_ne {F : FlaggedTx X H A → ℤ → Option (H × ℤ) → Prop}
    {source : WatchSource} {mempool : Finset X} {e : FlaggedTx X H A} {w w' : Watcher X H A}
    (h : MissingStep F source mempool e w w') (y : X) (hy : y ≠ e.txid) :
    w'.store.get y = w.store.get y := by
  cases h with
  | skipped => rfl
  | found => exact (Watcher.get_markConfirmed _ _ _ _ _ _).trans (if_neg hy)
  | gone => exact (Watcher.get_leave _ _ _ _ _ _).trans (if_neg hy)

/-- The rule of the loop over the missing transactions. `F` and `C` are what is known of the
search and of its cache. -/
lemma resolveMissing_rule {F : FlaggedTx X H A → ℤ → Option (H × ℤ) → Prop}
    {C : BlockCache X H → Prop} {source : WatchSource} {mempool : Finset X}
    {I : List (FlaggedTx X H A) → Watcher X H A → Prop} {E : Watcher X H A → Prop}
    (hfind : ∀ (e : FlaggedTx X H A) (tip : ℤ) (cache : BlockCache X H), C cache →
      Triple (fun _ => True) (findConfirmingBlock env e.txid (scanHeights cfg tip e) cache)
        (fun p _ => F e tip p.1 ∧ C p.2) fun _ _ => True)
    (hI : ∀ e l w w', I (e :: l) w → Current (e :: l) w →
      MissingStep F source mempool e w w' → I l w')
    (hE : ∀ l w n, I l w → E (w.tick n)) (l : List (FlaggedTx X H A)) (cache : BlockCache X H)
    (hC : C cache) :
    Triple (fun w => I l w ∧ Current l w) (resolveMissing cfg env source mempool l cache)
      (fun _ => I []) fun _ => E := by
  induction l generalizing cache with
  | nil => exact triple_pure fun w hw => hw.1
  | cons e l ih =>
      refine triple_of_each fun w hw => ?_
      rw [resolveMissing]
      refine triple_ite (fun hif => ?_) fun hif => ?_
      · simp only [Bool.and_eq_true, Bool.not_eq_true', decide_eq_false_iff_not] at hif
        refine triple_get fun w₀ hw₀ => ?_
        obtain rfl : w = w₀ := hw₀.symm
        -- the search only makes calls, and what it finds is what `F` allows
        have hsearch : Triple (· = w)
            (findConfirmingBlock env e.txid (scanHeights cfg w.tipHeight e) cache)
            (fun p t => (F e w.tipHeight p.1 ∧ C p.2) ∧ ∃ n, t = w.tick n)
            fun _ => E := by
          have hfound : Reads (findConfirmingBlock env e.txid (scanHeights cfg w.tipHeight e)
            cache) := reads_findConfirmingBlock _ _ _
          have hreads := hfound.triple (P := fun t => ∃ n, t = w.tick n)
              fun t n ⟨m, hm⟩ => ⟨m + n, by rw [hm, tick_tick]⟩
          refine triple_of_runs (fun s p t hs hr => ⟨?_, ?_⟩) fun s f t hs hr => ?_
          · exact (hfind e w.tipHeight cache hC).of_ok trivial hr
          · exact hreads.of_ok ⟨0, hs⟩ hr
          · obtain ⟨n, rfl⟩ := hreads.of_error ⟨0, hs⟩ hr
            exact hE _ _ n hw.1
        refine hsearch.bind fun p => ?_
        refine triple_of_each fun t ⟨⟨hF, hC'⟩, n, ht⟩ => ?_
        subst ht
        obtain ⟨found, cache'⟩ := p
        have hstep : ∀ t, MissingStep F source mempool e w t → I l t ∧ Current l t :=
          fun t ht => ⟨hI e l w t hw.1 hw.2 ht, hw.2.tail ht.get_ne⟩
        cases found with
        | some b =>
            obtain ⟨h, height⟩ := b
            refine Triple.bind (triple_modify (Q := fun _ t => I l t ∧ Current l t) ?_)
              fun _ => ih cache' hC'
            rintro _ rfl
            exact hstep _ (.found hif.1 hif.2 hF n)
        | none =>
            refine ((onLeftUnmined_triple e source _ (w.tick n)).weaken (fun _ => id)
              (fun _ t ht => ?_) fun _ t ht => ?_).bind fun _ => ih cache' hC'
            · obtain ⟨m, y, rfl⟩ := ht
              rw [tick_tick]
              exact hstep _ (.gone hif.1 hif.2 hF _ y)
            · obtain ⟨m, rfl⟩ := ht
              rw [tick_tick]
              exact hE _ _ _ hw.1
      · refine (ih cache hC).pre fun t ht => ?_
        obtain rfl : w = t := ht.symm
        have hskip : MissingStep F source mempool e w w := .skipped fun hs => by
          simpa [hs] using hif
        exact ⟨hI e l w w hw.1 hw.2 hskip, hw.2.tail hskip.get_ne⟩

/-! ### The new transactions -/

/-- `_on_added`, as a function of the state. -/
def afterAdded (x : X) (f : Option (RawTx X A × List (MatchRow A))) (source : WatchSource)
    (w : Watcher X H A) : Watcher X H A :=
  match f with
  | none => w
  | some (tx, rows) => w.add x tx rows source

lemma onAdded_apply (x : X) (f : Option (RawTx X A × List (MatchRow A))) (source : WatchSource)
    (w : Watcher X H A) : onAdded x f source w = .ok () (afterAdded x f source w) := by
  cases f <;> rfl

/-- The fetches of a chunk, `G` being what is known of a fetch. -/
lemma fetchMany_triple {G : X → Option (RawTx X A × List (MatchRow A)) → Prop}
    {P E : Watcher X H A → Prop}
    (hfetch : ∀ x, Triple (fun _ => True) (fetchAndMatch env x none) (fun f _ => G x f)
      fun _ _ => True)
    (htick : ∀ w n, P w → P (w.tick n)) (hE : ∀ w, P w → E w) (l : List X) :
    Triple P (fetchMany env l) (fun fs w => P w ∧ fs.map Prod.fst = l ∧ ∀ p ∈ fs, G p.1 p.2)
      fun _ => E := by
  induction l with
  | nil => exact triple_pure fun w hw => ⟨hw, rfl, by simp⟩
  | cons x l ih =>
      have hx : Triple P (fetchAndMatch env x none) (fun f w => P w ∧ G x f) fun _ => E := by
        have hread := (show Reads (fetchAndMatch env x none) from reads_fetchAndMatch x none).triple
          htick
        exact triple_of_runs
          (fun s f t hs hr => ⟨hread.of_ok hs hr, (hfetch x).of_ok trivial hr⟩)
          fun s _ t hs hr => hE t (hread.of_error hs hr)
      refine hx.bind fun f => triple_of_each fun w hw => ?_
      refine Triple.bind (ih.pre fun t ht => ht ▸ hw.1) fun fs => triple_pure fun t ht => ?_
      refine ⟨ht.1, by rw [List.map_cons, ht.2.1], fun p hp => ?_⟩
      rcases List.mem_cons.mp hp with rfl | hp
      · exact hw.2
      · exact ht.2.2 p hp

/-- The rule of the loop over the new transactions. -/
lemma checkNew_rule {G : X → Option (RawTx X A × List (MatchRow A)) → Prop}
    {source : WatchSource} {I : List X → Watcher X H A → Prop} {E : Watcher X H A → Prop}
    (hfetch : ∀ x, Triple (fun _ => True) (fetchAndMatch env x none) (fun f _ => G x f)
      fun _ _ => True)
    (htick : ∀ l w n, I l w → I l (w.tick n))
    (hI : ∀ x l w f, I (x :: l) w → G x f → I l (afterAdded x f source w))
    (hE : ∀ l w, I l w → E w) (fuel : ℕ) (l : List X) (hfuel : l.length ≤ fuel) :
    Triple (I l) (checkNew env source fuel l)
      (fun done w => if done = true then I [] w else E w) fun _ => E := by
  induction fuel generalizing l with
  | zero =>
      obtain rfl := List.eq_nil_of_length_eq_zero (Nat.le_zero.mp hfuel)
      exact triple_pure fun w hw => hw
  | succ fuel ih =>
      cases l with
      | nil => exact triple_pure fun w hw => hw
      | cons x l =>
          rw [checkNew]
          refine triple_get fun w hw => triple_ite (fun _ => ?_) fun _ => ?_
          · exact triple_pure fun t ht => hE _ t (ht ▸ hw)
          · have hchunk := (fetchMany_triple hfetch (htick (x :: l)) (hE (x :: l))
              ((x :: l).take reconcileChunk)).pre fun t ht => (show t = w from ht) ▸ hw
            refine hchunk.bind fun fs => ?_
            -- the adds of the chunk, with the rest of the list behind them
            have hadds := triple_forM (f := fun p => onAdded (H := H) p.1 p.2 source)
              (E := fun _ => E)
              (I := fun fs w => I (fs.map Prod.fst ++ (x :: l).drop reconcileChunk) w
                ∧ ∀ p ∈ fs, G p.1 p.2)
              (fun p fs t ht => by
                rw [onAdded_apply]
                exact ⟨hI _ _ _ _ ht.1 (ht.2 p List.mem_cons_self),
                  fun q hq => ht.2 q (List.mem_cons_of_mem _ hq)⟩) fs
            refine Triple.bind (hadds.pre fun t ht => ⟨?_, ht.2.2⟩) fun _ => ?_
            · rw [ht.2.1, List.take_append_drop]
              exact ht.1
            · refine (ih _ ?_).pre fun t ht => ht.1
              simp only [reconcileChunk, List.length_drop, List.length_cons] at hfuel ⊢
              omega

lemma rpc_triple {α : Type} (ask : Bitcoind X H A → Except RpcFailure α) (w : Watcher X H A) :
    Triple (· = w) (rpc env ask) (fun a t => ask (env.node w.calls) = .ok a ∧ t = w.tick 1)
      fun _ t => t = w.tick 1 := by
  rintro s rfl
  rw [rpc]
  cases h : ask (env.node s.calls) with
  | error f => rfl
  | ok a => exact ⟨rfl, rfl⟩

/-- What a reconcile does before its loops. -/
def reconcileStart (w : Watcher X H A) (mempool : Finset X) (tip : ℤ) : Watcher X H A :=
  { w.tick 2 with tipHeight := tip, checked := w.checked ∩ mempool }

variable (cfg env) in
/-- What comes before and behind the loop over the new transactions, which is given by its own
triple. -/
lemma reconcile_frame (source : WatchSource)
    {F : FlaggedTx X H A → ℤ → Option (H × ℤ) → Prop} {C : BlockCache X H → Prop}
    {P S E : Watcher X H A → Prop}
    {I : Finset X → List X → Watcher X H A → Prop} {N : Finset X → Watcher X H A → Prop}
    {J K : Finset X → List (FlaggedTx X H A) → Watcher X H A → Prop}
    (hstart : ∀ w m tip, P w → (env.node w.calls).getRawMempoolTxids = .ok m →
      (env.node (w.calls + 1)).getBlockCount = .ok tip →
      I m.toFinset (env.listing (w.calls + 2) (m.toFinset \ w.checked))
        (reconcileStart w m.toFinset tip))
    (hnew : ∀ m l, Triple (I m l) (checkNew env source l.length l)
      (fun done w => if done = true then N m w else S w) fun _ => E)
    (h₁₂ : ∀ m w, N m w → J m w.store.all w)
    (hempty : C .empty)
    (hfind : ∀ (e : FlaggedTx X H A) (tip : ℤ) (cache : BlockCache X H), C cache →
      Triple (fun _ => True) (findConfirmingBlock env e.txid (scanHeights cfg tip e) cache)
        (fun p _ => F e tip p.1 ∧ C p.2) fun _ _ => True)
    (hmissing : ∀ m e l w w', J m (e :: l) w → Current (e :: l) w →
      MissingStep F source m e w w' → J m l w')
    (h₂₃ : ∀ m w, J m [] w → K m w.store.all w)
    (hdepth : ∀ m e l w w', K m (e :: l) w → Current (e :: l) w →
      DepthStep cfg env e w w' → K m l w')
    (hE₀ : ∀ w n, P w → E (w.tick n)) (hE₂ : ∀ m l w n, J m l w → E (w.tick n))
    (hE₃ : ∀ m l w, K m l w → E (w.tick 1)) :
    Triple P (reconcile cfg env source)
      (fun done w => if done = true then ∃ m, K m [] w else S w) fun _ => E := by
  refine triple_of_each fun w hw => ?_
  rw [reconcile]
  refine ((rpc_triple _ w).weaken (fun _ => id) (fun _ _ => id)
    fun _ t ht => ht ▸ hE₀ w 1 hw).bind fun m => ?_
  refine triple_of_each fun t₁ ⟨hm, ht₁⟩ => ?_
  subst ht₁
  refine ((rpc_triple _ (w.tick 1)).weaken (fun _ => id) (fun _ _ => id)
    fun _ t ht => ht ▸ tick_tick w 1 1 ▸ hE₀ w 2 hw).bind fun tip => ?_
  refine triple_of_each fun t₂ ⟨htip, ht₂⟩ => ?_
  subst ht₂
  refine Triple.bind (triple_modify (Q := fun _ t => t = { (w.tick 1).tick 1 with
    tipHeight := tip }) fun t ht => by rw [ht]) fun _ => triple_get fun t₃ ht₃ => ?_
  subst ht₃
  refine Triple.bind (triple_modify (Q := fun _ => I m.toFinset
    (env.listing (w.calls + 2) (m.toFinset \ w.checked))) ?_) fun _ => ?_
  · rintro _ rfl
    exact hstart w m tip hw hm htip
  refine (hnew m.toFinset _).bind fun done => ?_
  cases done with
  -- stopped between two chunks
  | false => exact triple_pure fun t ht => by simpa using ht
  -- the two loops behind the scan, each with its own invariant
  | true =>
      simp only [if_true]
      refine triple_get fun t₄ ht₄ => ?_
      refine Triple.bind ((resolveMissing_rule (I := J m.toFinset) hfind (hmissing _) (hE₂ _)
        t₄.store.all .empty hempty).pre fun t ht => ?_) fun _ => ?_
      · rw [show t = t₄ from ht]
        exact ⟨h₁₂ _ _ ht₄, current_all _⟩
      · refine Triple.bind ((checkConfirmedDepth_rule (I := K m.toFinset) (hdepth _)
          (hE₃ _)).pre fun t ht => h₂₃ _ t ht) fun _ => ?_
        exact triple_pure fun t ht => by simpa using ⟨_, ht⟩

variable (cfg env) in
/-- The rule of a reconcile: an invariant for each of its loops, all of which may depend on the
mempool it was told. -/
lemma reconcile_rule (source : WatchSource)
    {G : X → Option (RawTx X A × List (MatchRow A)) → Prop}
    {F : FlaggedTx X H A → ℤ → Option (H × ℤ) → Prop} {C : BlockCache X H → Prop}
    {P E : Watcher X H A → Prop}
    {I : Finset X → List X → Watcher X H A → Prop}
    {J K : Finset X → List (FlaggedTx X H A) → Watcher X H A → Prop}
    (hstart : ∀ w m tip, P w → (env.node w.calls).getRawMempoolTxids = .ok m →
      (env.node (w.calls + 1)).getBlockCount = .ok tip →
      I m.toFinset (env.listing (w.calls + 2) (m.toFinset \ w.checked))
        (reconcileStart w m.toFinset tip))
    (hfetch : ∀ x, Triple (fun _ => True) (fetchAndMatch env x none) (fun f _ => G x f)
      fun _ _ => True)
    (htick₁ : ∀ m l w n, I m l w → I m l (w.tick n))
    (hnew : ∀ m x l w f, I m (x :: l) w → G x f → I m l (afterAdded x f source w))
    (h₁₂ : ∀ m w, I m [] w → J m w.store.all w)
    (hempty : C .empty)
    (hfind : ∀ (e : FlaggedTx X H A) (tip : ℤ) (cache : BlockCache X H), C cache →
      Triple (fun _ => True) (findConfirmingBlock env e.txid (scanHeights cfg tip e) cache)
        (fun p _ => F e tip p.1 ∧ C p.2) fun _ _ => True)
    (hmissing : ∀ m e l w w', J m (e :: l) w → Current (e :: l) w →
      MissingStep F source m e w w' → J m l w')
    (h₂₃ : ∀ m w, J m [] w → K m w.store.all w)
    (hdepth : ∀ m e l w w', K m (e :: l) w → Current (e :: l) w →
      DepthStep cfg env e w w' → K m l w')
    (hE₀ : ∀ w n, P w → E (w.tick n)) (hE₁ : ∀ m l w, I m l w → E w)
    (hE₂ : ∀ m l w n, J m l w → E (w.tick n)) (hE₃ : ∀ m l w, K m l w → E (w.tick 1)) :
    Triple P (reconcile cfg env source)
      (fun done w => if done = true then ∃ m, K m [] w else E w) fun _ => E :=
  reconcile_frame cfg env source hstart
    (fun m l => checkNew_rule hfetch (htick₁ m) (hnew m) (hE₁ m) l.length l le_rfl) h₁₂ hempty
    hfind hmissing h₂₃ hdepth hE₀ hE₂ hE₃

/-! ### Every run is a sequence of changes -/

lemma Changes.tick {w w' : Watcher X H A} (h : Changes cfg w w') (n : ℕ) :
    Changes cfg w (w'.tick n) := h.tail (.tick w' n)

lemma Changes.afterAdded {w w' : Watcher X H A} (h : Changes cfg w w') (x : X)
    (f : Option (RawTx X A × List (MatchRow A))) (source : WatchSource) :
    Changes cfg w (afterAdded x f source w') := by
  cases f with
  | none => exact h
  | some f => exact h.tail (.add w' x f.1 f.2 source)

/-- Nothing is ever taken back from the exports. -/
lemma Changes.trace {w w' : Watcher X H A} (h : Changes cfg w w') :
    ∃ items, w'.trace = w.trace ++ items := by
  induction h with
  | refl => exact ⟨[], (List.append_nil _).symm⟩
  | @tail t t' _ h ih =>
      obtain ⟨items, hitems⟩ := ih
      suffices ∃ new, t'.trace = t.trace ++ new by
        obtain ⟨new, hnew⟩ := this
        exact ⟨items ++ new, by rw [hnew, hitems, List.append_assoc]⟩
      cases h with
      | bookkeeping => exact ⟨[], (List.append_nil _).symm⟩
      | add x tx rows source =>
          rw [Watcher.add]
          simp only
          split_ifs
          · exact ⟨[], (List.append_nil _).symm⟩
          · exact ⟨_, rfl⟩
      | confirm => exact ⟨_, rfl⟩
      | unconfirm => exact ⟨_, rfl⟩
      | forget => exact ⟨_, rfl⟩
      | leave _ _ y => cases y <;> exact ⟨_, Watcher.trace_remove _ _⟩

lemma DepthStep.changes {e : FlaggedTx X H A} {w w' : Watcher X H A}
    (h : DepthStep cfg env e w w') (he : w.store.get e.txid = some e) : Changes cfg w w' := by
  cases h with
  | waiting => exact .refl
  | shallow => exact .single (.tick w 1)
  | left hs =>
      exact (Changes.tick .refl 1).tail (.unconfirm (w.tick 1) he (by rw [hs]; rfl) _ _)
  | deep hs _ _ hle =>
      exact (Changes.tick .refl 1).tail (.forget (w.tick 1) he (by rw [hs]; rfl) hle)

lemma MissingStep.changes {F : FlaggedTx X H A → ℤ → Option (H × ℤ) → Prop}
    {source : WatchSource} {mempool : Finset X} {e : FlaggedTx X H A} {w w' : Watcher X H A}
    (h : MissingStep F source mempool e w w') (he : w.store.get e.txid = some e) :
    Changes cfg w w' := by
  cases h with
  | skipped => exact .refl
  | found hs _ _ n => exact (Changes.tick .refl n).tail (.confirm (w.tick n) he hs _ _ _)
  | gone hs _ _ n y => exact (Changes.tick .refl n).tail (.leave (w.tick n) he hs _ _ _)

lemma checkConfirmedDepth_changes (w : Watcher X H A) :
    Triple (Changes cfg w) (checkConfirmedDepth cfg env) (fun _ => Changes cfg w)
      fun _ => Changes cfg w :=
  checkConfirmedDepth_rule (I := fun _ => Changes cfg w)
    (fun _ _ _ _ hI hcur hd => hI.trans (hd.changes hcur.head)) fun _ _ hI => hI.tick 1

/-- Every reconcile is a sequence of changes. -/
lemma reconcile_changes (source : WatchSource) (w : Watcher X H A) :
    Changes cfg w (stateAfter (reconcile cfg env source) w) := by
  have h := reconcile_rule cfg env source (P := (· = w))
    (E := Changes cfg w) (G := fun _ _ => True) (F := fun _ _ _ => True) (C := fun _ => True)
    (I := fun _ _ => Changes cfg w) (J := fun _ _ => Changes cfg w)
    (K := fun _ _ => Changes cfg w)
    (fun t _ _ ht _ _ => .single (ht ▸ .bookkeeping t _ _ _ _))
    (fun _ _ _ => by split <;> trivial) (fun _ _ _ n h => h.tick n)
    (fun _ x _ _ f h _ => h.afterAdded x f source) (fun _ _ h => h) trivial
    (fun _ _ _ _ _ _ => by split <;> trivial)
    (fun _ _ _ _ _ h hcur hm => h.trans (hm.changes hcur.head))
    (fun _ _ h => h) (fun _ _ _ _ _ h hcur hd => h.trans (hd.changes hcur.head))
    (fun t n ht => ht ▸ Changes.tick .refl n) (fun _ _ _ h => h) (fun _ _ _ n h => h.tick n)
    (fun _ _ _ h => h.tick 1)
  have hw := h w rfl
  rw [stateAfter]
  cases hr : reconcile cfg env source w with
  | error f t =>
      rw [hr] at hw
      exact hw
  | ok done t =>
      rw [hr] at hw
      cases done with
      | false => simpa using hw
      | true => simpa using hw

lemma confirmIfIn_triple (inBlock : Finset X) (h : H) (height : ℤ) (e : FlaggedTx X H A)
    (w : Watcher X H A) {E : RpcFailure → Watcher X H A → Prop} :
    Triple (· = w) (confirmIfIn inBlock h height e)
      (fun _ t => t = if e.status.isInMempool = true ∧ e.txid ∈ inBlock
        then w.markConfirmed e h height .zmq else w) E := by
  rw [confirmIfIn]
  refine triple_ite (fun hif => triple_modify fun t ht => ?_) fun hif => triple_pure fun t ht => ?_
  · rw [if_pos (by simpa using hif), ht]
  · rw [if_neg (by simpa using hif), ht]

lemma onBlockConnected_changes (h : H) (w : Watcher X H A) :
    Triple (Changes cfg w) (onBlockConnected cfg env h) (fun _ => Changes cfg w)
      fun _ => Changes cfg w := by
  rw [onBlockConnected]
  refine ((reads_rpc _).triple fun t n ht => ht.tick n).bind fun p => ?_
  obtain ⟨height, _, txids⟩ := p
  refine Triple.bind (triple_modify (Q := fun _ => Changes cfg w) fun t ht =>
    ht.tail (.bookkeeping t t.checked t.unfetched _ t.calls)) fun _ => triple_get fun t ht => ?_
  have hadds := triple_forM (I := fun _ => Changes cfg w) (E := fun _ => Changes cfg w)
    (f := fun x => do onAdded x (← fetchAndMatch env x (some h)) .zmq) (fun x _ =>
      ((reads_fetchAndMatch x (some h)).triple fun t n ht => ht.tick n).bind fun f t ht => by
        rw [onAdded_apply]
        exact ht.afterAdded x f .zmq)
    (env.listing t.calls (t.unfetched ∩ txids.toFinset))
  refine Triple.bind (hadds.pre fun s hs => (show s = t from hs) ▸ ht) fun _ => ?_
  refine Triple.bind (triple_modify (Q := fun _ => Changes cfg w) fun s hs =>
    hs.tail (.bookkeeping s _ _ s.tipHeight s.calls)) fun _ => triple_get fun u hu => ?_
  have hconfirm := triple_forM (I := fun l s => Changes cfg w s ∧ Current l s)
    (E := fun _ => Changes cfg w) (f := confirmIfIn (A := A) txids.toFinset h height)
    (fun e l => triple_of_each fun s hs => (confirmIfIn_triple _ h height e s).post fun _ v hv => by
      have he := hs.2.head
      rw [hv]
      split_ifs with hif
      · exact ⟨hs.1.tail (.confirm s he hif.1 h height .zmq), hs.2.tail fun y hy =>
          (Watcher.get_markConfirmed _ _ _ _ _ _).trans (if_neg hy)⟩
      · exact ⟨hs.1, hs.2.tail fun _ _ => rfl⟩) u.store.all
  refine Triple.bind (hconfirm.pre fun s hs => ?_) fun _ =>
    (checkConfirmedDepth_changes w).pre fun s hs => hs.1
  rw [show s = u from hs]
  exact ⟨hu, current_all u⟩

lemma onRemoved_changes (x : X) (w : Watcher X H A) :
    Triple (Changes cfg w) (onRemoved env x) (fun _ => Changes cfg w) fun _ => Changes cfg w := by
  rw [onRemoved]
  refine Triple.bind (triple_modify (Q := fun _ => Changes cfg w) fun t ht =>
    ht.tail (.bookkeeping t _ t.unfetched t.tipHeight t.calls)) fun _ => triple_get fun t ht => ?_
  cases he : t.store.get x with
  | none => exact triple_pure fun s hs => (show s = t from hs) ▸ ht
  | some e =>
      refine triple_ite (fun hs => ?_) fun _ => triple_pure fun s hs => (show s = t from hs) ▸ ht
      obtain rfl := Keyed.key_of_get he
      refine (onLeftUnmined_triple e .zmq _ t).weaken (fun _ => id) (fun _ s h => ?_)
        fun _ s h => ?_
      · obtain ⟨n, y, rfl⟩ := h
        exact (ht.tick n).tail (.leave (t.tick n) he hs y _ _)
      · obtain ⟨n, rfl⟩ := h
        exact ht.tick n

lemma applyEvent_changes (fetched : List (X × Option (RawTx X A × List (MatchRow A))))
    (event : SequenceEvent X H) (w : Watcher X H A) :
    Triple (Changes cfg w) (applyEvent cfg env fetched event) (fun _ => Changes cfg w)
      fun _ => Changes cfg w := by
  cases event with
  | added x =>
      rw [applyEvent]
      split
      · exact triple_pure fun _ h => h
      · exact triple_modify fun t ht => ht.tail (.bookkeeping t t.checked _ t.tipHeight t.calls)
      · intro t ht
        rw [onAdded_apply]
        exact ht.afterAdded x _ .zmq
  | removed x =>
      rw [applyEvent]
      exact Triple.bind (triple_modify (Q := fun _ => Changes cfg w) fun t ht =>
        ht.tail (.bookkeeping t t.checked _ t.tipHeight t.calls)) fun _ => onRemoved_changes x w
  | connected h => exact onBlockConnected_changes h w
  | disconnected _ => exact checkConfirmedDepth_changes w
  | other => exact triple_pure fun _ h => h

/-- Every batch of events is a sequence of changes. -/
lemma handleEvents_changes (events : List (SequenceEvent X H)) (w : Watcher X H A) :
    Changes cfg w (stateAfter (handleEvents cfg env events) w) := by
  have h : Triple (· = w) (handleEvents cfg env events) (fun _ => Changes cfg w)
      fun _ => Changes cfg w := by
    rw [handleEvents]
    refine triple_get fun t ht => ?_
    refine Triple.bind (((reads_fetchMany _).triple fun t n ht => ht.tick n).pre
      fun s hs => ?_) fun fetched =>
        triple_forM (I := fun _ => Changes cfg w)
          (fun event _ => applyEvent_changes fetched event w) events
    rw [show s = t from hs, show t = w from ht]
  have hw := h w rfl
  rw [stateAfter]
  cases hr : handleEvents cfg env events w with
  | error f t =>
      rw [hr] at hw
      exact hw
  | ok _ t =>
      rw [hr] at hw
      exact hw

end MempoolWatch

end BtcParser
