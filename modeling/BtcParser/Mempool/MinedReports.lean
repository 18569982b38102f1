import BtcParser.Mempool.Lifecycle
import BtcParser.Mempool.NodeChain

/-!
What a reconcile reports of a tracked transaction that has left the mempool because it was mined.

The scan for its block ends at the height at which it was first seen. `Found` and `Lost` are what
is left of the transaction after the loop over the missing transactions, according to whether that
height is above its block; `mined_reported_iff` follows their way through a reconcile. The
transaction is reported as confirmed exactly if it was first seen at a height not above its block.
-/

namespace BtcParser

namespace MempoolWatch

open Program

variable {X H A : Type}

/-- The items about a transaction. -/
def itemsOf [DecidableEq X] (x : X) (trace : List (TraceItem X H A)) : List (TraceItem X H A) :=
  trace.filter fun i => TraceItem.txid i = x

/-- No item reports the transaction as gone. -/
def NeverGone (x : X) (items : List (TraceItem X H A)) : Prop :=
  ∀ i ∈ items, TraceItem.txid i = x →
    TraceItem.move i ≠ .exported .replaced ∧ TraceItem.move i ≠ .exported .removed

/-- An item reports the transaction as mined in this block. -/
def ReportedMined (x : X) (h : H) (height : ℤ) (items : List (TraceItem X H A)) : Prop :=
  ∃ e, .exported e ∈ items ∧ e.tx.txid = x ∧ e.event = .confirmed ∧ e.block = some (h, height)

variable [LinearOrder X] {cfg : MempoolWatchConfig} {env : WatchEnv X H A} {c : TxChain X H}

lemma itemsOf_append_ne {trace : List (TraceItem X H A)} {i : TraceItem X H A} {x : X}
    (h : TraceItem.txid i ≠ x) : itemsOf x (trace ++ [i]) = itemsOf x trace := by
  simp [itemsOf, h]

lemma itemsOf_append_self {trace : List (TraceItem X H A)} {i : TraceItem X H A} {x : X}
    (h : TraceItem.txid i = x) : itemsOf x (trace ++ [i]) = itemsOf x trace ++ [i] := by
  simp [itemsOf, h]

lemma itemsOf_forget (w : Watcher X H A) (x : X) (k : ℤ) :
    itemsOf x (w.forget x k).trace = itemsOf x w.trace ++ [.forgotten x k] :=
  itemsOf_append_self rfl

/-! ### What the steps of other transactions leave alone -/

/-- The transaction `x` has the same entry, and there is no new item about it. -/
def SameFor (x : X) (w w' : Watcher X H A) : Prop :=
  w'.store.get x = w.store.get x ∧ itemsOf x w'.trace = itemsOf x w.trace
    ∧ w'.tipHeight = w.tipHeight

lemma tipHeight_remove (w : Watcher X H A) (x : X) : (w.remove x).tipHeight = w.tipHeight := by
  rw [Watcher.remove]
  split_ifs <;> rfl

lemma trace_leave (w : Watcher X H A) (e : FlaggedTx X H A) (y : Option X) (source : WatchSource)
    (detail : WatchDetail H) : ∃ g, (w.leave e y source detail).trace = w.trace ++ [.exported g]
      ∧ g.tx = e ∧ (g.event = .replaced ∨ g.event = .removed) := by
  cases y with
  | none => exact ⟨_, Watcher.trace_remove _ _, rfl, .inr rfl⟩
  | some y => exact ⟨_, Watcher.trace_remove _ _, rfl, .inl rfl⟩

lemma DepthStep.sameFor {e : FlaggedTx X H A} {x : X} {w w' : Watcher X H A}
    (h : DepthStep cfg env e w w') (hx : x ≠ e.txid) : SameFor x w w' := by
  refine ⟨h.get_ne x hx, ?_⟩
  cases h with
  | waiting => exact ⟨rfl, rfl⟩
  | shallow => exact ⟨rfl, rfl⟩
  | left => exact ⟨itemsOf_append_ne hx.symm, rfl⟩
  | deep => exact ⟨itemsOf_append_ne hx.symm, tipHeight_remove _ _⟩

lemma MissingStep.sameFor {F : FlaggedTx X H A → ℤ → Option (H × ℤ) → Prop}
    {source : WatchSource} {mempool : Finset X} {e : FlaggedTx X H A} {x : X}
    {w w' : Watcher X H A} (h : MissingStep F source mempool e w w') (hx : x ≠ e.txid) :
    SameFor x w w' := by
  refine ⟨h.get_ne x hx, ?_⟩
  cases h with
  | skipped => exact ⟨rfl, rfl⟩
  | found => exact ⟨itemsOf_append_ne hx.symm, rfl⟩
  | gone _ _ _ n y =>
      obtain ⟨g, hg, htx, -⟩ := trace_leave (w.tick n) e y source .leftMempoolUnobserved
      refine ⟨?_, by cases y <;> exact tipHeight_remove _ _⟩
      rw [hg, itemsOf_append_ne (by rw [TraceItem.txid, htx]; exact hx.symm)]
      rfl

/-- An entry that is there stays as it is when a transaction is added. -/
lemma sameFor_afterAdded {x y : X} {f : Option (RawTx X A × List (MatchRow A))}
    {s : WatchSource} {w : Watcher X H A} {e : FlaggedTx X H A}
    (he : w.store.get x = some e) : SameFor x w (afterAdded y f s w) := by
  cases f with
  | none => exact ⟨rfl, rfl, rfl⟩
  | some f =>
      by_cases hxy : x = y
      · subst hxy
        have hc : w.store.contains x = true := Keyed.contains_iff.mpr ⟨e, he⟩
        simp only [afterAdded, Watcher.add, hc, Bool.or_true, if_true]
        exact ⟨rfl, rfl, rfl⟩
      · refine ⟨w.get_add_ne hxy _ _ _, ?_⟩
        simp only [afterAdded, Watcher.add]
        split_ifs
        · exact ⟨rfl, rfl⟩
        · exact ⟨itemsOf_append_ne (Ne.symm hxy), rfl⟩

/-! ### The transaction in a reconcile -/

section Mined

variable (x : X) (e : FlaggedTx X H A) (h : H) (n : ℤ) (base : List (TraceItem X H A))

/-- Nothing has happened to the transaction. -/
def Pending (w : Watcher X H A) : Prop :=
  w.store.get x = some e ∧ itemsOf x w.trace = base

/-- It was confirmed, and then perhaps forgotten. -/
def Found (w : Watcher X H A) : Prop :=
  ∃ i, ReportedMined x h n [i]
    ∧ (itemsOf x w.trace = base ++ [i] ∧ w.store.get x = some { e with status := .confirmed h n }
      ∨ ∃ k, itemsOf x w.trace = base ++ [i, .forgotten x k] ∧ w.store.get x = none)

/-- It was reported as gone. -/
def Lost (w : Watcher X H A) : Prop :=
  ∃ i, ¬ NeverGone x [i] ∧ itemsOf x w.trace = base ++ [i] ∧ w.store.get x = none

/-- What the height at which it was first seen makes of it. -/
def Resolved (w : Watcher X H A) : Prop :=
  (e.firstSeenHeight ≤ n → Found x e h n base w) ∧ (n < e.firstSeenHeight → Lost x base w)

/-- No reconcile that was abandoned has lost it, if it was not first seen above its block. -/
def NotLost (w : Watcher X H A) : Prop :=
  e.firstSeenHeight ≤ n → Pending x e base w ∨ Found x e h n base w

variable {x e h n base} {w w' : Watcher X H A}

lemma Pending.same (hw : Pending x e base w) (hs : SameFor x w w') : Pending x e base w' :=
  ⟨hs.1.trans hw.1, hs.2.1.trans hw.2⟩

lemma Found.same (hw : Found x e h n base w) (hs : SameFor x w w') : Found x e h n base w' := by
  obtain ⟨i, hi, hcase⟩ := hw
  refine ⟨i, hi, ?_⟩
  rw [hs.1, hs.2.1]
  exact hcase

lemma Lost.same (hw : Lost x base w) (hs : SameFor x w w') : Lost x base w' := by
  obtain ⟨i, hi, hcase⟩ := hw
  refine ⟨i, hi, ?_⟩
  rw [hs.1, hs.2.1]
  exact hcase

lemma Resolved.same (hw : Resolved x e h n base w) (hs : SameFor x w w') :
    Resolved x e h n base w' :=
  ⟨fun hle => (hw.1 hle).same hs, fun hlt => (hw.2 hlt).same hs⟩

lemma Resolved.notLost (hw : Resolved x e h n base w) : NotLost x e h n base w :=
  fun hle => .inr (hw.1 hle)

lemma Pending.notLost (hw : Pending x e base w) : NotLost x e h n base w := fun _ => .inl hw

omit [LinearOrder X] in
/-- The search reaches the block of a transaction exactly if that is not below the height at which
it was first seen. -/
lemma searched_iff {found : Option (H × ℤ)} {txids : List X} (hx : e.txid ∈ txids)
    (hb : c.blockAt n = some (h, txids))
    (hlast : ∀ k b, n < k → c.blockAt k = some b → e.txid ∉ b.2)
    (hwin : c.tip - cfg.maxConfirmationScanBlocks < n)
    (hf : Searched c e.txid (scanHeights cfg c.tip e) found) :
    found = if e.firstSeenHeight ≤ n then some (h, n) else none := by
  have hbounds := TxChain.bounds_of_blockAt hb
  split_ifs with hle
  · have hmem : n ∈ scanHeights cfg c.tip e := mem_scanHeights.mpr ⟨hbounds.2, hle, hwin, hbounds.1⟩
    cases found with
    | none => exact absurd hx (hf n hmem _ hb)
    | some p =>
        obtain ⟨-, ⟨txids', hb', hx'⟩, hhigher⟩ := hf
        obtain hlt | heq | hgt := lt_trichotomy p.2 n
        · exact absurd hx (hhigher n hmem hlt _ hb)
        · rw [heq, hb] at hb'
          cases hb'
          rw [← heq]
        · exact absurd hx' (hlast _ _ hgt hb')
  · cases found with
    | none => rfl
    | some p =>
        obtain ⟨hmem, ⟨txids', hb', hx'⟩, -⟩ := hf
        have := (mem_scanHeights.mp hmem).2.1
        exact absurd hx' (hlast _ _ (by omega) hb')

/-- Its turn in the loop over the missing transactions. -/
lemma Pending.resolve {source : WatchSource} {mempool : Finset X} (hw : Pending x e base w)
    (hex : e.txid = x) (hs : e.status.isInMempool = true) (hx : x ∉ mempool)
    (htip : w.tipHeight = c.tip)
    (hsearch : ∀ found, Searched c e.txid (scanHeights cfg c.tip e) found →
      found = if e.firstSeenHeight ≤ n then some (h, n) else none)
    (hstep : MissingStep (fun e tip found => Searched c e.txid (scanHeights cfg tip e) found)
      source mempool e w w') : Resolved x e h n base w' := by
  subst hex
  cases hstep with
  | skipped hskip => exact absurd (hskip hs) hx
  | found _ _ hf m =>
      rw [htip] at hf
      have hfound := hsearch _ hf
      split_ifs at hfound with hle
      cases hfound
      refine ⟨fun _ => ⟨.exported ⟨.confirmed, { e with status := .confirmed h n }, some (h, n),
        source, none, none⟩, ⟨_, List.mem_cons_self, rfl, rfl, rfl⟩, .inl ⟨?_, ?_⟩⟩,
        fun hlt => by omega⟩
      · rw [← hw.2]
        exact itemsOf_append_self rfl
      · exact (Watcher.get_markConfirmed _ _ _ _ _ _).trans (if_pos rfl)
  | gone _ _ hf m y =>
      rw [htip] at hf
      have hfound := hsearch _ hf
      split_ifs at hfound with hle
      refine ⟨fun h => absurd h hle, fun _ => ?_⟩
      obtain ⟨g, hg, htx, hev⟩ := trace_leave (w.tick m) e y source .leftMempoolUnobserved
      refine ⟨.exported g, fun hnever => ?_, ?_, (Watcher.get_leave _ _ _ _ _ _).trans (if_pos rfl)⟩
      · have := hnever _ List.mem_cons_self (by rw [TraceItem.txid, htx])
        rcases hev with hev | hev <;> simp [TraceItem.move, hev] at this
      · rw [hg, itemsOf_append_self (by rw [TraceItem.txid, htx])]
        rw [← hw.2]
        rfl

/-- Its turn in the check of the depths. -/
lemma Resolved.depth {txids : List X} {e' : FlaggedTx X H A} (hw : Resolved x e h n base w)
    (henv : ∀ k, (env.node k).OnChain c) (hb : c.blockAt n = some (h, txids)) (hex : e.txid = x)
    (hcur : w.store.get e'.txid = some e') (hstep : DepthStep cfg env e' w w') :
    Resolved x e h n base w' := by
  by_cases hne : x = e'.txid
  · refine ⟨fun hle => ?_, fun hlt => ?_⟩
    · obtain ⟨i, hi, ⟨hitems, hget⟩ | ⟨k, -, hget⟩⟩ := hw.1 hle
      · rw [hne, hcur] at hget
        cases hget
        cases hstep with
        | waiting hs => cases hs
        | shallow => exact ⟨i, hi, .inl ⟨hitems, by rw [← hcur, ← hne]; rfl⟩⟩
        | left hs hc =>
            cases hs
            have := (henv _).active n _ txids _ hb hc
            have := TxChain.bounds_of_blockAt hb
            omega
        | @deep _ _ k hs hc _ hle =>
            subst hex
            refine ⟨i, hi, .inr ⟨k, (itemsOf_forget (w.tick 1) e.txid k).trans ?_, ?_⟩⟩
            · rw [show (w.tick 1).trace = w.trace from rfl, hitems, List.append_assoc]
              rfl
            · exact (Watcher.get_forget _ _ _ _).trans (if_pos rfl)
      · rw [hne, hcur] at hget
        cases hget
    · obtain ⟨-, -, -, hget⟩ := hw.2 hlt
      rw [hne, hcur] at hget
      cases hget
  · exact hw.same (hstep.sameFor hne)

variable (cfg) in
/-- The transaction in a whole reconcile: resolved if it runs to its end, and not lost if not. -/
lemma reconcile_resolves (source : WatchSource) {snapshot txids : List X} {w : Watcher X H A}
    (henv : ∀ k, (env.node k).OnChain c)
    (hsnap : (env.node w.calls).getRawMempoolTxids = .ok snapshot)
    (he : w.store.get x = some e) (hs : e.status.isInMempool = true) (hx : x ∉ snapshot)
    (hb : c.blockAt n = some (h, txids)) (hmem : x ∈ txids)
    (hlast : ∀ k b, n < k → c.blockAt k = some b → x ∉ b.2)
    (hwin : c.tip - cfg.maxConfirmationScanBlocks < n) :
    Triple (· = w) (reconcile cfg env source)
      (fun done t => if done = true then Resolved x e h n (itemsOf x w.trace) t
        else NotLost x e h n (itemsOf x w.trace) t)
      fun _ t => NotLost x e h n (itemsOf x w.trace) t := by
  have hex : e.txid = x := Keyed.key_of_get he
  have hrule := reconcile_rule cfg env source (P := (· = w))
    (E := NotLost x e h n (itemsOf x w.trace)) (G := fun _ _ => True)
    (F := fun e tip found => Searched c e.txid (scanHeights cfg tip e) found) (C := CacheOf c)
    (I := fun m _ t => x ∉ m ∧ t.tipHeight = c.tip ∧ Pending x e (itemsOf x w.trace) t)
    (J := fun m l t => x ∉ m ∧ t.tipHeight = c.tip
      ∧ if x ∈ l.map (·.txid) then Pending x e (itemsOf x w.trace) t
        else Resolved x e h n (itemsOf x w.trace) t)
    (K := fun _ _ t => Resolved x e h n (itemsOf x w.trace) t)
    ?_ (fun _ _ _ => by split <;> trivial) (fun _ _ _ _ h => h) ?_ ?_ nofun ?_ ?_ ?_ ?_ ?_ ?_ ?_ ?_
  -- at the end the loop over the missing ones has come to it
  · refine hrule.post fun done t ht => ?_
    cases done with
    | false => simpa using ht
    | true => simpa using ht
  · rintro t m tip rfl hm htip
    refine ⟨?_, (henv _).count _ htip, he, rfl⟩
    rw [hsnap] at hm
    cases hm
    simpa using hx
  -- the new transactions do not touch it
  · rintro m y l t f ⟨hxm, htip, hpend⟩ -
    have hsame := sameFor_afterAdded (y := y) (f := f) (s := source) hpend.1
    exact ⟨hxm, hsame.2.2.trans htip, hpend.same hsame⟩
  -- it is among the entries that are looked through
  · rintro m t ⟨hxm, htip, hpend⟩
    refine ⟨hxm, htip, ?_⟩
    have hmem : x ∈ t.store.all.map (·.txid) :=
      List.mem_map.mpr ⟨e, Keyed.mem_all.mpr (by rw [hex]; exact hpend.1), hex⟩
    rwa [if_pos hmem]
  · intro e' tip cache hcache
    exact findConfirmingBlock_triple henv e'.txid _ (scanHeights_pairwise tip e') hcache
  · rintro m e' l t t' ⟨hxm, htip, hif⟩ hcur hstep
    -- its own turn: what the search has found decides
    by_cases hne : x = e'.txid
    · have hcase : x ∈ (e' :: l).map (·.txid) := by simp [hne]
      rw [if_pos hcase] at hif
      have hee : e' = e := Option.some.inj (hcur.head.symm.trans (hne ▸ hif.1))
      subst hee
      refine ⟨hxm, ?_, ?_⟩
      · cases hstep with
        | skipped => exact htip
        | found => exact htip
        | gone _ _ _ _ y => exact (by cases y <;> exact (tipHeight_remove _ _).trans htip)
      · rw [if_neg (hne ▸ hcur.notMem)]
        exact hif.resolve hex hs hxm htip
          (fun _ => searched_iff (hex ▸ hmem) hb (hex ▸ hlast) hwin) hstep
    · have hsame := hstep.sameFor hne
      refine ⟨hxm, hsame.2.2.trans htip, ?_⟩
      have hiff : x ∈ (e' :: l).map (·.txid) ↔ x ∈ l.map (·.txid) := by simp [hne]
      simp only [hiff] at hif
      split_ifs at hif ⊢ with hl
      · exact hif.same hsame
      · exact hif.same hsame
  · rintro m t ⟨-, -, hif⟩
    simpa using hif
  -- the depth of its block is looked at behind all of them
  · intro m e' l t t' ht hcur hstep
    exact ht.depth henv hb hex hcur.head hstep
  · rintro t k rfl
    exact Pending.notLost ⟨he, rfl⟩
  · exact fun _ _ t ht => ht.2.2.notLost
  · rintro m l t k ⟨-, -, hif⟩
    split_ifs at hif
    · exact hif.notLost
    · exact hif.notLost
  · exact fun _ _ t ht => ht.notLost

end Mined

lemma neverGone_itemsOf {x : X} {items : List (TraceItem X H A)} :
    NeverGone x (itemsOf x items) ↔ NeverGone x items := by
  simp only [NeverGone, itemsOf, List.mem_filter, decide_eq_true_eq, and_imp]
  exact ⟨fun h i hi hx => h i hi hx hx, fun h i hi hx _ => h i hi hx⟩

lemma reportedMined_itemsOf {x : X} {h : H} {n : ℤ} {items : List (TraceItem X H A)} :
    ReportedMined x h n (itemsOf x items) ↔ ReportedMined x h n items := by
  simp only [ReportedMined, itemsOf, List.mem_filter, decide_eq_true_eq]
  constructor
  · rintro ⟨e, ⟨he, -⟩, hrest⟩
    exact ⟨e, he, hrest⟩
  · rintro ⟨e, he, hrest⟩
    exact ⟨e, ⟨he, hrest.1⟩, hrest⟩

lemma reports_of_found {x : X} {e : FlaggedTx X H A} {h : H} {n : ℤ}
    {base items : List (TraceItem X H A)} {w : Watcher X H A} (hw : Found x e h n base w)
    (hitems : itemsOf x w.trace = base ++ itemsOf x items) :
    ReportedMined x h n items ∧ NeverGone x items := by
  rw [← reportedMined_itemsOf, ← neverGone_itemsOf]
  obtain ⟨i, ⟨g, hg, hgx, hev, hblock⟩, hcase⟩ := hw
  obtain rfl := List.mem_singleton.mp hg
  have hnew : itemsOf x items = [.exported g]
      ∨ ∃ k, itemsOf x items = [.exported g, .forgotten x k] := by
    rcases hcase with ⟨hcase, -⟩ | ⟨k, hcase, -⟩
    · exact .inl (List.append_cancel_left (hitems.symm.trans hcase))
    · exact .inr ⟨k, List.append_cancel_left (hitems.symm.trans hcase)⟩
  rcases hnew with hnew | ⟨k, hnew⟩
  · rw [hnew]
    refine ⟨⟨g, by simp, hgx, hev, hblock⟩, fun i hi _ => ?_⟩
    obtain rfl := List.mem_singleton.mp hi
    simp [TraceItem.move, hev]
  · rw [hnew]
    refine ⟨⟨g, by simp, hgx, hev, hblock⟩, fun i hi _ => ?_⟩
    rcases List.mem_pair.mp hi with rfl | rfl <;> simp [TraceItem.move, *]

/-- **What is reported of a mined transaction**: a reconcile on a chain that does not change
meanwhile, started in any state, finds a tracked transaction missing from the mempool, and the
transaction is in the block at height `n`, one of the `max_confirmation_scan_blocks` highest. If it
was first seen at a height up to `n`, it is not reported as replaced or removed, also when the
reconcile is abandoned; and a reconcile that runs to its end reports it as confirmed in this block,
and not as gone, exactly if it was first seen at such a height. -/
theorem mined_reported_iff (cfg : MempoolWatchConfig) (w : Watcher X H A) (env : WatchEnv X H A)
    (source : WatchSource) (c : TxChain X H) (henv : ∀ k, (env.node k).OnChain c)
    (snapshot : List X) (hsnap : (env.node 0).getRawMempoolTxids = .ok snapshot)
    (x : X) (e : FlaggedTx X H A) (he : w.store.get x = some e)
    (hs : e.status.isInMempool = true) (hx : x ∉ snapshot)
    (n : ℤ) (h : H) (txids : List X) (hb : c.blockAt n = some (h, txids)) (hmem : x ∈ txids)
    (hlast : ∀ k b, n < k → c.blockAt k = some b → x ∉ b.2)
    (hwin : c.tip - cfg.maxConfirmationScanBlocks < n) :
    let new := (next cfg (.reconcile env source) w).trace.drop w.trace.length
    (e.firstSeenHeight ≤ n → NeverGone x new)
      ∧ ∀ t, reconcile cfg env source { w with calls := 0 } = .ok true t →
        (ReportedMined x h n new ∧ NeverGone x new ↔ e.firstSeenHeight ≤ n) := by
  have htriple := reconcile_resolves cfg source
    (w := { w with calls := 0 }) henv hsnap he hs hx hb hmem hlast hwin
  obtain ⟨items, htrace⟩ := (show Changes cfg _
    (stateAfter (reconcile cfg env source) { w with calls := 0 }) from
    reconcile_changes source _).trace
  have hnew : (next cfg (.reconcile env source) w).trace.drop w.trace.length = items := by
    rw [next, htrace]
    exact List.drop_left
  have hitems : ∀ t : Watcher X H A, t = next cfg (.reconcile env source) w →
      itemsOf x t.trace = itemsOf x w.trace ++ itemsOf x items := by
    rintro _ rfl
    rw [next, htrace, itemsOf, List.filter_append]
    rfl
  simp only [hnew]
  constructor
  · intro hle
    -- an abandoned reconcile has not come to it, or has confirmed it
    have hlost : NotLost x e h n (itemsOf x w.trace) (next cfg (.reconcile env source) w) := by
      rw [next, stateAfter]
      have := htriple { w with calls := 0 } rfl
      split at this <;> next t hr =>
        rw [hr]
        first
        | exact this
        | (split_ifs at this
           · exact this.notLost
           · exact this)
    rcases hlost hle with hpend | hfound
    · have hempty : itemsOf x items = [] := by
        have := (hitems _ rfl).symm.trans hpend.2
        simpa using this
      rw [← neverGone_itemsOf, hempty]
      exact fun _ hi => absurd hi List.not_mem_nil
    · exact (reports_of_found hfound (hitems _ rfl)).2
  · intro t ht
    have hafter : t = next cfg (.reconcile env source) w := by
      rw [next, stateAfter, ht]
    have hres : Resolved x e h n (itemsOf x w.trace) t := by
      simpa using htriple.of_ok rfl ht
    constructor
    -- first seen above the block: the search did not reach it
    · rintro ⟨-, hnever⟩
      by_contra hlt
      obtain ⟨i, hi, hcase, -⟩ := hres.2 (not_le.mp hlt)
      have := List.append_cancel_left ((hitems t hafter).symm.trans hcase)
      rw [← neverGone_itemsOf, this] at hnever
      exact hi hnever
    · exact fun hle => reports_of_found (hres.1 hle) (hitems t hafter)

/-- The watcher that has seen a transaction while block `2`, at height `2`, was the highest. -/
def seenAtTwo : Watcher (Fin 4) ℕ ℕ :=
  next plainConfig
    (.reconcile (plainEnv ⟨[(0, []), (1, []), (2, [])], by decide⟩ [plainTx]) .startupScan) .fresh

/-- Its entry. -/
def seenEntry : FlaggedTx (Fin 4) ℕ ℕ :=
  ⟨plainTx, 2, none, none, [(spentTx, 0)],
    [⟨.output, 0, 7, none, none, ⟨"name", "first name", "program", "list"⟩⟩], .inMempool⟩

/-- The transaction is mined in the next block, and reported as confirmed. -/
theorem mined_reported_iff_next :
    let env := plainEnv ⟨[(0, []), (1, []), (2, []), (3, [0])], by decide⟩ []
    ReportedMined 0 3 3 ((next plainConfig (.reconcile env .reconcile) seenAtTwo).trace.drop
      seenAtTwo.trace.length) := by
  intro env
  have hlast : ∀ k b, 3 < k → TxChain.blockAt ⟨[(0, []), (1, []), (2, []), (3, [0])], by decide⟩ k
      = some b → (0 : Fin 4) ∉ b.2 := fun k b hk hb => by
    have := (TxChain.bounds_of_blockAt hb).2
    simp [TxChain.tip] at this
    omega
  obtain ⟨-, h⟩ := mined_reported_iff plainConfig seenAtTwo env .reconcile
    ⟨[(0, []), (1, []), (2, []), (3, [0])], by decide⟩ (fun _ => nodeOf_onChain _ _ _) [] rfl
    0 seenEntry (by decide +kernel) rfl (by decide) 3 3 [0] (by decide) (by decide)
    hlast (by decide)
  exact ((h (next plainConfig (.reconcile env .reconcile) seenAtTwo) rfl).mpr (by decide)).1

/-- After a reorg to a longer chain it is in the block at height `1`, below the height at which it
was first seen: it is reported as removed. -/
theorem mined_reported_removed :
    let c : TxChain (Fin 4) ℕ := ⟨[(0, []), (11, [0]), (12, []), (13, [])], by decide⟩
    (system plainConfig).Reach anyStep seenAtTwo
      ∧ seenAtTwo.store.get 0 = some seenEntry ∧ seenEntry.status.isInMempool = true
      ∧ c.blockAt 1 = some (11, [0]) ∧ c.tip - plainConfig.maxConfirmationScanBlocks < 1
      ∧ ¬ NeverGone 0 ((next plainConfig
        (.reconcile (plainEnv c []) .reconcile) seenAtTwo).trace.drop
        seenAtTwo.trace.length) := by
  intro c
  refine ⟨.step (.init rfl) trivial rfl, by decide +kernel, rfl, by decide, by decide, ?_⟩
  have hlast : (next plainConfig (.reconcile (plainEnv c []) .reconcile) seenAtTwo).trace.drop
      seenAtTwo.trace.length = [.exported ⟨.removed, seenEntry, none, .reconcile, none,
        some .leftMempoolUnobserved⟩] := by decide +kernel
  rw [hlast]
  exact fun h => (h _ List.mem_cons_self rfl).2 rfl

end MempoolWatch

end BtcParser
