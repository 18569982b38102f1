import BtcParser.Mempool.Batching
import BtcParser.Mempool.NodeChain

/-!
Which batches can be cut anywhere.

* `View` is what the watcher knows of one transaction, and `View.step` what an event makes of it.
* `probe` is an environment in which only `x` can be fetched, every block contains it, and a
  confirmed transaction is deep at once. There the watcher `Shows` its view, and a batch is a run of
  `View.step` (`handleEvents_probe`).
* `batches_iff`: it makes no difference where a batch is cut, whatever the surroundings, exactly if
  it is steady. A batch that is not has a cut which exports `x` more or less often.
-/

namespace BtcParser

open SequenceEvent

variable {X H A : Type}

/-! ### The view of one transaction -/

/-- Whether the entry of `x` is in the mempool, if there is one; whether `x` is in `checked`; and
how often it has been exported as `seen`. -/
structure View where
  entry : Option Bool
  checked : Bool
  seen : ℕ

namespace View

variable [DecidableEq X] (x : X) (fetched : Bool)

/-- An event, when `x` has been fetched or not. -/
def step (v : View) : SequenceEvent X H → View
  | .added y =>
      if y = x ∧ fetched = true then
        if v.entry = none then ⟨some true, true, v.seen + 1⟩ else { v with checked := true }
      else v
  | .removed y =>
      if y = x then ⟨if v.entry = some true then none else v.entry, false, v.seen⟩ else v
  | .connected _ => ⟨none, false, v.seen⟩
  | .disconnected _ => { v with entry := if v.entry = some false then none else v.entry }
  | .other => v

/-- A list of events. -/
def run (v : View) (l : List (SequenceEvent X H)) : View := l.foldl (step x fetched) v

variable {x fetched} {v : View} {e : SequenceEvent X H} {l : List (SequenceEvent X H)}

lemma run_append (l' : List (SequenceEvent X H)) :
    v.run x fetched (l ++ l') = (v.run x fetched l).run x fetched l' :=
  List.foldl_append

lemma seen_step_le : v.seen ≤ (v.step x fetched e).seen := by
  cases e with
  | added y =>
      rw [step]
      split_ifs
      · exact Nat.le_succ _
      · exact le_rfl
      · exact le_rfl
  | removed y =>
      rw [step]
      split_ifs <;> exact le_rfl
  | _ => exact le_rfl

lemma seen_run_le : v.seen ≤ (v.run x fetched l).seen := by
  induction l generalizing v with
  | nil => exact le_rfl
  | cons e l ih => exact seen_step_le.trans ih

/-- Nothing is exported of what has not been fetched. -/
lemma seen_step_false : (v.step x false e).seen = v.seen := by
  cases e with
  | added y =>
      rw [step, if_neg fun h => Bool.false_ne_true h.2]
  | removed y =>
      rw [step]
      split_ifs <;> rfl
  | _ => rfl

lemma seen_run_false : (v.run x false l).seen = v.seen := by
  induction l generalizing v with
  | nil => rfl
  | cons e l ih => exact ih.trans seen_step_false

/-- Without an entry, only an `A` makes one. -/
lemma entry_step (h : v.entry = none) (ha : e = .added x → fetched = false) :
    (v.step x fetched e).entry = none := by
  cases e with
  | added y =>
      rw [step, if_neg]
      · exact h
      · rintro ⟨rfl, hf⟩
        exact Bool.false_ne_true ((ha rfl).symm.trans hf)
  | removed y =>
      rw [step]
      split_ifs <;> simp [h]
  | connected b => rfl
  | disconnected b => simp [step, h]
  | other => exact h

lemma entry_run_false (h : v.entry = none) : (v.run x false l).entry = none := by
  induction l generalizing v with
  | nil => exact h
  | cons e l ih => exact ih (entry_step h fun _ => rfl)

/-- Without an entry, the next `A` is exported. -/
lemma seen_run_lt (h : v.entry = none) (ha : .added x ∈ l) :
    v.seen < (v.run x true l).seen := by
  induction l generalizing v with
  | nil => cases ha
  | cons e l ih =>
      by_cases he : e = .added x
      · subst he
        have hstep : (v.step x true (.added x : SequenceEvent X H)).seen = v.seen + 1 := by
          rw [step, if_pos ⟨rfl, rfl⟩, if_pos h]
        exact (Nat.lt_succ_self _).trans_le (hstep.symm.le.trans seen_run_le)
      · have htail := (List.mem_cons.mp ha).resolve_left (Ne.symm he)
        exact seen_step_le.trans_lt (ih (entry_step h fun hc => absurd hc he) htail)

lemma checked_added : (v.step x true (.added x : SequenceEvent X H)).checked = true := by
  rw [step, if_pos ⟨rfl, rfl⟩]
  split_ifs <;> rfl

/-- What lifts `x` takes it out of `checked`. -/
lemma checked_lifts (h : e.lifts x) : (v.step x fetched e).checked = false := by
  cases e with
  | removed y => rw [step, if_pos (show y = x from h)]
  | connected b => rfl
  | _ => exact h.elim

/-- What lifts `x` takes its entry, if that is in the mempool. -/
lemma entry_lifts (hv : v.entry ≠ some false) (h : e.lifts x) :
    (v.step x fetched e).entry = none := by
  cases e with
  | removed y =>
      rw [step, if_pos (show y = x from h)]
      rcases hentry : v.entry with _ | (_ | _)
      · rfl
      · exact absurd hentry hv
      · rfl
  | connected b => rfl
  | _ => exact h.elim

lemma entry_step_ne (hv : v.entry ≠ some false) : (v.step x fetched e).entry ≠ some false := by
  cases e with
  | added y =>
      rw [step]
      split_ifs
      · exact fun h => Bool.false_ne_true (Option.some.inj h).symm
      · exact hv
      · exact hv
  | removed y =>
      rw [step]
      split_ifs
      · exact Option.some_ne_none _ ∘ Eq.symm
      · exact hv
      · exact hv
  | connected b => exact Option.some_ne_none _ ∘ Eq.symm
  | disconnected b => simp [step, hv]
  | other => exact hv

lemma entry_run_ne (hv : v.entry ≠ some false) : (v.run x fetched l).entry ≠ some false := by
  induction l generalizing v with
  | nil => exact hv
  | cons e l ih => exact ih (entry_step_ne hv)

/-- A confirmed entry stays until the depth is looked at. -/
lemma entry_run_quiet (hv : v.entry = some false) (hl : ∀ e ∈ l, e.asksDepth = false) :
    (v.run x fetched l).entry = some false := by
  induction l generalizing v with
  | nil => exact hv
  | cons e l ih =>
      refine ih ?_ fun e he => hl e (List.mem_cons_of_mem _ he)
      have he := hl e List.mem_cons_self
      cases e with
      | added y =>
          rw [step]
          split_ifs with h hnone
          · rw [hv] at hnone
            cases hnone
          · exact hv
          · exact hv
      | removed y =>
          rw [step]
          split_ifs <;> simp_all
      | connected b => cases he
      | disconnected b => cases he
      | other => exact hv

lemma entry_depth (hv : v.entry = some false) (he : e.asksDepth = true) :
    (v.step x fetched e).entry = none := by
  cases e with
  | connected b => rfl
  | disconnected b => simp [step, hv]
  | _ => cases he

end View

namespace MempoolWatch

open Program

variable [LinearOrder X] (cfg : MempoolWatchConfig) (x : X)

/-! ### The environment -/

/-- The transaction that can be fetched. -/
def probeTx [Inhabited A] : RawTx X A :=
  ⟨[], [⟨⟨some default, [], none⟩, 0⟩], none, none⟩

/-- The entry of the list it matches. -/
def probeRow [Inhabited A] : MatchRow A :=
  ⟨.output, 0, default, btcToSats none, none, ⟨"", "", "", ""⟩⟩

/-- Only `x` can be fetched, every block contains `x` alone, and every block is deep. -/
def probe [Inhabited A] : WatchEnv X H A where
  node _ :=
    { getBlockCount := .ok 0
      getRawMempoolTxids := .ok []
      getRawTransaction := fun y h => if y = x ∧ h.isNone then .ok probeTx else .error .rpcError
      getTxOut := fun _ _ => .error .rpcError
      getTxSpendingPrevout := fun _ => .error .rpcError
      getBlockHash := fun _ => .error .rpcError
      getBlockTxids := fun _ => .ok (0, 0, [x])
      getBlockHeader := fun _ => .ok cfg.forgetAfterConfirmations }
  lookup _ := some ⟨"", "", "", ""⟩
  listing _ s := s.sort (· ≤ ·)
  listing_nodup _ s := s.sort_nodup (· ≤ ·)
  mem_listing _ s _ := s.mem_sort (· ≤ ·)
  stop _ := false

variable [Inhabited A]

lemma constant_probe : (probe cfg x : WatchEnv X H A).Constant where
  node _ := rfl
  listing _ _ := rfl
  transaction _ _ := by
    rw [probe]
    simp only
    split_ifs <;> simp
  txOut _ _ := by simp [probe]

/-- What is fetched. -/
def probeFetched (y : X) : Fetched X A := if y = x then some (probeTx, [probeRow]) else none

lemma yields_probe (y : X) :
    Yields (fetchAndMatch (probe cfg x : WatchEnv X H A) y none) (probeFetched x y) := by
  intro w
  refine ⟨1, ?_⟩
  rw [fetchAndMatch, probeFetched]
  by_cases hy : y = x
  · subst hy
    simp [bind_apply, rpcCaught, probe, matchTx, matchInputs, probeTx, probeRow, matchRow,
      scriptAddress]
  · simp [bind_apply, rpcCaught, probe, hy]

/-! ### The watcher shows its view -/

/-- How often a transaction has been exported as `seen`. -/
def seenCount (w : Watcher X H A) : ℕ :=
  (w.trace.filterMap (·.exported?)).countP fun e => decide (e.event = .seen)

/-- Nothing but `x` is on record, `x` has been fetched whenever it was asked for, and the rest is
the view. -/
structure Shows (x : X) (w : Watcher X H A) (v : View) : Prop where
  only : ∀ y e, w.store.get y = some e → y = x
  entry : (w.store.get x).map (·.status.isInMempool) = v.entry
  checked : x ∈ w.checked ↔ v.checked = true
  unfetched : x ∉ w.unfetched
  seen : seenCount w = v.seen

variable {cfg x} {w : Watcher X H A} {v : View}

omit [Inhabited A] in
lemma Shows.all_eq (h : Shows x w v) : w.store.all = (w.store.get x).toList := by
  have hmem (e : FlaggedTx X H A) (he : e ∈ w.store.all) : w.store.get x = some e := by
    have hget := Keyed.mem_all.mp he
    rwa [h.only _ e hget] at hget
  cases hget : w.store.get x with
  | none =>
      refine List.eq_nil_iff_forall_not_mem.mpr fun e he => ?_
      rw [hmem e he] at hget
      cases hget
  | some e =>
      have hnodup : w.store.all.Nodup := w.store.all_nodup.of_map _
      refine List.perm_singleton.mp
        ((List.perm_ext_iff_of_nodup hnodup (List.nodup_singleton e)).mpr fun e' => ?_)
      rw [List.mem_singleton]
      constructor
      · exact fun he' => Option.some.inj ((hmem e' he').symm.trans hget)
      · rintro rfl
        rw [Keyed.mem_all, Keyed.key_of_get hget]
        exact hget

omit [Inhabited A] in
lemma Shows.tick (h : Shows x w v) (n : ℕ) : Shows x (w.tick n) v := ⟨h.1, h.2, h.3, h.4, h.5⟩

omit [Inhabited A] in
/-- The entry is gone. -/
lemma Shows.gone (h : Shows x w v) {t : Watcher X H A}
    (hget : ∀ y, t.store.get y = if y = x then none else w.store.get y)
    (hchecked : t.checked = w.checked) (hunfetched : t.unfetched = w.unfetched)
    (hseen : seenCount t = seenCount w) : Shows x t { v with entry := none } where
  only y e he := by
    rw [hget] at he
    split_ifs at he with hy
    exact h.only y e he
  entry := by rw [hget, if_pos rfl, Option.map_none]
  checked := hchecked ▸ h.checked
  unfetched := hunfetched ▸ h.unfetched
  seen := hseen.trans h.seen

omit [Inhabited A] in
lemma seenCount_append (w t : Watcher X H A) (items : List (TraceItem X H A))
    (h : t.trace = w.trace ++ items) : seenCount t = seenCount w
      + (items.filterMap (·.exported?)).countP fun e => decide (e.event = .seen) := by
  rw [seenCount, seenCount, h, List.filterMap_append, List.countP_append]

variable (cfg) in
/-- Looking at the depth takes a confirmed entry. -/
lemma checkConfirmedDepth_probe (h : Shows x w v) :
    ∃ t, checkConfirmedDepth cfg (probe cfg x) w = .ok () t
      ∧ Shows x t { v with entry := if v.entry = some false then none else v.entry } := by
  have hrun : checkConfirmedDepth cfg (probe cfg x) w
      = ((w.store.get x).toList.forM (checkDepth cfg (probe cfg x))) w := by
    rw [checkConfirmedDepth, bind_apply, get_apply]
    simp only
    rw [h.all_eq]
  rw [hrun]
  have hentry := h.entry
  cases hget : w.store.get x with
  | none =>
      rw [hget, Option.map_none] at hentry
      refine ⟨w, rfl, ?_⟩
      rw [← hentry]
      exact ⟨h.1, h.2.trans hentry.symm, h.3, h.4, h.5⟩
  | some e =>
      rw [hget, Option.map_some] at hentry
      rw [Option.toList_some, forM_singleton_apply]
      cases hst : e.status with
      | inMempool =>
          rw [hst] at hentry
          refine ⟨w, by simp [checkDepth, hst], ?_⟩
          rw [← hentry]
          exact ⟨h.1, h.2.trans hentry.symm, h.3, h.4, h.5⟩
      | confirmed b height =>
          rw [hst, TxStatus.isInMempool_confirmed] at hentry
          have hdeep : ¬ cfg.forgetAfterConfirmations = -1 := by
            have := cfg.forgetAfterConfirmations_pos
            omega
          refine ⟨(w.tick 1).forget e.txid cfg.forgetAfterConfirmations, ?_, ?_⟩
          · simp [checkDepth, hst, rpc, bind_apply, probe, hdeep]
          · rw [← hentry, if_pos rfl, Keyed.key_of_get hget]
            exact (h.tick 1).gone (Watcher.get_forget _ _ _) (Watcher.checked_remove _ _)
              (Watcher.unfetched_remove _ _)
              (seenCount_append _ _ [.forgotten x _] rfl)

variable (cfg x) in
lemma onLeftUnmined_probe (e : FlaggedTx X H A) (source : WatchSource) (detail : WatchDetail H)
    (w : Watcher X H A) : ∃ n, onLeftUnmined (probe cfg x) e source detail w
      = .ok () ((w.tick n).leave e none source detail) := by
  have hreplaced : ∃ n, replacedBy (probe cfg x) e w = .ok none (w.tick n) := by
    rw [replacedBy]
    split_ifs
    · exact ⟨0, rfl⟩
    · exact ⟨1, rfl⟩
  obtain ⟨n, hn⟩ := hreplaced
  exact ⟨n, by rw [onLeftUnmined, bind_of_ok hn, modify_apply]⟩

omit [Inhabited A] in
lemma Shows.erase (h : Shows x w v) :
    Shows x { w with checked := w.checked.erase x } { v with checked := false } :=
  ⟨h.only, h.entry, by simp, h.unfetched, h.seen⟩

variable (cfg) in
/-- An `R` of `x` takes an entry that is in the mempool. -/
lemma onRemoved_probe (h : Shows x w v) :
    ∃ t, onRemoved (probe cfg x) x w = .ok () t
      ∧ Shows x t ⟨if v.entry = some true then none else v.entry, false, v.seen⟩ := by
  have hentry := h.entry
  cases hget : w.store.get x with
  | none =>
      rw [hget, Option.map_none] at hentry
      refine ⟨{ w with checked := w.checked.erase x }, ?_, ?_⟩
      · simp only [onRemoved, bind_apply, modify_apply, get_apply, hget, pure_apply]
      · rw [← hentry]
        exact ⟨h.only, h.entry.trans hentry.symm, by simp, h.unfetched, h.seen⟩
  | some e =>
      rw [hget, Option.map_some] at hentry
      cases hst : e.status.isInMempool with
      | true =>
          rw [hst] at hentry
          let u : Watcher X H A := { w with checked := w.checked.erase x }
          obtain ⟨n, hn⟩ := onLeftUnmined_probe cfg x e .zmq .removedFromMempool u
          refine ⟨(u.tick n).leave e none .zmq .removedFromMempool, ?_, ?_⟩
          · simp only [onRemoved, bind_apply, modify_apply, get_apply, hget, hst, if_true]
            exact hn
          · rw [← hentry, if_pos rfl]
            refine (h.erase.tick n).gone (fun y => ?_) (Watcher.checked_remove _ _)
              (Watcher.unfetched_remove _ _) ?_
            · rw [Watcher.get_leave, Keyed.key_of_get hget]
            · exact seenCount_append (u.tick n) _
                [.exported ⟨.removed, e, none, .zmq, none, some .removedFromMempool⟩]
                (Watcher.trace_remove _ _)
      | false =>
          rw [hst] at hentry
          refine ⟨{ w with checked := w.checked.erase x }, ?_, ?_⟩
          · simp only [onRemoved, bind_apply, modify_apply, get_apply, hget, hst, pure_apply,
              Bool.false_eq_true, if_false]
          · rw [← hentry, if_neg (by simp)]
            exact ⟨h.only, h.entry.trans hentry.symm, by simp, h.unfetched, h.seen⟩

omit [Inhabited A] in
/-- A block confirms the entry. -/
lemma confirmIfIn_probe (h : Shows x w v) (b : H) :
    ∃ t, w.store.all.forM (confirmIfIn [x].toFinset b 0) w = .ok () t
      ∧ Shows x t { v with entry := v.entry.map fun _ => false } := by
  have hentry := h.entry
  rw [h.all_eq]
  cases hget : w.store.get x with
  | none =>
      rw [hget, Option.map_none] at hentry
      refine ⟨w, rfl, ?_⟩
      rw [← hentry]
      exact ⟨h.only, h.entry.trans hentry.symm, h.checked, h.unfetched, h.seen⟩
  | some e =>
      rw [hget, Option.map_some] at hentry
      have htxid : e.txid = x := Keyed.key_of_get hget
      rw [Option.toList_some, forM_singleton_apply, ← hentry]
      cases hst : e.status.isInMempool with
      | true =>
          refine ⟨w.markConfirmed e b 0 .zmq, by simp [confirmIfIn, hst, htxid], ?_⟩
          refine ⟨fun y e' he' => ?_, ?_, h.checked, h.unfetched, ?_⟩
          · rw [Watcher.get_markConfirmed] at he'
            split_ifs at he' with hy
            · exact hy.trans htxid
            · exact h.only y e' he'
          · rw [Watcher.get_markConfirmed, if_pos htxid.symm]
            rfl
          · exact (seenCount_append w _ [.exported ⟨.confirmed, { e with status := .confirmed b 0 },
              some (b, 0), .zmq, none, none⟩] rfl).trans h.seen
      | false =>
          refine ⟨w, by simp [confirmIfIn, hst], h.only, ?_, h.checked, h.unfetched, h.seen⟩
          rw [hget, Option.map_some, hst]
          rfl

variable (cfg) in
/-- A block takes every entry. -/
lemma onBlockConnected_probe (h : Shows x w v) (b : H) :
    ∃ t, onBlockConnected cfg (probe cfg x) b w = .ok () t ∧ Shows x t ⟨none, false, v.seen⟩ := by
  -- the state when the entries are looked at
  let u : Watcher X H A := { w.tick 1 with
    tipHeight := max w.tipHeight 0
    unfetched := w.unfetched \ [x].toFinset
    checked := w.checked \ [x].toFinset }
  have hu : Shows x u { v with checked := false } :=
    ⟨h.only, h.entry, by simp [u], by simp [u], h.seen⟩
  obtain ⟨t, ht, hshows⟩ := confirmIfIn_probe hu b
  obtain ⟨t', ht', hshows'⟩ := checkConfirmedDepth_probe cfg hshows
  have hblock : rpc (probe cfg x : WatchEnv X H A) (·.getBlockTxids b) w
      = .ok (0, 0, [x]) (w.tick 1) := rfl
  have hlisting : (probe cfg x : WatchEnv X H A).listing (w.tick 1).calls
      ((w.tick 1).unfetched ∩ [x].toFinset) = [] := by
    refine List.eq_nil_iff_forall_not_mem.mpr fun y hy => ?_
    rw [WatchEnv.mem_listing, Finset.mem_inter, List.mem_toFinset, List.mem_singleton] at hy
    exact h.unfetched (hy.2 ▸ hy.1)
  refine ⟨t', ?_, ?_⟩
  · rw [onBlockConnected, bind_of_ok hblock]
    simp only [bind_apply, modify_apply, get_apply, hlisting]
    exact (bind_of_ok ht _).trans ht'
  · cases hentry : v.entry <;> simpa [hentry] using hshows'

/-- An `A`, when `x` has been fetched or not. -/
lemma afterAnnounced_probe (h : Shows x w v) {s : Finset X} {fetched : Bool}
    (hs : fetched = true ↔ x ∈ s) (y : X) :
    Shows x (afterAnnounced y (if y ∈ s then some (probeFetched x y) else none) w)
      (v.step x fetched (.added y : SequenceEvent X H)) := by
  by_cases hy : y = x
  · subst hy
    -- the transaction of the probe, fetched or not
    by_cases hys : y ∈ s
    · rw [if_pos hys, probeFetched, if_pos rfl, afterAnnounced, View.step, if_pos ⟨rfl, hs.mpr hys⟩]
      have hentry := h.entry
      cases hget : w.store.get y with
      | none =>
          rw [hget, Option.map_none] at hentry
          rw [if_pos hentry.symm]
          have hcontains : w.store.contains y = false := by
            rw [Bool.eq_false_iff, ne_eq, Keyed.contains_iff, hget]
            rintro ⟨e, he⟩
            cases he
          let u : Watcher X H A := { w with checked := insert y w.checked }
          let e := u.newEntry y probeTx [probeRow]
          have hadd : w.add y probeTx [probeRow] .zmq
              = (u.exportRows ⟨.seen, e, none, .zmq, none, none⟩).put e := by
            rw [Watcher.add]
            simp only [hcontains]
            rfl
          rw [hadd]
          refine ⟨fun z e' he' => ?_, ?_, ?_, h.unfetched, ?_⟩
          · rw [Watcher.get_put] at he'
            split_ifs at he' with hz
            · exact hz
            · exact h.only z e' he'
          · rw [Watcher.get_put, if_pos (show y = e.txid from rfl)]
            rfl
          · exact iff_of_true (Finset.mem_insert_self _ _) rfl
          · rw [← h.seen]
            exact seenCount_append w _ [.exported ⟨.seen, e, none, .zmq, none, none⟩] rfl
      | some e =>
          rw [hget, Option.map_some] at hentry
          rw [if_neg fun hnone => Option.some_ne_none _ (hentry.trans hnone)]
          have hadd : w.add y probeTx [probeRow] .zmq
              = { w with checked := insert y w.checked } := by
            rw [Watcher.add]
            exact if_pos (Bool.or_eq_true_iff.mpr (.inr (Keyed.contains_iff.mpr ⟨e, hget⟩)))
          rw [hadd]
          exact ⟨h.only, h.entry, by simp, h.unfetched, h.seen⟩
    · rw [if_neg hys, View.step, if_neg fun hf => hys (hs.mp hf.2)]
      exact h
  -- another transaction has no matches, and leaves the entry alone
  · rw [View.step, if_neg fun hf : y = x ∧ fetched = true => hy hf.1, probeFetched, if_neg hy]
    split_ifs
    · refine ⟨h.only, h.entry, h.checked, ?_, h.seen⟩
      exact fun hmem => (Finset.mem_insert.mp hmem).elim (Ne.symm hy) h.unfetched
    · exact h

variable (cfg) in
/-- **The step lemma**: an event, when the transactions of `s` have been fetched. -/
lemma applyEvent_probe (h : Shows x w v) {s : Finset X} {fetched : Bool}
    (hs : fetched = true ↔ x ∈ s) (e : SequenceEvent X H) :
    ∃ t, applyEvent cfg (probe cfg x)
        (fetches (probe cfg x : WatchEnv X H A) (probeFetched x) s) e w = .ok () t
      ∧ Shows x t (v.step x fetched e) := by
  cases e with
  | added y =>
      refine ⟨_, applyEvent_added _ y w, ?_⟩
      rw [lookup_fetches]
      exact afterAnnounced_probe h hs y
  | removed y =>
      have hfetched : Shows x { w with unfetched := w.unfetched.erase y } v :=
        ⟨h.only, h.entry, h.checked, fun hx => h.unfetched (Finset.mem_of_mem_erase hx), h.seen⟩
      rw [applyEvent, bind_apply, modify_apply, View.step]
      by_cases hy : y = x
      · subst hy
        rw [if_pos rfl]
        exact onRemoved_probe cfg hfetched
      · rw [if_neg hy]
        have hnone : w.store.get y = none := Option.eq_none_iff_forall_ne_some.mpr fun e he =>
          hy (h.only y e he)
        refine ⟨{ w with unfetched := w.unfetched.erase y, checked := w.checked.erase y }, ?_, ?_⟩
        · simp only [onRemoved, bind_apply, modify_apply, get_apply, hnone, pure_apply]
        · refine ⟨h.only, h.entry, ?_, hfetched.unfetched, h.seen⟩
          rw [← h.checked, Finset.mem_erase]
          exact and_iff_right (Ne.symm hy)
  | connected b => exact onBlockConnected_probe cfg h b
  | disconnected b => exact checkConfirmedDepth_probe cfg h
  | other => exact ⟨w, rfl, h⟩

variable (cfg) in
/-- The run lemma. -/
lemma applyEvents_probe (h : Shows x w v) {s : Finset X} {fetched : Bool}
    (hs : fetched = true ↔ x ∈ s) (l : List (SequenceEvent X H)) :
    ∃ t, applyEvents cfg (probe cfg x) (probeFetched x : X → Fetched X A) s l w = .ok () t
      ∧ Shows x t (v.run x fetched l) := by
  induction l generalizing w v with
  | nil => exact ⟨w, rfl, h⟩
  | cons e l ih =>
      obtain ⟨t, ht, hshows⟩ := applyEvent_probe cfg h hs e
      obtain ⟨t', ht', hshows'⟩ := ih hshows
      exact ⟨t', by rw [applyEvents_cons, bind_of_ok ht, ht'], hshows'⟩

variable (cfg) in
/-- A batch is a run of `View.step`. -/
theorem handleEvents_probe (h : Shows x w v) (events : List (SequenceEvent X H)) (fetched : Bool)
    (hf : fetched = true ↔ .added x ∈ events ∧ v.checked = false) :
    ∃ t, handleEvents cfg (probe cfg x) events w = .ok () t
      ∧ Shows x t (v.run x fetched events) := by
  obtain ⟨n, hn⟩ := handleEvents_apply cfg (constant_probe cfg x) (yields_probe cfg x) events w
  have hs : fetched = true ↔ x ∈ addedTxids events w := by
    rw [hf, mem_addedTxids, h.checked, Bool.not_eq_true]
  obtain ⟨t, ht, hshows⟩ := applyEvents_probe cfg h hs events
  exact ⟨t.tick n, by rw [hn, ht]; rfl, hshows.tick n⟩

/-! ### Batches that are not steady -/

/-- If the cut makes no difference, then `x` is exported as often with it as without. -/
lemma Batches.seen_eq {e₁ e₂ : List (SequenceEvent X H)}
    (hb : Batches cfg (probe cfg x : WatchEnv X H A) w e₁ e₂) (h : Shows x w v) (f f₁ f₂ : Bool)
    (hf : f = true ↔ .added x ∈ e₁ ++ e₂ ∧ v.checked = false)
    (hf₁ : f₁ = true ↔ .added x ∈ e₁ ∧ v.checked = false)
    (hf₂ : f₂ = true ↔ .added x ∈ e₂ ∧ (v.run x f₁ e₁).checked = false) :
    (v.run x f (e₁ ++ e₂)).seen = ((v.run x f₁ e₁).run x f₂ e₂).seen := by
  obtain ⟨t, ht, hshows⟩ := handleEvents_probe cfg h (e₁ ++ e₂) f hf
  obtain ⟨t₁, ht₁, hshows₁⟩ := handleEvents_probe cfg h e₁ f₁ hf₁
  obtain ⟨t₂, ht₂, hshows₂⟩ := handleEvents_probe cfg hshows₁ e₂ f₂ hf₂
  have hsame := hb.same
  rw [ht, bind_of_ok ht₁, ht₂] at hsame
  have htrace : t.trace.filterMap (·.exported?) = t₂.trace.filterMap (·.exported?) :=
    congrArg Prod.fst (show t.outcome = t₂.outcome from hsame)
  rw [← hshows.seen, ← hshows₂.seen, seenCount, seenCount, htrace]

variable (cfg) in
/-- Behind an `A` of `x` the second call does not fetch it again, and misses an `A` behind the loss
of the entry. -/
lemma not_batches_of_lost (h : Shows x w v) (hv : v.checked = false)
    (p r : List (SequenceEvent X H)) {q : List (SequenceEvent X H)} (hq : .added x ∈ q)
    (hlost : (v.run x true (p ++ [.added x] ++ r)).entry = none) :
    ¬ Batches cfg (probe cfg x : WatchEnv X H A) w (p ++ [.added x]) (r ++ q) := by
  intro hb
  have hchecked : (v.run x true (p ++ [.added x])).checked = true := by
    rw [View.run_append]
    exact View.checked_added (H := H)
  have hseen := hb.seen_eq h true true false (by simp [hv]) (by simp [hv]) (by simp [hchecked])
  rw [View.seen_run_false, ← List.append_assoc, View.run_append, View.run_append] at hseen
  rw [View.run_append] at hlost
  have hlt := View.seen_run_lt hlost hq
  have hle : (v.run x true (p ++ [.added x])).seen
      ≤ ((v.run x true (p ++ [.added x])).run x true r).seen := View.seen_run_le
  omega

omit [LinearOrder X] [Inhabited A] in
lemma exists_split {e e' : SequenceEvent X H} {l l' : List (SequenceEvent X H)}
    (h : (e :: e' :: l').Sublist l) : ∃ p q, l = p ++ e :: q ∧ (e' :: l').Sublist q := by
  obtain ⟨r₁, r₂, rfl, he, hsub⟩ := List.cons_sublist_iff.mp h
  obtain ⟨p, q, rfl⟩ := List.append_of_mem he
  exact ⟨p, q ++ r₂, by simp, hsub.trans (List.sublist_append_right q r₂)⟩

omit [Inhabited A] in
/-- The watcher that knows nothing but what it has checked. -/
lemma shows_fresh (x : X) (checked : Finset X) (b : Bool) (hb : x ∈ checked ↔ b = true) :
    Shows x ({ Watcher.fresh with checked := checked } : Watcher X H A) ⟨none, b, 0⟩ :=
  ⟨fun _ _ h => (Option.some_ne_none _ h.symm).elim, rfl, hb, Finset.notMem_empty x, rfl⟩

/-- An entry that is confirmed. -/
def confirmedEntry (x : X) (b : H) : FlaggedTx X H A :=
  ⟨x, 0, none, none, [], [], .confirmed b 0⟩

omit [Inhabited A] in
/-- The watcher that has it on record. -/
lemma shows_confirmed (x : X) (checked : Finset X) (hx : x ∉ checked) (b : H) :
    Shows x ({ Watcher.fresh with
      checked := checked, store := Keyed.empty.put (confirmedEntry x b) } : Watcher X H A)
      ⟨some false, false, 0⟩ := by
  refine ⟨fun y e he => ?_, ?_, by simpa using hx, Finset.notMem_empty x, rfl⟩
  · rw [Keyed.get_put] at he
    split_ifs at he with hy
    · exact hy
    · exact (Option.some_ne_none _ he.symm).elim
  · rw [Keyed.get_put, if_pos (show x = (confirmedEntry x b : FlaggedTx X H A).txid from rfl)]
    rfl

/-- **Exactly when batching makes no difference.** Wherever a list of events is cut, two calls of
`handle_events` do what one call does, and every transaction whose last `A` or `R` is an `A` ends in
`checked` or `unfetched`, in all surroundings that answer by the request only and from every state
with the given `checked`, if and only if the events are steady. -/
theorem batches_iff (cfg : MempoolWatchConfig) (checked : Finset X)
    (events : List (SequenceEvent X H)) :
    (∀ env : WatchEnv X H A, env.Constant → ∀ w, w.checked = checked → ∀ e₁ e₂, e₁ ++ e₂ = events →
        Batches cfg env w e₁ e₂)
      ↔ Steady checked events := by
  constructor
  · intro hall
    refine ⟨fun x hx e he hsub => ?_, fun x hx e he hsub => ?_, fun x hx hbefore hbehind => ?_⟩
    -- a checked one that goes and comes: cut before it comes, it is fetched and reported
    · obtain ⟨p, q, rfl, hq⟩ := exists_split hsub
      have hb := hall (probe cfg x) (constant_probe cfg x) { Watcher.fresh with checked := checked }
        rfl (p ++ [e]) q (by simp)
      have hlifted : ((⟨none, true, 0⟩ : View).run x false (p ++ [e])).checked = false := by
        rw [View.run_append]
        exact View.checked_lifts he
      have hseen := hb.seen_eq (shows_fresh x checked true (by simp [hx])) false false true
        (by simp) (by simp) (by simpa [hlifted] using hq)
      have hlt := View.seen_run_lt (View.entry_run_false (x := x) (v := ⟨none, true, 0⟩)
        (l := p ++ [e]) rfl) (List.singleton_sublist.mp hq)
      rw [← hseen, View.seen_run_false, View.seen_run_false] at hlt
      exact lt_irrefl _ hlt
    -- a new one that comes, goes and comes: cut before it comes again, it is fetched twice
    · obtain ⟨p, q, rfl, hq⟩ := exists_split hsub
      obtain ⟨r, r', rfl, hr⟩ := exists_split hq
      have hshows : Shows x ({ Watcher.fresh with checked := checked } : Watcher X H A)
          ⟨none, false, 0⟩ := shows_fresh x checked false (by simp [hx])
      refine not_batches_of_lost cfg hshows rfl p (r ++ [e]) (List.singleton_sublist.mp hr) ?_
        (hall _ (constant_probe cfg x) _ rfl _ _ (by simp))
      rw [← List.append_assoc, View.run_append]
      exact View.entry_lifts (View.entry_run_ne (by simp)) he
    -- a confirmed one, announced on both sides of the first look at the depths
    · obtain ⟨p, r, hp⟩ := List.append_of_mem hbefore
      have hquiet : ∀ e ∈ events.takeWhile (!·.asksDepth), e.asksDepth = false := fun e he => by
        simpa using List.all_eq_true.mp List.all_takeWhile e he
      obtain ⟨d, q, hd⟩ := List.exists_cons_of_ne_nil (List.ne_nil_of_mem hbehind)
      have hdepth : d.asksDepth = true := by
        have hhead := List.head?_dropWhile_not (fun e : SequenceEvent X H => !e.asksDepth) events
        rw [hd] at hhead
        simpa using hhead
      have hevents : events = p ++ .added x :: r ++ d :: q := by
        rw [← hp, ← hd, List.takeWhile_append_dropWhile]
      rw [hd] at hbehind
      have hq : SequenceEvent.added x ∈ q := (List.mem_cons.mp hbehind).resolve_left fun h => by
        rw [← h] at hdepth
        cases hdepth
      obtain ⟨b, -⟩ : ∃ b : H, True := by
        cases d with
        | connected b => exact ⟨b, trivial⟩
        | disconnected b => exact ⟨b, trivial⟩
        | _ => cases hdepth
      have hshows := shows_confirmed (A := A) x checked hx b
      refine not_batches_of_lost cfg hshows rfl p (r ++ [d]) hq ?_
        (hall _ (constant_probe cfg x) _ rfl _ _ (by simp [hevents]))
      rw [← List.append_assoc, View.run_append]
      refine View.entry_depth (View.entry_run_quiet rfl fun e he => hquiet e ?_) hdepth
      rw [hp]
      simpa using he
  · rintro hs env hc w rfl e₁ e₂ rfl
    exact batches_of_steady hc hs

/-- A transaction in `checked` leaves the mempool and comes back. One call forgets it; two calls
fetch it again. -/
theorem removed_then_added :
    let env : WatchEnv ℕ ℕ ℕ := probe plainConfig 7
    let w : Watcher ℕ ℕ ℕ := { Watcher.fresh with checked := {7} }
    env.Constant ∧ ¬ Batches plainConfig env w [.removed 7] [.added 7]
      ∧ ∃ t, handleEvents plainConfig env [.removed 7, .added 7] w = .ok () t
        ∧ 7 ∉ t.checked ∧ 7 ∉ t.unfetched := by
  intro env w
  have hshows : Shows 7 w ⟨none, true, 0⟩ := shows_fresh 7 {7} true (by simp)
  refine ⟨constant_probe plainConfig 7, fun hb => ?_, ?_⟩
  · have hseen := hb.seen_eq hshows false false true (by simp) (by simp)
      (by simp [View.run, View.step])
    exact absurd hseen (by decide)
  · obtain ⟨t, ht, hshows'⟩ := handleEvents_probe plainConfig hshows
      [.removed 7, .added 7] false (by simp)
    refine ⟨t, ht, fun h => ?_, hshows'.unfetched⟩
    exact absurd (hshows'.checked.mp h) (by decide)

end MempoolWatch

end BtcParser
