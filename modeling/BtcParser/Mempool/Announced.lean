import BtcParser.Mempool.Lifecycle
import BtcParser.Mempool.OldNode

/-!
Listed transactions that a node announces, and what the watcher fetches of them.

* `TxRecords` is what does not change on the side of the node, `Truthful` a node that answers from
  it, with a mempool of its own at every call.
* `following` is the run of a process: the startup scan, and then batches of events. It keeps the
  account of the transactions that were in the snapshot or announced, and of those of them that
  were in the block of a `C`.
* `Fetchable` is a condition on the node and the events: the scan asks for a transaction of the
  snapshot while it is in the mempool, the answers show that it is listed, and no batch takes a
  transaction back and announces it again.
* `fetchMany_at` says what each fetch of a list is made with, and `Kept` that the watcher has not
  lost sight of a transaction.
-/

namespace BtcParser

variable {X H A : Type}

/-! ### The node -/

/-- What transactions and blocks contain, the outputs that are spent, and the list. -/
structure TxRecords (X H A : Type) where
  outputs : X → List (VOut A)
  spends : X → List (X × ℕ)
  spent : X → ℕ → Option (TxOut A)
  inBlock : H → Finset X
  lookup : A → Option SanctionedAddress

namespace TxRecords

variable (r : TxRecords X H A)

/-- The output goes to an address on the list. -/
def Listed (out : TxOut A) : Prop :=
  ∃ a entry, MempoolWatch.scriptAddress out = some a ∧ r.lookup a = some entry

/-- The transaction has an output to an address on the list, or spends one. -/
def Touches (x : X) : Prop :=
  (∃ o ∈ r.outputs x, r.Listed o.toTxOut)
    ∨ ∃ y n out, (y, n) ∈ r.spends x ∧ r.spent y n = some out ∧ r.Listed out

/-- The payload is the transaction, with or without the outputs it spends. -/
structure Decodes (x : X) (tx : RawTx X A) : Prop where
  vout : tx.vout = r.outputs x
  vin : spentOutputs tx.vin = r.spends x
  prevout : ∀ y n o, .spend y n (some o) ∈ tx.vin → o = r.spent y n

/-- A node that answers from the records. Without a block hash it knows the transactions that are
in its mempool at that call, with one those of the block. -/
structure Truthful [DecidableEq X] (mempool : ℕ → Finset X) (env : WatchEnv X H A) : Prop where
  lookup : env.lookup = r.lookup
  snapshot : ∀ n l, (env.node n).getRawMempoolTxids = .ok l → l.toFinset = mempool n
  inMempool : ∀ n x, x ∈ mempool n →
    ∃ tx, (env.node n).getRawTransaction x none = .ok tx ∧ r.Decodes x tx
  notInMempool : ∀ n x, x ∉ mempool n →
    (env.node n).getRawTransaction x none = .error .rpcError
  txids : ∀ n h b, (env.node n).getBlockTxids h = .ok b → b.2.2.toFinset = r.inBlock h
  inBlock : ∀ n m h b x, n ≤ m → (env.node n).getBlockTxids h = .ok b → x ∈ r.inBlock h →
    ∃ tx, (env.node m).getRawTransaction x (some h) = .ok tx ∧ r.Decodes x tx

/-- The inputs of a payload show that one of them is listed: the payload says what it spends, or
one of the lookups does, the first of which is the `k`-th call. -/
def ShownInput (env : WatchEnv X H A) : ℕ → List (VIn X A) → Prop
  | _, [] => False
  | k, .coinbase :: l => ShownInput env k l
  | k, .spend _ _ (some o) :: l => (∃ out, o = some out ∧ r.Listed out) ∨ ShownInput env k l
  | k, .spend y n none :: l =>
      match (env.node k).getTxOut y n with
      | .ok (some out) => r.Listed out ∨ ShownInput env (k + 1) l
      | .ok none =>
          (∃ parent out, (env.node (k + 1)).getRawTransaction y none = .ok parent
            ∧ parent.vout[n]? = some out ∧ r.Listed out.toTxOut) ∨ ShownInput env (k + 2) l
      | .error _ => ShownInput env (k + 1) l

/-- Fetched with the `k`-th call, the transaction shows that it is listed. -/
def Shown (env : WatchEnv X H A) (k : ℕ) (x : X) (blockHash : Option H) : Prop :=
  ∀ tx, (env.node k).getRawTransaction x blockHash = .ok tx →
    (∃ o ∈ tx.vout, r.Listed o.toTxOut) ∨ r.ShownInput env (k + 1) tx.vin

/-- What an event makes of the announced transactions, and of those of them that were mined. -/
def account [DecidableEq X] (p : Finset X × Finset X) : SequenceEvent X H → Finset X × Finset X
  | .added x => (insert x p.1, p.2)
  | .removed x => (p.1.erase x, p.2)
  | .connected h => (p.1, p.2 ∪ p.1 ∩ r.inBlock h)
  | .disconnected _ => p
  | .other => p

variable {r}

end TxRecords

/-! ### Runs -/

/-- A watcher, and the account of what the node has told it. -/
structure Followed (X H A : Type) [DecidableEq X] where
  watcher : Watcher X H A
  started : Bool
  /-- the announced transactions, and those of them that were mined -/
  told : Finset X × Finset X

/-- What the process does: the startup scan, or a batch of events. -/
inductive Turn (X H A : Type) where
  | startupScan (env : WatchEnv X H A) (mempool : ℕ → Finset X)
  | batch (env : WatchEnv X H A) (mempool : ℕ → Finset X) (events : List (SequenceEvent X H))

namespace MempoolWatch

open Program TxRecords

variable [LinearOrder X]

/-- A process from its start, after any number of earlier ones. -/
def following (cfg : MempoolWatchConfig) (r : TxRecords X H A) :
    TransitionSystem (Followed X H A) (Turn X H A) where
  init s := s.started = false ∧ s.told = (∅, ∅)
    ∧ ∃ w, (system cfg).Reach anyStep w ∧ s.watcher = w.restart
  step
    | .startupScan env mempool, s, s' => r.Truthful mempool env
        ∧ s.started = false ∧ s'.started = true ∧ s'.told = (mempool 0, ∅)
        ∧ ∃ done, reconcile cfg env .startupScan { s.watcher with calls := 0 }
          = .ok done s'.watcher
    | .batch env mempool events, s, s' => r.Truthful mempool env
        ∧ s.started = true ∧ s'.started = true ∧ s'.told = events.foldl r.account s.told
        ∧ handleEvents cfg env events { s.watcher with calls := 0 } = .ok () s'.watcher

/-! ### The condition -/

/-- The calls for the outputs that a list of inputs spends, the first of which is the `k`-th. -/
def lookupCalls (env : WatchEnv X H A) : ℕ → List (VIn X A) → ℕ
  | _, [] => 0
  | k, .coinbase :: l => lookupCalls env k l
  | k, .spend _ _ (some _) :: l => lookupCalls env k l
  | k, .spend y n none :: l =>
      match (env.node k).getTxOut y n with
      | .ok none => 2 + lookupCalls env (k + 2) l
      | _ => 1 + lookupCalls env (k + 1) l

/-- The call after the fetch of a transaction, which begins with the `k`-th. -/
def callAfter (env : WatchEnv X H A) (k : ℕ) (x : X) (blockHash : Option H) : ℕ :=
  match (env.node k).getRawTransaction x blockHash with
  | .ok tx => k + 1 + lookupCalls env (k + 1) tx.vin
  | .error _ => k + 1

/-- The call that asks for the transaction behind `before`, when the first is the `k`-th. -/
def askedAt (env : WatchEnv X H A) (k : ℕ) (before : List X) : ℕ :=
  before.foldl (fun k x => callAfter env k x none) k

/-- It has been reported as confirmed. -/
def Confirmed (x : X) (w : Watcher X H A) : Prop := .confirmed ∈ exportsOf x w.trace

/-- The scan asks for the transaction behind `before` in the list while it is in the mempool, with
no stop requested at the beginning of its chunk or of an earlier one. -/
structure ScansInTime (r : TxRecords X H A) (env : WatchEnv X H A) (mempool : ℕ → Finset X)
    (k : ℕ) (l before : List X) (x : X) : Prop where
  inMempool : x ∈ mempool (askedAt env k before)
  shown : r.Shown env (askedAt env k before) x none
  notStopped : ∀ j, reconcileChunk * j ≤ before.length →
    env.stop (askedAt env k (l.take (reconcileChunk * j))) = false

/-- A transaction that could not be fetched when it was announced, before the batch or in it. -/
def Unfetched (env : WatchEnv X H A) (mempool : ℕ → Finset X) (events : List (SequenceEvent X H))
    (w : Watcher X H A) (x : X) : Prop :=
  x ∈ w.unfetched ∨ ∃ before after, env.listing 0 (addedTxids events w) = before ++ x :: after
    ∧ x ∉ mempool (askedAt env 0 before)

/-- A batch does not lose sight of a transaction: what it fetches of it shows that it is listed,
and it does not announce it again behind an `R`, when it was checked before, unless a block with it
was connected in between. -/
structure KeepsInSight (r : TxRecords X H A) (env : WatchEnv X H A) (mempool : ℕ → Finset X)
    (events : List (SequenceEvent X H)) (w : Watcher X H A) (x : X) : Prop where
  fetched : ∀ before after, env.listing 0 (addedTxids events w) = before ++ x :: after →
    x ∈ mempool (askedAt env 0 before) → r.Shown env (askedAt env 0 before) x none
  fetchedAgain : Unfetched env mempool events w x →
    ∀ h k, .connected h ∈ events → x ∈ r.inBlock h → r.Shown env k x (some h)
  announcedAgain : x ∈ w.checked → ∀ before after, events = before ++ .removed x :: after →
    .added x ∈ after → ∃ h, .connected h ∈ before ∧ x ∈ r.inBlock h

/-- The condition: for every listed transaction that has not been reported as confirmed, and, as
far as the scan goes, that is not on record from an earlier process. -/
def Fetchable (r : TxRecords X H A) : Turn X H A → Followed X H A → Prop
  | .startupScan env mempool, s => ∀ x ∈ mempool 0, r.Touches x → ¬ Confirmed x s.watcher →
      s.watcher.store.get x = none →
      ∀ before after, env.listing 2 (mempool 0) = before ++ x :: after →
        ScansInTime r env mempool 2 (env.listing 2 (mempool 0)) before x
  | .batch env mempool events, s => ∀ x, r.Touches x → ¬ Confirmed x s.watcher →
      KeepsInSight r env mempool events s.watcher x

/-! ### What is fetched -/

variable {cfg : MempoolWatchConfig} {r : TxRecords X H A} {env : WatchEnv X H A}

omit [LinearOrder X] in
lemma matchRow_of_listed (hr : env.lookup = r.lookup) (d : Direction) (i : ℤ) {out : TxOut A}
    (h : r.Listed out) : ∃ row, matchRow env d i out = some row := by
  obtain ⟨a, entry, ha, hentry⟩ := h
  exact ⟨_, by rw [matchRow, ha, Option.bind_eq_bind, Option.bind_some, hr, hentry]; rfl⟩

lemma rpcCaught_triple {α : Type} (ask : Bitcoind X H A → Except RpcFailure α) (k : ℕ) :
    Triple (·.calls = k) (rpcCaught env ask)
      (fun o w => w.calls = k + 1 ∧ match ask (env.node k) with
        | .ok a => o = some a
        | .error _ => o = none) fun _ _ => True := by
  rintro w rfl
  rw [rpcCaught]
  rcases ask (env.node w.calls) with (_ | _) | a
  · exact ⟨rfl, rfl⟩
  · trivial
  · exact ⟨rfl, rfl⟩

/-- The lookups of an input that does not say what it spends. -/
lemma prevoutOf_triple (y : X) (n k : ℕ) :
    Triple (·.calls = k) (prevoutOf env y n none)
      (fun o w => match (env.node k).getTxOut y n with
        | .ok (some out) => w.calls = k + 1 ∧ o = some out
        | .ok none => w.calls = k + 2
            ∧ ∀ parent, (env.node (k + 1)).getRawTransaction y none = .ok parent →
              o = parent.vout[n]?.map (·.toTxOut)
        | .error _ => w.calls = k + 1) fun _ _ => True := by
  rw [prevoutOf]
  refine (rpcCaught_triple (·.getTxOut y n) k).bind fun o => ?_
  cases hout : (env.node k).getTxOut y n with
  | error f =>
      rintro w ⟨hw, rfl⟩
      exact hw
  | ok out =>
      simp only
      cases out with
      | some out =>
          rintro w ⟨hw, rfl⟩
          exact ⟨hw, rfl⟩
      | none =>
          refine triple_of_each fun w hw => ?_
          obtain ⟨hw, rfl⟩ := hw
          refine ((rpcCaught_triple (·.getRawTransaction y none) (k + 1)).pre
            fun t ht => ht ▸ hw).bind fun parent => ?_
          cases hp : (env.node (k + 1)).getRawTransaction y none with
          | error f =>
              rintro t ⟨ht, rfl⟩
              exact ⟨ht, fun _ h => by cases h⟩
          | ok p =>
              rintro t ⟨ht, rfl⟩
              exact ⟨ht, fun _ h => by cases h; rfl⟩

/-- A listed input that is shown is matched. -/
lemma matchInputs_triple (hr : env.lookup = r.lookup) (l : List (VIn X A)) (i k : ℕ) :
    Triple (·.calls = k) (matchInputs env i l)
      (fun rows w => w.calls = k + lookupCalls env k l ∧ (r.ShownInput env k l → rows ≠ []))
      fun _ _ => True := by
  induction l generalizing i k with
  | nil => exact triple_pure fun w hw => ⟨hw, False.elim⟩
  | cons v l ih =>
      -- the rest of the inputs, behind the lookups of this one
      have hrest : ∀ (o : Option (TxOut A)) (c : ℕ) (p : Prop),
          (p → ∃ out, o = some out ∧ r.Listed out) →
          Triple (·.calls = k + c) (do
            let rows ← matchInputs env (i + 1) l
            pure ((o.bind (matchRow env .input i)).toList ++ rows))
            (fun rows w => w.calls = k + (c + lookupCalls env (k + c) l)
              ∧ (p ∨ r.ShownInput env (k + c) l → rows ≠ [])) fun _ _ => True := by
        intro o c p hp
        refine (ih (i + 1) (k + c)).bind fun rows => triple_pure fun w hw => ⟨?_, fun h => ?_⟩
        · rw [hw.1, Nat.add_assoc]
        · rcases h with h | h
          · obtain ⟨out, rfl, hl⟩ := hp h
            obtain ⟨row, hrow⟩ := matchRow_of_listed hr .input i hl
            rw [Option.bind_some, hrow]
            exact List.cons_ne_nil _ _
          · exact List.append_ne_nil_of_right_ne_nil _ (hw.2 h)
      rcases v with _ | ⟨y, n, _ | o⟩
      · exact ih (i + 1) k
      · rw [matchInputs]
        refine (prevoutOf_triple y n k).bind fun o => ?_
        rw [ShownInput, lookupCalls]
        cases hout : (env.node k).getTxOut y n with
        | error f =>
            refine ((hrest o 1 False False.elim).pre fun w hw => hw).post fun rows w hw =>
              ⟨hw.1, ?_⟩
            exact fun h => hw.2 (.inr h)
        | ok out =>
            cases out with
            | some out =>
                refine triple_of_each fun w hw => ((hrest o 1 (r.Listed out) fun h =>
                  ⟨out, hw.2, h⟩).pre fun t ht => ht ▸ hw.1)
            | none =>
                refine triple_of_each fun w hw => ((hrest o 2 _ fun h => ?_).pre
                  fun t ht => ht ▸ hw.1)
                obtain ⟨parent, out, hp, hv, hl⟩ := h
                exact ⟨out.toTxOut, by rw [hw.2 parent hp, hv]; rfl, hl⟩
      · rw [matchInputs]
        refine Triple.bind (Q := fun o' w => o' = o ∧ w.calls = k) (fun w hw => ⟨rfl, hw⟩)
          fun o' => ?_
        refine triple_of_each fun w hw => ?_
        have h := hrest o' 0 (∃ out, o = some out ∧ r.Listed out) fun h => hw.1 ▸ h
        rw [ShownInput, lookupCalls]
        simp only [Nat.add_zero, Nat.zero_add] at h
        exact h.pre fun t ht => ht ▸ hw.2

/-- What a fetch that begins with the `k`-th call is to give. -/
structure FetchOf (r : TxRecords X H A) (env : WatchEnv X H A) (k : ℕ) (x : X)
    (blockHash : Option H) (f : Option (RawTx X A × List (MatchRow A))) : Prop where
  known : ∀ tx, (env.node k).getRawTransaction x blockHash = .ok tx → ∃ rows, f = some (tx, rows)
  unknown : ∀ e, (env.node k).getRawTransaction x blockHash = .error e → f = none
  rows : r.Shown env k x blockHash → ∀ tx rows, f = some (tx, rows) → rows ≠ []

lemma fetchAndMatch_triple (hr : env.lookup = r.lookup) (x : X) (blockHash : Option H) (k : ℕ) :
    Triple (·.calls = k) (fetchAndMatch env x blockHash)
      (fun f w => w.calls = callAfter env k x blockHash ∧ FetchOf r env k x blockHash f)
      fun _ _ => True := by
  rw [fetchAndMatch]
  refine (rpcCaught_triple (·.getRawTransaction x blockHash) k).bind fun o => ?_
  rw [callAfter]
  cases htx : (env.node k).getRawTransaction x blockHash with
  | error e =>
      rintro w ⟨hw, rfl⟩
      refine ⟨hw, fun tx h => ?_, fun _ _ => rfl, fun _ _ _ h => ?_⟩
      · exact absurd (htx.symm.trans h) (by simp)
      · cases h
  | ok tx =>
      refine triple_of_each fun w hw => ?_
      obtain ⟨hw, rfl⟩ := hw
      simp only
      refine Triple.bind (Q := fun rows t => t.calls = k + 1 + lookupCalls env (k + 1) tx.vin
        ∧ ((∃ o ∈ tx.vout, r.Listed o.toTxOut) ∨ r.ShownInput env (k + 1) tx.vin → rows ≠ []))
        ?_ fun rows => triple_pure fun t ht => ⟨ht.1, fun tx' h => ?_, fun e h => ?_, ?_⟩
      · rw [matchTx]
        refine ((matchInputs_triple hr tx.vin 0 (k + 1)).pre fun t ht => ht ▸ hw).bind fun rows =>
          triple_pure fun t ht => ⟨ht.1, fun h => ?_⟩
        rcases h with ⟨o, ho, hl⟩ | h
        · obtain ⟨row, hrow⟩ := matchRow_of_listed hr .output o.n hl
          exact List.append_ne_nil_of_right_ne_nil _
            (List.ne_nil_of_mem (List.mem_filterMap.mpr ⟨o, ho, hrow⟩))
        · exact List.append_ne_nil_of_left_ne_nil (ht.2 h) _
      · exact ⟨rows, congrArg (fun tx => some (tx, rows)) (Except.ok.inj (htx.symm.trans h))⟩
      · exact absurd (htx.symm.trans h) (by simp)
      · rintro hs _ _ ⟨⟩
        exact ht.2 (hs tx htx)

/-- The fetches of a list are made one after the other. -/
lemma fetchMany_at (hr : env.lookup = r.lookup) (l : List X) (k : ℕ) :
    Triple (·.calls = k) (fetchMany env l)
      (fun fs w => w.calls = askedAt env k l ∧ fs.map Prod.fst = l
        ∧ ∀ p ∈ fs, ∃ before after, l = before ++ p.1 :: after
          ∧ FetchOf r env (askedAt env k before) p.1 none p.2) fun _ _ => True := by
  induction l generalizing k with
  | nil => exact triple_pure fun w hw => ⟨hw, rfl, nofun⟩
  | cons x l ih =>
      rw [fetchMany]
      refine (fetchAndMatch_triple hr x none k).bind fun f => triple_of_each fun w hw => ?_
      refine ((ih _).pre fun t ht => ht ▸ hw.1).bind fun fs => triple_pure fun t ht => ?_
      refine ⟨ht.1, by rw [List.map_cons, ht.2.1], fun p hp => ?_⟩
      rcases List.mem_cons.mp hp with rfl | hp
      · exact ⟨[], l, rfl, hw.2⟩
      · obtain ⟨before, after, hl, hf⟩ := ht.2.2 p hp
        exact ⟨x :: before, after, by rw [hl]; rfl, hf⟩

/-! ### What is known of a transaction -/

/-- It has been reported as confirmed, or is on record as waiting for it. -/
def Tracked (x : X) (w : Watcher X H A) : Prop :=
  Confirmed x w ∨ ∃ e, w.store.get x = some e ∧ e.status.isInMempool = true

/-- Whatever the watcher knows of the transaction, it has not lost sight of it. -/
structure Kept (x : X) (w : Watcher X H A) : Prop where
  store : ∀ e, w.store.get x = some e → Tracked x w
  checked : x ∈ w.checked → Tracked x w

variable {x : X} {w w' : Watcher X H A} {items : List (TraceItem X H A)}

lemma Confirmed.append (h : Confirmed x w) (ht : w'.trace = w.trace ++ items) :
    Confirmed x w' := by
  rw [Confirmed, exportsOf, movesOf] at h ⊢
  rw [ht, List.filter_append, List.map_append, List.filterMap_append]
  exact List.mem_append_left _ h

lemma Confirmed.changes (h : Confirmed x w) (hc : Changes cfg w w') : Confirmed x w' := by
  obtain ⟨items, ht⟩ := hc.trace
  exact h.append ht

/-- Nothing has happened to its entry. -/
lemma Tracked.same (h : Tracked x w) (hs : w'.store.get x = w.store.get x)
    (ht : w'.trace = w.trace ++ items) : Tracked x w' := by
  refine h.imp (·.append ht) fun hex => ?_
  obtain ⟨e, he, hm⟩ := hex
  exact ⟨e, hs.trans he, hm⟩

lemma Kept.same (h : Kept x w) (hs : w'.store.get x = w.store.get x)
    (ht : w'.trace = w.trace ++ items) (hc : x ∈ w'.checked → x ∈ w.checked) : Kept x w' :=
  ⟨fun e he => (h.store e (hs ▸ he)).same hs ht, fun hx => (h.checked (hc hx)).same hs ht⟩

lemma kept_of_tracked (h : Tracked x w) : Kept x w := ⟨fun _ _ => h, fun _ => h⟩

lemma Tracked.tick (h : Tracked x w) (n : ℕ) : Tracked x (w.tick n) := h

lemma Kept.tick (h : Kept x w) (n : ℕ) : Kept x (w.tick n) := ⟨h.store, h.checked⟩

/-- The entry of a transaction that waits, among the entries of the store. -/
lemma Tracked.confirmed_of (h : Tracked x w) {e : FlaggedTx X H A} (he : w.store.get x = some e)
    (hs : e.status.isInMempool = false) : Confirmed x w := by
  refine h.resolve_right ?_
  rintro ⟨e', he', hm⟩
  rw [he] at he'
  cases he'
  rw [hs] at hm
  cases hm

lemma trace_add (w : Watcher X H A) (y : X) (tx : RawTx X A) (rows : List (MatchRow A))
    (source : WatchSource) : ∃ items, (w.add y tx rows source).trace = w.trace ++ items := by
  rw [Watcher.add]
  simp only
  split_ifs
  · exact ⟨[], (List.append_nil _).symm⟩
  · exact ⟨_, rfl⟩

lemma Tracked.add (h : Tracked x w) (y : X) (tx : RawTx X A) (rows : List (MatchRow A))
    (source : WatchSource) : Tracked x (w.add y tx rows source) := by
  obtain ⟨items, ht⟩ := trace_add w y tx rows source
  refine h.imp (·.append ht) fun hex => ?_
  obtain ⟨e, he, hm⟩ := hex
  refine ⟨e, ?_, hm⟩
  by_cases hy : x = y
  · subst hy
    have hc : w.store.contains x = true := Keyed.contains_iff.mpr ⟨e, he⟩
    rw [Watcher.add]
    simp only [hc, Bool.or_true, if_true]
    exact he
  · rw [w.get_add_ne hy]
    exact he

/-- A transaction with matches is on record after it has been added. -/
lemma Kept.add_self (h : Kept x w) (tx : RawTx X A) {rows : List (MatchRow A)} (hrows : rows ≠ [])
    (source : WatchSource) : Tracked x (w.add x tx rows source) := by
  cases hx : w.store.get x with
  | some e => exact (h.store e hx).add x tx rows source
  | none =>
      have hc : w.store.contains x = false := by
        rw [Bool.eq_false_iff, Ne, Keyed.contains_iff, hx]
        simp
      have he : rows.isEmpty = false := by simpa using hrows
      rw [Watcher.add]
      simp only [hc, he, Bool.or_self, Bool.false_eq_true, if_false]
      exact .inr ⟨_, (Watcher.get_put _ _ _).trans (if_pos rfl), rfl⟩

/-- So the watcher does not lose sight of a transaction when one is added, if it has matches when
it is that one. -/
lemma Kept.add (h : Kept x w) (y : X) (tx : RawTx X A) {rows : List (MatchRow A)}
    (hrows : x = y → rows ≠ []) (source : WatchSource) : Kept x (w.add y tx rows source) := by
  by_cases hy : x = y
  · subst hy
    exact kept_of_tracked (h.add_self tx (hrows rfl) source)
  · obtain ⟨items, ht⟩ := trace_add w y tx rows source
    refine h.same (w.get_add_ne hy tx rows source) ht fun hx => ?_
    rw [mem_checked_add, Finset.mem_insert] at hx
    exact hx.resolve_left hy

lemma Tracked.afterAdded (h : Tracked x w) (y : X) (f : Option (RawTx X A × List (MatchRow A)))
    (source : WatchSource) : Tracked x (afterAdded y f source w) := by
  cases f with
  | none => exact h
  | some f => exact h.add y f.1 f.2 source

lemma Kept.afterAdded (h : Kept x w) (y : X) {f : Option (RawTx X A × List (MatchRow A))}
    (hrows : x = y → ∀ tx rows, f = some (tx, rows) → rows ≠ []) (source : WatchSource) :
    Kept x (afterAdded y f source w) := by
  cases f with
  | none => exact h
  | some f => exact h.add y f.1 (fun hy => hrows hy f.1 f.2 rfl) source

lemma DepthStep.trace {e : FlaggedTx X H A} (h : DepthStep cfg env e w w') :
    ∃ items, w'.trace = w.trace ++ items := by
  cases h with
  | waiting => exact ⟨[], (List.append_nil _).symm⟩
  | shallow => exact ⟨[], (List.append_nil _).symm⟩
  | left => exact ⟨_, rfl⟩
  | deep => exact ⟨_, rfl⟩

lemma DepthStep.tracked {e : FlaggedTx X H A} (h : DepthStep cfg env e w w')
    (he : w.store.get e.txid = some e) (hx : Tracked x w) : Tracked x w' := by
  obtain ⟨items, ht⟩ := h.trace
  by_cases hxe : x = e.txid
  · subst hxe
    cases h with
    | waiting => exact hx
    | shallow => exact hx
    | left => exact .inr ⟨_, (Watcher.get_unconfirm _ _ _ _ _).trans (if_pos rfl), rfl⟩
    | deep hs => exact .inl ((hx.confirmed_of he (by rw [hs]; rfl)).append ht)
  · exact hx.same (h.get_ne x hxe) ht

lemma DepthStep.kept {e : FlaggedTx X H A} (h : DepthStep cfg env e w w')
    (he : w.store.get e.txid = some e) (hx : Kept x w) : Kept x w' := by
  by_cases hxe : x = e.txid
  · exact kept_of_tracked (h.tracked he (hx.store e (hxe ▸ he)))
  · obtain ⟨items, ht⟩ := h.trace
    exact hx.same (h.get_ne x hxe) ht fun hc => h.sets.1 ▸ hc

end MempoolWatch

end BtcParser
