import BtcParser.Mempool.Steps

/-!
A batch of events when the answers depend on the request only.

* `WatchEnv.Constant` says so. Then the number of calls made before does not matter (`Commutes`),
  and a fetch has one result (`Yields`).
* `applyEvents` is what `handle_events` does with the events when it has fetched the transactions
  of a set, and `handleEvents_apply` its tie to `handle_events`.
-/

namespace BtcParser

open SequenceEvent

variable {X H A : Type}

/-- The answers depend on the request only, and every transaction that is asked for is answered,
be it with an error. -/
structure WatchEnv.Constant (env : WatchEnv X H A) : Prop where
  node : ∀ n, env.node n = env.node 0
  listing : ∀ n s, env.listing n s = env.listing 0 s
  transaction : ∀ x h, (env.node 0).getRawTransaction x h ≠ .error .rpcCliError
  txOut : ∀ x n, (env.node 0).getTxOut x n ≠ .error .rpcCliError

namespace MempoolWatch

open Program

variable [LinearOrder X] {cfg : MempoolWatchConfig} {env : WatchEnv X H A}

/-! ### The number of calls does not matter -/

section Calls

variable (n : ℕ)

lemma commutes_rpc (hc : env.Constant) {α : Type} (ask : Bitcoind X H A → Except RpcFailure α) :
    Commutes (·.tick n) (rpc env ask) := by
  intro w
  simp only [rpc, hc.node]
  cases ask (env.node 0) <;> simp [mapState, Watcher.tick, add_right_comm]

lemma commutes_rpcCaught (hc : env.Constant) {α : Type}
    (ask : Bitcoind X H A → Except RpcFailure α) : Commutes (·.tick n) (rpcCaught env ask) := by
  intro w
  simp only [rpcCaught, hc.node]
  rcases ask (env.node 0) with (_ | _) | _ <;> simp [mapState, Watcher.tick, add_right_comm]

lemma commutes_prevoutOf (hc : env.Constant) (x : X) (vout : ℕ)
    (prevout : Option (Option (TxOut A))) : Commutes (·.tick n) (prevoutOf env x vout prevout) := by
  cases prevout with
  | some out => exact commutes_pure _
  | none =>
      refine (commutes_rpcCaught n hc _).bind fun o => ?_
      rcases o with _ | (_ | _)
      · exact commutes_pure _
      · refine (commutes_rpcCaught n hc _).bind fun o => ?_
        cases o <;> exact commutes_pure _
      · exact commutes_pure _

lemma commutes_matchInputs (hc : env.Constant) (i : ℕ) (l : List (VIn X A)) :
    Commutes (·.tick n) (matchInputs env i l) := by
  induction l generalizing i with
  | nil => exact commutes_pure _
  | cons v l ih =>
      cases v with
      | coinbase => exact ih (i + 1)
      | spend x vout prevout =>
          exact (commutes_prevoutOf n hc x vout prevout).bind fun _ =>
            (ih (i + 1)).bind fun _ => commutes_pure _

lemma commutes_fetchAndMatch (hc : env.Constant) (x : X) (h : Option H) :
    Commutes (·.tick n) (fetchAndMatch env x h) := by
  refine (commutes_rpcCaught n hc _).bind fun o => ?_
  cases o with
  | none => exact commutes_pure _
  | some tx =>
      exact ((commutes_matchInputs n hc 0 tx.vin).bind fun _ => commutes_pure _).bind
        fun _ => commutes_pure _

lemma tick_add (w : Watcher X H A) (x : X) (tx : RawTx X A) (rows : List (MatchRow A))
    (source : WatchSource) : (w.tick n).add x tx rows source = (w.add x tx rows source).tick n := by
  have hstore : (w.tick n).store = w.store := rfl
  simp only [Watcher.add, hstore]
  by_cases h : (rows.isEmpty || w.store.contains x) = true
  · rw [if_pos h, if_pos h]
    rfl
  · rw [if_neg h, if_neg h]
    rfl

lemma tick_remove (w : Watcher X H A) (x : X) : (w.tick n).remove x = (w.remove x).tick n := by
  have hstore : (w.tick n).store = w.store := rfl
  simp only [Watcher.remove, hstore]
  by_cases h : w.store.contains x = true
  · rw [if_pos h, if_pos h]
    rfl
  · rw [if_neg h, if_neg h]

lemma commutes_onAdded (x : X) (f : Option (RawTx X A × List (MatchRow A)))
    (source : WatchSource) : Commutes (·.tick n) (@onAdded X H A _ x f source) := by
  cases f with
  | none => exact commutes_pure _
  | some f => exact commutes_modify fun w => tick_add n w x f.1 f.2 source

lemma commutes_onLeftUnmined (hc : env.Constant) (e : FlaggedTx X H A) (source : WatchSource)
    (detail : WatchDetail H) : Commutes (·.tick n) (onLeftUnmined env e source detail) := by
  refine Commutes.bind ?_ fun y => commutes_modify fun w => ?_
  · rw [replacedBy]
    split_ifs
    · exact commutes_pure _
    · exact (commutes_rpcCaught n hc _).bind fun _ => commutes_pure _
  · cases y <;> exact tick_remove n (w.exportRows _) e.txid

lemma commutes_onRemoved (hc : env.Constant) (x : X) : Commutes (·.tick n) (onRemoved env x) := by
  refine Commutes.bind (commutes_modify fun _ => rfl) fun _ =>
    commutes_get (fun _ => rfl) fun w => ?_
  cases w.store.get x with
  | none => exact commutes_pure _
  | some e =>
      simp only
      split_ifs
      · exact commutes_onLeftUnmined n hc e _ _
      · exact commutes_pure _

lemma commutes_checkConfirmedDepth (hc : env.Constant) :
    Commutes (·.tick n) (checkConfirmedDepth cfg env) := by
  refine commutes_get (fun _ => rfl) fun w => commutes_forM (fun e => ?_) _
  rw [checkDepth]
  cases e.status with
  | inMempool => exact commutes_pure _
  | confirmed h height =>
      refine (commutes_rpc n hc _).bind fun c => ?_
      split_ifs
      · exact commutes_modify fun _ => rfl
      · refine commutes_modify fun w => ?_
        rw [Watcher.forget, Watcher.forget, tick_remove]
        rfl
      · exact commutes_pure _

lemma commutes_onBlockConnected (hc : env.Constant) (h : H) :
    Commutes (·.tick n) (onBlockConnected cfg env h) := by
  refine (commutes_rpc n hc _).bind fun b => ?_
  refine Commutes.bind (commutes_modify fun _ => rfl) fun _ =>
    commutes_get (fun w => ?_) fun w => ?_
  · simp only [hc.listing, Watcher.tick]
  · refine Commutes.bind (commutes_forM (fun x => ?_) _) fun _ => ?_
    · exact (commutes_fetchAndMatch n hc x _).bind fun f => commutes_onAdded n x f _
    · refine Commutes.bind (commutes_modify fun _ => rfl) fun _ =>
        commutes_get (fun _ => rfl) fun w => ?_
      refine Commutes.bind (commutes_forM (fun e => ?_) _) fun _ =>
        commutes_checkConfirmedDepth n hc
      rw [confirmIfIn]
      split_ifs
      · exact commutes_modify fun _ => rfl
      · exact commutes_pure _

lemma commutes_applyEvent (hc : env.Constant)
    (fetched : List (X × Option (RawTx X A × List (MatchRow A)))) (e : SequenceEvent X H) :
    Commutes (·.tick n) (applyEvent cfg env fetched e) := by
  cases e with
  | added x =>
      rw [applyEvent]
      split
      · exact commutes_pure _
      · exact commutes_modify fun _ => rfl
      · exact commutes_onAdded n _ _ _
  | removed x => exact Commutes.bind (commutes_modify fun _ => rfl) fun _ =>
      commutes_onRemoved n hc x
  | connected h => exact commutes_onBlockConnected n hc h
  | disconnected _ => exact commutes_checkConfirmedDepth n hc
  | other => exact commutes_pure _

end Calls

/-! ### What is fetched -/

/-- The program makes calls only, and returns `a`. -/
def Yields {α : Type} (x : Watch X H A α) (a : α) : Prop := ∀ w, ∃ n, x w = .ok a (w.tick n)

lemma yields_pure {α : Type} (a : α) : Yields (pure a : Watch X H A α) a := fun _ => ⟨0, rfl⟩

lemma Yields.bind {α β : Type} {x : Watch X H A α} {y : α → Watch X H A β} {a : α} {b : β}
    (hx : Yields x a) (hy : Yields (y a) b) : Yields (x >>= y) b := by
  intro w
  obtain ⟨m, hm⟩ := hx w
  obtain ⟨n, hn⟩ := hy (w.tick m)
  exact ⟨m + n, by rw [bind_of_ok hm, hn, tick_tick]⟩

lemma exists_yields_rpcCaught (hc : env.Constant) {α : Type}
    (ask : Bitcoind X H A → Except RpcFailure α) (ha : ask (env.node 0) ≠ .error .rpcCliError) :
    ∃ a, Yields (rpcCaught env ask) a := by
  have hnode : ∀ w : Watcher X H A, ask (env.node w.calls) = ask (env.node 0) := fun w => by
    rw [hc.node]
  rcases h : ask (env.node 0) with (_ | _) | a
  · exact ⟨none, fun w => ⟨1, by rw [rpcCaught, hnode, h]⟩⟩
  · exact absurd h ha
  · exact ⟨some a, fun w => ⟨1, by rw [rpcCaught, hnode, h]⟩⟩

lemma exists_yields_prevoutOf (hc : env.Constant) (x : X) (vout : ℕ)
    (prevout : Option (Option (TxOut A))) : ∃ a, Yields (prevoutOf env x vout prevout) a := by
  cases prevout with
  | some out => exact ⟨out, yields_pure _⟩
  | none =>
      obtain ⟨o, ho⟩ := exists_yields_rpcCaught hc (·.getTxOut x vout) (hc.txOut x vout)
      rcases o with _ | (_ | out)
      · exact ⟨_, ho.bind (yields_pure _)⟩
      · obtain ⟨p, hp⟩ := exists_yields_rpcCaught hc (·.getRawTransaction x none)
          (hc.transaction x none)
        cases p with
        | none => exact ⟨_, ho.bind (hp.bind (yields_pure _))⟩
        | some parent => exact ⟨_, ho.bind (hp.bind (yields_pure _))⟩
      · exact ⟨_, ho.bind (yields_pure _)⟩

lemma exists_yields_matchInputs (hc : env.Constant) (i : ℕ) (l : List (VIn X A)) :
    ∃ a, Yields (matchInputs env i l) a := by
  induction l generalizing i with
  | nil => exact ⟨_, yields_pure _⟩
  | cons v l ih =>
      obtain ⟨rows, hrows⟩ := ih (i + 1)
      cases v with
      | coinbase => exact ⟨rows, hrows⟩
      | spend x vout prevout =>
          obtain ⟨out, hout⟩ := exists_yields_prevoutOf hc x vout prevout
          exact ⟨_, hout.bind (hrows.bind (yields_pure _))⟩

/-- Whatever the state, a fetch has the same result. -/
lemma exists_yields_fetchAndMatch (hc : env.Constant) (x : X) (h : Option H) :
    ∃ a, Yields (fetchAndMatch env x h) a := by
  obtain ⟨o, ho⟩ := exists_yields_rpcCaught hc (·.getRawTransaction x h) (hc.transaction x h)
  cases o with
  | none => exact ⟨none, ho.bind (yields_pure _)⟩
  | some tx =>
      obtain ⟨rows, hrows⟩ := exists_yields_matchInputs hc 0 tx.vin
      have hmatch : Yields (matchTx env tx) _ := hrows.bind (yields_pure _)
      exact ⟨_, ho.bind (hmatch.bind (yields_pure _))⟩

/-- The result of a fetch. -/
abbrev Fetched (X A : Type) := Option (RawTx X A × List (MatchRow A))

/-- What a fetch of the transactions of `s` returns when the single fetches return `F`. -/
def fetches (env : WatchEnv X H A) (F : X → Fetched X A) (s : Finset X) :
    List (X × Fetched X A) :=
  (env.listing 0 s).map fun x => (x, F x)

lemma lookup_map_mk (F : X → Fetched X A) (l : List X) (x : X) :
    Dict.lookup (l.map fun y => (y, F y)) x = if x ∈ l then some (F x) else none := by
  induction l with
  | nil => rfl
  | cons y l ih =>
      rw [List.map_cons, Dict.lookup]
      by_cases hy : y = x
      · subst hy
        simp
      · simp [hy, Ne.symm hy, ih]

@[simp] lemma lookup_fetches (F : X → Fetched X A) (s : Finset X) (x : X) :
    Dict.lookup (fetches env F s) x = if x ∈ s then some (F x) else none := by
  rw [fetches, lookup_map_mk]
  simp only [env.mem_listing]

lemma yields_fetchMany {F : X → Fetched X A} (hF : ∀ x, Yields (fetchAndMatch env x none) (F x))
    (l : List X) : Yields (fetchMany env l) (l.map fun x => (x, F x)) := by
  induction l with
  | nil => exact yields_pure _
  | cons x l ih => exact (hF x).bind (ih.bind (yields_pure _))

variable (cfg env) in
/-- The second half of `handle_events`. -/
def applyEvents (F : X → Fetched X A) (s : Finset X) (events : List (SequenceEvent X H)) :
    Watch X H A Unit :=
  events.forM (applyEvent cfg env (fetches env F s))

variable {F : X → Fetched X A}

lemma applyEvents_append (s : Finset X) (e₁ e₂ : List (SequenceEvent X H)) :
    applyEvents cfg env F s (e₁ ++ e₂)
      = applyEvents cfg env F s e₁ >>= fun _ => applyEvents cfg env F s e₂ :=
  List.forM_append

lemma applyEvents_cons (s : Finset X) (e : SequenceEvent X H) (l : List (SequenceEvent X H)) :
    applyEvents cfg env F s (e :: l)
      = applyEvent cfg env (fetches env F s) e >>= fun _ => applyEvents cfg env F s l := rfl

/-- Only what has been announced is looked up. -/
lemma applyEvent_congr {fs fs' : List (X × Fetched X A)} {e : SequenceEvent X H}
    (h : ∀ x, e = .added x → Dict.lookup fs x = Dict.lookup fs' x) :
    applyEvent cfg env fs e = applyEvent cfg env fs' e := by
  cases e with
  | added x => rw [applyEvent, applyEvent, h x rfl]
  | _ => rfl

lemma applyEvents_congr {s s' : Finset X} {events : List (SequenceEvent X H)}
    (h : ∀ x, .added x ∈ events → (x ∈ s ↔ x ∈ s')) :
    applyEvents cfg env F s events = applyEvents cfg env F s' events := by
  induction events with
  | nil => rfl
  | cons e l ih =>
      have he : applyEvent cfg env (fetches env F s) e = applyEvent cfg env (fetches env F s') e :=
        applyEvent_congr fun x hx => by
          simp only [lookup_fetches, h x (by simp [hx])]
      rw [applyEvents_cons, applyEvents_cons, he, ih fun x hx => h x (List.mem_cons_of_mem _ hx)]

lemma commutes_applyEvents (n : ℕ) (hc : env.Constant) (s : Finset X)
    (events : List (SequenceEvent X H)) :
    Commutes (·.tick n) (applyEvents cfg env F s events) :=
  commutes_forM (commutes_applyEvent n hc _) events

variable (cfg) in
/-- `handle_events` is its second half, after some calls. -/
lemma handleEvents_apply (hc : env.Constant) (hF : ∀ x, Yields (fetchAndMatch env x none) (F x))
    (events : List (SequenceEvent X H)) (w : Watcher X H A) :
    ∃ n, handleEvents cfg env events w
      = mapState (·.tick n) (applyEvents cfg env F (addedTxids events w) events w) := by
  obtain ⟨n, hn⟩ := yields_fetchMany hF (env.listing 0 (addedTxids events w)) w
  refine ⟨n, ?_⟩
  rw [handleEvents, bind_apply, get_apply]
  simp only
  rw [hc.listing, bind_of_ok hn]
  exact commutes_applyEvents n hc _ events w

lemma mem_addedTxids {events : List (SequenceEvent X H)} {w : Watcher X H A} {x : X} :
    x ∈ addedTxids events w ↔ .added x ∈ events ∧ x ∉ w.checked := by
  simp only [addedTxids, Finset.mem_sdiff, List.mem_toFinset, List.mem_filterMap]
  refine and_congr_left fun _ => ⟨?_, fun h => ⟨_, h, rfl⟩⟩
  rintro ⟨e, he, hx⟩
  cases e with
  | added y =>
      cases hx
      exact he
  | _ => cases hx

@[simp] lemma addedTxids_tick (events : List (SequenceEvent X H)) (w : Watcher X H A) (n : ℕ) :
    addedTxids events (w.tick n) = addedTxids events w := rfl

end MempoolWatch

end BtcParser
