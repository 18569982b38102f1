import BtcParser.Rpc.MempoolWatch

/-!
Nodes that do not say in a payload what an input spends.

* `Ledger` is what a node has when it answers a call: the transactions of its active chain and
  those of its mempool. `Ledger.Consistent` is what any node keeps of it.
* `AnswersAsOld`: `gettxout` knows the outputs that are unspent on the chain, and
  `getrawtransaction` without a block hash the transactions of the mempool.
* `Looked` says of each listed output that a transaction spends that one of the two lookups still
  finds it, and `fetched_matches_iff` that this is exactly when the old node gives the matches of
  a newer one.
* `matches_of_mempool`: it does for a transaction in the mempool, as long as nothing changes.
  `matches_of_mined`: for a mined one it gives no match of an input at all.
-/

namespace BtcParser

variable {X H A : Type}

/-! ### What a node has -/

/-- A transaction: the outputs it spends, and its own. -/
structure LedgerTx (X A : Type) where
  txid : X
  spends : List (X × ℕ)
  outputs : List (TxOut A)

/-- The transactions of the active chain and of the mempool. -/
structure Ledger (X A : Type) where
  chain : List (LedgerTx X A)
  mempool : List (LedgerTx X A)

namespace Ledger

/-- The output exists on the chain, and nothing on the chain spends it. -/
def IsUnspent (v : Ledger X A) (x : X) (n : ℕ) : Prop :=
  (∃ p ∈ v.chain, p.txid = x ∧ n < p.outputs.length) ∧ ∀ t ∈ v.chain, (x, n) ∉ t.spends

/-- The transaction is in the mempool. -/
def InMempool (v : Ledger X A) (x : X) : Prop := ∃ p ∈ v.mempool, p.txid = x

instance [DecidableEq X] (v : Ledger X A) (x : X) (n : ℕ) : Decidable (v.IsUnspent x n) :=
  inferInstanceAs (Decidable (_ ∧ _))

instance [DecidableEq X] (v : Ledger X A) (x : X) : Decidable (v.InMempool x) :=
  inferInstanceAs (Decidable (∃ p ∈ v.mempool, p.txid = x))

/-- `out` are the outputs by transaction and position. What is spent on the chain was made there;
what is spent in the mempool is unspent on the chain, or was made in the mempool. -/
structure Consistent (out : X → ℕ → Option (TxOut A)) (v : Ledger X A) : Prop where
  outputs : ∀ p ∈ v.chain ++ v.mempool, ∀ n, p.outputs[n]? = out p.txid n
  chainSpends : ∀ t ∈ v.chain, ∀ o ∈ t.spends, ∃ p ∈ v.chain, p.txid = o.1
  mempoolSpends : ∀ t ∈ v.mempool, ∀ o ∈ t.spends, v.IsUnspent o.1 o.2 ∨ v.InMempool o.1
  disjoint : ∀ p ∈ v.chain, ¬ v.InMempool p.txid

lemma Consistent.exists_of_isUnspent {out : X → ℕ → Option (TxOut A)} {v : Ledger X A}
    (h : v.Consistent out) {x : X} {n : ℕ} (hu : v.IsUnspent x n) : ∃ o, out x n = some o := by
  obtain ⟨⟨p, hp, rfl, hn⟩, -⟩ := hu
  exact ⟨p.outputs[n], (h.outputs p (List.mem_append_left _ hp) n).symm.trans
    (List.getElem?_eq_getElem hn)⟩

/-- On the chain a spent output is not unspent, and its transaction is not in the mempool. -/
lemma Consistent.of_chain {out : X → ℕ → Option (TxOut A)} {v : Ledger X A}
    (h : v.Consistent out) {t : LedgerTx X A} (ht : t ∈ v.chain) {o : X × ℕ} (ho : o ∈ t.spends) :
    ¬ v.IsUnspent o.1 o.2 ∧ ¬ v.InMempool o.1 := by
  refine ⟨fun hu => hu.2 t ht ho, ?_⟩
  obtain ⟨p, hp, hx⟩ := h.chainSpends t ht o ho
  exact hx ▸ h.disjoint p hp

end Ledger

/-- The two lookups on a node before `getrawtransaction` gave the spent outputs. -/
structure AnswersAsOld (out : X → ℕ → Option (TxOut A)) (v : Ledger X A) (node : Bitcoind X H A) :
    Prop where
  unspent : ∀ x n, v.IsUnspent x n → node.getTxOut x n = .ok (out x n)
  spent : ∀ x n, ¬ v.IsUnspent x n → node.getTxOut x n = .ok none
  mempool : ∀ x, v.InMempool x → ∃ tx, node.getRawTransaction x none = .ok tx
    ∧ ∀ n, tx.vout[n]?.map (·.toTxOut) = out x n
  other : ∀ x, ¬ v.InMempool x → node.getRawTransaction x none = .error .rpcError

/-! ### The two payloads of a transaction -/

/-- An input without the key `prevout`. -/
def VIn.withoutPrevout : VIn X A → VIn X A
  | .coinbase => .coinbase
  | .spend x n _ => .spend x n none

/-- An input with the output it spends. -/
def VIn.withPrevout (out : X → ℕ → Option (TxOut A)) : VIn X A → VIn X A
  | .coinbase => .coinbase
  | .spend x n _ => .spend x n (some (out x n))

/-- The outputs that a list of inputs spends. -/
def spentOutputs (l : List (VIn X A)) : List (X × ℕ) :=
  l.filterMap fun
    | .coinbase => none
    | .spend x n _ => some (x, n)

/-- The payload of an old node. -/
def RawTx.withoutPrevouts (tx : RawTx X A) : RawTx X A :=
  { tx with vin := tx.vin.map VIn.withoutPrevout }

/-- The payload of a newer node. -/
def RawTx.withPrevouts (out : X → ℕ → Option (TxOut A)) (tx : RawTx X A) : RawTx X A :=
  { tx with vin := tx.vin.map (VIn.withPrevout out) }

namespace MempoolWatch

variable [LinearOrder X] (env : WatchEnv X H A) (out : X → ℕ → Option (TxOut A))
  (view : ℕ → Ledger X A)

/-- The output goes to an address on the list. -/
def Listed (o : Option (TxOut A)) : Prop :=
  ∃ txOut a entry, o = some txOut ∧ scriptAddress txOut = some a ∧ env.lookup a = some entry

/-- Call by call from the `k`-th on: each listed output is unspent on the chain when `gettxout`
asks for it, or its transaction is in the mempool when `getrawtransaction` does. -/
def Looked : ℕ → List (VIn X A) → Prop
  | _, [] => True
  | k, .coinbase :: l => Looked k l
  | k, .spend x n _ :: l =>
      if (view k).IsUnspent x n then Looked (k + 1) l
      else (Listed env (out x n) → (view (k + 1)).InMempool x) ∧ Looked (k + 2) l

/-- The rows of the inputs of a payload that says what they spend. -/
def inputRows : ℕ → List (VIn X A) → List (MatchRow A)
  | _, [] => []
  | i, .coinbase :: l => inputRows (i + 1) l
  | i, .spend x n _ :: l =>
      ((out x n).bind (matchRow env .input i)).toList ++ inputRows (i + 1) l

variable {env out view}

/-! ### One input -/

omit [LinearOrder X] in
lemma isSome_matchRow (d : Direction) (i : ℤ) (o : Option (TxOut A)) :
    (o.bind (matchRow env d i)).isSome = true ↔ Listed env o := by
  constructor
  · intro h
    obtain ⟨row, hrow⟩ := Option.isSome_iff_exists.mp h
    obtain ⟨txOut, ho, hrow⟩ := Option.bind_eq_some_iff.mp hrow
    rw [matchRow] at hrow
    obtain ⟨a, ha, hrow⟩ := Option.bind_eq_some_iff.mp hrow
    obtain ⟨entry, hentry, -⟩ := Option.bind_eq_some_iff.mp hrow
    exact ⟨txOut, a, entry, ho, ha, hentry⟩
  · rintro ⟨txOut, a, entry, rfl, ha, hentry⟩
    simp [matchRow, ha, hentry]

variable (env) in
lemma rpcCaught_ok {α : Type} (ask : Bitcoind X H A → Except RpcFailure α) {w : Watcher X H A}
    {a : α} (h : ask (env.node w.calls) = .ok a) :
    rpcCaught env ask w = .ok (some a) (w.tick 1) := by
  rw [rpcCaught, h]

variable (env) in
lemma rpcCaught_rpcError {α : Type} (ask : Bitcoind X H A → Except RpcFailure α)
    {w : Watcher X H A} (h : ask (env.node w.calls) = .error .rpcError) :
    rpcCaught env ask w = .ok none (w.tick 1) := by
  rw [rpcCaught, h]

variable (hview : ∀ k, (view k).Consistent out)
  (hnode : ∀ k, AnswersAsOld out (view k) (env.node k))

include hview hnode

/-- An output that is unspent on the chain is found with one call. -/
lemma prevoutOf_unspent {w : Watcher X H A} {x : X} {n : ℕ}
    (hu : (view w.calls).IsUnspent x n) :
    prevoutOf env x n none w = .ok (out x n) (w.tick 1) := by
  obtain ⟨o, ho⟩ := (hview w.calls).exists_of_isUnspent hu
  have hout := (hnode w.calls).unspent x n hu
  rw [ho] at hout
  have hcall := rpcCaught_ok env (·.getTxOut x n) hout
  rw [prevoutOf, Program.bind_of_ok hcall, ho]
  rfl

omit hview in
/-- Any other is found in its transaction, if that is in the mempool. -/
lemma prevoutOf_spent {w : Watcher X H A} {x : X} {n : ℕ}
    (hu : ¬ (view w.calls).IsUnspent x n) :
    prevoutOf env x n none w
      = .ok (if (view (w.calls + 1)).InMempool x then out x n else none) (w.tick 2) := by
  have hcall := rpcCaught_ok env (·.getTxOut x n) ((hnode w.calls).spent x n hu)
  rw [prevoutOf, Program.bind_of_ok hcall]
  by_cases hm : (view (w.calls + 1)).InMempool x
  · obtain ⟨tx, htx, hvout⟩ := (hnode (w.calls + 1)).mempool x hm
    have hparent := rpcCaught_ok env (·.getRawTransaction x none) (w := w.tick 1) htx
    rw [if_pos hm, ← hvout n]
    exact Program.bind_of_ok hparent _
  · have hparent := rpcCaught_rpcError env (·.getRawTransaction x none) (w := w.tick 1)
      ((hnode (w.calls + 1)).other x hm)
    rw [if_neg hm]
    exact Program.bind_of_ok hparent _

/-! ### The inputs of a transaction -/

omit hview hnode in
/-- On a newer node the payload says it all. -/
lemma matchInputs_withPrevout (l : List (VIn X A)) (i : ℕ) (w : Watcher X H A) :
    matchInputs env i (l.map (VIn.withPrevout out)) w = .ok (inputRows env out i l) w := by
  induction l generalizing i with
  | nil => rfl
  | cons v l ih =>
      cases v with
      | coinbase => exact ih (i + 1)
      | spend x n prevout => exact Program.bind_of_ok (ih (i + 1)) _

omit hview hnode in
/-- A head that is kept, or dropped. -/
lemma eq_toList_append_iff {α : Type} {o o' : Option α} {rows rows' : List α}
    (hsub : rows.Sublist rows') (ho : o = o' ∨ o = none) :
    (o.toList ++ rows).Sublist (o'.toList ++ rows')
      ∧ (o.toList ++ rows = o'.toList ++ rows' ↔ (o'.isSome → o.isSome) ∧ rows = rows') := by
  rcases ho with rfl | rfl
  · refine ⟨hsub.append_left _, ?_⟩
    rw [List.append_right_inj]
    exact ⟨fun h => ⟨id, h⟩, And.right⟩
  · refine ⟨hsub.trans (List.sublist_append_right _ _), ?_⟩
    cases o' with
    | none => simp
    | some a =>
        refine iff_of_false (fun h => ?_) fun h => by simpa using h.1 rfl
        have hlen := congrArg List.length h
        have hle := hsub.length_le
        simp only [Option.toList_none, List.nil_append, Option.toList_some, List.length_append,
          List.length_singleton] at hlen
        omega

/-- On an old node the rows are those that the two lookups find. -/
lemma matchInputs_withoutPrevout (l : List (VIn X A)) (i : ℕ) (w : Watcher X H A) :
    ∃ rows w', matchInputs env i (l.map VIn.withoutPrevout) w = .ok rows w'
      ∧ rows.Sublist (inputRows env out i l)
      ∧ (rows = inputRows env out i l ↔ Looked env out view w.calls l) := by
  induction l generalizing i w with
  | nil => exact ⟨[], w, rfl, .slnil, iff_of_true rfl trivial⟩
  | cons v l ih =>
      cases v with
      | coinbase => exact ih (i + 1) w
      | spend x n prevout =>
          -- an unspent output is found with one call, and a spent one needs its transaction
          by_cases hu : (view w.calls).IsUnspent x n
          · obtain ⟨rows, w', hrows, hsub, hiff⟩ := ih (i + 1) (w.tick 1)
            have hhead := eq_toList_append_iff hsub
              (.inl (rfl : (out x n).bind (matchRow env .input i) = _))
            refine ⟨_, w', ?_, hhead.1, hhead.2.trans ?_⟩
            · refine (Program.bind_of_ok (prevoutOf_unspent hview hnode hu) _).trans ?_
              exact Program.bind_of_ok hrows _
            · rw [Looked, if_pos hu]
              exact (and_iff_right id).trans hiff
          · obtain ⟨rows, w', hrows, hsub, hiff⟩ := ih (i + 1) (w.tick 2)
            let found := if (view (w.calls + 1)).InMempool x then out x n else none
            have hfound : found.bind (matchRow env .input i)
                = (out x n).bind (matchRow env .input i)
                ∨ found.bind (matchRow env .input i) = none := by
              by_cases hm : (view (w.calls + 1)).InMempool x
              · exact .inl (by simp [found, hm])
              · exact .inr (by simp [found, hm])
            have hhead := eq_toList_append_iff hsub hfound
            refine ⟨_, w', ?_, hhead.1, hhead.2.trans ?_⟩
            · refine (Program.bind_of_ok (prevoutOf_spent hnode hu) _).trans ?_
              exact Program.bind_of_ok hrows _
            · rw [Looked, if_neg hu, isSome_matchRow, isSome_matchRow, hiff]
              refine and_congr (forall_congr' fun hl => ?_) Iff.rfl
              by_cases hm : (view (w.calls + 1)).InMempool x
              · simp only [found, if_pos hm]
                exact iff_of_true hl hm
              · refine iff_of_false ?_ hm
                simp only [found, if_neg hm]
                rintro ⟨txOut, a, entry, ho, -⟩
                cases ho

/-! ### Whole transactions -/

/-- `match_tx` on the payloads of both nodes. -/
lemma matchTx_iff_looked (tx : RawTx X A) (w : Watcher X H A) :
    ∃ rows rows' w', matchTx env tx.withoutPrevouts w = .ok rows w'
      ∧ matchTx env (tx.withPrevouts out) w = .ok rows' w
      ∧ (rows = rows' ↔ Looked env out view w.calls tx.vin) := by
  obtain ⟨rows, w', hrows, -, hiff⟩ := matchInputs_withoutPrevout hview hnode tx.vin 0 w
  let outputs := tx.vout.filterMap fun o => matchRow env .output o.n o.toTxOut
  refine ⟨rows ++ outputs, inputRows env out 0 tx.vin ++ outputs, w', ?_, ?_, ?_⟩
  · exact Program.bind_of_ok hrows _
  · exact Program.bind_of_ok (matchInputs_withPrevout tx.vin 0 w) _
  · rw [List.append_left_inj]
    exact hiff

/-- **Old and newer nodes** give the same matches for a fetched transaction if and only if each
listed output that it spends is unspent on the chain, or made in the mempool, when it is looked
up. -/
theorem fetched_matches_iff (tx : RawTx X A) (x : X) (blockHash : Option H) (w : Watcher X H A)
    (hfetch : (env.node w.calls).getRawTransaction x blockHash = .ok tx.withoutPrevouts) :
    ∃ rows rows' w',
      fetchAndMatch env x blockHash w = .ok (some (tx.withoutPrevouts, rows)) w'
      ∧ matchTx env (tx.withPrevouts out) (w.tick 1) = .ok rows' (w.tick 1)
      ∧ (rows = rows' ↔ Looked env out view (w.calls + 1) tx.vin) := by
  obtain ⟨rows, rows', w', hold, hnew, hiff⟩ := matchTx_iff_looked hview hnode tx (w.tick 1)
  have hcall := rpcCaught_ok env (·.getRawTransaction x blockHash) hfetch
  refine ⟨rows, rows', w', ?_, hnew, hiff⟩
  rw [fetchAndMatch, Program.bind_of_ok hcall]
  exact Program.bind_of_ok hold _

omit hview hnode

section Steady

variable {v : Ledger X A} {k : ℕ} (hsteady : ∀ n, k ≤ n → view n = v)

include hsteady

/-- While nothing changes, the lookups find what is unspent or in the mempool. -/
lemma looked_of_found (l : List (VIn X A))
    (hfound : ∀ o ∈ spentOutputs l, v.IsUnspent o.1 o.2 ∨ v.InMempool o.1) :
    Looked env out view k l := by
  induction l generalizing k with
  | nil => exact trivial
  | cons i l ih =>
      cases i with
      | coinbase => exact ih hsteady hfound
      | spend x n prevout =>
          obtain ⟨hhead, htail⟩ := List.forall_mem_cons.mp hfound
          rw [Looked, hsteady k le_rfl, hsteady (k + 1) (Nat.le_succ k)]
          split_ifs with hu
          · exact ih (fun m hm => hsteady m (by omega)) htail
          · refine ⟨fun _ => hhead.resolve_left hu, ?_⟩
            exact ih (fun m hm => hsteady m (by omega)) htail

/-- While nothing changes, they find nothing that is spent and not in the mempool. -/
lemma looked_iff_of_gone (l : List (VIn X A))
    (hgone : ∀ o ∈ spentOutputs l, ¬ v.IsUnspent o.1 o.2 ∧ ¬ v.InMempool o.1) :
    Looked env out view k l ↔ ∀ o ∈ spentOutputs l, ¬ Listed env (out o.1 o.2) := by
  induction l generalizing k with
  | nil => exact iff_of_true trivial fun o ho => by cases ho
  | cons i l ih =>
      cases i with
      | coinbase => exact ih hsteady hgone
      | spend x n prevout =>
          obtain ⟨⟨hu, hm⟩, htail⟩ := List.forall_mem_cons.mp hgone
          rw [Looked, hsteady k le_rfl, hsteady (k + 1) (Nat.le_succ k), if_neg hu,
            ih (fun m hm => hsteady m (by omega)) htail]
          refine Iff.trans ?_ List.forall_mem_cons.symm
          exact and_congr ⟨fun h hl => hm (h hl), fun h hl => absurd hl h⟩ Iff.rfl

end Steady

/-- **In the mempool**, with parents on the chain or in the mempool, a transaction has the same
matches on both nodes, if nothing changes while they are looked up. -/
theorem matches_of_mempool {v : Ledger X A} {w : Watcher X H A} {tx : RawTx X A}
    {t : LedgerTx X A} (hview : ∀ k, (view k).Consistent out)
    (hnode : ∀ k, AnswersAsOld out (view k) (env.node k)) (hsteady : ∀ k, w.calls ≤ k → view k = v)
    (ht : t ∈ v.mempool) (hspends : spentOutputs tx.vin = t.spends) :
    ∃ rows w', matchTx env tx.withoutPrevouts w = .ok rows w'
      ∧ matchTx env (tx.withPrevouts out) w = .ok rows w := by
  obtain ⟨rows, rows', w', hold, hnew, hiff⟩ := matchTx_iff_looked hview hnode tx w
  have hv : v.Consistent out := hsteady w.calls le_rfl ▸ hview w.calls
  obtain rfl := hiff.mpr (looked_of_found hsteady tx.vin (hspends ▸ hv.mempoolSpends t ht))
  exact ⟨rows, w', hold, hnew⟩

/-- **Mined**, a transaction has the same matches only if none of them is an input. -/
theorem matches_of_mined {v : Ledger X A} {w : Watcher X H A} {tx : RawTx X A}
    {t : LedgerTx X A} (hview : ∀ k, (view k).Consistent out)
    (hnode : ∀ k, AnswersAsOld out (view k) (env.node k)) (hsteady : ∀ k, w.calls ≤ k → view k = v)
    (ht : t ∈ v.chain) (hspends : spentOutputs tx.vin = t.spends) :
    ∃ rows rows' w', matchTx env tx.withoutPrevouts w = .ok rows w'
      ∧ matchTx env (tx.withPrevouts out) w = .ok rows' w
      ∧ (rows = rows' ↔ ∀ o ∈ t.spends, ¬ Listed env (out o.1 o.2)) := by
  obtain ⟨rows, rows', w', hold, hnew, hiff⟩ := matchTx_iff_looked hview hnode tx w
  have hv : v.Consistent out := hsteady w.calls le_rfl ▸ hview w.calls
  have hgone : ∀ o ∈ spentOutputs tx.vin, ¬ v.IsUnspent o.1 o.2 ∧ ¬ v.InMempool o.1 :=
    fun o ho => hv.of_chain ht (hspends ▸ ho)
  refine ⟨rows, rows', w', hold, hnew, hiff.trans ?_⟩
  rw [looked_iff_of_gone hsteady tx.vin hgone, hspends]

end MempoolWatch

/-! ### A node with two transactions -/

/-- The payload of an old node. -/
def LedgerTx.payload (t : LedgerTx X A) : RawTx X A where
  vin := t.spends.map fun o => .spend o.1 o.2 none
  vout := t.outputs.zipIdx.map fun o => ⟨o.1, o.2⟩
  fee := none
  vsize := none

section OldNode

variable [DecidableEq X]

/-- The outputs of a list of transactions. -/
def outputsOf (txs : List (LedgerTx X A)) (x : X) (n : ℕ) : Option (TxOut A) :=
  (txs.find? fun t => t.txid = x).bind fun t => t.outputs[n]?

/-- What an old node answers. -/
def oldNode (v : Ledger X A) : Bitcoind X H A where
  getBlockCount := .error .rpcCliError
  getRawMempoolTxids := .ok (v.mempool.map (·.txid))
  getRawTransaction x blockHash :=
    match (if blockHash.isSome then v.chain else v.mempool).find? fun t => t.txid = x with
    | some t => .ok t.payload
    | none => .error .rpcError
  getTxOut x n := .ok (if v.IsUnspent x n then outputsOf v.chain x n else none)
  getTxSpendingPrevout _ := .error .rpcError
  getBlockHash _ := .error .rpcCliError
  getBlockTxids _ := .error .rpcCliError
  getBlockHeader _ := .error .rpcCliError

lemma outputsOf_eq {txs : List (LedgerTx X A)} {out : X → ℕ → Option (TxOut A)}
    (h : ∀ p ∈ txs, ∀ n, p.outputs[n]? = out p.txid n) {x : X}
    (hx : ∃ p ∈ txs, p.txid = x) (n : ℕ) :
    outputsOf txs x n = out x n := by
  obtain ⟨p, hp, hpx⟩ := hx
  cases hf : txs.find? fun t => decide (t.txid = x) with
  | none => simpa [hpx] using List.find?_eq_none.mp hf p hp
  | some t =>
      have htx : t.txid = x := by simpa using List.find?_some hf
      rw [outputsOf, hf, Option.bind_some, h t (List.mem_of_find?_eq_some hf), htx]

lemma oldNode_answersAsOld {out : X → ℕ → Option (TxOut A)} {v : Ledger X A}
    (hv : v.Consistent out) : AnswersAsOld out v (oldNode v : Bitcoind X H A) where
  unspent x n hu := by
    obtain ⟨⟨p, hp, hx, -⟩, -⟩ := id hu
    have hout := outputsOf_eq (fun p hp => hv.outputs p (List.mem_append_left _ hp)) ⟨p, hp, hx⟩ n
    exact congrArg Except.ok ((if_pos hu).trans hout)
  spent x n hu := congrArg Except.ok (if_neg hu)
  mempool x hx := by
    obtain ⟨p, hp, hpx⟩ := hx
    cases hf : v.mempool.find? fun t => decide (t.txid = x) with
    | none => simpa [hpx] using List.find?_eq_none.mp hf p hp
    | some t =>
        have htx : t.txid = x := by simpa using List.find?_some hf
        have hout := hv.outputs t (List.mem_append_right _ (List.mem_of_find?_eq_some hf))
        refine ⟨t.payload, by simp [oldNode, hf], fun n => ?_⟩
        rw [← htx, ← hout, LedgerTx.payload, List.getElem?_map, List.getElem?_zipIdx]
        cases t.outputs[n]? <;> rfl
  other x hx := by
    have hf : (v.mempool.find? fun t => decide (t.txid = x)) = none :=
      List.find?_eq_none.mpr fun t ht => by simpa using fun he => hx ⟨t, ht, he⟩
    simp [oldNode, hf]

end OldNode

namespace MempoolWatch

/-- It pays one bitcoin to address `7`, which is the one on the list. -/
def payment : LedgerTx (Fin 2) ℕ := ⟨0, [], [⟨some 7, [], some 1⟩]⟩

/-- It spends that payment. -/
def spending : LedgerTx (Fin 2) ℕ := ⟨1, [(0, 0)], [⟨some 8, [], some 1⟩]⟩

/-- Both are in the mempool. -/
def unconfirmed : Ledger (Fin 2) ℕ := ⟨[], [payment, spending]⟩

/-- Both are mined. -/
def mined : Ledger (Fin 2) ℕ := ⟨[payment, spending], []⟩

lemma outputs_payments : ∀ p ∈ [payment, spending], ∀ n,
    p.outputs[n]? = outputsOf [payment, spending] p.txid n := by
  intro p hp n
  simp only [List.mem_cons, List.not_mem_nil, or_false] at hp
  rcases hp with rfl | rfl <;> rfl

lemma unconfirmed_consistent :
    unconfirmed.Consistent (outputsOf [payment, spending]) where
  outputs := outputs_payments
  chainSpends t ht := by cases ht
  mempoolSpends := by decide
  disjoint p hp := by cases hp

lemma mined_consistent : mined.Consistent (outputsOf [payment, spending]) where
  outputs := outputs_payments
  chainSpends := by decide
  mempoolSpends t ht := by cases ht
  disjoint := by decide

/-- An old node with this ledger at every call. -/
def oldEnv (v : Ledger (Fin 2) ℕ) : WatchEnv (Fin 2) ℕ ℕ where
  node _ := oldNode v
  lookup a := if a = 7 then some ⟨"name", "first name", "program", "list"⟩ else none
  listing _ s := (List.finRange 2).filter (· ∈ s)
  listing_nodup _ s := (List.nodup_finRange 2).filter _
  mem_listing _ s x := by simp
  stop _ := false

/-- The row of the input of `spending`. -/
def spendingRow : MatchRow ℕ :=
  ⟨.input, 0, 7, btcToSats (some 1), some 1, ⟨"name", "first name", "program", "list"⟩⟩

/-- In the mempool the old node finds the input. -/
theorem fetched_matches_iff_unconfirmed : ∃ rows rows' w',
    fetchAndMatch (oldEnv unconfirmed) 1 none .fresh = .ok (some (spending.payload, rows)) w'
      ∧ rows = rows' ∧ rows' = [spendingRow] := by
  obtain ⟨rows, rows', w', hold, hnew, hiff⟩ := @fetched_matches_iff (Fin 2) ℕ ℕ _
    (oldEnv unconfirmed) (outputsOf [payment, spending]) (fun _ => unconfirmed)
    (fun _ => unconfirmed_consistent) (fun _ => oldNode_answersAsOld unconfirmed_consistent)
    spending.payload 1 none .fresh rfl
  have hlooked : Looked (oldEnv unconfirmed) (outputsOf [payment, spending])
      (fun _ => unconfirmed) 1 spending.payload.vin :=
    looked_of_found (v := unconfirmed) (fun _ _ => rfl) spending.payload.vin (by decide)
  have hrow : matchTx (oldEnv unconfirmed) (spending.payload.withPrevouts
      (outputsOf [payment, spending])) (Watcher.fresh.tick 1)
        = .ok [spendingRow] (Watcher.fresh.tick 1) := rfl
  refine ⟨rows, rows', w', hold, hiff.mpr hlooked, ?_⟩
  injection hrow.symm.trans hnew with hrows
  exact hrows.symm

/-- Mined, and fetched by its block hash, it has no match on the old node. -/
theorem fetched_matches_mined : ∃ w',
    (∀ k : ℕ, AnswersAsOld (outputsOf [payment, spending]) mined ((oldEnv mined).node k))
      ∧ fetchAndMatch (oldEnv mined) 1 (some 0) .fresh = .ok (some (spending.payload, [])) w'
      ∧ matchTx (oldEnv mined) (spending.payload.withPrevouts (outputsOf [payment, spending]))
          (Watcher.fresh.tick 1) = .ok [spendingRow] (Watcher.fresh.tick 1) :=
  ⟨Watcher.fresh.tick 3, fun _ => oldNode_answersAsOld mined_consistent, rfl, rfl⟩

end MempoolWatch

end BtcParser
