import BtcParser.Mempool.Steps

/-!
A node whose chain does not change, as the watcher sees it.

* `TxChain` is a chain: the hashes of its blocks and the txids in them, from height `0` up.
* `Bitcoind.OnChain c`: what the node answers about blocks is true of the chain `c`, or an error.
* `Searched` says what `_find_confirming_block` finds, and `findConfirmingBlock_triple` that it
  does, whatever is in the cache of blocks of the chain.
* `nodeOf` is a node with a given chain and mempool.
-/

namespace BtcParser

/-- A chain, from height `0` up. -/
structure TxChain (X H : Type) where
  blocks : List (H × List X)
  nodup : (blocks.map Prod.fst).Nodup

namespace TxChain

variable {X H : Type} (c : TxChain X H)

/-- The height of the highest block. -/
def tip : ℤ := c.blocks.length - 1

/-- The block at a height, if the chain is that high. -/
def blockAt (n : ℤ) : Option (H × List X) := if n < 0 then none else c.blocks[n.toNat]?

variable {c}

lemma bounds_of_blockAt {n : ℤ} {b : H × List X} (h : c.blockAt n = some b) :
    0 ≤ n ∧ n ≤ c.tip := by
  rw [blockAt] at h
  split_ifs at h with h0
  have hlt := (List.getElem?_eq_some_iff.mp h).1
  rw [tip]
  omega

/-- A hash is on the chain once. -/
lemma height_unique {n n' : ℤ} {h : H} {l l' : List X} (hn : c.blockAt n = some (h, l))
    (hn' : c.blockAt n' = some (h, l')) : n = n' := by
  have h0 := (bounds_of_blockAt hn).1
  have h0' := (bounds_of_blockAt hn').1
  rw [blockAt, if_neg (by omega)] at hn hn'
  have hi := congrArg (Option.map Prod.fst) hn
  have hi' := congrArg (Option.map Prod.fst) hn'
  rw [← List.getElem?_map] at hi hi'
  obtain ⟨hlt, hv⟩ := List.getElem?_eq_some_iff.mp hi
  obtain ⟨hlt', hv'⟩ := List.getElem?_eq_some_iff.mp hi'
  have := (List.Nodup.getElem_inj_iff c.nodup).mp (hv.trans hv'.symm)
  omega

variable (c) in
/-- The height of a hash, if it is on the chain. -/
def heightOf [DecidableEq H] (h : H) : Option ℕ := c.blocks.findIdx? fun b => b.1 = h

lemma heightOf_eq_some [DecidableEq H] {h : H} {n : ℤ} {l : List X}
    (hn : c.blockAt n = some (h, l)) : c.heightOf h = some n.toNat := by
  have h0 := (bounds_of_blockAt hn).1
  have hat := hn
  rw [blockAt, if_neg (by omega)] at hat
  obtain ⟨hlt, hv⟩ := List.getElem?_eq_some_iff.mp hat
  rw [heightOf, List.findIdx?_eq_some_iff_getElem]
  refine ⟨hlt, by simp [hv], fun j hj hb => ?_⟩
  have hjn : c.blockAt j = some (h, (c.blocks[j]).2) := by
    rw [blockAt, if_neg (by omega), Int.toNat_natCast, List.getElem?_eq_getElem (by omega)]
    simp only [decide_eq_true_eq] at hb
    rw [← hb]
  have := height_unique hjn hn
  omega

lemma heightOf_eq_none [DecidableEq H] {h : H} (hn : ∀ n l, c.blockAt n ≠ some (h, l)) :
    c.heightOf h = none := by
  rw [heightOf, List.findIdx?_eq_none_iff]
  intro b hb
  obtain ⟨i, hi, rfl⟩ := List.getElem_of_mem hb
  simp only [decide_eq_false_iff_not]
  rintro rfl
  refine hn i (c.blocks[i]).2 ?_
  rw [blockAt, if_neg (by omega), Int.toNat_natCast, List.getElem?_eq_getElem hi]

end TxChain

variable {X H A : Type}

/-- Whatever the node answers about blocks, it answers from the chain `c`. -/
structure Bitcoind.OnChain (b : Bitcoind X H A) (c : TxChain X H) : Prop where
  count : ∀ n, b.getBlockCount = .ok n → n = c.tip
  hash : ∀ n h, b.getBlockHash n = .ok h → ∃ txids, c.blockAt n = some (h, txids)
  txids : ∀ n h txids r, c.blockAt n = some (h, txids) → b.getBlockTxids h = .ok r →
    r.2.2 = txids
  active : ∀ n h txids k, c.blockAt n = some (h, txids) → b.getBlockHeader h = .ok k →
    k = c.tip - n + 1
  stale : ∀ h k, (∀ n txids, c.blockAt n ≠ some (h, txids)) → b.getBlockHeader h = .ok k → k = -1

/-- A node with the chain `c` and this mempool. -/
def nodeOf [DecidableEq X] [DecidableEq H] (c : TxChain X H) (mempool : List X)
    (tx : X → RawTx X A) : Bitcoind X H A where
  getBlockCount := .ok c.tip
  getRawMempoolTxids := .ok mempool
  getRawTransaction x
    | none => if x ∈ mempool then .ok (tx x) else .error .rpcError
    | some h => if (h, x) ∈ c.blocks.flatMap fun b => b.2.map (b.1, ·) then .ok (tx x)
        else .error .rpcError
  getTxOut _ _ := .ok none
  getTxSpendingPrevout l := .ok (l.map fun _ => none)
  getBlockHash n := match c.blockAt n with
    | some b => .ok b.1
    | none => .error .rpcCliError
  getBlockTxids h := match c.heightOf h with
    | some n => .ok (n, c.tip - n + 1, ((c.blockAt n).map Prod.snd).getD [])
    | none => .error .rpcCliError
  getBlockHeader h := match c.heightOf h with
    | some n => .ok (c.tip - n + 1)
    | none => .ok (-1)

lemma nodeOf_onChain [DecidableEq X] [DecidableEq H] (c : TxChain X H) (mempool : List X)
    (tx : X → RawTx X A) : (nodeOf c mempool tx).OnChain c where
  count n hn := by
    cases hn
    rfl
  hash n h hn := by
    simp only [nodeOf] at hn
    cases hb : c.blockAt n with
    | none => simp [hb] at hn
    | some b =>
        simp only [hb] at hn
        cases hn
        exact ⟨b.2, rfl⟩
  txids n h txids r hn hr := by
    have h0 := (TxChain.bounds_of_blockAt hn).1
    simp only [nodeOf, TxChain.heightOf_eq_some hn] at hr
    cases hr
    simp [Int.toNat_of_nonneg h0, hn]
  active n h txids k hn hk := by
    have h0 := (TxChain.bounds_of_blockAt hn).1
    simp only [nodeOf, TxChain.heightOf_eq_some hn] at hk
    cases hk
    rw [Int.toNat_of_nonneg h0]
  stale h k hn hk := by
    simp only [nodeOf, TxChain.heightOf_eq_none hn] at hk
    cases hk
    rfl

/-- A node with the chain `c` and this mempool, whose transactions all pay to address `7`, which is
the one on the list. -/
def plainEnv (c : TxChain (Fin 4) ℕ) (mempool : List (Fin 4)) : WatchEnv (Fin 4) ℕ ℕ where
  node _ := nodeOf c mempool fun _ =>
    ⟨[.spend 3 0 (some none)], [⟨⟨some 7, [], none⟩, 0⟩], none, none⟩
  lookup a := if a = 7 then some ⟨"name", "first name", "program", "list"⟩ else none
  listing _ s := (List.finRange 4).filter (· ∈ s)
  listing_nodup _ s := (List.nodup_finRange 4).filter _
  mem_listing _ s x := by simp
  stop _ := false

/-- A transaction of such a node, and the one whose output it spends. -/
def plainTx : Fin 4 := 0

def spentTx : Fin 4 := 3

/-- The defaults of the configuration. -/
def plainConfig : MempoolWatchConfig := ⟨6, 50, by decide, by decide⟩

namespace MempoolWatch

open Program

variable [LinearOrder X] {cfg : MempoolWatchConfig} {env : WatchEnv X H A} {c : TxChain X H}

/-- What the search for the block of a transaction has found, the heights it looked at being
`heights`: the highest block that contains it. -/
def Searched (c : TxChain X H) (x : X) (heights : List ℤ) : Option (H × ℤ) → Prop
  | some (h, height) => height ∈ heights
      ∧ (∃ txids, c.blockAt height = some (h, txids) ∧ x ∈ txids)
      ∧ ∀ k ∈ heights, height < k → ∀ b, c.blockAt k = some b → x ∉ b.2
  | none => ∀ k ∈ heights, ∀ b, c.blockAt k = some b → x ∉ b.2

/-- Every block of the cache is the one at its height. -/
def CacheOf (c : TxChain X H) (cache : BlockCache X H) : Prop :=
  ∀ n b, cache.get? n = some b → c.blockAt n = some b

lemma cachedBlock_triple (henv : ∀ n, (env.node n).OnChain c) (n : ℤ) {cache : BlockCache X H}
    (hcache : CacheOf c cache) :
    Triple (fun _ => True) (cachedBlock env n cache)
      (fun p _ => c.blockAt n = some p.1 ∧ CacheOf c p.2) fun _ _ => True := by
  rw [cachedBlock]
  cases hn : cache.get? n with
  | some b => exact triple_pure fun _ _ => ⟨hcache n b hn, hcache⟩
  | none =>
      refine triple_of_each fun w _ => ?_
      refine ((rpc_triple _ w).weaken (fun _ => id) (fun _ _ => id) fun _ _ _ => trivial).bind
        fun h => triple_of_each fun t ht => ?_
      obtain ⟨txids, hblock⟩ := (henv _).hash n h ht.1
      refine ((rpc_triple _ t).weaken (fun _ => id) (fun _ _ => id) fun _ _ _ => trivial).bind
        fun r => triple_pure fun u hu => ?_
      have htx := (henv _).txids n h txids r hblock hu.1
      refine ⟨htx ▸ hblock, fun m b hm => ?_⟩
      rw [Dict.get?_set] at hm
      split_ifs at hm with heq
      · cases hm
        rw [heq, htx, hblock]
      · exact hcache m b hm

/-- The search finds the highest block, when the heights come from the highest on. -/
lemma findConfirmingBlock_triple (henv : ∀ n, (env.node n).OnChain c) (x : X) (l : List ℤ)
    (hl : l.Pairwise (· > ·)) {cache : BlockCache X H} (hcache : CacheOf c cache) :
    Triple (fun _ => True) (findConfirmingBlock env x l cache)
      (fun p _ => Searched c x l p.1 ∧ CacheOf c p.2) fun _ _ => True := by
  induction l generalizing cache with
  | nil => exact triple_pure fun _ _ => ⟨by simp [Searched], hcache⟩
  | cons n l ih =>
      obtain ⟨hn, hl⟩ := List.pairwise_cons.mp hl
      rw [findConfirmingBlock]
      refine (cachedBlock_triple henv n hcache).bind fun p =>
        triple_of_each fun w ⟨hb, hcache'⟩ => ?_
      refine triple_ite (fun hx => ?_) fun hx => ?_
      · refine triple_pure fun _ _ => ⟨⟨List.mem_cons_self, ⟨p.1.2, hb, hx⟩, ?_⟩, hcache'⟩
        intro k hk hlt
        rcases List.mem_cons.mp hk with rfl | hk
        · omega
        · have := hn k hk
          omega
      · have hhead : ∀ b, c.blockAt n = some b → x ∉ b.2 := fun b hb' =>
          Option.some.inj (hb.symm.trans hb') ▸ hx
        refine (ih hl hcache').weaken (fun _ _ => trivial) (fun q _ hq => ⟨?_, hq.2⟩)
          fun _ _ _ => trivial
        obtain ⟨found, cache''⟩ := q
        cases found with
        | none =>
            intro k hk
            rcases List.mem_cons.mp hk with rfl | hk
            · exact hhead
            · exact hq.1 k hk
        | some b =>
            refine ⟨List.mem_cons_of_mem _ hq.1.1, hq.1.2.1, fun k hk => ?_⟩
            rcases List.mem_cons.mp hk with rfl | hk
            · exact fun _ => hhead
            · exact hq.1.2.2 k hk

omit [LinearOrder X] in
/-- The heights of the scan: from the tip down, not below the height at which the transaction was
first seen, and not more than `max_confirmation_scan_blocks` of them. -/
lemma mem_scanHeights {tip n : ℤ} {e : FlaggedTx X H A} :
    n ∈ scanHeights cfg tip e ↔ n ≤ tip ∧ e.firstSeenHeight ≤ n
      ∧ tip - cfg.maxConfirmationScanBlocks < n ∧ 0 ≤ n := by
  simp only [scanHeights, List.mem_map, List.mem_range]
  constructor
  · rintro ⟨k, hk, rfl⟩
    omega
  · rintro ⟨h1, h2, h3, h4⟩
    exact ⟨(tip - n).toNat, by omega, by omega⟩

omit [LinearOrder X] in
lemma scanHeights_pairwise (tip : ℤ) (e : FlaggedTx X H A) :
    (scanHeights cfg tip e).Pairwise (· > ·) := by
  rw [scanHeights, List.pairwise_map]
  exact List.pairwise_lt_range.imp fun h => by omega

end MempoolWatch

end BtcParser
