import BtcParser.Library.Ancestry

/-!
`rpc/client.py` and the node behind it: the calls the block parser makes, and what a node can
answer.

A `BlockTree` holds every block there is, on whatever branch, the way `catchup.py` parses it
(`ParsedBlock`): a block is determined by its hash, its height is one more than its parent's, and
the blocks without a parent are those of height `0`. An `ActiveChain` is a path of the tree from
height `0` upwards. A `Node` answers from one active chain, and may fail any request; a call that
still fails after its retries is one failed request here.
-/

namespace BtcParser

/-- A block as `parse_block` returns it: `previousblockhash` is `none` for the empty string, and
the rows of one block event and of three frames are opaque. -/
structure ParsedBlock (H ρ : Type) where
  height : ℤ
  blockHash : H
  previousblockhash : Option H
  blockTime : ℤ
  blockEvent : ρ
  transactions : List ρ
  inputs : List ρ
  outputs : List ρ
  deriving DecidableEq

/-- Every block there is. -/
structure BlockTree (H ρ : Type) where
  block : H → ParsedBlock H ρ
  blockHash_block : ∀ h, (block h).blockHash = h
  block_nonneg : ∀ h, 0 ≤ (block h).height
  block_genesis : ∀ h, (block h).previousblockhash = none ↔ (block h).height = 0
  block_parent : ∀ h p, (block h).previousblockhash = some p →
    (block h).height = (block p).height + 1

namespace BlockTree

variable {H ρ : Type} (T : BlockTree H ρ)

/-- The height of a block. -/
def height (h : H) : ℤ := (T.block h).height

/-- The parent of a block. -/
def parent (h : H) : Option H := (T.block h).previousblockhash

attribute [simp] blockHash_block

lemma height_nonneg (h : H) : 0 ≤ T.height h := T.block_nonneg h

lemma parent_eq_none {h : H} : T.parent h = none ↔ T.height h = 0 := T.block_genesis h

lemma height_of_parent {h p : H} (hp : T.parent h = some p) : T.height h = T.height p + 1 :=
  T.block_parent h p hp

/-- Above height `0` there is a parent. -/
lemma exists_parent {h : H} (h0 : 0 < T.height h) :
    ∃ p, T.parent h = some p ∧ T.height p = T.height h - 1 := by
  cases hp : T.parent h with
  | none => exact absurd (T.parent_eq_none.mp hp) h0.ne'
  | some p => exact ⟨p, rfl, by have := T.height_of_parent hp; omega⟩

end BlockTree

/-- A path of the tree from height `0` up. -/
structure ActiveChain {H ρ : Type} (T : BlockTree H ρ) where
  hashes : List H
  ne_nil : hashes ≠ []
  height_eq : ∀ (i : ℕ) h, hashes[i]? = some h → T.height h = i
  linked : ∀ (i : ℕ) h h', hashes[i]? = some h → hashes[i + 1]? = some h' → T.parent h' = some h

namespace ActiveChain

variable {H ρ : Type} {T : BlockTree H ρ} (Z : ActiveChain T)

/-- The height of the highest block. -/
def tip : ℤ := Z.hashes.length - 1

/-- The block at a height, if the chain is that high. -/
def hashAt (n : ℤ) : Option H := if n < 0 then none else Z.hashes[n.toNat]?

instance : Membership H (ActiveChain T) := ⟨fun Z h => h ∈ Z.hashes⟩

lemma mem_iff {h : H} : h ∈ Z ↔ Z.hashAt (T.height h) = some h := by
  show h ∈ Z.hashes ↔ _
  rw [List.mem_iff_getElem?, hashAt, if_neg (not_lt.mpr (T.height_nonneg h))]
  constructor
  · rintro ⟨i, hi⟩
    have := Z.height_eq i h hi
    simpa [this] using hi
  · intro hi
    exact ⟨_, hi⟩

instance [DecidableEq H] (h : H) : Decidable (h ∈ Z) :=
  inferInstanceAs (Decidable (h ∈ Z.hashes))

lemma height_of_hashAt {n : ℤ} {h : H} (hn : Z.hashAt n = some h) : T.height h = n := by
  rw [hashAt] at hn
  split_ifs at hn with h0
  have := Z.height_eq _ h hn
  omega

lemma mem_of_hashAt {n : ℤ} {h : H} (hn : Z.hashAt n = some h) : h ∈ Z := by
  rw [mem_iff, Z.height_of_hashAt hn, hn]

lemma eq_of_mem {h h' : H} (hh : h ∈ Z) (hh' : h' ∈ Z) (heq : T.height h = T.height h') :
    h = h' := by
  rw [mem_iff] at hh hh'
  rw [heq, hh'] at hh
  exact (Option.some.inj hh).symm

lemma hashAt_isSome {n : ℤ} : (Z.hashAt n).isSome ↔ 0 ≤ n ∧ n ≤ Z.tip := by
  rw [hashAt, tip]
  split_ifs with h0
  · simp; omega
  · simp only [isSome_getElem?]
    omega

lemma exists_hashAt {n : ℤ} (h0 : 0 ≤ n) (hn : n ≤ Z.tip) : ∃ h, Z.hashAt n = some h :=
  Option.isSome_iff_exists.mp (Z.hashAt_isSome.mpr ⟨h0, hn⟩)

lemma height_le_tip {h : H} (hh : h ∈ Z) : T.height h ≤ Z.tip :=
  (Z.hashAt_isSome.mp (by rw [Z.mem_iff.mp hh]; rfl)).2

/-- On a chain, the parent of the block at a height is the block one below. -/
lemma parent_of_hashAt {n : ℤ} {h h' : H} (hn : Z.hashAt n = some h)
    (hn' : Z.hashAt (n + 1) = some h') : T.parent h' = some h := by
  have h0 : 0 ≤ n := by
    by_contra hneg
    rw [hashAt, if_pos (by omega)] at hn
    cases hn
  rw [hashAt, if_neg (by omega)] at hn hn'
  refine Z.linked n.toNat h h' hn ?_
  rwa [show (n + 1).toNat = n.toNat + 1 by omega] at hn'

/-- A chain is closed under parents. -/
lemma parentClosed : ParentClosed T.parent (· ∈ Z) := by
  intro h p hh hp
  have hheight := T.height_of_parent hp
  have h0 := T.height_nonneg p
  have hle := Z.height_le_tip hh
  obtain ⟨q, hq⟩ := Z.exists_hashAt h0 (by omega)
  have hlink := Z.parent_of_hashAt hq (hheight ▸ Z.mem_iff.mp hh)
  rw [hp, Option.some.injEq] at hlink
  exact hlink ▸ Z.mem_of_hashAt hq

end ActiveChain

/-- The calls the block parser makes. -/
inductive Request (H : Type) where
  | blockCount
  | blockHash (height : ℤ)
  | blockHeader (h : H)
  | block (h : H)
  deriving DecidableEq

/-- A node: its active chain, and the requests it fails. It knows the blocks of every branch. -/
structure Node {H ρ : Type} (T : BlockTree H ρ) where
  chain : ActiveChain T
  fails : Request H → Bool

namespace Node

variable {H ρ : Type} {T : BlockTree H ρ} (N : Node T)

/-- `get_block_count`. -/
def getBlockCount : Option ℤ := if N.fails .blockCount then none else some N.chain.tip

/-- `get_block_hash`: an RPC error outside of the chain. -/
def getBlockHash (height : ℤ) : Option H :=
  if N.fails (.blockHash height) then none else N.chain.hashAt height

/-- `get_block_header`, of which only `time` is read. -/
def getBlockHeader (h : H) : Option ℤ :=
  if N.fails (.blockHeader h) then none else some (T.block h).blockTime

/-- `get_block`, parsed: `parse_block`. -/
def getBlock (h : H) : Option (ParsedBlock H ρ) :=
  if N.fails (.block h) then none else some (T.block h)

lemma hashAt_of_getBlockHash {N : Node T} {n : ℤ} {h : H} (hn : N.getBlockHash n = some h) :
    N.chain.hashAt n = some h := by
  rw [getBlockHash] at hn
  split_ifs at hn with hf
  exact hn

lemma time_of_getBlockHeader {N : Node T} {h : H} {t : ℤ} (ht : N.getBlockHeader h = some t) :
    t = (T.block h).blockTime := by
  rw [getBlockHeader] at ht
  split_ifs at ht with hf
  exact (Option.some.inj ht).symm

lemma block_of_getBlock {N : Node T} {h : H} {b : ParsedBlock H ρ} (hb : N.getBlock h = some b) :
    b = T.block h := by
  rw [getBlock] at hb
  split_ifs at hb with hf
  exact (Option.some.inj hb).symm

end Node

/-! ### A tree with one fork, for concrete runs -/

/-- Two branches over the block `0`: the even and the odd numbers, `h - 2` before `h`. -/
def forkTree : BlockTree ℕ ℕ where
  block h := ⟨((h + 1) / 2 : ℕ), h, if h = 0 then none else some (h - 2), h, h, [h], [], []⟩
  blockHash_block _ := rfl
  block_nonneg _ := Int.natCast_nonneg _
  block_genesis h := by simp; omega
  block_parent h p := by
    simp only [Option.ite_none_left_eq_some, Option.some.injEq]
    omega

lemma getElem?_branch {h i x : ℕ}
    (hx : ((List.range ((h + 1) / 2 + 1)).map fun i => h - 2 * ((h + 1) / 2 - i))[i]? = some x) :
    i ≤ (h + 1) / 2 ∧ x = h - 2 * ((h + 1) / 2 - i) := by
  simp only [List.getElem?_map, Option.map_eq_some_iff, List.getElem?_eq_some_iff,
    List.length_range, List.getElem_range] at hx
  obtain ⟨_, ⟨hi, rfl⟩, rfl⟩ := hx
  exact ⟨Nat.lt_succ_iff.mp hi, rfl⟩

/-- The chain that ends in the block `h`. -/
def branch (h : ℕ) : ActiveChain forkTree where
  hashes := (List.range ((h + 1) / 2 + 1)).map fun i => h - 2 * ((h + 1) / 2 - i)
  ne_nil := by simp
  height_eq i x hx := by
    obtain ⟨hi, rfl⟩ := getElem?_branch hx
    simp only [BlockTree.height, forkTree]
    omega
  linked i x y hx hy := by
    obtain ⟨-, rfl⟩ := getElem?_branch hx
    obtain ⟨hi, rfl⟩ := getElem?_branch hy
    simp only [BlockTree.parent, forkTree, Option.ite_none_left_eq_some, Option.some.injEq]
    omega

/-- A node on that chain that fails nothing. -/
def onBranch (h : ℕ) : Node forkTree := ⟨branch h, fun _ => false⟩

example : (branch 5).hashes = [0, 1, 3, 5] := by decide

end BtcParser
