import BtcParser.Ingest.ChainComplete

/-!
Passes over a chain that does not change.

* `PassEnv.On env Z`: every node a pass meets, also in the workers, has the active chain `Z`, and
  `Label.On` says so of a step of the process.
* `OnInv` is the invariant of such passes when all that was recorded before is on `Z` as well:
  everything recorded is on `Z`, so that every block taken up builds on the one just processed
  (`EventLinked`) and what `ChainComplete` shows of linked passes holds.
-/

namespace BtcParser

variable {H ρ : Type} {T : BlockTree H ρ} {Z : ActiveChain T} {env : PassEnv T}

/-- All nodes of the pass have the active chain `Z`. -/
structure PassEnv.On (env : PassEnv T) (Z : ActiveChain T) : Prop where
  node : ∀ k, (env.node k).chain = Z
  worker : ∀ n, (env.worker n).1.chain = Z ∧ (env.worker n).2.chain = Z

namespace PassEnv.On

lemma hashAt (h : env.On Z) {n : ℤ} {x : H} (hx : env.hashIs n x) : Z.hashAt n = some x := by
  obtain ⟨k, hk⟩ := hx
  rw [← h.node k]
  exact Node.hashAt_of_getBlockHash hk

lemma hashAt_worker (h : env.On Z) {n : ℤ} {x : H} (hx : env.workerHashIs n x) :
    Z.hashAt n = some x := by
  rw [← (h.worker n).1]
  exact Node.hashAt_of_getBlockHash hx

lemma tip (h : env.On Z) {t : ℤ} (ht : env.answers (·.getBlockCount) t) : t = Z.tip := by
  obtain ⟨k, hk⟩ := ht
  simp only [Node.getBlockCount, Option.ite_none_left_eq_some, h.node k] at hk
  exact (Option.some.inj hk.2).symm

end PassEnv.On

namespace ActiveChain

/-- The lower blocks of a chain are ancestors of the higher ones. -/
lemma ancestor_of_le {x h : H} (hx : x ∈ Z) (hh : h ∈ Z) (hle : T.height x ≤ T.height h) :
    Ancestor T.parent x h := by
  obtain ⟨n, hn⟩ := Int.eq_ofNat_of_zero_le (show 0 ≤ T.height h - T.height x by omega)
  induction n generalizing h with
  | zero =>
      rw [Z.eq_of_mem hh hx (by omega)]
      exact .refl
  | succ n ih =>
      have h0 := T.height_nonneg x
      obtain ⟨p, hp, hheight⟩ := T.exists_parent (h := h) (by omega)
      exact .step hp (ih (Z.parentClosed h p hh hp) (by omega) (by push_cast at hn; omega))

/-- What the next block builds on. -/
lemma parent_of_next {n : ℤ} {hash : Option H} (hp : Ingest.PointerTrue T (n, hash))
    (hz : ∀ h, hash = some h → h ∈ Z) {x : H} (hx : Z.hashAt (n + 1) = some x) :
    T.parent x = hash := by
  cases hash with
  | none =>
      rw [Ingest.PointerTrue] at hp
      rw [T.parent_eq_none, Z.height_of_hashAt hx]
      simp only at hp
      omega
  | some h =>
      have hn : T.height h = n := hp
      exact Z.parent_of_hashAt (hn ▸ Z.mem_iff.mp (hz h rfl)) hx

end ActiveChain

variable [DecidableEq H]

/-- Every block the files name has the property `P`. -/
structure Disk.Within (P : H → Prop) (d : Disk H ρ) : Prop where
  index : ∀ h, (IndexStore.loadRows d.index).contains h = true → P h
  blocks : d.BlocksAll fun e => P e.hash
  current : ∀ n h, d.current = some (n, some h) → P h

variable {P : H → Prop}

lemma Disk.within_fresh : (Disk.fresh : Disk H ρ).Within P :=
  ⟨fun h hh => by simp [fresh, IndexStore.loadRows] at hh, blocksAll_fresh, by rintro n h ⟨⟩⟩

lemma Disk.Within.consume {d : Disk H ρ} (hd : d.Within P) (k : Kind) (n : ℕ) :
    (d.consume k n).Within P :=
  ⟨hd.index, hd.blocks.consume n, hd.current⟩

namespace Ingest

/-- During the step, the nodes have the active chain `Z`. -/
def Label.On (Z : ActiveChain T) : Label T → Prop
  | .pass env => env.On Z
  | .crash env _ => env.On Z
  | _ => True

/-- Where a pass can be that finds its pointer on the chain. -/
def Point.undisturbed : Point H ρ → Prop
  | .detached .. => False
  | .recorded .. => False
  | _ => True

/-- The invariant of a pass over `Z`. -/
structure OnInv (Z : ActiveChain T) (c : Point H ρ) (w : World H ρ) : Prop where
  chain : ChainInv T c w
  linked : w.All (EventLinked T)
  kept : w.Kept (Disk.Within (· ∈ Z))
  has : ∀ h, w.mem.index.Has h → h ∈ Z
  point : c.undisturbed

variable {cfg : RpcConfig} {fmt : Formats H ρ} {c c' : Point H ρ} {w w' : World H ρ}

lemma OnInv.closed (h : OnInv Z c w) : Closed T w := (h.chain.2 h.linked).1

lemma OnInv.indexed (h : OnInv Z c w) : PointIndexed w.mem.index c := (h.chain.2 h.linked).2

lemma OnInv.loop {g : Goal} {l : Loop H ρ} (h : OnInv Z (.looping g l) w) {x : H}
    (hx : Z.hashAt (l.height + 1) = some x) : T.parent x = l.hash :=
  Z.parent_of_next h.chain.1.point.1 (fun y hy => h.has y (h.indexed.1 y hy)) hx

/-- The pointer of a pass over `Z` is on the chain. -/
lemma OnInv.live {latest n : ℤ} {h : H} (hi : OnInv Z (.located latest (n, some h)) w) :
    Z.hashAt n = some h := by
  obtain ⟨-, x, ⟨⟩, hx⟩ := hi.chain.1.point
  simp only at hx
  rw [← hx]
  exact Z.mem_iff.mp (hi.has h (hi.indexed h rfl))

/-- A block is taken up. -/
lemma OnInv.take {g : Goal} {l : Loop H ρ} (h : OnInv Z (.looping g l) w) {x : H}
    (hx : Z.hashAt (l.height + 1) = some x)
    (hchain : ChainInv T (.looping g (l.take T x w.mem.index)) (takeBlock T x l w)) :
    OnInv Z (.looping g (l.take T x w.mem.index)) (takeBlock T x l w) := by
  refine ⟨hchain, h.linked.push rfl (eventLinked_of_parent (h.loop hx) _),
    ⟨h.kept.disk, h.kept.trace.push rfl (by rintro d ⟨⟩)⟩, fun y hy => ?_, trivial⟩
  rcases has_takeIndex.mp hy with rfl | hy
  · exact Z.mem_of_hashAt hx
  · exact h.has y hy

lemma OnInv.indexFlush (h : OnInv Z c w) {isFull : IndexPart H → Bool}
    (hrec : Recorded T (w.indexFlush isFull)) :
    (w.indexFlush isFull).Kept (Disk.Within (· ∈ Z))
      ∧ ∀ x, (w.indexFlush isFull).mem.index.Has x → x ∈ Z := by
  have hload := hrec.loaded
  simp only [World.indexFlush_mem, World.indexFlush_disk] at hload
  refine ⟨h.kept.indexFlush ⟨fun x hx => ?_, h.kept.disk.blocks, h.kept.disk.current⟩,
    fun x hx => ?_⟩
  · exact h.has x (IndexStore.has_flush.mp (.inl (hload ▸ hx)))
  · rw [World.indexFlush_mem] at hx
    exact h.has x (IndexStore.has_flush.mp hx)

/-- **The step lemma**: a pass over `Z` records blocks of `Z` only. -/
lemma onInv_step (hon : env.On Z) (h : OnInv Z c w) (hs : Step cfg fmt env c w c' w') :
    OnInv Z c' w' := by
  have hchain := chainInv_step h.chain hs
  obtain ⟨hidx, hblocks, hcurrent⟩ := h.kept.disk
  cases hs with
  | tick n => exact ⟨hchain, h.linked, ⟨h.kept.disk, h.kept.trace⟩, h.has, h.point⟩
  | consume cs =>
      exact ⟨hchain, h.linked, h.kept.consumed (fun _ _ _ hd => hd.consume _ _) cs, h.has, h.point⟩
  | fail f _ => exact ⟨hchain, h.linked, h.kept, h.has, trivial⟩
  | idle _ _ => exact ⟨hchain, h.linked, h.kept, h.has, trivial⟩
  | look _ _ _ =>
      exact ⟨hchain, h.linked.writeLatest trivial trivial,
        (h.kept.effect ⟨hidx, hblocks, hcurrent⟩).completed _, h.has, trivial⟩
  | resume _ => exact ⟨hchain, h.linked, h.kept, h.has, trivial⟩
  | fresh _ _ => exact ⟨hchain, h.linked, h.kept, h.has, trivial⟩
  -- the rows on disk are of the chain
  | seed _ _ =>
      refine ⟨hchain, h.linked, ⟨h.kept.disk, h.kept.trace⟩, fun x hx => ?_, trivial⟩
      rcases has_seedIndex.mp hx with hx | ⟨e, he, rfl⟩
      · exact h.has x hx
      · exact hblocks.seedRows e he
  | seedFlush =>
      obtain ⟨hkept, hhas⟩ := h.indexFlush hchain.1.recorded
      exact ⟨hchain, h.linked.indexFlush trivial fun _ => trivial, hkept, hhas, trivial⟩
  | live _ => exact ⟨hchain, h.linked, h.kept, h.has, trivial⟩
  -- the pointer is on the chain, so there is nothing to recover from
  | detach hh hne _ =>
      have hlive := hon.hashAt hh
      rw [h.live, Option.some.injEq] at hlive
      exact absurd hlive.symm hne
  | recordFlags => exact h.point.elim
  | recordLog log => exact h.point.elim
  | keep _ =>
      exact ⟨hchain, h.linked, ⟨h.kept.disk, h.kept.trace⟩,
        fun x hx => h.has x (IndexStore.has_earliestStale.mp hx), trivial⟩
  | rewind _ _ =>
      exact ⟨hchain, h.linked, ⟨h.kept.disk, h.kept.trace⟩,
        fun x hx => h.has x (IndexStore.has_earliestStale.mp hx), trivial⟩
  -- the pointer names an indexed block
  | settle _ =>
      exact ⟨hchain, h.linked.writeCurrent trivial trivial,
        (h.kept.effect ⟨hidx, hblocks, by
          rintro n x ⟨⟩
          exact h.has x (h.indexed x rfl)⟩).completed _, h.has, trivial⟩
  | settled =>
      exact ⟨hchain, h.linked.statusFlush trivial trivial,
        h.kept.statusFlush ⟨hidx, hblocks, hcurrent⟩, by simpa using h.has, trivial⟩
  | enter _ => exact ⟨hchain, h.linked, h.kept, h.has, trivial⟩
  | process _ hh => exact h.take (hon.hashAt hh) hchain
  | prefetched _ hh _ => exact h.take (hon.hashAt_worker hh) hchain
  | save => exact ⟨hchain, h.linked, h.kept, h.has, trivial⟩
  | halt _ => exact ⟨hchain, h.linked, h.kept, h.has, trivial⟩
  -- every buffered row of the blocks file is one of a staged block
  | drain =>
      refine ⟨hchain, h.linked.writeParts (fun _ _ _ => trivial) trivial,
        h.kept.writeParts fun d e hd _ hl => ⟨hd.index, hd.blocks.applyPart fun hk l hel b hb => ?_,
          hd.current⟩, by simpa using h.has, trivial⟩
      obtain ⟨b', rfl⟩ := hl l hel
      rw [blockEvents_writeCsv] at hb
      subst hk
      exact h.has _ ((h.indexed.2 (by simp)).has b hb)
  | flushIndex =>
      obtain ⟨hkept, hhas⟩ := h.indexFlush hchain.1.recorded
      exact ⟨hchain, h.linked.indexFlush trivial fun _ => trivial, hkept, hhas, trivial⟩
  | flushStatus =>
      exact ⟨hchain, h.linked.statusFlush trivial trivial,
        h.kept.statusFlush ⟨hidx, hblocks, hcurrent⟩, by simpa using h.has, trivial⟩
  | point hh =>
      exact ⟨hchain, h.linked.writeCurrent trivial trivial,
        (h.kept.effect ⟨hidx, hblocks, by
          rintro n x ⟨⟩
          exact h.has _ (h.indexed _ hh)⟩).completed _, h.has, trivial⟩
  | close hh =>
      exact ⟨hchain, h.linked.writeCurrent trivial trivial,
        (h.kept.effect ⟨hidx, hblocks, by
          rintro n x ⟨⟩
          exact h.has _ (h.indexed _ hh)⟩).completed _, h.has, trivial⟩
  | closeFresh _ => exact ⟨hchain, h.linked, h.kept, h.has, trivial⟩

end Ingest

end BtcParser
