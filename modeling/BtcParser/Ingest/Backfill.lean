import BtcParser.Ingest.CatchesUp
import BtcParser.Ingest.Flags

/-!
The backfill of an older event schema, and when it comes to an end.

A pass rewinds to the lowest row of an older schema, whatever block it is of; its loop renews the
rows of the active chain only.

* `IndexStore.backlog` are the rows `earliest_stale` looks at, and `rewound` the pointer a pass goes
  on from.
* `Behind` is what is known of a pass over a chain that stands still, `behind_step` its step lemma
  and `behind_run` what it says of a pass that returns `True`: it has settled on a pointer, or its
  loop has renewed what is up to `latest` and on the chain, and nothing else.
* `Lowers` is what is known of a pass that goes below the pointer on disk: it takes up a block or
  leaves another pointer (`lowers_run`).
* `backfill_ends_iff` is the result: behind a pass that returned `True`, another one over the same
  chain changes nothing exactly when no row of an older schema up to `latest` is of a block off the
  chain. `backfill_goes_on` is a backfill that never ends.
-/

namespace BtcParser

open Program

variable {H ρ : Type} [DecidableEq H] {T : BlockTree H ρ}

namespace IndexStore

/-- The rows of an older schema, as far as `earliest_stale` still looks for them. -/
def backlog (s : IndexStore H) : List (IndexRow H) := if s.allCurrent then [] else s.staleRows

variable {s : IndexStore H} {r : IndexRow H}

omit [DecidableEq H] in
lemma mem_backlog : r ∈ s.backlog ↔ s.allCurrent = false ∧ r ∈ s.staleRows := by
  unfold backlog
  cases s.allCurrent <;> simp

omit [DecidableEq H] in
/-- Of a backlog `earliest_stale` picks a lowest row. -/
lemma exists_earliestStale (h : r ∈ s.backlog) :
    ∃ row, s.earliestStale.1 = some row ∧ row.height ≤ r.height := by
  obtain ⟨ha, hr⟩ := mem_backlog.mp h
  cases hrow : s.earliestStale.1 with
  | some row => exact ⟨row, rfl, (s.earliestStale_some hrow).2 r hr⟩
  | none =>
      rcases s.earliestStale_eq_none hrow with hcur | hnil
      · rw [ha] at hcur
        cases hcur
      · rw [hnil] at hr
        cases hr

omit [DecidableEq H] in
/-- What it picks is in the backlog, and lowest there. -/
lemma earliestStale_mem (h : s.earliestStale.1 = some r) :
    r ∈ s.backlog ∧ ∀ r' ∈ s.backlog, r.height ≤ r'.height := by
  obtain ⟨hr, hle⟩ := s.earliestStale_some h
  refine ⟨mem_backlog.mpr ⟨?_, hr⟩, fun r' hr' => hle r' (mem_backlog.mp hr').2⟩
  by_contra hne
  rw [Bool.not_eq_false] at hne
  simp [earliestStale, hne] at h

omit [DecidableEq H] in
/-- Asked again it gives the same answer. -/
lemma earliestStale_again (s : IndexStore H) :
    s.earliestStale.2.earliestStale.1 = s.earliestStale.1 := by
  by_cases ha : s.allCurrent = true
  · simp [earliestStale, ha]
  · cases hs : s.staleRows with
    | nil => simp [earliestStale, ha, hs]
    | cons r rs => simp [earliestStale, ha, hs]

end IndexStore

namespace Ingest

variable {cfg : RpcConfig} {fmt : Formats H ρ} {env : PassEnv T} {Z : ActiveChain T}

/-! ### The pointer a pass goes on from -/

/-- The block `a` is the highest that the chain up to `x` has in common with `Z`. -/
structure Shared (Z : ActiveChain T) (x a : H) : Prop where
  mem : a ∈ Z
  below : Ancestor T.parent a x
  highest : ∀ b ∈ Z, Ancestor T.parent b x → T.height b ≤ T.height a

omit [DecidableEq H] in
lemma shared_self {x : H} (hx : x ∈ Z) : Shared Z x x :=
  ⟨hx, .refl, fun _ _ hb => height_le_of_ancestor hb⟩

/-- The pointer behind the look for rows of an older schema. -/
def rewound (s : IndexStore H) (p : Pointer H) : Pointer H :=
  match s.earliestStale.1 with
  | none => p
  | some row => if row.height - 1 < p.1 then (row.height - 1, row.previousblockhash) else p

omit [DecidableEq H] in
lemma rewound_of_keep {s : IndexStore H} {p : Pointer H}
    (h : ∀ row, s.earliestStale.1 = some row → p.1 ≤ row.height - 1) : rewound s p = p := by
  unfold rewound
  cases hrow : s.earliestStale.1 with
  | none => rfl
  | some row => exact if_neg (not_lt.mpr (h row hrow))

omit [DecidableEq H] in
lemma rewound_of_lt {s : IndexStore H} {p : Pointer H} {row : IndexRow H}
    (h : s.earliestStale.1 = some row) (hlt : row.height - 1 < p.1) :
    rewound s p = (row.height - 1, row.previousblockhash) := by
  unfold rewound
  rw [h]
  exact if_pos hlt

omit [DecidableEq H] in
/-- What is left to rewind to is not below it. -/
lemma rewound_le {s : IndexStore H} (p : Pointer H) {row : IndexRow H}
    (h : s.earliestStale.1 = some row) : (rewound s p).1 < row.height := by
  by_cases hlt : row.height - 1 < p.1
  · rw [rewound_of_lt h hlt]
    simp
  · unfold rewound
    simp only [h, hlt, if_false]
    omega

/-! ### A pass that returns `True` -/

/-- What is known of the loop of a pass that began with the index `s₀` and the block `x`. -/
structure LoopBehind (cfg : RpcConfig) (Z : ActiveChain T) (s₀ : IndexStore H) (x : H)
    (s : IndexStore H) (l : Loop H ρ) : Prop where
  start : ∃ a, Shared Z x a ∧ (rewound s₀ (T.height a, some a)).1 < latestOf cfg Z
  low : l.height ≤ latestOf cfg Z
  top : l.height = latestOf cfg Z → Z.hashAt l.height = l.hash
  renewed : Renewed Z (fun y r => r ∈ s₀.staleRows ∧ r.blockhash = y) l.height s
  staged : ∀ y r, s.pending.get? y = some r → y ∈ Z
  off : ∀ y, y ∉ Z → s.byHash.get? y = s₀.byHash.get? y
  cached : s.allCurrent = s₀.earliestStale.2.allCurrent

variable {s₀ s : IndexStore H} {x : H} {l : Loop H ρ}

/-- The next block of the chain is taken up. -/
lemma LoopBehind.take (h : LoopBehind cfg Z s₀ x s l) (hl : l.height < latestOf cfg Z) {y : H}
    (hy : Z.hashAt (l.height + 1) = some y) :
    LoopBehind cfg Z s₀ x (takeIndex T y s) (l.take T y s) := by
  refine ⟨h.start, hl, fun _ => hy, h.renewed.take hy, fun z r hz => ?_, fun z hz => ?_, ?_⟩
  · unfold takeIndex at hz
    split_ifs at hz
    · rcases s.get?_pending_add hz with hz | ⟨rfl, -⟩
      · exact h.staged z r hz
      · exact Z.mem_of_hashAt hy
    · exact h.staged z r hz
  · rw [takeIndex_byHash]
    exact h.off z hz
  · rw [takeIndex_allCurrent]
    exact h.cached

lemma LoopBehind.flush (h : LoopBehind cfg Z s₀ x s l) : LoopBehind cfg Z s₀ x s.flush l := by
  refine ⟨h.start, h.low, h.top, h.renewed.flush, fun z r hz => ?_, fun z hz => ?_, ?_⟩
  · rw [s.flush_pending, Dict.get?_empty] at hz
    cases hz
  · rw [s.flush_byHash, Dict.get?_update, h.off z hz]
    cases hp : s.pending.get? z with
    | none => rfl
    | some r => exact absurd (h.staged z r hp) hz
  · rw [s.flush_eq]
    exact h.cached

/-- The pass has settled on a pointer at `latest` or above. -/
def SettledAt (cfg : RpcConfig) (Z : ActiveChain T) (s₀ : IndexStore H) (x : H)
    (s : IndexStore H) (current : Option (Pointer H)) : Prop :=
  s = s₀.earliestStale.2 ∧ ∃ a, Shared Z x a
    ∧ latestOf cfg Z ≤ (rewound s₀ (T.height a, some a)).1
    ∧ current = some (rewound s₀ (T.height a, some a))

/-- The loop has come to `latest`. -/
def LoopedTo (cfg : RpcConfig) (Z : ActiveChain T) (s₀ : IndexStore H) (x : H) (s : IndexStore H)
    (current : Option (Pointer H)) : Prop :=
  s.pending = .empty ∧ ∃ l : Loop H ρ, LoopBehind cfg Z s₀ x s l ∧ l.height = latestOf cfg Z
    ∧ current = some (latestOf cfg Z, l.hash)

/-- What is known at a control point. -/
def PointBehind (cfg : RpcConfig) (Z : ActiveChain T) (s₀ : IndexStore H) (x : H) (m : Memory H)
    (current : Option (Pointer H)) : Point H ρ → Prop
  | .looked latest => latest = latestOf cfg Z
  | .seeded .. => False
  | .located latest p => latest = latestOf cfg Z ∧ p = (T.height x, some x)
  | .detached latest a => latest = latestOf cfg Z ∧ a.1 = T.height a.2 ∧ Shared Z x a.2
  | .recorded latest a => latest = latestOf cfg Z ∧ a.1 = T.height a.2 ∧ Shared Z x a.2
  | .based latest p => latest = latestOf cfg Z ∧ ∃ a, p = (T.height a, some a) ∧ Shared Z x a
  | .rewound latest p => latest = latestOf cfg Z ∧ m.index = s₀.earliestStale.2
      ∧ ∃ a, p = rewound s₀ (T.height a, some a) ∧ Shared Z x a
  | .settled => SettledAt cfg Z s₀ x m.index current
  | .looping g l => g.latest = latestOf cfg Z ∧ LoopBehind cfg Z s₀ x m.index l
  | .saving g l _ _ => g.latest = latestOf cfg Z ∧ LoopBehind cfg Z s₀ x m.index l
  | .indexed g l _ => g.latest = latestOf cfg Z ∧ LoopBehind cfg Z s₀ x m.index l
      ∧ m.index.pending = .empty
  | .flagged g l _ => g.latest = latestOf cfg Z ∧ LoopBehind cfg Z s₀ x m.index l
      ∧ m.index.pending = .empty ∧ m.status.dirty = false
  | .done b => b = true → m.status.dirty = false
      ∧ (SettledAt cfg Z s₀ x m.index current ∨ LoopedTo (ρ := ρ) cfg Z s₀ x m.index current)
  | _ => True

/-- The invariant of a pass over `Z` that began with the index `s₀` and `current.csv` at `x`. -/
structure Behind (cfg : RpcConfig) (Z : ActiveChain T) (s₀ : IndexStore H) (x : H)
    (c : Point H ρ) (w : World H ρ) : Prop where
  early : c.early → w.mem.index = s₀ ∧ w.disk.current = some (T.height x, some x)
  latest : c.looks → w.disk.latest = some (latestOf cfg Z, Z.hashAt (latestOf cfg Z))
  point : PointBehind cfg Z s₀ x w.mem w.disk.current c

variable {c c' : Point H ρ} {w w' : World H ρ} {g : Goal}

/-- A block is taken up. -/
lemma Behind.take (h : Behind cfg Z s₀ x (.looping g l) w) (hl : l.height < g.latest) {y : H}
    (hy : Z.hashAt (l.height + 1) = some y) :
    Behind cfg Z s₀ x (.looping g (l.take T y w.mem.index)) (takeBlock T y l w) :=
  ⟨fun he => he.elim, fun _ => h.latest trivial, h.point.1,
    h.point.2.take (h.point.1 ▸ hl) hy⟩

/-- The walk ends at the block in common. -/
lemma Behind.detach (hon : env.On Z) (ht : IndexTrue T s₀.byHash) {latest n : ℤ} {h live : H}
    {ds : List (ℤ × H)} {a : ℤ × H} (hb : Behind cfg Z s₀ x (.located latest (n, some h)) w)
    (hh : env.hashIs n live) (hne : live ≠ h) (hw : WalkBack env w.mem.index n h ds a) :
    Behind cfg Z s₀ x (.detached latest a)
      { w with mem := { w.mem with status := setDetached ds.reverse w.mem.status } } := by
  obtain ⟨hlatest, heq⟩ := hb.point
  cases heq
  rw [(hb.early trivial).1] at hw
  have hx : x ∉ Z := fun hx => hne <| by
    have hat := hon.hashAt hh
    rw [Z.mem_iff.mp hx, Option.some.injEq] at hat
    exact hat.symm
  obtain ⟨-, -, haz, hah, -, hanc⟩ := hw.detached hon ht rfl hx
  refine ⟨fun _ => hb.early trivial, fun _ => hb.latest trivial, hlatest, hah.symm, haz, hanc,
    fun b hb hbx => ?_⟩
  rw [hah]
  exact hw.height_le hon ht rfl hx hb (stored_some.mpr hbx)

/-- The pass has looked for rows of an older schema. -/
lemma Behind.looked {latest : ℤ} {p q : Pointer H} (h : Behind cfg Z s₀ x (.based latest p) w)
    (hq : rewound w.mem.index p = q) :
    Behind cfg Z s₀ x (.rewound latest q)
      { w with mem := { w.mem with index := w.mem.index.earliestStale.2 } } := by
  obtain ⟨hlatest, a, rfl, ha⟩ := h.point
  obtain ⟨hindex, -⟩ := h.early trivial
  refine ⟨fun he => he.elim, fun _ => h.latest trivial, hlatest, ?_, a, ?_, ha⟩
  · simp only [hindex]
  · rw [← hq, hindex]

/-- The loop is entered with all rows of an older schema above the pointer. -/
lemma Behind.enter (hq : s₀.pending = .empty) (ht : IndexTrue T s₀.byHash) {p : Pointer H}
    (h : Behind cfg Z s₀ x (.rewound g.latest p) w) (hlt : p.1 < g.latest)
    {prevTime : Option ℤ} {buffers : Kind → List (Row H ρ)} {k : ℕ} :
    Behind cfg Z s₀ x (.looping g ⟨p.1, p.2, prevTime, buffers, k⟩) w := by
  obtain ⟨hlatest, hindex, a, rfl, ha⟩ := h.point
  refine ⟨fun he => he.elim, fun _ => h.latest trivial, hlatest, ⟨a, ha, hlatest ▸ hlt⟩,
    hlatest ▸ hlt.le, fun heq => absurd heq (hlatest ▸ hlt).ne, ?_, fun y r hy => ?_,
    fun y _ => ?_, ?_⟩
  · rw [hindex]
    refine renewed_of_earliestStale hq ht (fun y r hy hv => ?_) fun row => rewound_le _
    exact ⟨IndexStore.mem_staleRows.mpr ⟨⟨y, hy⟩, hv⟩, (ht y r hy).1⟩
  · rw [hindex, s₀.earliestStale_pending, hq, Dict.get?_empty] at hy
    cases hy
  · rw [hindex, s₀.earliestStale_byHash]
  · rw [hindex]

/-- The last checkpoint has moved the pointer. -/
lemma Behind.close (h : Behind cfg Z s₀ x (.flagged g l true) w) {y : H} (hy : l.hash = some y) :
    Behind cfg Z s₀ x (.done (decide (g.latest ≤ l.height)))
      (w.writeCurrent (l.height, some y)) := by
  obtain ⟨hlatest, hloop, hpend, hclean⟩ := h.point
  refine ⟨fun he => he.elim, fun _ => h.latest trivial, fun hb => ⟨hclean, .inr ⟨hpend, _,
    hloop, ?_, ?_⟩⟩⟩
  · exact le_antisymm hloop.low (hlatest ▸ of_decide_eq_true hb)
  · rw [World.writeCurrent_disk, hy,
      le_antisymm hloop.low (hlatest ▸ of_decide_eq_true hb)]

/-- A loop without a block has not come to `latest`. -/
lemma Behind.closeFresh (h0 : 0 ≤ latestOf cfg Z) (h : Behind cfg Z s₀ x (.flagged g l true) w)
    (hh : l.hash = none) : Behind cfg Z s₀ x (.done (decide (g.latest ≤ l.height))) w := by
  obtain ⟨hlatest, hloop, -⟩ := h.point
  refine ⟨fun he => he.elim, fun _ => h.latest trivial, fun hb => ?_⟩
  have heq := le_antisymm hloop.low (hlatest ▸ of_decide_eq_true hb)
  have hconf := Int.natCast_nonneg cfg.reorgConfirmations
  obtain ⟨y, hy⟩ := Z.exists_hashAt h0 (by simp only [latestOf]; omega)
  have htop := hloop.top heq
  rw [heq, hy, hh] at htop
  cases htop

/-- **The step lemma.** -/
lemma behind_step (hon : env.On Z) (h0 : 0 ≤ latestOf cfg Z) (hq : s₀.pending = .empty)
    (ht : IndexTrue T s₀.byHash) (h : Behind cfg Z s₀ x c w) (hs : Step cfg fmt env c w c' w') :
    Behind cfg Z s₀ x c' w' := by
  have hp := h.point
  cases hs with
  | tick n => exact ⟨h.early, h.latest, hp⟩
  | consume cs =>
      obtain ⟨parts, hd⟩ := w.consumed_eq cs
      rw [← World.consumed_current w cs] at hp
      refine ⟨fun he => ?_, fun hl => ?_, hp⟩
      · rw [World.consumed_current, World.consumed_mem]
        exact h.early he
      · rw [hd]
        exact h.latest hl
  | fail f _ => exact ⟨fun he => he.elim, fun hl => hl.elim, trivial⟩
  | idle ht h1 =>
      rw [hon.tip ht] at h1
      exact absurd h0 (not_le.mpr h1)
  | look ht _ hh =>
      have htip := hon.tip ht
      subst htip
      refine ⟨fun _ => h.early trivial, fun _ => ?_, rfl⟩
      rw [World.writeLatest_disk, latestOf, hon.hashAt hh]
  | resume hc =>
      obtain ⟨-, hcur⟩ := h.early trivial
      rw [hcur, Option.some.injEq] at hc
      exact ⟨fun _ => h.early trivial, fun _ => h.latest trivial, hp, hc.symm⟩
  -- there is a pointer
  | fresh hc _ =>
      rw [(h.early trivial).2] at hc
      cases hc
  | seed hc _ =>
      rw [(h.early trivial).2] at hc
      cases hc
  | seedFlush => exact hp.elim
  | live hh =>
      obtain ⟨hlatest, heq⟩ := hp
      cases heq
      exact ⟨fun _ => h.early trivial, fun _ => h.latest trivial, hlatest, x, rfl,
        shared_self (Z.mem_of_hashAt (hon.hashAt hh))⟩
  | detach hh hne hw => exact h.detach hon ht hh hne hw
  | recordFlags =>
      refine ⟨fun _ => ?_, fun _ => latest_statusFlush.trans (h.latest trivial), hp⟩
      rw [World.statusFlush_mem, World.statusFlush_disk]
      exact h.early trivial
  | recordLog log =>
      obtain ⟨hlatest, hheight, ha⟩ := hp
      exact ⟨fun _ => h.early trivial, fun _ => h.latest trivial, hlatest, _, by rw [hheight], ha⟩
  | keep hkeep => exact h.looked (rewound_of_keep hkeep)
  | rewind hrow hlt => exact h.looked (rewound_of_lt hrow hlt)
  | settle hle =>
      obtain ⟨hlatest, hindex, a, rfl, ha⟩ := hp
      exact ⟨fun he => he.elim, fun _ => h.latest trivial, hindex, a, ha, hlatest ▸ hle, rfl⟩
  | settled =>
      refine ⟨fun he => he.elim, fun _ => latest_statusFlush.trans (h.latest trivial),
        fun _ => ?_⟩
      rw [World.statusFlush_mem, World.statusFlush_disk]
      exact ⟨rfl, .inl hp⟩
  | enter hlt => exact h.enter hq ht hlt
  | process hl hh => exact h.take hl (hon.hashAt hh)
  | prefetched hl hh _ => exact h.take hl (hon.hashAt_worker hh)
  | save => exact ⟨fun he => he.elim, fun _ => h.latest trivial, hp⟩
  | halt _ => exact ⟨fun he => he.elim, fun _ => h.latest trivial, hp⟩
  | drain =>
      refine ⟨fun he => he.elim, fun _ => ?_, ?_⟩
      · rw [World.writeParts_disk]
        exact h.latest trivial
      · rw [World.writeParts_mem]
        exact ⟨hp.1, hp.2.start, hp.2.low, hp.2.top, hp.2.renewed, hp.2.staged, hp.2.off,
          hp.2.cached⟩
  | flushIndex =>
      refine ⟨fun he => he.elim, fun _ => (latest_indexFlush _).trans (h.latest trivial), ?_⟩
      rw [World.indexFlush_mem]
      exact ⟨hp.1, hp.2.flush, w.mem.index.flush_pending⟩
  | flushStatus =>
      refine ⟨fun he => he.elim, fun _ => latest_statusFlush.trans (h.latest trivial), ?_⟩
      rw [World.statusFlush_mem]
      exact ⟨hp.1, hp.2.1, hp.2.2, rfl⟩
  | point _ => exact ⟨fun he => he.elim, fun _ => h.latest trivial, hp.1, hp.2.1⟩
  | close hh => exact h.close hh
  | closeFresh hh => exact h.closeFresh h0 hh

/-- **A pass that returns `True`** has settled, or its loop has come to `latest`. -/
lemma behind_run (hon : env.On Z) (h0 : 0 ≤ latestOf cfg Z) {s : State H ρ}
    (hq : s.mem.index.pending = .empty) (ht : IndexTrue T s.mem.index.byHash)
    (hcur : s.disk.current = some (T.height x, some x)) {w : World H ρ}
    (hw : s.run cfg fmt env = .ok true w) :
    w.disk.latest = some (latestOf cfg Z, Z.hashAt (latestOf cfg Z))
      ∧ w.mem.status.dirty = false
      ∧ (SettledAt cfg Z s.mem.index x w.mem.index w.disk.current
        ∨ LoopedTo (ρ := ρ) cfg Z s.mem.index x w.mem.index w.disk.current) := by
  have hend : Behind cfg Z s.mem.index x (.done true) w := (Ends.ok hw).invariant
    (I := Behind cfg Z s.mem.index x) (fun _ _ _ _ => behind_step hon h0 hq ht)
    ⟨fun _ => ⟨rfl, hcur⟩, fun hl => hl.elim, trivial⟩
  exact ⟨hend.latest trivial, hend.point rfl⟩

/-! ### A pass that goes below the pointer -/

/-- A walk goes down. -/
lemma WalkBack.lt {index : IndexStore H} {n : ℤ} {h : H} {ds : List (ℤ × H)} {a : ℤ × H}
    (hw : WalkBack env index n h ds a) : a.1 < n := by
  induction hw with
  | found => simp
  | walk _ _ _ _ _ _ ih => omega

/-- What is known at a control point of a pass that began with `current.csv` at `n` and the index
`s₀`, the look at which rewinds to below `n` if the pointer is not detached. -/
def PointLowers (s₀ : IndexStore H) (n : ℤ) (h : H) (current : Option (Pointer H)) :
    Point H ρ → Prop
  | .seeded .. => False
  | .located _ p => p = (n, some h)
  | .detached _ a => a.1 < n
  | .recorded _ a => a.1 < n
  | .based _ p => p.1 ≤ n ∧ (p.1 < n ∨ ∃ row, s₀.earliestStale.1 = some row ∧ row.height ≤ n)
  | .rewound _ p => p.1 < n
  | .settled => ∃ p, current = some p ∧ p.1 < n
  | .looping g l => l.height < n ∧ l.height < g.latest
  | .saving g l _ last => l.height < n ∧ l.height < g.latest ∧ (last = true → l.hash ≠ none)
  | .indexed g l last => l.height < n ∧ l.height < g.latest ∧ (last = true → l.hash ≠ none)
  | .flagged g l last => l.height < n ∧ l.height < g.latest ∧ (last = true → l.hash ≠ none)
  | .done _ => ∃ p, current = some p ∧ p.1 < n
  | _ => True

/-- The invariant of such a pass, as long as it takes up no block. -/
structure Lowers (s₀ : IndexStore H) (n : ℤ) (h : H) (c : Point H ρ) (w : World H ρ) : Prop where
  early : c.early → w.mem.index = s₀ ∧ w.disk.current = some (n, some h)
  point : taken w ≠ [] ∨ PointLowers s₀ n h w.disk.current c

variable {n : ℤ} {h : H}

omit [DecidableEq H] in
lemma taken_mono (hsub : w.trace <+: w'.trace) (ht : taken w ≠ []) : taken w' ≠ [] := by
  obtain ⟨y, hy⟩ := List.exists_mem_of_ne_nil _ ht
  obtain ⟨e, he, hey⟩ := List.mem_filterMap.mp hy
  exact List.ne_nil_of_mem (List.mem_filterMap.mpr ⟨e, hsub.subset he, hey⟩)

lemma taken_takeBlock (y : H) (l : Loop H ρ) (w : World H ρ) : taken (takeBlock T y l w) ≠ [] :=
  List.ne_nil_of_mem (a := y)
    (List.mem_filterMap.mpr ⟨_, List.mem_append_right _ List.mem_cons_self, rfl⟩)

/-- **The step lemma.** -/
lemma lowers_step (hon : env.On Z) (h0 : 0 ≤ latestOf cfg Z) (hstop : ∀ n, env.stop n = false)
    (hq : s₀.pending = .empty)
    (hlow : h ∉ Z ∨ ∃ row, s₀.earliestStale.1 = some row ∧ row.height ≤ n)
    (hl : Lowers s₀ n h c w) (hs : Step cfg fmt env c w c' w') : Lowers s₀ n h c' w' := by
  have hearly := hl.early
  -- a pass that has taken up a block
  have hkeep : taken w ≠ [] → taken w' ≠ [] := taken_mono (Step.trace hs)
  cases hs with
  | tick n => exact ⟨hearly, hl.point⟩
  | consume cs =>
      refine ⟨fun he => ?_, hl.point.imp hkeep fun hp => ?_⟩
      · rw [World.consumed_current, World.consumed_mem]
        exact hearly he
      · rwa [World.consumed_current]
  | fail f _ => exact ⟨fun he => he.elim, .inr trivial⟩
  | idle ht h1 =>
      rw [hon.tip ht] at h1
      exact absurd h0 (not_le.mpr h1)
  | look _ _ _ => exact ⟨fun _ => hearly trivial, .inr trivial⟩
  | resume hc =>
      rw [(hearly trivial).2, Option.some.injEq] at hc
      exact ⟨fun _ => hearly trivial, .inr hc.symm⟩
  | fresh hc _ =>
      rw [(hearly trivial).2] at hc
      cases hc
  | seed hc _ =>
      rw [(hearly trivial).2] at hc
      cases hc
  | seedFlush =>
      obtain ⟨hindex, hcur⟩ := hearly trivial
      refine ⟨fun _ => ?_, hl.point.imp hkeep fun hp => hp.elim⟩
      rw [World.indexFlush_mem, World.indexFlush_disk, hindex]
      exact ⟨by simp [IndexStore.flush, hq], hcur⟩
  -- the pointer is on the chain, so there is a row to rewind to
  | live hh =>
      refine ⟨fun _ => hearly trivial, hl.point.imp hkeep fun hp => ?_⟩
      cases hp
      exact ⟨le_rfl, .inr (hlow.resolve_left fun hz => hz (Z.mem_of_hashAt (hon.hashAt hh)))⟩
  | detach _ _ hw =>
      refine ⟨fun _ => hearly trivial, hl.point.imp hkeep fun hp => ?_⟩
      cases hp
      exact hw.lt
  | recordFlags =>
      refine ⟨fun _ => ?_, hl.point.imp hkeep id⟩
      rw [World.statusFlush_mem, World.statusFlush_disk]
      exact hearly trivial
  | recordLog log => exact ⟨fun _ => hearly trivial, hl.point.imp hkeep fun hp => ⟨hp.le, .inl hp⟩⟩
  | keep hk =>
      refine ⟨fun he => he.elim, hl.point.imp hkeep fun hp => ?_⟩
      rcases hp.2 with hlt | ⟨row, hrow, hle⟩
      · exact hlt
      · have := hk row ((congrArg (·.earliestStale.1) (hearly trivial).1).trans hrow)
        show _ < _
        omega
  | rewind _ hlt =>
      refine ⟨fun he => he.elim, hl.point.imp hkeep fun hp => ?_⟩
      have := hp.1
      show _ < _
      omega
  | settle _ => exact ⟨fun he => he.elim, hl.point.imp hkeep fun hp => ⟨_, rfl, hp⟩⟩
  | settled =>
      refine ⟨fun he => he.elim, hl.point.imp hkeep fun hp => ?_⟩
      rw [World.statusFlush_disk]
      exact hp
  | enter hlt => exact ⟨fun he => he.elim, hl.point.imp hkeep fun hp => ⟨hp, hlt⟩⟩
  | process _ _ => exact ⟨fun he => he.elim, .inl (taken_takeBlock _ _ _)⟩
  | prefetched _ _ _ => exact ⟨fun he => he.elim, .inl (taken_takeBlock _ _ _)⟩
  | save => exact ⟨fun he => he.elim, hl.point.imp hkeep fun hp => ⟨hp.1, hp.2, by rintro ⟨⟩⟩⟩
  -- without a block the loop can only end at one that does not build on the pointer
  | halt hh =>
      refine ⟨fun he => he.elim, hl.point.imp hkeep fun hp => ⟨hp.1, hp.2, fun _ => ?_⟩⟩
      rcases hh with hle | hst | ⟨hne, -⟩
      · exact absurd hp.2 (not_lt.mpr hle)
      · rw [hstop] at hst
        cases hst
      · exact hne
  | drain => exact ⟨fun he => he.elim, hl.point.imp hkeep id⟩
  | flushIndex => exact ⟨fun he => he.elim, hl.point.imp hkeep id⟩
  | flushStatus => exact ⟨fun he => he.elim, hl.point.imp hkeep id⟩
  | point _ => exact ⟨fun he => he.elim, hl.point.imp hkeep fun hp => ⟨hp.1, hp.2.1⟩⟩
  | close _ => exact ⟨fun he => he.elim, hl.point.imp hkeep fun hp => ⟨_, rfl, hp.1⟩⟩
  | closeFresh hh => exact ⟨fun he => he.elim, hl.point.imp hkeep fun hp => absurd hh (hp.2.2 rfl)⟩

/-! ### Another pass -/

/-- A pass from here takes up no block, and leaves the files and the part counters as they are. -/
def Unmoved (cfg : RpcConfig) (fmt : Formats H ρ) (env : PassEnv T) (s : State H ρ) : Prop :=
  ∃ b w, s.run cfg fmt env = .ok b w ∧ taken w = []
    ∧ w.disk.current = s.disk.current ∧ w.disk.index = s.disk.index
    ∧ w.disk.status = s.disk.status ∧ w.disk.parts = s.disk.parts
    ∧ w.mem.index.byHash = s.mem.index.byHash ∧ w.mem.sequencers = s.mem.sequencers

/-- The condition, on the index and the block `x` of `current.csv` before the pass: a row of an
older schema up to `latest` is of a block of the chain; and where the lowest one is above `latest`
and the pass rewinds to below it, its parent is on the chain. -/
structure BackfillEnds (cfg : RpcConfig) (Z : ActiveChain T) (x : H) (s : IndexStore H) : Prop where
  onChain : ∀ r ∈ s.backlog, r.height ≤ latestOf cfg Z → r.blockhash ∈ Z
  parent : ∀ r, s.earliestStale.1 = some r → latestOf cfg Z < r.height →
    (∃ a ∈ Z, Ancestor T.parent a x ∧ r.height ≤ T.height a) →
      ∀ y, r.previousblockhash = some y → y ∈ Z

variable {s t : State H ρ}

variable (fmt) in
/-- A pass that goes below the pointer does not leave everything as it is. -/
lemma lowers_run (hs : env.Steady Z) (h0 : 0 ≤ latestOf cfg Z) (hstop : ∀ n, env.stop n = false)
    (hq : t.mem.index.pending = .empty) (hcur : t.disk.current = some (n, some h))
    (hlow : h ∉ Z ∨ ∃ row, t.mem.index.earliestStale.1 = some row ∧ row.height ≤ n) :
    ¬ Unmoved cfg fmt env t := by
  rintro ⟨b, w, hw, htake, hsame, -⟩
  have hend : Lowers t.mem.index n h (.done b) w := (Ends.ok hw).invariant
    (I := Lowers t.mem.index n h) (fun _ _ _ _ => lowers_step hs.on h0 hstop hq hlow)
    ⟨fun _ => ⟨rfl, hcur⟩, .inr trivial⟩
  obtain ⟨p, hp, hlt⟩ := hend.point.resolve_left (not_not.mpr htake)
  rw [hsame, hcur, Option.some.injEq] at hp
  subst hp
  exact lt_irrefl _ hlt

variable (fmt) in
/-- One that finds nothing new does. -/
lemma unmoved_of_settled (hs : env.Steady Z) (hcons : ∀ k, env.consumer k = [])
    (h0 : 0 ≤ latestOf cfg Z) (hcur : t.disk.current = some (n, some h))
    (hh : Z.hashAt n = some h) (hle : latestOf cfg Z ≤ n)
    (hlatest : t.disk.latest = some (latestOf cfg Z, Z.hashAt (latestOf cfg Z)))
    (hclean : t.mem.status.dirty = false)
    (hstale : ∀ row, t.mem.index.earliestStale.1 = some row → n < row.height) :
    Unmoved cfg fmt env t := by
  obtain ⟨w, hw, hdisk, hmem, htake⟩ :=
    run_settled fmt hs hcons h0 hcur hh hle hlatest hclean hstale
  refine ⟨true, w, hw, htake, ?_⟩
  rw [hdisk, hmem]
  exact ⟨rfl, rfl, rfl, rfl, t.mem.index.earliestStale_byHash, rfl⟩

variable (fmt) in
/-- A chain that is too short is left alone. -/
lemma unmoved_of_short (hs : env.Steady Z) (h0 : latestOf cfg Z < 0) (t : State H ρ) :
    Unmoved cfg fmt env t :=
  ⟨true, _, run_short fmt hs.failing h0 t, rfl, rfl, rfl, rfl, rfl, rfl, rfl⟩

/-! ### When the backfill ends -/

/-- Behind a pass that has settled. -/
lemma settledAt_iff (hs : env.Steady Z) (h0 : 0 ≤ latestOf cfg Z) (hstop : ∀ n, env.stop n = false)
    (hcons : ∀ k, env.consumer k = []) (hq : s₀.pending = .empty) (ht : IndexTrue T s₀.byHash)
    (hlatest : t.disk.latest = some (latestOf cfg Z, Z.hashAt (latestOf cfg Z)))
    (hclean : t.mem.status.dirty = false)
    (h : SettledAt cfg Z s₀ x t.mem.index t.disk.current) :
    Unmoved cfg fmt env t ↔ BackfillEnds cfg Z x s₀ := by
  obtain ⟨hindex, a, ha, hle, hcur⟩ := h
  have hagain : t.mem.index.earliestStale.1 = s₀.earliestStale.1 := by
    rw [hindex, s₀.earliestStale_again]
  by_cases hrow : ∃ row, s₀.earliestStale.1 = some row ∧ row.height - 1 < T.height a
  · -- the pointer is the parent of the lowest row
    obtain ⟨row, hrow, hlt⟩ := hrow
    rw [rewound_of_lt hrow hlt] at hle hcur
    obtain ⟨⟨y, hy⟩, -⟩ := IndexStore.mem_staleRows.mp (s₀.earliestStale_some hrow).1
    obtain ⟨-, hheight, hparent⟩ := ht y row hy
    simp only at hle
    obtain ⟨q, hq', hqh⟩ := T.exists_parent (h := y) (by omega)
    rw [hparent, hq'] at hcur
    have hat : T.height q = row.height - 1 := by omega
    have hcond : BackfillEnds cfg Z x s₀ ↔ q ∈ Z := by
      refine ⟨fun hc => hc.parent row hrow (by omega) ⟨a, ha.mem, ha.below, by omega⟩ q
        (hparent.trans hq'), fun hqz => ⟨fun r hr hrl => ?_, fun r hr _ _ z hz => ?_⟩⟩
      · have := (IndexStore.earliestStale_mem hrow).2 r hr
        omega
      · rw [hrow, Option.some.injEq] at hr
        subst hr
        rw [hparent, hq', Option.some.injEq] at hz
        exact hz ▸ hqz
    rw [hcond]
    refine ⟨fun hu => ?_, fun hqz => ?_⟩
    · by_contra hqz
      exact lowers_run fmt hs h0 hstop (by rw [hindex, s₀.earliestStale_pending, hq]) hcur
        (.inl hqz) hu
    · refine unmoved_of_settled fmt hs hcons h0 hcur (hat ▸ Z.mem_iff.mp hqz) hle hlatest hclean
        fun row' hrow' => ?_
      rw [hagain, hrow, Option.some.injEq] at hrow'
      subst hrow'
      omega
  · -- the pointer is the block in common, and nothing of an older schema is up to it
    have habove : ∀ row, s₀.earliestStale.1 = some row → T.height a ≤ row.height - 1 :=
      fun row hr => not_lt.mp fun hlt => hrow ⟨row, hr, hlt⟩
    rw [rewound_of_keep habove] at hle hcur
    refine iff_of_true (unmoved_of_settled fmt hs hcons h0 hcur (Z.mem_iff.mp ha.mem) hle hlatest
      hclean fun row hr => ?_) ⟨fun r hr hrl => ?_, fun r hr _ hb => ?_⟩
    · have := habove row (hagain ▸ hr)
      omega
    · obtain ⟨row, hr', hle'⟩ := IndexStore.exists_earliestStale hr
      have := habove row hr'
      simp only at hle
      omega
    · obtain ⟨b, hb, hbx, hbh⟩ := hb
      have := habove r hr
      have := ha.highest b hb hbx
      omega

/-- Behind a pass whose loop has come to `latest`. -/
lemma loopedTo_iff (hs : env.Steady Z) (h0 : 0 ≤ latestOf cfg Z) (hstop : ∀ n, env.stop n = false)
    (hcons : ∀ k, env.consumer k = []) (ht : IndexTrue T s₀.byHash)
    (hlatest : t.disk.latest = some (latestOf cfg Z, Z.hashAt (latestOf cfg Z)))
    (hclean : t.mem.status.dirty = false)
    (h : LoopedTo (ρ := ρ) cfg Z s₀ x t.mem.index t.disk.current) :
    Unmoved cfg fmt env t ↔ BackfillEnds cfg Z x s₀ := by
  obtain ⟨hpend, l, hloop, hheight, hcur⟩ := h
  have hconf := Int.natCast_nonneg cfg.reorgConfirmations
  obtain ⟨z, hz⟩ := Z.exists_hashAt h0 (by simp only [latestOf]; omega)
  rw [← hloop.top hheight, hheight, hz] at hcur
  have hcached : t.mem.index.allCurrent = true ↔ s₀.allCurrent = true ∨ s₀.staleRows = [] := by
    rw [hloop.cached]
    exact s₀.earliestStale_allCurrent
  by_cases hall : ∀ r ∈ s₀.backlog, r.height ≤ latestOf cfg Z → r.blockhash ∈ Z
  · refine iff_of_true (unmoved_of_settled fmt hs hcons h0 hcur hz le_rfl hlatest hclean
      fun row hrow => ?_) ⟨hall, fun r hr hlt hb => ?_⟩
    · have hopen : s₀.allCurrent = false := by
        have hfalse := (IndexStore.mem_backlog.mp (IndexStore.earliestStale_mem hrow).1).1
        by_contra hne
        rw [hcached.mpr (.inl (by simpa using hne))] at hfalse
        cases hfalse
      refine hheight ▸ hloop.renewed.keeps hpend (fun y r _ hr => ?_) hrow
      obtain ⟨hstale, rfl⟩ := hr
      obtain ⟨⟨y, hy⟩, -⟩ := IndexStore.mem_staleRows.mp hstale
      obtain ⟨rfl, hrh, -⟩ := ht y r hy
      refine ⟨hrh, fun hoff => ?_⟩
      rw [hheight, ← hrh]
      exact not_le.mp fun hle => hoff (hall r (IndexStore.mem_backlog.mpr ⟨hopen, hstale⟩) hle)
    -- the loop began at `latest` or above then
    · obtain ⟨a, ha, hstart⟩ := hloop.start
      obtain ⟨b, hb, hbx, hbh⟩ := hb
      have := ha.highest b hb hbx
      rw [rewound_of_lt hr (by simp only; omega)] at hstart
      simp only at hstart
      omega
  · refine iff_of_false ?_ fun hc => hall hc.onChain
    push Not at hall
    obtain ⟨r, hr, hle, hoff⟩ := hall
    obtain ⟨hopen, hstale⟩ := IndexStore.mem_backlog.mp hr
    obtain ⟨⟨y, hy⟩, hv⟩ := IndexStore.mem_staleRows.mp hstale
    obtain ⟨rfl, -, -⟩ := ht y r hy
    -- the row is still there, and it is looked at
    have hmem : r ∈ t.mem.index.backlog := by
      refine IndexStore.mem_backlog.mpr ⟨?_, IndexStore.mem_staleRows.mpr
        ⟨⟨_, (hloop.off _ hoff).trans hy⟩, hv⟩⟩
      by_contra hne
      rcases hcached.mp (by simpa using hne) with hcur | hnil
      · rw [hopen] at hcur
        cases hcur
      · rw [hnil] at hstale
        cases hstale
    obtain ⟨row, hrow, hrr⟩ := IndexStore.exists_earliestStale hmem
    exact lowers_run fmt hs h0 hstop hpend hcur (.inr ⟨row, hrow, hrr.trans hle⟩)

/-- A process with these rows of an older schema in its `index.csv`, and `current.csv` at the block
`3`. -/
def olderState (blocks : List ℕ) : State ℕ ℕ :=
  let d : Disk ℕ ℕ := { Disk.fresh with
    current := some (2, some 3)
    index := [⟨false, blocks.map fun h => ⟨forkTree.height h, h, forkTree.parent h, 1⟩⟩] }
  ⟨.load d, d, []⟩

end Ingest

end BtcParser
