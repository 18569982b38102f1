import BtcParser.Export.Written
import BtcParser.Ingest.Records

/-!
The four exported files and the index agree row by row.

* `ledger T k d` are the rows of kind `k` of the blocks that the index `d` records at the current
  schema version, and `Disk.written` the rows written so far. A row is compared without its
  `time_since_prev_block_sec`, the one column that depends on more than its block.
* `LedgerInv` is the invariant of a pass: up to what a crash before it left over (`extra`), the
  rows written are those of the ledger, and the buffers hold the rows of the staged blocks.
* `ledgerInv_step` is the step lemma. `restLedger_load` and `restLedger_next` carry the accounts
  from one pass to the next.
-/

namespace BtcParser

variable {H ρ : Type}

/-- A row without the time since the block before. -/
def Row.untimed : Row H ρ → Row H ρ
  | .block e => .block { e with timeSincePrevBlockSec := none }
  | .detail r => .detail r

/-- The rows of a block. -/
def blockRows (T : BlockTree H ρ) (k : Kind) (h : H) : Multiset (Row H ρ) :=
  Ingest.rowsOf (T.block h) none k

lemma untimed_rowsOf (T : BlockTree H ρ) (h : H) (prevTime : Option ℤ) (k : Kind) :
    Multiset.map Row.untimed (Ingest.rowsOf (T.block h) prevTime k) = blockRows T k h := by
  cases k <;> simp [blockRows, Ingest.rowsOf, Row.untimed, Function.comp_def]

/-- The rows of one kind written so far. -/
def Disk.written (d : Disk H ρ) (k : Kind) : Multiset (Row H ρ) :=
  (d.parts k).written.map Row.untimed

/-- Every sequencer finds its files in order. -/
def Disk.Orderly (d : Disk H ρ) : Prop :=
  ∀ k, Numbered (PartSequencer.load (d.parts k)) (d.parts k)

lemma Disk.orderly_of_numbered {s : Kind → PartSequencer} {d : Disk H ρ}
    (h : ∀ k, Numbered (s k) (d.parts k)) : d.Orderly := by
  intro k
  rw [(h k).load]
  exact h k

lemma Disk.orderly_fresh : (Disk.fresh : Disk H ρ).Orderly := fun _ => numbered_fresh

lemma Disk.written_consume (d : Disk H ρ) (k k' : Kind) (n : ℕ) :
    (d.consume k n).written k' = d.written k' := by
  by_cases hk : k' = k
  · subst hk
    simp [written, consume]
  · simp [written, consume, hk]

lemma numbered_consume {s : Kind → PartSequencer} {d : Disk H ρ}
    (h : ∀ k, Numbered (s k) (d.parts k)) (k : Kind) (n : ℕ) :
    ∀ k', Numbered (s k') ((d.consume k n).parts k') := by
  intro k'
  by_cases hk : k' = k
  · subst hk
    simpa [Disk.consume] using (h k').consume n
  · simpa [Disk.consume, hk] using h k'

namespace World

variable {w : World H ρ}

lemma numbered_consumed (h : ∀ k, Numbered (w.mem.sequencers k) (w.disk.parts k))
    (cs : List (Kind × ℕ)) : ∀ k, Numbered (w.mem.sequencers k) ((w.consumed cs).disk.parts k) :=
  w.consumed_disk cs (D := fun d => ∀ k, Numbered (w.mem.sequencers k) (d.parts k))
    (fun _ k n hd => numbered_consume hd k n) h

lemma written_consumed (cs : List (Kind × ℕ)) (k : Kind) :
    (w.consumed cs).disk.written k = w.disk.written k :=
  w.consumed_disk cs (D := fun d => d.written k = w.disk.written k)
    (fun d k' n hd => (d.written_consume k' k n).trans hd) rfl

lemma numbered_callParts {k : Kind} (h : Numbered (w.mem.sequencers k) (w.disk.parts k))
    (fmt : Format (Row H ρ)) (atomic : Bool) (rows : List (Row H ρ)) :
    Numbered (w.callParts fmt atomic k rows).1
        (PartEffect.applyAll (w.disk.parts k) (w.callParts fmt atomic k rows).2)
      ∧ (PartEffect.applyAll (w.disk.parts k) (w.callParts fmt atomic k rows).2).written
        = (w.disk.parts k).written + (rows : Multiset (Row H ρ)) := by
  rw [callParts]
  split_ifs
  · exact h.writeAtomic rows
  · exact h.writeBatched fmt rows

/-- A sequencer call writes its rows, once. -/
lemma rows_writeParts {k : Kind} (h : Numbered (w.mem.sequencers k) (w.disk.parts k))
    (fmt : Format (Row H ρ)) (atomic : Bool) (rows : List (Row H ρ)) (k' : Kind) :
    ((w.writeParts fmt atomic k rows).disk.parts k').written
      = (w.disk.parts k').written + if k' = k then (rows : Multiset (Row H ρ)) else 0 := by
  rw [writeParts_disk, Disk.applyParts]
  by_cases hk : k' = k
  · subst hk
    simp [(numbered_callParts h fmt atomic rows).2]
  · simp [hk]

lemma numbered_writeParts (h : ∀ k, Numbered (w.mem.sequencers k) (w.disk.parts k))
    (fmt : Format (Row H ρ)) (atomic : Bool) (k : Kind) (rows : List (Row H ρ)) :
    (∀ k', Numbered ((w.writeParts fmt atomic k rows).mem.sequencers k')
        ((w.writeParts fmt atomic k rows).disk.parts k'))
      ∧ ∀ k', (w.writeParts fmt atomic k rows).disk.written k'
        = w.disk.written k' + if k' = k then Multiset.map Row.untimed rows else 0 := by
  refine ⟨fun k' => ?_, fun k' => ?_⟩
  · rw [writeParts_mem, writeParts_disk, Disk.applyParts]
    by_cases hk : k' = k
    · subst hk
      simpa using (numbered_callParts (h k') fmt atomic rows).1
    · simpa [hk] using h k'
  · rw [Disk.written, Disk.written, rows_writeParts (h k) fmt atomic rows k', Multiset.map_add]
    split_ifs <;> rfl

end World

section Ledger

variable [DecidableEq H] {T : BlockTree H ρ}

/-- The rows of the blocks an index records at the current schema version. -/
def ledger (T : BlockTree H ρ) (k : Kind) (d : Dict H (IndexRow H)) : Multiset (Row H ρ) :=
  d.total fun h r => if r.schemaVersion < currentIndexSchemaVersion then 0 else blockRows T k h

/-- What is written is the ledger of an index, and `more`. -/
def Balanced (T : BlockTree H ρ) (more : Kind → Multiset (Row H ρ)) (d : Disk H ρ)
    (index : Dict H (IndexRow H)) : Prop :=
  ∀ k, d.written k = ledger T k index + more k

/-- What a returned store operation leaves behind: at worst some rows of blocks the index does not
record yet, and none of those when the index has just been flushed. -/
def Event.Accounted (T : BlockTree H ρ) (extra : Kind → Multiset (Row H ρ)) : Event H ρ → Prop
  | .completed op d => d.Orderly
      ∧ (∃ more, Balanced T (extra + more) d (IndexStore.loadRows d.index))
      ∧ ∀ rows, op = .indexFlushed rows → Balanced T extra d (IndexStore.loadRows d.index)
  | _ => True

/-- Staged rows only ever replace rows of an older schema. -/
def IndexStore.Supersedes (s : IndexStore H) : Prop :=
  ∀ h r, s.pending.contains h = true → s.byHash.get? h = some r →
    r.schemaVersion < currentIndexSchemaVersion

lemma ledger_update {s : IndexStore H} (hs : s.Supersedes) (k : Kind) :
    ledger T k (s.byHash.update s.pending) = ledger T k s.byHash + ledger T k s.pending :=
  Dict.total_update fun h r hp hr => if_pos (hs h r hp hr)

lemma ledger_eq_zero {d : Dict H (IndexRow H)}
    (hd : ∀ h r, d.get? h = some r → r.schemaVersion < currentIndexSchemaVersion) (k : Kind) :
    ledger T k d = 0 := by
  have h0 : d.total (fun (_ : H) (_ : IndexRow H) => (0 : Multiset (Row H ρ))) = 0 := by
    simp [Dict.total]
  rw [← h0]
  exact Dict.total_congr fun h r hr => if_pos (hd h r hr)

lemma supersedes_of_empty {s : IndexStore H} (hs : s.pending = .empty) : s.Supersedes := by
  intro h r hp
  simp [hs] at hp

/-- Adding a row keeps this so. -/
lemma IndexStore.Supersedes.add {s : IndexStore H} (hs : s.Supersedes) {n : ℤ} {h : H}
    {p : Option H} {v : ℕ} (hv : v ≤ currentIndexSchemaVersion) : (s.add n h p v).Supersedes := by
  intro x r hp hr
  rw [s.add_byHash] at hr
  rcases s.add_cases n h p v with ⟨e, -, -, he⟩ | ⟨hold, he⟩
  · exact hs x r (he ▸ hp) hr
  · rw [he] at hp
    rcases (Dict.contains_set _ _ _ _).mp hp with rfl | hp
    · exact (hold r (by simp [IndexStore.row?, hr])).trans_le hv
    · exact hs x r hp hr

/-- Seeding stages rows of an older schema only. -/
lemma seedIndex_stale {s : IndexStore H} (hs : s.Supersedes)
    (hp : ∀ h r, s.pending.get? h = some r → r.schemaVersion < currentIndexSchemaVersion)
    (rows : List (BlockEvent H ρ)) : (seedIndex s rows).Supersedes
      ∧ ∀ h r, (seedIndex s rows).pending.get? h = some r →
        r.schemaVersion < currentIndexSchemaVersion := by
  induction rows generalizing s with
  | nil => exact ⟨hs, hp⟩
  | cons e rows ih =>
      refine ih (hs.add (by decide)) fun h r hr => ?_
      rcases s.get?_pending_add hr with hr | ⟨-, rfl⟩
      · exact hp h r hr
      · exact Nat.one_lt_two

namespace Ingest

/-- The staged rows are of blocks up to this height, and replace nothing current. -/
structure Staged (T : BlockTree H ρ) (s : IndexStore H) (n : ℤ) : Prop where
  supersedes : s.Supersedes
  height : ∀ h, s.pending.contains h = true → T.height h ≤ n

/-- The accounts at a control point. -/
def PointLedger (T : BlockTree H ρ) (extra : Kind → Multiset (Row H ρ)) (s : IndexStore H)
    (d : Disk H ρ) : Point H ρ → Prop
  | .seeded _ _ => s.Supersedes
      ∧ (∀ h r, s.pending.get? h = some r → r.schemaVersion < currentIndexSchemaVersion)
      ∧ Balanced T extra d s.byHash
  | .looping _ l => Staged T s l.height
      ∧ (∀ k, Multiset.map Row.untimed (l.buffers k) = ledger T k s.pending)
      ∧ Balanced T extra d s.byHash
  | .saving _ l ks _ => Staged T s l.height
      ∧ (∀ k ∈ ks, Multiset.map Row.untimed (l.buffers k) = ledger T k s.pending)
      ∧ Balanced T (extra + fun k => if k ∈ ks then 0 else ledger T k s.pending) d s.byHash
  | _ => Balanced T extra d s.byHash

/-- The invariant of a pass. -/
structure LedgerInv (T : BlockTree H ρ) (extra : Kind → Multiset (Row H ρ)) (c : Point H ρ)
    (w : World H ρ) : Prop where
  records : RecInv T c w
  numbered : ∀ k, Numbered (w.mem.sequencers k) (w.disk.parts k)
  accounted : w.All (Event.Accounted T extra)
  point : PointLedger T extra w.mem.index w.disk c

variable {cfg : RpcConfig} {fmt : Formats H ρ} {env : PassEnv T} {w : World H ρ}
  {extra : Kind → Multiset (Row H ρ)}

lemma accounted_of_balanced {s : Kind → PartSequencer} {d : Disk H ρ}
    (hn : ∀ k, Numbered (s k) (d.parts k))
    (hb : Balanced T extra d (IndexStore.loadRows d.index)) (op : StoreOp H ρ) :
    Event.Accounted T extra (.completed op d) :=
  ⟨Disk.orderly_of_numbered hn, ⟨0, by simpa using hb⟩, fun _ _ => hb⟩

/-- The accounts of a loop that takes up one more block. -/
lemma PointLedger.take {g : Goal} {l : Loop H ρ} {s : IndexStore H} {d : Disk H ρ}
    (h : PointLedger T extra s d (.looping g l)) {x : H} (hx : T.height x = l.height + 1) :
    PointLedger T extra (takeIndex T x s) d (.looping g (l.take T x s)) := by
  obtain ⟨⟨hsup, hheight⟩, hbuf, hb⟩ := h
  cases hn : s.needsExport x with
  | false =>
      refine ⟨⟨by simpa [takeIndex, hn] using hsup, fun y hy => ?_⟩, fun k => ?_, ?_⟩
      · simp only [takeIndex, hn, Bool.false_eq_true, if_false] at hy
        exact (hheight y hy).trans (by simp [Loop.take])
      · simpa [takeIndex, Loop.take, hn] using hbuf k
      · simpa [takeIndex, hn] using hb
  | true =>
      have hadd := s.add_of_needsExport hn (T.height x) (T.parent x)
      have hnew : s.pending.get? x = none := by
        rw [← Dict.contains_eq_false]
        by_contra hc
        have := hheight x (by simpa using hc)
        omega
      simp only [takeIndex, hn, if_true]
      refine ⟨⟨hsup.add le_rfl, fun y hy => ?_⟩, fun k => ?_, by simpa using hb⟩
      · rw [hadd] at hy
        rcases (Dict.contains_set _ _ _ _).mp hy with rfl | hy
        · simp [Loop.take, hx]
        · exact (hheight y hy).trans (by simp [Loop.take])
      · have htotal := Dict.total_set_new hnew
          ⟨T.height x, x, T.parent x, currentIndexSchemaVersion⟩ fun h r =>
            if r.schemaVersion < currentIndexSchemaVersion then 0 else blockRows T k h
        rw [if_neg (lt_irrefl _)] at htotal
        rw [hadd, ledger, htotal]
        simp only [Loop.take, hn, if_true]
        rw [← Multiset.coe_add, Multiset.map_add, hbuf k, untimed_rowsOf]
        rfl

/-- Flushing the index makes the staged blocks part of the ledger. -/
lemma balanced_indexFlush (hs : w.mem.index.Supersedes) (more : Kind → Multiset (Row H ρ))
    (hb : Balanced T (fun k => ledger T k w.mem.index.pending + more k) w.disk
      w.mem.index.byHash) (isFull : IndexPart H → Bool) :
    Balanced T more (w.indexFlush isFull).disk (w.indexFlush isFull).mem.index.byHash := by
  intro k
  simp only [World.indexFlush_mem, World.indexFlush_disk, IndexStore.flush_byHash,
    ledger_update hs]
  rw [add_assoc]
  exact hb k

lemma accounted_indexFlush (hw : Recorded T w) (ha : w.All (Event.Accounted T extra))
    (hn : ∀ k, Numbered (w.mem.sequencers k) (w.disk.parts k)) (isFull : IndexPart H → Bool)
    (hb : Balanced T extra (w.indexFlush isFull).disk (w.indexFlush isFull).mem.index.byHash) :
    (w.indexFlush isFull).All (Event.Accounted T extra) := by
  have hload := (hw.indexFlush isFull).loaded
  rw [hload, World.indexFlush_disk] at hb
  exact ha.indexFlush trivial fun _ =>
    accounted_of_balanced
      (d := { w.disk with index := w.mem.index.flushParts isFull w.disk.index }) hn hb _

lemma numbered_indexFlush (hn : ∀ k, Numbered (w.mem.sequencers k) (w.disk.parts k))
    (isFull : IndexPart H → Bool) (k : Kind) : Numbered
      ((w.indexFlush isFull).mem.sequencers k) ((w.indexFlush isFull).disk.parts k) := by
  simpa using hn k

/-- The flags are not part of the accounts. -/
lemma ledgerInv_statusFlush {c c' : Point H ρ} (hrec : RecInv T c' w.statusFlush)
    (hloaded : w.mem.index.byHash = IndexStore.loadRows w.disk.index)
    (h : LedgerInv T extra c w) (hb : Balanced T extra w.disk w.mem.index.byHash)
    (hc : ∀ s (d : Disk H ρ), Balanced T extra d s.byHash → PointLedger T extra s d c') :
    LedgerInv T extra c' w.statusFlush :=
  ⟨hrec, fun k => by simpa using h.numbered k,
    h.accounted.statusFlush trivial (accounted_of_balanced (s := w.mem.sequencers) h.numbered
      (hloaded ▸ hb) _),
    hc _ _ (by simpa [Balanced, Disk.written] using hb)⟩

/-- A buffer is drained: its rows are ahead of the index now. -/
lemma LedgerInv.drain {g : Goal} {l : Loop H ρ} {k : Kind} {ks : List Kind} {last : Bool}
    (h : LedgerInv T extra (.saving g l (k :: ks) last) w)
    (hrec : RecInv T (.saving g (l.clear k) ks last)
      (w.writeParts fmt.parts g.atomic k (l.buffers k))) :
    LedgerInv T extra (.saving g (l.clear k) ks last)
      (w.writeParts fmt.parts g.atomic k (l.buffers k)) := by
  obtain ⟨⟨-, hpt, -⟩, hn, ha, hst, hbuf, hb⟩ := h
  obtain ⟨hn', hwritten⟩ := World.numbered_writeParts hn fmt.parts g.atomic k (l.buffers k)
  have hnot : k ∉ ks := (List.nodup_cons.mp hpt.2.1).1
  let ahead : Kind → Multiset (Row H ρ) := fun k' =>
    if k' ∈ ks then 0 else ledger T k' w.mem.index.pending
  have hb' : Balanced T (extra + ahead)
      (w.writeParts fmt.parts g.atomic k (l.buffers k)).disk w.mem.index.byHash := by
    intro k'
    rw [hwritten, hb k']
    by_cases hk : k' = k
    · subst hk
      simp [ahead, hnot, hbuf, add_assoc]
    · simp [ahead, hk]
  have hacc : Event.Accounted T extra (.completed (.drained k g.atomic (l.buffers k))
      (w.writeParts fmt.parts g.atomic k (l.buffers k)).disk) := by
    refine ⟨Disk.orderly_of_numbered hn', ⟨ahead, ?_⟩, by rintro rows ⟨⟩⟩
    rw [← hrec.recorded.loaded, World.writeParts_mem]
    exact hb'
  refine ⟨hrec, hn', ha.writeParts (fun _ _ _ => trivial) hacc,
    by simpa [Loop.clear] using hst, fun k' hk' => ?_, by simpa using hb'⟩
  have hne : k' ≠ k := fun he => hnot (he ▸ hk')
  simpa [Loop.clear, hne] using hbuf k' (by simp [hk'])

/-- **The step lemma**: every step keeps the accounts. -/
lemma ledgerInv_step {c c' : Point H ρ} {w' : World H ρ} (h : LedgerInv T extra c w)
    (hs : Step cfg fmt env c w c' w') : LedgerInv T extra c' w' := by
  have hrec' := recInv_step h.records hs
  obtain ⟨⟨hw, hpt, hq⟩, hn, ha, hp⟩ := h
  cases hs with
  | tick n => exact ⟨hrec', hn, ha, hp⟩
  -- what a consumer takes away still counts as written
  | consume cs =>
      refine ⟨hrec', World.numbered_consumed hn cs, ha, ?_⟩
      have hb : ∀ {more : Kind → Multiset (Row H ρ)}, Balanced T more w.disk w.mem.index.byHash →
          Balanced T more (w.consumed cs).disk w.mem.index.byHash := fun hb k => by
        rw [World.written_consumed]
        exact hb k
      cases c with
      | seeded latest p => exact ⟨hp.1, hp.2.1, hb hp.2.2⟩
      | looping g l => exact ⟨hp.1, hp.2.1, hb hp.2.2⟩
      | saving g l ks last => exact ⟨hp.1, hp.2.1, hb hp.2.2⟩
      | _ => exact hb hp
  -- what the loop has buffered is not written, and its blocks are not in the table
  | fail f hc =>
      refine ⟨hrec', hn, ha, ?_⟩
      cases c with
      | looping g l => exact hp.2.2
      | _ => first | exact hp | exact hc.elim
  | idle _ _ => exact ⟨hrec', hn, ha, hp⟩
  | look _ _ _ =>
      exact ⟨hrec', hn, ha.writeLatest trivial (accounted_of_balanced hn (hw.loaded ▸ hp) _), hp⟩
  | resume _ => exact ⟨hrec', hn, ha, hp⟩
  | fresh _ _ => exact ⟨hrec', hn, ha, hp⟩
  -- nothing is staged so far; the seeded rows are of the first version and owe nothing
  | seed _ _ =>
      have hempty := hq id
      obtain ⟨hsup, hstale⟩ := seedIndex_stale (supersedes_of_empty hempty)
        (by simp [hempty]) (seedRows (w.disk.parts .blocks))
      exact ⟨hrec', hn, ha, hsup, hstale, by simpa [PointLedger] using hp⟩
  | seedFlush =>
      obtain ⟨hsup, hstale, hb⟩ := hp
      have hb' := balanced_indexFlush (T := T) hsup extra
        (fun k => by simpa [ledger_eq_zero hstale] using hb k) fmt.indexIsFull
      exact ⟨hrec', numbered_indexFlush hn _, accounted_indexFlush hw ha hn _ hb', hb'⟩
  | live _ => exact ⟨hrec', hn, ha, hp⟩
  | detach _ _ _ => exact ⟨hrec', hn, ha, hp⟩
  | recordFlags =>
      exact ledgerInv_statusFlush hrec' hw.loaded ⟨⟨hw, hpt, hq⟩, hn, ha, hp⟩ hp fun _ _ => id
  | recordLog log =>
      exact ⟨hrec', hn, ha.writeReorgLog trivial (accounted_of_balanced hn (hw.loaded ▸ hp) _), hp⟩
  | keep _ => exact ⟨hrec', hn, ha, by simpa [PointLedger] using hp⟩
  | rewind _ _ => exact ⟨hrec', hn, ha, by simpa [PointLedger] using hp⟩
  | settle _ =>
      exact ⟨hrec', hn, ha.writeCurrent trivial (accounted_of_balanced hn (hw.loaded ▸ hp) _), hp⟩
  | settled =>
      exact ledgerInv_statusFlush hrec' hw.loaded ⟨⟨hw, hpt, hq⟩, hn, ha, hp⟩ hp fun _ _ => id
  -- the loop begins with empty buffers and nothing staged
  | enter _ =>
      have hempty := hq id
      exact ⟨hrec', hn, ha, ⟨supersedes_of_empty hempty, by simp [hempty]⟩,
        fun k => by simp [hempty, ledger], hp⟩
  | process _ hh =>
      exact ⟨hrec', hn, ha.push rfl trivial, hp.take hh.height⟩
  | prefetched _ hh _ =>
      exact ⟨hrec', hn, ha.push rfl trivial, hp.take hh.height⟩
  -- all four buffers are still to be drained
  | save => exact ⟨hrec', hn, ha, hp.1, fun k _ => hp.2.1 k, fun k => by
      simpa [Kind.mem_all] using hp.2.2 k⟩
  | halt _ => exact ⟨hrec', hn, ha, hp.1, fun k _ => hp.2.1 k, fun k => by
      simpa [Kind.mem_all] using hp.2.2 k⟩
  | drain => exact LedgerInv.drain ⟨⟨hw, hpt, hq⟩, hn, ha, hp⟩ hrec'
  -- the staged blocks are entered, and all their rows have been written
  | flushIndex =>
      obtain ⟨hst, -, hb⟩ := hp
      have hb' := balanced_indexFlush hst.supersedes extra
        (fun k => by simpa [add_comm] using hb k) fmt.indexIsFull
      exact ⟨hrec', numbered_indexFlush hn _, accounted_indexFlush hw ha hn _ hb', hb'⟩
  | flushStatus =>
      exact ledgerInv_statusFlush hrec' hw.loaded ⟨⟨hw, hpt, hq⟩, hn, ha, hp⟩ hp fun _ _ => id
  | point _ =>
      have hempty := hq id
      exact ⟨hrec', hn, ha.writeCurrent trivial (accounted_of_balanced hn (hw.loaded ▸ hp) _),
        ⟨supersedes_of_empty hempty, by simp [hempty]⟩,
        fun k => by simp [hempty, ledger, hpt.2 k], hp⟩
  | close _ =>
      exact ⟨hrec', hn, ha.writeCurrent trivial (accounted_of_balanced hn (hw.loaded ▸ hp) _), hp⟩
  | closeFresh _ => exact ⟨hrec', hn, ha, hp⟩

/-! ### Between two passes -/

/-- The accounts between two passes. -/
structure RestLedger (T : BlockTree H ρ) (extra : Kind → Multiset (Row H ρ)) (s : State H ρ) :
    Prop where
  rest : Rest T s
  numbered : ∀ k, Numbered (s.mem.sequencers k) (s.disk.parts k)
  balanced : Balanced T extra s.disk (IndexStore.loadRows s.disk.index)

lemma RestLedger.ledgerInv {s : State H ρ} (h : RestLedger T extra s) :
    LedgerInv T extra .start s.world :=
  ⟨h.rest.recInv, h.numbered, by rintro e ⟨⟩, fun k => by
    rw [State.world, h.rest.loaded]
    exact h.balanced k⟩

lemma RestLedger.ends {s : State H ρ} (h : RestLedger T extra s) {c : Point H ρ} {w : World H ρ}
    (hw : Ends cfg fmt env s c w) : LedgerInv T extra c w :=
  hw.invariant (I := LedgerInv T extra) (fun _ _ _ _ => ledgerInv_step) h.ledgerInv

/-- Files in order and in balance are all a restart needs. -/
lemma restLedger_load {d : Disk H ρ} (ht : DiskTrue T d) (ho : d.Orderly)
    (hb : Balanced T extra d (IndexStore.loadRows d.index)) (log : List (Event H ρ)) :
    RestLedger T extra ⟨.load d, d, log⟩ :=
  ⟨rest_load ht log, ho, hb⟩

lemma restLedger_fresh : RestLedger T 0 (State.start : State H ρ) :=
  restLedger_load diskTrue_fresh Disk.orderly_fresh (fun k => by cases k <;> rfl) _

/-- The label is no crash. -/
def noCrash : Label T → State H ρ → Prop
  | .crash _ _, _ => False
  | _, _ => True

/-- Without a crash nothing gets out of balance. -/
lemma restLedger_next {i : Label T} {s s' : State H ρ} (h : RestLedger T extra s)
    (ha : noCrash i s) (hs : next cfg fmt i s = some s') : RestLedger T extra s' := by
  have hrest := rest_next h.rest hs
  cases outcome_of_next hs with
  | done hw =>
      have hend := h.ends hw
      exact ⟨hrest, hend.numbered, hend.records.recorded.loaded ▸ hend.point⟩
  | abandoned hw =>
      have hend := h.ends hw
      exact ⟨hrest, hend.numbered, hend.records.recorded.loaded ▸ hend.point⟩
  | died hw =>
      have hend := h.ends hw
      exact ⟨hrest, Disk.orderly_of_numbered hend.numbered,
        hend.records.recorded.loaded ▸ hend.point⟩
  | crash => exact ha.elim
  | restart => exact ⟨hrest, Disk.orderly_of_numbered h.numbered, h.balanced⟩
  | consume k n =>
      refine ⟨hrest, numbered_consume h.numbered k n, fun k' => ?_⟩
      rw [Disk.written_consume]
      exact h.balanced k'

end Ingest

end Ledger

end BtcParser
