import BtcParser.Rpc.Ingest

/-!
What the store operations change, and what they leave in the trace.

The `simp` lemmas give memory and disk after each operation. `World.All P w` says that every event
of the trace satisfies `P`; `World.Kept D w` says that the disk satisfies `D`, now and in every
snapshot of the trace, so that it is what is found after a crash at any point.
-/

namespace BtcParser

variable {H ρ : Type}

/-! ### Memory and disk -/

/-- The effects of a call, one after the other. -/
def Disk.applyParts (d : Disk H ρ) (k : Kind) (es : List (PartEffect (Row H ρ))) : Disk H ρ :=
  { d with parts := Function.update d.parts k (PartEffect.applyAll (d.parts k) es) }

@[simp] lemma Disk.applyParts_nil (d : Disk H ρ) (k : Kind) : d.applyParts k [] = d := by
  simp [applyParts]

lemma Disk.applyParts_cons (d : Disk H ρ) (k : Kind) (e : PartEffect (Row H ρ))
    (es : List (PartEffect (Row H ρ))) :
    d.applyParts k (e :: es) = (d.applyPart k e).applyParts k es := by
  simp [applyParts, applyPart]

lemma Disk.applyParts_append (d : Disk H ρ) (k : Kind) (es es' : List (PartEffect (Row H ρ))) :
    d.applyParts k (es ++ es') = (d.applyParts k es).applyParts k es' := by
  simp [applyParts, PartEffect.applyAll_append]

/-- A consumer adds no part. -/
lemma Disk.holds_consume {d : Disk H ρ} {k k' : Kind} {n : ℕ} {p : Part (Row H ρ)}
    (h : ((d.consume k n).parts k').Holds p) : (d.parts k').Holds p := by
  by_cases hk : k' = k
  · subst hk
    simp only [consume, Function.update_self] at h
    exact h.of_consume
  · simpa only [consume, Function.update_of_ne hk] using h

/-- Where a part comes from, on a disk after an effect. -/
lemma Disk.holds_applyPart {d : Disk H ρ} {k k' : Kind} {e : PartEffect (Row H ρ)}
    {p : Part (Row H ρ)} (h : ((d.applyPart k e).parts k').Holds p) :
    (d.parts k').Holds p
      ∨ k = k' ∧ ∃ l, e.lines = some l ∧ (p = l ∨ ∃ q, (d.parts k').Holds q ∧ p = q ++ l) := by
  by_cases hk : k' = k
  · subst hk
    simp only [applyPart, Function.update_self] at h
    exact (PartEffect.holds_apply h).imp_right fun h => ⟨rfl, h⟩
  · simp only [applyPart, Function.update_of_ne hk] at h
    exact .inl h

/-- Every `blocks` row on disk has the property `Q`. -/
def Disk.BlocksAll (Q : BlockEvent H ρ → Prop) (d : Disk H ρ) : Prop :=
  ∀ p, (d.parts .blocks).Holds p → ∀ e ∈ blockEvents p, Q e

section

variable {Q : BlockEvent H ρ → Prop} {d : Disk H ρ} {k : Kind}

lemma Disk.blocksAll_fresh : (Disk.fresh : Disk H ρ).BlocksAll Q := by
  rintro p ⟨n, hn | hn⟩ <;> cases hn

lemma Disk.BlocksAll.seedRows (h : d.BlocksAll Q) :
    ∀ e ∈ BtcParser.seedRows (d.parts .blocks), Q e := by
  intro e he
  obtain ⟨p, hp, hep, -⟩ := mem_seedRows he
  exact h p hp e hep

lemma Disk.BlocksAll.consume (h : d.BlocksAll Q) (n : ℕ) : (d.consume k n).BlocksAll Q :=
  fun p hp => h p (holds_consume hp)

/-- An effect that writes rows with the property, or none. -/
lemma Disk.BlocksAll.applyPart (h : d.BlocksAll Q) {e : PartEffect (Row H ρ)}
    (he : k = .blocks → ∀ l, e.lines = some l → ∀ b ∈ blockEvents l, Q b) :
    (d.applyPart k e).BlocksAll Q := by
  intro p hp b hb
  rcases holds_applyPart hp with hp | ⟨hk, l, hl, rfl | ⟨q, hq, rfl⟩⟩
  · exact h p hp b hb
  · exact he hk _ hl b hb
  · rw [blockEvents_append, List.mem_append] at hb
    exact hb.elim (h q hq b) (he hk l hl b)

end

namespace World

variable (w : World H ρ)

section

variable (f : Disk H ρ → Disk H ρ) (op : StoreOp H ρ) (p : Pointer H) (log : ReorgLog H)

@[simp] lemma effect_mem : (w.effect f).mem = w.mem := rfl

@[simp] lemma effect_disk : (w.effect f).disk = f w.disk := rfl

@[simp] lemma completed_mem : (w.completed op).mem = w.mem := rfl

@[simp] lemma completed_disk : (w.completed op).disk = w.disk := rfl

@[simp] lemma writeLatest_mem : (w.writeLatest p).mem = w.mem := rfl

@[simp] lemma writeLatest_disk : (w.writeLatest p).disk = { w.disk with latest := some p } := rfl

@[simp] lemma writeCurrent_mem : (w.writeCurrent p).mem = w.mem := rfl

@[simp] lemma writeCurrent_disk :
    (w.writeCurrent p).disk = { w.disk with current := some p } := rfl

@[simp] lemma writeReorgLog_mem : (w.writeReorgLog log).mem = w.mem := rfl

@[simp] lemma writeReorgLog_disk :
    (w.writeReorgLog log).disk = { w.disk with reorgLogs := w.disk.reorgLogs ++ [log] } := rfl

end

section

variable [DecidableEq H] (isFull : IndexPart H → Bool)

@[simp] lemma indexFlush_mem :
    (w.indexFlush isFull).mem = { w.mem with index := w.mem.index.flush } := by
  unfold indexFlush
  simp only
  split_ifs with h
  · simp [IndexStore.flush, h]
  · rfl

@[simp] lemma indexFlush_disk : (w.indexFlush isFull).disk
    = { w.disk with index := w.mem.index.flushParts isFull w.disk.index } := by
  unfold indexFlush
  simp only
  split_ifs with h
  · simp [IndexStore.flushParts, h]
  · rfl

omit [DecidableEq H] in
@[simp] lemma statusFlush_mem :
    w.statusFlush.mem = { w.mem with status := w.mem.status.flush } := by
  unfold statusFlush
  simp only
  split_ifs with h
  · rfl
  · rw [Bool.not_eq_true] at h
    simp [BlockStatusStore.flush, ← h]

omit [DecidableEq H] in
@[simp] lemma statusFlush_calls : w.statusFlush.calls = w.calls := by
  rw [statusFlush]
  split_ifs <;> rfl

omit [DecidableEq H] in
@[simp] lemma statusFlush_disk :
    w.statusFlush.disk = { w.disk with status := w.mem.status.flushFile w.disk.status } := by
  unfold statusFlush
  simp only
  split_ifs with h
  · rfl
  · simp [BlockStatusStore.flushFile, h]

end

section

variable (fmt : Format (Row H ρ)) (atomic : Bool) (k : Kind) (rows : List (Row H ρ))

@[simp] lemma partEffects_mem (es : List (PartEffect (Row H ρ))) :
    (w.partEffects k es).mem = w.mem := by
  induction es generalizing w with
  | nil => rfl
  | cons e es ih => exact ih _

@[simp] lemma partEffects_disk (es : List (PartEffect (Row H ρ))) :
    (w.partEffects k es).disk = w.disk.applyParts k es := by
  induction es generalizing w with
  | nil => simp [partEffects]
  | cons e es ih =>
      show (partEffects _ k es).disk = _
      rw [ih, effect_disk, Disk.applyParts_cons]

/-- The sequencers of the process after a call. -/
@[simp] lemma writeParts_mem : (w.writeParts fmt atomic k rows).mem = { w.mem with
    sequencers := Function.update w.mem.sequencers k (w.callParts fmt atomic k rows).1 } := by
  simp [writeParts]

@[simp] lemma writeParts_disk : (w.writeParts fmt atomic k rows).disk
    = w.disk.applyParts k (w.callParts fmt atomic k rows).2 := by
  simp [writeParts]

lemma lines_callParts {e : PartEffect (Row H ρ)} (he : e ∈ (w.callParts fmt atomic k rows).2)
    {l : Part (Row H ρ)} (hl : e.lines = some l) : ∃ b, l = writeCsv b rows := by
  unfold callParts at he
  split_ifs at he
  · exact PartSequencer.lines_writeAtomic he hl
  · exact PartSequencer.lines_writeBatched he hl

end

section

variable (cs : List (Kind × ℕ))

@[simp] lemma consumed_mem : (w.consumed cs).mem = w.mem := rfl

/-- What taking away a part preserves, a consumer preserves. -/
lemma consumed_disk {D : Disk H ρ → Prop} (hD : ∀ d k n, D d → D (d.consume k n))
    (h : D w.disk) : D (w.consumed cs).disk := by
  obtain ⟨mem, disk, calls, trace⟩ := w
  induction cs generalizing disk with
  | nil => exact h
  | cons c cs ih => exact ih _ (hD _ _ _ h)

/-- A consumer changes nothing but the parts. -/
lemma consumed_eq : ∃ parts, (w.consumed cs).disk = { w.disk with parts := parts } :=
  consumed_disk (D := fun d => ∃ parts, d = { w.disk with parts := parts }) w cs
    (by rintro _ k n ⟨parts, rfl⟩; exact ⟨_, rfl⟩) ⟨_, rfl⟩

@[simp] lemma consumed_index : (w.consumed cs).disk.index = w.disk.index := by
  obtain ⟨parts, h⟩ := w.consumed_eq cs
  rw [h]

@[simp] lemma consumed_status : (w.consumed cs).disk.status = w.disk.status := by
  obtain ⟨parts, h⟩ := w.consumed_eq cs
  rw [h]

@[simp] lemma consumed_reorgLogs : (w.consumed cs).disk.reorgLogs = w.disk.reorgLogs := by
  obtain ⟨parts, h⟩ := w.consumed_eq cs
  rw [h]

@[simp] lemma consumed_current : (w.consumed cs).disk.current = w.disk.current := by
  obtain ⟨parts, h⟩ := w.consumed_eq cs
  rw [h]

end

/-! ### The trace -/

/-- Every event of the trace satisfies `P`. -/
def All (P : Event H ρ → Prop) (w : World H ρ) : Prop := ∀ e ∈ w.trace, P e

section

variable {w} {P : Event H ρ → Prop}

lemma All.push {w' : World H ρ} (h : w.All P) {e : Event H ρ} (ht : w'.trace = w.trace ++ [e])
    (he : P e) : w'.All P := by
  intro e' he'
  rw [ht, List.mem_append, List.mem_singleton] at he'
  rcases he' with he' | rfl
  · exact h e' he'
  · exact he

lemma All.effect (h : w.All P) {f : Disk H ρ → Disk H ρ} (hf : P (.effect (f w.disk))) :
    (w.effect f).All P :=
  h.push rfl hf

lemma All.completed (h : w.All P) {op : StoreOp H ρ} (hop : P (.completed op w.disk)) :
    (w.completed op).All P :=
  h.push rfl hop

lemma All.writeLatest (h : w.All P) {p : Pointer H}
    (he : P (.effect { w.disk with latest := some p }))
    (hc : P (.completed (.latestWritten p) { w.disk with latest := some p })) :
    (w.writeLatest p).All P :=
  (h.effect he).completed hc

lemma All.writeCurrent (h : w.All P) {p : Pointer H}
    (he : P (.effect { w.disk with current := some p }))
    (hc : P (.completed (.currentWritten p) { w.disk with current := some p })) :
    (w.writeCurrent p).All P :=
  (h.effect he).completed hc

lemma All.writeReorgLog (h : w.All P) {log : ReorgLog H}
    (he : P (.effect { w.disk with reorgLogs := w.disk.reorgLogs ++ [log] }))
    (hc : P (.completed (.reorgLogged log)
      { w.disk with reorgLogs := w.disk.reorgLogs ++ [log] })) :
    (w.writeReorgLog log).All P :=
  (h.effect he).completed hc

lemma All.indexFlush [DecidableEq H] {isFull : IndexPart H → Bool} (h : w.All P)
    (he : P (.effect { w.disk with index := w.mem.index.flushParts isFull w.disk.index }))
    (hc : ∀ rows, P (.completed (.indexFlushed rows)
      { w.disk with index := w.mem.index.flushParts isFull w.disk.index })) :
    (w.indexFlush isFull).All P := by
  have hdisk := w.indexFlush_disk isFull
  unfold World.indexFlush at hdisk ⊢
  simp only at hdisk ⊢
  split_ifs at hdisk ⊢ with hp
  · refine h.completed ?_
    rw [completed_disk] at hdisk
    rw [hdisk]
    exact hc _
  · exact All.completed (All.effect
      (w := { w with mem := { w.mem with index := w.mem.index.flush } }) h he) (hc _)

lemma All.statusFlush [DecidableEq H] (h : w.All P)
    (he : P (.effect { w.disk with status := w.mem.status.flushFile w.disk.status }))
    (hc : P (.completed .statusFlushed
      { w.disk with status := w.mem.status.flushFile w.disk.status })) :
    w.statusFlush.All P := by
  have hdisk := w.statusFlush_disk
  unfold World.statusFlush at hdisk ⊢
  simp only at hdisk ⊢
  split_ifs at hdisk ⊢ with hp
  · exact All.completed (All.effect
      (w := { w with mem := { w.mem with status := w.mem.status.flush } }) h he) hc
  · refine h.completed ?_
    rw [completed_disk] at hdisk
    rw [hdisk]
    exact hc

/-- The events of a sequencer call: its effects one after the other, and its return. -/
lemma All.writeParts {fmt : Format (Row H ρ)} {atomic : Bool} {k : Kind}
    {rows : List (Row H ρ)} (h : w.All P)
    (he : ∀ es₁ es₂, (w.callParts fmt atomic k rows).2 = es₁ ++ es₂ →
      P (.effect (w.disk.applyParts k es₁)))
    (hc : P (.completed (.drained k atomic rows) (w.writeParts fmt atomic k rows).disk)) :
    (w.writeParts fmt atomic k rows).All P := by
  have key : ∀ (es₂ es₁ : List (PartEffect (Row H ρ))) (v : World H ρ), v.All P →
      v.disk = w.disk.applyParts k es₁ →
      (w.callParts fmt atomic k rows).2 = es₁ ++ es₂ → (v.partEffects k es₂).All P := by
    intro es₂
    induction es₂ with
    | nil => exact fun _ _ hv _ _ => hv
    | cons e es₂ ih =>
        intro es₁ v hv hd hes
        have hd' : v.disk.applyPart k e = w.disk.applyParts k (es₁ ++ [e]) := by
          rw [Disk.applyParts_append, ← hd, Disk.applyParts_cons, Disk.applyParts_nil]
        refine ih (es₁ ++ [e]) _ (hv.effect ?_) hd' (by simp [hes])
        rw [hd']
        exact he (es₁ ++ [e]) es₂ (by simp [hes])
  set v : World H ρ := { w with mem := { w.mem with
    sequencers := Function.update w.mem.sequencers k (w.callParts fmt atomic k rows).1 } }
  exact All.completed (key _ [] v h (by simp [v]) rfl) hc

end

/-! The trace only grows. -/

section

lemma trace_effect (f : Disk H ρ → Disk H ρ) : w.trace <+: (w.effect f).trace :=
  List.prefix_append _ _

lemma trace_completed (op : StoreOp H ρ) : w.trace <+: (w.completed op).trace :=
  List.prefix_append _ _

lemma trace_partEffects (k : Kind) (es : List (PartEffect (Row H ρ))) :
    w.trace <+: (w.partEffects k es).trace := by
  induction es generalizing w with
  | nil => exact List.prefix_rfl
  | cons e es ih => exact (w.trace_effect _).trans (ih _)

lemma trace_writeParts (fmt : Format (Row H ρ)) (atomic : Bool) (k : Kind)
    (rows : List (Row H ρ)) : w.trace <+: (w.writeParts fmt atomic k rows).trace :=
  let s := (w.callParts fmt atomic k rows).1
  (trace_partEffects { w with mem := { w.mem with
    sequencers := Function.update w.mem.sequencers k s } } k _).trans (trace_completed _ _)

lemma trace_indexFlush [DecidableEq H] (isFull : IndexPart H → Bool) :
    w.trace <+: (w.indexFlush isFull).trace := by
  unfold World.indexFlush
  simp only
  split_ifs
  · exact w.trace_completed _
  · exact (trace_effect { w with mem := { w.mem with index := w.mem.index.flush } } _).trans
      (trace_completed _ _)

lemma trace_statusFlush [DecidableEq H] : w.trace <+: w.statusFlush.trace := by
  unfold World.statusFlush
  simp only
  split_ifs
  · exact (trace_effect { w with mem := { w.mem with status := w.mem.status.flush } } _).trans
      (trace_completed _ _)
  · exact w.trace_completed _

end

/-- The disk satisfies `D`, now and in every snapshot. -/
structure Kept (D : Disk H ρ → Prop) (w : World H ρ) : Prop where
  disk : D w.disk
  trace : w.All fun e => ∀ d, e.disk? = some d → D d

section

variable {w} {D : Disk H ρ → Prop}

lemma Kept.effect (h : w.Kept D) {f : Disk H ρ → Disk H ρ} (hf : D (f w.disk)) :
    (w.effect f).Kept D :=
  ⟨hf, h.trace.effect fun _ hd => Option.some.inj hd ▸ hf⟩

lemma Kept.completed (h : w.Kept D) (op : StoreOp H ρ) : (w.completed op).Kept D :=
  ⟨h.disk, h.trace.completed fun _ hd => Option.some.inj hd ▸ h.disk⟩

lemma Kept.consumed (h : w.Kept D) (hD : ∀ d k n, D d → D (d.consume k n))
    (cs : List (Kind × ℕ)) : (w.consumed cs).Kept D :=
  ⟨consumed_disk w cs hD h.disk, h.trace⟩

lemma Kept.indexFlush [DecidableEq H] {isFull : IndexPart H → Bool} (h : w.Kept D)
    (hD : D { w.disk with index := w.mem.index.flushParts isFull w.disk.index }) :
    (w.indexFlush isFull).Kept D :=
  ⟨by rwa [indexFlush_disk], h.trace.indexFlush (fun _ hd => Option.some.inj hd ▸ hD)
    fun _ _ hd => Option.some.inj hd ▸ hD⟩

lemma Kept.statusFlush [DecidableEq H] (h : w.Kept D)
    (hD : D { w.disk with status := w.mem.status.flushFile w.disk.status }) :
    w.statusFlush.Kept D :=
  ⟨by rwa [statusFlush_disk], h.trace.statusFlush (fun _ hd => Option.some.inj hd ▸ hD)
    fun _ hd => Option.some.inj hd ▸ hD⟩

/-- A property that single effects of the call preserve. -/
lemma Kept.writeParts {fmt : Format (Row H ρ)} {atomic : Bool} {k : Kind}
    {rows : List (Row H ρ)} (h : w.Kept D)
    (hD : ∀ (d : Disk H ρ) (e : PartEffect (Row H ρ)), D d → d.index = w.disk.index →
      (∀ l, e.lines = some l → ∃ b, l = writeCsv b rows) → D (d.applyPart k e)) :
    (w.writeParts fmt atomic k rows).Kept D := by
  have key : ∀ es : List (PartEffect (Row H ρ)),
      (∀ e ∈ es, ∀ l, e.lines = some l → ∃ b, l = writeCsv b rows) →
      D (w.disk.applyParts k es) := by
    intro es hes
    induction es using List.reverseRecOn with
    | nil => simpa using h.disk
    | append_singleton es e ih =>
        rw [Disk.applyParts_append, Disk.applyParts_cons, Disk.applyParts_nil]
        exact hD _ e (ih fun e' he' => hes e' (by simp [he'])) rfl (hes e (by simp))
  have hall : ∀ e ∈ (w.callParts fmt atomic k rows).2, ∀ l, e.lines = some l →
      ∃ b, l = writeCsv b rows := fun e he l hl => w.lines_callParts fmt atomic k rows he hl
  refine ⟨by rw [writeParts_disk]; exact key _ hall, h.trace.writeParts ?_ ?_⟩
  · rintro es₁ es₂ hes _ ⟨⟩
    exact key _ fun e he => hall e (by simp [hes, he])
  · rintro _ ⟨⟩
    rw [writeParts_disk]
    exact key _ hall

end

end World

end BtcParser
