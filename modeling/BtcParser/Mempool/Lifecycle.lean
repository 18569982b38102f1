import BtcParser.Mempool.NodeChain

/-!
The life of a flagged transaction, as the exports tell it and as the store remembers it.

* `Phase.after` is the automaton: what an export, or a silent removal, makes of a transaction that
  is untracked, in the mempool or confirmed.
* `Lifecycle` is the invariant: for every txid the automaton accepts the trace, and ends in the
  phase of the entry in memory, which is the entry of `flagged.json`.
* `triple_all` is the rule of the loops over `store.all()`: a handler changes the entry it is
  called for, so the entries that are still to come are the current ones.
* `Lifecycle.next`: every step of the process keeps the invariant, and `lifecycle` follows.
-/

namespace BtcParser

namespace MempoolWatch

open Program

/-! ### The automaton -/

/-- Where a transaction is. -/
inductive Phase where
  | untracked
  | mempool
  | confirmed
  deriving DecidableEq

/-- What moves it: an export, or the removal of an entry without one, at a depth. -/
inductive Move where
  | exported (event : WatchEvent)
  | forgotten (confirmations : ℤ)
  deriving DecidableEq

/-- The export of a move. -/
def Move.event : Move → Option WatchEvent
  | .exported event => some event
  | .forgotten _ => none

/-- The automaton. -/
def Phase.after (cfg : MempoolWatchConfig) : Phase → Move → Option Phase
  | .untracked, .exported .seen => some .mempool
  | .mempool, .exported .confirmed => some .confirmed
  | .mempool, .exported .replaced => some .untracked
  | .mempool, .exported .removed => some .untracked
  | .confirmed, .exported .unconfirmed => some .mempool
  | .confirmed, .forgotten c => if cfg.forgetAfterConfirmations ≤ c then some .untracked else none
  | _, _ => none

variable {X H A : Type}

/-- The transaction an item is about. -/
def TraceItem.txid : TraceItem X H A → X
  | .exported e => e.tx.txid
  | .forgotten x _ => x

/-- The move an item is. -/
def TraceItem.move : TraceItem X H A → Move
  | .exported e => .exported e.event
  | .forgotten _ c => .forgotten c

/-- The phase of an entry, or of its absence. -/
def phaseOf : Option (FlaggedTx X H A) → Phase
  | none => .untracked
  | some e => if e.status.isInMempool then .mempool else .confirmed

variable [LinearOrder X] {cfg : MempoolWatchConfig}

/-- The moves of a transaction. -/
def movesOf (x : X) (trace : List (TraceItem X H A)) : List Move :=
  (trace.filter fun i => TraceItem.txid i = x).map TraceItem.move

/-- The exports of a transaction. -/
def exportsOf (x : X) (trace : List (TraceItem X H A)) : List WatchEvent :=
  (movesOf x trace).filterMap Move.event

/-- Where the automaton is after a trace, if it accepts it. -/
def phaseAfter (cfg : MempoolWatchConfig) (x : X) (trace : List (TraceItem X H A)) :
    Option Phase :=
  (movesOf x trace).foldlM (Phase.after cfg) .untracked

lemma movesOf_append (x : X) (trace : List (TraceItem X H A)) (i : TraceItem X H A) :
    movesOf x (trace ++ [i])
      = if TraceItem.txid i = x then movesOf x trace ++ [TraceItem.move i]
        else movesOf x trace := by
  rw [movesOf, movesOf, List.filter_append, List.map_append]
  by_cases h : TraceItem.txid i = x <;> simp [h]

lemma phaseAfter_append_self {trace : List (TraceItem X H A)} {i : TraceItem X H A} {p : Phase}
    (h : phaseAfter cfg (TraceItem.txid i) trace = some p) :
    phaseAfter cfg (TraceItem.txid i) (trace ++ [i]) = p.after cfg (TraceItem.move i) := by
  rw [phaseAfter] at h ⊢
  rw [movesOf_append, if_pos rfl, List.foldlM_append, h]
  simp

lemma phaseAfter_append_ne {trace : List (TraceItem X H A)} {i : TraceItem X H A} {x : X}
    (h : TraceItem.txid i ≠ x) : phaseAfter cfg x (trace ++ [i]) = phaseAfter cfg x trace := by
  rw [phaseAfter, movesOf_append, if_neg h, phaseAfter]

/-! ### The invariant -/

/-- Exports, memory and file agree. -/
structure Lifecycle (cfg : MempoolWatchConfig) (w : Watcher X H A) : Prop where
  phase : ∀ x, phaseAfter cfg x w.trace = some (phaseOf (w.store.get x))
  file : ∀ x, w.file.get x = w.store.get x

/-- One item for a transaction whose entry alone has changed. -/
lemma Lifecycle.moved {w w' : Watcher X H A} (hw : Lifecycle cfg w) {i : TraceItem X H A}
    (htrace : w'.trace = w.trace ++ [i])
    (hmove : (phaseOf (w.store.get (TraceItem.txid i))).after cfg (TraceItem.move i)
      = some (phaseOf (w'.store.get (TraceItem.txid i))))
    (hstore : ∀ y ≠ TraceItem.txid i, w'.store.get y = w.store.get y)
    (hfile : ∀ y, w'.file.get y = w'.store.get y) : Lifecycle cfg w' where
  phase x := by
    by_cases hx : x = TraceItem.txid i
    · subst hx
      rw [htrace, phaseAfter_append_self (hw.phase _), hmove]
    · rw [htrace, phaseAfter_append_ne (Ne.symm hx), hw.phase, hstore x hx]
  file := hfile

/-- The two states agree on the entries, the file and the trace. -/
lemma Lifecycle.congr {w w' : Watcher X H A} (hw : Lifecycle cfg w) (hs : w'.store = w.store)
    (hf : w'.file = w.file) (ht : w'.trace = w.trace) : Lifecycle cfg w' :=
  ⟨by rw [hs, ht]; exact hw.phase, by rw [hs, hf]; exact hw.file⟩

variable {w : Watcher X H A}

lemma Lifecycle.add (hw : Lifecycle cfg w) (x : X) (tx : RawTx X A) (rows : List (MatchRow A))
    (source : WatchSource) : Lifecycle cfg (w.add x tx rows source) := by
  have hne := fun y hy => w.get_add_ne (x := x) (y := y) hy tx rows source
  rw [Watcher.add] at hne ⊢
  simp only at hne ⊢
  split_ifs at hne ⊢ with h
  · exact hw.congr rfl rfl rfl
  · have hnone : w.store.get x = none := by
      cases hg : w.store.get x with
      | none => rfl
      | some e =>
          have hc : w.store.contains x = true := Keyed.contains_iff.mpr ⟨e, hg⟩
          simp [hc] at h
    refine hw.moved (i := .exported ⟨.seen, _, none, source, none, none⟩) rfl ?_ hne (by simp)
    rw [Watcher.get_put]
    simp [TraceItem.txid, TraceItem.move, Watcher.newEntry, hnone, phaseOf, Phase.after]

lemma Lifecycle.markConfirmed (hw : Lifecycle cfg w) {e : FlaggedTx X H A}
    (he : w.store.get e.txid = some e) (hs : e.status.isInMempool = true) (h : H) (height : ℤ)
    (source : WatchSource) : Lifecycle cfg (w.markConfirmed e h height source) := by
  refine hw.moved (i := .exported ⟨.confirmed, _, some (h, height), source, none, none⟩) rfl ?_
    (fun y hy => (w.get_markConfirmed _ _ _ _ _).trans (if_neg hy))
    (by simp [Watcher.markConfirmed])
  simp [TraceItem.txid, TraceItem.move, he, hs, phaseOf, Phase.after]

lemma Lifecycle.unconfirm (hw : Lifecycle cfg w) {e : FlaggedTx X H A}
    (he : w.store.get e.txid = some e) (hs : e.status.isInMempool = false) (h : H) (height : ℤ) :
    Lifecycle cfg (w.unconfirm e h height) := by
  refine hw.moved (i := .exported ⟨.unconfirmed, _, some (h, height), .reorg, none, _⟩) rfl ?_
    (fun y hy => (w.get_unconfirm _ _ _ _).trans (if_neg hy)) (by simp [Watcher.unconfirm])
  simp [TraceItem.txid, TraceItem.move, he, hs, phaseOf, Phase.after]

lemma Lifecycle.forget (hw : Lifecycle cfg w) {e : FlaggedTx X H A}
    (he : w.store.get e.txid = some e) (hs : e.status.isInMempool = false) {c : ℤ}
    (hc : cfg.forgetAfterConfirmations ≤ c) : Lifecycle cfg (w.forget e.txid c) := by
  refine hw.moved (i := .forgotten e.txid c) rfl ?_
    (fun y hy => (w.get_forget _ _ _).trans (if_neg hy)) (Watcher.file_remove hw.file e.txid)
  simp [TraceItem.txid, TraceItem.move, he, hs, phaseOf, Phase.after, hc]

lemma Lifecycle.leave (hw : Lifecycle cfg w) {e : FlaggedTx X H A}
    (he : w.store.get e.txid = some e) (hs : e.status.isInMempool = true) (y : Option X)
    (source : WatchSource) (detail : WatchDetail H) :
    Lifecycle cfg (w.leave e y source detail) := by
  have hget := w.get_leave e y source detail
  have hfile : ∀ z, (w.leave e y source detail).file.get z
      = (w.leave e y source detail).store.get z := by
    cases y <;> exact Watcher.file_remove (w := w.exportRows _) hw.file e.txid
  cases y with
  | none =>
      refine hw.moved (i := .exported ⟨.removed, e, none, source, none, some detail⟩)
        (Watcher.trace_remove _ _) ?_ (fun z hz => (hget z).trans (if_neg hz)) hfile
      simp [TraceItem.txid, TraceItem.move, he, hs, phaseOf, Phase.after]
  | some y =>
      refine hw.moved (i := .exported ⟨.replaced, e, none, source, some y, none⟩)
        (Watcher.trace_remove _ _) ?_ (fun z hz => (hget z).trans (if_neg hz)) hfile
      simp [TraceItem.txid, TraceItem.move, he, hs, phaseOf, Phase.after]

/-! ### Runs -/

lemma Lifecycle.change {w' : Watcher X H A} (hw : Lifecycle cfg w) (h : Change cfg w w') :
    Lifecycle cfg w' := by
  cases h with
  | bookkeeping => exact hw.congr rfl rfl rfl
  | add x tx rows source => exact hw.add x tx rows source
  | confirm he hs h height source => exact hw.markConfirmed he hs h height source
  | unconfirm he hs h height => exact hw.unconfirm he hs h height
  | forget he hs hc => exact hw.forget he hs hc
  | leave he hs y source detail => exact hw.leave he hs y source detail

lemma Lifecycle.changes {w' : Watcher X H A} (hw : Lifecycle cfg w) (h : Changes cfg w w') :
    Lifecycle cfg w' := by
  induction h with
  | refl => exact hw
  | tail _ h ih => exact ih.change h

/-- Every step of the process keeps the invariant. -/
lemma Lifecycle.next (hw : Lifecycle cfg w) (i : Label X H A) :
    Lifecycle cfg (next cfg i w) := by
  have hreset : Lifecycle cfg { w with calls := 0 } := hw.congr rfl rfl rfl
  cases i with
  | reconcile env source => exact hreset.changes (reconcile_changes source _)
  | handleEvents env events => exact hreset.changes (handleEvents_changes events _)
  | listReloaded => exact hw.congr rfl rfl rfl
  | restart =>
      exact ⟨fun x => (hw.phase x).trans (congrArg (some ∘ phaseOf) (hw.file x).symm), fun _ => rfl⟩

lemma lifecycle_fresh : Lifecycle cfg (.fresh : Watcher X H A) :=
  ⟨fun _ => rfl, fun _ => rfl⟩

/-- The last export tells the phase, except that a confirmed transaction may have been forgotten. -/
def Phase.fits : Phase → Option WatchEvent → Prop
  | .untracked, e => e ≠ some .seen ∧ e ≠ some .unconfirmed
  | .mempool, e => e = some .seen ∨ e = some .unconfirmed
  | .confirmed, e => e = some .confirmed

lemma Phase.fits_after {p q : Phase} {m : Move} {last : Option WatchEvent}
    (h : q.after cfg m = some p) (hlast : q.fits last) :
    (∀ e ∈ m.event, last ≠ some e) ∧ p.fits (m.event.or last) := by
  cases q with
  | untracked =>
      rcases m with (_ | _ | _ | _ | _) | c <;> cases h
      exact ⟨by rintro _ ⟨⟩; exact hlast.1, .inl rfl⟩
  | mempool =>
      rcases m with (_ | _ | _ | _ | _) | c <;> cases h
      all_goals
        refine ⟨?_, by simp [Phase.fits, Move.event]⟩
        rintro _ ⟨⟩ rfl
        simp [Phase.fits] at hlast
  | confirmed =>
      rcases m with (_ | _ | _ | _ | _) | c <;> try cases h
      · refine ⟨?_, .inr rfl⟩
        rintro _ ⟨⟩ rfl
        simp [Phase.fits] at hlast
      · rw [Phase.after, Option.ite_none_right_eq_some] at h
        cases h.2
        exact ⟨nofun, by rw [show last = _ from hlast]; simp [Phase.fits, Move.event]⟩

lemma exports_of_phase {moves : List Move} {p : Phase}
    (h : moves.foldlM (Phase.after cfg) .untracked = some p) :
    (moves.filterMap Move.event).IsChain (· ≠ ·)
      ∧ p.fits (moves.filterMap Move.event).getLast? := by
  induction moves using List.reverseRecOn generalizing p with
  | nil =>
      cases h
      simp [Phase.fits]
  | append_singleton moves m ih =>
      rw [List.foldlM_append] at h
      obtain ⟨q, hq, hp⟩ := Option.bind_eq_some_iff.mp h
      obtain ⟨hchain, hfits⟩ := ih hq
      obtain ⟨hne, hfits'⟩ := Phase.fits_after (by simpa using hp) hfits
      rw [List.filterMap_append]
      cases he : m.event with
      | none =>
          rw [List.filterMap_cons_none he, List.filterMap_nil, List.append_nil]
          rw [he] at hfits'
          exact ⟨hchain, hfits'⟩
      | some e =>
          rw [he] at hne hfits'
          rw [List.filterMap_cons_some he, List.filterMap_nil, List.isChain_append]
          refine ⟨⟨hchain, by simp, ?_⟩, by simpa using hfits'⟩
          rintro a ha _ ⟨⟩ rfl
          exact hne _ rfl ha

/-- **The life of a flagged transaction**: in every state between the steps of every run, with
calls failing and restarts, the automaton accepts what was exported for a transaction, with a
silent removal only at the depth of `forget_after_confirmations`, and its phase is the one of the
entry in memory and of the entry in `flagged.json`. No event is exported twice in a row. -/
theorem lifecycle (cfg : MempoolWatchConfig) (w : Watcher X H A)
    (hw : (system cfg).Reach anyStep w) (x : X) :
    phaseAfter cfg x w.trace = some (phaseOf (w.store.get x))
      ∧ w.file.get x = w.store.get x
      ∧ (exportsOf x w.trace).IsChain (· ≠ ·) := by
  have h : Lifecycle cfg w := hw.invariant (fun _ h0 => h0 ▸ lifecycle_fresh)
    fun t t' i ht _ hstep => hstep ▸ ht.next i
  exact ⟨h.phase x, h.file x, (exports_of_phase (h.phase x)).1⟩

/-- Seen in the mempool, mined in block `1`, and back in the mempool after a reorg. -/
theorem lifecycle_reorg :
    ∃ w : Watcher (Fin 4) ℕ ℕ, (system plainConfig).Reach anyStep w
      ∧ exportsOf 0 w.trace = [.seen, .confirmed, .unconfirmed]
      ∧ phaseAfter plainConfig 0 w.trace = some .mempool := by
  let reconciled (blocks : List (ℕ × List (Fin 4))) (h : (blocks.map Prod.fst).Nodup)
      (mempool : List (Fin 4)) : Label (Fin 4) ℕ ℕ :=
    .reconcile (plainEnv ⟨blocks, h⟩ mempool) .reconcile
  have h₀ : (system plainConfig).Reach anyStep (.fresh : Watcher (Fin 4) ℕ ℕ) := .init rfl
  have h₁ := h₀.step (i := reconciled [(0, [])] (by decide) [0]) trivial rfl
  have h₂ := h₁.step (i := reconciled [(0, []), (1, [0])] (by decide) []) trivial rfl
  have h₃ := h₂.step (i := reconciled [(0, []), (2, [])] (by decide) [0]) trivial rfl
  exact ⟨_, h₃, by decide +kernel, (lifecycle plainConfig _ h₃ 0).1.trans (by decide +kernel)⟩

end MempoolWatch

end BtcParser
