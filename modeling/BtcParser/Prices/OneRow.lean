import BtcParser.Library.Transition
import BtcParser.Prices.Resume

/-!
Live polls and calls of `run_backfill` on one `prices.csv`, in any order.

* `World.next`: polls and calls, any number of which may be going on at a time.
* `Heard` keeps account of the answers of the server, and of the order of the steps, apart from the
  program: which times have been brought to the file, to each call since its last append, and to the
  file before a call has looked at it or to the call since.
* `apart`: the condition, on the answers so far. `Told` ties the account to the program, and
  `newTimes_of_apart` is what follows for the next step.
* `OneRow`: what then holds of the file and of the rows that are pending.
* `one_row_per_date`: `prices.csv` has one row for each `date_unix`.
-/

namespace BtcParser.Prices

/-- The export directory and the calls of `run_backfill` that are running in it. -/
structure World where
  disk : Disk
  runs : ℕ → Option Run

namespace World

inductive Label
  | poll (stopped : Bool) (response : Response)
  | call (i : ℕ) (startTimestamp endTimestamp : ℤ)
  | act (i : ℕ) (a : Action)
  deriving DecidableEq

/-- The directory and the calls after a step of the call `i`. -/
def after (w : World) (i : ℕ) : Disk × Outcome → World
  | (d, .running r) => ⟨d, Function.update w.runs i (some r)⟩
  | (d, .ended _) => ⟨d, Function.update w.runs i none⟩

def next : Label → World → Option World
  | .poll stopped response, w => some
      { w with disk := { w.disk with prices := fetchAndWrite stopped response w.disk.prices } }
  | .call i startTimestamp endTimestamp, w =>
      match w.runs i with
      | some _ => none
      | none => some
          { w with runs := Function.update w.runs i (some (.call startTimestamp endTimestamp)) }
  | .act i a, w => (w.runs i).map fun r => w.after i (r.act w.disk a)

/-! ### What the writers are told -/

/-- What a step does to the times: a poll brings one, a call reads the file, takes up the time of
its answer, appends its rows, or ends. -/
inductive Happening
  | polled (t : ℤ)
  | looked (i : ℕ)
  | received (i : ℕ) (t : ℤ)
  | appended (i : ℕ)
  | ended (i : ℕ)

/-- What a step of the call `i` does. -/
def callHappening (i : ℕ) (r : Run) : Option Happening :=
  match r.pc with
  | .loaded => some (.looked i)
  | .entry e => e.time.map (.received i)
  | .flush .write => some (.appended i)
  | .final .write _ => some (.appended i)
  | .final .save _ => some (.ended i)
  | _ => none

def happening : Label → World → Option Happening
  | .poll false (.data (some e)), _ => e.time.map .polled
  | .poll _ _, _ => none
  | .call _ _ _, _ => none
  | .act i (.go _ _), w => (w.runs i).bind (callHappening i)
  | .act i .interrupt, w => (w.runs i).bind fun r =>
      match r.pc with
      | .final _ _ => some (.ended i)
      | _ => none
  | .act i .kill, _ => some (.ended i)

/-- The times of the answers so far: those that have been brought to the file, those that a call has
been answered with since its last append, and those that had been brought to the file when the call
read it or that the call has been answered with since. -/
structure Heard where
  filed : Finset ℤ
  held : ℕ → Finset ℤ
  seen : ℕ → Finset ℤ

def Heard.record (k : Heard) : Happening → Heard
  | .polled t => { k with filed := insert t k.filed }
  | .looked i => { k with seen := Function.update k.seen i k.filed }
  | .received i t =>
      { k with
        held := Function.update k.held i (insert t (k.held i))
        seen := Function.update k.seen i (insert t (k.seen i)) }
  | .appended i =>
      { k with filed := k.filed ∪ k.held i, held := Function.update k.held i ∅ }
  | .ended i => { k with held := Function.update k.held i ∅ }

/-- Polls and calls in a directory whose `prices.csv` has no time twice, and the account of their
answers. -/
def system : TransitionSystem (World × Heard) Label where
  init p := (dates p.1.disk.prices).Nodup ∧ (∀ i, p.1.runs i = none)
    ∧ p.2 = ⟨(dates p.1.disk.prices).toFinset, fun _ => ∅, fun _ => ∅⟩
  step l p q := next l p.1 = some q.1 ∧ q.2 = (happening l p.1).elim p.2 p.2.record

/-- A time that is brought to a writer has not been brought to another one behind its back: a poll
is the first to be answered with it, and if a call is not, then the time was in the file when the
call read it, or it was answered with it itself. -/
def Unshared (k : Heard) : Happening → Prop
  | .polled t => t ∉ k.filed ∧ ∀ i, t ∉ k.held i
  | .received i t => (t ∈ k.filed ∨ ∃ j ≠ i, t ∈ k.held j) → t ∈ k.seen i
  | _ => True

/-- The condition: times are brought in this way, and the rows of a flush are not interrupted
between the append and the statement that forgets them. -/
def apart (l : Label) (p : World × Heard) : Prop :=
  (∀ h, happening l p.1 = some h → Unshared p.2 h)
    ∧ ∀ i r, l = .act i .interrupt → p.1.runs i = some r → r.pc = .flush .clear → r.pendingRows = []

/-! ### What a step may take -/

/-- Another writer than the call `i` has written `t`, or is about to. -/
def Elsewhere (w : World) (i : ℕ) (t : ℤ) : Prop :=
  t ∈ dates w.disk.prices ∨ ∃ j r, j ≠ i ∧ w.runs j = some r ∧ t ∈ dates r.pendingRows

/-- No step takes a time that is there already without knowing it. -/
def newTimes : Label → World → Prop
  | .poll stopped response, w => stopped = false → ∀ e t, response = .data (some e) →
      e.time = some t →
      t ∉ dates w.disk.prices ∧ ∀ i r, w.runs i = some r → t ∉ dates r.pendingRows
  | .call _ _ _, _ => True
  | .act i (.go _ _), w => ∀ r e t, w.runs i = some r → r.pc = .entry e → e.time = some t →
      w.Elsewhere i t → t ∈ r.existingDates
  | .act i .interrupt, w => ∀ r, w.runs i = some r → r.pc = .flush .clear → r.pendingRows = []
  | .act _ .kill, _ => True

end World

/-! ### The invariant -/

/-- A call knows the times of its own pending rows. -/
def Run.KnowsOwn (r : Run) : Prop :=
  match r.pc with
  | .called => r.pendingRows = []
  | .loaded => r.pendingRows = []
  | .flush .save => r.pendingRows = []
  | .final .save _ => r.pendingRows = []
  | .final _ _ => True
  | .added t => ∀ d ∈ dates r.pendingRows, d = t ∨ d ∈ r.existingDates
  | _ => ∀ d ∈ dates r.pendingRows, d ∈ r.existingDates

/-- No time is twice among the rows that are written or pending. -/
structure OneRow (prices : List PriceRow) (runs : ℕ → Option Run) : Prop where
  nodup : (dates prices).Nodup
  pending : ∀ i r, runs i = some r → (dates (prices ++ r.unwritten)).Nodup
  apart : ∀ i j r r', i ≠ j → runs i = some r → runs j = some r' →
    (dates r.unwritten).Disjoint (dates r'.unwritten)
  own : ∀ i r, runs i = some r → r.KnowsOwn

lemma Run.mem_unwritten {r : Run} {t : ℤ} (h : t ∈ dates r.unwritten) :
    t ∈ dates r.pendingRows := by
  rw [Run.unwritten] at h
  split at h
  · cases h
  · cases h
  · exact h

section Step

variable {prices rows : List PriceRow} {runs : ℕ → Option Run}

/-- One call takes a step. -/
lemma OneRow.set (h : OneRow prices runs) {i : ℕ} {r : Run}
    (hnodup : (dates (prices ++ r.unwritten)).Nodup)
    (hapart : ∀ j r', j ≠ i → runs j = some r' →
      (dates r.unwritten).Disjoint (dates r'.unwritten))
    (hown : r.KnowsOwn) : OneRow prices (Function.update runs i (some r)) := by
  refine ⟨h.nodup, fun j r' hj => ?_, fun j k r' r'' hne hj hk => ?_, fun j r' hj => ?_⟩
  · rcases eq_or_ne j i with rfl | hji
    · rw [Function.update_self] at hj
      cases hj
      exact hnodup
    · rw [Function.update_of_ne hji] at hj
      exact h.pending j r' hj
  · rcases eq_or_ne j i with rfl | hji
    · rw [Function.update_self] at hj
      rw [Function.update_of_ne hne.symm] at hk
      cases hj
      exact hapart k r'' hne.symm hk
    · rw [Function.update_of_ne hji] at hj
      rcases eq_or_ne k i with rfl | hki
      · rw [Function.update_self] at hk
        cases hk
        exact (hapart j r' hji hj).symm
      · rw [Function.update_of_ne hki] at hk
        exact h.apart j k r' r'' hne hj hk
  · rcases eq_or_ne j i with rfl | hji
    · rw [Function.update_self] at hj
      cases hj
      exact hown
    · rw [Function.update_of_ne hji] at hj
      exact h.own j r' hj

/-- One call ends. -/
lemma OneRow.ended (h : OneRow prices runs) (i : ℕ) :
    OneRow prices (Function.update runs i none) := by
  have hold : ∀ j r, Function.update runs i none j = some r → runs j = some r := by
    intro j r hj
    rcases eq_or_ne j i with rfl | hji
    · rw [Function.update_self] at hj
      cases hj
    · rwa [Function.update_of_ne hji] at hj
  exact ⟨h.nodup, fun j r hj => h.pending j r (hold j r hj),
    fun j k r r' hne hj hk => h.apart j k r r' hne (hold j r hj) (hold k r' hk),
    fun j r hj => h.own j r (hold j r hj)⟩

/-- A call whose pending rows stay as they are takes a step. -/
lemma OneRow.keep (h : OneRow prices runs) {i : ℕ} {r r' : Run} (hr : runs i = some r)
    (hun : r'.unwritten = r.unwritten) (hown : r'.KnowsOwn) :
    OneRow prices (Function.update runs i (some r')) := by
  refine h.set ?_ (fun j r'' hne hj => ?_) hown
  · rw [hun]
    exact h.pending i r hr
  · rw [hun]
    exact h.apart i j r r'' hne.symm hr hj

/-- Rows reach the file. -/
lemma OneRow.append (h : OneRow prices runs) (hnodup : (dates (prices ++ rows)).Nodup)
    (hapart : ∀ j r, runs j = some r → (dates rows).Disjoint (dates r.unwritten)) :
    OneRow (prices ++ rows) runs := by
  refine ⟨hnodup, fun j r hj => ?_, h.apart, h.own⟩
  have hpending := h.pending j r hj
  rw [dates_append] at hpending ⊢
  refine hnodup.append hpending.of_append_right fun t ht hun => ?_
  rw [dates_append, List.mem_append] at ht
  rcases ht with ht | ht
  · exact List.disjoint_of_nodup_append hpending ht hun
  · exact hapart j r hj ht hun

/-- A flush writes the rows that are pending. -/
lemma OneRow.written (h : OneRow prices runs) {i : ℕ} {r r' : Run} (hr : runs i = some r)
    (hun : r.unwritten = r.pendingRows) (hun' : r'.unwritten = []) (hown : r'.KnowsOwn) :
    OneRow (prices ++ r.pendingRows) (Function.update runs i (some r')) := by
  have hset : OneRow prices (Function.update runs i (some r')) := by
    refine h.set ?_ (fun j r'' _ _ => ?_) hown
    · rw [hun', List.append_nil]
      exact h.nodup
    · rw [hun']
      exact List.disjoint_nil_left _
  refine hset.append ?_ fun j r'' hj => ?_
  · have hpending := h.pending i r hr
    rwa [hun] at hpending
  · rcases eq_or_ne j i with rfl | hji
    · rw [Function.update_self] at hj
      cases hj
      rw [hun']
      exact List.disjoint_nil_right _
    · rw [Function.update_of_ne hji] at hj
      have hdisj := h.apart i j r r'' hji.symm hr hj
      rwa [hun] at hdisj

/-- A price with a new time, which no other writer has. -/
lemma OneRow.taken (h : OneRow prices runs) {i : ℕ} {r : Run} (hr : runs i = some r)
    {e : PriceEntry} (hpc : r.pc = .entry e) {t : ℤ} (hnew : t ∉ r.existingDates)
    (hfile : t ∉ dates prices)
    (hothers : ∀ j r', j ≠ i → runs j = some r' → t ∉ dates r'.pendingRows) :
    OneRow prices (Function.update runs i (some { r with
      pendingRows := r.pendingRows ++ [⟨some t, e.usd, e.eur⟩], pc := .added t })) := by
  have hun : r.unwritten = r.pendingRows := by rw [Run.unwritten, hpc]
  have hown := h.own i r hr
  have hpending := h.pending i r hr
  rw [Run.KnowsOwn, hpc] at hown
  rw [hun, dates_append] at hpending
  have hdates : dates (r.pendingRows ++ [⟨some t, e.usd, e.eur⟩]) = dates r.pendingRows ++ [t] := by
    rw [dates_append]
    rfl
  refine h.set ?_ (fun j r' hne hj => ?_) fun u hu => ?_
  · change (dates (prices ++ (r.pendingRows ++ [⟨some t, e.usd, e.eur⟩]))).Nodup
    rw [dates_append, hdates, ← List.append_assoc]
    refine hpending.append (List.nodup_singleton t) (List.disjoint_singleton.mpr fun ht => ?_)
    rcases List.mem_append.mp ht with ht | ht
    · exact hfile ht
    · exact hnew (hown t ht)
  · change (dates (r.pendingRows ++ [⟨some t, e.usd, e.eur⟩])).Disjoint (dates r'.unwritten)
    rw [hdates, List.disjoint_append_left]
    refine ⟨?_, List.singleton_disjoint.mpr fun ht => hothers j r' hne hj (Run.mem_unwritten ht)⟩
    have hdisj := h.apart i j r r' hne.symm hr hj
    rwa [hun] at hdisj
  · change u ∈ dates (r.pendingRows ++ [⟨some t, e.usd, e.eur⟩]) at hu
    rw [hdates, List.mem_append, List.mem_singleton] at hu
    exact hu.symm.imp_right (hown u)

variable {w : World}

/-- A step of one of the calls. -/
lemma oneRow_go (hw : OneRow w.disk.prices w.runs) {i : ℕ} {r : Run} (hr : w.runs i = some r)
    (answer : Answer) (elapsed : Bool)
    (hfresh : ∀ e t, r.pc = .entry e → e.time = some t → w.Elsewhere i t → t ∈ r.existingDates) :
    OneRow (w.after i (r.go answer elapsed w.disk)).disk.prices
      (w.after i (r.go answer elapsed w.disk)).runs := by
  have hown := hw.own i r hr
  rw [Run.go.eq_def]
  rw [Run.KnowsOwn] at hown
  cases hpc : r.pc with
  | called =>
      have hun : r.unwritten = r.pendingRows := by rw [Run.unwritten, hpc]
      rw [hpc] at hown
      simp only
      split_ifs
      · exact hw.ended i
      · exact hw.ended i
      · exact hw.keep hr hun.symm hown
  -- before the loop nothing is pending, whatever the file holds
  | loaded =>
      have hun : r.unwritten = r.pendingRows := by rw [Run.unwritten, hpc]
      rw [hpc] at hown
      simp only
      cases hds : existingDates w.disk.prices with
      | none => exact hw.ended i
      | some ds =>
          refine hw.keep hr hun.symm fun u hu => ?_
          simp only [hown, dates_nil] at hu
          cases hu
  -- a request is made here, or the loop is over; a row is taken up only later
  | head =>
      have hun : r.unwritten = r.pendingRows := by rw [Run.unwritten, hpc]
      rw [hpc] at hown
      simp only
      split_ifs
      · cases answer with
        | rateLimited => exact hw.keep hr hun.symm trivial
        | fetchError => exact hw.keep hr hun.symm trivial
        | price e =>
            cases e with
            | none => exact hw.keep hr hun.symm hown
            | some e => exact hw.keep hr hun.symm hown
      · exact hw.keep hr hun.symm trivial
  | entry e =>
      have hun : r.unwritten = r.pendingRows := by rw [Run.unwritten, hpc]
      rw [hpc] at hown
      simp only
      cases htime : e.time with
      | none => exact hw.keep hr hun.symm hown
      | some t =>
          by_cases hmem : t ∈ r.existingDates
          · simp only [hmem, if_true]
            exact hw.keep hr hun.symm hown
          · simp only [hmem, if_false]
            -- the condition: a time that the call does not know is nowhere else
            have hnot : ¬ w.Elsewhere i t := fun helse => hmem (hfresh e t hpc htime helse)
            exact hw.taken hr hpc hmem (fun ht => hnot (.inl ht))
              fun j r' hne hj ht => hnot (.inr ⟨j, r', hne, hj, ht⟩)
  | added t =>
      have hun : r.unwritten = r.pendingRows := by rw [Run.unwritten, hpc]
      rw [hpc] at hown
      refine hw.keep hr hun.symm fun u hu => ?_
      simpa using hown u hu
  | advance =>
      have hun : r.unwritten = r.pendingRows := by rw [Run.unwritten, hpc]
      rw [hpc] at hown
      exact hw.keep hr hun.symm hown
  | advanced =>
      have hun : r.unwritten = r.pendingRows := by rw [Run.unwritten, hpc]
      rw [hpc] at hown
      simp only
      split_ifs
      · exact hw.keep hr hun.symm hown
      · exact hw.keep hr hun.symm hown
  -- the rows move from pending to written, so they stay among the ones counted
  | flush f =>
      rw [hpc] at hown
      cases f with
      | write => exact hw.written hr (by rw [Run.unwritten, hpc]) rfl hown
      | clear => exact hw.keep hr (by rw [Run.unwritten, Run.unwritten, hpc]) rfl
      | save =>
          refine hw.keep hr (by rw [Run.unwritten, Run.unwritten, hpc]) fun u hu => ?_
          simp only [hown, dates_nil] at hu
          cases hu
  | final f x =>
      rw [hpc] at hown
      cases f with
      | write => exact hw.written hr (by rw [Run.unwritten, hpc]) rfl trivial
      | clear => exact hw.keep hr (by rw [Run.unwritten, Run.unwritten, hpc]) rfl
      | save => exact hw.ended i

/-- A `KeyboardInterrupt` in one of the calls. -/
lemma oneRow_interrupt (hw : OneRow w.disk.prices w.runs) {i : ℕ} {r : Run}
    (hr : w.runs i = some r) (hbetween : r.pc = .flush .clear → r.pendingRows = []) :
    OneRow (w.after i (w.disk, r.interrupt)).disk.prices
      (w.after i (w.disk, r.interrupt)).runs := by
  have hloop : r.unwritten = r.pendingRows →
      OneRow w.disk.prices
        (Function.update w.runs i (some { r with pc := .final .write .raised })) :=
    fun hun => hw.keep hr hun.symm trivial
  rw [Run.interrupt]
  cases hpc : r.pc with
  | called => exact hw.ended i
  | loaded => exact hw.ended i
  | final f x => exact hw.ended i
  | flush f =>
      refine hloop ?_
      cases f with
      | clear => rw [Run.unwritten, hpc, hbetween hpc]
      | write => rw [Run.unwritten, hpc]
      | save => rw [Run.unwritten, hpc]
  | _ => exact hloop (by rw [Run.unwritten, hpc])

/-- A live poll. -/
lemma oneRow_poll (hw : OneRow w.disk.prices w.runs) {stopped : Bool} {response : Response}
    (hfresh : w.newTimes (.poll stopped response)) :
    OneRow (fetchAndWrite stopped response w.disk.prices) w.runs := by
  rw [fetchAndWrite.eq_def]
  cases stopped with
  | true => exact hw
  | false =>
      cases response with
      | rateLimited => exact hw
      | fetchError => exact hw
      | data e =>
          cases e with
          | none => exact hw
          | some e =>
              cases htime : e.time with
              | none =>
                  have hrow : dates (parsePrices e) = [] := by simp [parsePrices, dates, htime]
                  refine hw.append ?_ fun j r _ => ?_
                  · rw [dates_append, hrow, List.append_nil]
                    exact hw.nodup
                  · rw [hrow]
                    exact List.disjoint_nil_left _
              | some t =>
                  obtain ⟨hfile, hruns⟩ := hfresh rfl e t rfl htime
                  have hrow : dates (parsePrices e) = [t] := by simp [parsePrices, dates, htime]
                  refine hw.append ?_ fun j r hj => ?_
                  · rw [dates_append, hrow]
                    exact hw.nodup.append (List.nodup_singleton t)
                      (List.disjoint_singleton.mpr hfile)
                  · rw [hrow]
                    exact List.singleton_disjoint.mpr fun ht => hruns j r hj (Run.mem_unwritten ht)

end Step

/-! ### The account and the program -/

/-- The call has read the file, and can still take a time. -/
def Run.Looking (r : Run) : Prop :=
  match r.pc with
  | .called => False
  | .loaded => False
  | .final _ _ => False
  | _ => True

/-- It does not take the time again. -/
def Run.Knows (r : Run) (t : ℤ) : Prop := t ∈ r.existingDates ∨ r.pc = .added t

/-- What a call has been told is in the file or pending, and it knows the times it should. -/
structure CallTold (prices : List PriceRow) (k : World.Heard) (i : ℕ) (r : Run) : Prop where
  early : r.pc = .called ∨ r.pc = .loaded → k.held i = ∅
  held : ∀ t ∈ k.held i, t ∈ dates prices ∨ t ∈ dates r.unwritten
  pending : ∀ t ∈ dates r.pendingRows, t ∈ k.held i ∨ t ∈ dates prices
  seen : r.Looking → ∀ t ∈ k.seen i, r.Knows t
  known : r.Looking → ∀ t, r.Knows t → t ∈ dates prices ∨ t ∈ dates r.unwritten

/-- The account is that of the file and of the calls. -/
structure Told (prices : List PriceRow) (runs : ℕ → Option Run) (k : World.Heard) : Prop where
  filed : ∀ t, t ∈ k.filed ↔ t ∈ dates prices
  idle : ∀ i, runs i = none → k.held i = ∅
  calls : ∀ i r, runs i = some r → CallTold prices k i r

section Account

variable {prices prices' : List PriceRow} {runs : ℕ → Option Run} {k k' : World.Heard} {i : ℕ}
  {r r' : Run}

/-- Another writer takes a step. -/
lemma CallTold.other (h : CallTold prices k i r) (hprices : dates prices ⊆ dates prices')
    (hk : k'.held i = k.held i ∧ k'.seen i = k.seen i) : CallTold prices' k' i r := by
  obtain ⟨hheld, hseen⟩ := hk
  refine ⟨fun he => hheld.trans (h.early he), fun t ht => ?_, fun t ht => ?_, fun hl t ht => ?_,
    fun hl t ht => (h.known hl t ht).imp_left (@hprices t)⟩
  · exact (h.held t (hheld ▸ ht)).imp_left (@hprices t)
  · rw [hheld]
    exact (h.pending t ht).imp_right (@hprices t)
  · exact h.seen hl t (hseen ▸ ht)

/-- The call moves on with the rows and the times that it has. -/
lemma CallTold.keep (h : CallTold prices k i r) (hrows : r'.pendingRows = r.pendingRows)
    (hun : r'.unwritten = r.unwritten)
    (hearly : r'.pc = .called ∨ r'.pc = .loaded → r.pc = .called ∨ r.pc = .loaded)
    (hlook : r'.Looking → r.Looking ∧ ∀ t, r'.Knows t ↔ r.Knows t) : CallTold prices k i r' := by
  refine ⟨fun he => h.early (hearly he), fun t ht => hun ▸ h.held t ht, fun t ht => ?_,
    fun hl t ht => ?_, fun hl t ht => ?_⟩
  · exact h.pending t (hrows ▸ ht)
  · exact ((hlook hl).2 t).mpr (h.seen (hlook hl).1 t ht)
  · exact hun ▸ h.known (hlook hl).1 t (((hlook hl).2 t).mp ht)

/-- One call takes a step. -/
lemma Told.set (h : Told prices runs k) (hprices : dates prices ⊆ dates prices')
    (hfiled : ∀ t, t ∈ k'.filed ↔ t ∈ dates prices')
    (hk : ∀ j, j ≠ i → k'.held j = k.held j ∧ k'.seen j = k.seen j)
    (hown : CallTold prices' k' i r') : Told prices' (Function.update runs i (some r')) k' := by
  refine ⟨hfiled, fun j hj => ?_, fun j r hj => ?_⟩
  · rcases eq_or_ne j i with rfl | hji
    · rw [Function.update_self] at hj
      cases hj
    · rw [Function.update_of_ne hji] at hj
      exact (hk j hji).1.trans (h.idle j hj)
  · rcases eq_or_ne j i with rfl | hji
    · rw [Function.update_self] at hj
      cases hj
      exact hown
    · rw [Function.update_of_ne hji] at hj
      exact (h.calls j r hj).other hprices (hk j hji)

/-- One call goes on, and nothing is told. -/
lemma Told.go (h : Told prices runs k) (hown : CallTold prices k i r') :
    Told prices (Function.update runs i (some r')) k :=
  h.set (fun _ ht => ht) h.filed (fun _ _ => ⟨rfl, rfl⟩) hown

/-- One call ends. -/
lemma Told.ended (h : Told prices runs k) (hfiled : k'.filed = k.filed) (hheld : k'.held i = ∅)
    (hk : ∀ j, j ≠ i → k'.held j = k.held j ∧ k'.seen j = k.seen j) :
    Told prices (Function.update runs i none) k' := by
  refine ⟨hfiled ▸ h.filed, fun j hj => ?_, fun j r hj => ?_⟩
  · rcases eq_or_ne j i with rfl | hji
    · exact hheld
    · rw [Function.update_of_ne hji] at hj
      exact (hk j hji).1.trans (h.idle j hj)
  · rcases eq_or_ne j i with rfl | hji
    · rw [Function.update_self] at hj
      cases hj
    · rw [Function.update_of_ne hji] at hj
      exact (h.calls j r hj).other (fun _ ht => ht) (hk j hji)

/-- What the account of the others is behind a step of the call. -/
lemma record_other {j : ℕ} (hji : j ≠ i) {x : World.Happening}
    (hx : x = .looked i ∨ (∃ t, x = .received i t) ∨ x = .appended i ∨ x = .ended i) :
    (k.record x).held j = k.held j ∧ (k.record x).seen j = k.seen j := by
  rcases hx with rfl | ⟨t, rfl⟩ | rfl | rfl <;> simp [World.Heard.record, hji]

/-- A call appends its rows. -/
lemma Told.appended (h : Told prices runs k) (hr : runs i = some r)
    (hun : r.unwritten = r.pendingRows) (hrows : r'.pendingRows = r.pendingRows)
    (hearly : ¬ (r'.pc = .called ∨ r'.pc = .loaded))
    (hlook : r'.Looking → r.Looking ∧ ∀ t, r'.Knows t ↔ r.Knows t) :
    Told (prices ++ r.pendingRows) (Function.update runs i (some r')) (k.record (.appended i)) := by
  have hcall := h.calls i r hr
  have hdates : ∀ t, t ∈ dates (prices ++ r.pendingRows)
      ↔ t ∈ dates prices ∨ t ∈ dates r.pendingRows := fun t => by
    rw [dates_append, List.mem_append]
  have hheld : (k.record (.appended i)).held i = ∅ := Function.update_self ..
  refine h.set (fun t ht => (hdates t).mpr (.inl ht)) (fun t => ?_)
    (fun j hji => record_other hji (.inr (.inr (.inl rfl))))
    ⟨fun he => absurd he hearly, fun t ht => ?_,
      fun t ht => .inr ((hdates t).mpr (.inr (hrows ▸ ht))), fun hl t ht => ?_, fun hl t ht => ?_⟩
  · -- what the call has been told is in the file now
    rw [World.Heard.record, Finset.mem_union, hdates, h.filed]
    refine ⟨fun ht => ht.elim .inl fun ht => ?_, fun ht => ht.elim .inl fun ht => ?_⟩
    · exact (hcall.held t ht).imp_right fun ht => hun ▸ ht
    · exact (hcall.pending t ht).symm
  · rw [hheld] at ht
    cases ht
  · exact ((hlook hl).2 t).mpr (hcall.seen (hlook hl).1 t ht)
  · exact .inl ((hdates t).mpr (hun ▸ hcall.known (hlook hl).1 t (((hlook hl).2 t).mp ht)))

/-- A call meets a time that it knows. -/
lemma Told.met (h : Told prices runs k) (hr : runs i = some r) {e : PriceEntry}
    (hpc : r.pc = .entry e) {t : ℤ} (hmem : t ∈ r.existingDates) :
    Told prices (Function.update runs i (some { r with pc := .advance }))
      (k.record (.received i t)) := by
  have hcall := h.calls i r hr
  have hun : r.unwritten = r.pendingRows := by rw [Run.unwritten, hpc]
  have hlook : r.Looking := by simp [Run.Looking, hpc]
  have hknows : ∀ u, ({ r with pc := .advance } : Run).Knows u ↔ r.Knows u := fun u => by
    simp [Run.Knows, hpc]
  have hheld : (k.record (.received i t)).held i = insert t (k.held i) := Function.update_self ..
  have hseen : (k.record (.received i t)).seen i = insert t (k.seen i) := Function.update_self ..
  have hin : t ∈ dates prices ∨ t ∈ dates r.pendingRows := hun ▸ hcall.known hlook t (.inl hmem)
  refine h.set (fun _ ht => ht) h.filed (fun j hji => record_other hji (.inr (.inl ⟨t, rfl⟩)))
    ⟨(by rintro (he | he) <;> cases he), fun u hu => ?_, fun u hu => ?_, fun _ u hu => ?_,
      fun _ u hu => ?_⟩
  · rw [hheld, Finset.mem_insert] at hu
    rcases hu with rfl | hu
    · exact hin
    · exact hun ▸ hcall.held u hu
  · rw [hheld, Finset.mem_insert]
    exact (hcall.pending u hu).imp_left .inr
  · rw [hseen, Finset.mem_insert] at hu
    rcases hu with rfl | hu
    · exact .inl hmem
    · exact (hknows u).mpr (hcall.seen hlook u hu)
  · exact hun ▸ hcall.known hlook u ((hknows u).mp hu)

/-- A call takes up a new time. -/
lemma Told.took (h : Told prices runs k) (hr : runs i = some r) {e : PriceEntry}
    (hpc : r.pc = .entry e) (t : ℤ) :
    Told prices (Function.update runs i (some { r with
        pendingRows := r.pendingRows ++ [⟨some t, e.usd, e.eur⟩], pc := .added t }))
      (k.record (.received i t)) := by
  have hcall := h.calls i r hr
  have hun : r.unwritten = r.pendingRows := by rw [Run.unwritten, hpc]
  have hlook : r.Looking := by simp [Run.Looking, hpc]
  have hdates : ∀ u, u ∈ dates (r.pendingRows ++ [⟨some t, e.usd, e.eur⟩])
      ↔ u ∈ dates r.pendingRows ∨ u = t := fun u => by
    rw [dates_append, List.mem_append]
    simp [dates]
  have hheld : (k.record (.received i t)).held i = insert t (k.held i) := Function.update_self ..
  have hseen : (k.record (.received i t)).seen i = insert t (k.seen i) := Function.update_self ..
  have hknows : ∀ u, r.Knows u → u ∈ r.existingDates := by
    rintro u (hu | hu)
    · exact hu
    · rw [hpc] at hu
      cases hu
  refine h.set (fun _ ht => ht) h.filed (fun j hji => record_other hji (.inr (.inl ⟨t, rfl⟩)))
    ⟨(by rintro (he | he) <;> cases he), fun u hu => ?_, fun u hu => ?_, fun _ u hu => ?_,
      fun _ u hu => ?_⟩
  · rw [hheld, Finset.mem_insert] at hu
    rcases hu with rfl | hu
    · exact .inr ((hdates u).mpr (.inr rfl))
    · exact (hcall.held u hu).imp_right fun hu => (hdates u).mpr (.inl (hun ▸ hu))
  · rw [hheld, Finset.mem_insert]
    rcases (hdates u).mp hu with hu | rfl
    · exact (hcall.pending u hu).imp_left .inr
    · exact .inl (.inl rfl)
  · rw [hseen, Finset.mem_insert] at hu
    rcases hu with rfl | hu
    · exact .inr rfl
    · exact .inl (hknows u (hcall.seen hlook u hu))
  · rcases hu with hu | hu
    · exact (hcall.known hlook u (.inl hu)).imp_right fun hu => (hdates u).mpr (.inl (hun ▸ hu))
    · cases hu
      exact .inr ((hdates t).mpr (.inr rfl))

/-- A call reads the file. -/
lemma Told.looked (h : Told prices runs k) (hr : runs i = some r) (hpc : r.pc = .loaded)
    {ds : Finset ℤ} (hds : existingDates prices = some ds) :
    Told prices (Function.update runs i (some { r with existingDates := ds, pc := .head }))
      (k.record (.looked i)) := by
  have hcall := h.calls i r hr
  have hheld : (k.record (.looked i)).held i = ∅ := hcall.early (.inr hpc)
  have hseen : (k.record (.looked i)).seen i = k.filed := Function.update_self ..
  refine h.set (fun _ ht => ht) h.filed (fun j hji => record_other hji (.inl rfl))
    ⟨(by rintro (he | he) <;> cases he), fun u hu => ?_, hcall.pending, fun _ u hu => ?_,
      fun _ u hu => ?_⟩
  · rw [hheld] at hu
    cases hu
  · rw [hseen, h.filed] at hu
    exact .inl ((mem_existingDates hds u).mp hu)
  · rcases hu with hu | hu
    · exact .inl ((mem_existingDates hds u).mpr hu)
    · cases hu

/-- A call forgets the rows that it has appended. -/
lemma CallTold.cleared (h : CallTold prices k i r) (hun : r.unwritten = [])
    (hrows : r'.pendingRows = []) (hun' : r'.unwritten = [])
    (hearly : ¬ (r'.pc = .called ∨ r'.pc = .loaded))
    (hlook : r'.Looking → r.Looking ∧ ∀ t, r'.Knows t ↔ r.Knows t) : CallTold prices k i r' := by
  refine ⟨fun he => absurd he hearly, fun t ht => ?_, fun t ht => ?_, fun hl t ht => ?_,
    fun hl t ht => ?_⟩
  · rw [hun']
    exact hun ▸ h.held t ht
  · rw [hrows] at ht
    cases ht
  · exact ((hlook hl).2 t).mpr (h.seen (hlook hl).1 t ht)
  · rw [hun']
    exact hun ▸ h.known (hlook hl).1 t (((hlook hl).2 t).mp ht)

/-- A call is interrupted in its loop. -/
lemma CallTold.raised (h : CallTold prices k i r) :
    CallTold prices k i { r with pc := .final .write .raised } :=
  ⟨(by rintro (he | he) <;> cases he),
    fun t ht => (h.held t ht).imp_right fun ht => (Run.mem_unwritten ht : t ∈ dates r.pendingRows),
    h.pending, False.elim, False.elim⟩

variable {w : World}

/-- A step of one of the calls. -/
lemma told_go (hw : Told w.disk.prices w.runs k) (hr : w.runs i = some r) (answer : Answer)
    (elapsed : Bool) :
    Told (w.after i (r.go answer elapsed w.disk)).disk.prices
      (w.after i (r.go answer elapsed w.disk)).runs
      ((World.callHappening i r).elim k k.record) := by
  have hcall := hw.calls i r hr
  rw [Run.go.eq_def, World.callHappening.eq_def]
  cases hpc : r.pc with
  -- the call ends at once, or goes on to read the file
  | called =>
      have hun : r.unwritten = r.pendingRows := by rw [Run.unwritten, hpc]
      simp only
      split_ifs
      · exact hw.ended rfl (hcall.early (.inl hpc)) fun _ _ => ⟨rfl, rfl⟩
      · exact hw.ended rfl (hcall.early (.inl hpc)) fun _ _ => ⟨rfl, rfl⟩
      · exact hw.go (hcall.keep rfl hun.symm (fun _ => .inl hpc) False.elim)
  | loaded =>
      simp only
      cases hds : existingDates w.disk.prices with
      -- the call ends: `_existing_dates` raises
      | none =>
          exact hw.ended rfl (hcall.early (.inr hpc)) fun j hji => record_other hji (.inl rfl)
      | some ds => exact hw.looked hr hpc hds
  | head =>
      have hun : r.unwritten = r.pendingRows := by rw [Run.unwritten, hpc]
      have hlook : r.Looking := by simp [Run.Looking, hpc]
      simp only
      split_ifs
      · cases answer with
        -- the loop ends, and the rest is for the `finally` block
        | rateLimited =>
            exact hw.go (hcall.keep rfl hun.symm (by simp) False.elim)
        | fetchError =>
            exact hw.go (hcall.keep rfl hun.symm (by simp) False.elim)
        | price e =>
            cases e with
            | none =>
                exact hw.go (hcall.keep rfl hun.symm (by simp) fun _ =>
                  ⟨hlook, fun t => by simp [Run.Knows, hpc]⟩)
            | some e =>
                exact hw.go (hcall.keep rfl hun.symm (by simp) fun _ =>
                  ⟨hlook, fun t => by simp [Run.Knows, hpc]⟩)
      · exact hw.go (hcall.keep rfl hun.symm (by simp) False.elim)
  | entry e =>
      have hun : r.unwritten = r.pendingRows := by rw [Run.unwritten, hpc]
      have hlook : r.Looking := by simp [Run.Looking, hpc]
      simp only
      cases htime : e.time with
      | none =>
          exact hw.go (hcall.keep rfl hun.symm (by simp) fun _ =>
            ⟨hlook, fun t => by simp [Run.Knows, hpc]⟩)
      | some t =>
          -- a known time is noted, and not taken again
          by_cases hmem : t ∈ r.existingDates
          · simp only [hmem, if_true]
            exact hw.met hr hpc hmem
          · simp only [hmem, if_false]
            exact hw.took hr hpc t
  | added t =>
      have hun : r.unwritten = r.pendingRows := by rw [Run.unwritten, hpc]
      have hlook : r.Looking := by simp [Run.Looking, hpc]
      exact hw.go (hcall.keep rfl hun.symm (by simp) fun _ =>
        ⟨hlook, fun u => by simp [Run.Knows, hpc, or_comm, eq_comm]⟩)
  | advance =>
      have hun : r.unwritten = r.pendingRows := by rw [Run.unwritten, hpc]
      have hlook : r.Looking := by simp [Run.Looking, hpc]
      exact hw.go (hcall.keep rfl hun.symm (by simp) fun _ =>
        ⟨hlook, fun t => by simp [Run.Knows, hpc]⟩)
  | advanced =>
      have hun : r.unwritten = r.pendingRows := by rw [Run.unwritten, hpc]
      have hlook : r.Looking := by simp [Run.Looking, hpc]
      simp only
      split_ifs
      · exact hw.go (hcall.keep rfl hun.symm (by simp) fun _ =>
          ⟨hlook, fun t => by simp [Run.Knows, hpc]⟩)
      · exact hw.go (hcall.keep rfl hun.symm (by simp) fun _ =>
          ⟨hlook, fun t => by simp [Run.Knows, hpc]⟩)
  | flush f =>
      have hlook : r.Looking := by simp [Run.Looking, hpc]
      cases f with
      -- the file learns of the pending times
      | write =>
          exact hw.appended hr (by rw [Run.unwritten, hpc]) rfl (by simp) fun _ =>
            ⟨hlook, fun t => by simp [Run.Knows, hpc]⟩
      | clear =>
          exact hw.go (hcall.cleared (by rw [Run.unwritten, hpc]) rfl rfl (by simp) fun _ =>
            ⟨hlook, fun t => by simp [Run.Knows, hpc]⟩)
      | save =>
          exact hw.go (hcall.keep rfl (by rw [Run.unwritten, Run.unwritten, hpc]) (by simp) fun _ =>
            ⟨hlook, fun t => by simp [Run.Knows, hpc]⟩)
  -- the `finally` block: the same statements, behind which the call ends
  | final f x =>
      cases f with
      | write => exact hw.appended hr (by rw [Run.unwritten, hpc]) rfl (by simp) False.elim
      | clear =>
          exact hw.go (hcall.cleared (by rw [Run.unwritten, hpc]) rfl rfl (by simp) False.elim)
      | save =>
          exact hw.ended rfl (Function.update_self ..) fun j hji =>
            record_other hji (.inr (.inr (.inr rfl)))

/-- A `KeyboardInterrupt` in one of the calls. -/
lemma told_interrupt (hw : Told w.disk.prices w.runs k) (hr : w.runs i = some r) :
    Told (w.after i (w.disk, r.interrupt)).disk.prices (w.after i (w.disk, r.interrupt)).runs
      ((World.happening (.act i .interrupt) w).elim k k.record) := by
  have hcall := hw.calls i r hr
  have hloop := hw.go hcall.raised
  rw [Run.interrupt, World.happening, hr, Option.bind_some]
  cases hpc : r.pc with
  | called => exact hw.ended rfl (hcall.early (.inl hpc)) fun _ _ => ⟨rfl, rfl⟩
  | loaded => exact hw.ended rfl (hcall.early (.inr hpc)) fun _ _ => ⟨rfl, rfl⟩
  | final f x =>
      exact hw.ended rfl (Function.update_self ..) fun j hji =>
        record_other hji (.inr (.inr (.inr rfl)))
  | _ => exact hloop

end Account

/-! ### Runs -/

/-- What a step keeps. -/
lemma oneRow_next {w w' : World} (hw : OneRow w.disk.prices w.runs) {l : World.Label}
    (hl : World.newTimes l w) (h : World.next l w = some w') : OneRow w'.disk.prices w'.runs := by
  cases l with
  | poll stopped response =>
      cases h
      exact oneRow_poll hw hl
  | call i startTimestamp endTimestamp =>
      rw [World.next] at h
      split at h <;> cases h
      refine hw.set ?_ (fun j r' _ _ => ?_) rfl
      · change (dates (w.disk.prices ++ [])).Nodup
        rw [List.append_nil]
        exact hw.nodup
      · exact List.disjoint_nil_left _
  | act i a =>
      rw [World.next, Option.map_eq_some_iff] at h
      obtain ⟨r, hr, rfl⟩ := h
      cases a with
      | go answer elapsed => exact oneRow_go hw hr answer elapsed fun e t => hl r e t hr
      | interrupt => exact oneRow_interrupt hw hr (hl r hr)
      | kill => exact hw.ended i

/-- The account goes on being the one of the program. -/
lemma told_next {w w' : World} {k : World.Heard} (hw : Told w.disk.prices w.runs k)
    {l : World.Label} (h : World.next l w = some w') :
    Told w'.disk.prices w'.runs ((World.happening l w).elim k k.record) := by
  have hdates : ∀ (e : PriceEntry) (t : ℤ), t ∈ dates (w.disk.prices ++ parsePrices e)
      ↔ t ∈ dates w.disk.prices ∨ e.time = some t := fun e t => by
    rw [dates_append, List.mem_append]
    cases htime : e.time <;> simp [dates, parsePrices, htime, eq_comm]
  cases l with
  -- a poll writes what it brings, whatever is in the file
  | poll stopped response =>
      cases h
      cases stopped with
      | true => cases response <;> exact hw
      | false =>
          cases response with
          | rateLimited => exact hw
          | fetchError => exact hw
          | data e =>
              cases e with
              | none => exact hw
              | some e =>
                  refine ⟨fun t => ?_, fun i hi => ?_, fun i r hr => (hw.calls i r hr).other
                    (fun t ht => (hdates e t).mpr (.inl ht)) ?_⟩
                  · refine Iff.trans ?_ (hdates e t).symm
                    rw [← hw.filed]
                    cases htime : e.time <;>
                      simp [World.happening, htime, World.Heard.record, eq_comm, or_comm]
                  · cases htime : e.time <;>
                      simpa [World.happening, htime, World.Heard.record] using hw.idle i hi
                  · cases htime : e.time <;> simp [World.happening, htime, World.Heard.record]
  -- a call begins with nothing read and nothing pending
  | call i startTimestamp endTimestamp =>
      rw [World.next] at h
      split at h <;> cases h
      next hi =>
      refine hw.go ⟨fun _ => hw.idle i hi, fun t ht => ?_, fun t ht => ?_, False.elim, False.elim⟩
      · rw [hw.idle i hi] at ht
        cases ht
      · cases ht
  | act i a =>
      rw [World.next, Option.map_eq_some_iff] at h
      obtain ⟨r, hr, rfl⟩ := h
      have hcall := hw.calls i r hr
      cases a with
      | go answer elapsed =>
          have hgo := told_go hw hr answer elapsed
          rwa [World.happening, hr, Option.bind_some]
      | interrupt => exact told_interrupt hw hr
      | kill => exact hw.ended rfl (Function.update_self ..) fun j hji =>
          record_other hji (.inr (.inr (.inr rfl)))

/-- The times that the condition lets through are new, or known to be there. -/
lemma newTimes_of_apart {w : World} {k : World.Heard} (hw : Told w.disk.prices w.runs k)
    {l : World.Label} (hl : World.apart l (w, k)) : World.newTimes l w := by
  obtain ⟨hshared, hbetween⟩ := hl
  cases l with
  | poll stopped response =>
      intro hstopped e t hdata htime
      subst hstopped hdata
      obtain ⟨hfiled, hheld⟩ := hshared (.polled t) (by simp [World.happening, htime])
      rw [hw.filed] at hfiled
      exact ⟨hfiled, fun i r hr ht => ((hw.calls i r hr).pending t ht).elim (hheld i) hfiled⟩
  | call i startTimestamp endTimestamp => trivial
  | act i a =>
      cases a with
      | go answer elapsed =>
          intro r e t hr hpc htime helse
          have hreceived := hshared (.received i t) (by
            simp [World.happening, hr, World.callHappening, hpc, htime])
          have hseen : t ∈ k.seen i := by
            refine hreceived ?_
            rcases helse with ht | ⟨j, r', hne, hj, ht⟩
            · exact .inl ((hw.filed t).mpr ht)
            · rcases (hw.calls j r' hj).pending t ht with ht | ht
              · exact .inr ⟨j, hne, ht⟩
              · exact .inl ((hw.filed t).mpr ht)
          rcases (hw.calls i r hr).seen (by simp [Run.Looking, hpc]) t hseen with hknown | hadded
          · exact hknown
          · rw [hpc] at hadded
            cases hadded
      | interrupt => exact fun r => hbetween i r rfl
      | kill => trivial

/-- **`prices.csv` has one row for each date**, in every run in which no time is brought to a writer
that has been brought to another one behind its back. -/
theorem one_row_per_date (p : World × World.Heard) (h : World.system.Reach World.apart p) :
    (dates p.1.disk.prices).Nodup := by
  refine (h.invariant
    (I := fun p => OneRow p.1.disk.prices p.1.runs ∧ Told p.1.disk.prices p.1.runs p.2)
    (fun t ht => ?_) fun t t' l ht hl hstep => ?_).1.nodup
  · obtain ⟨hnodup, hruns, hheard⟩ := ht
    refine ⟨⟨hnodup, fun i r hr => ?_, fun i j r r' _ hr => ?_, fun i r hr => ?_⟩,
      ⟨fun t => ?_, fun i _ => by rw [hheard], fun i r hr => ?_⟩⟩
    · rw [hruns i] at hr
      cases hr
    · rw [hruns i] at hr
      cases hr
    · rw [hruns i] at hr
      cases hr
    · rw [hheard, List.mem_toFinset]
    · rw [hruns i] at hr
      cases hr
  · obtain ⟨hnext, hheard⟩ := hstep
    exact ⟨oneRow_next ht.1 (newTimes_of_apart ht.2 hl) hnext, hheard ▸ told_next ht.2 hnext⟩

/-- An empty directory. -/
def noWriters : World × World.Heard := (⟨⟨[], none⟩, fun _ => none⟩, ⟨∅, fun _ => ∅, fun _ => ∅⟩)

/-- A poll that brings a price of this time. -/
def pollPrice (t : ℤ) : World.Label := .poll false (.data (some ⟨some t, none, none⟩))

/-- A step of the call `0`; where it makes a request, a price of this time comes back. -/
def stepPrice (t : ℤ) : World.Label := .act 0 (.go (.price (some ⟨some t, none, none⟩)) false)


/-- A step that can be taken is taken. -/
lemma World.reach_next {allowed : World.Label → World × World.Heard → Prop} {w w' : World}
    {k : World.Heard} {l : World.Label} (h : World.system.Reach allowed (w, k))
    (ha : allowed l (w, k)) (hn : World.next l w = some w') :
    World.system.Reach allowed (w', (World.happening l w).elim k k.record) :=
  h.step ha ⟨hn, rfl⟩

/-- A step of a call that has no price in hand. -/
lemma World.apart_go {p : World × World.Heard} {i : ℕ} {answer : Answer} {elapsed : Bool} {r : Run}
    (hr : p.1.runs i = some r) (hpc : ∀ e, r.pc ≠ .entry e) :
    World.apart (.act i (.go answer elapsed)) p := by
  refine ⟨fun x hx => ?_, fun _ _ h => by cases h⟩
  rw [World.happening, hr, Option.bind_some, World.callHappening.eq_def] at hx
  split at hx
  case h_2 e he => exact absurd he (hpc e)
  all_goals cases hx <;> trivial

/-- A step of a call that has a price in hand, of a time that it should know if anyone has it. -/
lemma World.apart_entry {p : World × World.Heard} {i : ℕ} {answer : Answer} {elapsed : Bool}
    {r : Run} {e : PriceEntry} {t : ℤ} (hr : p.1.runs i = some r) (hpc : r.pc = .entry e)
    (htime : e.time = some t) (ht : World.Unshared p.2 (.received i t)) :
    World.apart (.act i (.go answer elapsed)) p := by
  refine ⟨fun x hx => ?_, fun _ _ h => by cases h⟩
  rw [World.happening, hr, Option.bind_some, World.callHappening.eq_def, hpc] at hx
  simp only [htime, Option.map_some] at hx
  cases hx
  exact ht

/-- A poll; a call that meets the time of the poll again and then has a new one, up to the end. -/
theorem one_row_per_date_again : ∃ p, World.system.Reach World.apart p
    ∧ dates p.1.disk.prices = [5, 7] ∧ p.1.runs 0 = none ∧ (dates p.1.disk.prices).Nodup := by
  have h₀ : World.system.Reach World.apart noWriters := .init ⟨List.nodup_nil, fun _ => rfl, rfl⟩
  have h₁ := World.reach_next (l := pollPrice 5) h₀
    ⟨fun x hx => (by cases hx; exact ⟨by decide, fun _ => by simp⟩), fun _ _ h => (by cases h)⟩ rfl
  have h₂ := World.reach_next (l := .call 0 0 60) h₁
    ⟨fun _ hx => (by cases hx), fun _ _ h => (by cases h)⟩ rfl
  -- the checkpoint, the file, and the request that brings the time of the poll
  have h₃ := World.reach_next (l := stepPrice 5) h₂ (World.apart_go rfl nofun) rfl
  have h₄ := World.reach_next (l := stepPrice 5) h₃ (World.apart_go rfl nofun) rfl
  have h₅ := World.reach_next (l := stepPrice 5) h₄ (World.apart_go rfl nofun) rfl
  have h₆ := World.reach_next (l := stepPrice 5) h₅
    (World.apart_entry rfl rfl rfl fun _ => by decide) rfl
  have h₇ := World.reach_next (l := stepPrice 5) h₆ (World.apart_go rfl nofun) rfl
  have h₈ := World.reach_next (l := stepPrice 5) h₇ (World.apart_go rfl nofun) rfl
  -- the second request
  have h₉ := World.reach_next (l := stepPrice 7) h₈ (World.apart_go rfl nofun) rfl
  have h₁₀ := World.reach_next (l := stepPrice 7) h₉ (World.apart_entry rfl rfl rfl (by
    rintro (h | ⟨j, hj, h⟩)
    · exact absurd h (by decide)
    · change (7 : ℤ) ∈ Function.update (fun _ => (∅ : Finset ℤ)) 0 _ j at h
      rw [Function.update_of_ne hj] at h
      cases h)) rfl
  have h₁₁ := World.reach_next (l := stepPrice 7) h₁₀ (World.apart_go rfl nofun) rfl
  have h₁₂ := World.reach_next (l := stepPrice 7) h₁₁ (World.apart_go rfl nofun) rfl
  have h₁₃ := World.reach_next (l := stepPrice 7) h₁₂ (World.apart_go rfl nofun) rfl
  -- the end of the range, and the last flush
  have h₁₄ := World.reach_next (l := stepPrice 7) h₁₃ (World.apart_go rfl nofun) rfl
  have h₁₅ := World.reach_next (l := stepPrice 7) h₁₄ (World.apart_go rfl nofun) rfl
  have h₁₆ := World.reach_next (l := stepPrice 7) h₁₅ (World.apart_go rfl nofun) rfl
  have h₁₇ := World.reach_next (l := stepPrice 7) h₁₆ (World.apart_go rfl nofun) rfl
  exact ⟨_, h₁₇, rfl, rfl, one_row_per_date _ h₁₇⟩

/-- Two polls that bring the same price: the row is written twice. -/
theorem polled_twice :
    ¬ ∀ p, World.system.Reach anyStep p → (dates p.1.disk.prices).Nodup := by
  intro h
  have h₀ : World.system.Reach anyStep noWriters :=
    .init ⟨List.nodup_nil, fun _ => rfl, rfl⟩
  have h₁ := World.reach_next (l := pollPrice 5) h₀ trivial rfl
  have h₂ := World.reach_next (l := pollPrice 5) h₁ trivial rfl
  exact absurd (h _ h₂) (by decide)

end BtcParser.Prices
