import BtcParser.Common.AtomicWrite

/-!
Files that are replaced as a whole, through exceptions, kills and power failures.

* `files` are the runs: calls of `atomic_replace` on any paths, each carried out as far as some
  operation, and power failures.
* `mayHold` is what a path may hold after a run: what the last call that returned has written, or
  one behind it that was carried out at least as far as `os.replace`.
* `Writing` is the invariant of a call before `os.replace`: the temporary name points to a file that
  no other path has pointed to.
* `atomic_replace_durable` is the result.
-/

namespace BtcParser.AtomicWrite

open Durable FileSystem

/-! ### Runs -/

/-- The name is one of `mkstemp`. -/
def FilePath.IsTemp (p : FilePath) : Prop :=
  p.name.head? = some '.' ∧ ['.', 't', 'm', 'p'] <:+ p.name

lemma isTemp_tmpPath (path : FilePath) (random : List Char) : (tmpPath path random).IsTemp := by
  refine ⟨rfl, ?_⟩
  have hname : (tmpPath path random).name
      = ('.' :: (path.name ++ '.' :: random)) ++ ['.', 't', 'm', 'p'] := by simp [tmpPath]
  rw [hname]
  exact List.suffix_append _ _

/-- What happens: a call, of which this many operations are carried out, or a power failure. -/
inductive Event where
  | call (path : FilePath) (a : Attempt) (done : ℕ)
  | powerFailure

/-- The disk under calls and power failures. `mkstemp` chooses a name that does not exist. -/
def files : TransitionSystem (FileSystem FilePath UInt8) Event where
  init d := d.Bounded
  step
    | .call path a done, d, d' => ¬ path.IsTemp ∧ d.entry (tmpPath path a.random) = none
        ∧ d' = d.applyAll ((ops path a).take done)
    | .powerFailure, d, d' => Crash d d'

/-- The call has returned. -/
def Completed (path : FilePath) (a : Attempt) (done : ℕ) : Prop :=
  returns path a = true ∧ (ops path a).length ≤ done

/-- It has been carried out at least as far as `os.replace`. -/
def Replaced (path : FilePath) (a : Attempt) (done : ℕ) : Prop :=
  .rename (tmpPath path a.random) path ∈ (ops path a).take done

/-- What the paths may hold, as bytes or as nothing. -/
abbrev Contents := FilePath → Option (List UInt8) → Prop

/-- What they may hold behind an event. -/
def afterEvent (S : Contents) : Event → Contents
  | .powerFailure, n, o => S n o
  | .call path a done, n, o =>
      n = path ∧ Replaced path a done ∧ o = some a.contents
        ∨ ¬ (n = path ∧ Completed path a done) ∧ S n o

/-- What they may hold behind a run. -/
def mayHold (S : Contents) (l : List Event) : Contents := l.foldl afterEvent S

/-! ### Before `os.replace` -/

/-- Operations on the temporary name only. -/
def OnTemp (tmp : FilePath) (op : PathOp) : Prop :=
  op = .create tmp ∨ (∃ bytes, op = .append tmp bytes) ∨ op = .flush tmp ∨ op = .unlink tmp

/-- The temporary name points to a file that is no other path's, and the paths hold what they may
hold. -/
structure Writing (S : Contents) (tmp : FilePath) (d : FileSystem FilePath UInt8) : Prop where
  bounded : d.Bounded
  holds : ∀ n, ¬ n.IsTemp → d.Holds n (S n)
  apart : ∀ i, d.entry tmp = some i → ∀ n, ¬ n.IsTemp → d.Apart i n

variable {S : Contents} {tmp path : FilePath} {d d' : FileSystem FilePath UInt8} {op : PathOp}
  {l : List PathOp}

lemma not_touches (h : OnTemp tmp op) (ht : tmp.IsTemp) {n : FilePath} (hn : ¬ n.IsTemp) :
    ¬ op.touches n := by
  have hne : n ≠ tmp := fun heq => hn (heq ▸ ht)
  rcases h with rfl | ⟨bytes, rfl⟩ | rfl | rfl
  · exact hne
  · exact id
  · exact id
  · exact hne

/-- Where the temporary name points behind an operation on it. -/
lemma entry_onTemp (h : OnTemp tmp op) {i : ℕ} (hi : (d.apply op).entry tmp = some i) :
    i = d.fresh ∨ d.entry tmp = some i := by
  rcases h with rfl | ⟨bytes, rfl⟩ | rfl | rfl
  · rw [entry_create] at hi
    exact .inl (Option.some.inj hi).symm
  · rw [entry_append] at hi
    exact .inr hi
  · rw [entry_flush] at hi
    exact .inr hi
  · rw [entry_unlink] at hi
    cases hi

lemma Writing.apply (h : Writing S tmp d) (ht : tmp.IsTemp) (hop : OnTemp tmp op) :
    Writing S tmp (d.apply op) := by
  refine ⟨h.bounded.apply op, fun n hn => ?_, fun i hi n hn => ?_⟩
  · refine (h.holds n hn).apply h.bounded (not_touches hop ht hn) ?_
    rintro i ⟨m, bytes, rfl, hm⟩
    have hmt : m = tmp := by
      rcases hop with h | ⟨b, h⟩ | h | h <;> cases h
      rfl
    exact h.apart i (hmt ▸ hm) n hn
  · refine Apart.apply ?_ (not_touches hop ht hn)
    rcases entry_onTemp hop hi with rfl | hi
    · exact h.bounded.apart_fresh n
    · exact h.apart i hi n hn

lemma Writing.applyAll (h : Writing S tmp d) (ht : tmp.IsTemp) (hl : ∀ op ∈ l, OnTemp tmp op) :
    Writing S tmp (d.applyAll l) := by
  induction l generalizing d with
  | nil => exact h
  | cons op l ih =>
      exact ih (h.apply ht (hl op List.mem_cons_self)) fun op' h' =>
        hl op' (List.mem_cons_of_mem _ h')

/-- What has been written to the temporary file. -/
lemma applyAll_appends {i : ℕ} (chunks : List (List UInt8)) (hd : d.entry tmp = some i) :
    (d.applyAll (chunks.map (.append tmp))).entry tmp = some i
      ∧ (d.applyAll (chunks.map (.append tmp))).content i = d.content i ++ chunks.flatten := by
  induction chunks generalizing d with
  | nil => exact ⟨hd, (List.append_nil _).symm⟩
  | cons c cs ih =>
      have hrest := @ih (d.apply (.append tmp c)) (by rw [entry_append, hd])
      rw [content_append hd] at hrest
      rw [List.map_cons, applyAll_cons, List.flatten_cons, ← List.append_assoc]
      exact hrest

/-- The operations of a call up to `os.replace`. -/
def opening (tmp : FilePath) (chunks : List (List UInt8)) : List PathOp :=
  .create tmp :: (chunks.map (.append tmp) ++ [.flush tmp])

lemma onTemp_opening (tmp : FilePath) (chunks : List (List UInt8)) :
    ∀ op ∈ opening tmp chunks, OnTemp tmp op := by
  intro op hop
  simp only [opening, List.mem_cons, List.mem_append, List.mem_map, List.not_mem_nil,
    or_false] at hop
  rcases hop with rfl | ⟨bytes, -, rfl⟩ | rfl
  · exact .inl rfl
  · exact .inr (.inl ⟨bytes, rfl⟩)
  · exact .inr (.inr (.inl rfl))

/-- Then the file is complete, and has been flushed. -/
lemma applyAll_opening (d : FileSystem FilePath UInt8) (tmp : FilePath)
    (chunks : List (List UInt8)) :
    ∃ i, (d.applyAll (opening tmp chunks)).entry tmp = some i
      ∧ (d.applyAll (opening tmp chunks)).content i = chunks.flatten
      ∧ (d.applyAll (opening tmp chunks)).dirty i = false := by
  obtain ⟨hentry, hcontent⟩ := applyAll_appends chunks (entry_create d tmp)
  rw [content_create, List.nil_append] at hcontent
  rw [opening, applyAll_cons, applyAll_append]
  obtain ⟨hsame, hclean⟩ := clean_flush hentry
  refine ⟨d.fresh, ?_, ?_, hclean⟩
  · rw [applyAll_cons, applyAll_nil, entry_flush, hentry]
  · rw [applyAll_cons, applyAll_nil, hsame, hcontent]

/-! ### A call -/

/-- The operations behind `os.replace`: those of a call that returns, or of one that raises. -/
def Behind (path tmp : FilePath) (rest : List PathOp) : Prop :=
  rest = [.flushDir fun n => decide (n.parent = path.parent)] ∨ rest = [.unlink tmp]

/-- The operations behind the writes stay on the temporary name, or put the flushed file in place.
-/
lemma closing_cases (path tmp : FilePath) (a : Attempt) :
    ((∀ op ∈ closing path tmp a, OnTemp tmp op)
        ∧ (a.written && a.flushed && a.replaced && a.dirFlushed) = false)
      ∨ ∃ rest, Behind path tmp rest ∧ closing path tmp a = .flush tmp :: .rename tmp path :: rest
        ∧ ((a.written && a.flushed && a.replaced && a.dirFlushed) = true →
          rest = [.flushDir fun n => decide (n.parent = path.parent)]) := by
  have hunlink : OnTemp tmp (.unlink tmp) := .inr (.inr (.inr rfl))
  have hflush : OnTemp tmp (.flush tmp) := .inr (.inr (.inl rfl))
  cases hw : a.written with
  | false => exact .inl ⟨by simpa [closing, hw] using hunlink, by simp⟩
  | true =>
      cases hf : a.flushed with
      | false => exact .inl ⟨by simpa [closing, hw, hf] using hunlink, by simp⟩
      | true =>
          cases hr : a.replaced with
          | false => exact .inl ⟨by simpa [closing, hw, hf, hr] using ⟨hflush, hunlink⟩, by simp⟩
          | true =>
              right
              cases hd : a.dirFlushed with
              | false => exact ⟨_, .inr rfl, by simp [closing, hw, hf, hr, hd], by simp⟩
              | true => exact ⟨_, .inl rfl, by simp [closing, hw, hf, hr, hd], fun _ => rfl⟩

/-- A call does not get as far as `os.replace`, or it does with the whole file, and returns only if
the flush of the directory comes next. -/
lemma ops_cases (path : FilePath) (a : Attempt) :
    ((∀ op ∈ ops path a, OnTemp (tmpPath path a.random) op) ∧ returns path a = false)
      ∨ ∃ rest, Behind path (tmpPath path a.random) rest
        ∧ ops path a = opening (tmpPath path a.random) a.chunks
          ++ .rename (tmpPath path a.random) path :: rest
        ∧ (returns path a = true →
          rest = [.flushDir fun n => decide (n.parent = path.parent)]) := by
  cases hbegins : a.begins with
  | false =>
      left
      obtain ⟨hops, hreturns⟩ := atomicReplace_raises path hbegins
      rw [hops, hreturns]
      refine ⟨fun op hop => ?_, rfl⟩
      cases hop
  | true =>
      obtain ⟨hops, hreturns⟩ := atomicReplace_apply path hbegins
      rw [hops, hreturns]
      refine (closing_cases path (tmpPath path a.random) a).imp
        (fun h => ⟨fun op hop => ?_, h.2⟩) ?_
      · rw [List.mem_cons, List.mem_append] at hop
        rcases hop with rfl | hop | hop
        · exact .inl rfl
        · obtain ⟨bytes, -, rfl⟩ := List.mem_map.mp hop
          exact .inr (.inl ⟨bytes, rfl⟩)
        · exact h.1 op hop
      · rintro ⟨rest, hrest, hclosing, hret⟩
        exact ⟨rest, hrest, by simp [hclosing, opening], hret⟩

/-- Only a file that `write` has completed is put in place. -/
lemma written_of_replaced {a : Attempt} {done : ℕ} (h : Replaced path a done) :
    a.written = true := by
  have hmem := List.mem_of_mem_take h
  cases hbegins : a.begins with
  | false =>
      rw [(atomicReplace_raises path hbegins).1] at hmem
      cases hmem
  | true =>
      rw [(atomicReplace_apply path hbegins).1, closing] at hmem
      cases hw : a.written with
      | true => rfl
      | false => simp [hw] at hmem

/-- What the paths may hold behind `os.replace`. -/
def afterReplace (S : Contents) (path : FilePath) (a : Attempt) : Contents := fun n o =>
  S n o ∨ n = path ∧ o = some a.contents

/-- `os.replace` puts the whole file in place. -/
lemma replace_holds (hw : Writing S tmp d) (ht : tmp.IsTemp) (hpath : ¬ path.IsTemp)
    (a : Attempt) :
    let d' := (d.applyAll (opening tmp a.chunks)).apply (.rename tmp path)
    d'.Bounded ∧ (∀ n, ¬ n.IsTemp → d'.Holds n (afterReplace S path a n))
      ∧ (∀ n, ¬ n.IsTemp → n ≠ path → d'.Holds n (S n)) ∧ d'.read path = some a.contents := by
  intro d'
  have hopened := hw.applyAll ht (onTemp_opening tmp a.chunks)
  obtain ⟨i, hentry, hcontent, hclean⟩ := applyAll_opening d tmp a.chunks
  have hne : tmp ≠ path := fun h => hpath (h ▸ ht)
  have hother : ∀ n, ¬ n.IsTemp → n ≠ path → d'.Holds n (S n) := fun n hn hnp =>
    (hopened.holds n hn).apply hopened.bounded (fun h => h.elim (fun h => hn (h ▸ ht)) hnp)
      fun i hw => absurd hw (not_writes_of (fun m bytes h => by cases h) _ i)
  obtain ⟨hself, hread⟩ := holds_rename (hopened.holds path hpath) hentry hne hclean
  refine ⟨hopened.bounded.apply _, fun n hn => ?_, hother, ?_⟩
  · by_cases hnp : n = path
    · subst hnp
      refine hself.mono fun o ho => ho.imp id fun h => ⟨rfl, ?_⟩
      rw [h, hcontent]
      rfl
    · exact (hother n hn hnp).mono fun o ho => .inl ho
  · rw [hread, hcontent]
    rfl

/-- What a call leaves of what the paths may hold. -/
lemma call_holds (hb : d.Bounded) (hS : ∀ n, ¬ n.IsTemp → d.Holds n (S n)) (hpath : ¬ path.IsTemp)
    (a : Attempt) (hnew : d.entry (tmpPath path a.random) = none) (done : ℕ) :
    (d.applyAll ((ops path a).take done)).Bounded ∧ ∀ n, ¬ n.IsTemp →
      (d.applyAll ((ops path a).take done)).Holds n (afterEvent S (.call path a done) n) := by
  have htemp := isTemp_tmpPath path a.random
  have hw : Writing S (tmpPath path a.random) d :=
    ⟨hb, hS, fun i hi => by rw [hnew] at hi; cases hi⟩
  -- a prefix that stays on the temporary name
  have hprefix : (∀ op ∈ (ops path a).take done, OnTemp (tmpPath path a.random) op) →
      ¬ Completed path a done → (d.applyAll ((ops path a).take done)).Bounded ∧
        ∀ n, ¬ n.IsTemp → (d.applyAll ((ops path a).take done)).Holds n
          (afterEvent S (.call path a done) n) := fun hl hnot => by
    have hend := hw.applyAll htemp hl
    exact ⟨hend.bounded, fun n hn => (hend.holds n hn).mono fun o ho =>
      .inr ⟨fun h => hnot h.2, ho⟩⟩
  rcases ops_cases path a with ⟨hon, hret⟩ | ⟨rest, hrest, hops, hret⟩
  · refine hprefix (fun op hop => hon op (List.mem_of_mem_take hop)) fun h => ?_
    rw [h.1] at hret
    cases hret
  · have hlen : rest.length = 1 := by rcases hrest with rfl | rfl <;> rfl
    by_cases hdone : done ≤ (opening (tmpPath path a.random) a.chunks).length
    · refine hprefix (fun op hop => ?_) fun h => ?_
      · rw [hops, List.take_append_of_le_length hdone] at hop
        exact onTemp_opening _ a.chunks op (List.mem_of_mem_take hop)
      · have := h.2
        rw [hops, List.length_append, List.length_cons] at this
        omega
    · obtain ⟨j, hj⟩ : ∃ j, done = (opening (tmpPath path a.random) a.chunks).length + (j + 1) :=
        ⟨done - (opening (tmpPath path a.random) a.chunks).length - 1, by omega⟩
      have htake : (ops path a).take done = opening (tmpPath path a.random) a.chunks
          ++ .rename (tmpPath path a.random) path :: rest.take j := by
        rw [hops, hj, List.take_length_add_append, List.take_succ_cons]
      have hreplaced : Replaced path a done := by
        rw [Replaced, htake]
        exact List.mem_append_right _ List.mem_cons_self
      obtain ⟨hb', hall, hother, hread⟩ := replace_holds hw htemp hpath a
      rw [htake, applyAll_append, applyAll_cons]
      -- nothing that comes behind it touches a path
      have hquiet : ∀ n, ¬ n.IsTemp → ∀ op ∈ rest.take j,
          ¬ op.touches n ∧ ∀ m bytes, op ≠ .append m bytes := by
        intro n hn op hop
        have hmem := List.mem_of_mem_take hop
        rcases hrest with rfl | rfl <;> rw [List.mem_singleton] at hmem <;> subst hmem
        · exact ⟨id, fun _ _ h => by cases h⟩
        · exact ⟨fun h => hn (h ▸ htemp), fun _ _ h => by cases h⟩
      refine ⟨hb'.applyAll _, fun n hn => ?_⟩
      by_cases hc : n = path ∧ Completed path a done
      · -- the directory has been flushed
        obtain ⟨rfl, hc⟩ := hc
        have hj1 : rest.take j = rest := by
          refine List.take_of_length_le ?_
          have := hc.2
          rw [hops, List.length_append, List.length_cons] at this
          omega
        rw [hj1, hret hc.1, applyAll_cons, applyAll_nil]
        refine (holds_flushDir (hall n hn) (decide_eq_true rfl)).mono fun o ho => ?_
        exact .inl ⟨rfl, hreplaced, ho.trans hread⟩
      · by_cases hnp : n = path
        · refine ((hall n hn).applyAll hb' (hquiet n hn)).mono fun o ho => ?_
          exact ho.symm.imp (fun h => ⟨h.1, hreplaced, h.2⟩) fun h => ⟨hc, h⟩
        · refine ((hother n hn hnp).applyAll hb' (hquiet n hn)).mono fun o ho => ?_
          exact .inr ⟨hc, ho⟩

/-! ### Whole runs -/

/-- One event. -/
lemma event_holds {e : Event} (hb : d.Bounded) (hS : ∀ n, ¬ n.IsTemp → d.Holds n (S n))
    (h : files.step e d d') :
    d'.Bounded ∧ ∀ n, ¬ n.IsTemp → d'.Holds n (afterEvent S e n) := by
  cases e with
  | call path a done =>
      obtain ⟨hpath, hnew, rfl⟩ := h
      exact call_holds hb hS hpath a hnew done
  | powerFailure =>
      refine ⟨hb.crash h, fun n hn => ?_⟩
      obtain ⟨hread, hholds⟩ := (hS n hn).crash h
      refine hholds.mono fun o ho => ?_
      rw [ho]
      exact hread

lemma run_holds {l : List Event} (h : files.Path d l d') (hb : d.Bounded)
    (hS : ∀ n, ¬ n.IsTemp → d.Holds n (S n)) :
    ∀ n, ¬ n.IsTemp → d'.Holds n (mayHold S l n) := by
  induction h generalizing S with
  | nil d => exact hS
  | cons hs _ ih =>
      obtain ⟨hb', hS'⟩ := event_holds hb hS hs
      exact ih hb' hS'

/-- The call has put a file in place of the path. -/
def Event.Replaces (n : FilePath) : Event → Prop
  | .call path a done => path = n ∧ Replaced path a done
  | .powerFailure => False

/-- Behind a call that has returned, nothing else is read until another one has replaced the
file. -/
lemma mayHold_of_completed {a : Attempt} {done : ℕ} (hc : Completed path a done) {l : List Event}
    (hl : ∀ e ∈ l, ¬ e.Replaces path) {o : Option (List UInt8)}
    (ho : mayHold (afterEvent S (.call path a done)) l path o) : o = some a.contents := by
  have hkeep : ∀ (T : Contents) (l : List Event), (∀ e ∈ l, ¬ e.Replaces path) →
      mayHold T l path o → T path o := by
    intro T l hl
    induction l generalizing T with
    | nil => exact id
    | cons e l ih =>
        intro h
        have he := ih (afterEvent T e) (fun e' h' => hl e' (List.mem_cons_of_mem _ h')) h
        have hnot := hl e List.mem_cons_self
        cases e with
        | powerFailure => exact he
        | call path' a' done' =>
            rcases he with ⟨rfl, hr, -⟩ | ⟨-, he⟩
            · exact absurd ⟨rfl, hr⟩ hnot
            · exact he
  rcases hkeep _ l hl ho with ⟨-, -, h⟩ | ⟨h, -⟩
  · exact h
  · exact absurd ⟨rfl, hc⟩ h

/-- A call that is carried out to its end, whether it returns or raises, leaves no temporary file.
-/
lemma entry_tmp_of_ops (d : FileSystem FilePath UInt8) (path : FilePath) (a : Attempt)
    (hnew : d.entry (tmpPath path a.random) = none) :
    (d.applyAll (ops path a)).entry (tmpPath path a.random) = none := by
  cases hbegins : a.begins with
  | false =>
      rw [(atomicReplace_raises path hbegins).1]
      exact hnew
  | true =>
      have hclosing : ∀ e : FileSystem FilePath UInt8,
          (e.applyAll (closing path (tmpPath path a.random) a)).entry (tmpPath path a.random)
            = none := by
        intro e
        rw [closing]
        split_ifs <;> simp
      rw [(atomicReplace_apply path hbegins).1, applyAll_cons, applyAll_append]
      exact hclosing _

/-- **A path is replaced as a whole or not at all**, for good once a call has returned: in every run
of calls on paths that are in directories that exist and have no name of `mkstemp`, each of which
may raise or be killed between any two operations, and of power failures, a path reads as the last
call on it that returned has left it, or as one behind that which was carried out at least as far as
`os.replace`; also behind one more power failure. -/
theorem atomic_replace_durable {d d' : FileSystem FilePath UInt8} {l : List Event}
    (h : files.Path d l d') (hb : d.Bounded) {S : Contents}
    (hS : ∀ n, ¬ n.IsTemp → d.Holds n (S n)) {n : FilePath} (hn : ¬ n.IsTemp) :
    mayHold S l n (d'.read n) ∧ (∀ d'', Crash d' d'' → mayHold S l n (d''.read n))
      ∧ ∀ before a done after, l = before ++ .call n a done :: after → Completed n a done →
        (∀ e ∈ after, ¬ e.Replaces n) → d'.read n = some a.contents
          ∧ ∀ d'', Crash d' d'' → d''.read n = some a.contents := by
  have hholds := run_holds h hb hS n hn
  refine ⟨hholds.read, fun d'' hc => (hholds.crash hc).1, ?_⟩
  rintro before a done after rfl hcompleted hafter
  have hlast : ∀ o, mayHold S (before ++ .call n a done :: after) n o → o = some a.contents := by
    intro o ho
    rw [mayHold, List.foldl_append, List.foldl_cons] at ho
    exact mayHold_of_completed hcompleted hafter ho
  exact ⟨hlast _ hholds.read, fun d'' hc => hlast _ (hholds.crash hc).1⟩

/-! ### A run -/

def emptyDisk : FileSystem FilePath UInt8 :=
  ⟨fun _ => none, fun _ => [], fun _ => [], fun _ => false, 0⟩

def statePath : FilePath := ⟨[], ['s']⟩

/-- A call that returns. -/
def firstAttempt : Attempt := ⟨['1'], true, true, [[1], [2]], true, true, true, true⟩

/-- One that is killed behind its first write, before the power fails. -/
def secondAttempt : Attempt := ⟨['2'], true, true, [[3], [4]], true, true, true, true⟩

def diskAfter : FileSystem FilePath UInt8 :=
  ((emptyDisk.applyAll ((ops statePath firstAttempt).take 6)).applyAll
    ((ops statePath secondAttempt).take 2)).settled

/-- The path reads as the first call has left it. -/
theorem atomic_replace_durable_killed : diskAfter.read statePath = some [1, 2] := by
  have htemp : ¬ statePath.IsTemp := by
    rintro ⟨h, -⟩
    cases h
  have hrun : files.Path emptyDisk [.call statePath firstAttempt 6, .call statePath secondAttempt 2,
      .powerFailure] diskAfter :=
    .cons ⟨htemp, rfl, rfl⟩ (.cons ⟨htemp, rfl, rfl⟩ (.cons (crash_settled _) (.nil _)))
  have hempty : ∀ n : FilePath, ∀ e ∈ emptyDisk.pointers n, e = none := fun n e he =>
    List.mem_singleton.mp he
  refine ((atomic_replace_durable hrun (S := fun _ o => o = none) (fun n e he i hi => ?_)
    (fun n _ e he => ?_) htemp).2.2 [] firstAttempt 6 _ rfl ⟨rfl, le_rfl⟩ fun e he => ?_).1
  · rw [hempty n e he] at hi
    cases hi
  · rw [hempty n e he]
    exact ⟨rfl, fun i hi => by cases hi⟩
  · simp only [List.mem_cons, List.not_mem_nil, or_false] at he
    rcases he with rfl | rfl
    · rintro ⟨-, hr⟩
      have htake : (ops statePath secondAttempt).take 2
          = [.create (tmpPath statePath ['2']), .append (tmpPath statePath ['2']) [3]] := rfl
      rw [Replaced, htake] at hr
      simp at hr
    · exact id

end BtcParser.AtomicWrite
