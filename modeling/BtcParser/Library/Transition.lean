import Mathlib.Tactic

/-!
Labelled transition systems and what holds along their runs.

A run is a sequence of labelled steps from an initial state. `Reach S allowed` are the states
reached by runs whose steps were all `allowed` at the state in which they were taken: with
`anyStep` these are all the reachable states, and with a proper predicate the runs that stay away
from the steps it forbids.

* `Reach.invariant`: what holds initially and is kept by every allowed step holds in every state
  reached.
* `Reach.exec`: what a step function computes from a list of labels is reached, for exhibiting a
  particular state.
* `Path.countP_le`: if steps with some labels lower a rank and no step raises it, then a path has at
  most as many of them as the rank of the state where it begins.
-/

namespace BtcParser

/-- A transition system with states `σ` and labels `ι`. -/
structure TransitionSystem (σ ι : Type*) where
  init : σ → Prop
  step : ι → σ → σ → Prop

/-- No restriction on the steps. -/
def anyStep {σ ι : Type*} : ι → σ → Prop := fun _ _ => True

instance {σ ι : Type*} (i : ι) (s : σ) : Decidable (anyStep i s) := isTrue trivial

namespace TransitionSystem

variable {σ ι : Type*} (S : TransitionSystem σ ι)

/-- The states reached by steps that are `allowed` where they are taken. -/
inductive Reach (allowed : ι → σ → Prop) : σ → Prop
  | init {s : σ} (h : S.init s) : Reach allowed s
  | step {s s' : σ} {i : ι} (h : Reach allowed s) (ha : allowed i s) (hs : S.step i s s') :
      Reach allowed s'

variable {S} {allowed : ι → σ → Prop}

/-- The induction along runs. -/
theorem Reach.invariant {I : σ → Prop} (h0 : ∀ s, S.init s → I s)
    (hstep : ∀ s s' i, I s → allowed i s → S.step i s s' → I s') {s : σ}
    (h : S.Reach allowed s) : I s := by
  induction h with
  | init h => exact h0 _ h
  | step _ ha hs ih => exact hstep _ _ _ ih ha hs

variable (allowed) in
/-- Takes the labels one after the other, `next` being a step function; `none` if one of them
cannot be taken or is not allowed. -/
def exec [∀ i s, Decidable (allowed i s)] (next : ι → σ → Option σ) : List ι → σ → Option σ
  | [], s => some s
  | i :: l, s => if allowed i s then (next i s).bind (exec next l) else none

variable (allowed) in
/-- What a step function computes is reached. -/
lemma Reach.exec [∀ i s, Decidable (allowed i s)] {next : ι → σ → Option σ}
    (hnext : ∀ i s s', next i s = some s' → S.step i s s') {l : List ι} {s s' : σ}
    (hs : S.Reach allowed s) (h : TransitionSystem.exec allowed next l s = some s') :
    S.Reach allowed s' := by
  induction l generalizing s with
  | nil =>
      cases h
      exact hs
  | cons i l ih =>
      rw [TransitionSystem.exec, Option.ite_none_right_eq_some] at h
      obtain ⟨t, ht, h⟩ := Option.bind_eq_some_iff.mp h.2
      exact ih (.step hs (by tauto) (hnext i s t ht)) h

/-! ### Paths -/

variable (S) in
/-- The sequences of steps from one state to another. -/
inductive Path : σ → List ι → σ → Prop
  | nil (s : σ) : Path s [] s
  | cons {s t u : σ} {i : ι} {l : List ι} (hs : S.step i s t) (h : Path t l u) : Path s (i :: l) u

/-- The number of the steps that lower a rank. -/
theorem Path.countP_le {I : σ → Prop} (rank : σ → ℕ) {p : ι → Bool}
    (hI : ∀ s s' i, I s → S.step i s s' → I s')
    (hrank : ∀ s s' i, I s → S.step i s s' → rank s' + (if p i then 1 else 0) ≤ rank s)
    {s s' : σ} {l : List ι} (h : S.Path s l s') (hs : I s) : l.countP p + rank s' ≤ rank s := by
  induction h with
  | nil => exact (Nat.zero_add _).le
  | @cons s t u i l hst _ ih =>
      have hstep := hrank s t i hs hst
      have hrest := ih (hI s t i hs hst)
      rw [List.countP_cons]
      omega

end TransitionSystem

end BtcParser
