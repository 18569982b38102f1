import Mathlib.Tactic

/-!
Budgets over time: what may be taken from a reserve that refills at a rate.

A reserve of size `capacity` refills at `rate` up to its size, and takings of `1` are recorded with
their times. `Paced` is the invariant of such a reserve: besides the bounds of what is left it holds
the potential argument, that what was taken since any moment and what is left are paid for by the
capacity and the refills since, and so the bound over every window of time (`Paced.window`).

* `Paced.start`, `Paced.refill` and `Paced.take` are the rules for building a run.
-/

namespace BtcParser

variable {K : Type*} [Field K] [LinearOrder K] [IsStrictOrderedRing K]

/-- How many of the times are in `[s, t]`. -/
def takenIn (taken : List K) (s t : K) : ℕ := taken.countP fun x => s ≤ x ∧ x ≤ t

/-- How many of the times are not before `s`. -/
def takenFrom (taken : List K) (s : K) : ℕ := taken.countP fun x => s ≤ x

omit [Field K] [IsStrictOrderedRing K] in
lemma takenIn_le_takenFrom (taken : List K) (s t : K) : takenIn taken s t ≤ takenFrom taken s :=
  List.countP_mono_left fun _ _ h => by simpa using (by simpa using h : _ ∧ _).1

omit [Field K] [IsStrictOrderedRing K] in
lemma takenFrom_eq_zero {taken : List K} {s : K} (h : ∀ x ∈ taken, x < s) :
    takenFrom taken s = 0 :=
  List.countP_eq_zero.mpr fun x hx => by simpa using h x hx

/-- The invariant of a reserve: `tokens` are left at the time `clock`. -/
structure Paced (capacity rate : K) (taken : List K) (tokens clock : K) : Prop where
  nonneg : 0 ≤ tokens
  le_capacity : tokens ≤ capacity
  past : ∀ x ∈ taken, x ≤ clock
  potential : ∀ s ≤ clock, (takenFrom taken s : K) + tokens ≤ capacity + rate * (clock - s)
  window : ∀ s t, s ≤ t → (takenIn taken s t : K) ≤ capacity + rate * (t - s)

namespace Paced

variable {capacity rate : K} {taken : List K} {tokens clock : K}

lemma start (hc : 0 ≤ capacity) (hr : 0 ≤ rate) (clock : K) :
    Paced capacity rate [] capacity clock where
  nonneg := hc
  le_capacity := le_rfl
  past := by simp
  potential s hs := by
    have := mul_nonneg hr (sub_nonneg.mpr hs)
    simpa [takenFrom] using this
  window s t hst := by
    have := mul_nonneg hr (sub_nonneg.mpr hst)
    simp only [takenIn, List.countP_nil, Nat.cast_zero]
    linarith

/-- Time passes. -/
lemma refill (h : Paced capacity rate taken tokens clock) (hr : 0 ≤ rate) {now : K}
    (hnow : clock ≤ now) :
    Paced capacity rate taken (min capacity (tokens + (now - clock) * rate)) now where
  nonneg := by
    have := mul_nonneg (sub_nonneg.mpr hnow) hr
    exact le_min (h.nonneg.trans h.le_capacity) (add_nonneg h.nonneg this)
  le_capacity := min_le_left _ _
  past x hx := (h.past x hx).trans hnow
  potential s hs := by
    rcases le_or_gt s clock with hsc | hsc
    · calc (takenFrom taken s : K) + min capacity (tokens + (now - clock) * rate)
          ≤ takenFrom taken s + (tokens + (now - clock) * rate) :=
            add_le_add_right (min_le_right _ _) _
        _ = takenFrom taken s + tokens + (now - clock) * rate := by ring
        _ ≤ capacity + rate * (clock - s) + (now - clock) * rate :=
            add_le_add_left (h.potential s hsc) _
        _ = capacity + rate * (now - s) := by ring
    · rw [takenFrom_eq_zero fun x hx => (h.past x hx).trans_lt hsc, Nat.cast_zero, zero_add]
      have := mul_nonneg hr (sub_nonneg.mpr hs)
      exact (min_le_left _ _).trans (le_add_of_nonneg_right this)
  window := h.window

/-- One is taken. -/
lemma take (h : Paced capacity rate taken tokens clock) (hr : 0 ≤ rate) (h1 : 1 ≤ tokens) :
    Paced capacity rate (taken ++ [clock]) (tokens - 1) clock where
  nonneg := sub_nonneg.mpr h1
  le_capacity := (sub_le_self _ zero_le_one).trans h.le_capacity
  past x hx := by
    rw [List.mem_append, List.mem_singleton] at hx
    rcases hx with hx | rfl
    · exact h.past x hx
    · exact le_rfl
  potential s hs := by
    have hp := h.potential s hs
    simp only [takenFrom, List.countP_append, List.countP_singleton, hs, decide_true, if_true,
      Nat.cast_add, Nat.cast_one] at hp ⊢
    linarith
  window s t hst := by
    by_cases hc : s ≤ clock ∧ clock ≤ t
    · have hp := h.potential s hc.1
      have hle : (takenIn taken s t : K) ≤ takenFrom taken s := by
        exact_mod_cast takenIn_le_takenFrom taken s t
      have hmono := mul_le_mul_of_nonneg_left (sub_le_sub_right hc.2 s) hr
      simp only [takenIn, List.countP_append, List.countP_singleton, hc, and_self, decide_true,
        if_true, Nat.cast_add, Nat.cast_one] at hle ⊢
      linarith
    · simpa [takenIn, List.countP_append, List.countP_singleton, hc] using h.window s t hst

end Paced

end BtcParser
