import BtcParser.Library.Program

/-!
Pre- and postconditions of programs.

`Triple P x Q E`: started where `P` holds, the program `x` ends where `Q` holds of its value, or
where `E` holds of its exception. There is one rule for each way of building a program, and
`triple_forM` for a loop over a list, whose invariant may depend on what the loop has still to do.

* `Triple.of_ok`, `Triple.of_error`: what a triple says of one run.
* `triple_of_each`: the precondition may fix the state, for assertions that relate the end of a
  program to its start.
-/

namespace BtcParser

namespace Program

variable {ε σ α β : Type}

/-- Started where `P` holds, `x` ends where `Q` holds of its value, or `E` of its exception. -/
def Triple (P : σ → Prop) (x : EStateM ε σ α) (Q : α → σ → Prop) (E : ε → σ → Prop) : Prop :=
  ∀ s, P s → match x s with
    | .ok a t => Q a t
    | .error f t => E f t

variable {P P' : σ → Prop} {Q Q' : α → σ → Prop} {R : β → σ → Prop} {E E' : ε → σ → Prop}
  {x : EStateM ε σ α}

lemma Triple.of_ok (h : Triple P x Q E) {s t : σ} {a : α} (hs : P s) (hr : x s = .ok a t) :
    Q a t := by
  have := h s hs
  rwa [hr] at this

lemma Triple.of_error (h : Triple P x Q E) {s t : σ} {f : ε} (hs : P s)
    (hr : x s = .error f t) : E f t := by
  have := h s hs
  rwa [hr] at this

/-- A triple from what it says of each run. -/
lemma triple_of_runs (hok : ∀ s a t, P s → x s = .ok a t → Q a t)
    (herr : ∀ s f t, P s → x s = .error f t → E f t) : Triple P x Q E := by
  intro s hs
  cases hr : x s with
  | ok a t => exact hok s a t hs hr
  | error f t => exact herr s f t hs hr

/-- A triple from one for each state it may start in. -/
lemma triple_of_each (h : ∀ s, P s → Triple (· = s) x Q E) : Triple P x Q E :=
  fun s hs => h s hs s rfl

/-- The rule of consequence. -/
lemma Triple.weaken (h : Triple P x Q E) (hP : ∀ s, P' s → P s) (hQ : ∀ a s, Q a s → Q' a s)
    (hE : ∀ f s, E f s → E' f s) : Triple P' x Q' E' := by
  intro s hs
  have := h s (hP s hs)
  cases hr : x s with
  | ok a t =>
      rw [hr] at this
      exact hQ a t this
  | error f t =>
      rw [hr] at this
      exact hE f t this

lemma Triple.pre (h : Triple P x Q E) (hP : ∀ s, P' s → P s) : Triple P' x Q E :=
  h.weaken hP (fun _ _ => id) fun _ _ => id

lemma Triple.post (h : Triple P x Q E) (hQ : ∀ a s, Q a s → Q' a s) : Triple P x Q' E :=
  h.weaken (fun _ => id) hQ fun _ _ => id

/-- The rule of conjunction. -/
lemma Triple.and (h : Triple P x Q E) (h' : Triple P x Q' E') :
    Triple P x (fun a s => Q a s ∧ Q' a s) fun f s => E f s ∧ E' f s := by
  intro s hs
  have hq := h s hs
  have hq' := h' s hs
  cases hr : x s with
  | ok a t =>
      rw [hr] at hq hq'
      exact ⟨hq, hq'⟩
  | error f t =>
      rw [hr] at hq hq'
      exact ⟨hq, hq'⟩

lemma triple_pure {a : α} (h : ∀ s, P s → Q a s) : Triple P (pure a : EStateM ε σ α) Q E := h

lemma triple_throw {f : ε} (h : ∀ s, P s → E f s) : Triple P (throw f : EStateM ε σ α) Q E := h

/-- The rule of sequencing. -/
lemma Triple.bind {y : α → EStateM ε σ β} (hx : Triple P x Q E)
    (hy : ∀ a, Triple (Q a) (y a) R E) : Triple P (x >>= y) R E := by
  intro s hs
  have h := hx s hs
  rw [bind_apply]
  cases hr : x s with
  | ok a t =>
      rw [hr] at h
      exact hy a t h
  | error f t =>
      rw [hr] at h
      exact h

lemma triple_modify {f : σ → σ} {Q : Unit → σ → Prop} (h : ∀ s, P s → Q () (f s)) :
    Triple P (modify f : EStateM ε σ Unit) Q E := h

/-- Reading the state binds it. -/
lemma triple_get {y : σ → EStateM ε σ β} (h : ∀ s, P s → Triple (· = s) (y s) R E) :
    Triple P (get >>= y) R E := fun s hs => h s hs s rfl

/-- The rule of a conditional. -/
lemma triple_ite {p : Prop} [Decidable p] {y : EStateM ε σ α} (hx : p → Triple P x Q E)
    (hy : ¬ p → Triple P y Q E) : Triple P (if p then x else y) Q E := by
  split_ifs with h
  · exact hx h
  · exact hy h

/-- The rule of a loop over a list: `I l` holds when `l` is still to do. -/
lemma triple_forM {I : List β → σ → Prop} {f : β → EStateM ε σ PUnit}
    (h : ∀ b l, Triple (I (b :: l)) (f b) (fun _ => I l) E) (l : List β) :
    Triple (I l) (l.forM f) (fun _ => I []) E := by
  induction l with
  | nil => exact triple_pure fun _ hs => hs
  | cons b l ih => exact (h b l).bind fun _ => ih

end Program

end BtcParser
