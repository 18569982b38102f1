import BtcParser.Library.Triple

/-!
Programs that an observer cannot tell apart.

An observer sees of a state what `f` shows of it. `Alike f P x y`: from states that look the same,
the first of them in `P`, the programs `x` and `y` return the same value or raise the same
exception, and leave states that look the same. There is one rule for each way of building a
program: `Alike.bind` takes what holds between the two halves of a sequence from a triple of its
first program, and `triple_of_follows` gives such triples for what every step of a relation
preserves.
-/

namespace BtcParser

namespace Program

variable {ε σ τ κ α β : Type} {f : σ → τ}

/-- What the observer sees of a run. -/
def viewed (f : σ → τ) : EStateM.Result ε σ α → Except ε α × τ
  | .ok a s => (.ok a, f s)
  | .error e s => (.error e, f s)

lemma viewed_snd (r : EStateM.Result ε σ α) : (viewed f r).2 = f (left r) := by
  cases r <;> rfl

/-- From states that look the same, the two programs do the same. -/
def Alike (f : σ → τ) (P : σ → Prop) (x y : EStateM ε σ α) : Prop :=
  ∀ s t, P s → f s = f t → viewed f (x s) = viewed f (y t)

variable {P P' : σ → Prop} {Q : α → σ → Prop} {E : ε → σ → Prop} {x x' : EStateM ε σ α}

lemma alike_pure (a : α) : Alike f P (pure a : EStateM ε σ α) (pure a) := fun _ _ _ h => by
  simp [viewed, h]

lemma alike_throw (e : ε) : Alike f P (throw e : EStateM ε σ α) (throw e) := fun _ _ _ h => by
  simp [viewed, h]

lemma alike_modify {g g' : σ → σ} (h : ∀ s t, P s → f s = f t → f (g s) = f (g' t)) :
    Alike f P (modify g : EStateM ε σ Unit) (modify g') := fun s t hs ht => by
  simp [viewed, h s t hs ht]

/-- Reading the state binds it, once for each program. -/
lemma alike_get {y y' : σ → EStateM ε σ β}
    (h : ∀ s t, P s → f s = f t → Alike f (· = s) (y s) (y' t)) :
    Alike f P (get >>= y) (get >>= y') := fun s t hs ht => h s t hs ht s t rfl ht

/-- A precondition that does not depend on the state can be taken as known. -/
lemma alike_of_pure {p : Prop} (hP : ∀ s, P s → p) (h : p → Alike f P x x') : Alike f P x x' :=
  fun s t hs => h (hP s hs) s t hs

/-- The rule of sequencing. -/
lemma Alike.bind {y y' : α → EStateM ε σ β} (hx : Alike f P x x') (hq : Triple P x Q E)
    (hy : ∀ a, Alike f (Q a) (y a) (y' a)) : Alike f P (x >>= y) (x' >>= y') := by
  intro s t hs ht
  have hview := hx s t hs ht
  have hpost := hq s hs
  rw [bind_apply, bind_apply]
  cases hr : x s with
  | error e u =>
      cases hr' : x' t with
      | error e' u' =>
          rw [hr, hr', viewed, viewed, Prod.mk.injEq, Except.error.injEq] at hview
          rw [viewed, viewed, hview.1, hview.2]
      | ok a' u' => simp [hr, hr', viewed] at hview
  | ok a u =>
      cases hr' : x' t with
      | error e' u' => simp [hr, hr', viewed] at hview
      | ok a' u' =>
          rw [hr, hr', viewed, viewed, Prod.mk.injEq, Except.ok.injEq] at hview
          rw [hr] at hpost
          exact hview.1 ▸ hy a u u' hpost hview.2

/-- The rule of sequencing when nothing is to be known in between. -/
lemma Alike.seq {y y' : α → EStateM ε σ β} (hx : Alike f P x x')
    (hy : ∀ a, Alike f (fun _ => True) (y a) (y' a)) : Alike f P (x >>= y) (x' >>= y') :=
  hx.bind (Q := fun _ _ => True) (E := fun _ _ => True)
    (triple_of_runs (fun _ _ _ _ _ => trivial) fun _ _ _ _ _ => trivial) hy

/-- The rule of a conditional that both programs decide the same way. -/
lemma alike_ite {p : Prop} [Decidable p] {y y' : EStateM ε σ α} (hx : p → Alike f P x x')
    (hy : ¬ p → Alike f P y y') : Alike f P (if p then x else y) (if p then x' else y') := by
  split_ifs with h
  · exact hx h
  · exact hy h

/-- What every step preserves, as a triple. -/
lemma triple_of_follows {R : κ → σ → κ → σ → Prop} {I : κ → σ → Prop} {c : κ} {k : α → κ}
    {e : ε → κ} (hstep : ∀ c s c' s', I c s → R c s c' s' → I c' s')
    (h : ∀ s, I c s → Follows R c x s k e) :
    Triple (I c) x (fun a => I (k a)) fun g => I (e g) := by
  intro s hs
  have hI := (h s hs).invariant (I := I) hstep hs
  cases hr : x s with
  | ok a t => rwa [hr] at hI
  | error g t => rwa [hr] at hI

end Program

end BtcParser
