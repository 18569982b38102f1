import Mathlib.Tactic
import Mathlib.Logic.Relation

/-!
Programs as paths of a transition relation.

A program is a term of `EStateM ε σ α`: it reads and changes a state, and the state survives an
exception, which is how mutable objects behave in the languages these programs come from. To
reason about one step of a program at a time, its text is given control points `κ`, and a relation
`R` says which steps lead from one control point and state to the next.

* `Follows R c x s k e`: the run of `x` from the state `s` is a path of `R` from the control point
  `c` to the control point `k a` of its value `a`, or to the control point `e f` of its exception
  `f`. There is one rule for each way of building a program.
* `Follows.invariant`: what every step of `R` preserves, and holds where the program starts, holds
  where it ends.
* `Commutes f x`: the program does the same from two states that `f` relates, and leaves two such
  states.
-/

namespace BtcParser

namespace Program

open Relation

variable {ε σ κ α β : Type} {R : κ → σ → κ → σ → Prop}

/-! ### Running a program -/

lemma bind_apply (x : EStateM ε σ α) (y : α → EStateM ε σ β) (s : σ) :
    (x >>= y) s = match x s with
      | .ok a t => y a t
      | .error e t => .error e t := rfl

/-- What comes behind a program that does not fail. -/
lemma bind_of_ok {x : EStateM ε σ α} {s t : σ} {a : α} (h : x s = .ok a t)
    (y : α → EStateM ε σ β) : (x >>= y) s = y a t := by
  rw [bind_apply, h]

@[simp] lemma pure_apply (a : α) (s : σ) : (pure a : EStateM ε σ α) s = .ok a s := rfl

@[simp] lemma throw_apply (e : ε) (s : σ) : (throw e : EStateM ε σ α) s = .error e s := rfl

@[simp] lemma get_apply (s : σ) : (get : EStateM ε σ σ) s = .ok s s := rfl

@[simp] lemma modify_apply (f : σ → σ) (s : σ) :
    (modify f : EStateM ε σ Unit) s = .ok () (f s) := rfl

/-- A loop over one element. -/
lemma forM_singleton_apply (f : β → EStateM ε σ PUnit) (b : β) (s : σ) :
    [b].forM f s = f b s := by
  have hcons : [b].forM f = f b >>= fun _ => pure PUnit.unit := rfl
  rw [hcons, bind_apply]
  cases f b s <;> rfl

/-- What a run that does not fail returns, and the state it leaves. -/
def finished : EStateM.Result ε σ α → Option (α × σ)
  | .ok a t => some (a, t)
  | .error _ _ => none

lemma finished_eq_some {r : EStateM.Result ε σ α} {p : α × σ} :
    finished r = some p ↔ r = .ok p.1 p.2 := by
  cases r with
  | ok a t => simp [finished, Prod.ext_iff]
  | error e t => simp [finished]

/-- The state a run leaves, whether it fails or not. -/
def left : EStateM.Result ε σ α → σ
  | .ok _ t => t
  | .error _ t => t

lemma left_bind (x : EStateM ε σ α) (y : α → EStateM ε σ β) (s : σ) :
    left ((x >>= y) s) = match x s with
      | .ok a t => left (y a t)
      | .error _ t => t := by
  rw [bind_apply]
  cases x s <;> rfl

/-- What is listed behind a run that does not fail. -/
def onSuccess (r : EStateM.Result ε σ α) (f : α → σ → List β) : List β :=
  match r with
  | .ok a t => f a t
  | .error _ _ => []

/-! ### Following a transition relation -/

/-- The steps of `R` on pairs. -/
def Pairs (R : κ → σ → κ → σ → Prop) (p q : κ × σ) : Prop := R p.1 p.2 q.1 q.2

/-- Finitely many steps of `R`. -/
def Steps (R : κ → σ → κ → σ → Prop) (c : κ) (s : σ) (c' : κ) (s' : σ) : Prop :=
  ReflTransGen (Pairs R) (c, s) (c', s')

/-- The run of `x` from `c` and `s` is a path of `R`. -/
def Follows (R : κ → σ → κ → σ → Prop) (c : κ) (x : EStateM ε σ α) (s : σ) (k : α → κ)
    (e : ε → κ) : Prop :=
  match x s with
  | .ok a s' => Steps R c s (k a) s'
  | .error f s' => Steps R c s (e f) s'

lemma Steps.refl (c : κ) (s : σ) : Steps R c s c s := ReflTransGen.refl

lemma Steps.single {c c' : κ} {s s' : σ} (h : R c s c' s') : Steps R c s c' s' :=
  ReflTransGen.single h

lemma Steps.trans {c c' c'' : κ} {s s' s'' : σ} (h : Steps R c s c' s')
    (h' : Steps R c' s' c'' s'') : Steps R c s c'' s'' :=
  ReflTransGen.trans h h'

variable {c c' : κ} {s s' : σ} {k : α → κ} {e : ε → κ}

/-- Steps before the program. -/
lemma Follows.of_steps {x : EStateM ε σ α} (h : Steps R c s c' s) (hx : Follows R c' x s k e) :
    Follows R c x s k e := by
  unfold Follows at hx ⊢
  cases hr : x s with
  | ok a t =>
      rw [hr] at hx
      exact h.trans hx
  | error f t =>
      rw [hr] at hx
      exact h.trans hx

/-- The rule of sequencing: the second program starts where the first ends. -/
lemma follows_bind {x : EStateM ε σ α} {y : α → EStateM ε σ β} {k' : β → κ} {m : α → κ}
    (hx : Follows R c x s m e) (hy : ∀ a t, x s = .ok a t → Follows R (m a) (y a) t k' e) :
    Follows R c (x >>= y) s k' e := by
  show match EStateM.bind x y s with
    | .ok b t => Steps R c s (k' b) t
    | .error f t => Steps R c s (e f) t
  unfold EStateM.bind
  unfold Follows at hx
  cases hr : x s with
  | error f t =>
      rw [hr] at hx
      exact hx
  | ok a t =>
      rw [hr] at hx
      have h := hy a t hr
      unfold Follows at h
      simp only
      cases hr' : y a t with
      | ok b u =>
          rw [hr'] at h
          exact hx.trans h
      | error f u =>
          rw [hr'] at h
          exact hx.trans h

lemma follows_get {y : σ → EStateM ε σ β} {k' : β → κ} (hy : Follows R c (y s) s k' e) :
    Follows R c (get >>= y) s k' e := hy

lemma follows_modify {f : σ → σ} {y : Unit → EStateM ε σ β} {k' : β → κ}
    (h : Steps R c s c' (f s)) (hy : Follows R c' (y ()) (f s) k' e) :
    Follows R c (modify f >>= y) s k' e :=
  follows_bind (m := fun _ => c') h fun _ _ ht => by
    cases ht
    exact hy

/-- The induction along a path. -/
lemma Steps.invariant {I : κ → σ → Prop} (hstep : ∀ c s c' s', I c s → R c s c' s' → I c' s')
    (h : Steps R c s c' s') (h0 : I c s) : I c' s' := by
  suffices ∀ p : κ × σ, ReflTransGen (Pairs R) (c, s) p → I p.1 p.2 from this _ h
  intro p hp
  induction hp with
  | refl => exact h0
  | tail _ h ih => exact hstep _ _ _ _ ih h

/-- What every step preserves holds at the end of the program. -/
theorem Follows.invariant {I : κ → σ → Prop} (hstep : ∀ c s c' s', I c s → R c s c' s' → I c' s')
    {x : EStateM ε σ α} (h : Follows R c x s k e) (h0 : I c s) :
    match x s with
    | .ok a s' => I (k a) s'
    | .error f s' => I (e f) s' := by
  unfold Follows at h
  cases hr : x s with
  | ok a t =>
      rw [hr] at h
      exact h.invariant (I := I) hstep h0
  | error f t =>
      rw [hr] at h
      exact h.invariant (I := I) hstep h0

/-! ### Programs that a map of the states commutes with -/

/-- A map of the states, on the state a run leaves. -/
def mapState (f : σ → σ) : EStateM.Result ε σ α → EStateM.Result ε σ α
  | .ok a t => .ok a (f t)
  | .error e t => .error e (f t)

/-- The program does the same before and after `f`. -/
def Commutes (f : σ → σ) (x : EStateM ε σ α) : Prop := ∀ s, x (f s) = mapState f (x s)

variable {f : σ → σ}

lemma commutes_pure (a : α) : Commutes f (pure a : EStateM ε σ α) := fun _ => rfl

lemma commutes_modify {g : σ → σ} (h : ∀ s, g (f s) = f (g s)) :
    Commutes f (modify g : EStateM ε σ Unit) := fun s => by
  rw [modify_apply, modify_apply, mapState, h]

lemma Commutes.bind {x : EStateM ε σ α} {y : α → EStateM ε σ β} (hx : Commutes f x)
    (hy : ∀ a, Commutes f (y a)) : Commutes f (x >>= y) := by
  intro s
  rw [bind_apply, bind_apply, hx s]
  cases x s with
  | ok a t => exact hy a t
  | error e t => rfl

/-- A program that reads from the state only what `f` leaves alone. -/
lemma commutes_get {y : σ → EStateM ε σ β} (hf : ∀ s, y (f s) = y s)
    (hy : ∀ s, Commutes f (y s)) : Commutes f (get >>= y) := by
  intro s
  rw [bind_apply, bind_apply, get_apply, get_apply]
  simp only [hf]
  exact hy s s

lemma commutes_forM {y : α → EStateM ε σ PUnit} (hy : ∀ a, Commutes f (y a)) (l : List α) :
    Commutes f (l.forM y) := by
  induction l with
  | nil => exact commutes_pure _
  | cons a l ih => exact (hy a).bind fun _ => ih

lemma mapState_ok {a : α} {s : σ} {r : EStateM.Result ε σ α} (h : mapState f r = .ok a s) :
    ∃ t, r = .ok a t ∧ s = f t := by
  cases r with
  | ok b t =>
      cases h
      exact ⟨t, rfl, rfl⟩
  | error e t => cases h

end Program

end BtcParser
