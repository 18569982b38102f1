import Mathlib.Tactic

/-!
Histories: lists to which entries are added at the end, and what holds in them of the past.

* `Throughout Φ l`: every entry is as `Φ` says of it and of those before it.
* `Since mark quiet t l`: there was an entry with the mark `t`, and every entry behind it is `quiet`
  with respect to `t`.

Both are kept one entry at a time: `throughout_concat`, `since_of_mark` and `Since.concat`.
-/

namespace BtcParser.History

variable {α τ : Type*}

/-- Every entry is as `Φ` says of it and of those before it. -/
def Throughout (Φ : List α → α → Prop) (l : List α) : Prop :=
  ∀ before a after, l = before ++ a :: after → Φ before a

lemma throughout_nil (Φ : List α → α → Prop) : Throughout Φ [] := by
  intro before a after h
  simp at h

lemma throughout_concat {Φ : List α → α → Prop} {l : List α} {a : α} :
    Throughout Φ (l ++ [a]) ↔ Throughout Φ l ∧ Φ l a := by
  constructor
  · refine fun h => ⟨fun before b after hl => h before b (after ++ [a]) (by simp [hl]), ?_⟩
    exact h l a [] rfl
  · rintro ⟨h, ha⟩ before b after hl
    rcases List.eq_nil_or_concat' after with rfl | ⟨front, c, rfl⟩
    · obtain ⟨rfl, hb⟩ := List.append_inj' hl rfl
      obtain rfl : a = b := by simpa using hb
      exact ha
    · have hfront : l ++ [a] = (before ++ b :: front) ++ [c] := by simpa using hl
      exact h before b front (List.append_inj' hfront rfl).1

/-- There was an entry with the mark `t`, and since then all entries are quiet. -/
def Since (mark : α → Option τ) (quiet : τ → α → Prop) (t : τ) (l : List α) : Prop :=
  ∃ before a since, l = before ++ a :: since ∧ mark a = some t ∧ ∀ b ∈ since, quiet t b

variable {mark : α → Option τ} {quiet quiet' : τ → α → Prop} {t : τ} {l : List α} {a : α}

lemma since_of_mark (quiet : τ → α → Prop) (l : List α) (h : mark a = some t) :
    Since mark quiet t (l ++ [a]) :=
  ⟨l, a, [], rfl, h, fun _ hb => by cases hb⟩

lemma Since.concat (h : Since mark quiet t l) (ha : quiet t a) :
    Since mark quiet t (l ++ [a]) := by
  obtain ⟨before, b, since, rfl, hb, hsince⟩ := h
  refine ⟨before, b, since ++ [a], by simp, hb, fun c hc => ?_⟩
  rcases List.mem_append.mp hc with hc | hc
  · exact hsince c hc
  · rw [List.mem_singleton.mp hc]
    exact ha

lemma Since.mono (h : Since mark quiet t l) (hq : ∀ b ∈ l, quiet t b → quiet' t b) :
    Since mark quiet' t l := by
  obtain ⟨before, b, since, rfl, hb, hsince⟩ := h
  exact ⟨before, b, since, rfl, hb, fun c hc => hq c (by simp [hc]) (hsince c hc)⟩

end BtcParser.History
