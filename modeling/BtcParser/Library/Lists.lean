import Mathlib.Tactic

/-!
Lists of computations that can fail, and lists that are related entry by entry.

* `mapM_eq_some_iff`: all of them succeed, and `mem_of_mapM_eq_some` says what the results are.
* `mapM_congr_mem`: computations that agree on the elements.
* `exists_of_forall₂`: an element of a list has a partner in the other one.
* `eq_of_nodup_filterMap`: what is computed once has one source.
* `exists_foldlM_ok`: a fold that can raise exceptions, under an invariant that excludes them.
-/

namespace BtcParser

variable {α β : Type*}

/-- All computations succeed, with the results of the list. -/
lemma mapM_eq_some_iff {f : α → Option β} {l : List α} {r : List β} :
    l.mapM f = some r ↔ l.map f = r.map some := by
  induction l generalizing r with
  | nil => cases r <;> simp
  | cons a l ih =>
      rw [List.mapM_cons, List.map_cons]
      cases ha : f a with
      | none => cases r <;> simp
      | some b =>
          cases r with
          | nil => cases l.mapM f <;> simp
          | cons b' r =>
              simp only [List.map_cons, List.cons.injEq, Option.some.injEq, ← ih]
              cases l.mapM f <;> simp

lemma mapM_cons_eq_some_iff {f : α → Option β} {a : α} {l : List α} {r : List β} :
    (a :: l).mapM f = some r ↔ ∃ b r', f a = some b ∧ l.mapM f = some r' ∧ b :: r' = r := by
  rw [List.mapM_cons]
  cases f a with
  | none => simp
  | some b => cases l.mapM f <;> simp

/-- Computations that succeed on all elements succeed on the list. -/
lemma exists_mapM_eq_some {f : α → Option β} {l : List α} (h : ∀ a ∈ l, ∃ b, f a = some b) :
    ∃ r, l.mapM f = some r := by
  induction l with
  | nil => exact ⟨[], rfl⟩
  | cons a l ih =>
      obtain ⟨b, hb⟩ := h a List.mem_cons_self
      obtain ⟨r, hr⟩ := ih fun a' ha' => h a' (List.mem_cons_of_mem a ha')
      exact ⟨b :: r, mapM_cons_eq_some_iff.mpr ⟨b, r, hb, hr, rfl⟩⟩

/-- The results are those of the elements. -/
lemma mem_of_mapM_eq_some {f : α → Option β} {l : List α} {r : List β} (h : l.mapM f = some r)
    {b : β} : b ∈ r ↔ ∃ a ∈ l, f a = some b := by
  rw [← List.mem_map, mapM_eq_some_iff.mp h, List.mem_map_of_injective (Option.some_injective β)]

lemma mapM_congr_mem {f g : α → Option β} {l : List α} (h : ∀ a ∈ l, f a = g a) :
    l.mapM f = l.mapM g := by
  induction l with
  | nil => rfl
  | cons a l ih =>
      rw [List.mapM_cons, List.mapM_cons, h a List.mem_cons_self,
        ih fun b hb => h b (List.mem_cons_of_mem _ hb)]

lemma exists_of_forall₂ {r : α → β → Prop} {l : List α} {l' : List β} (h : List.Forall₂ r l l')
    {a : α} (ha : a ∈ l) : ∃ b ∈ l', r a b := by
  induction h with
  | nil => cases ha
  | @cons a₀ b₀ l l' h₀ _ ih =>
      rcases List.mem_cons.mp ha with rfl | ha
      · exact ⟨b₀, List.mem_cons_self, h₀⟩
      · obtain ⟨b, hb, hab⟩ := ih ha
        exact ⟨b, List.mem_cons_of_mem _ hb, hab⟩

/-- If no result occurs twice, then each comes from one element. -/
lemma eq_of_nodup_filterMap {f : α → Option β} {l : List α} (h : (l.filterMap f).Nodup) {a a' : α}
    (ha : a ∈ l) (ha' : a' ∈ l) {b : β} (hb : f a = some b) (hb' : f a' = some b) : a = a' := by
  induction l with
  | nil => cases ha
  | cons c l ih =>
      rcases List.mem_cons.mp ha with rfl | hl <;> rcases List.mem_cons.mp ha' with rfl | hl'
      · rfl
      · rw [List.filterMap_cons_some hb] at h
        exact absurd (List.mem_filterMap.mpr ⟨a', hl', hb'⟩) (List.nodup_cons.mp h).1
      · rw [List.filterMap_cons_some hb'] at h
        exact absurd (List.mem_filterMap.mpr ⟨a, hl, hb⟩) (List.nodup_cons.mp h).1
      · refine ih (h.sublist ?_) hl hl'
        exact (List.sublist_cons_self c l).filterMap f

/-! ### Exceptions -/

variable {ε σ α β : Type}

lemma exists_of_map_eq_ok {f : α → β} {x : Except ε α} {b : β} (h : x.map f = .ok b) :
    ∃ a, x = .ok a ∧ f a = b := by
  cases x with
  | error e => cases h
  | ok a => exact ⟨a, rfl, Except.ok.inj h⟩

/-- A fold whose steps keep an invariant and raise nothing under it. -/
lemma exists_foldlM_ok {f : σ → α → Except ε σ} {I : σ → Prop} {l : List α}
    (h : ∀ a ∈ l, ∀ s, I s → ∃ s', f s a = .ok s' ∧ I s') {s : σ} (hs : I s) :
    ∃ s', l.foldlM f s = .ok s' ∧ I s' := by
  induction l generalizing s with
  | nil => exact ⟨s, rfl, hs⟩
  | cons a l ih =>
      obtain ⟨s₁, hok, hs₁⟩ := h a List.mem_cons_self s hs
      rw [List.foldlM_cons, hok]
      exact ih (fun b hb => h b (List.mem_cons_of_mem _ hb)) hs₁

end BtcParser
