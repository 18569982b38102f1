import Mathlib.Tactic

/-!
Counters that a loop keeps next to the rows it writes.

* `foldl_of_snoc`: counters that are a function of the rows after each step are this function of
  the rows after the loop.
* `filter_flatMap_zipIdx`: rows that carry the index of what they come from are found again by it.
* `filter_sum_map`: so are rows of many sources that carry a key, in whatever order they are.
-/

namespace BtcParser

variable {R S P K : Type}

/-- Counters that one step keeps equal to `f` of the rows are `f` of all the rows. -/
lemma foldl_of_snoc {f : List R → S} {step : S → P → S} {row : P → R}
    (h : ∀ rows p, step (f rows) p = f (rows ++ [row p])) (l : List P) (rows : List R) :
    l.foldl step (f rows) = f (rows ++ l.map row) := by
  induction l generalizing rows with
  | nil => simp
  | cons p l ih => rw [List.foldl_cons, h, ih, List.append_assoc, List.map_cons,
      List.singleton_append]

lemma foldl_of_snoc_self (f : List R → S) {step : S → R → S}
    (h : ∀ rows r, step (f rows) r = f (rows ++ [r])) (l : List R) :
    l.foldl step (f []) = f l := by
  have hself : ∀ rows r, step (f rows) r = f (rows ++ [id r]) := h
  rw [foldl_of_snoc hself, List.map_id, List.nil_append]

lemma filterMap_singleton_toList (f : R → Option S) (r : R) : [r].filterMap f = (f r).toList := by
  cases h : f r <;> simp [h]

/-- Of rows that carry the index of their source, those of one index are the rows of one source. -/
lemma filter_flatMap_zipIdx {f : P × ℕ → List R} {index : R → ℕ}
    (hf : ∀ p, ∀ r ∈ f p, index r = p.2) (l : List P) (n i : ℕ) (a : P) (ha : l[i]? = some a) :
    ((l.zipIdx n).flatMap f).filter (index · = n + i) = f (a, n + i) := by
  -- the rows of every later source carry a greater index
  have hlater : ∀ (l : List P) (k m : ℕ), m < k →
      ((l.zipIdx k).flatMap f).filter (index · = m) = [] := by
    intro l k m hk
    rw [List.filter_eq_nil_iff]
    intro r hr
    obtain ⟨p, hp, hr⟩ := List.mem_flatMap.mp hr
    have hle := List.le_snd_of_mem_zipIdx hp
    have hindex := hf p r hr
    simp only [decide_eq_true_eq]
    omega
  induction l generalizing n i with
  | nil => simp at ha
  | cons b l ih =>
      rw [List.zipIdx_cons, List.flatMap_cons, List.filter_append]
      cases i with
      | zero =>
          rw [List.getElem?_cons_zero, Option.some.injEq] at ha
          subst ha
          rw [Nat.add_zero, hlater l (n + 1) n (by omega), List.append_nil, List.filter_eq_self]
          intro r hr
          simpa using hf _ r hr
      | succ i =>
          rw [List.getElem?_cons_succ] at ha
          have hnone : (f (b, n)).filter (index · = n + (i + 1)) = [] := by
            rw [List.filter_eq_nil_iff]
            intro r hr
            have hindex := hf _ r hr
            simp only [decide_eq_true_eq]
            omega
          rw [hnone, List.nil_append, show n + (i + 1) = n + 1 + i by omega, ih (n + 1) i ha]

/-! ### Multisets of rows by key -/

lemma mem_sum_map {f : K → Multiset R} {keys : List K} {r : R} :
    r ∈ (keys.map f).sum ↔ ∃ k ∈ keys, r ∈ f k := by
  induction keys with
  | nil => simp
  | cons k keys ih => simp [ih]

lemma filterMap_sum_map (g : R → Option S) (f : K → Multiset R) (keys : List K) :
    ((keys.map f).sum).filterMap g = (keys.map fun k => (f k).filterMap g).sum := by
  induction keys with
  | nil => rfl
  | cons k keys ih => simp only [List.map_cons, List.sum_cons, Multiset.filterMap_add, ih]

/-- Of rows that carry the key of their source, those of one key are the rows of one source. -/
lemma filter_sum_map [DecidableEq K] {f : K → Multiset R} {key : R → K}
    (hf : ∀ k, ∀ r ∈ f k, key r = k) {keys : List K} (hn : keys.Nodup) {k : K} (hk : k ∈ keys) :
    ((keys.map f).sum).filter (key · = k) = f k := by
  have hnone : ∀ l : List K, k ∉ l → ((l.map f).sum).filter (key · = k) = 0 := by
    intro l hl
    rw [Multiset.filter_eq_nil]
    rintro r hr rfl
    obtain ⟨k', hk', hr⟩ := mem_sum_map.mp hr
    exact hl (hf k' r hr ▸ hk')
  have hall : (f k).filter (key · = k) = f k := Multiset.filter_eq_self.mpr (hf k)
  induction keys with
  | nil => cases hk
  | cons x keys ih =>
      obtain ⟨hx, hn⟩ := List.nodup_cons.mp hn
      rw [List.map_cons, List.sum_cons, Multiset.filter_add]
      rcases List.mem_cons.mp hk with rfl | hk
      · rw [hall, hnone keys hx, add_zero]
      · have hne : ((f x).filter (key · = k)) = 0 := by
          rw [Multiset.filter_eq_nil]
          rintro r hr rfl
          exact hx (hf x r hr ▸ hk)
        rw [hne, zero_add, ih hn hk]

end BtcParser
