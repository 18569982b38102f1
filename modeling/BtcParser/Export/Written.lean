import BtcParser.Rpc.PartWriter
import Mathlib.Algebra.Order.Group.Multiset

/-!
Sequencer calls that run to their end: nothing is lost, nothing is written twice.

* `PartFiles.written` are the rows of one logical CSV written so far, in the open state part, in
  the export parts, or in parts a consumer has taken away.
* `Numbered` relates the fields of a sequencer to its files between two calls: at most the current
  part lies under `state_base`, and no export part has a number still to be used.
* `Numbered.writeBatched` and `Numbered.writeAtomic`: a call keeps `Numbered` and adds exactly its
  rows.
-/

namespace BtcParser

variable {R : Type}

namespace PartFiles

/-- The rows written so far. -/
def written (f : PartFiles R) : Multiset R :=
  f.state.total (fun _ p => (p.rows : Multiset R))
    + f.exported.total (fun _ p => (p.rows : Multiset R))
    + (f.consumed.map fun p => (p.rows : Multiset R)).sum

@[simp] lemma written_fresh : (fresh : PartFiles R).written = 0 := rfl

@[simp] lemma written_consume (f : PartFiles R) (n : ℕ) : (f.consume n).written = f.written := by
  unfold consume
  cases hp : f.exported.get? n with
  | none => rfl
  | some p =>
      have h := f.exported.total_erase hp (fun _ p => (p.rows : Multiset R))
      simp only [written, List.map_append, List.map_cons, List.map_nil, List.sum_append,
        List.sum_cons, List.sum_nil, add_zero]
      rw [← h]
      abel

lemma mem_written {f : PartFiles R} {p : Part R} (h : f.Holds p) {r : R} (hr : r ∈ p.rows) :
    r ∈ f.written := by
  simp only [written, Multiset.mem_add]
  obtain ⟨n, hn | hn⟩ := h
  · refine .inl (.inl ?_)
    rw [← f.state.total_erase hn, Multiset.mem_add]
    exact .inr hr
  · refine .inl (.inr ?_)
    rw [← f.exported.total_erase hn, Multiset.mem_add]
    exact .inr hr

end PartFiles

namespace PartEffect

open PartFiles

variable {f : PartFiles R} {n : ℕ}

lemma written_append (l : Part R) :
    ((append n l).apply f).written = f.written + (l.rows : Multiset R) := by
  simp only [apply, written]
  cases hp : f.state.get? n with
  | none =>
      rw [Dict.total_set_new hp]
      simp only [Option.getD_none, List.nil_append]
      abel
  | some p =>
      have h := Dict.total_set_old hp (p ++ l) (fun _ p => (p.rows : Multiset R))
      simp only [Part.rows_append, ← Multiset.coe_add] at h
      have h' : (f.state.set n (p ++ l)).total (fun _ p => (p.rows : Multiset R))
          = f.state.total (fun _ p => (p.rows : Multiset R)) + (l.rows : Multiset R) := by
        refine add_right_cancel (b := (p.rows : Multiset R)) ?_
        rw [h]
        abel
      simp only [Option.getD_some, h']
      abel

@[simp] lemma written_persist (b : Bool) : ((persist n b).apply f).written = f.written := rfl

lemma written_handOff (he : f.exported.get? n = none) :
    ((handOff n).apply f).written = f.written := by
  simp only [apply, written]
  cases hp : f.state.get? n with
  | none => rfl
  | some p =>
      have h := f.state.total_erase hp (fun _ p => (p.rows : Multiset R))
      simp only [Dict.total_set_new he, ← h]
      abel

lemma written_publish (he : f.exported.get? n = none) (l : Part R) :
    ((publish n l).apply f).written = f.written + (l.rows : Multiset R) := by
  simp only [apply, written, Dict.total_set_new he]
  abel

end PartEffect

/-- The fields of a sequencer and its files between two calls. -/
structure Numbered (s : PartSequencer) (f : PartFiles R) : Prop where
  counter : f.counter = some (s.currentPart, s.partIsOpen)
    ∨ f.counter = none ∧ s = ⟨0, false⟩ ∧ f.state = .empty ∧ f.exported = .empty
  state : ∀ n, f.state.contains n = true → s.partIsOpen = true ∧ n = s.currentPart
  exported : ∀ n, f.exported.contains n = true →
    n ≤ s.currentPart ∧ (s.partIsOpen = true → n ≠ s.currentPart)

lemma numbered_fresh : Numbered ⟨0, false⟩ (PartFiles.fresh : PartFiles R) where
  counter := .inr ⟨rfl, rfl, rfl, rfl⟩
  state n h := by cases h
  exported n h := by cases h

namespace Numbered

open PartSequencer PartEffect

variable {s : PartSequencer} {f : PartFiles R}

/-- A restart reads the fields back. -/
lemma load (h : Numbered s f) : PartSequencer.load f = s := by
  rcases h.counter with hc | ⟨hc, rfl, hs, he⟩
  · rw [PartSequencer.load, hc]
  · rw [PartSequencer.load, hc, hs, he]
    rfl

lemma consume (h : Numbered s f) (n : ℕ) : Numbered s (f.consume n) := by
  unfold PartFiles.consume
  cases hp : f.exported.get? n with
  | none => exact h
  | some p =>
      refine ⟨?_, h.state, fun m hm => h.exported m ?_⟩
      · rcases h.counter with hc | ⟨-, -, -, he⟩
        · exact .inl hc
        · rw [he] at hp
          cases hp
      · rw [Dict.contains_eq_true] at hm ⊢
        obtain ⟨q, hq⟩ := hm
        simp only [Dict.get?_erase, Option.ite_none_left_eq_some] at hq
        exact ⟨q, hq.2⟩

lemma get?_eq_none_of_lt (h : Numbered s f) {n : ℕ} (hn : s.currentPart < n) :
    f.exported.get? n = none ∧ f.state.get? n = none := by
  refine ⟨Dict.contains_eq_false.mp ?_, Dict.contains_eq_false.mp ?_⟩
  · by_contra hc
    have := (h.exported n (by simpa using hc)).1
    omega
  · by_contra hc
    have := (h.state n (by simpa using hc)).2
    omega

/-- Closing the open part loses nothing. -/
lemma closeIfOpen (h : Numbered s f) :
    Numbered (s.closeIfOpen f).1 (applyAll f (s.closeIfOpen f).2)
      ∧ (applyAll f (s.closeIfOpen f).2).written = f.written := by
  obtain ⟨n, b⟩ := s
  cases b with
  | false => exact ⟨h, rfl⟩
  | true =>
      have hnone : f.exported.get? n = none := by
        rw [← Dict.contains_eq_false]
        by_contra hc
        exact (h.exported n (by simpa using hc)).2 rfl rfl
      by_cases hs : f.state.contains n = true
      · simp only [PartSequencer.closeIfOpen, hs, if_true, List.cons_append, List.nil_append,
          applyAll_cons, applyAll_nil, written_persist, written_handOff hnone, and_true]
        obtain ⟨p, hp⟩ := Dict.contains_eq_true.mp hs
        have happly : (handOff n : PartEffect R).apply f
            = { f with state := f.state.erase n, exported := f.exported.set n p } := by
          simp [apply, hp]
        rw [happly]
        refine ⟨.inl rfl, fun m hm => ?_, fun m hm => ⟨?_, by simp⟩⟩
        · simp only [apply] at hm
          obtain ⟨q, hq⟩ := Dict.contains_eq_true.mp hm
          simp only [Dict.get?_erase, Option.ite_none_left_eq_some] at hq
          exact absurd (h.state m (Dict.contains_eq_true.mpr ⟨q, hq.2⟩)).2 hq.1
        · simp only [apply] at hm
          rcases (Dict.contains_set _ _ _ _).mp hm with rfl | hm
          · exact le_rfl
          · exact (h.exported m hm).1
      · simp only [PartSequencer.closeIfOpen, hs, if_true, Bool.false_eq_true, if_false,
          List.nil_append, applyAll_cons, applyAll_nil, written_persist, and_true]
        refine ⟨.inl rfl, fun m hm => ?_, fun m hm => ⟨(h.exported m hm).1, by simp⟩⟩
        exact absurd hm ((h.state m hm).2 ▸ hs)

lemma state_empty (h : Numbered s f) (hs : s.partIsOpen = false) (n : ℕ) :
    f.state.contains n = false := by
  by_contra hc
  simp [h.state n (by simpa using hc)] at hs

/-- Appending to the current part of an open sequencer, and recording it. -/
lemma append {g : PartFiles R} {n : ℕ} (hstate : ∀ m, g.state.contains m = true → m = n)
    (hexp : ∀ m, g.exported.contains m = true → m < n) (l : Part R) :
    Numbered ⟨n, true⟩ (applyAll g [PartEffect.append n l, .persist n true])
      ∧ (applyAll g [PartEffect.append n l, .persist n true]).written
        = g.written + (l.rows : Multiset R) := by
  refine ⟨⟨.inl rfl, fun m hm => ⟨rfl, ?_⟩, fun m hm => ⟨(hexp m hm).le, fun _ => (hexp m hm).ne⟩⟩,
    written_append l⟩
  rcases (Dict.contains_set _ _ _ _).mp hm with rfl | hm
  · rfl
  · exact hstate m hm

/-- **A batched write** keeps the numbering and adds its rows. -/
theorem writeBatched (h : Numbered s f) (fmt : Format R) (rows : List R) :
    Numbered (s.writeBatched fmt f rows).1 (applyAll f (s.writeBatched fmt f rows).2)
      ∧ (applyAll f (s.writeBatched fmt f rows).2).written
        = f.written + (rows : Multiset R) := by
  unfold PartSequencer.writeBatched
  split_ifs with hrows hnew
  · rw [List.isEmpty_iff] at hrows
    subst hrows
    exact ⟨h, by simp⟩
  · obtain ⟨hc, hw⟩ := h.closeIfOpen
    have hclosed : (s.closeIfOpen f).1.partIsOpen = false := by
      obtain ⟨n, b⟩ := s
      cases b <;> rfl
    simp only [applyAll_append]
    have happ := append (n := (s.closeIfOpen f).1.currentPart + 1)
      (g := applyAll f (s.closeIfOpen f).2)
      (fun m hm => by simp [hc.state_empty hclosed m] at hm)
      (fun m hm => Nat.lt_succ_of_le (hc.exported m hm).1)
      (writeCsv (!fileExists fmt f ((s.closeIfOpen f).1.currentPart + 1)) rows)
    rw [hw, rows_writeCsv] at happ
    exact happ
  · have hopen : s.partIsOpen = true := by
      cases ho : s.partIsOpen
      · simp [ho] at hnew
      · rfl
    obtain ⟨n, b⟩ := s
    simp only at hopen
    subst hopen
    have happ := append (n := n) (fun m hm => (h.state m hm).2)
      (fun m hm => lt_of_le_of_ne (h.exported m hm).1 ((h.exported m hm).2 rfl))
      (writeCsv (!fileExists fmt f n) rows)
    rw [rows_writeCsv] at happ
    exact happ

/-- **An atomic write** keeps the numbering and adds its rows. -/
theorem writeAtomic (h : Numbered s f) (rows : List R) :
    Numbered (s.writeAtomic f rows).1 (applyAll f (s.writeAtomic f rows).2)
      ∧ (applyAll f (s.writeAtomic f rows).2).written = f.written + (rows : Multiset R) := by
  unfold PartSequencer.writeAtomic
  split_ifs with hrows
  · rw [List.isEmpty_iff] at hrows
    subst hrows
    exact ⟨h, by simp⟩
  · obtain ⟨hc, hw⟩ := h.closeIfOpen
    have hclosed : (s.closeIfOpen f).1.partIsOpen = false := by
      obtain ⟨n, b⟩ := s
      cases b <;> rfl
    simp only [applyAll_append, applyAll_cons, applyAll_nil]
    set g := applyAll f (s.closeIfOpen f).2
    set n := (s.closeIfOpen f).1.currentPart + 1
    have hnone := hc.get?_eq_none_of_lt (Nat.lt_succ_self (s.closeIfOpen f).1.currentPart)
    refine ⟨⟨.inl rfl, fun m hm => ?_, fun m hm => ⟨?_, by simp⟩⟩, ?_⟩
    · simp [apply, hc.state_empty hclosed m] at hm
    · rcases (Dict.contains_set _ _ _ _).mp hm with rfl | hm
      · exact le_rfl
      · exact (hc.exported m hm).1.trans (Nat.le_succ _)
    · rw [written_publish (by simpa [apply] using hnone.1), written_persist, hw, rows_writeCsv]

end Numbered

end BtcParser
