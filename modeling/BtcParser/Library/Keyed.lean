import BtcParser.Library.Dict

/-!
Dictionaries of records that carry their own key.

In a `Keyed key` every record is stored under its key, as a field says, so that a lookup tells the
key of what it finds.

* `get_put`, `get_remove` and `get_dumped` are the laws of lookup, `mem_all` and `all_nodup` those
  of the list of records.
* `get_load`: what was written out as a list of records is read back.
-/

namespace BtcParser

/-- Records, each under its own key. -/
structure Keyed {K V : Type} [DecidableEq K] (key : V → K) where
  entries : Dict K V
  keyed : ∀ k v, entries.get? k = some v → key v = k

namespace Keyed

variable {K V : Type} [DecidableEq K] {key : V → K}

instance [DecidableEq V] : DecidableEq (Keyed key) := fun s t =>
  decidable_of_iff (s.entries = t.entries) <| by
    cases s
    cases t
    simp

/-- No records. -/
def empty : Keyed key := ⟨.empty, by simp⟩

/-- The record of a key. -/
def get (s : Keyed key) (k : K) : Option V := s.entries.get? k

/-- `in`. -/
def contains (s : Keyed key) (k : K) : Bool := s.entries.contains k

/-- The records, in the order of insertion. -/
def all (s : Keyed key) : List V := s.entries.values

/-- Store a record. -/
def put (s : Keyed key) (v : V) : Keyed key :=
  ⟨s.entries.set (key v) v, fun k v' hv' => by
    rw [Dict.get?_set] at hv'
    split_ifs at hv' with hk
    · cases hv'
      exact hk.symm
    · exact s.keyed k v' hv'⟩

/-- Delete a record. -/
def remove (s : Keyed key) (k : K) : Keyed key :=
  ⟨s.entries.erase k, fun k' v hv => by
    rw [Dict.get?_erase] at hv
    split_ifs at hv
    exact s.keyed k' v hv⟩

/-- The records in the order of their keys. -/
def dumped {K : Type} [LinearOrder K] {key : V → K} (s : Keyed key) : Keyed key :=
  ⟨s.entries.sorted, fun k v hv => s.keyed k v (by rwa [Dict.get?_sorted] at hv)⟩

/-- Store the records of a list one after the other. -/
def load (l : List V) : Keyed key := l.foldl put empty

@[simp] lemma get_empty (k : K) : (empty : Keyed key).get k = none := rfl

lemma get_put (s : Keyed key) (v : V) (k : K) :
    (s.put v).get k = if k = key v then some v else s.get k :=
  Dict.get?_set _ _ _ _

lemma get_remove (s : Keyed key) (k k' : K) :
    (s.remove k).get k' = if k' = k then none else s.get k' :=
  Dict.get?_erase _ _ _

@[simp] lemma get_dumped {K : Type} [LinearOrder K] {key : V → K} (s : Keyed key) (k : K) :
    s.dumped.get k = s.get k :=
  Dict.get?_sorted _ _

lemma key_of_get {s : Keyed key} {k : K} {v : V} (h : s.get k = some v) : key v = k :=
  s.keyed k v h

lemma contains_iff {s : Keyed key} {k : K} : s.contains k = true ↔ ∃ v, s.get k = some v :=
  Dict.contains_eq_true

lemma mem_all {s : Keyed key} {v : V} : v ∈ s.all ↔ s.get (key v) = some v := by
  rw [all, Dict.mem_values_iff]
  constructor
  · rintro ⟨k, hk⟩
    rwa [s.keyed k v hk]
  · exact fun h => ⟨_, h⟩

/-- The records have pairwise distinct keys. -/
lemma all_nodup (s : Keyed key) : (s.all.map key).Nodup := by
  have hkeys : s.all.map key = s.entries.keys := by
    rw [all, Dict.values, Dict.keys, List.map_map]
    refine List.map_congr_left fun p hp => ?_
    exact s.keyed p.1 p.2 (Dict.get?_eq_some_iff.mpr hp)
  rw [hkeys]
  exact s.entries.keys_nodup

/-- What a list of records is read back as is in the list. -/
lemma mem_of_get_load {l : List V} {k : K} {v : V} (h : (load l : Keyed key).get k = some v) :
    v ∈ l := by
  suffices hfold : ∀ s : Keyed key, (l.foldl put s).get k = some v → v ∈ l ∨ s.get k = some v from
    (hfold empty h).resolve_right fun hnone => nomatch hnone
  clear h
  induction l with
  | nil => exact fun s h => .inr h
  | cons u l ih =>
      intro s h
      rcases ih _ h with hv | hv
      · exact .inl (List.mem_cons_of_mem _ hv)
      · rw [get_put] at hv
        split_ifs at hv
        · exact .inl (List.mem_cons.mpr (.inl (Option.some.inj hv).symm))
        · exact .inr hv

/-- Reading back a list of records of different keys. -/
lemma get_load {l : List V} (hl : (l.map key).Nodup) {k : K} {v : V} :
    (load l : Keyed key).get k = some v ↔ v ∈ l ∧ key v = k := by
  suffices h : ∀ s : Keyed key, (∀ v ∈ l, s.get (key v) = none) →
      ((l.foldl put s).get k = some v ↔ v ∈ l ∧ key v = k ∨ s.get k = some v) by
    simpa [load] using h empty fun _ _ => rfl
  induction l with
  | nil => simp
  | cons u l ih =>
      intro s hs
      simp only [List.map_cons, List.nodup_cons] at hl
      have hput : ∀ v ∈ l, (s.put u).get (key v) = none := fun v hv => by
        have hne : key v ≠ key u := fun heq => hl.1 (heq ▸ List.mem_map_of_mem hv)
        rw [get_put, if_neg hne]
        exact hs v (List.mem_cons_of_mem _ hv)
      rw [List.foldl_cons, ih hl.2 _ hput, get_put, List.mem_cons]
      by_cases hk : k = key u
      · subst hk
        have hnone := hs u List.mem_cons_self
        simp only [if_pos, Option.some.injEq, hnone, reduceCtorEq, or_false]
        constructor
        · rintro (⟨hv, hkey⟩ | rfl)
          · exact ⟨.inr hv, hkey⟩
          · exact ⟨.inl rfl, rfl⟩
        · rintro ⟨rfl | hv, hkey⟩
          · exact .inr rfl
          · exact .inl ⟨hv, hkey⟩
      · rw [if_neg hk]
        constructor
        · rintro (⟨hv, hkey⟩ | hv)
          · exact .inl ⟨.inr hv, hkey⟩
          · exact .inr hv
        · rintro (⟨rfl | hv, hkey⟩ | hv)
          · exact absurd hkey.symm hk
          · exact .inl ⟨hv, hkey⟩
          · exact .inr hv

end Keyed

end BtcParser
