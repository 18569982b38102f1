import Mathlib.Tactic
import Mathlib.Algebra.BigOperators.Group.List.Basic
import Mathlib.Data.List.Nodup

/-!
Dictionaries that keep the order of insertion, as the dictionaries of a scripting language do.

A `Dict` is an association list whose keys are pairwise distinct, the distinctness being a
field, so that no lemma has to carry it.

* `Dict.set` overwrites in place, or appends at the end when the key is new.
* `get?_set`, `get?_erase`, `get?_update` and `get?_merge` are the laws of lookup; in `update` the
  later entry wins, in `merge` the earlier one.
* `total` sums a quantity over the entries. `total_set_new`, `total_set_old` and `total_erase`
  are its bookkeeping laws, in the form that needs no subtraction.
-/

namespace BtcParser

/-- An association list with pairwise distinct keys, in insertion order. -/
structure Dict (K V : Type) where
  entries : List (K × V)
  nodup : (entries.map Prod.fst).Nodup

namespace Dict

variable {K V : Type}

instance [DecidableEq K] [DecidableEq V] : DecidableEq (Dict K V) := fun d e =>
  decidable_of_iff (d.entries = e.entries) <| by
    cases d; cases e; simp

/-- The empty dictionary. -/
def empty : Dict K V := ⟨[], by simp⟩

instance : Inhabited (Dict K V) := ⟨empty⟩

/-- The keys, in insertion order. -/
def keys (d : Dict K V) : List K := d.entries.map Prod.fst

/-- The values, in insertion order of their keys. -/
def values (d : Dict K V) : List V := d.entries.map Prod.snd

@[simp] lemma entries_empty : (empty : Dict K V).entries = [] := rfl

@[simp] lemma keys_empty : (empty : Dict K V).keys = [] := rfl

@[simp] lemma values_empty : (empty : Dict K V).values = [] := rfl

lemma keys_nodup (d : Dict K V) : d.keys.Nodup := d.nodup

section Lookup

variable [DecidableEq K]

/-- Lookup in an association list. -/
def lookup : List (K × V) → K → Option V
  | [], _ => none
  | (k', v) :: l, k => if k' = k then some v else lookup l k

/-- Overwrite in place, or append at the end. -/
def assign : List (K × V) → K → V → List (K × V)
  | [], k, v => [(k, v)]
  | (k', v') :: l, k, v => if k' = k then (k, v) :: l else (k', v') :: assign l k v

/-- Delete the entry of a key. -/
def discard : List (K × V) → K → List (K × V)
  | [], _ => []
  | (k', v) :: l, k => if k' = k then l else (k', v) :: discard l k

lemma mem_map_fst_assign (l : List (K × V)) (k k₀ : K) (v : V) :
    k₀ ∈ (assign l k v).map Prod.fst ↔ k₀ = k ∨ k₀ ∈ l.map Prod.fst := by
  induction l with
  | nil => simp [assign]
  | cons p l ih =>
      obtain ⟨k', v'⟩ := p
      by_cases h : k' = k
      · simp [assign, h]
      · simp only [assign, if_neg h, List.map_cons, List.mem_cons, ih]
        tauto

lemma nodup_assign {l : List (K × V)} (h : (l.map Prod.fst).Nodup) (k : K) (v : V) :
    ((assign l k v).map Prod.fst).Nodup := by
  induction l with
  | nil => simp [assign]
  | cons p l ih =>
      obtain ⟨k', v'⟩ := p
      simp only [List.map_cons, List.nodup_cons] at h
      by_cases hk : k' = k
      · subst hk
        simpa [assign] using h
      · simp only [assign, if_neg hk, List.map_cons, List.nodup_cons, mem_map_fst_assign]
        exact ⟨by tauto, ih h.2⟩

lemma lookup_assign (l : List (K × V)) (k k₀ : K) (v : V) :
    lookup (assign l k v) k₀ = if k₀ = k then some v else lookup l k₀ := by
  induction l with
  | nil => simp only [assign, lookup, eq_comm]
  | cons p l ih =>
      obtain ⟨k', v'⟩ := p
      by_cases hk : k' = k
      · subst hk
        by_cases h0 : k' = k₀
        · simp [assign, lookup, h0]
        · simp [assign, lookup, h0, Ne.symm h0]
      · by_cases h0 : k' = k₀
        · subst h0
          simp [assign, lookup, hk]
        · simp [assign, lookup, hk, h0, ih]

lemma discard_sublist (l : List (K × V)) (k : K) : (discard l k).Sublist l := by
  induction l with
  | nil => exact List.Sublist.refl _
  | cons p l ih =>
      obtain ⟨k', v⟩ := p
      rw [discard]
      split
      · exact List.sublist_cons_self _ _
      · exact ih.cons_cons _

lemma lookup_eq_none_of_notMem {l : List (K × V)} {k : K} (h : k ∉ l.map Prod.fst) :
    lookup l k = none := by
  induction l with
  | nil => rfl
  | cons p l ih =>
      obtain ⟨k', v⟩ := p
      simp only [List.map_cons, List.mem_cons, not_or] at h
      rw [lookup, if_neg (Ne.symm h.1), ih h.2]

lemma lookup_discard {l : List (K × V)} (hl : (l.map Prod.fst).Nodup) (k k₀ : K) :
    lookup (discard l k) k₀ = if k₀ = k then none else lookup l k₀ := by
  induction l with
  | nil => simp [discard, lookup]
  | cons p l ih =>
      obtain ⟨k', v⟩ := p
      simp only [List.map_cons, List.nodup_cons] at hl
      by_cases hk : k' = k
      · subst hk
        by_cases h0 : k₀ = k'
        · subst h0
          simp [discard, lookup_eq_none_of_notMem hl.1]
        · simp [discard, lookup, h0, Ne.symm h0]
      · by_cases h0 : k' = k₀
        · subst h0
          simp [discard, lookup, hk]
        · simp [discard, lookup, hk, h0, ih hl.2]

/-- The value of a key, if the key is present. -/
def get? (d : Dict K V) (k : K) : Option V := lookup d.entries k

/-- `d[k] = v`. -/
def set (d : Dict K V) (k : K) (v : V) : Dict K V :=
  ⟨assign d.entries k v, nodup_assign d.nodup k v⟩

/-- `del d[k]`, and nothing if the key is absent. -/
def erase (d : Dict K V) (k : K) : Dict K V :=
  ⟨discard d.entries k, d.nodup.sublist ((discard_sublist _ _).map _)⟩

/-- `k in d`. -/
def contains (d : Dict K V) (k : K) : Bool := (d.get? k).isSome

/-- `d.update(e)`: the entries of `e` one after the other. -/
def update (d e : Dict K V) : Dict K V := e.entries.foldl (fun d p => d.set p.1 p.2) d

@[simp] lemma get?_empty (k : K) : (empty : Dict K V).get? k = none := rfl

@[simp] lemma get?_set_self (d : Dict K V) (k : K) (v : V) : (d.set k v).get? k = some v := by
  simp [get?, set, lookup_assign]

lemma get?_set (d : Dict K V) (k k₀ : K) (v : V) :
    (d.set k v).get? k₀ = if k₀ = k then some v else d.get? k₀ :=
  lookup_assign _ _ _ _

lemma get?_set_ne (d : Dict K V) {k k₀ : K} (h : k₀ ≠ k) (v : V) :
    (d.set k v).get? k₀ = d.get? k₀ := by
  rw [get?_set, if_neg h]

lemma mem_keys_set (d : Dict K V) (k k₀ : K) (v : V) :
    k₀ ∈ (d.set k v).keys ↔ k₀ = k ∨ k₀ ∈ d.keys :=
  mem_map_fst_assign _ _ _ _

lemma assign_append {l : List (K × V)} {k : K} (h : k ∉ l.map Prod.fst) (l' : List (K × V))
    (v : V) :
    assign (l ++ l') k v = l ++ assign l' k v := by
  induction l with
  | nil => rfl
  | cons p l ih =>
      rw [List.map_cons, List.mem_cons, not_or] at h
      rw [List.cons_append, assign, if_neg (Ne.symm h.1), ih h.2]
      rfl

/-- A new key comes last. -/
lemma entries_set_new {d : Dict K V} {k : K} (h : k ∉ d.keys) (v : V) :
    (d.set k v).entries = d.entries ++ [(k, v)] := by
  have happend := assign_append h [] v
  rwa [List.append_nil] at happend

/-- The last key is overwritten where it stands. -/
lemma entries_set_last {d : Dict K V} {l : List (K × V)} {k : K} {v₀ : V}
    (h : d.entries = l ++ [(k, v₀)]) (v : V) : (d.set k v).entries = l ++ [(k, v)] := by
  have hnd := d.nodup
  rw [h, List.map_append, List.nodup_append] at hnd
  have hk : k ∉ l.map Prod.fst := fun hmem => hnd.2.2 k hmem k List.mem_cons_self rfl
  show assign d.entries k v = _
  rw [h, assign_append hk, assign, if_pos rfl]

/-- Setting a key adds at most one. -/
lemma length_keys_set_le (d : Dict K V) (k : K) (v : V) :
    (d.set k v).keys.length ≤ d.keys.length + 1 := by
  have hassign (l : List (K × V)) : (assign l k v).length ≤ l.length + 1 := by
    induction l with
    | nil => rfl
    | cons p l ih =>
        rw [assign]
        split_ifs
        · exact Nat.le_succ _
        · exact Nat.succ_le_succ ih
  rw [keys, keys, List.length_map, List.length_map]
  exact hassign d.entries

lemma set_ne_empty (d : Dict K V) (k : K) (v : V) : d.set k v ≠ empty := by
  intro h
  have hk : k ∈ (d.set k v).keys := (mem_keys_set d k k v).mpr (.inl rfl)
  simp [h] at hk

lemma contains_eq_true {d : Dict K V} {k : K} : d.contains k = true ↔ ∃ v, d.get? k = some v := by
  rw [contains, Option.isSome_iff_exists]

lemma contains_eq_false {d : Dict K V} {k : K} : d.contains k = false ↔ d.get? k = none := by
  rw [contains, Option.isSome_eq_false_iff, Option.isNone_iff_eq_none]

@[simp] lemma contains_empty (k : K) : (empty : Dict K V).contains k = false := rfl

lemma contains_set (d : Dict K V) (k k₀ : K) (v : V) :
    (d.set k v).contains k₀ = true ↔ k₀ = k ∨ d.contains k₀ = true := by
  rw [contains, get?_set]
  split_ifs with h
  · simp [h]
  · simp [h, contains]

lemma lookup_eq_some_iff {l : List (K × V)} (hl : (l.map Prod.fst).Nodup) {k : K} {v : V} :
    lookup l k = some v ↔ (k, v) ∈ l := by
  induction l with
  | nil => simp [lookup]
  | cons p l ih =>
      obtain ⟨k', v'⟩ := p
      simp only [List.map_cons, List.nodup_cons] at hl
      by_cases hk : k' = k
      · subst hk
        have hnot : (k', v) ∉ l := fun h => hl.1 (List.mem_map_of_mem (f := Prod.fst) h)
        simp [lookup, hnot, eq_comm]
      · simp [lookup, hk, Ne.symm hk, ih hl.2]

lemma get?_eq_some_iff {d : Dict K V} {k : K} {v : V} :
    d.get? k = some v ↔ (k, v) ∈ d.entries :=
  lookup_eq_some_iff d.nodup

lemma mem_keys_iff {d : Dict K V} {k : K} : k ∈ d.keys ↔ ∃ v, d.get? k = some v := by
  simp [keys, get?_eq_some_iff]

lemma get?_eq_none_iff {d : Dict K V} {k : K} : d.get? k = none ↔ k ∉ d.keys := by
  rw [mem_keys_iff, Option.eq_none_iff_forall_ne_some]
  push Not
  rfl

lemma mem_values_iff {d : Dict K V} {v : V} : v ∈ d.values ↔ ∃ k, d.get? k = some v := by
  simp [values, get?_eq_some_iff]

lemma get?_erase (d : Dict K V) (k k₀ : K) :
    (d.erase k).get? k₀ = if k₀ = k then none else d.get? k₀ :=
  lookup_discard d.nodup _ _

@[simp] lemma get?_erase_self (d : Dict K V) (k : K) : (d.erase k).get? k = none := by
  rw [get?_erase, if_pos rfl]

lemma update_empty (d : Dict K V) : d.update .empty = d := rfl

lemma get?_foldl_set (l : List (K × V)) (hl : (l.map Prod.fst).Nodup) (d : Dict K V) (k : K) :
    (l.foldl (fun d p => d.set p.1 p.2) d).get? k = (lookup l k).or (d.get? k) := by
  induction l generalizing d with
  | nil => simp [lookup]
  | cons p l ih =>
      obtain ⟨k', v'⟩ := p
      simp only [List.map_cons, List.nodup_cons] at hl
      rw [List.foldl_cons, ih hl.2, get?_set]
      by_cases hk : k' = k
      · subst hk
        have hnone := lookup_eq_none_of_notMem hl.1
        simp [lookup, hnone]
      · simp [lookup, hk, Ne.symm hk]

/-- The law of `update`: the second dictionary wins. -/
lemma get?_update (d e : Dict K V) (k : K) : (d.update e).get? k = (e.get? k).or (d.get? k) :=
  get?_foldl_set e.entries e.nodup d k

lemma contains_update (d e : Dict K V) (k : K) :
    (d.update e).contains k = true ↔ d.contains k = true ∨ e.contains k = true := by
  rw [contains, get?_update, contains, contains]
  cases e.get? k <;> simp

/-- `d.setdefault(k, v)`. -/
def setDefault (d : Dict K V) (k : K) (v : V) : Dict K V := if d.contains k then d else d.set k v

lemma get?_setDefault (d : Dict K V) (k k₀ : K) (v : V) :
    (d.setDefault k v).get? k₀ = (d.get? k₀).or (if k = k₀ then some v else none) := by
  rw [setDefault]
  split_ifs with hc hk hk
  · obtain ⟨v', hv'⟩ := contains_eq_true.mp hc
    rw [← hk, hv', Option.some_or]
  · rw [Option.or_none]
  · rw [← hk, get?_set_self, contains_eq_false.mp (Bool.eq_false_iff.mpr hc), Option.none_or]
  · rw [get?_set_ne _ (Ne.symm hk), Option.or_none]

/-- Of several values of one key the first is kept. -/
lemma get?_foldl_setDefault (l : List (K × V)) (d : Dict K V) (k : K) :
    (l.foldl (fun d p => d.setDefault p.1 p.2) d).get? k = (d.get? k).or (lookup l k) := by
  induction l generalizing d with
  | nil => rw [List.foldl_nil, lookup, Option.or_none]
  | cons p l ih =>
      rw [List.foldl_cons, ih, get?_setDefault, Option.or_assoc]
      obtain ⟨k', v⟩ := p
      rw [lookup]
      split_ifs with hk
      · rw [Option.some_or]
      · rw [Option.none_or]

/-- `setdefault` for every entry of `e`. -/
def merge (d e : Dict K V) : Dict K V := e.entries.foldl (fun d p => d.setDefault p.1 p.2) d

/-- The law of `merge`: the first dictionary wins. -/
lemma get?_merge (d e : Dict K V) (k : K) : (d.merge e).get? k = (d.get? k).or (e.get? k) :=
  get?_foldl_setDefault e.entries d k

lemma get?_foldl_merge (l : List (Dict K V)) (d : Dict K V) (k : K) :
    (l.foldl merge d).get? k = (d.get? k).or (l.findSome? fun e => e.get? k) := by
  induction l generalizing d with
  | nil => rw [List.foldl_nil, List.findSome?_nil, Option.or_none]
  | cons e l ih =>
      rw [List.foldl_cons, ih, get?_merge, Option.or_assoc, List.findSome?_cons]
      cases e.get? k with
      | none => rw [Option.none_or]
      | some v => rw [Option.some_or]

/-- The entries in the order of their keys. -/
def sorted {K : Type} [LinearOrder K] (d : Dict K V) : Dict K V :=
  ⟨d.entries.insertionSort fun p q => p.1 ≤ q.1,
    ((List.perm_insertionSort _ _).map _).nodup_iff.mpr d.nodup⟩

/-- Sorting moves entries, and changes none. -/
@[simp] lemma get?_sorted {K : Type} [LinearOrder K] (d : Dict K V) (k : K) :
    d.sorted.get? k = d.get? k := by
  ext v
  rw [get?_eq_some_iff, get?_eq_some_iff]
  exact (List.perm_insertionSort _ _).mem_iff

end Lookup

/-! ### Sums over the entries -/

section Total

variable [DecidableEq K] {M : Type} [AddCommMonoid M]

/-- The sum of a quantity over the entries. -/
def total (d : Dict K V) (f : K → V → M) : M := (d.entries.map fun p => f p.1 p.2).sum

omit [DecidableEq K] in
@[simp] lemma total_empty (f : K → V → M) : (empty : Dict K V).total f = 0 := rfl

lemma sum_assign_new {l : List (K × V)} {k : K} (h : lookup l k = none) (v : V)
    (f : K → V → M) :
    ((assign l k v).map fun p => f p.1 p.2).sum = (l.map fun p => f p.1 p.2).sum + f k v := by
  induction l with
  | nil => simp [assign]
  | cons p l ih =>
      obtain ⟨k', v'⟩ := p
      by_cases hk : k' = k
      · simp [lookup, hk] at h
      · simp only [lookup, if_neg hk] at h
        simp [assign, hk, ih h, add_assoc]

lemma sum_assign_old {l : List (K × V)} {k : K} {v₀ : V} (h : lookup l k = some v₀) (v : V)
    (f : K → V → M) :
    ((assign l k v).map fun p => f p.1 p.2).sum + f k v₀
      = (l.map fun p => f p.1 p.2).sum + f k v := by
  induction l with
  | nil => simp [lookup] at h
  | cons p l ih =>
      obtain ⟨k', v'⟩ := p
      by_cases hk : k' = k
      · subst hk
        simp only [lookup, if_pos, Option.some.injEq] at h
        subst h
        simp only [assign, if_pos, List.map_cons, List.sum_cons]
        abel
      · simp only [lookup, if_neg hk] at h
        simp only [assign, if_neg hk, List.map_cons, List.sum_cons, add_assoc, ih h]

/-- A new key adds its own share. -/
lemma total_set_new {d : Dict K V} {k : K} (h : d.get? k = none) (v : V) (f : K → V → M) :
    (d.set k v).total f = d.total f + f k v :=
  sum_assign_new h v f

/-- Overwriting exchanges the old share for the new one. -/
lemma total_set_old {d : Dict K V} {k : K} {v₀ : V} (h : d.get? k = some v₀) (v : V)
    (f : K → V → M) : (d.set k v).total f + f k v₀ = d.total f + f k v :=
  sum_assign_old h v f

lemma sum_discard {l : List (K × V)} {k : K} {v : V} (h : lookup l k = some v)
    (f : K → V → M) :
    ((discard l k).map fun p => f p.1 p.2).sum + f k v = (l.map fun p => f p.1 p.2).sum := by
  induction l with
  | nil => simp [lookup] at h
  | cons p l ih =>
      obtain ⟨k', v'⟩ := p
      by_cases hk : k' = k
      · subst hk
        simp only [lookup, if_pos, Option.some.injEq] at h
        subst h
        simp [discard, add_comm]
      · simp only [lookup, if_neg hk] at h
        simp [discard, hk, add_assoc, ih h]

lemma total_congr {d : Dict K V} {f g : K → V → M} (h : ∀ k v, d.get? k = some v → f k v = g k v) :
    d.total f = d.total g := by
  unfold total
  refine congrArg List.sum (List.map_congr_left fun p hp => ?_)
  exact h p.1 p.2 (get?_eq_some_iff.mpr hp)

/-- Overwriting entries that have no share adds the shares of the new ones. -/
lemma total_update {d e : Dict K V} {f : K → V → M}
    (h : ∀ k v, e.contains k = true → d.get? k = some v → f k v = 0) :
    (d.update e).total f = d.total f + e.total f := by
  have key : ∀ (l : List (K × V)) (d : Dict K V), (l.map Prod.fst).Nodup →
      (∀ p ∈ l, ∀ v, d.get? p.1 = some v → f p.1 v = 0) →
      (l.foldl (fun d p => d.set p.1 p.2) d).total f
        = d.total f + (l.map fun p => f p.1 p.2).sum := by
    intro l
    induction l with
    | nil => simp
    | cons p l ih =>
        intro d hl hd
        simp only [List.map_cons, List.nodup_cons] at hl
        have hset : (d.set p.1 p.2).total f = d.total f + f p.1 p.2 := by
          cases hp : d.get? p.1 with
          | none => exact total_set_new hp _ _
          | some v =>
              have := total_set_old hp p.2 f
              rwa [hd p (by simp) v hp, add_zero] at this
        rw [List.foldl_cons, ih _ hl.2, hset, List.map_cons, List.sum_cons, add_assoc]
        intro q hq v hv
        have hne : q.1 ≠ p.1 := fun he => hl.1 (he ▸ List.mem_map_of_mem hq)
        rw [get?_set_ne _ hne] at hv
        exact hd q (by simp [hq]) v hv
  refine key e.entries d e.nodup fun p hp v hv => h p.1 v ?_ hv
  exact contains_eq_true.mpr ⟨p.2, get?_eq_some_iff.mpr hp⟩

/-- Erasing a key takes its share away. -/
lemma total_erase {d : Dict K V} {k : K} {v : V} (h : d.get? k = some v) (f : K → V → M) :
    (d.erase k).total f + f k v = d.total f :=
  sum_discard h f

end Total

end Dict

end BtcParser
