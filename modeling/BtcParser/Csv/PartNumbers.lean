import BtcParser.Csv.Rotation

/-!
Naming the parts of a logical CSV, and finding them again.

* `LooksLikePart` describes the names that a scan counts, and `matchPart_isSome_iff` says so.
* `existingPartNumbers_eq_sort_iff`: a scan gives a set in order if every number of the set is found
  once and no other number is.
* `parts_found_iff`: the parts are found exactly if their numbers have six digits and no other file
  looks like a part.
-/

namespace BtcParser

namespace CsvWriter

variable {b : BasePath} {dir : Directory} {S : Finset ℕ}

/-! ### The names that are counted -/

/-- A file that the scan for the parts of `b` counts: the base file, or six digits in the place of
the number. -/
def LooksLikePart (b : BasePath) (name : List Char) : Prop :=
  name = b.name ∨ ∃ digits : List Char, digits.length = 6
    ∧ (∀ c ∈ digits, (decimalDigit c).isSome = true)
    ∧ (name = b.stem ++ '.' :: (digits ++ b.suffix)
      ∨ name = b.stem ++ '.' :: (digits ++ b.suffix) ++ ['\n'])

lemma mapM_decimalDigit_isSome {digits : List Char} :
    (digits.mapM decimalDigit).isSome = true
      ↔ ∀ c ∈ digits, (decimalDigit c).isSome = true := by
  induction digits with
  | nil => simp
  | cons c digits ih =>
      rw [List.mapM_cons, List.forall_mem_cons, ← ih]
      cases decimalDigit c with
      | none => simp
      | some d => cases digits.mapM decimalDigit <;> simp

/-- The pattern matches the names that look like a part. -/
lemma matchPart_isSome_iff {name : List Char} (hname : name ≠ b.name) :
    (matchPart b name).isSome = true ↔ LooksLikePart b name := by
  constructor
  · intro h
    rw [matchPart] at h
    split_ifs at h with hpart
    · rw [Option.isSome_map, mapM_decimalDigit_isSome] at h
      exact .inr ⟨_, hpart.2, h, hpart.1⟩
    · cases h
  · rintro (rfl | ⟨digits, hlen, hdecimal, hform⟩)
    · exact absurd rfl hname
    · rw [matchPart_of_digits hlen hform, Option.isSome_map]
      exact mapM_decimalDigit_isSome.mpr hdecimal

lemma decimalDigit_lt {c : Char} {d : ℕ} (h : decimalDigit c = some d) : d < 10 := by
  obtain ⟨z, hz, rfl⟩ := Option.map_eq_some_iff.mp h
  have hrange : z ≤ c.toNat ∧ c.toNat < z + 10 := by simpa using List.find?_some hz
  omega

lemma foldl_decimals_lt {ds : List ℕ} (h : ∀ d ∈ ds, d < 10) (k : ℕ) :
    ds.foldl (fun n d => 10 * n + d) k < (k + 1) * 10 ^ ds.length := by
  induction ds generalizing k with
  | nil => simp
  | cons d ds ih =>
      have hd := h d List.mem_cons_self
      calc (d :: ds).foldl (fun n d => 10 * n + d) k
          < (10 * k + d + 1) * 10 ^ ds.length :=
            ih (fun d' hd' => h d' (List.mem_cons_of_mem d hd')) (10 * k + d)
        _ ≤ ((k + 1) * 10) * 10 ^ ds.length := Nat.mul_le_mul_right _ (by omega)
        _ = (k + 1) * 10 ^ (d :: ds).length := by
            rw [List.length_cons, pow_succ]
            ring

/-- The number of a matched name has six digits. -/
lemma matchPart_lt {name : List Char} {n : ℕ} (h : matchPart b name = some n) : n < 1000000 := by
  rw [matchPart] at h
  split_ifs at h with hpart
  obtain ⟨ds, hds, rfl⟩ := Option.map_eq_some_iff.mp h
  rw [mapM_eq_some_iff] at hds
  have hlen : ds.length = 6 := by
    have := congrArg List.length hds
    rw [List.length_map, List.length_map] at this
    omega
  have hsmall : ∀ d ∈ ds, d < 10 := by
    intro d hd
    have hmem : some d ∈ ds.map some := List.mem_map_of_mem hd
    rw [← hds] at hmem
    obtain ⟨c, -, hc⟩ := List.mem_map.mp hmem
    exact decimalDigit_lt hc
  have hlt := foldl_decimals_lt hsmall 0
  rw [hlen] at hlt
  omega

/-! ### Scans -/

/-- What a scan collects. -/
def scanned (b : BasePath) (dir : Directory) : List ℕ :=
  (if dir.contains b.name then [1] else []) ++ dir.keys.filterMap (matchPart b)

lemma mem_scanned {n : ℕ} : n ∈ scanned b dir
    ↔ (b.name ∈ dir.keys ∧ n = 1) ∨ ∃ name ∈ dir.keys, matchPart b name = some n := by
  have hbase : dir.contains b.name = true ↔ b.name ∈ dir.keys := by
    rw [Dict.contains_eq_true, Dict.mem_keys_iff]
  rw [scanned, List.mem_append, List.mem_filterMap]
  by_cases hb : dir.contains b.name = true
  · rw [if_pos hb, List.mem_singleton, and_iff_right (hbase.mp hb)]
  · rw [if_neg hb, iff_false_intro fun h => hb (hbase.mpr h)]
    simp

/-- A scan gives a set in order if it collects every number of the set once and no other. -/
lemma existingPartNumbers_eq_sort_iff : existingPartNumbers b dir = S.sort (· ≤ ·)
    ↔ (scanned b dir).Nodup ∧ ∀ n, n ∈ scanned b dir ↔ n ∈ S := by
  have hperm : (existingPartNumbers b dir).Perm (scanned b dir) := List.perm_insertionSort _ _
  constructor
  · intro h
    rw [h] at hperm
    exact ⟨hperm.nodup_iff.mp (S.sort_nodup _), fun n => by
      rw [← hperm.mem_iff, Finset.mem_sort]⟩
  · rintro ⟨hnodup, hmem⟩
    have hsame : (existingPartNumbers b dir).Perm (S.sort (· ≤ ·)) :=
      hperm.trans ((List.perm_ext_iff_of_nodup hnodup (S.sort_nodup _)).mpr fun n => by
        rw [hmem, Finset.mem_sort])
    exact hsame.eq_of_pairwise' (List.pairwise_insertionSort _ _) (S.pairwise_sort _)

/-! ### Parts -/

/-- The directory holds the parts of `b` with the numbers of the set, and parts of other bases. -/
structure HoldsParts (b : BasePath) (S : Finset ℕ) (dir : Directory) : Prop where
  numbered : ∀ n ∈ S, 1 ≤ n ∧ partPath b n ∈ dir.keys
  others : ∀ name ∈ dir.keys, (∃ n ∈ S, name = partPath b n)
    ∨ ∃ (b' : BasePath) (k : ℕ), b'.name ≠ b.name ∧ 1 ≤ k ∧ name = partPath b' k

/-- The scan finds the set in order, and the number behind the last one is not in use. -/
def PartsFound (b : BasePath) (S : Finset ℕ) (dir : Directory) : Prop :=
  existingPartNumbers b dir = S.sort (· ≤ ·)
    ∧ ∀ last ∈ (existingPartNumbers b dir).getLast?, last + 1 ∉ S

/-- The numbers have six digits, and no other file looks like a part. -/
def Readable (b : BasePath) (S : Finset ℕ) (dir : Directory) : Prop :=
  (∀ n ∈ S, n < 1000000) ∧ ∀ name ∈ dir.keys, LooksLikePart b name → ∃ n ∈ S, name = partPath b n

/-- The last number of a set in order is not followed by another one. -/
lemma succ_last_notMem {last : ℕ} (h : last ∈ (S.sort (· ≤ ·)).getLast?) : last + 1 ∉ S := by
  intro hmem
  obtain ⟨front, hfront⟩ := List.getLast?_eq_some_iff.mp h
  have hsorted := S.pairwise_sort (· ≤ ·)
  rw [← Finset.mem_sort (· ≤ ·), hfront] at hmem
  rw [hfront, List.pairwise_append] at hsorted
  rcases List.mem_append.mp hmem with hmem | hmem
  · have := hsorted.2.2 _ hmem last List.mem_cons_self
    omega
  · have := List.mem_singleton.mp hmem
    omega

/-- A file that is matched is the part of its number. -/
lemma Readable.matched (h : Readable b S dir) {name : List Char} {n : ℕ} (hname : name ∈ dir.keys)
    (hmatch : matchPart b name = some n) : n ∈ S ∧ n ≠ 1 ∧ name = partPath b n := by
  have hne : name ≠ b.name := by
    rintro rfl
    rw [matchPart_name] at hmatch
    cases hmatch
  obtain ⟨m, hm, rfl⟩ := h.2 name hname
    ((matchPart_isSome_iff hne).mp (by rw [hmatch]; rfl))
  have hm1 : 1 < m := by
    by_contra hle
    exact hne (if_pos (not_lt.mp hle))
  obtain rfl : m = n := Option.some.inj ((matchPart_partPath hm1 (h.1 m hm)).symm.trans hmatch)
  exact ⟨hm, hm1.ne', rfl⟩

lemma Readable.scanned_nodup (h : Readable b S dir) : (scanned b dir).Nodup := by
  have hmatches : (dir.keys.filterMap (matchPart b)).Nodup := by
    rw [List.Nodup, List.pairwise_filterMap]
    refine dir.keys_nodup.imp_of_mem fun {x y} hx hy hxy n hn m hm heq => hxy ?_
    rw [(h.matched hx hn).2.2, (h.matched hy hm).2.2, heq]
  rw [scanned]
  split_ifs
  · refine List.nodup_cons.mpr ⟨fun h1 => ?_, hmatches⟩
    obtain ⟨name, hname, hmatch⟩ := List.mem_filterMap.mp h1
    exact (h.matched hname hmatch).2.1 rfl
  · exact hmatches

lemma Readable.mem_scanned_iff (h : Readable b S dir) (hS : HoldsParts b S dir) (n : ℕ) :
    n ∈ scanned b dir ↔ n ∈ S := by
  rw [mem_scanned]
  constructor
  · rintro (⟨hbase, rfl⟩ | ⟨name, hname, hmatch⟩)
    · obtain ⟨m, hm, heq⟩ := h.2 b.name hbase (.inl rfl)
      rwa [partPath_injective (n := 1) le_rfl (hS.numbered m hm).1 heq]
    · exact (h.matched hname hmatch).1
  · intro hn
    obtain ⟨hn1, hkey⟩ := hS.numbered n hn
    rcases hn1.eq_or_lt with rfl | hlt
    · exact .inl ⟨hkey, rfl⟩
    · exact .inr ⟨_, hkey, matchPart_partPath hlt (h.1 n hn)⟩

/-- What is found once and belongs to the set is the part of its number. -/
lemma partPath_of_found (hS : HoldsParts b S dir) (hnodup : (scanned b dir).Nodup)
    (hmem : ∀ n, n ∈ scanned b dir ↔ n ∈ S) {name : List Char} {n : ℕ} (hname : name ∈ dir.keys)
    (hmatch : matchPart b name = some n) : name = partPath b n := by
  obtain ⟨hn1, hkey⟩ := hS.numbered n ((hmem n).mp (mem_scanned.mpr (.inr ⟨name, hname, hmatch⟩)))
  rw [scanned] at hnodup
  rcases hn1.eq_or_lt with rfl | hlt
  · have hbase : dir.contains b.name = true := by
      rw [Dict.contains_eq_true]
      exact Dict.mem_keys_iff.mp hkey
    rw [if_pos hbase] at hnodup
    exact absurd (List.mem_filterMap.mpr ⟨name, hname, hmatch⟩) (List.nodup_cons.mp hnodup).1
  · exact eq_of_nodup_filterMap (List.nodup_append.mp hnodup).2.1 hname hkey hmatch
      (matchPart_partPath hlt (matchPart_lt hmatch))

/-- **Parts are found by their names**: in a directory with the parts of a set of numbers and parts
of other bases, the scan finds exactly the set, in order, and no rotation takes a number in use, if
and only if the numbers have six digits and no other file looks like a part. -/
theorem parts_found_iff (hS : HoldsParts b S dir) : PartsFound b S dir ↔ Readable b S dir := by
  rw [PartsFound, existingPartNumbers_eq_sort_iff]
  constructor
  · rintro ⟨⟨hnodup, hmem⟩, -⟩
    refine ⟨fun n hn => ?_, fun name hname hlook => ?_⟩
    · rcases mem_scanned.mp ((hmem n).mpr hn) with ⟨-, rfl⟩ | ⟨name, -, hmatch⟩
      · omega
      · exact matchPart_lt hmatch
    · by_cases hne : name = b.name
      · have h1 : 1 ∈ scanned b dir := mem_scanned.mpr (.inl ⟨hne ▸ hname, rfl⟩)
        exact ⟨1, (hmem 1).mp h1, hne⟩
      · obtain ⟨n, hmatch⟩ := Option.isSome_iff_exists.mp ((matchPart_isSome_iff hne).mpr hlook)
        exact ⟨n, (hmem n).mp (mem_scanned.mpr (.inr ⟨name, hname, hmatch⟩)),
          partPath_of_found hS hnodup hmem hname hmatch⟩
  · intro h
    have hfound := And.intro h.scanned_nodup (h.mem_scanned_iff hS)
    refine ⟨hfound, ?_⟩
    rw [existingPartNumbers_eq_sort_iff.mpr hfound]
    exact fun last => succ_last_notMem

/-- A base with the parts of two numbers and one other file. -/
def twoParts (n m : ℕ) (other : List Char) (h : [partPath ⟨['a'], ['.', 'c']⟩ n,
    partPath ⟨['a'], ['.', 'c']⟩ m, other].Nodup) : Directory :=
  ⟨[(partPath ⟨['a'], ['.', 'c']⟩ n, []), (partPath ⟨['a'], ['.', 'c']⟩ m, []), (other, [])], h⟩

lemma twoParts_holds {n m : ℕ} (hn : 1 ≤ n) (hm : 1 ≤ m) {other : List Char} {h}
    (hother : other ≠ ['a', '.', 'c']) :
    HoldsParts ⟨['a'], ['.', 'c']⟩ {n, m} (twoParts n m other h) := by
  refine ⟨fun k hk => ?_, fun name hname => ?_⟩
  · rcases Finset.mem_insert.mp hk with rfl | hk
    · exact ⟨hn, List.mem_cons_self⟩
    · obtain rfl := Finset.mem_singleton.mp hk
      exact ⟨hm, List.mem_cons_of_mem _ List.mem_cons_self⟩
  · simp only [twoParts, Dict.keys, List.map_cons, List.map_nil, List.mem_cons,
      List.not_mem_nil, or_false] at hname
    rcases hname with rfl | rfl | rfl
    · exact .inl ⟨n, by simp, rfl⟩
    · exact .inl ⟨m, by simp, rfl⟩
    · exact .inr ⟨⟨name, []⟩, 1, by simpa [BasePath.name] using hother, le_rfl,
        (List.append_nil name).symm⟩

/-- The first two parts, and the second part of another base. -/
theorem parts_found_iff_two :
    PartsFound ⟨['a'], ['.', 'c']⟩ {1, 2}
      (twoParts 1 2 (partPath ⟨['b'], ['.', 'c']⟩ 2) (by decide)) := by
  refine (parts_found_iff (twoParts_holds le_rfl (by decide) (by decide))).mpr
    ⟨by decide, fun name hname hlook => ?_⟩
  rcases (twoParts_holds le_rfl (by decide) (by decide)).others name hname with h | h
  · exact h
  · simp only [twoParts, Dict.keys, List.map_cons, List.map_nil, List.mem_cons,
      List.not_mem_nil, or_false] at hname
    rcases hname with rfl | rfl | rfl
    · exact ⟨1, by decide, rfl⟩
    · exact ⟨2, by decide, rfl⟩
    · have hne : partPath ⟨['b'], ['.', 'c']⟩ 2 ≠ BasePath.name ⟨['a'], ['.', 'c']⟩ := by decide
      have hnone : matchPart ⟨['a'], ['.', 'c']⟩ (partPath ⟨['b'], ['.', 'c']⟩ 2) = none := by
        decide +kernel
      rw [← matchPart_isSome_iff hne, hnone] at hlook
      cases hlook

/-- The part behind the 999999th is not found, and would be taken again. -/
theorem millionth_part_lost :
    ∃ b S dir, HoldsParts b S dir ∧ existingPartNumbers b dir = [999999] ∧ 1000000 ∈ S
      ∧ ¬ PartsFound b S dir := by
  have hscan : existingPartNumbers ⟨['a'], ['.', 'c']⟩
    (twoParts 999999 1000000 [] (by decide +kernel))
      = [999999] := by decide +kernel
  have hmem : 1000000 ∈ ({999999, 1000000} : Finset ℕ) := by decide
  refine ⟨_, _, _, twoParts_holds (by decide) (by decide) (by decide), hscan, hmem, fun h => ?_⟩
  exact h.2 999999 (by rw [hscan]; rfl) hmem

end CsvWriter

end BtcParser
