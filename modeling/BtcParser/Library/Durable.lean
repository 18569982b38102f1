import BtcParser.Library.Transition

/-!
A file system that can lose what has not been flushed.

A `FileSystem` has names, which point to files, and the bytes of the files. What a name points to
and what is written to a file are visible at once, but survive a power failure only once the
directory and the file have been flushed: `Crash d d'` says which `d'` may be found afterwards. A
name may point to any file it has pointed to since its directory was last flushed, and a file that
has been written to since it was last flushed may contain anything.

* `Holds d n S`: whatever happens, the name `n` reads as `S` says. `Holds.read` and `Holds.crash`
  are what follows, and there is one rule for each operation: `Holds.apply` for those on other
  names, `holds_rename` and `holds_flushDir` for those on `n`.
-/

namespace BtcParser.Durable

variable {N B : Type}

/-- A disk. -/
structure FileSystem (N B : Type) where
  /-- the file a name points to -/
  entry : N → Option ℕ
  /-- what it has pointed to before, since its directory was last flushed -/
  stale : N → List (Option ℕ)
  /-- the bytes of a file -/
  content : ℕ → List B
  /-- it has been written to since it was last flushed -/
  dirty : ℕ → Bool
  /-- no file from here on has been used -/
  fresh : ℕ

/-- The operations. -/
inductive FileOp (N B : Type) where
  /-- an empty file under a name -/
  | create (n : N)
  | append (n : N) (bytes : List B)
  | flush (n : N)
  | rename (n m : N)
  | unlink (n : N)
  /-- flush the directory that has these names -/
  | flushDir (names : N → Bool)

/-- The operation points the name somewhere else. -/
def FileOp.touches : FileOp N B → N → Prop
  | .create n, m => m = n
  | .append .., _ => False
  | .flush _, _ => False
  | .rename n n', m => m = n ∨ m = n'
  | .unlink n, m => m = n
  | .flushDir _, _ => False

namespace FileSystem

variable [DecidableEq N]

/-- Points a name to a file, or to nothing. -/
def point (d : FileSystem N B) (n : N) (e : Option ℕ) : FileSystem N B :=
  { d with
    entry := Function.update d.entry n e
    stale := Function.update d.stale n (d.entry n :: d.stale n) }

/-- An operation; on a name that does not exist it does nothing. -/
def apply (d : FileSystem N B) : FileOp N B → FileSystem N B
  | .create n =>
      let d' := d.point n (some d.fresh)
      { d' with
        content := Function.update d.content d.fresh []
        dirty := Function.update d.dirty d.fresh true
        fresh := d.fresh + 1 }
  | .append n bytes =>
      match d.entry n with
      | none => d
      | some i =>
          { d with
            content := Function.update d.content i (d.content i ++ bytes)
            dirty := Function.update d.dirty i true }
  | .flush n =>
      match d.entry n with
      | none => d
      | some i => { d with dirty := Function.update d.dirty i false }
  | .rename n m =>
      match d.entry n with
      | none => d
      | some i => (d.point m (some i)).point n none
  | .unlink n =>
      match d.entry n with
      | none => d
      | some _ => d.point n none
  | .flushDir names => { d with stale := fun n => if names n then [] else d.stale n }

/-- The operations, one after the other. -/
def applyAll (d : FileSystem N B) (ops : List (FileOp N B)) : FileSystem N B := ops.foldl apply d

@[simp] lemma applyAll_nil (d : FileSystem N B) : d.applyAll [] = d := rfl

@[simp] lemma applyAll_cons (d : FileSystem N B) (op : FileOp N B) (ops : List (FileOp N B)) :
    d.applyAll (op :: ops) = (d.apply op).applyAll ops := rfl

/-- The bytes under a name. -/
def read (d : FileSystem N B) (n : N) : Option (List B) := (d.entry n).map d.content

/-- Everything a name may point to after a power failure. -/
def pointers (d : FileSystem N B) (n : N) : List (Option ℕ) := d.entry n :: d.stale n

/-- No name points to a file that has not been used. -/
def Bounded (d : FileSystem N B) : Prop := ∀ n, ∀ e ∈ d.pointers n, ∀ i ∈ e, i < d.fresh

/-- The name does not point to the file, and has not since its directory was flushed. -/
def Apart (d : FileSystem N B) (i : ℕ) (n : N) : Prop := some i ∉ d.pointers n

/-- What may be found after a power failure. -/
structure Crash (d d' : FileSystem N B) : Prop where
  entry : ∀ n, d'.entry n ∈ d.pointers n
  content : ∀ i, d.dirty i = false → d'.content i = d.content i
  stale : ∀ n, d'.stale n = []
  dirty : ∀ i, d'.dirty i = false
  fresh : d'.fresh = d.fresh

/-- Whatever happens, the name reads as `S` says. -/
def Holds (d : FileSystem N B) (n : N) (S : Option (List B) → Prop) : Prop :=
  ∀ e ∈ d.pointers n, S (e.map d.content) ∧ ∀ i ∈ e, d.dirty i = false

variable {d d' : FileSystem N B} {n m : N} {S S' : Option (List B) → Prop} {i : ℕ}

/-! ### What the operations change -/

lemma applyAll_append (d : FileSystem N B) (l l' : List (FileOp N B)) :
    d.applyAll (l ++ l') = (d.applyAll l).applyAll l' := List.foldl_append

@[simp] lemma entry_create (d : FileSystem N B) (n : N) :
    (d.apply (.create n)).entry n = some d.fresh := by
  simp [apply, point]

@[simp] lemma entry_append (d : FileSystem N B) (n : N) (bytes : List B) :
    (d.apply (.append n bytes)).entry = d.entry := by
  cases h : d.entry n <;> simp [apply, h]

@[simp] lemma entry_flush (d : FileSystem N B) (n : N) : (d.apply (.flush n)).entry = d.entry := by
  cases h : d.entry n <;> simp [apply, h]

@[simp] lemma entry_rename (d : FileSystem N B) (n m : N) :
    (d.apply (.rename n m)).entry n = none := by
  cases h : d.entry n <;> simp [apply, h, point]

@[simp] lemma entry_flushDir (d : FileSystem N B) (names : N → Bool) :
    (d.apply (.flushDir names)).entry = d.entry := rfl

@[simp] lemma entry_unlink (d : FileSystem N B) (n : N) :
    (d.apply (.unlink n)).entry n = none := by
  cases h : d.entry n <;> simp [apply, h, point]

@[simp] lemma content_create (d : FileSystem N B) (n : N) :
    (d.apply (.create n)).content d.fresh = [] := by
  simp [apply]

lemma content_append (h : d.entry n = some i) (bytes : List B) :
    (d.apply (.append n bytes)).content i = d.content i ++ bytes := by
  simp [apply, h]

/-- A file that is flushed stays as it is. -/
lemma clean_flush (h : d.entry n = some i) :
    (d.apply (.flush n)).content = d.content ∧ (d.apply (.flush n)).dirty i = false := by
  simp [apply, h]

/-! ### What it means -/

omit [DecidableEq N] in
lemma Holds.read (h : d.Holds n S) : S (d.read n) := (h _ List.mem_cons_self).1

omit [DecidableEq N] in
lemma Holds.mono (h : d.Holds n S) (hS : ∀ o, S o → S' o) : d.Holds n S' :=
  fun e he => ⟨hS _ (h e he).1, (h e he).2⟩

omit [DecidableEq N] in
/-- After a power failure it reads as before, or as it may have been left, and stays so. -/
lemma Holds.crash (h : d.Holds n S) (hc : Crash d d') :
    S (d'.read n) ∧ d'.Holds n (· = d'.read n) := by
  have hread : d'.read n = (d'.entry n).map d.content := by
    rw [FileSystem.read]
    cases he : d'.entry n with
    | none => rfl
    | some i =>
        have hi := (h _ (he ▸ hc.entry n)).2 i rfl
        rw [Option.map_some, Option.map_some, hc.content i hi]
  refine ⟨hread ▸ (h _ (hc.entry n)).1, fun e he => ?_⟩
  rw [pointers, hc.stale n, List.mem_singleton] at he
  subst he
  exact ⟨rfl, fun i _ => hc.dirty i⟩

omit [DecidableEq N] in
lemma Bounded.crash (h : d.Bounded) (hc : Crash d d') : d'.Bounded := by
  intro n e he i hi
  rw [pointers, hc.stale n, List.mem_singleton] at he
  rw [hc.fresh]
  exact h n _ (hc.entry n) i (he ▸ hi)

omit [DecidableEq N] in
lemma Bounded.apart_fresh (h : d.Bounded) (n : N) : d.Apart d.fresh n :=
  fun hmem => Nat.lt_irrefl _ (h n _ hmem _ rfl)

/-- The disk when everything has been flushed. -/
def settled (d : FileSystem N B) : FileSystem N B :=
  { d with stale := fun _ => [], dirty := fun _ => false }

omit [DecidableEq N] in
/-- A power failure may lose nothing. -/
lemma crash_settled (d : FileSystem N B) : Crash d d.settled :=
  ⟨fun _ => List.mem_cons_self, fun _ _ => rfl, fun _ => rfl, fun _ => rfl, rfl⟩

/-! ### Pointing a name somewhere -/

lemma pointers_point_self (d : FileSystem N B) (n : N) (e : Option ℕ) :
    (d.point n e).pointers n = e :: d.pointers n := by
  simp [pointers, point]

lemma pointers_point_ne (d : FileSystem N B) (e : Option ℕ) (h : m ≠ n) :
    (d.point n e).pointers m = d.pointers m := by
  simp [pointers, point, h]

/-- What a name may point to behind an operation that points one somewhere. -/
lemma mem_pointers_point {e e' : Option ℕ} (h : e' ∈ (d.point n e).pointers m) :
    e' = e ∧ m = n ∨ e' ∈ d.pointers m := by
  by_cases hm : m = n
  · subst hm
    rw [pointers_point_self, List.mem_cons] at h
    exact h.imp (fun h => ⟨h, rfl⟩) id
  · rw [pointers_point_ne d e hm] at h
    exact .inr h

/-! ### The rules -/

/-- The operation writes to the file. -/
def Writes (d : FileSystem N B) (op : FileOp N B) (i : ℕ) : Prop :=
  ∃ m bytes, op = .append m bytes ∧ d.entry m = some i

variable {op : FileOp N B}

lemma pointers_apply (ht : ¬ op.touches n) {e : Option ℕ} (he : e ∈ (d.apply op).pointers n) :
    e ∈ d.pointers n := by
  cases op with
  | create m => exact (mem_pointers_point he).resolve_left fun h => ht h.2
  | append m bytes =>
      cases hm : d.entry m <;> simp only [apply, hm] at he <;> exact he
  | flush m =>
      cases hm : d.entry m <;> simp only [apply, hm] at he <;> exact he
  | rename m m' =>
      cases hm : d.entry m with
      | none =>
          simp only [apply, hm] at he
          exact he
      | some i =>
          simp only [apply, hm] at he
          have h₁ := (mem_pointers_point he).resolve_left fun h => ht (.inl h.2)
          exact (mem_pointers_point h₁).resolve_left fun h => ht (.inr h.2)
  | unlink m =>
      cases hm : d.entry m with
      | none =>
          simp only [apply, hm] at he
          exact he
      | some i =>
          simp only [apply, hm] at he
          exact (mem_pointers_point he).resolve_left fun h => ht h.2
  | flushDir names =>
      rcases List.mem_cons.mp he with he | he
      · exact he ▸ List.mem_cons_self
      · simp only [apply] at he
        split_ifs at he
        · cases he
        · exact List.mem_cons_of_mem _ he

lemma content_apply (hi : i < d.fresh) (hw : ¬ d.Writes op i) :
    (d.apply op).content i = d.content i ∧ (d.dirty i = false → (d.apply op).dirty i = false) := by
  cases op with
  | create m =>
      have hne : i ≠ d.fresh := hi.ne
      simp [apply, hne]
  | append m bytes =>
      cases hm : d.entry m with
      | none => simp [apply, hm]
      | some j =>
          have hne : i ≠ j := fun h => hw ⟨m, bytes, rfl, h ▸ hm⟩
          simp [apply, hm, hne]
  | flush m =>
      cases hm : d.entry m with
      | none => simp [apply, hm]
      | some j =>
          refine ⟨by simp [apply, hm], fun h => ?_⟩
          by_cases hij : i = j <;> simp [apply, hm, hij, h]
  | rename m m' => cases hm : d.entry m <;> simp [apply, hm, point]
  | unlink m => cases hm : d.entry m <;> simp [apply, hm, point]
  | flushDir names => simp [apply]

lemma fresh_le_apply (d : FileSystem N B) (op : FileOp N B) : d.fresh ≤ (d.apply op).fresh := by
  cases op with
  | create m => exact Nat.le_succ _
  | append m bytes => cases hm : d.entry m <;> simp [apply, hm]
  | flush m => cases hm : d.entry m <;> simp [apply, hm]
  | rename m m' => cases hm : d.entry m <;> simp [apply, hm, point]
  | unlink m => cases hm : d.entry m <;> simp [apply, hm, point]
  | flushDir names => exact le_rfl

lemma Bounded.apply (h : d.Bounded) (op : FileOp N B) : (d.apply op).Bounded := by
  intro n e he i hi
  by_cases ht : op.touches n
  · -- the file is new, one that another name points to, or one from before
    have hlt : ∀ m, ∀ e ∈ d.pointers m, ∀ i ∈ e, i < (d.apply op).fresh := fun m e he i hi =>
      (h m e he i hi).trans_le (fresh_le_apply d op)
    cases op with
    | create m =>
        rcases mem_pointers_point he with ⟨rfl, -⟩ | he
        · cases hi
          exact Nat.lt_succ_self _
        · exact hlt n e he i hi
    | append m bytes => exact absurd ht id
    | flush m => exact absurd ht id
    | rename m m' =>
        cases hm : d.entry m with
        | none =>
            simp only [FileSystem.apply, hm] at he
            exact hlt n e he i hi
        | some j =>
            simp only [FileSystem.apply, hm] at he
            rcases mem_pointers_point he with ⟨rfl, -⟩ | he
            · cases hi
            · rcases mem_pointers_point he with ⟨rfl, -⟩ | he
              · exact hlt m _ List.mem_cons_self i (hm ▸ hi)
              · exact hlt n e he i hi
    | unlink m =>
        cases hm : d.entry m with
        | none =>
            simp only [FileSystem.apply, hm] at he
            exact hlt n e he i hi
        | some j =>
            simp only [FileSystem.apply, hm] at he
            rcases mem_pointers_point he with ⟨rfl, -⟩ | he
            · cases hi
            · exact hlt n e he i hi
    | flushDir names => exact absurd ht id
  · exact (h n e (pointers_apply ht he) i hi).trans_le (fresh_le_apply d op)

lemma Apart.apply (h : d.Apart i n) (ht : ¬ op.touches n) : (d.apply op).Apart i n :=
  fun hmem => h (pointers_apply ht hmem)

/-- An operation on other names, which does not write to a file of this one, changes nothing. -/
theorem Holds.apply (h : d.Holds n S) (hb : d.Bounded) (ht : ¬ op.touches n)
    (hw : ∀ i, d.Writes op i → d.Apart i n) : (d.apply op).Holds n S := by
  intro e he
  have he := pointers_apply ht he
  have hsame : ∀ i ∈ e, (d.apply op).content i = d.content i
      ∧ (d.dirty i = false → (d.apply op).dirty i = false) := by
    rintro i rfl
    exact content_apply (hb n _ he i rfl) fun hwi => hw i hwi he
  refine ⟨?_, fun i hi => (hsame i hi).2 ((h e he).2 i hi)⟩
  have hmap : e.map (d.apply op).content = e.map d.content :=
    Option.map_congr fun i hi => (hsame i hi).1
  rw [hmap]
  exact (h e he).1

omit [DecidableEq N] in
lemma not_writes_of (h : ∀ m bytes, op ≠ .append m bytes) (d : FileSystem N B) (i : ℕ) :
    ¬ d.Writes op i := by
  rintro ⟨m, bytes, hop, -⟩
  exact h m bytes hop

lemma Bounded.applyAll (h : d.Bounded) (ops : List (FileOp N B)) : (d.applyAll ops).Bounded := by
  induction ops generalizing d with
  | nil => exact h
  | cons op ops ih => exact ih (h.apply op)

/-- So do operations on other names that write nothing. -/
lemma Holds.applyAll (h : d.Holds n S) (hb : d.Bounded) {ops : List (FileOp N B)}
    (hops : ∀ op ∈ ops, ¬ op.touches n ∧ ∀ m bytes, op ≠ .append m bytes) :
    (d.applyAll ops).Holds n S := by
  induction ops generalizing d with
  | nil => exact h
  | cons op ops ih =>
      have hop := hops op List.mem_cons_self
      exact ih (h.apply hb hop.1 fun i hw => absurd hw (not_writes_of hop.2 d i)) (hb.apply op)
        fun op' h' => hops op' (List.mem_cons_of_mem _ h')

/-- A file that is flushed is put in place: the name reads as the file, or as before if the
directory is lost. -/
theorem holds_rename (h : d.Holds n S) (hm : d.entry m = some i) (hne : m ≠ n)
    (hclean : d.dirty i = false) :
    (d.apply (.rename m n)).Holds n (fun o => S o ∨ o = some (d.content i))
      ∧ (d.apply (.rename m n)).read n = some (d.content i) := by
  have hpointers : (d.apply (.rename m n)).pointers n = some i :: d.pointers n := by
    simp only [FileSystem.apply, hm]
    rw [pointers_point_ne _ _ hne.symm, pointers_point_self]
  have hcontent : (d.apply (.rename m n)).content = d.content := by
    simp only [FileSystem.apply, hm]
    rfl
  have hdirty : (d.apply (.rename m n)).dirty = d.dirty := by
    simp only [FileSystem.apply, hm]
    rfl
  refine ⟨fun e he => ?_, ?_⟩
  · rw [hpointers, List.mem_cons] at he
    rw [hcontent, hdirty]
    rcases he with rfl | he
    · refine ⟨.inr rfl, fun j hj => ?_⟩
      cases hj
      exact hclean
    · exact ⟨.inl (h e he).1, (h e he).2⟩
  · have hentry : (d.apply (.rename m n)).entry n = some i := (List.cons.inj hpointers).1
    rw [read, hentry, hcontent]
    rfl

/-- A name of a directory that is flushed reads as it does for good. -/
theorem holds_flushDir {names : N → Bool} (h : d.Holds n S) (hn : names n = true) :
    (d.apply (.flushDir names)).Holds n (· = d.read n) := by
  intro e he
  have he : e = d.entry n := by
    rw [pointers, List.mem_cons] at he
    refine he.resolve_right fun he => ?_
    simp only [FileSystem.apply, hn, if_true] at he
    cases he
  subst he
  exact ⟨rfl, (h _ List.mem_cons_self).2⟩

end FileSystem

end BtcParser.Durable
