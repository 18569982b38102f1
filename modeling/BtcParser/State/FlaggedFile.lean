import BtcParser.Rpc.FlaggedTxStore
import BtcParser.State.Replaced

/-!
`flagged.json` through exceptions, kills and power failures.

* `load_flushed`: what is flushed is read back, as `reloaded`; `plain_entryOf` says that this is so
  of the entries of the watcher.
* `system` are the runs of the processes that use the file, and `Inv` is what is known of the store
  in the file and in the process.
* `flagged_txs_durable` is the result.
-/

namespace BtcParser.FlaggedStore

open Json AtomicWrite Durable FileSystem

/-! ### What is read back -/

/-- The values are strings, integers, `None`, and lists and dictionaries of them. -/
def Entry.Plain (e : Entry) : Prop := PlainMembers e.members

/-- The entry as JSON gives it back, with the dictionaries in it in the order of their keys. -/
def Entry.sorted (e : Entry) : Entry where
  txid := e.txid
  firstSeenAt := sortKeys e.firstSeenAt
  firstSeenHeight := sortKeys e.firstSeenHeight
  feeBtc := sortKeys e.feeBtc
  vsize := sortKeys e.vsize
  inputs := sortKeys e.inputs
  matchRows := sortKeys e.matchRows
  status := sortKeys e.status
  blockHash := sortKeys e.blockHash
  blockHeight := sortKeys e.blockHeight

@[simp] lemma Entry.sorted_sorted (e : Entry) : e.sorted.sorted = e.sorted := by
  simp [Entry.sorted]

lemma Entry.members_sorted (e : Entry) : e.sorted.members = sortMembers e.members := by
  rw [sortMembers_eq]
  rfl

lemma Entry.Plain.sorted {e : Entry} (h : e.Plain) : e.sorted.Plain := by
  rw [Entry.Plain, Entry.members_sorted]
  exact plainMembers_sortMembers _ h

lemma keys_members (e : Entry) : e.members.map Prod.fst = fieldNames := rfl

lemma fieldNames_nodup : fieldNames.Nodup := by decide

lemma nodup_insertionSort {V : Type} {l : List (List Char × V)} (h : (l.map Prod.fst).Nodup) :
    ((l.insertionSort fun p q => p.1 ≤ q.1).map Prod.fst).Nodup :=
  ((List.perm_insertionSort _ _).map _).nodup_iff.mpr h

lemma lookup_insertionSort {V : Type} {l : List (List Char × V)} (h : (l.map Prod.fst).Nodup)
    (k : List Char) : Dict.lookup (l.insertionSort fun p q => p.1 ≤ q.1) k = Dict.lookup l k := by
  ext v
  rw [Dict.lookup_eq_some_iff h, Dict.lookup_eq_some_iff (nodup_insertionSort h),
    List.mem_insertionSort]

/-- The members of an entry, written with their keys in order, make an entry. -/
lemma entryOfMembers_sorted (e : Entry) :
    entryOfMembers ((sortMembers e.members).insertionSort fun p q => p.1 ≤ q.1)
      = some e.sorted := by
  have hnodup : (e.sorted.members.map Prod.fst).Nodup := by
    rw [keys_members]
    exact fieldNames_nodup
  have hall : ((e.sorted.members.insertionSort fun p q => p.1 ≤ q.1).all
      fun p => fieldNames.contains p.1) = true := by
    rw [List.all_eq_true]
    intro p hp
    rw [List.contains_iff_mem, ← keys_members e.sorted]
    exact List.mem_map_of_mem ((List.mem_insertionSort _).mp hp)
  rw [← Entry.members_sorted, entryOfMembers, if_pos hall]
  simp only [lookup_insertionSort hnodup]
  rfl

/-- The store as it is read back: the entries in the order of their transactions. -/
def reloaded (m : Entries) : Entries where
  entries := (m.entries.map fun p => (p.1, p.2.sorted)).insertionSort fun p q => p.1 ≤ q.1
  nodup := nodup_insertionSort (by
    rw [List.map_map]
    exact m.nodup)

lemma get?_reloaded (m : Entries) (x : List Char) :
    (reloaded m).get? x = (m.get? x).map Entry.sorted := by
  have hmap : ∀ l : List (List Char × Entry),
      Dict.lookup (l.map fun p => (p.1, p.2.sorted)) x = (Dict.lookup l x).map Entry.sorted := by
    intro l
    induction l with
    | nil => rfl
    | cons p l ih =>
        rw [List.map_cons, Dict.lookup, Dict.lookup, ih]
        split_ifs <;> rfl
  rw [Dict.get?, Dict.get?, reloaded, lookup_insertionSort, hmap]
  rw [List.map_map]
  exact m.nodup

/-- Loading the members of a file one after the other. -/
lemma foldlM_loadEntry (l : List (List Char × Entry)) (m : Entries)
    (h : (m.entries.map Prod.fst ++ l.map Prod.fst).Nodup) :
    ∃ m' : Entries, (l.map fun p => (p.1, sortKeys (.obj p.2.members))).foldlM loadEntry m = some m'
      ∧ m'.entries = m.entries ++ l.map fun p => (p.1, p.2.sorted) := by
  induction l generalizing m with
  | nil => exact ⟨m, rfl, (List.append_nil _).symm⟩
  | cons p l ih =>
      obtain ⟨x, e⟩ := p
      rw [List.map_cons, List.nodup_middle] at h
      have hnew : x ∉ m.keys := fun hx => (List.nodup_cons.mp h).1 (List.mem_append_left _ hx)
      have hentries := Dict.entries_set_new hnew e.sorted
      obtain ⟨m', hfold, hm'⟩ := ih (m.set x e.sorted) (by
        rw [hentries, List.map_append, List.append_assoc]
        exact List.nodup_middle.mpr h)
      refine ⟨m', ?_, ?_⟩
      · rw [List.map_cons, List.foldlM_cons, loadEntry, sortKeys]
        simp only
        rw [entryOfMembers_sorted]
        exact hfold
      · rw [hm', hentries, List.append_assoc]
        rfl

/-- The entries are plain. -/
def PlainEntries (m : Entries) : Prop := ∀ p ∈ m.entries, p.2.Plain

lemma plain_payload {m : Entries} (h : PlainEntries m) : Plain (payload m) := by
  rw [payload, Plain, plainMembers_iff, List.map_map]
  refine ⟨m.nodup, fun p hp => ?_⟩
  obtain ⟨q, hq, rfl⟩ := List.mem_map.mp hp
  rw [Plain]
  exact ⟨by rw [keys_members]; exact fieldNames_nodup, h q hq⟩

/-- **What is flushed is read back**. -/
lemma load_flushed {m : Entries} (h : PlainEntries m) :
    load (some (flushed m)) = some (reloaded m) := by
  have hplain := plain_sortKeys _ (plain_payload h)
  have htext : TextFile.readText (flushed m) = some (dumps 1 (sortKeys (payload m))) := by
    refine TextFile.readText_writeText fun hc => ?_
    rcases mem_dumps 1 hplain _ hc with hc | hc
    · exact absurd hc (by decide)
    · exact absurd hc.1 (by decide)
  have hraw : sortKeys (payload m) = .obj ((m.entries.insertionSort fun p q => p.1 ≤ q.1).map
      fun p => (p.1, sortKeys (.obj p.2.members))) := by
    rw [payload, sortKeys, sortMembers_eq, List.map_map]
    congr 1
    symm
    exact List.map_insertionSort _ _ _ _ fun p _ q _ => Iff.rfl
  obtain ⟨m', hfold, hm'⟩ := foldlM_loadEntry (m.entries.insertionSort fun p q => p.1 ≤ q.1) .empty
    (nodup_insertionSort m.nodup)
  have hloaded : m' = reloaded m := by
    have hentries : m'.entries = (reloaded m).entries := by
      rw [hm', reloaded]
      exact List.map_insertionSort _ _ _ _ fun p _ q _ => Iff.rfl
    cases m'
    cases hr : reloaded m
    rw [hr] at hentries
    congr
  -- the text of an object is not empty
  cases hf : flushed m with
  | nil =>
      rw [hf] at htext
      have hnil : TextFile.readText [] = some [] := rfl
      rw [hnil, Option.some.injEq] at htext
      have := size_le_length 1 0 _ hplain
      have hpos := size_pos (sortKeys (payload m))
      rw [dumps] at htext
      rw [← htext, List.length_nil] at this
      omega
  | cons b bs =>
      rw [hf] at htext
      rw [load, htext, Option.bind_some, loads_dumps 1 hplain, hraw]
      · exact hfold.trans (congrArg some hloaded)
      · exact List.cons_ne_nil b bs

lemma plainItems_iff {items : List Value} : PlainItems items ↔ ∀ v ∈ items, Plain v := by
  induction items with
  | nil => simp [PlainItems]
  | cons v items ih => rw [PlainItems, ih, List.forall_mem_cons]

lemma plain_orNull {α : Type} {f : α → Value} (hf : ∀ v, Plain (f v)) (o : Option α) :
    Plain (orNull f o) := by
  cases o with
  | none => trivial
  | some v => exact hf v

lemma plain_str (cs : List Char) : Plain (.str cs) := trivial

lemma plain_int (z : ℤ) : Plain (.int z) := trivial

/-- What the watcher puts is plain. -/
lemma plain_entryOf (btcStr : ℚ → List Char) (firstSeenAt : List Char)
    (t : FlaggedTx (List Char) (List Char) (List Char)) : (entryOf btcStr firstSeenAt t).Plain := by
  have hrow : ∀ r, Plain (matchRow btcStr r) := by
    intro r
    rw [matchRow, Plain]
    constructor
    · simp only [List.map_cons, List.map_nil]
      decide
    · simp only [PlainMembers, plain_str, plain_int, true_and, and_true]
      exact ⟨plain_orNull plain_int _, plain_orNull (fun v => plain_str _) _⟩
  have hinputs : PlainItems (t.inputs.map fun p => .arr [.str p.1, .int p.2]) := by
    rw [plainItems_iff, List.forall_mem_map]
    exact fun p _ => ⟨trivial, trivial, trivial⟩
  have hrows : PlainItems (t.matchRows.map (matchRow btcStr)) := by
    rw [plainItems_iff, List.forall_mem_map]
    exact fun r _ => hrow r
  rw [Entry.Plain, Entry.members, entryOf]
  refine ⟨trivial, trivial, trivial, plain_orNull (fun v => plain_str _) _,
    plain_orNull plain_int _, hinputs, hrows, trivial, ?_, ?_, trivial⟩
  · cases t.status <;> trivial
  · cases t.status <;> trivial

/-! ### Runs -/

variable {stateDir : List (List Char)}

/-- `state_dir / "flagged.json"`. -/
def filePath (stateDir : List (List Char)) : FilePath :=
  ⟨stateDir, ['f', 'l', 'a', 'g', 'g', 'e', 'd', '.', 'j', 's', 'o', 'n']⟩

lemma not_isTemp_filePath (stateDir : List (List Char)) : ¬ (filePath stateDir).IsTemp := by
  rintro ⟨h, -⟩
  have h : some 'f' = some '.' := h
  cases h

/-- The disk, and the store of the process, if one is running. -/
structure Service where
  disk : FileSystem FilePath UInt8
  entries : Option Entries

/-- What happens: a process begins or ends, assigns to an entry of its store, calls `put` or
`remove`, of whose flush this many operations are carried out, or the power fails. -/
inductive Label where
  | start
  | exit
  | assign (e : Entry)
  | put (e : Entry) (a : Attempt) (done : ℕ)
  | remove (txid : List Char) (a : Attempt) (done : ℕ)
  | powerFailure

/-- The store behind it. -/
def Label.change : Label → Entries → Entries
  | .assign e, m => m.set e.txid e
  | .put e _ _, m => FlaggedStore.put m e
  | .remove x _ _, m => FlaggedStore.remove m x
  | _, m => m

/-- A flush of a store: it writes the text of the store, and `mkstemp` chooses a new name. -/
structure Flushing (stateDir : List (List Char)) (m : Entries) (a : Attempt) (done : ℕ)
    (s s' : Service) : Prop where
  new : s.disk.entry (tmpPath (filePath stateDir) a.random) = none
  contents : a.written = true → a.contents = flushed m
  disk : s'.disk = s.disk.applyAll ((ops (filePath stateDir) a).take done)
  /-- the process goes on unless it is killed -/
  entries : s'.entries = if (ops (filePath stateDir) a).length ≤ done then some m else none

/-- The processes that use the file, one after the other. Everything the first one finds has been
flushed. -/
def system (stateDir : List (List Char)) : TransitionSystem Service Label where
  init s := s.disk.Bounded ∧ (∀ n, s.disk.stale n = []) ∧ (∀ i, s.disk.dirty i = false)
    ∧ (∃ m, load (s.disk.read (filePath stateDir)) = some m ∧ PlainEntries m) ∧ s.entries = none
  step
    | .start, s, s' => s.entries = none
        ∧ s' = { s with entries := load (s.disk.read (filePath stateDir)) }
    | .exit, s, s' => s' = { s with entries := none }
    | .assign e, s, s' => ∃ m, s.entries = some m
        ∧ s' = { s with entries := some ((Label.assign e).change m) }
    | .put e a done, s, s' => ∃ m, s.entries = some m ∧ Flushing stateDir (put m e) a done s s'
    | .remove x a done, s, s' => ∃ m, s.entries = some m
        ∧ if m.contains x = true then Flushing stateDir (remove m x) a done s s' else s' = s
    | .powerFailure, s, s' => Crash s.disk s'.disk ∧ s'.entries = none

/-- The transaction whose entry may change. -/
def Label.about : Label → Option (List Char)
  | .assign e => some e.txid
  | .put e _ _ => some e.txid
  | .remove x _ _ => some x
  | _ => none

/-- An entry that is assigned or put is plain. -/
def Label.Plain : Label → Prop
  | .assign e => e.Plain
  | .put e _ _ => e.Plain
  | _ => True

/-- A call of `put` or `remove` returns, which makes this the entry of the transaction. -/
def Saves (stateDir : List (List Char)) (x : List Char) (v : Option Entry) (s : Service) :
    Label → Prop
  | .put e a done => e.txid = x ∧ v = some e ∧ Completed (filePath stateDir) a done
  | .remove y a done => y = x ∧ v = none ∧ Completed (filePath stateDir) a done
      ∧ ∃ m, s.entries = some m ∧ m.contains x = true
  | _ => False

/-! ### The invariant -/

/-- Whatever happens, the file loads as a store with the property. -/
def Keeps (stateDir : List (List Char)) (P : Entries → Prop) (d : FileSystem FilePath UInt8) :
    Prop :=
  d.Bounded ∧ ∀ n, ¬ n.IsTemp → d.Holds n fun o =>
    n = filePath stateDir → ∃ m, load o = some m ∧ P m

/-- What loads is as `P` says, and the store of the process as `Q` says. -/
def Inv (stateDir : List (List Char)) (P Q : Entries → Prop) (s : Service) : Prop :=
  Keeps stateDir P s.disk ∧ ∀ m, s.entries = some m → Q m

/-- Writing leads from `Q` to `P`, and reading from `P` to `Q`. -/
structure Stable (P Q : Entries → Prop) : Prop where
  plain : ∀ m, Q m → PlainEntries m
  write : ∀ m, Q m → P (reloaded m)
  read : ∀ m, P m → Q m

variable {P P' Q : Entries → Prop} {s s' : Service} {d : FileSystem FilePath UInt8} {m : Entries}
  {a : Attempt} {done : ℕ} {x : List Char} {i : Label} {l : List Label}

lemma Keeps.load (h : Keeps stateDir P d) : ∃ m, load (d.read (filePath stateDir)) = some m ∧ P m :=
  (h.2 _ (not_isTemp_filePath stateDir)).read rfl

lemma Keeps.crash {d' : FileSystem FilePath UInt8} (h : Keeps stateDir P d) (hc : Crash d d') :
    Keeps stateDir P d' := by
  refine ⟨h.1.crash hc, fun n hn => ?_⟩
  obtain ⟨hread, hholds⟩ := (h.2 n hn).crash hc
  refine hholds.mono fun o ho => ?_
  rw [ho]
  exact hread

/-- A flush that may be cut short. -/
lemma keeps_flush (hP : Stable P Q) (h : Keeps stateDir P s.disk) (hm : Q m)
    (hf : Flushing stateDir m a done s s') : Keeps stateDir P s'.disk := by
  have hcall := call_holds h.1 h.2 (not_isTemp_filePath stateDir) a hf.new done
  rw [← hf.disk] at hcall
  refine ⟨hcall.1, fun n hn => (hcall.2 n hn).mono fun o ho hn => ?_⟩
  rcases ho with ⟨-, hr, rfl⟩ | ⟨-, ho⟩
  · rw [hf.contents (written_of_replaced hr)]
    exact ⟨_, load_flushed (hP.plain m hm), hP.write m hm⟩
  · exact ho hn

/-- One that returns. -/
lemma keeps_flush_of_completed (hP : Stable P Q) (h : Keeps stateDir P' s.disk) (hm : Q m)
    (hf : Flushing stateDir m a done s s') (hc : Completed (filePath stateDir) a done) :
    Keeps stateDir P s'.disk := by
  have hcall := call_holds h.1 h.2 (not_isTemp_filePath stateDir) a hf.new done
  rw [← hf.disk] at hcall
  refine ⟨hcall.1, fun n hn => (hcall.2 n hn).mono fun o ho hn => ?_⟩
  rcases ho with ⟨-, hr, rfl⟩ | ⟨hnot, -⟩
  · rw [hf.contents (written_of_replaced hr)]
    exact ⟨_, load_flushed (hP.plain m hm), hP.write m hm⟩
  · exact absurd ⟨hn, hc⟩ hnot

lemma inv_flush (hP : Stable P Q) (h : Keeps stateDir P s.disk) (hm : Q m)
    (hf : Flushing stateDir m a done s s') : Inv stateDir P Q s' := by
  refine ⟨keeps_flush hP h hm hf, fun m' hm' => ?_⟩
  rw [hf.entries] at hm'
  split_ifs at hm'
  cases hm'
  exact hm

/-- One step. -/
lemma step_inv (hP : Stable P Q) (hi : ∀ m, Q m → Q (i.change m)) (h : Inv stateDir P Q s)
    (hs : (system stateDir).step i s s') : Inv stateDir P Q s' := by
  cases i with
  | start =>
      obtain ⟨-, rfl⟩ := hs
      refine ⟨h.1, fun m hm => ?_⟩
      obtain ⟨m', hload, hm'⟩ := h.1.load
      obtain rfl : m' = m := Option.some.inj (hload.symm.trans hm)
      exact hP.read m' hm'
  | exit =>
      obtain rfl := hs
      exact ⟨h.1, fun m hm => by cases hm⟩
  | assign e =>
      obtain ⟨m, hm, rfl⟩ := hs
      refine ⟨h.1, fun m' hm' => ?_⟩
      cases hm'
      exact hi m (h.2 m hm)
  | put e a done =>
      obtain ⟨m, hm, hf⟩ := hs
      exact inv_flush hP h.1 (hi m (h.2 m hm)) hf
  | remove x a done =>
      obtain ⟨m, hm, hf⟩ := hs
      split_ifs at hf
      · exact inv_flush hP h.1 (hi m (h.2 m hm)) hf
      · obtain rfl := hf
        exact h
  | powerFailure =>
      refine ⟨h.1.crash hs.1, fun m hm => ?_⟩
      rw [hs.2] at hm
      cases hm

lemma path_inv (hP : Stable P Q) (hl : ∀ i ∈ l, ∀ m, Q m → Q (i.change m))
    (h : Inv stateDir P Q s) (hp : (system stateDir).Path s l s') : Inv stateDir P Q s' := by
  induction hp with
  | nil => exact h
  | cons hs _ ih =>
      exact ih (fun j hj => hl j (List.mem_cons_of_mem _ hj))
        (step_inv hP (hl _ List.mem_cons_self) h hs)

/-! ### The entries that are kept -/

lemma plainEntries_iff : PlainEntries m ↔ ∀ x e, m.get? x = some e → e.Plain := by
  constructor
  · exact fun h x e he => h _ (Dict.get?_eq_some_iff.mp he)
  · exact fun h p hp => h p.1 p.2 (Dict.get?_eq_some_iff.mpr hp)

lemma stable_plain : Stable PlainEntries PlainEntries := by
  refine ⟨fun _ => id, fun m hm => plainEntries_iff.mpr fun x e he => ?_, fun _ => id⟩
  rw [get?_reloaded, Option.map_eq_some_iff] at he
  obtain ⟨e', he', rfl⟩ := he
  exact (plainEntries_iff.mp hm x e' he').sorted

lemma plain_change (hi : i.Plain) (hm : PlainEntries m) : PlainEntries (i.change m) := by
  rw [plainEntries_iff] at hm ⊢
  have hset : ∀ e : Entry, e.Plain → ∀ x e', (m.set e.txid e).get? x = some e' → e'.Plain := by
    intro e he x e' he'
    rw [Dict.get?_set] at he'
    split_ifs at he'
    · cases he'
      exact he
    · exact hm x e' he'
  cases i with
  | assign e => exact hset e hi
  | put e a done => exact hset e hi
  | remove y a done =>
      intro x e he
      rw [Label.change, remove, Dict.get?_erase] at he
      split_ifs at he
      exact hm x e he
  | _ => exact hm

/-- The store is plain, and this is its entry of the transaction. -/
def Has (x : List Char) (v : Option Entry) (m : Entries) : Prop :=
  PlainEntries m ∧ (m.get? x).map Entry.sorted = v.map Entry.sorted

/-- It has been read back. -/
def Loads (x : List Char) (v : Option Entry) (m : Entries) : Prop :=
  PlainEntries m ∧ m.get? x = v.map Entry.sorted

lemma stable_has (x : List Char) (v : Option Entry) : Stable (Loads x v) (Has x v) := by
  refine ⟨fun _ h => h.1, fun m h => ⟨stable_plain.write m h.1, ?_⟩, fun m h => ⟨h.1, ?_⟩⟩
  · rw [get?_reloaded, h.2]
  · rw [h.2, Option.map_map]
    congr 1
    exact funext Entry.sorted_sorted

lemma has_change {v : Option Entry} (hi : i.Plain) (hx : i.about ≠ some x) (h : Has x v m) :
    Has x v (i.change m) := by
  refine ⟨plain_change hi h.1, ?_⟩
  rw [← h.2]
  cases i with
  | assign e =>
      rw [Label.change, Dict.get?_set_ne]
      exact fun heq => hx (congrArg some heq.symm)
  | put e a done =>
      rw [Label.change, put, Dict.get?_set_ne]
      exact fun heq => hx (congrArg some heq.symm)
  | remove y a done =>
      rw [Label.change, remove, Dict.get?_erase, if_neg]
      exact fun heq => hx (congrArg some heq.symm)
  | _ => rfl

/-- The first process finds a plain store. -/
lemma inv_init (h : (system stateDir).init s) : Inv stateDir PlainEntries PlainEntries s := by
  obtain ⟨hb, hstale, hclean, hload, hnone⟩ := h
  refine ⟨⟨hb, fun n _ e he => ?_⟩, fun m hm => by rw [hnone] at hm; cases hm⟩
  rw [pointers, hstale, List.mem_singleton] at he
  subst he
  refine ⟨?_, fun j _ => hclean j⟩
  rintro rfl
  exact hload

lemma reach_plain (h : (system stateDir).Reach (fun i _ => i.Plain) s) :
    Inv stateDir PlainEntries PlainEntries s :=
  h.invariant (fun _ => inv_init) fun _ _ _ hinv hi hs =>
    step_inv stable_plain (fun _ => plain_change hi) hinv hs

/-- A call that returns. -/
lemma has_of_saves {v : Option Entry} (h : Inv stateDir PlainEntries PlainEntries s) (hi : i.Plain)
    (hs : (system stateDir).step i s s') (hv : Saves stateDir x v s i) :
    Inv stateDir (Loads x v) (Has x v) s' := by
  have hflush : ∀ m a done, Has x v m → Flushing stateDir m a done s s' →
      Completed (filePath stateDir) a done → Inv stateDir (Loads x v) (Has x v) s' := by
    intro m a done hm hf hc
    refine ⟨keeps_flush_of_completed (stable_has x v) h.1 hm hf hc, fun m' hm' => ?_⟩
    rw [hf.entries, if_pos hc.2] at hm'
    cases hm'
    exact hm
  cases i with
  | put e a done =>
      obtain ⟨m, hm, hf⟩ := hs
      obtain ⟨rfl, rfl, hc⟩ := hv
      refine hflush _ a done ⟨plain_change hi (h.2 m hm), ?_⟩ hf hc
      rw [Label.change, FlaggedStore.put, Dict.get?_set_self]
  | remove y a done =>
      obtain ⟨m, hm, hf⟩ := hs
      obtain ⟨rfl, rfl, hc, m', hm', hcontains⟩ := hv
      obtain rfl : m = m' := Option.some.inj (hm.symm.trans hm')
      rw [if_pos hcontains] at hf
      refine hflush _ a done ⟨plain_change (i := .remove y a done) trivial (h.2 m hm), ?_⟩ hf hc
      rw [Label.change, FlaggedStore.remove, Dict.get?_erase_self]
  | _ => exact hv.elim

/-- **What the store has saved stays saved**: in every run of processes, whose calls may raise or be
killed between any two operations of their flush, and of power failures, the file loads; and when a
`put` or a `remove` of a transaction has returned, then until its entry is changed again, what loads
has the entry that was put, or none, also behind one more power failure. -/
theorem flagged_txs_durable (h : (system stateDir).Reach (fun i _ => i.Plain) s) :
    (∃ m, load (s.disk.read (filePath stateDir)) = some m)
      ∧ (∀ d, Crash s.disk d → ∃ m, load (d.read (filePath stateDir)) = some m)
      ∧ ∀ i x v s' l s'', i.Plain → (system stateDir).step i s s' → Saves stateDir x v s i →
        (system stateDir).Path s' l s'' → (∀ j ∈ l, j.Plain ∧ j.about ≠ some x) →
        ∀ d, d = s''.disk ∨ Crash s''.disk d → ∃ m, load (d.read (filePath stateDir)) = some m
          ∧ m.get? x = v.map Entry.sorted := by
  have hinv := reach_plain h
  refine ⟨?_, fun d hc => ?_, ?_⟩
  · obtain ⟨m, hm, -⟩ := hinv.1.load
    exact ⟨m, hm⟩
  · obtain ⟨m, hm, -⟩ := (hinv.1.crash hc).load
    exact ⟨m, hm⟩
  · intro i x v s' l s'' hi hs hv hp hl d hd
    have hhas := path_inv (stable_has x v) (fun j hj m => has_change (hl j hj).1 (hl j hj).2)
      (has_of_saves hinv hi hs hv) hp
    have hkeeps : Keeps stateDir (Loads x v) d := by
      rcases hd with rfl | hc
      · exact hhas.1
      · exact hhas.1.crash hc
    obtain ⟨m, hm, -, hx⟩ := hkeeps.load
    exact ⟨m, hm, hx⟩

/-! ### A run -/

def entryA : Entry :=
  ⟨['a'], .str [], .int 0, .null, .null, .arr [], .arr [], .str inMempool, .null, .null⟩

def entryB : Entry := { entryA with txid := ['b'] }

/-- A flush in which nothing raises. -/
def writing (random : List Char) (m : Entries) : Attempt :=
  ⟨random, true, true, [flushed m], true, true, true, true⟩

def storeA : Entries := put .empty entryA

def diskA : FileSystem FilePath UInt8 :=
  emptyDisk.applyAll ((ops (filePath []) (writing ['1'] storeA)).take 5)

/-- The process is killed in the flush of a second entry. -/
def diskKilled : FileSystem FilePath UInt8 :=
  diskA.applyAll ((ops (filePath []) (writing ['2'] (put storeA entryB))).take 2)

lemma plain_entryA : entryA.Plain := by
  rw [Entry.Plain]
  exact ⟨trivial, trivial, trivial, trivial, trivial, trivial, trivial, trivial, trivial, trivial,
    trivial⟩

lemma plain_entryB : entryB.Plain := by
  rw [Entry.Plain]
  exact ⟨trivial, trivial, trivial, trivial, trivial, trivial, trivial, trivial, trivial, trivial,
    trivial⟩

/-- The first entry is kept, also when the power fails. -/
theorem flagged_txs_durable_killed :
    ∃ m, load (diskKilled.settled.read (filePath [])) = some m
      ∧ m.get? ['a'] = some entryA.sorted := by
  have hreach : (system []).Reach (fun i _ => i.Plain) ⟨emptyDisk, some .empty⟩ := by
    refine .step (s := ⟨emptyDisk, none⟩) (i := .start) (.init ⟨fun n e he i hi => ?_, fun _ => rfl,
      fun _ => rfl, ⟨.empty, rfl, fun p hp => by cases hp⟩, rfl⟩) trivial ⟨rfl, rfl⟩
    rw [List.mem_singleton.mp he] at hi
    cases hi
  have hput : (system []).step (.put entryA (writing ['1'] storeA) 5) ⟨emptyDisk, some .empty⟩
      ⟨diskA, some storeA⟩ := ⟨.empty, rfl, rfl, fun _ => List.append_nil _, rfl, rfl⟩
  have hcut : (system []).step (.put entryB (writing ['2'] (put storeA entryB)) 2)
      ⟨diskA, some storeA⟩ ⟨diskKilled, none⟩ :=
    ⟨storeA, rfl, rfl, fun _ => List.append_nil _, rfl, rfl⟩
  refine (flagged_txs_durable hreach).2.2 (.put entryA (writing ['1'] storeA) 5) ['a'] (some entryA)
    _ _ _ plain_entryA hput ⟨rfl, rfl, rfl, le_rfl⟩ (.cons hcut (.nil _)) (fun j hj => ?_) _
    (.inr (crash_settled diskKilled))
  rw [List.mem_singleton.mp hj]
  exact ⟨plain_entryB, by decide⟩

end BtcParser.FlaggedStore
