import BtcParser.Ingest.ExportedOnce
import BtcParser.Ingest.FixedChain

/-!
The flags of `block_status.csv`, beside the index, `current.csv` and the active chain.

* `Records` is what the three files say; `Flagged` and `Stored` are what is asked of them: whether
  a block is marked as not canonical, and whether it is on the chain that ends in `current.csv`.
* `InStep` is what a write of `current.csv` should leave: the blocks flagged are those known ones
  that are off the stored chain.
* `Midway` is what holds of the records before, in between and after failed passes, as long as the
  active chain is not reorganised: nothing is flagged or left out that the rest of a pass over
  this chain would not put right.
* `Facing` is what recovery and the loop have put right so far. `Facing.write` and
  `Facing.inStep` say what it makes of a write of `current.csv`.
-/

namespace BtcParser

variable {H ρ : Type} [DecidableEq H] {T : BlockTree H ρ}

/-- The flags mark the block as not canonical. -/
def Flagged (T : BlockTree H ρ) (flags : Dict (ℤ × H) Bool) (x : H) : Prop :=
  flags.get? (T.height x, x) = some false

instance (flags : Dict (ℤ × H) Bool) (x : H) : Decidable (Flagged T flags x) :=
  inferInstanceAs (Decidable (_ = _))

lemma flagged_setDetached {ds : List (ℤ × H)} (hd : ∀ d ∈ ds, d.1 = T.height d.2)
    (s : BlockStatusStore H) (x : H) :
    Flagged T (Ingest.setDetached ds s).entries x
      ↔ (∃ d ∈ ds, d.2 = x) ∨ Flagged T s.entries x := by
  induction ds generalizing s with
  | nil => simp [Ingest.setDetached]
  | cons d ds ih =>
      have hstep : Ingest.setDetached (d :: ds) s
          = Ingest.setDetached ds (s.setCanonical d.1 d.2 false) := rfl
      have hkey : (T.height x, x) = (d.1, d.2) ↔ d.2 = x := by
        rw [Prod.mk.injEq, hd d (by simp)]
        exact ⟨fun h => h.2.symm, fun h => ⟨by rw [h], h.symm⟩⟩
      rw [hstep, ih fun e he => hd e (by simp [he]), Flagged, BlockStatusStore.get?_setCanonical,
        List.exists_mem_cons_iff]
      by_cases hx : d.2 = x
      · simp [hkey.mpr hx, hx]
      · simp [mt hkey.mp hx, hx, Flagged]

lemma flagged_confirm (s : BlockStatusStore H) (h x : H) :
    Flagged T (s.setCanonicalIfPresent (T.height h) h true).entries x
      ↔ Flagged T s.entries x ∧ x ≠ h := by
  rw [Flagged, BlockStatusStore.get?_setCanonicalIfPresent, Flagged]
  by_cases hx : x = h
  · subst hx
    cases s.entries.get? (T.height x, x) <;> simp
  · simp [hx]

/-- The block is on the chain that ends in the stored one. -/
def Stored (T : BlockTree H ρ) (o : Option H) (x : H) : Prop :=
  ∃ h, o = some h ∧ Ancestor T.parent x h

omit [DecidableEq H] in
lemma not_stored_none (x : H) : ¬ Stored T none x := by
  rintro ⟨h, ⟨⟩, -⟩

omit [DecidableEq H] in
lemma stored_some {h x : H} : Stored T (some h) x ↔ Ancestor T.parent x h :=
  ⟨fun ⟨_, hy, ha⟩ => Option.some.inj hy ▸ ha, fun ha => ⟨h, rfl, ha⟩⟩

omit [DecidableEq H] in
lemma Stored.height_le {h x : H} (hs : Stored T (some h) x) : T.height x ≤ T.height h := by
  induction stored_some.mp hs with
  | refl => exact le_rfl
  | step hp _ ih =>
      have := T.height_of_parent hp
      have := ih (stored_some.mpr ‹_›)
      omega

section

variable {Z Z' : ActiveChain T} {h x : H}

omit [DecidableEq H] in
lemma Stored.mem (hs : Stored T (some h) x) (hh : h ∈ Z) : x ∈ Z :=
  Z.parentClosed.ancestor (stored_some.mp hs) hh

omit [DecidableEq H] in
lemma stored_of_le (hx : x ∈ Z) (hh : h ∈ Z) (hle : T.height x ≤ T.height h) :
    Stored T (some h) x :=
  stored_some.mpr (Z.ancestor_of_le hx hh hle)

end

/-- What the state files say. -/
structure Records (H : Type) where
  current : Option (Pointer H)
  index : Dict H (IndexRow H)
  flags : Dict (ℤ × H) Bool

/-- The block `current.csv` names. -/
def Records.top (r : Records H) : Option H := r.current.bind Prod.snd

/-- The block is indexed. -/
def Records.Has (r : Records H) (x : H) : Prop := r.index.contains x = true

/-- The state files. -/
def Disk.records (d : Disk H ρ) : Records H := ⟨d.current, IndexStore.loadRows d.index, d.status⟩

/-- The state files, with the flags in memory. -/
def World.records (w : World H ρ) : Records H :=
  { w.disk.records with flags := w.mem.status.entries }

/-- The blocks flagged are the known ones off the stored chain. -/
structure InStep (T : BlockTree H ρ) (r : Records H) : Prop where
  off : ∀ x, r.Has x → ¬ Stored T r.top x → Flagged T r.flags x
  stored : ∀ x, Flagged T r.flags x → ¬ Stored T r.top x

/-- The records are on the way to the active chain `Z`, of which the passes process the heights up
to `n`. -/
structure Midway (Z : ActiveChain T) (n : ℤ) (r : Records H) : Prop where
  looked : r.current ≠ none → 0 ≤ n
  off : ∀ x, r.Has x → x ∉ Z → ¬ Stored T r.top x → Flagged T r.flags x
  shared : ∀ x, Flagged T r.flags x → Stored T r.top x → x ∉ Z ∧ T.height x ≤ Z.tip
  above : ∀ x ∈ Z, r.Has x → ¬ Flagged T r.flags x → ¬ Stored T r.top x → T.height x ≤ n
  bare : r.current = none → (∀ x, ¬ Flagged T r.flags x) ∧ ∀ x, r.Has x → x ∈ Z
  /-- rows of an older schema are those seeded from the blocks of `Z` -/
  old : ∀ x row, r.index.get? x = some row → row.schemaVersion < currentIndexSchemaVersion →
    x ∈ Z ∧ ∀ p, r.current = some p → p.1 ≤ n

/-- What a pass that continues from height `m` has put right; `even` is what it can rely on when
the records were in step before it. -/
structure Facing (Z : ActiveChain T) (n : ℤ) (even : Prop) (m : ℤ) (r : Records H) : Prop where
  off : ∀ x ∉ Z, Stored T r.top x → Flagged T r.flags x
  below : ∀ x ∈ Z, T.height x ≤ m → ¬ Flagged T r.flags x
  reach : ∀ x ∈ Z, Stored T r.top x → T.height x ≤ max m n
  above : even → ∀ x ∈ Z, r.Has x → m < T.height x → Flagged T r.flags x

section

variable {Z Z' : ActiveChain T} {n n' m : ℤ} {even : Prop} {r : Records H} {x : H}

/-- Records that are in step are on the way to every chain. -/
lemma InStep.midway (h : InStep T r) (hcurrent : AllCurrent r.index)
    (hbare : r.current = none → ∀ x, ¬ Flagged T r.flags x) (h0 : r.current ≠ none → 0 ≤ n) :
    Midway Z n r where
  looked := h0
  off x hx _ hs := h.off x hx hs
  shared x hf hs := absurd hs (h.stored x hf)
  above x _ hx hf hs := absurd (h.off x hx hs) hf
  bare hc := by
    refine ⟨hbare hc, fun x hx => absurd (h.off x hx ?_) (hbare hc x)⟩
    rw [Records.top, hc]
    exact not_stored_none x
  old x row hrow hv := absurd hv (hcurrent x row hrow).not_gt

/-- The active chain grows. -/
lemma Midway.grow (h : Midway Z n r) (hz : ∀ x ∈ Z, x ∈ Z') (hn : n ≤ n') :
    Midway Z' n' r := by
  refine ⟨fun hc => (h.looked hc).trans hn, fun x hx hxz => h.off x hx (mt (hz x) hxz),
    fun x hf hs => ?_, fun x _ hx hf hs => ?_, fun hc => ?_, fun x row hrow hv => ?_⟩
  · obtain ⟨hxz, hle⟩ := h.shared x hf hs
    obtain ⟨y, hy⟩ := Z.exists_hashAt (T.height_nonneg x) hle
    have hyz' := hz y (Z.mem_of_hashAt hy)
    have hheight := Z.height_of_hashAt hy
    refine ⟨fun hxz' => hxz ?_, hheight ▸ Z'.height_le_tip hyz'⟩
    rw [Z'.eq_of_mem hxz' hyz' hheight.symm]
    exact Z.mem_of_hashAt hy
  · by_cases hxz : x ∈ Z
    · exact (h.above x hxz hx hf hs).trans hn
    · exact absurd (h.off x hx hxz hs) hf
  · exact ⟨(h.bare hc).1, fun x hx => hz x ((h.bare hc).2 x hx)⟩
  · obtain ⟨hxz, hp⟩ := h.old x row hrow hv
    exact ⟨hz x hxz, fun p hc => (hp p hc).trans hn⟩

/-- The loop confirms the block `y` of the chain. -/
lemma Midway.confirm {s : BlockStatusStore H} (h : Midway Z n { r with flags := s.entries }) {y : H}
    (hy : y ∈ Z) (hle : T.height y ≤ n) :
    Midway Z n { r with flags := (s.setCanonicalIfPresent (T.height y) y true).entries } := by
  refine ⟨h.looked, fun x hx hxz hs => ?_, fun x hf hs => ?_, fun x hxz hx hf hs => ?_,
    fun hc => ?_, h.old⟩
  · refine (flagged_confirm s y x).mpr ⟨h.off x hx hxz hs, ?_⟩
    rintro rfl
    exact hxz hy
  · exact h.shared x ((flagged_confirm s y x).mp hf).1 hs
  · by_cases hxy : x = y
    · exact hxy ▸ hle
    · exact h.above x hxz hx (fun hf' => hf ((flagged_confirm s y x).mpr ⟨hf', hxy⟩)) hs
  · exact ⟨fun x hf => (h.bare hc).1 x ((flagged_confirm s y x).mp hf).1, (h.bare hc).2⟩

/-- The staged rows are flushed: blocks of the chain. -/
lemma Midway.update {e : Dict H (IndexRow H)} (h : Midway Z n r)
    (he : ∀ x row, e.get? x = some row → x ∈ Z ∧ T.height x ≤ n
      ∧ (row.schemaVersion < currentIndexSchemaVersion → r.current = none)) :
    Midway Z n { r with index := r.index.update e } := by
  have hhas : ∀ x, ({ r with index := r.index.update e } : Records H).Has x →
      r.Has x ∨ x ∈ Z ∧ T.height x ≤ n := by
    intro x hx
    refine ((Dict.contains_update ..).mp hx).imp_right fun hx => ?_
    obtain ⟨row, hrow⟩ := Dict.contains_eq_true.mp hx
    exact ⟨(he x row hrow).1, (he x row hrow).2.1⟩
  refine ⟨h.looked, fun x hx hxz hs => ?_, h.shared, fun x hxz hx hf hs => ?_, fun hc => ?_,
    fun x row hrow hv => ?_⟩
  · exact (hhas x hx).elim (fun hx => h.off x hx hxz hs) fun hx => absurd hx.1 hxz
  · exact (hhas x hx).elim (fun hx => h.above x hxz hx hf hs) And.right
  · exact ⟨(h.bare hc).1, fun x hx => (hhas x hx).elim ((h.bare hc).2 x) And.left⟩
  · rw [Dict.get?_update, Option.or_eq_some_iff] at hrow
    rcases hrow with hrow | ⟨-, hrow⟩
    · obtain ⟨hxz, -, hnone⟩ := he x row hrow
      refine ⟨hxz, fun p hp => ?_⟩
      rw [hnone hv] at hp
      cases hp
    · exact h.old x row hrow hv

/-- `current.csv` is written, with a block of the chain. -/
lemma Midway.write (h : Midway Z n r) (hf : Facing Z n even m r) (hx : x ∈ Z)
    (hm : T.height x = m) (h0 : 0 ≤ n)
    (hold : ∀ y row, r.index.get? y = some row →
      row.schemaVersion < currentIndexSchemaVersion → m ≤ n) :
    Midway Z n { r with current := some (m, some x) } := by
  refine ⟨fun _ => h0, fun y hy hyz _ => ?_, fun y hfy hs => ?_, fun y hyz hy hfy hs => ?_,
    by rintro ⟨⟩, fun y row hrow hv => ?_⟩
  · by_cases hs : Stored T r.top y
    · exact hf.off y hyz hs
    · exact h.off y hy hyz hs
  · exact absurd hfy (hf.below y (Stored.mem hs hx) (hm ▸ Stored.height_le hs))
  · have hlt : m < T.height y := by
      by_contra hle
      exact hs (stored_of_le hyz hx (by omega))
    by_cases hs' : Stored T r.top y
    · have := hf.reach y hyz hs'
      omega
    · exact h.above y hyz hy hfy hs'
  · refine ⟨(h.old y row hrow hv).1, ?_⟩
    rintro _ ⟨⟩
    exact hold y row hrow hv

lemma Facing.write (hf : Facing Z n even m r) (hx : x ∈ Z)
    (hm : T.height x = m) : Facing Z n even m { r with current := some (m, some x) } where
  off _ hyz hs := absurd (Stored.mem hs hx) hyz
  below := hf.below
  reach _ _ hs := (hm ▸ Stored.height_le hs).trans (le_max_left _ _)
  above := hf.above

/-- **A write of `current.csv`** leaves the records in step when they were so before the pass, or
when the pass has reached its end. -/
lemma Facing.inStep (hf : Facing Z n even m r) (h : Midway Z n r) (hx : x ∈ Z)
    (hm : T.height x = m) (hc : even ∨ n ≤ m) :
    InStep T { r with current := some (m, some x) } := by
  refine ⟨fun y hy hs => ?_, fun y hfy hs => ?_⟩
  · by_cases hyz : y ∈ Z
    · have hlt : m < T.height y := by
        by_contra hle
        exact hs (stored_of_le hyz hx (by omega))
      rcases hc with he | hn
      · exact hf.above he y hyz hy hlt
      · by_contra hfy
        by_cases hs' : Stored T r.top y
        · have := hf.reach y hyz hs'
          omega
        · have := h.above y hyz hy hfy hs'
          omega
    · by_cases hs' : Stored T r.top y
      · exact hf.off y hyz hs'
      · exact h.off y hy hyz hs'
  · exact hf.below y (Stored.mem hs hx) (hm ▸ Stored.height_le hs) hfy

/-- Without `current.csv` nothing has to be put right. -/
lemma Facing.bare (h : Midway Z n r) (hc : r.current = none) (he : even → InStep T r) (m : ℤ) :
    Facing Z n even m r := by
  have hnone : ∀ x, ¬ Stored T r.top x := by
    rw [Records.top, hc]
    exact not_stored_none
  exact ⟨fun x _ hs => absurd hs (hnone x), fun x _ _ => (h.bare hc).1 x,
    fun x _ hs => absurd hs (hnone x), fun hev x _ hx _ => (he hev).off x hx (hnone x)⟩

/-- Nor when `current.csv` names a block of the chain. -/
lemma Facing.live (h : Midway Z n r) (hc : r.top = some x) (hx : x ∈ Z) (he : even → InStep T r) :
    Facing Z n even (T.height x) r := by
  refine ⟨fun y hyz hs => ?_, fun y hyz hle hf => ?_, fun _ _ hs => ?_, fun hev y hyz hy hlt => ?_⟩
  · rw [hc] at hs
    exact absurd (hs.mem hx) hyz
  · exact (h.shared y hf (hc ▸ stored_of_le hyz hx hle)).1 hyz
  · rw [hc] at hs
    exact hs.height_le.trans (le_max_left _ _)
  · refine (he hev).off y hy fun hs => ?_
    rw [hc] at hs
    exact hlt.not_ge hs.height_le

/-- The loop confirms the next block of the chain. -/
lemma Facing.confirm {s : BlockStatusStore H} (hf : Facing Z n even m { r with flags := s.entries })
    {y : H} (hy : y ∈ Z) (hm : T.height y = m + 1) : Facing Z n even (m + 1)
      { r with flags := (s.setCanonicalIfPresent (T.height y) y true).entries } := by
  refine ⟨fun x hxz hs => (flagged_confirm s y x).mpr ⟨hf.off x hxz hs, ?_⟩,
    fun x hxz hle hfx => ?_, fun x hxz hs => (hf.reach x hxz hs).trans (by omega),
    fun hev x hxz hx hlt => (flagged_confirm s y x).mpr ⟨hf.above hev x hxz hx (by omega), ?_⟩⟩
  · rintro rfl
    exact hxz hy
  · obtain ⟨hfx, hne⟩ := (flagged_confirm s y x).mp hfx
    have hlt : ¬ T.height x ≤ m := fun hle => hf.below x hxz hle hfx
    exact hne (Z.eq_of_mem hxz hy (by omega))
  · rintro rfl
    omega

/-- Rows are flushed, of blocks that the loop has passed. -/
lemma Facing.update {e : Dict H (IndexRow H)} (hf : Facing Z n even m r)
    (he : ∀ x row, e.get? x = some row → T.height x ≤ m) :
    Facing Z n even m { r with index := r.index.update e } := by
  refine ⟨hf.off, hf.below, hf.reach, fun hev x hxz hx hlt => ?_⟩
  rcases (Dict.contains_update ..).mp hx with hx | hx
  · exact hf.above hev x hxz hx hlt
  · obtain ⟨row, hrow⟩ := Dict.contains_eq_true.mp hx
    exact absurd (he x row hrow) hlt.not_ge

/-- A pass that has to go through older blocks again. -/
lemma Facing.rewind {m' : ℤ} (hf : Facing Z n even m r) (hle : m' ≤ m) (hn : m ≤ n)
    (hev : ¬ even) : Facing Z n even m' r :=
  ⟨hf.off, fun x hx hxm => hf.below x hx (hxm.trans hle),
    fun x hx hs => (hf.reach x hx hs).trans (by omega), fun he => absurd he hev⟩

end

namespace Ingest

variable {Z : ActiveChain T} {env : PassEnv T}

/-- What recovery finds: it detaches the blocks of the stored chain that are not on `Z`, and ends
at a block of both. -/
lemma WalkBack.detached {index : IndexStore H} {n : ℤ} {h : H} {ds : List (ℤ × H)} {a : ℤ × H}
    (hw : WalkBack env index n h ds a) (hon : env.On Z) (ht : IndexTrue T index.byHash)
    (hn : T.height h = n) (hz : h ∉ Z) :
    (∀ d ∈ ds, d.1 = T.height d.2)
      ∧ (∀ x, (∃ d ∈ ds, d.2 = x) ↔ Ancestor T.parent x h ∧ x ∉ Z)
      ∧ a.2 ∈ Z ∧ T.height a.2 = a.1 ∧ a.1 < n ∧ Ancestor T.parent a.2 h := by
  induction hw with
  | @found n h p row hrow hp h0 hlive =>
      have hpar : T.parent h = some p := (ht h row hrow).2.2.symm.trans hp
      have hpz := Z.mem_of_hashAt (hon.hashAt hlive)
      refine ⟨by simp [hn], fun x => ?_, hpz, hlive.height, by simp, .step hpar .refl⟩
      simp only [List.mem_singleton, exists_eq_left, ancestor_iff hpar]
      refine ⟨fun hx => hx ▸ ⟨.inl rfl, hz⟩, fun ⟨hx, hxz⟩ => ?_⟩
      rcases hx with rfl | hx
      · rfl
      · exact absurd (Z.parentClosed.ancestor hx hpz) hxz
  | @walk n h p live row ds a hrow hp h0 hlive hne _ ih =>
      have hpar : T.parent h = some p := (ht h row hrow).2.2.symm.trans hp
      have hheight := T.height_of_parent hpar
      have hpz : p ∉ Z := fun hpz => hne <| by
        have hat := Z.mem_iff.mp hpz
        rw [show T.height p = n - 1 by omega, hon.hashAt hlive] at hat
        exact Option.some.inj hat
      obtain ⟨hds, hmem, haz, hah, hlt, hanc⟩ := ih (by omega) hpz
      refine ⟨?_, fun x => ?_, haz, hah, by omega, .step hpar hanc⟩
      · rintro d (_ | ⟨_, hd⟩)
        · exact hn.symm
        · exact hds d hd
      · rw [List.exists_mem_cons_iff, hmem x, ancestor_iff hpar]
        constructor
        · rintro (rfl | ⟨hx, hxz⟩)
          · exact ⟨.inl rfl, hz⟩
          · exact ⟨.inr hx, hxz⟩
        · rintro ⟨rfl | hx, hxz⟩
          · exact .inl rfl
          · exact .inr ⟨hx, hxz⟩

/-- A block of `Z` on the stored chain is no higher than the common ancestor. -/
lemma WalkBack.height_le {index : IndexStore H} {n : ℤ} {h : H} {ds : List (ℤ × H)} {a : ℤ × H}
    (hw : WalkBack env index n h ds a) (hon : env.On Z) (ht : IndexTrue T index.byHash)
    (hn : T.height h = n) (hz : h ∉ Z) {x : H} (hx : x ∈ Z) (hs : Stored T (some h) x) :
    T.height x ≤ a.1 := by
  have hne : x ≠ h := by
    rintro rfl
    exact hz hx
  induction hw with
  | @found n h p row hrow hp h0 hlive =>
      have hpar : T.parent h = some p := (ht h row hrow).2.2.symm.trans hp
      have hanc := ((ancestor_iff hpar).mp (stored_some.mp hs)).resolve_left hne
      have := (stored_some.mpr hanc).height_le
      have := T.height_of_parent hpar
      simp only
      omega
  | @walk n h p live row ds a hrow hp h0 hlive hlp hw ih =>
      have hpar : T.parent h = some p := (ht h row hrow).2.2.symm.trans hp
      have hheight := T.height_of_parent hpar
      have hanc := ((ancestor_iff hpar).mp (stored_some.mp hs)).resolve_left hne
      have hpz : p ∉ Z := fun hpz => hlp <| by
        have hat := Z.mem_iff.mp hpz
        rw [show T.height p = n - 1 by omega, hon.hashAt hlive] at hat
        exact Option.some.inj hat
      refine ih (by omega) hpz (stored_some.mpr hanc) ?_
      rintro rfl
      exact hpz hx

variable {index : IndexStore H} {s : BlockStatusStore H} {n m : ℤ} {even : Prop} {h : H}
  {ds : List (ℤ × H)} {a : ℤ × H} {r : Records H}

/-- The flags after recovery. -/
lemma WalkBack.flagged (hw : WalkBack env index m h ds a) (hon : env.On Z)
    (ht : IndexTrue T index.byHash) (hm : T.height h = m) (hz : h ∉ Z) (x : H) :
    Flagged T (setDetached ds.reverse s).entries x
      ↔ Stored T (some h) x ∧ x ∉ Z ∨ Flagged T s.entries x := by
  obtain ⟨hds, hmem, -⟩ := hw.detached hon ht hm hz
  have hrev : (∃ d ∈ ds.reverse, d.2 = x) ↔ ∃ d ∈ ds, d.2 = x := by simp
  rw [flagged_setDetached (fun d hd => hds d (List.mem_reverse.mp hd)), hrev, hmem x, stored_some]

/-- **Recovery** keeps the records on the way, and puts right what is up to the common
ancestor. -/
lemma WalkBack.facing (hw : WalkBack env index m h ds a) (hon : env.On Z)
    (ht : IndexTrue T index.byHash) (hm : T.height h = m) (hz : h ∉ Z) (hle : m ≤ Z.tip)
    (hc : r.top = some h) (hmid : Midway Z n { r with flags := s.entries })
    (he : even → InStep T { r with flags := s.entries }) :
    Midway Z n { r with flags := (setDetached ds.reverse s).entries }
      ∧ Facing Z n even a.1 { r with flags := (setDetached ds.reverse s).entries } := by
  have hflag := hw.flagged (s := s) hon ht hm hz
  obtain ⟨-, -, haz, hah, -, hanc⟩ := hw.detached hon ht hm hz
  have htop : Records.top { r with flags := (setDetached ds.reverse s).entries } = some h := hc
  have hreach : ∀ x ∈ Z, Stored T (some h) x → T.height x ≤ a.1 :=
    fun x => hw.height_le hon ht hm hz
  -- a block of both chains is not flagged
  have hboth : ∀ x ∈ Z, Stored T (some h) x →
      ¬ Flagged T (setDetached ds.reverse s).entries x := by
    intro x hx hs hf
    rcases (hflag x).mp hf with hf | hf
    · exact hf.2 hx
    · exact (hmid.shared x hf (hc ▸ hs)).1 hx
  refine ⟨⟨hmid.looked, fun x hx hxz hs => ?_, fun x hf hs => ⟨fun hx => ?_, ?_⟩,
    fun x hxz hx hf hs => ?_, fun hnone => ?_, hmid.old⟩, fun x hxz hs => ?_,
    fun x hxz hle hf => ?_, fun x hxz hs => ?_, fun hev x hxz hx hlt => ?_⟩
  · exact (hflag x).mpr (.inr (hmid.off x hx hxz hs))
  · exact hboth x hx (htop ▸ hs) hf
  · have := (htop ▸ hs : Stored T (some h) x).height_le
    omega
  · exact hmid.above x hxz hx (fun hf' => hf ((hflag x).mpr (.inr hf'))) hs
  · rw [Records.top, hnone] at htop
    cases htop
  · exact (hflag x).mpr (.inl ⟨htop ▸ hs, hxz⟩)
  · refine hboth x hxz (stored_some.mpr ?_) hf
    exact (Z.ancestor_of_le hxz haz (by omega)).trans hanc
  · exact (hreach x hxz (htop ▸ hs)).trans (le_max_left _ _)
  · refine (hflag x).mpr (.inr ((he hev).off x hx fun hs => ?_))
    have := hreach x hxz (hc ▸ hs)
    omega

end Ingest

end BtcParser
