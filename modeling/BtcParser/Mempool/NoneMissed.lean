import BtcParser.Mempool.Announced

/-!
No listed transaction is missed.

* `Noted` is all that one event does about a transaction, `applyEvent_noted` that it does it.
* `Accounted` ties the account of a run to what the watcher knows. `handleEvents_accounted` is the
  step lemma of a batch, and `reconcile_scans` that of the startup scan.
* `announced_reported`: in every run that is `Fetchable`, a listed transaction that was announced
  and then mined is exported as seen and as confirmed. `mined_before_fetch` is a run that is not.
-/

namespace BtcParser

variable {X H A : Type}

namespace MempoolWatch

open Program TxRecords

variable [LinearOrder X] {cfg : MempoolWatchConfig} {r : TxRecords X H A} {env : WatchEnv X H A}
  {x : X} {w w' : Watcher X H A}

/-! ### One event -/

lemma tick_of_tick {w t : Watcher X H A} (n : ℕ) (h : ∃ m, t = w.tick m) :
    ∃ m, t.tick n = w.tick m := by
  obtain ⟨m, rfl⟩ := h
  exact ⟨m + n, tick_tick w m n⟩

lemma fetchAndMatch_each (hr : env.lookup = r.lookup) (y : X) (blockHash : Option H)
    (w : Watcher X H A) :
    Triple (· = w) (fetchAndMatch env y blockHash)
      (fun f t => FetchOf r env w.calls y blockHash f ∧ ∃ n, t = w.tick n) fun _ _ => True := by
  have hreads : Reads (fetchAndMatch env y blockHash) := reads_fetchAndMatch y blockHash
  have hticks := (hreads.triple (P := fun t => ∃ n, t = w.tick n)
    fun t n => tick_of_tick n).pre fun t (ht : t = w) => ⟨0, ht⟩
  have hfetch := (fetchAndMatch_triple hr y blockHash w.calls).pre fun t (ht : t = w) => by rw [ht]
  exact (hfetch.and hticks).weaken (fun _ => id) (fun _ _ h => ⟨h.1.2, h.2⟩) fun _ _ _ => trivial

lemma confirmed_markConfirmed (e : FlaggedTx X H A) (h : H) (height : ℤ) (source : WatchSource) :
    Confirmed e.txid (w.markConfirmed e h height source) := by
  have ht : (w.markConfirmed e h height source).trace = w.trace ++ [.exported ⟨.confirmed,
    { e with status := .confirmed h height }, some (h, height), source, none, none⟩] := rfl
  rw [Confirmed, exportsOf, ht, movesOf_append, if_pos (by rfl), List.filterMap_append]
  exact List.mem_append_right _ List.mem_cons_self

lemma Kept.leave (hx : Kept x w) (e : FlaggedTx X H A) (y : Option X) (source : WatchSource)
    (detail : WatchDetail H) (hc : e.txid = x → x ∉ w.checked) :
    Kept x (w.leave e y source detail) ∧ (e.txid ≠ x → Tracked x w →
      Tracked x (w.leave e y source detail))
      ∧ (w.leave e y source detail).unfetched = w.unfetched := by
  have hget := w.get_leave e y source detail x
  have htrace : ∃ items, (w.leave e y source detail).trace = w.trace ++ items := by
    cases y <;> exact ⟨_, Watcher.trace_remove _ _⟩
  have hchecked : (w.leave e y source detail).checked = w.checked := by
    cases y <;> exact Watcher.checked_remove _ _
  have hunfetched : (w.leave e y source detail).unfetched = w.unfetched := by
    cases y <;> exact Watcher.unfetched_remove _ _
  obtain ⟨items, htrace⟩ := htrace
  by_cases hxe : x = e.txid
  · refine ⟨⟨fun e' he' => ?_, fun hx' => ?_⟩, fun hne => absurd hxe.symm hne, hunfetched⟩
    · rw [hget, if_pos hxe] at he'
      cases he'
    · exact absurd (hchecked ▸ hx') (hc hxe.symm)
  · rw [if_neg hxe] at hget
    exact ⟨hx.same hget htrace fun hx' => hchecked ▸ hx', fun _ h => h.same hget htrace, hunfetched⟩

/-- An `R` takes a transaction off the record only if it is the one taken back. -/
lemma onRemoved_keeps (y : X) (w : Watcher X H A) (hx : Kept x w) :
    Triple (· = w) (onRemoved env y)
      (fun _ t => Kept x t ∧ (x ≠ y → Tracked x w → Tracked x t) ∧ t.unfetched = w.unfetched)
      fun _ _ => True := by
  have hx' : Kept x ({ w with checked := w.checked.erase y } : Watcher X H A) :=
    ⟨hx.store, fun h => hx.checked (Finset.mem_of_mem_erase h)⟩
  rw [onRemoved]
  refine Triple.bind (triple_modify
    (Q := fun _ t => t = ({ w with checked := w.checked.erase y } : Watcher X H A))
    fun t ht => by rw [ht]) fun _ => triple_get fun u hu => ?_
  subst hu
  have hsame : Triple (· = ({ w with checked := w.checked.erase y } : Watcher X H A))
      (pure () : Watch X H A Unit)
      (fun _ t => Kept x t ∧ (x ≠ y → Tracked x w → Tracked x t) ∧ t.unfetched = w.unfetched)
      fun _ _ => True := triple_pure fun t ht => by
    subst ht
    exact ⟨hx', fun _ h => h, rfl⟩
  cases hy : w.store.get y with
  | none =>
      simp only
      exact hsame
  | some e =>
      simp only
      refine triple_ite (fun _ => ?_) fun _ => hsame
      refine (onLeftUnmined_triple e .zmq .removedFromMempool _).weaken (fun _ => id)
        (fun _ t ht => ?_) fun _ _ _ => trivial
      obtain ⟨n, z, rfl⟩ := ht
      have hey : e.txid = y := Keyed.key_of_get hy
      have hleave := (hx'.tick n).leave e z .zmq .removedFromMempool fun hex =>
        hex ▸ hey ▸ Finset.notMem_erase _ _
      exact ⟨hleave.1, fun hne h => hleave.2.1 (fun hex => hne (hex.symm.trans hey)) h, hleave.2.2⟩

variable {mempool : ℕ → Finset X}

/-! #### A block is connected -/

/-- Before a `C`: the transaction is on record, or will be fetched again with the block. -/
def Due (r : TxRecords X H A) (h : H) (x : X) (w : Watcher X H A) : Prop :=
  Tracked x w ∨ x ∈ w.unfetched ∧ x ∈ r.inBlock h

/-- While transactions of the block are fetched again; those of `l` are left. -/
structure Refetching (r : TxRecords X H A) (h : H) (x : X) (w : Watcher X H A) (l : List X)
    (t : Watcher X H A) : Prop where
  calls : w.calls ≤ t.calls
  kept : Kept x t
  unfetched : t.unfetched = w.unfetched
  tracked : Due r h x w → Tracked x t ∨ x ∈ l
  left : x ∈ l → x ∈ w.unfetched ∧ x ∈ r.inBlock h

/-- While the entries on record are looked up in the block; those of `l` are left. -/
structure Marking (r : TxRecords X H A) (h : H) (x : X) (w : Watcher X H A)
    (l : List (FlaggedTx X H A)) (t : Watcher X H A) : Prop where
  kept : Kept x t
  unfetched : t.unfetched = w.unfetched \ r.inBlock h
  tracked : Due r h x w → Tracked x t
  confirmed : x ∈ r.inBlock h → Due r h x w → Confirmed x t ∨ ∃ e ∈ l, e.txid = x

lemma calls_afterAdded (y : X) (f : Option (RawTx X A × List (MatchRow A)))
    (source : WatchSource) (t : Watcher X H A) : (afterAdded y f source t).calls = t.calls := by
  cases f with
  | none => rfl
  | some f =>
      simp only [afterAdded, Watcher.add]
      split_ifs <;> rfl

/-- One of them is fetched: with a truthful node the transaction is found then. -/
lemma refetching_step {h : H} {b : ℤ × ℤ × List X} {l : List X} {y : X}
    (hr : r.Truthful mempool env) (hb : (env.node w.calls).getBlockTxids h = .ok b)
    (hshown : x ∈ w.unfetched → x ∈ r.inBlock h → ∀ k, r.Shown env k x (some h)) :
    Triple (Refetching r h x w (y :: l))
      (do onAdded y (← fetchAndMatch env y (some h)) .zmq) (fun _ => Refetching r h x w l)
      fun _ _ => True := by
  refine triple_of_each fun t ht => (fetchAndMatch_each hr.lookup y (some h) t).bind fun f => ?_
  rintro _ ⟨hf, n, rfl⟩
  rw [onAdded_apply]
  refine ⟨?_, ?_, ?_, fun hT => ?_, fun hl => ht.left (List.mem_cons_of_mem _ hl)⟩
  · rw [calls_afterAdded]
    exact ht.calls.trans (Nat.le_add_right _ n)
  · refine (ht.kept.tick n).afterAdded y (fun hxy tx rows hfr => ?_) .zmq
    obtain ⟨hxun, hxin⟩ := ht.left (hxy ▸ List.mem_cons_self)
    exact hf.rows (hxy ▸ hshown hxun hxin t.calls) tx rows hfr
  · cases f with
    | none => exact ht.unfetched
    | some f => exact (unfetched_add _ _ _ _ _).trans ht.unfetched
  · rcases ht.tracked hT with htt | hl
    · exact .inl ((htt.tick n).afterAdded y f .zmq)
    · rcases List.mem_cons.mp hl with rfl | hl
      · left
        obtain ⟨hxun, hxin⟩ := ht.left List.mem_cons_self
        obtain ⟨tx, htx, -⟩ := hr.inBlock w.calls t.calls h b x ht.calls hb hxin
        obtain ⟨rows, rfl⟩ := hf.known tx htx
        exact (ht.kept.tick n).add_self tx (hf.rows (hshown hxun hxin t.calls) tx rows rfl) .zmq
      · exact .inr hl

/-- An entry is looked up: the transaction is confirmed if it is its entry and in the block. -/
lemma marking_step {h : H} {height : ℤ} {e : FlaggedTx X H A} {l : List (FlaggedTx X H A)}
    {txids : List X} (hblock : txids.toFinset = r.inBlock h) :
    Triple (fun t => Marking r h x w (e :: l) t ∧ Current (e :: l) t)
      (confirmIfIn (A := A) txids.toFinset h height e)
      (fun _ t => Marking r h x w l t ∧ Current l t) fun _ _ => True := by
  refine triple_of_each fun t ht => (confirmIfIn_triple _ h height e t).post fun _ s hs => ?_
  obtain ⟨ht, hcur⟩ := ht
  rw [hs]
  split_ifs with hif
  · have hget := fun y hy => (t.get_markConfirmed e h height .zmq y).trans (if_neg hy)
    refine ⟨?_, hcur.tail hget⟩
    by_cases hxe : x = e.txid
    · subst hxe
      have hc : Confirmed e.txid (t.markConfirmed e h height .zmq) :=
        confirmed_markConfirmed e h height .zmq
      exact ⟨kept_of_tracked (.inl hc), ht.unfetched, fun _ => .inl hc, fun _ _ => .inl hc⟩
    · have htrace : (t.markConfirmed e h height .zmq).trace = t.trace ++ [.exported ⟨.confirmed,
        { e with status := .confirmed h height }, some (h, height), .zmq, none, none⟩] := rfl
      refine ⟨ht.kept.same (hget x hxe) htrace id, ht.unfetched,
        fun hT => (ht.tracked hT).same (hget x hxe) htrace, fun hxb hT => ?_⟩
      refine (ht.confirmed hxb hT).imp (·.append htrace) fun hex => ?_
      obtain ⟨e', he', hx'⟩ := hex
      exact ⟨e', (List.mem_cons.mp he').resolve_left fun heq => hxe (heq ▸ hx').symm, hx'⟩
  · refine ⟨⟨ht.kept, ht.unfetched, ht.tracked, fun hxb hT => ?_⟩, hcur.tail fun _ _ => rfl⟩
    rcases ht.confirmed hxb hT with hc | ⟨e', he', hx'⟩
    · exact .inl hc
    · rcases List.mem_cons.mp he' with rfl | he'
      · -- its entry, and not marked: it was confirmed before
        left
        subst hx'
        rw [hblock] at hif
        have hwaits : e'.status.isInMempool = false := by simpa [hxb] using hif
        exact (ht.tracked hT).confirmed_of hcur.head hwaits
      · exact .inr ⟨e', he', hx'⟩

/-- A `C` fetches the transaction again, if it has to, and reports it as confirmed, if it is on
record then and in the block. -/
lemma onBlockConnected_keeps (hr : r.Truthful mempool env) (h : H) (w : Watcher X H A)
    (hx : Kept x w)
    (hshown : x ∈ w.unfetched → x ∈ r.inBlock h → ∀ k, r.Shown env k x (some h)) :
    Triple (· = w) (onBlockConnected cfg env h)
      (fun _ t => Kept x t ∧ t.unfetched = w.unfetched \ r.inBlock h ∧ (Tracked x w → Tracked x t)
        ∧ (x ∈ r.inBlock h → x ∈ w.unfetched ∨ Tracked x w → Confirmed x t))
      fun _ _ => True := by
  rw [onBlockConnected]
  refine ((rpc_triple _ w).weaken (fun _ => id) (fun _ _ => id) fun _ _ _ => trivial).bind
    fun b => triple_of_each fun t hbt => ?_
  obtain ⟨hb, rfl⟩ := hbt
  have hblock := hr.txids _ _ _ hb
  have hfetch := fun y l => refetching_step (y := y) (l := l) hr hb hshown
  obtain ⟨height, c, txids⟩ := b
  simp only at hblock
  refine Triple.bind (triple_modify
    (Q := fun _ t => w.calls ≤ t.calls ∧ Kept x t ∧ t.unfetched = w.unfetched
      ∧ (Tracked x w → Tracked x t)) fun t ht => ?_) fun _ => triple_get fun u hu => ?_
  · subst ht
    exact ⟨Nat.le_succ _, ⟨hx.store, hx.checked⟩, rfl, id⟩
  obtain ⟨hcalls, hxu, hunfetched, htracked⟩ := hu
  -- the transactions that are fetched again
  have hadds := triple_forM hfetch (env.listing u.calls (u.unfetched ∩ txids.toFinset))
  refine Triple.bind (hadds.pre fun t ht => ?_) fun _ => ?_
  · obtain rfl : t = u := ht
    refine ⟨hcalls, hxu, hunfetched, fun hT => hT.imp htracked fun hxb => ?_, fun hl => ?_⟩
    · rw [env.mem_listing, Finset.mem_inter, hunfetched, hblock]
      exact hxb
    · rw [env.mem_listing, Finset.mem_inter, hunfetched, hblock] at hl
      exact hl
  refine Triple.bind (triple_modify (Q := fun _ t => Kept x t
    ∧ t.unfetched = w.unfetched \ r.inBlock h ∧ (Due r h x w → Tracked x t)) fun t ht => ?_)
    fun _ => triple_get fun v hv => ?_
  · refine ⟨⟨ht.kept.store, fun hc => ht.kept.checked (Finset.mem_sdiff.mp hc).1⟩, ?_,
      fun hT => (ht.tracked hT).resolve_right (by simp)⟩
    show t.unfetched \ txids.toFinset = _
    rw [ht.unfetched, hblock]
  -- the entries that are in the block
  have hconfirm := triple_forM (f := confirmIfIn txids.toFinset h height)
    (I := fun l t => Marking r h x w l t ∧ Current l t) (fun _ _ => marking_step hblock) v.store.all
  refine Triple.bind (hconfirm.pre fun t ht => ?_) fun _ => ?_
  · obtain rfl : t = v := ht
    refine ⟨⟨hv.1, hv.2.1, hv.2.2, fun _ hT => ?_⟩, current_all t⟩
    refine (hv.2.2 hT).imp_right fun hex => ?_
    obtain ⟨e, he, -⟩ := hex
    refine ⟨e, ?_, Keyed.key_of_get he⟩
    rw [Keyed.mem_all, Keyed.key_of_get he]
    exact he
  -- the depth of the confirmed ones takes none of them off the record
  refine (checkConfirmedDepth_rule (E := fun _ => True) (I := fun _ => Marking r h x w [])
    (fun e l t t' ht hcur hd => ?_) fun _ _ _ => trivial).weaken
    (fun t ht => ht.1) (fun _ t ht => ?_) fun _ _ h => h
  · obtain ⟨items, htrace⟩ := hd.trace
    exact ⟨hd.kept hcur.head ht.kept, hd.sets.2.trans ht.unfetched,
      fun hT => hd.tracked hcur.head (ht.tracked hT),
      fun hxb hT => (ht.confirmed hxb hT).imp_left (·.append htrace)⟩
  · refine ⟨ht.kept, ht.unfetched, fun htr => ht.tracked (.inl htr), fun hxb hor => ?_⟩
    exact (ht.confirmed hxb (hor.symm.imp_right fun hun => ⟨hun, hxb⟩)).resolve_right (by simp)

/-- All that an event does about a transaction, `fs` being what the batch has fetched. -/
structure Noted (r : TxRecords X H A) (fs : List (X × Option (RawTx X A × List (MatchRow A))))
    (x : X) (e : SequenceEvent X H) (w t : Watcher X H A) : Prop where
  kept : Kept x t
  tracked : e ≠ .removed x → Tracked x w → Tracked x t
  unfetched : x ∈ t.unfetched → x ∈ w.unfetched ∨ Dict.lookup fs x = some none
  waiting : e ≠ .removed x → (∀ h, e = .connected h → x ∉ r.inBlock h) → x ∈ w.unfetched →
    x ∈ t.unfetched
  announced : e = .added x → ∀ f, Dict.lookup fs x = some f → x ∈ t.unfetched ∨ Tracked x t
  mined : ∀ h, e = .connected h → x ∈ r.inBlock h → x ∈ w.unfetched ∨ Tracked x w → Confirmed x t

/-- An event that only looks at the depth of the confirmed transactions, or does nothing. -/
lemma Noted.of_quiet {fs : List (X × Option (RawTx X A × List (MatchRow A)))}
    {e : SequenceEvent X H} (hk : Kept x w') (ht : Tracked x w → Tracked x w')
    (hu : w'.unfetched = w.unfetched) (hadd : e ≠ .added x) (hcon : ∀ h, e ≠ .connected h) :
    Noted r fs x e w w' where
  kept := hk
  tracked _ := ht
  unfetched h := .inl (hu ▸ h)
  waiting _ _ h := hu ▸ h
  announced h := absurd h hadd
  mined h hh := absurd hh (hcon h)

/-- An `A` of the transaction itself, or of another one. -/
lemma applyEvent_added_noted (fs : List (X × Option (RawTx X A × List (MatchRow A)))) (y : X)
    (w : Watcher X H A) (hx : Kept x w)
    (hfs : ∀ tx rows, Dict.lookup fs x = some (some (tx, rows)) → rows ≠ []) :
    Triple (· = w) (applyEvent cfg env fs (.added y)) (fun _ => Noted r fs x (.added y) w)
      fun _ _ => True := by
  rintro _ rfl
  rw [applyEvent]
  rcases hy : Dict.lookup fs y with _ | (_ | f)
  · refine ⟨hx, fun _ h => h, .inl, fun _ _ h => h, fun h f hf => ?_, fun _ h => by cases h⟩
    cases h
    cases hy.symm.trans hf
  · refine ⟨⟨hx.store, hx.checked⟩, fun _ h => h, fun h => ?_, fun _ _ h => ?_, fun h _ _ => ?_,
      fun _ h => by cases h⟩
    · rcases Finset.mem_insert.mp h with rfl | h
      · exact .inr hy
      · exact .inl h
    · exact Finset.mem_insert_of_mem h
    · cases h
      exact .inl (Finset.mem_insert_self _ _)
  · simp only [onAdded_apply]
    refine ⟨hx.afterAdded y (fun hxy tx rows hf => hfs tx rows ?_) .zmq,
      fun _ h => h.afterAdded y _ .zmq, fun h => .inl ?_, fun _ _ h => ?_, fun h _ _ => ?_,
      fun _ h => by cases h⟩
    · rw [hxy, hy, hf]
    · rwa [afterAdded, unfetched_add] at h
    · rwa [afterAdded, unfetched_add]
    · cases h
      exact .inr (hx.add_self f.1 (hfs f.1 f.2 hy) .zmq)

lemma applyEvent_noted (hr : r.Truthful mempool env)
    (fs : List (X × Option (RawTx X A × List (MatchRow A)))) (e : SequenceEvent X H)
    (w : Watcher X H A) (hx : Kept x w)
    (hfs : ∀ tx rows, Dict.lookup fs x = some (some (tx, rows)) → rows ≠ [])
    (hshown : ∀ h, e = .connected h → x ∈ w.unfetched → x ∈ r.inBlock h →
      ∀ k, r.Shown env k x (some h)) :
    Triple (· = w) (applyEvent cfg env fs e) (fun _ => Noted r fs x e w) fun _ _ => True := by
  cases e with
  | added y => exact applyEvent_added_noted fs y w hx hfs
  -- its removal ends the account of it; that of another one does not touch it
  | removed y =>
      rw [applyEvent]
      have hx' : Kept x ({ w with unfetched := w.unfetched.erase y } : Watcher X H A) :=
        ⟨hx.store, hx.checked⟩
      refine Triple.bind (triple_modify
        (Q := fun _ t => t = { w with unfetched := w.unfetched.erase y }) fun t ht => by rw [ht])
        fun _ => (onRemoved_keeps y _ hx').post fun _ t ht => ?_
      obtain ⟨hk, htr, hu⟩ := ht
      refine ⟨hk, fun hne h => htr (fun hxy => hne (by rw [hxy])) h, fun h => .inl ?_,
        fun hne _ h => ?_, (fun h => by cases h),
        fun _ h => by cases h⟩
      · rw [hu] at h
        exact Finset.mem_of_mem_erase h
      · rw [hu]
        exact Finset.mem_erase.mpr ⟨fun hxy => hne (by rw [hxy]), h⟩
  -- if it is in the block it is mined, whether it could be fetched before or not
  | connected h =>
      rw [applyEvent]
      refine (onBlockConnected_keeps hr h w hx fun hu hb => hshown h rfl hu hb).post
        fun _ t ht => ?_
      obtain ⟨hk, hu, htr, hm⟩ := ht
      refine ⟨hk, fun _ => htr, fun h' => .inl ?_, fun _ hb h' => ?_, (fun h' => by cases h'),
        fun h' heq => ?_⟩
      · rw [hu] at h'
        exact (Finset.mem_sdiff.mp h').1
      · rw [hu]
        exact Finset.mem_sdiff.mpr ⟨h', hb h rfl⟩
      · cases heq
        exact hm
  -- a look at the depths takes nothing off the record but what is deep
  | disconnected h =>
      rw [applyEvent]
      refine (checkConfirmedDepth_rule (E := fun _ => True)
        (I := fun _ t => Kept x t ∧ (Tracked x w → Tracked x t) ∧ t.unfetched = w.unfetched)
        (fun e l t t' ht hcur hd => ?_) fun _ _ _ => trivial).weaken (fun t ht => ?_)
        (fun _ t ht => .of_quiet ht.1 ht.2.1 ht.2.2 (by simp) (by simp)) fun _ _ h => h
      · exact ⟨hd.kept hcur.head ht.1, fun h => hd.tracked hcur.head (ht.2.1 h),
          hd.sets.2.trans ht.2.2⟩
      · subst ht
        exact ⟨hx, id, rfl⟩
  | other =>
      rw [applyEvent]
      refine triple_pure fun t ht => ?_
      subst ht
      exact .of_quiet hx id rfl (by simp) (by simp)

/-! ### A batch -/

/-- What the account of the run says of a transaction is what the watcher knows of it. -/
structure Accounted (told : Finset X × Finset X) (x : X) (w : Watcher X H A) : Prop where
  kept : Kept x w
  announced : x ∈ told.1 → x ∈ w.unfetched ∨ Tracked x w
  mined : x ∈ told.2 → Confirmed x w

/-- A transaction that has been reported as confirmed stays so. -/
lemma accounted_of_confirmed (told : Finset X × Finset X) (h : Confirmed x w) :
    Accounted told x w :=
  ⟨kept_of_tracked (.inl h), fun _ => .inr (.inl h), fun _ => h⟩

/-- One event of a batch, if the transaction is fetched when it is announced, or on record. -/
lemma Noted.accounted {fs : List (X × Option (RawTx X A × List (MatchRow A)))}
    {e : SequenceEvent X H} {told : Finset X × Finset X} (h : Noted r fs x e w w')
    (hw : Accounted told x w) (hc : Changes cfg w w')
    (hadd : e = .added x → (∃ f, Dict.lookup fs x = some f) ∨ Tracked x w) :
    Accounted (r.account told e) x w' := by
  have hmined := fun hm => (hw.mined hm).changes hc
  cases e with
  | added y =>
      refine ⟨h.kept, fun hx => ?_, hmined⟩
      by_cases hy : x = y
      · subst hy
        rcases hadd rfl with ⟨f, hf⟩ | ht
        · exact h.announced rfl f hf
        · exact .inr (h.tracked (by simp) ht)
      · have hx' := (Finset.mem_insert.mp hx).resolve_left hy
        exact (hw.announced hx').imp (h.waiting (by simp) (by simp)) (h.tracked (by simp))
  | removed y =>
      refine ⟨h.kept, fun hx => ?_, hmined⟩
      obtain ⟨hne, hx'⟩ := Finset.mem_erase.mp hx
      have hne' : (.removed y : SequenceEvent X H) ≠ .removed x := fun heq => by
        cases heq
        exact hne rfl
      exact (hw.announced hx').imp (h.waiting hne' (by simp)) (h.tracked hne')
  | connected b =>
      have hin : x ∈ told.1 → x ∈ r.inBlock b → Confirmed x w' := fun hx hb =>
        h.mined b rfl hb (hw.announced hx)
      refine ⟨h.kept, fun hx => ?_, fun hx => ?_⟩
      · by_cases hb : x ∈ r.inBlock b
        · exact .inr (.inl (hin hx hb))
        · refine (hw.announced hx).imp (h.waiting (by simp) fun b' hb' => ?_) (h.tracked (by simp))
          cases hb'
          exact hb
      · rcases Finset.mem_union.mp hx with hx | hx
        · exact hmined hx
        · exact hin (Finset.mem_inter.mp hx).1 (Finset.mem_inter.mp hx).2
  | disconnected b =>
      exact ⟨h.kept, fun hx => (hw.announced hx).imp (h.waiting (by simp) (by simp))
        (h.tracked (by simp)), hmined⟩
  | other =>
      exact ⟨h.kept, fun hx => (hw.announced hx).imp (h.waiting (by simp) (by simp))
        (h.tracked (by simp)), hmined⟩

/-- What holds in a batch that began at `w` when the events `l` are still to come: an announcement
that the batch does not fetch is one of a transaction on record. -/
def InBatch (r : TxRecords X H A) (env : WatchEnv X H A) (mempool : ℕ → Finset X)
    (events : List (SequenceEvent X H)) (told : Finset X × Finset X) (x : X) (w : Watcher X H A)
    (l : List (SequenceEvent X H)) (t : Watcher X H A) : Prop :=
  ∃ before, events = before ++ l ∧ Accounted (before.foldl r.account told) x t
    ∧ (x ∈ t.unfetched → Unfetched env mempool events w x)
    ∧ (x ∈ w.checked → .added x ∈ l → Tracked x t
      ∧ ((∃ h, .connected h ∈ before ∧ x ∈ r.inBlock h) → Confirmed x t))

/-- One event of a batch. -/
lemma inBatch_step {fs : List (X × Option (RawTx X A × List (MatchRow A)))}
    {events l : List (SequenceEvent X H)} {e : SequenceEvent X H} {told : Finset X × Finset X}
    {t : Watcher X H A} (hsight : KeepsInSight r env mempool events w x)
    (hnone : Dict.lookup fs x = some none → Unfetched env mempool events w x)
    (hsome : .added x ∈ events → x ∉ w.checked → ∃ f, Dict.lookup fs x = some f)
    (ht : InBatch r env mempool events told x w (e :: l) t) (hn : Noted r fs x e t w')
    (hc : Changes cfg t w') : InBatch r env mempool events told x w l w' := by
  obtain ⟨before, hevents, hacc, hunfetched, hchecked⟩ := ht
  have hmem : e ∈ events := hevents ▸ List.mem_append_right _ List.mem_cons_self
  refine ⟨before ++ [e], by rw [hevents, List.append_assoc]; rfl, ?_, fun hx => ?_,
    fun hx hl => ?_⟩
  · rw [List.foldl_append]
    refine hn.accounted hacc hc fun he => ?_
    by_cases hx : x ∈ w.checked
    · exact .inr (hchecked hx (he ▸ List.mem_cons_self)).1
    · exact .inl (hsome (he ▸ hmem) hx)
  · exact (hn.unfetched hx).elim hunfetched hnone
  · obtain ⟨htr, hconf⟩ := hchecked hx (List.mem_cons_of_mem _ hl)
    by_cases he : e = .removed x
    · -- the transaction is announced again, so a block with it came before
      subst he
      have hdone := hconf (hsight.announcedAgain hx before l hevents hl)
      exact ⟨.inl (hdone.changes hc), fun _ => hdone.changes hc⟩
    · refine ⟨hn.tracked he htr, ?_⟩
      rintro ⟨b, hb, hxb⟩
      rcases List.mem_append.mp hb with hb | hb
      · exact (hconf ⟨b, hb, hxb⟩).changes hc
      · obtain rfl := List.mem_singleton.mp hb
        exact hn.mined b rfl hxb (.inr htr)

/-- A batch keeps the account. -/
lemma handleEvents_accounted (hr : r.Truthful mempool env) (events : List (SequenceEvent X H))
    (hcalls : w.calls = 0) {told : Finset X × Finset X} (hw : Accounted told x w)
    (hsight : ¬ Confirmed x w → KeepsInSight r env mempool events w x)
    (h : handleEvents cfg env events w = .ok () w') :
    Accounted (events.foldl r.account told) x w' := by
  -- a confirmed transaction stays on record whatever comes
  by_cases hconf : Confirmed x w
  · have hc : Changes cfg w (stateAfter (handleEvents cfg env events) w) :=
      handleEvents_changes events w
    rw [stateAfter, h] at hc
    exact accounted_of_confirmed _ (hconf.changes hc)
  have hsight := hsight hconf
  have htriple : Triple (· = w) (handleEvents cfg env events)
      (fun _ => InBatch r env mempool events told x w []) fun _ _ => True := by
    rw [handleEvents]
    refine triple_get fun u hu => ?_
    obtain rfl : w = u := hu.symm
    let added := env.listing w.calls (addedTxids events w)
    have hreads := (show Reads (fetchMany env added) from reads_fetchMany added).triple
      (P := fun t => ∃ n, t = w.tick n) fun t n => tick_of_tick n
    refine Triple.bind ((((fetchMany_at hr.lookup added 0).pre
      fun t (ht : t = w) => by rw [ht]; exact hcalls).and (hreads.pre
      fun t (ht : t = w) => ⟨0, ht⟩)).weaken (fun t ht => ht) (fun _ _ h => h) fun _ _ _ => trivial)
      fun fs => triple_of_each fun t₀ ht₀ => ?_
    obtain ⟨⟨-, hkeys, hfs⟩, n, rfl⟩ := ht₀
    have hnodup : (fs.map Prod.fst).Nodup := hkeys ▸ env.listing_nodup _ _
    -- what was fetched of it was fetched with its own call
    have hfound : ∀ f, Dict.lookup fs x = some f → ∃ before after,
        env.listing 0 (addedTxids events w) = before ++ x :: after
          ∧ FetchOf r env (askedAt env 0 before) x none f := fun f hf => by
      obtain ⟨before, after, hl, hof⟩ := hfs _ ((Dict.lookup_eq_some_iff hnodup).mp hf)
      exact ⟨before, after, hcalls ▸ hl, hof⟩
    have hrows : ∀ tx rows, Dict.lookup fs x = some (some (tx, rows)) → rows ≠ [] := by
      intro tx rows hf
      obtain ⟨before, after, hl, hof⟩ := hfound _ hf
      refine hof.rows (hsight.fetched before after hl ?_) tx rows rfl
      by_contra hx
      cases hof.unknown _ (hr.notInMempool _ x hx)
    have hnone : Dict.lookup fs x = some none → Unfetched env mempool events w x := by
      intro hf
      obtain ⟨before, after, hl, hof⟩ := hfound _ hf
      refine .inr ⟨before, after, hl, fun hx => ?_⟩
      obtain ⟨tx, htx, -⟩ := hr.inMempool _ x hx
      obtain ⟨rows, hrows⟩ := hof.known tx htx
      cases hrows
    have hsome : .added x ∈ events → x ∉ w.checked → ∃ f, Dict.lookup fs x = some f := by
      intro hadd hx
      have hmem : x ∈ fs.map Prod.fst := by
        rw [hkeys, env.mem_listing, addedTxids, Finset.mem_sdiff, List.mem_toFinset,
          List.mem_filterMap]
        exact ⟨⟨_, hadd, rfl⟩, hx⟩
      obtain ⟨p, hp, rfl⟩ := List.mem_map.mp hmem
      exact ⟨p.2, (Dict.lookup_eq_some_iff hnodup).mpr hp⟩
    -- one event after the other, with those before it
    have hevent : ∀ e l, Triple (InBatch r env mempool events told x w (e :: l))
        (applyEvent cfg env fs e) (fun _ => InBatch r env mempool events told x w l)
        fun _ _ => True := fun e l => triple_of_each fun t ht => by
      have hmem : e ∈ events := by
        obtain ⟨before, hevents, -⟩ := ht
        exact hevents ▸ List.mem_append_right _ List.mem_cons_self
      have hacc := ht.choose_spec.2.1
      have hnoted : Triple (· = t) (applyEvent cfg env fs e) _ _ :=
        applyEvent_noted hr fs e t hacc.kept hrows fun b hb hu hxb k =>
          hsight.fetchedAgain (ht.choose_spec.2.2.1 hu) b k (hb ▸ hmem) hxb
      have hchanges : Triple (· = t) (applyEvent cfg env fs e) _ _ :=
        (applyEvent_changes fs e t).pre fun s (hs : s = t) => by rw [hs]
      exact (hnoted.and hchanges).weaken (fun _ => id)
        (fun _ s hs => inBatch_step hsight hnone hsome ht hs.1 hs.2) fun _ _ _ => trivial
    refine (triple_forM hevent events).pre fun t ht => ?_
    subst ht
    refine ⟨[], rfl, ⟨hw.kept.tick n, hw.announced, hw.mined⟩, .inl, fun hx _ => ?_⟩
    refine ⟨hw.kept.checked hx, ?_⟩
    rintro ⟨b, hb, -⟩
    cases hb
  obtain ⟨before, hevents, hacc, -⟩ := htriple.of_ok rfl h
  rw [hevents, List.append_nil]
  exact hacc

/-! ### The startup scan -/

omit [LinearOrder X] in
lemma askedAt_append (k : ℕ) (l l' : List X) :
    askedAt env k (l ++ l') = askedAt env (askedAt env k l) l' := List.foldl_append

/-- The adds of a chunk: a transaction of the chunk that has been fetched with matches is on record
behind them. -/
lemma forM_onAdded_keeps (source : WatchSource)
    (fs : List (X × Option (RawTx X A × List (MatchRow A))))
    (hfetched : ∀ p ∈ fs, p.1 = x → ∃ tx rows, p.2 = some (tx, rows) ∧ rows ≠ []) (c : ℕ)
    (T : Prop) :
    Triple (fun t : Watcher X H A => t.calls = c ∧ Kept x t
        ∧ (T → Tracked x t ∨ x ∈ fs.map Prod.fst))
      (fs.forM fun p => onAdded p.1 p.2 source)
      (fun _ t => t.calls = c ∧ Kept x t ∧ (T → Tracked x t)) fun _ _ => True := by
  let I : List (X × Option (RawTx X A × List (MatchRow A))) → Watcher X H A → Prop := fun l t =>
    (∀ q ∈ l, q ∈ fs) ∧ t.calls = c ∧ Kept x t ∧ (T → Tracked x t ∨ x ∈ l.map Prod.fst)
  have hadd : ∀ p l, Triple (I (p :: l)) (onAdded p.1 p.2 source) (fun _ => I l)
      fun _ _ => True := by
    rintro p l t ⟨hin, htc, htk, htt⟩
    rw [onAdded_apply]
    have hp := hfetched p (hin p List.mem_cons_self)
    refine ⟨fun q hq => hin q (List.mem_cons_of_mem _ hq), ?_, ?_, fun hx => ?_⟩
    · rw [← htc]
      cases p.2 with
      | none => rfl
      | some f =>
          simp only [afterAdded, Watcher.add]
          split_ifs <;> rfl
    · refine htk.afterAdded p.1 (fun hxp tx rows hf => ?_) source
      obtain ⟨tx', rows', hf', hne⟩ := hp hxp.symm
      cases hf.symm.trans hf'
      exact hne
    · rcases htt hx with htt | hmem
      · exact .inl (htt.afterAdded p.1 p.2 source)
      · rcases List.mem_cons.mp hmem with hxp | hmem
        · obtain ⟨tx, rows, hf, hne⟩ := hp hxp.symm
          rw [hf, ← hxp]
          exact .inl (htk.add_self tx hne source)
        · exact .inr hmem
  refine (triple_forM hadd fs).weaken (fun t ht => ⟨fun _ h => h, ht⟩) (fun _ t ht => ?_)
    fun _ _ h => h
  exact ⟨ht.2.1, ht.2.2.1, fun hT => (ht.2.2.2 hT).resolve_right (by simp)⟩

/-- The loop over the new transactions `L`, of which `done` are behind it: one that is asked for in
time is on record in the end. -/
lemma checkNew_scans (hr : r.Truthful mempool env) (source : WatchSource) {L : List X} {k : ℕ}
    (htime : ∀ before after, L = before ++ x :: after → ScansInTime r env mempool k L before x)
    (fuel : ℕ) (done l : List X) (hfuel : l.length ≤ fuel) (hsplit : L = done ++ l)
    (hchunks : l = []
      ∨ ∃ j, done = L.take (reconcileChunk * j) ∧ done.length = reconcileChunk * j) :
    Triple (fun w => w.calls = askedAt env k done ∧ Kept x w ∧ (x ∈ done → Tracked x w))
      (checkNew env source fuel l)
      (fun _ w => Kept x w ∧ (x ∈ L → Tracked x w)) fun _ _ => True := by
  induction fuel generalizing done l with
  | zero =>
      obtain rfl := List.eq_nil_of_length_eq_zero (Nat.le_zero.mp hfuel)
      rw [List.append_nil] at hsplit
      exact triple_pure fun w hw => ⟨hw.2.1, hsplit ▸ hw.2.2⟩
  | succ fuel ih =>
      cases l with
      | nil =>
          rw [List.append_nil] at hsplit
          exact triple_pure fun w hw => ⟨hw.2.1, hsplit ▸ hw.2.2⟩
      | cons y l =>
          obtain ⟨j, hj, hlen⟩ := hchunks.resolve_left (List.cons_ne_nil _ _)
          rw [checkNew]
          refine triple_get fun w hw => triple_ite (fun hstop => ?_) fun _ => ?_
          -- a stop: what has been looked at is on record
          · refine triple_pure fun t ht => ?_
            obtain rfl : t = w := ht
            refine ⟨hw.2.1, fun hx => ?_⟩
            rw [hsplit] at hx
            rcases List.mem_append.mp hx with hx | hx
            · exact hw.2.2 hx
            · -- the stop came at the beginning of its chunk or before
              obtain ⟨before, after, hl⟩ := List.append_of_mem hx
              have hscan := htime (done ++ before) after (by rw [hsplit, hl, List.append_assoc])
              have hgo := hscan.notStopped j (by rw [List.length_append, hlen]; omega)
              rw [← hj, ← hw.1, hstop] at hgo
              cases hgo
          -- a chunk is fetched and added before the next look at the stop
          · let chunk := (y :: l).take reconcileChunk
            have hL' : L = (done ++ chunk) ++ (y :: l).drop reconcileChunk := by
              rw [List.append_assoc, List.take_append_drop]
              exact hsplit
            have hreads := (show Reads (fetchMany env chunk) from reads_fetchMany chunk).triple
              (P := fun t => ∃ n, t = w.tick n) fun t n => tick_of_tick n
            refine Triple.bind ((((fetchMany_at hr.lookup chunk w.calls).pre
              fun t (ht : t = w) => by rw [ht]).and (hreads.pre
              fun t (ht : t = w) => ⟨0, ht⟩)).weaken (fun t ht => ht) (fun _ _ h => h)
                fun _ _ _ => trivial)
              fun fs => triple_of_each fun t₀ ht₀ => ?_
            obtain ⟨⟨hcalls, hkeys, hfs⟩, n, hn⟩ := ht₀
            -- what has been fetched of the transaction, if it is in the chunk
            have hfetched : ∀ p ∈ fs, p.1 = x → ∃ tx rows, p.2 = some (tx, rows) ∧ rows ≠ [] := by
              rintro ⟨_, f⟩ hp rfl
              obtain ⟨before, after, hc, hof⟩ := hfs _ hp
              have hscan := htime (done ++ before) (after ++ (y :: l).drop reconcileChunk) (by
                rw [hL', hc]
                simp)
              rw [hw.1, ← askedAt_append] at hof
              obtain ⟨tx, htx, -⟩ := hr.inMempool _ _ hscan.inMempool
              obtain ⟨rows, hrows⟩ := hof.known tx htx
              exact ⟨tx, rows, hrows, hof.rows hscan.shown tx rows hrows⟩
            have hadds := forM_onAdded_keeps (H := H) source fs hfetched t₀.calls
              (x ∈ done ++ chunk)
            refine Triple.bind (hadds.pre fun t ht => ?_) fun _ => ?_
            · obtain rfl : t = t₀ := ht
              subst hn
              refine ⟨rfl, hw.2.1.tick n, fun hx => ?_⟩
              rw [hkeys]
              exact (List.mem_append.mp hx).imp (fun h => (hw.2.2 h).tick n) id
            · refine (ih (done ++ chunk) ((y :: l).drop reconcileChunk) ?_ hL' ?_).pre fun t ht =>
                ?_
              · simp only [reconcileChunk, List.length_drop, List.length_cons] at hfuel ⊢
                omega
              -- the next chunk begins at a multiple of the size, or there is none
              · by_cases hlast : (y :: l).drop reconcileChunk = []
                · exact .inl hlast
                · right
                  have hlong : reconcileChunk < (y :: l).length := by
                    by_contra hshort
                    exact hlast (List.drop_eq_nil_of_le (not_lt.mp hshort))
                  have hchunk : chunk.length = reconcileChunk := by
                    rw [List.length_take]
                    exact Nat.min_eq_left hlong.le
                  have hlen' : (done ++ chunk).length = reconcileChunk * (j + 1) := by
                    rw [List.length_append, hlen, hchunk, Nat.mul_succ]
                  refine ⟨j + 1, ?_, hlen'⟩
                  rw [← hlen', hL', List.take_left]
              · refine ⟨?_, ht.2⟩
                rw [ht.1, askedAt_append, ← hw.1]
                exact hcalls

/-- Between the loops of the scan: what was in the snapshot is on record, and nothing else has been
checked. -/
structure Scanned (snapshot : Finset X) (x : X) (w : Watcher X H A) : Prop where
  kept : Kept x w
  tracked : x ∈ snapshot → Tracked x w
  unchecked : x ∉ snapshot → x ∉ w.checked

lemma checkNew_scanned (hr : r.Truthful mempool env) (source : WatchSource) (w : Watcher X H A)
    (hcalls : w.calls = 2) (hk : Kept x w) (hc : w.checked = ∅)
    (htime : x ∈ mempool 0 → ¬ Tracked x w → ∀ before after,
      env.listing 2 (mempool 0) = before ++ x :: after →
        ScansInTime r env mempool 2 (env.listing 2 (mempool 0)) before x) :
    Triple (· = w) (checkNew env source (env.listing 2 (mempool 0)).length
      (env.listing 2 (mempool 0))) (fun _ => Scanned (mempool 0) x) fun _ _ => True := by
  have hfetch : ∀ y, Triple (fun _ : Watcher X H A => True) (fetchAndMatch env y none)
      (fun _ _ => True) fun _ _ => True := fun y w _ => by
    cases fetchAndMatch env y none w <;> trivial
  by_cases hx : x ∈ mempool 0
  · by_cases ht : Tracked x w
    · refine (checkNew_rule (I := fun _ => Tracked x) (E := Tracked x) hfetch
        (fun _ _ n h => h.tick n) (fun y _ _ f h _ => h.afterAdded y f source) (fun _ _ h => h)
        _ _ le_rfl).weaken (fun t htw => htw ▸ ht) (fun done t h => ?_) fun _ _ _ => trivial
      have htr : Tracked x t := by
        cases done with
        | true => simpa using h
        | false => simpa using h
      exact ⟨kept_of_tracked htr, fun _ => htr, fun hn => absurd hx hn⟩
    · refine (checkNew_scans hr source (htime hx ht) _ [] _ le_rfl rfl
        (.inr ⟨0, rfl, rfl⟩)).weaken (fun t htw => ?_) (fun _ t h => ?_) fun _ _ _ => trivial
      · subst htw
        exact ⟨hcalls, hk, fun h => by cases h⟩
      · exact ⟨h.1, fun _ => h.2 ((env.mem_listing _ _ _).mpr hx), fun hn => absurd hx hn⟩
  · refine (checkNew_rule (I := fun l t => Kept x t ∧ x ∉ t.checked ∧ x ∉ l)
      (E := fun t => Kept x t ∧ x ∉ t.checked) hfetch (fun _ _ n h => ⟨h.1.tick n, h.2⟩)
      (fun y l t f h _ => ?_) (fun _ _ h => ⟨h.1, h.2.1⟩) _ _ le_rfl).weaken (fun t htw => ?_)
      (fun done t h => ?_) fun _ _ _ => trivial
    · obtain ⟨hkt, hct, hl⟩ := h
      rw [List.mem_cons, not_or] at hl
      refine ⟨hkt.afterAdded y (fun hxy => absurd hxy hl.1) source, ?_, hl.2⟩
      cases f with
      | none => exact hct
      | some f =>
          rw [afterAdded, mem_checked_add, Finset.mem_insert]
          exact fun h => h.elim hl.1 hct
    · subst htw
      refine ⟨hk, by simp [hc], ?_⟩
      rw [env.mem_listing]
      exact hx
    · have hkt : Kept x t ∧ x ∉ t.checked := by
        cases done with
        | true => exact ⟨(by simpa using h : _ ∧ _).1, (by simpa using h : _ ∧ _).2⟩
        | false => simpa using h
      exact ⟨hkt.1, fun h => absurd h hx, fun _ => hkt.2⟩

/-- What the loop over the missing transactions does with one of them. -/
lemma MissingStep.scanned {F : FlaggedTx X H A → ℤ → Option (H × ℤ) → Prop} {source : WatchSource}
    {snapshot : Finset X} {e : FlaggedTx X H A} (h : MissingStep F source snapshot e w w')
    (hw : Scanned snapshot x w) : Scanned snapshot x w' := by
  cases h with
  | skipped => exact hw
  | @found b height hs hx hf n =>
      have hget := (w.tick n).get_markConfirmed e b height source x
      have htrace : ((w.tick n).markConfirmed e b height source).trace = w.trace ++ [.exported
        ⟨.confirmed, { e with status := .confirmed b height }, some (b, height), source, none,
          none⟩] := rfl
      by_cases hxe : x = e.txid
      · subst hxe
        have hc : Confirmed e.txid ((w.tick n).markConfirmed e b height source) :=
          confirmed_markConfirmed e b height source
        exact ⟨kept_of_tracked (.inl hc), fun _ => .inl hc, hw.unchecked⟩
      · rw [if_neg hxe] at hget
        exact ⟨hw.kept.same hget htrace id, fun hm => (hw.tracked hm).same hget htrace,
          hw.unchecked⟩
  | gone hs hx hf n y =>
      have hleave := (hw.kept.tick n).leave e y source .leftMempoolUnobserved fun hex =>
        hw.unchecked (hex ▸ hx)
      have hchecked : ((w.tick n).leave e y source .leftMempoolUnobserved).checked = w.checked := by
        cases y <;> exact Watcher.checked_remove _ _
      refine ⟨hleave.1, fun hm => hleave.2.1 (fun hex => hx (hex ▸ hm)) (hw.tracked hm), ?_⟩
      rw [hchecked]
      exact hw.unchecked

/-- A scan of a process that has just started puts what it asks for in time on record. -/
lemma reconcile_scans (hr : r.Truthful mempool env) (source : WatchSource) (hcalls : w.calls = 0)
    (hc : w.checked = ∅) (hk : Kept x w)
    (htime : x ∈ mempool 0 → ¬ Tracked x w → ∀ before after,
      env.listing 2 (mempool 0) = before ++ x :: after →
        ScansInTime r env mempool 2 (env.listing 2 (mempool 0)) before x) {done : Bool}
    (h : reconcile cfg env source w = .ok done w') :
    Kept x w' ∧ (x ∈ mempool 0 → Tracked x w') := by
  have htriple := reconcile_frame cfg env source (P := (· = w)) (F := fun _ _ _ => True)
    (C := fun _ => True) (S := Scanned (mempool 0) x) (E := fun _ => True)
    (I := fun m l t => m = mempool 0 ∧ l = env.listing 2 (mempool 0)
      ∧ ∃ tip, t = reconcileStart w (mempool 0) tip)
    (N := fun m t => m = mempool 0 ∧ Scanned (mempool 0) x t)
    (J := fun m _ t => m = mempool 0 ∧ Scanned (mempool 0) x t)
    (K := fun _ _ t => Kept x t ∧ (x ∈ mempool 0 → Tracked x t))
    (fun t m tip ht hm _ => by
      subst ht
      rw [hcalls] at hm
      have hsnap := hr.snapshot 0 m hm
      rw [hsnap, hcalls, hc, Finset.sdiff_empty]
      exact ⟨rfl, rfl, tip, rfl⟩)
    (fun m l => triple_of_each fun t ht => by
      obtain ⟨rfl, rfl, tip, rfl⟩ := ht
      have hstart : (reconcileStart w (mempool 0) tip).checked = ∅ := by
        rw [reconcileStart, hc]
        exact Finset.empty_inter _
      have hkept : Kept x (reconcileStart w (mempool 0) tip) :=
        ⟨hk.store, fun hx => absurd (hstart ▸ hx) (Finset.notMem_empty x)⟩
      refine (checkNew_scanned hr source _ (by rw [reconcileStart, Watcher.tick, hcalls]) hkept
        hstart htime).post fun d t ht => ?_
      cases d with
      | true => exact (if_pos rfl).mpr ⟨rfl, ht⟩
      | false => exact (if_neg Bool.false_ne_true).mpr ht)
    (fun _ _ h => h) trivial
    (fun _ _ _ _ _ _ => by split <;> trivial)
    (fun m e l t t' ht _ hstep =>
      ⟨ht.1, (ht.1 ▸ hstep : MissingStep _ _ (mempool 0) _ _ _).scanned ht.2⟩)
    (fun _ _ h => ⟨h.2.kept, h.2.tracked⟩)
    (fun _ e l t t' ht hcur hd =>
      ⟨hd.kept hcur.head ht.1, fun hm => hd.tracked hcur.head (ht.2 hm)⟩)
    (fun _ _ _ => trivial) (fun _ _ _ _ _ => trivial) fun _ _ _ _ => trivial
  have hend := htriple.of_ok rfl h
  cases done with
  | true => exact (by simpa using hend : _ ∧ _)
  | false =>
      have hs : Scanned (mempool 0) x w' := by simpa using hend
      exact ⟨hs.kept, hs.tracked⟩

/-! ### Whole runs -/

lemma kept_restart (h : Lifecycle cfg w) : Kept x w.restart where
  store e he := by
    have hget : w.store.get x = some e := (h.file x).symm.trans he
    cases hs : e.status.isInMempool with
    | true => exact .inr ⟨e, he, hs⟩
    | false =>
        left
        have hphase := h.phase x
        rw [hget, phaseOf, hs] at hphase
        exact List.mem_of_getLast? (exports_of_phase hphase).2
  checked h := absurd h (Finset.notMem_empty x)

/-- Nothing is exported about a transaction before it has been seen. -/
lemma seen_of_confirmed (h : Lifecycle cfg w) (hx : Confirmed x w) :
    .seen ∈ exportsOf x w.trace := by
  have hphase := h.phase x
  rw [phaseAfter] at hphase
  rw [Confirmed, exportsOf] at hx
  rw [exportsOf]
  cases hm : movesOf x w.trace with
  | nil =>
      rw [hm] at hx
      cases hx
  | cons m l =>
      rw [hm, List.foldlM_cons] at hphase
      obtain ⟨q, hq, -⟩ := Option.bind_eq_some_iff.mp hphase
      rcases m with (_ | _ | _ | _ | _) | c
      · exact List.mem_cons_self
      all_goals cases hq

/-- The invariant of a run. -/
structure RunInv (cfg : MempoolWatchConfig) (r : TxRecords X H A) (s : Followed X H A) : Prop where
  lifecycle : Lifecycle cfg s.watcher
  accounted : ∀ x, r.Touches x → Accounted s.told x s.watcher
  unchecked : s.started = false → s.watcher.checked = ∅

lemma RunInv.step {s s' : Followed X H A} {i : Turn X H A} (hs : RunInv cfg r s)
    (hi : Fetchable r i s) (h : (following cfg r).step i s s') : RunInv cfg r s' := by
  cases i with
  | startupScan env mempool =>
      obtain ⟨hr, hstarted, hstarted', htold, done, hrun⟩ := h
      refine ⟨?_, fun x hx => ?_, fun h => by simp [hstarted'] at h⟩
      · have hnext := hs.lifecycle.next (.reconcile env .startupScan)
        rwa [next, stateAfter, hrun] at hnext
      · have hk := (hs.accounted x hx).kept
        have hscan := reconcile_scans (x := x) (w := { s.watcher with calls := 0 }) hr
          .startupScan rfl
          (hs.unchecked hstarted) ⟨hk.store, hk.checked⟩ (fun hm ht before after hl => ?_) hrun
        · rw [htold]
          exact ⟨hscan.1, fun hm => .inr (hscan.2 hm), fun hm => absurd hm (Finset.notMem_empty x)⟩
        · refine hi x hm hx (fun hc => ht (.inl hc)) ?_ before after hl
          by_contra hne
          obtain ⟨e, he⟩ := Option.ne_none_iff_exists'.mp hne
          exact ht (hk.store e he)
  | batch env mempool events =>
      obtain ⟨hr, hstarted, hstarted', htold, hrun⟩ := h
      refine ⟨?_, fun x hx => ?_, fun h => by simp [hstarted'] at h⟩
      · have hnext := hs.lifecycle.next (.handleEvents env events)
        rwa [next, stateAfter, hrun] at hnext
      · have hacc := hs.accounted x hx
        rw [htold]
        refine handleEvents_accounted (w := { s.watcher with calls := 0 }) hr events rfl
          ⟨⟨hacc.kept.store, hacc.kept.checked⟩, hacc.announced, hacc.mined⟩ (fun hc => ?_) hrun
        have hsight := hi x hx hc
        exact ⟨hsight.fetched, hsight.fetchedAgain, hsight.announcedAgain⟩

/-- **No listed transaction is missed** in a run whose scan asks for it in time and whose batches
keep it in sight: if it was in the snapshot or announced by an `A`, and not taken back by an `R`,
when a `C` for a block with it was handled, it is exported as seen and as confirmed. -/
theorem announced_reported (cfg : MempoolWatchConfig) (r : TxRecords X H A) {s : Followed X H A}
    (hs : (following cfg r).Reach (Fetchable r) s) {x : X} (hx : x ∈ s.told.2)
    (ht : r.Touches x) :
    .seen ∈ exportsOf x s.watcher.trace ∧ .confirmed ∈ exportsOf x s.watcher.trace := by
  have hinv : RunInv cfg r s := by
    refine hs.invariant (fun t h0 => ?_) fun _ _ _ hinv hi h => hinv.step hi h
    obtain ⟨-, htold, w, hw, hrestart⟩ := h0
    have hlife : Lifecycle cfg w := hw.invariant (fun _ h0 => h0 ▸ lifecycle_fresh)
      fun _ _ i ht _ hstep => hstep ▸ ht.next i
    refine ⟨hrestart ▸ hlife.next .restart, fun y _ => ?_, fun _ => by rw [hrestart]; rfl⟩
    rw [htold, hrestart]
    exact ⟨kept_restart hlife, fun h => absurd h (Finset.notMem_empty y),
      fun h => absurd h (Finset.notMem_empty y)⟩
  have hc : Confirmed x s.watcher := (hinv.accounted x ht).mined hx
  exact ⟨seen_of_confirmed hinv.lifecycle hc, hc⟩

/-! ### Two runs -/

/-- The records of the transactions of `plainEnv`: `0` is in block `1`. -/
def plainRecords : TxRecords (Fin 4) ℕ ℕ where
  outputs _ := [⟨⟨some 7, [], none⟩, 0⟩]
  spends _ := [(spentTx, 0)]
  spent _ _ := none
  inBlock h := if h = 1 then {plainTx} else ∅
  lookup := (plainEnv ⟨[], List.nodup_nil⟩ []).lookup

/-- Before block `1`, and with it. -/
def chainBefore : TxChain (Fin 4) ℕ := ⟨[(0, [])], List.nodup_singleton 0⟩

lemma nodup_zero_one : [(0 : ℕ), 1].Nodup := by decide

def chainWith : TxChain (Fin 4) ℕ := ⟨[(0, []), (1, [plainTx])], nodup_zero_one⟩

/-- A node that has mined the transaction at the `m`-th call. -/
def minedAt (m : ℕ) : WatchEnv (Fin 4) ℕ ℕ :=
  { plainEnv chainBefore [plainTx] with
    node := fun n => if n < m then (plainEnv chainBefore [plainTx]).node n
      else (plainEnv chainWith []).node n }

lemma plainRecords_touches : plainRecords.Touches 0 :=
  .inl ⟨⟨⟨some 7, [], none⟩, 0⟩, List.mem_singleton.mpr rfl, 7, _, rfl, rfl⟩

lemma plainRecords_decodes {x : Fin 4} :
    plainRecords.Decodes x ⟨[.spend 3 0 (some none)], [⟨⟨some 7, [], none⟩, 0⟩], none, none⟩ where
  vout := rfl
  vin := rfl
  prevout y n o ho := by
    cases List.mem_singleton.mp ho
    rfl

lemma blockTxids_chain {c : TxChain (Fin 4) ℕ} (hc : c = chainBefore ∨ c = chainWith)
    {m : List (Fin 4)}
    {n h : ℕ} {b : ℤ × ℤ × List (Fin 4)}
    (hb : ((plainEnv c m).node n).getBlockTxids h = .ok b) :
    b.2.2.toFinset = plainRecords.inBlock h ∧ (h = 1 → c = chainWith) := by
  rcases hc with rfl | rfl
  · rcases h with _ | h
    · cases hb
      exact ⟨rfl, nofun⟩
    · cases hb
  · rcases h with _ | _ | h
    · cases hb
      exact ⟨rfl, nofun⟩
    · cases hb
      exact ⟨rfl, fun _ => rfl⟩
    · cases hb

/-- It answers from the records. -/
lemma minedAt_truthful (m : ℕ) :
    plainRecords.Truthful (fun n => if n < m then {plainTx} else ∅) (minedAt m) where
  lookup := rfl
  snapshot n l hl := by
    by_cases hn : n < m
    · simp only [minedAt, if_pos hn] at hl ⊢
      cases hl
      rfl
    · simp only [minedAt, if_neg hn] at hl ⊢
      cases hl
      rfl
  inMempool n x hx := by
    by_cases hn : n < m
    · rw [if_pos hn] at hx
      obtain rfl := Finset.mem_singleton.mp hx
      simp only [minedAt, if_pos hn]
      exact ⟨_, rfl, plainRecords_decodes⟩
    · rw [if_neg hn] at hx
      exact absurd hx (Finset.notMem_empty x)
  notInMempool n x hx := by
    by_cases hn : n < m
    · rw [if_pos hn, Finset.mem_singleton] at hx
      simp only [minedAt, if_pos hn]
      exact if_neg fun h => hx (List.mem_singleton.mp h)
    · simp only [minedAt, if_neg hn]
      rfl
  txids n h b hb := by
    by_cases hn : n < m
    · simp only [minedAt, if_pos hn] at hb
      exact (blockTxids_chain (.inl rfl) hb).1
    · simp only [minedAt, if_neg hn] at hb
      exact (blockTxids_chain (.inr rfl) hb).1
  inBlock n k h b x hk hb hx := by
    have h1 : h = 1 ∧ x = plainTx := by
      simp only [plainRecords] at hx
      split_ifs at hx with h1
      · exact ⟨h1, Finset.mem_singleton.mp hx⟩
      · cases hx
    obtain ⟨rfl, rfl⟩ := h1
    have hn : ¬ n < m := fun hn => by
      simp only [minedAt, if_pos hn] at hb
      exact absurd ((blockTxids_chain (.inl rfl) hb).2 rfl) (by
        rw [chainBefore, chainWith, TxChain.mk.injEq]
        decide)
    simp only [minedAt, if_neg fun h => hn (hk.trans_lt h)]
    exact ⟨_, rfl, plainRecords_decodes⟩

/-- The startup scan on a node that mines the transaction at the `m`-th call, and then the batch
with its block. -/
def runMinedAt (m : ℕ) : ℕ → Followed (Fin 4) ℕ ℕ
  | 0 => ⟨.fresh, false, (∅, ∅)⟩
  | 1 => ⟨stateAfter (reconcile plainConfig (minedAt m) .startupScan) .fresh, true,
      ((if 0 < m then {plainTx} else ∅), ∅)⟩
  | _ => ⟨stateAfter (handleEvents plainConfig (minedAt 0) [.connected 1])
      { (stateAfter (reconcile plainConfig (minedAt m) .startupScan) .fresh) with calls := 0 },
      true,
      plainRecords.account ((if 0 < m then {plainTx} else ∅), ∅) (.connected 1)⟩

/-- Every payload of that node shows an output to the listed address. -/
lemma minedAt_shown (m k : ℕ) (x : Fin 4) (blockHash : Option ℕ) :
    plainRecords.Shown (minedAt m) k x blockHash := by
  intro tx htx
  have hvout : tx.vout = [⟨⟨some 7, [], none⟩, 0⟩] := by
    have hplain : ∀ c l, ((plainEnv c l).node k).getRawTransaction x blockHash = .ok tx →
        tx.vout = [⟨⟨some 7, [], none⟩, 0⟩] := by
      intro c l h
      cases blockHash with
      | none =>
          simp only [plainEnv, nodeOf] at h
          split_ifs at h
          cases h
          rfl
      | some b =>
          simp only [plainEnv, nodeOf] at h
          split_ifs at h
          cases h
          rfl
    simp only [minedAt] at htx
    split_ifs at htx
    · exact hplain _ _ htx
    · exact hplain _ _ htx
  exact .inl ⟨_, hvout ▸ List.mem_singleton.mpr rfl, 7, _, rfl, rfl⟩

lemma ok_of_isSome {α : Type} {x : Watch X H A α} (h : (finished (x w)).isSome = true) :
    ∃ a, x w = .ok a (stateAfter x w) := by
  rw [stateAfter]
  cases hr : x w with
  | ok a t => exact ⟨a, rfl⟩
  | error f t =>
      rw [hr] at h
      cases h

/-- Both steps are possible, whenever the scan and the batch run to their end. -/
lemma runMinedAt_reach {allowed : Turn (Fin 4) ℕ ℕ → Followed (Fin 4) ℕ ℕ → Prop} {m : ℕ}
    (hscan : (finished (reconcile plainConfig (minedAt m) .startupScan .fresh)).isSome = true)
    (hbatch : (finished (handleEvents plainConfig (minedAt 0) [.connected 1]
      { (runMinedAt m 1).watcher with calls := 0 })).isSome = true)
    (h₀ : allowed (.startupScan (minedAt m) fun n => if n < m then {plainTx} else ∅)
      (runMinedAt m 0))
    (h₁ : allowed (.batch (minedAt 0) (fun n => if n < 0 then {plainTx} else ∅) [.connected 1])
      (runMinedAt m 1)) :
    (following plainConfig plainRecords).Reach allowed (runMinedAt m 2) := by
  have hinit : (following plainConfig plainRecords).Reach allowed (runMinedAt m 0) :=
    .init ⟨rfl, rfl, .fresh, .init rfl, rfl⟩
  have hstart : (following plainConfig plainRecords).Reach allowed (runMinedAt m 1) :=
    hinit.step h₀ ⟨minedAt_truthful m, rfl, rfl, rfl, ok_of_isSome hscan⟩
  refine hstart.step h₁ ⟨minedAt_truthful 0, rfl, rfl, rfl, ?_⟩
  obtain ⟨_, hrun⟩ := ok_of_isSome hbatch
  exact hrun

/-- Mined when the scan has already asked for it. -/
theorem announced_reported_mined :
    .seen ∈ exportsOf 0 (runMinedAt 3 2).watcher.trace
      ∧ .confirmed ∈ exportsOf 0 (runMinedAt 3 2).watcher.trace := by
  refine announced_reported plainConfig plainRecords (runMinedAt_reach (by decide +kernel)
    (by decide +kernel) (fun x hx _ _ _ before after hl => ?_) fun x _ _ => ?_) (by decide)
    plainRecords_touches
  · obtain rfl : x = plainTx := by simpa using hx
    have hlist : [plainTx] = before ++ plainTx :: after := hl
    have hbefore : before = [] := by
      cases before with
      | nil => rfl
      | cons y l => simp at hlist
    subst hbefore
    exact ⟨by decide, minedAt_shown _ _ _ _, fun _ _ => rfl⟩
  · refine ⟨fun before after hl _ => minedAt_shown _ _ _ _, fun _ _ k _ _ => minedAt_shown _ _ _ _,
      fun _ before after hl _ => ?_⟩
    have hmem : .removed x ∈ ([.connected 1] : List (SequenceEvent (Fin 4) ℕ)) :=
      hl ▸ List.mem_append_right _ List.mem_cons_self
    simp at hmem

/-- Mined when the scan has taken its snapshot and not yet asked for it, it is never exported. -/
theorem mined_before_fetch :
    (following plainConfig plainRecords).Reach anyStep (runMinedAt 2 2)
      ∧ 0 ∈ (runMinedAt 2 2).told.2 ∧ plainRecords.Touches 0
      ∧ exportsOf 0 (runMinedAt 2 2).watcher.trace = [] :=
  ⟨runMinedAt_reach (by decide +kernel) (by decide +kernel) trivial trivial, by decide,
    plainRecords_touches, by decide +kernel⟩

end MempoolWatch

end BtcParser
