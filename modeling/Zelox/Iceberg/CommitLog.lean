import Zelox.Iceberg.CommitLoop

/-!
# Concurrent commits

What follows from `Inv` for the commits that have put their metadata: each has added one snapshot
to what was the latest metadata then, and its snapshot stays in the ancestry
(`Serial.writes`, `Serial.ancestors_subset`).  On a table that has a snapshot all commits take the
path with the conditional put, so this holds for every schedule (`commits_serial`).
-/

namespace Zelox.Iceberg

open List Option

variable {L : Type} [PartitionLiteral L] {w : Writers L}

/-! ### The puts of a log -/

/-- The snapshot ids are new, and no two commits draw the same. -/
structure Writers.Distinct (w : Writers L) (m : Option (TableMetadata L)) : Prop where
  fresh : ∀ r a, FreshId (m.elim [] (·.snapshots)) (w.snapshotId r a)
  inj : ∀ r a r' a', w.snapshotId r a = w.snapshotId r' a' → r = r'

/-- What is known of a put in the log: the commit has added the snapshot `s`. -/
def Writers.Wrote (w : Writers L) (p : Put L) (s : Snapshot L) : Prop :=
  s.snapshotId = p.id ∧ (w.info p.run).Writes p.before s p.after

theorem Writers.Commits.wrote {p : Put L} (h : w.Commits p)
    (hr : ∀ m, p.before = some m → m.RefsValid)
    (hf : FreshId (p.before.elim [] (·.snapshots)) p.id) : ∃ s, w.Wrote p s := by
  unfold Writers.Commits at h
  unfold Writers.Wrote
  cases hb : p.before with
  | none =>
    rw [hb] at h
    exact writes_newTable h
  | some m =>
    rw [hb] at h hf
    exact writes_commit h (hr m hb) hf

section

variable {m m' : Option (TableMetadata L)}

theorem Serial.writes (hinj : ∀ r a r' a', w.snapshotId r a = w.snapshotId r' a' → r = r')
    {log : List (Put L)} (h : Serial w m log m')
    (hids : ∀ p ∈ log, ∃ a, p.id = w.snapshotId p.run a) (hruns : (log.map (·.run)).Nodup)
    (hr : ∀ x, m = some x → x.RefsValid) (hf : ∀ p ∈ log, FreshId (m.elim [] (·.snapshots)) p.id) :
    ∀ p ∈ log, ∃ s, w.Wrote p s := by
  induction log generalizing m with
  | nil => exact fun p hp => absurd hp not_mem_nil
  | cons q log ih =>
    obtain ⟨rfl, hq, h⟩ := h
    rw [map_cons, nodup_cons] at hruns
    obtain ⟨s, hid, hs⟩ := hq.wrote hr (hf q mem_cons_self)
    have ih := ih h (fun p hp => hids p (mem_cons_of_mem q hp)) hruns.2
      (fun x hx => some.inj hx ▸ hs.adds.refsValid) fun p hp => by
        refine hs.adds.freshId (hf p (mem_cons_of_mem q hp)) fun heq => ?_
        -- two puts with the same id would be of the same commit
        obtain ⟨a, ha⟩ := hids p (mem_cons_of_mem q hp)
        obtain ⟨b, hb⟩ := hids q mem_cons_self
        have hrun := hinj q.run b p.run a (by rw [← hb, ← ha, ← hid, heq])
        exact hruns.1 (hrun ▸ List.mem_map_of_mem hp)
    exact forall_mem_cons.mpr ⟨⟨s, hid, hs⟩, ih⟩

theorem Serial.split {pre post : List (Put L)} {p : Put L} (h : Serial w m (pre ++ p :: post) m') :
    Serial w (some p.after) post m' := by
  induction pre generalizing m with
  | nil => exact h.2.2
  | cons q pre ih => exact ih h.2.2

section

variable {log : List (Put L)} (h : Serial w m log m') (hw : ∀ p ∈ log, ∃ s, w.Wrote p s)
include h hw

theorem Serial.ancestors_subset :
    ∀ s ∈ m.elim [] (·.ancestors), s ∈ m'.elim [] (·.ancestors) := by
  induction log generalizing m with
  | nil =>
    obtain rfl : m' = m := h
    exact fun s hs => hs
  | cons q log ih =>
    obtain ⟨rfl, -, h⟩ := h
    obtain ⟨s, -, hs⟩ := hw q mem_cons_self
    intro t ht
    refine ih h (fun p hp => hw p (mem_cons_of_mem q hp)) t ?_
    rw [elim_some, hs.adds.ancestors]
    exact mem_cons_of_mem s ht

theorem Serial.mem_ancestors {p : Put L} (hp : p ∈ log) {s : Snapshot L}
    (hs : w.Wrote p s) : s ∈ m'.elim [] (·.ancestors) := by
  obtain ⟨pre, post, rfl⟩ := append_of_mem hp
  refine h.split.ancestors_subset (fun q hq => hw q ?_) s ?_
  · exact mem_append_right _ (mem_cons_of_mem p hq)
  · rw [elim_some, hs.2.adds.ancestors]
    exact mem_cons_self

end

end

/-! ### Batches in the ancestry -/

/-- The batches of the application `app` in the ancestry. -/
def batches (app : String) (m : Option (TableMetadata L)) : List Nat :=
  (m.elim [] (·.ancestors)).filterMap (·.committedBatchId app)

omit [PartitionLiteral L] in
theorem skips_covered {c : CommitInfo L} {m : TableMetadata L} {b : Nat} {app : String}
    (hc : c.streaming = some ⟨b, app⟩) (h : c.skips m = true) :
    ∃ b' ∈ batches app (some m), b ≤ b' := by
  simp only [CommitInfo.skips, hc, Option.any_some] at h
  cases hmax : m.maxCommittedBatchId app with
  | none =>
    rw [hmax] at h
    cases h
  | some n => exact ⟨n, (max?_eq_some_iff.mp hmax).1, by simpa [hmax] using h⟩

/-! ### The puts of a run -/

section inv

variable {v₀ : Int} {m₀ : Option (TableMetadata L)} {σ : CommitState L}

omit [PartitionLiteral L] in
theorem PhaseOk.notIn_or_once {v : View L} {r : Nat} {p : Phase L} (h : PhaseOk v₀ v r p) :
    NotIn v.log r ∨ Once v.log r := by
  cases p with
  | loading a n | checking a n m | putting a n m => exact .inl h.1
  | verifying a n => exact .inr h.1
  | removing a n => exact h.elim
  | replacing a n m => exact .inl h.1
  | hinting x => exact .inr h
  | locating a | listing a x | creating a => exact .inl h
  | done o =>
    cases o with
    | committed => exact .inr h
    | skipped | conflict | failed => exact .inl h

theorem Inv.nodup_runs (h : Inv w v₀ m₀ σ) : (σ.log.map (·.run)).Nodup := by
  refine nodup_iff_count_le_one.mpr fun r => ?_
  rw [List.count, countP_map, countP_eq_length_filter]
  have hfilter : (σ.log.filter ((· == r) ∘ (·.run))) = σ.log.filter (·.run = r) := rfl
  rw [hfilter]
  obtain hn | ho := (h.phases r).notIn_or_once
  · have : σ.log.filter (·.run = r) = [] :=
      filter_eq_nil_iff.mpr fun q hq => by simpa using hn q hq
    simp [this]
  · exact ho.le

theorem Inv.writes (h : Inv w v₀ m₀ σ) (hd : w.Distinct m₀) (hr : ∀ m, m₀ = some m → m.RefsValid) :
    ∀ p ∈ σ.log, ∃ s, w.Wrote p s := by
  refine h.serial.writes hd.inj h.ids h.nodup_runs hr fun p hp => ?_
  obtain ⟨a, ha⟩ := h.ids p hp
  exact ha ▸ hd.fresh p.run a

omit [PartitionLiteral L] in
theorem refsValid_of_isSome {m : TableMetadata L} (h : m.currentSnapshot.isSome) :
    ∀ x, some m = some x → x.RefsValid := by
  rintro _ ⟨⟩ hnone
  rw [hnone] at h
  cases h

theorem Inv.exists_latest {m : TableMetadata L} (h : Inv w v₀ (some m) σ) :
    ∃ e, σ.latest = some e := by
  refine ne_none_iff_exists'.mp fun hnone => ?_
  have hser := h.serial
  rw [hnone] at hser
  exact absurd hser.eq_nil.1 (some_ne_none _)

theorem Inv.latest_currentSnapshot (h : Inv w v₀ m₀ σ) (hw : ∀ p ∈ σ.log, ∃ s, w.Wrote p s)
    {e : MetadataFile L} (he : σ.latest = some e) (hlog : σ.log ≠ []) :
    e.metadata.currentSnapshot.isSome := by
  obtain ⟨pre, p, hp⟩ := eq_nil_or_concat σ.log |>.resolve_left hlog
  have hs := h.serial
  rw [hp, concat_eq_append] at hs
  have hlast := hs.split
  have he' : σ.latest.map (·.metadata) = some p.after := hlast
  have hafter : e.metadata = p.after := by simpa [he] using he'
  obtain ⟨s, -, hs⟩ := hw p (by rw [hp]; simp)
  rw [hafter, hs.adds.current]
  rfl

/-! ### The log grows -/

theorem Serial.rest {m m₁ m₂ : Option (TableMetadata L)} {log ext : List (Put L)}
    (h₁ : Serial w m log m₁) (h₂ : Serial w m (log ++ ext) m₂) : Serial w m₁ ext m₂ := by
  induction log generalizing m with
  | nil => rwa [show m₁ = m from h₁]
  | cons q log ih => exact ih h₁.2.2 h₂.2.2

theorem log_step (σ : CommitState L) (i : Access) : ∃ ext, (σ.step w i).log = σ.log ++ ext := by
  unfold CommitState.step
  dsimp only
  cases (perform (w.info i.run) (w.snapshotId i.run) σ.store i.ok (σ.phase i.run)).written with
  | none => exact ⟨[], (append_nil _).symm⟩
  | some m => exact ⟨_, rfl⟩

theorem ancestors_subset_of_log {σ' : CommitState L} (h : Inv w v₀ m₀ σ) (h' : Inv w v₀ m₀ σ')
    (hw : ∀ p ∈ σ'.log, ∃ s, w.Wrote p s) {ext : List (Put L)} (hext : σ'.log = σ.log ++ ext) :
    ∀ s ∈ (σ.latest.map (·.metadata)).elim [] (·.ancestors),
      s ∈ (σ'.latest.map (·.metadata)).elim [] (·.ancestors) := by
  have hser := h.serial.rest (hext ▸ h'.serial)
  exact hser.ancestors_subset fun p hp => hw p (hext ▸ mem_append_right _ hp)

theorem batches_subset {σ' : CommitState L} (h : Inv w v₀ m₀ σ) (h' : Inv w v₀ m₀ σ')
    (hw : ∀ p ∈ σ'.log, ∃ s, w.Wrote p s) {ext : List (Put L)} (hext : σ'.log = σ.log ++ ext)
    (app : String) {b : Nat} (hb : b ∈ batches app (σ.latest.map (·.metadata))) :
    b ∈ batches app (σ'.latest.map (·.metadata)) := by
  obtain ⟨s, hs, hsb⟩ := mem_filterMap.mp hb
  exact mem_filterMap.mpr ⟨s, ancestors_subset_of_log h h' hw hext s hs, hsb⟩

end inv

omit [PartitionLiteral L] in
theorem CommitInfo.ancestors_prepare {c : CommitInfo L} {m m' : TableMetadata L}
    (h : c.prepare m = some m') : m'.ancestors = m.ancestors := by
  obtain ⟨hsnap, -, -, hcur⟩ := CommitInfo.prepare_snapshots h
  rw [TableMetadata.ancestors, hsnap, hcur, TableMetadata.ancestors]

theorem phase_step_self (σ : CommitState L) (r : Nat) : (σ.step w { run := r }).phase r =
    (perform (w.info r) (w.snapshotId r) σ.store true (σ.phase r)).phase :=
  Function.update_self _ _ _

theorem phase_step_of_ne (σ : CommitState L) {r r' : Nat} (h : r' ≠ r) :
    (σ.step w { run := r }).phase r' = σ.phase r' :=
  Function.update_of_ne h _ _

/-! ### On a table with a snapshot -/

/-- A commit of a stream may be skipped: its batch is empty, or not above one in the ancestry. -/
def CommitInfo.MaySkip (c : CommitInfo L) (m : Option (TableMetadata L)) : Prop :=
  ∃ b app, c.streaming = some ⟨b, app⟩ ∧ (c.dataFiles = [] ∨ ∃ b' ∈ batches app m, b ≤ b')

/-- The file that a commit of `c` is about to load has a snapshot, so it is not bootstrapped, and
its ancestry is part of the latest one. -/
def Phase.Conditional (c : CommitInfo L) (σ : CommitState L) : Phase L → Prop
  | .loading _ n => ∀ f ∈ σ.store.files, f.name = n → f.metadata.currentSnapshot.isSome ∧
      ∀ s ∈ f.metadata.ancestors, s ∈ (σ.latest.map (·.metadata)).elim [] (·.ancestors)
  | .done .skipped => c.MaySkip (σ.latest.map (·.metadata))
  | .creating _ => False
  | .replacing _ _ _ => False
  | _ => True

omit [PartitionLiteral L] in
theorem Phase.Conditional.onTop {c : CommitInfo L} {σ : CommitState L} {p : Phase L}
    (h : p.Conditional c σ) : p.OnTop σ := by
  cases p <;> trivial

omit [PartitionLiteral L] in
/-- Files are added as the latest, whose ancestry grows. -/
theorem Phase.Conditional.mono {c : CommitInfo L} {σ σ' : CommitState L} {p : Phase L}
    (h : p.Conditional c σ)
    (hfiles : ∀ f ∈ σ'.store.files, f ∈ σ.store.files ∨
      f.metadata.currentSnapshot.isSome ∧ σ'.latest = some f)
    (hanc : ∀ s ∈ (σ.latest.map (·.metadata)).elim [] (·.ancestors),
      s ∈ (σ'.latest.map (·.metadata)).elim [] (·.ancestors)) : p.Conditional c σ' := by
  cases p with
  | loading a n =>
    intro f hf hfn
    obtain hf | ⟨hsome, hlat⟩ := hfiles f hf
    · exact ⟨(h f hf hfn).1, fun s hs => hanc s ((h f hf hfn).2 s hs)⟩
    · exact ⟨hsome, fun s hs => by rwa [hlat]⟩
  | done o =>
    cases o with
    | skipped =>
      obtain ⟨b, app, hb, hempty | ⟨b', hb', hle⟩⟩ := h
      · exact ⟨b, app, hb, .inl hempty⟩
      · obtain ⟨s, hs, hsb⟩ := mem_filterMap.mp hb'
        exact ⟨b, app, hb, .inr ⟨b', mem_filterMap.mpr ⟨s, hanc s hs, hsb⟩, hle⟩⟩
    | committed | conflict | failed => trivial
  | _ => exact h

omit [PartitionLiteral L] in
theorem conditional_start (c : CommitInfo L) (σ : CommitState L) : c.start.Conditional c σ := by
  unfold CommitInfo.start
  split
  · next h =>
    obtain ⟨⟨b, app⟩, hb⟩ := isSome_iff_exists.mp h.1
    exact ⟨b, app, hb, .inl h.2⟩
  · trivial

omit [PartitionLiteral L] in
theorem conditional_retry (c : CommitInfo L) (σ : CommitState L) (a : Nat) :
    (retry a : Phase L).Conditional c σ := by
  unfold retry
  split <;> trivial

theorem conditional_loaded (c : CommitInfo L) (σ : CommitState L) (id : Int) (a : Nat)
    (n : MetadataName) {m : TableMetadata L} (hm : m.currentSnapshot.isSome)
    (hanc : ∀ s ∈ m.ancestors, s ∈ (σ.latest.map (·.metadata)).elim [] (·.ancestors)) :
    (c.loaded id a n m).Conditional c σ := by
  unfold CommitInfo.loaded
  cases hp : c.prepare m with
  | none => trivial
  | some mp =>
    obtain ⟨-, -, -, hcur⟩ := CommitInfo.prepare_snapshots hp
    rw [← hcur] at hm
    obtain ⟨s, hs⟩ := isSome_iff_exists.mp hm
    rw [elim_some, hs, elim_some]
    split
    · next hk =>
      obtain ⟨⟨b, app⟩, hb, -⟩ := any_eq_true _ _ |>.mp hk
      obtain ⟨b', hb', hle⟩ := skips_covered hb hk
      obtain ⟨t, ht, htb⟩ := mem_filterMap.mp hb'
      refine ⟨b, app, hb, .inr ⟨b', mem_filterMap.mpr ⟨t, hanc t ?_, htb⟩, hle⟩⟩
      rwa [← CommitInfo.ancestors_prepare hp]
    · trivial

section

variable {v₀ : Int} {m₀ : Option (TableMetadata L)} {σ : CommitState L} {r : Nat}
variable (hanc : ∀ s ∈ (σ.latest.map (·.metadata)).elim [] (·.ancestors),
  s ∈ ((σ.step w { run := r }).latest.map (·.metadata)).elim [] (·.ancestors))
variable (hc : ∀ r, (σ.phase r).Conditional (w.info r) σ)
include hanc hc

/-- The other commits keep their phases. -/
theorem conditional_of_self
    (hfiles : ∀ f ∈ (σ.step w { run := r }).store.files, f ∈ σ.store.files ∨
      f.metadata.currentSnapshot.isSome ∧ (σ.step w { run := r }).latest = some f)
    (hr : ((σ.step w { run := r }).phase r).Conditional (w.info r) (σ.step w { run := r }))
    (r' : Nat) :
    ((σ.step w { run := r }).phase r').Conditional (w.info r') (σ.step w { run := r }) := by
  by_cases hrr : r' = r
  · exact hrr ▸ hr
  · rw [phase_step_of_ne σ hrr]
    exact (hc r').mono hfiles hanc

/-- An access that adds no file. -/
theorem conditional_of_files {p : Phase L}
    (hfiles : (σ.step w { run := r }).store.files = σ.store.files)
    (hr : (σ.step w { run := r }).phase r = p) (hp : p.Conditional (w.info r) σ) (r' : Nat) :
    ((σ.step w { run := r }).phase r').Conditional (w.info r') (σ.step w { run := r }) := by
  have hsub : ∀ f ∈ (σ.step w { run := r }).store.files, f ∈ σ.store.files ∨
      f.metadata.currentSnapshot.isSome ∧ (σ.step w { run := r }).latest = some f :=
    fun f hf => .inl (hfiles ▸ hf)
  exact conditional_of_self hanc hc hsub (hr ▸ hp.mono hsub hanc) r'

/-- A file that is put becomes the latest one. -/
theorem conditional_putting (h : Inv w v₀ m₀ σ)
    (hcur' : ∀ e', (σ.step w { run := r }).latest = some e' → e'.metadata.currentSnapshot.isSome)
    {a : Nat} {n : MetadataName} {m : TableMetadata L} (hphase : σ.phase r = .putting a n m)
    (r' : Nat) :
    ((σ.step w { run := r }).phase r').Conditional (w.info r') (σ.step w { run := r }) := by
  have hp := h.phases r
  have hnext := phase_step_self (w := w) σ r
  have hstore : (σ.step w { run := r }).store =
      (perform (w.info r) (w.snapshotId r) σ.store true (σ.phase r)).store := rfl
  rw [hphase] at hp hnext hstore
  simp only [perform] at hnext hstore
  split at hnext
  · next hused =>
    rw [if_pos hused] at hstore
    exact conditional_of_files hanc hc (congrArg Store.files hstore) hnext
      (conditional_retry _ _ a) r'
  · next hfree =>
    rw [if_neg hfree] at hstore
    obtain ⟨e, he, rfl, hx⟩ := h.extends_putting hp.2.1 hp.2.2 hfree
    cases hcom : (w.info r).commit (w.snapshotId r a) e.metadata with
    | none =>
      rw [hcom] at hnext hstore
      exact conditional_of_files hanc hc (congrArg Store.files hstore) hnext trivial r'
    | some m' =>
      rw [hcom] at hnext hstore
      have hlat : (σ.step w { run := r }).latest =
          some (σ.store.newFile (nextName n e.metadata) m') := by
        rw [CommitState.latest, hstore]
        exact hx.isLatest h.valid m' he
      refine conditional_of_self hanc hc (fun f hf => ?_) (by rw [hnext]; trivial) r'
      rw [hstore] at hf
      obtain ⟨hf, -⟩ | rfl := Store.mem_put.mp hf
      · exact .inl hf
      · exact .inr ⟨hcur' _ hlat, hlat⟩

/-- One access, given that the latest metadata has a snapshot before and after it. -/
theorem conditional_step (h : Inv w v₀ m₀ σ) {e : MetadataFile L} (he : σ.latest = some e)
    (hcur : e.metadata.currentSnapshot.isSome)
    (hcur' : ∀ e', (σ.step w { run := r }).latest = some e' → e'.metadata.currentSnapshot.isSome)
    (r' : Nat) :
    ((σ.step w { run := r }).phase r').Conditional (w.info r') (σ.step w { run := r }) := by
  have hr := hc r
  have hnext := phase_step_self (w := w) σ r
  have hstore : (σ.step w { run := r }).store =
      (perform (w.info r) (w.snapshotId r) σ.store true (σ.phase r)).store := rfl
  cases hphase : σ.phase r with
  | locating a =>
    rw [hphase] at hnext hstore
    exact conditional_of_files hanc hc (congrArg Store.files hstore) hnext trivial r'
  | listing a x =>
    rw [hphase] at hnext hstore
    simp only [perform, if_true] at hnext
    rw [h.hints r x (by rw [hphase]; rfl), he] at hnext
    refine conditional_of_files hanc hc (congrArg Store.files hstore) hnext (fun f hf hfn => ?_) r'
    rw [h.valid.eq_of_name hf (h.valid.isLatest_of_findLatest he).mem hfn, he]
    exact ⟨hcur, fun s hs => hs⟩
  | loading a n =>
    rw [hphase] at hr hnext hstore
    simp only [perform, if_true] at hnext
    cases hg : σ.store.get n with
    | none =>
      rw [hg] at hnext
      exact conditional_of_files hanc hc (congrArg Store.files hstore) hnext trivial r'
    | some f =>
      rw [hg] at hnext
      obtain ⟨hsome, hsub⟩ := hr f (mem_of_find?_eq_some hg) (by simpa using find?_some hg)
      exact conditional_of_files hanc hc (congrArg Store.files hstore) hnext
        (conditional_loaded _ σ _ a n hsome hsub) r'
  | checking a n m =>
    rw [hphase] at hnext hstore
    simp only [perform, if_true] at hnext
    refine conditional_of_files hanc hc (congrArg Store.files hstore) hnext ?_ r'
    split
    · exact conditional_retry _ _ a
    · split <;> trivial
  | putting a n m => exact conditional_putting hanc hc h hcur' hphase r'
  | verifying a n =>
    rw [hphase] at hnext hstore
    simp only [perform, if_true] at hnext
    refine conditional_of_files hanc hc (congrArg Store.files hstore) hnext ?_ r'
    split <;> trivial
  | removing a n =>
    have hp := h.phases r
    rw [hphase] at hp
    exact hp.elim
  | creating a | replacing a n m =>
    rw [hphase] at hr
    exact hr.elim
  | hinting x =>
    rw [hphase] at hnext hstore
    exact conditional_of_files hanc hc (by rw [hstore]; rfl) hnext trivial r'
  | done o =>
    rw [hphase] at hr hnext hstore
    exact conditional_of_files hanc hc (congrArg Store.files hstore) hnext hr r'

end

open Runs

/-- The state after the commits have made their accesses in the order of `schedule`. -/
def afterSchedule (w : Writers L) (s : Store L) (schedule : List Nat) : CommitState L :=
  run (fun σ r => σ.step w { run := r }) (CommitState.init w s) schedule

section schedule

variable {s : Store L} {e₀ : MetadataFile L}

theorem inv_afterSchedule (hs : s.Valid) (he₀ : findLatest s.hint s.files = some e₀)
    (hcur : e₀.metadata.currentSnapshot.isSome) (hd : w.Distinct (some e₀.metadata))
    (schedule : List Nat) :
    Inv w e₀.name.version (some e₀.metadata) (afterSchedule w s schedule) ∧
      ∀ r, ((afterSchedule w s schedule).phase r).Conditional (w.info r)
        (afterSchedule w s schedule) := by
  -- the latest metadata has a snapshot, so no commit bootstraps, so every put is on top
  have hlatest {σ : CommitState L} (h : Inv w e₀.name.version (some e₀.metadata) σ) :
      ∀ e, σ.latest = some e → e.metadata.currentSnapshot.isSome := by
    intro e he
    by_cases hlog : σ.log = []
    · have hser := h.serial
      rw [hlog, he] at hser
      rw [show e.metadata = e₀.metadata from some.inj hser]
      exact hcur
    · exact h.latest_currentSnapshot (h.writes hd (refsValid_of_isSome hcur)) he hlog
  refine run_inv _ (fun σ => Inv w e₀.name.version (some e₀.metadata) σ ∧
    ∀ r, (σ.phase r).Conditional (w.info r) σ) (fun σ r hσ => ?_) _ schedule ⟨?_, fun r => ?_⟩
  · have hinv := hσ.1.step (fun h => absurd h (some_ne_none _)) (i := { run := r }) rfl
      (hσ.2 r).onTop
    obtain ⟨e, he⟩ := hσ.1.exists_latest
    obtain ⟨ext, hext⟩ := log_step (w := w) σ { run := r }
    have hanc := ancestors_subset_of_log hσ.1 hinv (hinv.writes hd (refsValid_of_isSome hcur)) hext
    exact ⟨hinv, conditional_step hanc hσ.2 hσ.1 he (hlatest hσ.1 e he) (hlatest hinv)⟩
  · have hinit : Inv w e₀.name.version ((findLatest s.hint s.files).map (·.metadata))
        (CommitState.init w s) :=
      Inv.init s hs fun e he => by rw [some.inj (he₀.symm.trans he)]
    rwa [he₀] at hinit
  · exact conditional_start (w.info r) _

/-- Commits are neither lost nor doubled: one that has reported success has put metadata once,
adding its snapshot to the latest metadata of that moment, and is in the ancestry of what readers
find; one that has given up has put nothing; one that was skipped has put nothing either, and is of
a stream whose batch is empty or in the ancestry. -/
theorem commits_serial (w : Writers L) (s : Store L) (hs : s.Valid) (e₀ : MetadataFile L)
    (he₀ : findLatest s.hint s.files = some e₀) (hcur : e₀.metadata.currentSnapshot.isSome)
    (hd : w.Distinct (some e₀.metadata)) (schedule : List Nat) :
    ∃ e, (afterSchedule w s schedule).latest = some e ∧
      ∀ r, ((afterSchedule w s schedule).phase r = .done .committed →
          ∃ p t, (afterSchedule w s schedule).log.filter (·.run = r) = [p] ∧
            Adds p.before t p.after ∧ t ∈ e.metadata.ancestors) ∧
        ((afterSchedule w s schedule).phase r = .done .conflict ∨
          (afterSchedule w s schedule).phase r = .done .skipped →
          (afterSchedule w s schedule).log.filter (·.run = r) = []) ∧
        ((afterSchedule w s schedule).phase r = .done .skipped →
          (w.info r).MaySkip (some e.metadata)) := by
  obtain ⟨h, hcond⟩ := inv_afterSchedule hs he₀ hcur hd schedule
  have hw := h.writes hd (refsValid_of_isSome hcur)
  obtain ⟨e, he⟩ := h.exists_latest
  refine ⟨e, he, fun r => ⟨fun hr => ?_, fun hr => ?_, fun hr => ?_⟩⟩
  · have hp := h.phases r
    rw [hr] at hp
    obtain ⟨p, hp⟩ := length_eq_one_iff.mp hp
    have hmem : p ∈ (afterSchedule w s schedule).log :=
      mem_of_mem_filter (hp ▸ mem_singleton_self p)
    obtain ⟨t, ht⟩ := hw p hmem
    have hanc := h.serial.mem_ancestors hw hmem ht
    rw [he] at hanc
    exact ⟨p, t, hp, ht.2.adds, hanc⟩
  · have hnot : NotIn (afterSchedule w s schedule).log r := by
      have hp := h.phases r
      obtain hr | hr := hr <;> (rw [hr] at hp; exact hp)
    exact filter_eq_nil_iff.mpr fun q hq => by simpa using hnot q hq
  · have hskip := hcond r
    rw [hr] at hskip
    have hskip : (w.info r).MaySkip ((afterSchedule w s schedule).latest.map (·.metadata)) := hskip
    rwa [he] at hskip

end schedule

/-! ### A table that a stream writes to -/

/-- The metadata after the stream has committed its batch 7. -/
def streamedMetadata : TableMetadata Int where
  schemas := [{ schemaId := 0, fields := [{ id := 1, name := "x" }] }]
  currentSnapshotId := some 1
  mainRef := some 1
  snapshots := [{ snapshotId := 1, sequenceNumber := 1, streaming := some ⟨7, "stream"⟩ }]

def streamedStore : Store Int where
  files := [{ name := hadoopName 1 .none, lastModified := 1, metadata := streamedMetadata }]
  hint := some (.number 1)
  clock := 1

/-- Commits of one file each: the first is batch 7 of the stream again, the others are appends. -/
def replayAndAppends : Writers Int where
  info r := { dataFiles := [{ filePath := "f" }]
              streaming := if r = 0 then some ⟨7, "stream"⟩ else none }
  snapshotId r _ := r + 2

/-- A batch that is committed again reports success and adds no snapshot. -/
theorem skipped_adds_none :
    (afterSchedule replayAndAppends streamedStore [0, 0, 0]).phase 0 = .done .skipped ∧
      (afterSchedule replayAndAppends streamedStore [0, 0, 0]).log.length = 0 := by
  decide +kernel

theorem streamedStore_valid : streamedStore.Valid := ⟨by decide +kernel, by decide +kernel⟩

theorem distinct_streamedMetadata (info : Nat → CommitInfo Int) :
    Writers.Distinct { info := info, snapshotId := fun r _ => r + 2 } (some streamedMetadata) := by
  refine ⟨fun r a s hs => ?_, fun r a r' a' h => ?_⟩
  · obtain rfl := mem_singleton.mp hs
    refine ⟨fun h => ?_, some_ne_none _ |>.symm⟩
    have : (1 : Int) = r + 2 := h
    omega
  · have : (r : Int) + 2 = r' + 2 := h
    omega

/-- Two appends at the same time; the second has to retry. -/
theorem commits_serial_two : streamedStore.Valid ∧
    findLatest streamedStore.hint streamedStore.files =
      some { name := hadoopName 1 .none, lastModified := 1, metadata := streamedMetadata } ∧
    streamedMetadata.currentSnapshot.isSome ∧ replayAndAppends.Distinct (some streamedMetadata) ∧
    ∃ e, (afterSchedule replayAndAppends streamedStore
        [1, 2, 1, 2, 1, 2, 1, 2, 1, 2, 2, 2, 2, 2, 1, 2, 1, 2, 2]).latest = some e ∧
      ∃ p t, (afterSchedule replayAndAppends streamedStore
          [1, 2, 1, 2, 1, 2, 1, 2, 1, 2, 2, 2, 2, 2, 1, 2, 1, 2, 2]).log.filter (·.run = 2) = [p] ∧
        Adds p.before t p.after ∧ t ∈ e.metadata.ancestors := by
  have hlatest : findLatest streamedStore.hint streamedStore.files =
      some { name := hadoopName 1 .none, lastModified := 1, metadata := streamedMetadata } := by
    decide +kernel
  obtain ⟨e, he, hr⟩ := commits_serial replayAndAppends streamedStore streamedStore_valid _ hlatest
    (by decide +kernel) (distinct_streamedMetadata _)
    [1, 2, 1, 2, 1, 2, 1, 2, 1, 2, 2, 2, 2, 2, 1, 2, 1, 2, 2]
  exact ⟨streamedStore_valid, hlatest, by decide +kernel, distinct_streamedMetadata _, e, he,
    (hr 2).1 (by decide +kernel)⟩

end Zelox.Iceberg
