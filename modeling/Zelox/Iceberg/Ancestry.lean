import Zelox.Iceberg.Commit
import Zelox.Lib.Lists

/-!
# The snapshot that a commit adds

A commit whose snapshot id is new makes its snapshot the current one, with the snapshot that was
current before as its parent (`Adds`).  So the ancestors of the current snapshot only grow
(`Adds.ancestors`), and no batch of a stream gets into them twice (`Adds.batches`).
-/

namespace Zelox.Iceberg

open SnapshotProducer TableMetadata CommitInfo List Option

variable {L : Type}

/-- No snapshot has the id `id` or a parent of that id. -/
def FreshId (snapshots : List (Snapshot L)) (id : Int) : Prop :=
  ∀ s ∈ snapshots, s.snapshotId ≠ id ∧ s.parentSnapshotId ≠ some id

/-- A table that has no current snapshot has no reference `main` either. -/
def TableMetadata.RefsValid (m : TableMetadata L) : Prop :=
  m.currentSnapshot = none → m.mainRef = none

variable {s : Snapshot L}

/-! ### Walking the parents -/

theorem snapshotById_append_of_ne {snapshots : List (Snapshot L)} {i : Int} (h : s.snapshotId ≠ i) :
    snapshotById (snapshots ++ [s]) i = snapshotById snapshots i := by
  simp [snapshotById, h]

theorem snapshotById_append_self (snapshots : List (Snapshot L)) (s : Snapshot L) :
    snapshotById (snapshots ++ [s]) s.snapshotId = some s := by
  simp [snapshotById]

theorem ancestry_append {snapshots : List (Snapshot L)} (hf : FreshId snapshots s.snapshotId)
    (n : Nat) (i : Option Int) (hi : i ≠ some s.snapshotId) :
    ancestry (snapshots ++ [s]) n i = ancestry snapshots n i := by
  induction n generalizing i with
  | zero => rfl
  | succ n ih =>
    unfold ancestry
    cases i with
    | none => rfl
    | some i =>
      have hne : s.snapshotId ≠ i := fun h => hi (congrArg some h.symm)
      rw [bind_some, bind_some, snapshotById_append_of_ne hne]
      cases hs : snapshotById snapshots i with
      | none => rfl
      | some t =>
        have ht : t ∈ snapshots := mem_reverse.mp (mem_of_find?_eq_some hs)
        simp only [elim_some]
        rw [ih t.parentSnapshotId (hf t ht).2]

/-! ### What is added -/

/-- The metadata `m'` is `m` with the snapshot `s` on top; `m` is `none` if there was no table. -/
structure Adds (m : Option (TableMetadata L)) (s : Snapshot L) (m' : TableMetadata L) : Prop where
  snapshots : m'.snapshots = m.elim [] (·.snapshots) ++ [s]
  parent : s.parentSnapshotId = (m.bind (·.currentSnapshot)).map (·.snapshotId)
  current : m'.currentSnapshot = some s
  fresh : FreshId (m.elim [] (·.snapshots)) s.snapshotId

theorem TableMetadata.currentSnapshot_mem {m : TableMetadata L} (h : m.currentSnapshot = some s) :
    s ∈ m.snapshots := by
  obtain ⟨i, -, hi⟩ := bind_eq_some_iff.mp h
  exact mem_of_find?_eq_some hi

section

variable {m : Option (TableMetadata L)} {s : Snapshot L} {m' : TableMetadata L} (h : Adds m s m')
include h

theorem Adds.ancestors : m'.ancestors = s :: m.elim [] (·.ancestors) := by
  have hparent : s.parentSnapshotId ≠ some s.snapshotId := by
    rw [h.parent]
    intro heq
    obtain ⟨t, ht, hid⟩ := map_eq_some_iff.mp heq
    obtain ⟨m, rfl, ht⟩ := bind_eq_some_iff.mp ht
    exact (h.fresh t (currentSnapshot_mem ht)).1 hid
  unfold TableMetadata.ancestors
  rw [h.current, map_some, h.snapshots, ancestry, bind_some,
    snapshotById_append_self, elim_some, ancestry_append h.fresh _ _ hparent, h.parent]
  cases m with
  | none => rfl
  | some m => simp

theorem Adds.refsValid : m'.RefsValid := by
  intro hnone
  rw [h.current] at hnone
  cases hnone

theorem Adds.freshId {id : Int} (hf : FreshId (m.elim [] (·.snapshots)) id)
    (hne : s.snapshotId ≠ id) : FreshId m'.snapshots id := by
  rw [h.snapshots]
  refine Lists.forall_mem_concat.mpr ⟨hf, hne, fun hp => ?_⟩
  rw [h.parent] at hp
  obtain ⟨u, hu, hid⟩ := map_eq_some_iff.mp hp
  obtain ⟨m, rfl, hu⟩ := bind_eq_some_iff.mp hu
  exact (hf u (currentSnapshot_mem hu)).1 hid

end

/-- Both ways to add a snapshot to prepared metadata make it the current one. -/
theorem adds_prepared {m m' : TableMetadata L}
    (hm : m' = m.addSnapshot s ∨ m' = m.addFirstSnapshot s ∧ m.mainRef = none)
    (hf : FreshId m.snapshots s.snapshotId)
    (hp : s.parentSnapshotId = m.currentSnapshot.map (·.snapshotId)) : Adds (some m) s m' := by
  have hsnap : m'.snapshots = m.snapshots ++ [s] ∧ m'.mainRef = some s.snapshotId := by
    have hadv (x : TableMetadata L) (n : Int) : (x.advanceNextRowId n).snapshots = x.snapshots ∧
        (x.advanceNextRowId n).mainRef = x.mainRef := by
      unfold advanceNextRowId
      cases x.rowLineageStartRowId <;> exact ⟨rfl, rfl⟩
    obtain rfl | ⟨rfl, hr⟩ := hm
    · unfold addSnapshot
      cases s.addedRows with
      | none => exact ⟨rfl, rfl⟩
      | some n => exact hadv _ n
    · unfold addFirstSnapshot
      cases s.addedRows with
      | none => exact ⟨rfl, by simp [hr]⟩
      | some n => exact ⟨(hadv _ n).1, (hadv _ n).2.trans (by simp [hr])⟩
  refine ⟨hsnap.1, hp, ?_, hf⟩
  unfold currentSnapshot
  rw [hsnap.2, hsnap.1]
  have hnone : m.snapshots.find? (·.snapshotId = s.snapshotId) = none :=
    find?_eq_none.mpr fun t ht => by simpa using (hf t ht).1
  simp [hnone]

section commits

variable {c : CommitInfo L} {id : Int}

/-- The files of a snapshot that readers see, by their paths. -/
def Snapshot.livePaths (s : Snapshot L) : List String := s.liveDataFiles.map (·.1.filePath)

/-- What a commit of `c` adds: the snapshot, its files, and the batch it records. -/
structure CommitInfo.Writes (c : CommitInfo L) (m : Option (TableMetadata L)) (s : Snapshot L)
    (m' : TableMetadata L) : Prop where
  adds : Adds m s m'
  files : ∀ f ∈ c.dataFiles, f.filePath ∈ s.livePaths
  keeps : c.operation = .append → ∀ t, m.bind (·.currentSnapshot) = some t →
    ∀ f ∈ t.livePaths, f ∈ s.livePaths
  paths : c.operation = .append → ∀ f ∈ s.livePaths, f ∈ c.dataFiles.map (·.filePath) ∨
    ∃ t, m.bind (·.currentSnapshot) = some t ∧ f ∈ t.livePaths
  batch : ∀ app, s.committedBatchId app = none ∨ ∃ b, s.committedBatchId app = some b ∧
    c.streaming = some { batchId := b, appId := app } ∧
    ∀ b' ∈ (m.elim [] (·.ancestors)).filterMap (·.committedBatchId app), b' < b
  recorded : c.operation = .append → s.streaming = c.streaming

theorem committedBatchId_eq_some {app : String} {b : Nat} (h : s.committedBatchId app = some b) :
    s.streaming = some { batchId := b, appId := app } := by
  obtain ⟨sc, hsc, rfl⟩ := map_eq_some_iff.mp h
  obtain ⟨hs, happ⟩ := filter_eq_some_iff.mp hsc
  rw [hs, ← of_decide_eq_true happ]

/-- A batch that is not skipped is above all batches in the ancestry. -/
theorem lt_of_not_skips {m : TableMetadata L} {app : String} {b b' : Nat}
    (hc : c.streaming = some { batchId := b, appId := app }) (h : c.skips m = false)
    (hb : b' ∈ m.ancestors.filterMap (·.committedBatchId app)) : b' < b := by
  cases hmax : m.maxCommittedBatchId app with
  | none =>
    rw [max?_eq_none_iff.mp hmax] at hb
    exact absurd hb not_mem_nil
  | some n =>
    have hle := (max?_eq_some_iff.mp hmax).2 b' hb
    have hlt : n < b := by simpa [skips, hc, hmax] using h
    omega

theorem CommitInfo.Writes.congr {m : TableMetadata L} {m₀ : Option (TableMetadata L)}
    {m' : TableMetadata L} (h : c.Writes (some m) s m')
    (hs : m.snapshots = m₀.elim [] (·.snapshots))
    (hc : m.currentSnapshot = m₀.bind (·.currentSnapshot)) : c.Writes m₀ s m' := by
  have ha : m.ancestors = m₀.elim [] (·.ancestors) := by
    unfold ancestors
    rw [hs, hc]
    cases m₀ <;> rfl
  obtain ⟨⟨h1, h2, h3, h4⟩, h5, h6, h7, h8, h9⟩ := h
  simp only [elim_some, bind_some, hs, hc, ha] at h1 h2 h4 h6 h7 h8
  exact ⟨⟨h1, h2, h3, h4⟩, h5, h6, h7, h8, h9⟩

variable [PartitionLiteral L]

theorem SnapshotProducer.livePaths_snapshot (p : SnapshotProducer L) (op : Operation) :
    (p.snapshot op id).livePaths =
      ((p.parentManifests op).filter (·.content = .data)).flatMap
        (fun mf => mf.liveDataFiles.map (·.1.filePath)) ++ p.addedDataFiles.map (·.filePath) := by
  have hkept := (p.sameFiles_keptManifests op).flatMap_filter_eq
    (·.content = .data) (·.liveDataFiles) (fun _ => rfl) fun _ => rfl
  have hnew : (p.newManifest op id).content = .data := rfl
  simp only [Snapshot.livePaths, Snapshot.liveDataFiles_eq, snapshot,
    filter_append, flatMap_append, hkept, map_append, map_flatMap]
  simp [hnew, liveDataFiles_newManifest, writtenFiles, Function.comp_def]

theorem livePaths_producer_snapshot (c : CommitInfo L) (id : Int) (m : TableMetadata L)
    (parent : Option (Snapshot L)) (op : Operation) :
    (∀ f ∈ c.dataFiles, f.filePath ∈ ((c.producer m parent).snapshot op id).livePaths) ∧
      (op = .append → ((c.producer m parent).snapshot op id).livePaths =
        parent.elim [] (·.livePaths) ++ c.dataFiles.map (·.filePath)) := by
  have hpaths : (c.producer m parent).addedDataFiles.map (·.filePath) =
      c.dataFiles.map (·.filePath) := by
    simp [producer, DataFile.withoutRowIds, Function.comp_def]
  rw [livePaths_snapshot, hpaths]
  refine ⟨fun f hf => mem_append_right _ (List.mem_map_of_mem hf), ?_⟩
  rintro rfl
  congr 1
  cases parent with
  | none => rfl
  | some t => simp [parentManifests, producer, Snapshot.livePaths,
      Snapshot.liveDataFiles_eq, map_flatMap]

theorem writes_prepared {m m' : TableMetadata L} {op : Operation}
    (hs : (c.producer m m.currentSnapshot).commit op id = some s)
    (hm : m' = m.addSnapshot s ∧ m.currentSnapshot.isSome ∧ op = c.operation ∧ c.skips m = false ∨
      m' = m.addFirstSnapshot s ∧ m.currentSnapshot = none ∧ op = .append)
    (hr : m.RefsValid) (hf : FreshId m.snapshots id) : c.Writes (some m) s m' := by
  obtain ⟨-, rfl⟩ := (commit_eq_some_iff _).mp hs
  obtain ⟨hfiles, hpaths⟩ := livePaths_producer_snapshot c id m m.currentSnapshot op
  have happ (ha : c.operation = .append) := hpaths <| by
    obtain ⟨-, -, rfl, -⟩ | ⟨-, -, rfl⟩ := hm
    · exact ha
    · rfl
  refine ⟨adds_prepared ?_ hf rfl, hfiles, ?_, ?_, fun app => ?_, fun ha => if_pos (.inl ha)⟩
  · exact hm.imp And.left fun h => ⟨h.1, hr h.2.1⟩
  · intro ha t ht f hft
    rw [happ ha, show m.currentSnapshot = some t from ht]
    exact mem_append_left _ hft
  · intro ha f hft
    rw [happ ha] at hft
    obtain hft | hft := mem_append.mp hft
    · cases hc : m.currentSnapshot with
      | none => simp [hc] at hft
      | some t => exact .inr ⟨t, hc, by simpa [hc] using hft⟩
    · exact .inl hft
  · cases hb : ((c.producer m m.currentSnapshot).snapshot op id).committedBatchId app with
    | none => exact .inl rfl
    | some b =>
      have hst := committedBatchId_eq_some hb
      have hcs : c.streaming = some { batchId := b, appId := app } := by
        simp only [snapshot, producer] at hst
        split at hst
        · exact hst
        · cases hst
      refine .inr ⟨b, rfl, hcs, fun b' hb' => ?_⟩
      obtain ⟨-, -, -, hk⟩ | ⟨-, hnone, -⟩ := hm
      · exact lt_of_not_skips hcs hk hb'
      · simp [ancestors, hnone, ancestry] at hb'

theorem writes_commit {m m' : TableMetadata L} (h : c.commit id m = some m') (hr : m.RefsValid)
    (hf : FreshId m.snapshots id) :
    ∃ s, s.snapshotId = id ∧ c.Writes (some m) s m' := by
  obtain ⟨mp, op, s, hp, hs, hm'⟩ := commit_spec h
  obtain ⟨hsnap, href, -, hcur⟩ := prepare_snapshots hp
  have hr' : mp.RefsValid := fun hnone => href.trans (hr (hcur ▸ hnone))
  obtain ⟨-, hs'⟩ := (commit_eq_some_iff _).mp hs
  exact ⟨s, by rw [hs']; rfl, (writes_prepared hs hm' hr' (hsnap.symm ▸ hf)).congr hsnap hcur⟩

theorem writes_newTable {m' : TableMetadata L} (h : c.newTable id = some m') :
    ∃ s, s.snapshotId = id ∧ c.Writes none s m' := by
  obtain ⟨sch, -, h⟩ := bind_eq_some_iff.mp h
  split at h
  · obtain ⟨s, hs, rfl⟩ := map_eq_some_iff.mp h
    have hempty : (c.emptyTable sch).ensureRequiredFormatFields.snapshots = [] ∧
        (c.emptyTable sch).ensureRequiredFormatFields.mainRef = none ∧
        (c.emptyTable sch).ensureRequiredFormatFields.currentSnapshot = none := by
      unfold ensureRequiredFormatFields
      split <;> exact ⟨rfl, rfl, rfl⟩
    obtain ⟨hsnap, href, hcur⟩ := hempty
    obtain ⟨-, hs'⟩ := (commit_eq_some_iff _).mp hs
    have hf : FreshId (c.emptyTable sch).ensureRequiredFormatFields.snapshots id := by
      rw [hsnap]
      exact fun t ht => absurd ht not_mem_nil
    refine ⟨s, by rw [hs']; rfl, CommitInfo.Writes.congr ?_ hsnap hcur⟩
    exact writes_prepared (hcur.symm ▸ hs) (.inr ⟨rfl, hcur, rfl⟩) (fun _ => href) hf
  · cases h

end commits

end Zelox.Iceberg
