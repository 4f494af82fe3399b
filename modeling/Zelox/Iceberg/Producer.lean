import Zelox.Iceberg.DeleteIndex
import Mathlib.Data.List.Perm.Basic
import Mathlib.Algebra.Ring.Int.Defs

/-!
# Producing a snapshot

`operations/snapshot.rs` writes the manifests of a new snapshot, and `datasource/provider.rs`
reads them back.  A partition overwrite keeps a data manifest none of whose entries is in a
written partition, drops one all of whose entries are, and rewrites the others; a rewritten
manifest has no row counts, and `ManifestListWriter::to_bytes` refuses it.  So a partition
overwrite succeeds exactly on the parents of `Separable`, and there it does what it is for if
the partition tuples are read back as they were written, at least as far as the new files go.
-/

namespace Zelox.Iceberg

open List

variable {L : Type}

/-! ### The writer -/

/-- What a literal of a manifest is read back as: `Literal` is untagged, so the first variant that
takes the value wins, whatever the type of the column. -/
class PartitionLiteral (L : Type) where
  decEq : DecidableEq L
  decode : L → L

instance (priority := low) [PartitionLiteral L] : DecidableEq L := PartitionLiteral.decEq

/-- The partition tuple of a file that has been read from a manifest. -/
def DataFile.readPartition [PartitionLiteral L] (f : DataFile L) : List (Option L) :=
  f.partition.map (·.map PartitionLiteral.decode)

/-- `to_avro_bytes_v2`: a file's entry is written as added and without numbers of its own. -/
def writeManifest (files : List (DataFile L)) : List (ManifestEntry L) :=
  files.map fun f => { status := .added, dataFile := f }

theorem filter_isLive_writeManifest (files : List (DataFile L)) :
    (writeManifest files).filter (·.isLive) = writeManifest files := by
  refine filter_eq_self.mpr fun e he => ?_
  obtain ⟨f, -, rfl⟩ := mem_map.mp he
  rfl

namespace ManifestFile

/-- The rows that a kept manifest without a first row id takes. -/
def assignedRows (mf : ManifestFile L) : Int :=
  mf.addedRowsCount.getD 0 + mf.existingRowsCount.getD 0

def takesRowIds (mf : ManifestFile L) : Bool := mf.content = .data ∧ mf.firstRowId = none

/-- The counts that `ManifestListWriter::to_bytes` requires. -/
def hasCounts (mf : ManifestFile L) : Bool :=
  mf.addedFilesCount.isSome && mf.existingFilesCount.isSome && mf.deletedFilesCount.isSome &&
    mf.addedRowsCount.isSome && mf.existingRowsCount.isSome && mf.deletedRowsCount.isSome

variable [PartitionLiteral L]

def retained (filter : List (List (Option L))) (mf : ManifestFile L) : List (ManifestEntry L) :=
  mf.entries.filter (·.dataFile.readPartition ∉ filter)

def rewritten (filter : List (List (Option L))) (mf : ManifestFile L) : ManifestFile L where
  partitionSpecId := mf.partitionSpecId
  sequenceNumber := mf.sequenceNumber
  addedSnapshotId := mf.addedSnapshotId
  addedFilesCount := some 0
  existingFilesCount := some (mf.retained filter).length
  deletedFilesCount := some 0
  entries := writeManifest ((mf.retained filter).map fun e =>
    { e.dataFile with partition := e.dataFile.readPartition })

/-- What a partition overwrite keeps of a manifest of the parent. -/
def retain (filter : List (List (Option L))) (mf : ManifestFile L) : Option (ManifestFile L) :=
  if mf.content ≠ .data then some mf
  else if (mf.retained filter).length = mf.entries.length then some mf
  else if mf.retained filter ≠ [] then some (mf.rewritten filter)
  else none

end ManifestFile

/-- Gives row ids from `next` on to the data manifests that have none. -/
def assignRowIds : Int → List (ManifestFile L) → List (ManifestFile L)
  | _, [] => []
  | next, mf :: mfs =>
    if mf.takesRowIds then
      { mf with firstRowId := some next } :: assignRowIds (next + mf.assignedRows) mfs
    else mf :: assignRowIds next mfs

/-- The number of ids given by `assignRowIds`. -/
def assignedRows (mfs : List (ManifestFile L)) : Int :=
  ((mfs.filter (·.takesRowIds)).map (·.assignedRows)).sum

inductive Operation where
  | append | overwrite | overwritePartitions
deriving DecidableEq, Repr

/-- `schemaId` and `partitionSpecId` are those of the manifest metadata. -/
structure SnapshotProducer (L : Type) where
  parent : Option (Snapshot L)
  addedDataFiles : List (DataFile L)
  schemaId : Int := 0
  partitionSpecId : Int := 0
  rowLineageStartRowId : Option Int := none
  streaming : Option StreamingCommit := none

namespace SnapshotProducer

variable (p : SnapshotProducer L)

def addedRows : Int := (p.addedDataFiles.map fun f => (f.recordCount : Int)).sum

/-- A producer without a parent is one in bootstrap mode. -/
def sequenceNumber : Int := p.parent.elim 1 (·.sequenceNumber + 1)

def partitionFilter : List (List (Option L)) := p.addedDataFiles.map (·.partition)

def parentManifests [PartitionLiteral L] (op : Operation) : List (ManifestFile L) :=
  let mfs := p.parent.elim [] (·.manifestList)
  match op with
  | .append => mfs
  | .overwrite => []
  | .overwritePartitions => mfs.filterMap (·.retain p.partitionFilter)

/-- The manifests of the parent with their row ids. -/
def keptManifests [PartitionLiteral L] (op : Operation) : List (ManifestFile L) :=
  p.rowLineageStartRowId.elim (p.parentManifests op) (assignRowIds · (p.parentManifests op))

def newManifest [PartitionLiteral L] (op : Operation) (snapshotId : Int) : ManifestFile L where
  partitionSpecId := p.partitionSpecId
  sequenceNumber := p.sequenceNumber
  addedSnapshotId := snapshotId
  addedFilesCount := some p.addedDataFiles.length
  existingFilesCount := some 0
  deletedFilesCount := some 0
  addedRowsCount := some p.addedRows
  existingRowsCount := some 0
  deletedRowsCount := some 0
  firstRowId := p.rowLineageStartRowId.map (· + assignedRows (p.parentManifests op))
  entries := writeManifest p.addedDataFiles

def snapshot [PartitionLiteral L] (op : Operation) (snapshotId : Int) : Snapshot L where
  snapshotId := snapshotId
  parentSnapshotId := p.parent.map (·.snapshotId)
  sequenceNumber := p.sequenceNumber
  manifestList := p.keptManifests op ++ [p.newManifest op snapshotId]
  streaming := p.streaming
  schemaId := p.schemaId
  firstRowId := p.rowLineageStartRowId
  addedRows := p.rowLineageStartRowId.map fun _ => assignedRows (p.parentManifests op) + p.addedRows

/-- Fails if the manifest list cannot be written. -/
def commit [PartitionLiteral L] (op : Operation) (snapshotId : Int) : Option (Snapshot L) :=
  if (p.snapshot op snapshotId).manifestList.all (·.hasCounts) then some (p.snapshot op snapshotId)
  else none

end SnapshotProducer

/-! ### The reader -/

/-- The live files of a manifest; an entry inherits its sequence number and its place in the row
ids. -/
def readEntries (mf : ManifestFile L) : Option Int → List (ManifestEntry L) →
    List (DataFile L × Int)
  | _, [] => []
  | next, e :: es =>
    if e.isLive then
      ({ e.dataFile with
          partitionSpecId := mf.partitionSpecId
          firstRowId := e.dataFile.firstRowId <|> next },
        e.sequenceNumber.getD mf.sequenceNumber) ::
        readEntries mf (next.map (· + e.dataFile.recordCount)) es
    else readEntries mf next es

def ManifestFile.loadDataFiles (mf : ManifestFile L) : List (DataFile L × Int) :=
  readEntries mf mf.firstRowId mf.entries

def loadDataFilesWithSeq (mfs : List (ManifestFile L)) : List (DataFile L × Int) :=
  (mfs.filter (·.content = .data)).flatMap (·.loadDataFiles)

/-- `ManifestList::parse_with_version`: only version 3 knows row ids. -/
def ManifestFile.parseWithVersion (version : FormatVersion) (mf : ManifestFile L) :
    ManifestFile L :=
  if version = .v3 then mf else { mf with firstRowId := none }

/-- The files for a reader that decodes the manifest list as `version`, which is 2 for all readers
(`io::load_manifest_list`). -/
def Snapshot.readDataFiles (version : FormatVersion) (s : Snapshot L) : List (DataFile L × Int) :=
  loadDataFilesWithSeq (s.manifestList.map (·.parseWithVersion version))

/-- The delete files of a manifest; `specs` are the specs of the table. -/
def ManifestFile.deleteFileRefs (specs : List PartitionSpec) (mf : ManifestFile L) :
    List (DeleteFileRef L) :=
  (mf.entries.filter (·.isLive)).map fun e =>
    { dataFile := { e.dataFile with partitionSpecId := mf.partitionSpecId }
      dataSequenceNumber := e.sequenceNumber.getD mf.sequenceNumber
      partitionSpecId := mf.partitionSpecId
      isUnpartitionedSpec :=
        ((specs.find? (·.specId = mf.partitionSpecId)).map (·.isUnpartitioned)).getD false }

def buildDeleteFileIndex (specs : List PartitionSpec) (mfs : List (ManifestFile L)) :
    Option (DeleteFileIndex L) :=
  DeleteFileIndex.build
    ((mfs.filter (·.content = .deletes)).flatMap (·.deleteFileRefs specs))

/-! ### What a manifest holds, row ids apart -/

/-- A file without the row ids that a commit may give it. -/
def DataFile.withoutRowIds (f : DataFile L) : DataFile L := { f with firstRowId := none }

/-- The live data files of a snapshot with their sequence numbers. -/
def Snapshot.liveDataFiles (s : Snapshot L) : List (DataFile L × Int) :=
  (loadDataFilesWithSeq s.manifestList).map fun f => (f.1.withoutRowIds, f.2)

namespace ManifestFile

def liveDataFiles (mf : ManifestFile L) : List (DataFile L × Int) :=
  (mf.entries.filter (·.isLive)).map fun e =>
    ({ e.dataFile with partitionSpecId := mf.partitionSpecId, firstRowId := none },
      e.sequenceNumber.getD mf.sequenceNumber)

theorem loadDataFiles_withoutRowIds (mf : ManifestFile L) :
    mf.loadDataFiles.map (fun f => (f.1.withoutRowIds, f.2)) = mf.liveDataFiles := by
  unfold loadDataFiles liveDataFiles
  generalize mf.firstRowId = next
  induction mf.entries generalizing next with
  | nil => rfl
  | cons e es ih =>
    by_cases he : e.isLive
    · rw [readEntries, if_pos he, map_cons, ih, filter_cons_of_pos he, map_cons]
      rfl
    · rw [readEntries, if_neg he, ih, filter_cons_of_neg he]

end ManifestFile

theorem Snapshot.liveDataFiles_eq (s : Snapshot L) : s.liveDataFiles =
    (s.manifestList.filter (·.content = .data)).flatMap (·.liveDataFiles) := by
  simp only [Snapshot.liveDataFiles, loadDataFilesWithSeq, map_flatMap,
    ManifestFile.loadDataFiles_withoutRowIds]

/-- Two lists of manifests that differ in their first row ids at most. -/
def SameFiles (mfs mfs' : List (ManifestFile L)) : Prop :=
  mfs.map (fun mf => { mf with firstRowId := none }) =
    mfs'.map fun mf => { mf with firstRowId := none }

theorem sameFiles_assignRowIds (next : Int) (mfs : List (ManifestFile L)) :
    SameFiles (assignRowIds next mfs) mfs := by
  induction mfs generalizing next with
  | nil => rfl
  | cons mf mfs ih =>
    unfold assignRowIds SameFiles
    split
    · exact congrArg ({ mf with firstRowId := none } :: ·) (ih _)
    · exact congrArg ({ mf with firstRowId := none } :: ·) (ih _)

section

variable {mfs mfs' : List (ManifestFile L)} (h : SameFiles mfs mfs') {β : Type}
include h

/-- What does not depend on the first row ids is the same for both lists. -/
theorem SameFiles.map_eq
    (g : ManifestFile L → β) (hg : ∀ mf, g { mf with firstRowId := none } = g mf) :
    mfs.map g = mfs'.map g := by
  have h := congrArg (List.map g) h
  simpa only [map_map, Function.comp_def, hg] using h

theorem SameFiles.flatMap_filter_eq (p : ManifestFile L → Bool) (g : ManifestFile L → List β)
    (hp : ∀ mf, p { mf with firstRowId := none } = p mf)
    (hg : ∀ mf, g { mf with firstRowId := none } = g mf) :
    (mfs.filter p).flatMap g = (mfs'.filter p).flatMap g := by
  have e (l : List (ManifestFile L)) :
      (l.filter p).flatMap g = (l.map fun mf => if p mf then g mf else []).flatten := by
    induction l with
    | nil => rfl
    | cons mf l ih => by_cases h : p mf <;> simp [h, ih]
  rw [e, e, h.map_eq _ fun mf => by rw [hp, hg]]

end

/-! ### Overwriting partitions -/

section overwrite

open SnapshotProducer ManifestFile

variable [PartitionLiteral L] (filter : List (List (Option L))) (p : SnapshotProducer L)

theorem SnapshotProducer.sameFiles_keptManifests (op : Operation) :
    SameFiles (p.keptManifests op) (p.parentManifests op) := by
  unfold keptManifests
  cases p.rowLineageStartRowId with
  | none => rfl
  | some start => exact sameFiles_assignRowIds start _

theorem SnapshotProducer.commit_eq_some_iff {op : Operation} {id : Int} {s : Snapshot L} :
    p.commit op id = some s ↔
      (∀ mf ∈ p.parentManifests op, mf.hasCounts) ∧ s = p.snapshot op id := by
  have hnew : (p.newManifest op id).hasCounts = true := rfl
  have hkept : (p.keptManifests op).all (·.hasCounts) =
      (p.parentManifests op).all (·.hasCounts) := by
    have := congrArg (List.all · fun b => b) ((p.sameFiles_keptManifests op).map_eq
      hasCounts fun _ => rfl)
    simpa only [all_map, Function.comp_def] using this
  simp only [commit, snapshot, all_append, hkept,
    all_cons, hnew, all_nil, Bool.and_true, all_eq_true]
  by_cases h : ∀ mf ∈ p.parentManifests op, mf.hasCounts
  · rw [if_pos h, Option.some.injEq]
    exact ⟨fun h' => ⟨h, h'.symm⟩, fun h' => h'.2.symm⟩
  · rw [if_neg h]
    exact ⟨fun h' => (Option.some_ne_none _ h'.symm).elim, fun h' => absurd h'.1 h⟩

namespace ManifestFile

/-- No entry of the manifest is read back in a written partition. -/
def Untouched (mf : ManifestFile L) : Prop :=
  mf.content = .data → ∀ e ∈ mf.entries, e.dataFile.readPartition ∉ filter

/-- Every entry of the manifest, live or deleted, is read back in a written partition. -/
def Replaced (mf : ManifestFile L) : Prop :=
  mf.content = .data ∧ ∀ e ∈ mf.entries, e.dataFile.readPartition ∈ filter

variable {filter} {mf : ManifestFile L}

theorem Untouched.retain_eq (h : mf.Untouched filter) : mf.retain filter = some mf := by
  unfold retain
  by_cases hd : mf.content = .data
  · have hr : mf.retained filter = mf.entries :=
      filter_eq_self.mpr fun e he => decide_eq_true (h hd e he)
    simp [hd, hr]
  · simp [hd]

theorem Replaced.retain_eq (h : mf.Replaced filter) (hu : ¬ mf.Untouched filter) :
    mf.retain filter = none := by
  have hr : mf.retained filter = [] := by
    refine filter_eq_nil_iff.mpr fun e he => ?_
    simpa using h.2 e he
  have he : mf.entries ≠ [] := by
    intro he
    exact hu fun _ e h => absurd (he ▸ h) not_mem_nil
  have hlen : (0 : Nat) ≠ mf.entries.length := fun h => he (length_eq_zero_iff.mp h.symm)
  simp [retain, h.1, hr, hlen]

/-- The only other manifests are those with entries of both kinds. -/
theorem retain_eq_rewritten (hu : ¬ mf.Untouched filter) (h : ¬ mf.Replaced filter) :
    mf.retain filter = some (mf.rewritten filter) := by
  have hd : mf.content = .data := by
    by_contra hd
    exact hu fun h => absurd h hd
  have hlen : (mf.retained filter).length ≠ mf.entries.length := by
    intro hlen
    refine hu fun _ e he => ?_
    have := filter_eq_self.mp (filter_sublist.eq_of_length hlen) e he
    simpa using this
  have hne : mf.retained filter ≠ [] := by
    intro hnil
    refine h ⟨hd, fun e he => ?_⟩
    simpa using filter_eq_nil_iff.mp hnil e he
  simp [retain, hd, hlen, hne]

theorem not_hasCounts_rewritten : (mf.rewritten filter).hasCounts = false := rfl

end ManifestFile

/-- The parent's data manifests lie in or out of the written partitions; those kept have counts. -/
def SnapshotProducer.Separable : Prop :=
  ∀ mf ∈ p.parent.elim [] (·.manifestList),
    mf.Untouched p.partitionFilter ∧ mf.hasCounts ∨
      mf.Replaced p.partitionFilter ∧ ¬ mf.Untouched p.partitionFilter

theorem SnapshotProducer.separable_iff :
    p.Separable ↔ ∀ mf ∈ p.parentManifests .overwritePartitions, mf.hasCounts := by
  simp only [parentManifests, mem_filterMap, SnapshotProducer.Separable]
  constructor
  · rintro h mf ⟨mf', hmf', e⟩
    obtain ⟨hu, hc⟩ | ⟨hr, hu⟩ := h mf' hmf'
    · rw [hu.retain_eq] at e
      exact Option.some.inj e ▸ hc
    · rw [hr.retain_eq hu] at e
      cases e
  · intro h mf hmf
    by_cases hu : mf.Untouched p.partitionFilter
    · exact .inl ⟨hu, h mf ⟨mf, hmf, hu.retain_eq⟩⟩
    · refine .inr ⟨?_, hu⟩
      by_contra hr
      have := h _ ⟨mf, hmf, retain_eq_rewritten hu hr⟩
      simp [not_hasCounts_rewritten] at this

variable {p} {filter}

/-- What is kept of a manifest that is not rewritten are its files out of the written partitions. -/
theorem ManifestFile.liveDataFiles_retain {mf : ManifestFile L} (hd : mf.content = .data)
    (h : mf.Untouched filter ∨ mf.Replaced filter ∧ ¬ mf.Untouched filter) :
    (mf.retain filter).elim [] (·.liveDataFiles) =
      mf.liveDataFiles.filter (·.1.readPartition ∉ filter) := by
  obtain hu | ⟨hr, hu⟩ := h
  · rw [hu.retain_eq]
    refine (filter_eq_self.mpr fun f hf => ?_).symm
    obtain ⟨e, he, rfl⟩ := mem_map.mp hf
    exact decide_eq_true (hu hd e (mem_of_mem_filter he))
  · rw [hr.retain_eq hu]
    refine (filter_eq_nil_iff.mpr fun f hf => ?_).symm
    obtain ⟨e, he, rfl⟩ := mem_map.mp hf
    exact fun h => of_decide_eq_true h (hr.2 e (mem_of_mem_filter he))

theorem ManifestFile.content_retain {mf mf' : ManifestFile L} (h : mf.retain filter = some mf') :
    mf'.content = mf.content := by
  unfold retain at h
  split at h
  · cases h; rfl
  · split at h
    · cases h; rfl
    · split at h
      · cases h
        simp_all [rewritten]
      · cases h

theorem liveDataFiles_filterMap_retain (filter : List (List (Option L)))
    (mfs : List (ManifestFile L))
    (h : ∀ mf ∈ mfs, mf.Untouched filter ∨ mf.Replaced filter ∧ ¬ mf.Untouched filter) :
    ((mfs.filterMap (·.retain filter)).filter (·.content = .data)).flatMap (·.liveDataFiles) =
      ((mfs.filter (·.content = .data)).flatMap (·.liveDataFiles)).filter
        (·.1.readPartition ∉ filter) := by
  induction mfs with
  | nil => rfl
  | cons mf mfs ih =>
    have ih := ih fun mf' h' => h mf' (mem_cons_of_mem mf h')
    by_cases hd : mf.content = .data
    · have hmf := liveDataFiles_retain hd (h mf mem_cons_self)
      rw [filter_cons_of_pos (by simpa using hd), flatMap_cons, filter_append, ← hmf, ← ih]
      cases hr : mf.retain filter with
      | none => simp [hr]
      | some mf' => simp [hr, content_retain hr, hd]
    · have hr : mf.retain filter = some mf := if_pos hd
      simp [hr, hd, ih]

theorem deleteManifests_filterMap_retain (mfs : List (ManifestFile L)) :
    (mfs.filterMap (·.retain filter)).filter (·.content = .deletes) =
      mfs.filter (·.content = .deletes) := by
  induction mfs with
  | nil => rfl
  | cons mf mfs ih =>
    cases hc : mf.content with
    | deletes =>
      have hr : mf.retain filter = some mf := if_pos (by simp [hc])
      simp [hr, hc, ih]
    | data =>
      cases hr : mf.retain filter with
      | none => simp [hr, hc, ih]
      | some mf' => simp [hr, hc, content_retain hr, ih]

theorem SnapshotProducer.buildDeleteFileIndex_snapshot (specs : List PartitionSpec) (id : Int) :
    buildDeleteFileIndex specs (p.snapshot .overwritePartitions id).manifestList =
      buildDeleteFileIndex specs (p.parent.elim [] (·.manifestList)) := by
  have h := (p.sameFiles_keptManifests .overwritePartitions).flatMap_filter_eq
    (·.content = .deletes) (·.deleteFileRefs specs) (fun _ => rfl) fun _ => rfl
  simp only [buildDeleteFileIndex, snapshot, filter_append, flatMap_append, h]
  simp only [parentManifests, deleteManifests_filterMap_retain]
  simp [newManifest]

/-- The files that the producer adds, as they are read back. -/
def SnapshotProducer.writtenFiles (p : SnapshotProducer L) : List (DataFile L × Int) :=
  p.addedDataFiles.map fun f =>
    ({ f with partitionSpecId := p.partitionSpecId, firstRowId := none }, p.sequenceNumber)

theorem SnapshotProducer.liveDataFiles_newManifest (op : Operation) (id : Int) :
    (p.newManifest op id).liveDataFiles = p.writtenFiles := by
  simp only [liveDataFiles, newManifest, filter_isLive_writeManifest]
  simp [writeManifest, writtenFiles]

/-- Overwriting partitions replaced their files and nothing else: the other files of the parent are
live, with the same delete files. -/
def SnapshotProducer.ReplacesPartitions (p : SnapshotProducer L) (parent : Snapshot L) (id : Int) :
    Prop :=
  ∃ s, p.commit .overwritePartitions id = some s ∧
    s.liveDataFiles.Perm
      (p.writtenFiles ++ parent.liveDataFiles.filter (·.1.partition ∉ p.partitionFilter)) ∧
    ∀ f ∈ parent.liveDataFiles, f.1.partition ∉ p.partitionFilter → ∀ specs,
      (buildDeleteFileIndex specs s.manifestList).map (·.forDataFile f.1 f.2) =
        (buildDeleteFileIndex specs parent.manifestList).map (·.forDataFile f.1 f.2)

theorem SnapshotProducer.liveDataFiles_snapshot {parent : Snapshot L} (hp : p.parent = some parent)
    (h : p.Separable) (id : Int) : (p.snapshot .overwritePartitions id).liveDataFiles.Perm
      (p.writtenFiles ++ parent.liveDataFiles.filter (·.1.readPartition ∉ p.partitionFilter)) := by
  have hkept := (p.sameFiles_keptManifests .overwritePartitions).flatMap_filter_eq
    (·.content = .data) (·.liveDataFiles) (fun _ => rfl) fun _ => rfl
  have hparent := liveDataFiles_filterMap_retain p.partitionFilter
    parent.manifestList fun mf hmf => by
      simp only [SnapshotProducer.Separable, hp, Option.elim_some] at h
      exact (h mf hmf).imp_left And.left
  simp only [parentManifests, hp, Option.elim_some, hparent] at hkept
  simp only [Snapshot.liveDataFiles_eq, snapshot, filter_append, flatMap_append, hkept]
  refine perm_append_comm.trans (List.Perm.append_right _ ?_)
  simp [show (p.newManifest .overwritePartitions id).content = .data from rfl,
    liveDataFiles_newManifest]

/-- A partition overwrite does what it is for exactly if no manifest of the parent has to be
rewritten and its live files are read back in a written partition if they are in one. -/
theorem replacesPartitions_iff (p : SnapshotProducer L) (parent : Snapshot L)
    (hp : p.parent = some parent) (id : Int) : p.ReplacesPartitions parent id ↔ p.Separable ∧
      ∀ f ∈ parent.liveDataFiles,
        (f.1.readPartition ∈ p.partitionFilter ↔ f.1.partition ∈ p.partitionFilter) := by
  constructor
  · rintro ⟨s, hs, hfiles, -⟩
    obtain ⟨hcounts, rfl⟩ := p.commit_eq_some_iff.mp hs
    have hsep := p.separable_iff.mpr hcounts
    refine ⟨hsep, fun f hf => ?_⟩
    have hperm := (p.liveDataFiles_snapshot hp hsep id).symm.trans hfiles
    have hmem := ((perm_append_left_iff _).mp hperm).mem_iff (a := f)
    simpa [hf, not_iff_not] using hmem
  · rintro ⟨hsep, hread⟩
    have hcommit : p.commit .overwritePartitions id = some (p.snapshot .overwritePartitions id) :=
      p.commit_eq_some_iff.mpr ⟨p.separable_iff.mp hsep, rfl⟩
    refine ⟨_, hcommit, ?_, fun f _ _ specs => ?_⟩
    · have hfilter : (parent.liveDataFiles.filter (·.1.readPartition ∉ p.partitionFilter)) =
          parent.liveDataFiles.filter (·.1.partition ∉ p.partitionFilter) :=
        filter_congr fun f hf => decide_eq_decide.mpr (not_congr (hread f hf))
      exact hfilter ▸ p.liveDataFiles_snapshot hp hsep id
    · have := p.buildDeleteFileIndex_snapshot specs id
      rw [hp, Option.elim_some] at this
      rw [this]

end overwrite

/-! ### A manifest with files of two partitions -/

/-- The literals of an int and a long column; every whole number that fits is read as an int. -/
inductive WholeLiteral where
  | int (value : Int)
  | long (value : Int)
deriving DecidableEq, Repr

instance : PartitionLiteral WholeLiteral where
  decEq := inferInstance
  decode
    | .int v => .int v
    | .long v => if -2147483648 ≤ v ∧ v ≤ 2147483647 then .int v else .long v

instance : PartitionLiteral Int where
  decEq := inferInstance
  decode v := v

/-- One append wrote a file into each of the partitions. -/
def appended {L : Type} (files : List (DataFile L)) : Snapshot L where
  snapshotId := 1
  sequenceNumber := 1
  manifestList := [{
    sequenceNumber := 1
    addedSnapshotId := 1
    addedFilesCount := some files.length
    existingFilesCount := some 0
    deletedFilesCount := some 0
    addedRowsCount := some (files.map fun f => (f.recordCount : Int)).sum
    existingRowsCount := some 0
    deletedRowsCount := some 0
    entries := writeManifest files }]

def twoPartitions : Snapshot Int := appended
  [{ filePath := "a", partition := [some 1], recordCount := 10 },
    { filePath := "b", partition := [some 2], recordCount := 10 }]

/-- An overwrite with one file in the partition of a literal. -/
def overwriteOf {L : Type} (parent : Snapshot L) (k : L) : SnapshotProducer L where
  parent := some parent
  addedDataFiles := [{ filePath := "c", partition := [some k], recordCount := 5 }]

/-- Overwriting one of the two partitions has to rewrite the manifest, and the commit fails; of a
long partition the old file stays. -/
theorem not_replacesPartitions_twoPartitions :
    (¬ (overwriteOf twoPartitions 1).ReplacesPartitions twoPartitions 2) ∧
    ((overwriteOf (appended [{ filePath := "a", partition := [some (WholeLiteral.long 1)] }])
        (.long 1)).commit .overwritePartitions 2).map
      (fun s => s.liveDataFiles.map fun f => (f.1.filePath, f.1.partition)) =
        some [("a", [some (.long 1)]), ("c", [some (.long 1)])] := by
  refine ⟨?_, by decide +kernel⟩
  rintro ⟨s, hs, -⟩
  have : (overwriteOf twoPartitions 1).commit .overwritePartitions 2 = none := by decide +kernel
  rw [this] at hs
  cases hs

/-- Overwriting a third partition keeps it as it is. -/
theorem replacesPartitions_other : (overwriteOf twoPartitions 3).parent = some twoPartitions ∧
    (overwriteOf twoPartitions 3).ReplacesPartitions twoPartitions 2 :=
  ⟨rfl, (replacesPartitions_iff (overwriteOf twoPartitions 3) twoPartitions rfl 2).mpr
    ⟨(overwriteOf twoPartitions 3).separable_iff.mpr (by decide +kernel), by decide +kernel⟩⟩

end Zelox.Iceberg
