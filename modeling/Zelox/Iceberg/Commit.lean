import Zelox.Iceberg.Producer

/-!
# What a commit makes of the table metadata

`physical_plan/commit/commit_exec.rs` and `operations/bootstrap.rs`, apart from their accesses to
the object store: the metadata that a commit writes, given the metadata it has loaded.
-/

namespace Zelox.Iceberg

variable {L : Type}

/-- What the writer hands to the commit; the last fields are for creating the table. -/
structure CommitInfo (L : Type) where
  operation : Operation := .append
  dataFiles : List (DataFile L) := []
  requirements : List TableRequirement := []
  schema : Option Schema := none
  partitionSpec : Option PartitionSpec := none
  tableFormatVersion : FormatVersion := .v2
  compression : Option MetadataFileCodec := some .none
  streaming : Option StreamingCommit := none
deriving DecidableEq, Repr

/-! ### The batches a stream has committed -/

def Snapshot.committedBatchId (s : Snapshot L) (appId : String) : Option Nat :=
  (s.streaming.filter (·.appId = appId)).map (·.batchId)

/-- The snapshot that the map from ids to snapshots has for `id`. -/
def snapshotById (snapshots : List (Snapshot L)) (id : Int) : Option (Snapshot L) :=
  snapshots.reverse.find? (·.snapshotId = id)

/-- At most `n` snapshots of the parent chain from `id` on. -/
def ancestry (snapshots : List (Snapshot L)) : Nat → Option Int → List (Snapshot L)
  | 0, _ => []
  | n + 1, id => ((id.bind (snapshotById snapshots)).elim []) fun s =>
      s :: ancestry snapshots n s.parentSnapshotId

variable (m : TableMetadata L)

namespace TableMetadata

def ancestors (m : TableMetadata L) : List (Snapshot L) :=
  ancestry m.snapshots (m.snapshots.length + 1) (m.currentSnapshot.map (·.snapshotId))

def maxCommittedBatchId (m : TableMetadata L) (appId : String) : Option Nat :=
  (m.ancestors.filterMap (·.committedBatchId appId)).max?

def addSnapshot (m : TableMetadata L) (s : Snapshot L) : TableMetadata L :=
  let m := { m with
    snapshots := m.snapshots ++ [s]
    currentSnapshotId := some s.snapshotId
    mainRef := some s.snapshotId
    lastSequenceNumber := max m.lastSequenceNumber s.sequenceNumber }
  s.addedRows.elim m m.advanceNextRowId

/-- Unlike `addSnapshot` this leaves a reference `main` as it is. -/
def addFirstSnapshot (m : TableMetadata L) (s : Snapshot L) : TableMetadata L :=
  let m := { m with
    snapshots := m.snapshots ++ [s]
    currentSnapshotId := some s.snapshotId
    mainRef := m.mainRef <|> some s.snapshotId
    lastSequenceNumber := 1 }
  s.addedRows.elim m m.advanceNextRowId

/-- The schemas and specs of the table, with those in use, and its codec. -/
def definitions (m : TableMetadata L) :
    List Schema × Int × List PartitionSpec × Int × Option MetadataFileCodec :=
  (m.schemas, m.currentSchemaId, m.partitionSpecs, m.defaultSpecId, m.compression)

theorem definitions_advanceNextRowId (n : Int) :
    (m.advanceNextRowId n).definitions = m.definitions := by
  unfold advanceNextRowId
  cases m.rowLineageStartRowId <;> rfl

theorem definitions_ensureRequiredFormatFields :
    m.ensureRequiredFormatFields.definitions = m.definitions := by
  unfold ensureRequiredFormatFields
  split <;> rfl

theorem definitions_addSnapshot (s : Snapshot L) :
    (m.addSnapshot s).definitions = m.definitions := by
  unfold addSnapshot
  cases s.addedRows with
  | none => rfl
  | some n => exact definitions_advanceNextRowId _ n

theorem definitions_addFirstSnapshot (s : Snapshot L) :
    (m.addFirstSnapshot s).definitions = m.definitions := by
  unfold addFirstSnapshot
  cases s.addedRows with
  | none => rfl
  | some n => exact definitions_advanceNextRowId _ n

end TableMetadata

namespace CommitInfo

variable (c : CommitInfo L)

/-- The batch or a later one of the same application is in the ancestry. -/
def skips (m : TableMetadata L) : Bool :=
  c.streaming.any fun sc => (m.maxCommittedBatchId sc.appId).any (sc.batchId ≤ ·)

/-- A spec numbered 0 takes the number of the table's default spec. -/
def specFor (m : TableMetadata L) (s : PartitionSpec) : PartitionSpec :=
  if s.specId = 0 ∧ m.defaultSpecId ≠ 0 then { s with specId := m.defaultSpecId } else s

def applyUpdates (m : TableMetadata L) : TableMetadata L :=
  let m := c.schema.elim m m.applySchemaUpdate
  c.partitionSpec.elim m fun s => m.applyPartitionSpecUpdate (specFor m s)

/-- The loaded metadata with the updates of schema and spec, if it meets the requirements. -/
def prepare (m : TableMetadata L) : Option (TableMetadata L) :=
  if validateRequirements (some m) c.requirements then
    (c.applyUpdates m).currentSchema.map fun s =>
      { c.applyUpdates m with
        formatVersion := (c.applyUpdates m).formatVersion.max
          (formatVersionForSchema s) }.ensureRequiredFormatFields
  else none

/-- The data files have no row ids; an overwrite does not record the properties of the stream. -/
def producer (m : TableMetadata L) (parent : Option (Snapshot L)) : SnapshotProducer L where
  parent := parent
  addedDataFiles := c.dataFiles.map (·.withoutRowIds)
  schemaId := m.currentSchemaId
  partitionSpecId := (m.defaultPartitionSpec.getD .unpartitionedSpec).specId
  rowLineageStartRowId := m.rowLineageStartRowId
  streaming := if c.operation = .append ∨ parent.isNone then c.streaming else none

variable [PartitionLiteral L]

/-- `bootstrap_first_snapshot` on prepared metadata. -/
def firstSnapshot (id : Int) (m : TableMetadata L) : Option (TableMetadata L) :=
  ((c.producer m none).commit .append id).map m.addFirstSnapshot

/-- A further snapshot on prepared metadata, which also has to name a known codec. -/
def nextSnapshot (id : Int) (m : TableMetadata L) (parent : Snapshot L) :
    Option (TableMetadata L) :=
  ((c.producer m (some parent)).commit c.operation id).bind fun s =>
    if m.currentSnapshotId = some parent.snapshotId ∧ m.compression.isSome then
      some (m.addSnapshot s)
    else none

/-- The metadata that the commit writes over `m`, if it writes any. -/
def commit (id : Int) (m : TableMetadata L) : Option (TableMetadata L) :=
  (c.prepare m).bind fun m => m.currentSnapshot.elim (c.firstSnapshot id m) fun parent =>
    if c.skips m then none else c.nextSnapshot id m parent

/-- The metadata that `bootstrap_new_table` starts from. -/
def emptyTable (s : Schema) : TableMetadata L where
  formatVersion := c.tableFormatVersion.max (formatVersionForSchema s)
  lastColumnId := s.highestFieldId
  schemas := [s]
  currentSchemaId := s.schemaId
  partitionSpecs := [c.partitionSpec.getD .unpartitionedSpec]
  defaultSpecId := (c.partitionSpec.getD .unpartitionedSpec).specId
  lastPartitionId := (c.partitionSpec.getD .unpartitionedSpec).highestFieldId.getD 0
  compression := c.compression

/-- `bootstrap_new_table`: the metadata of a new table. -/
def newTable (id : Int) : Option (TableMetadata L) :=
  c.schema.bind fun s =>
    if validateRequirements (none : Option (TableMetadata L)) c.requirements ∧
        c.compression.isSome then
      c.firstSnapshot id (c.emptyTable s).ensureRequiredFormatFields
    else none

omit [PartitionLiteral L] in
theorem applyUpdates_snapshots :
    (c.applyUpdates m).snapshots = m.snapshots ∧ (c.applyUpdates m).nextRowId = m.nextRowId ∧
      (c.applyUpdates m).mainRef = m.mainRef ∧
      (c.applyUpdates m).currentSnapshotId = m.currentSnapshotId ∧
      (c.applyUpdates m).compression = m.compression := by
  unfold applyUpdates
  cases c.schema <;> cases c.partitionSpec <;> exact ⟨rfl, rfl, rfl, rfl, rfl⟩

variable {c} {m₀ m m' : TableMetadata L} {id : Int}

omit [PartitionLiteral L] in
theorem prepare_snapshots (h : c.prepare m₀ = some m) : m.snapshots = m₀.snapshots ∧
    m.mainRef = m₀.mainRef ∧ m.currentSnapshotId = m₀.currentSnapshotId ∧
    m.currentSnapshot = m₀.currentSnapshot := by
  obtain ⟨hs, -, hr, hc, -⟩ := c.applyUpdates_snapshots m₀
  have hm : m.snapshots = m₀.snapshots ∧ m.mainRef = m₀.mainRef ∧
      m.currentSnapshotId = m₀.currentSnapshotId := by
    unfold prepare at h
    split at h
    · obtain ⟨s, -, rfl⟩ := Option.map_eq_some_iff.mp h
      unfold TableMetadata.ensureRequiredFormatFields
      split <;> exact ⟨hs, hr, hc⟩
    · cases h
  refine ⟨hm.1, hm.2.1, hm.2.2, ?_⟩
  rw [TableMetadata.currentSnapshot, hm.1, hm.2.1, hm.2.2, TableMetadata.currentSnapshot]

/-- The two ways in which a commit adds its snapshot to the prepared metadata. -/
theorem commit_spec (h : c.commit id m₀ = some m') : ∃ m op s, c.prepare m₀ = some m ∧
    (c.producer m m.currentSnapshot).commit op id = some s ∧
    (m' = m.addSnapshot s ∧ m.currentSnapshot.isSome ∧ op = c.operation ∧ c.skips m = false ∨
      m' = m.addFirstSnapshot s ∧ m.currentSnapshot = none ∧ op = .append) := by
  unfold commit at h
  obtain ⟨m, hm, h⟩ := Option.bind_eq_some_iff.mp h
  cases hc : m.currentSnapshot with
  | none =>
    rw [hc, Option.elim_none] at h
    obtain ⟨s, hs, rfl⟩ := Option.map_eq_some_iff.mp h
    exact ⟨m, .append, s, hm, hc ▸ hs, .inr ⟨rfl, hc, rfl⟩⟩
  | some parent =>
    simp only [hc, Option.elim_some] at h
    split at h
    · cases h
    · next hk =>
      obtain ⟨s, hs, h⟩ := Option.bind_eq_some_iff.mp h
      split at h
      · exact ⟨m, c.operation, s, hm, hc ▸ hs, .inl ⟨(Option.some.inj h).symm, by simp [hc], rfl,
          by simpa using hk⟩⟩
      · cases h

/-- A commit changes schemas and specs as its updates say, and keeps the codec. -/
theorem commit_updates (h : c.commit id m₀ = some m') :
    validateRequirements (some m₀) c.requirements = true ∧
      m'.definitions = (c.applyUpdates m₀).definitions := by
  obtain ⟨m, op, s, hm, -, hm'⟩ := commit_spec h
  unfold prepare at hm
  split at hm
  · next hv =>
    obtain ⟨sch, -, rfl⟩ := Option.map_eq_some_iff.mp hm
    obtain ⟨rfl, -⟩ | ⟨rfl, -⟩ := hm'
    · exact ⟨hv, (TableMetadata.definitions_addSnapshot _ s).trans
        (TableMetadata.definitions_ensureRequiredFormatFields _)⟩
    · exact ⟨hv, (TableMetadata.definitions_addFirstSnapshot _ s).trans
        (TableMetadata.definitions_ensureRequiredFormatFields _)⟩
  · cases hm

end CommitInfo

end Zelox.Iceberg
