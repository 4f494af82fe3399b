/-!
# Iceberg table metadata

`spec/`: what a commit reads and writes of an Iceberg table.  Manifests and manifest lists are
written once, under fresh names, and never change, so a snapshot holds its manifest list here and
an entry of that list its manifest.  `replaceOrPush` is the loop by which both schemas and
partition specs are updated.
-/

namespace Zelox.Iceberg

inductive FormatVersion where
  | v1 | v2 | v3
deriving DecidableEq, Repr

def FormatVersion.number : FormatVersion → Nat
  | v1 => 1
  | v2 => 2
  | v3 => 3

def FormatVersion.max (a b : FormatVersion) : FormatVersion :=
  if a.number ≤ b.number then b else a

/-- A column; `requiresV3` if its type or one of its defaults needs format version 3. -/
structure NestedField where
  id : Int
  name : String
  requiresV3 : Bool := false
deriving DecidableEq, Repr

structure Schema where
  schemaId : Int
  fields : List NestedField
deriving DecidableEq, Repr

def Schema.highestFieldId (s : Schema) : Int := (s.fields.map (·.id)).foldl max 0

def Schema.fieldIdByName (s : Schema) (name : String) : Option Int :=
  (s.fields.find? (·.name = name)).map (·.id)

def formatVersionForSchema (s : Schema) : FormatVersion :=
  if s.fields.any (·.requiresV3) then .v3 else .v1

inductive Transform where
  | identity
  | bucket (n : Nat)
  | truncate (w : Nat)
  | year | month | day | hour | void | unknown
deriving DecidableEq, Repr

structure PartitionField where
  sourceId : Int
  fieldId : Int
  name : String
  transform : Transform
deriving DecidableEq, Repr

structure PartitionSpec where
  specId : Int := 0
  fields : List PartitionField := []
deriving DecidableEq, Repr

def PartitionSpec.unpartitionedSpec : PartitionSpec := {}

def PartitionSpec.isUnpartitioned (s : PartitionSpec) : Bool :=
  s.fields.all (·.transform = .void)

def PartitionSpec.highestFieldId (s : PartitionSpec) : Option Int := (s.fields.map (·.fieldId)).max?

/-! ### Files and snapshots -/

inductive DataContentType where
  | data | positionDeletes | equalityDeletes
deriving DecidableEq, Repr

/-- A data or delete file; a deletion vector is a position delete file in a Puffin blob. -/
structure DataFile (L : Type) where
  content : DataContentType := .data
  filePath : String
  partition : List (Option L) := []
  partitionSpecId : Int := 0
  recordCount : Nat := 0
  firstRowId : Option Int := none
  referencedDataFile : Option String := none
  equalityIds : List Int := []
  isDeletionVector : Bool := false
deriving DecidableEq, Repr

inductive ManifestStatus where
  | added | existing | deleted
deriving DecidableEq, Repr

structure ManifestEntry (L : Type) where
  status : ManifestStatus
  snapshotId : Option Int := none
  sequenceNumber : Option Int := none
  dataFile : DataFile L
deriving DecidableEq, Repr

/-- The entry counts as live for readers. -/
def ManifestEntry.isLive {L : Type} (e : ManifestEntry L) : Bool := e.status != .deleted

inductive ManifestContentType where
  | data | deletes
deriving DecidableEq, Repr

/-- An entry of a manifest list, with the entries of the manifest it points to. -/
structure ManifestFile (L : Type) where
  content : ManifestContentType := .data
  partitionSpecId : Int := 0
  sequenceNumber : Int
  addedSnapshotId : Int := 0
  addedFilesCount : Option Int := none
  existingFilesCount : Option Int := none
  deletedFilesCount : Option Int := none
  addedRowsCount : Option Int := none
  existingRowsCount : Option Int := none
  deletedRowsCount : Option Int := none
  firstRowId : Option Int := none
  entries : List (ManifestEntry L)
deriving DecidableEq, Repr

/-- The application and the micro-batch that a streaming commit records in its summary. -/
structure StreamingCommit where
  batchId : Nat
  appId : String
deriving DecidableEq, Repr

structure Snapshot (L : Type) where
  snapshotId : Int
  parentSnapshotId : Option Int := none
  sequenceNumber : Int
  manifestList : List (ManifestFile L) := []
  streaming : Option StreamingCommit := none
  schemaId : Int := 0
  firstRowId : Option Int := none
  addedRows : Option Int := none
deriving DecidableEq, Repr

/-! ### The table -/

inductive MetadataFileCodec where
  | none | gzip
deriving DecidableEq, Repr

/-- `compression` is the configured codec, if it is supported; `mainRef` the snapshot of `main`. -/
structure TableMetadata (L : Type) where
  formatVersion : FormatVersion := .v2
  lastSequenceNumber : Int := 0
  lastColumnId : Int := 0
  schemas : List Schema := []
  currentSchemaId : Int := 0
  partitionSpecs : List PartitionSpec := []
  defaultSpecId : Int := 0
  lastPartitionId : Int := 0
  compression : Option MetadataFileCodec := some .none
  currentSnapshotId : Option Int := none
  mainRef : Option Int := none
  nextRowId : Option Int := none
  snapshots : List (Snapshot L) := []
deriving DecidableEq, Repr

/-- Replaces the first element with the key of `a`, or adds `a` at the end. -/
def replaceOrPush {α : Type} (key : α → Int) (a : α) : List α → List α
  | [] => [a]
  | b :: bs => if key b = key a then a :: bs else b :: replaceOrPush key a bs

namespace TableMetadata

variable {L : Type} (m : TableMetadata L)

def currentSchema : Option Schema := m.schemas.find? (·.schemaId = m.currentSchemaId)

def defaultPartitionSpec : Option PartitionSpec :=
  m.partitionSpecs.find? (·.specId = m.defaultSpecId)

def currentSnapshot : Option (Snapshot L) :=
  (m.mainRef <|> m.currentSnapshotId).bind fun id => m.snapshots.find? (·.snapshotId = id)

def inferredNextRowId : Int :=
  (m.snapshots.filterMap fun s => s.firstRowId.bind fun f => s.addedRows.map (f + ·)).max?.getD 0

def ensureRequiredFormatFields : TableMetadata L :=
  if m.formatVersion = .v3 ∧ m.nextRowId = none then
    { m with nextRowId := some m.inferredNextRowId }
  else m

/-- The first row id of the next commit, of metadata that has its required fields. -/
def rowLineageStartRowId : Option Int :=
  if m.formatVersion = .v3 then some (m.nextRowId.getD 0) else none

def advanceNextRowId (addedRows : Int) : TableMetadata L :=
  m.rowLineageStartRowId.elim m fun start => { m with nextRowId := some (start + addedRows) }

def applySchemaUpdate (s : Schema) : TableMetadata L :=
  { m with
    schemas := replaceOrPush Schema.schemaId s m.schemas
    currentSchemaId := s.schemaId
    lastColumnId := max m.lastColumnId s.highestFieldId
    formatVersion := m.formatVersion.max (formatVersionForSchema s) }

def applyPartitionSpecUpdate (s : PartitionSpec) : TableMetadata L :=
  { m with
    partitionSpecs := replaceOrPush PartitionSpec.specId s m.partitionSpecs
    defaultSpecId := s.specId
    lastPartitionId := s.highestFieldId.elim m.lastPartitionId (max m.lastPartitionId) }

end TableMetadata

inductive TableRequirement where
  | notExist
  | lastAssignedFieldIdMatch (lastAssignedFieldId : Int)
  | currentSchemaIdMatch (currentSchemaId : Int)
  | mainSnapshotIdMatch (snapshotId : Option Int)
  | unsupported
deriving DecidableEq, Repr

def TableRequirement.holds {L : Type} (table : Option (TableMetadata L)) : TableRequirement → Bool
  | notExist => table.isNone
  | lastAssignedFieldIdMatch n => table.any (·.lastColumnId = n)
  | currentSchemaIdMatch n => table.any (·.currentSchemaId = n)
  | mainSnapshotIdMatch id => table.any (·.currentSnapshotId = id)
  | unsupported => false

def validateRequirements {L : Type} (table : Option (TableMetadata L))
    (requirements : List TableRequirement) : Bool :=
  requirements.all (·.holds table)

end Zelox.Iceberg
