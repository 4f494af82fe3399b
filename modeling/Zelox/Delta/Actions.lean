import Zelox.Lib.KeyedMap

/-!
# Actions of a Delta log

The actions a commit file or a checkpoint row can hold (`spec/actions.rs`,
`spec/protocol.rs`, `spec/metadata.rs`), with the fields that the log's readers and
writers look at.  A data file is known by its path and the id of its deletion vector
(`logicalFileKey`); `Add` and `Remove` actions with equal keys speak of one file.
-/

namespace Zelox.Delta

inductive TableFeature where
  | appendOnly
  | invariants
  | checkConstraints
  | changeDataFeed
  | allowColumnDefaults
  | generatedColumns
  | identityColumns
  | columnMapping
  | deletionVectors
  | rowTracking
  | domainMetadata
  | v2Checkpoint
  | inCommitTimestamp
  | timestampWithoutTimezone
  | icebergCompatV1
  | icebergCompatV2
  | clustering
  | vacuumProtocolCheck
  | variantType
  | typeWideningPreview
  | typeWidening
  | catalogManaged
  | unknown
deriving DecidableEq, Repr

inductive IsolationLevel where
  | serializable
  | writeSerializable
  | snapshotIsolation
deriving DecidableEq, Repr

/-- What the log code reads of a table's configuration (`TableProperties::from`); durations
in milliseconds. -/
structure TableProperties where
  writeChecksumFileEnabled : Option Bool := none
  enableInCommitTimestamps : Option Bool := none
  inCommitTimestampEnablementVersion : Option Nat := none
  inCommitTimestampEnablementTimestamp : Option Int64 := none
  deletedFileRetentionDuration : Option Nat := none
  isolationLevel : Option IsolationLevel := none
  logRetentionDuration : Option Nat := none
deriving DecidableEq, Repr

namespace TableProperties

/-- `DEFAULT_LOG_RETENTION_SECS` is 30 days. -/
def logRetention (p : TableProperties) : Nat :=
  p.logRetentionDuration.getD (30 * 24 * 60 * 60 * 1000)

/-- `DEFAULT_DELETED_FILE_RETENTION_SECS` is 7 days. -/
def deletedFileRetention (p : TableProperties) : Nat :=
  p.deletedFileRetentionDuration.getD (7 * 24 * 60 * 60 * 1000)

def inCommitTimestampsEnabled (p : TableProperties) : Bool := p.enableInCommitTimestamps.getD false

end TableProperties

structure Protocol where
  minReaderVersion : Int
  minWriterVersion : Int
  readerFeatures : Option (List TableFeature) := none
  writerFeatures : Option (List TableFeature) := none
deriving DecidableEq, Repr

namespace Protocol

def hasWriterFeature (p : Protocol) (feature : TableFeature) : Bool :=
  p.writerFeatures.any fun features => features.contains feature

def supportsInCommitTimestamps (p : Protocol) : Bool :=
  7 ≤ p.minWriterVersion && p.hasWriterFeature .inCommitTimestamp

def isInCommitTimestampsEnabled (p : Protocol) (properties : TableProperties) : Bool :=
  p.supportsInCommitTimestamps && properties.inCommitTimestampsEnabled

end Protocol

structure StructField where
  name : String
  dataType : String
  nullable : Bool
deriving DecidableEq, Repr

/-- `schema` is what `parse_schema` makes of the schema string. -/
structure Metadata where
  id : String
  schema : Option (List StructField) := none
  partitionColumns : List String := []
  createdTime : Option Int64 := none
  configuration : TableProperties := {}
deriving DecidableEq, Repr

inductive StorageType where
  | uuidRelativePath
  | inline
  | absolutePath
deriving DecidableEq, Repr

def StorageType.asRef : StorageType → String
  | .uuidRelativePath => "u"
  | .inline => "i"
  | .absolutePath => "p"

structure DeletionVectorDescriptor where
  storageType : StorageType
  pathOrInlineDv : String
  offset : Option Int := none
deriving DecidableEq, Repr

def DeletionVectorDescriptor.uniqueId (dv : DeletionVectorDescriptor) : String :=
  match dv.offset with
  | none => dv.storageType.asRef ++ dv.pathOrInlineDv
  | some offset => dv.storageType.asRef ++ dv.pathOrInlineDv ++ "@" ++ toString offset

/-- A logical file: its data file and the id of its deletion vector. -/
abbrev LogicalFileKey := String × Option String

def logicalFileKey (path : String) (dv : Option DeletionVectorDescriptor) : LogicalFileKey :=
  (path, dv.map DeletionVectorDescriptor.uniqueId)

structure Add where
  path : String
  size : Int64
  dataChange : Bool := true
  deletionVector : Option DeletionVectorDescriptor := none
deriving DecidableEq, Repr

def Add.key (add : Add) : LogicalFileKey := logicalFileKey add.path add.deletionVector

structure Remove where
  path : String
  dataChange : Bool := true
  deletionTimestamp : Option Int64 := none
  size : Option Int64 := none
  deletionVector : Option DeletionVectorDescriptor := none
deriving DecidableEq, Repr

def Remove.key (remove : Remove) : LogicalFileKey :=
  logicalFileKey remove.path remove.deletionVector

structure Transaction where
  appId : String
  version : Int
  lastUpdated : Option Int64 := none
deriving DecidableEq, Repr

structure DomainMetadata where
  domain : String
  configuration : String
  removed : Bool
deriving DecidableEq, Repr

/-- `txnId` is the entry of that name in `info`. -/
structure CommitInfo where
  timestamp : Option Int64 := none
  isBlindAppend : Option Bool := none
  inCommitTimestamp : Option Int64 := none
  txnId : Option String := none
deriving DecidableEq, Repr

structure Sidecar where
  path : String
deriving DecidableEq, Repr

inductive Action where
  | metadata (metadata : Metadata)
  | protocol (protocol : Protocol)
  | add (add : Add)
  | remove (remove : Remove)
  | cdc (path : String)
  | txn (txn : Transaction)
  | commitInfo (info : CommitInfo)
  | domainMetadata (domainMetadata : DomainMetadata)
  | checkpointMetadata (version : Nat)
  | sidecar (sidecar : Sidecar)
deriving DecidableEq, Repr

/-- A row of a checkpoint: a nullable column for each kind of action. -/
structure CheckpointActionRow where
  add : Option Add := none
  remove : Option Remove := none
  metadata : Option Metadata := none
  protocol : Option Protocol := none
  txn : Option Transaction := none
  domainMetadata : Option DomainMetadata := none
  checkpointMetadata : Option Nat := none
  sidecar : Option Sidecar := none
deriving DecidableEq, Repr

/-- The columns of a row in the order in which the reader looks at them. -/
def CheckpointActionRow.actions (row : CheckpointActionRow) : List Action :=
  (row.protocol.map Action.protocol).toList ++ (row.metadata.map Action.metadata).toList ++
    (row.txn.map Action.txn).toList ++ (row.domainMetadata.map Action.domainMetadata).toList ++
    (row.add.map Action.add).toList ++ (row.remove.map Action.remove).toList

end Zelox.Delta
