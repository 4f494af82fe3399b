import Zelox.Delta.State

/-!
# The files of a Delta log

The directory `_delta_log/` as the maps from names to contents of its five kinds of
file, and the version named in `_last_checkpoint`.  Reading a name is a lookup,
writing one an insertion; a listing comes in the order of the entries, which nothing
below relies on.

The name of a file starts with the twenty zero-padded digits of its version, so a
listing from the prefix of version `o` has the files of version `o` and above
(`listFrom`).
-/

namespace Zelox.Delta

abbrev DeltaResult := Except String

abbrev Timestamps := KeyedMap (Prod.fst : Nat × Int64 → Nat)

/-- `{version:020}.json` -/
structure CommitFile where
  version : Nat
  lastModified : Int64
  actions : List Action

/-- `{start:020}.{end:020}.compacted.json` -/
structure CompactionFile where
  startVersion : Nat
  endVersion : Nat
  lastModified : Int64
  actions : List Action

def CompactionFile.range (f : CompactionFile) : Nat × Nat := (f.startVersion, f.endVersion)

/-- `{version:020}` followed by `name`: `.checkpoint.parquet`,
`.checkpoint.{part:010}.{total:010}.parquet` or `.checkpoint.{uuid}.{json|parquet}`. -/
structure CheckpointFile where
  version : Nat
  name : String
  rows : List CheckpointActionRow

def CheckpointFile.location (f : CheckpointFile) : Nat × String := (f.version, f.name)

structure VersionChecksum where
  txnId : Option String
  tableSizeBytes : Int64
  numFiles : Int64
  numMetadata : Int64
  numProtocol : Int64
  inCommitTimestampOpt : Option Int64
  setTransactions : Option (List Transaction)
  domainMetadata : Option (List DomainMetadata)
  metadata : Metadata
  protocol : Protocol

/-- `{version:020}.crc` -/
structure ChecksumFile where
  version : Nat
  checksum : VersionChecksum

/-- `_sidecars/{path}` -/
structure SidecarFile where
  path : String
  rows : List CheckpointActionRow

structure LogStore where
  commits : KeyedMap CommitFile.version := .empty
  checkpoints : KeyedMap CheckpointFile.location := .empty
  compactions : KeyedMap CompactionFile.range := .empty
  checksums : KeyedMap ChecksumFile.version := .empty
  sidecars : KeyedMap SidecarFile.path := .empty
  /-- The version in `_last_checkpoint`. -/
  lastCheckpoint : Option Nat := none

/-- The entries of a listing, by the kinds their names parse as. -/
structure LogEntries where
  checksums : List ChecksumFile
  checkpoints : List CheckpointFile
  commits : List CommitFile
  compactions : List CompactionFile

namespace LogStore

def readCommitEntry (store : LogStore) (version : Nat) : Option (List Action) :=
  (store.commits.get? version).map CommitFile.actions

def commitActions (store : LogStore) (version : Nat) : List Action :=
  (store.readCommitEntry version).getD []

/-- The actions of the commits `first`, `first + 1`, … (`count` of them). -/
def rangeActions (store : LogStore) (first count : Nat) : List Action :=
  (List.range' first count).flatMap store.commitActions

/-- The state before version `n`: the commits below it, applied in order to the empty state. -/
def replayBefore (store : LogStore) (n : Nat) : ReconciledCheckpointState :=
  ReconciledCheckpointState.default.applyAll (store.rangeActions 0 n)

theorem rangeActions_add (store : LogStore) (first m n : Nat) :
    store.rangeActions first (m + n) =
      store.rangeActions first m ++ store.rangeActions (first + m) n := by
  have h : List.range' first (m + n) = List.range' first m ++ List.range' (first + m) n := by
    simp
  rw [rangeActions, h, List.flatMap_append]
  rfl

theorem replayBefore_add (store : LogStore) (m n : Nat) :
    store.replayBefore (m + n) = (store.replayBefore m).applyAll (store.rangeActions m n) := by
  rw [replayBefore, rangeActions_add, ReconciledCheckpointState.applyAll_append, Nat.zero_add]
  rfl

theorem replayBefore_succ (store : LogStore) (n : Nat) :
    store.replayBefore (n + 1) = (store.replayBefore n).applyAll (store.commitActions n) := by
  rw [replayBefore_add]
  simp [rangeActions]

/-- `list_delta_log_entries_from`.  A compaction is listed under its first version; its range has
two. -/
def listFrom (store : LogStore) (offset : Int) : LogEntries where
  checksums := store.checksums.entries.filter fun f => offset ≤ f.version
  checkpoints := store.checkpoints.entries.filter fun f => offset ≤ f.version
  commits := store.commits.entries.filter fun f => offset ≤ f.version
  compactions := store.compactions.entries.filter fun f =>
    offset ≤ f.startVersion ∧ f.startVersion < f.endVersion

/-- Where listings for `version` start: before the hinted checkpoint, or before `version`
if the hint is newer. -/
def checkpointOffset (store : LogStore) (version : Nat) : Int :=
  match store.lastCheckpoint with
  | some hint => (min hint version : Nat) - 1
  | none => 0

def notFound (path : String) : String := s!"Object at location {path} not found"

/-- The rows of a checkpoint, those of its sidecars after those of the file itself. -/
def readCheckpointRows (store : LogStore) (file : CheckpointFile) :
    DeltaResult (List CheckpointActionRow) := do
  let sidecars ← (file.rows.filterMap CheckpointActionRow.sidecar).mapM fun sidecar =>
    match store.sidecars.get? sidecar.path with
    | some f => .ok f.rows
    | none => .error (notFound sidecar.path)
  return file.rows ++ sidecars.flatten

/-- `latest_version_from_listing`: the newest version that the listing from the hinted
checkpoint speaks of. -/
def latestVersionFromListing (store : LogStore) : Option Nat :=
  let entries := store.listFrom <|
    match store.lastCheckpoint with
    | some hint => (hint : Int) - 1
    | none => 0
  (entries.commits.map CommitFile.version ++ entries.checkpoints.map CheckpointFile.version ++
    entries.compactions.map CompactionFile.endVersion).max?

end LogStore

end Zelox.Delta
