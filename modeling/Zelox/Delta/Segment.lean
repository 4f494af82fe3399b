import Zelox.Delta.Log
import Mathlib.Data.List.Sort

/-!
# Choosing the files of a replay

`delta_log/segment.rs`: which checkpoint, commits and compactions rebuild a version.
The resolver lists the log from just before the hinted checkpoint, starts from the
newest checkpoint it sees (or, for headers, from a checksum or a snapshot that is
newer), prefers compactions over the commits they cover, and refuses a selection that
does not cover every version up to the target.
-/

namespace Zelox.Delta

/-- What a header replay starts from and returns. -/
structure ReplayedTableHeader where
  version : Nat
  protocol : Protocol
  metadata : Metadata
  txns : Txns
  domainMetadata : Domains
  commitTimestamps : Timestamps

/-- The selected files. -/
structure LogSegment where
  checkpoint : Option CheckpointFile
  commitFiles : List CommitFile
  compactionFiles : List CompactionFile

inductive ResolvedLogSegment where
  | exactChecksum (header : ReplayedTableHeader)
  | incremental (base : ReplayedTableHeader) (segment : LogSegment)
  | fullReplay (segment : LogSegment)

def versionUsesInCommitTimestamps (version : Nat) (protocol : Protocol) (metadata : Metadata) :
    Bool :=
  protocol.isInCommitTimestampsEnabled metadata.configuration &&
    match metadata.configuration.inCommitTimestampEnablementVersion with
    | some enablementVersion => decide (enablementVersion ≤ version)
    | none => true

/-- A checksum's header; checksums that do not count one protocol and one metadata are
not used. -/
def validateAndBuildHeader (version : Nat) (checksum : VersionChecksum) :
    Option ReplayedTableHeader :=
  if checksum.numMetadata ≠ 1 ∨ checksum.numProtocol ≠ 1 then none
  else some {
    version
    protocol := checksum.protocol
    metadata := checksum.metadata
    txns := KeyedMap.empty.insertAll (checksum.setTransactions.getD [])
    domainMetadata := KeyedMap.empty.insertAll (checksum.domainMetadata.getD [])
    commitTimestamps :=
      if versionUsesInCommitTimestamps version checksum.protocol checksum.metadata then
        KeyedMap.empty.insertAll
          (checksum.inCommitTimestampOpt.toList.map fun timestamp => (version, timestamp))
      else .empty }

theorem version_of_validate {v : Nat} {checksum : VersionChecksum} {header : ReplayedTableHeader}
    (h : validateAndBuildHeader v checksum = some header) : header.version = v := by
  unfold validateAndBuildHeader at h
  split at h
  · cases h
  · cases h
    rfl

def tryReadChecksumHeader (store : LogStore) (version : Nat) : Option ReplayedTableHeader := do
  let file ← store.checksums.get? version
  validateAndBuildHeader version file.checksum

/-- The newest of the checkpoints, and of its files the first by name. -/
def newestCheckpoint (candidates : List CheckpointFile) : Option CheckpointFile := do
  let latest ← (candidates.map CheckpointFile.version).max?
  let files := candidates.filter fun f => f.version = latest
  (files.insertionSort fun a b => a.name ≤ b.name).head?

structure LogFiles where
  checksums : List ChecksumFile
  checkpoint : Option CheckpointFile
  commits : List CommitFile
  compactions : List CompactionFile

/-- `list_log_files`: checksums from the newest down, commits and compactions upwards. -/
def listLogFiles (store : LogStore) (listOffset : Int) (maxVersion : Nat) : LogFiles :=
  let entries := store.listFrom listOffset
  { checksums := (entries.checksums.filter fun f => f.version ≤ maxVersion).insertionSort
      fun a b => b.version ≤ a.version
    checkpoint := newestCheckpoint (entries.checkpoints.filter fun f => f.version ≤ maxVersion)
    commits := (entries.commits.filter fun f => f.version ≤ maxVersion).insertionSort
      fun a b => a.version ≤ b.version
    compactions := (entries.compactions.filter fun f => f.endVersion ≤ maxVersion).insertionSort
      fun a b => a.startVersion ≤ b.startVersion }

def validateCommitContiguity (commitFiles : List CommitFile) (startVersion endVersion : Nat) :
    DeltaResult Unit :=
  if endVersion < startVersion then .ok () else go startVersion commitFiles
where
  go (expected : Nat) : List CommitFile → DeltaResult Unit
    | [] =>
      let reached : Int := (expected : Int) - 1
      if reached ≠ endVersion then
        .error s!"Missing commit file: expected final version {endVersion}, replay reached {reached}"
      else .ok ()
    | f :: fs =>
      let found := f.version
      if found < startVersion ∨ endVersion < found then go expected fs
      else if found ≠ expected then
        .error s!"Missing commit file: expected version {expected}, found {found}"
      else go (expected + 1) fs

/-- The compactions that lie within the range. -/
def filterCompactionsForRange (compactions : List CompactionFile) (startVersion endVersion : Nat) :
    List CompactionFile :=
  compactions.filter fun f => startVersion ≤ f.startVersion ∧ f.endVersion ≤ endVersion

/-- Greedy choice from the newest down: `boundary` is the lowest version covered so far. -/
def selectCompactions : Option Nat → List CompactionFile → List CompactionFile
  | _, [] => []
  | none, f :: fs => f :: selectCompactions (some f.startVersion) fs
  | some boundary, f :: fs =>
    if boundary ≤ f.endVersion then selectCompactions (some boundary) fs
    else f :: selectCompactions (some f.startVersion) fs

def isCovered (selected : List CompactionFile) (version : Nat) : Bool :=
  selected.any fun f => decide (f.startVersion ≤ version ∧ version ≤ f.endVersion)

def resolveCompactions (commitFiles : List CommitFile) (compactionFiles : List CompactionFile) :
    List CommitFile × List CompactionFile :=
  if compactionFiles.isEmpty then (commitFiles, [])
  else
    let selected := selectCompactions none <|
      compactionFiles.insertionSort fun a b => b.endVersion ≤ a.endVersion
    (commitFiles.filter fun f => !isCovered selected f.version,
      selected.insertionSort fun a b => a.startVersion ≤ b.startVersion)

/-- Commits and compactions as the ranges they cover, in order of their first versions. -/
def coverageIntervals (commitFiles : List CommitFile) (compactionFiles : List CompactionFile)
    (startVersion endVersion : Nat) : List (Nat × Nat) :=
  (((commitFiles.filter fun f => startVersion ≤ f.version ∧ f.version ≤ endVersion).map
      fun f => (f.version, f.version)) ++
    compactionFiles.map CompactionFile.range).insertionSort fun a b => a.1 ≤ b.1

def validateCommitContiguityWithCompactions (commitFiles : List CommitFile)
    (compactionFiles : List CompactionFile) (startVersion endVersion : Nat) : DeltaResult Unit :=
  if endVersion < startVersion then .ok ()
  else if compactionFiles.isEmpty then
    validateCommitContiguity commitFiles startVersion endVersion
  else go startVersion (coverageIntervals commitFiles compactionFiles startVersion endVersion)
where
  go (expected : Nat) : List (Nat × Nat) → DeltaResult Unit
    | [] =>
      let reached : Int := (expected : Int) - 1
      if reached ≠ endVersion then
        .error s!"Missing commit file: expected final version {endVersion}, replay reached {reached}"
      else .ok ()
    | (s, e) :: is =>
      if s ≠ expected then
        .error s!"Missing commit file: expected version {expected}, found gap at {s}"
      else go (e + 1) is

/-- The files between `startVersion` and `version`, compactions resolved. -/
def selectFiles (files : LogFiles) (checkpoint : Option CheckpointFile)
    (startVersion version : Nat) : LogSegment :=
  let commitFiles := files.commits.filter fun f => startVersion ≤ f.version ∧ f.version ≤ version
  let compactionFiles := filterCompactionsForRange files.compactions startVersion version
  let resolved := resolveCompactions commitFiles compactionFiles
  ⟨checkpoint, resolved.1, resolved.2⟩

/-- The version after a checkpoint, or the first one. -/
def versionAfter (checkpoint : Option CheckpointFile) : Nat :=
  checkpoint.elim 0 fun file => file.version + 1

namespace LogStore

def resolveForFullState (store : LogStore) (version : Nat) : DeltaResult LogSegment := do
  let files := listLogFiles store (store.checkpointOffset version) version
  let startVersion := versionAfter files.checkpoint
  let segment := selectFiles files files.checkpoint startVersion version
  validateCommitContiguityWithCompactions segment.commitFiles segment.compactionFiles
    startVersion version
  return segment

def checksumLookbackWindow : Int := 100

def resolveForHeader (store : LogStore) (version : Nat) (replayHint : Option ReplayedTableHeader) :
    DeltaResult ResolvedLogSegment :=
  match tryReadChecksumHeader store version with
  | some header => .ok (.exactChecksum header)
  | none => do
    let hintFloor : Int := replayHint.elim 0 fun h => (h.version : Int) + 1
    let lowerBound := max ((version : Int) - checksumLookbackWindow) hintFloor
    let files := listLogFiles store (min lowerBound (store.checkpointOffset version)) version
    -- the newest checksum in the window that can be used
    let olderCrcBase := files.checksums.findSome? fun f =>
      if (f.version : Int) < lowerBound ∨ version ≤ f.version then none
      else validateAndBuildHeader f.version f.checksum
    match olderCrcBase.or replayHint with
    | none =>
      return .fullReplay
        (selectFiles files files.checkpoint (versionAfter files.checkpoint) version)
    | some base =>
      let checkpoint := files.checkpoint.filter fun file => base.version < file.version
      let startVersion := checkpoint.elim (base.version + 1) fun file => file.version + 1
      let segment := selectFiles files checkpoint startVersion version
      validateCommitContiguityWithCompactions segment.commitFiles segment.compactionFiles
        startVersion version
      return .incremental base segment

theorem resolveForHeader_exact {store : LogStore} {version : Nat}
    {replayHint : Option ReplayedTableHeader} {header : ReplayedTableHeader}
    (h : store.resolveForHeader version replayHint = .ok (.exactChecksum header)) :
    ∃ checksum, validateAndBuildHeader version checksum = some header := by
  unfold resolveForHeader at h
  split at h
  next hread =>
    cases h
    obtain ⟨file, -, hvalid⟩ := Option.bind_eq_some_iff.mp hread
    exact ⟨file.checksum, hvalid⟩
  next =>
    dsimp only at h
    split at h
    · cases h
    · obtain ⟨_, -, heq⟩ := Results.bind_eq_ok.mp h
      cases heq

end LogStore

end Zelox.Delta
