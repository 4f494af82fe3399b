import Zelox.Delta.Segment

/-!
# Replaying the chosen files

The replay loops of `kernel/checkpoints.rs` and the two loaders of
`delta_log/replay.rs`.  Full states and headers are replayed by the same code over
different states (`Replayer`).  Each commit's timestamp is resolved against the
protocol and metadata in force (`resolveCommitTimestampFromActions`), which can fail;
with compactions in the selection the files are merged by version first
(`buildReplaySequence`).
-/

namespace Zelox.Delta

def inCommitTimestampFromActions (actions : List Action) : Option Int64 :=
  actions.findSome? fun
    | .commitInfo info => info.inCommitTimestamp
    | _ => none

/-- The protocol and metadata in force after the actions. -/
def resolveEffectiveProtocolAndMetadata (currentProtocol : Option Protocol)
    (currentMetadata : Option Metadata) (actions : List Action) : Option (Protocol × Metadata) := do
  let protocol ← (actions.reverse.findSome? fun
    | .protocol p => some p
    | _ => none).or currentProtocol
  let metadata ← (actions.reverse.findSome? fun
    | .metadata m => some m
    | _ => none).or currentMetadata
  return (protocol, metadata)

/-- A commit's in-commit timestamp if its version uses them, otherwise its file's modification time.
-/
def resolveCommitTimestampFromActions (version : Nat) (lastModified : Int64)
    (currentProtocol : Option Protocol) (currentMetadata : Option Metadata)
    (actions : List Action) : DeltaResult Int64 :=
  let usesInCommitTimestamp :=
    (resolveEffectiveProtocolAndMetadata currentProtocol currentMetadata actions).any
      fun (protocol, metadata) => versionUsesInCommitTimestamps version protocol metadata
  if usesInCommitTimestamp then
    match inCommitTimestampFromActions actions with
    | some timestamp => .ok timestamp
    | none => .error s!"commit {version} is missing inCommitTimestamp and object metadata fallback is disallowed"
  else .ok lastModified

/-- `resolve_version_timestamp`: what is known already, or else the modification time of the commit,
or the in-commit timestamp in the checksum or the commit. -/
def LogStore.resolveVersionTimestamp (store : LogStore) (version : Nat)
    (cachedTimestamp : Option Int64) (protocol : Protocol) (metadata : Metadata) :
    DeltaResult Int64 :=
  if !versionUsesInCommitTimestamps version protocol metadata then
    match cachedTimestamp, store.commits.get? version with
    | some timestamp, _ => .ok timestamp
    | none, some file => .ok file.lastModified
    | none, none => .error (notFound (toString version))
  else
    match ((cachedTimestamp.or
        ((store.checksums.get? version).bind fun f => f.checksum.inCommitTimestampOpt)).or
        ((store.readCommitEntry version).bind inCommitTimestampFromActions)) with
    | some timestamp => .ok timestamp
    | none => .error s!"commit {version} requires inCommitTimestamp, but neither the checksum nor the commit JSON provided one"

/-- A state that commits are replayed over. -/
structure Replayer (σ : Type) where
  applyAction : σ → Action → σ
  protocol : σ → Option Protocol
  metadata : σ → Option Metadata
  /-- What the loop says it was doing when a commit is missing. -/
  during : String

def checkpointReplayer : Replayer ReconciledCheckpointState where
  applyAction := ReconciledCheckpointState.applyAction
  protocol := ReconciledCheckpointState.protocol
  metadata := ReconciledCheckpointState.metadata
  during := "while building checkpoint"

def headerReplayer : Replayer ReconciledHeaderState where
  applyAction := ReconciledHeaderState.applyAction
  protocol := ReconciledHeaderState.protocol
  metadata := ReconciledHeaderState.metadata
  during := "while replaying table header"

inductive ReplayEntry where
  | commit (file : CommitFile)
  | compaction (file : CompactionFile)

def ReplayEntry.versions : ReplayEntry → List Nat
  | .commit file => [file.version]
  | .compaction file => List.range' file.startVersion (file.endVersion + 1 - file.startVersion)

/-- The loop of `build_replay_sequence`; every round moves `version` on. -/
def replaySequenceLoop (compactionMap : KeyedMap CompactionFile.startVersion) (endVersion : Nat) :
    (rounds version : Nat) → List CommitFile → List ReplayEntry
  | 0, _, _ => []
  | rounds + 1, version, commits =>
    if version ≤ endVersion then
      match compactionMap.get? version with
      | some file =>
        .compaction file :: replaySequenceLoop compactionMap endVersion rounds (file.endVersion + 1)
          (commits.dropWhile fun f => f.version < file.endVersion + 1)
      | none =>
        match commits with
        | [] => []
        | f :: fs =>
          if f.version = version then
            .commit f :: replaySequenceLoop compactionMap endVersion rounds (version + 1) fs
          else replaySequenceLoop compactionMap endVersion rounds (version + 1) (f :: fs)
    else []

def buildReplaySequence (commitEntries : List CommitFile) (compactionEntries : List CompactionFile)
    (startVersion endVersion : Nat) : List ReplayEntry :=
  replaySequenceLoop (KeyedMap.empty.insertAll compactionEntries) endVersion
    (endVersion + 1 - startVersion) startVersion commitEntries

namespace Replayer

variable {σ : Type} (R : Replayer σ)

def applyAll (state : σ) (actions : List Action) : σ := actions.foldl R.applyAction state

/-- One commit: its timestamp is resolved before its actions are applied. -/
def applyCommit (state : σ) (timestamps : Timestamps) (file : CommitFile) :
    DeltaResult (σ × Timestamps) := do
  let timestamp ← resolveCommitTimestampFromActions file.version file.lastModified
    (R.protocol state) (R.metadata state) file.actions
  return (R.applyAll state file.actions, timestamps.insert (file.version, timestamp))

/-- `replay_commit_actions` and `replay_commit_header_actions`. -/
def replayCommits (state : σ) (commitEntries : List CommitFile) (startVersion endVersion : Nat) :
    DeltaResult (σ × Timestamps) :=
  if endVersion < startVersion then .ok (state, .empty)
  else go startVersion state .empty commitEntries
where
  go (expected : Nat) (state : σ) (timestamps : Timestamps) :
      List CommitFile → DeltaResult (σ × Timestamps)
    | [] =>
      let reached : Int := (expected : Int) - 1
      let during := R.during
      if reached ≠ endVersion then
        .error s!"Missing commit file {during}: expected final version {endVersion}, replay reached {reached}"
      else .ok (state, timestamps)
    | f :: fs =>
      let found := f.version
      let during := R.during
      if found < startVersion ∨ endVersion < found then go expected state timestamps fs
      else if found ≠ expected then
        .error s!"Missing commit file {during}: expected version {expected}, found {found}"
      else do
        let (state, timestamps) ← R.applyCommit state timestamps f
        go (expected + 1) state timestamps fs

/-- A compaction stands for every version of its range, with its file's modification time. -/
def applyEntry (state : σ) (timestamps : Timestamps) : ReplayEntry → DeltaResult (σ × Timestamps)
  | .commit file => R.applyCommit state timestamps file
  | .compaction file =>
    .ok (R.applyAll state file.actions, timestamps.insertAll
      ((ReplayEntry.compaction file).versions.map fun v => (v, file.lastModified)))

def applyEntries (state : σ) (timestamps : Timestamps) :
    List ReplayEntry → DeltaResult (σ × Timestamps)
  | [] => .ok (state, timestamps)
  | e :: es => do
    let (state, timestamps) ← R.applyEntry state timestamps e
    applyEntries state timestamps es

/-- `replay_commit_actions_with_compactions` and its header twin. -/
def replayWithCompactions (state : σ) (commitEntries : List CommitFile)
    (compactionEntries : List CompactionFile) (startVersion endVersion : Nat) :
    DeltaResult (σ × Timestamps) :=
  if compactionEntries.isEmpty then R.replayCommits state commitEntries startVersion endVersion
  else R.applyEntries state .empty
    (buildReplaySequence commitEntries compactionEntries startVersion endVersion)

end Replayer

structure ReplayedTableState where
  version : Nat
  protocol : Protocol
  metadata : Metadata
  txns : Txns
  domainMetadata : Domains
  adds : KeyedMap Add.key
  removes : KeyedMap Remove.key
  commitTimestamps : Timestamps

/-- Where the loaders start the replay after a checkpoint: at the first selected commit. -/
def LogSegment.startAfterCheckpoint (segment : LogSegment) (targetVersion : Nat) : Nat :=
  ((segment.commitFiles.head?.map CommitFile.version).or
    (segment.compactionFiles.head?.map CompactionFile.startVersion)).getD (targetVersion + 1)

def ReplayedTableState.ofReplay (version : Nat) (state : ReconciledCheckpointState)
    (commitTimestamps : Timestamps) : DeltaResult ReplayedTableState :=
  match state.protocol, state.metadata with
  | none, _ => .error "Cannot load table state without protocol"
  | some _, none => .error "Cannot load table state without metadata"
  | some protocol, some metadata =>
    .ok { version, protocol, metadata, commitTimestamps
          txns := state.txns, domainMetadata := state.domainMetadata
          adds := state.adds, removes := state.removes }

def ReplayedTableHeader.ofReplay (version : Nat) (state : ReconciledHeaderState)
    (commitTimestamps : Timestamps) : DeltaResult ReplayedTableHeader :=
  match state.protocol, state.metadata with
  | none, _ => .error "Cannot load table header without protocol"
  | some _, none => .error "Cannot load table header without metadata"
  | some protocol, some metadata =>
    .ok { version, protocol, metadata, commitTimestamps
          txns := state.txns, domainMetadata := state.domainMetadata }

def ReconciledHeaderState.fromHeader (header : ReplayedTableHeader) : ReconciledHeaderState :=
  ⟨some header.protocol, some header.metadata, header.txns, header.domainMetadata⟩

/-- A loaded state without its files. -/
def ReplayedTableState.header (loaded : ReplayedTableState) : ReplayedTableHeader where
  version := loaded.version
  protocol := loaded.protocol
  metadata := loaded.metadata
  txns := loaded.txns
  domainMetadata := loaded.domainMetadata
  commitTimestamps := loaded.commitTimestamps

theorem ReplayedTableState.version_of_replay {version : Nat} {state : ReconciledCheckpointState}
    {commitTimestamps : Timestamps} {loaded : ReplayedTableState}
    (h : ofReplay version state commitTimestamps = .ok loaded) : loaded.version = version := by
  unfold ofReplay at h
  split at h <;> cases h
  rfl

theorem ReplayedTableHeader.version_of_replay {version : Nat} {state : ReconciledHeaderState}
    {commitTimestamps : Timestamps} {header : ReplayedTableHeader}
    (h : ofReplay version state commitTimestamps = .ok header) : header.version = version := by
  unfold ofReplay at h
  split at h <;> cases h
  rfl

namespace LogStore

/-- The state of the segment's checkpoint and the version at which the replay starts. -/
def baseState (store : LogStore) (segment : LogSegment) (version : Nat) :
    DeltaResult (ReconciledCheckpointState × Nat) :=
  match segment.checkpoint with
  | some file => do
    let rows ← store.readCheckpointRows file
    return (ReconciledCheckpointState.default.applyRows rows, segment.startAfterCheckpoint version)
  | none => .ok (ReconciledCheckpointState.default, 0)

def loadReplayedTableState (store : LogStore) (version : Nat) : DeltaResult ReplayedTableState := do
  let segment ← store.resolveForFullState version
  let base ← store.baseState segment version
  let replayed ← checkpointReplayer.replayWithCompactions base.1 segment.commitFiles
    segment.compactionFiles base.2 version
  ReplayedTableState.ofReplay version replayed.1 replayed.2

/-- The header a replay starts from, its first version, and the timestamps known. -/
def baseHeader (base : ReplayedTableHeader) (segment : LogSegment) (version : Nat) :
    ReconciledHeaderState × Nat × Timestamps :=
  match segment.checkpoint with
  | some file =>
    (ReconciledHeaderState.default.applyRows file.rows, segment.startAfterCheckpoint version, .empty)
  | none => (.fromHeader base, base.version + 1, base.commitTimestamps)

/-- The header path of the loader once a base is known. -/
def replayHeader (base : ReplayedTableHeader) (segment : LogSegment) (version : Nat) :
    DeltaResult ReplayedTableHeader :=
  let (state, startCommitVersion, commitTimestamps) := baseHeader base segment version
  if startCommitVersion ≤ version then do
    let replayed ← headerReplayer.replayWithCompactions state segment.commitFiles
      segment.compactionFiles startCommitVersion version
    ReplayedTableHeader.ofReplay version replayed.1 (commitTimestamps.insertAll replayed.2.entries)
  else ReplayedTableHeader.ofReplay version state commitTimestamps

def loadReplayedTableHeader (store : LogStore) (version : Nat)
    (replayHint : Option ReplayedTableHeader) : DeltaResult (Option ReplayedTableHeader) := do
  match ← store.resolveForHeader version replayHint with
  | .exactChecksum header => return some header
  | .incremental base segment =>
    let header ← replayHeader base segment version
    return some header
  -- no usable base: the caller falls back to the full replay
  | .fullReplay _ => return none

theorem version_of_load {store : LogStore} {version : Nat} {loaded : ReplayedTableState}
    (h : store.loadReplayedTableState version = .ok loaded) : loaded.version = version := by
  obtain ⟨_, -, h⟩ := Results.bind_eq_ok.mp h
  obtain ⟨_, -, h⟩ := Results.bind_eq_ok.mp h
  obtain ⟨_, -, h⟩ := Results.bind_eq_ok.mp h
  exact ReplayedTableState.version_of_replay h

theorem version_of_loadHeader {store : LogStore} {version : Nat}
    {replayHint : Option ReplayedTableHeader} {header : ReplayedTableHeader}
    (h : store.loadReplayedTableHeader version replayHint = .ok (some header)) :
    header.version = version := by
  obtain ⟨resolved, hresolved, h⟩ := Results.bind_eq_ok.mp h
  cases resolved with
  | exactChecksum exact =>
    cases h
    obtain ⟨_, hvalid⟩ := resolveForHeader_exact hresolved
    exact version_of_validate hvalid
  | fullReplay segment => cases h
  | incremental base segment =>
    obtain ⟨header', hreplay, h⟩ := Results.bind_eq_ok.mp h
    cases h
    unfold replayHeader at hreplay
    dsimp only at hreplay
    split at hreplay
    · obtain ⟨_, -, h⟩ := Results.bind_eq_ok.mp hreplay
      exact ReplayedTableHeader.version_of_replay h
    · exact ReplayedTableHeader.version_of_replay hreplay

end LogStore

end Zelox.Delta
