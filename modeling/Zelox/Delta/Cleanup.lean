import Zelox.Delta.Load
import Zelox.Delta.Snapshot

/-!
# Deleting expired log files

`delta_log/cleanup.rs`: the newest commit at or before the cutoff is looked for, then
the newest checkpoint at or below it, and everything older than that checkpoint is
deleted.  The directory is listed anew for every step, and a listing passes over entries
that it cannot read, so each step has its own part of the files in view (`CleanupRun`).

Whatever the listings show, the files from the boundary on stay (`Keeps`), so a version
at or above it is rebuilt from what is left (`Keeps.rebuilds`), and nothing else is
rebuilt than before (`Keeps.rebuilds_before`).
-/

namespace Zelox.Delta

open Results List

/-- `DeltaLogFile`: the kinds of file that a cleanup looks at. -/
inductive LogFile where
  | commit (file : CommitFile)
  | checksum (file : ChecksumFile)
  | checkpoint (file : CheckpointFile)
  | compaction (file : CompactionFile)

namespace LogFile

def version : LogFile → Nat
  | commit file => file.version
  | checksum file => file.version
  | checkpoint file => file.version
  | compaction file => file.startVersion

/-- A compaction expires with the last version it stands for. -/
def expiresBefore (file : LogFile) (retentionCheckpointVersion : Nat) : Bool :=
  match file with
  | compaction f => f.endVersion < retentionCheckpointVersion
  | _ => file.version < retentionCheckpointVersion

def commit? : LogFile → Option CommitFile
  | commit file => some file
  | _ => none

def checkpoint? : LogFile → Option CheckpointFile
  | checkpoint file => some file
  | _ => none

theorem checkpoint?_eq_some {file : LogFile} {f : CheckpointFile} :
    file.checkpoint? = some f ↔ file = .checkpoint f := by
  cases file <;> simp [checkpoint?]

end LogFile

def checkpointClassicName : String := ".checkpoint.parquet"

/-- `Uuid::parse_str` accepts the text: of 36 characters, only the hyphenated form. -/
def isUuid (text : List Char) : Bool :=
  text.length = 36 && text.zipIdx.all fun (c, i) =>
    if i ∈ [8, 13, 18, 23] then c = '-' else c ∈ "0123456789abcdefABCDEF".toList

/-- `is_uuid_checkpoint_filename`, of what follows the version in a name. -/
def isUuidCheckpointFilename (name : String) : Bool :=
  let extensionLen :=
    if ".parquet".toList.isSuffixOf name.toList then some 8
    else if ".json".toList.isSuffixOf name.toList then some 5
    else none
  extensionLen.any fun n =>
    ".checkpoint.".toList.isPrefixOf name.toList && name.toList.length = 12 + 36 + n &&
      isUuid ((name.toList.drop 12).take 36)

structure LogRetentionWindow where
  latestVersion : Nat
  cutoffTimestamp : Int64

namespace LogRetentionWindow

def includesCommit (retention : LogRetentionWindow) (versionTimestamp : Int64) (version : Nat) :
    Bool :=
  version ≤ retention.latestVersion && versionTimestamp ≤ retention.cutoffTimestamp

def includesCheckpoint (retention : LogRetentionWindow) (version : Nat) : Bool :=
  version ≤ retention.latestVersion

end LogRetentionWindow

structure RetentionCleanupBoundary where
  cutoffCommitVersion : Option Nat := none
  checkpointVersions : List Nat := []

namespace RetentionCleanupBoundary

def observeCheckpoint (boundary : RetentionCleanupBoundary) (version : Nat)
    (retention : LogRetentionWindow) : RetentionCleanupBoundary :=
  if retention.includesCheckpoint version then
    { boundary with checkpointVersions := boundary.checkpointVersions.insert version }
  else boundary

def observeCommit (boundary : RetentionCleanupBoundary) (version : Nat) (versionTimestamp : Int64)
    (retention : LogRetentionWindow) : RetentionCleanupBoundary :=
  if retention.includesCommit versionTimestamp version then
    { boundary with cutoffCommitVersion := max boundary.cutoffCommitVersion (some version) }
  else boundary

/-- The newest checkpoint at or below the newest expired commit. -/
def retentionCheckpointVersion (boundary : RetentionCleanupBoundary) : Option Nat := do
  let cutoffCommitVersion ← boundary.cutoffCommitVersion
  (boundary.checkpointVersions.filter (· ≤ cutoffCommitVersion)).max?

end RetentionCleanupBoundary

/-- What the object store does in one cleanup. -/
structure CleanupRun where
  /-- Entries of the listing for the boundary that can be read. -/
  boundaryListed : LogFile → Bool
  /-- Whether a classic checkpoint is seen if there is one. -/
  classicSeen : Bool
  compatListed : LogFile → Bool
  /-- How the copy to the classic name fails, if it does. -/
  copyError : Option String
  deletionListed : LogFile → Bool
  /-- The files whose deletion goes through. -/
  deleted : LogFile → Bool
  deletionError : String
  /-- Checkpoints that the collection of sidecars finds and can read. -/
  sidecarListed : LogFile → Bool
  /-- Sidecars that are listed, a day old, and go away if they are deleted. -/
  collected : SidecarFile → Bool

/-- What follows the last slash of a sidecar's location. -/
def SidecarFile.fileName (f : SidecarFile) : String :=
  String.ofList (f.path.toList.reverse.takeWhile (· ≠ '/')).reverse

namespace LogStore

/-- The files of the log that have a name a cleanup knows. -/
def files (store : LogStore) : List LogFile :=
  store.commits.entries.map .commit ++ store.checksums.entries.map .checksum ++
    store.checkpoints.entries.map .checkpoint ++
    (store.compactions.entries.filter fun f => f.startVersion < f.endVersion).map .compaction

/-- Keeps the files that satisfy `p`. -/
def keep (store : LogStore) (p : LogFile → Bool) : LogStore :=
  { store with
    commits := store.commits.filter fun f => p (.commit f)
    checksums := store.checksums.filter fun f => p (.checksum f)
    checkpoints := store.checkpoints.filter fun f => p (.checkpoint f)
    compactions := store.compactions.filter fun f =>
      p (.compaction f) || f.endVersion ≤ f.startVersion }

def findRetentionCheckpointVersion (store : LogStore) (tableState : DeltaSnapshot)
    (listed : List LogFile) (retention : LogRetentionWindow) : DeltaResult (Option Nat) := do
  let boundary : RetentionCleanupBoundary := (listed.filterMap LogFile.checkpoint?).foldl
    (fun boundary f => boundary.observeCheckpoint f.version retention) {}
  let commitEntries := ((listed.filterMap LogFile.commit?).filter fun f =>
    f.version ≤ retention.latestVersion).insertionSort fun a b => a.version ≤ b.version
  let boundary ← commitEntries.foldlM (fun boundary f => do
    let versionTimestamp ← store.resolveVersionTimestamp f.version
      (tableState.versionTimestamp f.version) tableState.protocol tableState.metadata
    return boundary.observeCommit f.version versionTimestamp retention) boundary
  return boundary.retentionCheckpointVersion

/-- `ensure_v2_compat_classic_checkpoint`: a UUID-named checkpoint is copied to the classic name. -/
def ensureV2CompatClassicCheckpoint (store : LogStore) (run : CleanupRun) (version : Nat) :
    DeltaResult LogStore :=
  if run.classicSeen && (store.checkpoints.get? (version, checkpointClassicName)).isSome then
    .ok store
  else
    match ((store.files.filter run.compatListed).filterMap LogFile.checkpoint?).find? fun f =>
        isUuidCheckpointFilename f.name && f.version = version, run.copyError with
    | none, _ => .ok store
    | some f, none =>
      .ok { store with checkpoints := store.checkpoints.insert { f with name := checkpointClassicName } }
    | some _, some error => .error error

/-- Each listed file that has expired is deleted; the first failure is reported. -/
def deleteLogsBeforeCheckpointVersion (store : LogStore) (run : CleanupRun)
    (retentionCheckpointVersion : Nat) : DeltaResult Nat × LogStore :=
  let expired := fun file : LogFile =>
    run.deletionListed file && file.expiresBefore retentionCheckpointVersion
  let locations := store.files.filter expired
  (if locations.all run.deleted then .ok locations.length else .error run.deletionError,
    store.keep fun file => !(expired file && run.deleted file))

/-- Deletes sidecars that no checkpoint with a UUID in its name refers to. -/
def cleanupOrphanedSidecars (store : LogStore) (run : CleanupRun) : Nat × LogStore :=
  let uuidCheckpoints := ((store.files.filter run.sidecarListed).filterMap
    LogFile.checkpoint?).filter fun f => isUuidCheckpointFilename f.name
  let referencedSidecars := (uuidCheckpoints.flatMap fun f =>
    f.rows.filterMap CheckpointActionRow.sidecar).map Sidecar.path
  let orphan := fun f : SidecarFile => !referencedSidecars.contains f.fileName && run.collected f
  ((store.sidecars.entries.filter orphan).length,
    { store with sidecars := store.sidecars.filter fun f => !orphan f })

/-- `cleanup_expired_delta_log_files`: the number of deleted files, and the log afterwards. -/
def cleanupExpiredDeltaLogFiles (store : LogStore) (tableState : DeltaSnapshot)
    (cutoffTimestamp : Int64) (run : CleanupRun) : DeltaResult Nat × LogStore :=
  match store.findRetentionCheckpointVersion tableState (store.files.filter run.boundaryListed)
      ⟨tableState.version, cutoffTimestamp⟩ with
  | .error e => (.error e, store)
  | .ok none => (.ok 0, store)
  | .ok (some retentionCheckpointVersion) =>
    match store.ensureV2CompatClassicCheckpoint run retentionCheckpointVersion with
    | .error e => (.error e, store)
    | .ok store =>
      match store.deleteLogsBeforeCheckpointVersion run retentionCheckpointVersion with
      | (.error e, store) => (.error e, store)
      | (.ok deletedLogs, store) =>
        let sidecars := store.cleanupOrphanedSidecars run
        (.ok (deletedLogs + sidecars.1), sidecars.2)

theorem mem_files_checkpoint {store : LogStore} {f : CheckpointFile} :
    .checkpoint f ∈ store.files ↔ f ∈ store.checkpoints.entries := by
  simp [files]

/-- The timestamp of a version, as a table state resolves it. -/
def timestampOf (store : LogStore) (tableState : DeltaSnapshot) (version : Nat) :
    DeltaResult Int64 :=
  store.resolveVersionTimestamp version (tableState.versionTimestamp version) tableState.protocol
    tableState.metadata

/-! ### The boundary -/

/-- What a boundary has been told so far. -/
structure BoundaryOf (store : LogStore) (tableState : DeltaSnapshot) (retention : LogRetentionWindow)
    (boundary : RetentionCleanupBoundary) : Prop where
  commit : ∀ v ∈ boundary.cutoffCommitVersion, v ≤ retention.latestVersion ∧
    ∃ t, store.timestampOf tableState v = .ok t ∧ t ≤ retention.cutoffTimestamp
  checkpoints : ∀ v ∈ boundary.checkpointVersions, ∃ f ∈ store.checkpoints.entries, f.version = v

namespace BoundaryOf

variable {store : LogStore} {tableState : DeltaSnapshot} {retention : LogRetentionWindow}
  {boundary : RetentionCleanupBoundary}

theorem observeCheckpoint (h : store.BoundaryOf tableState retention boundary) {f : CheckpointFile}
    (hf : f ∈ store.checkpoints.entries) :
    store.BoundaryOf tableState retention (boundary.observeCheckpoint f.version retention) := by
  unfold RetentionCleanupBoundary.observeCheckpoint
  split
  · refine ⟨h.commit, fun v hv => ?_⟩
    rcases mem_insert_iff.mp hv with rfl | hv
    · exact ⟨f, hf, rfl⟩
    · exact h.checkpoints v hv
  · exact h

theorem observeCommit (h : store.BoundaryOf tableState retention boundary) {version : Nat}
    {t : Int64} (ht : store.timestampOf tableState version = .ok t) :
    store.BoundaryOf tableState retention (boundary.observeCommit version t retention) := by
  unfold RetentionCleanupBoundary.observeCommit
  split
  next hincl =>
    simp only [LogRetentionWindow.includesCommit, Bool.and_eq_true, decide_eq_true_eq] at hincl
    refine ⟨fun v hv => ?_, h.checkpoints⟩
    -- the larger one is the old boundary or the version observed
    have hmax : boundary.cutoffCommitVersion = some v ∨ version = v := by
      cases hb : boundary.cutoffCommitVersion with
      | none =>
        rw [hb] at hv
        exact .inr (Option.some.inj hv)
      | some b =>
        rw [hb] at hv
        have hv : max b version = v := Option.some.inj hv
        rw [Option.some.injEq]
        omega
    rcases hmax with hb | rfl
    · exact h.commit v hb
    · exact ⟨hincl.1, t, ht, hincl.2⟩
  · exact h

end BoundaryOf

variable {store store' : LogStore} {tableState : DeltaSnapshot}

/-- The boundary is a checkpoint at or below a version not later than the cutoff. -/
theorem findRetentionCheckpointVersion_ok {listed : List LogFile} {retention : LogRetentionWindow}
    {c : Nat} (hlisted : ∀ file ∈ listed, file ∈ store.files)
    (h : store.findRetentionCheckpointVersion tableState listed retention = .ok (some c)) :
    (∃ f ∈ store.checkpoints.entries, f.version = c) ∧
      ∃ v t, c ≤ v ∧ v ≤ retention.latestVersion ∧ store.timestampOf tableState v = .ok t ∧
        t ≤ retention.cutoffTimestamp := by
  obtain ⟨boundary, hfold, hpure⟩ := bind_eq_ok.mp h
  have hinit : store.BoundaryOf tableState retention
      ((listed.filterMap LogFile.checkpoint?).foldl
        (fun boundary f => boundary.observeCheckpoint f.version retention) {}) := by
    have hempty : store.BoundaryOf tableState retention {} := by
      constructor
      · intro v hv
        cases hv
      · intro v hv
        cases hv
    refine List.foldlRecOn _ _ hempty fun boundary hb f hf => ?_
    obtain ⟨file, hfile, hcp⟩ := mem_filterMap.mp hf
    rw [LogFile.checkpoint?_eq_some] at hcp
    subst hcp
    exact hb.observeCheckpoint (mem_files_checkpoint.mp (hlisted _ hfile))
  have hboundary : store.BoundaryOf tableState retention boundary := by
    refine foldlM_inv (fun b hb f _ b' hstep => ?_) hinit hfold
    obtain ⟨t, ht, hpure⟩ := bind_eq_ok.mp hstep
    cases hpure
    exact hb.observeCommit ht
  obtain ⟨v, hv, hmax⟩ := Option.bind_eq_some_iff.mp (Except.ok.inj hpure)
  have hc := mem_filter.mp (max?_mem hmax)
  obtain ⟨hlatest, t, ht, hcut⟩ := hboundary.commit v hv
  exact ⟨hboundary.checkpoints c hc.1, v, t, by simpa using hc.2, hlatest, ht, hcut⟩

/-! ### What stays -/

/-- The checkpoint is one file: it refers to no sidecars. -/
def SingleFile (file : CheckpointFile) : Prop :=
  file.rows.filterMap CheckpointActionRow.sidecar = []

theorem readCheckpointRows_of_singleFile {file : CheckpointFile} (h : SingleFile file) :
    store.readCheckpointRows file = .ok file.rows := by
  unfold readCheckpointRows
  rw [h]
  simp [pure, Except.pure, bind, Except.bind]

/-- `state` is what a checkpoint at or below `version`, or none, and all commits after it give. -/
def Rebuilds (store : LogStore) (version : Nat) (state : ReconciledCheckpointState) : Prop :=
  ∃ checkpoint : Option CheckpointFile,
    (∀ file ∈ checkpoint, file ∈ store.checkpoints.entries ∧ file.version ≤ version ∧
      (store.readCheckpointRows file).isOk) ∧
    (∀ v, versionAfter checkpoint ≤ v → v ≤ version → (store.commits.get? v).isSome) ∧
    state = store.rebuilt checkpoint version

/-- From `c` on `store'` has what `store` has, and it has nothing else below. -/
structure Keeps (c : Nat) (store store' : LogStore) : Prop where
  commits : ∀ v, c ≤ v → store'.commits.get? v = store.commits.get? v
  commits_before : ∀ v f, store'.commits.get? v = some f → store.commits.get? v = some f
  checkpoints : ∀ f ∈ store.checkpoints.entries, c ≤ f.version →
    ∃ f' ∈ store'.checkpoints.entries, f'.version = f.version
  /-- Under another name, perhaps. -/
  checkpoints_before : ∀ f' ∈ store'.checkpoints.entries,
    ∃ f ∈ store.checkpoints.entries, f.version = f'.version ∧ f.rows = f'.rows

namespace Keeps

variable {c : Nat} {store'' : LogStore}

protected theorem refl (c : Nat) (store : LogStore) : Keeps c store store where
  commits _ _ := rfl
  commits_before _ _ h := h
  checkpoints f hf _ := ⟨f, hf, rfl⟩
  checkpoints_before f hf := ⟨f, hf, rfl, rfl⟩

protected theorem trans (h : Keeps c store store') (h' : Keeps c store' store'') :
    Keeps c store store'' where
  commits v hv := (h'.commits v hv).trans (h.commits v hv)
  commits_before v f hf := h.commits_before v f (h'.commits_before v f hf)
  checkpoints f hf hc := by
    obtain ⟨f', hf', heq⟩ := h.checkpoints f hf hc
    obtain ⟨f'', hf'', heq'⟩ := h'.checkpoints f' hf' (heq ▸ hc)
    exact ⟨f'', hf'', heq'.trans heq⟩
  checkpoints_before f'' hf'' := by
    obtain ⟨f', hf', hv', hr'⟩ := h'.checkpoints_before f'' hf''
    obtain ⟨f, hf, hv, hr⟩ := h.checkpoints_before f' hf'
    exact ⟨f, hf, hv.trans hv', hr.trans hr'⟩

section

variable (h : Keeps c store store') (hsingle : ∀ f ∈ store.checkpoints.entries, SingleFile f)
include h hsingle

theorem singleFile :
    ∀ f ∈ store'.checkpoints.entries, SingleFile f := by
  intro f' hf'
  obtain ⟨f, hf, -, hrows⟩ := h.checkpoints_before f' hf'
  show f'.rows.filterMap _ = []
  rw [← hrows]
  exact hsingle f hf

theorem rebuilds (hc : ∃ f ∈ store.checkpoints.entries, f.version = c) {version : Nat}
    (hle : c ≤ version) (hbefore : ∃ state, store.Rebuilds version state) :
    ∃ state, store'.Rebuilds version state := by
  obtain ⟨-, checkpoint, hcp, hcommits, -⟩ := hbefore
  -- any checkpoint that is still there and has the commits after it will do
  have hfrom : ∀ f ∈ store.checkpoints.entries, c ≤ f.version → f.version ≤ version →
      (∀ v, f.version + 1 ≤ v → v ≤ version → (store.commits.get? v).isSome) →
      ∃ state, store'.Rebuilds version state := by
    intro f hf hcf hfv hafter
    obtain ⟨f', hf', hv'⟩ := h.checkpoints f hf hcf
    refine ⟨_, some f', ?_, ?_, rfl⟩
    · rintro _ ⟨⟩
      rw [readCheckpointRows_of_singleFile (h.singleFile hsingle f' hf')]
      exact ⟨hf', by omega, rfl⟩
    · intro v hv hvv
      simp only [versionAfter, Option.elim_some] at hv
      rw [h.commits v (by omega)]
      exact hafter v (by omega) hvv
  rcases Nat.lt_or_ge c (versionAfter checkpoint) with hlt | hge
  · cases checkpoint with
    | none => cases hlt
    | some f =>
      obtain ⟨hf, hfv, -⟩ := hcp f rfl
      simp only [versionAfter, Option.elim_some] at hlt hcommits
      exact hfrom f hf (by omega) hfv hcommits
  · obtain ⟨f, hf, rfl⟩ := hc
    exact hfrom f hf (le_rfl) hle fun v hv hvv => hcommits v (by omega) hvv

theorem rebuilds_before {version : Nat} {state : ReconciledCheckpointState}
    (hafter : store'.Rebuilds version state) :
    store.Rebuilds version state := by
  obtain ⟨checkpoint, hcp, hcommits, rfl⟩ := hafter
  have hcommits' : ∀ v, versionAfter checkpoint ≤ v → v ≤ version →
      store.commits.get? v = store'.commits.get? v := by
    intro v hv hvv
    obtain ⟨f, hf⟩ := Option.isSome_iff_exists.mp (hcommits v hv hvv)
    rw [hf]
    exact h.commits_before v f hf
  have hactions : store'.rangeActions (versionAfter checkpoint)
      (version + 1 - versionAfter checkpoint) = store.rangeActions (versionAfter checkpoint)
        (version + 1 - versionAfter checkpoint) := by
    refine flatMap_congr fun v hv => ?_
    obtain ⟨hfirst, hlast⟩ := mem_range'_1.mp hv
    simp only [commitActions, readCommitEntry, hcommits' v hfirst (by omega)]
  cases checkpoint with
  | none =>
    refine ⟨none, by simp, fun v hv hvv => ?_, ?_⟩
    · rw [hcommits' v hv hvv]
      exact hcommits v hv hvv
    · unfold rebuilt
      rw [hactions]
      rfl
  | some f' =>
    obtain ⟨hf', hfv, -⟩ := hcp f' rfl
    obtain ⟨f, hf, hv, hrows⟩ := h.checkpoints_before f' hf'
    have hafter : versionAfter (some f) = versionAfter (some f') := by simp [versionAfter, hv]
    refine ⟨some f, ?_, ?_, ?_⟩
    · rintro _ ⟨⟩
      rw [readCheckpointRows_of_singleFile (hsingle f hf)]
      exact ⟨hf, by omega, rfl⟩
    · intro v hv hvv
      rw [hafter] at hv
      rw [hcommits' v hv hvv]
      exact hcommits v hv hvv
    · unfold rebuilt
      rw [hactions, hafter]
      simp only [checkpointState, readCheckpointRows_of_singleFile (hsingle f hf), hrows,
        readCheckpointRows_of_singleFile (h.singleFile hsingle f' hf')]

end

end Keeps

theorem ensureV2CompatClassicCheckpoint_keeps {run : CleanupRun} {c : Nat}
    (h : store.ensureV2CompatClassicCheckpoint run c = .ok store') (version : Nat) :
    Keeps version store store' := by
  unfold ensureV2CompatClassicCheckpoint at h
  split at h
  · cases h
    exact Keeps.refl _ _
  · split at h
    next => cases h; exact Keeps.refl _ _
    next f hfind _ =>
      cases h
      obtain ⟨file, hfile, hcp⟩ := mem_filterMap.mp (mem_of_find?_eq_some hfind)
      rw [LogFile.checkpoint?_eq_some] at hcp
      subst hcp
      have hf : f ∈ store.checkpoints.entries := mem_files_checkpoint.mp (mem_filter.mp hfile).1
      refine ⟨fun _ _ => rfl, fun _ _ h => h, fun g hg _ => ?_, fun g hg => ?_⟩
      · -- `g` itself, unless the copy has taken its name
        by_cases hloc : g.location = (⟨f.version, checkpointClassicName, f.rows⟩ : CheckpointFile).location
        · exact ⟨_, KeyedMap.mem_insert.mpr (.inl rfl), (congrArg Prod.fst hloc).symm⟩
        · exact ⟨g, KeyedMap.mem_insert.mpr (.inr ⟨hg, hloc⟩), rfl⟩
      · rcases KeyedMap.mem_insert.mp hg with rfl | ⟨hg, -⟩
        · exact ⟨f, hf, rfl, rfl⟩
        · exact ⟨g, hg, rfl, rfl⟩
    next => cases h

theorem deleteLogsBeforeCheckpointVersion_keeps (store : LogStore) (run : CleanupRun) (c : Nat) :
    Keeps c store (store.deleteLogsBeforeCheckpointVersion run c).2 where
  commits v hv := by
    show (store.commits.filter _).get? v = _
    rw [KeyedMap.get?_filter]
    cases hf : store.commits.get? v with
    | none => rfl
    | some f =>
      have hversion : f.version = v := KeyedMap.key_of_get? hf
      have hexpires : LogFile.expiresBefore (.commit f) c = false :=
        decide_eq_false (not_lt.mpr (le_trans hv (le_of_eq hversion.symm)))
      simp [hexpires]
  commits_before v f hf := by
    have hf : (store.commits.filter _).get? v = some f := hf
    rw [KeyedMap.get?_filter] at hf
    exact (Option.filter_eq_some_iff.mp hf).1
  checkpoints f hf hc := by
    have hexpires : LogFile.expiresBefore (.checkpoint f) c = false :=
      decide_eq_false (not_lt.mpr hc)
    exact ⟨f, mem_filter.mpr ⟨hf, by simp [hexpires]⟩, rfl⟩
  checkpoints_before f hf := ⟨f, (mem_filter.mp hf).1, rfl, rfl⟩

/-- A cleanup changes nothing, or it keeps everything from the boundary on. -/
theorem cleanup_cases (store : LogStore) (tableState : DeltaSnapshot) (cutoffTimestamp : Int64)
    (run : CleanupRun) :
    (store.cleanupExpiredDeltaLogFiles tableState cutoffTimestamp run).2 = store ∨
      ∃ c, store.findRetentionCheckpointVersion tableState (store.files.filter run.boundaryListed)
          ⟨tableState.version, cutoffTimestamp⟩ = .ok (some c) ∧
        Keeps c store (store.cleanupExpiredDeltaLogFiles tableState cutoffTimestamp run).2 := by
  unfold cleanupExpiredDeltaLogFiles
  split
  next => exact .inl rfl
  next => exact .inl rfl
  next c hc =>
    refine .inr ⟨c, hc, ?_⟩
    split
    next => exact Keeps.refl _ _
    next compat hcompat =>
      have hkeeps := (ensureV2CompatClassicCheckpoint_keeps hcompat c).trans
        (deleteLogsBeforeCheckpointVersion_keeps compat run c)
      split
      next hdel => simpa [hdel] using hkeeps
      next hdel =>
        rw [hdel] at hkeeps
        exact ⟨hkeeps.commits, hkeeps.commits_before, hkeeps.checkpoints, hkeeps.checkpoints_before⟩

/-- The versions that a cleanup has to leave readable. -/
inductive Retained (store : LogStore) (tableState : DeltaSnapshot) (cutoffTimestamp : Int64) :
    Nat → Prop
  | later {version : Nat} {t : Int64} (timestamp : store.timestampOf tableState version = .ok t)
      (later : cutoffTimestamp < t) : Retained store tableState cutoffTimestamp version
  /-- The newest version at or before the cutoff that has a checkpoint at or below it. -/
  | newest {version : Nat} {t : Int64} (timestamp : store.timestampOf tableState version = .ok t)
      (expired : t ≤ cutoffTimestamp)
      (checkpoint : ∃ f ∈ store.checkpoints.entries, f.version ≤ version)
      (newest : ∀ v t, v ≤ tableState.version → store.timestampOf tableState v = .ok t →
        t ≤ cutoffTimestamp → (∃ f ∈ store.checkpoints.entries, f.version ≤ v) → v ≤ version) :
      Retained store tableState cutoffTimestamp version
  | latest : Retained store tableState cutoffTimestamp tableState.version

theorem Retained.le {cutoffTimestamp : Int64} {version c v : Nat} {t : Int64}
    (hmono : ∀ v w t u, v ≤ w → store.timestampOf tableState v = .ok t →
      store.timestampOf tableState w = .ok u → t ≤ u)
    (hc : ∃ f ∈ store.checkpoints.entries, f.version = c) (hcv : c ≤ v)
    (hv : v ≤ tableState.version) (ht : store.timestampOf tableState v = .ok t)
    (hcut : t ≤ cutoffTimestamp) (h : Retained store tableState cutoffTimestamp version) :
    c ≤ version := by
  cases h with
  | later htimestamp hlater =>
    by_contra hlt
    have hle := hmono version v _ _ (by omega) htimestamp ht
    exact absurd (Int64.lt_of_lt_of_le hlater (Int64.le_trans hle hcut)) (Int64.lt_irrefl)
  | newest _ _ _ hnewest =>
    obtain ⟨f, hf, rfl⟩ := hc
    exact le_trans hcv (hnewest v t hv ht hcut ⟨f, hf, hcv⟩)
  | latest => omega

/-- Each version that a cleanup has to keep is rebuilt from the remaining files, as it was before.
-/
theorem cleanup_keeps_retained (store : LogStore)
    (hsingle : ∀ f ∈ store.checkpoints.entries, SingleFile f) (tableState : DeltaSnapshot)
    (hmono : ∀ v w t u, v ≤ w → store.timestampOf tableState v = .ok t →
      store.timestampOf tableState w = .ok u → t ≤ u)
    (cutoffTimestamp : Int64) (run : CleanupRun) (version : Nat)
    (hretained : Retained store tableState cutoffTimestamp version)
    (hbefore : ∃ state, store.Rebuilds version state) :
    (∃ state, (store.cleanupExpiredDeltaLogFiles tableState cutoffTimestamp run).2.Rebuilds
      version state) ∧
    ∀ state, (store.cleanupExpiredDeltaLogFiles tableState cutoffTimestamp run).2.Rebuilds
      version state → store.Rebuilds version state := by
  rcases cleanup_cases store tableState cutoffTimestamp run with heq | ⟨c, hc, hkeeps⟩
  · rw [heq]
    exact ⟨hbefore, fun _ h => h⟩
  · obtain ⟨hcp, v, t, hcv, hv, ht, hcut⟩ :=
      findRetentionCheckpointVersion_ok (fun _ h => (mem_filter.mp h).1) hc
    have hle := hretained.le hmono hcp hcv hv ht hcut
    exact ⟨hkeeps.rebuilds hsingle hcp hle hbefore, fun _ h => hkeeps.rebuilds_before hsingle h⟩

/-- Four versions, with classic checkpoints of two of them. -/
def agingLog : LogStore where
  commits := KeyedMap.empty.insertAll [
    ⟨0, 10, [.protocol ⟨1, 2, none, none⟩, .metadata { id := "t" }, .add { path := "a", size := 1 }]⟩,
    ⟨1, 20, [.add { path := "b", size := 1 }]⟩, ⟨2, 30, [.add { path := "c", size := 1 }]⟩,
    ⟨3, 40, [.add { path := "d", size := 1 }]⟩]
  checkpoints := KeyedMap.empty.insertAll [
    ⟨1, checkpointClassicName, [{ add := some { path := "a", size := 1 } }]⟩,
    ⟨2, checkpointClassicName, [{ add := some { path := "a", size := 1 } }]⟩]

def agingTable : DeltaSnapshot where
  version := 3
  requireFiles := false
  protocol := ⟨1, 2, none, none⟩
  metadata := { id := "t" }
  adds := []
  removes := []
  appTxns := .empty
  domainMetadata := .empty
  commitTimestamps := .empty

/-- Everything is seen, and everything can be done. -/
def smoothRun : CleanupRun where
  boundaryListed _ := true
  classicSeen := true
  compatListed _ := true
  copyError := none
  deletionListed _ := true
  deleted _ := true
  deletionError := ""
  sidecarListed _ := true
  collected _ := true

theorem agingLog_timestampOf {v : Nat} {t : Int64} (h : agingLog.timestampOf agingTable v = .ok t) :
    v < 4 ∧ t.toInt = 10 * v + 10 := by
  rcases Nat.lt_or_ge v 4 with hv | hv
  · have hall : ∀ v < 4, (agingLog.timestampOf agingTable v).toOption.map Int64.toInt =
        some (10 * (v : Int) + 10) := by decide
    have hv' := hall v hv
    rw [h] at hv'
    exact ⟨hv, Option.some.inj hv'⟩
  · have hnone : agingLog.commits.get? v = none := by
      apply KeyedMap.get?_eq_none_iff.mpr
      intro f hf
      have hall : ∀ f ∈ agingLog.commits.entries, f.version < 4 := by decide
      have := hall f hf
      omega
    have huses : versionUsesInCommitTimestamps v agingTable.protocol agingTable.metadata = false :=
      rfl
    have hcached : agingTable.versionTimestamp v = none := rfl
    simp [timestampOf, resolveVersionTimestamp, huses, hcached, hnone] at h

theorem agingLog_cleanup :
    ((∀ f ∈ agingLog.checkpoints.entries, SingleFile f) ∧
      (∀ v w t u, v ≤ w → agingLog.timestampOf agingTable v = .ok t →
        agingLog.timestampOf agingTable w = .ok u → t ≤ u) ∧
      Retained agingLog agingTable 35 3 ∧ ∃ state, agingLog.Rebuilds 3 state) ∧
    (∃ state, (agingLog.cleanupExpiredDeltaLogFiles agingTable 35 smoothRun).2.Rebuilds 3 state) ∧
    ∀ state, (agingLog.cleanupExpiredDeltaLogFiles agingTable 35 smoothRun).2.Rebuilds 3 state →
      agingLog.Rebuilds 3 state :=
  have hsingle : ∀ f ∈ agingLog.checkpoints.entries, SingleFile f := by
    unfold SingleFile
    decide
  have hmono : ∀ v w t u, v ≤ w → agingLog.timestampOf agingTable v = .ok t →
      agingLog.timestampOf agingTable w = .ok u → t ≤ u := by
    intro v w t u hle ht hu
    have ht := agingLog_timestampOf ht
    have hu := agingLog_timestampOf hu
    exact Int64.le_iff_toInt_le.mpr (by omega)
  have hbefore : ∃ state, agingLog.Rebuilds 3 state := ⟨_, none, by simp, by decide, rfl⟩
  ⟨⟨hsingle, hmono, .latest, hbefore⟩,
    cleanup_keeps_retained agingLog hsingle agingTable hmono 35 smoothRun 3 .latest hbefore⟩

end LogStore

end Zelox.Delta
