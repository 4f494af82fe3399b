import Zelox.Delta.Load
import Zelox.Delta.Written

/-!
# Writing checkpoints

`create_checkpoint` rebuilds the state of a version from the newest checkpoint that is
listed and the commits after it, drops what has expired, and writes what remains: as one
file, or, if the protocol has V2 checkpoints, as a file for the header and a sidecar for
the files.  `_last_checkpoint` then names the version.

What is written reads back as the state that was written (`Wrote.reads`), and the state
is the replay of the commits over the checkpoint it was built from (`createCheckpoint_ok`).
-/

namespace Zelox.Delta

open SortBy ReconciledCheckpointState List

namespace ReconciledCheckpointState

variable (state : ReconciledCheckpointState)

def txnRows : List CheckpointActionRow := state.txns.entries.map fun txn => { txn := some txn }

def domainRows : List CheckpointActionRow :=
  state.domainMetadata.entries.map fun d => { domainMetadata := some d }

def addRows : List CheckpointActionRow := state.adds.entries.map fun a => { add := some a }

def removeRows : List CheckpointActionRow :=
  state.removes.entries.map fun r => { remove := some r }

end ReconciledCheckpointState

namespace LogStore

/-- The single file of a V1 checkpoint. -/
def v1File (version : Nat) (protocol : Protocol) (metadata : Metadata)
    (state : ReconciledCheckpointState) : CheckpointFile where
  version
  name := ".checkpoint.parquet"
  rows := [{ protocol := some protocol }, { metadata := some metadata }] ++ state.txnRows ++
    state.domainRows ++ state.removeRows ++ state.addRows

def writeV1Checkpoint (store : LogStore) (version : Nat) (state : ReconciledCheckpointState) :
    DeltaResult LogStore :=
  match state.protocol, state.metadata with
  | none, _ => .error "Cannot create checkpoint without protocol action"
  | some _, none => .error "Cannot create checkpoint without metadata action"
  | some protocol, some metadata =>
    .ok { store with
      checkpoints := store.checkpoints.insert (v1File version protocol metadata state)
      lastCheckpoint := some version }

def sidecarName (uuid : String) : String := uuid ++ ".parquet"

/-- The sidecar of a V2 checkpoint; a state without files gets none. -/
def v2Sidecar (state : ReconciledCheckpointState) (uuid : String) : Option SidecarFile :=
  if (state.addRows ++ state.removeRows).isEmpty then none
  else some ⟨sidecarName uuid, state.addRows ++ state.removeRows⟩

/-- The main file of a V2 checkpoint. -/
def v2File (version : Nat) (protocol : Protocol) (metadata : Metadata)
    (state : ReconciledCheckpointState) (sidecar : Option SidecarFile) (uuid : String) :
    CheckpointFile where
  version
  name := ".checkpoint." ++ uuid ++ ".parquet"
  rows := [{ checkpointMetadata := some version }, { protocol := some protocol },
      { metadata := some metadata }] ++ state.txnRows ++ state.domainRows ++
    sidecar.toList.map fun f => { sidecar := some ⟨f.path⟩ }

def writeV2Checkpoint (store : LogStore) (version : Nat) (state : ReconciledCheckpointState)
    (sidecarUuid checkpointUuid : String) : DeltaResult LogStore :=
  match state.protocol, state.metadata with
  | none, _ => .error "Cannot create checkpoint without protocol action"
  | some _, none => .error "Cannot create checkpoint without metadata action"
  | some protocol, some metadata =>
    let sidecar := v2Sidecar state sidecarUuid
    .ok { store with
      sidecars := store.sidecars.insertAll sidecar.toList
      checkpoints := store.checkpoints.insert
        (v2File version protocol metadata state sidecar checkpointUuid)
      lastCheckpoint := some version }

/-- A call of `create_checkpoint_for`, with the time and the names it draws. -/
structure CheckpointCall where
  version : Nat
  now : Int64
  sidecarUuid : String
  checkpointUuid : String

/-- The checkpoint that the next one is built from: of the newest ones the last in the listing. -/
def latestCheckpointEntry (store : LogStore) (version : Nat) : Option CheckpointFile :=
  (((store.listFrom (store.checkpointOffset version)).checkpoints.filter fun f =>
    f.version ≤ version).insertionSort fun a b => a.version ≤ b.version).getLast?

/-- The state a checkpoint is built from and the first version to replay. -/
def checkpointBase (store : LogStore) (version : Nat) :
    DeltaResult (ReconciledCheckpointState × Nat) :=
  match store.latestCheckpointEntry version with
  | some file => do
    let rows ← store.readCheckpointRows file
    return (ReconciledCheckpointState.default.applyRows rows, file.version + 1)
  | none => .ok (ReconciledCheckpointState.default, 0)

def checkpointCommits (store : LogStore) (version : Nat) : List CommitFile :=
  ((store.listFrom (store.checkpointOffset version)).commits.filter fun f =>
    f.version ≤ version).insertionSort fun a b => a.version ≤ b.version

/-- The protocol says which kind of checkpoint is written. -/
def writeCheckpoint (store : LogStore) (call : CheckpointCall) (state : ReconciledCheckpointState) :
    DeltaResult LogStore :=
  if state.protocol.any fun p => p.hasWriterFeature .v2Checkpoint then
    store.writeV2Checkpoint call.version state call.sidecarUuid call.checkpointUuid
  else store.writeV1Checkpoint call.version state

def createCheckpoint (store : LogStore) (call : CheckpointCall) : DeltaResult LogStore := do
  let base ← store.checkpointBase call.version
  let replayed ← checkpointReplayer.replayCommits base.1 (store.checkpointCommits call.version)
    base.2 call.version
  let state ← replayed.1.pruneExpiredCheckpointActions call.now
  store.writeCheckpoint call state

/-- A call that fails writes nothing. -/
def afterCheckpoint (store : LogStore) (call : CheckpointCall) : LogStore :=
  match store.createCheckpoint call with
  | .ok store' => store'
  | .error _ => store

end LogStore

/-! ### What was written -/

theorem actions_map {α : Type} {l : List α} {row : α → CheckpointActionRow} {action : α → Action}
    (h : ∀ a, (row a).actions = [action a]) :
    (l.map row).flatMap CheckpointActionRow.actions = l.map action := by
  rw [flatMap_map, map_eq_flatMap]
  exact congrArg (l.flatMap ·) (funext h)

section

variable (state : ReconciledCheckpointState)

theorem actions_txnRows :
    state.txnRows.flatMap CheckpointActionRow.actions = state.txns.entries.map Action.txn :=
  actions_map fun _ => rfl

theorem actions_domainRows :
    state.domainRows.flatMap CheckpointActionRow.actions =
      state.domainMetadata.entries.map Action.domainMetadata :=
  actions_map fun _ => rfl

theorem actions_addRows :
    state.addRows.flatMap CheckpointActionRow.actions =
      (state.adds.entries.map Sum.inl).map fileToAction := by
  rw [map_map]
  exact actions_map fun _ => rfl

theorem actions_removeRows :
    state.removeRows.flatMap CheckpointActionRow.actions =
      (state.removes.entries.map Sum.inr).map fileToAction := by
  rw [map_map]
  exact actions_map fun _ => rfl

end

/-- A replay that reaches its end has applied one commit for each version. -/
theorem Replayer.replayCommits_go_ok {σ : Type} {R : Replayer σ} {first last expected : Nat}
    {state : σ} {timestamps : Timestamps} {fs : List CommitFile} {replayed : σ × Timestamps}
    (h : replayCommits.go R first last expected state timestamps fs = .ok replayed) :
    Tiles last expected ((fs.filter fun f => first ≤ f.version ∧ f.version ≤ last).map fun f =>
      (f.version, f.version)) ∧
    replayed.1 = R.applyAll state
      ((fs.filter fun f => first ≤ f.version ∧ f.version ≤ last).flatMap CommitFile.actions) := by
  induction fs generalizing expected state timestamps with
  | nil =>
    rw [replayCommits.go] at h
    split at h
    · cases h
    next hend =>
      cases h
      exact ⟨by simp only [filter_nil, map_nil, Tiles]; omega, rfl⟩
  | cons f fs ih =>
    rw [replayCommits.go] at h
    split at h
    next hout =>
      rw [filter_cons_of_neg (by simp; omega)]
      exact ih h
    next hin =>
      split at h
      · cases h
      next hexpected =>
        obtain ⟨p, hp, hgo⟩ := Results.bind_eq_ok.mp h
        obtain ⟨timestamp, -, heq⟩ := Results.bind_eq_ok.mp hp
        cases heq
        obtain ⟨htiles, hstate⟩ := ih hgo
        rw [filter_cons_of_pos (by simp; omega)]
        have hversion := not_not.mp hexpected
        refine ⟨⟨hversion, hversion ▸ htiles⟩, ?_⟩
        rw [hstate, flatMap_cons]
        simp only [applyAll, foldl_append]

namespace LogStore

variable {store store' : LogStore}

/-- `store'` is `store` with a checkpoint of the state in `file` and perhaps a sidecar. -/
structure Wrote (store store' : LogStore) (version : Nat) (state : ReconciledCheckpointState)
    (sidecar : String) (file : CheckpointFile) : Prop where
  commits : store'.commits = store.commits
  compactions : store'.compactions = store.compactions
  checksums : store'.checksums = store.checksums
  checkpoints : store'.checkpoints = store.checkpoints.insert file
  lastCheckpoint : store'.lastCheckpoint = some version
  version_eq : file.version = version
  created : state.protocol.isSome ∧ state.metadata.isSome
  sidecars : ∀ path, path ≠ sidecar → store'.sidecars.get? path = store.sidecars.get? path
  /-- The file itself has at least the header. -/
  header : ∃ files : List (Add ⊕ Remove), file.rows.flatMap CheckpointActionRow.actions =
    state.headerActions ++ files.map fileToAction
  reads : ∃ rows, store'.readCheckpointRows file = .ok rows ∧
    SameState (ReconciledCheckpointState.default.applyRows rows) state

theorem sameState_of_actions {rows : List CheckpointActionRow} {state : ReconciledCheckpointState}
    {files : List (Add ⊕ Remove)}
    (hrows : rows.flatMap CheckpointActionRow.actions =
      state.headerActions ++ files.map fileToAction)
    (hfiles : ∀ k, LastWrite.lastWrite (Action.fileAction k)
        (files.map fileToAction) =
      ((state.adds.get? k).map Sum.inl).or ((state.removes.get? k).map Sum.inr)) :
    SameState (ReconciledCheckpointState.default.applyRows rows) state := by
  rw [applyRows_eq, hrows]
  exact state.sameState_written files hfiles

section

variable {version : Nat} {protocol : Protocol} {metadata : Metadata}
  {state : ReconciledCheckpointState}

theorem actions_v1File (version : Nat) (hp : state.protocol = some protocol)
    (hm : state.metadata = some metadata) :
    (v1File version protocol metadata state).rows.flatMap CheckpointActionRow.actions =
      state.headerActions ++ (state.removes.entries.map Sum.inr ++
        state.adds.entries.map Sum.inl).map fileToAction := by
  simp only [v1File, flatMap_append, actions_txnRows, actions_domainRows, actions_removeRows,
    actions_addRows, headerActions, hp, hm, map_append, append_assoc]
  rfl

theorem writeV1Checkpoint_ok (sidecar : String)
    (h : store.writeV1Checkpoint version state = .ok store') :
    ∃ file, Wrote store store' version state sidecar file := by
  unfold writeV1Checkpoint at h
  cases hp : state.protocol with
  | none => simp [hp] at h
  | some protocol =>
    cases hm : state.metadata with
    | none => simp [hp, hm] at h
    | some metadata =>
      simp only [hp, hm, Except.ok.injEq] at h
      subst h
      have hactions := actions_v1File version hp hm
      refine ⟨v1File version protocol metadata state,
        { commits := rfl, compactions := rfl, checksums := rfl, checkpoints := rfl
          lastCheckpoint := rfl, version_eq := rfl, created := by rw [hp, hm]; exact ⟨rfl, rfl⟩
          sidecars := fun _ _ => rfl, header := ⟨_, hactions⟩, reads := ⟨_, ?_, sameState_of_actions hactions
            (lastWrite_removes_adds _ _)⟩ }⟩
      have hnone : (v1File version protocol metadata state).rows.filterMap
          CheckpointActionRow.sidecar = [] := by
        simp [v1File, txnRows, domainRows, removeRows, addRows]
      rw [readCheckpointRows, hnone]
      exact congrArg Except.ok (append_nil _)

theorem actions_v2File (version : Nat) (hp : state.protocol = some protocol)
    (hm : state.metadata = some metadata) (sidecar : Option SidecarFile) (uuid : String) :
    (v2File version protocol metadata state sidecar uuid).rows.flatMap
      CheckpointActionRow.actions = state.headerActions := by
  have hlast : (sidecar.toList.map fun f =>
      ({ sidecar := some ⟨f.path⟩ } : CheckpointActionRow)).flatMap
      CheckpointActionRow.actions = [] := by
    cases sidecar <;> rfl
  simp only [v2File, flatMap_append, actions_txnRows, actions_domainRows,
    headerActions, hp, hm, hlast, append_nil]
  rfl

theorem rows_v2Sidecar (state : ReconciledCheckpointState) (uuid : String) :
    (v2Sidecar state uuid).toList.flatMap SidecarFile.rows = state.addRows ++ state.removeRows := by
  unfold v2Sidecar
  split
  next hempty => rw [List.isEmpty_iff.mp hempty]; rfl
  next => exact append_nil _

theorem readCheckpointRows_v2File {sidecar : Option SidecarFile} {uuid : String}
    (h : ∀ f ∈ sidecar, store.sidecars.get? f.path = some f) :
    store.readCheckpointRows (v2File version protocol metadata state sidecar uuid) =
      .ok ((v2File version protocol metadata state sidecar uuid).rows ++
        sidecar.toList.flatMap SidecarFile.rows) := by
  have hrefs : (v2File version protocol metadata state sidecar uuid).rows.filterMap
      CheckpointActionRow.sidecar = sidecar.toList.map fun f => ⟨f.path⟩ := by
    cases sidecar <;>
      simp [v2File, txnRows, domainRows]
  rw [readCheckpointRows, hrefs]
  cases sidecar with
  | none => rfl
  | some f =>
    simp only [Option.toList_some, map_cons, map_nil, mapM_cons, mapM_nil,
      h f rfl, flatMap_cons, flatMap_nil]
    rfl

theorem writeV2Checkpoint_ok {sidecarUuid checkpointUuid : String}
    (h : store.writeV2Checkpoint version state sidecarUuid checkpointUuid = .ok store') :
    ∃ file, Wrote store store' version state (sidecarName sidecarUuid) file := by
  unfold writeV2Checkpoint at h
  cases hp : state.protocol with
  | none => simp [hp] at h
  | some protocol =>
    cases hm : state.metadata with
    | none => simp [hp, hm] at h
    | some metadata =>
      simp only [hp, hm, Except.ok.injEq] at h
      subst h
      have hpath : ∀ f ∈ v2Sidecar state sidecarUuid, f.path = sidecarName sidecarUuid := by
        intro f hf
        unfold v2Sidecar at hf
        split at hf
        · cases hf
        · cases hf
          rfl
      have hmain := actions_v2File version hp hm (v2Sidecar state sidecarUuid)
        checkpointUuid
      refine ⟨v2File version protocol metadata state (v2Sidecar state sidecarUuid) checkpointUuid,
        { commits := rfl, compactions := rfl, checksums := rfl, checkpoints := rfl
          lastCheckpoint := rfl, version_eq := rfl, created := by rw [hp, hm]; exact ⟨rfl, rfl⟩
          sidecars := ?_, header := ⟨[], ?_⟩, reads := ⟨_, readCheckpointRows_v2File ?_, sameState_of_actions ?_
            state.lastWrite_adds_removes⟩ }⟩
      · intro path hne
        cases hs : v2Sidecar state sidecarUuid with
        | none => rfl
        | some f => exact (KeyedMap.get?_insert ..).trans (if_neg (hpath f hs ▸ hne))
      · rw [hmain, map_nil, append_nil]
      · intro f hf
        rw [Option.mem_def.mp hf]
        exact (KeyedMap.get?_insert ..).trans (if_pos rfl)
      · rw [flatMap_append, hmain, rows_v2Sidecar, flatMap_append, actions_addRows,
          actions_removeRows, map_append]

end

theorem writeCheckpoint_ok {call : CheckpointCall} {state : ReconciledCheckpointState}
    (h : store.writeCheckpoint call state = .ok store') :
    ∃ file, Wrote store store' call.version state (sidecarName call.sidecarUuid) file := by
  unfold writeCheckpoint at h
  split at h
  · exact writeV2Checkpoint_ok h
  · exact writeV1Checkpoint_ok _ h

/-! ### What it was built from -/

theorem mem_latestCheckpointEntry {version : Nat} {file : CheckpointFile}
    (h : store.latestCheckpointEntry version = some file) :
    file ∈ store.checkpoints.entries ∧ store.checkpointOffset version ≤ file.version ∧
      file.version ≤ version := by
  have hmem := (mem_insertionSort _).mp (mem_of_getLast? h)
  obtain ⟨hmem, hle⟩ := mem_filter.mp hmem
  obtain ⟨hmem, hoffset⟩ := mem_filter.mp hmem
  exact ⟨hmem, of_decide_eq_true hoffset, of_decide_eq_true hle⟩

theorem versionAfter_latestCheckpointEntry_le (store : LogStore) (version : Nat) :
    versionAfter (store.latestCheckpointEntry version) ≤ version + 1 := by
  cases h : store.latestCheckpointEntry version with
  | none => exact Nat.zero_le _
  | some file => exact Nat.succ_le_succ (mem_latestCheckpointEntry h).2.2

theorem checkpointBase_eq_ok {version : Nat} {base : ReconciledCheckpointState × Nat} :
    store.checkpointBase version = .ok base ↔
      (∀ file ∈ store.latestCheckpointEntry version, ∃ rows,
        store.readCheckpointRows file = .ok rows) ∧
      base = (store.checkpointState (store.latestCheckpointEntry version),
        versionAfter (store.latestCheckpointEntry version)) := by
  unfold checkpointBase
  cases store.latestCheckpointEntry version with
  | none => simp [checkpointState, versionAfter, eq_comm]
  | some file =>
    cases hrows : store.readCheckpointRows file with
    | error e => simp [bind, Except.bind, hrows]
    | ok rows =>
      simp [bind, Except.bind, pure, Except.pure, checkpointState, versionAfter, hrows,
        Except.toOption, eq_comm]

/-- Commit files of the log that follow each other are those of their range. -/
theorem eq_commitRange_of_tiles {fs : List CommitFile} {first last : Nat}
    (hmem : ∀ f ∈ fs, f ∈ store.commits.entries)
    (htiles : Tiles last first (fs.map fun f => (f.version, f.version))) :
    fs = store.commitRange first (last + 1 - first) := by
  have hversions : fs.map CommitFile.version = List.range' first (last + 1 - first) := by
    rw [← htiles.flatMap_range' (by simp), flatMap_map, map_eq_flatMap]
    congr 1
    funext f
    simp
  rw [commitRange, ← hversions, filterMap_map]
  have hget : ∀ f ∈ fs, (store.commits.get? ∘ CommitFile.version) f = some f :=
    fun f hf => KeyedMap.mem_entries_iff.mp (hmem f hf)
  rw [filterMap_congr hget, filterMap_some]

/-- A replay of files of the log that succeeds has found the commit of every version of its
range. -/
theorem replayCommits_ok {σ : Type} {R : Replayer σ} {fs : List CommitFile} {version first : Nat}
    {state : σ} {replayed : σ × Timestamps} (hmem : ∀ f ∈ fs, f ∈ store.commits.entries)
    (hfirst : first ≤ version + 1)
    (h : R.replayCommits state fs first version = .ok replayed) :
    replayed.1 = R.applyAll state (store.rangeActions first (version + 1 - first)) := by
  unfold Replayer.replayCommits at h
  split at h
  next hlt =>
    cases h
    rw [show version + 1 - first = 0 by omega]
    rfl
  next hle =>
    obtain ⟨htiles, hstate⟩ := Replayer.replayCommits_go_ok h
    rw [hstate, ← actions_commitRange, ← eq_commitRange_of_tiles _ htiles]
    exact fun f hf => hmem f (mem_filter.mp hf).1

theorem mem_checkpointCommits {version : Nat} {f : CommitFile}
    (hf : f ∈ store.checkpointCommits version) : f ∈ store.commits.entries := by
  have hf := (mem_insertionSort _).mp hf
  exact (mem_filter.mp (mem_filter.mp hf).1).1

/-- A successful call replayed the commits over the checkpoint it found, pruned the state and wrote
it. -/
theorem createCheckpoint_ok {call : CheckpointCall} (h : store.createCheckpoint call = .ok store') :
    ∃ metadata r file,
      (store.rebuilt (store.latestCheckpointEntry call.version) call.version).metadata =
        some metadata ∧
      CheckpointRetentionTimestamps.tryNew metadata call.now = .ok r ∧
      Wrote store store' call.version ((store.rebuilt
        (store.latestCheckpointEntry call.version) call.version).prune r)
        (sidecarName call.sidecarUuid) file := by
  obtain ⟨base, hbase, h⟩ := Results.bind_eq_ok.mp h
  obtain ⟨-, rfl⟩ := checkpointBase_eq_ok.mp hbase
  obtain ⟨replayed, hreplayed, h⟩ := Results.bind_eq_ok.mp h
  obtain ⟨state, hstate, h⟩ := Results.bind_eq_ok.mp h
  rw [replayCommits_ok (fun _ => mem_checkpointCommits)
    (versionAfter_latestCheckpointEntry_le store call.version) hreplayed] at hstate
  obtain ⟨metadata, r, hmetadata, hr, rfl⟩ := pruneExpired_ok hstate
  obtain ⟨file, hwrote⟩ := writeCheckpoint_ok h
  exact ⟨metadata, r, file, hmetadata, hr, hwrote⟩

/-! ### When it succeeds -/

theorem replayCommits_go_filter {σ : Type} (R : Replayer σ) (first last expected : Nat) (state : σ)
    (timestamps : Timestamps) (fs : List CommitFile) :
    Replayer.replayCommits.go R first last expected state timestamps fs =
      Replayer.replayCommits.go R first last expected state timestamps
        (fs.filter fun f => first ≤ f.version ∧ f.version ≤ last) := by
  induction fs generalizing expected state timestamps with
  | nil => rfl
  | cons f fs ih =>
    by_cases hf : f.version < first ∨ last < f.version
    · rw [filter_cons_of_neg (by simp; omega), Replayer.replayCommits.go, if_pos hf, ih]
    · rw [filter_cons_of_pos (by simp; omega), Replayer.replayCommits.go,
        Replayer.replayCommits.go, if_neg hf, if_neg hf]
      split
      · rfl
      · congr 1
        funext p
        exact ih _ _ _

/-- In a log that has all commits, those after a checkpoint are replayed over it. -/
theorem replayCommits_listed {n version first : Nat} (hlog : store.IsLog n) (hv : version ≤ n)
    (hoffset : store.checkpointOffset version ≤ first) {state : ReconciledCheckpointState}
    (hwithin : HeaderWithin state (store.replayBefore first)) :
    ∃ timestamps, checkpointReplayer.replayCommits state (store.checkpointCommits version) first
      version = .ok (state.applyAll (store.rangeActions first (version + 1 - first)), timestamps) := by
  unfold Replayer.replayCommits
  split
  next hlt =>
    rw [show version + 1 - first = 0 by omega]
    exact ⟨_, rfl⟩
  next hle =>
    have hfilter : (store.checkpointCommits version).filter (fun f =>
        first ≤ f.version ∧ f.version ≤ version) = store.commitRange first (version + 1 - first) :=
      commits_listLogFiles store _ version first hoffset
    have htiles := tiles_commitRange store first (version + 1 - first)
      (fun v _ h => hlog.commits v (by omega)) (by omega)
    rw [show first + (version + 1 - first) - 1 = version by omega] at htiles
    rw [replayCommits_go_filter, hfilter, Replayer.replayCommits_go_eq _ _ _ _ _ _ _ _ htiles]
    · exact applyEntries_commitRange hlog _ .empty _ _ (by omega) hwithin
    · intro f hf
      have := mem_commitRange.mp hf
      omega

theorem writeCheckpoint_isOk (store : LogStore) (call : CheckpointCall)
    (state : ReconciledCheckpointState)
    (hp : state.protocol.isSome) (hm : state.metadata.isSome) :
    ∃ store', store.writeCheckpoint call state = .ok store' := by
  obtain ⟨protocol, hp⟩ := Option.isSome_iff_exists.mp hp
  obtain ⟨metadata, hm⟩ := Option.isSome_iff_exists.mp hm
  simp only [writeCheckpoint, writeV1Checkpoint, writeV2Checkpoint, hp, hm]
  split
  · exact ⟨_, rfl⟩
  · exact ⟨_, rfl⟩

/-- A checkpoint is written if the rebuilt state has a header and the cutoffs can be computed. -/
theorem createCheckpoint_isOk {n : Nat} {call : CheckpointCall} (hlog : store.IsLog n)
    (hv : call.version ≤ n)
    (hoffset : store.checkpointOffset call.version ≤
      versionAfter (store.latestCheckpointEntry call.version))
    (hshows : ∀ file ∈ store.latestCheckpointEntry call.version, store.ShowsHeader file)
    {metadata : Metadata} {r : CheckpointRetentionTimestamps} {state : ReconciledCheckpointState}
    (hstate : store.rebuilt (store.latestCheckpointEntry call.version) call.version = state)
    (hp : state.protocol.isSome) (hm : state.metadata = some metadata)
    (hr : CheckpointRetentionTimestamps.tryNew metadata call.now = .ok r) :
    ∃ store', store.createCheckpoint call = .ok store' := by
  have hbase := checkpointBase_eq_ok.mpr
    ⟨fun file hfile => (hshows file hfile).imp fun _ h => h.1, rfl⟩
  obtain ⟨timestamps, hreplayed⟩ := replayCommits_listed hlog hv hoffset
    (headerWithin_checkpointState hshows)
  change _ = Except.ok (store.rebuilt _ _, timestamps) at hreplayed
  rw [hstate] at hreplayed
  have hprune : state.pruneExpiredCheckpointActions call.now = .ok (state.prune r) := by
    simp only [pruneExpiredCheckpointActions, hm, hr]
    rfl
  obtain ⟨store', hstore'⟩ := store.writeCheckpoint_isOk call (state.prune r) hp
    (Option.isSome_of_eq_some hm)
  exact ⟨store', Results.bind_eq_ok.mpr ⟨_, hbase, Results.bind_eq_ok.mpr ⟨_, hreplayed,
    Results.bind_eq_ok.mpr ⟨_, hprune, hstore'⟩⟩⟩⟩

end LogStore

end Zelox.Delta
