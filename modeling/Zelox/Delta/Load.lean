import Zelox.Delta.Coverage

/-!
# Loading from a log without compactions

`IsLog n` says what a Delta log with versions `0` to `n` is: every commit is there, the
first one creates the table, and commits that must carry an in-commit timestamp do.
From such a log the resolver takes all commits after the checkpoint it found, provided
the listing reaches back that far (`resolveForFullState_eq`), and the loader replays
them over the checkpoint's state, if that can be read and its header is not wrong
(`load_eq`).
-/

namespace Zelox.Delta

open SortBy LastWrite ReconciledCheckpointState List

theorem resolveCommitTimestamp_ok (version : Nat) (lastModified : Int64)
    (protocol : Option Protocol) (metadata : Option Metadata) (actions : List Action)
    (h : ∀ p m, resolveEffectiveProtocolAndMetadata protocol metadata actions = some (p, m) →
      versionUsesInCommitTimestamps version p m → (inCommitTimestampFromActions actions).isSome) :
    ∃ timestamp, resolveCommitTimestampFromActions version lastModified protocol metadata actions =
      .ok timestamp := by
  unfold resolveCommitTimestampFromActions
  cases heff : resolveEffectiveProtocolAndMetadata protocol metadata actions with
  | none => exact ⟨_, rfl⟩
  | some pm =>
    simp only [Option.any_some]
    split
    next huses =>
      obtain ⟨timestamp, hts⟩ := Option.isSome_iff_exists.mp (h pm.1 pm.2 heff huses)
      exact ⟨timestamp, by rw [hts]⟩
    next => exact ⟨_, rfl⟩

/-- The protocol and metadata in force after a commit are the last that were written. -/
theorem resolveEffective_eq (protocol : Option Protocol) (metadata : Option Metadata)
    (as : List Action) :
    resolveEffectiveProtocolAndMetadata protocol metadata as =
      ((lastWrite Action.protocolWrite as).getD protocol).bind fun p =>
        ((lastWrite Action.metadataWrite as).getD metadata).map fun m => (p, m) := by
  -- the source looks for the actions themselves, from the end
  have h : ∀ (f : Action → Option Protocol) (g : Action → Option Metadata),
      (∀ a, a.protocolWrite = (f a).map some) → (∀ a, a.metadataWrite = (g a).map some) →
      (((as.reverse.findSome? f).or protocol).bind fun p =>
        ((as.reverse.findSome? g).or metadata).bind fun m => some (p, m)) =
        ((lastWrite Action.protocolWrite as).getD protocol).bind fun p =>
          ((lastWrite Action.metadataWrite as).getD metadata).map fun m => (p, m) := by
    intro f g hf hg
    rw [funext hf, funext hg, lastWrite_map, lastWrite_map, lastWrite, lastWrite]
    cases as.reverse.findSome? f <;> cases as.reverse.findSome? g <;>
      cases protocol <;> cases metadata <;> rfl
  apply h
  · intro a
    cases a <;> rfl
  · intro a
    cases a <;> rfl

/-- The protocol and metadata of `s` are those of `t`, or not known. -/
structure HeaderWithin (s t : ReconciledCheckpointState) : Prop where
  protocol : ∀ p, s.protocol = some p → t.protocol = some p
  metadata : ∀ m, s.metadata = some m → t.metadata = some m

theorem SameTable.headerWithin {s t : ReconciledCheckpointState} (h : SameTable s t) :
    HeaderWithin s t :=
  ⟨fun _ hp => h.protocol ▸ hp, fun _ hm => h.metadata ▸ hm⟩

theorem HeaderWithin.applyAll {s t : ReconciledCheckpointState} (h : HeaderWithin s t)
    (as : List Action) : HeaderWithin (s.applyAll as) (t.applyAll as) where
  protocol p := by
    rw [protocol_applyAll, protocol_applyAll]
    cases lastWrite Action.protocolWrite as with
    | none => exact h.protocol p
    | some _ => exact id
  metadata m := by
    rw [metadata_applyAll, metadata_applyAll]
    cases lastWrite Action.metadataWrite as with
    | none => exact h.metadata m
    | some _ => exact id

namespace LogStore

/-- A Delta log with versions `0` to `n`. -/
structure IsLog (store : LogStore) (n : Nat) : Prop where
  commits : ∀ v, v ≤ n → (store.commits.get? v).isSome
  created : (store.replayBefore 1).protocol.isSome ∧ (store.replayBefore 1).metadata.isSome
  timestamped : ∀ v, v ≤ n → ∀ p ∈ (store.replayBefore (v + 1)).protocol,
    ∀ m ∈ (store.replayBefore (v + 1)).metadata, versionUsesInCommitTimestamps v p m →
    (inCommitTimestampFromActions (store.commitActions v)).isSome

variable {store : LogStore} {n : Nat}

/-- Nothing more is asked of commits under a protocol without in-commit timestamps. -/
theorem isLog_of_protocol (p : Protocol)
    (hp : ∀ v, v ≤ n → (store.replayBefore (v + 1)).protocol = some p)
    (hdisabled : ∀ configuration, p.isInCommitTimestampsEnabled configuration = false)
    (hcommits : ∀ v, v ≤ n → (store.commits.get? v).isSome)
    (hcreated : (store.replayBefore 1).protocol.isSome ∧ (store.replayBefore 1).metadata.isSome) :
    store.IsLog n := by
  refine ⟨hcommits, hcreated, fun v hv q hq m _ huses => ?_⟩
  rw [hp v hv] at hq
  cases hq
  simp [versionUsesInCommitTimestamps, hdisabled] at huses

theorem IsLog.header_isSome (hlog : store.IsLog n) (v : Nat) :
    (store.replayBefore (v + 1)).protocol.isSome ∧ (store.replayBefore (v + 1)).metadata.isSome := by
  have hadd := store.replayBefore_add 1 v
  rw [Nat.add_comm] at hadd
  rw [hadd]
  constructor
  · rw [protocol_applyAll, lastWrite_protocol_eq]
    cases (ReconciledCheckpointState.default.applyAll (store.rangeActions 1 v)).protocol with
    | none => exact hlog.created.1
    | some p => rfl
  · rw [metadata_applyAll, lastWrite_metadata_eq]
    cases (ReconciledCheckpointState.default.applyAll (store.rangeActions 1 v)).metadata with
    | none => exact hlog.created.2
    | some m => rfl

/-- The commit files of the versions from `first` on, `count` of them. -/
def commitRange (store : LogStore) (first count : Nat) : List CommitFile :=
  (List.range' first count).filterMap store.commits.get?

theorem mem_commitRange {first count : Nat} {f : CommitFile} :
    f ∈ store.commitRange first count ↔
      f ∈ store.commits.entries ∧ first ≤ f.version ∧ f.version < first + count := by
  rw [commitRange, mem_filterMap]
  constructor
  · rintro ⟨v, hv, hf⟩
    obtain ⟨hmem, rfl⟩ := KeyedMap.get?_eq_some_iff.mp hf
    exact ⟨hmem, mem_range'_1.mp hv⟩
  · rintro ⟨hmem, hrange⟩
    exact ⟨f.version, mem_range'_1.mpr hrange, KeyedMap.mem_entries_iff.mp hmem⟩

theorem commitRange_sorted (store : LogStore) (first count : Nat) :
    (store.commitRange first count).Pairwise fun a b => a.version < b.version := by
  rw [commitRange, pairwise_filterMap]
  refine (pairwise_lt_range' (s := first) (n := count) 1).imp ?_
  intro a b hab f hf g hg
  have h1 : f.version = a := KeyedMap.key_of_get? hf
  have h2 : g.version = b := KeyedMap.key_of_get? hg
  omega

/-- A listing that reaches back to `first` has exactly the commits of the range. -/
theorem commits_listLogFiles (store : LogStore) (offset : Int) (version first : Nat)
    (hoffset : offset ≤ first) :
    ((listLogFiles store offset version).commits.filter fun f =>
      first ≤ f.version ∧ f.version ≤ version) = store.commitRange first (version + 1 - first) := by
  have hsorted := (commits_listLogFiles_sorted store offset version).sublist
    (filter_sublist (p := fun f : CommitFile => first ≤ f.version ∧ f.version ≤ version))
  have hsorted' := commitRange_sorted store first (version + 1 - first)
  have hnodup : ∀ {l : List CommitFile}, l.Pairwise (fun a b => a.version < b.version) → l.Nodup :=
    fun h => h.imp fun hlt heq => by rw [heq] at hlt; exact lt_irrefl _ hlt
  refine List.Perm.eq_of_pairwise ?_ hsorted hsorted' ?_
  · intro a b _ _ hab hba
    omega
  · rw [perm_ext_iff_of_nodup (hnodup hsorted) (hnodup hsorted')]
    intro f
    rw [mem_commitRange, mem_filter, listLogFiles, mem_insertionSort, mem_filter,
      listFrom, mem_filter]
    simp only [decide_eq_true_eq]
    constructor
    · rintro ⟨⟨⟨hmem, -⟩, -⟩, h1, h2⟩
      exact ⟨hmem, h1, by omega⟩
    · rintro ⟨hmem, h1, h2⟩
      exact ⟨⟨⟨hmem, by omega⟩, by omega⟩, h1, by omega⟩

theorem commitRange_succ {first : Nat} {f : CommitFile} (hf : store.commits.get? first = some f)
    (count : Nat) :
    store.commitRange first (count + 1) = f :: store.commitRange (first + 1) count := by
  rw [commitRange, List.range'_succ, filterMap_cons, hf]
  rfl

theorem versions_commitRange {first count : Nat}
    (h : ∀ v, first ≤ v → v < first + count → (store.commits.get? v).isSome) :
    (store.commitRange first count).map CommitFile.version = List.range' first count := by
  induction count generalizing first with
  | zero => rfl
  | succ count ih =>
    obtain ⟨f, hf⟩ := Option.isSome_iff_exists.mp (h first (le_rfl) (by omega))
    rw [commitRange_succ hf, map_cons, ih fun v h1 h2 => h v (by omega) (by omega), List.range'_succ,
      show f.version = first from KeyedMap.key_of_get? hf]

theorem tiles_commitRange (store : LogStore) (first count : Nat)
    (h : ∀ v, first ≤ v → v < first + count → (store.commits.get? v).isSome) (hcount : 0 < count) :
    Tiles (first + count - 1) first
      ((store.commitRange first count).map fun f => (f.version, f.version)) := by
  have hmap : ((store.commitRange first count).map fun f => (f.version, f.version)) =
      (List.range' first count).map fun v => (v, v) := by
    rw [← versions_commitRange h, map_map]
    rfl
  rw [hmap]
  have htiles : ∀ count first last, first + count = last + 1 →
      Tiles last first ((List.range' first count).map fun v => (v, v)) := by
    intro count
    induction count with
    | zero =>
      intro first last h
      exact h
    | succ count ih =>
      intro first last h
      exact ⟨rfl, ih (first + 1) last (by omega)⟩
  exact htiles count first _ (by omega)

theorem actions_commitRange (store : LogStore) (first count : Nat) :
    (store.commitRange first count).flatMap CommitFile.actions = store.rangeActions first count := by
  rw [commitRange, rangeActions]
  induction count generalizing first with
  | zero => rfl
  | succ count ih =>
    rw [List.range'_succ, filterMap_cons, flatMap_cons, ← ih]
    unfold commitActions readCommitEntry
    cases store.commits.get? first <;> rfl

/-- The checkpoint the resolver finds for a version. -/
def listedCheckpoint (store : LogStore) (version : Nat) : Option CheckpointFile :=
  (listLogFiles store (store.checkpointOffset version) version).checkpoint

theorem validate_commitRange (store : LogStore) (first version : Nat)
    (h : ∀ v, first ≤ v → v ≤ version → (store.commits.get? v).isSome) :
    validateCommitContiguityWithCompactions (store.commitRange first (version + 1 - first)) []
      first version = .ok () := by
  unfold validateCommitContiguityWithCompactions
  split
  · rfl
  next hle =>
    have htiles := tiles_commitRange store first (version + 1 - first)
      (fun v h1 h2 => h v h1 (by omega)) (by omega)
    rw [show first + (version + 1 - first) - 1 = version by omega] at htiles
    rw [isEmpty_nil, if_pos rfl, validateCommitContiguity, if_neg hle,
      validateCommitContiguity_go_iff, filter_eq_self.mpr]
    · exact htiles
    · intro f hf
      have := mem_commitRange.mp hf
      simp only [decide_eq_true_eq]
      omega

/-- A checkpoint and all commits after it. -/
def tailSegment (store : LogStore) (checkpoint : Option CheckpointFile) (version : Nat) :
    LogSegment :=
  ⟨checkpoint,
    store.commitRange (versionAfter checkpoint) (version + 1 - versionAfter checkpoint), []⟩

/-- If the listing reaches back far enough, its checkpoint and all commits after it are selected. -/
theorem resolveForFullState_eq (hlog : store.IsLog n) (hnone : store.compactions.entries = [])
    {version : Nat} (hv : version ≤ n)
    (hoffset : store.checkpointOffset version ≤ versionAfter (store.listedCheckpoint version)) :
    store.resolveForFullState version =
      .ok (store.tailSegment (store.listedCheckpoint version) version) := by
  have hcompactions : (listLogFiles store (store.checkpointOffset version) version).compactions =
      [] := by
    simp [listLogFiles, listFrom, hnone]
  have hselect : selectFiles (listLogFiles store (store.checkpointOffset version) version)
      (store.listedCheckpoint version) (versionAfter (store.listedCheckpoint version)) version =
      store.tailSegment (store.listedCheckpoint version) version := by
    simp only [selectFiles, hcompactions, commits_listLogFiles _ _ _ _ hoffset]
    rfl
  have hvalid := validate_commitRange store (versionAfter (store.listedCheckpoint version)) version
    fun v _ h => hlog.commits v (by omega)
  show (validateCommitContiguityWithCompactions
    (selectFiles _ (store.listedCheckpoint version) _ version).commitFiles _ _ _ >>= fun _ =>
      Except.ok (selectFiles _ (store.listedCheckpoint version) _ version)) = _
  simp only [listedCheckpoint, tailSegment] at hselect hvalid ⊢
  rw [hselect, hvalid]
  rfl

/-- Over a state whose header is right as far as it goes, commits are replayed without error. -/
theorem applyEntries_commitRange (hlog : store.IsLog n) (state : ReconciledCheckpointState)
    (timestamps : Timestamps) (first count : Nat) (hcount : first + count ≤ n + 1)
    (hwithin : HeaderWithin state (store.replayBefore first)) :
    ∃ timestamps', checkpointReplayer.applyEntries state timestamps
      ((store.commitRange first count).map ReplayEntry.commit) =
        .ok (state.applyAll (store.rangeActions first count), timestamps') := by
  induction count generalizing first state timestamps with
  | zero => exact ⟨timestamps, rfl⟩
  | succ count ih =>
    obtain ⟨f, hf⟩ := Option.isSome_iff_exists.mp (hlog.commits first (by omega))
    have hversion : f.version = first := KeyedMap.key_of_get? hf
    have hactions : store.commitActions first = f.actions := by
      simp [commitActions, readCommitEntry, hf]
    have hafter : HeaderWithin (state.applyAll f.actions) (store.replayBefore (first + 1)) := by
      rw [replayBefore_succ, hactions]
      exact hwithin.applyAll f.actions
    -- the timestamp resolves as it does over the full replay
    obtain ⟨timestamp, hts⟩ := resolveCommitTimestamp_ok f.version f.lastModified state.protocol
      state.metadata f.actions (by
        intro p m hpm huses
        rw [resolveEffective_eq, ← protocol_applyAll, ← metadata_applyAll] at hpm
        obtain ⟨p', hp, hm⟩ := Option.bind_eq_some_iff.mp hpm
        obtain ⟨m', hm, heq⟩ := Option.map_eq_some_iff.mp hm
        cases heq
        rw [hversion] at huses
        exact hactions ▸ hlog.timestamped first (by omega) p (hafter.protocol p hp) m
          (hafter.metadata m hm) huses)
    have hstep : checkpointReplayer.applyCommit state timestamps f =
        .ok (state.applyAll f.actions, timestamps.insert (f.version, timestamp)) := by
      unfold Replayer.applyCommit
      rw [show checkpointReplayer.protocol state = state.protocol from rfl,
        show checkpointReplayer.metadata state = state.metadata from rfl, hts]
      rfl
    obtain ⟨timestamps', hrest⟩ := ih (state.applyAll f.actions)
      (timestamps.insert (f.version, timestamp)) (first + 1) (by omega) hafter
    refine ⟨timestamps', ?_⟩
    have hrange : store.rangeActions first (count + 1) =
        f.actions ++ store.rangeActions (first + 1) count := by
      rw [rangeActions, List.range'_succ, flatMap_cons, hactions]
      rfl
    rw [commitRange_succ hf, map_cons, hrange, applyAll_append, ← hrest]
    show (checkpointReplayer.applyCommit state timestamps f >>= fun p =>
      checkpointReplayer.applyEntries p.1 p.2 _) = _
    rw [hstep]
    rfl

/-- A checkpoint file that can be read, with a header that is right as far as it goes. -/
def ShowsHeader (store : LogStore) (file : CheckpointFile) : Prop :=
  ∃ rows, store.readCheckpointRows file = .ok rows ∧
    HeaderWithin (ReconciledCheckpointState.default.applyRows rows)
      (store.replayBefore (file.version + 1))

/-- A checkpoint file that can be read and shows the table as of its version. -/
def ShowsTable (store : LogStore) (file : CheckpointFile) : Prop :=
  ∃ rows, store.readCheckpointRows file = .ok rows ∧
    SameTable (ReconciledCheckpointState.default.applyRows rows)
      (store.replayBefore (file.version + 1))

theorem ShowsTable.showsHeader {file : CheckpointFile} (h : store.ShowsTable file) :
    store.ShowsHeader file := by
  obtain ⟨rows, hrows, hsame⟩ := h
  exact ⟨rows, hrows, hsame.headerWithin⟩

def checkpointState (store : LogStore) (checkpoint : Option CheckpointFile) :
    ReconciledCheckpointState :=
  match checkpoint with
  | some file =>
    ReconciledCheckpointState.default.applyRows ((store.readCheckpointRows file).toOption.getD [])
  | none => ReconciledCheckpointState.default

variable {checkpoint : Option CheckpointFile}

theorem headerWithin_checkpointState (h : ∀ file ∈ checkpoint, store.ShowsHeader file) :
    HeaderWithin (store.checkpointState checkpoint)
      (store.replayBefore (versionAfter checkpoint)) := by
  cases checkpoint with
  | none => exact (SameTable.refl _).headerWithin
  | some file =>
    obtain ⟨rows, hrows, hwithin⟩ := h file rfl
    simp only [checkpointState, hrows, Except.toOption, Option.getD_some]
    exact hwithin

theorem sameTable_checkpointState (h : ∀ file ∈ checkpoint, store.ShowsTable file) :
    SameTable (store.checkpointState checkpoint) (store.replayBefore (versionAfter checkpoint)) := by
  cases checkpoint with
  | none => exact SameTable.refl _
  | some file =>
    obtain ⟨rows, hrows, hsame⟩ := h file rfl
    simp only [checkpointState, hrows, Except.toOption, Option.getD_some]
    exact hsame

/-- The state of a checkpoint with the commits after it replayed. -/
def rebuilt (store : LogStore) (checkpoint : Option CheckpointFile) (version : Nat) :
    ReconciledCheckpointState :=
  (store.checkpointState checkpoint).applyAll
    (store.rangeActions (versionAfter checkpoint) (version + 1 - versionAfter checkpoint))

theorem replayBefore_eq_tail {first version : Nat} (h : first ≤ version + 1) :
    store.replayBefore (version + 1) =
      (store.replayBefore first).applyAll (store.rangeActions first (version + 1 - first)) := by
  rw [← replayBefore_add, Nat.add_sub_cancel' h]

theorem sameTable_rebuilt {version : Nat} (h : ∀ file ∈ checkpoint, store.ShowsTable file)
    (hversion : versionAfter checkpoint ≤ version + 1) :
    SameTable (store.rebuilt checkpoint version) (store.replayBefore (version + 1)) := by
  rw [replayBefore_eq_tail hversion]
  exact (sameTable_checkpointState h).applyAll _

theorem replay_tailSegment (hlog : store.IsLog n) {version : Nat} (hv : version ≤ n)
    (hversion : versionAfter checkpoint ≤ version + 1)
    (hshows : ∀ file ∈ checkpoint, store.ShowsHeader file)
    (hproper : (store.tailSegment checkpoint version).Proper (versionAfter checkpoint) version)
    (hvalid : validateCommitContiguityWithCompactions (store.tailSegment checkpoint version).commitFiles (store.tailSegment checkpoint version).compactionFiles (versionAfter checkpoint) version = .ok ())
    {start : Nat}
    (hstart : start = (store.tailSegment checkpoint version).loaderStart (versionAfter checkpoint)
      version) :
    ∃ timestamps, checkpointReplayer.replayWithCompactions (store.checkpointState checkpoint)
        (store.tailSegment checkpoint version).commitFiles
        (store.tailSegment checkpoint version).compactionFiles start version =
      .ok (store.rebuilt checkpoint version, timestamps) := by
  have happlied : (store.tailSegment checkpoint version).applied start version =
      (store.tailSegment checkpoint version).commitFiles.map ReplayEntry.commit := by
    rcases Nat.lt_or_ge version (versionAfter checkpoint) with hlt | hle
    · have hnil : (store.tailSegment checkpoint version).commitFiles = [] := by
        simp [tailSegment, commitRange, Nat.sub_eq_zero_of_le hlt]
      simp [LogSegment.applied, hnil, show
        (store.tailSegment checkpoint version).compactionFiles = [] from rfl]
    · have htiles := hproper.tiles hle hvalid
      have hs : start = versionAfter checkpoint :=
        hstart.trans (LogSegment.loaderStart_eq hproper hvalid rfl hversion)
      rw [hs, LogSegment.applied_eq_merged hproper htiles,
        LogSegment.merged_of_no_compactions rfl hproper.commits_sorted]
  rw [checkpointReplayer.replayWithCompactions_eq _ hproper hvalid hstart, happlied]
  exact applyEntries_commitRange hlog _ .empty _ _ (by omega) (headerWithin_checkpointState hshows)

theorem load_eq (hlog : store.IsLog n) (hnone : store.compactions.entries = []) {version : Nat}
    (hv : version ≤ n)
    (hoffset : store.checkpointOffset version ≤ versionAfter (store.listedCheckpoint version))
    (hversion : versionAfter (store.listedCheckpoint version) ≤ version + 1)
    (hshows : ∀ file ∈ store.listedCheckpoint version, store.ShowsHeader file) :
    ∃ timestamps, store.loadReplayedTableState version =
      ReplayedTableState.ofReplay version
        (store.rebuilt (store.listedCheckpoint version) version) timestamps := by
  have hresolve := resolveForFullState_eq hlog hnone hv hoffset
  obtain ⟨hproper, hvalid⟩ := resolveForFullState_proper hresolve
  obtain ⟨start, hbase⟩ : ∃ start,
      store.baseState (store.tailSegment (store.listedCheckpoint version) version) version =
        .ok (store.checkpointState (store.listedCheckpoint version), start) := by
    unfold baseState
    rw [show (store.tailSegment (store.listedCheckpoint version) version).checkpoint =
      store.listedCheckpoint version from rfl]
    cases hcp : store.listedCheckpoint version with
    | none => exact ⟨0, rfl⟩
    | some file =>
      obtain ⟨rows, hrows, -⟩ := hshows file hcp
      simp only [hrows, checkpointState]
      exact ⟨_, rfl⟩
  obtain ⟨timestamps, hreplay⟩ := replay_tailSegment hlog hv hversion hshows hproper hvalid
    (baseState_start hbase)
  refine ⟨timestamps, ?_⟩
  unfold loadReplayedTableState
  rw [hresolve]
  show (store.baseState (store.tailSegment (store.listedCheckpoint version) version) version >>= fun base =>
    checkpointReplayer.replayWithCompactions base.1 _ _ base.2 version >>= fun replayed =>
      ReplayedTableState.ofReplay version replayed.1 replayed.2) = _
  rw [hbase]
  show (checkpointReplayer.replayWithCompactions _ _ _ start version >>= fun replayed =>
      ReplayedTableState.ofReplay version replayed.1 replayed.2) = _
  rw [hreplay]
  rfl

theorem exists_ofReplay (hlog : store.IsLog n) {version : Nat} {state : ReconciledCheckpointState}
    (hsame : SameTable state (store.replayBefore (version + 1))) (timestamps : Timestamps) :
    ∃ loaded, ReplayedTableState.ofReplay version state timestamps = .ok loaded ∧
      some loaded.protocol = state.protocol ∧ some loaded.metadata = state.metadata ∧
      loaded.txns = state.txns ∧ loaded.domainMetadata = state.domainMetadata ∧
      loaded.adds = state.adds ∧ loaded.removes = state.removes := by
  obtain ⟨hp, hm⟩ := hlog.header_isSome version
  obtain ⟨p, hp⟩ := Option.isSome_iff_exists.mp hp
  obtain ⟨m, hm⟩ := Option.isSome_iff_exists.mp hm
  have hp' := hsame.protocol.trans hp
  have hm' := hsame.metadata.trans hm
  unfold ReplayedTableState.ofReplay
  rw [hp', hm']
  exact ⟨_, rfl, rfl, rfl, rfl, rfl, rfl, rfl⟩

end LogStore

end Zelox.Delta
