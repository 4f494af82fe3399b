import Zelox.Delta.Chain

/-!
# Checkpoints in several parts

A checkpoint may be written as several files of one version, whose rows together are the
state.  Both users of checkpoints take one file only: the loader the first by name,
`create_checkpoint` the last in the listing.  Without a protocol and metadata they fail;
otherwise they lose the active files that only other parts have, and are right exactly if
the commits after the checkpoint speak of each of those again (`parts_right_iff`).
-/

namespace Zelox.Delta

open LastWrite ReconciledCheckpointState List Option

/-! ### Part of a written state -/

section

variable {state : ReconciledCheckpointState}

/-- The state written out, as a V1 checkpoint has it. -/
def ReconciledCheckpointState.allActions (state : ReconciledCheckpointState) : List Action :=
  state.headerActions ++ (state.removes.entries.map Sum.inr ++
    state.adds.entries.map Sum.inl).map fileToAction

theorem mem_allActions {a : Action} : a ∈ state.allActions ↔
    (∃ p, state.protocol = some p ∧ .protocol p = a) ∨
    (∃ m, state.metadata = some m ∧ .metadata m = a) ∨
    (∃ t ∈ state.txns.entries, .txn t = a) ∨
    (∃ d ∈ state.domainMetadata.entries, .domainMetadata d = a) ∨
    (∃ r ∈ state.removes.entries, .remove r = a) ∨ ∃ x ∈ state.adds.entries, .add x = a := by
  simp [allActions, headerActions, fileToAction]

theorem protocol_mem_allActions {p : Protocol} :
    .protocol p ∈ state.allActions ↔ state.protocol = some p := by
  simp [mem_allActions]

theorem metadata_mem_allActions {m : Metadata} :
    .metadata m ∈ state.allActions ↔ state.metadata = some m := by
  simp [mem_allActions]

theorem add_mem_allActions {a : Add} :
    .add a ∈ state.allActions ↔ state.adds.get? a.key = some a := by
  simp [mem_allActions, KeyedMap.mem_entries_iff]

theorem remove_mem_allActions {r : Remove} :
    .remove r ∈ state.allActions ↔ state.removes.get? r.key = some r := by
  simp [mem_allActions, KeyedMap.mem_entries_iff]

variable {as : List Action}

theorem headerWithin_of_subset (h : as ⊆ state.allActions) :
    HeaderWithin (default.applyAll as) state where
  protocol p hp := by
    have hlast := lastWrite_protocol_eq as
    rw [hp] at hlast
    obtain ⟨a, ha, hw⟩ := exists_of_lastWrite _ hlast
    cases a <;> cases hw
    exact protocol_mem_allActions.mp (h ha)
  metadata m hm := by
    have hlast := lastWrite_metadata_eq as
    rw [hm] at hlast
    obtain ⟨a, ha, hw⟩ := exists_of_lastWrite _ hlast
    cases a <;> cases hw
    exact metadata_mem_allActions.mp (h ha)

theorem adds_of_subset (h : as ⊆ state.allActions) {k : LogicalFileKey} {a : Add} :
    (default.applyAll as).adds.get? k = some a ↔ .add a ∈ as ∧ a.key = k := by
  rw [adds_default_applyAll]
  constructor
  · intro hget
    obtain ⟨x, hlast, hx⟩ := bind_eq_some_iff.mp hget
    obtain ⟨b, hb, hw⟩ := exists_of_lastWrite _ hlast
    cases x with
    | inr r => cases hx
    | inl a' =>
      cases hx
      cases b <;> simp only [Action.fileAction] at hw
      case add b =>
        split at hw
        next hk => cases hw; exact ⟨hb, hk.symm⟩
        next => cases hw
      case remove r =>
        split at hw <;> cases hw
      all_goals cases hw
  · rintro ⟨ha, rfl⟩
    have hstate := add_mem_allActions.mp (h ha)
    have hlast : lastWrite (Action.fileAction a.key) as = some (.inl a) := by
      apply lastWrite_eq_of_mem _ ha (if_pos rfl)
      intro b hb u hu
      cases b <;> simp only [Action.fileAction] at hu
      case add b =>
        split at hu
        next hk =>
          have hb := add_mem_allActions.mp (h hb)
          rw [← hk, hstate] at hb
          cases hb
          exact (some.inj hu).symm
        next => cases hu
      case remove r =>
        split at hu
        next hk =>
          -- no file is active and removed
          have hr := remove_mem_allActions.mp (h hb)
          rw [← hk] at hr
          rcases state.disjoint a.key with hd | hd
          · rw [hstate] at hd; cases hd
          · rw [hr] at hd; cases hd
        next => cases hu
      all_goals cases hu
    rw [hlast]
    rfl

/-- Over a part, commits give the files of the whole exactly if they mention each that it lacks. -/
theorem adds_part_eq_iff (h : as ⊆ state.allActions) (tail : List Action) :
    (∀ k, ((default.applyAll as).applyAll tail).adds.get? k = (state.applyAll tail).adds.get? k) ↔
      ∀ a, .add a ∈ state.allActions →
        .add a ∈ as ∨ ∃ b ∈ tail, (b.fileWrite a.key).isSome := by
  constructor
  · intro heq a ha
    have heq := heq a.key
    rw [adds_applyAll (ReconciledCheckpointState.default.applyAll as), adds_applyAll state,
      add_mem_allActions.mp ha] at heq
    cases hlast : lastWrite (Action.fileWrite a.key) tail with
    | some x =>
      exact .inr ((lastWrite_isSome_iff _).mp (isSome_of_eq_some hlast))
    | none =>
      rw [hlast] at heq
      exact .inl ((adds_of_subset h).mp heq).1
  · intro hall k
    rw [adds_applyAll (ReconciledCheckpointState.default.applyAll as), adds_applyAll state]
    cases hlast : lastWrite (Action.fileWrite k) tail with
    | some x => rfl
    | none =>
      cases hs : state.adds.get? k with
      | none =>
        cases hp : (default.applyAll as).adds.get? k with
        | none => rfl
        | some a =>
          obtain ⟨ha, rfl⟩ := (adds_of_subset h).mp hp
          rw [add_mem_allActions.mp (h ha)] at hs
          cases hs
      | some a =>
        have hk : a.key = k := KeyedMap.key_of_get? hs
        subst hk
        rcases hall a (add_mem_allActions.mpr hs) with ha | htouched
        · exact (adds_of_subset h).mpr ⟨ha, rfl⟩
        · have := (lastWrite_isSome_iff _).mpr htouched
          rw [hlast] at this
          cases this

theorem protocol_isSome_iff (as : List Action) :
    (default.applyAll as).protocol.isSome ↔ ∃ a ∈ as, a.protocolWrite.isSome := by
  rw [← lastWrite_isSome_iff, lastWrite_protocol_eq, isSome_map]

theorem metadata_isSome_iff (as : List Action) :
    (default.applyAll as).metadata.isSome ↔ ∃ a ∈ as, a.metadataWrite.isSome := by
  rw [← lastWrite_isSome_iff, lastWrite_metadata_eq, isSome_map]

end

/-! ### Which part is read -/

namespace LogStore

variable {store store' : LogStore} {n c version : Nat} {state : ReconciledCheckpointState}
  {file : CheckpointFile}

/-- The files of the checkpoint of a version, in the order of the listing. -/
def parts (store : LogStore) (c : Nat) : List CheckpointFile :=
  store.checkpoints.entries.filter fun f => f.version = c

def partActions (store : LogStore) (file : CheckpointFile) : List Action :=
  ((store.readCheckpointRows file).toOption.getD []).flatMap CheckpointActionRow.actions

/-- The newest checkpoint is that of `c`, and its files together show the table at `c`. -/
structure InParts (store : LogStore) (c : Nat) (state : ReconciledCheckpointState) : Prop where
  newest : ∀ file ∈ store.checkpoints.entries, file.version ≤ c
  reads : ∀ file ∈ store.parts c, ∃ rows, store.readCheckpointRows file = .ok rows
  holds : ((store.parts c).flatMap store.partActions).Perm state.allActions
  shows : SameTable state (store.replayBefore (c + 1))

theorem mem_parts : file ∈ store.parts c ↔ file ∈ store.checkpoints.entries ∧ file.version = c := by
  simp [parts]

theorem versionAfter_part (h : file ∈ store.parts c) : versionAfter (some file) = c + 1 :=
  congrArg Nat.succ (mem_parts.mp h).2

theorem InParts.subset (h : InParts store c state) (hfile : file ∈ store.parts c) :
    store.partActions file ⊆ state.allActions := fun _ ha =>
  h.holds.subset (mem_flatMap.mpr ⟨file, hfile, ha⟩)

theorem checkpointState_some (hread : ∃ rows, store.readCheckpointRows file = .ok rows) :
    store.checkpointState (some file) = default.applyAll (store.partActions file) := by
  obtain ⟨rows, hrows⟩ := hread
  simp only [checkpointState, partActions, hrows, Except.toOption, getD_some, applyRows_eq]

theorem InParts.showsHeader (h : InParts store c state) (hfile : file ∈ store.parts c) :
    store.ShowsHeader file := by
  obtain ⟨rows, hrows⟩ := h.reads file hfile
  refine ⟨rows, hrows, ?_⟩
  have hwithin := headerWithin_of_subset (h.subset hfile)
  rw [← checkpointState_some ⟨rows, hrows⟩] at hwithin
  simp only [checkpointState, hrows, Except.toOption, getD_some] at hwithin
  rw [(mem_parts.mp hfile).2]
  exact ⟨fun p hp => h.shows.protocol ▸ hwithin.protocol p hp,
    fun m hm => h.shows.metadata ▸ hwithin.metadata m hm⟩

/-- The loader takes the first part by name. -/
theorem InParts.listedCheckpoint_eq (h : InParts store c state) (hfile : file ∈ store.parts c)
    (hfirst : ∀ g ∈ store.parts c, file.name ≤ g.name)
    (hoffset : store.checkpointOffset version ≤ c) (hv : c ≤ version) :
    store.listedCheckpoint version = some file := by
  obtain ⟨hmem, hc⟩ := mem_parts.mp hfile
  have hsome : (store.listedCheckpoint version).isSome :=
    listedCheckpoint_isSome hmem (by omega) (by omega)
  obtain ⟨f, hf⟩ := isSome_iff_exists.mp hsome
  have hle := le_listedCheckpoint hf hmem (by omega) (by omega)
  have hfc : f ∈ store.parts c :=
    mem_parts.mpr ⟨(mem_listedCheckpoint hf).1,
      Nat.le_antisymm (h.newest f (mem_listedCheckpoint hf).1) (hc ▸ hle)⟩
  have hname : f.name ≤ file.name := newestCheckpoint_name_le hf (by
    simp [listFrom, hmem, hc, hoffset, hv]) (by rw [hc, (mem_parts.mp hfc).2])
  have heq : f = file := by
    have hlocation : f.location = file.location := by
      simp only [CheckpointFile.location, Prod.mk.injEq]
      exact ⟨by rw [hc, (mem_parts.mp hfc).2], String.le_antisymm hname (hfirst f hfc)⟩
    exact inj_on_of_nodup_map store.checkpoints.nodup (mem_parts.mp hfc).1 hmem hlocation
  rw [hf, heq]

/-- The next checkpoint is built from the last part in the listing. -/
theorem InParts.latestCheckpointEntry_eq (h : InParts store c state)
    (hlast : (store.parts c).getLast? = some file)
    (hoffset : store.checkpointOffset version ≤ c) (hv : c ≤ version) :
    store.latestCheckpointEntry version = some file := by
  apply SortBy.getLast?_sortBy (c := c)
  · intro g hg
    exact h.newest g (mem_filter.mp (mem_filter.mp hg).1).1
  · rw [← hlast, parts, listFrom, List.filter_filter, List.filter_filter]
    congr 1
    apply filter_congr
    intro g _
    by_cases hg : g.version = c
    · simp [hg, hoffset, hv]
    · simp [hg]

/-! ### What is rebuilt from one part -/

/-- The actions of the commits after `c`, up to `version`. -/
def actionsAfter (store : LogStore) (c version : Nat) : List Action :=
  store.rangeActions (c + 1) (version - c)

/-- A part and the commits after it give a protocol and metadata. -/
def HeaderKnown (store : LogStore) (file : CheckpointFile) (c version : Nat) : Prop :=
  (∃ a ∈ store.partActions file ++ store.actionsAfter c version, a.protocolWrite.isSome) ∧
    ∃ a ∈ store.partActions file ++ store.actionsAfter c version, a.metadataWrite.isSome

/-- Each active file of any part is in this one, or is mentioned again by the commits after. -/
def LosesNothing (store : LogStore) (file : CheckpointFile) (c version : Nat) : Prop :=
  ∀ g ∈ store.parts c, ∀ a, .add a ∈ store.partActions g → .add a ∈ store.partActions file ∨
    ∃ b ∈ store.actionsAfter c version, (b.fileWrite a.key).isSome

/-- Protocol, metadata and active files are those that replaying all commits gives. -/
def RightAt (store : LogStore) (version : Nat) (protocol : Option Protocol)
    (metadata : Option Metadata) (adds : KeyedMap Add.key) : Prop :=
  protocol = (store.replayBefore (version + 1)).protocol ∧
    metadata = (store.replayBefore (version + 1)).metadata ∧
    ∀ k, adds.get? k = (store.replayBefore (version + 1)).adds.get? k

section

variable (h : InParts store c state) (hfile : file ∈ store.parts c)
include h hfile

theorem InParts.rebuilt_eq :
    store.rebuilt (some file) version =
      (ReconciledCheckpointState.default.applyAll (store.partActions file)).applyAll
        (store.actionsAfter c version) := by
  rw [rebuilt, checkpointState_some (h.reads file hfile), actionsAfter, versionAfter_part hfile,
    Nat.add_sub_add_right]

theorem InParts.header_isSome_iff :
    (store.rebuilt (some file) version).protocol.isSome ∧
        (store.rebuilt (some file) version).metadata.isSome ↔
      store.HeaderKnown file c version := by
  rw [h.rebuilt_eq hfile, ← applyAll_append, protocol_isSome_iff, metadata_isSome_iff]
  rfl

theorem InParts.headerWithin_rebuilt (hv : c ≤ version) :
    HeaderWithin (store.rebuilt (some file) version) (store.replayBefore (version + 1)) := by
  rw [replayBefore_eq_tail (show versionAfter (some file) ≤ version + 1 by
    rw [versionAfter_part hfile]; omega)]
  apply HeaderWithin.applyAll
  apply headerWithin_checkpointState
  rintro _ ⟨⟩
  exact h.showsHeader hfile

/-- With a header known, what is rebuilt is right exactly if the part loses nothing. -/
theorem InParts.right_iff (hv : c ≤ version) (hknown : store.HeaderKnown file c version) :
    store.RightAt version (store.rebuilt (some file) version).protocol
        (store.rebuilt (some file) version).metadata (store.rebuilt (some file) version).adds ↔
      store.LosesNothing file c version := by
  have hfull : SameTable (state.applyAll (store.actionsAfter c version))
      (store.replayBefore (version + 1)) := by
    rw [replayBefore_eq_tail (show c + 1 ≤ version + 1 by omega), Nat.add_sub_add_right]
    exact h.shows.applyAll _
  obtain ⟨hp, hm⟩ := (h.header_isSome_iff hfile).mpr hknown
  rw [h.rebuilt_eq hfile] at hp hm ⊢
  obtain ⟨p, hp⟩ := isSome_iff_exists.mp hp
  obtain ⟨m, hm⟩ := isSome_iff_exists.mp hm
  have hwithin := (headerWithin_of_subset (h.subset hfile)).applyAll (store.actionsAfter c version)
  have hadds := adds_part_eq_iff (h.subset hfile) (store.actionsAfter c version)
  simp only [hfull.adds] at hadds
  rw [RightAt, hp, hm, ← hfull.protocol, ← hfull.metadata, hwithin.protocol p hp,
    hwithin.metadata m hm, hadds]
  simp only [true_and]
  constructor
  · intro hall g hg a ha
    exact hall a (h.subset hg ha)
  · intro hloses a ha
    obtain ⟨g, hg, hga⟩ := mem_flatMap.mp (h.holds.mem_iff.mpr ha)
    exact hloses g hg a hga

end

/-! ### The two users of a checkpoint -/

/-- A load fails, or is right. -/
def LoadRight (store : LogStore) (version : Nat) : Prop :=
  ∀ loaded, store.loadReplayedTableState version = .ok loaded →
    store.RightAt version (some loaded.protocol) (some loaded.metadata) loaded.adds

/-- Writing a checkpoint fails, or the file that it writes is right. -/
def CreateRight (store : LogStore) (call : CheckpointCall) : Prop :=
  ∀ store', store.createCheckpoint call = .ok store' → ∃ file rows,
    store'.checkpoints = store.checkpoints.insert file ∧ file.version = call.version ∧
    store'.readCheckpointRows file = .ok rows ∧
    store.RightAt call.version (ReconciledCheckpointState.default.applyRows rows).protocol
      (ReconciledCheckpointState.default.applyRows rows).metadata
      (ReconciledCheckpointState.default.applyRows rows).adds

theorem InParts.listedCheckpoint_eq_none (h : InParts store c state)
    (hoffset : (c : Int) < store.checkpointOffset version) :
    store.listedCheckpoint version = none ∧ store.latestCheckpointEntry version = none := by
  constructor
  · cases hcp : store.listedCheckpoint version with
    | none => rfl
    | some f =>
      obtain ⟨hmem, hge, -⟩ := mem_listedCheckpoint hcp
      have := h.newest f hmem
      omega
  · cases hcp : store.latestCheckpointEntry version with
    | none => rfl
    | some f =>
      obtain ⟨hmem, hge, -⟩ := mem_latestCheckpointEntry hcp
      have := h.newest f hmem
      omega

theorem InParts.loadRight_iff (h : InParts store c state) (hlog : store.IsLog n)
    (hcompactions : store.compactions.entries = []) (hfile : file ∈ store.parts c)
    (hfirst : ∀ g ∈ store.parts c, file.name ≤ g.name) (hc : c ≤ version) (hv : version ≤ n) :
    store.LoadRight version ↔ (c : Int) < store.checkpointOffset version ∨
      ¬ store.HeaderKnown file c version ∨ store.LosesNothing file c version := by
  by_cases hlt : (c : Int) < store.checkpointOffset version
  · refine iff_of_true (fun loaded hload => ?_) (.inl hlt)
    obtain ⟨segment, hok, -⟩ := Results.bind_eq_ok.mp hload
    exact absurd hok (resolveForFullState_error (h.listedCheckpoint_eq_none hlt).1 (by omega)
      hcompactions)
  have hlisted := h.listedCheckpoint_eq hfile hfirst (not_lt.mp hlt) hc
  have hafter := versionAfter_part hfile
  obtain ⟨timestamps, hload⟩ := load_eq hlog hcompactions hv (by rw [hlisted, hafter]; omega)
    (by rw [hlisted, hafter]; omega) (by
      rw [hlisted]
      rintro _ ⟨⟩
      exact h.showsHeader hfile)
  rw [hlisted] at hload
  simp only [hlt, false_or]
  unfold LoadRight
  rw [hload]
  by_cases hknown : store.HeaderKnown file c version
  · obtain ⟨hp, hm⟩ := (h.header_isSome_iff hfile).mpr hknown
    obtain ⟨p, hp⟩ := isSome_iff_exists.mp hp
    obtain ⟨m, hm⟩ := isSome_iff_exists.mp hm
    rw [← h.right_iff hfile hc hknown]
    simp only [ReplayedTableState.ofReplay, hp, hm, Except.ok.injEq, forall_eq', hknown,
      not_true_eq_false, false_or]
  · refine iff_of_true (fun loaded hloaded => absurd ?_ hknown) (.inl hknown)
    rw [← h.header_isSome_iff hfile]
    unfold ReplayedTableState.ofReplay at hloaded
    split at hloaded
    · cases hloaded
    · cases hloaded
    next hp hm => exact ⟨by rw [hp]; rfl, by rw [hm]; rfl⟩

/-- A written checkpoint is right if the state it was written from is. -/
theorem createRight_of_wrote {call : CheckpointCall} {state' : ReconciledCheckpointState}
    {sidecar : String} (hwrote : Wrote store store' call.version state' sidecar file) :
    (∃ file rows, store'.checkpoints = store.checkpoints.insert file ∧
      file.version = call.version ∧ store'.readCheckpointRows file = .ok rows ∧
      store.RightAt call.version (ReconciledCheckpointState.default.applyRows rows).protocol
        (ReconciledCheckpointState.default.applyRows rows).metadata
        (ReconciledCheckpointState.default.applyRows rows).adds) ↔
      store.RightAt call.version state'.protocol state'.metadata state'.adds := by
  obtain ⟨rows, hrows, hsame⟩ := hwrote.reads
  have hright : store.RightAt call.version
      (ReconciledCheckpointState.default.applyRows rows).protocol
      (ReconciledCheckpointState.default.applyRows rows).metadata
      (ReconciledCheckpointState.default.applyRows rows).adds ↔
      store.RightAt call.version state'.protocol state'.metadata state'.adds := by
    simp only [RightAt, hsame.protocol, hsame.metadata, hsame.adds]
  constructor
  · rintro ⟨file', rows', hinsert, -, hrows', h⟩
    have hfile : file' = file := by
      have hentries := congrArg KeyedMap.entries (hinsert.symm.trans hwrote.checkpoints)
      exact (append_inj' hentries rfl).2 |> singleton_inj.mp
    subst hfile
    rw [hrows] at hrows'
    cases hrows'
    exact hright.mp h
  · intro h
    exact ⟨file, rows, hwrote.checkpoints, hwrote.version_eq, hrows, hright.mpr h⟩

theorem InParts.createRight_iff (h : InParts store c state) (hlog : store.IsLog n)
    {call : CheckpointCall} (hlast : (store.parts c).getLast? = some file)
    (hc : c ≤ call.version) (hv : call.version ≤ n) :
    store.CreateRight call ↔ (c : Int) < store.checkpointOffset call.version ∨
      ¬ store.HeaderKnown file c call.version ∨ store.retentionAt call = none ∨
      store.LosesNothing file c call.version := by
  by_cases hlt : (c : Int) < store.checkpointOffset call.version
  · refine iff_of_true (fun store' hok => ?_) (.inl hlt)
    obtain ⟨m, r, f, -, -, hwrote⟩ := createCheckpoint_ok hok
    rw [(h.listedCheckpoint_eq_none hlt).2] at hwrote
    exact (createRight_of_wrote hwrote).mpr ⟨rfl, rfl, fun _ => rfl⟩
  have hfile : file ∈ store.parts c := mem_of_getLast? hlast
  have hlatest := h.latestCheckpointEntry_eq hlast (not_lt.mp hlt) hc
  simp only [hlt, false_or]
  by_cases hknown : store.HeaderKnown file c call.version
  · have hright := h.right_iff hfile hc hknown
    obtain ⟨hp, hm⟩ := (h.header_isSome_iff hfile).mpr hknown
    obtain ⟨m, hm⟩ := isSome_iff_exists.mp hm
    have hwithin := h.headerWithin_rebuilt hfile hc
    simp only [hknown, not_true_eq_false, false_or, retentionAt, hwithin.metadata m hm, bind_some]
    cases hr : CheckpointRetentionTimestamps.tryNew m call.now with
    | error e =>
      refine iff_of_true (fun store' hok => ?_) (.inl rfl)
      obtain ⟨m', r, f, hm', hr', -⟩ := createCheckpoint_ok hok
      rw [hlatest, hm] at hm'
      cases hm'
      rw [hr] at hr'
      cases hr'
    | ok r =>
      obtain ⟨store', hok⟩ := createCheckpoint_isOk hlog hv
        (by rw [hlatest, versionAfter_part hfile]; omega) (by
          rw [hlatest]
          rintro _ ⟨⟩
          exact h.showsHeader hfile) (by rw [hlatest]) hp hm hr
      obtain ⟨m', r', f, -, -, hwrote⟩ := createCheckpoint_ok hok
      rw [hlatest] at hwrote
      simp only [CreateRight, hok, Except.ok.injEq, forall_eq', createRight_of_wrote hwrote,
        Except.toOption, reduceCtorEq, false_or]
      exact hright
  · refine iff_of_true (fun store' hok => absurd ?_ hknown) (.inl hknown)
    obtain ⟨m', r', f, -, -, hwrote⟩ := createCheckpoint_ok hok
    rw [hlatest] at hwrote
    exact (h.header_isSome_iff hfile).mp hwrote.created

end LogStore

open LogStore

/-- For a checkpoint in any number of parts, a load at or after it fails or is right exactly if it
is not listed, no header is known, or the first part by name loses nothing; so does the next
checkpoint, for the last part listed. -/
theorem parts_right_iff (store : LogStore) (n : Nat) (hlog : store.IsLog n) (c : Nat)
    (state : ReconciledCheckpointState) (hparts : store.InParts c state)
    (first last : CheckpointFile) (hfirst : first ∈ store.parts c)
    (hname : ∀ g ∈ store.parts c, first.name ≤ g.name)
    (hlast : (store.parts c).getLast? = some last) :
    (store.compactions.entries = [] → ∀ version, c ≤ version → version ≤ n →
      (store.LoadRight version ↔ (c : Int) < store.checkpointOffset version ∨
        ¬ store.HeaderKnown first c version ∨ store.LosesNothing first c version)) ∧
    ∀ call : CheckpointCall, c ≤ call.version → call.version ≤ n →
      (store.CreateRight call ↔ (c : Int) < store.checkpointOffset call.version ∨
        ¬ store.HeaderKnown last c call.version ∨ store.retentionAt call = none ∨
        store.LosesNothing last c call.version) :=
  ⟨fun hcompactions _ hc hv => hparts.loadRight_iff hlog hcompactions hfirst hname hc hv,
    fun _ hc hv => hparts.createRight_iff hlog hlast hc hv⟩

/-- Two files, and a checkpoint in two parts with one of them each. -/
def twoParts : LogStore where
  commits := KeyedMap.empty.insertAll [
    ⟨0, 0, [.protocol ⟨1, 2, none, none⟩, .metadata { id := "t" }, .add { path := "a", size := 1 },
      .add { path := "b", size := 1 }]⟩]
  checkpoints := KeyedMap.empty.insertAll [
    ⟨0, ".checkpoint.0000000002.0000000002.parquet", [{ add := some { path := "b", size := 1 } }]⟩,
    ⟨0, ".checkpoint.0000000001.0000000002.parquet",
      [{ protocol := some ⟨1, 2, none, none⟩ }, { metadata := some { id := "t" } },
        { add := some { path := "a", size := 1 } }]⟩]
  lastCheckpoint := some 0

theorem twoParts_isLog : twoParts.IsLog 0 :=
  isLog_of_protocol ⟨1, 2, none, none⟩ (by decide) (fun _ => rfl) (by decide)
    (by decide)

theorem twoParts_inParts : twoParts.InParts 0 (twoParts.replayBefore 1) where
  newest := by decide
  reads := by
    intro file hfile
    have hnone : ∀ file ∈ twoParts.parts 0,
        file.rows.filterMap CheckpointActionRow.sidecar = [] := by decide
    exact ⟨_, by rw [readCheckpointRows, hnone file hfile]; rfl⟩
  holds := by decide
  shows := SameTable.refl _

/-- The part that both read. -/
def readPart : CheckpointFile :=
  ⟨0, ".checkpoint.0000000001.0000000002.parquet",
    [{ protocol := some ⟨1, 2, none, none⟩ }, { metadata := some { id := "t" } },
      { add := some { path := "a", size := 1 } }]⟩

theorem twoParts_right_iff :
    (twoParts.IsLog 0 ∧ twoParts.InParts 0 (twoParts.replayBefore 1) ∧
      readPart ∈ twoParts.parts 0 ∧ (∀ g ∈ twoParts.parts 0, readPart.name ≤ g.name) ∧
      (twoParts.parts 0).getLast? = some readPart) ∧
    (twoParts.compactions.entries = [] → ∀ version, 0 ≤ version → version ≤ 0 →
      (twoParts.LoadRight version ↔ ((0 : Nat) : Int) < twoParts.checkpointOffset version ∨
        ¬ twoParts.HeaderKnown readPart 0 version ∨ twoParts.LosesNothing readPart 0 version)) ∧
    ∀ call : CheckpointCall, 0 ≤ call.version → call.version ≤ 0 →
      (twoParts.CreateRight call ↔ ((0 : Nat) : Int) < twoParts.checkpointOffset call.version ∨
        ¬ twoParts.HeaderKnown readPart 0 call.version ∨ twoParts.retentionAt call = none ∨
        twoParts.LosesNothing readPart 0 call.version) :=
  have hfirst : readPart ∈ twoParts.parts 0 := mem_of_getLast? rfl
  have hname : ∀ g ∈ twoParts.parts 0, readPart.name ≤ g.name := by decide
  ⟨⟨twoParts_isLog, twoParts_inParts, hfirst, hname, rfl⟩,
    parts_right_iff twoParts 0 twoParts_isLog 0 _ twoParts_inParts readPart readPart hfirst hname
      rfl⟩

/-- Both succeed without the file of the other part. -/
theorem twoParts_lost :
    (twoParts.replayBefore 1).adds.get? ("b", none) = some { path := "b", size := 1 } ∧
    ((twoParts.loadReplayedTableState 0).toOption.map fun loaded =>
      loaded.adds.get? ("b", none)) = some none ∧
    ((twoParts.createCheckpoint ⟨0, 0, "s", "c"⟩).toOption.map fun store =>
      store.checkpoints.entries.getLast?.map fun file =>
        (file.name, file.rows.filterMap CheckpointActionRow.add)) =
      some (some (".checkpoint.parquet", [{ path := "a", size := 1 }])) := by
  decide

end Zelox.Delta
