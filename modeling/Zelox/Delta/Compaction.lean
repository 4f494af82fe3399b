import Zelox.Delta.Log
import Zelox.Delta.Written

/-!
# Log compaction

`create_log_compaction_for` reconciles the commits of a range from the empty state and
writes what remains as one file.  Two things that the commits said are not in it: the
removal of a domain, and the removal of a file whose tombstone is older than the given
time.  Read over a state from before the range, the file acts as the commits do exactly
if these removals have nothing to remove there (`compaction_transparent_iff`).
-/

namespace Zelox.Delta

open LastWrite List

/-- The lines of a compacted file. -/
def ReconciledCheckpointState.compactionActions (state : ReconciledCheckpointState)
    (minFileRetentionTimestamp : Int64) : List Action :=
  state.protocol.toList.map Action.protocol ++
  state.metadata.toList.map Action.metadata ++
  state.txns.entries.map Action.txn ++
  (state.domainMetadata.entries.filter fun d => !d.removed).map Action.domainMetadata ++
  (state.removes.entries.filter fun r =>
    r.deletionTimestamp.all fun ts => minFileRetentionTimestamp ≤ ts).map Action.remove ++
  state.adds.entries.map Action.add

/-- `create_log_compaction_for`; a file that exists already is left as it is. -/
def LogStore.createLogCompactionFor (store : LogStore) (startVersion endVersion : Nat)
    (minFileRetentionTimestamp now : Int64) : DeltaResult LogStore := do
  let commits ← (List.range' startVersion (endVersion + 1 - startVersion)).mapM fun version =>
    match store.readCommitEntry version with
    | some actions => .ok actions
    | none => .error s!"Missing commit file for version {version} during log compaction"
  let state := ReconciledCheckpointState.default.applyAll commits.flatten
  let found := commits.length
  let expected : Int := (endVersion : Int) - startVersion + 1
  if (found : Int) ≠ expected then
    .error s!"Expected {expected} commits for compaction [{startVersion}, {endVersion}], found {found}"
  else match store.compactions.get? (startVersion, endVersion) with
    | some _ => .ok store
    | none =>
      let file : CompactionFile :=
        ⟨startVersion, endVersion, now, state.compactionActions minFileRetentionTimestamp⟩
      .ok { store with compactions := store.compactions.insert file }

/-! ### The compacted file as a list of writes -/

section

variable (as : List Action) (minTs : Int64)

/-- The tombstones that a compaction keeps. -/
def Remove.retained (minTs : Int64) (r : Remove) : Bool :=
  r.deletionTimestamp.all fun ts => minTs ≤ ts

namespace ReconciledCheckpointState

variable (s : ReconciledCheckpointState)

/-- No domain of a state is a removed one: only tombstones are left out of the file. -/
theorem compactionActions_eq :
    s.compactionActions minTs = s.headerActions ++
      ((s.removes.filter (Remove.retained minTs)).entries.map Sum.inr ++
        s.adds.entries.map Sum.inl).map fileToAction := by
  have hlive : s.domainMetadata.entries.filter (fun d => !d.removed) =
      s.domainMetadata.entries := by
    rw [filter_eq_self]
    intro d hd
    rw [s.live d.domain d (KeyedMap.mem_entries_iff.mp hd)]
    rfl
  simp only [compactionActions, hlive, headerActions, map_append, map_map, append_assoc]
  rfl

/-- Of a file the compaction says what the state holds, its tombstone only while retained. -/
theorem lastWrite_file_compaction (k : LogicalFileKey) :
    lastWrite (Action.fileAction k) (s.compactionActions minTs) =
      ((s.adds.get? k).map Sum.inl).or
        (((s.removes.get? k).filter (Remove.retained minTs)).map Sum.inr) := by
  rw [compactionActions_eq, lastWrite_file_written, lastWrite_removes_adds, KeyedMap.get?_filter]

variable (t : ReconciledCheckpointState)

/-- The domain is right unless its removal has been dropped and the state had it. -/
theorem domain_compaction_iff (domain : String) :
    (t.applyAll ((default.applyAll as).compactionActions minTs)).domainMetadata.get? domain =
        (t.applyAll as).domainMetadata.get? domain ↔
      (lastWrite (Action.domainWrite domain) as = some none →
        t.domainMetadata.get? domain = none) := by
  rw [domainMetadata_applyAll, domainMetadata_applyAll, compactionActions_eq,
    lastWrite_domain_written, domainMetadata_applyAll]
  cases lastWrite (Action.domainWrite domain) as with
  | none => simp [default]
  | some d => cases d <;> simp

theorem file_compaction_iff (k : LogicalFileKey) :
    (t.applyAll ((default.applyAll as).compactionActions minTs)).adds.get? k =
        (t.applyAll as).adds.get? k ↔
      ∀ r, lastWrite (Action.fileAction k) as = some (.inr r) → r.retained minTs = false →
        t.adds.get? k = none := by
  rw [adds_applyAll, adds_applyAll, funext (Action.fileWrite_eq k), lastWrite_map, lastWrite_map,
    lastWrite_file_compaction, adds_default_applyAll, removes_default_applyAll]
  cases lastWrite (Action.fileAction k) as with
  | none => simp
  | some x =>
    cases x with
    | inl a => simp
    | inr r => cases hr : r.retained minTs <;> simp [hr, Option.filter]

theorem txns_compaction (appId : String) :
    (t.applyAll ((default.applyAll as).compactionActions minTs)).txns.get? appId =
      (t.applyAll as).txns.get? appId := by
  rw [txns_applyAll, txns_applyAll, compactionActions_eq, lastWrite_txn_written,
    lastWrite_txn_eq as]

theorem sameTable_compaction_iff :
    SameTable (t.applyAll ((default.applyAll as).compactionActions minTs)) (t.applyAll as) ↔
      (∀ k r, lastWrite (Action.fileAction k) as = some (.inr r) → r.retained minTs = false →
        t.adds.get? k = none) ∧
      ∀ d, lastWrite (Action.domainWrite d) as = some none → t.domainMetadata.get? d = none := by
  constructor
  · intro h
    exact ⟨fun k => (file_compaction_iff as minTs t k).mp (h.adds k),
      fun d => (domain_compaction_iff as minTs t d).mp (h.domainMetadata d)⟩
  · rintro ⟨hfiles, hdomains⟩
    refine ⟨?_, ?_, fun d => ?_, fun k => ?_⟩
    · rw [protocol_applyAll, protocol_applyAll, compactionActions_eq, lastWrite_protocol_written,
        lastWrite_protocol_eq as]
    · rw [metadata_applyAll, metadata_applyAll, compactionActions_eq, lastWrite_metadata_written,
        lastWrite_metadata_eq as]
    · exact (domain_compaction_iff as minTs t d).mpr (hdomains d)
    · exact (file_compaction_iff as minTs t k).mpr (hfiles k)

end ReconciledCheckpointState

end

/-! ### Transparency -/

namespace LogStore

variable (store : LogStore) (startVersion endVersion : Nat) (minTs now : Int64)

/-- The compaction file of a range whose commits are all there. -/
def compactedFile : CompactionFile where
  startVersion
  endVersion
  lastModified := now
  actions := (ReconciledCheckpointState.default.applyAll
    (store.rangeActions startVersion (endVersion + 1 - startVersion))).compactionActions minTs

theorem createLogCompactionFor_eq (hrange : startVersion ≤ endVersion)
    (hcommits : ∀ v, startVersion ≤ v → v ≤ endVersion → (store.commits.get? v).isSome)
    (hnew : store.compactions.get? (startVersion, endVersion) = none) :
    store.createLogCompactionFor startVersion endVersion minTs now = .ok { store with
      compactions := store.compactions.insert
        (store.compactedFile startVersion endVersion minTs now) } := by
  have hread : ((List.range' startVersion (endVersion + 1 - startVersion)).mapM fun version =>
      match store.readCommitEntry version with
      | some actions => Except.ok actions
      | none => .error s!"Missing commit file for version {version} during log compaction") =
      .ok ((List.range' startVersion (endVersion + 1 - startVersion)).map store.commitActions) := by
    apply Results.mapM_eq_ok
    intro v hv
    obtain ⟨h1, h2⟩ := mem_range'_1.mp hv
    obtain ⟨file, hfile⟩ := Option.isSome_iff_exists.mp (hcommits v h1 (by omega))
    simp [readCommitEntry, commitActions, hfile]
  have hcount : (((List.range' startVersion (endVersion + 1 - startVersion)).map
      store.commitActions).length : Int) = (endVersion : Int) - startVersion + 1 := by
    rw [length_map, length_range']
    omega
  rw [createLogCompactionFor, hread]
  simp only [bind, Except.bind, hcount, ne_eq, not_true_eq_false, if_false, hnew]
  rfl

/-- What a compaction leaves out does not matter to the state before it: the file of a removal that
is not retained, and a domain that the range ends by removing, are not there. -/
structure CompactionHarmless : Prop where
  files : ∀ k r, lastWrite (Action.fileAction k)
      (store.rangeActions startVersion (endVersion + 1 - startVersion)) = some (.inr r) →
    r.retained minTs = false → (store.replayBefore startVersion).adds.get? k = none
  domains : ∀ d, lastWrite (Action.domainWrite d)
      (store.rangeActions startVersion (endVersion + 1 - startVersion)) = some none →
    (store.replayBefore startVersion).domainMetadata.get? d = none

end LogStore

/-- A compaction acts as its commits exactly if the removals that it leaves out have nothing to
remove. -/
theorem compaction_transparent_iff (store : LogStore) (startVersion endVersion : Nat)
    (minTs now : Int64) (hrange : startVersion ≤ endVersion)
    (hcommits : ∀ v, v ≤ endVersion → (store.commits.get? v).isSome)
    (hnew : store.compactions.get? (startVersion, endVersion) = none) :
    ∃ store' file,
      store.createLogCompactionFor startVersion endVersion minTs now = .ok store' ∧
      store'.compactions.get? (startVersion, endVersion) = some file ∧
      ((SameTable ((store.replayBefore startVersion).applyAll file.actions)
          ((store.replayBefore startVersion).applyAll
            (store.rangeActions startVersion (endVersion + 1 - startVersion))) ∧
        ∀ appId, ((store.replayBefore startVersion).applyAll file.actions).txns.get? appId =
          ((store.replayBefore startVersion).applyAll
            (store.rangeActions startVersion (endVersion + 1 - startVersion))).txns.get? appId) ↔
      store.CompactionHarmless startVersion endVersion minTs) := by
  refine ⟨_, store.compactedFile startVersion endVersion minTs now,
    store.createLogCompactionFor_eq startVersion endVersion minTs now hrange
      (fun v _ h => hcommits v h) hnew, ?_, ?_⟩
  · exact (KeyedMap.get?_insert ..).trans (if_pos rfl)
  have hsame := ReconciledCheckpointState.sameTable_compaction_iff
    (store.rangeActions startVersion (endVersion + 1 - startVersion)) minTs
    (store.replayBefore startVersion)
  constructor
  · rintro ⟨h, -⟩
    obtain ⟨hfiles, hdomains⟩ := hsame.mp h
    exact ⟨hfiles, hdomains⟩
  · rintro ⟨hfiles, hdomains⟩
    exact ⟨hsame.mpr ⟨hfiles, hdomains⟩, fun appId =>
      ReconciledCheckpointState.txns_compaction _ minTs _ appId⟩

/-- A file and a domain come with the table and go in the next version. -/
def shortLivedLog : LogStore where
  commits := KeyedMap.empty.insertAll [
    ⟨0, 0, [.protocol ⟨1, 2, none, none⟩, .metadata { id := "t" }, .add { path := "a", size := 1 },
      .domainMetadata ⟨"d", "on", false⟩]⟩,
    ⟨1, 5, [.remove { path := "a", deletionTimestamp := some 5 },
      .domainMetadata ⟨"d", "on", true⟩]⟩,
    ⟨2, 9, [.add { path := "b", size := 2 }]⟩]

theorem shortLivedLog_commits : ∀ v, v ≤ 2 → (shortLivedLog.commits.get? v).isSome := by
  decide

theorem shortLivedLog_transparent_iff :
    (1 ≤ 2 ∧ (∀ v, v ≤ 2 → (shortLivedLog.commits.get? v).isSome) ∧
      shortLivedLog.compactions.get? (1, 2) = none) ∧
    ∃ store' file,
      shortLivedLog.createLogCompactionFor 1 2 3 10 = .ok store' ∧
      store'.compactions.get? (1, 2) = some file ∧
      ((SameTable ((shortLivedLog.replayBefore 1).applyAll file.actions)
          ((shortLivedLog.replayBefore 1).applyAll (shortLivedLog.rangeActions 1 2)) ∧
        ∀ appId, ((shortLivedLog.replayBefore 1).applyAll file.actions).txns.get? appId =
          ((shortLivedLog.replayBefore 1).applyAll
            (shortLivedLog.rangeActions 1 2)).txns.get? appId) ↔
      shortLivedLog.CompactionHarmless 1 2 3) :=
  ⟨⟨by decide, shortLivedLog_commits, rfl⟩,
    compaction_transparent_iff shortLivedLog 1 2 3 10 (by decide) shortLivedLog_commits rfl⟩

/-- With tombstones kept from time 6 on, the compaction brings the removed file and domain back. -/
theorem shortLivedLog_revived :
    ∃ store' file,
      shortLivedLog.createLogCompactionFor 1 2 6 10 = .ok store' ∧
      store'.compactions.get? (1, 2) = some file ∧
      ((shortLivedLog.replayBefore 1).applyAll file.actions).adds.get? ("a", none) =
        some { path := "a", size := 1 } ∧
      ((shortLivedLog.replayBefore 1).applyAll
        (shortLivedLog.rangeActions 1 2)).adds.get? ("a", none) = none ∧
      ((shortLivedLog.replayBefore 1).applyAll file.actions).domainMetadata.get? "d" =
        some ⟨"d", "on", false⟩ ∧
      ((shortLivedLog.replayBefore 1).applyAll
        (shortLivedLog.rangeActions 1 2)).domainMetadata.get? "d" = none :=
  ⟨_, _, rfl, rfl, by decide, by decide, by decide, by decide⟩

end Zelox.Delta
