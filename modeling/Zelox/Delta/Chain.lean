import Zelox.Delta.Checkpoint
import Zelox.Delta.Expiry
import Zelox.Delta.TimeTravel
import Zelox.Lib.Runs

/-!
# Checkpoints built from checkpoints

Each checkpoint is written from the newest one before it, after expired entries were
dropped, so what it lacks depends on when its ancestors were written.  The invariant is
that every checkpoint reads as the full replay of its version up to entries that expired
at some call (`Sound`); every call keeps it (`Sound.afterCheckpoint`), and it gives what a
load at or after the newest checkpoint returns (`load_after_checkpoints`).
-/

namespace Zelox.Delta

open Runs List

namespace LogStore

/-- The cutoffs in force when a checkpoint is written, from the table's metadata at its version. -/
def retentionAt (log : LogStore) (call : CheckpointCall) :
    Option ReconciledCheckpointState.CheckpointRetentionTimestamps :=
  (log.replayBefore (call.version + 1)).metadata.bind fun metadata =>
    (ReconciledCheckpointState.CheckpointRetentionTimestamps.tryNew metadata call.now).toOption

def expiredAt (log : LogStore) (calls : List CheckpointCall) : Expired where
  txn txn := ∃ call ∈ calls, ∃ r ∈ log.retentionAt call, r.expiredTxn txn
  remove remove := ∃ call ∈ calls, ∃ r ∈ log.retentionAt call, r.expiredRemove remove

variable {store store' log : LogStore} {expired : Expired}

theorem replayBefore_congr (h : store.commits = store'.commits) (n : Nat) :
    store.replayBefore n = store'.replayBefore n := by
  unfold replayBefore rangeActions
  congr 2
  funext v
  simp only [commitActions, readCommitEntry, h]

theorem IsLog.congr {n : Nat} (hlog : log.IsLog n) (h : store.commits = log.commits) :
    store.IsLog n where
  commits := by
    rw [h]
    exact hlog.commits
  created := by
    rw [replayBefore_congr h]
    exact hlog.created
  timestamped v hv := by
    rw [replayBefore_congr h, show store.commitActions v = log.commitActions v by
      simp only [commitActions, readCommitEntry, h]]
    exact hlog.timestamped v hv

/-- A checkpoint that reads as the full replay, up to what has expired. -/
def Faithful (expired : Expired) (store : LogStore) (file : CheckpointFile) : Prop :=
  ∃ rows, store.readCheckpointRows file = .ok rows ∧
    UpTo expired (ReconciledCheckpointState.default.applyRows rows)
      (store.replayBefore (file.version + 1))

theorem Faithful.showsTable {file : CheckpointFile} (h : Faithful expired store file) :
    store.ShowsTable file := by
  obtain ⟨rows, hrows, hupTo⟩ := h
  exact ⟨rows, hrows, hupTo.toSameTable⟩

structure Sound (expired : Expired) (store : LogStore) : Prop where
  checkpoints : ∀ file ∈ store.checkpoints.entries, Faithful expired store file
  hint : ∀ version ∈ store.lastCheckpoint, ∃ file ∈ store.checkpoints.entries,
    file.version = version

/-- A new sidecar does not change what the older checkpoints read as. -/
theorem Wrote.reads_of_fresh {version : Nat} {state : ReconciledCheckpointState} {sidecar : String}
    {file g : CheckpointFile} (h : Wrote store store' version state sidecar file)
    (hfresh : store.sidecars.get? sidecar = none) {rows : List CheckpointActionRow}
    (hrows : store.readCheckpointRows g = .ok rows) : store'.readCheckpointRows g = .ok rows := by
  obtain ⟨parts, hparts, heq⟩ := Results.bind_eq_ok.mp hrows
  refine Results.bind_eq_ok.mpr ⟨parts, Results.mapM_mono ?_ hparts, heq⟩
  intro s _ part hpart
  rw [h.sidecars s.path ?_]
  · exact hpart
  · rintro rfl
    rw [hfresh] at hpart
    cases hpart

/-- What is rebuilt from a checkpoint, or from nothing, is the full replay up to what has
expired. -/
theorem Sound.rebuilt (h : Sound expired store) {checkpoint : Option CheckpointFile}
    (hmem : ∀ file ∈ checkpoint, file ∈ store.checkpoints.entries) {version : Nat}
    (hversion : versionAfter checkpoint ≤ version + 1) :
    UpTo expired (store.rebuilt checkpoint version) (store.replayBefore (version + 1)) := by
  rw [replayBefore_eq_tail hversion]
  apply UpTo.applyAll
  cases checkpoint with
  | none => exact UpTo.refl _ _
  | some file =>
    obtain ⟨rows, hrows, hupTo⟩ := h.checkpoints file (hmem file rfl)
    simp only [checkpointState, hrows, Except.toOption, Option.getD_some]
    exact hupTo

theorem Sound.wrote (h : Sound expired store) {call : CheckpointCall}
    (hcovers : ∀ r ∈ store.retentionAt call, expired.Covers r)
    (hcreate : store.createCheckpoint call = .ok store') :
    ∃ state file, UpTo expired state (store.replayBefore (call.version + 1)) ∧
      Wrote store store' call.version state (sidecarName call.sidecarUuid) file := by
  obtain ⟨metadata, r, file, hmetadata, hr, hwrote⟩ := createCheckpoint_ok hcreate
  have hreplayed := h.rebuilt (fun _ hfile => (mem_latestCheckpointEntry hfile).1)
    (store.versionAfter_latestCheckpointEntry_le call.version)
  refine ⟨_, file, hreplayed.prune (hcovers r ?_), hwrote⟩
  rw [hreplayed.metadata] at hmetadata
  simp [retentionAt, hmetadata, hr, Except.toOption]

theorem Sound.afterCheckpoint (h : Sound expired store) {call : CheckpointCall}
    (hfresh : store.sidecars.get? (sidecarName call.sidecarUuid) = none)
    (hcovers : ∀ r ∈ store.retentionAt call, expired.Covers r) :
    Sound expired (store.afterCheckpoint call) := by
  unfold LogStore.afterCheckpoint
  cases hcreate : store.createCheckpoint call with
  | error e => exact h
  | ok store' =>
    obtain ⟨state, file, hstate, hwrote⟩ := h.wrote hcovers hcreate
    have hnew : Faithful expired store' file := by
      obtain ⟨rows, hrows, hsame⟩ := hwrote.reads
      refine ⟨rows, hrows, ?_⟩
      rw [hwrote.version_eq, replayBefore_congr hwrote.commits]
      exact hstate.of_sameState hsame
    constructor
    · intro g hg
      rw [hwrote.checkpoints] at hg
      rcases KeyedMap.mem_insert.mp hg with rfl | ⟨hg, -⟩
      · exact hnew
      · obtain ⟨rows, hrows, hupTo⟩ := h.checkpoints g hg
        refine ⟨rows, hwrote.reads_of_fresh hfresh hrows, ?_⟩
        rw [replayBefore_congr hwrote.commits]
        exact hupTo
    · rw [hwrote.lastCheckpoint]
      rintro version hversion
      cases hversion
      refine ⟨file, ?_, hwrote.version_eq⟩
      rw [hwrote.checkpoints]
      exact KeyedMap.mem_insert.mpr (.inl rfl)

theorem afterCheckpoint_commits (store : LogStore) (call : CheckpointCall) :
    (store.afterCheckpoint call).commits = store.commits ∧
      (store.afterCheckpoint call).compactions = store.compactions := by
  unfold afterCheckpoint
  cases hcreate : store.createCheckpoint call with
  | error e => exact ⟨rfl, rfl⟩
  | ok store' =>
    obtain ⟨_, _, _, -, -, hwrote⟩ := createCheckpoint_ok hcreate
    exact ⟨hwrote.commits, hwrote.compactions⟩

/-- No sidecar has the name that a call draws. -/
def FreshSidecar (store : LogStore) (call : CheckpointCall) : Prop :=
  store.sidecars.get? (sidecarName call.sidecarUuid) = none

instance (store : LogStore) (call : CheckpointCall) : Decidable (FreshSidecar store call) :=
  inferInstanceAs (Decidable (_ = none))

/-- A log as its calls find it: nothing but the checkpoints has changed. -/
structure Chain (expired : Expired) (log store : LogStore) : Prop extends Sound expired store where
  commits : store.commits = log.commits
  compactions : store.compactions = log.compactions

theorem Chain.run {calls : List CheckpointCall}
    (hcheckpoints : log.checkpoints.entries = []) (hhint : log.lastCheckpoint = none)
    (hfresh : Along afterCheckpoint FreshSidecar log calls) :
    Chain (log.expiredAt calls) log (run afterCheckpoint log calls) := by
  have hinit : Chain (log.expiredAt calls) log log :=
    { checkpoints := by simp [hcheckpoints]
      hint := by simp [hhint]
      commits := rfl
      compactions := rfl }
  -- what has expired is fixed by the whole list, the induction is on the calls still to come
  have hrun : ∀ (rest : List CheckpointCall) (store : LogStore), (∀ call ∈ rest, call ∈ calls) →
      Along afterCheckpoint FreshSidecar store rest → Chain (log.expiredAt calls) log store →
      Chain (log.expiredAt calls) log (Runs.run afterCheckpoint store rest) := by
    intro rest
    induction rest with
    | nil => exact fun _ _ _ h => h
    | cons call rest ih =>
      intro store hmem hfresh h
      refine ih _ (fun c hc => hmem c (mem_cons_of_mem _ hc)) hfresh.2 ?_
      have hcall := hmem call mem_cons_self
      have hcovers : ∀ r ∈ store.retentionAt call, (log.expiredAt calls).Covers r := by
        intro r hr
        rw [retentionAt, replayBefore_congr h.commits] at hr
        exact ⟨fun _ ht => ⟨call, hcall, r, hr, ht⟩, fun _ ht => ⟨call, hcall, r, hr, ht⟩⟩
      obtain ⟨hcommits, hcompactions⟩ := store.afterCheckpoint_commits call
      exact { toSound := h.toSound.afterCheckpoint hfresh.1 hcovers
              commits := hcommits.trans h.commits
              compactions := hcompactions.trans h.compactions }
  exact hrun calls log (fun _ h => h) hfresh hinit

/-- At or after the newest checkpoint, a listing from the hint shows a checkpoint if there is
one. -/
theorem Sound.checkpointOffset_le (h : Sound expired store) {version : Nat}
    (hnewest : ∀ file ∈ store.checkpoints.entries, file.version ≤ version) :
    store.checkpointOffset version ≤ versionAfter (store.listedCheckpoint version) := by
  apply LogStore.checkpointOffset_le
  cases hhint : store.lastCheckpoint with
  | none =>
    right
    rw [checkpointOffset, hhint]
  | some hint =>
    left
    obtain ⟨file, hfile, hversion⟩ := h.hint hint hhint
    have hle := hnewest file hfile
    have hoff : store.checkpointOffset version = ((min hint version : Nat) : Int) - 1 := by
      rw [checkpointOffset, hhint]
    exact listedCheckpoint_isSome hfile (by omega) hle

end LogStore

open LogStore

/-- Whatever checkpoints are written, a version at or after the newest loads and shows what
replaying all its commits gives, but for what had expired at one of the calls. -/
theorem load_after_checkpoints (log : LogStore) (n : Nat) (hlog : log.IsLog n)
    (hcheckpoints : log.checkpoints.entries = []) (hhint : log.lastCheckpoint = none)
    (hcompactions : log.compactions.entries = []) (calls : List CheckpointCall)
    (hfresh : Along afterCheckpoint FreshSidecar log calls) (version : Nat) (hv : version ≤ n)
    (hnewest : ∀ file ∈ (run afterCheckpoint log calls).checkpoints.entries,
      file.version ≤ version) :
    ∃ loaded, (run afterCheckpoint log calls).loadReplayedTableState version = .ok loaded ∧
      some loaded.protocol = (log.replayBefore (version + 1)).protocol ∧
      some loaded.metadata = (log.replayBefore (version + 1)).metadata ∧
      (∀ d, loaded.domainMetadata.get? d =
        (log.replayBefore (version + 1)).domainMetadata.get? d) ∧
      (∀ k, loaded.adds.get? k = (log.replayBefore (version + 1)).adds.get? k) ∧
      (∀ appId, OnlyMissing (log.expiredAt calls).txn (loaded.txns.get? appId)
        ((log.replayBefore (version + 1)).txns.get? appId)) ∧
      ∀ k, OnlyMissing (log.expiredAt calls).remove (loaded.removes.get? k)
        ((log.replayBefore (version + 1)).removes.get? k) := by
  have hchain := Chain.run hcheckpoints hhint hfresh
  have hlog' := hlog.congr hchain.commits
  have hnone : (run afterCheckpoint log calls).compactions.entries = [] := by
    rw [hchain.compactions, hcompactions]
  obtain ⟨timestamps, hload⟩ := load_eq hlog' hnone hv
    (hchain.toSound.checkpointOffset_le hnewest) (versionAfter_listedCheckpoint_le _ _)
    fun file hfile =>
      (hchain.checkpoints file (mem_listedCheckpoint hfile).1).showsTable.showsHeader
  have hrebuilt := hchain.toSound.rebuilt (fun _ hfile => (mem_listedCheckpoint hfile).1)
    (versionAfter_listedCheckpoint_le (run afterCheckpoint log calls) version)
  obtain ⟨loaded, hok, hp, hm, ht, hd, ha, hr⟩ :=
    exists_ofReplay hlog' hrebuilt.toSameTable timestamps
  rw [replayBefore_congr hchain.commits] at hrebuilt
  refine ⟨loaded, hload.trans hok, hp.trans hrebuilt.protocol, hm.trans hrebuilt.metadata,
    ?_, ?_, ?_, ?_⟩
  · rw [hd]
    exact hrebuilt.domainMetadata
  · rw [ha]
    exact hrebuilt.adds
  · rw [ht]
    exact hrebuilt.txns
  · rw [hr]
    exact hrebuilt.removes

/-- A table with V2 checkpoints, whose first file is gone in version 1. -/
def rewrittenLog : LogStore where
  commits := KeyedMap.empty.insertAll [
    ⟨0, 0, [.protocol ⟨3, 7, some [.v2Checkpoint], some [.v2Checkpoint]⟩, .metadata { id := "t" },
      .txn ⟨"app", 1, some 0⟩, .add { path := "a", size := 1 }]⟩,
    ⟨1, 5, [.remove { path := "a", deletionTimestamp := some 5 }, .add { path := "b", size := 1 }]⟩,
    ⟨2, 9, [.add { path := "c", size := 1 }]⟩]

theorem rewrittenLog_isLog : rewrittenLog.IsLog 2 :=
  isLog_of_protocol ⟨3, 7, some [.v2Checkpoint], some [.v2Checkpoint]⟩ (by decide) (fun _ => rfl) (by decide)
    (by decide)

/-- Version 1 is checkpointed at once, version 2 from that when the tombstone has expired. -/
def rewrittenCalls : List CheckpointCall :=
  [⟨1, 10, "s1", "c1"⟩, ⟨2, 10000000000, "s2", "c2"⟩]

theorem rewrittenLog_load :
    (rewrittenLog.IsLog 2 ∧ rewrittenLog.checkpoints.entries = [] ∧
      rewrittenLog.lastCheckpoint = none ∧ rewrittenLog.compactions.entries = [] ∧
      Along afterCheckpoint FreshSidecar rewrittenLog rewrittenCalls ∧ 2 ≤ 2 ∧
      ∀ file ∈ (run afterCheckpoint rewrittenLog rewrittenCalls).checkpoints.entries,
        file.version ≤ 2) ∧
    ∃ loaded,
      (run afterCheckpoint rewrittenLog rewrittenCalls).loadReplayedTableState 2 = .ok loaded ∧
      some loaded.protocol = (rewrittenLog.replayBefore 3).protocol ∧
      some loaded.metadata = (rewrittenLog.replayBefore 3).metadata ∧
      (∀ d, loaded.domainMetadata.get? d = (rewrittenLog.replayBefore 3).domainMetadata.get? d) ∧
      (∀ k, loaded.adds.get? k = (rewrittenLog.replayBefore 3).adds.get? k) ∧
      (∀ appId, OnlyMissing (rewrittenLog.expiredAt rewrittenCalls).txn (loaded.txns.get? appId)
        ((rewrittenLog.replayBefore 3).txns.get? appId)) ∧
      ∀ k, OnlyMissing (rewrittenLog.expiredAt rewrittenCalls).remove (loaded.removes.get? k)
        ((rewrittenLog.replayBefore 3).removes.get? k) :=
  have hfresh : Along afterCheckpoint FreshSidecar rewrittenLog rewrittenCalls := by decide
  have hnewest : ∀ file ∈ (run afterCheckpoint rewrittenLog rewrittenCalls).checkpoints.entries,
      file.version ≤ 2 := by decide
  ⟨⟨rewrittenLog_isLog, rfl, rfl, rfl, hfresh, by decide, hnewest⟩,
    load_after_checkpoints rewrittenLog 2 rewrittenLog_isLog rfl rfl rfl rewrittenCalls hfresh 2
      (by decide) hnewest⟩

end Zelox.Delta
