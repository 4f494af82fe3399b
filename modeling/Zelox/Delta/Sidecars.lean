import Zelox.Delta.Cleanup

/-!
# Collecting sidecars

`cleanup_orphaned_sidecars` gathers the paths in the sidecar actions of the checkpoints
with a UUID in their names, without those that the listing or the read fails for, and
deletes a day-old sidecar whose file name is not among them.  It compares the file name
with the path as it is written in the action, which the reader also takes with its
directory (`sidecarFilePath`).  So a sidecar can go while a checkpoint that is still there
refers to it (`live_sidecar_collected`).
-/

namespace Zelox.Delta

open List

/-- `sidecar_file_path`; the normalisation of the object store's paths is left out. -/
def sidecarFilePath (sidecarFilename : String) : List Char :=
  let path := sidecarFilename.toList.dropWhile (· = '/')
  if "_delta_log/".toList.isPrefixOf path then path
  else if "_sidecars/".toList.isPrefixOf path then "_delta_log/".toList ++ path
  else "_delta_log/_sidecars/".toList ++ path

def SidecarFile.location (f : SidecarFile) : List Char :=
  "_delta_log/_sidecars/".toList ++ f.path.toList

def CheckpointFile.sidecarPaths (f : CheckpointFile) : List String :=
  (f.rows.filterMap CheckpointActionRow.sidecar).map Sidecar.path

/-- A sidecar that a checkpoint of the log refers to. -/
def LogStore.IsLive (store : LogStore) (f : SidecarFile) : Prop :=
  f ∈ store.sidecars.entries ∧ ∃ checkpoint ∈ store.checkpoints.entries,
    ∃ path ∈ checkpoint.sidecarPaths, sidecarFilePath path = f.location

/-- What the object store does in one collection, with times in milliseconds. -/
structure SidecarScan where
  /-- Entries of the log's listing that can be read. -/
  listed : CheckpointFile → Bool
  /-- Checkpoints whose bytes can be fetched and decoded. -/
  readable : CheckpointFile → Bool
  sidecarListed : SidecarFile → Bool
  lastModified : SidecarFile → Int
  now : Int
  /-- Sidecars whose deletion goes through. -/
  deleted : SidecarFile → Bool

namespace SidecarScan

def oneDayAgo (scan : SidecarScan) : Int := scan.now - 86400000

/-- The run of a cleanup in which sidecars are collected like this. -/
def run (scan : SidecarScan) (base : CleanupRun) : CleanupRun :=
  { base with
    sidecarListed := fun
      | .checkpoint f => scan.listed f && scan.readable f
      | _ => true
    collected := fun f =>
      scan.sidecarListed f && decide (scan.lastModified f ≤ scan.oneDayAgo) && scan.deleted f }

end SidecarScan

namespace LogStore

variable {store : LogStore} {scan : SidecarScan} {base : CleanupRun}

/-- No sidecar in use goes away. -/
def KeepsLive (store : LogStore) (run : CleanupRun) : Prop :=
  ∀ f, store.IsLive f → f ∈ (store.cleanupOrphanedSidecars run).2.sidecars.entries

/-- The collection sees a reference to the sidecar. -/
def SeesReference (store : LogStore) (scan : SidecarScan) (f : SidecarFile) : Prop :=
  ∃ checkpoint ∈ store.checkpoints.entries, isUuidCheckpointFilename checkpoint.name ∧
    scan.listed checkpoint ∧ scan.readable checkpoint ∧ f.fileName ∈ checkpoint.sidecarPaths

/-- A sidecar stays if a reference is seen, or it is not listed, young or not deleted. -/
theorem mem_sidecars_cleanup_iff {f : SidecarFile} :
    f ∈ (store.cleanupOrphanedSidecars (scan.run base)).2.sidecars.entries ↔
      f ∈ store.sidecars.entries ∧ (store.SeesReference scan f ∨ ¬ scan.sidecarListed f ∨
        scan.oneDayAgo < scan.lastModified f ∨ ¬ scan.deleted f) := by
  have hseen : f.fileName ∈ ((((store.files.filter (scan.run base).sidecarListed).filterMap
      LogFile.checkpoint?).filter fun g => isUuidCheckpointFilename g.name).flatMap fun g =>
        g.rows.filterMap CheckpointActionRow.sidecar).map Sidecar.path ↔
      store.SeesReference scan f := by
    rw [map_flatMap, mem_flatMap]
    constructor
    · rintro ⟨g, hg, hpath⟩
      obtain ⟨hg, huuid⟩ := mem_filter.mp hg
      obtain ⟨file, hfile, heq⟩ := mem_filterMap.mp hg
      obtain ⟨hmem, hlisted⟩ := mem_filter.mp hfile
      cases file with
      | checkpoint g' =>
        cases heq
        have := Bool.and_eq_true_iff.mp hlisted
        exact ⟨g, mem_files_checkpoint.mp hmem, huuid, this.1, this.2, hpath⟩
      | _ => cases heq
    · rintro ⟨g, hg, huuid, hlisted, hread, hpath⟩
      have hseen : (scan.run base).sidecarListed (.checkpoint g) :=
        Bool.and_eq_true_iff.mpr ⟨hlisted, hread⟩
      have hfile := mem_filter.mpr ⟨mem_files_checkpoint.mpr hg, hseen⟩
      exact ⟨g, mem_filter.mpr ⟨mem_filterMap.mpr ⟨_, hfile, rfl⟩, huuid⟩, hpath⟩
  show f ∈ store.sidecars.entries.filter _ ↔ _
  rw [mem_filter, ← hseen]
  refine and_congr_right fun _ => ?_
  simp only [SidecarScan.run, Bool.not_eq_true', Bool.and_eq_false_iff, Bool.not_eq_false',
    contains_iff_mem, decide_eq_false_iff_not, Int.not_le, Bool.not_eq_true]
  tauto

end LogStore

/-- A checkpoint under `name` that refers to the sidecar `s.parquet` as `path`. -/
def v2Log (name path : String) : LogStore where
  checkpoints := ⟨[⟨7, name, [{ sidecar := some ⟨path⟩ }]⟩], by simp⟩
  sidecars := ⟨[⟨"s.parquet", []⟩], by simp⟩

/-- All sidecars are two days old, and everything works but reads if `readable` is false. -/
def agedScan (readable : Bool) : SidecarScan where
  listed _ := true
  readable _ := readable
  sidecarListed _ := true
  lastModified _ := 0
  now := 172800000
  deleted _ := true

theorem v2Log_not_keepsLive {name path : String} {readable : Bool}
    (hpath : sidecarFilePath path = SidecarFile.location ⟨"s.parquet", []⟩)
    (hempty : ((v2Log name path).cleanupOrphanedSidecars
      ((agedScan readable).run LogStore.smoothRun)).2.sidecars.entries.isEmpty) :
    ¬ (v2Log name path).KeepsLive ((agedScan readable).run LogStore.smoothRun) := by
  intro hkeeps
  have hlive : (v2Log name path).IsLive ⟨"s.parquet", []⟩ :=
    ⟨mem_singleton.mpr rfl, _, mem_singleton.mpr rfl, path, mem_singleton.mpr rfl, hpath⟩
  have hmem := hkeeps _ hlive
  rw [List.isEmpty_iff.mp hempty] at hmem
  cases hmem

/-- The reference is in a classic-named or unreadable checkpoint, or written with the directory. -/
theorem live_sidecar_collected :
    ¬ (v2Log ".checkpoint.parquet" "s.parquet").KeepsLive ((agedScan true).run LogStore.smoothRun) ∧
    ¬ (v2Log ".checkpoint.00000000-0000-0000-0000-000000000000.parquet" "s.parquet").KeepsLive
      ((agedScan false).run LogStore.smoothRun) ∧
    ¬ (v2Log ".checkpoint.00000000-0000-0000-0000-000000000000.parquet"
      "_sidecars/s.parquet").KeepsLive ((agedScan true).run LogStore.smoothRun) :=
  ⟨v2Log_not_keepsLive (by decide) (by decide), v2Log_not_keepsLive (by decide) (by decide),
    v2Log_not_keepsLive (by decide) (by decide)⟩

/-- Sidecars in use stay exactly if a reference is seen, or they are not listed, young or not
deleted. -/
theorem cleanup_keeps_live_sidecars_iff (store : LogStore) (scan : SidecarScan)
    (base : CleanupRun) :
    store.KeepsLive (scan.run base) ↔ ∀ f, store.IsLive f →
      store.SeesReference scan f ∨ ¬ scan.sidecarListed f ∨
        scan.oneDayAgo < scan.lastModified f ∨ ¬ scan.deleted f := by
  refine forall₂_congr fun f hlive => ?_
  rw [LogStore.mem_sidecars_cleanup_iff, and_iff_right hlive.1]

end Zelox.Delta
