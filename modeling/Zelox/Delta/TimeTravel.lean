import Zelox.Delta.Load

/-!
# Which versions can be loaded

The listing for version `v` starts one version before the hinted checkpoint, or before
`v` itself if the hint is newer.  If it shows a checkpoint, the commits after it are
listed too and `v` loads.  If it shows none, the replay has to start at version 0, whose
commit is listed only if the listing starts there.  So versions older than the hint load
only next to a checkpoint or at the very start of the log (`load_isOk_iff`).
-/

namespace Zelox.Delta

open List

section

variable {candidates : List CheckpointFile}

theorem newestCheckpoint_spec {file : CheckpointFile}
    (h : newestCheckpoint candidates = some file) :
    file ∈ candidates ∧ ∀ g ∈ candidates, g.version ≤ file.version := by
  obtain ⟨latest, hlatest, hhead⟩ := Option.bind_eq_some_iff.mp h
  have hmem := (mem_insertionSort _).mp (mem_of_head? hhead)
  obtain ⟨hfile, hversion⟩ := mem_filter.mp hmem
  refine ⟨hfile, fun g hg => ?_⟩
  rw [of_decide_eq_true hversion]
  exact (max?_eq_some_iff.mp hlatest).2 _ (mem_map_of_mem hg)

/-- Of the newest files it is the first by name. -/
theorem newestCheckpoint_name_le {file g : CheckpointFile}
    (h : newestCheckpoint candidates = some file) (hg : g ∈ candidates)
    (hversion : g.version = file.version) : file.name ≤ g.name := by
  obtain ⟨latest, -, hhead⟩ := Option.bind_eq_some_iff.mp h
  have hmem := (mem_insertionSort _).mp (mem_of_head? hhead)
  have hfile : file.version = latest := of_decide_eq_true (mem_filter.mp hmem).2
  have hg' : g ∈ (candidates.filter fun f => f.version = latest).insertionSort
      fun a b => a.name ≤ b.name :=
    (mem_insertionSort _).mpr (mem_filter.mpr ⟨hg, by simp [hversion, hfile]⟩)
  have hsorted := pairwise_insertionSort (fun a b : CheckpointFile => a.name ≤ b.name)
    (candidates.filter fun f => f.version = latest)
  rcases SortBy.rel_of_head? hsorted hhead hg' with rfl | hle
  · exact String.le_refl _
  · exact hle

theorem newestCheckpoint_isSome {f : CheckpointFile}
    (hf : f ∈ candidates) : (newestCheckpoint candidates).isSome := by
  unfold newestCheckpoint
  cases hmax : (candidates.map CheckpointFile.version).max? with
  | none =>
    have := max?_eq_none_iff.mp hmax
    simp [map_eq_nil_iff.mp this] at hf
  | some latest =>
    obtain ⟨g, hg, hversion⟩ := mem_map.mp (max?_eq_some_iff.mp hmax).1
    have hne : (candidates.filter fun f => f.version = latest).insertionSort
        (fun a b => a.name ≤ b.name) ≠ [] := by
      apply ne_nil_of_mem
      exact (mem_insertionSort _).mpr (mem_filter.mpr ⟨hg, by simpa using hversion⟩)
    simpa [Option.isSome_iff_ne_none, head?_eq_none_iff] using hne

end

namespace LogStore

variable {store : LogStore} {n version : Nat}

theorem mem_listedCheckpoint {file : CheckpointFile}
    (h : store.listedCheckpoint version = some file) :
    file ∈ store.checkpoints.entries ∧ store.checkpointOffset version ≤ file.version ∧
      file.version ≤ version := by
  obtain ⟨hmem, -⟩ := newestCheckpoint_spec h
  obtain ⟨hmem, hle⟩ := mem_filter.mp hmem
  obtain ⟨hmem, hoffset⟩ := mem_filter.mp hmem
  exact ⟨hmem, of_decide_eq_true hoffset, of_decide_eq_true hle⟩

theorem le_listedCheckpoint {file g : CheckpointFile}
    (h : store.listedCheckpoint version = some file) (hg : g ∈ store.checkpoints.entries)
    (hoffset : store.checkpointOffset version ≤ g.version) (hv : g.version ≤ version) :
    g.version ≤ file.version := by
  apply (newestCheckpoint_spec h).2 g
  simp [listFrom, hg, hoffset, hv]

theorem listedCheckpoint_isSome {g : CheckpointFile} (hg : g ∈ store.checkpoints.entries)
    (hoffset : store.checkpointOffset version ≤ g.version) (hv : g.version ≤ version) :
    (store.listedCheckpoint version).isSome := by
  apply newestCheckpoint_isSome (f := g)
  simp [listFrom, hg, hoffset, hv]

theorem versionAfter_listedCheckpoint_le (store : LogStore) (version : Nat) :
    versionAfter (store.listedCheckpoint version) ≤ version + 1 := by
  cases h : store.listedCheckpoint version with
  | none => exact Nat.zero_le _
  | some file => exact Nat.succ_le_succ (mem_listedCheckpoint h).2.2

/-- With a checkpoint listed, or the listing from the start, nothing that is needed is cut off. -/
theorem checkpointOffset_le
    (h : (store.listedCheckpoint version).isSome ∨ store.checkpointOffset version ≤ 0) :
    store.checkpointOffset version ≤ versionAfter (store.listedCheckpoint version) := by
  cases hcp : store.listedCheckpoint version with
  | none =>
    rcases h with h | h
    · simp [hcp] at h
    · exact h
  | some file =>
    have := (mem_listedCheckpoint hcp).2.1
    simp only [versionAfter, Option.elim_some]
    omega

/-- A replay from version 0 fails if the listing starts later. -/
theorem resolveForFullState_error (hnone : store.listedCheckpoint version = none)
    (hoffset : 0 < store.checkpointOffset version) {segment : LogSegment}
    (hcompactions : store.compactions.entries = []) :
    store.resolveForFullState version ≠ .ok segment := by
  intro hok
  obtain ⟨hproper, hvalid⟩ := resolveForFullState_proper hok
  obtain ⟨_, -, heq⟩ := Results.bind_eq_ok.mp hok
  cases heq
  have hfirst : versionAfter (store.listedCheckpoint version) = 0 := by rw [hnone]; rfl
  have htiles := hproper.tiles (hfirst ▸ Nat.zero_le _) hvalid
  -- version 0 is not among the files listed
  obtain ⟨e, he, hzero⟩ := LogSegment.exists_first htiles (hfirst ▸ Nat.zero_le _)
  rcases LogSegment.mem_merged.mp he with ⟨f, hf, rfl⟩ | ⟨f, hf, rfl⟩
  · have hf := (mem_filter.mp ((resolveCompactions_sublist _ _).subset hf)).1
    have hf := (mem_filter.mp ((mem_insertionSort _).mp hf)).1
    have := of_decide_eq_true (mem_filter.mp hf).2
    have hzero : f.version = 0 := hzero.trans hfirst
    omega
  · have hf := (mem_filter.mp (mem_resolveCompactions hf)).1
    have hf := (mem_filter.mp ((mem_insertionSort _).mp hf)).1
    have := (mem_filter.mp hf).1
    rw [hcompactions] at this
    cases this

end LogStore

open LogStore

/-- With all commits there and checkpoints that show the table, a version loads exactly if it is not
older than the hint, or is one of the first two, or is, or follows, a checkpoint. -/
theorem load_isOk_iff (store : LogStore) (n : Nat) (hlog : store.IsLog n)
    (hcompactions : store.compactions.entries = [])
    (hcheckpoints : ∀ file ∈ store.checkpoints.entries, file.version ≤ n ∧ store.ShowsTable file)
    (hint : Nat) (hhint : store.lastCheckpoint = some hint)
    (hnamed : ∃ file ∈ store.checkpoints.entries, file.version = hint) (version : Nat)
    (hv : version ≤ n) :
    (∃ state, store.loadReplayedTableState version = .ok state) ↔
      hint ≤ version ∨ version ≤ 1 ∨
        ∃ file ∈ store.checkpoints.entries, file.version = version ∨ file.version + 1 = version := by
  have hoff : store.checkpointOffset version = ((min hint version : Nat) : Int) - 1 := by
    rw [checkpointOffset, hhint]
  constructor
  · rintro ⟨state, hload⟩
    by_contra hcond
    push Not at hcond
    obtain ⟨hnewer, htwo, hnear⟩ := hcond
    have hnone : store.listedCheckpoint version = none := by
      cases hcp : store.listedCheckpoint version with
      | none => rfl
      | some file =>
        obtain ⟨hmem, hge, hle⟩ := mem_listedCheckpoint hcp
        have := hnear file hmem
        omega
    obtain ⟨segment, hok, -⟩ := Results.bind_eq_ok.mp hload
    exact resolveForFullState_error hnone (by omega) hcompactions hok
  · intro hcond
    have hreach : (store.listedCheckpoint version).isSome ∨ store.checkpointOffset version ≤ 0 := by
      rcases hcond with h | h | ⟨file, hmem, hnear⟩
      · obtain ⟨file, hmem, hversion⟩ := hnamed
        exact .inl (listedCheckpoint_isSome hmem (by omega) (by omega))
      · exact .inr (by omega)
      · exact .inl (listedCheckpoint_isSome hmem (by omega) (by omega))
    have hshows : ∀ file ∈ store.listedCheckpoint version, store.ShowsTable file :=
      fun file hfile => (hcheckpoints file (mem_listedCheckpoint hfile).1).2
    obtain ⟨timestamps, hload⟩ := load_eq hlog hcompactions hv
      (checkpointOffset_le hreach) (store.versionAfter_listedCheckpoint_le version)
      fun file hfile => (hshows file hfile).showsHeader
    obtain ⟨loaded, hok, -⟩ := exists_ofReplay hlog
      (sameTable_rebuilt hshows (store.versionAfter_listedCheckpoint_le version)) timestamps
    exact ⟨loaded, hload.trans hok⟩

/-- Four versions, the last of them checkpointed. -/
def checkpointedAtEnd : LogStore where
  commits := KeyedMap.empty.insertAll [
    ⟨0, 0, [.protocol ⟨1, 2, none, none⟩, .metadata { id := "t" }]⟩,
    ⟨1, 1, [.add { path := "a", size := 1 }]⟩,
    ⟨2, 2, [.add { path := "b", size := 1 }]⟩,
    ⟨3, 3, [.add { path := "c", size := 1 }]⟩]
  checkpoints := KeyedMap.empty.insertAll [
    ⟨3, ".checkpoint.parquet",
      [{ protocol := some ⟨1, 2, none, none⟩ }, { metadata := some { id := "t" } },
        { add := some { path := "a", size := 1 } }, { add := some { path := "b", size := 1 } },
        { add := some { path := "c", size := 1 } }]⟩]
  lastCheckpoint := some 3

theorem checkpointedAtEnd_isLog : checkpointedAtEnd.IsLog 3 :=
  isLog_of_protocol ⟨1, 2, none, none⟩ (by decide) (fun _ => rfl) (by decide)
    (by decide)

theorem checkpointedAtEnd_shows : ∀ file ∈ checkpointedAtEnd.checkpoints.entries,
    file.version ≤ 3 ∧ checkpointedAtEnd.ShowsTable file := by
  intro file hfile
  cases mem_singleton.mp hfile
  exact ⟨Nat.le_refl 3, _, rfl, rfl, rfl, fun _ => rfl, fun _ => rfl⟩

theorem checkpointedAtEnd_load_iff :
    (checkpointedAtEnd.IsLog 3 ∧ checkpointedAtEnd.compactions.entries = [] ∧
      (∀ file ∈ checkpointedAtEnd.checkpoints.entries,
        file.version ≤ 3 ∧ checkpointedAtEnd.ShowsTable file) ∧
      checkpointedAtEnd.lastCheckpoint = some 3 ∧
      (∃ file ∈ checkpointedAtEnd.checkpoints.entries, file.version = 3) ∧ 2 ≤ 3) ∧
    ((∃ state, checkpointedAtEnd.loadReplayedTableState 2 = .ok state) ↔
      3 ≤ 2 ∨ 2 ≤ 1 ∨ ∃ file ∈ checkpointedAtEnd.checkpoints.entries,
        file.version = 2 ∨ file.version + 1 = 2) :=
  have hnamed : ∃ file ∈ checkpointedAtEnd.checkpoints.entries, file.version = 3 :=
    ⟨_, mem_singleton.mpr rfl, rfl⟩
  ⟨⟨checkpointedAtEnd_isLog, rfl, checkpointedAtEnd_shows, rfl, hnamed, by decide⟩,
    load_isOk_iff checkpointedAtEnd 3 checkpointedAtEnd_isLog rfl checkpointedAtEnd_shows 3 rfl
      hnamed 2 (by decide)⟩

/-- Version 2 is older than the hinted checkpoint, and the listing for it starts at version 1. -/
theorem checkpointedAtEnd_lost :
    checkpointedAtEnd.loadReplayedTableState 2 =
      .error "Missing commit file: expected version 0, found 1" := rfl

end Zelox.Delta
