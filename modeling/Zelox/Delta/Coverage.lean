import Zelox.Delta.Replay
import Zelox.Lib.SortBy

/-!
# What a replay applies

The resolver hands the loaders commits and compactions that cover every version after
the base (`Tiles`), so merging them by version applies each version once
(`LogSegment.merged`).  `buildReplaySequence` is that merge if it starts at the first
version after the base (`buildReplaySequence_eq_merged`).  After a checkpoint the loaders
start at the first selected commit instead: a compaction that comes before it is passed
over (`replay_applies_all_iff`).
-/

namespace Zelox.Delta

open SortBy LogStore LogSegment List

def ReplayEntry.range : ReplayEntry → Nat × Nat
  | .commit file => (file.version, file.version)
  | .compaction file => file.range

theorem ReplayEntry.versions_eq (e : ReplayEntry) :
    e.versions = List.range' e.range.1 (e.range.2 + 1 - e.range.1) := by
  cases e with
  | commit file => simp [versions, range]
  | compaction file => rfl

/-- The selected files, merged by version. -/
def LogSegment.merged (segment : LogSegment) : List ReplayEntry :=
  (segment.commitFiles.map ReplayEntry.commit ++
    segment.compactionFiles.map ReplayEntry.compaction).insertionSort
      fun a b => a.range.1 ≤ b.range.1

/-- The files that a replay from `startVersion` applies, in order. -/
def LogSegment.applied (segment : LogSegment) (startVersion endVersion : Nat) : List ReplayEntry :=
  if segment.compactionFiles.isEmpty then
    if endVersion < startVersion then []
    else (segment.commitFiles.filter fun f =>
      startVersion ≤ f.version ∧ f.version ≤ endVersion).map ReplayEntry.commit
  else buildReplaySequence segment.commitFiles segment.compactionFiles startVersion endVersion

/-- A selection in order and within the range. -/
structure LogSegment.Proper (segment : LogSegment) (first last : Nat) : Prop where
  commits_sorted : segment.commitFiles.Pairwise fun a b => a.version < b.version
  commits_mem : ∀ f ∈ segment.commitFiles, first ≤ f.version ∧ f.version ≤ last
  compactions_sorted : segment.compactionFiles.Pairwise fun a b => a.startVersion ≤ b.startVersion
  compactions_mem : ∀ f ∈ segment.compactionFiles,
    first ≤ f.startVersion ∧ f.startVersion < f.endVersion ∧ f.endVersion ≤ last

/-! ### The resolver's selections are proper -/

theorem selectCompactions_sublist (boundary : Option Nat) (fs : List CompactionFile) :
    (selectCompactions boundary fs).Sublist fs := by
  induction fs generalizing boundary with
  | nil => cases boundary <;> exact List.Sublist.refl _
  | cons f fs ih =>
    cases boundary with
    | none => exact (ih _).cons_cons f
    | some boundary =>
      rw [selectCompactions]
      split
      · exact (ih _).cons f
      · exact (ih _).cons_cons f

theorem mem_resolveCompactions {commits : List CommitFile} {compactions : List CompactionFile}
    {f : CompactionFile} (hf : f ∈ (resolveCompactions commits compactions).2) :
    f ∈ compactions := by
  unfold resolveCompactions at hf
  split at hf
  · cases hf
  · have := (selectCompactions_sublist _ _).subset ((mem_insertionSort _).mp hf)
    exact (mem_insertionSort _).mp this

theorem resolveCompactions_sublist (commits : List CommitFile) (compactions : List CompactionFile) :
    (resolveCompactions commits compactions).1.Sublist commits := by
  unfold resolveCompactions
  split
  · exact List.Sublist.refl _
  · exact filter_sublist

theorem commits_listLogFiles_sorted (store : LogStore) (offset : Int) (maxVersion : Nat) :
    (listLogFiles store offset maxVersion).commits.Pairwise fun a b => a.version < b.version := by
  apply pairwise_sortBy_lt
  exact store.commits.nodup.sublist
    ((filter_sublist.trans filter_sublist).map CommitFile.version)

theorem lt_of_mem_listLogFiles {store : LogStore} {offset : Int} {maxVersion : Nat}
    {f : CompactionFile} (hf : f ∈ (listLogFiles store offset maxVersion).compactions) :
    f.startVersion < f.endVersion := by
  have hf := (mem_filter.mp ((mem_insertionSort _).mp hf)).1
  have := (mem_filter.mp hf).2
  simp only [decide_eq_true_eq] at this
  exact this.2

theorem proper_selectFiles (store : LogStore) (offset : Int) (maxVersion : Nat)
    (checkpoint : Option CheckpointFile) (first last : Nat) :
    (selectFiles (listLogFiles store offset maxVersion) checkpoint first last).Proper first last where
  commits_sorted := (commits_listLogFiles_sorted store offset maxVersion).sublist
    ((resolveCompactions_sublist _ _).trans filter_sublist)
  commits_mem f hf := by
    have := (mem_filter.mp ((resolveCompactions_sublist _ _).subset hf)).2
    simpa using this
  compactions_sorted := by
    show (resolveCompactions _ _).2.Pairwise _
    unfold resolveCompactions
    split
    · exact List.Pairwise.nil
    · exact pairwise_sortBy CompactionFile.startVersion _
  compactions_mem f hf := by
    obtain ⟨hmem, hrange⟩ := mem_filter.mp (mem_resolveCompactions hf)
    simp only [decide_eq_true_eq] at hrange
    exact ⟨hrange.1, lt_of_mem_listLogFiles hmem, hrange.2⟩

/-! ### Validated selections tile the range -/

theorem validate_go_iff (last : Nat) (first : Nat) (is : List (Nat × Nat)) :
    validateCommitContiguityWithCompactions.go last first is = .ok () ↔ Tiles last first is := by
  induction is generalizing first with
  | nil =>
    simp only [validateCommitContiguityWithCompactions.go, Tiles]
    split
    next h => exact iff_of_false (by simp) (by omega)
    next h => exact iff_of_true rfl (by omega)
  | cons i is ih =>
    simp only [validateCommitContiguityWithCompactions.go, Tiles]
    split
    next h => exact iff_of_false (by simp) (fun hh => h hh.1)
    next h => rw [ih, and_iff_right (by simpa using h)]

theorem validateCommitContiguity_go_iff (first last expected : Nat) (fs : List CommitFile) :
    validateCommitContiguity.go first last expected fs = .ok () ↔
      Tiles last expected ((fs.filter fun f => first ≤ f.version ∧ f.version ≤ last).map
        fun f => (f.version, f.version)) := by
  induction fs generalizing expected with
  | nil =>
    simp only [validateCommitContiguity.go, filter_nil, map_nil, Tiles]
    split
    next h => exact iff_of_false (by simp) (by omega)
    next h => exact iff_of_true rfl (by omega)
  | cons f fs ih =>
    simp only [validateCommitContiguity.go]
    split
    next hout =>
      rw [filter_cons_of_neg (by simp; omega)]
      exact ih expected
    next hin =>
      rw [filter_cons_of_pos (by simp; omega), map_cons, Tiles]
      split
      next h => exact iff_of_false (by simp) (fun hh => h hh.1)
      next h =>
        have h : f.version = expected := by simpa using h
        rw [ih, and_iff_right h, h]

/-- Both validators ask that the ranges of the files tile the versions. -/
theorem validate_iff_tiles {commits : List CommitFile} {compactions : List CompactionFile}
    {first last : Nat} (hcommits : commits.Pairwise fun a b => a.version < b.version)
    (hle : first ≤ last) :
    validateCommitContiguityWithCompactions commits compactions first last = .ok () ↔
      Tiles last first (coverageIntervals commits compactions first last) := by
  unfold validateCommitContiguityWithCompactions
  rw [if_neg (by omega)]
  split
  next hc =>
    rw [validateCommitContiguity, if_neg (by omega), validateCommitContiguity_go_iff,
      coverageIntervals, List.isEmpty_iff.mp hc, map_nil, append_nil,
      List.Pairwise.insertionSort_eq]
    rw [pairwise_map]
    exact (hcommits.sublist filter_sublist).imp le_of_lt
  · exact validate_go_iff last first _

namespace LogSegment

variable {segment : LogSegment} {first last : Nat}

theorem merged_perm : segment.merged.Perm (segment.commitFiles.map ReplayEntry.commit ++
    segment.compactionFiles.map ReplayEntry.compaction) :=
  perm_insertionSort _ _

theorem mem_merged {e : ReplayEntry} :
    e ∈ segment.merged ↔ (∃ f ∈ segment.commitFiles, e = .commit f) ∨
      ∃ f ∈ segment.compactionFiles, e = .compaction f := by
  rw [merged_perm.mem_iff, mem_append, mem_map, mem_map]
  simp only [eq_comm]

theorem merged_of_no_compactions (hc : segment.compactionFiles = [])
    (hs : segment.commitFiles.Pairwise fun a b => a.version < b.version) :
    segment.merged = segment.commitFiles.map ReplayEntry.commit := by
  rw [merged, hc, map_nil, append_nil]
  apply List.Pairwise.insertionSort_eq
  rw [pairwise_map]
  exact hs.imp le_of_lt

section

variable (h : segment.Proper first last)
include h

theorem Proper.range_le :
    ∀ r ∈ segment.merged.map ReplayEntry.range, r.1 ≤ r.2 := by
  intro r hr
  obtain ⟨e, he, rfl⟩ := mem_map.mp hr
  rcases mem_merged.mp he with ⟨f, hf, rfl⟩ | ⟨f, hf, rfl⟩
  · exact le_rfl
  · exact le_of_lt (h.compactions_mem f hf).2.1

theorem Proper.eq_nil (hlast : last < first) :
    segment.commitFiles = [] ∧ segment.compactionFiles = [] := by
  constructor <;> refine eq_nil_iff_forall_not_mem.mpr fun f hf => ?_
  · have := h.commits_mem f hf
    omega
  · have := h.compactions_mem f hf
    omega

theorem Proper.filter_commits :
    (segment.commitFiles.filter fun f => first ≤ f.version ∧ f.version ≤ last) =
      segment.commitFiles :=
  filter_eq_self.mpr fun f hf => by simpa using h.commits_mem f hf

/-- A validated selection covers the range without gap or overlap. -/
theorem Proper.tiles (hle : first ≤ last)
    (hv : validateCommitContiguityWithCompactions segment.commitFiles segment.compactionFiles
      first last = .ok ()) : Tiles last first (segment.merged.map ReplayEntry.range) := by
  rw [validate_iff_tiles h.commits_sorted hle] at hv
  rw [coverageIntervals, h.filter_commits] at hv
  rw [merged, map_insertionSort _ (fun a b : Nat × Nat => a.1 ≤ b.1) _ _ fun _ _ _ _ => Iff.rfl,
    map_append, map_map, map_map]
  exact hv

end

variable (compactionMap : KeyedMap CompactionFile.startVersion)

/-! ### The merging loop -/

theorem replaySequenceLoop_of_lt (last rounds version : Nat) (commits : List CommitFile)
    (h : last < version) :
    replaySequenceLoop compactionMap last rounds version commits = [] := by
  cases rounds with
  | zero => rfl
  | succ rounds => exact if_neg (not_le.mpr h)

theorem le_of_mem_replaySequenceLoop
    (hrange : ∀ f ∈ compactionMap.entries, f.startVersion ≤ f.endVersion)
    (last rounds version : Nat) (commits : List CommitFile) :
    ∀ e ∈ replaySequenceLoop compactionMap last rounds version commits, version ≤ e.range.1 := by
  induction rounds generalizing version commits with
  | zero => exact forall_mem_nil _
  | succ rounds ih =>
    unfold replaySequenceLoop
    split
    next =>
      split
      next file hfile =>
        have hkey := KeyedMap.key_of_get? hfile
        have hse := hrange file (KeyedMap.mem_of_get? hfile)
        refine forall_mem_cons.mpr ⟨le_of_eq hkey.symm, fun e he => ?_⟩
        have := ih (file.endVersion + 1) _ e he
        omega
      next hnone =>
        cases commits with
        | nil => exact forall_mem_nil _
        | cons f fs =>
          dsimp only
          split
          next hf =>
            refine forall_mem_cons.mpr ⟨le_of_eq hf.symm, fun e he => ?_⟩
            have := ih (version + 1) fs e he
            omega
          next hf =>
            intro e he
            have := ih (version + 1) (f :: fs) e he
            omega
    next => exact forall_mem_nil _

/-- The commits among the entries of a replay. -/
def commitOf? : ReplayEntry → Option CommitFile
  | .commit f => some f
  | .compaction _ => none

/-- Over entries that tile what is left, the loop pushes exactly these. -/
theorem replaySequenceLoop_eq (last rounds version : Nat) (commits : List CommitFile)
    (entries : List ReplayEntry) (hrounds : last + 1 - version ≤ rounds)
    (htiles : Tiles last version (entries.map ReplayEntry.range))
    (hle : ∀ r ∈ entries.map ReplayEntry.range, r.1 ≤ r.2)
    (hcommits : commits = entries.filterMap commitOf?)
    (hmap : ∀ f, .compaction f ∈ entries → compactionMap.get? f.startVersion = some f)
    (hmem : ∀ f, compactionMap.get? f.startVersion = some f → version ≤ f.startVersion →
      .compaction f ∈ entries) :
    replaySequenceLoop compactionMap last rounds version commits = entries := by
  induction entries generalizing rounds version commits with
  | nil =>
    have : version = last + 1 := htiles
    exact replaySequenceLoop_of_lt _ _ _ _ _ (by omega)
  | cons e es ih =>
    obtain ⟨hstart, hrest⟩ : e.range.1 = version ∧
        Tiles last (e.range.2 + 1) (es.map ReplayEntry.range) := htiles
    have hle' : ∀ r ∈ es.map ReplayEntry.range, r.1 ≤ r.2 :=
      fun r hr => hle r (mem_cons_of_mem _ hr)
    have hlater := hrest.le_of_mem hle'
    have he := hle e.range (by simp)
    have hlast : version ≤ last := by
      have := hrest.le hle'
      omega
    obtain ⟨rounds, rfl⟩ : ∃ n, rounds = n + 1 := ⟨rounds - 1, by omega⟩
    have hmap' : ∀ f, .compaction f ∈ es → compactionMap.get? f.startVersion = some f :=
      fun f hf => hmap f (mem_cons_of_mem e hf)
    have hmem' : ∀ f, compactionMap.get? f.startVersion = some f → e.range.2 + 1 ≤ f.startVersion →
        .compaction f ∈ es := by
      intro f hf hv
      rcases mem_cons.mp (hmem f hf (by omega)) with heq | h
      · rw [← heq] at hv he
        simp only [ReplayEntry.range, CompactionFile.range] at hv he
        omega
      · exact h
    unfold replaySequenceLoop
    rw [if_pos hlast]
    cases e with
    | commit f =>
      simp only [ReplayEntry.range] at hstart hrest hlater hmem'
      have hnone : compactionMap.get? version = none := by
        cases hget : compactionMap.get? version with
        | none => rfl
        | some g =>
          have hkey : g.startVersion = version := KeyedMap.key_of_get? hget
          rcases mem_cons.mp (hmem g (by rw [hkey, hget]) (by omega)) with heq | h
          · cases heq
          · have := hlater g.range (mem_map_of_mem h)
            simp only [CompactionFile.range] at this
            omega
      rw [hcommits, hnone]
      simp only [filterMap_cons, commitOf?, hstart, if_true]
      rw [ih rounds (version + 1) _ (by omega) (hstart ▸ hrest) hle' rfl hmap' (hstart ▸ hmem')]
    | compaction f =>
      simp only [ReplayEntry.range, CompactionFile.range] at hstart hrest hlater hmem' he
      have hget := hmap f mem_cons_self
      rw [hstart] at hget
      have hdrop : (commits.dropWhile fun g => g.version < f.endVersion + 1) = commits := by
        cases hcs : commits with
        | nil => rfl
        | cons g gs =>
          -- the commits left are those of later entries
          have hg : g ∈ commits := by simp [hcs]
          rw [hcommits, filterMap_cons] at hg
          obtain ⟨e', he', hge⟩ := mem_filterMap.mp hg
          cases e' with
          | compaction _ => cases hge
          | commit g' =>
            cases hge
            have := hlater _ (mem_map_of_mem he')
            simp only [ReplayEntry.range] at this
            exact dropWhile_cons_of_neg (by simpa using this)
      simp only [hget, hdrop]
      rw [ih rounds (f.endVersion + 1) commits (by omega) hrest hle' hcommits hmap' hmem']

section

variable (h : segment.Proper first last)
  (htiles : Tiles last first (segment.merged.map ReplayEntry.range))

include h htiles

theorem merged_pairwise : segment.merged.Pairwise fun a b => a.range.1 < b.range.1 := by
  have := pairwise_map.mp (htiles.pairwise h.range_le)
  refine List.Pairwise.imp_of_mem ?_ this
  intro a b ha _ hab
  exact lt_of_le_of_lt (h.range_le _ (mem_map_of_mem ha)) hab

theorem compactions_nodup : (segment.compactionFiles.map CompactionFile.startVersion).Nodup := by
  have hnd : (segment.merged.map fun e => e.range.1).Nodup :=
    pairwise_map.mpr ((merged_pairwise h htiles).imp ne_of_lt)
  have := (merged_perm.map fun e => e.range.1).nodup_iff.mp hnd
  rw [map_append, map_map, map_map] at this
  exact this.of_append_right

theorem merged_filterMap_commitOf? : segment.merged.filterMap commitOf? = segment.commitFiles := by
  have hperm : (segment.merged.filterMap commitOf?).Perm segment.commitFiles := by
    refine (merged_perm.filterMap commitOf?).trans (List.Perm.of_eq ?_)
    rw [filterMap_append, filterMap_map, filterMap_map]
    have hnone : (segment.compactionFiles.filterMap (commitOf? ∘ ReplayEntry.compaction)) = [] :=
      filterMap_eq_nil_iff.mpr fun _ _ => rfl
    rw [hnone, append_nil]
    exact filterMap_some
  have hsorted : (segment.merged.filterMap commitOf?).Pairwise fun a b => a.version < b.version := by
    rw [pairwise_filterMap]
    refine (merged_pairwise h htiles).imp ?_
    intro a b hab f hf g hg
    cases a <;> cases hf
    cases b <;> cases hg
    exact hab
  refine hperm.eq_of_pairwise ?_ hsorted h.commits_sorted
  intro a b _ _ hab hba
  omega

/-- Started at the first version, the merging loop gives the files in order. -/
theorem buildReplaySequence_eq_merged :
    buildReplaySequence segment.commitFiles segment.compactionFiles first last =
      segment.merged := by
  have hentries : (KeyedMap.empty.insertAll segment.compactionFiles :
      KeyedMap CompactionFile.startVersion).entries = segment.compactionFiles := by
    rw [KeyedMap.entries_insertAll]
    · rfl
    · exact compactions_nodup h htiles
  apply replaySequenceLoop_eq _ _ _ _ _ _ (le_rfl) htiles h.range_le
  · exact (merged_filterMap_commitOf? h htiles).symm
  · intro f hf
    rcases mem_merged.mp hf with ⟨g, -, heq⟩ | ⟨g, hg, heq⟩
    · cases heq
    · cases heq
      rw [← hentries] at hg
      exact KeyedMap.mem_entries_iff.mp hg
  · intro f hf _
    have := KeyedMap.mem_of_get? hf
    rw [hentries] at this
    exact mem_merged.mpr (.inr ⟨f, this, rfl⟩)

theorem applied_eq_merged : segment.applied first last = segment.merged := by
  unfold applied
  split
  next hc =>
    rw [merged_of_no_compactions (List.isEmpty_iff.mp hc) h.commits_sorted]
    split
    next hlt => rw [(h.eq_nil hlt).1, map_nil]
    next hle => rw [h.filter_commits]
  next hc => exact buildReplaySequence_eq_merged h htiles

end

/-! ### Where the loaders start -/

/-- The version from which the loaders replay; `first` is the one after the base. -/
def loaderStart (segment : LogSegment) (first last : Nat) : Nat :=
  match segment.checkpoint with
  | some _ => segment.startAfterCheckpoint last
  | none => first

/-- After a checkpoint, the first selected file is a commit or there are no commits at all. -/
def StartsWithCommit (segment : LogSegment) : Prop :=
  segment.checkpoint = none ∨ ∀ f ∈ segment.commitFiles.head?,
    ∀ g ∈ segment.compactionFiles.head?, f.version < g.startVersion

theorem exists_first (htiles : Tiles last first (segment.merged.map ReplayEntry.range))
    (hle : first ≤ last) : ∃ e ∈ segment.merged, e.range.1 = first := by
  cases hm : segment.merged with
  | nil =>
    rw [hm] at htiles
    have : first = last + 1 := htiles
    omega
  | cons e es =>
    rw [hm] at htiles
    exact ⟨e, mem_cons_self, htiles.1⟩

/-- A replay over a checkpoint starts with the first version unless a compaction comes before it. -/
theorem startAfterCheckpoint_eq_iff (h : segment.Proper first last) (hle : first ≤ last)
    (htiles : Tiles last first (segment.merged.map ReplayEntry.range)) :
    first ≤ segment.startAfterCheckpoint last ∧
      (segment.startAfterCheckpoint last = first ↔ ∀ f ∈ segment.commitFiles.head?,
        ∀ g ∈ segment.compactionFiles.head?, f.version < g.startVersion) := by
  obtain ⟨e, he, hfirst⟩ := exists_first htiles hle
  -- two files do not start at one version
  have hne : ∀ f ∈ segment.commitFiles, ∀ g ∈ segment.compactionFiles,
      f.version ≠ g.startVersion := by
    intro f hf g hg heq
    have hinj := inj_on_of_nodup_map (f := fun e : ReplayEntry => e.range.1)
      (pairwise_map.mpr ((merged_pairwise h htiles).imp ne_of_lt))
      (mem_merged.mpr (.inl ⟨f, hf, rfl⟩)) (mem_merged.mpr (.inr ⟨g, hg, rfl⟩)) heq
    cases hinj
  unfold startAfterCheckpoint
  rcases mem_merged.mp he with ⟨f', hf', rfl⟩ | ⟨g', hg', rfl⟩
  · obtain ⟨f, hf, hff'⟩ := exists_head?_le (h.commits_sorted.imp le_of_lt) hf'
    have hfm := mem_of_head? hf
    have hge := (h.commits_mem f hfm).1
    simp only [ReplayEntry.range] at hfirst
    simp only [hf, Option.map_some, Option.some_or, Option.getD_some, Option.mem_def,
      Option.some.injEq, forall_eq']
    refine ⟨hge, iff_of_true (by omega) fun g hg => ?_⟩
    have hgm := mem_of_head? hg
    have := (h.compactions_mem g hgm).1
    have := hne f hfm g hgm
    omega
  · obtain ⟨g, hg, hgg'⟩ := exists_head?_le h.compactions_sorted hg'
    have hgm := mem_of_head? hg
    have hge := (h.compactions_mem g hgm).1
    simp only [ReplayEntry.range, CompactionFile.range] at hfirst
    cases hf : segment.commitFiles.head? with
    | none =>
      simp only [hg, Option.map_none, Option.map_some, Option.none_or, Option.getD_some]
      exact ⟨hge, iff_of_true (by omega) nofun⟩
    | some f =>
      have hfm := mem_of_head? hf
      have := (h.commits_mem f hfm).1
      have := hne f hfm g hgm
      simp only [hg, Option.map_some, Option.some_or, Option.getD_some, Option.mem_def,
        Option.some.injEq, forall_eq']
      exact ⟨by omega, iff_of_false (by omega) (by omega)⟩

theorem loaderStart_eq (hproper : segment.Proper first last)
    (hvalid : validateCommitContiguityWithCompactions segment.commitFiles segment.compactionFiles
      first last = .ok ())
    (hnone : segment.compactionFiles = []) (hfirst : first ≤ last + 1) :
    segment.loaderStart first last = first := by
  unfold loaderStart
  cases segment.checkpoint with
  | none => rfl
  | some file =>
    show segment.startAfterCheckpoint last = first
    rcases Nat.lt_or_ge last first with hlt | hle
    · simp only [startAfterCheckpoint, hproper.eq_nil hlt, head?_nil, Option.map_none,
        Option.or_none, Option.getD_none]
      omega
    · refine (startAfterCheckpoint_eq_iff hproper hle (hproper.tiles hle hvalid)).2.mpr ?_
      intro f _ g hg
      rw [hnone] at hg
      cases hg

theorem le_of_mem_applied (h : segment.Proper first last) {start : Nat} {e : ReplayEntry}
    (he : e ∈ segment.applied start last) : start ≤ e.range.1 := by
  unfold applied at he
  split at he
  next hc =>
    split at he
    next => cases he
    next =>
      obtain ⟨f, hf, rfl⟩ := mem_map.mp he
      have := (mem_filter.mp hf).2
      simp only [decide_eq_true_eq] at this
      exact this.1
  next hc =>
    refine le_of_mem_replaySequenceLoop _ ?_ _ _ _ _ e he
    intro f hf
    have hf : f ∈ segment.compactionFiles :=
      (KeyedMap.mem_insertAll hf).resolve_right (not_mem_nil)
    exact le_of_lt (h.compactions_mem f hf).2.1

/-- What a replay should do: apply all selected files, and each version once and in order. -/
structure AppliesAll (segment : LogSegment) (entries : List ReplayEntry) (first last : Nat) :
    Prop where
  commits : ∀ f ∈ segment.commitFiles, .commit f ∈ entries
  compactions : ∀ f ∈ segment.compactionFiles, .compaction f ∈ entries
  versions : entries.flatMap ReplayEntry.versions = List.range' first (last + 1 - first)

theorem appliesAll_merged (h : segment.Proper first last)
    (htiles : Tiles last first (segment.merged.map ReplayEntry.range)) :
    segment.AppliesAll segment.merged first last where
  commits f hf := mem_merged.mpr (.inl ⟨f, hf, rfl⟩)
  compactions f hf := mem_merged.mpr (.inr ⟨f, hf, rfl⟩)
  versions := by
    rw [← htiles.flatMap_range' h.range_le, flatMap_map]
    exact flatMap_congr fun e _ => e.versions_eq

theorem appliesAll_iff (h : segment.Proper first last)
    (hv : validateCommitContiguityWithCompactions segment.commitFiles segment.compactionFiles
      first last = .ok ()) (start : Nat)
    (hstart : start = segment.loaderStart first last) :
    segment.AppliesAll (segment.applied start last) first last ↔ segment.StartsWithCommit := by
  rcases Nat.lt_or_ge last first with hlt | hle
  · -- nothing is selected
    obtain ⟨hc, hk⟩ := h.eq_nil hlt
    refine iff_of_true ⟨by simp [hc], by simp [hk], ?_⟩ (.inr (by simp [hc]))
    have : last + 1 - first = 0 := by omega
    simp [applied, hc, hk, this]
  · have htiles := h.tiles hle hv
    have happlied := applied_eq_merged h htiles
    have hall := appliesAll_merged h htiles
    cases hcp : segment.checkpoint with
    | none =>
      rw [loaderStart, hcp] at hstart
      rw [hstart, happlied]
      exact iff_of_true hall (.inl hcp)
    | some file =>
      rw [loaderStart, hcp] at hstart
      have hsc : segment.StartsWithCommit ↔ start = first := by
        rw [hstart, (startAfterCheckpoint_eq_iff h hle htiles).2]
        simp [StartsWithCommit, hcp]
      rw [hsc]
      constructor
      · intro happ
        -- a replay that starts later leaves out the first version
        have hge : first ≤ start := hstart ▸ (startAfterCheckpoint_eq_iff h hle htiles).1
        have hmem : first ∈ (segment.applied start last).flatMap ReplayEntry.versions := by
          rw [happ.versions, mem_range'_1]
          omega
        obtain ⟨e, he, hve⟩ := mem_flatMap.mp hmem
        rw [ReplayEntry.versions_eq, mem_range'_1] at hve
        have := le_of_mem_applied h he
        omega
      · rintro rfl
        rw [happlied]
        exact hall

end LogSegment

/-! ### The loops apply the sequence -/

theorem Replayer.replayCommits_go_eq {σ : Type} (R : Replayer σ) (first last expected : Nat)
    (state : σ) (timestamps : Timestamps) (fs : List CommitFile)
    (hfs : ∀ f ∈ fs, first ≤ f.version ∧ f.version ≤ last)
    (htiles : Tiles last expected (fs.map fun f => (f.version, f.version))) :
    replayCommits.go R first last expected state timestamps fs =
      R.applyEntries state timestamps (fs.map ReplayEntry.commit) := by
  induction fs generalizing expected state timestamps with
  | nil =>
    have : expected = last + 1 := htiles
    rw [replayCommits.go, if_neg (by omega)]
    rfl
  | cons f fs ih =>
    obtain ⟨hf, hrest⟩ := htiles
    have hrange := hfs f mem_cons_self
    rw [replayCommits.go, if_neg (by omega), if_neg (not_not.mpr hf)]
    show (R.applyCommit state timestamps f >>= fun p =>
      replayCommits.go R first last (expected + 1) p.1 p.2 fs) = _
    show _ = (R.applyCommit state timestamps f >>= fun p =>
      R.applyEntries p.1 p.2 (fs.map ReplayEntry.commit))
    congr 1
    funext p
    exact ih (expected + 1) p.1 p.2 (fun g hg => hfs g (mem_cons_of_mem f hg))
      (hf ▸ hrest)

/-- A replay of a validated selection is the replay of the entries that `applied` lists. -/
theorem Replayer.replayWithCompactions_eq {σ : Type} (R : Replayer σ) (state : σ)
    {segment : LogSegment} {first last start : Nat} (h : segment.Proper first last)
    (hv : validateCommitContiguityWithCompactions segment.commitFiles segment.compactionFiles
      first last = .ok ())
    (hstart : start = segment.loaderStart first last) :
    R.replayWithCompactions state segment.commitFiles segment.compactionFiles start last =
      R.applyEntries state .empty (segment.applied start last) := by
  unfold replayWithCompactions applied
  split
  next hc =>
    have hk := List.isEmpty_iff.mp hc
    unfold replayCommits
    split
    next hlt => rfl
    next hle =>
      rcases Nat.lt_or_ge last first with hlt | hfirst
      · -- nothing is selected, so the replay starts behind the range
        exfalso
        apply hle
        rw [hstart, loaderStart]
        cases segment.checkpoint with
        | none => exact hlt
        | some _ => simp [startAfterCheckpoint, (h.eq_nil hlt).1, hk]
      · have htiles := h.tiles hfirst hv
        rw [merged_of_no_compactions hk h.commits_sorted, map_map] at htiles
        rw [hstart, loaderStart_eq h hv hk (by omega),
          replayCommits_go_eq R first last first state .empty _ h.commits_mem htiles,
          h.filter_commits]
  next hc => rfl

/-! ### The resolver -/

namespace LogStore

variable {store : LogStore} {version : Nat}

theorem resolveForFullState_proper {segment : LogSegment}
    (hseg : store.resolveForFullState version = .ok segment) :
    segment.Proper (versionAfter segment.checkpoint) version ∧
      validateCommitContiguityWithCompactions segment.commitFiles segment.compactionFiles
        (versionAfter segment.checkpoint) version = .ok () := by
  obtain ⟨_, hv, heq⟩ := Results.bind_eq_ok.mp hseg
  cases heq
  exact ⟨proper_selectFiles store _ _ _ _ _, hv⟩

/-- The first version that an incremental header replay needs. -/
def firstAfter (base : ReplayedTableHeader) (segment : LogSegment) : Nat :=
  segment.checkpoint.elim (base.version + 1) fun file => file.version + 1

theorem resolveForHeader_proper {hint : Option ReplayedTableHeader} {base : ReplayedTableHeader}
    {segment : LogSegment}
    (hseg : store.resolveForHeader version hint = .ok (.incremental base segment)) :
    segment.Proper (firstAfter base segment) version ∧
      validateCommitContiguityWithCompactions segment.commitFiles segment.compactionFiles
        (firstAfter base segment) version = .ok () := by
  unfold resolveForHeader at hseg
  split at hseg
  · cases hseg
  · dsimp only at hseg
    split at hseg
    · cases hseg
    · obtain ⟨_, hv, heq⟩ := Results.bind_eq_ok.mp hseg
      cases heq
      exact ⟨proper_selectFiles store _ _ _ _ _, hv⟩

end LogStore

theorem LogStore.baseState_start {store : LogStore} {segment : LogSegment} {version : Nat}
    {base : ReconciledCheckpointState × Nat} (h : store.baseState segment version = .ok base) :
    base.2 = segment.loaderStart (versionAfter segment.checkpoint) version := by
  unfold loaderStart
  unfold baseState at h
  cases hcp : segment.checkpoint with
  | none =>
    rw [hcp] at h
    cases h
    rfl
  | some file =>
    rw [hcp] at h
    obtain ⟨rows, -, heq⟩ := Results.bind_eq_ok.mp h
    cases heq
    rfl

/-- Both loaders replay all selected files, each version once and in order, exactly if over a
checkpoint the first of them is a commit. -/
theorem replay_applies_all_iff (store : LogStore) (version : Nat) :
    (∀ segment base, store.resolveForFullState version = .ok segment →
      store.baseState segment version = .ok base →
      checkpointReplayer.replayWithCompactions base.1 segment.commitFiles segment.compactionFiles
          base.2 version =
        checkpointReplayer.applyEntries base.1 .empty (segment.applied base.2 version) ∧
      (segment.AppliesAll (segment.applied base.2 version) (versionAfter segment.checkpoint)
        version ↔ segment.StartsWithCommit)) ∧
    ∀ hint base segment, store.resolveForHeader version hint = .ok (.incremental base segment) →
      headerReplayer.replayWithCompactions (LogStore.baseHeader base segment version).1
          segment.commitFiles segment.compactionFiles
          (LogStore.baseHeader base segment version).2.1 version =
        headerReplayer.applyEntries (LogStore.baseHeader base segment version).1 .empty
          (segment.applied (LogStore.baseHeader base segment version).2.1 version) ∧
      (segment.AppliesAll (segment.applied (LogStore.baseHeader base segment version).2.1 version)
        (LogStore.firstAfter base segment) version ↔ segment.StartsWithCommit) := by
  constructor
  · intro segment base hseg hbase
    obtain ⟨hproper, hv⟩ := resolveForFullState_proper hseg
    have hstart := baseState_start hbase
    exact ⟨checkpointReplayer.replayWithCompactions_eq base.1 hproper hv hstart,
      appliesAll_iff hproper hv base.2 hstart⟩
  · intro hint base segment hseg
    obtain ⟨hproper, hv⟩ := resolveForHeader_proper hseg
    have hstart : (baseHeader base segment version).2.1 =
        segment.loaderStart (firstAfter base segment) version := by
      unfold loaderStart
      unfold baseHeader firstAfter
      cases segment.checkpoint <;> rfl
    exact ⟨headerReplayer.replayWithCompactions_eq _ hproper hv hstart,
      appliesAll_iff hproper hv _ hstart⟩

/-- Version 0 is checkpointed, versions 1 and 2 are compacted, version 3 is not. -/
def compactedBehindCheckpoint : LogStore where
  commits := KeyedMap.empty.insertAll [
    ⟨0, 0, [.protocol ⟨1, 2, none, none⟩, .metadata { id := "t" }]⟩,
    ⟨1, 1, [.add { path := "a", size := 1 }]⟩,
    ⟨2, 2, [.add { path := "b", size := 1 }]⟩,
    ⟨3, 3, [.add { path := "c", size := 1 }]⟩]
  checkpoints := KeyedMap.empty.insertAll [
    ⟨0, ".checkpoint.parquet",
      [{ protocol := some ⟨1, 2, none, none⟩ }, { metadata := some { id := "t" } }]⟩]
  compactions := KeyedMap.empty.insertAll [
    ⟨1, 2, 2, [.add { path := "a", size := 1 }, .add { path := "b", size := 1 }]⟩]
  lastCheckpoint := some 0

/-- The header of version 0, as a snapshot keeps it. -/
def createdHeader : ReplayedTableHeader :=
  ⟨0, ⟨1, 2, none, none⟩, { id := "t" }, .empty, .empty, .empty⟩

theorem compactedBehindCheckpoint_applies_iff :
    (∃ segment base, compactedBehindCheckpoint.resolveForFullState 3 = .ok segment ∧
      compactedBehindCheckpoint.baseState segment 3 = .ok base ∧
      checkpointReplayer.replayWithCompactions base.1 segment.commitFiles segment.compactionFiles
          base.2 3 =
        checkpointReplayer.applyEntries base.1 .empty (segment.applied base.2 3) ∧
      (segment.AppliesAll (segment.applied base.2 3) (versionAfter segment.checkpoint) 3 ↔
        segment.StartsWithCommit)) ∧
    ∃ base segment, compactedBehindCheckpoint.resolveForHeader 3 (some createdHeader) =
        .ok (.incremental base segment) ∧
      headerReplayer.replayWithCompactions (LogStore.baseHeader base segment 3).1
          segment.commitFiles segment.compactionFiles (LogStore.baseHeader base segment 3).2.1 3 =
        headerReplayer.applyEntries (LogStore.baseHeader base segment 3).1 .empty
          (segment.applied (LogStore.baseHeader base segment 3).2.1 3) ∧
      (segment.AppliesAll (segment.applied (LogStore.baseHeader base segment 3).2.1 3)
        (LogStore.firstAfter base segment) 3 ↔ segment.StartsWithCommit) :=
  ⟨⟨_, _, rfl, rfl, (replay_applies_all_iff compactedBehindCheckpoint 3).1 _ _ rfl rfl⟩,
    _, _, rfl, (replay_applies_all_iff compactedBehindCheckpoint 3).2 (some createdHeader) _ _ rfl⟩

/-- The compaction is passed over: version 3 has neither of the files of versions 1 and 2. -/
theorem compactedBehindCheckpoint_skipped :
    (∃ segment base, compactedBehindCheckpoint.resolveForFullState 3 = .ok segment ∧
      compactedBehindCheckpoint.baseState segment 3 = .ok base ∧
      (segment.applied base.2 3).flatMap ReplayEntry.versions = [3]) ∧
    ∃ state, compactedBehindCheckpoint.loadReplayedTableState 3 = .ok state ∧
      state.adds.get? ("a", none) = none ∧ state.adds.get? ("b", none) = none ∧
      (compactedBehindCheckpoint.replayBefore 4).adds.get? ("a", none) =
        some { path := "a", size := 1 } :=
  ⟨⟨_, _, rfl, rfl, by decide⟩, _, rfl, by decide, by decide, by decide⟩

end Zelox.Delta
