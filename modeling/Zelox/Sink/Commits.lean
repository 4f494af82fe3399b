import Zelox.Lib.Runs
import Zelox.Sink.Log
import Mathlib.Data.List.Flatten
import Mathlib.Data.List.Induction

/-!
# What readers see after retried commits

`commitBatch` is called with nondecreasing batch ids, the same batch any number of
times.  Readers then see the commits of `visible`: a batch that is not a compaction
is replaced by its retry, a compaction keeps all its attempts
(`readCommittedFiles_commits`).  Compared with the last commit of each batch
(`lastCommits`) this is exact if and only if every attempt at a compaction batch but the
last one lists no file.
-/

namespace Zelox.SinkLog

open List

variable {P : Type}

/-- A call of `commit_batch`: the data files of its directory, each of them once. -/
structure Commit (P : Type) (dir : P → Nat) where
  batchId : Nat
  files : List P
  located : ∀ p ∈ files, dir p = batchId
  nodup : files.Nodup

variable {dir : P → Nat}

/-- Batch ids never decrease from one call to the next. -/
def Nondecreasing (h : List (Commit P dir)) : Prop :=
  h.Pairwise fun c d => c.batchId ≤ d.batchId

def lastCommits : List (Commit P dir) → List (Commit P dir)
  | [] => []
  | c :: h => if h.any (·.batchId = c.batchId) then lastCommits h else c :: lastCommits h

/-- The commits that readers see: a retry replaces its batch, except at a compaction. -/
def visible (h : List (Commit P dir)) : List (Commit P dir) :=
  h.foldl (fun seen c =>
    (if isCompaction c.batchId then seen else seen.filter (·.batchId ≠ c.batchId)) ++ [c]) []

def paths (h : List (Commit P dir)) : List P := h.flatMap (·.files)

variable {h : List (Commit P dir)}

theorem mem_paths {p : P} : p ∈ paths h ↔ ∃ c ∈ h, p ∈ c.files :=
  mem_flatMap

theorem lastCommits_snoc (h : List (Commit P dir)) (c : Commit P dir) :
    lastCommits (h ++ [c]) = (lastCommits h).filter (·.batchId ≠ c.batchId) ++ [c] := by
  induction h with
  | nil => rfl
  | cons d h ih =>
    simp only [cons_append, lastCommits, any_append, any_cons, any_nil, Bool.or_false]
    by_cases hany : h.any (fun e => decide (e.batchId = d.batchId)) = true
    · simp [hany, ih]
    · -- `d` is superseded by `c` if not by a commit in between
      by_cases hd : c.batchId = d.batchId
      · simp [hany, hd, ih]
      · simp [hany, hd, ih, Ne.symm hd]

theorem visible_snoc (h : List (Commit P dir)) (c : Commit P dir) :
    visible (h ++ [c]) = (if isCompaction c.batchId then visible h
      else (visible h).filter (·.batchId ≠ c.batchId)) ++ [c] := by
  simp [visible, foldl_append]

theorem lastCommits_subset (h : List (Commit P dir)) : lastCommits h ⊆ h := by
  induction h with
  | nil => exact List.Subset.refl _
  | cons c h ih =>
    unfold lastCommits
    split
    · exact subset_cons_of_subset c ih
    · exact cons_subset_cons c ih

theorem visible_subset (h : List (Commit P dir)) : visible h ⊆ h := by
  induction h using List.reverseRecOn with
  | nil => exact List.Subset.refl _
  | append_singleton h c ih =>
    rw [visible_snoc]
    apply append_subset.mpr
    refine ⟨?_, subset_append_right _ _⟩
    split
    · exact subset_append_of_subset_left _ ih
    · exact subset_append_of_subset_left _ (List.Subset.trans filter_sublist.subset ih)

/-! ## The log after a history of commits -/

variable [DecidableEq P]

def commits (h : List (Commit P dir)) : Log P :=
  Runs.run (fun log c => commitBatch log c.batchId c.files) [] h

/-- The log after `h`; before a retry of the last batch its live set is what the others left. -/
structure Holds (h : List (Commit P dir)) (log : Log P) : Prop where
  wf : WellFormed log
  of_log : ∀ g ∈ log, ∃ c ∈ h, c.batchId = g.id
  in_log : ∀ c ∈ h, ∃ g ∈ log, g.id = c.batchId
  live : live log = (paths (visible h)).map .ofAdd
  last : ∀ l g, log = l ++ [g] → isCompaction g.id = false →
    SinkLog.live l = (paths ((visible h).filter (·.batchId ≠ g.id))).map .ofAdd

theorem holds_nil : Holds ([] : List (Commit P dir)) [] where
  wf := wellFormed_nil
  of_log := by simp
  in_log := by simp
  live := rfl
  last l g h := by simp at h

omit [DecidableEq P] in
theorem filter_visible_fresh {b : Nat} (hb : ∀ d ∈ h, d.batchId < b) :
    (visible h).filter (·.batchId ≠ b) = visible h := by
  apply filter_eq_self.mpr
  intro d hd
  simpa using ne_of_lt (hb d (visible_subset h hd))

omit [DecidableEq P] in
theorem filter_visible_snoc (h : List (Commit P dir)) (c : Commit P dir)
    (hc : isCompaction c.batchId = false) :
    (visible (h ++ [c])).filter (·.batchId ≠ c.batchId) =
      (visible h).filter (·.batchId ≠ c.batchId) := by
  simp [visible_snoc, hc, filter_filter]

/-- The log that a commit leaves: `l` with the new file, whatever stood there before. -/
theorem Holds.snoc {l : Log P} {prior : List (SinkFileStatus P)} (c : Commit P dir)
    (hwf : WellFormed l) (hlt : ∀ g ∈ l, g.id < c.batchId) (hprior : ∀ e ∈ prior, e.action = .add)
    (hof : ∀ g ∈ l, ∃ d ∈ h, d.batchId = g.id)
    (hin : ∀ d ∈ h, d.batchId = c.batchId ∨ ∃ g ∈ l, g.id = d.batchId)
    (hlive : (if isCompaction c.batchId then prior else SinkLog.live l) =
      (paths (if isCompaction c.batchId then visible h
        else (visible h).filter (·.batchId ≠ c.batchId))).map .ofAdd) :
    Holds (h ++ [c]) (l ++ [batchFile prior c.batchId c.files]) := by
  constructor
  case wf => exact hwf.snoc_batchFile hlt hprior _
  case of_log =>
    refine Lists.forall_mem_concat.mpr ⟨fun g hg => ?_, c, by simp, (batchFile_id _ _ _).symm⟩
    obtain ⟨d, hd, hdg⟩ := hof g hg
    exact ⟨d, mem_append_left _ hd, hdg⟩
  case in_log =>
    have hnew : ∃ g ∈ l ++ [batchFile prior c.batchId c.files], g.id = c.batchId :=
      ⟨batchFile prior c.batchId c.files, by simp, batchFile_id _ _ _⟩
    refine Lists.forall_mem_concat.mpr ⟨fun d hd => ?_, hnew⟩
    rcases hin d hd with hdc | ⟨g, hg, hgd⟩
    · rwa [hdc]
    · exact ⟨g, mem_append_left _ hg, hgd⟩
  case live =>
    rw [live_snoc_batchFile hwf hlt hprior, hlive, visible_snoc]
    simp [paths]
  case last =>
    intro l' g hlg hg
    obtain ⟨rfl, hg'⟩ := append_inj' hlg rfl
    obtain rfl : batchFile prior c.batchId c.files = g := by simpa using hg'
    rw [batchFile_id] at hg ⊢
    rw [filter_visible_snoc h c hg]
    simpa [hg] using hlive

theorem Holds.fresh {log : Log P} (hh : Holds h log) (c : Commit P dir)
    (hlt : ∀ g ∈ log, g.id < c.batchId) :
    Holds (h ++ [c]) (commitBatch log c.batchId c.files) := by
  have hltc : ∀ d ∈ h, d.batchId < c.batchId := by
    intro d hd
    obtain ⟨g, hg, hgd⟩ := hh.in_log d hd
    rw [← hgd]
    exact hlt g hg
  rw [commitBatch_fresh hh.wf hlt]
  apply Holds.snoc c hh.wf hlt (live_adds hh.wf) hh.of_log
  · intro d hd
    exact .inr (hh.in_log d hd)
  · rw [filter_visible_fresh hltc, ite_self, ite_self, hh.live]

theorem Holds.again {l : Log P} {g : MetaFile P} (hh : Holds h (l ++ [g])) (c : Commit P dir)
    (hg : g.id = c.batchId) :
    Holds (h ++ [c]) (commitBatch (l ++ [g]) c.batchId c.files) := by
  rw [← hg, commitBatch_again hh.wf, hg]
  apply Holds.snoc c hh.wf.of_append
  · intro f hf
    rw [← hg]
    exact hh.wf.lt_last f hf
  · exact live_adds hh.wf
  · intro f hf
    exact hh.of_log f (mem_append_left _ hf)
  · intro d hd
    obtain ⟨f, hf, hfd⟩ := hh.in_log d hd
    rcases mem_append.mp hf with hf | hf
    · exact .inr ⟨f, hf, hfd⟩
    · left
      rw [← hfd, mem_singleton.mp hf, hg]
  · by_cases hc : isCompaction c.batchId = true
    · rw [if_pos hc, if_pos hc, hh.live]
    · rw [if_neg hc, if_neg hc, hh.last l g rfl (by simpa [hg] using hc), hg]

theorem Holds.commit {log : Log P} (hh : Holds h log) (c : Commit P dir)
    (hc : ∀ d ∈ h, d.batchId ≤ c.batchId) :
    Holds (h ++ [c]) (commitBatch log c.batchId c.files) := by
  have hle : ∀ g ∈ log, g.id ≤ c.batchId := by
    intro g hg
    obtain ⟨d, hd, hdg⟩ := hh.of_log g hg
    rw [← hdg]
    exact hc d hd
  -- only the last file can be of the same batch
  rcases eq_nil_or_concat log with rfl | ⟨l, g, rfl⟩
  · exact hh.fresh c (by simp)
  · rw [concat_eq_append] at hh hle ⊢
    by_cases hg : g.id = c.batchId
    · exact hh.again c hg
    · have hlt : g.id < c.batchId := Nat.lt_of_le_of_ne (hle g (by simp)) hg
      refine hh.fresh c (Lists.forall_mem_concat.mpr ⟨fun f hf => ?_, hlt⟩)
      exact (hh.wf.lt_last f hf).trans hlt

theorem holds_commits (h : List (Commit P dir)) (hs : Nondecreasing h) : Holds h (commits h) := by
  induction h using List.reverseRecOn with
  | nil => exact holds_nil
  | append_singleton h c ih =>
    obtain ⟨hh, -, hc⟩ := pairwise_append.mp hs
    unfold commits
    rw [Runs.run_append]
    exact (ih hh).commit c fun d hd => hc d hd c (mem_singleton.mpr rfl)

/-- What readers are given after any history of commits. -/
theorem readCommittedFiles_commits (h : List (Commit P dir)) (hs : Nondecreasing h) :
    readCommittedFiles (commits h) = if h.isEmpty then none else some (paths (visible h)) := by
  have hh := holds_commits h hs
  have hlive : (readLiveEntries (commits h) none).map (·.path) = paths (visible h) := by
    have := hh.live
    unfold SinkLog.live at this
    rw [this, map_map]
    exact map_id _
  have hempty : (commits h).isEmpty = h.isEmpty := by
    rw [Bool.eq_iff_iff, List.isEmpty_iff, List.isEmpty_iff]
    constructor
    · intro hl
      apply eq_nil_iff_forall_not_mem.mpr
      intro c hc
      obtain ⟨g, hg, -⟩ := hh.in_log c hc
      rw [hl] at hg
      cases hg
    · rintro rfl
      rfl
  unfold readCommittedFiles
  rw [hempty, hlive]

/-! ## Against the last commit of each batch -/

/-- Readers are given the files of the last commit of each batch, each path once. -/
def Exact (h : List (Commit P dir)) : Prop :=
  match readCommittedFiles (commits h) with
  | none => h = []
  | some ps => ps.Nodup ∧ ps.Perm (paths (lastCommits h))

/-- Every attempt at a compaction batch but the last lists no file. -/
def NoFilesBeforeRetry (h : List (Commit P dir)) : Prop :=
  ∀ before c after, h = before ++ c :: after → isCompaction c.batchId = true →
    ∀ d ∈ before, d.batchId = c.batchId → d.files = []

theorem exact_iff_visible (h : List (Commit P dir)) (hs : Nondecreasing h) :
    Exact h ↔ (paths (visible h)).Nodup ∧ (paths (visible h)).Perm (paths (lastCommits h)) := by
  unfold Exact
  rw [readCommittedFiles_commits h hs]
  cases h with
  | nil => simp [visible, lastCommits, paths]
  | cons c h => simp

omit [DecidableEq P]

theorem lastCommits_pairwise (h : List (Commit P dir)) :
    (lastCommits h).Pairwise fun c d => c.batchId ≠ d.batchId := by
  induction h using List.reverseRecOn with
  | nil => exact List.Pairwise.nil
  | append_singleton h c ih =>
    rw [lastCommits_snoc, Lists.pairwise_concat]
    refine ⟨ih.filter _, fun d hd => ?_⟩
    simpa using (mem_filter.mp hd).2

theorem nodup_paths_lastCommits (h : List (Commit P dir)) : (paths (lastCommits h)).Nodup := by
  unfold paths
  rw [nodup_flatMap]
  refine ⟨fun c _ => c.nodup, (lastCommits_pairwise h).imp ?_⟩
  intro c d hcd p hp hp'
  exact hcd ((c.located p hp).symm.trans (d.located p hp'))

theorem paths_filter (l : List (Commit P dir)) (b : Nat) :
    paths (l.filter (·.batchId ≠ b)) = (paths l).filter (dir · ≠ b) := by
  induction l with
  | nil => rfl
  | cons d l ih =>
    unfold paths at ih ⊢
    rw [flatMap_cons, filter_append, ← ih]
    by_cases hd : d.batchId = b
    · have hnone : d.files.filter (dir · ≠ b) = [] := by
        apply filter_eq_nil_iff.mpr
        intro p hp
        simpa [hd] using d.located p hp
      rw [filter_cons_of_neg (by simpa using hd), hnone, nil_append]
    · have hall : d.files.filter (dir · ≠ b) = d.files := by
        apply filter_eq_self.mpr
        intro p hp
        simpa [d.located p hp] using hd
      rw [filter_cons_of_pos (by simpa using hd), hall, flatMap_cons]

theorem NoFilesBeforeRetry.of_append {h k : List (Commit P dir)}
    (hn : NoFilesBeforeRetry (h ++ k)) : NoFilesBeforeRetry h := by
  intro before c after heq
  exact hn before c (after ++ k) (by rw [heq, append_assoc, cons_append])

theorem paths_visible_eq (h : List (Commit P dir)) (hn : NoFilesBeforeRetry h) :
    paths (visible h) = paths (lastCommits h) := by
  induction h using List.reverseRecOn with
  | nil => rfl
  | append_singleton h c ih =>
    have hih := ih hn.of_append
    have hadd : ∀ l : List (Commit P dir), paths (l ++ [c]) = paths l ++ c.files := by
      intro l
      simp [paths]
    rw [visible_snoc, lastCommits_snoc, hadd, hadd, paths_filter (lastCommits h), ← hih]
    by_cases hc : isCompaction c.batchId = true
    · -- the earlier attempts that the compaction keeps listed nothing
      have hold : (paths (visible h)).filter (dir · ≠ c.batchId) = paths (visible h) := by
        apply filter_eq_self.mpr
        intro p hp
        obtain ⟨d, hd, hpd⟩ := mem_paths.mp hp
        have hne : d.batchId ≠ c.batchId := by
          intro he
          rw [hn h c [] rfl hc d (visible_subset h hd) he] at hpd
          cases hpd
        simpa [d.located p hpd] using hne
      rw [if_pos hc, hold]
    · rw [if_neg hc, paths_filter]

/-- Compactions lose none of their attempts. -/
theorem filter_isCompaction_visible (h : List (Commit P dir)) :
    (visible h).filter (fun c => isCompaction c.batchId) =
      h.filter fun c => isCompaction c.batchId := by
  induction h using List.reverseRecOn with
  | nil => rfl
  | append_singleton h c ih =>
    rw [visible_snoc, filter_append, filter_append]
    congr 1
    by_cases hc : isCompaction c.batchId = true
    · rw [if_pos hc, ih]
    · rw [if_neg hc, ← ih, filter_filter]
      apply filter_congr
      intro d _
      by_cases hd : d.batchId = c.batchId
      · simp [hd, hc]
      · simp [hd]

theorem mem_of_mem_lastCommits {before rest : List (Commit P dir)} {e : Commit P dir}
    (he : e ∈ lastCommits (before ++ rest)) (hr : ∃ c ∈ rest, c.batchId = e.batchId) :
    e ∈ rest := by
  induction before with
  | nil => exact lastCommits_subset rest he
  | cons x before ih =>
    rw [cons_append, lastCommits] at he
    split at he
    · exact ih he
    case isFalse hx =>
      rcases mem_cons.mp he with rfl | he
      · obtain ⟨c, hc, hce⟩ := hr
        refine absurd (any_eq_true.mpr ⟨c, mem_append_right _ hc, ?_⟩) hx
        simpa using hce
      · exact ih he

theorem noFilesBeforeRetry_of_exact (h : List (Commit P dir))
    (hnd : (paths (visible h)).Nodup) (hsub : paths (visible h) ⊆ paths (lastCommits h)) :
    NoFilesBeforeRetry h := by
  rintro before c after rfl hc d hd hdc
  have hkept := filter_isCompaction_visible (before ++ c :: after)
  apply eq_nil_iff_forall_not_mem.mpr
  intro p hp
  -- `p` was listed before the retry, and again by the last commit of the batch
  have hdvis : d ∈ visible (before ++ c :: after) := by
    have : d ∈ (before ++ c :: after).filter fun c => isCompaction c.batchId :=
      mem_filter.mpr ⟨mem_append_left _ hd, by rw [hdc]; exact hc⟩
    rw [← hkept] at this
    exact (mem_filter.mp this).1
  obtain ⟨e, he, hpe⟩ := mem_paths.mp (hsub (mem_paths.mpr ⟨d, hdvis, hp⟩))
  have hec : c.batchId = e.batchId := by
    rw [← hdc, ← d.located p hp, e.located p hpe]
  have herest := mem_of_mem_lastCommits he ⟨c, mem_cons_self, hec⟩
  have hnd' : (paths ((before ++ c :: after).filter fun c => isCompaction c.batchId)).Nodup := by
    rw [← hkept]
    exact hnd.sublist (filter_sublist.flatMap _)
  rw [filter_append] at hnd'
  unfold paths at hnd'
  rw [flatMap_append] at hnd'
  refine hnd'.disjoint (a := p) ?_ ?_
  · exact mem_flatMap.mpr ⟨d, mem_filter.mpr ⟨hd, by rw [hdc]; exact hc⟩, hp⟩
  · exact mem_flatMap.mpr ⟨e, mem_filter.mpr ⟨herest, by rw [← hec]; exact hc⟩, hpe⟩

/-- After commits with nondecreasing ids readers are given the files of the last commit of each
batch if and only if no attempt at a compaction batch that is later retried lists a file. -/
theorem committed_exact_iff [DecidableEq P] (h : List (Commit P dir)) (hs : Nondecreasing h) :
    Exact h ↔ NoFilesBeforeRetry h := by
  rw [exact_iff_visible h hs]
  constructor
  · rintro ⟨hnd, hperm⟩
    exact noFilesBeforeRetry_of_exact h hnd hperm.subset
  · intro hn
    rw [paths_visible_eq h hn]
    exact ⟨nodup_paths_lastCommits h, List.Perm.refl _⟩

/-- Batch `b` with one file of its directory. -/
def oneFile (b : Nat) (second : Bool) : Commit Nat (· / 2) :=
  ⟨b, [2 * b + second.toNat], by cases second with | false => simp | true => simp; omega, by simp⟩

/-- Batch 8 is retried with another file, then batch 9 compacts. -/
theorem committed_exact_iff_retriedEighth :
    Nondecreasing [oneFile 8 false, oneFile 8 true, oneFile 9 false] ∧
      Exact [oneFile 8 false, oneFile 8 true, oneFile 9 false] := by
  have hs : Nondecreasing [oneFile 8 false, oneFile 8 true, oneFile 9 false] := by
    unfold Nondecreasing
    simp [oneFile]
  refine ⟨hs, (committed_exact_iff _ hs).mpr ?_⟩
  intro before c after heq hc d hd hdc
  rcases before with _ | ⟨x, _ | ⟨y, before⟩⟩
  · cases hd
  · obtain ⟨rfl, rfl, -⟩ : oneFile 8 false = x ∧ oneFile 8 true = c ∧ _ := by simpa using heq
    exact absurd hc (by decide)
  · obtain ⟨rfl, rfl, hrest⟩ : oneFile 8 false = x ∧ oneFile 8 true = y ∧ _ := by simpa using heq
    rcases before with _ | ⟨z, before⟩
    · obtain ⟨rfl, -⟩ : oneFile 9 false = c ∧ _ := by simpa using hrest
      simp only [mem_cons, not_mem_nil, or_false] at hd
      rcases hd with rfl | rfl <;> exact absurd hdc (by decide)
    · simp at hrest

/-- Batch 9 committed twice with the same file: readers are given the file twice. -/
theorem retriedNinth_twice :
    readCommittedFiles (commits [oneFile 9 false, oneFile 9 false]) = some [18, 18] ∧
      ¬ Exact [oneFile 9 false, oneFile 9 false] := by
  have hread : readCommittedFiles (commits [oneFile 9 false, oneFile 9 false]) = some [18, 18] := by
    decide
  refine ⟨hread, ?_⟩
  unfold Exact
  rw [hread]
  decide

end Zelox.SinkLog
