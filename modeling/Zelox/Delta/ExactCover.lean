import Zelox.Delta.Coverage

/-!
# The resolver's selection is an exact cover

`resolveCompactions` goes through the compactions from the last one down and takes one
if it ends before all those taken so far, so the ones taken never overlap, in whatever
way the compactions of the log do (`selectCompactions_pairwise`).  The commits that are
left are the ones in no compaction taken.  Two facts follow: a selection that passes the
check covers every version once, and the check passes if no commit is missing.
-/

namespace Zelox.Delta

open SortBy List

/-- The files cover every version of the range once, and no two of them share a version. -/
structure CoversOnce (commits : List CommitFile) (compactions : List CompactionFile)
    (first last : Nat) : Prop where
  once : ∀ v, first ≤ v → v ≤ last →
    commits.countP (fun f => f.version = v) +
      compactions.countP (fun f => f.startVersion ≤ v ∧ v ≤ f.endVersion) = 1
  commits_lt : commits.Pairwise fun a b => a.version < b.version
  compactions_lt : compactions.Pairwise fun a b => a.endVersion < b.startVersion
  not_covered : ∀ f ∈ commits, isCovered compactions f.version = false

/-! ### The backward pass -/

/-- What is taken below a boundary ends below it, and each file below the one taken before. -/
theorem selectCompactions_some {fs : List CompactionFile} (boundary : Nat)
    (hfs : ∀ f ∈ fs, f.startVersion ≤ f.endVersion) :
    (∀ f ∈ selectCompactions (some boundary) fs, f.endVersion < boundary) ∧
      (selectCompactions (some boundary) fs).Pairwise fun a b => b.endVersion < a.startVersion := by
  induction fs generalizing boundary with
  | nil => exact ⟨forall_mem_nil _, List.Pairwise.nil⟩
  | cons f fs ih =>
    obtain ⟨hf, hrest⟩ := forall_mem_cons.mp hfs
    rw [selectCompactions]
    split
    · exact ih boundary hrest
    next hend =>
      obtain ⟨hlt, hpair⟩ := ih f.startVersion hrest
      refine ⟨forall_mem_cons.mpr ⟨by omega, fun g hg => ?_⟩, pairwise_cons.mpr ⟨hlt, hpair⟩⟩
      have := hlt g hg
      omega

theorem selectCompactions_pairwise {fs : List CompactionFile}
    (hfs : ∀ f ∈ fs, f.startVersion ≤ f.endVersion) :
    (selectCompactions none fs).Pairwise fun a b => b.endVersion < a.startVersion := by
  cases fs with
  | nil => exact List.Pairwise.nil
  | cons f fs =>
    obtain ⟨hlt, hpair⟩ := selectCompactions_some f.startVersion
      fun g hg => hfs g (mem_cons_of_mem f hg)
    exact pairwise_cons.mpr ⟨hlt, hpair⟩

section Selection

variable {commits : List CommitFile} {compactions : List CompactionFile} {first last : Nat}

theorem compactions_resolveCompactions_pairwise
    (h : ∀ f ∈ compactions, f.startVersion ≤ f.endVersion) :
    (resolveCompactions commits compactions).2.Pairwise
      fun a b => a.endVersion < b.startVersion := by
  have hle : ∀ f ∈ (resolveCompactions commits compactions).2, f.startVersion ≤ f.endVersion :=
    fun f hf => h f (mem_resolveCompactions hf)
  unfold resolveCompactions at hle ⊢
  split
  · exact List.Pairwise.nil
  next hc =>
    rw [if_neg hc] at hle
    -- apart in one order or the other, which the sort by the first version keeps
    have hapart := (selectCompactions_pairwise fun f hf =>
      h f ((mem_insertionSort fun a b => b.endVersion ≤ a.endVersion).mp hf)).imp
      fun {a b} hab => (.inr hab : a.endVersion < b.startVersion ∨ b.endVersion < a.startVersion)
    have hsorted := (perm_insertionSort (fun a b : CompactionFile =>
      a.startVersion ≤ b.startVersion) _).symm.pairwise hapart Or.symm
    refine (hsorted.and (pairwise_sortBy CompactionFile.startVersion _)).imp_of_mem ?_
    rintro a b - hb ⟨hab | hba, hle'⟩
    · exact hab
    · have := hle b hb
      omega

theorem mem_commits_resolveCompactions {f : CommitFile} :
    f ∈ (resolveCompactions commits compactions).1 ↔
      f ∈ commits ∧ isCovered (resolveCompactions commits compactions).2 f.version = false := by
  unfold resolveCompactions
  split
  · simp [isCovered]
  · have hany : ∀ selected : List CompactionFile,
        isCovered (selected.insertionSort fun a b => a.startVersion ≤ b.startVersion) f.version =
          isCovered selected f.version :=
      fun selected => (perm_insertionSort _ selected).any_eq
    rw [mem_filter, hany]
    simp only [Bool.not_eq_true']

/-! ### The check -/

theorem countP_coverageIntervals {v : Nat} (hfirst : first ≤ v) (hlast : v ≤ last) :
    (coverageIntervals commits compactions first last).countP (fun r => r.1 ≤ v ∧ v ≤ r.2) =
      commits.countP (fun f => f.version = v) +
        compactions.countP (fun f => f.startVersion ≤ v ∧ v ≤ f.endVersion) := by
  rw [coverageIntervals, (perm_insertionSort _ _).countP_eq, countP_append,
    countP_map, countP_map, countP_filter]
  congr 1
  apply countP_congr
  intro f _
  simp only [Function.comp_apply, Bool.and_eq_true, decide_eq_true_eq]
  omega

theorem mem_coverageIntervals {r : Nat × Nat} :
    r ∈ coverageIntervals commits compactions first last ↔
      (∃ f ∈ commits, (first ≤ f.version ∧ f.version ≤ last) ∧ (f.version, f.version) = r) ∨
        ∃ f ∈ compactions, f.range = r := by
  rw [coverageIntervals, mem_insertionSort, mem_append, mem_map, mem_map]
  simp only [mem_filter, decide_eq_true_eq, and_assoc]

theorem isCovered_eq_false {version : Nat} :
    isCovered compactions version = false ↔
      ∀ f ∈ compactions, version < f.startVersion ∨ f.endVersion < version := by
  rw [isCovered, any_eq_false]
  refine forall₂_congr fun f _ => ?_
  simp only [decide_eq_true_eq]
  omega

/-- Files of which no two share a version, within the range and with none left out, pass. -/
theorem validate_of_cover (hcommits : commits.Pairwise fun a b => a.version < b.version)
    (hcompactions : compactions.Pairwise fun a b => a.endVersion < b.startVersion)
    (hmem : ∀ f ∈ compactions,
      first ≤ f.startVersion ∧ f.startVersion ≤ f.endVersion ∧ f.endVersion ≤ last)
    (hapart : ∀ f ∈ commits, isCovered compactions f.version = false)
    (hcover : ∀ v, first ≤ v → v ≤ last → isCovered compactions v = false →
      ∃ f ∈ commits, f.version = v) :
    validateCommitContiguityWithCompactions commits compactions first last = .ok () := by
  by_cases hle : last < first
  · rw [validateCommitContiguityWithCompactions, if_pos hle]
  rw [validate_iff_tiles hcommits (by omega)]
  apply tiles_of_cover (by omega) (pairwise_sortBy Prod.fst _)
  · refine (perm_insertionSort _ _).symm.pairwise ?_ Or.symm
    refine pairwise_append.mpr ⟨?_, ?_, ?_⟩
    · rw [pairwise_map]
      exact (hcommits.sublist filter_sublist).imp .inl
    · rw [pairwise_map]
      exact hcompactions.imp .inl
    · intro a ha b hb
      obtain ⟨f, hf, rfl⟩ := mem_map.mp ha
      obtain ⟨g, hg, rfl⟩ := mem_map.mp hb
      exact isCovered_eq_false.mp (hapart f (mem_filter.mp hf).1) g hg
  · intro r hr
    rcases mem_coverageIntervals.mp hr with ⟨f, -, hf, rfl⟩ | ⟨f, hf, rfl⟩
    · exact ⟨hf.1, le_rfl, hf.2⟩
    · exact hmem f hf
  · intro v hfirst hlast
    cases hv : isCovered compactions v with
    | false =>
      obtain ⟨f, hf, rfl⟩ := hcover v hfirst hlast hv
      exact ⟨_, mem_coverageIntervals.mpr (.inl ⟨f, hf, ⟨hfirst, hlast⟩, rfl⟩), le_rfl,
        le_rfl⟩
    | true =>
      obtain ⟨f, hf, hin⟩ := any_eq_true.mp hv
      exact ⟨_, mem_coverageIntervals.mpr (.inr ⟨f, hf, rfl⟩), of_decide_eq_true hin⟩

end Selection

/-- A selection that the check accepts covers each version once, and with every commit there the
check accepts.  For a range that ends at `i64::MAX` the second part says nothing: the additions of
the source saturate there, and the check accepts no selection. -/
theorem resolveCompactions_exact_cover (commits : List CommitFile)
    (compactions : List CompactionFile) (first last : Nat)
    (hcommits : commits.Pairwise fun a b => a.version < b.version)
    (hcompactions : ∀ f ∈ compactions,
      first ≤ f.startVersion ∧ f.startVersion ≤ f.endVersion ∧ f.endVersion ≤ last) :
    (validateCommitContiguityWithCompactions (resolveCompactions commits compactions).1
        (resolveCompactions commits compactions).2 first last = .ok () →
      CoversOnce (resolveCompactions commits compactions).1
        (resolveCompactions commits compactions).2 first last) ∧
    ((last : Int) < Int64.maxValue.toInt →
      (∀ v, first ≤ v → v ≤ last → ∃ f ∈ commits, f.version = v) →
      validateCommitContiguityWithCompactions (resolveCompactions commits compactions).1
        (resolveCompactions commits compactions).2 first last = .ok ()) := by
  have hsorted := hcommits.sublist (resolveCompactions_sublist commits compactions)
  have hpair : (resolveCompactions commits compactions).2.Pairwise
      fun a b => a.endVersion < b.startVersion :=
    compactions_resolveCompactions_pairwise fun f hf => (hcompactions f hf).2.1
  have hmem : ∀ f ∈ (resolveCompactions commits compactions).2,
      first ≤ f.startVersion ∧ f.startVersion ≤ f.endVersion ∧ f.endVersion ≤ last :=
    fun f hf => hcompactions f (mem_resolveCompactions hf)
  have hapart : ∀ f ∈ (resolveCompactions commits compactions).1,
      isCovered (resolveCompactions commits compactions).2 f.version = false :=
    fun f hf => (mem_commits_resolveCompactions.mp hf).2
  constructor
  · intro hvalid
    refine ⟨fun v hfirst hlast => ?_, hsorted, hpair, hapart⟩
    have htiles := (validate_iff_tiles hsorted (by omega)).mp hvalid
    rw [← countP_coverageIntervals hfirst hlast]
    refine htiles.countP_eq_one (fun r hr => ?_) hfirst hlast
    rcases mem_coverageIntervals.mp hr with ⟨f, -, -, rfl⟩ | ⟨f, hf, rfl⟩
    · exact le_rfl
    · exact (hmem f hf).2.1
  · intro _ hall
    refine validate_of_cover hsorted hpair hmem hapart fun v hfirst hlast hv => ?_
    obtain ⟨f, hf, rfl⟩ := hall v hfirst hlast
    exact ⟨f, mem_commits_resolveCompactions.mpr ⟨hf, hv⟩, rfl⟩

/-- Commits 1 to 4 and the overlapping compactions 1 to 3 and 2 to 4: the latter is taken. -/
theorem resolveCompactions_exact_cover_overlapping :
    CoversOnce
      (resolveCompactions ([1, 2, 3, 4].map fun v => ⟨v, 0, []⟩) [⟨1, 3, 0, []⟩, ⟨2, 4, 0, []⟩]).1
      (resolveCompactions ([1, 2, 3, 4].map fun v => ⟨v, 0, []⟩) [⟨1, 3, 0, []⟩, ⟨2, 4, 0, []⟩]).2
      1 4 := by
  obtain ⟨hexact, haccept⟩ := resolveCompactions_exact_cover
    ([1, 2, 3, 4].map fun v => ⟨v, 0, []⟩) [⟨1, 3, 0, []⟩, ⟨2, 4, 0, []⟩] 1 4 (by simp) (by simp)
  refine hexact (haccept (by decide) fun v hfirst hlast => ?_)
  refine ⟨⟨v, 0, []⟩, mem_map_of_mem ?_, rfl⟩
  simp only [mem_cons, not_mem_nil, or_false]
  omega

end Zelox.Delta
