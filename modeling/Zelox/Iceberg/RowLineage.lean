import Zelox.Iceberg.Commit
import Zelox.Lib.Runs
import Mathlib.Algebra.Order.BigOperators.Group.List
import Mathlib.Data.List.Flatten

/-!
# Row ids

A data manifest without a first row id gets one from the first commit of format version 3 that
keeps it, and its live files share the ids from there on.  `readEntries_spec` and
`assignRowIds_spec` say which ids a reader gives to the files of one manifest and of a manifest
list, and `WellNumbered` is what every commit keeps.  That is for a reader that decodes the
manifest list as version 3.  The readers of the code decode it as version 2 and see only the ids
that are recorded with a file; `rowIds_unique` holds for either.
-/

namespace Zelox.Iceberg

open SnapshotProducer ManifestFile TableMetadata CommitInfo List Option

variable {L : Type}

/-! ### The ids of a file -/

/-- A reader gives one of the rows of the file the id `k`. -/
def DataFile.HasRowId (f : DataFile L) (k : Int) : Prop :=
  ∃ r, f.firstRowId = some r ∧ r ≤ k ∧ k < r + f.recordCount

/-- No row of one file has the id of a row of the other. -/
def DisjointRowIds (f g : DataFile L × Int) : Prop := ∀ k, ¬ (f.1.HasRowId k ∧ g.1.HasRowId k)

/-- `g` is the file `f` after a commit: the same, but it may have been given row ids. -/
def KeepsRowIds (f g : DataFile L × Int) : Prop :=
  (f.1.withoutRowIds, f.2) = (g.1.withoutRowIds, g.2) ∧ (f.1.firstRowId.isSome → g = f)

theorem KeepsRowIds.refl (f : DataFile L × Int) : KeepsRowIds f f := ⟨rfl, fun _ => rfl⟩

/-- Every file of `fs` is one of `old` or has ids from `lo` to below `hi` only. -/
def OldOrWithin (old fs : List (DataFile L × Int)) (lo hi : Int) : Prop :=
  ∀ f ∈ fs, f ∈ old ∨ ∀ k, f.1.HasRowId k → lo ≤ k ∧ k < hi

/-- What is read after row ids from `lo` to below `hi` have been given out. -/
structure Numbered (old fs : List (DataFile L × Int)) (lo hi : Int) : Prop where
  disjoint : fs.Pairwise DisjointRowIds
  within : OldOrWithin old fs lo hi
  keeps : List.Forall₂ KeepsRowIds old fs

theorem Numbered.append {old₁ old₂ fs₁ fs₂ : List (DataFile L × Int)} {lo mid hi : Int}
    (h₁ : Numbered old₁ fs₁ lo mid) (h₂ : Numbered old₂ fs₂ mid hi) (hlm : lo ≤ mid)
    (hmh : mid ≤ hi) (hold : (old₁ ++ old₂).Pairwise DisjointRowIds)
    (hlo : ∀ f ∈ old₁ ++ old₂, ∀ k, f.1.HasRowId k → k < lo) :
    Numbered (old₁ ++ old₂) (fs₁ ++ fs₂) lo hi := by
  refine ⟨pairwise_append.mpr ⟨h₁.disjoint, h₂.disjoint, ?_⟩, ?_, rel_append h₁.keeps h₂.keeps⟩
  · rintro f hf g hg k ⟨hfk, hgk⟩
    obtain hf | hf := h₁.within f hf
    · obtain hg | hg := h₂.within g hg
      · exact (pairwise_append.mp hold).2.2 f hf g hg k ⟨hfk, hgk⟩
      · have := hlo f (mem_append_left _ hf) k hfk
        have := hg k hgk
        omega
    · have := hf k hfk
      obtain hg | hg := h₂.within g hg
      · have := hlo g (mem_append_right _ hg) k hgk
        omega
      · have := hg k hgk
        omega
  · intro f hf
    obtain hf | hf := mem_append.mp hf
    · refine (h₁.within f hf).imp (mem_append_left _) fun h k hk => ?_
      have := h k hk
      omega
    · refine (h₂.within f hf).imp (mem_append_right _) fun h k hk => ?_
      have := h k hk
      omega

theorem Numbered.cons {f g : DataFile L × Int} {old fs : List (DataFile L × Int)} {lo mid hi : Int}
    (h₁ : Numbered [f] [g] lo mid) (h₂ : Numbered old fs mid hi) (hlm : lo ≤ mid) (hmh : mid ≤ hi)
    (hold : (f :: old).Pairwise DisjointRowIds)
    (hlo : ∀ f' ∈ f :: old, ∀ k, f'.1.HasRowId k → k < lo) :
    Numbered (f :: old) (g :: fs) lo hi :=
  h₁.append h₂ hlm hmh hold hlo

theorem Numbered.same {fs : List (DataFile L × Int)} (h : fs.Pairwise DisjointRowIds)
    (lo hi : Int) : Numbered fs fs lo hi :=
  ⟨h, fun _ hf => .inl hf, List.forall₂_same.mpr fun f _ => KeepsRowIds.refl f⟩

/-! ### One manifest -/

def liveRows (es : List (ManifestEntry L)) : Int :=
  ((es.filter (·.isLive)).map fun e => (e.dataFile.recordCount : Int)).sum

theorem liveRows_nonneg (es : List (ManifestEntry L)) : 0 ≤ liveRows es := by
  refine sum_nonneg fun n hn => ?_
  obtain ⟨e, -, rfl⟩ := List.mem_map.mp hn
  exact Int.natCast_nonneg _

theorem liveRows_cons {e : ManifestEntry L} (he : e.isLive) (es : List (ManifestEntry L)) :
    liveRows (e :: es) = e.dataFile.recordCount + liveRows es := by
  simp [liveRows, he]

variable (mf : ManifestFile L)

/-- The first row id of the manifest matters only as the id that the reader starts from. -/
theorem readEntries_firstRowId (r next : Option Int) (es : List (ManifestEntry L)) :
    readEntries { mf with firstRowId := r } next es = readEntries mf next es := by
  induction es generalizing next with
  | nil => rfl
  | cons e es ih => simp only [readEntries, ih]

theorem loadDataFiles_firstRowId (r : Option Int) :
    loadDataFiles { mf with firstRowId := r } = readEntries mf r mf.entries :=
  readEntries_firstRowId mf r r mf.entries

theorem readEntries_spec (n : Int) (es : List (ManifestEntry L))
    (hold : (readEntries mf none es).Pairwise DisjointRowIds)
    (hlo : ∀ f ∈ readEntries mf none es, ∀ k, f.1.HasRowId k → k < n) :
    Numbered (readEntries mf none es) (readEntries mf (some n) es) n (n + liveRows es) := by
  induction es generalizing n with
  | nil => exact ⟨.nil, fun f hf => absurd hf not_mem_nil, .nil⟩
  | cons e es ih =>
    by_cases he : e.isLive
    · simp only [readEntries, if_pos he, map_none, map_some] at hold hlo ⊢
      have ih := ih (n + e.dataFile.recordCount) hold.tail fun f hf k hk => by
        have := hlo f (mem_cons_of_mem _ hf) k hk
        omega
      rw [Int.add_assoc, ← liveRows_cons he] at ih
      have hrows := liveRows_cons he es
      have hpos := liveRows_nonneg es
      refine Numbered.cons ?_ ih (by omega) (by omega) hold hlo
      cases hr : e.dataFile.firstRowId with
      | some r => exact Numbered.same (pairwise_singleton _ _) _ _
      | none =>
        refine ⟨pairwise_singleton _ _, fun f hf => .inr ?_, ?_⟩
        · rw [mem_singleton] at hf
          rintro k ⟨r, hfr, hrk, hkr⟩
          subst hf
          cases hfr
          exact ⟨hrk, hkr⟩
        · exact .cons ⟨rfl, fun h => absurd h (by simp)⟩ .nil
    · simp only [readEntries, if_neg he, liveRows, filter_cons_of_neg he] at hold hlo ⊢
      exact ih n hold hlo

theorem liveRows_writeManifest (files : List (DataFile L)) :
    liveRows (writeManifest files) = (files.map fun f => (f.recordCount : Int)).sum := by
  rw [liveRows, filter_isLive_writeManifest]
  simp [writeManifest, Function.comp_def]

theorem SnapshotProducer.addedRows_nonneg (p : SnapshotProducer L) : 0 ≤ p.addedRows := by
  have := liveRows_nonneg (writeManifest p.addedDataFiles)
  rwa [liveRows_writeManifest] at this

theorem not_hasRowId_readEntries {files : List (DataFile L)}
    (hnew : ∀ f ∈ files, f.firstRowId = none) :
    ∀ f ∈ readEntries mf none (writeManifest files), ∀ k, ¬ f.1.HasRowId k := by
  induction files with
  | nil => exact fun f hf => absurd hf not_mem_nil
  | cons g gs ih =>
    obtain ⟨hg, hgs⟩ := forall_mem_cons.mp hnew
    refine forall_mem_cons.mpr ⟨?_, ih hgs⟩
    rintro k ⟨r, hr, -⟩
    simp [hg] at hr

theorem pairwise_disjointRowIds {fs : List (DataFile L × Int)}
    (h : ∀ f ∈ fs, ∀ k, ¬ f.1.HasRowId k) : fs.Pairwise DisjointRowIds :=
  pairwise_of_forall_mem_list fun f hf _ _ k hk => h f hf k hk.1

theorem filePath_readEntries (next : Option Int) (files : List (DataFile L)) :
    (readEntries mf next (writeManifest files)).map (·.1.filePath) = files.map (·.filePath) := by
  induction files generalizing next with
  | nil => rfl
  | cons f fs ih => exact congrArg (f.filePath :: ·) (ih _)

/-! ### A manifest list -/

/-- The counts of a manifest that may still be given row ids cover its live rows. -/
def ManifestFile.CountsCover (mf : ManifestFile L) : Prop :=
  mf.takesRowIds → liveRows mf.entries ≤ mf.assignedRows

theorem ManifestFile.CountsCover.nonneg {mf : ManifestFile L} (h : mf.CountsCover)
    (ht : mf.takesRowIds) : 0 ≤ mf.assignedRows :=
  (liveRows_nonneg mf.entries).trans (h ht)

theorem assignedRows_nonneg {mfs : List (ManifestFile L)} (h : ∀ mf ∈ mfs, mf.CountsCover) :
    0 ≤ assignedRows mfs := by
  refine sum_nonneg fun n hn => ?_
  obtain ⟨mf, hmf, rfl⟩ := List.mem_map.mp hn
  obtain ⟨hmf, ht⟩ := mem_filter.mp hmf
  exact (h mf hmf).nonneg ht

theorem loadDataFilesWithSeq_cons (mfs : List (ManifestFile L)) :
    loadDataFilesWithSeq (mf :: mfs) =
      (if mf.content = .data then mf.loadDataFiles else []) ++ loadDataFilesWithSeq mfs := by
  by_cases h : mf.content = .data <;> simp [loadDataFilesWithSeq, h]

theorem loadDataFilesWithSeq_append (mfs mfs' : List (ManifestFile L)) :
    loadDataFilesWithSeq (mfs ++ mfs') =
      loadDataFilesWithSeq mfs ++ loadDataFilesWithSeq mfs' := by
  simp [loadDataFilesWithSeq]

theorem Numbered.mono {old fs : List (DataFile L × Int)} {lo hi hi' : Int}
    (h : Numbered old fs lo hi) (hhi : hi ≤ hi') : Numbered old fs lo hi' := by
  refine ⟨h.disjoint, fun f hf => (h.within f hf).imp_right fun h k hk => ?_, h.keeps⟩
  have := h k hk
  omega

theorem assignRowIds_spec (n : Int) (mfs : List (ManifestFile L))
    (hcover : ∀ mf ∈ mfs, mf.CountsCover)
    (hold : (loadDataFilesWithSeq mfs).Pairwise DisjointRowIds)
    (hlo : ∀ f ∈ loadDataFilesWithSeq mfs, ∀ k, f.1.HasRowId k → k < n) :
    Numbered (loadDataFilesWithSeq mfs) (loadDataFilesWithSeq (assignRowIds n mfs)) n
      (n + assignedRows mfs) := by
  induction mfs generalizing n with
  | nil => exact ⟨.nil, fun f hf => absurd hf not_mem_nil, .nil⟩
  | cons mf mfs ih =>
    have hcover' : ∀ mf ∈ mfs, mf.CountsCover := fun mf' h => hcover mf' (mem_cons_of_mem _ h)
    have hpos := assignedRows_nonneg hcover'
    rw [loadDataFilesWithSeq_cons] at hold hlo ⊢
    have hold' := (pairwise_append.mp hold).2.1
    by_cases ht : mf.takesRowIds
    · have hmf := (hcover mf mem_cons_self).nonneg ht
      have hrows : assignedRows (mf :: mfs) = mf.assignedRows + assignedRows mfs := by
        simp [assignedRows, ht]
      obtain ⟨hd, hn⟩ : mf.content = .data ∧ mf.firstRowId = none := of_decide_eq_true ht
      have ih := ih (n + mf.assignedRows) hcover' hold' fun f hf k hk => by
        have := hlo f (mem_append_right _ hf) k hk
        omega
      rw [assignRowIds, if_pos ht, loadDataFilesWithSeq_cons]
      rw [if_pos hd] at hold hlo
      have hd' : content { mf with firstRowId := some n } = .data := hd
      rw [if_pos hd, if_pos hd', loadDataFiles_firstRowId mf (some n)]
      rw [Int.add_assoc, ← hrows] at ih
      have hload : mf.loadDataFiles = readEntries mf none mf.entries := by
        rw [loadDataFiles, hn]
      have hrows := hcover mf mem_cons_self ht
      rw [hload] at hold hlo ⊢
      have hspec := readEntries_spec mf n mf.entries (pairwise_append.mp hold).1 fun f hf =>
        hlo f (mem_append_left _ hf)
      exact (hspec.mono (by omega)).append ih (by omega) (by omega) hold hlo
    · have hrows : assignedRows (mf :: mfs) = assignedRows mfs := by simp [assignedRows, ht]
      have ih := ih n hcover' hold' fun f hf => hlo f (mem_append_right _ hf)
      rw [assignRowIds, if_neg ht, loadDataFilesWithSeq_cons, hrows]
      exact Numbered.append (Numbered.same (pairwise_append.mp hold).1 n n) ih le_rfl
        (by omega) hold hlo

theorem not_takesRowIds_assignRowIds {n : Int} {mfs : List (ManifestFile L)} {mf : ManifestFile L}
    (h : mf ∈ assignRowIds n mfs) : ¬ mf.takesRowIds := by
  induction mfs generalizing n with
  | nil => exact absurd h not_mem_nil
  | cons mf' mfs ih =>
    unfold assignRowIds at h
    split at h
    · obtain rfl | h := mem_cons.mp h
      · simp [takesRowIds]
      · exact ih h
    · next ht =>
      obtain rfl | h := mem_cons.mp h
      · exact ht
      · exact ih h

/-! ### A snapshot -/

/-- Bounded, disjoint row ids, and counts for those that are still to be given. -/
structure WellNumbered (mfs : List (ManifestFile L)) (bound : Int) : Prop where
  disjoint : (loadDataFilesWithSeq mfs).Pairwise DisjointRowIds
  below : ∀ f ∈ loadDataFilesWithSeq mfs, ∀ k, f.1.HasRowId k → k < bound
  cover : ∀ mf ∈ mfs, mf.CountsCover

theorem WellNumbered.mono {mfs : List (ManifestFile L)} {b b' : Int} (h : WellNumbered mfs b)
    (hb : b ≤ b') : WellNumbered mfs b' :=
  ⟨h.disjoint, fun f hf k hk => (h.below f hf k hk).trans_le hb, h.cover⟩

theorem WellNumbered.sublist {mfs mfs' : List (ManifestFile L)} {b : Int} (h : WellNumbered mfs b)
    (hs : mfs'.Sublist mfs) : WellNumbered mfs' b := by
  have hload : (loadDataFilesWithSeq mfs').Sublist (loadDataFilesWithSeq mfs) :=
    (hs.filter _).flatMap _
  exact ⟨h.disjoint.sublist hload, fun f hf => h.below f (hload.subset hf),
    fun mf hmf => h.cover mf (hs.subset hmf)⟩

/-- The files of `s` are files of the parent, which keep the row ids they have, and new ones. -/
def Snapshot.KeepsRowIds (version : FormatVersion) (s : Snapshot L) (parent : Option (Snapshot L))
    (dataFiles : List (DataFile L)) : Prop :=
  ∃ old fs new, old.Sublist (parent.elim [] (·.readDataFiles version)) ∧
    s.readDataFiles version = fs ++ new ∧ List.Forall₂ Iceberg.KeepsRowIds old fs ∧
    new.map (·.1.filePath) = dataFiles.map (·.filePath)

theorem Snapshot.readDataFiles_v3 (s : Snapshot L) :
    s.readDataFiles .v3 = loadDataFilesWithSeq s.manifestList := by
  simp [readDataFiles, parseWithVersion]

/-- The rows of one file have no row ids but those of the other. -/
def RowIdsIn (f g : DataFile L × Int) : Prop := ∀ k, f.1.HasRowId k → g.1.HasRowId k

/-- Without the ids of the list a file has no other row ids than with them. -/
theorem forall₂_readEntries (next : Option Int) (es : List (ManifestEntry L)) :
    List.Forall₂ RowIdsIn (readEntries mf none es) (readEntries mf next es) := by
  induction es generalizing next with
  | nil => exact .nil
  | cons e es ih =>
    simp only [readEntries, map_none]
    split
    · refine .cons ?_ (ih _)
      rintro k ⟨r, hr, hk⟩
      exact ⟨r, by simpa using .inl (by simpa using hr), hk⟩
    · exact ih _

theorem Snapshot.forall₂_readDataFiles (version : FormatVersion) (s : Snapshot L) :
    List.Forall₂ RowIdsIn (s.readDataFiles version) (loadDataFilesWithSeq s.manifestList) := by
  unfold readDataFiles
  induction s.manifestList with
  | nil => exact .nil
  | cons mf mfs ih =>
    rw [map_cons, loadDataFilesWithSeq_cons, loadDataFilesWithSeq_cons]
    refine rel_append ?_ ih
    unfold parseWithVersion
    split
    · exact List.forall₂_same.mpr fun _ _ _ h => h
    · rw [loadDataFiles_firstRowId]
      split
      · exact forall₂_readEntries mf _ _
      · exact .nil

theorem pairwise_of_forall₂ {fs gs : List (DataFile L × Int)}
    (h : List.Forall₂ RowIdsIn fs gs) {bound : Int}
    (hgs : gs.Pairwise DisjointRowIds ∧ ∀ g ∈ gs, ∀ k, g.1.HasRowId k → k < bound) :
    fs.Pairwise DisjointRowIds ∧ ∀ f ∈ fs, ∀ k, f.1.HasRowId k → k < bound := by
  have hmem {f : DataFile L × Int} {fs gs : List (DataFile L × Int)}
      (h : List.Forall₂ RowIdsIn fs gs) (hf : f ∈ fs) : ∃ g ∈ gs, RowIdsIn f g := by
    obtain ⟨i, hi, rfl⟩ := mem_iff_getElem.mp hf
    exact ⟨_, getElem_mem (h.length_eq ▸ hi), h.get hi (h.length_eq ▸ hi)⟩
  obtain ⟨hdisj, hbelow⟩ := hgs
  refine ⟨?_, fun f hf k hk => ?_⟩
  · clear hbelow
    induction h with
    | nil => exact .nil
    | cons hfg hrest ih =>
      obtain ⟨hg, hdisj⟩ := pairwise_cons.mp hdisj
      refine pairwise_cons.mpr ⟨fun f' hf' k hk => ?_, ih hdisj⟩
      obtain ⟨g', hg', hsub⟩ := hmem hrest hf'
      exact hg g' hg' k ⟨hfg k hk.1, hsub k hk.2⟩
  · obtain ⟨g, hg, hsub⟩ := hmem h hf
    exact hbelow g hg k (hsub k hk)

section producer

variable [PartitionLiteral L] {p : SnapshotProducer L} {op : Operation} {id : Int}

/-- A manifest list that could be written has no rewritten manifest. -/
theorem SnapshotProducer.parentManifests_sublist
    (h : ∀ mf ∈ p.parentManifests op, mf.hasCounts) :
    (p.parentManifests op).Sublist (p.parent.elim [] (·.manifestList)) := by
  cases op with
  | append => exact List.Sublist.refl _
  | overwrite => exact nil_sublist _
  | overwritePartitions =>
    simp only [parentManifests] at h ⊢
    generalize p.parent.elim [] (·.manifestList) = mfs at h ⊢
    induction mfs with
    | nil => exact List.Sublist.refl _
    | cons mf mfs ih =>
      cases hr : mf.retain p.partitionFilter with
      | none =>
        rw [filterMap_cons_none hr] at h ⊢
        exact (ih h).cons mf
      | some mf' =>
        rw [filterMap_cons_some hr] at h ⊢
        have hmf : mf' = mf := by
          by_cases hu : mf.Untouched p.partitionFilter
          · rw [hu.retain_eq] at hr
            exact (some.inj hr).symm
          by_cases hrep : mf.Replaced p.partitionFilter
          · rw [hrep.retain_eq hu] at hr
            cases hr
          · rw [retain_eq_rewritten hu hrep] at hr
            have := h mf' mem_cons_self
            rw [← some.inj hr, not_hasCounts_rewritten] at this
            cases this
        rw [hmf]
        exact (ih fun mf h' => h mf (mem_cons_of_mem _ h')).cons_cons mf

/-- The ids below which a commit with these row ids leaves the table. -/
def SnapshotProducer.nextBound (p : SnapshotProducer L) (op : Operation) (bound : Int) : Int :=
  p.rowLineageStartRowId.elim bound fun start =>
    start + (assignedRows (p.parentManifests op) + p.addedRows)

variable {s : Snapshot L} {bound : Int}

/-- The files of a new snapshot, with the ids that the commit gives out. -/
theorem SnapshotProducer.exists_numbered (id : Int)
    (hnew : ∀ f ∈ p.addedDataFiles, f.firstRowId = none)
    (hold : WellNumbered (p.parentManifests op) bound)
    (hstart : ∀ start, p.rowLineageStartRowId = some start → bound ≤ start) :
    ∃ lo mid, bound ≤ lo ∧ lo ≤ mid ∧ mid ≤ p.nextBound op bound ∧
      Numbered (loadDataFilesWithSeq (p.parentManifests op))
        (loadDataFilesWithSeq (p.keptManifests op)) lo mid ∧
      Numbered (readEntries (p.newManifest op id) none (writeManifest p.addedDataFiles))
        (p.newManifest op id).loadDataFiles mid (p.nextBound op bound) := by
  have hfresh := not_hasRowId_readEntries (p.newManifest op id) hnew
  have hdisj := pairwise_disjointRowIds hfresh
  cases hs : p.rowLineageStartRowId with
  | none =>
    refine ⟨bound, bound, le_rfl, le_rfl, ?_, ?_, ?_⟩
    · simp [nextBound, hs]
    · simp only [keptManifests, hs, elim_none]
      exact Numbered.same hold.disjoint _ _
    · have : (p.newManifest op id).loadDataFiles =
          readEntries (p.newManifest op id) none (writeManifest p.addedDataFiles) := by
        simp [loadDataFiles, newManifest, hs]
      rw [this]
      exact Numbered.same hdisj _ _
  | some n =>
    have hn := hstart n hs
    have hrows := assignedRows_nonneg hold.cover
    have hadded := p.addedRows_nonneg
    have hnext : p.nextBound op bound = n + assignedRows (p.parentManifests op) + p.addedRows := by
      simp [nextBound, hs, Int.add_assoc]
    refine ⟨n, n + assignedRows (p.parentManifests op), hn, by omega, by omega, ?_, ?_⟩
    · simp only [keptManifests, hs, elim_some]
      exact assignRowIds_spec n _ hold.cover hold.disjoint (hold.mono hn).below
    · have hload : (p.newManifest op id).loadDataFiles = readEntries (p.newManifest op id)
          (some (n + assignedRows (p.parentManifests op))) (writeManifest p.addedDataFiles) := by
        simp [loadDataFiles, newManifest, hs]
      rw [hload, hnext, addedRows, ← liveRows_writeManifest]
      exact readEntries_spec _ _ _ hdisj fun f hf k hk => absurd hk (hfresh f hf k)

theorem SnapshotProducer.countsCover_snapshot
    (hcover : ∀ mf ∈ p.parentManifests op, mf.CountsCover) :
    ∀ mf ∈ (p.snapshot op id).manifestList, mf.CountsCover := by
  intro mf hmf ht
  obtain hmf | hmf := mem_append.mp hmf
  · cases hs : p.rowLineageStartRowId with
    | none =>
      simp only [keptManifests, hs, elim_none] at hmf
      exact hcover mf hmf ht
    | some n =>
      simp only [keptManifests, hs, elim_some] at hmf
      exact absurd ht (not_takesRowIds_assignRowIds hmf)
  · obtain rfl := mem_singleton.mp hmf
    refine le_of_eq ?_
    show liveRows (writeManifest p.addedDataFiles) = p.addedRows + 0
    rw [liveRows_writeManifest, Int.add_zero, addedRows]

/-- Without the ids of the list a kept file is read as it was. -/
theorem SnapshotProducer.keepsRowIds_of_ne (hs : p.commit op id = some s) {version : FormatVersion}
    (hv : version ≠ .v3) : s.KeepsRowIds version p.parent p.addedDataFiles := by
  obtain ⟨hcounts, rfl⟩ := p.commit_eq_some_iff.mp hs
  have hparse : (parseWithVersion version : ManifestFile L → ManifestFile L) =
      fun mf => { mf with firstRowId := none } :=
    funext fun mf => if_neg hv
  have hload (s : Snapshot L) : s.readDataFiles version =
      loadDataFilesWithSeq (s.manifestList.map fun mf => { mf with firstRowId := none }) := by
    rw [Snapshot.readDataFiles, hparse]
  refine ⟨loadDataFilesWithSeq ((p.parentManifests op).map fun mf =>
      { mf with firstRowId := none }), _,
    loadDataFilesWithSeq [{ p.newManifest op id with firstRowId := none }], ?_, ?_,
    List.forall₂_same.mpr fun f _ => KeepsRowIds.refl f, ?_⟩
  · have hsub := (((parentManifests_sublist hcounts).map fun mf =>
      { mf with firstRowId := none }).filter (·.content = .data)).flatMap (·.loadDataFiles)
    cases hp : p.parent <;> simpa [hp, hload, loadDataFilesWithSeq] using hsub
  · rw [hload, ← p.sameFiles_keptManifests op, ← loadDataFilesWithSeq_append]
    exact congrArg _ map_append
  · rw [loadDataFilesWithSeq_cons, if_pos (show (p.newManifest op id).content = .data from rfl)]
    exact (congrArg _ (append_nil _)).trans (filePath_readEntries _ none p.addedDataFiles)

/-- A commit on a well numbered parent gives out ids from the bound on, if any. -/
theorem SnapshotProducer.wellNumbered_of_commit (hs : p.commit op id = some s)
    (hnew : ∀ f ∈ p.addedDataFiles, f.firstRowId = none)
    (hparent : WellNumbered (p.parent.elim [] (·.manifestList)) bound)
    (hstart : ∀ start, p.rowLineageStartRowId = some start → bound ≤ start) :
    WellNumbered s.manifestList (p.nextBound op bound) ∧ bound ≤ p.nextBound op bound ∧
      s.KeepsRowIds .v3 p.parent p.addedDataFiles := by
  obtain ⟨hcounts, rfl⟩ := p.commit_eq_some_iff.mp hs
  have hsub := parentManifests_sublist hcounts
  have hold := hparent.sublist hsub
  obtain ⟨lo, mid, hblo, hlm, hmn, hk, hn⟩ := p.exists_numbered id hnew hold hstart
  have hfresh := not_hasRowId_readEntries (p.newManifest op id) hnew
  have hfiles : loadDataFilesWithSeq (p.snapshot op id).manifestList =
      loadDataFilesWithSeq (p.keptManifests op) ++ (p.newManifest op id).loadDataFiles := by
    rw [snapshot, loadDataFilesWithSeq_append, loadDataFilesWithSeq_cons,
      if_pos (show (p.newManifest op id).content = .data from rfl)]
    simp [loadDataFilesWithSeq]
  have hold' : (loadDataFilesWithSeq (p.parentManifests op) ++
      readEntries (p.newManifest op id) none (writeManifest p.addedDataFiles)).Pairwise
      DisjointRowIds :=
    pairwise_append.mpr ⟨hold.disjoint, pairwise_disjointRowIds hfresh,
      fun f _ g hg k hk => hfresh g hg k hk.2⟩
  have hlo : ∀ f ∈ loadDataFilesWithSeq (p.parentManifests op) ++
      readEntries (p.newManifest op id) none (writeManifest p.addedDataFiles),
      ∀ k, f.1.HasRowId k → k < bound :=
    forall_mem_append.mpr ⟨hold.below, fun f hf k hfk => absurd hfk (hfresh f hf k)⟩
  have hall := hk.append hn hlm hmn hold' fun f hf k hfk => (hlo f hf k hfk).trans_le hblo
  refine ⟨⟨hfiles ▸ hall.disjoint, ?_, p.countsCover_snapshot hold.cover⟩, by omega, ?_⟩
  · intro f hf k hfk
    rw [hfiles] at hf
    obtain hf | hf := hall.within f hf
    · have := hlo f hf k hfk
      omega
    · exact (hf k hfk).2
  · refine ⟨_, _, _, ?_, (Snapshot.readDataFiles_v3 _).trans hfiles, hk.keeps,
      filePath_readEntries _ _ _⟩
    have hsub := (hsub.filter (·.content = .data)).flatMap (·.loadDataFiles)
    cases hp : p.parent <;>
      simpa [hp, Snapshot.readDataFiles_v3, loadDataFilesWithSeq] using hsub

end producer

/-! ### Commits -/

namespace TableMetadata

/-- `next_row_id`, or what the next commit of format version 3 takes for it. -/
def rowIdBound (m : TableMetadata L) : Int := m.nextRowId.getD m.inferredNextRowId

def WellNumbered (m : TableMetadata L) : Prop :=
  ∀ s ∈ m.snapshots, Iceberg.WellNumbered s.manifestList m.rowIdBound

theorem rowIdBound_ensureRequiredFormatFields (m : TableMetadata L) :
    m.ensureRequiredFormatFields.rowIdBound = m.rowIdBound := by
  unfold ensureRequiredFormatFields
  split
  · next h => simp [rowIdBound, h.2]
  · rfl

theorem rowLineageStartRowId_ensureRequiredFormatFields (m : TableMetadata L) (start : Int)
    (h : m.ensureRequiredFormatFields.rowLineageStartRowId = some start) :
    start = m.rowIdBound := by
  unfold rowLineageStartRowId at h
  split at h
  · next hv =>
    rw [← some.inj h]
    unfold ensureRequiredFormatFields at hv ⊢
    split
    · next hn => simp [rowIdBound, hn.2]
    · next hn =>
      rw [if_neg hn] at hv
      obtain ⟨n, hn⟩ := ne_none_iff_exists'.mp fun hnone => hn ⟨hv, hnone⟩
      simp [rowIdBound, hn]
  · cases h

/-- Metadata with the snapshot of a producer added and the next row id advanced. -/
theorem rowIdBound_advance [PartitionLiteral L] {m m₁ : TableMetadata L} (p : SnapshotProducer L)
    (op : Operation) (id : Int) (hs : m₁.snapshots = m.snapshots ++ [p.snapshot op id])
    (hn : m₁.nextRowId = m.nextRowId) (hv : m₁.formatVersion = m.formatVersion)
    (hp : p.rowLineageStartRowId = m.rowLineageStartRowId) :
    ((p.snapshot op id).addedRows.elim m₁ m₁.advanceNextRowId).snapshots =
        m.snapshots ++ [p.snapshot op id] ∧
      ((p.snapshot op id).addedRows.elim m₁ m₁.advanceNextRowId).rowIdBound =
        p.nextBound op m.rowIdBound ∧
      (((p.snapshot op id).addedRows.elim m₁ m₁.advanceNextRowId).formatVersion = .v3 →
        ((p.snapshot op id).addedRows.elim m₁ m₁.advanceNextRowId).nextRowId =
          some (p.nextBound op m.rowIdBound)) := by
  have hstart : m₁.rowLineageStartRowId = m.rowLineageStartRowId := by
    simp only [rowLineageStartRowId, hn, hv]
  cases h : m.rowLineageStartRowId with
  | none =>
    have hinf : m₁.inferredNextRowId = m.inferredNextRowId := by
      simp [inferredNextRowId, hs, snapshot, hp, h]
    have hnot : m.formatVersion ≠ .v3 := by
      intro h3
      simp [rowLineageStartRowId, h3] at h
    have hadded : (p.snapshot op id).addedRows = none := by simp [snapshot, hp, h]
    simp only [hadded, elim_none, rowIdBound, hn, hinf, hs, nextBound, hp, h, hv]
    exact ⟨trivial, trivial, fun h3 => absurd h3 hnot⟩
  | some start =>
    have hadded : (p.snapshot op id).addedRows =
        some (assignedRows (p.parentManifests op) + p.addedRows) := by
      simp [snapshot, hp, h]
    simp [hadded, advanceNextRowId, rowIdBound, hstart, h, hs, nextBound, hp]

end TableMetadata

namespace CommitInfo

variable {c : CommitInfo L} {m₀ m m' : TableMetadata L} {id : Int}

theorem prepare_spec (h : c.prepare m₀ = some m) : m.rowIdBound = m₀.rowIdBound ∧
    ∀ start, m.rowLineageStartRowId = some start → start = m.rowIdBound := by
  obtain ⟨hs, hn, -⟩ := c.applyUpdates_snapshots m₀
  unfold prepare at h
  split at h
  · obtain ⟨s, -, rfl⟩ := map_eq_some_iff.mp h
    refine ⟨?_, fun start hstart => ?_⟩
    · rw [rowIdBound_ensureRequiredFormatFields]
      simp only [rowIdBound, inferredNextRowId, hn, hs]
    · rw [rowIdBound_ensureRequiredFormatFields]
      exact rowLineageStartRowId_ensureRequiredFormatFields _ start hstart
  · cases h

variable [PartitionLiteral L]

/-- What the commit of `c` does to the row ids of the table. -/
structure KeepsRowIds (c : CommitInfo L) (m m' : TableMetadata L) : Prop where
  bound : m.rowIdBound ≤ m'.rowIdBound
  nextRowId : m'.formatVersion = .v3 → m'.nextRowId = some m'.rowIdBound
  snapshot : ∃ s, m'.snapshots = m.snapshots ++ [s] ∧
    ∀ version, s.KeepsRowIds version m.currentSnapshot c.dataFiles

theorem wellNumbered_commit (hw : m₀.WellNumbered) (h : c.commit id m₀ = some m') :
    m'.WellNumbered ∧ c.KeepsRowIds m₀ m' := by
  obtain ⟨m, op, s, hm, hs, hm'⟩ := commit_spec h
  obtain ⟨hsnap, -, -, hcur⟩ := prepare_snapshots hm
  obtain ⟨hbound, hstart⟩ := prepare_spec hm
  have hp : Iceberg.WellNumbered (m.currentSnapshot.elim [] (·.manifestList)) m.rowIdBound := by
    cases hc : m.currentSnapshot with
    | none => exact ⟨.nil, fun f hf => absurd hf not_mem_nil, fun mf hmf =>
        absurd hmf not_mem_nil⟩
    | some parent =>
      obtain ⟨pid, -, hpid⟩ := bind_eq_some_iff.mp hc
      rw [hbound]
      exact hw parent (hsnap ▸ mem_of_find?_eq_some hpid)
  have hnew : ∀ f ∈ (c.producer m m.currentSnapshot).addedDataFiles, f.firstRowId = none := by
    intro f hf
    obtain ⟨g, -, rfl⟩ := List.mem_map.mp hf
    rfl
  obtain ⟨hwell, hle, hkeeps⟩ := wellNumbered_of_commit hs hnew hp
    fun start h => (hstart start h).ge
  have hkeeps (version : FormatVersion) : s.KeepsRowIds version m.currentSnapshot
      (c.producer m m.currentSnapshot).addedDataFiles := by
    by_cases hv : version = .v3
    · exact hv ▸ hkeeps
    · exact keepsRowIds_of_ne hs hv
  obtain ⟨-, rfl⟩ := commit_eq_some_iff _ |>.mp hs
  have hadv : m'.snapshots = m.snapshots ++ [(c.producer m m.currentSnapshot).snapshot op id] ∧
      m'.rowIdBound = (c.producer m m.currentSnapshot).nextBound op m.rowIdBound ∧
      (m'.formatVersion = .v3 → m'.nextRowId =
        some ((c.producer m m.currentSnapshot).nextBound op m.rowIdBound)) := by
    obtain ⟨rfl, -⟩ | ⟨rfl, -⟩ := hm' <;>
      exact rowIdBound_advance _ op id rfl rfl rfl rfl
  obtain ⟨hs', hb', hn'⟩ := hadv
  refine ⟨fun s hs => ?_, ⟨by omega, fun h3 => hb' ▸ hn' h3, _, hsnap ▸ hs', ?_⟩⟩
  · rw [hs', hsnap] at hs
    rw [hb']
    obtain hs | hs := mem_append.mp hs
    · exact (hw s hs).mono (by omega)
    · rw [mem_singleton.mp hs]
      exact hwell
  · intro version
    obtain ⟨old, fs, new, hsub, hload, hk, hpaths⟩ := hkeeps version
    refine ⟨old, fs, new, hcur ▸ hsub, hload, hk, hpaths.trans ?_⟩
    exact List.map_map

end CommitInfo

/-- The table after a commit with the snapshot id `c.2`, which may fail or be skipped. -/
def commitStep [PartitionLiteral L] (m : TableMetadata L) (c : CommitInfo L × Int) :
    TableMetadata L :=
  (c.1.commit c.2 m).getD m

open Runs in
/-- Row ids stay unique along every sequence of commits, and the files of the parent keep theirs, for
readers that decode the manifest lists as `version`. -/
theorem rowIds_unique [PartitionLiteral L] (m₀ : TableMetadata L) (h₀ : m₀.WellNumbered)
    (commits : List (CommitInfo L × Int)) :
    (∀ s ∈ (run commitStep m₀ commits).snapshots, ∀ version,
      (s.readDataFiles version).Pairwise DisjointRowIds ∧
      ∀ f ∈ s.readDataFiles version, ∀ k, f.1.HasRowId k →
        k < (run commitStep m₀ commits).rowIdBound) ∧
    ∀ (c : CommitInfo L) (id : Int) (m' : TableMetadata L),
      c.commit id (run commitStep m₀ commits) = some m' →
        c.KeepsRowIds (run commitStep m₀ commits) m' := by
  have hinv : (run commitStep m₀ commits).WellNumbered := by
    refine run_inv commitStep TableMetadata.WellNumbered (fun m c hm => ?_) m₀ commits h₀
    cases h : c.1.commit c.2 m with
    | none => simpa [commitStep, h] using hm
    | some m' => simpa [commitStep, h] using (wellNumbered_commit hm h).1
  exact ⟨fun s hs version => pairwise_of_forall₂ (s.forall₂_readDataFiles version)
    ⟨(hinv s hs).disjoint, (hinv s hs).below⟩, fun c id m' h => (wellNumbered_commit hinv h).2⟩

/-- A table of format version 2 whose snapshot has two files. -/
def unnumberedTable : TableMetadata Int where
  schemas := [{ schemaId := 0, fields := [{ id := 1, name := "x" }] }]
  currentSnapshotId := some 1
  mainRef := some 1
  snapshots := [twoPartitions]

/-- An append whose schema takes the table to format version 3. -/
def upgradingAppend : CommitInfo Int where
  schema := some { schemaId := 1, fields := [{ id := 1, name := "x", requiresV3 := true }] }
  dataFiles := [{ filePath := "c", recordCount := 5 }]

theorem unnumberedTable_wellNumbered : unnumberedTable.WellNumbered := by
  intro s hs
  obtain rfl := mem_singleton.mp hs
  have hnone : ∀ f ∈ loadDataFilesWithSeq twoPartitions.manifestList, f.1.firstRowId = none := by
    decide +kernel
  have hids : ∀ f ∈ loadDataFilesWithSeq twoPartitions.manifestList, ∀ k, ¬ f.1.HasRowId k := by
    rintro f hf k ⟨r, hr, -⟩
    rw [hnone f hf] at hr
    cases hr
  refine ⟨pairwise_disjointRowIds hids, fun f hf k hk => absurd hk (hids f hf k), ?_⟩
  intro mf hmf _
  obtain rfl := mem_singleton.mp hmf
  decide

theorem rowIds_unique_upgrade : unnumberedTable.WellNumbered ∧
    ∀ s ∈ (Runs.run commitStep unnumberedTable [(upgradingAppend, 2)]).snapshots, ∀ version,
      (s.readDataFiles version).Pairwise DisjointRowIds :=
  ⟨unnumberedTable_wellNumbered, fun s hs version => ((rowIds_unique unnumberedTable
    unnumberedTable_wellNumbered [(upgradingAppend, 2)]).1 s hs version).1⟩

end Zelox.Iceberg
