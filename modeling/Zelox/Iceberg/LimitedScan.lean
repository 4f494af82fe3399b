import Zelox.Iceberg.DeleteApply
import Zelox.Lib.Lists
import Mathlib.Data.List.Flatten
import Mathlib.Algebra.GroupWithZero.Nat

/-!
# Scans with a limit

`IcebergTableProvider::scan` with a limit reads files until their record counts exceed the limit
(`prune_files`); deletes and filters take rows away only afterwards.  Where no delete applies the
Parquet reader is to filter the rows, and does so only with `pushdown_filters`.

`returnsEnough_iff` says when the rows are right.  Which files and row groups the statistics rule
out is left open.
-/

namespace Zelox.Iceberg

open List

variable {L T V : Type}

/-- A data file with its sequence number and the batches it is read in. -/
structure ScanFile (L V : Type) where
  dataFile : DataFile L
  seq : Int
  batches : List (List (Row V))

/-- The loop of `prune_files`. -/
def collectFiles (limit : Nat) : Nat → List (ScanFile L V) → List (ScanFile L V)
  | _, [] => []
  | rowsCollected, f :: files =>
    if rowsCollected ≤ limit then
      f :: if limit < rowsCollected + f.dataFile.recordCount then []
        else collectFiles limit (rowsCollected + f.dataFile.recordCount) files
    else []

theorem collectFiles_sublist (limit rowsCollected : Nat) (files : List (ScanFile L V)) :
    (collectFiles limit rowsCollected files).Sublist files := by
  induction files generalizing rowsCollected with
  | nil => exact .slnil
  | cons f files ih =>
    unfold collectFiles
    split
    · split
      · exact (nil_sublist _).cons_cons f
      · exact (ih _).cons_cons f
    · exact nil_sublist _

/-- The files with at most `limit` records in the files before them. -/
def filesWithin (limit : Nat) (files : List (ScanFile L V)) : List (ScanFile L V) :=
  (files.zipIdx.filter fun x =>
    ((files.take x.2).map (·.dataFile.recordCount)).sum ≤ limit).map (·.1)

theorem collectFiles_eq (limit rowsCollected : Nat) (files : List (ScanFile L V)) :
    collectFiles limit rowsCollected files = (files.zipIdx.filter fun x =>
      rowsCollected + ((files.take x.2).map (·.dataFile.recordCount)).sum ≤ limit).map (·.1) := by
  induction files generalizing rowsCollected with
  | nil => rfl
  | cons f files ih =>
    have hrest : ((f :: files).zipIdx.filter fun x => rowsCollected +
          (((f :: files).take x.2).map (·.dataFile.recordCount)).sum ≤ limit).map (·.1) =
        (if rowsCollected ≤ limit then [f] else []) ++
          collectFiles limit (rowsCollected + f.dataFile.recordCount) files := by
      rw [ih, zipIdx_cons, zipIdx_succ, filter_cons, filter_map]
      by_cases h : rowsCollected ≤ limit <;> simp [h, Function.comp_def, Nat.add_assoc] <;> rfl
    have hnone : limit < rowsCollected + f.dataFile.recordCount →
        collectFiles limit (rowsCollected + f.dataFile.recordCount) files = [] := by
      intro h
      rw [ih, map_eq_nil_iff, filter_eq_nil_iff]
      intro x _
      rw [decide_eq_true_eq]
      omega
    rw [hrest, collectFiles]
    by_cases h : rowsCollected ≤ limit
    · rw [if_pos h, if_pos h, singleton_append]
      split
      · next hfull => rw [hnone hfull]
      · rfl
    · rw [if_neg h, if_neg h, hnone (by omega)]
      rfl

theorem take_sublist (parts : List (List (Row V))) (n : Nat) :
    (parts.map (·.take n)).flatten.Sublist parts.flatten := by
  rw [← flatMap_def, ← flatMap_id]
  exact List.Sublist.flatMap_right parts fun part _ => List.take_sublist n part

theorem take_sublist_filter {parts : List (List (Row V))} {n : Nat} {p : Row V → Bool}
    (h : ∀ row ∈ (parts.map (·.take n)).flatten, p row) :
    (parts.map (·.take n)).flatten.Sublist (parts.flatten.filter p) := by
  rw [← filter_eq_self.mpr h]
  exact (take_sublist parts n).filter _

theorem le_length_take (parts : List (List (Row V))) (n : Nat) :
    min n parts.flatten.length ≤ (parts.map (·.take n)).flatten.length := by
  induction parts with
  | nil => simp
  | cons part parts ih =>
    simp only [map_cons, flatten_cons, length_append, length_take]
    omega

structure LimitedScan (L T V : Type) where
  files : List (ScanFile L V)
  deletes : DeleteFiles T V
  refs : List (DeleteFileRef L)
  schema : List (KeyField T)
  columns : Columns T
  limit : Nat
  /-- the filters are TRUE of the row -/
  filter : Row V → Bool
  /-- the statistics do not rule out the file -/
  keep : ScanFile L V → Bool
  /-- what the statistics leave of the rows of a file -/
  pages : List (Row V) → List (Row V)
  filter_pages : ∀ rows, (pages rows).filter filter = rows.filter filter
  pushdownFilters : Bool

namespace LimitedScan

variable [DecidableEq L] [DecidableEq T] [DecidableEq V] (s : LimitedScan L T V)
variable (index : DeleteFileIndex L)

def collected : List (ScanFile L V) := collectFiles s.limit 0 (s.files.filter s.keep)

/-- The files that the statistics do not rule out, as far as the limit reaches. -/
def reached : List (ScanFile L V) := filesWithin s.limit (s.files.filter s.keep)

omit [DecidableEq L] [DecidableEq T] [DecidableEq V] in
theorem collected_eq_reached : s.collected = s.reached := by
  rw [collected, collectFiles_eq, reached, filesWithin]
  simp only [Nat.zero_add]

/-- `create_file_groups`, in some order. -/
def fileGroups (files : List (ScanFile L V)) : List (List (ScanFile L V)) :=
  (files.map (·.dataFile.partition)).eraseDups.map fun p => files.filter (·.dataFile.partition = p)

omit [DecidableEq V] in
theorem perm_fileGroups (files : List (ScanFile L V)) : (fileGroups files).flatten.Perm files := by
  unfold fileGroups
  rw [← flatMap_def]
  exact Lists.perm_flatMap_filter_of_nodup (fun f : ScanFile L V => f.dataFile.partition)
    (Lists.nodup_eraseDups _) _ fun f hf => mem_eraseDups.mpr (mem_map_of_mem hf)

def isClean (f : ScanFile L V) : Bool := index.forDataFile f.dataFile f.seq = ⟨[], []⟩

def parquetRows (f : ScanFile L V) : List (Row V) :=
  if s.pushdownFilters then (s.pages f.batches.flatten).filter s.filter else s.pages f.batches.flatten

/-- A branch of the union. -/
def branch (f : ScanFile L V) : Option (List (Row V)) :=
  if isClean index f then some f.batches.flatten
  else (applyDeletes s.deletes s.schema f.dataFile.filePath (index.forDataFile f.dataFile f.seq)
    s.columns f.batches).map List.flatten

/-- The rows of each partition, of which at most `limit` come out. -/
def partitions : Option (List (List (Row V))) :=
  if s.collected.all (isClean index) then
    some ((fileGroups s.collected).map fun group => group.flatMap s.parquetRows)
  else (s.collected.mapM (s.branch index)).map fun rows => [rows.flatten.filter s.filter]

def scan : Option (List (List (Row V))) :=
  (s.partitions index).map fun parts => parts.map (·.take s.limit)

noncomputable def live (f : ScanFile L V) : List (Row V) :=
  survivors (keyByName s.schema) s.deletes s.refs f.dataFile f.seq s.columns f.batches

/-- The live rows of the files that satisfy the filters. -/
noncomputable def matching (files : List (ScanFile L V)) : List (Row V) :=
  (files.flatMap s.live).filter s.filter

/-- Enough rows come out, and they are some of the matching rows. -/
def ReturnsEnough : Prop :=
  ∃ out, s.scan index = some out ∧
    min s.limit (s.matching s.files).length ≤ out.flatten.length ∧
    out.flatten.Subperm (s.matching s.files)

def Readable (f : ScanFile L V) : Prop :=
  DeletesReadable s.deletes s.schema s.refs f.dataFile f.seq s.columns f.batches

variable {s index}

/-- The Parquet reader lets rows through that do not satisfy the filters only if it is not to
filter. -/
theorem filter_take_iff {parts : List (List (Row V))} (hp : s.partitions index = some parts) :
    (∀ row ∈ (parts.map (·.take s.limit)).flatten, s.filter row) ↔
      (s.collected.all (isClean index) → s.pushdownFilters = false →
        ∀ group ∈ fileGroups s.collected, ∀ row ∈ (group.flatMap fun f =>
          s.pages f.batches.flatten).take s.limit, s.filter row) := by
  unfold partitions at hp
  split at hp
  next hclean =>
    obtain rfl := Option.some.inj hp
    cases hpush : s.pushdownFilters with
    | false =>
      have hrows : s.parquetRows = fun f => s.pages f.batches.flatten := by
        funext f
        rw [parquetRows, hpush]
        rfl
      rw [hrows]
      simp only [hclean, mem_flatten, mem_map, exists_exists_and_eq_and, true_implies]
      exact ⟨fun h group hgroup row hrow => h row ⟨group, hgroup, hrow⟩,
        fun h row ⟨group, hgroup, hrow⟩ => h group hgroup row hrow⟩
    | true =>
      refine iff_of_true (fun row hrow => ?_) (fun _ h => nomatch h)
      have hrow := (take_sublist _ _).subset hrow
      simp only [mem_flatten, mem_map, exists_exists_and_eq_and, mem_flatMap,
        parquetRows, hpush, if_true, mem_filter] at hrow
      obtain ⟨_, _, _, _, _, h⟩ := hrow
      exact h
  next hdirty =>
    obtain ⟨rows, -, rfl⟩ := Option.map_eq_some_iff.mp hp
    refine iff_of_true (fun row hrow => ?_) fun h => absurd h hdirty
    have hrow := (take_sublist _ _).subset hrow
    rw [flatten_singleton] at hrow
    exact (mem_filter.mp hrow).2

variable (hh : index.Holds s.refs) (htargets : s.deletes.Targeted s.refs)
include hh htargets

theorem branch_spec (f : ScanFile L V) :
    ((s.branch index f).isSome ↔ s.Readable f) ∧ ∀ rows ∈ s.branch index f, rows = s.live f := by
  have hbranch : s.branch index f = (applyDeletes s.deletes s.schema f.dataFile.filePath
      (index.forDataFile f.dataFile f.seq) s.columns f.batches).map List.flatten := by
    unfold branch
    split
    next hclean =>
      have hsome : (filterBatches s.columns [] [] 0 f.batches).isSome :=
        (filterBatches_isSome_iff List.Pairwise.nil).mpr fun _ _ h => (not_mem_nil h).elim
      obtain ⟨out, hout⟩ := Option.isSome_iff_exists.mp hsome
      rw [of_decide_eq_true hclean]
      show _ = (filterBatches s.columns [] [] 0 f.batches).map _
      rw [hout, Option.map_some, filterBatches_spec List.Pairwise.nil hout,
        filter_eq_self.mpr (fun _ _ => by simp [keepsRow]), zipIdx_map_fst]
    next => rfl
  rw [hbranch, Option.isSome_map]
  refine ⟨applyDeletes_isSome_iff hh, fun rows hrows => ?_⟩
  obtain ⟨out, hout, rfl⟩ := Option.map_eq_some_iff.mp hrows
  exact flatten_applyDeletes hh htargets hout

theorem of_isClean {f : ScanFile L V} (h : isClean index f) :
    s.Readable f ∧ f.batches.flatten = s.live f := by
  have hbranch : s.branch index f = some f.batches.flatten := if_pos h
  obtain ⟨hsome, hrows⟩ := branch_spec hh htargets f
  exact ⟨hsome.mp (by rw [hbranch]; rfl), hrows _ hbranch⟩

theorem filter_parquetRows {f : ScanFile L V} (h : isClean index f) :
    (s.parquetRows f).filter s.filter = (s.live f).filter s.filter := by
  rw [← (of_isClean hh htargets h).2, ← s.filter_pages f.batches.flatten, parquetRows]
  split
  · rw [filter_filter]
    simp only [Bool.and_self]
  · rfl

theorem partitions_spec :
    ((s.partitions index).isSome ↔ ∀ f ∈ s.collected, s.Readable f) ∧
    ∀ parts ∈ s.partitions index,
      (parts.flatten.filter s.filter).Perm (s.matching s.collected) := by
  unfold partitions
  split
  next hclean =>
    rw [all_eq_true] at hclean
    refine ⟨iff_of_true rfl fun f hf => (of_isClean hh htargets (hclean f hf)).1, ?_⟩
    intro parts hparts
    obtain rfl := Option.some.inj hparts
    have hflat : ((fileGroups s.collected).map fun group => group.flatMap s.parquetRows).flatten =
        (fileGroups s.collected).flatten.flatMap s.parquetRows := by
      rw [flatMap_def, map_flatten, flatten_flatten, map_map]
      rfl
    have hmatching : s.matching s.collected =
        (s.collected.flatMap s.parquetRows).filter s.filter := by
      rw [matching, filter_flatMap, filter_flatMap]
      exact flatMap_congr fun f hf => (filter_parquetRows hh htargets (hclean f hf)).symm
    rw [hflat, hmatching]
    exact ((perm_fileGroups s.collected).flatMap_right _).filter _
  next =>
    rw [Option.isSome_map, Results.mapM_isSome_iff]
    refine ⟨forall₂_congr fun f _ => (branch_spec hh htargets f).1, fun parts hparts => ?_⟩
    obtain ⟨rows, hrows, rfl⟩ := Option.map_eq_some_iff.mp hparts
    have hlive : rows.map some = (s.collected.map s.live).map some := by
      rw [← Results.map_eq_of_mapM_eq_some hrows, map_map]
      refine map_congr_left fun f hf => ?_
      obtain ⟨b, -, hb⟩ := Results.mem_of_mapM_eq_some hrows hf
      rw [hb, (branch_spec hh htargets f).2 b hb]
      rfl
    rw [map_injective_iff.mpr (Option.some_injective _) hlive, matching, flatten_singleton,
      filter_filter, flatMap_def]
    simp only [Bool.and_self]
    exact .refl _

end LimitedScan

open LimitedScan in
/-- The rows are right if and only if the files read have enough of them, and what the Parquet
reader lets through unfiltered satisfies the filters. -/
theorem returnsEnough_iff [DecidableEq L] [DecidableEq T] [DecidableEq V] (s : LimitedScan L T V)
    (index : DeleteFileIndex L) (hindex : DeleteFileIndex.build s.refs = some index)
    (htargets : s.deletes.Targeted s.refs) :
    s.ReturnsEnough index ↔
      (∀ f ∈ s.reached, s.Readable f) ∧
      (s.limit ≤ (s.matching s.reached).length ∨
        (s.matching s.reached).length = (s.matching s.files).length) ∧
      (s.reached.all (isClean index) → s.pushdownFilters = false →
        ∀ group ∈ fileGroups s.reached, ∀ row ∈ (group.flatMap fun f =>
          s.pages f.batches.flatten).take s.limit, s.filter row) := by
  have hh := DeleteFileIndex.holds_build hindex
  obtain ⟨hsome, hparts⟩ := partitions_spec hh htargets
  have hsub : (s.matching s.collected).Sublist (s.matching s.files) :=
    (((collectFiles_sublist _ _ _).trans filter_sublist).flatMap _).filter _
  rw [← s.collected_eq_reached, ← hsome]
  constructor
  · rintro ⟨out, hout, hlen, hrows⟩
    obtain ⟨parts, hp, rfl⟩ := Option.map_eq_some_iff.mp hout
    have htrue : ∀ row ∈ (parts.map (·.take s.limit)).flatten, s.filter row :=
      fun row hrow => (mem_filter.mp (hrows.subset hrow)).2
    refine ⟨by rw [hp]; rfl, ?_, ?_⟩
    · have hout := (take_sublist_filter htrue).length_le
      rw [(hparts parts hp).length_eq] at hout
      have hle := hsub.length_le
      omega
    · exact (filter_take_iff hp).mp htrue
  · rintro ⟨hread, henough, hfilter⟩
    obtain ⟨parts, hp⟩ := Option.isSome_iff_exists.mp hread
    have hperm := hparts parts hp
    have htrue := (filter_take_iff hp).mpr hfilter
    refine ⟨parts.map (·.take s.limit), by rw [scan, hp]; rfl, ?_, ?_⟩
    · have hlen := le_length_take parts s.limit
      have hle := length_filter_le s.filter parts.flatten
      rw [hperm.length_eq] at hle
      omega
    · have hout := (take_sublist_filter htrue).subperm
      exact hout.trans (hperm.subperm.trans hsub.subperm)

/-- Two files, all rows of the first deleted, and a limit of one row. -/
def deletedFirst : LimitedScan Int String Nat where
  files := [⟨{ filePath := "f", recordCount := 2 }, 0, [[[some 10], [some 11]]]⟩,
    ⟨{ filePath := "g", recordCount := 1 }, 0, [[[some 12]]]⟩]
  deletes := {
    positions _ := [some [(some "f", some 0), (some "f", some 1)]]
    columns _ := []
    batches _ := [] }
  refs := [{
    dataFile := { content := .positionDeletes, filePath := "d", referencedDataFile := some "f" }
    dataSequenceNumber := 1
    partitionSpecId := 0
    isUnpartitionedSpec := true }]
  schema := []
  columns := [⟨1, "a", "int"⟩]
  limit := 1
  filter _ := true
  keep _ := true
  pages rows := rows
  filter_pages _ := rfl
  pushdownFilters := false

/-- The second file, whose row is live, is not read. -/
theorem scan_deletedFirst :
    ∃ index, DeleteFileIndex.build deletedFirst.refs = some index ∧
      deletedFirst.scan index = some [[]] ∧
      { deletedFirst with files := deletedFirst.files.tail }.scan index = some [[[some 12]]] :=
  ⟨_, rfl, by decide +kernel⟩

theorem returnsEnough_without_deletes :
    deletedFirst.deletes.Targeted ([] : List (DeleteFileRef Int)) ∧
      { deletedFirst with refs := [], limit := 2 }.ReturnsEnough {} := by
  have htargets : deletedFirst.deletes.Targeted ([] : List (DeleteFileRef Int)) :=
    fun _ h => (not_mem_nil h).elim
  exact ⟨htargets, (returnsEnough_iff _ {} rfl htargets).mpr
    ⟨fun _ _ => ⟨by simp, by simp⟩, .inr rfl, by simp [deletedFirst]⟩⟩

end Zelox.Iceberg
