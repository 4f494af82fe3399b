import Zelox.Delta.Table
import Zelox.Lib.Ranks
import Mathlib.Algebra.GroupWithZero.Nat

/-!
# Scans with deletion vectors

`DeltaScanByAddsExec` reads the files of a list of `Add` actions.  Files without a
deletion vector are read in groups; a file with one is read alone, and the rows that come
out of the reader are counted and dropped if their count is in the vector.  Every reader
is given the pushed-down filter, under which it may skip rows that do not satisfy it, and
the limit, at which it stops.

Positions in the vector are positions in the file, while the scan counts the rows that
the reader returns (`rank`), so a skipped row shifts all that follow.  `emitted_iff` says
when this makes no difference.
-/

namespace Zelox.Delta

open Sql List

/-- A row in a scan, with the file and the position that it comes from. -/
structure ScanEntry where
  file : DataFile
  row : Values
  position : Nat
deriving DecidableEq, Repr

def TableSchema.entries (s : TableSchema) (f : DataFile) : List ScanEntry :=
  f.rows.zipIdx.map fun r => { file := f, row := s.logicalRow f r.1, position := r.2 }

/-- What the Parquet reader is free to do: skip rows that do not satisfy the filter, cut batches,
and group plain files. -/
structure ParquetReader where
  skips : DataFile → Nat → Bool
  batches : List ScanEntry → List (List ScanEntry)
  flatten_batches : ∀ l, (batches l).flatten = l
  groups : List DataFile → List (List DataFile)
  groups_perm : ∀ l, (groups l).flatten.Perm l
  groups_singleton : ∀ f, groups [f] = [[f]]

structure DeltaScanByAdds where
  schema : TableSchema
  pushdownFilter : Option (Expr String) := none
  enableParquetPushdown : Bool := true
  limit : Option Nat := none

namespace DeltaScanByAdds

variable (E : Engine) (reader : ParquetReader) (scan : DeltaScanByAdds)

/-- The predicate that the Parquet source is given. -/
def predicate : Option (Expr String) :=
  if scan.enableParquetPushdown then scan.pushdownFilter else none

def satisfies (filter : Option (Expr String)) (e : ScanEntry) : Bool :=
  filter.all fun p => p.truth E e.row.get = some true

/-- A row is returned unless it is skipped, which only one that does not satisfy the
predicate is. -/
def returns (e : ScanEntry) : Bool :=
  satisfies E scan.predicate e || !reader.skips e.file e.position

def returned (f : DataFile) : List ScanEntry :=
  (scan.schema.entries f).filter (scan.returns E reader)

/-- The reader stops after `limit` rows. -/
def fetch (l : List ScanEntry) : List ScanEntry :=
  match scan.limit with
  | none => l
  | some n => l.take n

/-- One stream for each group of files. -/
def buildBulkScan (files : List DataFile) : List (List ScanEntry) :=
  (reader.groups files).map fun group => scan.fetch (group.flatMap (scan.returned E reader))

/-- Drops the rows whose running count is in the bitmap. -/
def dvFilterStream (bitmap : List Nat) (batches : List (List ScanEntry)) : List ScanEntry :=
  (Ranks.filterBatches (fun i => !bitmap.contains i) 0 batches).flatten

/-- A file with a deletion vector is scanned alone. -/
def dvScan (f : DataFile) : List ScanEntry :=
  (scan.buildBulkScan E reader [f]).flatMap fun stream =>
    dvFilterStream f.deletionVector (reader.batches stream)

def buildNextScan (adds : List DataFile) : List ScanEntry :=
  (scan.buildBulkScan E reader (adds.filter fun f => !f.hasDeletionVector)).flatten ++
    (adds.filter fun f => f.hasDeletionVector).flatMap (scan.dvScan E reader)

/-- The files come in chunks, which are scanned one after the other. -/
def emitted (chunks : List (List DataFile)) : List ScanEntry :=
  chunks.flatMap (scan.buildNextScan E reader)

/-! ### What the scan should emit -/

/-- The live rows that satisfy the filter. -/
def wantedOf (f : DataFile) : List ScanEntry :=
  (scan.schema.entries f).filter fun e =>
    !f.isDeleted e.position && satisfies E scan.pushdownFilter e

def wanted (chunks : List (List DataFile)) : List ScanEntry :=
  chunks.flatten.flatMap (scan.wantedOf E)

/-- Every live row that satisfies the filter once, or enough of them, and never a deleted row. -/
structure HonoursVectors (chunks : List (List DataFile)) : Prop where
  live : ∀ e ∈ scan.emitted E reader chunks, e.file.isDeleted e.position = false
  complete : scan.limit = none →
    ((scan.emitted E reader chunks).filter (satisfies E scan.pushdownFilter)).Perm
      (scan.wanted E chunks)
  enough : ∀ n, scan.limit = some n → min n (scan.wanted E chunks).length ≤
    (scan.emitted E reader chunks).countP (satisfies E scan.pushdownFilter)

/-! ### Ranks -/

/-- How many of the rows before this one the reader returns. -/
def rank (e : ScanEntry) : Nat :=
  ((scan.schema.entries e.file).take e.position).countP (scan.returns E reader)

def inLimit (i : Nat) : Bool := scan.limit.all fun n => i < n

variable {E reader scan}
variable {e : ScanEntry} {f : DataFile}

theorem position_of_entries {s : TableSchema} {i : Nat} (h : (s.entries f)[i]? = some e) :
    e.file = f ∧ e.position = i := by
  rw [TableSchema.entries, getElem?_map, getElem?_zipIdx] at h
  obtain ⟨r, hr, rfl⟩ := Option.map_eq_some_iff.mp h
  obtain ⟨row, -, rfl⟩ := Option.map_eq_some_iff.mp hr
  exact ⟨rfl, by simp⟩

theorem file_of_mem_entries {s : TableSchema} (h : e ∈ s.entries f) : e.file = f := by
  obtain ⟨i, hi⟩ := getElem?_of_mem h
  exact (position_of_entries hi).1

theorem dvScan_eq (f : DataFile) :
    scan.dvScan E reader f = (scan.returned E reader f).filter fun e =>
      scan.inLimit (scan.rank E reader e) && !f.deletionVector.contains (scan.rank E reader e) := by
  have hfetch (l : List ScanEntry) :
      Ranks.filterIdx (fun i => !f.deletionVector.contains i) (scan.fetch l) =
        Ranks.filterIdx (fun i => scan.inLimit i && !f.deletionVector.contains i) l := by
    unfold fetch inLimit
    cases scan.limit with
    | none => simp
    | some n => exact Ranks.filterIdx_take _ n l
  rw [dvScan, buildBulkScan, reader.groups_singleton, map_singleton, flatMap_singleton,
    dvFilterStream, Ranks.flatten_filterBatches, reader.flatten_batches, flatMap_singleton]
  show Ranks.filterIdx _ _ = _
  rw [hfetch, returned, Ranks.filterIdx_filter fun i e hi => (position_of_entries hi).2]
  refine filter_congr fun e he => ?_
  rw [rank, file_of_mem_entries (mem_of_mem_filter he)]

theorem mem_dvScan : e ∈ scan.dvScan E reader f ↔ e ∈ scan.returned E reader f ∧
    scan.inLimit (scan.rank E reader e) ∧ scan.rank E reader e ∉ f.deletionVector := by
  rw [dvScan_eq, mem_filter]
  simp

theorem returns_of_satisfies (h : satisfies E scan.pushdownFilter e) :
    scan.returns E reader e := by
  have : satisfies E scan.predicate e := by
    unfold predicate
    split
    · exact h
    · rfl
  rw [returns, this, Bool.true_or]

theorem filter_returned (f : DataFile) :
    (scan.returned E reader f).filter (satisfies E scan.pushdownFilter) =
      (scan.schema.entries f).filter (satisfies E scan.pushdownFilter) := by
  rw [returned, filter_filter]
  refine filter_congr fun e _ => ?_
  cases h : satisfies E scan.pushdownFilter e with
  | false => rfl
  | true => simpa using returns_of_satisfies h

theorem isDeleted_of_plain (h : f.hasDeletionVector = false) (i : Nat) :
    f.isDeleted i = false := by
  rw [DataFile.isDeleted, h, Bool.false_and]

theorem wantedOf_of_plain (h : f.hasDeletionVector = false) :
    scan.wantedOf E f = (scan.returned E reader f).filter (satisfies E scan.pushdownFilter) := by
  rw [filter_returned, wantedOf]
  refine filter_congr fun e _ => ?_
  rw [isDeleted_of_plain h, Bool.not_false, Bool.true_and]

theorem file_of_mem_returned (h : e ∈ scan.returned E reader f) :
    e.file = f := file_of_mem_entries (mem_of_mem_filter h)

theorem mem_of_mem_fetch {l : List ScanEntry} (h : e ∈ scan.fetch l) : e ∈ l := by
  unfold fetch at h
  split at h
  · exact h
  · exact mem_of_mem_take h

/-- A row of the scan comes from a plain file, or from a file with a vector by its rank. -/
theorem mem_buildNextScan {adds : List DataFile} (h : e ∈ scan.buildNextScan E reader adds) :
    e.file ∈ adds ∧ (e.file.hasDeletionVector = false ∨
      e.file.hasDeletionVector = true ∧ e ∈ scan.dvScan E reader e.file) := by
  rcases mem_append.mp h with h | h
  · obtain ⟨stream, hstream, he⟩ := mem_flatten.mp h
    obtain ⟨group, hgroup, rfl⟩ := mem_map.mp hstream
    obtain ⟨f, hf, he⟩ := mem_flatMap.mp (mem_of_mem_fetch he)
    have hmem := (reader.groups_perm _).subset (mem_flatten.mpr ⟨group, hgroup, hf⟩)
    obtain ⟨hadd, hplain⟩ := mem_filter.mp hmem
    rw [file_of_mem_returned he]
    exact ⟨hadd, .inl (by simpa using hplain)⟩
  · obtain ⟨f, hf, he⟩ := mem_flatMap.mp h
    obtain ⟨hadd, hdv⟩ := mem_filter.mp hf
    rw [file_of_mem_returned (mem_dvScan.mp he).1]
    exact ⟨hadd, .inr ⟨hdv, he⟩⟩

variable {chunks : List (List DataFile)}

theorem mem_emitted (h : e ∈ scan.emitted E reader chunks) :
    e.file ∈ chunks.flatten ∧ (e.file.hasDeletionVector = false ∨
      e.file.hasDeletionVector = true ∧ e ∈ scan.dvScan E reader e.file) := by
  obtain ⟨adds, hadds, he⟩ := mem_flatMap.mp h
  obtain ⟨hfile, hcases⟩ := mem_buildNextScan he
  exact ⟨mem_flatten.mpr ⟨adds, hadds, hfile⟩, hcases⟩

theorem mem_emitted_of_dvScan (hf : f ∈ chunks.flatten) (hdv : f.hasDeletionVector)
    (he : e ∈ scan.dvScan E reader f) :
    e ∈ scan.emitted E reader chunks := by
  obtain ⟨adds, hadds, hf⟩ := mem_flatten.mp hf
  refine mem_flatMap.mpr ⟨adds, hadds, mem_append_right _ ?_⟩
  exact mem_flatMap.mpr ⟨f, mem_filter.mpr ⟨hf, hdv⟩, he⟩

/-! ### When the ranks do as positions -/

variable (E reader scan)

/-- The rows that satisfy the filter among the first `n` returned, not counting those whose rank is
in the vector. -/
def withinLimit (n : Nat) (adds : List DataFile) : Nat :=
  ((reader.groups (adds.filter fun f => !f.hasDeletionVector)).map fun group =>
      ((group.flatMap (scan.returned E reader)).take n).countP
        (satisfies E scan.pushdownFilter)).sum +
    ((adds.filter fun f => f.hasDeletionVector).map fun f =>
      ((scan.returned E reader f).filter fun e =>
        decide (scan.rank E reader e < n) &&
          !f.deletionVector.contains (scan.rank E reader e)).countP
            (satisfies E scan.pushdownFilter)).sum

/-- Returned rows have their rank in the vector exactly if they are deleted, as far as a limit needs
them. -/
structure RanksAgree (chunks : List (List DataFile)) : Prop where
  deleted : ∀ f ∈ chunks.flatten, ∀ e ∈ scan.returned E reader f, f.isDeleted e.position →
    scan.inLimit (scan.rank E reader e) → scan.rank E reader e ∈ f.deletionVector
  live : scan.limit = none → ∀ f ∈ chunks.flatten, f.hasDeletionVector →
    ∀ e ∈ scan.wantedOf E f, scan.rank E reader e ∉ f.deletionVector
  enough : ∀ n, scan.limit = some n → min n (scan.wanted E chunks).length ≤
    (chunks.map (scan.withinLimit E reader n)).sum

variable {E reader scan}

/-- The deleted rows of a file that are returned within the limit have their rank in the vector. -/
def DropsDeleted (E : Engine) (reader : ParquetReader) (scan : DeltaScanByAdds) (f : DataFile) :
    Prop :=
  ∀ e ∈ scan.returned E reader f, f.isDeleted e.position →
    scan.inLimit (scan.rank E reader e) → scan.rank E reader e ∈ f.deletionVector

theorem live_iff :
    (∀ e ∈ scan.emitted E reader chunks, e.file.isDeleted e.position = false) ↔
      ∀ f ∈ chunks.flatten, scan.DropsDeleted E reader f := by
  constructor
  · intro h f hf e he hdel hlimit
    by_contra hrank
    have hdv : f.hasDeletionVector := (Bool.and_eq_true _ _ ▸ hdel).1
    have := h e (mem_emitted_of_dvScan hf hdv (mem_dvScan.mpr ⟨he, hlimit, hrank⟩))
    rw [file_of_mem_returned he, hdel] at this
    cases this
  · intro h e he
    obtain ⟨hf, hplain | ⟨-, hmem⟩⟩ := mem_emitted he
    · exact isDeleted_of_plain hplain _
    · obtain ⟨hret, hlimit, hrank⟩ := mem_dvScan.mp hmem
      by_contra hdel
      exact hrank (h _ hf e hret (by simpa using hdel) hlimit)

section

variable (hlimit : scan.limit = none)
include hlimit

theorem filter_bulkScan_perm {files : List DataFile}
    (hplain : ∀ f ∈ files, f.hasDeletionVector = false) :
    ((scan.buildBulkScan E reader files).flatten.filter (satisfies E scan.pushdownFilter)).Perm
      (files.flatMap (scan.wantedOf E)) := by
  have hbulk : (scan.buildBulkScan E reader files).flatten =
      (reader.groups files).flatten.flatMap (scan.returned E reader) := by
    simp only [buildBulkScan, fetch, hlimit]
    rw [← flatMap_def, ← flatMap_assoc, flatMap_id']
  have hwanted : files.flatMap (scan.wantedOf E) =
      (files.flatMap (scan.returned E reader)).filter (satisfies E scan.pushdownFilter) := by
    rw [filter_flatMap]
    exact flatMap_congr fun f hf => wantedOf_of_plain (hplain f hf)
  rw [hbulk, hwanted]
  exact ((reader.groups_perm files).flatMap_right _).filter _

/-- If ranks do as positions, a file with a vector gives its live rows. -/
theorem filter_dvScan (hdeleted : scan.DropsDeleted E reader f)
    (hlive : ∀ e ∈ scan.wantedOf E f, scan.rank E reader e ∉ f.deletionVector) :
    (scan.dvScan E reader f).filter (satisfies E scan.pushdownFilter) = scan.wantedOf E f := by
  rw [dvScan_eq, filter_filter, returned, filter_filter, wantedOf]
  refine filter_congr fun e he => ?_
  have hinLimit (i : Nat) : scan.inLimit i = true := by rw [inLimit, hlimit]; rfl
  cases hsat : satisfies E scan.pushdownFilter e with
  | false => simp
  | true =>
    have hret : scan.returns E reader e := returns_of_satisfies hsat
    have hmem : e ∈ scan.returned E reader f := mem_filter.mpr ⟨he, hret⟩
    cases hdel : f.isDeleted e.position with
    | true => simp [hdeleted e hmem hdel (hinLimit _)]
    | false =>
      have hwanted : e ∈ scan.wantedOf E f := mem_filter.mpr ⟨he, by simp [hdel, hsat]⟩
      simp [hlive e hwanted, hret, hinLimit]

theorem filter_buildNextScan_perm {adds : List DataFile}
    (hdv : ∀ f ∈ adds, f.hasDeletionVector →
      (scan.dvScan E reader f).filter (satisfies E scan.pushdownFilter) = scan.wantedOf E f) :
    ((scan.buildNextScan E reader adds).filter (satisfies E scan.pushdownFilter)).Perm
      (adds.flatMap (scan.wantedOf E)) := by
  have hplain : ∀ f ∈ adds.filter fun f => !f.hasDeletionVector, f.hasDeletionVector = false :=
    fun f hf => by simpa using (mem_filter.mp hf).2
  have hvector : ((adds.filter fun f => f.hasDeletionVector).flatMap
      (scan.dvScan E reader)).filter (satisfies E scan.pushdownFilter) =
      (adds.filter fun f => f.hasDeletionVector).flatMap (scan.wantedOf E) := by
    rw [filter_flatMap]
    refine flatMap_congr fun f hf => ?_
    obtain ⟨hf, hhas⟩ := mem_filter.mp hf
    exact hdv f hf hhas
  rw [buildNextScan, filter_append, hvector]
  refine ((filter_bulkScan_perm hlimit hplain).append_right _).trans ?_
  rw [← flatMap_append]
  refine (perm_append_comm.trans ?_).flatMap_right _
  exact filter_append_perm (fun f => f.hasDeletionVector) adds

theorem complete_iff (hdeleted : ∀ f ∈ chunks.flatten, scan.DropsDeleted E reader f) :
    ((scan.emitted E reader chunks).filter (satisfies E scan.pushdownFilter)).Perm
        (scan.wanted E chunks) ↔
      ∀ f ∈ chunks.flatten, f.hasDeletionVector →
        ∀ e ∈ scan.wantedOf E f, scan.rank E reader e ∉ f.deletionVector := by
  constructor
  · intro h f hf hdv e he
    have hmem : e ∈ scan.emitted E reader chunks :=
      mem_of_mem_filter (h.symm.subset (mem_flatMap.mpr ⟨f, hf, he⟩))
    have hfile : e.file = f := file_of_mem_entries (mem_of_mem_filter he)
    obtain ⟨-, hplain | ⟨-, hscan⟩⟩ := mem_emitted hmem
    · rw [hfile, hdv] at hplain
      cases hplain
    · rw [hfile] at hscan
      exact (mem_dvScan.mp hscan).2.2
  · intro h
    rw [emitted, wanted, filter_flatMap, flatten_eq_flatMap, flatMap_assoc]
    refine List.Perm.flatMap_left _ fun adds hadds => ?_
    refine filter_buildNextScan_perm hlimit fun f hf hdv => ?_
    have hmem : f ∈ chunks.flatten := mem_flatten.mpr ⟨adds, hadds, hf⟩
    exact filter_dvScan hlimit (hdeleted f hmem) (h f hmem hdv)

end

theorem countP_emitted {n : Nat} (hlimit : scan.limit = some n) (chunks : List (List DataFile)) :
    (scan.emitted E reader chunks).countP (satisfies E scan.pushdownFilter) =
      (chunks.map (scan.withinLimit E reader n)).sum := by
  have hdv (f : DataFile) : scan.dvScan E reader f = (scan.returned E reader f).filter fun e =>
      decide (scan.rank E reader e < n) && !f.deletionVector.contains (scan.rank E reader e) := by
    rw [dvScan_eq]
    simp [inLimit, hlimit]
  rw [emitted, countP_flatMap]
  congr 1
  refine map_congr_left fun adds _ => ?_
  rw [Function.comp_apply, buildNextScan, countP_append, countP_flatten,
    countP_flatMap, buildBulkScan, map_map, withinLimit]
  simp only [Function.comp_def, fetch, hlimit, hdv]

theorem RanksAgree.of_honoursVectors (h : scan.HonoursVectors E reader chunks) :
    scan.RanksAgree E reader chunks := by
  have hdeleted := live_iff.mp h.live
  refine ⟨hdeleted, fun hlimit => ?_, fun n hlimit => ?_⟩
  · exact (complete_iff hlimit hdeleted).mp (h.complete hlimit)
  · rw [← countP_emitted hlimit]
    exact h.enough n hlimit

theorem RanksAgree.honoursVectors (h : scan.RanksAgree E reader chunks) :
    scan.HonoursVectors E reader chunks := by
  refine ⟨live_iff.mpr h.deleted, fun hlimit => ?_, fun n hlimit => ?_⟩
  · exact (complete_iff hlimit h.deleted).mpr (h.live hlimit)
  · rw [countP_emitted hlimit]
    exact h.enough n hlimit

/-- The scan honours the deletion vectors if the ranks of the returned rows do as positions. -/
theorem emitted_iff (E : Engine) (reader : ParquetReader) (scan : DeltaScanByAdds)
    (chunks : List (List DataFile)) :
    scan.HonoursVectors E reader chunks ↔ scan.RanksAgree E reader chunks :=
  ⟨.of_honoursVectors, RanksAgree.honoursVectors⟩

/-- A reader that skips whatever it may, returns one batch and has a group for each file. -/
def eagerReader : ParquetReader where
  skips _ _ := true
  batches l := [l]
  flatten_batches l := by simp
  groups l := l.map fun f => [f]
  groups_perm files := .of_eq (List.flatMap_singleton' files)
  groups_singleton _ := rfl

/-- A file with the values 1, 2 and 3 in its column `x`. -/
def oneTwoThree (deleted : List Nat) : DataFile where
  add :=
    { path := "part-0", size := 1
      deletionVector := some { storageType := .inline, pathOrInlineDv := "" } }
  rows := [1, 2, 3].map fun i => [("x", some (.int i))]
  deletionVector := deleted

def findsThree : DeltaScanByAdds where
  schema := { fields := [{ name := "x", physicalName := "x" }] }
  pushdownFilter := some (.binary (.column "x") (.compare .eq) (.literal (some (.int 3))))

/-- Two skipped rows make the third count as the first. -/
theorem skipped_rows_shift_positions :
    (findsThree.emitted .plain eagerReader [[oneTwoThree [2]]]).map
        (fun e => (e.position, e.file.isDeleted e.position)) = [(2, true)] ∧
      (findsThree.emitted .plain eagerReader [[oneTwoThree [0]]]).map (·.position) = [] ∧
      (findsThree.wanted .plain [[oneTwoThree [0]]]).map (·.position) = [2] ∧
      (({ findsThree with pushdownFilter := none, limit := some 1 } : DeltaScanByAdds).emitted
        .plain eagerReader [[oneTwoThree [0]]]).map (·.position) = [] := by
  decide

end DeltaScanByAdds

end Zelox.Delta
