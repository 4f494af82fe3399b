import Zelox.Delta.Delete

/-!
# Merge-on-read DELETE

On a table with deletion vectors a DELETE marks rows instead of rewriting files
(`build_delete_plan_mor`, `DeletionVectorWriterExec`).  Each selected file is read on its
own, the positions at which the condition is TRUE are joined to its deletion vector, and
if that adds a position the file's `Add` action is replaced.

The file is read as it is, with the table's logical columns: a partition column is not in
the file and reads as null, and under column mapping a column is looked up by its logical
name.  `marks_iff` says when this makes no difference.
-/

namespace Zelox.Delta

open Sql List Option

/-- How `object_store` makes a path of a text, and how rows are cut into batches. -/
structure RawReader where
  pathFrom : String → String
  batches : List Values → List (List Values)
  flatten_batches : ∀ l, (batches l).flatten = l

/-- The path is made twice, for the text of the location and for the file to open. -/
def RawReader.opens (reader : RawReader) (f : DataFile) : Bool :=
  reader.pathFrom (reader.pathFrom f.add.path) = f.add.path

namespace TableSchema

variable (s : TableSchema)

/-- A row as a read with the logical schema and without partition values gives it. -/
def rawRow (row : Values) : Values := s.fields.map fun field => (field.name, row.get field.name)

/-- A column that is missing in the file can only be filled in if it is nullable. -/
def fillsMissing (f : DataFile) : Bool :=
  s.fields.all fun field => field.nullable || f.columns.contains field.name

end TableSchema

namespace DataFile

variable (f : DataFile)

def existingVector : List Nat := if f.hasDeletionVector then f.deletionVector else []

theorem mem_existingVector {i : Nat} : i ∈ f.existingVector ↔ f.isDeleted i = true := by
  cases h : f.hasDeletionVector <;> simp [existingVector, isDeleted, h]

/-- The positions that a list of matches adds. -/
def newlyDeleted (matching : List Nat) : List Nat :=
  matching.filter fun i => !f.existingVector.contains i

/-- The vector that a file gets, if there is something to write. -/
def newVector (matching : List Nat) : Option (List Nat) :=
  if matching.isEmpty then none
  else if (f.newlyDeleted matching).isEmpty then none
  else some (f.existingVector ++ f.newlyDeleted matching)

/-- A position of the file whose row satisfies `p`. -/
def matchesAt (p : Values → Truth) (i : Nat) : Bool := (f.rows[i]?).any fun row => p row = some true

end DataFile

/-- The positions at which a condition is TRUE, counted over the batches of a file. -/
def matchingIndices (p : Values → Truth) : Nat → List (List Values) → List Nat
  | _, [] => []
  | offset, batch :: batches =>
    ((batch.zipIdx offset).filter fun r => p r.1 = some true).map Prod.snd ++
      matchingIndices p (offset + batch.length) batches

theorem mem_matchingIndices {p : Values → Truth} {offset : Nat} {batches : List (List Values)}
    {i : Nat} : i ∈ matchingIndices p offset batches ↔
      offset ≤ i ∧ ∃ row, batches.flatten[i - offset]? = some row ∧ p row = some true := by
  induction batches generalizing offset with
  | nil => simp [matchingIndices]
  | cons batch batches ih =>
    have hbatch : i ∈ ((batch.zipIdx offset).filter fun r => p r.1 = some true).map Prod.snd ↔
        offset ≤ i ∧ ∃ row, batch[i - offset]? = some row ∧ p row = some true := by
      simp only [List.mem_map, mem_filter, decide_eq_true_eq, Prod.exists,
        exists_eq_right, mk_mem_zipIdx_iff_le_and_getElem?_sub]
      tauto
    rw [matchingIndices, mem_append, hbatch, ih, flatten_cons, getElem?_append]
    by_cases hlt : i - offset < batch.length
    · have hle : ¬offset + batch.length ≤ i := by omega
      rw [if_pos hlt, or_iff_left fun h => hle h.1]
    · rw [if_neg hlt, getElem?_eq_none (by omega)]
      have hsub : i - (offset + batch.length) = i - offset - batch.length := by omega
      have hle : offset + batch.length ≤ i ↔ offset ≤ i := by omega
      rw [hsub, hle]
      simp

/-- A commit of deletion vectors: the marked files, whose `Add`s are replaced, with their new
vectors. -/
structure VectorPlan where
  marked : List (DataFile × List Nat)
deriving Repr

namespace DeltaTable

variable (E : Session) (reader : RawReader) (t : DeltaTable)

/-- `scan_file_for_matching_rows`, `none` if the file cannot be read. -/
def scanFileForMatchingRows (cond : Expr String) (f : DataFile) : Option (List Nat) :=
  if reader.opens f && t.schema.fillsMissing f then
    some (matchingIndices (fun row => cond.truth E (t.schema.rawRow row).get) 0
      (reader.batches f.rows))
  else none

/-- `DeletionVectorWriterExec`, which fails as a whole if a file cannot be read. -/
def writeVectors (cond : Expr String) : List DataFile → Option (List (DataFile × List Nat))
  | [] => some []
  | f :: files => do
    let matching ← t.scanFileForMatchingRows E reader cond f
    let marked ← writeVectors cond files
    match f.newVector matching with
    | some bitmap => some ((f, bitmap) :: marked)
    | none => some marked

/-- A partition-only condition removes whole files, as in the copy-on-write plan. -/
def buildDeletePlanMor (cond : Expr String) : Option (RewritePlan ⊕ VectorPlan) :=
  if predicateRequiresStats cond t.schema.partitionColumns then
    ((t.findFiles E cond).bind (t.writeVectors E reader cond)).map fun marked => .inr { marked }
  else (t.buildDeletePlan E cond).map .inl

/-! ### Which rows are marked -/

/-- The condition on the row of a file at a position. -/
def condAt (cond : Expr String) (f : DataFile) (i : Nat) : Bool :=
  f.matchesAt (fun row => cond.truth E (t.schema.logicalRow f row).get) i

/-- The condition as it is evaluated on the plain read of the file. -/
def rawCondAt (cond : Expr String) (f : DataFile) (i : Nat) : Bool :=
  f.matchesAt (fun row => cond.truth E (t.schema.rawRow row).get) i

/-- The files with a newly matching row are marked, each with the matching positions added. -/
structure MarksExactly (cond : Expr String) (plan : VectorPlan) : Prop where
  marked : ∀ f ∈ t.files.entries, (∃ bitmap, (f, bitmap) ∈ plan.marked) ↔
    ∃ i, f.isDeleted i = false ∧ t.condAt E cond f i
  active : ∀ m ∈ plan.marked, m.1 ∈ t.files.entries
  once : (plan.marked.map fun m => m.1.key).Nodup
  union : ∀ m ∈ plan.marked, ∀ i, i ∈ m.2 ↔ m.1.isDeleted i ∨ t.condAt E cond m.1 i

/-- Selected files can be read and evaluate the condition as the table does; others have no match.
-/
structure ReadsExactly (cond : Expr String) : Prop where
  readable : ∀ f ∈ t.files.entries, t.schema.selects E cond f →
    reader.opens f ∧ t.schema.fillsMissing f
  raw : ∀ f ∈ t.files.entries, t.schema.selects E cond f → ∀ i, f.isDeleted i = false →
    t.rawCondAt E cond f i = t.condAt E cond f i
  skipped : ∀ f ∈ t.files.entries, ¬t.schema.selects E cond f → ∀ i, f.isDeleted i = false →
    t.condAt E cond f i = false

variable {E reader t}

theorem mem_scan {cond : Expr String} {f : DataFile} {matching : List Nat}
    (h : t.scanFileForMatchingRows E reader cond f = some matching) (i : Nat) :
    i ∈ matching ↔ t.rawCondAt E cond f i := by
  obtain ⟨-, h⟩ := ite_none_right_eq_some.mp h
  rw [← some.inj h, mem_matchingIndices, reader.flatten_batches, rawCondAt,
    DataFile.matchesAt, Option.any_eq_true]
  simp

theorem scan_isSome_iff (E : Session) (cond : Expr String) {f : DataFile} :
    (t.scanFileForMatchingRows E reader cond f).isSome ↔
      reader.opens f ∧ t.schema.fillsMissing f := by
  unfold scanFileForMatchingRows
  split
  next h => simpa using h
  next h => simpa using h

/-- The mark of a file that has been read. -/
def mark (E : Session) (reader : RawReader) (t : DeltaTable) (cond : Expr String) (f : DataFile) :
    Option (DataFile × List Nat) :=
  ((t.scanFileForMatchingRows E reader cond f).bind f.newVector).map fun bitmap => (f, bitmap)

theorem writeVectors_eq_some_iff {cond : Expr String} {files : List DataFile}
    {marked : List (DataFile × List Nat)} :
    t.writeVectors E reader cond files = some marked ↔
      (∀ f ∈ files, reader.opens f ∧ t.schema.fillsMissing f) ∧
        marked = files.filterMap (t.mark E reader cond) := by
  induction files generalizing marked with
  | nil =>
    simp only [writeVectors, some.injEq, not_mem_nil, false_implies, implies_true,
      filterMap_nil, true_and]
    exact eq_comm
  | cons f files ih =>
    rw [forall_mem_cons, filterMap_cons, mark, ← scan_isSome_iff E cond]
    simp only [writeVectors, bind_eq_bind]
    cases t.scanFileForMatchingRows E reader cond f with
    | none => simp
    | some matching =>
      cases hrest : t.writeVectors E reader cond files with
      | none =>
        have hfail : ¬∀ f ∈ files, reader.opens f ∧ t.schema.fillsMissing f := by
          intro h
          have := ih.mpr ⟨h, rfl⟩
          rw [hrest] at this
          cases this
        simp [hfail]
      | some rest =>
        obtain ⟨hread, rfl⟩ := ih.mp hrest
        cases hv : f.newVector matching <;>
          simp only [hv, bind_some, map_some, map_none, some.injEq, isSome_some, true_and]
        all_goals exact ⟨fun h => ⟨hread, h.symm⟩, fun h => h.2.symm⟩

end DeltaTable

theorem DataFile.newVector_eq_none_iff {f : DataFile} {matching : List Nat} :
    f.newVector matching = none ↔ ∀ i ∈ matching, f.isDeleted i := by
  have hnewly : (f.newlyDeleted matching).isEmpty ↔ ∀ i ∈ matching, f.isDeleted i := by
    simp [DataFile.newlyDeleted, f.mem_existingVector]
  unfold newVector
  split
  next h => simp [List.isEmpty_iff.mp h]
  next =>
    split
    next h => simpa using hnewly.mp h
    next h => simpa using fun h' => h (hnewly.mpr h')

theorem DataFile.mem_newVector {f : DataFile} {matching bitmap : List Nat}
    (h : f.newVector matching = some bitmap) (i : Nat) :
    i ∈ bitmap ↔ f.isDeleted i ∨ i ∈ matching := by
  unfold newVector at h
  split at h
  next => cases h
  next =>
    obtain ⟨-, h⟩ := ite_none_left_eq_some.mp h
    rw [← some.inj h, mem_append, mem_existingVector, newlyDeleted, mem_filter,
      Bool.not_eq_true', contains_eq_mem, decide_eq_false_iff_not, mem_existingVector]
    tauto

namespace DeltaTable

variable {E : Session} {reader : RawReader} {t : DeltaTable} {cond : Expr String}

/-- The marks of the selected files. -/
def markedFiles (E : Session) (reader : RawReader) (t : DeltaTable) (cond : Expr String) :
    List (DataFile × List Nat) :=
  (t.files.entries.filter (t.schema.selects E cond)).filterMap (t.mark E reader cond)

theorem mem_markedFiles {m : DataFile × List Nat} :
    m ∈ t.markedFiles E reader cond ↔ m.1 ∈ t.files.entries ∧ t.schema.selects E cond m.1 ∧
      ∃ matching, t.scanFileForMatchingRows E reader cond m.1 = some matching ∧
        m.1.newVector matching = some m.2 := by
  rw [markedFiles, mem_filterMap]
  constructor
  · rintro ⟨f, hf, hmark⟩
    obtain ⟨bitmap, hbitmap, rfl⟩ := map_eq_some_iff.mp hmark
    obtain ⟨hf, hsel⟩ := mem_filter.mp hf
    exact ⟨hf, hsel, bind_eq_some_iff.mp hbitmap⟩
  · rintro ⟨hf, hsel, hvector⟩
    refine ⟨m.1, mem_filter.mpr ⟨hf, hsel⟩, ?_⟩
    rw [mark, bind_eq_some_iff.mpr hvector]
    rfl

theorem map_fst_filterMap_mark_sublist (files : List DataFile) :
    ((files.filterMap (t.mark E reader cond)).map Prod.fst).Sublist files := by
  induction files with
  | nil => exact .slnil
  | cons f files ih =>
    rw [filterMap_cons, mark]
    cases (t.scanFileForMatchingRows E reader cond f).bind f.newVector with
    | none => exact ih.cons f
    | some bitmap => exact ih.cons_cons f

theorem nodup_markedFiles : ((t.markedFiles E reader cond).map fun m => m.1.key).Nodup := by
  have hsub : ((t.markedFiles E reader cond).map Prod.fst).Sublist t.files.entries :=
    (map_fst_filterMap_mark_sublist _).trans filter_sublist
  have := t.files.nodup.sublist (hsub.map DataFile.key)
  rwa [List.map_map] at this

theorem mem_vector_of_mem_markedFiles {m : DataFile × List Nat}
    (h : m ∈ t.markedFiles E reader cond) (i : Nat) :
    i ∈ m.2 ↔ m.1.isDeleted i ∨ t.rawCondAt E cond m.1 i := by
  obtain ⟨-, -, matching, hscan, hvector⟩ := mem_markedFiles.mp h
  rw [DataFile.mem_newVector hvector, mem_scan hscan]

/-- A selected file that can be read is marked if the raw read finds a row to delete. -/
theorem exists_mark_iff {f : DataFile} (hf : f ∈ t.files.entries)
    (hsel : t.schema.selects E cond f) (hread : reader.opens f ∧ t.schema.fillsMissing f) :
    (∃ bitmap, (f, bitmap) ∈ t.markedFiles E reader cond) ↔
      ∃ i, f.isDeleted i = false ∧ t.rawCondAt E cond f i := by
  obtain ⟨matching, hscan⟩ := isSome_iff_exists.mp ((scan_isSome_iff E cond).mpr hread)
  have hnone : f.newVector matching = none ↔ ∀ i, t.rawCondAt E cond f i → f.isDeleted i := by
    rw [DataFile.newVector_eq_none_iff]
    exact forall_congr' fun i => by rw [mem_scan hscan]
  constructor
  · rintro ⟨bitmap, hmem⟩
    obtain ⟨-, -, matching', hscan', hvector⟩ := mem_markedFiles.mp hmem
    obtain rfl : matching = matching' := some.inj (hscan.symm.trans hscan')
    by_contra hno
    rw [hnone.mpr fun i hi => ?_] at hvector
    · cases hvector
    · by_contra hdel
      exact hno ⟨i, by simpa using hdel, hi⟩
  · rintro ⟨i, hdel, hi⟩
    cases hvector : f.newVector matching with
    | none => simp [hnone.mp hvector i hi] at hdel
    | some bitmap => exact ⟨bitmap, mem_markedFiles.mpr ⟨hf, hsel, matching, hscan, hvector⟩⟩

theorem ReadsExactly.marksExactly (h : t.ReadsExactly E reader cond) :
    t.MarksExactly E cond { marked := t.markedFiles E reader cond } := by
  refine ⟨fun f hf => ?_, fun m hm => (mem_markedFiles.mp hm).1, nodup_markedFiles,
    fun m hm i => ?_⟩
  · by_cases hsel : t.schema.selects E cond f
    · rw [exists_mark_iff hf hsel (h.readable f hf hsel)]
      exact exists_congr fun i => and_congr_right fun hdel => by rw [h.raw f hf hsel i hdel]
    · refine ⟨fun ⟨bitmap, hmem⟩ => absurd (mem_markedFiles.mp hmem).2.1 hsel, ?_⟩
      rintro ⟨i, hdel, hi⟩
      rw [h.skipped f hf hsel i hdel] at hi
      cases hi
  · obtain ⟨hf, hsel, -⟩ := mem_markedFiles.mp hm
    rw [mem_vector_of_mem_markedFiles hm]
    cases hdel : m.1.isDeleted i with
    | true => simp
    | false => rw [h.raw m.1 hf hsel i hdel]

theorem ReadsExactly.of_marksExactly
    (hread : ∀ f ∈ t.files.entries, t.schema.selects E cond f →
      reader.opens f ∧ t.schema.fillsMissing f)
    (h : t.MarksExactly E cond { marked := t.markedFiles E reader cond }) :
    t.ReadsExactly E reader cond := by
  refine ⟨hread, fun f hf hsel i hdel => ?_, fun f hf hsel i hdel => ?_⟩
  · have hunion (bitmap : List Nat) (hmem : (f, bitmap) ∈ t.markedFiles E reader cond) :
        t.rawCondAt E cond f i ↔ t.condAt E cond f i := by
      have := (mem_vector_of_mem_markedFiles hmem i).symm.trans (h.union (f, bitmap) hmem i)
      simpa [hdel] using this
    rw [Bool.eq_iff_iff]
    constructor
    · intro hi
      obtain ⟨bitmap, hmem⟩ := (exists_mark_iff hf hsel (hread f hf hsel)).mpr ⟨i, hdel, hi⟩
      exact (hunion bitmap hmem).mp hi
    · intro hi
      obtain ⟨bitmap, hmem⟩ := (h.marked f hf).mpr ⟨i, hdel, hi⟩
      exact (hunion bitmap hmem).mpr hi
  · by_contra hi
    obtain ⟨bitmap, hmem⟩ := (h.marked f hf).mpr ⟨i, hdel, by simpa using hi⟩
    exact hsel (mem_markedFiles.mp hmem).2.1

/-- A merge-on-read DELETE marks exactly the matching rows if the metadata filter can be planned and
the raw reads agree with the table. -/
theorem marks_iff (E : Session) (reader : RawReader) (t : DeltaTable) (cond : Expr String)
    (hstats : predicateRequiresStats cond t.schema.partitionColumns = true) :
    (∃ plan, t.buildDeletePlanMor E reader cond = some (.inr plan) ∧
        t.MarksExactly E cond plan) ↔
      t.schema.plansMetadataFilter cond = true ∧ t.ReadsExactly E reader cond := by
  have hplan (plan : VectorPlan) : t.buildDeletePlanMor E reader cond = some (.inr plan) ↔
      t.schema.plansMetadataFilter cond = true ∧
        (∀ f ∈ t.files.entries, t.schema.selects E cond f →
          reader.opens f ∧ t.schema.fillsMissing f) ∧
        plan = { marked := t.markedFiles E reader cond } := by
    rw [buildDeletePlanMor, if_pos hstats, findFiles]
    split
    next h =>
      rw [bind_some, map_eq_some_iff]
      simp only [h, true_and, writeVectors_eq_some_iff, mem_filter, and_imp, Sum.inr.injEq]
      constructor
      · rintro ⟨marked, ⟨hread, hmarked⟩, hplan⟩
        exact ⟨hread, by rw [← hplan, hmarked]; rfl⟩
      · rintro ⟨hread, hplan⟩
        exact ⟨_, ⟨hread, rfl⟩, hplan.symm⟩
    next h => simp [h]
  constructor
  · rintro ⟨plan, hbuild, hmarks⟩
    obtain ⟨hfilter, hread, rfl⟩ := (hplan plan).mp hbuild
    exact ⟨hfilter, .of_marksExactly hread hmarks⟩
  · rintro ⟨hfilter, hreads⟩
    exact ⟨_, (hplan _).mpr ⟨hfilter, hreads.readable, rfl⟩, hreads.marksExactly⟩

/-- Paths that need no encoding, and files that come in one batch. -/
def plainReader : RawReader where
  pathFrom path := path
  batches l := [l]
  flatten_batches l := by simp

theorem oneTwo_selected : ∀ f ∈ oneTwo.files.entries, oneTwo.schema.selects .plain xIsOne f := by
  decide

theorem marks_oneTwo :
    predicateRequiresStats xIsOne oneTwo.schema.partitionColumns = true ∧
      ∃ plan, oneTwo.buildDeletePlanMor .plain plainReader xIsOne = some (.inr plan) ∧
        oneTwo.MarksExactly .plain xIsOne plan :=
  ⟨by decide, (marks_iff .plain plainReader oneTwo xIsOne (by decide)).mpr
    ⟨by decide, ⟨by decide, fun _ _ _ _ _ => rfl,
      fun f hf hskip => absurd (oneTwo_selected f hf) hskip⟩⟩⟩

/-- A column `x`, stored under the given name, and the partition `p = 1`, with one row. -/
def oneRow (physicalName : String) : DeltaTable where
  schema :=
    { fields := [{ name := "p", physicalName := "p" }, { name := "x", physicalName }]
      partitionColumns := ["p"]
      statsFields :=
        [.numRecords, .nullCount physicalName, .minValues physicalName, .maxValues physicalName] }
  files := KeyedMap.empty.insert
    { add := { path := "p=1/part-0", size := 1 }
      partitionValues := [("p", some "1")]
      columns := [physicalName]
      rows := [[(physicalName, some (.int 1))]] }

/-- `NOT x <> 1`, which has no form over the statistics. -/
def notXIsNotOne : Expr String :=
  .not (.binary (.column "x") (.compare .notEq) (.literal (some (.int 1))))

/-- A test of the partition column finds no row, and neither does one of a mapped column. -/
theorem raw_read_misses_rows :
    (∃ plan, (oneRow "x").buildDeletePlanMor .plain plainReader (.binary xIsOne .and pIsOne) =
        some (.inr plan) ∧ plan.marked = [] ∧
        ∀ f ∈ (oneRow "x").files.entries,
          (oneRow "x").condAt .plain (.binary xIsOne .and pIsOne) f 0 = true ∧
            f.isDeleted 0 = false) ∧
      ∃ plan, (oneRow "col-1").buildDeletePlanMor .plain plainReader notXIsNotOne =
        some (.inr plan) ∧ plan.marked = [] ∧
        ∀ f ∈ (oneRow "col-1").files.entries,
          (oneRow "col-1").condAt .plain notXIsNotOne f 0 = true ∧ f.isDeleted 0 = false :=
  ⟨⟨_, rfl, by decide, by decide⟩, ⟨_, rfl, by decide, by decide⟩⟩

end DeltaTable

end Zelox.Delta
