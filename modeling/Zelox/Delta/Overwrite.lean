import Zelox.Delta.Create
import Zelox.Delta.Writer

/-!
# Overwriting writes

Writes to an existing table that do not look at its rows (`build_standard_plan`): an
append adds the files of the writer tasks, an overwrite also removes every active file.
A dynamic partition overwrite is planned as a full one, so it leaves the partitions that
do not occur in the input alone only if there are none (`overwritePartitions_iff`).
-/

namespace Zelox.Delta

open Sql DeltaWriter List

/-- How a statement asks for the data to be written. -/
inductive WriteMode where
  | errorIfExists
  | ignoreIfExists
  | append (errorIfAbsent : Bool)
  | replace (errorIfAbsent : Bool)
  | truncate
  | truncateIf (condition : Expr String) (source : Option String)
  | truncatePartitions

/-- `resolve_write_mode`, with the sink mode as the physical plan has it. -/
def resolveWriteMode : WriteMode → PhysicalSinkMode
  | .errorIfExists => .errorIfExists
  | .ignoreIfExists => .ignoreIfExists
  | .append _ => .append
  | .replace _ => .overwrite
  | .truncate => .overwrite
  | .truncateIf _ source => .overwriteIf source
  | .truncatePartitions => .overwritePartitions

/-- The rows that the writer tasks are given, with the points at which a file is full. -/
abbrev WriterTasks := List (List (Values × Bool))

def WriterTasks.rows (tasks : WriterTasks) : List Values := tasks.flatten.map Prod.fst

/-- Files to remove and to add in one commit. -/
structure WritePlan where
  removed : List DataFile
  added : List DataFile

/-- What the writer needs besides the rows: the encoding of paths, and the name and
statistics of each file. -/
structure WriterContext where
  encoding : PartitionEncoding
  add : PartitionWriter → Add
  stats : PartitionWriter → List (StatsField × Scalar)

namespace DeltaTable

variable (ctx : WriterContext) (t : DeltaTable)

def writtenFiles (tasks : WriterTasks) : List DataFile :=
  (tasks.flatMap (DeltaWriter.run ctx.encoding t.schema)).map fun w =>
    t.schema.toFile ctx.encoding (ctx.add w) (ctx.stats w) w

def buildFullOverwritePlan (tasks : WriterTasks) : WritePlan where
  removed := t.files.entries
  added := t.writtenFiles ctx tasks

def buildStandardPlan (tasks : WriterTasks) : PhysicalSinkMode → WritePlan
  | .overwrite | .overwritePartitions => t.buildFullOverwritePlan ctx tasks
  | _ => { removed := [], added := t.writtenFiles ctx tasks }

/-- The active files once a plan has committed. -/
def filesAfter (plan : WritePlan) : List DataFile :=
  (t.files.entries.filter fun f => !(plan.removed.map DataFile.key).contains f.key) ++ plan.added

def filesIn (files : List DataFile) (partition : List (Option String)) : List DataFile :=
  files.filter fun f => t.schema.partitionOfFile f = partition

/-- The partitions that occur in the rows to write. -/
def inputPartitions (tasks : WriterTasks) : List (List (Option String)) :=
  tasks.rows.map (t.schema.partitionOf ctx.encoding)

theorem filesAfter_fullOverwrite (tasks : WriterTasks) :
    t.filesAfter (t.buildFullOverwritePlan ctx tasks) = t.writtenFiles ctx tasks := by
  have hnone : (t.files.entries.filter
      fun f => !(t.files.entries.map DataFile.key).contains f.key) = [] := by
    refine filter_eq_nil_iff.mpr fun f hf => ?_
    simpa using ⟨f, hf, rfl⟩
  rw [filesAfter, buildFullOverwritePlan, hnone, nil_append]

theorem rowsOf_flatMap_run (tasks : WriterTasks) :
    rowsOf (tasks.flatMap (run ctx.encoding t.schema)) = tasks.rows := by
  rw [rowsOf, flatMap_assoc, WriterTasks.rows, map_flatten, ← flatMap_def]
  exact flatMap_congr fun task _ => rows_run task

variable {ctx t}

theorem closed_flatMap_run {tasks : WriterTasks} :
    ∀ w ∈ tasks.flatMap (run ctx.encoding t.schema),
      DeltaWriter.Closed ctx.encoding t.schema w := by
  intro w hw
  obtain ⟨task, -, hw⟩ := mem_flatMap.mp hw
  exact closed_run w hw

theorem rowsOf_filter {writers : List PartitionWriter}
    (h : ∀ w ∈ writers, DeltaWriter.Closed ctx.encoding t.schema w)
    (partition : List (Option String)) :
    rowsOf (writers.filter fun w => t.schema.partitionOf ctx.encoding w.first = partition) =
      (rowsOf writers).filter fun row => t.schema.partitionOf ctx.encoding row = partition := by
  induction writers with
  | nil => rfl
  | cons w writers ih =>
    obtain ⟨hw, hwriters⟩ := forall_mem_cons.mp h
    have hrows : (w.rows.filter fun row => t.schema.partitionOf ctx.encoding row = partition) =
        if t.schema.partitionOf ctx.encoding w.first = partition then w.rows else [] := by
      split
      next hp =>
        refine filter_eq_self.mpr fun row hrow => ?_
        simp [hw.partitionOf_eq hrow, hp]
      next hp =>
        refine filter_eq_nil_iff.mpr fun row hrow => ?_
        simp [hw.partitionOf_eq hrow, hp]
    rw [filter_cons, rowsOf_cons, filter_append, hrows, ← ih hwriters]
    by_cases hp : t.schema.partitionOf ctx.encoding w.first = partition <;> simp [hp, rowsOf_cons]

theorem filesIn_writtenFiles (hs : (t.schema.fields.map Field.physicalName).Nodup)
    (tasks : WriterTasks) (partition : List (Option String)) :
    (t.filesIn (t.writtenFiles ctx tasks) partition).flatMap (·.rows) =
      (tasks.rows.filter fun row => t.schema.partitionOf ctx.encoding row = partition).map
        t.schema.storedRow := by
  rw [← rowsOf_flatMap_run ctx t, ← rowsOf_filter closed_flatMap_run, filesIn,
    writtenFiles, filter_map, flatMap_map, rowsOf, map_flatMap]
  have hpart (w : PartitionWriter) :
      t.schema.partitionOfFile (t.schema.toFile ctx.encoding (ctx.add w) (ctx.stats w) w) =
        t.schema.partitionOf ctx.encoding w.first :=
    TableSchema.partitionOfFile_toFile ctx.encoding hs _ _ w
  simp only [Function.comp_def, hpart]
  rfl

theorem partitionOfFile_mem_inputPartitions
    (hs : (t.schema.fields.map Field.physicalName).Nodup) {tasks : WriterTasks} {f : DataFile}
    (hf : f ∈ t.writtenFiles ctx tasks) :
    t.schema.partitionOfFile f ∈ t.inputPartitions ctx tasks := by
  obtain ⟨w, hw, rfl⟩ := mem_map.mp hf
  have hclosed := closed_flatMap_run w hw
  obtain ⟨row, hrow⟩ := exists_mem_of_ne_nil _ hclosed.rows_ne_nil
  rw [TableSchema.partitionOfFile_toFile ctx.encoding hs, ← hclosed.partitionOf_eq hrow]
  refine mem_map_of_mem ?_
  rw [← rowsOf_flatMap_run ctx t]
  exact mem_flatMap.mpr ⟨w, hw, hrow⟩

/-- A dynamic partition overwrite replaces the rows of the input's partitions and nothing else, if
there are no other partitions. -/
theorem overwritePartitions_iff (ctx : WriterContext) (t : DeltaTable)
    (hs : (t.schema.fields.map Field.physicalName).Nodup) (tasks : WriterTasks) :
    let after := t.filesAfter
      (t.buildStandardPlan ctx tasks (resolveWriteMode .truncatePartitions))
    ((∀ partition ∉ t.inputPartitions ctx tasks,
        t.filesIn after partition = t.filesIn t.files.entries partition) ∧
      ∀ partition ∈ t.inputPartitions ctx tasks,
        ((t.filesIn after partition).flatMap fun f => f.rows).Perm
          ((tasks.rows.filter fun row => t.schema.partitionOf ctx.encoding row = partition).map
            t.schema.storedRow)) ↔
      ∀ f ∈ t.files.entries, t.schema.partitionOfFile f ∈ t.inputPartitions ctx tasks := by
  intro after
  have hafter : after = t.writtenFiles ctx tasks := filesAfter_fullOverwrite ctx t tasks
  have hother : ∀ partition ∉ t.inputPartitions ctx tasks, t.filesIn after partition = [] := by
    intro partition hpartition
    refine filter_eq_nil_iff.mpr fun f hf hp => hpartition ?_
    rw [← of_decide_eq_true hp]
    exact partitionOfFile_mem_inputPartitions hs (hafter ▸ hf)
  constructor
  · intro h f hf
    by_contra hpartition
    have hin : f ∈ t.filesIn t.files.entries (t.schema.partitionOfFile f) :=
      mem_filter.mpr ⟨hf, by simp⟩
    rw [← h.1 _ hpartition, hother _ hpartition] at hin
    cases hin
  · intro h
    refine ⟨fun partition hpartition => ?_, fun partition _ => ?_⟩
    · rw [hother partition hpartition, eq_comm]
      refine filter_eq_nil_iff.mpr fun f hf hp => hpartition ?_
      rw [← of_decide_eq_true hp]
      exact h f hf
    · rw [hafter, filesIn_writtenFiles hs]

def rowOf (p x : Int) : Values := [("p", some (.int p)), ("x", some (.int x))]

/-- A table with the columns `p` and `x`, partitioned by `p`, with a file for each of the
partitions. -/
def partitioned (partitions : List Int) : DeltaTable where
  schema :=
    { fields :=
        [{ name := "p", physicalName := "p", dataType := .int64 },
          { name := "x", physicalName := "x", dataType := .int64 }]
      partitionColumns := ["p"]
      parse _ text := text.toInt?.map .int }
  files := KeyedMap.empty.insertAll (partitions.map fun p =>
    { add := { path := "p=" ++ toString p ++ "/part-0", size := 1 }
      partitionValues := [("p", some (toString p))]
      rows := [[("x", some (.int 0))]] })

/-- An encoding that changes nothing, and one name for all files. -/
def plainContext : WriterContext where
  encoding :=
    { format _ i := toString i, encode s := s, injective := fun _ _ h => h, encode_null := rfl }
  add _ := { path := "part-1", size := 1 }
  stats _ := []

/-- Overwriting `p = 1` where there is no other partition. -/
theorem overwritePartitions_single :
    ((partitioned [1]).schema.fields.map Field.physicalName).Nodup ∧
      (∀ f ∈ (partitioned [1]).files.entries, (partitioned [1]).schema.partitionOfFile f ∈
        (partitioned [1]).inputPartitions plainContext [[(rowOf 1 5, false)]]) ∧
      ∀ partition ∉ (partitioned [1]).inputPartitions plainContext [[(rowOf 1 5, false)]],
        (partitioned [1]).filesIn ((partitioned [1]).filesAfter
            ((partitioned [1]).buildStandardPlan plainContext [[(rowOf 1 5, false)]]
              (resolveWriteMode .truncatePartitions))) partition =
          (partitioned [1]).filesIn (partitioned [1]).files.entries partition :=
  ⟨by decide, by decide, ((overwritePartitions_iff plainContext (partitioned [1]) (by decide)
    [[(rowOf 1 5, false)]]).mpr (by decide)).1⟩

/-- Overwriting `p = 1` empties `p = 2`. -/
theorem overwritePartitions_drops_other :
    [some "2"] ∉ (partitioned [1, 2]).inputPartitions plainContext [[(rowOf 1 5, false)]] ∧
      ((partitioned [1, 2]).filesIn (partitioned [1, 2]).files.entries [some "2"]).map
        (fun f => f.add.path) = ["p=2/part-0"] ∧
      ((partitioned [1, 2]).filesIn ((partitioned [1, 2]).filesAfter
          ((partitioned [1, 2]).buildStandardPlan plainContext [[(rowOf 1 5, false)]]
            (resolveWriteMode .truncatePartitions))) [some "2"]).map
        (fun f => f.add.path) = [] := by
  decide

/-! ## Reading back -/

/-- A scan returns the row as `read`: of a partition value it has what is parsed from its text. -/
def ReadsAs (enc : PartitionEncoding) (s : TableSchema) (row read : Values) : Prop :=
  ∀ field ∈ s.fields, read.get field.name =
    if s.isPartition field.name then
      (TableSchema.textOf enc row field).bind (parsePartitionValue s.parse field.dataType)
    else row.get field.name

open TableSchema in
/-- The files of a task hold its rows in order, and a scan returns each of them. -/
theorem run_readsAs (enc : PartitionEncoding) (s : TableSchema)
    (hnames : (s.fields.map Field.name).Nodup) (hs : (s.fields.map Field.physicalName).Nodup)
    (input : List (Values × Bool)) :
    rowsOf (run enc s input) = input.map Prod.fst ∧
    ∀ w ∈ run enc s input, ∀ add stats, ∀ row ∈ w.rows,
      ReadsAs enc s row (s.logicalRow (s.toFile enc add stats w) (s.storedRow row)) := by
  refine ⟨rows_run input, fun w hw add stats row hrow field hfield => ?_⟩
  have hname : s.field? field.name = some field :=
    (KeyedMap.mem_entries_iff (m := ⟨s.fields, hnames⟩)).mp hfield
  rw [s.get_logicalRow, hname, Option.bind_some, value]
  split
  · next hp =>
    have hmem : field ∈ s.partitionFields :=
      mem_filterMap.mpr ⟨field.name, by simpa [isPartition] using hp, hname⟩
    -- the file has the text of the row it was opened for, which is read alike
    have htext : readText (textOf enc w.first field) = readText (textOf enc row field) :=
      (map_inj_left.mp ((closed_run w hw).partitionOf_eq hrow) field hmem).symm
    rw [partitionValue, partitionText_toFile enc hs add stats w hmem, bind_parsePartitionValue,
      bind_parsePartitionValue, htext]
  · next hp =>
    have hget := lookup_map_physicalName (fun field => row.get field.name)
      (fun a ha b hb => inj_on_of_nodup_map hs (mem_filter.mp ha).1 (mem_filter.mp hb).1)
      (mem_filter.mpr ⟨hfield, by simpa using hp⟩ :
        field ∈ s.fields.filter fun field => !s.isPartition field.name)
    rw [storedRow, Values.get, hget]
    rfl

theorem run_readsAs_twoPartitions :
    rowsOf (run plainContext.encoding (partitioned []).schema
      [(rowOf 1 5, true), (rowOf 1 6, false), (rowOf 2 7, false)]) =
      [rowOf 1 5, rowOf 1 6, rowOf 2 7] :=
  (run_readsAs plainContext.encoding (partitioned []).schema (by decide) (by decide) _).1

end DeltaTable

end Zelox.Delta
