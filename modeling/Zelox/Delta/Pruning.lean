import Zelox.Delta.Stats
import Zelox.Delta.Table
import Zelox.Sql.Pruning

/-!
# Pruning files by the statistics of their `Add`s

`prune_adds_by_physical_predicate` (`datasource/pruning.rs`) asks the engine's pruning
predicate which files can hold a row that satisfies a condition.  The arrays of minima,
maxima and null counts are built from the partition values and the statistics of the
`Add`s, looked up by the column's name in the condition.  Both are stored under physical
names, and the condition has logical ones.

`entry_computeBounds` and `entry_computeNullCounts` say what the arrays hold for a file,
in whichever of the three ways they are built.  A file with a matching row is kept, for
every condition and sound pruning predicate, if and only if what is found under the
logical names admits the rows of the files (`prune_keeps_iff`).
-/

namespace Zelox.Delta

open Sql List

/-- An `Add` with the rows of its file that are not deleted, by physical names. -/
structure StatsAdd where
  partitionValues : List (String × Option String) := []
  stats : Option Stats := none
  rows : List Values

/-- `AddStatsPruningStatistics`. -/
structure AddStatsPruningStatistics where
  tableSchema : List Field
  adds : List StatsAdd
  referencedColumns : List String

/-- An array that says nothing about any container is left out. -/
def someIfAny {α : Type} (values : List (Option α)) : Option (List (Option α)) :=
  if values.any (·.isSome) then some values else none

theorem entry_someIfAny {α : Type} (values : List (Option α)) (i : Nat) :
    entry (someIfAny values) i = values[i]?.join := by
  rw [someIfAny]
  split
  · rfl
  · rename_i hnone
    cases hv : values[i]? with
    | none => rfl
    | some v =>
      cases v with
      | none => rfl
      | some x => exact absurd (any_eq_true.mpr ⟨some x, mem_of_getElem? hv, rfl⟩) hnone

section

variable {α β : Type} (l : List α) (f : α → Option β) (i : Nat)

theorem entry_map :
    entry (some (l.map f)) i = l[i]?.bind f := by
  rw [entry, Option.bind_some, getElem?_map]
  cases l[i]? <;> rfl

theorem entry_someIfAny_map :
    entry (someIfAny (l.map f)) i = l[i]?.bind f := by
  rw [entry_someIfAny, getElem?_map]
  cases l[i]? <;> rfl

end

def fieldFor (tableSchema : List Field) (column : String) : Option Field :=
  tableSchema.find? fun field => field.name = column

theorem name_of_fieldFor {tableSchema : List Field} {column : String} {field : Field}
    (h : fieldFor tableSchema column = some field) : field.name = column := by
  simpa using find?_some h

/-- Every `Add` has a partition value under this name. -/
def allPartitioned (adds : List StatsAdd) (name : String) : Bool :=
  adds.all fun add => (add.partitionValues.lookup name).isSome

namespace AddStatsPruningStatistics

variable (parse : TextParser) (s : AddStatsPruningStatistics)

def shouldBuildStatsFor (column : String) : Bool :=
  (fieldFor s.tableSchema column).any fun field => s.referencedColumns.contains field.name

def anyPartitioned (name : String) : Bool :=
  s.adds.any fun add => (add.partitionValues.lookup name).isSome

def buildPartitionArray (column : String) : Option (List Scalar) := do
  guard (s.shouldBuildStatsFor column)
  let field ← fieldFor s.tableSchema column
  guard (allPartitioned s.adds column)
  some (stringValuesToArray parse field.dataType
    (s.adds.map fun add => (add.partitionValues.lookup column).join))

def buildJsonStatArray (column : String) (lookup : Stats → String → Option StatValue) :
    Option (List Scalar) := do
  guard (s.shouldBuildStatsFor column)
  let field ← fieldFor s.tableSchema column
  guard (!s.anyPartitioned column)
  let values := s.adds.map fun add => add.stats.bind (lookup · column)
  guard (values.any fun value => value.any (· ≠ .null))
  statValuesToArray field.dataType values

/-- Values of the wrong type do not come up, so the scalars always make an array. -/
def buildArray (column : String) (f : StatsAdd → DataType → Scalar) : Option (List Scalar) := do
  let field ← fieldFor s.tableSchema column
  guard (s.referencedColumns.contains field.name)
  someIfAny (s.adds.map fun add => f add field.dataType)

def buildCountArray (column : String) (valueAt : StatsAdd → Option Nat) :
    Option (List (Option Nat)) := do
  guard (s.shouldBuildStatsFor column)
  someIfAny (s.adds.map valueAt)

/-- A partition value, and else a statistic. -/
def scalarAt (column : String) (lookup : Stats → String → Option StatValue) (add : StatsAdd)
    (dt : DataType) : Scalar :=
  match add.partitionValues.lookup column with
  | some value => value.bind (parsePartitionValue parse dt)
  | none => (add.stats.bind (lookup · column)).bind (statValueToScalar parse dt)

/-- The common body of `compute_min_values` and `compute_max_values`. -/
def computeBounds (lookup : Stats → String → Option StatValue) (column : String) :
    Option (List Scalar) :=
  (s.buildPartitionArray parse column).or
    ((s.buildJsonStatArray column lookup).or
      (s.buildArray column (scalarAt parse column lookup)))

def computeMinValues : String → Option (List Scalar) := s.computeBounds parse Stats.minValue

def computeMaxValues : String → Option (List Scalar) := s.computeBounds parse Stats.maxValue

def nullCountAt (column : String) (add : StatsAdd) : Option Nat :=
  match add.partitionValues.lookup column with
  | some none => add.stats.map (·.numRecords.toNat)
  | some (some _) => some 0
  | none => (add.stats.bind (·.nullCountValue column)).map Int.toNat

def computeNullCounts (column : String) : Option (List (Option Nat)) :=
  s.buildCountArray column (nullCountAt column)

def rowCountAt (add : StatsAdd) : Option Nat := add.stats.map (·.numRecords.toNat)

/-- `materialize_referenced_columns`: arrays for the columns of the condition only. -/
def materialized {α : Type} (compute : String → Option α) (column : String) : Option α :=
  if s.referencedColumns.contains column && (fieldFor s.tableSchema column).isSome
  then compute column
  else none

def toPruningStatistics : PruningStatistics where
  numContainers := s.adds.length
  minValues := s.materialized (s.computeMinValues parse)
  maxValues := s.materialized (s.computeMaxValues parse)
  nullCounts := s.materialized s.computeNullCounts
  rowCounts := someIfAny (s.adds.map rowCountAt)

/-! ### What the arrays hold -/

/-- What an `Add` holds under a name as a bound: its partition value, and else the statistic. -/
def boundUnder (adds : List StatsAdd) (lookup : Stats → String → Option StatValue)
    (name : String) (dt : DataType) (add : StatsAdd) : Scalar :=
  if allPartitioned adds name then
    (add.partitionValues.lookup name).join.bind (stringToScalar parse dt)
  else scalarAt parse name lookup add dt

def boundsUnder (adds : List StatsAdd) (name : String) (dt : DataType) (add : StatsAdd) :
    ColumnBounds where
  min := boundUnder parse adds Stats.minValue name dt add
  max := boundUnder parse adds Stats.maxValue name dt add
  nullCount := nullCountAt name add
  rowCount := rowCountAt add

variable {s} {column : String} {field : Field}

theorem buildJsonStatArray_eq {lookup : Stats → String → Option StatValue} {array : List Scalar}
    (hfield : fieldFor s.tableSchema column = some field)
    (h : s.buildJsonStatArray column lookup = some array) :
    array = s.adds.map fun add => scalarAt parse column lookup add field.dataType := by
  simp only [buildJsonStatArray, hfield, guard, Option.bind_eq_bind, Option.bind_eq_some_iff] at h
  obtain ⟨_, _, found, hfound, _, hguard, _, _, harray⟩ := h
  obtain rfl : field = found := Option.some.inj hfound
  have hany : s.anyPartitioned column = false := by
    cases hany : s.anyPartitioned column with
    | false => rfl
    | true => simp [hany] at hguard
  rw [statValuesToArray_eq parse harray, map_map]
  refine map_congr_left fun add hadd => ?_
  have hlookup : add.partitionValues.lookup column = none :=
    Option.not_isSome_iff_eq_none.mp (any_eq_false.mp hany add hadd)
  rw [scalarAt, hlookup]
  rfl

section

variable (hfield : fieldFor s.tableSchema column = some field) (href : column ∈ s.referencedColumns)

include hfield href

theorem shouldBuildStatsFor_eq_true : s.shouldBuildStatsFor column = true := by
  simp [shouldBuildStatsFor, hfield, name_of_fieldFor hfield, href]

theorem buildPartitionArray_eq :
    s.buildPartitionArray parse column =
      if allPartitioned s.adds column then
        some (s.adds.map fun add =>
          (add.partitionValues.lookup column).join.bind (stringToScalar parse field.dataType))
      else none := by
  cases hall : allPartitioned s.adds column <;>
    simp [buildPartitionArray, shouldBuildStatsFor_eq_true hfield href, hfield, hall,
      stringValuesToArray, guard]

theorem buildArray_eq (f : StatsAdd → DataType → Scalar) :
    s.buildArray column f = someIfAny (s.adds.map fun add => f add field.dataType) := by
  simp [buildArray, hfield, name_of_fieldFor hfield, href, guard]

theorem entry_computeBounds (lookup : Stats → String → Option StatValue) (i : Nat) :
    entry (s.computeBounds parse lookup column) i =
      s.adds[i]?.bind (boundUnder parse s.adds lookup column field.dataType) := by
  rw [computeBounds, buildPartitionArray_eq parse hfield href]
  by_cases hall : allPartitioned s.adds column
  · have hunder : boundUnder parse s.adds lookup column field.dataType = fun add =>
        (add.partitionValues.lookup column).join.bind (stringToScalar parse field.dataType) := by
      funext add
      rw [boundUnder, if_pos hall]
    rw [if_pos hall, Option.some_or, hunder, entry_map]
  · have hunder : boundUnder parse s.adds lookup column field.dataType =
        fun add => scalarAt parse column lookup add field.dataType := by
      funext add
      rw [boundUnder, if_neg hall]
    rw [if_neg hall, Option.none_or, hunder]
    cases hjson : s.buildJsonStatArray column lookup with
    | some array => rw [Option.some_or, buildJsonStatArray_eq parse hfield hjson, entry_map]
    | none => rw [Option.none_or, buildArray_eq hfield href, entry_someIfAny_map]

theorem entry_computeNullCounts (i : Nat) :
    entry (s.computeNullCounts column) i = s.adds[i]?.bind (nullCountAt column) := by
  rw [computeNullCounts, buildCountArray, shouldBuildStatsFor_eq_true hfield href]
  exact entry_someIfAny_map s.adds (nullCountAt column) i

end

end AddStatsPruningStatistics

namespace AddStatsPruningStatistics

variable (parse : TextParser) {s : AddStatsPruningStatistics}

theorem column_toPruningStatistics (i : Nat) (column : String) :
    (s.toPruningStatistics parse).column i column =
      { min := entry (s.materialized (s.computeMinValues parse) column) i
        max := entry (s.materialized (s.computeMaxValues parse) column) i
        nullCount := entry (s.materialized s.computeNullCounts column) i
        rowCount := entry (someIfAny (s.adds.map rowCountAt)) i } := rfl

/-- A column of the condition has what the `Add` of the file holds under its name. -/
theorem column_eq_boundsUnder {column : String} {field : Field}
    (hfield : fieldFor s.tableSchema column = some field)
    (href : column ∈ s.referencedColumns) {i : Nat} {add : StatsAdd}
    (hadd : s.adds[i]? = some add) :
    (s.toPruningStatistics parse).column i column =
      boundsUnder parse s.adds column field.dataType add := by
  have hmat {α : Type} (compute : String → Option α) :
      s.materialized compute column = compute column := by
    simp [materialized, href, hfield]
  rw [column_toPruningStatistics, hmat, hmat, hmat, computeMinValues, computeMaxValues,
    entry_computeBounds parse hfield href, entry_computeBounds parse hfield href,
    entry_computeNullCounts hfield href, entry_someIfAny_map, hadd]
  rfl

theorem column_eq_rowCount {column : String}
    (h : ¬(column ∈ s.referencedColumns ∧ (fieldFor s.tableSchema column).isSome)) {i : Nat}
    {add : StatsAdd} (hadd : s.adds[i]? = some add) :
    (s.toPruningStatistics parse).column i column = { rowCount := rowCountAt add } := by
  have hmat {α : Type} (compute : String → Option α) : s.materialized compute column = none := by
    simp only [materialized, Bool.and_eq_true, contains_iff_mem, h, if_false]
  rw [column_toPruningStatistics, hmat, hmat, hmat, entry_someIfAny_map, hadd]
  rfl

end AddStatsPruningStatistics

def pruneAddsByPhysicalPredicate {E : Engine} (parse : TextParser) (P : PruningPredicate E)
    (adds : List StatsAdd) (tableSchema : List Field) (predicate : Expr String) :
    List Bool :=
  if adds.isEmpty then []
  else P.prune predicate
    (AddStatsPruningStatistics.toPruningStatistics parse
      ⟨tableSchema, adds, predicate.columnRefs⟩)

/-- A table as it is pruned: its current columns and its active files. -/
structure StatsTable where
  fields : List Field
  partitionColumns : List String := []
  adds : List StatsAdd

namespace StatsTable

open AddStatsPruningStatistics

variable {E : Engine} (parse : TextParser) (t : StatsTable)

/-- The value of a column in a row (`partitioned_file_from_action` for partition columns). -/
def value (add : StatsAdd) (row : Values) (field : Field) : Scalar :=
  if t.partitionColumns.contains field.name then
    ((add.partitionValues.lookup field.physicalName).or
      (add.partitionValues.lookup field.name)).join.bind (parsePartitionValue parse field.dataType)
  else row.get field.physicalName

/-- A row under the logical names. -/
def logicalRow (add : StatsAdd) (row : Values) (column : String) : Scalar :=
  (fieldFor t.fields column).bind (t.value parse add row)

/-- Every file that holds a row on which the condition is TRUE is kept. -/
def KeepsMatching (P : PruningPredicate E) (predicate : Expr String) : Prop :=
  ∀ (i : Nat) (add : StatsAdd), t.adds[i]? = some add → ∀ row ∈ add.rows,
    predicate.truth E (t.logicalRow parse add row) = some true →
      (pruneAddsByPhysicalPredicate parse P t.adds t.fields predicate)[i]? = some true

/-- What the `Add`s hold under the logical names admits the rows of their files. -/
structure AdmitsRows : Prop where
  numRecords : ∀ add ∈ t.adds, add.rows ≠ [] → ∀ stats ∈ add.stats, 0 < stats.numRecords
  columns : ∀ add ∈ t.adds, ∀ row ∈ add.rows, ∀ column field,
    fieldFor t.fields column = some field →
      (boundsUnder parse t.adds column field.dataType add).Admits (t.value parse add row field)

theorem prune_getElem? (P : PruningPredicate E) (predicate : Expr String) {i : Nat}
    {add : StatsAdd} (hadd : t.adds[i]? = some add) :
    (pruneAddsByPhysicalPredicate parse P t.adds t.fields predicate)[i]? =
      (P.prune predicate (toPruningStatistics parse
        ⟨t.fields, t.adds, predicate.columnRefs⟩))[i]? := by
  have hne : t.adds.isEmpty = false := by
    cases hadds : t.adds with
    | nil => simp [hadds] at hadd
    | cons => rfl
  rw [pruneAddsByPhysicalPredicate, hne]
  rfl

variable {t}

theorem admits_rowCount {add : StatsAdd} (h : ∀ stats ∈ add.stats, 0 < stats.numRecords)
    (v : Scalar) : ({ rowCount := rowCountAt add } : ColumnBounds).Admits v := by
  have hrows : ∀ n ∈ rowCountAt add, 1 ≤ n := by
    intro n hn
    obtain ⟨stats, hstats, rfl⟩ := Option.map_eq_some_iff.mp hn
    have hpos := h stats hstats
    omega
  cases v with
  | none => exact ColumnBounds.admits_none_iff.mpr ⟨by simp, hrows⟩
  | some x => exact ColumnBounds.admits_some_iff.mpr ⟨by simp, by simp, by simp, hrows⟩

/-- A row that is admitted under the logical names is seen by every sound predicate. -/
theorem keeps_of_admits {i : Nat} {add : StatsAdd} (hadd : t.adds[i]? = some add) {row : Values}
    {predicate : Expr String} (hpos : ∀ stats ∈ add.stats, 0 < stats.numRecords)
    (hcolumns : ∀ column ∈ predicate.columnRefs, ∀ field, fieldFor t.fields column = some field →
      (boundsUnder parse t.adds column field.dataType add).Admits (t.value parse add row field))
    (htrue : predicate.truth E (t.logicalRow parse add row) = some true) (P : PruningPredicate E) :
    (pruneAddsByPhysicalPredicate parse P t.adds t.fields predicate)[i]? = some true := by
  rw [t.prune_getElem? parse P predicate hadd]
  refine P.keeps_of_admits (List.getElem?_eq_some_iff.mp hadd).1 (fun column => ?_) htrue
  by_cases href : column ∈ predicate.columnRefs ∧ (fieldFor t.fields column).isSome
  · obtain ⟨field, hfield⟩ := Option.isSome_iff_exists.mp href.2
    rw [column_eq_boundsUnder parse hfield href.1 hadd, logicalRow, hfield]
    exact hcolumns column href.1 field hfield
  · rw [column_eq_rowCount parse href hadd]
    exact admits_rowCount hpos _

theorem AdmitsRows.keepsMatching (h : t.AdmitsRows parse) (P : PruningPredicate E)
    (predicate : Expr String) : t.KeepsMatching parse P predicate := by
  intro i add hadd row hrow htrue
  have hmem : add ∈ t.adds := mem_of_getElem? hadd
  exact keeps_of_admits parse hadd (h.numRecords add hmem (ne_nil_of_mem hrow))
    (fun column _ => h.columns add hmem row hrow column) htrue P

theorem admitsRows_of_keepsMatching
    (h : ∀ predicate, t.KeepsMatching parse (PruningPredicate.tightest E) predicate) :
    t.AdmitsRows parse where
  numRecords := by
    intro add hmem hrows stats hstats
    by_contra hle
    obtain ⟨i, hadd⟩ := mem_iff_getElem?.mp hmem
    obtain ⟨row, hrow⟩ := exists_mem_of_ne_nil _ hrows
    have hkeep := h .literalTrue i add hadd row hrow rfl
    rw [t.prune_getElem? parse _ _ hadd] at hkeep
    refine PruningPredicate.tightest_drops (fun r hr _ => ?_) hkeep
    have hadm := hr ""
    rw [column_eq_rowCount parse (by simp [Expr.columnRefs, Expr.literalTrue]) hadd] at hadm
    have hone := hadm.rows stats.numRecords.toNat (Option.map_eq_some_iff.mpr ⟨stats, hstats, rfl⟩)
    rw [length_singleton] at hone
    omega
  columns := by
    intro add hmem row hrow column field hfield
    by_contra hnot
    obtain ⟨i, hadd⟩ := mem_iff_getElem?.mp hmem
    obtain ⟨pred, hrefs, htrue, hdrop⟩ := ColumnBounds.exists_separating E hnot column
    have hkeep := h pred i add hadd row hrow (htrue _ (by rw [logicalRow, hfield]; rfl))
    rw [t.prune_getElem? parse _ _ hadd] at hkeep
    refine PruningPredicate.tightest_drops (fun r hr => hdrop r ?_) hkeep
    have hadm := hr column
    rwa [column_eq_boundsUnder parse hfield (by simp [hrefs]) hadd] at hadm

/-- The files with a matching row are kept if and only if the bounds of the `Add`s admit their rows.
-/
theorem prune_keeps_iff (E : Engine) (parse : TextParser) (t : StatsTable) :
    (∀ (P : PruningPredicate E) predicate, t.KeepsMatching parse P predicate) ↔
      t.AdmitsRows parse :=
  ⟨fun h => admitsRows_of_keepsMatching parse (h (PruningPredicate.tightest E)),
    fun h P predicate => h.keepsMatching parse P predicate⟩

end StatsTable

/-- `alter_table_rename_column`: the column keeps its physical name. -/
def renameColumn (old new : String) (fields : List Field) : List Field :=
  fields.map fun field => if field.name = old then { field with name := new } else field

namespace StatsTable

open AddStatsPruningStatistics

/-- One file, written as `a = 5, b = 1` before `a` was renamed to `c` and then `b` to `a`. -/
def renamed : StatsTable where
  fields := renameColumn "b" "a" (renameColumn "a" "c"
    [{ name := "a", physicalName := "a", dataType := .int64 },
      { name := "b", physicalName := "b", dataType := .int64 }])
  adds :=
    [{ stats := some
        { numRecords := 1
          minValues := [("a", .value (.number 5)), ("b", .value (.number 1))]
          maxValues := [("a", .value (.number 5)), ("b", .value (.number 1))]
          nullCount := [("a", .value 0), ("b", .value 0)] }
       rows := [[("a", some (.int 5)), ("b", some (.int 1))]] }]

/-- One file in the partition of the empty text, which is read as null. -/
def emptyText : StatsTable where
  fields := [{ name := "p", physicalName := "p", dataType := .utf8 }]
  partitionColumns := ["p"]
  adds := [{ partitionValues := [("p", some "")], rows := [[]] }]

/-- One file has bounds under the physical names only, the other the empty text for NULL. -/
theorem matching_file_dropped :
    (∀ add ∈ renamed.adds, ∀ row ∈ add.rows, ∀ field ∈ renamed.fields,
      (boundsUnder (fun _ _ => none) renamed.adds field.physicalName field.dataType add).Admits
        (renamed.value (fun _ _ => none) add row field)) ∧
    ¬renamed.KeepsMatching (fun _ _ => none) (PruningPredicate.simple .plain)
      (.binary (.column "a") (.compare .eq) (.literal (some (.int 1)))) ∧
    ¬emptyText.KeepsMatching (fun _ _ => none) (PruningPredicate.simple .plain)
      (.isNull (.column "p")) := by
  refine ⟨?_, fun h => ?_, fun h => ?_⟩
  · have hexact (x : Int) :
        (⟨some (.int x), some (.int x), some 0, some 1⟩ : ColumnBounds).Admits (some (.int x)) :=
      ColumnBounds.admits_some_iff.mpr (by simp)
    intro add hadd row hrow field hfield
    obtain rfl := mem_singleton.mp hadd
    obtain rfl := mem_singleton.mp hrow
    obtain rfl | hfield := mem_cons.mp hfield
    · exact hexact 5
    · obtain rfl := mem_singleton.mp hfield
      exact hexact 1
  · have hkeep := h 0 _ rfl _ (mem_singleton_self _) (by decide)
    exact absurd hkeep (by decide)
  · have hkeep := h 0 _ rfl _ (mem_singleton_self _) (by decide)
    exact absurd hkeep (by decide)

end StatsTable

end Zelox.Delta
