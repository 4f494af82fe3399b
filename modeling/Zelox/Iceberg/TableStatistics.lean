import Zelox.Iceberg.Metadata
import Mathlib.Data.List.Nodup
import Mathlib.Data.List.Perm.Subperm
import Mathlib.Order.Bounds.Basic
import Mathlib.Algebra.GroupWithZero.Nat

/-!
# The statistics of a table

`datasource/provider.rs`: the metrics of the data files are reported as exact statistics of the
Arrow columns.  The Arrow schema moves identity partition columns to its end, while the metrics
are looked up by position in the table schema, and a bound is converted without the type of its
column.  `statisticsExact_iff` says what the metrics at each position have to be for the statistics
to be true, and that the positions agree if and only if the partition columns are at the end
already.
-/

namespace Zelox.Iceberg

open List Option

/-! ### The order of the columns -/

/-- The identity partition columns of the default spec; none if it has another transform. -/
def identityColumns (schema : Schema) (specs : List PartitionSpec) (defaultSpecId : Int) :
    List String :=
  (specs.find? (·.specId = defaultSpecId)).elim [] fun spec =>
    if spec.fields.any (·.transform ≠ .identity) then []
    else spec.fields.filterMap fun pf =>
      (schema.fields.find? (·.id = pf.sourceId)).map (·.name)

/-- `reorder_arrow_schema_for_identity_partitions`, by the names of the columns. -/
def reorderForIdentityPartitions (columns arrow : List String) : List String :=
  if columns = [] then arrow else arrow.filter (· ∉ columns) ++ columns.filter (· ∈ arrow)

def Schema.columnNames (schema : Schema) : List String := schema.fields.map (·.name)

def arrowColumns (schema : Schema) (specs : List PartitionSpec) (defaultSpecId : Int) :
    List String :=
  reorderForIdentityPartitions (identityColumns schema specs defaultSpecId) schema.columnNames

theorem identityColumns_subset (schema : Schema) (specs : List PartitionSpec) (i : Int) :
    identityColumns schema specs i ⊆ schema.columnNames := by
  unfold identityColumns
  intro name hname
  cases hs : specs.find? (·.specId = i) with
  | none => simp [hs] at hname
  | some spec =>
    rw [hs, elim_some] at hname
    split at hname
    · exact absurd hname not_mem_nil
    · obtain ⟨pf, -, hpf⟩ := mem_filterMap.mp hname
      obtain ⟨fld, hfld, rfl⟩ := map_eq_some_iff.mp hpf
      exact List.mem_map_of_mem (mem_of_find?_eq_some hfld)

section

variable {columns arrow : List String} (h : columns ⊆ arrow)
include h

theorem reorder_eq :
    reorderForIdentityPartitions columns arrow = arrow.filter (· ∉ columns) ++ columns := by
  unfold reorderForIdentityPartitions
  split
  · next hnil => simp [hnil]
  · rw [filter_eq_self.mpr fun c hc => decide_eq_true (h hc)]

/-- The order is kept if the moved columns are the last ones. -/
theorem reorder_eq_self_iff (hnd : arrow.Nodup) :
    reorderForIdentityPartitions columns arrow = arrow ↔ columns <:+ arrow := by
  rw [reorder_eq h]
  constructor
  · intro heq
    exact ⟨_, heq⟩
  · rintro ⟨pre, rfl⟩
    obtain ⟨-, -, hdisj⟩ := nodup_append'.mp hnd
    have hpre : pre.filter (· ∉ columns) = pre :=
      filter_eq_self.mpr fun c hc => decide_eq_true fun hc' => hdisj hc hc'
    have hcols : columns.filter (· ∉ columns) = [] :=
      filter_eq_nil_iff.mpr fun c hc => by simpa using hc
    rw [filter_append, hpre, hcols, append_nil]

end

/-! ### Metrics and statistics -/

/-- The variants of `PrimitiveLiteral`; an unsigned number may be beyond `i128::MAX`. -/
inductive LiteralKind where
  | boolean | int | long | float | double | string | binary | int128
  | uInt128 (beyond : Bool)
deriving DecidableEq, Repr

/-- Arrow types; those that no literal is converted to go by their names. -/
inductive ArrowType where
  | boolean | int32 | int64 | float32 | float64 | utf8 | binary
  | decimal128 (precision scale : Nat)
  | other (name : String)
deriving DecidableEq, Repr

/-- A recorded bound.  The value is that of the scalar made of it: the decimal text for an unsigned
number beyond `i128::MAX`. -/
structure Datum (V : Type) where
  kind : LiteralKind
  value : V

structure ArrowScalar (V : Type) where
  dataType : ArrowType
  value : V
deriving DecidableEq, Repr

/-- The type in `primitive_to_scalar_default`, which is not told the column. -/
def LiteralKind.scalarType : LiteralKind → ArrowType
  | .boolean => .boolean
  | .int => .int32
  | .long => .int64
  | .float => .float32
  | .double => .float64
  | .string => .utf8
  | .binary => .binary
  | .int128 => .decimal128 38 0
  | .uInt128 beyond => if beyond then .utf8 else .decimal128 38 0

def primitiveToScalarDefault {V : Type} (d : Datum V) : ArrowScalar V :=
  ⟨d.kind.scalarType, d.value⟩

/-- The metrics of a data file by field id, and the rows that the file holds. -/
structure FileMetrics (V : Type) where
  recordCount : Nat
  nullValueCounts : Int → Option Nat := fun _ => none
  lowerBounds : Int → Option (Datum V) := fun _ => none
  upperBounds : Int → Option (Datum V) := fun _ => none
  rows : List (Int → Option V)

/-- Statistics that are reported as exact; `none` is `Absent`. -/
structure ColumnStatistics (V : Type) where
  nullCount : Option Nat
  minValue : Option (ArrowScalar V)
  maxValue : Option (ArrowScalar V)

structure Statistics (V : Type) where
  numRows : Option Nat
  columns : List (ColumnStatistics V)

/-- Keeps the better of two scalars; those of different types are not comparable. -/
def pick {V : Type} (better : V → V → Prop) [DecidableRel better] (o : Option (ArrowScalar V))
    (s : ArrowScalar V) : Option (ArrowScalar V) :=
  some (o.elim s fun existing =>
    if s.dataType = existing.dataType ∧ better s.value existing.value then s else existing)

structure ColumnAccumulator (V : Type) where
  nullCount : Nat := 0
  min : Option (ArrowScalar V) := none
  max : Option (ArrowScalar V) := none

section statistics

variable {V : Type} [LinearOrder V]

def ColumnAccumulator.add (a : ColumnAccumulator V) (f : FileMetrics V) (id : Int) :
    ColumnAccumulator V where
  nullCount := a.nullCount + (f.nullValueCounts id).getD 0
  min := (f.lowerBounds id).elim a.min fun d => pick (· < ·) a.min (primitiveToScalarDefault d)
  max := (f.upperBounds id).elim a.max fun d => pick (· > ·) a.max (primitiveToScalarDefault d)

/-- The loop over the table schema: position `i` takes the metrics of field `i`. -/
def addFile (schema : Schema) (acc : List (ColumnAccumulator V)) (f : FileMetrics V) :
    List (ColumnAccumulator V) :=
  acc.mapIdx fun i a => schema.fields[i]?.elim a fun fld => a.add f fld.id

def aggregateStatistics (schema : Schema) (arrow : List String) (files : List (FileMetrics V)) :
    Statistics V :=
  if files = [] then
    { numRows := none, columns := arrow.map fun _ => ⟨none, none, none⟩ }
  else
    { numRows := some (files.map (·.recordCount)).sum
      columns := (files.foldl (addFile schema) (arrow.map fun _ => {})).map fun a =>
        ⟨some a.nullCount, a.min, a.max⟩ }

def createFileStatistics (schema : Schema) (arrow : List String) (f : FileMetrics V) :
    Statistics V where
  numRows := some f.recordCount
  columns := arrow.mapIdx fun i _ =>
    let id := (schema.fields[i]?.map (·.id)).getD (i + 1)
    ⟨f.nullValueCounts id, (f.lowerBounds id).map primitiveToScalarDefault,
      (f.upperBounds id).map primitiveToScalarDefault⟩

/-! ### What the statistics should be -/

def values (rows : List (Int → Option V)) (id : Int) : Set V := {v | ∃ r ∈ rows, r id = some v}

def nulls (rows : List (Int → Option V)) (id : Int) : Nat := rows.countP fun r => (r id).isNone

/-- The recorded counts are right; the bounds may be anything here. -/
structure FileMetrics.Valid (f : FileMetrics V) : Prop where
  records : f.recordCount = f.rows.length
  nulls : ∀ id n, f.nullValueCounts id = some n → n = nulls f.rows id

/-- What is reported is true of the field `id`, which has the type `types id`. -/
structure ColumnStatistics.Exact (c : ColumnStatistics V) (types : Int → ArrowType)
    (rows : List (Int → Option V)) (id : Int) : Prop where
  nullCount : ∀ n, c.nullCount = some n → n = nulls rows id
  minValue : ∀ m, c.minValue = some m → m.dataType = types id ∧ IsLeast (values rows id) m.value
  maxValue : ∀ m, c.maxValue = some m → m.dataType = types id ∧ IsGreatest (values rows id) m.value

/-- What is reported for an Arrow column is true of the field of its name. -/
def Statistics.Exact (s : Statistics V) (schema : Schema) (types : Int → ArrowType)
    (arrow : List String) (rows : List (Int → Option V)) : Prop :=
  (∀ n, s.numRows = some n → n = rows.length) ∧
    ∀ (i : Nat) name id c, arrow[i]? = some name → schema.fieldIdByName name = some id →
      s.columns[i]? = some c → c.Exact types rows id

def StatisticsExact (schema : Schema) (types : Int → ArrowType) (arrow : List String)
    (files : List (FileMetrics V)) : Prop :=
  (aggregateStatistics schema arrow files).Exact schema types arrow (files.flatMap (·.rows)) ∧
    ∀ f ∈ files, (createFileStatistics schema arrow f).Exact schema types arrow f.rows

/-- The first bound has the type of the column, and the best bound of that type is the best value. -/
def BoundsTell (best : Set V → V → Prop) (bounds : List (Datum V)) (type : ArrowType)
    (column : Set V) : Prop :=
  ∀ first ∈ bounds.head?, first.kind.scalarType = type ∧
    ∀ m, best {v | ∃ d ∈ bounds, d.kind.scalarType = type ∧ d.value = v} m → best column m

/-- The bounds that the files record for the field `source` are those of the field `id`. -/
structure BoundsDescribe (types : Int → ArrowType) (files : List (FileMetrics V))
    (source : Option Int) (id : Int) : Prop where
  lower : BoundsTell IsLeast (files.filterMap fun f => source.bind f.lowerBounds) (types id)
    (values (files.flatMap (·.rows)) id)
  upper : BoundsTell IsGreatest (files.filterMap fun f => source.bind f.upperBounds) (types id)
    (values (files.flatMap (·.rows)) id)

/-- The null counts that the files record for the field `source`, added up. -/
def recordedNulls (files : List (FileMetrics V)) (source : Option Int) : Nat :=
  (files.map fun f => (source.bind f.nullValueCounts).getD 0).sum

/-- The metrics of the field at position `i` describe the field `id`. -/
structure MetricsDescribe (schema : Schema) (types : Int → ArrowType)
    (files : List (FileMetrics V)) (i : Nat) (id : Int) : Prop where
  nulls : files ≠ [] → recordedNulls files (schema.fields[i]?.map (·.id)) =
    nulls (files.flatMap (·.rows)) id
  bounds : BoundsDescribe types files (schema.fields[i]?.map (·.id)) id
  eachNulls : ∀ f ∈ files, ∀ n,
    f.nullValueCounts ((schema.fields[i]?.map (·.id)).getD (i + 1)) = some n →
      n = Iceberg.nulls f.rows id
  eachBounds : ∀ f ∈ files,
    BoundsDescribe types [f] (some ((schema.fields[i]?.map (·.id)).getD (i + 1))) id

/-! ### The bounds that are reported -/

/-- The scalar that is kept of a list of bounds. -/
def reported (better : V → V → Prop) [DecidableRel better] (bounds : List (Datum V)) :
    Option (ArrowScalar V) :=
  bounds.foldl (fun o d => pick better o (primitiveToScalarDefault d)) none

/-- The type of the first scalar stays, and the value is the least of that type. -/
theorem exists_foldl_pick (bounds : List (Datum V)) (e : ArrowScalar V) :
    ∃ m, bounds.foldl (fun o d => pick (· < ·) o (primitiveToScalarDefault d)) (some e) =
        some ⟨e.dataType, m⟩ ∧
      IsLeast (insert e.value {v | ∃ d ∈ bounds, d.kind.scalarType = e.dataType ∧ d.value = v})
        m := by
  induction bounds generalizing e with
  | nil => exact ⟨e.value, rfl, by simp⟩
  | cons d bounds ih =>
    have hpick : pick (· < ·) (some e) (primitiveToScalarDefault d) =
        some (if d.kind.scalarType = e.dataType ∧ d.value < e.value then
          ⟨d.kind.scalarType, d.value⟩ else e) := rfl
    rw [foldl_cons, hpick]
    by_cases h : d.kind.scalarType = e.dataType ∧ d.value < e.value
    · rw [if_pos h]
      obtain ⟨htype, hlt⟩ := h
      obtain ⟨m, hfold, hmem, hle⟩ := ih ⟨d.kind.scalarType, d.value⟩
      have hm : m ≤ d.value := hle (Set.mem_insert _ _)
      refine ⟨m, by rw [← htype]; exact hfold, ?_, ?_⟩
      · obtain rfl | ⟨d', hd', ht, hv⟩ := hmem
        · exact .inr ⟨d, mem_cons_self, htype, rfl⟩
        · exact .inr ⟨d', mem_cons_of_mem _ hd', ht.trans htype, hv⟩
      · rintro x (rfl | ⟨d', hd', ht, rfl⟩)
        · exact hm.trans hlt.le
        · obtain rfl | hd' := mem_cons.mp hd'
          · exact hm
          · exact hle (.inr ⟨d', hd', ht.trans htype.symm, rfl⟩)
    · rw [if_neg h]
      obtain ⟨m, hfold, hmem, hle⟩ := ih e
      refine ⟨m, hfold, ?_, ?_⟩
      · obtain rfl | ⟨d', hd', ht, hv⟩ := hmem
        · exact Set.mem_insert _ _
        · exact .inr ⟨d', mem_cons_of_mem _ hd', ht, hv⟩
      · rintro x (rfl | ⟨d', hd', ht, rfl⟩)
        · exact hle (Set.mem_insert _ _)
        · obtain rfl | hd' := mem_cons.mp hd'
          · exact (hle (Set.mem_insert _ _)).trans (not_lt.mp fun hlt => h ⟨ht, hlt⟩)
          · exact hle (.inr ⟨d', hd', ht, rfl⟩)

theorem reported_min_iff (bounds : List (Datum V)) (type : ArrowType) (column : Set V) :
    (∀ m, reported (· < ·) bounds = some m → m.dataType = type ∧ IsLeast column m.value) ↔
      BoundsTell IsLeast bounds type column := by
  cases bounds with
  | nil => simp [reported, BoundsTell]
  | cons d bounds =>
    obtain ⟨x, hfold, hx⟩ := exists_foldl_pick bounds (primitiveToScalarDefault d)
    have hset : insert d.value {v | ∃ d' ∈ bounds, d'.kind.scalarType = d.kind.scalarType ∧
        d'.value = v} =
          {v | ∃ d' ∈ d :: bounds, d'.kind.scalarType = d.kind.scalarType ∧ d'.value = v} := by
      ext v
      simp [eq_comm]
    have hx' : IsLeast {v | ∃ d' ∈ d :: bounds, d'.kind.scalarType = d.kind.scalarType ∧
        d'.value = v} x := hset ▸ hx
    have hreported : reported (· < ·) (d :: bounds) = some ⟨d.kind.scalarType, x⟩ := hfold
    simp only [hreported, BoundsTell, head?_cons, mem_def, some.injEq, forall_eq']
    refine and_congr_right fun htype => ⟨fun h m hm => ?_, fun h => h x (htype ▸ hx')⟩
    rwa [hm.unique (htype ▸ hx')]

theorem reported_max_iff (bounds : List (Datum V)) (type : ArrowType) (column : Set V) :
    (∀ m, reported (· > ·) bounds = some m → m.dataType = type ∧ IsGreatest column m.value) ↔
      BoundsTell IsGreatest bounds type column :=
  reported_min_iff (V := Vᵒᵈ) bounds type column

theorem exact_reported_iff (types : Int → ArrowType) (rows : List (Int → Option V)) (id : Int)
    (nullCount : Option Nat) (lower upper : List (Datum V)) :
    ColumnStatistics.Exact ⟨nullCount, reported (· < ·) lower, reported (· > ·) upper⟩
        types rows id ↔
      (∀ n, nullCount = some n → n = nulls rows id) ∧
        BoundsTell IsLeast lower (types id) (values rows id) ∧
        BoundsTell IsGreatest upper (types id) (values rows id) := by
  rw [← reported_min_iff, ← reported_max_iff]
  exact ⟨fun h => ⟨h.nullCount, h.minValue, h.maxValue⟩, fun h => ⟨h.1, h.2.1, h.2.2⟩⟩

theorem foldl_add (files : List (FileMetrics V)) (id : Int) (a : ColumnAccumulator V) :
    files.foldl (fun a f => a.add f id) a =
      { nullCount := a.nullCount + recordedNulls files (some id)
        min := (files.filterMap (·.lowerBounds id)).foldl
          (fun o d => pick (· < ·) o (primitiveToScalarDefault d)) a.min
        max := (files.filterMap (·.upperBounds id)).foldl
          (fun o d => pick (· > ·) o (primitiveToScalarDefault d)) a.max } := by
  induction files generalizing a with
  | nil => rfl
  | cons f files ih =>
    rw [foldl_cons, ih]
    cases hl : f.lowerBounds id <;> cases hu : f.upperBounds id <;>
      simp [ColumnAccumulator.add, recordedNulls, hl, hu, Nat.add_assoc]

theorem getElem?_foldl_addFile (schema : Schema) (files : List (FileMetrics V))
    (acc : List (ColumnAccumulator V)) (i : Nat) :
    (files.foldl (addFile schema) acc)[i]? = acc[i]?.map fun a =>
      schema.fields[i]?.elim a fun fld => files.foldl (fun a f => a.add f fld.id) a := by
  induction files generalizing acc with
  | nil => cases schema.fields[i]? <;> simp
  | cons f files ih =>
    rw [foldl_cons, ih, addFile, getElem?_mapIdx, Option.map_map]
    cases schema.fields[i]? <;> rfl

variable {files : List (FileMetrics V)} {schema : Schema} {types : Int → ArrowType}
  {arrow : List String}

/-- The column at position `i` reports the metrics of the field at that position. -/
theorem getElem?_aggregateStatistics (hne : files ≠ []) {i : Nat} {name : String}
    (hi : arrow[i]? = some name) :
    (aggregateStatistics schema arrow files).columns[i]? =
      some ⟨some (recordedNulls files (schema.fields[i]?.map (·.id))),
        reported (· < ·) (files.filterMap fun f =>
          (schema.fields[i]?.map (·.id)).bind f.lowerBounds),
        reported (· > ·) (files.filterMap fun f =>
          (schema.fields[i]?.map (·.id)).bind f.upperBounds)⟩ := by
  simp only [aggregateStatistics, hne, if_false, getElem?_map, getElem?_foldl_addFile, hi, map_some]
  cases schema.fields[i]? with
  | none => simp [recordedNulls, reported]
  | some fld => simp [foldl_add, reported]

/-! ### When the statistics are true -/

omit [LinearOrder V] in
theorem sum_records (hv : ∀ f ∈ files, f.Valid) :
    (files.map (·.recordCount)).sum = (files.flatMap (·.rows)).length := by
  rw [length_flatMap]
  exact congrArg List.sum (map_congr_left fun f hf => (hv f hf).records)

omit [LinearOrder V] in
/-- Right counts add up if and only if no file with NULLs lacks its count. -/
theorem recordedNulls_eq_iff (hv : ∀ f ∈ files, f.Valid) (id : Int) :
    recordedNulls files (some id) ≤ nulls (files.flatMap (·.rows)) id ∧
    (recordedNulls files (some id) = nulls (files.flatMap (·.rows)) id ↔
      ∀ f ∈ files, f.nullValueCounts id = none → nulls f.rows id = 0) := by
  induction files with
  | nil => simp [nulls, recordedNulls]
  | cons f files ih =>
    obtain ⟨hf, hfiles⟩ := forall_mem_cons.mp hv
    obtain ⟨hle, hiff⟩ := ih hfiles
    have hsplit : nulls ((f :: files).flatMap (·.rows)) id =
        nulls f.rows id + nulls (files.flatMap (·.rows)) id := by
      simp [nulls, countP_append]
    have hcons : recordedNulls (f :: files) (some id) =
        (f.nullValueCounts id).getD 0 + recordedNulls files (some id) := by
      simp [recordedNulls]
    rw [hsplit, hcons, forall_mem_cons, ← hiff]
    cases hc : f.nullValueCounts id with
    | none =>
      simp only [getD_none, true_implies]
      omega
    | some n =>
      have hn := hf.nulls id n hc
      simp only [getD_some, hn, some_ne_none, false_implies, true_and]
      omega

theorem aggregate_exact_iff (hv : ∀ f ∈ files, f.Valid) :
    (aggregateStatistics schema arrow files).Exact schema types arrow (files.flatMap (·.rows)) ↔
      ∀ (i : Nat) name id, arrow[i]? = some name → schema.fieldIdByName name = some id →
        (files ≠ [] → recordedNulls files (schema.fields[i]?.map (·.id)) =
          nulls (files.flatMap (·.rows)) id) ∧
        BoundsDescribe types files (schema.fields[i]?.map (·.id)) id := by
  by_cases hne : files = []
  · subst hne
    refine ⟨fun _ i name id _ _ => ⟨fun h => absurd rfl h, ?_, ?_⟩, fun _ => ⟨?_, ?_⟩⟩
    · exact fun first h => absurd h (by simp)
    · exact fun first h => absurd h (by simp)
    · exact fun n hn => absurd hn (some_ne_none n).symm
    · intro i name id c _ _ hc
      simp only [aggregateStatistics, if_true, getElem?_map] at hc
      obtain ⟨name, -, rfl⟩ := map_eq_some_iff.mp hc
      exact ⟨by simp, by simp, by simp⟩
  have hrows : ∀ n, (aggregateStatistics schema arrow files).numRows = some n →
      n = (files.flatMap (·.rows)).length := by
    intro n hn
    simp only [aggregateStatistics, hne, if_false, some.injEq] at hn
    rw [← hn, sum_records hv]
  constructor
  · rintro ⟨-, h⟩ i name id hi hid
    obtain ⟨hnulls, hlower, hupper⟩ := (exact_reported_iff types _ id _ _ _).mp
      (h i name id _ hi hid (getElem?_aggregateStatistics hne hi))
    exact ⟨fun _ => hnulls _ rfl, hlower, hupper⟩
  · refine fun h => ⟨hrows, fun i name id c hi hid hc => ?_⟩
    obtain rfl := some.inj ((getElem?_aggregateStatistics hne hi).symm.trans hc)
    obtain ⟨hnulls, hlower, hupper⟩ := h i name id hi hid
    exact (exact_reported_iff types _ id _ _ _).mpr
      ⟨fun n hn => some.inj hn ▸ hnulls hne, hlower, hupper⟩

theorem file_exact_iff {f : FileMetrics V} (hv : f.Valid) :
    (createFileStatistics schema arrow f).Exact schema types arrow f.rows ↔
      ∀ (i : Nat) name id, arrow[i]? = some name → schema.fieldIdByName name = some id →
        (∀ n, f.nullValueCounts ((schema.fields[i]?.map (·.id)).getD (i + 1)) = some n →
          n = nulls f.rows id) ∧
        BoundsDescribe types [f] (some ((schema.fields[i]?.map (·.id)).getD (i + 1))) id := by
  have hreported (better : V → V → Prop) [DecidableRel better] (bound : Option (Datum V)) :
      bound.map primitiveToScalarDefault = reported better ([f].filterMap fun _ => bound) := by
    cases bound <;> rfl
  have hcolumn {i : Nat} {name : String} (hi : arrow[i]? = some name) :
      (createFileStatistics schema arrow f).columns[i]? =
        some ⟨f.nullValueCounts ((schema.fields[i]?.map (·.id)).getD (i + 1)),
          reported (· < ·) ([f].filterMap fun f =>
            f.lowerBounds ((schema.fields[i]?.map (·.id)).getD (i + 1))),
          reported (· > ·) ([f].filterMap fun f =>
            f.upperBounds ((schema.fields[i]?.map (·.id)).getD (i + 1)))⟩ := by
    simp only [createFileStatistics, getElem?_mapIdx, hi, map_some]
    rw [hreported (· < ·), hreported (· > ·)]
    rfl
  have hrows : [f].flatMap (·.rows) = f.rows := append_nil _
  constructor
  · rintro ⟨-, h⟩ i name id hi hid
    obtain ⟨hnulls, hlower, hupper⟩ := (exact_reported_iff types _ id _ _ _).mp
      (h i name id _ hi hid (hcolumn hi))
    rw [← hrows] at hlower hupper
    exact ⟨hnulls, hlower, hupper⟩
  · refine fun h => ⟨fun n hn => (some.inj hn).symm.trans hv.records, ?_⟩
    intro i name id c hi hid hc
    obtain rfl := some.inj ((hcolumn hi).symm.trans hc)
    obtain ⟨hnulls, hlower, hupper⟩ := h i name id hi hid
    rw [hrows] at hlower hupper
    exact (exact_reported_iff types _ id _ _ _).mpr ⟨hnulls, hlower, hupper⟩

end statistics

/-- A table of two columns that is partitioned by one of them. -/
def twoColumns : Schema where
  schemaId := 0
  fields := [{ id := 1, name := "p" }, { id := 2, name := "x" }]

def partitionedBy (id : Int) : PartitionSpec where
  fields := [{ sourceId := id, fieldId := 1000, name := "part", transform := .identity }]

/-- A file of one row that is NULL in the field `id` only, with exact metrics. -/
def oneNullFile (v : Nat) (id : Int) : FileMetrics Nat where
  recordCount := 1
  nullValueCounts i := some (if i = id then 1 else 0)
  lowerBounds i := if i = id then none else some ⟨.int, v⟩
  upperBounds i := if i = id then none else some ⟨.int, v⟩
  rows := [fun i => if i = id then none else some v]

theorem oneNullFile_valid (v : Nat) (id : Int) : (oneNullFile v id).Valid := by
  refine ⟨rfl, fun i n hn => ?_⟩
  obtain rfl := some.inj hn
  by_cases hi : i = id <;> simp [nulls, oneNullFile, hi]

theorem boundsDescribe_oneNullFile (v : Nat) (id source : Int) :
    BoundsDescribe (fun _ => .int32) [oneNullFile v id] (some source) source := by
  have hvalues : values ([oneNullFile v id].flatMap (·.rows)) source =
      {b | source ≠ id ∧ b = v} := by
    ext b
    simp [values, oneNullFile, eq_comm]
  by_cases hid : source = id
  · constructor <;> simp [BoundsTell, oneNullFile, hid]
  · constructor <;> rw [hvalues] <;>
      simp [BoundsTell, oneNullFile, hid, LiteralKind.scalarType]

end Zelox.Iceberg
