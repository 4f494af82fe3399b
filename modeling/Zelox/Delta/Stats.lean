import Zelox.Sql.Expr

/-!
# Statistics of an `Add`

The statistics that a file's `Add` carries as JSON (`spec/statistics.rs`), with the look-up
by column name, and their conversion into values of the column's type
(`conversion/scalar.rs`).  Reading a text as a value of a type is left to the engine
(`TextParser`).

A typed array of statistics holds what the conversion of the single values gives
(`statValueToScalar_of_extract`).
-/

namespace Zelox.Delta

open Sql

/-- Numbers with a fraction are not values of the types that are modelled. -/
inductive StatValue where
  | null
  | boolean (value : Bool)
  | number (value : Int)
  | string (value : String)
deriving DecidableEq, Repr

/-- `ColumnValueStat` and `ColumnCountStat`: a value, or one per field of a struct. -/
inductive ColumnStat (α : Type) where
  | column (fields : List (String × ColumnStat α))
  | value (v : α)

namespace ColumnStat

variable {α : Type}

def asColumn : ColumnStat α → Option (List (String × ColumnStat α))
  | column fields => some fields
  | value _ => none

def asValue : ColumnStat α → Option α
  | column _ => none
  | value v => some v

def getPath (current : ColumnStat α) : List String → Option (ColumnStat α)
  | [] => some current
  | part :: path => do
    let fields ← current.asColumn
    let next ← fields.lookup part
    next.getPath path

/-- `lookup_value_stat`, `lookup_count_stat`: the name itself, or a path with dots. -/
def lookup (map : List (String × ColumnStat α)) (name : String) : Option α :=
  match (map.lookup name).bind asValue with
  | some v => some v
  | none =>
    match name.splitOn "." with
    | [] => none
    | first :: path => ((map.lookup first).bind (·.getPath path)).bind asValue

end ColumnStat

structure Stats where
  numRecords : Int
  minValues : List (String × ColumnStat StatValue) := []
  maxValues : List (String × ColumnStat StatValue) := []
  nullCount : List (String × ColumnStat Int) := []
  tightBounds : Bool := true

namespace Stats

def minValue (s : Stats) (name : String) : Option StatValue := ColumnStat.lookup s.minValues name

def maxValue (s : Stats) (name : String) : Option StatValue := ColumnStat.lookup s.maxValues name

/-- With loose bounds only the counts that say "none" or "all" mean anything. -/
def nullCountValue (s : Stats) (name : String) : Option Int := do
  let value ← ColumnStat.lookup s.nullCount name
  if s.tightBounds || value == 0 || value == s.numRecords then some value else none

end Stats

/-- The engine's cast of a text to a type, `none` for null and for a text that is no value. -/
abbrev TextParser := DataType → String → Option ScalarValue

variable (parse : TextParser)

/-- `string_to_arrow_scalar_value`. -/
def stringToScalar : DataType → String → Option ScalarValue
  | .utf8, s => some (.utf8 s)
  | dt, s => parse dt s

/-- An integer that fits the type. -/
def intOfNumber : DataType → Int → Option ScalarValue
  | .int32, n => if -2147483648 ≤ n ∧ n ≤ 2147483647 then some (.int n) else none
  | .int64, n =>
    if -9223372036854775808 ≤ n ∧ n ≤ 9223372036854775807 then some (.int n) else none
  | _, _ => none

/-- `stat_value_to_arrow_scalar_value`, an error as `none`. -/
def statValueToScalar (dt : DataType) : StatValue → Option ScalarValue
  | .null => none
  | .boolean b =>
    if dt = .boolean then some (.boolean b) else stringToScalar parse dt (toString b)
  | .number n => (intOfNumber dt n).or (stringToScalar parse dt (toString n))
  | .string s => stringToScalar parse dt s

/-- The values that the typed array of a type takes (`stat_values_to_array`). -/
def extract : DataType → StatValue → Option ScalarValue
  | .boolean, .boolean b => some (.boolean b)
  | .int32, .number n => intOfNumber .int32 n
  | .int64, .number n => intOfNumber .int64 n
  | .utf8, .string s => some (.utf8 s)
  | _, _ => none

/-- `stat_values_to_array`: no array if one of the values is of another type. -/
def statValuesToArray (dt : DataType) (values : List (Option StatValue)) :
    Option (List Scalar) :=
  if ∀ v ∈ values, ∀ x ∈ v, x ≠ .null → (extract dt x).isSome
  then some (values.map (·.bind (extract dt)))
  else none

def stringValuesToArray (dt : DataType) (values : List (Option String)) : List Scalar :=
  values.map (·.bind (stringToScalar parse dt))

theorem statValueToScalar_of_extract {dt : DataType} {v : StatValue} {x : ScalarValue}
    (h : extract dt v = some x) : statValueToScalar parse dt v = some x := by
  unfold extract at h
  split at h
  · exact h
  · rw [statValueToScalar, h, Option.some_or]
  · rw [statValueToScalar, h, Option.some_or]
  · exact h
  · cases h

theorem statValuesToArray_eq {dt : DataType} {values : List (Option StatValue)}
    {array : List Scalar} (h : statValuesToArray dt values = some array) :
    array = values.map (·.bind (statValueToScalar parse dt)) := by
  rw [statValuesToArray, Option.ite_none_right_eq_some, Option.some.injEq] at h
  obtain ⟨hall, rfl⟩ := h
  refine List.map_congr_left fun v hv => ?_
  cases v with
  | none => rfl
  | some x =>
    by_cases hx : x = .null
    · subst hx
      cases dt <;> rfl
    · obtain ⟨y, hy⟩ := Option.isSome_iff_exists.mp (hall _ hv x rfl hx)
      rw [Option.bind_some, Option.bind_some, hy, statValueToScalar_of_extract parse hy]

def nullPartitionValueDataPath : String := "__HIVE_DEFAULT_PARTITION__"

/-- `parse_partition_value`: the empty text and the Hive name of null are null. -/
def parsePartitionValue (dt : DataType) (raw : String) : Option ScalarValue :=
  if raw = "" ∨ raw = nullPartitionValueDataPath then none else stringToScalar parse dt raw

end Zelox.Delta
