import Zelox.Delta.Actions
import Zelox.Delta.MetadataPredicate
import Zelox.Delta.Stats
import Zelox.Lib.Assoc

/-!
# Tables as rows in data files

A table as row-level statements see it: a schema with logical and physical column names,
and the active files with their partition values, statistics, rows and deletion vectors.
What is stored in a file or beside it goes by physical names; a condition goes by logical
ones.  Partition values are texts: `logicalRow` is the row a reader makes of a stored one and
of these texts, `metadata` the columns of the table of active files that conditions on
metadata are evaluated on, with the texts as they are.
-/

namespace Zelox.Delta

open Sql

/-- Values by column name. -/
abbrev Values := List (String × Scalar)

/-- A column that is not there is null. -/
def Values.get (values : Values) (name : String) : Scalar := (values.lookup name).join

structure Field where
  name : String
  physicalName : String
  nullable : Bool := true
  dataType : DataType := .utf8
deriving DecidableEq, Repr

/-- `statsFields` are the leaves of the schema that statistics are parsed with; texts are read as
values by `parse`. -/
structure TableSchema where
  fields : List Field
  partitionColumns : List String := []
  statsFields : List StatsField := []
  parse : TextParser := fun _ _ => none

/-- An active file: the columns of the Parquet file, and the positions in its deletion vector. -/
structure DataFile where
  add : Add
  partitionValues : List (String × Option String) := []
  stats : List (StatsField × Scalar) := []
  columns : List String := []
  rows : List Values
  deletionVector : List Nat := []
deriving DecidableEq, Repr

def DataFile.key (f : DataFile) : LogicalFileKey := f.add.key

def DataFile.hasDeletionVector (f : DataFile) : Bool := f.add.deletionVector.isSome

def DataFile.isDeleted (f : DataFile) (position : Nat) : Bool :=
  f.hasDeletionVector && f.deletionVector.contains position

/-- The text of a partition value, by its physical name or else by its logical one. -/
def DataFile.partitionText (f : DataFile) (field : Field) : Option String :=
  ((f.partitionValues.lookup field.physicalName).or (f.partitionValues.lookup field.name)).join

structure DeltaTable where
  schema : TableSchema
  files : KeyedMap DataFile.key

namespace TableSchema

variable (s : TableSchema)

def field? (name : String) : Option Field := s.fields.find? fun field => field.name = name

def isPartition (name : String) : Bool := s.partitionColumns.contains name

/-- `partitioned_file_from_action`: a text that cannot be read is null. -/
def partitionValue (f : DataFile) (field : Field) : Scalar :=
  (f.partitionText field).bind (parsePartitionValue s.parse field.dataType)

/-- The value of a column in a stored row: a partition column is not in the file. -/
def value (f : DataFile) (row : Values) (field : Field) : Scalar :=
  if s.isPartition field.name then s.partitionValue f field
  else row.get field.physicalName

def logicalRow (f : DataFile) (row : Values) : Values :=
  s.fields.map fun field => (field.name, s.value f row field)

/-- The rows of a file that are not deleted, as a full scan returns them. -/
def liveRows (f : DataFile) : List Values :=
  (f.rows.zipIdx.filter fun r => !f.isDeleted r.2).map fun r => s.logicalRow f r.1

/-- What the table of active files holds for a file: the texts of the partition values, and
statistics under the names they are stored under. -/
def metadata (f : DataFile) : MetaColumn → Scalar
  | .partition name => (s.field? name).bind fun field =>
    ((f.partitionValues.lookup field.physicalName).join.or
      (f.partitionValues.lookup field.name).join).map .utf8
  | .stats field => (f.stats.lookup field).join

theorem get_logicalRow (f : DataFile) (row : Values) (name : String) :
    (s.logicalRow f row).get name = (s.field? name).bind (s.value f row) := by
  rw [logicalRow, field?, Values.get, Assoc.lookup_map]
  cases s.fields.find? fun field => field.name = name <;> rfl

end TableSchema

namespace DeltaTable

variable (t : DeltaTable)

def rows : List Values := t.files.entries.flatMap t.schema.liveRows

end DeltaTable

end Zelox.Delta
