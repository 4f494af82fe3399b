import Zelox.Delta.Stats
import Zelox.Delta.Table

/-!
# Writing rows into files

`DeltaWriter` (`operations/write/writer.rs`) takes the rows of a task in order and keeps
one file open, which it closes when the Hive path of the partition changes or the file
has become large enough.  A file gets the partition values of the row it was opened for.

The path of a row determines its partition as it is read back (`partitionOf_eq_of_segments`),
so the files of a run hold the rows that came in, each in its partition
(`rows_run`, `closed_run`).
-/

namespace Zelox.Delta

open Sql List

/-- The texts of dates and timestamps, and percent-encoding as in `encode_partition_value`: letters,
digits and `-._~` stay. -/
structure PartitionEncoding where
  format : DataType → Int → String
  encode : String → String
  injective : Function.Injective encode
  encode_null : encode nullPartitionValueDataPath = nullPartitionValueDataPath

variable (enc : PartitionEncoding)

/-- The text of a value of a type in the log (`ScalarExt::serialize`). -/
def serialize (dt : DataType) : ScalarValue → String
  | .boolean b => toString b
  | .int i => if dt = .date32 ∨ dt = .timestampMicrosecond then enc.format dt i else toString i
  | .utf8 s => s

def serializeEncoded : Option String → String
  | none => nullPartitionValueDataPath
  | some text => enc.encode text

/-- The text that is parsed: the empty text and the Hive name of null are null. -/
def readText (text : Option String) : Option String :=
  text.filter fun t => ¬(t = "" ∨ t = nullPartitionValueDataPath)

theorem bind_parsePartitionValue (parse : TextParser) (dt : DataType) (text : Option String) :
    text.bind (parsePartitionValue parse dt) = (readText text).bind (stringToScalar parse dt) := by
  cases text with
  | none => rfl
  | some t =>
    by_cases h : t = "" ∨ t = nullPartitionValueDataPath <;>
      simp [parsePartitionValue, readText, Option.filter, h]

/-- Null and the text that stands for null have one path, and are read alike. -/
theorem readText_eq_of_serializeEncoded {text text' : Option String}
    (h : serializeEncoded enc text = serializeEncoded enc text') :
    readText text = readText text' := by
  have hnull {t : String} (ht : nullPartitionValueDataPath = enc.encode t) :
      readText (some t) = none := by
    rw [← enc.encode_null] at ht
    simp [readText, Option.filter, ← enc.injective ht]
  cases text with
  | none =>
    cases text' with
    | none => rfl
    | some t => exact (hnull h).symm
  | some t =>
    cases text' with
    | none => exact hnull h.symm
    | some t' => rw [enc.injective h]

namespace TableSchema

variable (s : TableSchema)

def partitionFields : List Field := s.partitionColumns.filterMap s.field?

/-- The text that the log has for the value of a row in a partition column. -/
def textOf (row : Values) (field : Field) : Option String :=
  (row.get field.name).map (serialize enc field.dataType)

def partitionOf (row : Values) : List (Option String) :=
  s.partitionFields.map fun field => readText (textOf enc row field)

def partitionOfFile (f : DataFile) : List (Option String) :=
  s.partitionFields.map fun field => readText (f.partitionText field)

def hivePartitionSegments (row : Values) : List String :=
  s.partitionFields.map fun field =>
    field.physicalName ++ "=" ++ serializeEncoded enc (textOf enc row field)

theorem partitionOf_eq_of_segments {row row' : Values}
    (h : s.hivePartitionSegments enc row = s.hivePartitionSegments enc row') :
    s.partitionOf enc row = s.partitionOf enc row' := by
  refine map_congr_left fun field hfield => ?_
  refine readText_eq_of_serializeEncoded enc ?_
  have := map_inj_left.mp h field hfield
  simpa using this

def storedRow (row : Values) : Values :=
  (s.fields.filter fun field => !s.isPartition field.name).map fun field =>
    (field.physicalName, row.get field.name)

/-- The partition values of a file that is opened for a row. -/
def storedPartition (row : Values) : List (String × Option String) :=
  s.partitionFields.map fun field => (field.physicalName, textOf enc row field)

end TableSchema

/-- The rows of a file, with the row that it was opened for. -/
structure PartitionWriter where
  first : Values
  rows : List Values
deriving Repr

/-- `current` has the path, the row it comes from and the rows of the open file. -/
structure DeltaWriter where
  currentPartitionKey : List String := []
  currentWriter : Option PartitionWriter := none
  completed : List PartitionWriter := []

namespace DeltaWriter

variable (s : TableSchema)

/-- Empty files are skipped. -/
def finish (w : PartitionWriter) : List PartitionWriter := if w.rows.isEmpty then [] else [w]

def switchPartitionIfNeeded (w : DeltaWriter) (row : Values) : DeltaWriter × PartitionWriter :=
  let key := s.hivePartitionSegments enc row
  match w.currentWriter with
  | some writer =>
    if w.currentPartitionKey = key then (w, writer)
    else
      ({ w with currentPartitionKey := key, completed := w.completed ++ finish writer },
        { first := row, rows := [] })
  | none => ({ w with currentPartitionKey := key }, { first := row, rows := [] })

/-- Writes a row; `flush` if the file has reached its target size with it. -/
def write (w : DeltaWriter) (row : Values) (flush : Bool) : DeltaWriter :=
  let (w, writer) := w.switchPartitionIfNeeded enc s row
  let writer := { writer with rows := writer.rows ++ [row] }
  if flush then
    { w with
      currentWriter := some { writer with rows := [] }, completed := w.completed ++ finish writer }
  else { w with currentWriter := some writer }

def close (w : DeltaWriter) : List PartitionWriter :=
  match w.currentWriter with
  | some writer => w.completed ++ finish writer
  | none => w.completed

/-- The files a task writes. -/
def run (input : List (Values × Bool)) : List PartitionWriter :=
  (input.foldl (fun w r => w.write enc s r.1 r.2) ({} : DeltaWriter)).close

/-! ### The rows of the files -/

def rowsOf (writers : List PartitionWriter) : List Values := writers.flatMap (·.rows)

theorem rowsOf_cons (w : PartitionWriter) (l : List PartitionWriter) :
    rowsOf (w :: l) = w.rows ++ rowsOf l := flatMap_cons

theorem rowsOf_append (l l' : List PartitionWriter) : rowsOf (l ++ l') = rowsOf l ++ rowsOf l' :=
  flatMap_append

theorem rowsOf_finish (w : PartitionWriter) : rowsOf (finish w) = w.rows := by
  unfold finish rowsOf
  split
  next h => simp [List.isEmpty_iff.mp h]
  next => simp

/-- What has been written, in order. -/
def contents (w : DeltaWriter) : List Values :=
  rowsOf w.completed ++ w.currentWriter.elim [] (·.rows)

theorem rowsOf_close (w : DeltaWriter) : rowsOf w.close = w.contents := by
  unfold close contents
  cases w.currentWriter with
  | none => simp
  | some writer => rw [rowsOf_append, rowsOf_finish]; rfl

theorem contents_switch (w : DeltaWriter) (row : Values) :
    rowsOf (w.switchPartitionIfNeeded enc s row).1.completed ++
      (w.switchPartitionIfNeeded enc s row).2.rows = w.contents := by
  unfold switchPartitionIfNeeded contents
  cases h : w.currentWriter with
  | none => rfl
  | some writer =>
    dsimp only
    split
    · rfl
    · rw [rowsOf_append, rowsOf_finish, append_nil]
      rfl

variable {enc s}

theorem contents_write (w : DeltaWriter) (row : Values) (flush : Bool) :
    (w.write enc s row flush).contents = w.contents ++ [row] := by
  rw [← contents_switch enc s w row]
  unfold write
  cases flush with
  | false => simp [contents]
  | true => simp [contents, rowsOf_append, rowsOf_finish]

theorem rows_run (input : List (Values × Bool)) :
    rowsOf (run enc s input) = input.map Prod.fst := by
  have hfold : ∀ w : DeltaWriter,
      (input.foldl (fun w r => w.write enc s r.1 r.2) w).contents =
        w.contents ++ input.map Prod.fst := by
    induction input with
    | nil => simp
    | cons r input ih =>
      intro w
      rw [foldl_cons, ih, contents_write, append_assoc]
      rfl
  rw [run, rowsOf_close, hfold]
  rfl

/-! ### Their partitions -/

/-- All rows of a file have the path of the row that it was opened for. -/
def Uniform (enc : PartitionEncoding) (s : TableSchema) (w : PartitionWriter) : Prop :=
  ∀ row ∈ w.rows, s.hivePartitionSegments enc row = s.hivePartitionSegments enc w.first

/-- A file that is written has rows, and they are of one path. -/
structure Closed (enc : PartitionEncoding) (s : TableSchema) (w : PartitionWriter) : Prop where
  uniform : Uniform enc s w
  rows_ne_nil : w.rows ≠ []

/-- The open file is the one of the current path. -/
structure Inv (enc : PartitionEncoding) (s : TableSchema) (w : DeltaWriter) : Prop where
  completed : ∀ writer ∈ w.completed, Closed enc s writer
  current : ∀ writer, w.currentWriter = some writer →
    Uniform enc s writer ∧ s.hivePartitionSegments enc writer.first = w.currentPartitionKey

theorem uniform_nil (first : Values) : Uniform enc s { first, rows := [] } := by
  intro row hrow
  cases hrow

theorem closed_of_mem_finish {w writer : PartitionWriter} (h : Uniform enc s w)
    (hmem : writer ∈ finish w) : Closed enc s writer := by
  unfold finish at hmem
  split at hmem
  next => cases hmem
  next hrows =>
    rw [mem_singleton.mp hmem]
    exact ⟨h, by simpa using hrows⟩

theorem closed_append_finish {l : List PartitionWriter} {w : PartitionWriter}
    (hl : ∀ writer ∈ l, Closed enc s writer) (hw : Uniform enc s w) :
    ∀ writer ∈ l ++ finish w, Closed enc s writer :=
  forall_mem_append.mpr ⟨hl, fun _ h => closed_of_mem_finish hw h⟩

section

variable {w : DeltaWriter} (h : w.Inv enc s)
include h

/-- After the switch the open file is one for the path of the row. -/
theorem Inv.switch (row : Values) :
    (∀ writer ∈ (w.switchPartitionIfNeeded enc s row).1.completed, Closed enc s writer) ∧
      Uniform enc s (w.switchPartitionIfNeeded enc s row).2 ∧
      s.hivePartitionSegments enc (w.switchPartitionIfNeeded enc s row).2.first =
        s.hivePartitionSegments enc row ∧
      (w.switchPartitionIfNeeded enc s row).1.currentPartitionKey =
        s.hivePartitionSegments enc row := by
  unfold switchPartitionIfNeeded
  cases hw : w.currentWriter with
  | none => exact ⟨h.completed, uniform_nil row, rfl, rfl⟩
  | some writer =>
    obtain ⟨huniform, hkey⟩ := h.current writer hw
    dsimp only
    split
    next heq => exact ⟨h.completed, huniform, hkey.trans heq, heq⟩
    next => exact ⟨closed_append_finish h.completed huniform, uniform_nil row, rfl, rfl⟩

theorem Inv.write (row : Values) (flush : Bool) :
    (w.write enc s row flush).Inv enc s := by
  obtain ⟨hcompleted, huniform, hfirst, hkey⟩ := h.switch row
  have hrow : Uniform enc s
      { first := (w.switchPartitionIfNeeded enc s row).2.first
        rows := (w.switchPartitionIfNeeded enc s row).2.rows ++ [row] } := by
    refine forall_mem_append.mpr ⟨huniform, ?_⟩
    rw [forall_mem_singleton, hfirst]
  cases flush with
  | false =>
    refine ⟨hcompleted, fun writer hw => ?_⟩
    cases hw
    exact ⟨hrow, hfirst.trans hkey.symm⟩
  | true =>
    refine ⟨closed_append_finish hcompleted hrow, fun writer hw => ?_⟩
    cases hw
    exact ⟨uniform_nil _, hfirst.trans hkey.symm⟩

theorem Inv.close :
    ∀ writer ∈ w.close, Closed enc s writer := by
  unfold DeltaWriter.close
  cases hw : w.currentWriter with
  | none => exact h.completed
  | some writer => exact closed_append_finish h.completed (h.current writer hw).1

end

theorem closed_run {input : List (Values × Bool)} :
    ∀ writer ∈ run enc s input, Closed enc s writer := by
  refine Inv.close (List.foldlRecOn input _ ⟨by simp, by simp⟩ ?_)
  exact fun w hw r _ => hw.write r.1 r.2

theorem Closed.partitionOf_eq {writer : PartitionWriter} (h : Closed enc s writer) {row : Values}
    (hrow : row ∈ writer.rows) : s.partitionOf enc row = s.partitionOf enc writer.first :=
  s.partitionOf_eq_of_segments enc (h.uniform row hrow)

end DeltaWriter

/-! ### Written files -/

namespace TableSchema

variable (s : TableSchema)

/-- The file of a partition writer; its name, size and statistics are the caller's. -/
def toFile (add : Add) (stats : List (StatsField × Scalar)) (w : PartitionWriter) : DataFile where
  add := add
  partitionValues := s.storedPartition enc w.first
  stats := stats
  rows := w.rows.map s.storedRow

theorem lookup_map_physicalName {α : Type} {l : List Field} (g : Field → α)
    (hl : ∀ a ∈ l, ∀ b ∈ l, a.physicalName = b.physicalName → a = b) {field : Field}
    (hfield : field ∈ l) :
    (l.map fun field => (field.physicalName, g field)).lookup field.physicalName =
      some (g field) := by
  induction l with
  | nil => cases hfield
  | cons a l ih =>
    rw [map_cons, lookup_cons]
    by_cases h : field.physicalName = a.physicalName
    · rw [hl field hfield a (mem_cons_self ..) h]
      simp
    · rw [beq_false_of_ne h]
      refine ih (fun b hb c hc => hl b (mem_cons_of_mem _ hb) c (mem_cons_of_mem _ hc)) ?_
      rcases mem_cons.mp hfield with rfl | hmem
      · exact absurd rfl h
      · exact hmem

theorem mem_fields_of_mem_partitionFields {field : Field} (h : field ∈ s.partitionFields) :
    field ∈ s.fields := by
  obtain ⟨name, -, hname⟩ := mem_filterMap.mp h
  exact mem_of_find?_eq_some hname

theorem partitionText_toFile {s : TableSchema} (hs : (s.fields.map Field.physicalName).Nodup)
    (add : Add) (stats : List (StatsField × Scalar)) (w : PartitionWriter) {field : Field}
    (hfield : field ∈ s.partitionFields) :
    (s.toFile enc add stats w).partitionText field = textOf enc w.first field := by
  have hget : (s.storedPartition enc w.first).lookup field.physicalName =
      some (textOf enc w.first field) := by
    refine lookup_map_physicalName _ (fun a ha b hb => ?_) hfield
    exact inj_on_of_nodup_map hs (s.mem_fields_of_mem_partitionFields ha)
      (s.mem_fields_of_mem_partitionFields hb)
  rw [DataFile.partitionText, toFile, hget]
  rfl

theorem partitionOfFile_toFile {s : TableSchema} (hs : (s.fields.map Field.physicalName).Nodup)
    (add : Add) (stats : List (StatsField × Scalar)) (w : PartitionWriter) :
    s.partitionOfFile (s.toFile enc add stats w) = s.partitionOf enc w.first :=
  map_congr_left fun _ hfield => by rw [partitionText_toFile enc hs add stats w hfield]

end TableSchema

end Zelox.Delta
