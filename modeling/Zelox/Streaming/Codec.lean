import Zelox.Event

/-!
# The codec of flow events

`EncodedFlowEventStream` writes flow events as record batches with two columns ahead of those of
the data, `_marker` and `_retracted`; a marker is a row of its own whose other cells are nulls or
placeholders.  `DecodedMultiFlowEventStream` cuts a batch at its marker rows again.

On the way the batches may be concatenated and cut at any row.  The events survive that
(`roundTrips_iff`) if the data has a column, for otherwise the decoder builds a batch without
columns and without a row count, and if with markers the placeholder of every column that is not
nullable has the type of the column, which is not so for decimals.

Beyond their types, cells are not looked at: a row of the data is any value, and one of them is the
row of placeholders.  Types that Arrow has no arrays for are left out.
-/

namespace Zelox.Streaming

open List

/-! ## Types and their placeholders -/

/-- The types of which every array has exactly the type that was asked for. -/
inductive PlainType where
  | null | boolean
  | int8 | int16 | int32 | int64 | uint8 | uint16 | uint32 | uint64
  | float16 | float32 | float64
  | timestamp (unit : TimeUnit) (tz : Option String)
  | date32 | date64
  | time32Second | time32Millisecond | time64Microsecond | time64Nanosecond
  | duration (unit : TimeUnit)
  | intervalYearMonth | intervalDayTime | intervalMonthDayNano
  | binary | fixedSizeBinary (size : Nat) | largeBinary | binaryView
  | utf8 | largeUtf8 | utf8View
deriving DecidableEq

inductive DecimalWidth where
  | decimal32 | decimal64 | decimal128 | decimal256
deriving DecidableEq

/-- Precision and scale of the `DEFAULT_TYPE` of a width. -/
def DecimalWidth.default : DecimalWidth → Nat × Int
  | .decimal32 => (9, 2)
  | .decimal64 => (18, 6)
  | .decimal128 => (38, 10)
  | .decimal256 => (76, 10)

inductive ListLayout where
  | list | listView | largeList | largeListView
deriving DecidableEq

inductive DictionaryKey where
  | int8 | int16 | int32 | int64 | uint8 | uint16 | uint32 | uint64
deriving DecidableEq

inductive RunEndType where
  | int16 | int32 | int64
deriving DecidableEq

structure RunEnds where
  name : String
  type : RunEndType
  nullable : Bool
deriving DecidableEq

mutual

inductive DataType where
  | plain (type : PlainType)
  | decimal (width : DecimalWidth) (precision : Nat) (scale : Int)
  | list (layout : ListLayout) (item : Field)
  | fixedSizeList (item : Field) (size : Nat)
  | struct (fields : Fields)
  | union (dense : Bool) (fields : Fields)
  | dictionary (key : DictionaryKey) (value : DataType)
  | map (entries : Field) (sorted : Bool)
  | runEndEncoded (runEnds : RunEnds) (values : Field)
deriving DecidableEq

inductive Field where
  | mk (name : String) (type : DataType) (nullable : Bool)
deriving DecidableEq

inductive Fields where
  | nil
  | cons (field : Field) (rest : Fields)
deriving DecidableEq

end

section

-- whether Arrow refuses a union with children of another type
variable (refuses : Bool)

mutual

/-- `placeholder_array`: the type of the array, if one can be built.  A decimal array gets the
default precision and scale, a run-end encoded one fixed field names, and Arrow refuses children of
another type. -/
def placeholderArray : DataType → Nat → Option DataType
  | .plain type, _ => some (.plain type)
  | .decimal width _ _, _ => some (.decimal width width.default.1 width.default.2)
  | .list layout item, _ => if columnFits item 0 then some (.list layout item) else none
  | .fixedSizeList item size, length =>
    if columnFits item (size * length) then some (.fixedSizeList item size) else none
  | .struct fields, length => if columnsFit fields length then some (.struct fields) else none
  | .union _ .nil, _ => none
  | .union dense (.cons field rest), length =>
    if columnBuilds field length && columnsBuild rest (if dense then 0 else length) &&
        (!refuses || columnFits field length && columnsFit rest (if dense then 0 else length)) then
      some (.union dense (.cons field rest))
    else none
  | .dictionary key value, _ => (placeholderArray value 1).map (.dictionary key)
  | .map entries sorted, _ => if columnFits entries 0 then some (.map entries sorted) else none
  | .runEndEncoded runEnds (.mk _ type nullable), length =>
    if length = 0 then none
    else
      (if nullable then some type else placeholderArray type 1).map fun values =>
        .runEndEncoded ⟨"run_ends", runEnds.type, false⟩ (.mk "values" values true)

/-- There is a column that stands in for the field, nulls or placeholders. -/
def columnBuilds : Field → Nat → Bool
  | .mk _ type nullable, length => nullable || (placeholderArray type length).isSome

def columnsBuild : Fields → Nat → Bool
  | .nil, _ => true
  | .cons field rest, length => columnBuilds field length && columnsBuild rest length

/-- The column has the type of the field. -/
def columnFits : Field → Nat → Bool
  | .mk _ type nullable, length => nullable || placeholderArray type length = some type

def columnsFit : Fields → Nat → Bool
  | .nil, _ => true
  | .cons field rest, length => columnFits field length && columnsFit rest length

end

end

/-! ## Schemas -/

def markerField : Field := .mk "_marker" (.plain .binary) true

def retractedField : Field := .mk "_retracted" (.plain .boolean) false

def isMarkerField : Field → Bool
  | .mk name type nullable => name = "_marker" && type = .plain .binary && nullable

/-- The nullability of the field is ignored. -/
def isRetractedField : Field → Bool
  | .mk name type _ => name = "_retracted" && type = .plain .boolean

def toFlowEventSchema (schema : List Field) : List Field := markerField :: retractedField :: schema

def tryFromFlowEventSchema : List Field → Option (List Field)
  | marker :: retracted :: fields =>
    if isMarkerField marker && isRetractedField retracted then some fields else none
  | _ => none

/-! ## Markers -/

/-- `gen::flow_marker::Kind`, the message that a marker is written as. -/
inductive MarkerMessage where
  | latencyTracker (source : String) (id : Nat) (timestampSecs : Int) (timestampNanos : Nat)
  | watermark (source : String) (timestampSecs : Int) (timestampNanos : Nat)
  | checkpoint (id : Nat)
  | endOfData
  | idle (source : String)
deriving DecidableEq

/-- Whole seconds, rounded down. -/
def timestampSecs (t : DateTime) : Int := t.nanos / 1000000000

def subsecNanos (t : DateTime) : Nat := (t.nanos % 1000000000).toNat

/-- `DateTime::from_timestamp`. -/
def fromTimestamp (secs : Int) (nanos : Nat) : Option DateTime :=
  if h : minUtcSecs ≤ secs ∧ secs ≤ maxUtcSecs ∧ nanos < 1000000000 then
    some ⟨secs * 1000000000 + nanos, by omega, by omega⟩
  else none

def encodeMarker : FlowMarker → MarkerMessage
  | .latencyTracker source id t => .latencyTracker source id (timestampSecs t) (subsecNanos t)
  | .watermark source t => .watermark source (timestampSecs t) (subsecNanos t)
  | .checkpoint id => .checkpoint id
  | .endOfData => .endOfData
  | .idle source => .idle source

def decodeMarker : MarkerMessage → Option FlowMarker
  | .latencyTracker source id secs nanos =>
    (fromTimestamp secs nanos).map (.latencyTracker source id)
  | .watermark source secs nanos => (fromTimestamp secs nanos).map (.watermark source)
  | .checkpoint id => some (.checkpoint id)
  | .endOfData => some .endOfData
  | .idle source => some (.idle source)

theorem fromTimestamp_timestampSecs (t : DateTime) :
    fromTimestamp (timestampSecs t) (subsecNanos t) = some t := by
  have hlo := t.lo
  have hhi := t.hi
  have hrange : minUtcSecs ≤ timestampSecs t ∧ timestampSecs t ≤ maxUtcSecs ∧
      subsecNanos t < 1000000000 := by
    unfold timestampSecs subsecNanos
    omega
  have hnanos : timestampSecs t * 1000000000 + subsecNanos t = t.nanos := by
    unfold timestampSecs subsecNanos
    omega
  unfold fromTimestamp
  rw [dif_pos hrange]
  cases t with
  | mk nanos lo hi => simp only [hnanos]

theorem decodeMarker_encodeMarker (m : FlowMarker) : decodeMarker (encodeMarker m) = some m := by
  cases m with
  | latencyTracker source id t | watermark source t =>
    simp [encodeMarker, decodeMarker, fromTimestamp_timestampSecs]
  | checkpoint id | endOfData | idle source => rfl

namespace Codec

variable {Row : Type}

/-! ## Encoding -/

structure EncodedRow (Row : Type) where
  marker : Option MarkerMessage
  retracted : Bool
  cells : Row
deriving DecidableEq

/-- The cached array of null markers. -/
abbrev NullMarker := Option (List (Option MarkerMessage))

variable (refuses : Bool) (schema : List Field) (placeholder : Row)

/-- `encode_inner`: the cache afterwards, and the batch unless `RecordBatch::try_new` refuses the
columns. -/
def encodeInner (nullMarker : NullMarker) :
    FlowEvent Row → NullMarker × Option (List (EncodedRow Row))
  | .data batch retracted =>
    let n := batch.length
    let cache := if nullMarker.all (·.length < n) then some (List.replicate (max n 8192) none)
      else nullMarker
    let marker := cache.elim (List.replicate n none) (·.take n)
    (cache, if retracted.length = n then
        some ((marker.zip (retracted.zip batch)).map fun row => ⟨row.1, row.2.1, row.2.2⟩)
      else none)
  | .marker m =>
    (nullMarker,
      if schema.all (columnFits refuses · 1) then some [⟨some (encodeMarker m), false, placeholder⟩]
      else none)

def encodeAll : NullMarker → List (FlowEvent Row) → Option (List (List (EncodedRow Row)))
  | _, [] => some []
  | nullMarker, ev :: events => do
    let batch ← (encodeInner refuses schema placeholder nullMarker ev).2
    let rest ← encodeAll (encodeInner refuses schema placeholder nullMarker ev).1 events
    some (batch :: rest)

/-! ## Decoding -/

/-- The events found so far, and where the data rows not yet flushed start. -/
structure Scan (Row : Type) where
  events : List (FlowEvent Row) := []
  startDataIndex : Option Nat := none

/-- `data.slice(start, length)` with its flags. -/
def slice (batch : List (EncodedRow Row)) (start length : Nat) : FlowEvent Row :=
  let rows := (batch.drop start).take length
  .data (rows.map (·.cells)) (rows.map (·.retracted))

/-- The data rows ahead of row `i` that have not been flushed. -/
def flush (batch : List (EncodedRow Row)) (start : Option Nat) (i : Nat) : List (FlowEvent Row) :=
  (start.map fun start => slice batch start (i - start)).toList

/-- The body of the loop, at row `i`. -/
def scanRow (batch : List (EncodedRow Row)) (s : Scan Row) (i : Nat) (row : EncodedRow Row) :
    Option (Scan Row) :=
  match row.marker with
  | some message => (decodeMarker message).map fun m =>
      ⟨s.events ++ flush batch s.startDataIndex i ++ [.marker m], none⟩
  | none => some { s with startDataIndex := some (s.startDataIndex.getD i) }

def scanRows (batch : List (EncodedRow Row)) :
    Scan Row → Nat → List (EncodedRow Row) → Option (Scan Row)
  | s, _, [] => some s
  | s, i, row :: rows => (scanRow batch s i row).bind fun s => scanRows batch s (i + 1) rows

/-- `decode`: without a column there is no data batch, and one of data rows only is not scanned. -/
def decode (batch : List (EncodedRow Row)) : Option (List (FlowEvent Row)) :=
  if schema.isEmpty then none
  else if !batch.isEmpty && batch.all (·.marker.isNone) then
    some [.data (batch.map (·.cells)) (batch.map (·.retracted))]
  else (scanRows batch {} 0 batch).map fun s =>
    s.events ++ flush batch s.startDataIndex batch.length

/-- The events of a stream of batches with the schema `encoded`. -/
def decodeAll (encoded : List Field) (batches : List (List (EncodedRow Row))) :
    Option (List (FlowEvent Row)) := do
  let schema ← tryFromFlowEventSchema encoded
  let events ← batches.mapM (decode schema)
  some events.flatten

/-! ## What has to survive -/

/-- What a sequence of events says: its markers and its data rows with their flags, in order. -/
abbrev Said (Row : Type) := FlowMarker ⊕ Row × Bool

def said : FlowEvent Row → List (Said Row)
  | .data batch retracted => (batch.zip retracted).map .inr
  | .marker m => [.inl m]

/-- The same rows in other batches; of no batches there is nothing to cut. -/
def Resliced (encoded batches : List (List (EncodedRow Row))) : Prop :=
  batches.flatten = encoded.flatten ∧ (encoded = [] → batches = [])

def RoundTrips (events : List (FlowEvent Row)) : Prop :=
  ∃ encoded, encodeAll refuses schema placeholder none events = some encoded ∧
    ∀ batches, Resliced encoded batches →
      ∃ decoded, decodeAll (toFlowEventSchema schema) batches = some decoded ∧
        decoded.flatMap said = events.flatMap said

/-! ## Encoded rows -/

/-- The row that a marker or a data row is written as. -/
def encodeRow : Said Row → EncodedRow Row
  | .inl m => ⟨some (encodeMarker m), false, placeholder⟩
  | .inr row => ⟨none, row.2, row.1⟩

variable {refuses schema placeholder}

def AllNull (nullMarker : NullMarker) : Prop := ∀ column ∈ nullMarker, ∀ m ∈ column, m = none

theorem take_eq_replicate {column : List (Option MarkerMessage)} {n : Nat}
    (hnull : ∀ m ∈ column, m = none) (hlen : n ≤ column.length) :
    column.take n = List.replicate n none := by
  rw [eq_replicate_iff]
  constructor
  · rw [length_take]
    omega
  · intro m hm
    exact hnull m (mem_of_mem_take hm)

theorem map_zip_replicate (batch : List Row) (retracted : List Bool)
    (hlen : retracted.length = batch.length) :
    ((List.replicate batch.length (none : Option MarkerMessage)).zip (retracted.zip batch)).map
        (fun row => EncodedRow.mk row.1 row.2.1 row.2.2) =
      (said (.data batch retracted)).map (encodeRow placeholder) := by
  induction batch generalizing retracted with
  | nil => rfl
  | cons row batch ih =>
    cases retracted with
    | nil => cases hlen
    | cons flag retracted =>
      have hrest := ih retracted (Nat.succ.inj hlen)
      rw [length_cons, replicate_succ, zip_cons_cons, zip_cons_cons, map_cons, hrest]
      rfl

theorem encodeInner_data {nullMarker : NullMarker} (h : AllNull nullMarker) (batch : List Row)
    (retracted : List Bool) (hlen : retracted.length = batch.length) :
    AllNull (encodeInner refuses schema placeholder nullMarker (.data batch retracted)).1 ∧
      (encodeInner refuses schema placeholder nullMarker (.data batch retracted)).2 =
        some ((said (.data batch retracted)).map (encodeRow placeholder)) := by
  -- grown or not, the cache has enough nulls
  have hcache : ∃ column, (if nullMarker.all (·.length < batch.length) then
        some (List.replicate (max batch.length 8192) none) else nullMarker) = some column ∧
      (∀ m ∈ column, m = none) ∧ batch.length ≤ column.length := by
    split
    next =>
      exact ⟨_, rfl, fun m hm => eq_of_mem_replicate hm, by rw [length_replicate]; omega⟩
    next hfull =>
      cases nullMarker with
      | none => exact absurd rfl hfull
      | some column =>
        exact ⟨column, rfl, h column rfl, Nat.le_of_not_lt fun hlt => hfull (decide_eq_true hlt)⟩
  obtain ⟨column, hcolumn, hnull, hlong⟩ := hcache
  unfold encodeInner
  simp only [hcolumn, hlen, if_true, Option.elim_some, take_eq_replicate hnull hlong]
  exact ⟨fun _ h => Option.some.inj h ▸ hnull, congrArg some (map_zip_replicate batch retracted hlen)⟩

/-- Every marker of the events can be written. -/
def MarkersFit (refuses : Bool) (schema : List Field) (events : List (FlowEvent Row)) : Prop :=
  (∃ m, FlowEvent.marker m ∈ events) → ∀ field ∈ schema, columnFits refuses field 1 = true

/-- A retraction flag for each row. -/
def Flagged (events : List (FlowEvent Row)) : Prop :=
  ∀ batch retracted, FlowEvent.data batch retracted ∈ events → retracted.length = batch.length

variable (placeholder) in
theorem encodeAll_eq_some {nullMarker : NullMarker} (h : AllNull nullMarker)
    {events : List (FlowEvent Row)} (hflags : Flagged events)
    (hfit : MarkersFit refuses schema events) :
    ∃ encoded, encodeAll refuses schema placeholder nullMarker events = some encoded ∧
      encoded.flatten = (events.flatMap said).map (encodeRow placeholder) ∧
      encoded.length = events.length := by
  induction events generalizing nullMarker with
  | nil => exact ⟨[], rfl, rfl, rfl⟩
  | cons ev events ih =>
    have hone : AllNull (encodeInner refuses schema placeholder nullMarker ev).1 ∧
        (encodeInner refuses schema placeholder nullMarker ev).2 =
          some ((said ev).map (encodeRow placeholder)) := by
      cases ev with
      | data batch retracted =>
        exact encodeInner_data h batch retracted (hflags batch retracted mem_cons_self)
      | marker m =>
        have hall : schema.all (columnFits refuses · 1) = true :=
          all_eq_true.mpr (hfit ⟨m, mem_cons_self⟩)
        refine ⟨h, ?_⟩
        unfold encodeInner
        simp only [hall, if_true]
        rfl
    obtain ⟨encoded, hencoded, hflat, hlength⟩ := ih hone.1
      (fun batch retracted hmem => hflags batch retracted (mem_cons_of_mem ev hmem))
      (fun ⟨m, hm⟩ => hfit ⟨m, mem_cons_of_mem ev hm⟩)
    refine ⟨(said ev).map (encodeRow placeholder) :: encoded, ?_, ?_, ?_⟩
    · unfold encodeAll
      rw [hone.2, hencoded]
      rfl
    · rw [flatten_cons, hflat, flatMap_cons, map_append]
    · rw [length_cons, length_cons, hlength]

theorem markersFit_of_encodeAll {nullMarker : NullMarker} {events : List (FlowEvent Row)}
    {encoded : List (List (EncodedRow Row))}
    (h : encodeAll refuses schema placeholder nullMarker events = some encoded) :
    MarkersFit refuses schema events := by
  induction events generalizing nullMarker encoded with
  | nil =>
    rintro ⟨m, hm⟩
    cases hm
  | cons ev events ih =>
    obtain ⟨batch, hbatch, h⟩ := Option.bind_eq_some_iff.mp h
    obtain ⟨rest, hrest, -⟩ := Option.bind_eq_some_iff.mp h
    rintro ⟨m, hm⟩
    rcases mem_cons.mp hm with rfl | hm
    · unfold encodeInner at hbatch
      by_cases hall : schema.all (columnFits refuses · 1) = true
      · exact all_eq_true.mp hall
      · simp only [hall, Bool.false_eq_true, if_false] at hbatch
        cases hbatch
    · exact ih hrest ⟨m, hm⟩

/-! ## Scanning a batch -/

theorem said_rows (rows : List (EncodedRow Row)) :
    said (.data (rows.map (·.cells)) (rows.map (·.retracted))) =
      rows.map fun row => .inr (row.cells, row.retracted) := by
  show ((rows.map (·.cells)).zip (rows.map (·.retracted))).map Sum.inr = _
  rw [zip_map', map_map]
  rfl

/-- What has been scanned has been said, counting the data rows that are not flushed yet. -/
structure Scanned (batch : List (EncodedRow Row)) (before : List (Said Row)) (s : Scan Row) : Prop
    where
  found : (s.events ++ flush batch s.startDataIndex before.length).flatMap said = before
  start : ∀ start ∈ s.startDataIndex, start ≤ before.length

theorem said_flush_succ {batch : List (EncodedRow Row)} {start : Option Nat} {i : Nat}
    (hle : start.getD i ≤ i) {row : EncodedRow Row} (hrow : batch[i]? = some row) :
    (flush batch (some (start.getD i)) (i + 1)).flatMap said =
      (flush batch start i).flatMap said ++ [.inr (row.cells, row.retracted)] := by
  have hflush : (flush batch start i).flatMap said =
      said (slice batch (start.getD i) (i - start.getD i)) := by
    cases start with
    | none => simp [flush, slice, said]
    | some start => exact append_nil _
  have hget : (batch.drop (start.getD i))[i - start.getD i]? = some row := by
    rw [getElem?_drop, Nat.add_sub_cancel' hle, hrow]
  rw [hflush]
  show said (slice batch _ (i + 1 - start.getD i)) ++ [] = _
  unfold slice
  rw [append_nil, said_rows, said_rows, Nat.sub_add_comm hle, take_add_one, hget, map_append]
  rfl

theorem Scanned.row {batch : List (EncodedRow Row)} {before : List (Said Row)} {s : Scan Row}
    (h : Scanned batch before s) {x : Said Row}
    (hrow : batch[before.length]? = some (encodeRow placeholder x)) :
    ∃ s', scanRow batch s before.length (encodeRow placeholder x) = some s' ∧
      Scanned batch (before ++ [x]) s' := by
  cases x with
  | inl m =>
    refine ⟨⟨s.events ++ flush batch s.startDataIndex before.length ++ [.marker m], none⟩, ?_,
      ⟨?_, ?_⟩⟩
    · unfold scanRow encodeRow
      simp only [decodeMarker_encodeMarker, Option.map_some]
    · show ((_ ++ [FlowEvent.marker m]) ++ []).flatMap said = _
      rw [append_nil, flatMap_append, h.found]
      rfl
    · intro start hstart
      cases hstart
  | inr row =>
    have hle : s.startDataIndex.getD before.length ≤ before.length := by
      cases hs : s.startDataIndex with
      | none => exact Nat.le_refl _
      | some start => exact h.start start hs
    refine ⟨{ s with startDataIndex := some (s.startDataIndex.getD before.length) }, rfl, ⟨?_, ?_⟩⟩
    · rw [flatMap_append, length_append]
      show _ ++ (flush batch (some _) (before.length + 1)).flatMap said = _
      rw [said_flush_succ hle hrow, ← append_assoc, ← flatMap_append, h.found]
      rfl
    · intro start hstart
      rw [← Option.some.inj hstart, length_append]
      exact Nat.le_succ_of_le hle

theorem Scanned.rows {items : List (Said Row)} (after : List (Said Row)) {before : List (Said Row)}
    {s : Scan Row} (hitems : items = before ++ after)
    (h : Scanned (items.map (encodeRow placeholder)) before s) :
    ∃ s', scanRows (items.map (encodeRow placeholder)) s before.length
        (after.map (encodeRow placeholder)) = some s' ∧
      Scanned (items.map (encodeRow placeholder)) items s' := by
  induction after generalizing before s with
  | nil =>
    rw [append_nil] at hitems
    subst hitems
    exact ⟨s, rfl, h⟩
  | cons x after ih =>
    have hrow : (items.map (encodeRow placeholder))[before.length]? =
        some (encodeRow placeholder x) := by
      rw [hitems, getElem?_map, getElem?_append_right (Nat.le_refl _), Nat.sub_self]
      rfl
    obtain ⟨s₁, hscan, h₁⟩ := h.row hrow
    have hitems₁ : items = (before ++ [x]) ++ after := by rw [hitems, append_assoc]; rfl
    obtain ⟨s', hrest, h'⟩ := ih hitems₁ h₁
    refine ⟨s', ?_, h'⟩
    rw [length_append] at hrest
    show (scanRow _ s before.length (encodeRow placeholder x)).bind _ = some s'
    rw [hscan]
    exact hrest

/-! ## Decoding -/

theorem map_inr_of_isNone {items : List (Said Row)}
    (h : ∀ row ∈ items.map (encodeRow placeholder), row.marker.isNone = true) :
    (items.map (encodeRow placeholder)).map (fun row => (.inr (row.cells, row.retracted) : Said Row))
      = items := by
  induction items with
  | nil => rfl
  | cons x items ih =>
    have hrest := ih fun row hrow => h row (mem_cons_of_mem _ hrow)
    cases x with
    | inl m => cases h (encodeRow placeholder (.inl m)) mem_cons_self
    | inr row => exact congrArg (Sum.inr row :: ·) hrest

variable (placeholder) in
/-- Whatever the rows of a batch say is decoded from it. -/
theorem decode_map_encodeRow (hschema : schema ≠ []) (items : List (Said Row)) :
    ∃ events, decode schema (items.map (encodeRow placeholder)) = some events ∧
      events.flatMap said = items := by
  have hcolumn : schema.isEmpty = false := by
    cases schema with
    | nil => exact absurd rfl hschema
    | cons field fields => rfl
  unfold decode
  rw [hcolumn]
  split
  · contradiction
  · split
    · next hfast =>
      rw [Bool.and_eq_true] at hfast
      refine ⟨_, rfl, ?_⟩
      rw [flatMap_singleton, said_rows]
      exact map_inr_of_isNone (all_eq_true.mp hfast.2)
    · have hinit : Scanned (items.map (encodeRow placeholder)) [] {} := by
        refine ⟨rfl, ?_⟩
        intro start hstart
        cases hstart
      obtain ⟨s, hscan, h⟩ := hinit.rows items (nil_append items).symm
      refine ⟨_, ?_, h.found⟩
      rw [show scanRows _ {} 0 _ = some s from hscan, length_map]
      rfl

theorem mapM_decode (hschema : schema ≠ []) {batches : List (List (EncodedRow Row))}
    {items : List (Said Row)} (h : batches.flatten = items.map (encodeRow placeholder)) :
    ∃ events, batches.mapM (decode schema) = some events ∧ events.flatten.flatMap said = items := by
  induction batches generalizing items with
  | nil =>
    refine ⟨[], rfl, ?_⟩
    exact (map_eq_nil_iff.mp h.symm).symm
  | cons batch batches ih =>
    obtain ⟨first, rest, rfl, hfirst, hrest⟩ := map_eq_append_iff.mp h.symm
    subst hfirst
    obtain ⟨events, hdecode, hsaid⟩ := decode_map_encodeRow placeholder hschema first
    obtain ⟨restEvents, hrestDecode, hrestSaid⟩ := ih hrest.symm
    refine ⟨events :: restEvents, ?_, ?_⟩
    · rw [mapM_cons, hdecode, hrestDecode]
      rfl
    · rw [flatten_cons, flatMap_append, hsaid, hrestSaid]

/-- Events survive encoding, cutting and decoding exactly if the data has a column and the
placeholders that the markers need have its types. -/
theorem roundTrips_iff (refuses : Bool) (schema : List Field) (placeholder : Row)
    (events : List (FlowEvent Row)) (hflags : Flagged events) :
    RoundTrips refuses schema placeholder events ↔
      (schema ≠ [] ∨ events = []) ∧ MarkersFit refuses schema events := by
  have hinit : AllNull none := by
    intro column hcolumn
    cases hcolumn
  constructor
  · rintro ⟨encoded, hencoded, hdecoded⟩
    have hfit := markersFit_of_encodeAll hencoded
    refine ⟨?_, hfit⟩
    by_cases hschema : schema = []
    · right
      subst hschema
      obtain ⟨encoded', hencoded', -, hlength⟩ :=
        encodeAll_eq_some placeholder hinit hflags hfit
      obtain rfl : encoded = encoded' := Option.some.inj (hencoded.symm.trans hencoded')
      obtain ⟨decoded, hdec, -⟩ := hdecoded encoded ⟨rfl, fun h => h⟩
      cases encoded with
      | nil => exact length_eq_zero_iff.mp hlength.symm
      | cons batch batches =>
        cases hdec
    · exact .inl hschema
  · rintro ⟨hcolumn, hfit⟩
    obtain ⟨encoded, hencoded, hflat, hlength⟩ :=
      encodeAll_eq_some placeholder hinit hflags hfit
    refine ⟨encoded, hencoded, ?_⟩
    rintro batches ⟨hsame, hnone⟩
    unfold decodeAll
    rcases hcolumn with hschema | rfl
    · rw [hflat] at hsame
      obtain ⟨decoded, hdec, hsaid⟩ := mapM_decode hschema hsame
      refine ⟨decoded.flatten, ?_, hsaid⟩
      show (batches.mapM (decode schema)).bind (fun events => some events.flatten) = _
      rw [hdec]
      rfl
    · obtain rfl := hnone (length_eq_zero_iff.mp hlength)
      exact ⟨[], rfl, rfl⟩

/-- Rows, two of them in one batch, around a watermark, over a nullable decimal. -/
theorem roundTrips_nullable_decimal :
    let schema : List Field := [.mk "price" (.decimal .decimal128 10 2) true]
    let events : List (FlowEvent Nat) := [.data [1, 2] [false, true],
      .marker (.watermark "w" ⟨1500, by decide, by decide⟩), .data [3] [false]]
    Flagged events ∧ RoundTrips true schema 0 events := by
  have hflags : Flagged [FlowEvent.data [1, 2] [false, true],
      .marker (.watermark "w" ⟨1500, by decide, by decide⟩), .data [3] [false]] := by
    intro batch retracted hmem
    simp only [mem_cons, not_mem_nil, FlowEvent.data.injEq, reduceCtorEq, or_false,
      false_or] at hmem
    rcases hmem with ⟨rfl, rfl⟩ | ⟨rfl, rfl⟩ <;> rfl
  refine ⟨hflags, (roundTrips_iff true _ _ _ hflags).mpr ⟨.inl (cons_ne_nil _ _), ?_⟩⟩
  rintro -
  decide

/-- A decimal column that is not nullable, of other than the default precision and scale. -/
theorem not_roundTrips_decimal :
    ¬ RoundTrips true [.mk "price" (.decimal .decimal128 10 2) false] (0 : Nat)
      [.marker .endOfData] := by
  rintro ⟨encoded, hencoded, -⟩
  cases hencoded

/-- Data without columns can be encoded and not decoded. -/
theorem not_roundTrips_no_columns : ¬ RoundTrips true [] () [.data [()] [false]] := by
  rintro ⟨encoded, hencoded, hdecoded⟩
  obtain ⟨decoded, hdec, -⟩ := hdecoded encoded ⟨rfl, fun h => h⟩
  cases hencoded
  cases hdec

end Codec

end Zelox.Streaming
