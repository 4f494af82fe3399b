import Zelox.Lib.Int64
import Zelox.Lib.Lists

/-!
# Flow events

A streaming operator reads and writes Arrow record batches over a flow-event
schema: the first column `_marker` holds an encoded `FlowMarker` or null, and the
other columns are valid only where the marker is null.  A batch is modelled by
its `_marker` column and by its other cells row by row; a valid marker cell
stands for what `FlowMarker::decode` makes of its bytes.  The encoder writes a
marker as a batch of exactly one row, and `RecordBatch` carries that.
-/

namespace Zelox

open List

/-! ## Markers -/

/-- Seconds of `DateTime::<Utc>::MIN_UTC` and `MAX_UTC`. -/
def minUtcSecs : Int := -8334601228800

def maxUtcSecs : Int := 8210266876799

/-- `chrono::DateTime<Utc>`: nanoseconds since the epoch, inside chrono's range. -/
structure DateTime where
  nanos : Int
  lo : minUtcSecs * 1000000000 ≤ nanos
  hi : nanos < (maxUtcSecs + 1) * 1000000000
deriving DecidableEq

namespace DateTime

/-- Whole microseconds since the epoch, rounded down. -/
def timestampMicros (t : DateTime) : Int64 := Int64.ofInt (t.nanos / 1000)

/-- `None` outside chrono's range. -/
def fromTimestampMicros (micros : Int64) : Option DateTime :=
  if h : minUtcSecs * 1000000000 ≤ micros.toInt * 1000 ∧
      micros.toInt * 1000 < (maxUtcSecs + 1) * 1000000000 then
    some ⟨micros.toInt * 1000, h.1, h.2⟩
  else none

theorem toInt_timestampMicros (t : DateTime) : t.timestampMicros.toInt = t.nanos / 1000 := by
  have h1 := t.lo
  have h2 := t.hi
  unfold minUtcSecs at h1
  unfold maxUtcSecs at h2
  exact Int64.toInt_ofInt_of_le (by omega) (by omega)

/-- Timestamps stay clear of the ends of the 64-bit range. -/
theorem minValue_lt_timestampMicros (t : DateTime) : Int64.minValue < t.timestampMicros := by
  have h1 := t.lo
  unfold minUtcSecs at h1
  rw [Int64.lt_iff_toInt_lt, toInt_timestampMicros, Int64.toInt_minValue_eq]
  omega

theorem nanos_of_fromTimestampMicros (micros : Int64) (u : DateTime)
    (h : fromTimestampMicros micros = some u) : u.nanos = micros.toInt * 1000 := by
  unfold fromTimestampMicros at h
  split at h
  · cases h; rfl
  · cases h

end DateTime

/-- `FlowMarker`; checkpoint ids and latency ids are counters. -/
inductive FlowMarker where
  | latencyTracker (source : String) (id : Nat) (timestamp : DateTime)
  | watermark (source : String) (timestamp : DateTime)
  | checkpoint (id : Nat)
  | endOfData
  | idle (source : String)
deriving DecidableEq

/-! ## Timestamps -/

/-- The precision of a timestamp column. -/
inductive TimeUnit where
  | second
  | millisecond
  | microsecond
  | nanosecond
deriving DecidableEq

/-- A raw timestamp in microseconds. -/
def readMicros : TimeUnit → Int64 → Int64
  | .second, v => v.saturatingMul 1000000
  | .millisecond, v => v.saturatingMul 1000
  | .microsecond, v => v
  | .nanosecond, v => v / 1000

/-! ## Decoded events -/

/-- A decoded flow event; a data batch has a retraction flag per row. -/
inductive FlowEvent (Row : Type) where
  | data (batch : List Row) (retracted : List Bool)
  | marker (m : FlowMarker)
deriving DecidableEq

/-- The epoch of a checkpoint barrier. -/
def FlowEvent.barrier {Row : Type} : FlowEvent Row → Option Nat
  | .marker (.checkpoint id) => some id
  | _ => none

theorem FlowEvent.barrier_eq_some {Row : Type} {ev : FlowEvent Row} {id : Nat} :
    ev.barrier = some id ↔ ev = .marker (.checkpoint id) := by
  cases ev with
  | data batch flags => simp [FlowEvent.barrier]
  | marker m => cases m <;> simp [FlowEvent.barrier]

/-! ## Encoded batches -/

/-- An encoded flow-event batch whose rows hold cells `α` beside the marker. -/
structure RecordBatch (α : Type) where
  marker : List (Option (Except String FlowMarker))
  data : List α
  len : marker.length = data.length
  /-- a batch with a marker has one row -/
  single : (∃ c, some c ∈ marker) → marker.length = 1
deriving DecidableEq

/-- What a receiver or a stream hands over: a batch or an error. -/
abbrev Item (α : Type) := Except String (RecordBatch α)

namespace RecordBatch

variable {α : Type}

/-- The first valid `_marker` cell, decoded. -/
def firstMarker (b : RecordBatch α) : Option (Except String FlowMarker) := b.marker.findSome? id

/-- No marker in any row. -/
def isData (b : RecordBatch α) : Bool := b.firstMarker.isNone

def checkpointId (b : RecordBatch α) : Option Nat :=
  match b.firstMarker with
  | some (.ok (.checkpoint id)) => some id
  | _ => none

def watermarkTime (b : RecordBatch α) : Option DateTime :=
  match b.firstMarker with
  | some (.ok (.watermark _ ts)) => some ts
  | _ => none

def isEndOfData (b : RecordBatch α) : Bool := b.firstMarker = some (.ok .endOfData)

/-- What the encoder makes of a data batch: no marker in any row. -/
def encodeData (rows : List α) : RecordBatch α :=
  ⟨rows.map fun _ => none, rows, by simp, by simp⟩

/-- What the encoder makes of a marker: one row, with placeholder cells. -/
def encodeMarker (m : FlowMarker) (cell : α) : RecordBatch α :=
  ⟨[some (.ok m)], [cell], rfl, by simp⟩

/-- The template with the marker column replaced; `try_new` refuses columns of different lengths. -/
def rewriteMarker (template : RecordBatch α) (m : FlowMarker) : Item α :=
  if h : template.data.length = 1 then
    .ok ⟨[some (.ok m)], template.data, by simp [h], by simp⟩
  else .error "all columns in a record batch must have the same length"

theorem firstMarker_of_rewriteMarker (template b : RecordBatch α) (m : FlowMarker)
    (h : rewriteMarker template m = .ok b) : b.firstMarker = some (.ok m) := by
  unfold rewriteMarker at h
  split at h
  · cases h; rfl
  · cases h

end RecordBatch

/-! ## Streams of batches -/

namespace Item

variable {α : Type}

def isData : Item α → Bool
  | .ok b => b.isData
  | .error _ => false

def checkpointId : Item α → Option Nat
  | .ok b => b.checkpointId
  | .error _ => none

def watermarkTime : Item α → Option DateTime
  | .ok b => b.watermarkTime
  | .error _ => none

def isEndOfData : Item α → Bool
  | .ok b => b.isEndOfData
  | .error _ => false

def isError : Item α → Bool
  | .ok _ => false
  | .error _ => true

/-- The event times of the rows of a data batch, in nanoseconds. -/
def eventTimes (eventTime : α → Option Int) : Item α → List Int
  | .ok b => if b.isData then b.data.filterMap eventTime else []
  | .error _ => []

end Item

section streams

variable {α : Type}

/-- `y` may follow `x`: if `x` is a watermark, no row of `y` is at or below it. -/
def OnTime (eventTime : α → Option Int) (x y : Item α) : Prop :=
  ∀ w, Item.watermarkTime x = some w → ∀ t ∈ Item.eventTimes eventTime y, w.nanos < t

instance (eventTime : α → Option Int) (x y : Item α) : Decidable (OnTime eventTime x y) :=
  inferInstanceAs
    (Decidable (∀ w ∈ Item.watermarkTime x, ∀ t ∈ Item.eventTimes eventTime y, w.nanos < t))

/-- The checkpoint ids of a stream, in order. -/
def epochs (c : List (Item α)) : List Nat := c.filterMap Item.checkpointId

def dataItems (c : List (Item α)) : List (Item α) := c.filter Item.isData

@[simp] theorem epochs_append (c d : List (Item α)) : epochs (c ++ d) = epochs c ++ epochs d :=
  filterMap_append

@[simp] theorem dataItems_append (c d : List (Item α)) :
    dataItems (c ++ d) = dataItems c ++ dataItems d :=
  filter_append ..

theorem mem_epochs (c : List (Item α)) (e : Nat) :
    e ∈ epochs c ↔ ∃ x ∈ c, Item.checkpointId x = some e :=
  mem_filterMap

/-- The data of a stream ahead of its `Checkpoint{e}`. -/
def dataBefore (e : Nat) (c : List (Item α)) : List (Item α) :=
  dataItems (c.takeWhile fun x => Item.checkpointId x ≠ some e)

theorem dataBefore_of_not_mem (e : Nat) (p r : List (Item α)) (h : e ∉ epochs p) :
    dataBefore e (p ++ r) = dataItems p ++ dataBefore e r := by
  unfold dataBefore
  rw [takeWhile_append_of_pos, dataItems_append]
  intro x hx
  rw [decide_eq_true_eq]
  exact fun he => h ((mem_epochs p e).mpr ⟨x, hx, he⟩)

end streams

/-- A yield of a merge, with the input it was passed through from (`none`: the merge's own marker).
-/
structure Yield (n : Nat) (α : Type) where
  src : Option (Fin n)
  item : Item α
deriving DecidableEq

/-- The data batches passed through from input `j`, in order. -/
def dataFrom {n : Nat} {α : Type} (j : Fin n) (out : List (Yield n α)) : List (Item α) :=
  dataItems ((out.filter fun y => y.src = some j).map (·.item))

section yields

variable {n : Nat} {α : Type}

@[simp] theorem dataFrom_append (j : Fin n) (o o' : List (Yield n α)) :
    dataFrom j (o ++ o') = dataFrom j o ++ dataFrom j o' := by
  simp [dataFrom, filter_append]

/-- A merge's own markers are nobody's data. -/
theorem dataFrom_eq_nil (j : Fin n) (ys : List (Yield n α))
    (h : ∀ y ∈ ys, y.src = some j → Item.isData y.item = false) : dataFrom j ys = [] := by
  unfold dataFrom dataItems
  rw [filter_eq_nil_iff]
  intro x hx
  obtain ⟨y, hy, rfl⟩ := mem_map.mp hx
  rw [mem_filter, decide_eq_true_eq] at hy
  simp [h y hy.1 hy.2]

end yields

end Zelox
