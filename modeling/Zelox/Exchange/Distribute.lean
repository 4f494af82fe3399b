import Zelox.Event
import Zelox.KeyGroup

/-!
# The sending side of the keyed exchange

`distribute` reads its input once.  A marker batch goes to every output; the rows
of a data batch go to the instances that own their key groups, one batch for each
owner with rows in it.  An input error is sent to output 0 and ends the task.
The consumers are assumed to stay connected.
-/

namespace Zelox.Exchange

open StateIo List

variable {α K : Type}

/-- The output a row is routed to. -/
def route (hash : K → UInt64) (n : Nat) (k : K) : Nat :=
  keyGroupOwner (keyGroup (hash k) defaultKeyGroups) n defaultKeyGroups

/-- The batch taken for one owner; an owner without rows gets none. -/
def ownerBatch (owner : Nat) (rows : List α) : Option (Nat × Item α) :=
  if rows.isEmpty then none else some (owner, .ok (RecordBatch.encodeData rows))

/-- `distribute`: the sends in order, each with the index of its sender. -/
def distribute (hash : K → UInt64) (hashKeys : α → K) (n : Nat) :
    List (Item α) → List (Nat × Item α)
  | [] => []
  | .error e :: _ => [(0, .error e)]
  | .ok batch :: input =>
    if batch.isData then
      ((List.range n).filterMap fun owner =>
        ownerBatch owner (batch.data.filter fun row => route hash n (hashKeys row) = owner)) ++
      distribute hash hashKeys n input
    else (List.range n).map (fun tx => (tx, .ok batch)) ++ distribute hash hashKeys n input

/-- The rows of the data batches up to the first error. -/
def inputRows : List (Item α) → List α
  | [] => []
  | .error _ :: _ => []
  | .ok batch :: input => (if batch.isData then batch.data else []) ++ inputRows input

/-- The rows in the data batches of a channel. -/
def dataRows (items : List (Item α)) : List α :=
  items.flatMap fun
    | .ok b => if b.isData then b.data else []
    | .error _ => []

/-- What output `i` receives. -/
def sentTo (i : Nat) (sends : List (Nat × Item α)) : List (Item α) :=
  (sends.filter fun s => s.1 = i).map (·.2)

theorem dataRows_append (xs ys : List (Item α)) :
    dataRows (xs ++ ys) = dataRows xs ++ dataRows ys := flatMap_append

theorem sentTo_append (i : Nat) (xs ys : List (Nat × Item α)) :
    sentTo i (xs ++ ys) = sentTo i xs ++ sentTo i ys := by
  simp [sentTo, filter_append]

theorem isData_encodeData (rows : List α) : (RecordBatch.encodeData rows).isData = true := by
  unfold RecordBatch.isData RecordBatch.firstMarker RecordBatch.encodeData
  rw [Option.isNone_iff_eq_none, findSome?_eq_none_iff]
  intro c hc
  obtain ⟨_, _, rfl⟩ := mem_map.mp hc
  rfl

theorem dataRows_marker (i n : Nat) (b : RecordBatch α) (hb : b.isData = false) :
    dataRows (sentTo i ((List.range n).map fun tx => (tx, Except.ok b))) = [] := by
  unfold dataRows
  rw [flatMap_eq_nil_iff]
  intro x hx
  obtain ⟨s, hs, rfl⟩ := mem_map.mp hx
  obtain ⟨tx, -, rfl⟩ := mem_map.mp (mem_filter.mp hs).1
  simp [hb]

theorem dataRows_ownerBatch (i owner : Nat) (rows : List α) :
    dataRows (sentTo i (ownerBatch owner rows).toList) = if owner = i then rows else [] := by
  unfold ownerBatch
  cases h : rows.isEmpty with
  | true =>
    rw [List.isEmpty_iff] at h
    simp [sentTo, dataRows, h]
  | false =>
    have hdata : (RecordBatch.encodeData rows).data = rows := rfl
    by_cases ho : owner = i
    · simp [sentTo, dataRows, isData_encodeData, hdata, ho]
    · simp [sentTo, dataRows, ho]

theorem dataRows_split (f : Nat → List α) (i n : Nat) :
    dataRows (sentTo i ((List.range n).filterMap fun owner => ownerBatch owner (f owner))) =
      if i < n then f i else [] := by
  induction n with
  | zero => rfl
  | succ n ih =>
    have hlast : ([n].filterMap fun owner => ownerBatch owner (f owner)) =
        (ownerBatch n (f n)).toList := by
      cases h : ownerBatch n (f n) <;> simp [h]
    rw [range_succ, filterMap_append, sentTo_append, dataRows_append, ih, hlast,
      dataRows_ownerBatch]
    by_cases hlt : i < n
    · rw [if_pos hlt, if_neg (by omega), if_pos (by omega), append_nil]
    · by_cases heq : n = i
      · rw [if_neg hlt, if_pos heq, if_pos (by omega), heq, nil_append]
      · rw [if_neg hlt, if_neg heq, if_neg (by omega), append_nil]

/-- Data batches are split by owner, markers go to all: an output receives its rows, in order. -/
theorem dataRows_loop {loop : List (Item α) → List (Nat × Item α)} {owner : α → Nat} {n i : Nat}
    (hi : i < n) (hnil : loop [] = [])
    (herror : ∀ e input, dataRows (sentTo i (loop (.error e :: input))) = [])
    (hok : ∀ batch input, loop (.ok batch :: input) =
      if batch.isData then
        ((List.range n).filterMap fun tx =>
          ownerBatch tx (batch.data.filter fun row => owner row = tx)) ++ loop input
      else (List.range n).map (fun tx => (tx, .ok batch)) ++ loop input)
    (input : List (Item α)) :
    dataRows (sentTo i (loop input)) = (inputRows input).filter fun row => owner row = i := by
  induction input with
  | nil =>
    rw [hnil]
    rfl
  | cons item input ih =>
    cases item with
    | error e => exact herror e input
    | ok batch =>
      rw [hok, inputRows, filter_append, ← ih]
      cases hb : batch.isData with
      | true =>
        rw [if_pos rfl, if_pos rfl, sentTo_append, dataRows_append,
          dataRows_split fun tx => batch.data.filter fun row => owner row = tx, if_pos hi]
      | false =>
        rw [if_neg (by decide), if_neg (by decide), sentTo_append, dataRows_append,
          dataRows_marker i n batch hb, filter_nil]

theorem dataRows_distribute (hash : K → UInt64) (hashKeys : α → K) (n i : Nat) (hi : i < n)
    (input : List (Item α)) :
    dataRows (sentTo i (distribute hash hashKeys n input)) =
      (inputRows input).filter fun row => route hash n (hashKeys row) = i := by
  refine dataRows_loop hi rfl (fun e input => ?_) (fun _ _ => rfl) input
  show dataRows (sentTo i [(0, Except.error e)]) = []
  by_cases h0 : 0 = i
  · simp [sentTo, dataRows, h0]
  · simp [sentTo, dataRows, h0]

end Zelox.Exchange
