import Zelox.Event
import Zelox.Lib.Runs

/-!
# The barrier-aligning N→1 merge

`alignFlowEventStreams` merges `n` flow-event streams into one.  Data passes
through at once; a `Checkpoint` blocks its input until every input that has not
ended is blocked, and then one stashed marker is forwarded; other markers are
forwarded from input 0 only; one `EndOfData` follows when all inputs have ended.

One turn of the source's `loop` is `iterate`.  Its input is the set of inputs that
are ready, so a list of ready sets is a poll order; `poll_fn` takes the first ready
input by index, and waits when none is.  An input whose list is exhausted is closed.
-/

namespace Zelox.BarrierAlign

open List

/-- The first marker's kind. -/
inductive BatchKind where
  | data
  | checkpoint (id : Nat)
  | otherMarker
  | endOfData
deriving DecidableEq

variable {n : Nat} {α : Type}

/-- A marker that does not decode is an error. -/
def classify (b : RecordBatch α) : Except String BatchKind :=
  match b.firstMarker with
  | none => .ok .data
  | some (.error e) => .error e
  | some (.ok (.checkpoint id)) => .ok (.checkpoint id)
  | some (.ok .endOfData) => .ok .endOfData
  | some (.ok _) => .ok .otherMarker

theorem classify_spec (b : RecordBatch α) :
    match classify b with
    | .ok .data => b.firstMarker = none
    | .ok (.checkpoint e) => b.firstMarker = some (.ok (.checkpoint e))
    | .ok .otherMarker => ∃ m, b.firstMarker = some (.ok m) ∧ (∀ e, m ≠ .checkpoint e) ∧ m ≠ .endOfData
    | .ok .endOfData => b.firstMarker = some (.ok .endOfData)
    | .error e => b.firstMarker = some (.error e) := by
  unfold classify
  rcases b.firstMarker with _ | e | m
  · simp
  · simp
  · cases m <;> simp

/-- The variables of `align_flow_event_streams`, with what it has yielded. -/
structure Align (n : Nat) (α : Type) where
  receivers : Fin n → List (Item α)
  reached : Fin n → Option Nat
  ended : Fin n → Bool
  checkpointBatch : Fin n → Option (RecordBatch α)
  endBatch : Option (RecordBatch α)
  out : List (Yield n α)
  returned : Bool

namespace Align

def init (streams : Fin n → List (Item α)) : Align n α where
  receivers := streams
  reached := fun _ => none
  ended := fun _ => false
  checkpointBatch := fun _ => none
  endBatch := none
  out := []
  returned := false

def yield (s : Align n α) (src : Option (Fin n)) (item : Item α) : Align n α :=
  { s with out := s.out ++ [⟨src, item⟩] }

/-- `yield Err(e); return`. -/
def fail (s : Align n α) (src : Option (Fin n)) (e : String) : Align n α :=
  { s.yield src (.error e) with returned := true }

def active (s : Align n α) : List (Fin n) := (List.finRange n).filter (!s.ended ·)

/-- Forward the stashed marker of the first active input `i`, and unblock them all. -/
def sealEpoch (s : Align n α) (i : Fin n) : Align n α :=
  { s with
    out := s.out ++ ((s.checkpointBatch i).map fun b => ⟨none, .ok b⟩).toList
    reached := fun k => if s.ended k then s.reached k else none
    checkpointBatch := fun k => if s.ended k then s.checkpointBatch k else none }

/-- All inputs ended: forward one `EndOfData` if one was seen, and return. -/
def finish (s : Align n α) : Align n α :=
  match s.endBatch with
  | some b => { s.yield none (.ok b) with endBatch := none, returned := true }
  | none => { s with returned := true }

def onBatch (s : Align n α) (i : Fin n) (b : RecordBatch α) : Align n α :=
  match classify b with
  | .ok .data => s.yield (some i) (.ok b)
  | .ok (.checkpoint e) =>
    { s with
      reached := Function.update s.reached i (some e)
      checkpointBatch := Function.update s.checkpointBatch i (some b) }
  -- broadcast watermark and latency markers: only input 0's copy is forwarded
  | .ok .otherMarker => if i.val = 0 then s.yield (some i) (.ok b) else s
  | .ok .endOfData =>
    { s with ended := Function.update s.ended i true, endBatch := some (s.endBatch.getD b) }
  | .error e => s.fail none e

/-- `poll_recv` on input `i` and the match on what it returns. -/
def recv (s : Align n α) (i : Fin n) : Align n α :=
  match s.receivers i with
  | [] => { s with ended := Function.update s.ended i true }
  | item :: rest =>
    match item with
    | .error e => { s with receivers := Function.update s.receivers i rest }.fail (some i) e
    | .ok b => { s with receivers := Function.update s.receivers i rest }.onBatch i b

def pollable (s : Align n α) : List (Fin n) :=
  (List.finRange n).filter fun i => !s.ended i && (s.reached i).isNone

/-- One turn of the loop, with the inputs in `ready` able to answer a poll. -/
def iterate (s : Align n α) (ready : Fin n → Bool) : Align n α :=
  if s.returned then s
  else
    match s.active with
    | [] => s.finish
    | i :: is =>
      if (i :: is).all fun k => (s.reached k).isSome then s.sealEpoch i
      else
        match s.pollable.find? ready with
        | some j => s.recv j
        | none => s

/-! ## What a turn can do -/

theorem mem_active (s : Align n α) (k : Fin n) : k ∈ s.active ↔ s.ended k = false := by
  simp [active]

theorem mem_pollable (s : Align n α) (k : Fin n) :
    k ∈ s.pollable ↔ s.ended k = false ∧ s.reached k = none := by
  simp [pollable]

/-- The turns of the loop: nothing to do, the end, a sealed epoch, or one received item. -/
theorem iterate_cases (s : Align n α) (ready : Fin n → Bool) :
    s.iterate ready = s ∨
    s.returned = false ∧
      (((∀ k, s.ended k = true) ∧ s.iterate ready = s.finish) ∨
      (∃ i, s.ended i = false ∧ (∀ k, s.ended k = false → (s.reached k).isSome = true) ∧
        s.iterate ready = s.sealEpoch i) ∨
      (∃ j, s.pollable.find? ready = some j ∧ s.ended j = false ∧ s.reached j = none ∧
        s.iterate ready = s.recv j)) := by
  by_cases hr : s.returned = true
  · exact .inl (by simp only [iterate, hr, if_true])
  · rw [Bool.not_eq_true] at hr
    cases ha : s.active with
    | nil =>
      refine .inr ⟨hr, .inl ⟨fun k => ?_, by simp only [iterate, hr, ha, Bool.false_eq_true, if_false]⟩⟩
      rw [← Bool.not_eq_false, ← mem_active, ha]
      exact not_mem_nil
    | cons i is =>
      by_cases hb : ((i :: is).all fun k => (s.reached k).isSome) = true
      · refine .inr ⟨hr, .inr (.inl ⟨i, ?_, fun k hk => ?_, ?_⟩)⟩
        · rw [← mem_active, ha]; exact mem_cons_self
        · rw [← mem_active, ha] at hk
          exact all_eq_true.mp hb k hk
        · simp only [iterate, hr, ha, hb, Bool.false_eq_true, if_false, if_true]
      · cases hf : s.pollable.find? ready with
        | some j =>
          have hj := (mem_pollable s j).mp (mem_of_find?_eq_some hf)
          refine .inr ⟨hr, .inr (.inr ⟨j, rfl, hj.1, hj.2, ?_⟩)⟩
          simp only [iterate, hr, ha, if_neg hb, hf, Bool.false_eq_true, if_false]
        | none =>
          exact .inl (by simp only [iterate, hr, ha, if_neg hb, hf, Bool.false_eq_true, if_false])

end Align

/-- The merge after the turns whose ready sets are `sched`. -/
def alignFlowEventStreams (streams : Fin n → List (Item α)) (sched : List (Fin n → Bool)) :
    Align n α :=
  Runs.run Align.iterate (Align.init streams) sched

end Zelox.BarrierAlign
