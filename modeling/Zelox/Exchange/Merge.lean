import Zelox.Event
import Zelox.Lib.Runs

/-!
# The N→M receiver merge of the keyed exchange

`mergeOutputSubchannels` merges the `n` sub-channels of one output partition.
Data passes through; watermarks are merged to the minimum over the channels that
are neither ended nor (in realtime mode) idle; a barrier `Checkpoint{e}` is
released once every channel that has not ended has delivered it; one `EndOfData`
follows when all have ended.

One turn of the source's `loop` is `iterate`.  Its input is the set of receivers
that are ready, so a list of ready sets is a poll order; `poll_fn` takes the first
ready channel by index.  A receiver whose list is exhausted is closed.  When none is
ready the bounded merge waits, and the realtime merge (`idleTimeout`) has an idle tick.
-/

namespace Zelox.Exchange

open List

/-- Marker classification for the receiver merge. -/
inductive Mk where
  | data
  | watermark (micros : Int64)
  | checkpoint (epoch : Nat)
  | idle
  | endOfData
  | other
deriving DecidableEq

variable {n : Nat} {α : Type}

/-- A marker that does not decode counts as `other`. -/
def classifyMk (b : RecordBatch α) : Mk :=
  match b.firstMarker with
  | none => .data
  | some (.ok (.watermark _ ts)) => .watermark ts.timestampMicros
  | some (.ok (.checkpoint id)) => .checkpoint id
  | some (.ok (.idle _)) => .idle
  | some (.ok .endOfData) => .endOfData
  | _ => .other

theorem classifyMk_spec (b : RecordBatch α) :
    match classifyMk b with
    | .data => b.firstMarker = none
    | .watermark ts => ∃ src t, b.firstMarker = some (.ok (.watermark src t)) ∧ ts = t.timestampMicros
    | .checkpoint e => b.firstMarker = some (.ok (.checkpoint e))
    | .idle => ∃ src, b.firstMarker = some (.ok (.idle src))
    | .endOfData => b.firstMarker = some (.ok .endOfData)
    | .other => (∃ e, b.firstMarker = some (.error e)) ∨
        ∃ src id t, b.firstMarker = some (.ok (.latencyTracker src id t)) := by
  unfold classifyMk
  rcases b.firstMarker with _ | e | m
  · simp
  · simp
  · cases m <;> simp

def rewriteCheckpoint (template : RecordBatch α) (id : Nat) : Item α :=
  template.rewriteMarker (.checkpoint id)

def rewriteWatermark (template : RecordBatch α) (micros : Int64) : Item α :=
  match DateTime.fromTimestampMicros micros with
  | none => .error "invalid watermark micros"
  | some ts => template.rewriteMarker (.watermark "merged" ts)

/-- The variables of `merge_output_subchannels`, with what it has yielded. -/
structure Merge (n : Nat) (α : Type) where
  receivers : Fin n → List (Item α)
  wm : Fin n → Option Int64
  ended : Fin n → Bool
  ckpt : Fin n → Option Nat
  lastEmittedCkpt : Option Nat
  ckptTemplate : Option (RecordBatch α)
  idleMarked : Fin n → Bool
  lastEmitted : Option Int64
  endBatch : Option (RecordBatch α)
  wmTemplate : Option (RecordBatch α)
  out : List (Yield n α)
  returned : Bool

namespace Merge

def init (subs : Fin n → List (Item α)) : Merge n α where
  receivers := subs
  wm := fun _ => none
  ended := fun _ => false
  ckpt := fun _ => none
  lastEmittedCkpt := none
  ckptTemplate := none
  idleMarked := fun _ => false
  lastEmitted := none
  endBatch := none
  wmTemplate := none
  out := []
  returned := false

def yield (s : Merge n α) (src : Option (Fin n)) (item : Item α) : Merge n α :=
  { s with out := s.out ++ [⟨src, item⟩] }

/-- `yield Err(e); return`. -/
def fail (s : Merge n α) (src : Option (Fin n)) (e : String) : Merge n α :=
  { s.yield src (.error e) with returned := true }

/-! ## The watermark minimum -/

structure WmScan where
  minActive : Option Int64
  anyActivePending : Bool
  hasActive : Bool
  maxIdle : Option Int64

/-- The loop body of the watermark merge at channel `k`. -/
def scanWm (idleTimeout : Bool) (s : Merge n α) (a : WmScan) (k : Fin n) : WmScan :=
  if s.ended k then a
  else if idleTimeout && s.idleMarked k then
    match s.wm k with
    | some v => { a with maxIdle := some (a.maxIdle.elim v (max · v)) }
    | none => a
  else
    match s.wm k with
    | some v => { a with hasActive := true, minActive := some (a.minActive.elim v (min · v)) }
    | none => { a with hasActive := true, anyActivePending := true }

/-- MIN over the active channels that have reported; when every open channel is idle, MAX over
those. -/
def merged (idleTimeout : Bool) (s : Merge n α) : Option Int64 :=
  let a := (List.finRange n).foldl (scanWm idleTimeout s) ⟨none, false, false, none⟩
  if a.hasActive then (if a.anyActivePending then none else a.minActive) else a.maxIdle

/-- Emit the merged watermark if it strictly advances. -/
def emitWatermark (idleTimeout : Bool) (s : Merge n α) : Merge n α :=
  match s.merged idleTimeout with
  | none => s
  | some mw =>
    if s.lastEmitted.all (· < mw) then
      match s.wmTemplate with
      | none => { s with lastEmitted := some mw }
      | some tmpl =>
        match rewriteWatermark tmpl mw with
        | .ok b => { s with lastEmitted := some mw }.yield none (.ok b)
        | .error e => { s with lastEmitted := some mw }.fail none e
    else s

/-! ## The aligned checkpoint -/

structure CkScan where
  minCk : Option Nat
  hold : Bool
  any : Bool

def scanCk (s : Merge n α) (a : CkScan) (k : Fin n) : CkScan :=
  if s.ended k then a
  else
    match s.ckpt k with
    | some v => { a with any := true, minCk := some (a.minCk.elim v (min · v)) }
    | none => { a with any := true, hold := true }

/-- MIN epoch over the channels that have not ended, held while one of them has
delivered no barrier. -/
def aligned (s : Merge n α) : Option Nat :=
  let a := (List.finRange n).foldl (scanCk s) ⟨none, false, false⟩
  if a.any && !a.hold then a.minCk else none

/-- The body of `for e in start..=a`. -/
def emitCheckpoints (s : Merge n α) : List Nat → Merge n α
  | [] => s
  | e :: es =>
    match s.ckptTemplate with
    | none => s.emitCheckpoints es
    | some tmpl =>
      match rewriteCheckpoint tmpl e with
      | .ok b => (s.yield none (.ok b)).emitCheckpoints es
      | .error err => s.fail none err

/-- One barrier for each newly aligned epoch; the first alignment emits only its
own epoch. -/
def emitAligned (s : Merge n α) : Merge n α :=
  match s.aligned with
  | none => s
  | some a =>
    let start := s.lastEmittedCkpt.elim a (· + 1)
    let s' := s.emitCheckpoints (List.range' start (a + 1 - start))
    if s'.returned then s' else { s' with lastEmittedCkpt := some a }

def recompute (idleTimeout : Bool) (s : Merge n α) : Merge n α :=
  let s' := s.emitWatermark idleTimeout
  if s'.returned then s' else s'.emitAligned

/-! ## One turn of the loop -/

/-- What one received batch changes before the recompute; data and other markers
need none. -/
def onBatch (idleTimeout : Bool) (s : Merge n α) (j : Fin n) (b : RecordBatch α) : Merge n α :=
  match classifyMk b with
  | .data => { s with idleMarked := Function.update s.idleMarked j false }.yield (some j) (.ok b)
  | .watermark ts =>
    { s with
      idleMarked := Function.update s.idleMarked j false
      wm := Function.update s.wm j (some ((s.wm j).elim ts (max · ts)))
      wmTemplate := some b }.recompute idleTimeout
  | .checkpoint e =>
    { s with
      idleMarked := Function.update s.idleMarked j false
      ckpt := Function.update s.ckpt j (some ((s.ckpt j).elim e (max · e)))
      ckptTemplate := some b }.recompute idleTimeout
  | .idle =>
    { s with idleMarked := Function.update s.idleMarked j true }.recompute idleTimeout
  | .endOfData =>
    { s with
      ended := Function.update s.ended j true
      endBatch := some (s.endBatch.getD b) }.recompute idleTimeout
  -- latency markers are broadcast: only sub-channel 0's copy is forwarded
  | .other => if j.val = 0 then s.yield (some j) (.ok b) else s

/-- `poll_recv` on channel `j` and the match on what it returns. -/
def recv (idleTimeout : Bool) (s : Merge n α) (j : Fin n) : Merge n α :=
  match s.receivers j with
  | [] => { s with ended := Function.update s.ended j true }.recompute idleTimeout
  | item :: rest =>
    match item with
    | .error e => { s with receivers := Function.update s.receivers j rest }.fail (some j) e
    | .ok b => { s with receivers := Function.update s.receivers j rest }.onBatch idleTimeout j b

def pollable (s : Merge n α) : List (Fin n) := (List.finRange n).filter (!s.ended ·)

/-- All sub-channels ended: forward one `EndOfData` if one was seen, and return. -/
def finish (s : Merge n α) : Merge n α :=
  match s.endBatch with
  | some b => { s.yield none (.ok b) with endBatch := none, returned := true }
  | none => { s with returned := true }

/-- One turn of the loop, with the channels in `ready` able to answer a poll. -/
def iterate (idleTimeout : Bool) (s : Merge n α) (ready : Fin n → Bool) : Merge n α :=
  if s.returned then s
  else if s.pollable.isEmpty then s.finish
  else
    match s.pollable.find? ready with
    | some j => s.recv idleTimeout j
    | none => if idleTimeout then s.recompute idleTimeout else s

/-! ## What a turn can do -/

theorem emitWatermark_cases (idleTimeout : Bool) (s : Merge n α) :
    s.emitWatermark idleTimeout = s ∨
    ∃ mw, s.merged idleTimeout = some mw ∧ (∀ l, s.lastEmitted = some l → l < mw) ∧
      ((s.wmTemplate = none ∧ s.emitWatermark idleTimeout = { s with lastEmitted := some mw }) ∨
      ∃ tmpl, s.wmTemplate = some tmpl ∧
        ((∃ b, rewriteWatermark tmpl mw = .ok b ∧
          s.emitWatermark idleTimeout = { s with lastEmitted := some mw }.yield none (.ok b)) ∨
        ∃ e, rewriteWatermark tmpl mw = .error e ∧
          s.emitWatermark idleTimeout = { s with lastEmitted := some mw }.fail none e)) := by
  cases hm : s.merged idleTimeout with
  | none => exact .inl (by simp only [emitWatermark, hm])
  | some mw =>
    by_cases hl : s.lastEmitted.all (· < mw) = true
    · refine .inr ⟨mw, rfl, fun l h => ?_, ?_⟩
      · rw [h] at hl
        exact of_decide_eq_true hl
      · rcases Option.eq_none_or_eq_some s.wmTemplate with ht | ⟨tmpl, ht⟩
        · exact .inl ⟨ht, by simp only [emitWatermark, hm, hl, ht, if_true]⟩
        · refine .inr ⟨tmpl, ht, ?_⟩
          cases hr : rewriteWatermark tmpl mw with
          | ok b => exact .inl ⟨b, rfl, by simp only [emitWatermark, hm, hl, ht, hr, if_true]⟩
          | error e => exact .inr ⟨e, rfl, by simp only [emitWatermark, hm, hl, ht, hr, if_true]⟩
    · exact .inl (by simp only [emitWatermark, hm, if_neg hl])

/-- `emitCheckpoints` yields barriers of the given epochs, or one error at which the merge returns.
-/
theorem emitCheckpoints_eq (s : Merge n α) (es : List Nat) :
    ∃ ys r, s.emitCheckpoints es = { s with out := s.out ++ ys, returned := r } ∧
      (s.returned = true → r = true) ∧
      ∀ y ∈ ys, y.src = none ∧
        ((∃ b e, y.item = .ok b ∧ b.firstMarker = some (.ok (.checkpoint e)) ∧ e ∈ es) ∨
          Item.isError y.item = true) := by
  induction es generalizing s with
  | nil => exact ⟨[], s.returned, by simp [emitCheckpoints], id, by simp⟩
  | cons e es ih =>
    rcases Option.eq_none_or_eq_some s.ckptTemplate with ht | ⟨tmpl, ht⟩
    · obtain ⟨ys, r, h1, h2, h3⟩ := ih s
      refine ⟨ys, r, by simp only [emitCheckpoints, ht, h1], h2, fun y hy => ⟨(h3 y hy).1, ?_⟩⟩
      rcases (h3 y hy).2 with ⟨b, e', hb, hm, he⟩ | h
      · exact .inl ⟨b, e', hb, hm, mem_cons_of_mem _ he⟩
      · exact .inr h
    · cases hr : rewriteCheckpoint tmpl e with
      | error err =>
        refine ⟨[⟨none, .error err⟩], true, ?_, fun _ => rfl, by simp [Item.isError]⟩
        simp only [emitCheckpoints, ht, hr, fail, yield]
      | ok b =>
        obtain ⟨ys, r, h1, h2, h3⟩ := ih (s.yield none (.ok b))
        refine ⟨⟨none, .ok b⟩ :: ys, r, ?_, h2, fun y hy => ?_⟩
        · simp only [emitCheckpoints, ht, hr, h1]
          simp only [yield, ht, append_assoc, singleton_append]
        rcases mem_cons.mp hy with rfl | hy
        · have hm := RecordBatch.firstMarker_of_rewriteMarker tmpl b _ hr
          exact ⟨rfl, .inl ⟨b, e, rfl, hm, mem_cons_self⟩⟩
        · refine ⟨(h3 y hy).1, ?_⟩
          rcases (h3 y hy).2 with ⟨b', e', hb, hm, he⟩ | h
          · exact .inl ⟨b', e', hb, hm, mem_cons_of_mem _ he⟩
          · exact .inr h

/-- The turns of the loop: nothing to do, the end, one received item, or a tick. -/
theorem iterate_cases (idleTimeout : Bool) (s : Merge n α) (ready : Fin n → Bool) :
    s.iterate idleTimeout ready = s ∨
    s.returned = false ∧
      ((s.pollable = [] ∧ s.iterate idleTimeout ready = s.finish) ∨
      (∃ j, s.pollable.find? ready = some j ∧ s.ended j = false ∧
        s.iterate idleTimeout ready = s.recv idleTimeout j) ∨
      (idleTimeout = true ∧ s.iterate idleTimeout ready = s.recompute idleTimeout)) := by
  by_cases hr : s.returned = true
  · exact .inl (by simp only [iterate, hr, if_true])
  · rw [Bool.not_eq_true] at hr
    by_cases hp : s.pollable.isEmpty = true
    · refine .inr ⟨hr, .inl ⟨List.isEmpty_iff.mp hp, ?_⟩⟩
      simp only [iterate, hr, hp, Bool.false_eq_true, if_false, if_true]
    · cases hf : s.pollable.find? ready with
      | some j =>
        have he : s.ended j = false := by
          have hj := mem_of_find?_eq_some hf
          simpa [pollable] using hj
        refine .inr ⟨hr, .inr (.inl ⟨j, rfl, he, ?_⟩)⟩
        simp only [iterate, hr, hp, hf, Bool.false_eq_true, if_false]
      | none =>
        cases idleTimeout with
        | false =>
          exact .inl (by simp only [iterate, hr, hp, hf, Bool.false_eq_true, if_false])
        | true =>
          refine .inr ⟨hr, .inr (.inr ⟨rfl, ?_⟩)⟩
          simp only [iterate, hr, hp, hf, Bool.false_eq_true, if_false, if_true]

end Merge

/-- The merge after the turns whose ready sets are `sched`. -/
def mergeOutputSubchannels (idleTimeout : Bool) (subs : Fin n → List (Item α))
    (sched : List (Fin n → Bool)) : Merge n α :=
  Runs.run (Merge.iterate idleTimeout) (Merge.init subs) sched

end Zelox.Exchange
