import Mathlib
import Zelox.Event
import Zelox.Lib.GroupFold
import Zelox.Window.StateIo

/-!
# The window operator

`WindowAccumExec` keeps partial aggregates of the rows it has accepted, some in
memory and some spilled to the checkpoint store, and turns them into output when
a watermark is far enough past the last one that did (a *finalize*).  In append
mode a finalize emits closed windows that were not emitted before; in update mode
it emits a changelog against the last emitted value of each group.  A
`Checkpoint` or an `EndOfData` snapshots the state.

DataFusion's aggregation is a parameter: `Exec` holds what its operators return
on one call, with the laws of a fold by groups over a commutative monoid.  Each
input comes with its own `Exec`, so a statement about all runs is one about every
split of an aggregate's output into record batches.  A merge is drained before the
next input is read, as in the operator's loop.
-/

namespace Zelox.Window

open StateIo GroupFold

/-! ## Data -/

inductive WindowOutputMode where
  | append
  | update
deriving DecidableEq

/-- The group columns of a row: the window struct, of raw timestamps that may be
null, and the grouping key. -/
structure Group (K : Type) where
  start : Option Int64
  stop : Option Int64
  key : K
deriving DecidableEq

instance {K : Type} [DecidableEq K] : LawfulBEq (Group K) := inferInstance

/-- The aggregate expressions: a row's contribution and the finished value. -/
structure Aggregate (V M R : Type) where
  lift : V → M
  evaluate : M → R

/-- Rows as the partial states they amount to one by one. -/
def Aggregate.liftRows {V M R K : Type} (agg : Aggregate V M R) (rows : List (Group K × V)) :
    List (Group K × M) :=
  rows.map fun r => (r.1, agg.lift r.2)

/-- How a `Final` aggregate comes in record batches: the groups in the first one, and whether
nothing yields a batch. -/
structure Split (K : Type) where
  first : Group K → Bool
  blank : Bool

/-- What DataFusion and the store return during one input.  It leads to one merge at most, so
`split` is a given. -/
structure Exec (K : Type) {V M R : Type} [DecidableEq K] [AddCommMonoid M] (agg : Aggregate V M R) where
  partialAgg : List (Group K × V) → List (List (Group K × M))
  partialReduce : List (List (Group K × M)) → List (List (Group K × M))
  finalAgg : List (List (Group K × M)) → List (List (Group K × R))
  split : Split K
  memorySize : List (Group K × M) → Nat
  taken : Nat → List (List (Group K × M)) → Bool
  partial_agree : ∀ rows, Agree (partialAgg rows).flatten (agg.liftRows rows)
  reduce_agree : ∀ bs, Agree (partialReduce bs).flatten bs.flatten
  final_table : ∀ bs, IsTable bs.flatten agg.evaluate (finalAgg bs).flatten
  first_iff : ∀ bs, ∀ g ∈ keys bs.flatten,
    split.first g = true ↔ ∃ b ∈ (finalAgg bs).head?, g ∈ keys b
  blank_iff : ∀ bs, bs.flatten = [] → (split.blank = true ↔ finalAgg bs ≠ [])

/-- One record batch per aggregate, nothing compacted, rows of one size, every chunk taken. -/
def Exec.plain (K : Type) {V M R : Type} [DecidableEq K] [AddCommMonoid M] (agg : Aggregate V M R) :
    Exec K agg where
  partialAgg rows := [agg.liftRows rows]
  partialReduce bs := bs
  finalAgg bs := [(keys bs.flatten).dedup.map fun g => (g, agg.evaluate (total g bs.flatten))]
  split := ⟨fun _ => true, true⟩
  memorySize b := b.length
  taken _ _ := true
  partial_agree rows := by rw [List.flatten_singleton]; exact Agree.refl _
  reduce_agree bs := Agree.refl _
  final_table bs := by
    rw [List.flatten_singleton]
    refine ⟨?_, fun g r => ?_⟩
    · simp only [keys, List.map_map, Function.comp_def, List.map_id']
      exact List.nodup_dedup _
    · simp only [List.mem_map, List.mem_dedup, Prod.mk.injEq]
      constructor
      · rintro ⟨g, hg, rfl, rfl⟩
        exact ⟨hg, rfl⟩
      · rintro ⟨hg, rfl⟩
        exact ⟨g, hg, rfl, rfl⟩
  first_iff bs g hg := by
    simpa [keys, Function.comp_def] using hg
  blank_iff bs h := by simp

/-- The operator's settings; the flags are `ZELOX_COMPLETE_ON_END` and the like. -/
structure Config where
  outputMode : WindowOutputMode
  allowedLateness : Int64
  stateBudgetBytes : Nat
  compactEnabled : Bool
  incCkpt : Bool
  completeOnEnd : Bool
  hasStore : Bool
  unit : TimeUnit
deriving DecidableEq

/-- Re-run the `Final` merge at most once per this much watermark advance. -/
def FINAL_THROTTLE_MICROS : Int64 := 200000

/-- `AccumState`; `lastEmitted` maps a group to the window end and the row emitted last. -/
structure AccumState (K M R : Type) where
  pendingRows : List (List (Group K × M)) := []
  watermarkMicros : Option Int64 := none
  emittedEnds : List Int64 := []
  lastFinalWm : Option Int64 := none
  lastEmitted : Group K → Option (Int64 × (Group K × R)) := fun _ => none
  pendingBytes : Nat := 0
  spilled : List Nat := []
  nextSpill : Nat := 0
  restoreWmFloor : Int64 := Int64.minValue
  epochChunks : List (Nat × List Nat) := []
  gcCandidates : List Nat := []

/-- The operator with its store and all events it has emitted. -/
structure Op (K M R : Type) where
  acc : AccumState K M R
  ck : Store (List (Group K × M))
  out : List (FlowEvent (Group K × R))

variable {K V M R : Type}

/-! ## Window ends -/

def windowEndMicros (unit : TimeUnit) (g : Group K) : Option Int64 := g.stop.map (readMicros unit)

/-- The row mask of `window_emit_mask`. -/
def windowEmitMask (unit : TimeUnit) (wm : Int64) (emitted : List Int64) (floor : Int64)
    (g : Group K) : Bool :=
  (windowEndMicros unit g).any fun e => e ≤ wm && floor < e && !emitted.contains e

def markEmittedEnds {A : Type} (unit : TimeUnit) (batch : List (Group K × A)) (wm : Int64)
    (emitted : List Int64) : List Int64 :=
  (batch.filterMap fun r => windowEndMicros unit r.1).foldl
    (fun s e => if e ≤ wm then s.insert e else s) emitted

def dropLateRows (cfg : Config) (wm : Option Int64) (batch : List (Group K × V)) :
    List (Group K × V) :=
  match wm with
  | none => batch
  | some w => batch.filter fun r =>
      (windowEndMicros cfg.unit r.1).all fun e => w ≤ e.saturatingAdd cfg.allowedLateness

/-- The row mask of `retain_open_window_rows`. -/
def openAt (unit : TimeUnit) (wm : Int64) (g : Group K) : Bool :=
  (windowEndMicros unit g).all fun e => wm < e

def retainOpenWindowRows {A : Type} (unit : TimeUnit) (batches : List (List (Group K × A)))
    (wm : Int64) : List (List (Group K × A)) :=
  (batches.map fun b => b.filter fun r => openAt unit wm r.1).filter fun b => !b.isEmpty

/-! ## Aggregation -/

section Exec

variable [DecidableEq K] [AddCommMonoid M] {agg : Aggregate V M R}

def runPartialAggregate (x : Exec K agg) (batch : List (Group K × V)) :
    List (List (Group K × M)) :=
  (x.partialAgg batch).filter fun b => !b.isEmpty

def compactPartials (x : Exec K agg) (partials : List (List (Group K × M))) :
    List (List (Group K × M)) :=
  if partials.length ≤ 1 then partials
  else (x.partialReduce partials).filter fun b => !b.isEmpty

def memorySizes (x : Exec K agg) (batches : List (List (Group K × M))) : Nat :=
  (batches.map x.memorySize).sum

end Exec

/-- `gather_partials`, and the input order of the `Final` merge. -/
def gatherPartials (cfg : Config) (ck : Store (List (Group K × M))) (acc : AccumState K M R) :
    List (List (Group K × M)) :=
  acc.pendingRows ++ if cfg.hasStore then acc.spilled.flatMap (readSpill ck) else []

/-! ## Restore -/

/-- The state read on the first poll. -/
def restored (cfg : Config) (ck : Store (List (Group K × M))) :
    List (List (Group K × M)) × List Int64 :=
  match committedEpoch ck with
  | some epoch =>
    if cfg.incCkpt then restoreEpochIncremental ck epoch else restoreEpochState ck epoch
  | none => restoreState ck

def restore (cfg : Config) (ck : Store (List (Group K × M))) : AccumState K M R :=
  if cfg.hasStore then
    match (restored cfg ck).2 with
    | [] => { pendingRows := (restored cfg ck).1 }
    | wm :: ends =>
      { pendingRows := (restored cfg ck).1
        watermarkMicros := if wm ≠ Int64.minValue then some wm else none
        emittedEnds := ends
        restoreWmFloor := wm }
  else {}

def start (cfg : Config) (ck : Store (List (Group K × M))) : Op K M R :=
  { acc := restore cfg ck, ck, out := [] }

/-! ## Emitting -/

def retractedFlags (len : Nat) (v : Bool) : List Bool := List.replicate len v

/-- A data event, unless the batch is empty. -/
def pushBatch (out : List (FlowEvent (Group K × R))) (batch : List (Group K × R)) (v : Bool) :
    List (FlowEvent (Group K × R)) :=
  if batch.isEmpty then out else out ++ [.data batch (retractedFlags batch.length v)]

/-- The state of a merge while it is drained: `merge_newly_emitted`, the map of
last emitted rows, the output. -/
structure Merge (K R : Type) where
  newlyEmitted : List Int64
  lastEmitted : Group K → Option (Int64 × (Group K × R))
  out : List (FlowEvent (Group K × R))

/-- The changelog of one batch while its rows are read. -/
structure Changelog (K R : Type) where
  lastEmitted : Group K → Option (Int64 × (Group K × R))
  retracts : List (Group K × R)
  inserts : List (Group K × R)

section Changelog

variable [DecidableEq K] [DecidableEq R]

def Changelog.record (unit : TimeUnit) (c : Changelog K R) (row : Group K × R) : Changelog K R :=
  { c with
    lastEmitted := fun g =>
      if g = row.1 then some ((windowEndMicros unit row.1).getD Int64.maxValue, row)
      else c.lastEmitted g
    inserts := c.inserts ++ [row] }

/-- One row: unchanged rows are skipped, changed ones retract the previous value. -/
def changelogRow (unit : TimeUnit) (c : Changelog K R) (row : Group K × R) : Changelog K R :=
  match c.lastEmitted row.1 with
  | some (_, prev) =>
    if prev = row then c
    else { c with retracts := c.retracts ++ [prev] }.record unit row
  | none => c.record unit row

/-- `emit_changelog` on one output batch. -/
def emitChangelog (cfg : Config) (wm : Int64) (m : Merge K R) (batch : List (Group K × R)) :
    Merge K R :=
  let c := batch.foldl (changelogRow cfg.unit) ⟨m.lastEmitted, [], []⟩
  { m with
    lastEmitted := fun g =>
      (c.lastEmitted g).filter fun v => wm < v.1.saturatingAdd cfg.allowedLateness
    out := pushBatch (pushBatch m.out c.retracts true) c.inserts false }

def consumeMergeBatch (cfg : Config) (acc : AccumState K M R) (wm : Int64) (m : Merge K R)
    (batch : List (Group K × R)) : Merge K R :=
  match cfg.outputMode with
  | .append =>
    { m with
      newlyEmitted := markEmittedEnds cfg.unit batch wm m.newlyEmitted
      out := pushBatch m.out
        (batch.filter fun r => windowEmitMask cfg.unit wm acc.emittedEnds acc.restoreWmFloor r.1)
        false }
  | .update => emitChangelog cfg wm m batch

end Changelog

/-! ## Retained state -/

/-- The state of `rebuild_retained_state` while chunks are absorbed. -/
structure Rebuild (K M : Type) where
  ck : Store (List (Group K × M))
  spilled : List Nat
  nextSpill : Nat
  newPending : List (List (Group K × M))
  newBytes : Nat

section Step

variable [DecidableEq K] [AddCommMonoid M] {agg : Aggregate V M R}

/-- Spill the pending batches to a fresh index when they are over budget. -/
def spillPending (x : Exec K agg) (cfg : Config) (s : Rebuild K M) : Rebuild K M :=
  if cfg.stateBudgetBytes < s.newBytes && !s.newPending.isEmpty && cfg.hasStore then
    match writeSpill (x.taken s.nextSpill s.newPending) s.ck s.nextSpill s.newPending with
    | (ck, true) =>
      { ck
        spilled := s.spilled ++ [s.nextSpill]
        nextSpill := s.nextSpill + 1
        newPending := []
        newBytes := 0 }
    | (_, false) => s
  else s

def absorb (x : Exec K agg) (cfg : Config) (retainWm : Int64) (s : Rebuild K M)
    (chunk : List (List (Group K × M))) : Rebuild K M :=
  let kept := retainOpenWindowRows cfg.unit chunk retainWm
  spillPending x cfg
    { s with newPending := s.newPending ++ kept, newBytes := s.newBytes + memorySizes x kept }

/-- Absorb a spilled chunk, read back from the store. -/
def absorbSpilled (x : Exec K agg) (cfg : Config) (retainWm : Int64) (s : Rebuild K M)
    (index : Nat) : Rebuild K M :=
  absorb x cfg retainWm s (readSpill s.ck index)

/-- Absorb the pending batches one by one, then the spilled chunks. -/
def absorbAll (x : Exec K agg) (cfg : Config) (retainWm : Int64) (ck : Store (List (Group K × M)))
    (acc : AccumState K M R) : Rebuild K M :=
  let s := acc.pendingRows.foldl (fun s batch => absorb x cfg retainWm s [batch])
    ⟨ck, [], acc.nextSpill, [], 0⟩
  if cfg.hasStore then acc.spilled.foldl (absorbSpilled x cfg retainWm) s else s

def rebuildRetainedState (x : Exec K agg) (cfg : Config) (retainWm : Int64)
    (ck : Store (List (Group K × M))) (acc : AccumState K M R) :
    Store (List (Group K × M)) × AccumState K M R :=
  let s := absorbAll x cfg retainWm ck acc
  -- consumed chunks: deferred to the refcount GC under incremental checkpoints, else deleted
  let ck := if cfg.hasStore && !cfg.incCkpt then acc.spilled.foldl deleteSpill s.ck else s.ck
  let gc := if cfg.hasStore && cfg.incCkpt then acc.gcCandidates ++ acc.spilled
    else acc.gcCandidates
  let compact := cfg.compactEnabled && decide (1 < s.newPending.length)
  let pending := if compact then compactPartials x s.newPending else s.newPending
  (ck, { acc with
    pendingRows := pending
    pendingBytes := if compact then memorySizes x pending else s.newBytes
    spilled := s.spilled
    nextSpill := s.nextSpill
    gcCandidates := gc })

/-! ## Events -/

/-- Pre-aggregate a batch into the pending partials; compact them when over budget. -/
def accumulate (x : Exec K agg) (cfg : Config) (op : Op K M R) (batch : List (Group K × V)) :
    Rebuild K M :=
  let partials := runPartialAggregate x batch
  let pending := op.acc.pendingRows ++ partials
  let bytes := op.acc.pendingBytes + memorySizes x partials
  let compact := cfg.compactEnabled && cfg.stateBudgetBytes < bytes && decide (1 < pending.length)
  let compacted := if compact then compactPartials x pending else pending
  { ck := op.ck
    spilled := op.acc.spilled
    nextSpill := op.acc.nextSpill
    newPending := compacted
    newBytes := if compact then memorySizes x compacted else bytes }

/-- What is over budget after compaction is spilled. -/
def onData (x : Exec K agg) (cfg : Config) (op : Op K M R) (batch : List (Group K × V)) :
    Op K M R :=
  let batch := dropLateRows cfg op.acc.watermarkMicros batch
  if batch.isEmpty then op
  else
    let s := spillPending x cfg (accumulate x cfg op batch)
    { op with
      ck := s.ck
      acc := { op.acc with
        pendingRows := s.newPending
        pendingBytes := s.newBytes
        spilled := s.spilled
        nextSpill := s.nextSpill } }

variable [DecidableEq R]

/-- The merge of a finalize at `emitWm`, drained. -/
def drainMerge (x : Exec K agg) (cfg : Config) (emitWm : Int64) (op : Op K M R) : Merge K R :=
  (x.finalAgg (gatherPartials cfg op.ck op.acc)).foldl (consumeMergeBatch cfg op.acc emitWm)
    ⟨[], op.acc.lastEmitted, op.out⟩

/-- The merge is complete: the deferred emitted ends and the fired floor. -/
def mergeDone (cfg : Config) (emitWm : Int64) (m : Merge K R) (acc : AccumState K M R) :
    AccumState K M R :=
  match cfg.outputMode with
  | .append =>
    { acc with
      emittedEnds := m.newlyEmitted ∪ acc.emittedEnds
      restoreWmFloor := max acc.restoreWmFloor (emitWm.saturatingSub cfg.allowedLateness)
      lastEmitted := m.lastEmitted }
  | .update => { acc with lastEmitted := m.lastEmitted }

/-- The watermark down to which state is kept after a finalize at `emitWm`. -/
def retainWm (cfg : Config) (emitWm : Int64) : Int64 :=
  match cfg.outputMode with
  | .append => emitWm
  | .update => emitWm.saturatingSub cfg.allowedLateness

/-- A `Final` merge at `emitWm`: its output, the retained state, and then the
marker that waited for it. -/
def finalize (x : Exec K agg) (cfg : Config) (emitWm : Int64) (after : FlowMarker)
    (op : Op K M R) : Op K M R :=
  let m := drainMerge x cfg emitWm op
  let rebuilt := rebuildRetainedState x cfg (retainWm cfg emitWm) op.ck
    (mergeDone cfg emitWm m op.acc)
  { ck := rebuilt.1, acc := rebuilt.2, out := m.out ++ [.marker after] }

/-- Monotonic. -/
def setWatermark (wm : Option Int64) (micros : Int64) : Int64 := wm.elim micros fun c => max c micros

/-- The subtraction wraps, as the release profile has it. -/
def shouldFinal (w : Int64) (last : Option Int64) : Bool :=
  last.all fun last => FINAL_THROTTLE_MICROS ≤ w - last

/-- The watermark is `w` from now on, and emitted ends past their lateness are
forgotten. -/
def raiseWatermark (cfg : Config) (w : Int64) (acc : AccumState K M R) : AccumState K M R :=
  { acc with
    watermarkMicros := some w
    emittedEnds := acc.emittedEnds.filter fun e => w ≤ e.saturatingAdd cfg.allowedLateness }

def onWatermark (x : Exec K agg) (cfg : Config) (op : Op K M R) (source : String) (ts : DateTime) :
    Op K M R :=
  let w := setWatermark op.acc.watermarkMicros ts.timestampMicros
  let acc := raiseWatermark cfg w op.acc
  if shouldFinal w op.acc.lastFinalWm then
    finalize x cfg w (.watermark source ts) { op with acc := { acc with lastFinalWm := some w } }
  else { op with acc, out := op.out ++ [.marker (.watermark source ts)] }

/-- The metadata of a snapshot: the watermark and the emitted ends. -/
def snapshotInfo (acc : AccumState K M R) : List Int64 :=
  acc.watermarkMicros.getD Int64.minValue :: acc.emittedEnds

def onEndOfData (x : Exec K agg) (cfg : Config) (op : Op K M R) : Op K M R :=
  if cfg.hasStore then
    let ck := stageState op.ck (gatherPartials cfg op.ck op.acc) (snapshotInfo op.acc)
    if cfg.completeOnEnd then finalize x cfg Int64.maxValue .endOfData { op with ck }
    else { op with ck, out := op.out ++ [.marker .endOfData] }
  else finalize x cfg Int64.maxValue .endOfData op

/-- The refcount GC: candidates that neither the working set nor a retained epoch
references are deleted. -/
def gcChunks (ck : Store (List (Group K × M))) (acc : AccumState K M R) :
    Store (List (Group K × M)) × AccumState K M R :=
  let referenced := acc.spilled ++ acc.epochChunks.flatMap (·.2)
  ((acc.gcCandidates.filter fun c => !referenced.contains c).foldl deleteSpill ck,
    { acc with gcCandidates := acc.gcCandidates.filter fun c => referenced.contains c })

/-- `id ≥ 2` and epoch `id - 2` strictly older than the committed epoch. -/
def subsumed (ck : Store (List (Group K × M))) (id : Nat) : Bool :=
  2 ≤ id && id - 2 < (committedEpoch ck).getD 0

def checkpointIncremental (op : Op K M R) (id : Nat) : Op K M R :=
  let ck := stageEpochIncremental op.ck id op.acc.pendingRows op.acc.spilled (snapshotInfo op.acc)
  let acc := { op.acc with
    epochChunks := (op.acc.epochChunks ++ [(id, op.acc.spilled)]).filter fun p => id < p.1 + 2 }
  let ck := if subsumed ck id then gcEpochIncremental ck (id - 2) else ck
  { op with ck := (gcChunks ck acc).1, acc := (gcChunks ck acc).2 }

def checkpointFull (cfg : Config) (op : Op K M R) (id : Nat) : Op K M R :=
  let ck := stageEpochState op.ck id (gatherPartials cfg op.ck op.acc) (snapshotInfo op.acc)
  { op with ck := if subsumed ck id then gcEpochState ck (id - 2) else ck }

def onCheckpoint (cfg : Config) (op : Op K M R) (id : Nat) : Op K M R :=
  let op := if cfg.hasStore then
      if cfg.incCkpt then checkpointIncremental op id else checkpointFull cfg op id
    else op
  { op with out := op.out ++ [.marker (.checkpoint id)] }

/-- One turn of the operator's loop: an input event, with what DataFusion and the
store answer while it is handled. -/
def step (cfg : Config) (op : Op K M R) (i : FlowEvent (Group K × V) × Exec K agg) : Op K M R :=
  match i.1 with
  | .data batch _ => onData i.2 cfg op batch
  | .marker (.watermark source ts) => onWatermark i.2 cfg op source ts
  | .marker .endOfData => onEndOfData i.2 cfg op
  | .marker (.checkpoint id) => onCheckpoint cfg op id
  | .marker m => { op with out := op.out ++ [.marker m] }

end Step

end Zelox.Window
