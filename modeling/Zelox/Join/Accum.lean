import Zelox.Lib.Runs
import Zelox.Window.Accum

/-!
# The stream–stream join

`StreamJoinExec` buffers the rows of both inputs.  A batch that arrives on one side is
joined with the buffer of the other side, the result is filtered and emitted, and the
batch is appended to its own side's buffer.  Over a byte budget a buffer is spilled to
the checkpoint store as a numbered chunk; the join reads the chunks back.  With interval
bounds a watermark evicts the rows that can no longer match.

A row of a record batch is its tuple of cells.  `HashJoinExec` is what an `Exec` holds,
with the law of an inner join on keys that are not null; the schemas are the numbers of
columns.  Each side has its own part of the checkpoint store.
-/

namespace Zelox.Join

open StateIo

variable {C V : Type} {l r n : Nat}

inductive Side where
  | left
  | right
deriving DecidableEq

abbrev Row (C : Type) (n : Nat) := Fin n → C

abbrev Batch (C : Type) (n : Nat) := List (Row C n)

/-- Pairs of key expressions; `none` is a null key. -/
abbrev On (C V : Type) (m n : Nat) := List ((Row C m → Option V) × (Row C n → Option V))

section Spec

variable [DecidableEq V] {m : Nat}

/-- Equal keys that are not null (`NullEqualsNothing`). -/
def keysMatch (on : On C V m n) (a : Row C m) (b : Row C n) : Bool :=
  on.all fun key => (key.1 a).isSome && decide (key.1 a = key.2 b)

/-- The inner equi-join, with the columns of the first input before those of the second. -/
def equiJoin (on : On C V m n) (as : List (Row C m)) (bs : List (Row C n)) : List (Row C (m + n)) :=
  as.flatMap fun a => (bs.filter (keysMatch on a)).map (Fin.append a)

end Spec

/-- What DataFusion and the store return during one input. -/
structure Exec (C V : Type) [DecidableEq V] where
  hashJoin {m n : Nat} : On C V m n → List (Batch C m) → List (Batch C n) → List (Batch C (m + n))
  memorySize {n : Nat} : Batch C n → Nat
  taken {n : Nat} : Side → Nat → List (Batch C n) → Bool
  hashJoin_perm : ∀ {m n : Nat} (on : On C V m n) (build : List (Batch C m))
    (probe : List (Batch C n)),
    (hashJoin on build probe).flatten.Perm (equiJoin on build.flatten probe.flatten)

/-- One output batch, every row of the same size, every chunk taken. -/
def Exec.plain (C V : Type) [DecidableEq V] : Exec C V where
  hashJoin on build probe := [equiJoin on build.flatten probe.flatten]
  memorySize b := b.length
  taken _ _ _ := true
  hashJoin_perm on build probe := by rw [List.flatten_singleton]

/-- `micros` is the value of a timestamp cell, `none` for a null; the filter is three-valued. -/
structure Config (C V : Type) (l r : Nat) where
  on : On C V l r
  filter : Option (Row C (l + r) → Option Bool)
  intervalBounds : Option (Int64 × Int64)
  leftTsIdx : Option (Fin l)
  rightTsIdx : Option (Fin r)
  micros : C → Option Int64
  hasStore : Bool
  incCkpt : Bool
  budget : Nat

/-! ## The state -/

/-- The fields of one side in `JoinAccum`, and its part of the store. -/
structure SideState (C : Type) (n : Nat) where
  buf : List (Batch C n)
  bytes : Nat
  spilled : List Nat
  next : Nat
  ck : Store (Batch C n)

structure JoinAccum (C : Type) (l r : Nat) where
  left : SideState C l
  right : SideState C r
  lwm : Option Int64
  rwm : Option Int64
  lastWm : Option Int64

/-- The operator with the events it has emitted. -/
structure Op (C : Type) (l r : Nat) extends JoinAccum C l r where
  out : List (FlowEvent (Row C (l + r)))

/-- An event on one of the inputs. -/
inductive Input (C : Type) (l r : Nat) where
  | left (event : FlowEvent (Row C l))
  | right (event : FlowEvent (Row C r))

def joinSnapshotEpoch : Nat := 1

section Operator

variable [DecidableEq V]

/-! ## One side -/

/-- The buffer goes to a fresh chunk when it is over budget. -/
def spillSideOverBudget (x : Exec C V) (cfg : Config C V l r) (side : Side) (s : SideState C n) :
    SideState C n :=
  if cfg.budget < s.bytes && !s.buf.isEmpty && cfg.hasStore then
    match writeSpill (x.taken side s.next s.buf) s.ck s.next s.buf with
    | (ck, true) =>
      { buf := []
        bytes := 0
        spilled := s.spilled ++ [s.next]
        next := s.next + 1
        ck }
    | (_, false) => s
  else s

/-- Append a batch, and spill over budget. -/
def pushBatch (x : Exec C V) (cfg : Config C V l r) (side : Side) (s : SideState C n)
    (batch : Batch C n) : SideState C n :=
  spillSideOverBudget x cfg side
    { s with buf := s.buf ++ [batch], bytes := s.bytes + x.memorySize batch }

/-- The buffered batches and those of the spilled chunks. -/
def gatherSide (cfg : Config C V l r) (s : SideState C n) : List (Batch C n) :=
  s.buf ++ if cfg.hasStore then s.spilled.flatMap (readSpill s.ck) else []

/-- Rows without a timestamp are kept. -/
def keeps (cfg : Config C V l r) (tsIdx : Fin n) (threshold : Int64) (row : Row C n) : Bool :=
  (cfg.micros (row tsIdx)).all fun ts => threshold ≤ ts

def evictOlderThan (cfg : Config C V l r) (batches : List (Batch C n)) (tsIdx : Fin n)
    (threshold : Int64) : List (Batch C n) :=
  (batches.map (List.filter (keeps cfg tsIdx threshold))).filter fun b => !b.isEmpty

def evictRespillSide (x : Exec C V) (cfg : Config C V l r) (side : Side) (s : SideState C n)
    (tsIdx : Fin n) (threshold : Int64) : SideState C n :=
  let full := gatherSide cfg s
  let ck := if cfg.hasStore then s.spilled.foldl deleteSpill s.ck else s.ck
  (evictOlderThan cfg full tsIdx threshold).foldl (pushBatch x cfg side)
    { s with buf := [], bytes := 0, spilled := [], ck := ck }

/-! ## Data -/

/-- From `right ++ left` to `left ++ right`. -/
def reorderRightLeftToLeftRight (row : Row C (r + l)) : Row C (l + r) :=
  Fin.append (fun i => row (Fin.natAdd r i)) (fun i => row (Fin.castAdd l i))

/-- The output batches of the join that are not empty. -/
def runHashJoin (x : Exec C V) {m : Nat} (on : On C V m n) (build : List (Batch C m))
    (probe : List (Batch C n)) : List (Batch C (m + n)) :=
  (x.hashJoin on build probe).filter fun b => !b.isEmpty

/-- The arm `Side::Left` of `join_incoming_against_buffer`. -/
def joinIncomingLeft (x : Exec C V) (cfg : Config C V l r) (other : SideState C r)
    (incoming : Batch C l) : List (Batch C (l + r)) :=
  runHashJoin x cfg.on [incoming] (gatherSide cfg other)

/-- The arm `Side::Right`: keys swapped, columns put back in order. -/
def joinIncomingRight (x : Exec C V) (cfg : Config C V l r) (other : SideState C l)
    (incoming : Batch C r) : List (Batch C (l + r)) :=
  (runHashJoin x (cfg.on.map Prod.swap) [incoming] (gatherSide cfg other)).map
    fun b => b.map reorderRightLeftToLeftRight

/-- Whether the residual filter passes a row; a null mask drops it. -/
def passes (cfg : Config C V l r) (row : Row C (l + r)) : Bool :=
  cfg.filter.all fun f => f row = some true

def applyFilter (cfg : Config C V l r) (batch : Batch C (l + r)) : Batch C (l + r) :=
  batch.filter (passes cfg)

/-- Append-only output. -/
def dataEvent (batch : Batch C n) : FlowEvent (Row C n) := .data batch (batch.map fun _ => false)

def emit (cfg : Config C V l r) (out : List (Batch C (l + r))) : List (FlowEvent (Row C (l + r))) :=
  ((out.map (applyFilter cfg)).filter fun b => !b.isEmpty).map dataEvent

def onLeftData (x : Exec C V) (cfg : Config C V l r) (op : Op C l r) (batch : Batch C l) :
    Op C l r :=
  if batch.isEmpty then op
  else { op with
    out := op.out ++ emit cfg (joinIncomingLeft x cfg op.right batch)
    left := pushBatch x cfg .left op.left batch }

def onRightData (x : Exec C V) (cfg : Config C V l r) (op : Op C l r) (batch : Batch C r) :
    Op C l r :=
  if batch.isEmpty then op
  else { op with
    out := op.out ++ emit cfg (joinIncomingRight x cfg op.left batch)
    right := pushBatch x cfg .right op.right batch }

/-! ## Watermarks -/

/-- `map_or(ts, |c| c.max(ts))`. -/
def advance (wm : Option Int64) (ts : Int64) : Int64 := wm.elim ts fun c => max c ts

/-- The minimum of both watermarks, forwarded as it advances. -/
def forwardWatermark (op : Op C l r) : Op C l r :=
  match op.lwm, op.rwm with
  | some lw, some rw =>
    if op.lastWm.all fun prev => prev < min lw rw then
      { op with
        lastWm := some (min lw rw)
        out := op.out ++ ((DateTime.fromTimestampMicros (min lw rw)).toList.map
          fun t => .marker (.watermark "stream-join" t)) }
    else op
  | _, _ => op

/-- `rw - upper`, in wrapping 64-bit arithmetic. -/
def evictLeft (x : Exec C V) (cfg : Config C V l r) (upper : Int64) (op : Op C l r) : Op C l r :=
  match op.rwm, cfg.leftTsIdx with
  | some rw, some idx => { op with left := evictRespillSide x cfg .left op.left idx (rw - upper) }
  | _, _ => op

/-- `lw + lower`, likewise. -/
def evictRight (x : Exec C V) (cfg : Config C V l r) (lower : Int64) (op : Op C l r) : Op C l r :=
  match op.lwm, cfg.rightTsIdx with
  | some lw, some idx => { op with right := evictRespillSide x cfg .right op.right idx (lw + lower) }
  | _, _ => op

/-- What follows the update of a watermark. -/
def onWatermark (x : Exec C V) (cfg : Config C V l r) (op : Op C l r) : Op C l r :=
  let op := forwardWatermark op
  match cfg.intervalBounds with
  | some (lower, upper) => evictRight x cfg lower (evictLeft x cfg upper op)
  | none => op

/-! ## Snapshots -/

def snapshotInfo (acc : JoinAccum C l r) : List Int64 :=
  [acc.lwm.getD Int64.minValue, acc.rwm.getD Int64.minValue, acc.lastWm.getD Int64.minValue]

def stageSide (cfg : Config C V l r) (s : SideState C n) (info : List Int64) : SideState C n :=
  if cfg.incCkpt then
    { s with ck := stageEpochIncremental s.ck joinSnapshotEpoch s.buf s.spilled info }
  else { s with ck := stageState s.ck (gatherSide cfg s) info }

def onEndOfData (cfg : Config C V l r) (op : Op C l r) : Op C l r :=
  let op := if cfg.hasStore then { op with
      left := stageSide cfg op.left (snapshotInfo op.toJoinAccum)
      right := stageSide cfg op.right [] }
    else op
  { op with out := op.out ++ [.marker .endOfData] }

def restoreSide (cfg : Config C V l r) (ck : Store (Batch C n)) : List (Batch C n) × List Int64 :=
  if cfg.incCkpt then restoreEpochIncremental ck joinSnapshotEpoch else restoreState ck

/-- The state of the first poll. -/
def start (x : Exec C V) (cfg : Config C V l r) (lck : Store (Batch C l)) (rck : Store (Batch C r)) :
    Op C l r :=
  let (lb, info) := if cfg.hasStore then restoreSide cfg lck else ([], [])
  let (rb, _) := if cfg.hasStore then restoreSide cfg rck else ([], [])
  let seen ts := if ts ≠ Int64.minValue then some ts else none
  let (lwm, rwm, lastWm) := match info with
    | [lw, rw, last] => (seen lw, seen rw, seen last)
    | _ => (none, none, none)
  { left := ⟨lb, (lb.map x.memorySize).sum, [], 0, lck⟩
    right := ⟨rb, (rb.map x.memorySize).sum, [], 0, rck⟩
    lwm
    rwm
    lastWm
    out := [] }

/-! ## Events -/

def step (cfg : Config C V l r) (op : Op C l r) (i : Input C l r × Exec C V) : Op C l r :=
  match i.1 with
  | .left (.data batch _) => onLeftData i.2 cfg op batch
  | .right (.data batch _) => onRightData i.2 cfg op batch
  | .left (.marker (.watermark _ t)) =>
    onWatermark i.2 cfg { op with lwm := some (advance op.lwm t.timestampMicros) }
  | .right (.marker (.watermark _ t)) =>
    onWatermark i.2 cfg { op with rwm := some (advance op.rwm t.timestampMicros) }
  | .left (.marker .endOfData) | .right (.marker .endOfData) => onEndOfData cfg op
  | .left (.marker m) | .right (.marker m) => { op with out := op.out ++ [.marker m] }

end Operator

end Zelox.Join
