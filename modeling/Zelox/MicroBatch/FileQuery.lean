import Zelox.MicroBatch.Numbering
import Zelox.Sink.Output

/-!
# A file-to-file micro-batch query

One micro-batch is a scan of the input directory (which stages the batch id and the
processed files), the planning of the sink under the same id, the cleaning of the batch
directory, the writes, the commit to the sink's log, the driver's marker, and the
promotion of the staged record.  Every action of `step` is one operation on one of the
stores, new input files may arrive before any of them, the delete of the staged
record may fail, and a crash may come anywhere; an action that the query is not ready
for does nothing.
-/

namespace Zelox.MicroBatch

open Checkpoint CheckpointStore SinkLog

variable {F K N R : Type}

/-- The source: its order of new files, `max_files_per_trigger`, and the rows that a file gives. -/
structure FileStreamSource (F R : Type) where
  older : F → F → Bool
  maxFilesPerTrigger : Option Nat
  rows : F → List R

/-- Where the micro-batch is. -/
inductive Phase (F : Type) where
  /-- not running: before the first start, or after a crash -/
  | down
  /-- the last micro-batch ended cleanly -/
  | ended
  | planned (new : List F)
  | cleaning (batchId : Nat) (new : List F)
  | writing (batchId : Nat) (new : List F)
  | sinkCommitted
  | marked
  | promoted
deriving DecidableEq

structure Query (F K N R : Type) where
  inputs : List F
  ck : CheckpointStore (Artifact F K)
  out : Output N R
  phase : Phase F

def Query.start : Query F K N R := ⟨[], ∅, .empty, .down⟩

inductive Action (F N R : Type) where
  | arrive (file : F)
  | scan
  | plan
  | deleteFile (name : N)
  | startWriting
  | writeFile (name : N) (rows : List R)
  | commitBatch
  | mark
  | promotePut
  | promoteDelete (fails : Bool)
  | crash
deriving DecidableEq

def stagedKey : Path := [.sources, .num 0, .staged]

def committedKey : Path := [.sources, .num 0, .committed]

def readCommittedFiles (ck : CheckpointStore (Artifact F K)) : List F :=
  ((readRecord ck .committed).map (·.2)).getD []

variable [DecidableEq F] [DecidableEq N] [DecidableEq R]

/-- The new files of a scan, oldest first. -/
def FileStreamSource.newFiles (src : FileStreamSource F R) (inputs seen : List F) : List F :=
  let fresh := (inputs.filter (· ∉ seen)).insertionSort fun a b => src.older a b
  match src.maxFilesPerTrigger with
  | some m => fresh.take m
  | none => fresh

/-- `FileStreamSource::scan` up to its write-ahead record. -/
def FileStreamSource.scan (src : FileStreamSource F R) (q : Query F K N R) : Query F K N R :=
  let seen := readCommittedFiles q.ck
  let new := src.newFiles q.inputs seen
  { q with
    ck := q.ck.put stagedKey (.record (currentBatchIdIn q.ck) (seen ++ new))
    phase := .planned new }

def step (src : FileStreamSource F R) (q : Query F K N R) : Action F N R → Query F K N R
  | .arrive file => if file ∈ q.inputs then q else { q with inputs := q.inputs ++ [file] }
  | .scan =>
    match q.phase with
    | .down | .ended => src.scan q
    | _ => q
  | .plan =>
    match q.phase with
    | .planned new => { q with phase := .cleaning (currentBatchIdIn q.ck) new }
    | _ => q
  | .deleteFile name =>
    match q.phase with
    | .cleaning b _ => { q with out := q.out.deleteFile (b, name) }
    | _ => q
  | .startWriting =>
    match q.phase with
    | .cleaning b new =>
      if (q.out.listBatchFiles b).isEmpty then { q with phase := .writing b new } else q
    | _ => q
  | .writeFile name rows =>
    match q.phase with
    | .writing b _ => { q with out := q.out.putFile (b, name) rows }
    | _ => q
  | .commitBatch =>
    match q.phase with
    | .writing b new =>
      -- the write pipeline has ended: the directory holds the rows of the new files
      if (q.out.rowsOf (q.out.listBatchFiles b)).Perm (new.flatMap src.rows) then
        { q with out := q.out.commitListed b (q.out.listBatchFiles b), phase := .sinkCommitted }
      else q
    | _ => q
  | .mark =>
    match q.phase with
    | .sinkCommitted => { q with ck := putMarker q.ck, phase := .marked }
    | _ => q
  | .promotePut =>
    match q.phase with
    | .marked => { q with ck := q.ck.promotePut stagedKey committedKey, phase := .promoted }
    | _ => q
  | .promoteDelete fails =>
    match q.phase with
    | .promoted => { q with ck := if fails then q.ck else q.ck.delete stagedKey, phase := .ended }
    | _ => q
  | .crash => { q with phase := .down }

/-- Every file of the committed set gives its rows to the readers once, and nothing else does. -/
def ExactlyOnce (src : FileStreamSource F R) (q : Query F K N R) : Prop :=
  (readCommittedFiles q.ck).Nodup ∧
    q.out.visibleRows.Perm ((readCommittedFiles q.ck).flatMap src.rows)

end Zelox.MicroBatch
