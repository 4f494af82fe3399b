import Zelox.Checkpoint
import Zelox.Sink.Output

/-!
# The realtime file sink

`num` parallel tasks slice their input into epochs.  At a `Checkpoint` barrier a task
writes its slice of the epoch (if it has rows) and a done-marker; the task that counts
`num` markers lists the epoch's files, merges the offsets staged by the source instances
into the committed ones, and if they cover the expected partitions makes the files
visible and writes `realtime/committed`.  A single task commits without markers.  At
startup task 0 drops what the output holds beyond the committed epoch.

One action is one operation on the stores by one task; a crash takes all tasks down,
and the next incarnation resumes behind the committed epoch.  The code does not read
`finished` and `slices` (which tasks of which incarnation have written which epoch),
`received` (the rows that reached the sink) and the incarnation in the committed record.
-/

namespace Zelox.Realtime

open Checkpoint CheckpointStore SinkLog

/-- Next offset by topic and partition, a `BTreeMap<String, i64>`. -/
abbrev Offsets (K : Type) := AList fun _ : K => Int

/-- The objects of a realtime checkpoint. -/
inductive Artifact (K : Type) where
  | offsets (next : Offsets K)
  | expected (n : Nat)
  | done
  | committed (epoch : Nat) (offsets : Offsets K) (incarnation : Nat)

def committedKey : Path := [.realtime, .committed]

def expectedKey : Path := [.sources, .num 0, .expected]

def stagedEpochKey (inst epoch : Nat) : Path := [.sources, .num 0, .inst inst, .stagedEpoch epoch]

def markerDir (epoch : Nat) : Path := [.realtime, .epoch epoch]

def doneKey (epoch idx : Nat) : Path := markerDir epoch ++ [.done idx]

variable {K R : Type}

/-- The committed record: epoch, offsets and the incarnation that wrote it. -/
def readCommitted (ck : CheckpointStore (Artifact K)) : Option (Nat × Offsets K × Nat) :=
  match ck.get committedKey with
  | some (.committed epoch offsets incarnation) => some (epoch, offsets, incarnation)
  | _ => none

def resumeEpoch (ck : CheckpointStore (Artifact K)) : Nat :=
  ((readCommitted ck).map (·.1 + 1)).getD 0

theorem readCommitted_put_of_ne (ck : CheckpointStore (Artifact K)) {p : Path} (v : Artifact K)
    (h : committedKey ≠ p) : readCommitted (ck.put p v) = readCommitted ck := by
  unfold readCommitted
  rw [get_put_ne _ _ h]

/-! ## The offsets of an epoch -/

/-- What the source instances have staged for the epoch. -/
def stagedOffsets (ck : CheckpointStore (Artifact K)) (epoch : Nat) : List (Offsets K) :=
  ((ck.listRel [.sources, .num 0]).filter fun rel => rel.getLast? = some (.stagedEpoch epoch)).filterMap
    fun rel =>
      match ck.get rel with
      | some (.offsets next) => some next
      | _ => none

def committedOffsets (ck : CheckpointStore (Artifact K)) : Offsets K :=
  ((readCommitted ck).map (·.2.1)).getD ∅

/-- `entry(k).and_modify(max).or_insert(v)`. -/
def maxInsert [DecidableEq K] (offsets : Offsets K) (entry : (_ : K) × Int) : Offsets K :=
  match offsets.lookup entry.1 with
  | some cur => offsets.insert entry.1 (max cur entry.2)
  | none => offsets.insert entry.1 entry.2

/-- The committed offsets with every staged map merged in. -/
def mergeOffsets [DecidableEq K] (ck : CheckpointStore (Artifact K)) (epoch : Nat) : Offsets K :=
  (stagedOffsets ck epoch).foldl (fun acc next => next.entries.foldl maxInsert acc)
    (committedOffsets ck)

def expectedPartitions (ck : CheckpointStore (Artifact K)) : Option Nat :=
  match ck.get expectedKey with
  | some (.expected n) => some n
  | _ => none

def isComplete (ck : CheckpointStore (Artifact K)) (offsets : Offsets K) : Bool :=
  (expectedPartitions ck).all fun n => n ≤ offsets.keys.length

/-- The prune of an epoch's done-markers, with the listed paths below the marker directory. -/
def prune (ck : CheckpointStore (Artifact K)) (epoch : Nat) : CheckpointStore (Artifact K) :=
  (ck.listRel (markerDir epoch)).foldl (fun ck m => ck.delete (markerDir epoch ++ m)) ck

/-! ## The tasks -/

/-- Where a task is, within `commit_epoch` and `write_global_committed` from `sliced` on. -/
inductive Phase (K : Type) where
  | starting
  /-- `truncate_after(last)`: metadata files still to delete -/
  | dropLog (last : Nat) (files : List (Nat × Bool))
  /-- data files still to delete -/
  | dropData (files : List (Nat × Nat))
  | reading
  | sliced
  | marked
  | counted
  | listed (metas : List (Nat × Nat))
  | gated (metas : List (Nat × Nat)) (offsets : Offsets K)
  | visible (offsets : Offsets K)
  | returning

structure Task (K R : Type) where
  epoch : Nat
  buffer : List R
  phase : Phase K

structure Sink (K R : Type) where
  ck : CheckpointStore (Artifact K)
  out : Output Nat R
  tasks : Nat → Task K R
  incarnation : Nat
  /-- (incarnation, epoch, task) -/
  finished : List (Nat × Nat × Nat)
  slices : List (Nat × Nat × Nat)
  received : List R

def Sink.init : Sink K R := ⟨∅, .empty, fun _ => ⟨0, [], .starting⟩, 0, [], [], []⟩

inductive TaskAction (R : Type) where
  | start
  | drop
  | data (rows : List R)
  | checkpoint
  | mark
  | count
  | list
  | gate
  | commit
  | putCommitted
  | finish

inductive Action (K R : Type) where
  | stage (inst epoch : Nat) (next : Offsets K)
  | expect (n : Nat)
  | task (idx : Nat) (a : TaskAction R)
  | crash

def Sink.setTask (s : Sink K R) (idx : Nat) (task : Task K R) : Sink K R :=
  { s with tasks := Function.update s.tasks idx task }

def Sink.setPhase (s : Sink K R) (idx : Nat) (phase : Phase K) : Sink K R :=
  s.setTask idx { s.tasks idx with phase := phase }

/-- Behind a `Checkpoint`: the buffer is cleared and the next epoch begins. -/
def Sink.nextEpoch (s : Sink K R) (idx : Nat) : Sink K R :=
  s.setTask idx ⟨(s.tasks idx).epoch + 1, [], .reading⟩

section

variable (s : Sink K R) (idx : Nat)

@[simp] theorem Sink.setTask_self (task : Task K R) :
    (s.setTask idx task).tasks idx = task := Function.update_self ..

@[simp] theorem Sink.setPhase_self (phase : Phase K) :
    (s.setPhase idx phase).tasks idx = { s.tasks idx with phase := phase } := Function.update_self ..

@[simp] theorem Sink.nextEpoch_self :
    (s.nextEpoch idx).tasks idx = ⟨(s.tasks idx).epoch + 1, [], .reading⟩ := Function.update_self ..

end

/-- The write of a task's slice, if it has rows for the epoch. -/
def Sink.writeSlice (s : Sink K R) (idx : Nat) : Sink K R :=
  let task := s.tasks idx
  let s := { s with finished := s.finished ++ [(s.incarnation, task.epoch, idx)] }
  if task.buffer.isEmpty then s
  else { s with
    out := s.out.putFile (task.epoch, idx) task.buffer
    slices := s.slices ++ [(s.incarnation, task.epoch, idx)] }

section WriteSlice

variable (s : Sink K R) (idx : Nat)

@[simp] theorem Sink.writeSlice_ck : (s.writeSlice idx).ck = s.ck := by
  unfold Sink.writeSlice
  simp only
  split <;> rfl

@[simp] theorem Sink.writeSlice_log : (s.writeSlice idx).out.log = s.out.log := by
  unfold Sink.writeSlice
  simp only
  split <;> rfl

@[simp] theorem Sink.writeSlice_tasks : (s.writeSlice idx).tasks = s.tasks := by
  unfold Sink.writeSlice
  simp only
  split <;> rfl

@[simp] theorem Sink.writeSlice_received : (s.writeSlice idx).received = s.received := by
  unfold Sink.writeSlice
  simp only
  split <;> rfl

end WriteSlice

variable [DecidableEq K]

def stepTask (num : Nat) (s : Sink K R) (idx : Nat) : TaskAction R → Sink K R
  | .start =>
    match (s.tasks idx).phase with
    | .starting =>
      match (if idx = 0 then readCommitted s.ck else none) with
      | some (last, _) =>
        let files := (s.out.log.filter (last < ·.id)).map fun f => (f.id, f.compact)
        s.setPhase idx (.dropLog last files)
      | none => s.setPhase idx .reading
    | _ => s
  | .drop =>
    match (s.tasks idx).phase with
    | .dropLog last ((id, compact) :: files) =>
      let log := s.out.log.filter fun f => ¬ (f.id = id ∧ f.compact = compact)
      { s with out := { s.out with log := log } }.setPhase idx (.dropLog last files)
    | .dropLog last [] => s.setPhase idx (.dropData (s.out.data.keys.filter (last < ·.1)))
    | .dropData (p :: files) =>
      { s with out := s.out.deleteFile p }.setPhase idx (.dropData files)
    | .dropData [] => s.setPhase idx .reading
    | _ => s
  | .data rows =>
    match (s.tasks idx).phase with
    | .reading =>
      { s with received := s.received ++ rows }.setTask idx
        { s.tasks idx with buffer := (s.tasks idx).buffer ++ rows }
    | _ => s
  | .checkpoint =>
    match (s.tasks idx).phase with
    | .reading => (s.writeSlice idx).setPhase idx .sliced
    | _ => s
  | .mark =>
    match (s.tasks idx).phase with
    | .sliced =>
      if num ≤ 1 then s.setPhase idx .counted
      else { s with ck := s.ck.put (doneKey (s.tasks idx).epoch idx) .done }.setPhase idx .marked
    | _ => s
  | .count =>
    match (s.tasks idx).phase with
    | .marked =>
      if num ≤ (s.ck.listRel (markerDir (s.tasks idx).epoch)).length then s.setPhase idx .counted
      else s.nextEpoch idx
    | _ => s
  | .list =>
    match (s.tasks idx).phase with
    | .counted => s.setPhase idx (.listed (s.out.listBatchFiles (s.tasks idx).epoch))
    | _ => s
  | .gate =>
    match (s.tasks idx).phase with
    | .listed metas =>
      let offsets := mergeOffsets s.ck (s.tasks idx).epoch
      if isComplete s.ck offsets then s.setPhase idx (.gated metas offsets)
      else s.setPhase idx .returning
    | _ => s
  | .commit =>
    match (s.tasks idx).phase with
    | .gated metas offsets =>
      { s with out := s.out.commitListed (s.tasks idx).epoch metas }.setPhase idx (.visible offsets)
    | _ => s
  | .putCommitted =>
    match (s.tasks idx).phase with
    | .visible offsets =>
      { s with ck := s.ck.put committedKey (.committed (s.tasks idx).epoch offsets s.incarnation)
        }.setPhase idx .returning
    | _ => s
  | .finish =>
    match (s.tasks idx).phase with
    | .returning =>
      { s with ck := if num ≤ 1 then s.ck else prune s.ck (s.tasks idx).epoch }.nextEpoch idx
    | _ => s

def step (num : Nat) (s : Sink K R) : Action K R → Sink K R
  | .stage inst epoch next => { s with ck := s.ck.put (stagedEpochKey inst epoch) (.offsets next) }
  | .expect n => { s with ck := s.ck.put expectedKey (.expected n) }
  | .task idx a => if idx < num then stepTask num s idx a else s
  | .crash =>
    { s with
      tasks := fun _ => ⟨resumeEpoch s.ck, [], .starting⟩
      incarnation := s.incarnation + 1 }

end Zelox.Realtime
