import Zelox.Driver.Topology

/-!
# The job scheduler

For each job the scheduler keeps the attempts of every task.  When a region is scheduled, its
tasks are put into task sets, and the tasks of one set share a slot: the stages of a region are
grouped by placement and slot sharing group, a group has as many buckets as the largest of its
stages has partitions, and the partitions of each stage are spread over the buckets.

An attempt that is out of range does not exist: `attempts` is empty outside of the job.
Clock values are left out.
-/

namespace Zelox.Driver

/-! ## Attempts -/

inductive TaskState where
  | created
  | scheduled
  | running
  | succeeded
  | failed
  | canceled
deriving DecidableEq

/-- The causes that the driver makes, and those that are reported to it. -/
inductive CommonErrorCause where
  | unknown (message : String)
  | internal (message : String)
  | execution (message : String)
  | reported (kind message : String)
deriving DecidableEq

structure TaskAttemptDescriptor where
  state : TaskState
  messages : List String
  cause : Option CommonErrorCause
  jobOutputFetched : Bool
deriving DecidableEq

/-! ## Keys and task sets -/

structure TaskKey where
  jobId : Nat
  stage : Nat
  partition : Nat
  attempt : Nat
deriving DecidableEq

structure TaskStreamKey where
  jobId : Nat
  stage : Nat
  partition : Nat
  attempt : Nat
  channel : Nat
deriving DecidableEq

/-- Where the output stream of a task is kept. -/
inductive TaskOutputKind where
  | localStream
  | remoteStream
deriving DecidableEq

structure TaskSetEntry where
  key : TaskKey
  output : TaskOutputKind
deriving DecidableEq

/-- Tasks that share a slot. -/
structure TaskSet where
  entries : List TaskSetEntry
deriving DecidableEq

/-- Task sets that are scheduled together. -/
structure TaskRegion where
  tasks : List (TaskPlacement × TaskSet)
deriving DecidableEq

/-! ## Jobs -/

inductive JobState where
  | running
  | draining
  | succeeded
  | failed
  | canceled
deriving DecidableEq

inductive StageState where
  | active
  | inactive
deriving DecidableEq

inductive TaskRegionState where
  | running
  | failed
  | succeeded
deriving DecidableEq

structure JobDescriptor (P E S : Type) where
  graph : JobGraph P E S
  topology : JobTopology
  attempts : TaskTopology → List TaskAttemptDescriptor
  stages : Nat → StageState
  regions : List TaskRegionState
  state : JobState

namespace JobDescriptor

variable {P E S : Type}

/-! ## Scheduling -/

section Schedule

variable [ExecutionPlan P S] (jobId : Nat)

/-- `StageGroupKey`. -/
abbrev GroupKey := TaskPlacement × String

def groupKey (stage : Stage P E) : GroupKey := (stage.placement, stage.group)

/-- The stages of a region, in the order of their first task. -/
def regionStages (region : TaskRegionTopology) : List Nat := (region.tasks.map (·.stage)).eraseDups

/-- The slot sharing groups of a region, in the order of their first stage. -/
def regionGroups (job : JobDescriptor P E S) (region : TaskRegionTopology) : List GroupKey :=
  ((regionStages region).filterMap fun s => job.graph.stages[s]?.map groupKey).eraseDups

/-- The largest partition count among the stages of a group. -/
def groupBuckets (job : JobDescriptor P E S) (region : TaskRegionTopology) (key : GroupKey) : Nat :=
  ((regionStages region).filter fun s => job.graph.stages[s]?.map groupKey = some key).foldl
    (fun n s => max n (job.graph.partitions s)) 0

/-- `get_latest_task_attempt`. -/
def latestAttempt (job : JobDescriptor P E S) (t : TaskTopology) : Option Nat :=
  if (job.attempts t).isEmpty then none else some ((job.attempts t).length - 1)

/-- The entry of a task, with its group and bucket. -/
def taskEntry (job : JobDescriptor P E S) (region : TaskRegionTopology) (t : TaskTopology) :
    Option (GroupKey × Nat × TaskSetEntry) :=
  match job.latestAttempt t, job.graph.stages[t.stage]? with
  | some attempt, some stage =>
    let bucket := t.partition * job.groupBuckets region (groupKey stage) / job.graph.partitions t.stage
    let output := match stage.mode with
      | .pipelined => .localStream
      | .blocking => .remoteStream
    some (groupKey stage, bucket, ⟨⟨jobId, t.stage, t.partition, attempt⟩, output⟩)
  | _, _ => none

/-- A task set for every bucket of every group, the empty ones among them. -/
def buildTaskRegion (job : JobDescriptor P E S) (region : TaskRegionTopology) : TaskRegion :=
  let entries := region.tasks.filterMap (job.taskEntry jobId region)
  ⟨(job.regionGroups region).flatMap fun key =>
    (List.range (job.groupBuckets region key)).map fun bucket =>
      (key.1, ⟨(entries.filter fun e => e.1 = key ∧ e.2.1 = bucket).map (·.2.2)⟩)⟩

end Schedule

end JobDescriptor

end Zelox.Driver
