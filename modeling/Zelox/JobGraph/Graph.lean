import Mathlib.Algebra.GroupWithZero.Nat

/-!
# Job graphs

A job is a list of stages in topological order.  A stage runs its plan once for each
output partition, as a task of its own, and the output of a task is split into channels.
A stage reads earlier stages through its inputs; the mode of an input says which
partitions and channels each partition of the stage reads.

Of a physical plan only the partition count and the schema matter here
(`ExecutionPlan`).
-/

namespace Zelox

/-- What the driver asks of a physical plan. -/
class ExecutionPlan (P : Type) (S : outParam Type) where
  partitionCount : P → Nat
  schema : P → S

inductive InputMode where
  | forward
  | merge
  | shuffle
  | broadcast
deriving DecidableEq

inductive OutputMode where
  | pipelined
  | blocking
deriving DecidableEq

/-- Whether a task runs on the driver or on a worker. -/
inductive TaskPlacement where
  | driver
  | worker
deriving DecidableEq

/-- How the output of a task is split into channels; `E` is the type of the key expressions. -/
inductive OutputDistribution (E : Type) where
  | hash (keys : List E) (channels : Nat)
  | roundRobin (channels : Nat)
deriving DecidableEq

structure StageInput where
  stage : Nat
  mode : InputMode
deriving DecidableEq

structure Stage (P E : Type) where
  inputs : List StageInput
  plan : P
  /-- The slot sharing group. -/
  group : String
  mode : OutputMode
  distribution : OutputDistribution E
  placement : TaskPlacement

/-- Stages in topological order. -/
structure JobGraph (P E S : Type) where
  stages : List (Stage P E)
  schema : S
  sorted : ∀ (s : Nat) (stage : Stage P E), stages[s]? = some stage →
    ∀ input ∈ stage.inputs, input.stage < s

namespace JobGraph

variable {P E S : Type} [ExecutionPlan P S]

def inputs (graph : JobGraph P E S) (s : Nat) : List StageInput :=
  match graph.stages[s]? with
  | some stage => stage.inputs
  | none => []

def partitions (graph : JobGraph P E S) (s : Nat) : Nat :=
  match graph.stages[s]? with
  | some stage => ExecutionPlan.partitionCount stage.plan
  | none => 0

omit [ExecutionPlan P S] in
theorem input_lt (graph : JobGraph P E S) {s : Nat} {input : StageInput}
    (h : input ∈ graph.inputs s) : input.stage < s ∧ s < graph.stages.length := by
  unfold inputs at h
  split at h
  case h_1 stage hs => exact ⟨graph.sorted s stage hs input h, (List.getElem?_eq_some_iff.mp hs).1⟩
  case h_2 => cases h

end JobGraph

end Zelox
