import Zelox.JobGraph.Graph
import Zelox.Lib.Components
import Zelox.Lib.PairJoin
import Zelox.Lib.Results

/-!
# Task regions

The tasks of a job are scheduled in regions.  Stages that are connected by pipelined
outputs form a component.  If all inputs inside a component are forward inputs, there is
one region for each partition; otherwise the component is one region.  A region depends
on the regions that its tasks read.

Whatever the graph, every task of the job is in one region, and once
(`tryNew_tasks_perm`).
-/

namespace Zelox.Driver

open List

variable {P E S : Type} [ExecutionPlan P S] [DecidableEq S]

structure TaskTopology where
  stage : Nat
  partition : Nat
deriving DecidableEq

structure TaskRegionTopology where
  tasks : List TaskTopology
  /-- The regions that this one depends on, by index. -/
  dependencies : List Nat

structure JobTopology where
  regions : List TaskRegionTopology
  /-- For each stage, the stages that consume it. -/
  consumers : Nat → List Nat

namespace JobTopology

variable (graph : JobGraph P E S)

/-- The inputs of all stages, each with the stage it belongs to. -/
def edges : List (Nat × StageInput) :=
  (List.range graph.stages.length).flatMap fun s => (graph.inputs s).map fun input => (s, input)

/-- The stages that consume a stage, once for each input. -/
def consumersOf (s : Nat) : List Nat :=
  (edges graph).filterMap fun e => if e.2.stage = s then some e.1 else none

def isPipelined (s : Nat) : Bool :=
  match graph.stages[s]? with
  | some stage => stage.mode = .pipelined
  | none => false

/-- The neighbours of a stage along pipelined outputs, as both ends of an input are entered. -/
def pipelinedAdjacency (u : Nat) : List Nat :=
  ((edges graph).filter fun e => isPipelined graph e.2.stage).flatMap fun e =>
    (if e.1 = u then [e.2.stage] else []) ++ (if e.2.stage = u then [e.1] else [])

/-- Every final stage has the schema of the job. -/
def finalSchemas : Bool :=
  graph.stages.zipIdx.all fun x =>
    !(consumersOf graph x.2).isEmpty || decide (ExecutionPlan.schema x.1.plan = graph.schema)

/-- All inputs within the component are forward inputs. -/
def allForward (component : List Nat) : Bool :=
  component.all fun u => (graph.inputs u).all fun input =>
    !component.contains input.stage || decide (input.mode = .forward)

def stageTasks (s : Nat) : List TaskTopology := (List.range (graph.partitions s)).map fun p => ⟨s, p⟩

/-- The regions of one component: one for each partition, or a single one. -/
def componentRegions (component : List Nat) : Except String (List (List TaskTopology)) :=
  if allForward graph component then
    match (component.map graph.partitions).dedup with
    | [partitions] => .ok ((List.range partitions).map fun p => component.map fun s => ⟨s, p⟩)
    | _ => .error "task region with all forward inputs must have the same partition count"
  else .ok [component.flatMap (stageTasks graph)]

/-- The region of a task; a later entry replaces an earlier one. -/
def taskToRegion (regions : List (List TaskTopology)) (t : TaskTopology) : Option Nat :=
  regions.zipIdx.foldl (fun found x => if t ∈ x.1 then some x.2 else found) none

/-- The regions that the tasks of region `r` read, without `r` itself. -/
def dependenciesOf (regions : List (List TaskTopology)) (r : Nat) (tasks : List TaskTopology) :
    List Nat :=
  let read := tasks.flatMap fun t => (graph.inputs t.stage).flatMap fun input =>
    if input.mode = .forward then (taskToRegion regions ⟨input.stage, t.partition⟩).toList
    else (stageTasks graph input.stage).filterMap (taskToRegion regions)
  (read.filter fun d => d ≠ r).eraseDups

def ofRegions (regions : List (List TaskTopology)) : JobTopology where
  regions := regions.zipIdx.map fun x => ⟨x.1, dependenciesOf graph regions x.2 x.1⟩
  consumers := consumersOf graph

def tryNew : Except String JobTopology :=
  if finalSchemas graph then
    ((Components.components (pipelinedAdjacency graph) graph.stages.length).mapM
      (componentRegions graph)).map fun regions => ofRegions graph regions.flatten
  else .error "the job graph must have final stages with the same schema"

def jobTasks : List TaskTopology := (List.range graph.stages.length).flatMap (stageTasks graph)

/-! ## Every task is in one region -/

omit [ExecutionPlan P S] [DecidableEq S] in
theorem pipelinedAdjacency_lt (u : Nat) :
    ∀ v ∈ pipelinedAdjacency graph u, v < graph.stages.length := by
  intro v hv
  obtain ⟨e, he, hve⟩ := mem_flatMap.mp hv
  obtain ⟨s, -, hs⟩ := mem_flatMap.mp (mem_filter.mp he).1
  obtain ⟨input, hin, rfl⟩ := mem_map.mp hs
  have hlt := graph.input_lt hin
  rcases mem_append.mp hve with h | h
  · split at h
    · rw [mem_singleton.mp h]
      exact hlt.1.trans hlt.2
    · cases h
  · split at h
    · rw [mem_singleton.mp h]
      exact hlt.2
    · cases h

omit [DecidableEq S] in
theorem sliced_perm (component : List Nat) (partitions : Nat)
    (h : ∀ s ∈ component, graph.partitions s = partitions) :
    ((List.range partitions).flatMap fun p => component.map fun s => (⟨s, p⟩ : TaskTopology)).Perm
      (component.flatMap (stageTasks graph)) := by
  have hstages : component.flatMap (stageTasks graph) =
      component.flatMap fun s => (List.range partitions).flatMap fun p =>
        [(⟨s, p⟩ : TaskTopology)] := by
    refine flatMap_congr fun s hs => ?_
    unfold stageTasks
    rw [h s hs, map_eq_flatMap]
  simp only [hstages, map_eq_flatMap]
  rw [← Multiset.coe_eq_coe, PairJoin.coe_flatMap_flatMap, PairJoin.coe_flatMap_flatMap,
    PairJoin.pairs_swap]

omit [DecidableEq S] in
theorem componentRegions_perm {component : List Nat} {regions : List (List TaskTopology)}
    (h : componentRegions graph component = .ok regions) :
    regions.flatten.Perm (component.flatMap (stageTasks graph)) := by
  unfold componentRegions at h
  split at h
  · split at h
    · next partitions hp =>
      cases h
      refine sliced_perm graph component partitions fun s hs => ?_
      have hmem : graph.partitions s ∈ (component.map graph.partitions).dedup :=
        mem_dedup.mpr (mem_map_of_mem hs)
      rw [hp] at hmem
      exact mem_singleton.mp hmem
    · cases h
  · cases h
    rw [flatten_singleton]

omit [DecidableEq S] in
theorem mapM_componentRegions_perm {components : List (List Nat)}
    {regions : List (List (List TaskTopology))}
    (h : components.mapM (componentRegions graph) = .ok regions) :
    regions.flatten.flatten.Perm (components.flatten.flatMap (stageTasks graph)) := by
  have hall := Results.forall₂_of_mapM_eq_ok h
  clear h
  induction hall with
  | nil => exact List.Perm.refl _
  | cons hc _ ih =>
    rw [flatten_cons, flatten_append, flatten_cons, flatMap_append]
    exact (componentRegions_perm graph hc).append ih

/-- Every task of the job is in one region, once. -/
theorem tryNew_tasks_perm {topology : JobTopology} (h : tryNew graph = .ok topology) :
    (topology.regions.flatMap (·.tasks)).Perm (jobTasks graph) := by
  unfold tryNew at h
  split at h
  case isFalse => cases h
  case isTrue =>
    cases hr : (Components.components (pipelinedAdjacency graph) graph.stages.length).mapM
        (componentRegions graph) with
    | error e =>
      rw [hr] at h
      cases h
    | ok regions =>
      rw [hr] at h
      cases h
      have htasks : (ofRegions graph regions.flatten).regions.flatMap (·.tasks) =
          regions.flatten.flatten := by
        unfold ofRegions
        rw [flatMap_map]
        show regions.flatten.zipIdx.flatMap Prod.fst = _
        rw [flatMap_def, zipIdx_map_fst]
      rw [htasks]
      refine (mapM_componentRegions_perm graph hr).trans ?_
      exact (Components.components_perm (pipelinedAdjacency_lt graph)).flatMap_right _

end JobTopology

end Zelox.Driver
