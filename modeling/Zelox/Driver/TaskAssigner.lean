import Zelox.Driver.SlotSharing
import Zelox.Lib.KeyedMap

/-!
# Assigning regions to slots

The regions of the queue are assigned in order, each as a whole, until one does not fit into the
vacant slots of the active workers.  Whichever worker a policy takes the next slot from, the slot
leaves the pool, and there is none only if the pool is empty (`next_spec`); so what
is assigned and where the queue stops depend on the number of slots alone
(`assignTasks_all_or_nothing`).

Log messages and the streams of a worker are left out: they are not looked at here.
-/

namespace Zelox.Driver

/-- The tasks in a slot, without repetition. -/
abbrev TaskSlot := List TaskKey

def TaskSlot.addTasks (slot : TaskSlot) (set : TaskSet) : TaskSlot :=
  (set.entries.map (·.key)).foldl
    (fun tasks t => if tasks.any fun u => decide (u = t) then tasks else tasks ++ [t]) slot

inductive WorkerResource where
  | active (taskSlots : List TaskSlot)
  | inactive

namespace WorkerResource

def vacantSlots : WorkerResource → List Nat
  | active taskSlots => (taskSlots.zipIdx.filter (·.1.isEmpty)).map (·.2)
  | inactive => []

def addTaskSet (slot : Nat) (set : TaskSet) : WorkerResource → WorkerResource
  | active taskSlots => active (taskSlots.modify slot (TaskSlot.addTasks · set))
  | inactive => inactive

theorem nodup_vacantSlots (w : WorkerResource) : w.vacantSlots.Nodup := by
  cases w with
  | inactive => exact List.nodup_nil
  | active taskSlots =>
    refine List.Nodup.sublist (List.filter_sublist.map _) ?_
    rw [List.zipIdx_map_snd]
    exact List.nodup_range'

end WorkerResource

/-- The workers by their ids, in the order in which they came. -/
abbrev Workers := KeyedMap (Prod.fst : Nat × WorkerResource → Nat)

/-- Changes what is known of the workers, by their ids. -/
def Workers.update (workers : Workers) (f : Nat → WorkerResource → WorkerResource) : Workers where
  entries := workers.entries.map fun w => (w.1, f w.1 w.2)
  nodup := by
    rw [List.map_map]
    exact workers.nodup

def Workers.modify (workers : Workers) (id : Nat) (f : WorkerResource → WorkerResource) : Workers :=
  workers.update fun i worker => if i = id then f worker else worker

inductive TaskAssignment where
  | driver
  | worker (workerId slot : Nat)

structure TaskSetAssignment where
  set : TaskSet
  assignment : TaskAssignment

namespace TaskSetAssignment

def placement (a : TaskSetAssignment) : TaskPlacement :=
  match a.assignment with
  | .driver => .driver
  | .worker _ _ => .worker

def workerSlot? (a : TaskSetAssignment) : Option (Nat × Nat) :=
  match a.assignment with
  | .driver => none
  | .worker workerId slot => some (workerId, slot)

end TaskSetAssignment

structure TaskAssignerOptions where
  workerMaxCount : Nat
  workerTaskSlots : Nat

structure TaskAssigner where
  options : TaskAssignerOptions
  /-- The task slots on the driver. -/
  driver : List TaskSlot
  workers : Workers
  requestedWorkerCount : Nat
  taskAssignments : KeyedMap (Prod.fst : TaskKey × TaskAssignment → TaskKey)
  taskQueue : List TaskRegion

/-! ### The pool of slots -/

inductive PlacementPolicy where
  | fillFirst
  | evenSpread

/-- The slots of each worker that can be assigned. -/
abbrev SlotPool := List (Nat × List Nat)

namespace SlotPool

def vacant (slots : SlotPool) : List (Nat × Nat) := slots.flatMap fun w => w.2.map (w.1, ·)

/-- The worker with the most free slots, the first one on ties. -/
def mostFree (slots : SlotPool) : Option Nat :=
  (slots.zipIdx.foldl (fun best w =>
    if best.2 < w.1.2.length then (some w.2, w.1.2.length) else best) (none, 0)).1

/-- The worker that a policy takes the next slot from. -/
def choose (slots : SlotPool) : PlacementPolicy → Option Nat
  | .fillFirst => slots.findIdx? fun w => !w.2.isEmpty
  | .evenSpread => slots.mostFree

/-- Takes the last slot of a worker. -/
def popSlot (slots : SlotPool) (i : Nat) : Option ((Nat × Nat) × SlotPool) := do
  let w ← slots[i]?
  let slot ← w.2.getLast?
  return ((w.1, slot), slots.set i (w.1, w.2.dropLast))

def next (slots : SlotPool) (policy : PlacementPolicy) : Option ((Nat × Nat) × SlotPool) := do
  slots.popSlot (← slots.choose policy)

variable {slots : SlotPool}

theorem popSlot_spec {i : Nat} {w : Nat × List Nat} (hi : slots[i]? = some w) (hw : w.2 ≠ []) :
    ∃ taken rest, slots.popSlot i = some (taken, rest) ∧
      slots.vacant.Perm (taken :: rest.vacant) := by
  refine ⟨(w.1, w.2.getLast hw), slots.set i (w.1, w.2.dropLast), ?_, ?_⟩
  · simp [popSlot, hi, List.getLast?_eq_some_getLast hw]
  · obtain ⟨hlt, rfl⟩ := List.getElem?_eq_some_iff.mp hi
    have hsplit := List.take_append_drop i slots
    rw [List.drop_eq_getElem_cons hlt] at hsplit
    rw [List.set_eq_take_append_cons_drop, if_pos hlt]
    nth_rewrite 1 [← hsplit]
    simp only [vacant, List.flatMap_append, List.flatMap_cons]
    have hlast : (slots[i].2.map (slots[i].1, ·)).Perm
        ((slots[i].1, slots[i].2.getLast hw) :: slots[i].2.dropLast.map (slots[i].1, ·)) := by
      nth_rewrite 1 [← List.dropLast_append_getLast hw]
      rw [List.map_append, List.map_singleton]
      exact List.perm_append_singleton _ _
    refine (((hlast.append_right _).append_left _).trans ?_)
    exact List.perm_middle

theorem mostFree_go (l : List ((Nat × List Nat) × Nat)) (best : Option Nat × Nat) :
    let r := l.foldl (fun best w =>
      if best.2 < w.1.2.length then (some w.2, w.1.2.length) else best) best
    best.2 ≤ r.2 ∧ (∀ w ∈ l, w.1.2.length ≤ r.2) ∧
      (r = best ∨ ∃ w ∈ l, r.1 = some w.2 ∧ w.1.2 ≠ []) := by
  induction l generalizing best with
  | nil => exact ⟨le_rfl, List.forall_mem_nil _, .inl rfl⟩
  | cons w l ih =>
    rw [List.foldl_cons]
    split
    next hlt =>
      obtain ⟨hle, hall, hr⟩ := ih (some w.2, w.1.2.length)
      refine ⟨by omega, List.forall_mem_cons.mpr ⟨hle, hall⟩, .inr ?_⟩
      rcases hr with hr | ⟨v, hv, hr⟩
      · exact ⟨w, List.mem_cons_self, by rw [hr], List.ne_nil_of_length_pos (by omega)⟩
      · exact ⟨v, List.mem_cons_of_mem _ hv, hr⟩
    next hge =>
      obtain ⟨hle, hall, hr⟩ := ih best
      refine ⟨hle, List.forall_mem_cons.mpr ⟨by omega, hall⟩, hr.imp_right ?_⟩
      rintro ⟨v, hv, hr⟩
      exact ⟨v, List.mem_cons_of_mem _ hv, hr⟩

/-- A policy finds a worker with a slot if there is one. -/
theorem choose_spec (slots : SlotPool) (policy : PlacementPolicy) :
    match slots.choose policy with
    | none => ∀ w ∈ slots, w.2 = []
    | some i => ∃ w, slots[i]? = some w ∧ w.2 ≠ [] := by
  cases policy with
  | fillFirst =>
    split
    next h => simpa using List.findIdx?_eq_none_iff.mp h
    next i h =>
      obtain ⟨hlt, hi, -⟩ := List.findIdx?_eq_some_iff_getElem.mp h
      exact ⟨slots[i], List.getElem?_eq_getElem hlt, by simpa using hi⟩
  | evenSpread =>
    obtain ⟨-, hall, hr⟩ := mostFree_go slots.zipIdx (none, 0)
    unfold choose mostFree
    rcases hr with hr | ⟨w, hw, hr, hne⟩
    · rw [hr] at hall ⊢
      intro w hw
      obtain ⟨i, hi⟩ := List.mem_iff_getElem?.mp hw
      have hle := hall (w, i) (List.mk_mem_zipIdx_iff_getElem?.mpr hi)
      exact List.length_eq_zero_iff.mp (Nat.le_zero.mp hle)
    · rw [hr]
      exact ⟨w.1, List.mem_zipIdx_iff_getElem?.mp hw, hne⟩

/-- A slot taken leaves the pool, and there is none only if the pool is empty. -/
theorem next_spec (slots : SlotPool) (policy : PlacementPolicy) :
    match slots.next policy with
    | none => slots.vacant = []
    | some (taken, rest) => slots.vacant.Perm (taken :: rest.vacant) := by
  have hspec := choose_spec slots policy
  unfold next
  cases hi : slots.choose policy with
  | none =>
    rw [hi] at hspec
    exact List.flatMap_eq_nil_iff.mpr fun w hw => by rw [hspec w hw, List.map_nil]
  | some i =>
    rw [hi] at hspec
    obtain ⟨w, hw, hne⟩ := hspec
    obtain ⟨taken, rest, hpop, hperm⟩ := popSlot_spec hw hne
    simpa [hpop] using hperm

end SlotPool

/-! ### Regions -/

/-- The loop of `try_assign_task_region`: the assignments, if there are enough slots, and what is
left. -/
def tryAssignTasks (policy : PlacementPolicy) :
    SlotPool → List (TaskPlacement × TaskSet) → Option (List TaskSetAssignment) × SlotPool
  | slots, [] => (some [], slots)
  | slots, (.driver, set) :: tasks =>
    let r := tryAssignTasks policy slots tasks
    (r.1.map (⟨set, .driver⟩ :: ·), r.2)
  | slots, (.worker, set) :: tasks =>
    match slots.next policy with
    | none => (none, slots)
    | some (taken, slots) =>
      let r := tryAssignTasks policy slots tasks
      (r.1.map (⟨set, .worker taken.1 taken.2⟩ :: ·), r.2)

/-- A region that does not fit comes back as the error. -/
def tryAssignTaskRegion (policy : PlacementPolicy) (slots : SlotPool) (region : TaskRegion) :
    Except TaskRegion (List TaskSetAssignment) × SlotPool :=
  match tryAssignTasks policy slots region.tasks with
  | (some assignments, slots) => (.ok assignments, slots)
  | (none, slots) => (.error region, slots)

/-- The loop of `assign_tasks` over the queue: the assignments, and the queue afterwards. -/
def assignRegions (policy : PlacementPolicy) :
    SlotPool → List TaskRegion → List TaskSetAssignment × List TaskRegion
  | _, [] => ([], [])
  | slots, region :: queue =>
    match tryAssignTaskRegion policy slots region with
    | (.ok assignments, slots) =>
      let r := assignRegions policy slots queue
      (assignments ++ r.1, r.2)
    | (.error region, _) => ([], region :: queue)

def usedSlots (assignments : List TaskSetAssignment) : List (Nat × Nat) :=
  assignments.filterMap TaskSetAssignment.workerSlot?

/-- The assignments place all of the sets, in order, and take slots out of the pool. -/
structure Places (slots rest : SlotPool) (tasks : List (TaskPlacement × TaskSet))
    (assignments : List TaskSetAssignment) : Prop where
  sets : assignments.map (fun a => (a.placement, a.set)) = tasks
  slots : slots.vacant.Perm (usedSlots assignments ++ rest.vacant)

theorem Places.append {slots mid rest : SlotPool} {tasks tasks' : List (TaskPlacement × TaskSet)}
    {assignments assignments' : List TaskSetAssignment} (h : Places slots mid tasks assignments)
    (h' : Places mid rest tasks' assignments') :
    Places slots rest (tasks ++ tasks') (assignments ++ assignments') where
  sets := by rw [List.map_append, h.sets, h'.sets]
  slots := by
    rw [usedSlots, List.filterMap_append, List.append_assoc]
    exact h.slots.trans (h'.slots.append_left _)

theorem tryAssignTasks_spec (policy : PlacementPolicy) (slots : SlotPool)
    (tasks : List (TaskPlacement × TaskSet)) :
    match tryAssignTasks policy slots tasks with
    | (some assignments, rest) => Places slots rest tasks assignments
    | (none, _) => slots.vacant.length < (tasks.filter (·.1 = .worker)).length := by
  induction tasks generalizing slots with
  | nil => exact ⟨rfl, List.Perm.refl _⟩
  | cons task tasks ih =>
    obtain ⟨placement, set⟩ := task
    cases placement with
    | driver =>
      have ih := ih slots
      rw [tryAssignTasks]
      split at ih
      next assignments rest heq =>
        rw [heq]
        exact ⟨congrArg _ ih.sets, ih.slots⟩
      next rest heq =>
        rw [heq]
        exact ih
    | worker =>
      have hnext := slots.next_spec policy
      rw [tryAssignTasks]
      split at hnext
      next hnone => simp [hnext]
      next taken slots' hsome =>
        have ih := ih slots'
        split at ih
        next assignments rest heq =>
          rw [heq]
          exact ⟨congrArg _ ih.sets, hnext.trans (ih.slots.cons taken)⟩
        next rest heq =>
          rw [heq]
          have hlength := hnext.length_eq
          simp only [List.length_cons] at hlength
          simp
          omega

/-- The loop assigns a prefix, and stops at a region with more worker sets than slots left. -/
theorem assignRegions_spec (policy : PlacementPolicy) (slots : SlotPool) (queue : List TaskRegion) :
    ∃ taken rest, queue = taken ++ (assignRegions policy slots queue).2 ∧
      Places slots rest (taken.flatMap TaskRegion.tasks) (assignRegions policy slots queue).1 ∧
      ∀ region ∈ (assignRegions policy slots queue).2.head?,
        rest.vacant.length < region.workerSlots := by
  induction queue generalizing slots with
  | nil => exact ⟨[], slots, rfl, ⟨rfl, List.Perm.refl _⟩, nofun⟩
  | cons region queue ih =>
    have hregion := tryAssignTasks_spec policy slots region.tasks
    rw [assignRegions, tryAssignTaskRegion]
    split at hregion
    next assignments mid heq =>
      obtain ⟨taken, rest, hqueue, hplaces, hblocked⟩ := ih mid
      refine ⟨region :: taken, rest, congrArg _ hqueue, ?_, hblocked⟩
      exact hregion.append hplaces
    next mid heq =>
      refine ⟨[], slots, rfl, ⟨rfl, List.Perm.refl _⟩, ?_⟩
      rintro _ ⟨⟩
      exact hregion

namespace TaskAssigner

def vacantSlots (s : TaskAssigner) : List (Nat × Nat) :=
  s.workers.entries.flatMap fun w => w.2.vacantSlots.map (w.1, ·)

def buildWorkerTaskSlotAssigner (s : TaskAssigner) : SlotPool :=
  s.workers.entries.filterMap fun w =>
    if w.2.vacantSlots.isEmpty then none else some (w.1, w.2.vacantSlots)

/-- `DriverResource::add_task_set`: into the first vacant slot, or into a new one. -/
def addDriverTaskSet (set : TaskSet) : List TaskSlot → List TaskSlot
  | [] => [TaskSlot.addTasks [] set]
  | slot :: slots =>
    if slot.isEmpty then slot.addTasks set :: slots else slot :: addDriverTaskSet set slots

def recordTasks (s : TaskAssigner) (a : TaskSetAssignment) : TaskAssigner :=
  { s with taskAssignments :=
      s.taskAssignments.insertAll (a.set.entries.map fun e => (e.key, a.assignment)) }

/-- What `assign_tasks` changes for an assignment. -/
def addAssignment (s : TaskAssigner) (a : TaskSetAssignment) : TaskAssigner :=
  match a.assignment with
  | .driver => { s with driver := addDriverTaskSet a.set s.driver }.recordTasks a
  | .worker workerId slot =>
    if (s.workers.get? workerId).isSome then
      { s with workers := s.workers.modify workerId (.addTaskSet slot a.set) }.recordTasks a
    else s

def assignTasks (s : TaskAssigner) (policy : PlacementPolicy) :
    List TaskSetAssignment × TaskAssigner :=
  if 0 < s.requestedWorkerCount then ([], s)
  else
    let r := assignRegions policy s.buildWorkerTaskSlotAssigner s.taskQueue
    (r.1, r.1.foldl addAssignment { s with taskQueue := r.2 })

theorem nodup_vacantSlots (s : TaskAssigner) : s.vacantSlots.Nodup := by
  refine List.nodup_flatMap.mpr ⟨fun w _ => ?_, ?_⟩
  · exact w.2.nodup_vacantSlots.map fun _ _ h => (Prod.mk.inj h).2
  · refine (List.pairwise_map.mp s.workers.nodup).imp fun hne => ?_
    show List.Disjoint _ _
    intro p hp hp'
    obtain ⟨_, -, rfl⟩ := List.mem_map.mp hp
    obtain ⟨_, -, heq⟩ := List.mem_map.mp hp'
    exact hne (Prod.mk.inj heq).1.symm

/-- Workers without a vacant slot are left out of the pool. -/
theorem vacant_buildWorkerTaskSlotAssigner (s : TaskAssigner) :
    s.buildWorkerTaskSlotAssigner.vacant = s.vacantSlots := by
  unfold buildWorkerTaskSlotAssigner vacantSlots SlotPool.vacant
  induction s.workers.entries with
  | nil => rfl
  | cons w ws ih =>
    rw [List.filterMap_cons, List.flatMap_cons, ← ih]
    by_cases hw : w.2.vacantSlots.isEmpty
    · simp [List.isEmpty_iff.mp hw]
    · simp [hw]

theorem taskQueue_foldl_addAssignment (assignments : List TaskSetAssignment) (s : TaskAssigner) :
    (assignments.foldl addAssignment s).taskQueue = s.taskQueue := by
  induction assignments generalizing s with
  | nil => rfl
  | cons a assignments ih =>
    rw [List.foldl_cons, ih]
    unfold addAssignment
    split
    · rfl
    · split <;> rfl

/-- With no launch outstanding a prefix of the queue is assigned, to vacant slots and none twice;
the first region that is left has more worker sets than there are vacant slots left. -/
theorem assignTasks_all_or_nothing (s : TaskAssigner) (policy : PlacementPolicy)
    (hrequested : s.requestedWorkerCount = 0) :
    ∃ taken, s.taskQueue = taken ++ (s.assignTasks policy).2.taskQueue ∧
      (s.assignTasks policy).1.map (fun a => (a.placement, a.set)) =
        taken.flatMap TaskRegion.tasks ∧
      (usedSlots (s.assignTasks policy).1).Nodup ∧
      usedSlots (s.assignTasks policy).1 ⊆ s.vacantSlots ∧
      ∀ region ∈ (s.assignTasks policy).2.taskQueue.head?,
        s.vacantSlots.length - (usedSlots (s.assignTasks policy).1).length <
          region.workerSlots := by
  obtain ⟨taken, rest, hqueue, hplaces, hblocked⟩ :=
    assignRegions_spec policy s.buildWorkerTaskSlotAssigner s.taskQueue
  have hperm := hplaces.slots
  rw [vacant_buildWorkerTaskSlotAssigner] at hperm
  have hnodup := hperm.nodup_iff.mp s.nodup_vacantSlots
  have hlength := hperm.length_eq
  rw [List.length_append] at hlength
  unfold assignTasks
  rw [if_neg (by omega)]
  simp only [taskQueue_foldl_addAssignment]
  refine ⟨taken, hqueue, hplaces.sets, hnodup.of_append_left, ?_, fun region hregion => ?_⟩
  · exact fun p hp => hperm.mem_iff.mpr (List.mem_append_left _ hp)
  · have := hblocked region hregion
    omega

/-- Two workers with one slot each, and two regions of two worker sets: the second one waits. -/
def busyAssigner : TaskAssigner where
  options := ⟨2, 1⟩
  driver := []
  workers := ⟨[(1, .active [[]]), (2, .active [[]])], by simp⟩
  requestedWorkerCount := 0
  taskAssignments := .empty
  taskQueue := List.replicate 2 ⟨[(.worker, ⟨[]⟩), (.driver, ⟨[]⟩), (.worker, ⟨[]⟩)]⟩

theorem busyAssigner_assignTasks :
    busyAssigner.requestedWorkerCount = 0 ∧
      (busyAssigner.assignTasks .evenSpread).2.taskQueue.length = 1 ∧
      (usedSlots (busyAssigner.assignTasks .evenSpread).1).Nodup := by
  obtain ⟨_, -, -, hnodup, -⟩ := assignTasks_all_or_nothing busyAssigner .evenSpread rfl
  exact ⟨rfl, rfl, hnodup⟩

end TaskAssigner

end Zelox.Driver
