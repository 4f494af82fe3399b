import Zelox.Driver.TaskAssigner
import Zelox.Lib.Runs

/-!
# The number of workers

Workers are started for the slots that queued regions lack, up to `worker_max_count` together with
those that are active or have been requested.  `requested_worker_count` stands for the pending
workers, but the initial workers are started without being counted there: while they register,
the cap is missed by their number.  It holds in every run exactly if there are none
(`capped_iff`).

Which tasks are queued and which slots are taken is up to the jobs: `JobWork` is any outcome.
Addresses, clients and clock values are left out, and an id is the position in the pool.
-/

namespace Zelox.Driver

open List

/-! ### The assigner's counts -/

def WorkerResource.isActive : WorkerResource → Bool
  | active _ => true
  | inactive => false

namespace TaskAssigner

def activeWorkers (s : TaskAssigner) : Nat := s.workers.entries.countP (·.2.isActive)

/-- The number of workers to start, which are counted as requested. -/
def requestWorkers (s : TaskAssigner) : Nat × TaskAssigner :=
  let requiredSlots := (s.taskQueue.map TaskRegion.workerSlots).sum - s.vacantSlots.length
  let slots := s.options.workerTaskSlots
  let required := (requiredSlots + slots - 1) / slots
  let requiredWorkers :=
    if s.options.workerMaxCount = 0 then required
    else min required (s.options.workerMaxCount - s.requestedWorkerCount - s.activeWorkers)
  (requiredWorkers, { s with requestedWorkerCount := s.requestedWorkerCount + requiredWorkers })

def trackWorkerFailedToStart (s : TaskAssigner) : TaskAssigner :=
  { s with requestedWorkerCount := s.requestedWorkerCount - 1 }

def activateWorker (s : TaskAssigner) (id : Nat) : TaskAssigner :=
  { s with
    requestedWorkerCount := s.requestedWorkerCount - 1
    workers :=
      if (s.workers.get? id).isSome then s.workers
      else s.workers.insert (id, .active (List.replicate s.options.workerTaskSlots [])) }

def deactivateWorker (s : TaskAssigner) (id : Nat) : TaskAssigner :=
  { s with workers := s.workers.modify id fun _ => .inactive }

end TaskAssigner

/-- What the jobs leave in the queue and in the slots of the active workers. -/
structure JobWork where
  queue : List TaskRegion
  slots : Nat → List TaskSlot

def TaskAssigner.doWork (s : TaskAssigner) (work : JobWork) : TaskAssigner :=
  { s with
    taskQueue := work.queue
    workers := s.workers.update fun id worker =>
      if worker.isActive then .active (work.slots id) else worker }

/-! ### The driver -/

inductive WorkerState where
  | pending
  | running
  | completed
  | failed
deriving DecidableEq

structure WorkerDriver where
  assigner : TaskAssigner
  /-- The worker pool. -/
  pool : List WorkerState
  serverReady : Bool
  workerInitialCount : Nat

/-- A probe may find that the worker's time is over, and its client may fail. -/
inductive DriverEvent where
  | serverReady
  | registerWorker (id : Nat) (work : JobWork)
  | probePendingWorker (id : Nat)
  | probeIdleWorker (id : Nat) (expired clientFails : Bool)
  | probeLostWorker (id : Nat) (expired clientFails : Bool) (works : List JobWork)
  | executeJob (work : JobWork)
  | updateTask (work : JobWork) (ended : Bool)
  | cleanUpJob (work : JobWork)

namespace WorkerDriver

def live (d : WorkerDriver) : Nat :=
  d.pool.countP (fun w => w = .pending) + d.pool.countP fun w => w = .running

def doWork (d : WorkerDriver) (work : JobWork) : WorkerDriver :=
  { d with assigner := d.assigner.doWork work }

/-- `start_worker`, `n` times. -/
def startWorkers (d : WorkerDriver) (n : Nat) : WorkerDriver :=
  { d with pool := d.pool ++ List.replicate n .pending }

def scaleUpWorkers (d : WorkerDriver) : WorkerDriver :=
  { d with assigner := d.assigner.requestWorkers.2 }.startWorkers d.assigner.requestWorkers.1

/-- `stop_worker` of a running worker, and `deactivate_worker`. -/
def stopWorker (d : WorkerDriver) (id : Nat) (clientFails : Bool) : WorkerDriver :=
  { d with
    pool := d.pool.set id (if clientFails then .failed else .completed)
    assigner := d.assigner.deactivateWorker id }

def step (d : WorkerDriver) : DriverEvent → WorkerDriver
  | .serverReady =>
    -- a second one stops the driver
    if d.serverReady then d
    else { d with serverReady := true }.startWorkers d.workerInitialCount
  | .registerWorker id work =>
    if d.pool[id]? = some .pending then
      { d with
        pool := d.pool.set id .running
        assigner := d.assigner.activateWorker id }.doWork work
    else d
  | .probePendingWorker id =>
    if d.pool[id]? = some .pending then
      { d with
        pool := d.pool.set id .failed
        assigner := d.assigner.trackWorkerFailedToStart }.scaleUpWorkers
    else d
  | .probeIdleWorker id expired clientFails =>
    if expired ∧ d.pool[id]? = some .running then d.stopWorker id clientFails else d
  | .probeLostWorker id expired clientFails works =>
    if expired ∧ d.pool[id]? = some .running then
      works.foldl (fun d work => (d.doWork work).scaleUpWorkers) (d.stopWorker id clientFails)
    else d
  | .executeJob work | .updateTask work true => (d.doWork work).scaleUpWorkers
  | .updateTask work false | .cleanUpJob work => d.doWork work

/-- A driver that has just been started. -/
def new (options : TaskAssignerOptions) (workerInitialCount : Nat) : WorkerDriver where
  assigner := ⟨options, [], .empty, 0, .empty, []⟩
  pool := []
  serverReady := false
  workerInitialCount := workerInitialCount

/-! ### Without initial workers -/

/-- Pending workers are requested, and running ones active; no pending one has been active. -/
structure Inv (options : TaskAssignerOptions) (d : WorkerDriver) : Prop where
  pending : d.pool.countP (fun w => w = .pending) ≤ d.assigner.requestedWorkerCount
  running : d.pool.countP (fun w => w = .running) ≤ d.assigner.activeWorkers
  known : ∀ w ∈ d.assigner.workers.entries, ∃ state, d.pool[w.1]? = some state ∧ state ≠ .pending
  cap : d.assigner.requestedWorkerCount + d.assigner.activeWorkers ≤ options.workerMaxCount
  options : d.assigner.options = options
  initial : d.workerInitialCount = 0

theorem countP_set {pool : List WorkerState} {id : Nat} {old : WorkerState}
    (h : pool[id]? = some old) (new : WorkerState) (p : WorkerState → Bool) :
    (pool.set id new).countP p + (if p old then 1 else 0) =
      pool.countP p + if p new then 1 else 0 := by
  obtain ⟨hlt, rfl⟩ := List.getElem?_eq_some_iff.mp h
  rw [List.countP_set hlt]
  by_cases hold : p pool[id]
  · have := countP_pos_iff.mpr ⟨_, getElem_mem hlt, hold⟩
    simp only [hold, if_true]
    omega
  · simp only [hold, Bool.false_eq_true, if_false]
    omega

theorem countP_startWorkers (d : WorkerDriver) (n : Nat) (p : WorkerState → Bool) :
    (d.startWorkers n).pool.countP p = d.pool.countP p + if p .pending then n else 0 := by
  rw [startWorkers, countP_append, countP_replicate]

theorem activeWorkers_update (workers : Workers) (f : Nat → WorkerResource → WorkerResource) :
    (workers.update f).entries.countP (·.2.isActive) =
      workers.entries.countP fun w => (f w.1 w.2).isActive := by
  rw [Workers.update, countP_map]
  rfl

/-- At most one entry of the table is for the worker. -/
theorem activeWorkers_deactivateWorker (s : TaskAssigner) (id : Nat) :
    (s.deactivateWorker id).activeWorkers ≤ s.activeWorkers ∧
      s.activeWorkers ≤ (s.deactivateWorker id).activeWorkers + 1 := by
  have hactive : (s.deactivateWorker id).activeWorkers =
      (s.workers.entries.filter fun w => !decide (w.1 = id)).countP (·.2.isActive) := by
    rw [countP_filter, TaskAssigner.activeWorkers, TaskAssigner.deactivateWorker,
      Workers.modify, activeWorkers_update]
    refine countP_congr fun w _ => ?_
    split <;> simp_all [WorkerResource.isActive]
  have hone : (s.workers.entries.filter fun w => w.1 = id).length ≤ 1 := by
    have hcount := nodup_iff_count_le_one.mp s.workers.nodup id
    rw [List.count, countP_map, countP_eq_length_filter] at hcount
    exact hcount
  have hle := countP_le_length (p := fun w : Nat × WorkerResource => w.2.isActive)
    (l := s.workers.entries.filter fun w => w.1 = id)
  have hsplit := countP_eq_countP_filter_add s.workers.entries (·.2.isActive) fun w => w.1 = id
  rw [hactive]
  unfold TaskAssigner.activeWorkers
  omega

section

variable {options : TaskAssignerOptions} {d : WorkerDriver} (h : d.Inv options)
include h

/-- One worker leaves a state for another one, and the assigner's counts follow. -/
theorem Inv.set {id : Nat} {old new : WorkerState} {s : TaskAssigner}
    (hid : d.pool[id]? = some old) (hnew : new ≠ .pending) (hoptions : s.options = options)
    (hrequested : d.assigner.requestedWorkerCount ≤
      s.requestedWorkerCount + if old = .pending then 1 else 0)
    (hactive : d.assigner.activeWorkers + (if new = .running then 1 else 0) ≤
      s.activeWorkers + if old = .running then 1 else 0)
    (hcap : s.requestedWorkerCount + s.activeWorkers ≤ options.workerMaxCount)
    (hknown : ∀ w ∈ s.workers.entries, w.1 = id ∨ ∃ v ∈ d.assigner.workers.entries, v.1 = w.1) :
    Inv options { d with pool := d.pool.set id new, assigner := s } := by
  have hpending := countP_set hid new fun w => w = .pending
  have hrunning := countP_set hid new fun w => w = .running
  simp only [decide_eq_true_eq, hnew, if_false] at hpending hrunning
  obtain ⟨hlt, -⟩ := List.getElem?_eq_some_iff.mp hid
  refine ⟨?_, ?_, fun w hw => ?_, hcap, hoptions, h.initial⟩
  · have := h.pending
    show List.countP _ (d.pool.set id new) ≤ s.requestedWorkerCount
    omega
  · have := h.running
    show List.countP _ (d.pool.set id new) ≤ s.activeWorkers
    omega
  · show ∃ state, (d.pool.set id new)[w.1]? = some state ∧ _
    by_cases heq : w.1 = id
    · exact ⟨new, by simp [heq, hlt], hnew⟩
    · obtain ⟨v, hv, hvw⟩ := (hknown w hw).resolve_left heq
      rw [getElem?_set_ne (Ne.symm heq), ← hvw]
      exact h.known v hv

theorem Inv.doWork (work : JobWork) : (d.doWork work).Inv options := by
  have hactive : (d.doWork work).assigner.activeWorkers = d.assigner.activeWorkers := by
    show List.countP _ _ = _
    rw [WorkerDriver.doWork, TaskAssigner.doWork, activeWorkers_update]
    refine countP_congr fun w _ => ?_
    split <;> simp_all [WorkerResource.isActive]
  refine ⟨h.pending, hactive ▸ h.running, fun w hw => ?_, hactive ▸ h.cap, h.options, h.initial⟩
  obtain ⟨v, hv, rfl⟩ := mem_map.mp hw
  exact h.known v hv

theorem Inv.scaleUpWorkers (hmax : 0 < options.workerMaxCount) : d.scaleUpWorkers.Inv options where
  pending := by
    rw [WorkerDriver.scaleUpWorkers, countP_startWorkers]
    exact Nat.add_le_add_right h.pending _
  running := by
    rw [WorkerDriver.scaleUpWorkers, countP_startWorkers]
    exact h.running
  known w hw := by
    obtain ⟨state, hstate, hne⟩ := h.known w hw
    obtain ⟨hlt, -⟩ := List.getElem?_eq_some_iff.mp hstate
    exact ⟨state, (getElem?_append_left hlt).trans hstate, hne⟩
  cap := by
    have := h.cap
    show d.assigner.requestedWorkerCount + d.assigner.requestWorkers.1 +
      d.assigner.activeWorkers ≤ options.workerMaxCount
    simp only [TaskAssigner.requestWorkers, h.options]
    rw [if_neg (by omega)]
    omega
  options := h.options
  initial := h.initial

theorem Inv.stopWorker {id : Nat} (hid : d.pool[id]? = some .running) (clientFails : Bool) :
    (d.stopWorker id clientFails).Inv options := by
  obtain ⟨hle, hge⟩ := activeWorkers_deactivateWorker d.assigner id
  have hcap := h.cap
  have hnew : ∀ state ∈ [WorkerState.pending, .running],
      (if clientFails then WorkerState.failed else .completed) ≠ state := by
    cases clientFails <;> decide
  refine h.set hid (hnew _ (by simp)) h.options (le_rfl) ?_ ?_ ?_
  · rw [if_neg (hnew _ (by simp)), if_pos rfl]
    exact hge
  · exact le_trans (Nat.add_le_add_left hle _) hcap
  · intro w hw
    obtain ⟨v, hv, rfl⟩ := mem_map.mp hw
    exact .inr ⟨v, hv, rfl⟩

theorem Inv.registerWorker {id : Nat} (hid : d.pool[id]? = some .pending) :
    Inv options
      { d with pool := d.pool.set id .running, assigner := d.assigner.activateWorker id } := by
  have hnone : d.assigner.workers.get? id = none := by
    apply KeyedMap.get?_eq_none_iff.mpr
    rintro w hw rfl
    obtain ⟨state, hstate, hne⟩ := h.known w hw
    exact hne (Option.some.inj (hstate.symm.trans hid))
  have hpos : 0 < d.pool.countP fun w => w = .pending :=
    countP_pos_iff.mpr ⟨_, mem_of_getElem? hid, by simp⟩
  have hpending := h.pending
  have hcap := h.cap
  have hworkers : (d.assigner.activateWorker id).workers.entries = d.assigner.workers.entries ++
      [(id, .active (List.replicate d.assigner.options.workerTaskSlots []))] := by
    rw [TaskAssigner.activateWorker, if_neg (by simp [hnone])]
    exact KeyedMap.insert_of_get?_eq_none hnone
  have hactive : (d.assigner.activateWorker id).activeWorkers = d.assigner.activeWorkers + 1 := by
    rw [TaskAssigner.activeWorkers, hworkers, countP_append]
    rfl
  have hrequested : (d.assigner.activateWorker id).requestedWorkerCount =
      d.assigner.requestedWorkerCount - 1 := rfl
  refine h.set hid (by decide) h.options ?_ (by simp [hactive]) (by omega) fun w hw => ?_
  · rw [if_pos rfl]
    omega
  · rw [hworkers, mem_append, mem_singleton] at hw
    rcases hw with hw | rfl
    · exact .inr ⟨w, hw, rfl⟩
    · exact .inl rfl

theorem Inv.probePendingWorker {id : Nat} (hid : d.pool[id]? = some .pending) :
    Inv options { d with
      pool := d.pool.set id .failed
      assigner := d.assigner.trackWorkerFailedToStart } := by
  have hcap := h.cap
  refine h.set hid (by decide) h.options ?_ (le_rfl) ?_ fun w hw => .inr ⟨w, hw, rfl⟩
  · show _ ≤ d.assigner.requestedWorkerCount - 1 + 1
    omega
  · show d.assigner.requestedWorkerCount - 1 + d.assigner.activeWorkers ≤ _
    omega

theorem Inv.step (hmax : 0 < options.workerMaxCount) (event : DriverEvent) :
    (d.step event).Inv options := by
  cases event with
  | serverReady =>
    simp only [WorkerDriver.step]
    split
    · exact h
    · obtain ⟨assigner, pool, ready, initial⟩ := d
      obtain rfl : initial = 0 := h.initial
      simp only [startWorkers, replicate_zero, append_nil]
      exact ⟨h.pending, h.running, h.known, h.cap, h.options, rfl⟩
  | registerWorker id work =>
    simp only [WorkerDriver.step]
    split
    next hid => exact (h.registerWorker hid).doWork work
    · exact h
  | probePendingWorker id =>
    simp only [WorkerDriver.step]
    split
    next hid => exact (h.probePendingWorker hid).scaleUpWorkers hmax
    · exact h
  | probeIdleWorker id expired clientFails =>
    simp only [WorkerDriver.step]
    split
    next hid => exact h.stopWorker hid.2 clientFails
    · exact h
  | probeLostWorker id expired clientFails works =>
    simp only [WorkerDriver.step]
    split
    next hid =>
      exact Runs.run_inv _ (Inv options) (fun _ work h => (h.doWork work).scaleUpWorkers hmax) _
        works (h.stopWorker hid.2 clientFails)
    · exact h
  | executeJob work => exact (h.doWork work).scaleUpWorkers hmax
  | updateTask work ended =>
    cases ended with
    | true => exact (h.doWork work).scaleUpWorkers hmax
    | false => exact h.doWork work
  | cleanUpJob work => exact h.doWork work

end

/-- One initial worker and a cap of one: a job comes before the worker has registered. -/
theorem cap_missed :
    (Runs.run step (new ⟨1, 1⟩ 1)
      [.serverReady, .executeJob ⟨[⟨[(.worker, ⟨[]⟩)]⟩], fun _ => []⟩]).live = 2 := by
  decide

/-- The cap holds in every run exactly if no worker is started initially. -/
theorem capped_iff (options : TaskAssignerOptions) (workerInitialCount : Nat)
    (hmax : 0 < options.workerMaxCount) (hslots : 0 < options.workerTaskSlots) :
    (∀ events, (Runs.run step (new options workerInitialCount) events).live ≤
      options.workerMaxCount) ↔ workerInitialCount = 0 := by
  constructor
  · intro hcapped
    -- a job that asks for all slots of the workers that are allowed
    let work : JobWork := ⟨[⟨List.replicate (options.workerMaxCount * options.workerTaskSlots)
      (.worker, ⟨[]⟩)⟩], fun _ => []⟩
    let d := ((new options workerInitialCount).step .serverReady).doWork work
    have hrequest : d.assigner.requestWorkers.1 = options.workerMaxCount := by
      show (if options.workerMaxCount = 0 then _ else
        min _ (options.workerMaxCount - 0 - 0)) = options.workerMaxCount
      rw [if_neg (by omega)]
      refine Nat.min_eq_right ((Nat.le_div_iff_mul_le hslots).mpr ?_)
      have hqueue : (d.assigner.taskQueue.map TaskRegion.workerSlots).sum =
          options.workerMaxCount * options.workerTaskSlots := by
        simp [d, work, doWork, TaskAssigner.doWork, TaskRegion.workerSlots]
      have hvacant : d.assigner.vacantSlots.length = 0 := rfl
      rw [hqueue, hvacant, Nat.sub_zero, Nat.sub_zero, Nat.sub_zero]
      show _ ≤ _ + options.workerTaskSlots - 1
      omega
    have hrun : d.scaleUpWorkers.live ≤ options.workerMaxCount :=
      hcapped [.serverReady, .executeJob work]
    rw [live, scaleUpWorkers, countP_startWorkers, hrequest] at hrun
    have hinitial : d.pool.countP (fun w => w = .pending) = workerInitialCount := by
      simp [d, doWork, step, new, startWorkers, countP_replicate]
    simp only [decide_true, if_true] at hrun
    omega
  · rintro rfl events
    have hinv := Runs.run_inv step (Inv options) (fun _ event h => h.step hmax event)
      (new options 0) events
      ⟨le_rfl, le_rfl, forall_mem_nil _, Nat.zero_le _, rfl, rfl⟩
    have hpending := hinv.pending
    have hrunning := hinv.running
    have hcap := hinv.cap
    unfold live
    omega

theorem capped_two_workers :
    0 < 2 ∧ ∀ events, (Runs.run step (new ⟨2, 4⟩ 0) events).live ≤ 2 :=
  ⟨by decide, (capped_iff ⟨2, 4⟩ 0 (by decide) (by decide)).mpr rfl⟩

end WorkerDriver

end Zelox.Driver
