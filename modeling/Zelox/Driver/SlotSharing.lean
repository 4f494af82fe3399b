import Zelox.Driver.Scheduler
import Zelox.Lib.Lists

/-!
# Slots of a region

The tasks of a region are put into task sets, one set for a slot.  Each task is in one set and no
two tasks of a stage are in the same set, whatever the region.  But the sets are made by the
partition counts of the stages, not by the tasks that the region has of them: a region that is one
partition of a component with forward inputs has a single task of each stage, and as many sets as
the component has partitions, all but one of them empty.  No set is empty, and no slot is asked for
in vain, if and only if the region has all partitions of its stages (`sharesSlots_iff`).
-/

namespace Zelox.Driver

open JobTopology List

/-- The slots that a queued region asks for in `request_workers`. -/
def TaskRegion.workerSlots (region : TaskRegion) : Nat :=
  (region.tasks.filter (·.1 = .worker)).length

namespace JobDescriptor

variable {P E S : Type} [ExecutionPlan P S]

/-- The key of the latest attempt of a task. -/
def taskKey (job : JobDescriptor P E S) (jobId : Nat) (t : TaskTopology) : TaskKey :=
  ⟨jobId, t.stage, t.partition, (job.attempts t).length - 1⟩

/-- The largest number of tasks that a stage of the group has in the region. -/
def largestStage (job : JobDescriptor P E S) (region : TaskRegionTopology) (key : GroupKey) : Nat :=
  ((regionStages region).filter fun s => job.graph.stages[s]?.map groupKey = some key).foldl
    (fun n s => max n (region.tasks.countP (·.stage = s))) 0

/-- How the tasks of a region should share slots. -/
structure SharesSlots (job : JobDescriptor P E S) (jobId : Nat) (region : TaskRegionTopology) : Prop
    where
  once : ((job.buildTaskRegion jobId region).tasks.flatMap fun set => set.2.entries.map (·.key)).Perm
    (region.tasks.map (job.taskKey jobId))
  stages : ∀ set ∈ (job.buildTaskRegion jobId region).tasks,
    (set.2.entries.map (·.key.stage)).Nodup
  nonempty : ∀ set ∈ (job.buildTaskRegion jobId region).tasks, set.2.entries ≠ []
  slots : (job.buildTaskRegion jobId region).workerSlots ≤
    (((job.regionGroups region).filter (·.1 = .worker)).map (job.largestStage region)).sum

/-- The region has all partitions of its stages. -/
def Whole (graph : JobGraph P E S) (region : TaskRegionTopology) : Prop :=
  ∀ t ∈ region.tasks, ∀ p < graph.partitions t.stage, ⟨t.stage, p⟩ ∈ region.tasks

/-! ## Regions of a topology -/

/-- All tasks of some stages, or one task for each of some stages with the same partition count. -/
structure IsRegion (graph : JobGraph P E S) (tasks : List TaskTopology) : Prop where
  nodup : tasks.Nodup
  inGraph : ∀ t ∈ tasks, t.partition < graph.partitions t.stage
  shape : (∀ t ∈ tasks, ∀ p < graph.partitions t.stage, ⟨t.stage, p⟩ ∈ tasks) ∨
    ∃ n p, ∀ t ∈ tasks, t.partition = p ∧ graph.partitions t.stage = n

theorem shape_of_componentRegions (graph : JobGraph P E S) {component : List Nat}
    {regions : List (List TaskTopology)}
    (h : componentRegions graph component = .ok regions) {tasks : List TaskTopology}
    (hmem : tasks ∈ regions) :
    (∀ t ∈ tasks, ∀ p < graph.partitions t.stage, ⟨t.stage, p⟩ ∈ tasks) ∨
      ∃ n p, ∀ t ∈ tasks, t.partition = p ∧ graph.partitions t.stage = n := by
  unfold componentRegions at h
  split at h
  · split at h
    · next n hn =>
      -- one partition of all stages of the component
      cases h
      right
      obtain ⟨p, -, rfl⟩ := mem_map.mp hmem
      refine ⟨n, p, fun t ht => ?_⟩
      obtain ⟨s, hs, rfl⟩ := mem_map.mp ht
      have hpart : graph.partitions s ∈ (component.map graph.partitions).dedup :=
        mem_dedup.mpr (mem_map_of_mem hs)
      rw [hn] at hpart
      exact ⟨rfl, mem_singleton.mp hpart⟩
    · cases h
  · cases h
    left
    obtain rfl := mem_singleton.mp hmem
    intro t ht p hp
    obtain ⟨s, hs, ht⟩ := mem_flatMap.mp ht
    obtain ⟨q, -, rfl⟩ := mem_map.mp ht
    exact mem_flatMap.mpr ⟨s, hs, mem_map.mpr ⟨p, mem_range.mpr hp, rfl⟩⟩

theorem exists_componentRegions (graph : JobGraph P E S) {components : List (List Nat)}
    {regions : List (List (List TaskTopology))}
    (h : components.mapM (componentRegions graph) = .ok regions)
    {tasks : List TaskTopology} (hmem : tasks ∈ regions.flatten) :
    ∃ component sliced, componentRegions graph component = .ok sliced ∧
      tasks ∈ sliced := by
  have hall := Results.forall₂_of_mapM_eq_ok h
  clear h
  induction hall with
  | nil => cases hmem
  | cons hc _ ih =>
    rcases mem_append.mp (flatten_cons ▸ hmem) with hmem | hmem
    · exact ⟨_, _, hc, hmem⟩
    · exact ih hmem

theorem nodup_jobTasks (graph : JobGraph P E S) : (jobTasks graph).Nodup := by
  refine nodup_flatMap.mpr ⟨fun s _ => ?_, nodup_range.imp fun {s s'} hne => ?_⟩
  · exact nodup_range.map fun p q heq => congrArg TaskTopology.partition heq
  · intro t ht ht'
    obtain ⟨p, -, rfl⟩ := mem_map.mp ht
    obtain ⟨q, -, heq⟩ := mem_map.mp ht'
    exact hne (congrArg TaskTopology.stage heq).symm

theorem isRegion_of_mem [DecidableEq S] {graph : JobGraph P E S} {topology : JobTopology}
    (h : tryNew graph = .ok topology) {region : TaskRegionTopology}
    (hmem : region ∈ topology.regions) : IsRegion graph region.tasks where
  nodup := by
    have hnodup := (tryNew_tasks_perm graph h).nodup_iff.mpr (nodup_jobTasks graph)
    exact (nodup_flatMap.mp hnodup).1 region hmem
  inGraph t ht := by
    have hjob := (tryNew_tasks_perm graph h).mem_iff.mp
      (mem_flatMap.mpr ⟨region, hmem, ht⟩)
    obtain ⟨s, -, hs⟩ := mem_flatMap.mp hjob
    obtain ⟨p, hp, rfl⟩ := mem_map.mp hs
    exact mem_range.mp hp
  shape := by
    unfold tryNew at h
    split at h
    case isFalse => cases h
    case isTrue =>
      cases hr : (Components.components (pipelinedAdjacency graph)
          graph.stages.length).mapM (componentRegions graph) with
      | error e =>
        rw [hr] at h
        cases h
      | ok regions =>
        rw [hr] at h
        cases h
        obtain ⟨x, hx, rfl⟩ := mem_map.mp hmem
        obtain ⟨component, sliced, hsliced, htasks⟩ :=
          exists_componentRegions graph hr (fst_mem_of_mem_zipIdx hx)
        exact shape_of_componentRegions graph hsliced htasks

/-! ## Buckets -/

theorem foldl_max_spec (f : Nat → Nat) (xs : List Nat) :
    (∀ x ∈ xs, f x ≤ xs.foldl (fun n x => max n (f x)) 0) ∧
      (0 < xs.foldl (fun n x => max n (f x)) 0 →
        ∃ x ∈ xs, f x = xs.foldl (fun n x => max n (f x)) 0) := by
  have hmax : xs.foldl (fun n x => max n (f x)) 0 = (xs.map f).max?.getD 0 := by
    rw [← foldl_map, foldl_max, Nat.zero_max]
  rw [hmax]
  cases h : (xs.map f).max? with
  | none => simp [map_eq_nil_iff.mp (max?_eq_none_iff.mp h)]
  | some m =>
    obtain ⟨hmem, hle⟩ := max?_eq_some_iff.mp h
    exact ⟨fun x hx => hle _ (mem_map_of_mem hx), fun _ => mem_map.mp hmem⟩

/-- The bucket index is a proportion, and different partitions get different buckets. -/
theorem bucket_injective {p p' partitions buckets : Nat} (hle : partitions ≤ buckets)
    (hpos : 0 < partitions) (h : p * buckets / partitions = p' * buckets / partitions) : p = p' := by
  have hlt : ∀ q q', q < q' → q * buckets / partitions < q' * buckets / partitions := by
    intro q q' hq
    have hstep : q * buckets / partitions + 1 ≤ (q + 1) * buckets / partitions := by
      rw [← Nat.add_div_right _ hpos, Nat.succ_mul]
      exact Nat.div_le_div_right (Nat.add_le_add_left hle _)
    exact hstep.trans (Nat.div_le_div_right (Nat.mul_le_mul_right _ hq))
  rcases Nat.lt_trichotomy p p' with hp | hp | hp
  · exact absurd h (ne_of_lt (hlt p p' hp))
  · exact hp
  · exact absurd h.symm (ne_of_lt (hlt p' p hp))

section

variable {job : JobDescriptor P E S} {region : TaskRegionTopology} (jobId : Nat)

theorem exists_stage (h : IsRegion job.graph region.tasks) {t : TaskTopology}
    (ht : t ∈ region.tasks) : ∃ stage, job.graph.stages[t.stage]? = some stage := by
  have hlt := h.inGraph t ht
  unfold JobGraph.partitions at hlt
  split at hlt
  · next stage hstage => exact ⟨stage, hstage⟩
  · exact absurd hlt (Nat.not_lt_zero _)

theorem partitions_le_groupBuckets {t : TaskTopology} (ht : t ∈ region.tasks) {stage : Stage P E}
    (hstage : job.graph.stages[t.stage]? = some stage) :
    job.graph.partitions t.stage ≤ job.groupBuckets region (groupKey stage) := by
  refine (foldl_max_spec job.graph.partitions _).1 t.stage ?_
  rw [mem_filter]
  refine ⟨mem_eraseDups.mpr (mem_map_of_mem ht), ?_⟩
  rw [hstage]
  exact decide_eq_true rfl

/-- A stage with the most partitions in its group. -/
theorem exists_groupBuckets {key : GroupKey} (h : 0 < job.groupBuckets region key) :
    ∃ t ∈ region.tasks, job.graph.stages[t.stage]?.map groupKey = some key ∧
      job.graph.partitions t.stage = job.groupBuckets region key := by
  obtain ⟨s, hs, hmost⟩ := (foldl_max_spec job.graph.partitions _).2 h
  obtain ⟨hs, hgroup⟩ := mem_filter.mp hs
  obtain ⟨t, ht, rfl⟩ := mem_map.mp (mem_eraseDups.mp hs)
  exact ⟨t, ht, of_decide_eq_true hgroup, hmost⟩

theorem taskEntry_spec (h : IsRegion job.graph region.tasks) {t : TaskTopology}
    (ht : t ∈ region.tasks) (hattempts : job.attempts t ≠ []) :
    ∃ stage output, job.graph.stages[t.stage]? = some stage ∧
      job.taskEntry jobId region t = some (groupKey stage,
        t.partition * job.groupBuckets region (groupKey stage) / job.graph.partitions t.stage,
        ⟨job.taskKey jobId t, output⟩) ∧
      groupKey stage ∈ job.regionGroups region ∧
      t.partition * job.groupBuckets region (groupKey stage) / job.graph.partitions t.stage <
        job.groupBuckets region (groupKey stage) := by
  obtain ⟨stage, hstage⟩ := exists_stage h ht
  have hlatest : job.latestAttempt t = some ((job.attempts t).length - 1) := by
    unfold latestAttempt
    rw [isEmpty_eq_false_iff.mpr hattempts]
    rfl
  obtain ⟨output, hentry⟩ : ∃ output, job.taskEntry jobId region t = some (groupKey stage,
      t.partition * job.groupBuckets region (groupKey stage) / job.graph.partitions t.stage,
      ⟨job.taskKey jobId t, output⟩) := by
    unfold taskEntry
    rw [hlatest, hstage]
    exact ⟨_, rfl⟩
  refine ⟨stage, output, hstage, hentry, ?_, ?_⟩
  · unfold regionGroups
    rw [mem_eraseDups, mem_filterMap]
    refine ⟨t.stage, mem_eraseDups.mpr (mem_map_of_mem ht), ?_⟩
    rw [hstage]
    rfl
  · have hlt := h.inGraph t ht
    have hle := partitions_le_groupBuckets ht hstage
    refine Nat.div_lt_of_lt_mul ?_
    exact Nat.mul_lt_mul_of_pos_right hlt (lt_of_lt_of_le (Nat.zero_lt_of_lt hlt) hle)

/-! ## The task sets -/

def regionEntries (job : JobDescriptor P E S) (jobId : Nat) (region : TaskRegionTopology) :
    List (GroupKey × Nat × TaskSetEntry) :=
  region.tasks.filterMap (job.taskEntry jobId region)

/-- The tasks of a set. -/
def bucketEntries (job : JobDescriptor P E S) (jobId : Nat) (region : TaskRegionTopology)
    (key : GroupKey) (bucket : Nat) : List TaskSetEntry :=
  ((job.regionEntries jobId region).filter fun e => e.1 = key ∧ e.2.1 = bucket).map (·.2.2)

theorem mem_buildTaskRegion {set : TaskPlacement × TaskSet} :
    set ∈ (job.buildTaskRegion jobId region).tasks ↔ ∃ key ∈ job.regionGroups region,
      ∃ bucket < job.groupBuckets region key,
        (key.1, ⟨job.bucketEntries jobId region key bucket⟩) = set := by
  unfold buildTaskRegion
  simp only [mem_flatMap, mem_map, mem_range]
  rfl

section Entries

variable (h : IsRegion job.graph region.tasks)
  (hattempts : ∀ t ∈ region.tasks, job.attempts t ≠ [])

include h hattempts

theorem mem_regionEntries {e : GroupKey × Nat × TaskSetEntry}
    (he : e ∈ job.regionEntries jobId region) :
    e.1 ∈ job.regionGroups region ∧ e.2.1 < job.groupBuckets region e.1 := by
  obtain ⟨t, ht, hte⟩ := mem_filterMap.mp he
  obtain ⟨stage, output, -, hentry, hgroup, hbucket⟩ := taskEntry_spec jobId h ht (hattempts t ht)
  obtain rfl := Option.some.inj (hte.symm.trans hentry)
  exact ⟨hgroup, hbucket⟩

theorem map_key_regionEntries :
    (job.regionEntries jobId region).map (·.2.2.key) = region.tasks.map (job.taskKey jobId) := by
  unfold regionEntries
  rw [map_filterMap, ← filterMap_eq_map]
  refine filterMap_congr fun t ht => ?_
  obtain ⟨stage, output, -, hentry, -⟩ := taskEntry_spec jobId h ht (hattempts t ht)
  rw [hentry]
  rfl

theorem once_buildTaskRegion :
    ((job.buildTaskRegion jobId region).tasks.flatMap fun set => set.2.entries.map (·.key)).Perm
      (region.tasks.map (job.taskKey jobId)) := by
  have hbins : ((job.regionGroups region).flatMap fun key =>
      (List.range (job.groupBuckets region key)).flatMap fun bucket =>
        (job.regionEntries jobId region).filter fun e => e.1 = key ∧ e.2.1 = bucket).Perm
      (job.regionEntries jobId region) := by
    have hnodup : (job.regionGroups region).Nodup := Lists.nodup_eraseDups _
    refine List.Perm.trans ?_ (Lists.perm_flatMap_filter_of_nodup (·.1) hnodup
      (job.regionEntries jobId region) fun e he => (mem_regionEntries jobId h hattempts he).1)
    refine List.Perm.flatMap_left _ fun key _ => ?_
    have hsplit : ((List.range (job.groupBuckets region key)).flatMap fun bucket =>
        (job.regionEntries jobId region).filter fun e => e.1 = key ∧ e.2.1 = bucket) =
        (List.range (job.groupBuckets region key)).flatMap fun bucket =>
          ((job.regionEntries jobId region).filter fun e => e.1 = key).filter
            fun e => e.2.1 = bucket := by
      refine flatMap_congr fun bucket _ => ?_
      rw [filter_filter]
      refine filter_congr fun e _ => ?_
      rw [Bool.decide_and, Bool.and_comm]
    rw [hsplit]
    refine Lists.perm_flatMap_filter _ _ _ fun e he => ?_
    obtain ⟨he, hkey⟩ := mem_filter.mp he
    rw [← of_decide_eq_true hkey]
    exact (mem_regionEntries jobId h hattempts he).2
  have hkeys := hbins.map (·.2.2.key)
  rw [map_key_regionEntries jobId h hattempts] at hkeys
  refine List.Perm.trans (List.Perm.of_eq ?_) hkeys
  unfold buildTaskRegion regionEntries
  simp only [flatMap_assoc, flatMap_map, map_flatMap, map_map]
  rfl

theorem stages_buildTaskRegion :
    ∀ set ∈ (job.buildTaskRegion jobId region).tasks,
      (set.2.entries.map (·.key.stage)).Nodup := by
  intro set hset
  obtain ⟨key, -, bucket, -, rfl⟩ := (mem_buildTaskRegion jobId).mp hset
  show ((job.bucketEntries jobId region key bucket).map (·.key.stage)).Nodup
  unfold bucketEntries
  rw [map_map, List.Nodup, pairwise_map, pairwise_filter]
  unfold regionEntries
  rw [pairwise_filterMap]
  refine h.nodup.imp_of_mem ?_
  intro t t' ht ht' hne e he e' he' hbucket hbucket' hstage
  obtain ⟨stage, output, hs, hentry, -⟩ := taskEntry_spec jobId h ht (hattempts t ht)
  obtain ⟨stage', output', hs', hentry', -⟩ := taskEntry_spec jobId h ht' (hattempts t' ht')
  obtain rfl := Option.some.inj (he.symm.trans hentry)
  obtain rfl := Option.some.inj (he'.symm.trans hentry')
  have hsame : t.stage = t'.stage := hstage
  rw [hsame, hs'] at hs
  obtain rfl := Option.some.inj hs
  have hb := (of_decide_eq_true hbucket).2
  have hb' := (of_decide_eq_true hbucket').2
  have hpart : t.partition = t'.partition := by
    refine bucket_injective (partitions_le_groupBuckets ht' hs')
      (Nat.zero_lt_of_lt (h.inGraph t' ht')) ?_
    rw [← hsame] at hb' ⊢
    exact hb.trans hb'.symm
  apply hne
  cases t
  cases t'
  simp_all

/-- The stage with the most partitions fills the buckets of its group. -/
theorem nonempty_buildTaskRegion (hwhole : Whole job.graph region) :
    ∀ set ∈ (job.buildTaskRegion jobId region).tasks, set.2.entries ≠ [] := by
  intro set hset
  obtain ⟨key, -, bucket, hbucket, rfl⟩ := (mem_buildTaskRegion jobId).mp hset
  obtain ⟨t, ht, hgroup, hpartitions⟩ := exists_groupBuckets (Nat.zero_lt_of_lt hbucket)
  -- the task of this stage whose partition is the bucket
  have htask : ⟨t.stage, bucket⟩ ∈ region.tasks := hwhole t ht bucket (hpartitions ▸ hbucket)
  obtain ⟨stage, output, hstage, hentry, -⟩ := taskEntry_spec jobId h htask (hattempts _ htask)
  have hkey : groupKey stage = key := by
    rw [hstage] at hgroup
    exact Option.some.inj hgroup
  rw [hkey, hpartitions, Nat.mul_div_cancel _ (Nat.zero_lt_of_lt hbucket)] at hentry
  show job.bucketEntries jobId region key bucket ≠ []
  rw [bucketEntries, Ne, map_eq_nil_iff]
  exact ne_nil_of_mem (mem_filter.mpr
    ⟨mem_filterMap.mpr ⟨_, htask, hentry⟩, decide_eq_true ⟨rfl, rfl⟩⟩)

/-- A region that is one partition of its stages leaves all other buckets empty. -/
theorem whole_of_nonempty
    (hnonempty : ∀ set ∈ (job.buildTaskRegion jobId region).tasks, set.2.entries ≠ []) :
    Whole job.graph region := by
  rcases h.shape with hwhole | ⟨n, p, hslice⟩
  · exact hwhole
  · intro t ht q hq
    by_contra hnot
    obtain ⟨htp, htn⟩ := hslice t ht
    have hqp : q ≠ p := by
      rintro rfl
      apply hnot
      rw [← htp]
      exact ht
    obtain ⟨stage, output, hstage, -, hgroup, -⟩ := taskEntry_spec jobId h ht (hattempts t ht)
    -- the buckets of a group are as many as the partitions
    have hbuckets : ∀ t' ∈ region.tasks, ∀ stage', job.graph.stages[t'.stage]? = some stage' →
        job.groupBuckets region (groupKey stage') = n := by
      intro t' ht' stage' hstage'
      have hle := partitions_le_groupBuckets ht' hstage'
      rw [(hslice t' ht').2] at hle
      obtain ⟨t'', ht'', -, hmost⟩ := exists_groupBuckets (lt_of_lt_of_le (by omega) hle)
      exact hmost.symm.trans (hslice t'' ht'').2
    rw [htn] at hq
    refine hnonempty _ ((mem_buildTaskRegion jobId).mpr
      ⟨groupKey stage, hgroup, q, by rwa [hbuckets t ht stage hstage], rfl⟩) ?_
    show job.bucketEntries jobId region (groupKey stage) q = []
    rw [bucketEntries, map_eq_nil_iff, filter_eq_nil_iff]
    intro e he hbucket
    obtain ⟨t', ht', hte⟩ := mem_filterMap.mp he
    obtain ⟨stage', output', hstage', hentry, -⟩ := taskEntry_spec jobId h ht' (hattempts t' ht')
    obtain rfl := Option.some.inj (hte.symm.trans hentry)
    obtain ⟨-, hb⟩ := of_decide_eq_true hbucket
    have hb' : t'.partition * job.groupBuckets region (groupKey stage') /
        job.graph.partitions t'.stage = q := hb
    rw [hbuckets t' ht' stage' hstage', (hslice t' ht').1, (hslice t' ht').2,
      Nat.mul_div_cancel _ (Nat.zero_lt_of_lt hq)] at hb'
    exact hqp hb'.symm

end Entries

theorem countP_stage (h : IsRegion job.graph region.tasks) (hwhole : Whole job.graph region) {s : Nat}
    (hs : s ∈ regionStages region) :
    region.tasks.countP (·.stage = s) = job.graph.partitions s := by
  obtain ⟨t, ht, rfl⟩ := mem_map.mp (mem_eraseDups.mp hs)
  have hperm : (region.tasks.filter (·.stage = t.stage)).Perm
      (stageTasks job.graph t.stage) := by
    refine (perm_ext_iff_of_nodup (h.nodup.filter _) ?_).mpr fun t' => ?_
    · exact nodup_range.map fun p q heq => congrArg TaskTopology.partition heq
    · unfold stageTasks
      rw [mem_filter, mem_map, decide_eq_true_eq]
      constructor
      · rintro ⟨ht', hstage⟩
        refine ⟨t'.partition, mem_range.mpr (hstage ▸ h.inGraph t' ht'), ?_⟩
        rw [← hstage]
      · rintro ⟨p, hp, rfl⟩
        exact ⟨hwhole t ht p (mem_range.mp hp), rfl⟩
  rw [countP_eq_length_filter, hperm.length_eq]
  unfold stageTasks
  rw [length_map, length_range]

theorem workerSlots_buildTaskRegion (job : JobDescriptor P E S) (region : TaskRegionTopology) :
    (job.buildTaskRegion jobId region).workerSlots =
      (((job.regionGroups region).filter (·.1 = .worker)).map (job.groupBuckets region)).sum := by
  unfold TaskRegion.workerSlots buildTaskRegion
  induction job.regionGroups region with
  | nil => rfl
  | cons key groups ih =>
    simp only [flatMap_cons, filter_append, length_append, filter_cons]
    rw [ih]
    by_cases hworker : key.1 = .worker
    · simp [hworker, filter_map, Function.comp_def]
    · simp [hworker, filter_map, Function.comp_def]

theorem slots_buildTaskRegion (h : IsRegion job.graph region.tasks)
    (hwhole : Whole job.graph region) :
    (job.buildTaskRegion jobId region).workerSlots ≤
      (((job.regionGroups region).filter (·.1 = .worker)).map (job.largestStage region)).sum := by
  have hlargest : job.largestStage region = job.groupBuckets region := by
    funext key
    refine foldl_ext _ _ _ fun n s hs => ?_
    rw [countP_stage h hwhole (mem_filter.mp hs).1]
  rw [workerSlots_buildTaskRegion, hlargest]

end

/-- A region shares slots as it should if and only if it has all partitions of its stages. -/
theorem sharesSlots_iff [DecidableEq S] (job : JobDescriptor P E S) (jobId : Nat)
    (htopology : JobTopology.tryNew job.graph = .ok job.topology) {region : TaskRegionTopology}
    (hregion : region ∈ job.topology.regions)
    (hattempts : ∀ t ∈ region.tasks, job.attempts t ≠ []) :
    job.SharesSlots jobId region ↔ Whole job.graph region := by
  have h := isRegion_of_mem htopology hregion
  constructor
  · intro hshares
    exact whole_of_nonempty jobId h hattempts hshares.nonempty
  · intro hwhole
    exact ⟨once_buildTaskRegion jobId h hattempts, stages_buildTaskRegion jobId h hattempts,
      nonempty_buildTaskRegion jobId h hattempts hwhole, slots_buildTaskRegion jobId h hwhole⟩

/-! ## Two stages of two partitions -/

/-- A plan by its partition count. -/
structure CountedPlan where
  partitions : Nat

instance : ExecutionPlan CountedPlan Unit := ⟨CountedPlan.partitions, fun _ => ()⟩

/-- Two worker stages of two partitions; the second reads the first in the given mode. -/
def twoStages (mode : InputMode) : JobGraph CountedPlan Unit Unit where
  stages := [⟨[], ⟨2⟩, "", .pipelined, .roundRobin 2, .worker⟩,
    ⟨[⟨0, mode⟩], ⟨2⟩, "", .pipelined, .roundRobin 1, .worker⟩]
  schema := ()
  sorted := by
    intro s stage hs input hinput
    match s, hs with
    | 0, hs =>
      obtain rfl := Option.some.inj hs
      cases hinput
    | 1, hs =>
      obtain rfl := Option.some.inj hs
      obtain rfl := List.mem_singleton.mp hinput
      exact Nat.zero_lt_one

def startedJob (graph : JobGraph CountedPlan Unit Unit) (regions : List (List TaskTopology)) :
    JobDescriptor CountedPlan Unit Unit where
  graph := graph
  topology := JobTopology.ofRegions graph regions
  attempts _ := [⟨.created, [], none, false⟩]
  stages _ := .active
  regions := regions.map fun _ => .running
  state := .running

/-- With a shuffle between them the stages are one region, of two slots. -/
theorem sharesSlots_shuffle :
    let job := startedJob (twoStages .shuffle) [[⟨0, 0⟩, ⟨0, 1⟩, ⟨1, 0⟩, ⟨1, 1⟩]]
    ∀ region ∈ job.topology.regions, job.SharesSlots 0 region := by
  intro job region hregion
  refine (sharesSlots_iff job 0 rfl hregion fun t _ => cons_ne_nil _ _).mpr ?_
  obtain rfl := mem_singleton.mp hregion
  unfold Whole
  decide

/-- With a forward input the region of partition 0 has a set without tasks, and asks for two slots.
-/
theorem not_sharesSlots_forward :
    let job := startedJob (twoStages .forward) [[⟨0, 0⟩, ⟨1, 0⟩], [⟨0, 1⟩, ⟨1, 1⟩]]
    JobTopology.tryNew job.graph = .ok job.topology ∧
      ∃ region ∈ job.topology.regions, ¬ job.SharesSlots 0 region := by
  intro job
  refine ⟨rfl, _, mem_cons_self, fun h => ?_⟩
  exact h.nonempty (.worker, ⟨[]⟩) (by decide) rfl

end JobDescriptor

end Zelox.Driver
