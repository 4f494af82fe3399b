import Zelox.Exchange.Distribute
import Zelox.Window.StateIo

/-!
# Rescaling keyed state

A keyed operator checkpointed at one parallelism is restored at another.  The new
instance `i` of `m'` reads the incremental state of every old instance and keeps
the rows whose key group, recomputed from the key, lies in the range it owns.

The rows of all old instances are redistributed exactly: each goes to the one new
instance that owns its key group (`rescale_exact`).  The exchange routes its key there too
if the key groups are those of the exchange, and elsewhere it may not (`rescale_smallGroups`).
-/

namespace Zelox.StateIo

open List

/-- The objects under `state/{op_base}…`: those of the instances, and the parallelism of each epoch.
-/
structure OpStore (B : Type) where
  inst : Nat → Store B
  parallelism : Nat → Option UInt32

def restoreParallelism {B : Type} (ck : OpStore B) (epoch : Nat) : Option Nat :=
  (ck.parallelism epoch).map UInt32.toNat

variable {σ K : Type}

/-- `filter_to_key_group_range_recompute`, with the key groups of `zelox_key_groups`. -/
def filterToKeyGroupRangeRecompute (hash : K → UInt64) (key : σ → K) (g lo hi : UInt16)
    (batch : List σ) : List σ :=
  batch.filter fun row => lo ≤ keyGroup (hash (key row)) g ∧ keyGroup (hash (key row)) g < hi

/-- The watermark of the metadata read so far: the least that is set. -/
def minWm (acc : Option Int64) (info : List Int64) : Option Int64 :=
  match info with
  | [] => acc
  | wm :: _ => if wm ≠ Int64.minValue then some (acc.elim wm fun m => min m wm) else acc

def restoreKeyedRangeRecomputeAuto (hash : K → UInt64) (key : σ → K) (ck : OpStore (List σ))
    (epoch newInstance newM : Nat) (g : UInt16) : List (List σ) × List Int64 :=
  let oldM := max ((restoreParallelism ck epoch).getD newM) 1
  let range := instanceKeyGroupRange newInstance newM g
  let old := (List.range oldM).map fun i => restoreEpochIncremental (ck.inst i) epoch
  let kept := old.flatMap fun o =>
    (o.1.map (filterToKeyGroupRangeRecompute hash key g range.1 range.2)).filter fun f => !f.isEmpty
  let ends := ((old.flatMap fun o => o.2.tail).dedup).mergeSort fun a b => a ≤ b
  (kept, ((old.map (·.2)).foldl minWm none).getD Int64.minValue :: ends)

/-- All rows of the instances `0..m-1` at `epoch`: residuals and chunks. -/
def rowsOfInstances (ck : OpStore (List σ)) (epoch m : Nat) : List σ :=
  (List.range m).flatMap fun i => (restoreEpochIncremental (ck.inst i) epoch).1.flatten

/-- Dropping the batches that the filter leaves empty loses no row. -/
theorem flatten_filter_batches (p : σ → Bool) (batches : List (List σ)) :
    ((batches.map (List.filter p)).filter fun f => !f.isEmpty).flatten =
      batches.flatten.filter p := by
  rw [flatten_filter_not_isEmpty, filter_flatten]

/-- The rows a new instance gets are those of its range, in the order of the old state. -/
theorem restored_rows (hash : K → UInt64) (key : σ → K) (ck : OpStore (List σ)) (epoch i m' : Nat)
    (g : UInt16) :
    (restoreKeyedRangeRecomputeAuto hash key ck epoch i m' g).1.flatten =
      (rowsOfInstances ck epoch (max ((restoreParallelism ck epoch).getD m') 1)).filter fun row =>
        (instanceKeyGroupRange i m' g).1 ≤ keyGroup (hash (key row)) g ∧
          keyGroup (hash (key row)) g < (instanceKeyGroupRange i m' g).2 := by
  unfold restoreKeyedRangeRecomputeAuto rowsOfInstances
  simp only [flatMap_map]
  generalize List.range (max ((restoreParallelism ck epoch).getD m') 1) = old
  induction old with
  | nil => rfl
  | cons o old ih =>
    rw [flatMap_cons, flatten_append, flatMap_cons, filter_append, ih]
    congr 1
    exact flatten_filter_batches _ _

/-- After rescaling the new instances hold the old rows, each where its key group is owned and where
the exchange routes its key. -/
theorem rescale_exact (hash : K → UInt64) (key : σ → K) (g : UInt16) (hg : 1 ≤ g)
    (ck : OpStore (List σ)) (epoch m m' : Nat) (hm : 1 ≤ m) (hm' : 1 ≤ m')
    (hmarker : restoreParallelism ck epoch = some m) :
    ((List.range m').flatMap fun i =>
        (restoreKeyedRangeRecomputeAuto hash key ck epoch i m' g).1.flatten).Perm
      (rowsOfInstances ck epoch m) ∧
    (∀ i < m', (restoreKeyedRangeRecomputeAuto hash key ck epoch i m' g).1.flatten =
      (rowsOfInstances ck epoch m).filter fun row =>
        keyGroupOwner (keyGroup (hash (key row)) g) m' g = i) ∧
    ∀ (α : Type) (hashKeys : α → K) (input : List (Item α)), ∀ i < m',
      Exchange.dataRows (Exchange.sentTo i (Exchange.distribute hash hashKeys m' input)) =
        (Exchange.inputRows input).filter fun row =>
          keyGroupOwner (keyGroup (hash (hashKeys row)) defaultKeyGroups) m' defaultKeyGroups = i := by
  have hg0 : g ≠ 0 := by
    rintro rfl
    exact absurd hg (by decide)
  have hold : max ((restoreParallelism ck epoch).getD m') 1 = m := by
    rw [hmarker]
    show max m 1 = m
    omega
  have hrows : ∀ i < m', (restoreKeyedRangeRecomputeAuto hash key ck epoch i m' g).1.flatten =
      (rowsOfInstances ck epoch m).filter fun row =>
        keyGroupOwner (keyGroup (hash (key row)) g) m' g = i := by
    intro i hi
    rw [restored_rows, hold]
    apply filter_congr
    intro row _
    rw [decide_eq_decide]
    exact mem_range_iff_owner hi (keyGroup_lt _ hg0)
  refine ⟨?_, hrows, ?_⟩
  · have hcongr : ((List.range m').flatMap fun i =>
        (restoreKeyedRangeRecomputeAuto hash key ck epoch i m' g).1.flatten) =
        (List.range m').flatMap fun i => (rowsOfInstances ck epoch m).filter fun row =>
          keyGroupOwner (keyGroup (hash (key row)) g) m' g = i :=
      flatMap_congr fun i hi => hrows i (mem_range.mp hi)
    rw [hcongr]
    apply Lists.perm_flatMap_filter
    intro row _
    exact keyGroupOwner_lt (by omega) (keyGroup_lt _ hg0)
  · intro α hashKeys input i hi
    exact Exchange.dataRows_distribute hash hashKeys m' i hi input

/-- Two instances' rows of three keys, the second in a spilled chunk. -/
def twoInstances : OpStore (List Nat) where
  inst i := if i = 0 then stageEpochIncremental Store.empty 1 [[0, 130]] [] [5]
    else stageEpochIncremental (writeSpill true Store.empty 0 [[64]]).1 1 [] [0] [7]
  parallelism _ := some 2

theorem rescale_exact_twoInstances :
    (1 : UInt16) ≤ 128 ∧ 1 ≤ 2 ∧ 1 ≤ 3 ∧ restoreParallelism twoInstances 1 = some 2 ∧
      ((List.range 3).flatMap fun i => (restoreKeyedRangeRecomputeAuto (fun k : Nat => k.toUInt64) id
        twoInstances 1 i 3 128).1.flatten).Perm [0, 130, 64] :=
  ⟨by decide, by decide, by decide, rfl,
    (rescale_exact (fun k : Nat => k.toUInt64) id 128 (by decide) twoInstances 1 2 3 (by decide)
      (by decide) rfl).1⟩

/-- With other key groups than those of the exchange, a row is restored where its key is not
routed. -/
theorem rescale_smallGroups :
    ((List.range 3).map fun i => (restoreKeyedRangeRecomputeAuto (fun k : Nat => k.toUInt64) id
        twoInstances 1 i 3 8).1.flatten) = [[0, 64], [130], []] ∧
      ((List.range 3).map fun i => Exchange.dataRows (Exchange.sentTo i (Exchange.distribute
        (fun k : Nat => k.toUInt64) id 3 [.ok (.encodeData [0, 64, 130])]))) =
          [[0, 130], [64], []] := by
  decide +kernel

end Zelox.StateIo
