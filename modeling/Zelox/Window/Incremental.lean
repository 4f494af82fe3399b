import Zelox.Window.Snapshot

/-!
# Incremental checkpoints

With incremental checkpoints an epoch's manifest references spilled chunks that earlier
events wrote.  A finalize replaces the chunks of the working set and leaves the old ones
to a garbage collector, which at `Checkpoint{id}` deletes those that neither the working
set nor one of the epochs `id - 1` and `id` references.  A restart reads another epoch:
the one the sink has committed, by a record that may lag behind.  It can be restored
throughout exactly in the runs in which its chunks are always among the ones the
collector keeps (`committed_intact_iff`).
-/

namespace Zelox.Window

open StateIo GroupFold Runs

variable {K V M R : Type}

/-! ## An instance and the commit record -/

/-- What happens to an instance: an input, or the sink commits an epoch. -/
inductive Action (K : Type) {V M R : Type} [DecidableEq K] [AddCommMonoid M]
    (agg : Aggregate V M R) where
  | input (i : FlowEvent (Group K × V) × Exec K agg)
  | commit (epoch : Nat)

/-- The operator, and as it was at each checkpoint barrier so far. -/
structure Instance (K M R : Type) where
  op : Op K M R
  staged : List (Nat × Op K M R)

/-- A chunk of the working set, or one that waits to be collected. -/
def AccumState.Live (acc : AccumState K M R) (i : Nat) : Prop :=
  i ∈ acc.spilled ∨ i ∈ acc.gcCandidates

instance (acc : AccumState K M R) (i : Nat) : Decidable (acc.Live i) :=
  inferInstanceAs (Decidable (_ ∨ _))

/-- As long as an epoch is committed, it can be restored as it was staged, and its
chunks are as they were. -/
def Instance.Intact (cfg : Config) (s : Instance K M R) : Prop :=
  ∀ c ∈ committedEpoch s.op.ck, ∀ p ∈ s.staged, p.1 = c →
    restoreEpochIncremental s.op.ck c = (gatherPartials cfg p.2.ck p.2.acc, snapshotInfo p.2.acc) ∧
      ∀ i ∈ p.2.acc.spilled, s.op.ck.get (.spill i) = p.2.ck.get (.spill i)

/-- The committed epoch's chunks that wait to be collected are referenced by the working set or a
retained epoch. -/
def Instance.CoveredAt (s : Instance K M R) (id : Nat) : Prop :=
  ∀ c ∈ committedEpoch s.op.ck, ∀ p ∈ s.staged, p.1 = c → ∀ i ∈ p.2.acc.spilled,
    i ∈ s.op.acc.gcCandidates →
      i ∈ s.op.acc.spilled ∨ ∃ e ∈ s.op.acc.epochChunks, id < e.1 + 2 ∧ i ∈ e.2

/-- No chunk of the epoch has been collected. -/
def Instance.Uncollected (s : Instance K M R) (c : Nat) : Prop :=
  ∀ p ∈ s.staged, p.1 = c → ∀ i ∈ p.2.acc.spilled, s.op.acc.Live i

instance (s : Instance K M R) (id : Nat) : Decidable (s.CoveredAt id) := by
  unfold Instance.CoveredAt
  infer_instance

instance (s : Instance K M R) (c : Nat) : Decidable (s.Uncollected c) := by
  unfold Instance.Uncollected
  infer_instance

section

variable [DecidableEq K] [AddCommMonoid M] {agg : Aggregate V M R}

/-- Checkpoint barriers have increasing ids, and the commit record moves forward to
epochs that were staged. -/
def Instance.Legal (s : Instance K M R) : Action K agg → Prop
  | .input i => ∀ id ∈ i.1.barrier, ∀ p ∈ s.staged, p.1 < id
  | .commit c => c ∈ s.staged.map (·.1) ∧ ∀ c0 ∈ committedEpoch s.op.ck, c0 ≤ c

instance (s : Instance K M R) : (a : Action K agg) → Decidable (s.Legal a)
  | .input i => inferInstanceAs (Decidable (∀ id ∈ i.1.barrier, ∀ p ∈ s.staged, p.1 < id))
  | .commit c => inferInstanceAs (Decidable (c ∈ s.staged.map (·.1) ∧
      ∀ c0 ∈ committedEpoch s.op.ck, c0 ≤ c))

/-- Checkpoints find the committed chunks referenced; epochs are committed before theirs are
collected. -/
def Instance.Covered (s : Instance K M R) : Action K agg → Prop
  | .input i => ∀ id ∈ i.1.barrier, s.CoveredAt id
  | .commit c => s.Uncollected c

instance (s : Instance K M R) : (a : Action K agg) → Decidable (s.Covered a)
  | .input i => inferInstanceAs (Decidable (∀ id ∈ i.1.barrier, s.CoveredAt id))
  | .commit c => inferInstanceAs (Decidable (s.Uncollected c))

/-- A barrier's epoch is staged with the operator as it is before. -/
def Instance.act [DecidableEq R] (cfg : Config) (s : Instance K M R) : Action K agg → Instance K M R
  | .input i =>
    { op := step cfg s.op i
      staged := (i.1.barrier.map fun id => (id, s.op)).toList ++ s.staged }
  | .commit c => { s with op := { s.op with ck := s.op.ck.put .realtimeCommitted (.committed c) } }

end

/-! ## Chunks across events -/

/-- Below the next index and among the objects of epochs nothing changes, and none is collected. -/
structure Extends (op op' : Op K M R) : Prop where
  next : op.acc.nextSpill ≤ op'.acc.nextSpill
  live : ∀ i, i < op.acc.nextSpill → (op'.acc.Live i ↔ op.acc.Live i)
  stored : ∀ i ∈ op'.acc.spilled, op.acc.nextSpill ≤ i → op'.ck.get (.spill i) ≠ none
  kept : ∀ i ∈ op'.acc.spilled, i < op.acc.nextSpill → i ∈ op.acc.spilled
  get : ∀ k, (∀ i, op.acc.nextSpill ≤ i → k ≠ .spill i) → k ≠ .staged → op'.ck.get k = op.ck.get k

theorem Extends.of_same {op op' : Op K M R} (hok : ∀ i ∈ op.acc.spilled, i < op.acc.nextSpill)
    (hn : op'.acc.nextSpill = op.acc.nextSpill) (hs : op'.acc.spilled = op.acc.spilled)
    (hg : op'.acc.gcCandidates = op.acc.gcCandidates)
    (hk : ∀ k, k ≠ .staged → op'.ck.get k = op.ck.get k) : Extends op op' := by
  refine ⟨le_of_eq hn.symm, fun i _ => ?_, fun i hi hlo => ?_, fun i hi _ => hs ▸ hi,
    fun k _ => hk k⟩
  · unfold AccumState.Live
    rw [hs, hg]
  · have := hok i (hs ▸ hi)
    omega

section

variable [DecidableEq K] [AddCommMonoid M] {agg : Aggregate V M R}

theorem onData_extends (x : Exec K agg) (cfg : Config) (op : Op K M R)
    (batch : List (Group K × V)) (h : SpillsOk cfg op.acc) : Extends op (onData x cfg op batch) := by
  unfold onData
  dsimp only
  split
  · exact Extends.of_same h.below rfl rfl rfl fun _ _ => rfl
  · have hsub := spillPending_cases x cfg (accumulate x cfg op
      (dropLateRows cfg op.acc.watermarkMicros batch))
    have hok := spillPending_ok x cfg _ _ _ _
      (accumulate_ok x cfg op (dropLateRows cfg op.acc.watermarkMicros batch) h)
    generalize spillPending x cfg _ = s at hsub hok ⊢
    replace hsub : ∀ i ∈ op.acc.spilled, i ∈ s.spilled := by
      intro i hi
      rcases hsub with rfl | ⟨-, -, rfl⟩
      · exact hi
      · exact List.mem_append_left _ hi
    have hkept : ∀ i ∈ s.spilled, i < op.acc.nextSpill → i ∈ op.acc.spilled := by
      intro i hi hlt
      exact (hok.fresh i hi).resolve_right (not_le.mpr hlt)
    exact ⟨hok.lo_le, fun i hlt => or_congr_left ⟨fun hi => hkept i hi hlt, hsub i⟩, hok.stored,
      hkept, fun k hk _ => hok.frame k hk⟩

variable [DecidableEq R]

section

variable (x : Exec K agg) (cfg : Config) (hs : cfg.hasStore = true) (hi : cfg.incCkpt = true)
  (w : Int64) (after : FlowMarker) (op : Op K M R)
include hs hi

/-- A finalize leaves the chunks it has consumed to the collector. -/
theorem finalize_incremental :
    (finalize x cfg w after op).acc.gcCandidates = op.acc.gcCandidates ++ op.acc.spilled ∧
      (finalize x cfg w after op).ck = (absorbAll x cfg (retainWm cfg w) op.ck
        (mergeDone cfg w (drainMerge x cfg w op) op.acc)).ck := by
  unfold finalize rebuildRetainedState mergeDone
  rw [hs, hi]
  cases cfg.outputMode with
  | append | update => exact ⟨rfl, rfl⟩

theorem finalize_extends (h : SpillsOk cfg op.acc) : Extends op (finalize x cfg w after op) := by
  have hnext : (mergeDone cfg w (drainMerge x cfg w op) op.acc).nextSpill = op.acc.nextSpill := by
    unfold mergeDone
    cases cfg.outputMode with
    | append => rfl
    | update => rfl
  have hok := (absorbAll_spec x cfg (retainWm cfg w) op.ck _
    (mergeDone_spillsOk cfg w (drainMerge x cfg w op) op.acc h)).1
  rw [hnext] at hok
  obtain ⟨hgc, hck⟩ := finalize_incremental x cfg hs hi w after op
  have hnew : ∀ i ∈ (finalize x cfg w after op).acc.spilled, op.acc.nextSpill ≤ i := by
    intro i hi
    exact (hok.fresh i hi).resolve_left List.not_mem_nil
  refine ⟨hok.lo_le, fun i hlt => ?_, fun i hi hlo => ?_, fun i hi hlt => ?_, fun k hk _ => ?_⟩
  · unfold AccumState.Live
    rw [hgc, List.mem_append]
    constructor
    · rintro (hi | hi | hi)
      · exact absurd (hnew i hi) (not_le.mpr hlt)
      · exact .inr hi
      · exact .inl hi
    · rintro (hi | hi)
      · exact .inr (.inr hi)
      · exact .inr (.inl hi)
  · rw [hck]
    exact hok.stored i hi hlo
  · exact absurd (hnew i hi) (not_le.mpr hlt)
  · rw [hck]
    exact hok.frame k hk

end

theorem step_extends (cfg : Config) (hs : cfg.hasStore = true) (hi : cfg.incCkpt = true)
    (op : Op K M R) (i : FlowEvent (Group K × V) × Exec K agg)
    (hev : i.1.barrier = none) (h : SpillsOk cfg op.acc) : Extends op (step cfg op i) := by
  obtain ⟨ev, x⟩ := i
  have hsame : ∀ m, Extends op { op with out := op.out ++ [.marker m] } := fun m =>
    Extends.of_same h.below rfl rfl rfl fun _ _ => rfl
  cases ev with
  | data batch flags => exact onData_extends x cfg op batch h
  | marker m =>
    cases m with
    | watermark source ts =>
      show Extends op (onWatermark x cfg op source ts)
      unfold onWatermark
      dsimp only
      split
      · have h1 := finalize_extends x cfg hs hi (setWatermark op.acc.watermarkMicros ts.timestampMicros)
          (.watermark source ts) { op with acc := { raiseWatermark cfg
            (setWatermark op.acc.watermarkMicros ts.timestampMicros) op.acc with
              lastFinalWm := some (setWatermark op.acc.watermarkMicros ts.timestampMicros) } }
          ⟨h.below, h.noStore⟩
        exact { h1 with }
      · exact Extends.of_same h.below rfl rfl rfl fun _ _ => rfl
    | endOfData =>
      show Extends op (onEndOfData x cfg op)
      unfold onEndOfData
      rw [hs, if_pos rfl]
      have hstage : ∀ k, k ≠ .staged →
          (stageState op.ck (gatherPartials cfg op.ck op.acc) (snapshotInfo op.acc)).get k =
            op.ck.get k := fun k hk => Store.get_put_of_ne _ _ _ _ hk
      split
      · have h1 := finalize_extends x cfg hs hi Int64.maxValue .endOfData
          { op with ck := stageState op.ck (gatherPartials cfg op.ck op.acc) (snapshotInfo op.acc) } h
        exact ⟨h1.next, h1.live, h1.stored, h1.kept,
          fun k hk hst => (h1.get k hk hst).trans (hstage k hst)⟩
      · exact Extends.of_same h.below rfl rfl rfl hstage
    | checkpoint id => cases hev
    | latencyTracker source id ts | idle source => exact hsame _

end

/-! ## Chunks across a checkpoint -/

theorem onCheckpoint_incremental (cfg : Config) (hs : cfg.hasStore = true) (hi : cfg.incCkpt = true)
    (op : Op K M R) (id : Nat) :
    (onCheckpoint cfg op id).acc = (checkpointIncremental op id).acc ∧
      (onCheckpoint cfg op id).ck = (checkpointIncremental op id).ck := by
  unfold onCheckpoint
  rw [hs, hi]
  exact ⟨rfl, rfl⟩

section

variable (op : Op K M R) (id i : Nat)

/-- What the collector at `Checkpoint{id}` takes as referenced. -/
theorem mem_referenced :
    i ∈ op.acc.spilled ++ ((op.acc.epochChunks ++ [(id, op.acc.spilled)]).filter
        fun p => id < p.1 + 2).flatMap (·.2) ↔
      i ∈ op.acc.spilled ∨ ∃ e ∈ op.acc.epochChunks, id < e.1 + 2 ∧ i ∈ e.2 := by
  rw [List.mem_append, List.mem_flatMap]
  constructor
  · rintro (h | ⟨e, he, hi⟩)
    · exact .inl h
    · rw [List.mem_filter, List.mem_append, decide_eq_true_eq] at he
      rcases he with ⟨he | he, hlt⟩
      · exact .inr ⟨e, he, hlt, hi⟩
      · rw [List.mem_singleton.mp he] at hi
        exact .inl hi
  · rintro (h | ⟨e, he, hlt, hi⟩)
    · exact .inl h
    · exact .inr ⟨e, List.mem_filter.mpr ⟨List.mem_append_left _ he, decide_eq_true hlt⟩, hi⟩

/-- The collector keeps a candidate that the working set or a retained epoch references. -/
theorem checkpointIncremental_live :
    (checkpointIncremental op id).acc.Live i ↔
      i ∈ op.acc.spilled ∨ i ∈ op.acc.gcCandidates ∧
        ∃ e ∈ op.acc.epochChunks, id < e.1 + 2 ∧ i ∈ e.2 := by
  show i ∈ op.acc.spilled ∨ i ∈ op.acc.gcCandidates.filter (fun c => List.contains _ c) ↔ _
  rw [List.mem_filter, List.contains_iff_mem, mem_referenced]
  tauto

theorem checkpointIncremental_get_spill :
    (checkpointIncremental op id).ck.get (.spill i) =
      if i ∈ op.acc.gcCandidates ∧ ¬ (checkpointIncremental op id).acc.Live i then none
      else op.ck.get (.spill i) := by
  have hmem : i ∈ op.acc.gcCandidates.filter (fun c => !List.contains (op.acc.spilled ++
        ((op.acc.epochChunks ++ [(id, op.acc.spilled)]).filter
          fun p => id < p.1 + 2).flatMap (·.2)) c) ↔
      i ∈ op.acc.gcCandidates ∧ ¬ (checkpointIncremental op id).acc.Live i := by
    rw [List.mem_filter, Bool.not_eq_true', ← Bool.not_eq_true, List.contains_iff_mem, mem_referenced,
      checkpointIncremental_live]
    refine and_congr_right fun hg => not_congr (or_congr_right ?_)
    exact (and_iff_right hg).symm
  refine (get_spill_foldl_deleteSpill _ _ _).trans (if_congr hmem rfl ?_)
  exact get_gc_stageEpochIncremental _ _ _ _ _ _ (by simp) (by simp)

end

theorem checkpointIncremental_get_epoch (op : Op K M R) (id e : Nat) (hne : e ≠ id)
    (hc : ∀ c ∈ committedEpoch op.ck, c ≤ e) :
    (checkpointIncremental op id).ck.get (.manifest e) = op.ck.get (.manifest e) ∧
      (checkpointIncremental op id).ck.get (.residual e) = op.ck.get (.residual e) := by
  unfold checkpointIncremental gcChunks
  rw [get_foldl_deleteSpill _ _ _ fun i _ => by simp,
    get_foldl_deleteSpill _ _ _ fun i _ => by simp]
  split
  · next hsub =>
    have hcom : committedEpoch (stageEpochIncremental op.ck id op.acc.pendingRows op.acc.spilled
        (snapshotInfo op.acc)) = committedEpoch op.ck := by
      unfold committedEpoch
      rw [get_stageEpochIncremental_of_ne _ _ _ _ _ _ (by simp) (by simp)]
    have hlt : e ≠ id - 2 := by
      unfold subsumed at hsub
      rw [hcom, Bool.and_eq_true, decide_eq_true_eq, decide_eq_true_eq] at hsub
      rcases Option.eq_none_or_eq_some (committedEpoch op.ck) with h0 | ⟨c, h0⟩
      · rw [h0] at hsub
        exact absurd hsub.2 (Nat.not_lt_zero _)
      · have := hc c h0
        rw [h0, Option.getD_some] at hsub
        omega
    unfold gcEpochIncremental
    rw [Store.get_delete_of_ne _ _ _ (by simp), Store.get_delete_of_ne _ _ _ (by simp [hlt]),
      Store.get_delete_of_ne _ _ _ (by simp [hlt]), Store.get_delete_of_ne _ _ _ (by simp),
      get_stageEpochIncremental_of_ne _ _ _ _ _ _ (by simp [hne]) (by simp),
      get_stageEpochIncremental_of_ne _ _ _ _ _ _ (by simp) (by simp [hne])]
    exact ⟨rfl, rfl⟩
  · rw [get_stageEpochIncremental_of_ne _ _ _ _ _ _ (by simp [hne]) (by simp),
      get_stageEpochIncremental_of_ne _ _ _ _ _ _ (by simp) (by simp [hne])]
    exact ⟨rfl, rfl⟩

/-! ## Runs of an instance -/

/-- Epochs that may be committed have their manifest and residual; a chunk is as it was while it is
live. -/
structure Instance.Ok (cfg : Config) (s : Instance K M R) : Prop where
  spills : SpillsOk cfg s.op.acc
  stored : ∀ i ∈ s.op.acc.spilled, s.op.ck.get (.spill i) ≠ none
  epochs : ∀ p ∈ s.staged, (∀ c ∈ committedEpoch s.op.ck, c ≤ p.1) →
    s.op.ck.get (.manifest p.1) = some (.manifest (snapshotInfo p.2.acc) p.2.acc.spilled) ∧
      s.op.ck.get (.residual p.1) = some (.state p.2.acc.pendingRows [])
  below : ∀ p ∈ s.staged, ∀ i ∈ p.2.acc.spilled,
    i < s.op.acc.nextSpill ∧ p.2.ck.get (.spill i) ≠ none
  chunks : ∀ p ∈ s.staged, ∀ i ∈ p.2.acc.spilled,
    s.op.ck.get (.spill i) = if s.op.acc.Live i then p.2.ck.get (.spill i) else none

/-- No chunk of the committed epoch has been collected. -/
def Instance.AllLive (s : Instance K M R) : Prop :=
  ∀ c ∈ committedEpoch s.op.ck, s.Uncollected c

theorem Instance.Ok.intact_iff {cfg : Config} (hs : cfg.hasStore = true) {s : Instance K M R}
    (h : s.Ok cfg) : s.Intact cfg ↔ s.AllLive := by
  refine forall₂_congr fun c hc => forall₂_congr fun p hp => forall_congr' fun hpc => ?_
  constructor
  · rintro ⟨-, hget⟩ i hi
    by_contra hn
    have h1 := h.chunks p hp i hi
    rw [if_neg hn, hget i hi] at h1
    exact (h.below p hp i hi).2 h1
  · intro hlive
    have hget : ∀ i ∈ p.2.acc.spilled, s.op.ck.get (.spill i) = p.2.ck.get (.spill i) := by
      intro i hi
      rw [h.chunks p hp i hi, if_pos (hlive i hi)]
    refine ⟨?_, hget⟩
    obtain ⟨hman, hres⟩ := h.epochs p hp fun c' hc' => by
      rw [hpc]
      exact le_of_eq (Option.mem_unique hc' hc)
    unfold restoreEpochIncremental gatherPartials
    rw [← hpc, hman, hres, hs, if_pos rfl]
    dsimp only [decodeState]
    rw [flatMap_readSpill_congr p.2.ck _ p.2.acc.spilled hget]

theorem committedEpoch_congr {ck ck' : Store (List (Group K × M))}
    (h : ck'.get .realtimeCommitted = ck.get .realtimeCommitted) :
    committedEpoch ck' = committedEpoch ck := by
  unfold committedEpoch
  rw [h]

theorem Instance.Ok.extend {cfg : Config} {s : Instance K M R} (h : s.Ok cfg) {op' : Op K M R}
    (he : Extends s.op op') (hsp : SpillsOk cfg op'.acc) :
    Instance.Ok cfg { s with op := op' } ∧
      (Instance.AllLive { s with op := op' } ↔ s.AllLive) := by
  have hcom : committedEpoch op'.ck = committedEpoch s.op.ck :=
    committedEpoch_congr (he.get _ (by simp) (by simp))
  have hspill : ∀ i, i < s.op.acc.nextSpill → op'.ck.get (.spill i) = s.op.ck.get (.spill i) := by
    intro i hi
    refine he.get _ (fun j hj => ?_) (by simp)
    simp only [ne_eq, Key.spill.injEq]
    omega
  refine ⟨⟨hsp, fun i hi => ?_, fun p hp hc => ?_, fun p hp i hi => ?_, fun p hp i hi => ?_⟩, ?_⟩
  · rcases Nat.lt_or_ge i s.op.acc.nextSpill with hlt | hge
    · rw [hspill i hlt]
      exact h.stored i (he.kept i hi hlt)
    · exact he.stored i hi hge
  · have h1 := h.epochs p hp (hcom ▸ hc)
    exact ⟨(he.get _ (by simp) (by simp)).trans h1.1, (he.get _ (by simp) (by simp)).trans h1.2⟩
  · exact ⟨lt_of_lt_of_le (h.below p hp i hi).1 he.next, (h.below p hp i hi).2⟩
  · have hlt := (h.below p hp i hi).1
    show op'.ck.get (.spill i) = _
    rw [hspill i hlt, h.chunks p hp i hi, if_congr (he.live i hlt).symm rfl rfl]
  · show (∀ c ∈ committedEpoch op'.ck, _) ↔ _
    rw [hcom]
    refine forall₂_congr fun c _ => forall₂_congr fun p hp => forall_congr' fun _ =>
      forall₂_congr fun i hi => he.live i (h.below p hp i hi).1

/-- A checkpoint stages one more epoch, and the collector may delete chunks. -/
theorem Instance.Ok.checkpoint {cfg : Config} (hs : cfg.hasStore = true) (hi : cfg.incCkpt = true)
    {s : Instance K M R} (h : s.Ok cfg) (id : Nat) (hid : ∀ p ∈ s.staged, p.1 < id) :
    Instance.Ok cfg ⟨onCheckpoint cfg s.op id, (id, s.op) :: s.staged⟩ := by
  obtain ⟨ea, ec⟩ := onCheckpoint_incremental cfg hs hi s.op id
  have hcom : committedEpoch (onCheckpoint cfg s.op id).ck = committedEpoch s.op.ck :=
    committedEpoch_congr (onCheckpoint_get_realtime cfg s.op id)
  have hget := checkpointIncremental_get_spill s.op id
  have hlive := checkpointIncremental_live s.op id
  have hkeep : ∀ i ∈ s.op.acc.spilled,
      (checkpointIncremental s.op id).acc.Live i ∧
        (checkpointIncremental s.op id).ck.get (.spill i) = s.op.ck.get (.spill i) := by
    intro i hi
    have hl := (hlive i).mpr (.inl hi)
    exact ⟨hl, by rw [hget i, if_neg fun hn => hn.2 hl]⟩
  refine ⟨?_, fun i hi => ?_, fun p hp hc => ?_, fun p hp i hi => ?_, fun p hp i hi => ?_⟩
  · show SpillsOk cfg (onCheckpoint cfg s.op id).acc
    rw [ea]
    exact ⟨h.spills.below, h.spills.noStore⟩
  · show (onCheckpoint cfg s.op id).ck.get (.spill i) ≠ none
    have hi' : i ∈ s.op.acc.spilled := by
      have : i ∈ (onCheckpoint cfg s.op id).acc.spilled := hi
      rw [ea] at this
      exact this
    rw [ec, (hkeep i hi').2]
    exact h.stored i hi'
  · show (onCheckpoint cfg s.op id).ck.get (.manifest p.1) = _ ∧
      (onCheckpoint cfg s.op id).ck.get (.residual p.1) = _
    rw [ec]
    rcases List.mem_cons.mp hp with rfl | hp
    · exact checkpointIncremental_get_self s.op id
    · have hc' : ∀ c ∈ committedEpoch s.op.ck, c ≤ p.1 := hcom ▸ hc
      obtain ⟨h1, h2⟩ := checkpointIncremental_get_epoch s.op id p.1 (ne_of_lt (hid p hp)) hc'
      rw [h1, h2]
      exact h.epochs p hp hc'
  · show i < (onCheckpoint cfg s.op id).acc.nextSpill ∧ _
    rw [ea]
    rcases List.mem_cons.mp hp with rfl | hp
    · exact ⟨h.spills.below i hi, h.stored i hi⟩
    · exact h.below p hp i hi
  · show (onCheckpoint cfg s.op id).ck.get (.spill i) =
      if (onCheckpoint cfg s.op id).acc.Live i then _ else _
    rw [ec, ea]
    rcases List.mem_cons.mp hp with rfl | hp
    · rw [(hkeep i hi).2, if_pos (hkeep i hi).1]
    · rw [hget i, h.chunks p hp i hi]
      by_cases hl : (checkpointIncremental s.op id).acc.Live i
      · have hold : s.op.acc.Live i := by
          rcases (hlive i).mp hl with hl | hl
          · exact .inl hl
          · exact .inr hl.1
        rw [if_pos hl, if_neg fun hn => hn.2 hl, if_pos hold]
      · rw [if_neg hl]
        split
        · rfl
        · next hn =>
          refine if_neg ?_
          rintro (hsp | hgc)
          · exact hl ((hlive i).mpr (.inl hsp))
          · exact hn ⟨hgc, hl⟩

theorem Instance.Ok.commit {cfg : Config} {s : Instance K M R} (h : s.Ok cfg) (c : Nat)
    (hc : ∀ c0 ∈ committedEpoch s.op.ck, c0 ≤ c) :
    Instance.Ok cfg { s with op := { s.op with
      ck := s.op.ck.put .realtimeCommitted (.committed c) } } := by
  have hget : ∀ k, k ≠ .realtimeCommitted →
      (s.op.ck.put .realtimeCommitted (.committed c)).get k = s.op.ck.get k :=
    fun k hk => Store.get_put_of_ne _ _ _ _ hk
  refine ⟨h.spills, fun i hi => ?_, fun p hp hc' => ?_, h.below, fun p hp i hi => ?_⟩
  · show (s.op.ck.put .realtimeCommitted (.committed c)).get (.spill i) ≠ none
    exact h.stored i hi
  · have hcp : c ≤ p.1 := hc' c (by
      show committedEpoch (s.op.ck.put .realtimeCommitted (.committed c)) = some c
      simp [committedEpoch])
    have h1 := h.epochs p hp fun c0 h0 => le_trans (hc c0 h0) hcp
    exact ⟨(hget _ (by simp)).trans h1.1, (hget _ (by simp)).trans h1.2⟩
  · exact (hget _ (by simp)).trans (h.chunks p hp i hi)

/-- A started instance has staged nothing yet. -/
def Instance.start (cfg : Config) (ck : Store (List (Group K × M))) : Instance K M R :=
  ⟨Window.start cfg ck, []⟩

theorem Instance.start_ok (cfg : Config) (ck : Store (List (Group K × M))) :
    (Instance.start (R := R) cfg ck).Ok cfg := by
  refine ⟨start_spillsOk cfg ck, ?_, nofun, nofun, nofun⟩
  show ∀ i ∈ (restore (R := R) cfg ck).spilled, _
  rw [(restore_fresh cfg ck).2.1]
  nofun

section

variable [DecidableEq K] [AddCommMonoid M] [DecidableEq R] {agg : Aggregate V M R} {cfg : Config}

theorem Instance.act_input (cfg : Config) (s : Instance K M R)
    (i : FlowEvent (Group K × V) × Exec K agg) (hb : i.1.barrier = none) :
    s.act cfg (.input i) = { s with op := step cfg s.op i } := by
  show Instance.mk _ ((i.1.barrier.map fun id => (id, s.op)).toList ++ s.staged) = _
  rw [hb]
  rfl

section

variable (hs : cfg.hasStore = true) (hi : cfg.incCkpt = true) (s : Instance K M R)
  (a : Action K agg)
include hs hi

theorem Instance.act_ok (hl : s.Legal a) (h : s.Ok cfg) : (s.act cfg a).Ok cfg := by
  cases a with
  | commit c => exact h.commit c hl.2
  | input i =>
    obtain ⟨ev, x⟩ := i
    cases hb : ev.barrier with
    | some id =>
      obtain rfl := FlowEvent.barrier_eq_some.mp hb
      exact h.checkpoint hs hi id (hl id rfl)
    | none =>
      rw [s.act_input cfg (ev, x) hb]
      exact (h.extend (step_extends cfg hs hi s.op (ev, x) hb h.spills)
        (step_spillsOk cfg s.op (ev, x) h.spills)).1

/-- One action keeps the committed epoch's chunks exactly if it is covered. -/
theorem Instance.act_allLive_iff (h : s.Ok cfg) (hp : s.AllLive) :
    (s.act cfg a).AllLive ↔ s.Covered a := by
  cases a with
  | commit c =>
    have hcom : committedEpoch (s.op.ck.put .realtimeCommitted (.committed c)) = some c := by
      simp [committedEpoch]
    show (∀ c' ∈ committedEpoch (s.op.ck.put .realtimeCommitted (.committed c)), _) ↔ _
    exact ⟨fun hall => hall c rfl, fun hcov c' hc' => Option.some.inj hc' ▸ hcov⟩
  | input i =>
    obtain ⟨ev, x⟩ := i
    cases hb : ev.barrier with
    | some id =>
      obtain rfl := FlowEvent.barrier_eq_some.mp hb
      have hcom : committedEpoch (onCheckpoint cfg s.op id).ck = committedEpoch s.op.ck :=
        committedEpoch_congr (onCheckpoint_get_realtime cfg s.op id)
      have hlive : ∀ i, (onCheckpoint cfg s.op id).acc.Live i ↔
          i ∈ s.op.acc.spilled ∨ i ∈ s.op.acc.gcCandidates ∧
            ∃ e ∈ s.op.acc.epochChunks, id < e.1 + 2 ∧ i ∈ e.2 := by
        intro i
        rw [(onCheckpoint_incremental cfg hs hi s.op id).1]
        exact checkpointIncremental_live s.op id i
      show (∀ c ∈ committedEpoch (onCheckpoint cfg s.op id).ck, ∀ p ∈ (id, s.op) :: s.staged,
        p.1 = c → ∀ i ∈ p.2.acc.spilled, (onCheckpoint cfg s.op id).acc.Live i) ↔ _
      rw [hcom]
      constructor
      · rintro hall id' ⟨⟩ c hc p hp' hpc i hi hgc
        rcases (hlive i).mp (hall c hc p (List.mem_cons_of_mem _ hp') hpc i hi) with h1 | h1
        · exact .inl h1
        · exact .inr h1.2
      · intro hcov c hc p hp' hpc i hi
        rw [hlive i]
        rcases List.mem_cons.mp hp' with rfl | hp'
        · exact .inl hi
        · rcases hp c hc p hp' hpc i hi with h1 | h1
          · exact .inl h1
          · exact (hcov id rfl c hc p hp' hpc i hi h1).imp_right fun h2 => ⟨h1, h2⟩
    | none =>
      rw [s.act_input cfg (ev, x) hb]
      refine iff_of_true ((h.extend (step_extends cfg hs hi s.op (ev, x) hb h.spills)
        (step_spillsOk cfg s.op (ev, x) h.spills)).2.mpr hp) fun id hid => ?_
      rw [hb] at hid
      cases hid

end

/-- **Chunk safety**: the committed epoch is intact in every state of a run if and only if every
checkpoint and every commit is covered. -/
theorem committed_intact_iff (cfg : Config) (hs : cfg.hasStore = true) (hi : cfg.incCkpt = true)
    (ck : Store (List (Group K × M))) (acts : List (Action K agg))
    (hl : Along (Instance.act cfg) Instance.Legal (Instance.start (R := R) cfg ck) acts) :
    (∀ before after, acts = before ++ after →
      (run (Instance.act cfg) (Instance.start (R := R) cfg ck) before).Intact cfg) ↔
    Along (Instance.act cfg) Instance.Covered (Instance.start (R := R) cfg ck) acts := by
  refine forall_states_iff_along (Instance.act cfg) Instance.Legal Instance.Covered
    (Instance.Ok cfg) (Instance.Intact cfg) (Instance.act_ok hs hi) ?_ _ acts hl
    (Instance.start_ok cfg ck) ?_
  · intro s a hla h hp
    rw [(Instance.act_ok hs hi s a hla h).intact_iff hs]
    exact Instance.act_allLive_iff hs hi s a h ((h.intact_iff hs).mp hp)
  · intro c hc p hp'
    cases hp'

end

/-! ## A commit that lags -/

/-- Append mode with incremental checkpoints; every batch is spilled. -/
def incCfg : Config :=
  { lateCfg with allowedLateness := 0, stateBudgetBytes := 0, incCkpt := true, hasStore := true }

/-- A row is staged in chunk 0 with epoch 1, which is committed; its window fires, checkpoints
follow. -/
def laggingCommit (ids : List Nat) : List (Action Unit sumAgg) :=
  [.input (.data [(tenSeconds, 1)] [false], Exec.plain Unit sumAgg),
    .input (.marker (.checkpoint 1), Exec.plain Unit sumAgg),
    .commit 1,
    .input (.marker (.watermark "s" (seconds 20)), Exec.plain Unit sumAgg)] ++
  ids.map fun id => .input (.marker (.checkpoint id), Exec.plain Unit sumAgg)

/-- One epoch behind, chunk 0 is still referenced by epoch 1. -/
theorem committed_intact_oneBehind :
    incCfg.hasStore = true ∧ incCfg.incCkpt = true ∧
      Along (Instance.act incCfg) Instance.Legal (Instance.start (R := Nat) incCfg Store.empty)
        (laggingCommit [2]) ∧
      ∀ before after, laggingCommit [2] = before ++ after →
        (run (Instance.act incCfg) (Instance.start (R := Nat) incCfg Store.empty) before).Intact incCfg :=
  have hl : Along (Instance.act incCfg) Instance.Legal
      (Instance.start (R := Nat) incCfg Store.empty) (laggingCommit [2]) := by
    decide
  ⟨rfl, rfl, hl, (committed_intact_iff incCfg rfl rfl Store.empty (laggingCommit [2]) hl).mpr
    (by decide)⟩

/-- `Checkpoint{3}` has deleted chunk 0: the committed epoch 1 restores without its row. -/
theorem committed_twoBehind_lost :
    Along (Instance.act incCfg) Instance.Legal (Instance.start (R := Nat) incCfg Store.empty)
        (laggingCommit [2, 3]) ∧
      ¬ (run (Instance.act incCfg) (Instance.start (R := Nat) incCfg Store.empty)
        (laggingCommit [2, 3])).Intact incCfg := by
  refine ⟨by decide, fun h => ?_⟩
  have h1 := (h 1 (by decide) _ (List.mem_of_getLast? rfl) rfl).1
  revert h1
  decide

end Zelox.Window
