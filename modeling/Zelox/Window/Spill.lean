import Zelox.Window.Accum

/-!
# Spilling is transparent

Which partial states sit in memory and which in spilled chunks is decided by the
budget; what an aggregate can see of all of them together is not.  A chunk is
written to an index no live chunk uses (`SpillsOk`), so accumulating, compacting,
spilling, re-reading and re-spilling keep the partial states up to agreement:
`onData` adds the batch, `rebuildRetainedState` drops the closed windows
(`rebuild_agree`), a checkpoint changes nothing.
-/

namespace Zelox.Window

open StateIo GroupFold

variable {K V M R : Type}

/-- Live chunks have indices below the next one; without a store there are none. -/
structure SpillsOk (cfg : Config) (acc : AccumState K M R) : Prop where
  below : ∀ i ∈ acc.spilled, i < acc.nextSpill
  noStore : cfg.hasStore = false → acc.spilled = []

/-- All partial states of the operator. -/
def content (cfg : Config) (ck : Store (List (Group K × M))) (acc : AccumState K M R) :
    List (Group K × M) :=
  (gatherPartials cfg ck acc).flatten

/-- All partial states of a rebuild. -/
def Rebuild.content (s : Rebuild K M) : List (Group K × M) :=
  (s.newPending ++ s.spilled.flatMap (readSpill s.ck)).flatten

/-- A rebuild that started with the chunks `old` and the store `ck` writes to indices from `lo` on
only. -/
structure Rebuild.Ok (cfg : Config) (lo : Nat) (old : List Nat) (ck : Store (List (Group K × M)))
    (s : Rebuild K M) : Prop where
  fresh : ∀ i ∈ s.spilled, i ∈ old ∨ lo ≤ i
  below : ∀ i ∈ s.spilled, i < s.nextSpill
  lo_le : lo ≤ s.nextSpill
  frame : ∀ k, (∀ i, lo ≤ i → k ≠ .spill i) → s.ck.get k = ck.get k
  stored : ∀ i ∈ s.spilled, lo ≤ i → s.ck.get (.spill i) ≠ none
  noStore : cfg.hasStore = false → s.spilled = old

/-! ## Batches -/

theorem flatten_retainOpenWindowRows {A : Type} (unit : TimeUnit) (bs : List (List (Group K × A)))
    (wm : Int64) :
    (retainOpenWindowRows unit bs wm).flatten = bs.flatten.filter fun r => openAt unit wm r.1 := by
  unfold retainOpenWindowRows
  rw [List.flatten_filter_not_isEmpty, List.filter_flatten]

variable (cfg : Config)

/-! ## Chunks -/

theorem content_congr (ck ck' : Store (List (Group K × M))) (acc : AccumState K M R)
    (h : ∀ i ∈ acc.spilled, ck'.get (.spill i) = ck.get (.spill i)) :
    content cfg ck' acc = content cfg ck acc := by
  unfold content gatherPartials
  rw [flatMap_readSpill_congr ck ck' acc.spilled h]

/-! ## State that spilling does not read -/

theorem mergeDone_spillsOk (w : Int64) (m : Merge K R) (acc : AccumState K M R)
    (h : SpillsOk cfg acc) : SpillsOk cfg (mergeDone cfg w m acc) := by
  unfold mergeDone
  split
  · exact ⟨h.below, h.noStore⟩
  · exact ⟨h.below, h.noStore⟩

theorem mergeDone_content (w : Int64) (m : Merge K R) (ck : Store (List (Group K × M)))
    (acc : AccumState K M R) :
    content cfg ck (mergeDone cfg w m acc) = content cfg ck acc := by
  unfold mergeDone
  split
  · rfl
  · rfl

section

variable (ck : Store (List (Group K × M))) (id : Nat) (residual : List (List (Group K × M)))
  (chunks : List Nat) (info : List Int64) (k : Key)

theorem get_stageEpochIncremental_of_ne (h1 : k ≠ .manifest id) (h2 : k ≠ .residual id) :
    (stageEpochIncremental ck id residual chunks info).get k = ck.get k := by
  unfold stageEpochIncremental
  rw [Store.get_put_of_ne _ _ _ _ h1, Store.get_put_of_ne _ _ _ _ h2]

theorem get_gc_stageEpochIncremental (hm : ∀ e, k ≠ .manifest e) (hr : ∀ e, k ≠ .residual e) :
    (if subsumed (stageEpochIncremental ck id residual chunks info) id
      then gcEpochIncremental (stageEpochIncremental ck id residual chunks info) (id - 2)
      else stageEpochIncremental ck id residual chunks info).get k = ck.get k := by
  split
  · unfold gcEpochIncremental
    rw [Store.get_delete_of_ne _ _ _ (hr _), Store.get_delete_of_ne _ _ _ (hm _),
      get_stageEpochIncremental_of_ne _ _ _ _ _ _ (hm _) (hr _)]
  · exact get_stageEpochIncremental_of_ne _ _ _ _ _ _ (hm _) (hr _)

end

/-- A checkpoint writes and deletes epoch objects only, and chunks that are not live. -/
theorem onCheckpoint_get_of_ne (op : Op K M R) (id : Nat) (k : Key) (he : ∀ e, k ≠ .epoch e)
    (hm : ∀ e, k ≠ .manifest e) (hr : ∀ e, k ≠ .residual e)
    (hlive : ∀ i, k = .spill i → i ∈ op.acc.spilled) :
    (onCheckpoint cfg op id).ck.get k = op.ck.get k := by
  unfold onCheckpoint
  cases cfg.hasStore with
  | false => rfl
  | true =>
    cases cfg.incCkpt with
    | true =>
      simp only [if_true]
      unfold checkpointIncremental gcChunks
      rw [get_foldl_deleteSpill, get_gc_stageEpochIncremental _ _ _ _ _ _ hm hr]
      intro j hj hk
      simp [hlive j hk] at hj
    | false =>
      simp only [if_true, Bool.false_eq_true, if_false]
      unfold checkpointFull
      dsimp only
      split
      · unfold gcEpochState stageEpochState
        rw [Store.get_delete_of_ne _ _ _ (he _), Store.get_put_of_ne _ _ _ _ (he _)]
      · unfold stageEpochState
        rw [Store.get_put_of_ne _ _ _ _ (he _)]

theorem onCheckpoint_get_spill (op : Op K M R) (id i : Nat) (hi : i ∈ op.acc.spilled) :
    (onCheckpoint cfg op id).ck.get (.spill i) = op.ck.get (.spill i) := by
  refine onCheckpoint_get_of_ne cfg op id _ (by simp) (by simp) (by simp) ?_
  rintro _ ⟨⟩
  exact hi

/-- What a checkpoint leaves of the operator's state: everything but the GC lists. -/
theorem onCheckpoint_acc (op : Op K M R) (id : Nat) :
    ∃ ec gc, (onCheckpoint cfg op id).acc = { op.acc with epochChunks := ec, gcCandidates := gc } := by
  unfold onCheckpoint
  cases cfg.hasStore with
  | false => exact ⟨_, _, rfl⟩
  | true =>
    cases cfg.incCkpt with
    | true | false => exact ⟨_, _, rfl⟩

theorem onCheckpoint_content (op : Op K M R) (id : Nat) :
    content cfg (onCheckpoint cfg op id).ck (onCheckpoint cfg op id).acc =
      content cfg op.ck op.acc := by
  obtain ⟨ec, gc, e⟩ := onCheckpoint_acc cfg op id
  rw [e]
  exact content_congr cfg op.ck _ op.acc fun i hi => onCheckpoint_get_spill cfg op id i hi

section

variable [DecidableEq K] [AddCommMonoid M] {agg : Aggregate V M R}
variable (x : Exec K agg)

theorem runPartialAggregate_agree (rows : List (Group K × V)) :
    Agree (runPartialAggregate x rows).flatten (agg.liftRows rows) := by
  unfold runPartialAggregate
  rw [List.flatten_filter_not_isEmpty]
  exact x.partial_agree rows

theorem compactPartials_agree (bs : List (List (Group K × M))) :
    Agree (compactPartials x bs).flatten bs.flatten := by
  unfold compactPartials
  split
  · exact Agree.refl _
  · rw [List.flatten_filter_not_isEmpty]
    exact x.reduce_agree bs

/-! ## One spill -/

theorem spillPending_cases (cfg : Config) (s : Rebuild K M) :
    spillPending x cfg s = s ∨
      (cfg.hasStore = true ∧ x.taken s.nextSpill s.newPending = true ∧ spillPending x cfg s =
        ⟨s.ck.put (.spill s.nextSpill) (.state s.newPending []), s.spilled ++ [s.nextSpill],
          s.nextSpill + 1, [], 0⟩) := by
  unfold spillPending writeSpill
  split
  · next h =>
    rw [Bool.and_eq_true] at h
    cases x.taken s.nextSpill s.newPending with
    | true => exact .inr ⟨h.2, rfl, rfl⟩
    | false => exact .inl rfl
  · exact .inl rfl

section Rebuild

variable (x : Exec K agg) (cfg : Config) (w : Int64) (lo : Nat) (old : List Nat)
  (ck : Store (List (Group K × M)))

theorem spillPending_ok (s : Rebuild K M) (h : s.Ok cfg lo old ck) :
    (spillPending x cfg s).Ok cfg lo old ck := by
  rcases spillPending_cases x cfg s with e | ⟨hs, -, e⟩
  · rw [e]; exact h
  · rw [e]
    refine ⟨?_, ?_, ?_, ?_, ?_, ?_⟩
    · exact Lists.forall_mem_concat.mpr ⟨h.fresh, .inr h.lo_le⟩
    · refine Lists.forall_mem_concat.mpr ⟨fun i hi => ?_, Nat.lt_succ_self _⟩
      exact Nat.lt_succ_of_lt (h.below i hi)
    · exact Nat.le_succ_of_le h.lo_le
    · intro k hk
      rw [Store.get_put_of_ne _ _ _ _ (hk _ h.lo_le)]
      exact h.frame k hk
    · refine Lists.forall_mem_concat.mpr ⟨fun i hi hlo => ?_, fun _ => ?_⟩
      · have hne : Key.spill i ≠ .spill s.nextSpill := by
          have := h.below i hi
          simp only [ne_eq, Key.spill.injEq]
          omega
        rw [Store.get_put_of_ne _ _ _ _ hne]
        exact h.stored i hi hlo
      · rw [Store.get_put_self]
        exact Option.some_ne_none _
    · intro hn
      rw [hs] at hn
      cases hn

theorem spillPending_content (cfg : Config) (s : Rebuild K M)
    (hb : ∀ i ∈ s.spilled, i < s.nextSpill) :
    (spillPending x cfg s).content.Perm s.content := by
  rcases spillPending_cases x cfg s with e | ⟨-, -, e⟩
  · rw [e]
  · rw [e]
    have hold : s.spilled.flatMap
        (readSpill (s.ck.put (.spill s.nextSpill) (.state s.newPending []))) =
        s.spilled.flatMap (readSpill s.ck) := by
      refine flatMap_readSpill_congr _ _ _ fun i hi => Store.get_put_of_ne _ _ _ _ ?_
      have := hb i hi
      simp only [ne_eq, Key.spill.injEq]
      omega
    show ([] ++ (s.spilled ++ [s.nextSpill]).flatMap (readSpill _)).flatten.Perm _
    rw [List.nil_append, List.flatMap_append, hold, List.flatMap_singleton, readSpill_put_self]
    unfold Rebuild.content
    rw [List.flatten_append, List.flatten_append]
    exact List.perm_append_comm

/-! ## Absorbing chunks -/

section

variable (s : Rebuild K M) (chunk : List (List (Group K × M)))

theorem absorb_ok (h : s.Ok cfg lo old ck) : (absorb x cfg w s chunk).Ok cfg lo old ck :=
  spillPending_ok x cfg lo old ck _ { h with }

theorem absorb_content (hb : ∀ i ∈ s.spilled, i < s.nextSpill) :
    (absorb x cfg w s chunk).content.Perm
      (s.content ++ chunk.flatten.filter fun r => openAt cfg.unit w r.1) := by
  refine (spillPending_content x cfg _ ?_).trans ?_
  · exact hb
  · unfold Rebuild.content
    rw [← flatten_retainOpenWindowRows]
    simp only [List.flatten_append, List.append_assoc]
    exact List.Perm.append_left _ List.perm_append_comm

end

theorem absorb_pending (batches : List (List (Group K × M))) (s : Rebuild K M)
    (h : s.Ok cfg lo old ck) :
    (batches.foldl (fun s b => absorb x cfg w s [b]) s).Ok cfg lo old ck ∧
      (batches.foldl (fun s b => absorb x cfg w s [b]) s).content.Perm
        (s.content ++ batches.flatten.filter fun r => openAt cfg.unit w r.1) := by
  induction batches generalizing s with
  | nil => exact ⟨h, by simp⟩
  | cons b bs ih =>
    obtain ⟨h1, h2⟩ := ih (absorb x cfg w s [b]) (absorb_ok x cfg w lo old ck s [b] h)
    refine ⟨h1, h2.trans ?_⟩
    rw [List.flatten_cons, List.filter_append, ← List.append_assoc]
    have h3 := absorb_content x cfg w s [b] h.below
    rw [List.flatten_singleton] at h3
    exact h3.append_right _

/-- Old chunks absorbed one by one: re-spilled chunks do not disturb those still to
be read. -/
theorem absorb_spilled (is : List Nat) (his : ∀ i ∈ is, i < lo) (s : Rebuild K M)
    (h : s.Ok cfg lo old ck) :
    (is.foldl (absorbSpilled x cfg w) s).Ok cfg lo old ck ∧
      (is.foldl (absorbSpilled x cfg w) s).content.Perm
        (s.content ++
          (is.flatMap (readSpill ck)).flatten.filter fun r => openAt cfg.unit w r.1) := by
  induction is generalizing s with
  | nil => exact ⟨h, by simp⟩
  | cons i is ih =>
    have hi := his i List.mem_cons_self
    have hread : readSpill s.ck i = readSpill ck i := by
      refine readSpill_congr _ _ _ (h.frame _ fun j hj => ?_)
      simp only [ne_eq, Key.spill.injEq]
      omega
    obtain ⟨h1, h2⟩ := ih (fun j hj => his j (List.mem_cons_of_mem _ hj))
      (absorbSpilled x cfg w s i) (absorb_ok x cfg w lo old ck s _ h)
    refine ⟨h1, h2.trans ?_⟩
    rw [List.flatMap_cons, List.flatten_append, List.filter_append, ← List.append_assoc]
    have h3 := absorb_content x cfg w s (readSpill s.ck i) h.below
    rw [hread] at h3
    unfold absorbSpilled
    rw [hread]
    exact h3.append_right _

/-! ## The retained state -/

section

variable (acc : AccumState K M R) (h : SpillsOk cfg acc)
include h

theorem absorbAll_spec :
    (absorbAll x cfg w ck acc).Ok cfg acc.nextSpill [] ck ∧
      (absorbAll x cfg w ck acc).content.Perm
        ((content cfg ck acc).filter fun r => openAt cfg.unit w r.1) := by
  have h0 : Rebuild.Ok cfg acc.nextSpill [] ck (⟨ck, [], acc.nextSpill, [], 0⟩ : Rebuild K M) :=
    ⟨nofun, nofun, le_rfl, fun _ _ => rfl, nofun, fun _ => rfl⟩
  obtain ⟨h1, h2⟩ := absorb_pending x cfg w acc.nextSpill [] ck acc.pendingRows _ h0
  have e0 : (⟨ck, [], acc.nextSpill, [], 0⟩ : Rebuild K M).content = [] := rfl
  unfold absorbAll content gatherPartials
  cases hs : cfg.hasStore with
  | true =>
    obtain ⟨h3, h4⟩ := absorb_spilled x cfg w acc.nextSpill [] ck acc.spilled h.below _ h1
    refine ⟨h3, h4.trans ?_⟩
    rw [List.flatten_append, List.filter_append]
    exact h2.append_right _
  | false =>
    simp only [Bool.false_eq_true, if_false, List.append_nil]
    exact ⟨h1, h2⟩

/-- A rebuild writes chunks from the next index on, and deletes consumed ones unless incremental. -/
theorem rebuild_frame (k : Key) (hk : ∀ i, acc.nextSpill ≤ i → k ≠ .spill i)
    (hold : cfg.incCkpt = false → ∀ i ∈ acc.spilled, k ≠ .spill i) :
    (rebuildRetainedState x cfg w ck acc).1.get k = ck.get k := by
  have h1 := (absorbAll_spec x cfg w ck acc h).1.frame k hk
  show (if (cfg.hasStore && !cfg.incCkpt) = true then
    acc.spilled.foldl deleteSpill (absorbAll x cfg w ck acc).ck
    else (absorbAll x cfg w ck acc).ck).get k = ck.get k
  split
  · next hc =>
    rw [Bool.and_eq_true, Bool.not_eq_true'] at hc
    rw [get_foldl_deleteSpill _ _ _ (hold hc.2), h1]
  · exact h1

theorem rebuild_spillsOk :
    SpillsOk cfg (rebuildRetainedState x cfg w ck acc).2 :=
  have h1 := (absorbAll_spec x cfg w ck acc h).1
  ⟨h1.below, h1.noStore⟩

theorem rebuild_agree :
    Agree (content cfg (rebuildRetainedState x cfg w ck acc).1
        (rebuildRetainedState x cfg w ck acc).2)
      ((content cfg ck acc).filter fun r => openAt cfg.unit w r.1) := by
  obtain ⟨h1, h2⟩ := absorbAll_spec x cfg w ck acc h
  refine Agree.trans ?_ (Agree.of_perm h2)
  -- the chunks written are all above the deleted ones
  have hread : (absorbAll x cfg w ck acc).spilled.flatMap
      (readSpill (rebuildRetainedState x cfg w ck acc).1) =
      (absorbAll x cfg w ck acc).spilled.flatMap (readSpill (absorbAll x cfg w ck acc).ck) := by
    refine flatMap_readSpill_congr _ _ _ fun i hi => ?_
    show (if (cfg.hasStore && !cfg.incCkpt) = true then
      acc.spilled.foldl deleteSpill (absorbAll x cfg w ck acc).ck
      else (absorbAll x cfg w ck acc).ck).get _ = _
    split
    · refine get_foldl_deleteSpill _ _ _ fun j hj => ?_
      have hj' := h.below j hj
      rcases h1.fresh i hi with hi' | hi'
      · cases hi'
      · simp only [ne_eq, Key.spill.injEq]
        omega
    · rfl
  have hpend : Agree (rebuildRetainedState x cfg w ck acc).2.pendingRows.flatten
      (absorbAll x cfg w ck acc).newPending.flatten := by
    show Agree (if (cfg.compactEnabled && decide (1 < (absorbAll x cfg w ck acc).newPending.length))
      = true then compactPartials x (absorbAll x cfg w ck acc).newPending
      else (absorbAll x cfg w ck acc).newPending).flatten _
    split
    · exact compactPartials_agree x _
    · exact Agree.refl _
  unfold content gatherPartials Rebuild.content
  rw [List.flatten_append, List.flatten_append]
  refine hpend.append ?_
  cases hs : cfg.hasStore with
  | true =>
    show Agree ((absorbAll x cfg w ck acc).spilled.flatMap
      (readSpill (rebuildRetainedState x cfg w ck acc).1)).flatten _
    rw [hread]
    exact Agree.refl _
  | false =>
    rw [h1.noStore hs]
    exact Agree.refl _

end

end Rebuild

/-! ## Events -/

section

variable (x : Exec K agg) (cfg : Config) (op : Op K M R) (batch : List (Group K × V))
  (h : SpillsOk cfg op.acc)
include h

theorem accumulate_ok :
    (accumulate x cfg op batch).Ok cfg op.acc.nextSpill op.acc.spilled op.ck :=
  ⟨fun _ hi => .inl hi, h.below, le_rfl, fun _ _ => rfl,
    fun i hi hlo => absurd (h.below i hi) (not_lt.mpr hlo), fun _ => rfl⟩

theorem accumulate_content :
    Agree (accumulate x cfg op batch).content (content cfg op.ck op.acc ++ agg.liftRows batch) := by
  have hp : Agree (accumulate x cfg op batch).newPending.flatten
      (op.acc.pendingRows.flatten ++ agg.liftRows batch) := by
    have h1 : Agree (op.acc.pendingRows ++ runPartialAggregate x batch).flatten
        (op.acc.pendingRows.flatten ++ agg.liftRows batch) := by
      rw [List.flatten_append]
      exact (Agree.refl _).append (runPartialAggregate_agree x batch)
    unfold accumulate
    dsimp only
    split
    · exact (compactPartials_agree x _).trans h1
    · exact h1
  have hsp : (if cfg.hasStore then op.acc.spilled.flatMap (readSpill op.ck) else []) =
      op.acc.spilled.flatMap (readSpill op.ck) := by
    cases hs : cfg.hasStore with
    | true => rfl
    | false => rw [h.noStore hs]; rfl
  unfold Rebuild.content content gatherPartials
  rw [hsp, List.flatten_append, List.flatten_append]
  refine (hp.append (Agree.refl _)).trans (Agree.of_perm ?_)
  rw [List.append_assoc, List.append_assoc]
  exact List.Perm.append_left _ List.perm_append_comm

theorem onData_spillsOk :
    SpillsOk cfg (onData x cfg op batch).acc := by
  unfold onData
  dsimp only
  split
  · exact h
  · have h1 := spillPending_ok x cfg _ _ _ _
      (accumulate_ok x cfg op (dropLateRows cfg op.acc.watermarkMicros batch) h)
    exact ⟨h1.below, fun hs => (h1.noStore hs).trans (h.noStore hs)⟩

theorem onData_agree :
    Agree (content cfg (onData x cfg op batch).ck (onData x cfg op batch).acc)
      (content cfg op.ck op.acc ++
        agg.liftRows (dropLateRows cfg op.acc.watermarkMicros batch)) := by
  unfold onData
  dsimp only
  split
  · next he =>
    rw [List.isEmpty_iff] at he
    rw [he]
    exact (List.append_nil _).symm ▸ Agree.refl _
  · have h0 := accumulate_ok x cfg op (dropLateRows cfg op.acc.watermarkMicros batch) h
    have h1 := spillPending_ok x cfg _ _ _ _ h0
    have h2 := spillPending_content x cfg _ h0.below
    refine Agree.trans ?_ ((Agree.of_perm h2).trans (accumulate_content x cfg op _ h))
    unfold content gatherPartials Rebuild.content
    cases hs : cfg.hasStore with
    | true => exact Agree.refl _
    | false =>
      have e := (h1.noStore hs).trans (h.noStore hs)
      simp only [e, Bool.false_eq_true, if_false, List.flatMap_nil]
      exact Agree.refl _

end

variable [DecidableEq R]

section

variable (cfg : Config) (w : Int64) (after : FlowMarker) (op : Op K M R) (h : SpillsOk cfg op.acc)
include h

theorem finalize_spillsOk : SpillsOk cfg (finalize x cfg w after op).acc :=
  rebuild_spillsOk x cfg _ _ _ (mergeDone_spillsOk cfg w _ op.acc h)

theorem finalize_agree :
    Agree (content cfg (finalize x cfg w after op).ck (finalize x cfg w after op).acc)
      ((content cfg op.ck op.acc).filter fun r => openAt cfg.unit (retainWm cfg w) r.1) := by
  have h1 := rebuild_agree x cfg (retainWm cfg w) op.ck _
    (mergeDone_spillsOk cfg w (drainMerge x cfg w op) op.acc h)
  rw [mergeDone_content] at h1
  exact h1

end

theorem step_spillsOk (op : Op K M R) (i : FlowEvent (Group K × V) × Exec K agg)
    (h : SpillsOk cfg op.acc) : SpillsOk cfg (step cfg op i).acc := by
  obtain ⟨ev, x⟩ := i
  cases ev with
  | data batch flags => exact onData_spillsOk x cfg op batch h
  | marker m =>
    cases m with
    | watermark source ts =>
      show SpillsOk cfg (onWatermark x cfg op source ts).acc
      unfold onWatermark
      dsimp only
      split
      · exact finalize_spillsOk x cfg _ _ _ ⟨h.below, h.noStore⟩
      · exact ⟨h.below, h.noStore⟩
    | endOfData =>
      show SpillsOk cfg (onEndOfData x cfg op).acc
      unfold onEndOfData
      split
      · split
        · exact finalize_spillsOk x cfg _ _ _ h
        · exact h
      · exact finalize_spillsOk x cfg _ _ _ h
    | checkpoint id =>
      obtain ⟨ec, gc, e⟩ := onCheckpoint_acc cfg op id
      show SpillsOk cfg (onCheckpoint cfg op id).acc
      rw [e]
      exact ⟨h.below, h.noStore⟩
    | latencyTracker source id ts | idle source => exact h

end

end Zelox.Window
