import Zelox.Window.Incremental

/-!
# Restarting from an incremental checkpoint

A new instance restores the committed epoch into memory and counts its own spills from
zero again, while the epoch's manifest keeps referencing chunks by the indices of the
instance that wrote them.  Until a newer epoch is committed a second restart reads them
once more.  `restart_restores` says that it finds them unchanged as long as no spill that the
new instance attempts under one of those indices succeeds.
-/

namespace Zelox.Window

open StateIo GroupFold Runs

variable {K V M R : Type}

/-! ## Chunks that are not written -/

/-- The chunks `js` are none of the operator's own and are as in the store `ck`. -/
def Avoids (js : List Nat) (ck : Store (List (Group K × M))) (op : Op K M R) : Prop :=
  ∀ j ∈ js, ¬ op.acc.Live j ∧ op.ck.get (.spill j) = ck.get (.spill j)

/-- As `Avoids`, for a rebuild. -/
def Rebuild.Avoids (js : List Nat) (ck : Store (List (Group K × M))) (s : Rebuild K M) : Prop :=
  ∀ j ∈ js, j ∉ s.spilled ∧ s.ck.get (.spill j) = ck.get (.spill j)

/-- What a restart from epoch `c` depends on is as in the store `ck`. -/
structure Resumed (cfg : Config) (c : Nat) (js : List Nat) (ck : Store (List (Group K × M)))
    (op : Op K M R) : Prop where
  spills : SpillsOk cfg op.acc
  avoids : Avoids js ck op
  committed : op.ck.get .realtimeCommitted = ck.get .realtimeCommitted
  epoch : op.ck.get (.manifest c) = ck.get (.manifest c) ∧
    op.ck.get (.residual c) = ck.get (.residual c)

theorem start_resumed (cfg : Config) (c : Nat) (js : List Nat) (ck : Store (List (Group K × M))) :
    Resumed cfg c js ck (start (R := R) cfg ck) := by
  refine ⟨start_spillsOk cfg ck, fun j _ => ⟨?_, rfl⟩, rfl, rfl, rfl⟩
  obtain ⟨-, hsp, hgc⟩ := restore_fresh (R := R) cfg ck
  show ¬ (j ∈ (restore (R := R) cfg ck).spilled ∨ j ∈ (restore (R := R) cfg ck).gcCandidates)
  rw [hsp, hgc]
  simp

section

variable [DecidableEq K] [AddCommMonoid M] {agg : Aggregate V M R}

/-- The pending batches are over budget, so that a spill is attempted. -/
def Rebuild.OverBudget (cfg : Config) (s : Rebuild K M) : Prop :=
  cfg.stateBudgetBytes < s.newBytes ∧ s.newPending ≠ []

/-- A spill attempted under one of the indices `js` fails. -/
def Exec.Refuses (x : Exec K agg) (cfg : Config) (js : List Nat) (s : Rebuild K M) : Prop :=
  s.OverBudget cfg → s.nextSpill ∈ js → x.taken s.nextSpill s.newPending = false

/-- The state of a rebuild in which `absorb` looks at the budget. -/
def grown (x : Exec K agg) (cfg : Config) (w : Int64) (s : Rebuild K M)
    (chunk : List (List (Group K × M))) : Rebuild K M :=
  let kept := retainOpenWindowRows cfg.unit chunk w
  { s with newPending := s.newPending ++ kept, newBytes := s.newBytes + memorySizes x kept }

/-- The spills attempted while the state is rebuilt. -/
def Exec.RefusesAll (x : Exec K agg) (cfg : Config) (js : List Nat) (w : Int64)
    (ck : Store (List (Group K × M))) (acc : AccumState K M R) : Prop :=
  Along (fun s b => absorb x cfg w s [b]) (fun s b => x.Refuses cfg js (grown x cfg w s [b]))
    ⟨ck, [], acc.nextSpill, [], 0⟩ acc.pendingRows ∧
  Along (absorbSpilled x cfg w)
    (fun s i => x.Refuses cfg js (grown x cfg w s (readSpill s.ck i)))
    (run (fun s b => absorb x cfg w s [b]) ⟨ck, [], acc.nextSpill, [], 0⟩ acc.pendingRows)
    acc.spilled

/-- The spills attempted in one turn: on a batch that is not late as a whole, and when a watermark
or the end of the input finalizes. -/
def SpillsRefused (cfg : Config) (js : List Nat) (op : Op K M R)
    (i : FlowEvent (Group K × V) × Exec K agg) : Prop :=
  match i.1 with
  | .data batch _ =>
    dropLateRows cfg op.acc.watermarkMicros batch ≠ [] →
      i.2.Refuses cfg js (accumulate i.2 cfg op (dropLateRows cfg op.acc.watermarkMicros batch))
  | .marker (.watermark _ ts) =>
    let w := setWatermark op.acc.watermarkMicros ts.timestampMicros
    shouldFinal w op.acc.lastFinalWm = true → i.2.RefusesAll cfg js (retainWm cfg w) op.ck op.acc
  | .marker .endOfData =>
    cfg.completeOnEnd = true → i.2.RefusesAll cfg js (retainWm cfg Int64.maxValue)
      (stageState op.ck (gatherPartials cfg op.ck op.acc) (snapshotInfo op.acc)) op.acc
  | .marker _ => True

section Refuses

variable (x : Exec K agg) (cfg : Config) (w : Int64) (js : List Nat)
  (ck : Store (List (Group K × M)))

theorem spillPending_avoids (s : Rebuild K M) (hx : x.Refuses cfg js s) (h : s.Avoids js ck) :
    (spillPending x cfg s).Avoids js ck := by
  unfold spillPending writeSpill
  split
  · next hover =>
    simp only [Bool.and_eq_true, decide_eq_true_eq, Bool.not_eq_true', List.isEmpty_eq_false_iff]
      at hover
    cases ht : x.taken s.nextSpill s.newPending with
    | false => exact h
    | true =>
      rw [if_pos rfl]
      intro j hj
      have hne : j ≠ s.nextSpill := by
        rintro rfl
        rw [hx hover.1 hj] at ht
        cases ht
      refine ⟨?_, ?_⟩
      · rw [List.mem_append, List.mem_singleton]
        exact fun h' => h'.elim (h j hj).1 hne
      · rw [Store.get_put_of_ne _ _ _ _ (by simp [hne])]
        exact (h j hj).2
  · exact h

theorem absorbAll_avoids (ck' : Store (List (Group K × M))) (acc : AccumState K M R)
    (hx : x.RefusesAll cfg js w ck' acc) (h : ∀ j ∈ js, ck'.get (.spill j) = ck.get (.spill j)) :
    (absorbAll x cfg w ck' acc).Avoids js ck := by
  have h0 : Rebuild.Avoids js ck (⟨ck', [], acc.nextSpill, [], 0⟩ : Rebuild K M) :=
    fun j hj => ⟨List.not_mem_nil, h j hj⟩
  have h1 := along_inv (fun s b => absorb x cfg w s [b]) _ (Rebuild.Avoids js ck)
    (fun s b hb hs => spillPending_avoids x cfg js ck (grown x cfg w s [b]) hb hs) _ _ hx.1 h0
  unfold absorbAll
  split
  · exact along_inv (absorbSpilled x cfg w) _ (Rebuild.Avoids js ck)
      (fun s i hb hs => spillPending_avoids x cfg js ck (grown x cfg w s (readSpill s.ck i)) hb hs)
      _ _ hx.2 h1
  · exact h1

theorem onData_avoids (op : Op K M R) (batch : List (Group K × V))
    (hx : dropLateRows cfg op.acc.watermarkMicros batch ≠ [] →
      x.Refuses cfg js (accumulate x cfg op (dropLateRows cfg op.acc.watermarkMicros batch)))
    (h : Avoids js ck op) : Avoids js ck (onData x cfg op batch) := by
  unfold onData
  dsimp only
  split
  · exact h
  · next hne =>
    have h1 := spillPending_avoids x cfg js ck _ (hx fun hnil => hne (by rw [hnil]; rfl))
      fun j hj => ⟨fun hs => (h j hj).1 (.inl hs), (h j hj).2⟩
    exact fun j hj => ⟨fun hl => hl.elim (h1 j hj).1 fun hg => (h j hj).1 (.inr hg), (h1 j hj).2⟩

end Refuses

variable [DecidableEq R]

section Steps

variable (cfg : Config) (hs : cfg.hasStore = true) (hi : cfg.incCkpt = true) (js : List Nat)
  (ck : Store (List (Group K × M))) (op : Op K M R)

include hs hi

theorem finalize_avoids (x : Exec K agg) (w : Int64) (after : FlowMarker)
    (hx : x.RefusesAll cfg js (retainWm cfg w) op.ck op.acc) (h : Avoids js ck op) :
    Avoids js ck (finalize x cfg w after op) := by
  obtain ⟨hgc, hck⟩ := finalize_incremental x cfg hs hi w after op
  have hx' : x.RefusesAll cfg js (retainWm cfg w) op.ck
      (mergeDone cfg w (drainMerge x cfg w op) op.acc) := by
    unfold mergeDone
    split <;> exact hx
  have h1 := absorbAll_avoids x cfg (retainWm cfg w) js ck op.ck _ hx' fun j hj => (h j hj).2
  intro j hj
  refine ⟨?_, by rw [hck]; exact (h1 j hj).2⟩
  rintro (hsp | hg)
  · exact (h1 j hj).1 hsp
  · rw [hgc, List.mem_append] at hg
    exact (h j hj).1 hg.symm

theorem step_avoids (i : FlowEvent (Group K × V) × Exec K agg) (hx : SpillsRefused cfg js op i)
    (h : Avoids js ck op) : Avoids js ck (step cfg op i) := by
  obtain ⟨ev, x⟩ := i
  cases ev with
  | data batch flags => exact onData_avoids x cfg js ck op batch hx h
  | marker m =>
    cases m with
    | watermark source ts =>
      show Avoids js ck (onWatermark x cfg op source ts)
      unfold onWatermark
      dsimp only
      split
      · next hf => exact finalize_avoids cfg hs hi js ck _ x _ _ (hx hf) h
      · exact h
    | endOfData =>
      have hstage : Avoids js ck { op with
          ck := stageState op.ck (gatherPartials cfg op.ck op.acc) (snapshotInfo op.acc) } :=
        fun j hj => ⟨(h j hj).1, (Store.get_put_of_ne _ _ _ _ (by simp)).trans (h j hj).2⟩
      show Avoids js ck (onEndOfData x cfg op)
      unfold onEndOfData
      rw [hs, if_pos rfl]
      split
      · next hend => exact finalize_avoids cfg hs hi js ck _ x _ _ (hx hend) hstage
      · exact hstage
    | checkpoint id =>
      obtain ⟨ea, ec⟩ := onCheckpoint_incremental cfg hs hi op id
      intro j hj
      obtain ⟨hl, hget⟩ := h j hj
      show ¬ (onCheckpoint cfg op id).acc.Live j ∧ (onCheckpoint cfg op id).ck.get _ = _
      rw [ea, ec, checkpointIncremental_live, checkpointIncremental_get_spill, if_neg]
      · exact ⟨fun hl' => hl (hl'.imp_right And.left), hget⟩
      · exact fun hg => hl (.inr hg.1)
    | latencyTracker source id ts | idle source => exact h

theorem step_resumed (c : Nat) (hc : committedEpoch ck = some c)
    (i : FlowEvent (Group K × V) × Exec K agg)
    (hx : SpillsRefused cfg js op i ∧ i.1 ≠ .marker (.checkpoint c)) (h : Resumed cfg c js ck op) :
    Resumed cfg c js ck (step cfg op i) := by
  refine ⟨step_spillsOk cfg op i h.spills, step_avoids cfg hs hi js ck op i hx.1 h.avoids,
    (step_get_realtime cfg op i h.spills).trans h.committed, ?_⟩
  obtain ⟨ev, x⟩ := i
  cases hb : ev.barrier with
  | none =>
    have he := step_extends cfg hs hi op (ev, x) hb h.spills
    exact ⟨(he.get _ (by simp) (by simp)).trans h.epoch.1, (he.get _ (by simp) (by simp)).trans h.epoch.2⟩
  | some id =>
    obtain rfl := FlowEvent.barrier_eq_some.mp hb
    have hne : c ≠ id := by
      rintro rfl
      exact hx.2 rfl
    have hle : ∀ c' ∈ committedEpoch op.ck, c' ≤ c := by
      rw [committedEpoch_congr h.committed, hc]
      rintro c' ⟨⟩
      exact le_rfl
    have he := checkpointIncremental_get_epoch op id c hne hle
    show (onCheckpoint cfg op id).ck.get _ = _ ∧ (onCheckpoint cfg op id).ck.get _ = _
    rw [(onCheckpoint_incremental cfg hs hi op id).2, he.1, he.2]
    exact h.epoch

end Steps

/-- **Restart**: with epoch `c` committed, a second restart restores the same state as the first, as
long as the store takes no spill attempted under an index that the epoch references and the epoch is
not staged anew. -/
theorem restart_restores (cfg : Config) (hs : cfg.hasStore = true) (hi : cfg.incCkpt = true)
    (ck : Store (List (Group K × M))) (c : Nat) (info : List Int64) (chunks : List Nat)
    (hc : committedEpoch ck = some c) (hman : ck.get (.manifest c) = some (.manifest info chunks))
    (is : List (FlowEvent (Group K × V) × Exec K agg))
    (his : Along (step cfg) (fun op i => SpillsRefused cfg chunks op i ∧
      i.1 ≠ .marker (.checkpoint c)) (start (R := R) cfg ck) is) :
    (restore cfg (run (step cfg) (start (R := R) cfg ck) is).ck : AccumState K M R) =
      restore cfg ck := by
  have h := along_inv (step cfg) _ (Resumed cfg c chunks ck)
    (fun op i hx => step_resumed cfg hs hi chunks ck op c hc i hx) _ is his
    (start_resumed (R := R) cfg c chunks ck)
  have hrestored : restored cfg (run (step cfg) (start (R := R) cfg ck) is).ck = restored cfg ck := by
    unfold restored
    rw [committedEpoch_congr h.committed, hc]
    dsimp only
    rw [hi, if_pos rfl, if_pos rfl]
    refine restoreEpochIncremental_congr _ _ c h.epoch.1 h.epoch.2 fun info' chunks' hm j hj => ?_
    rw [hman] at hm
    cases hm
    exact (h.avoids j hj).2
  unfold restore
  rw [hrestored]

end

/-! ## A spill after a restart -/

/-- Chunk 0 holds a row, and epoch 1, which references the chunk, is committed. -/
def leftBehind : Store (List (Group Unit × Nat)) :=
  (run (Instance.act incCfg) (Instance.start (R := Nat) incCfg Store.empty)
    ((laggingCommit []).take 3)).op.ck

/-- The new instance reads one row, with a store that takes every spill. -/
def newRow : List (FlowEvent (Group Unit × Nat) × Exec Unit sumAgg) :=
  [(.data [(tenSeconds, 5)] [false], Exec.plain Unit sumAgg)]

/-- The budget is not reached, so that nothing is spilled. -/
def roomyCfg : Config := { incCfg with stateBudgetBytes := 1000 }

theorem restart_restores_roomy :
    roomyCfg.hasStore = true ∧ roomyCfg.incCkpt = true ∧ committedEpoch leftBehind = some 1 ∧
      leftBehind.get (.manifest 1) = some (.manifest [Int64.minValue] [0]) ∧
      Along (step roomyCfg) (fun op i => SpillsRefused roomyCfg [0] op i ∧
        i.1 ≠ .marker (.checkpoint 1)) (start (R := Nat) roomyCfg leftBehind) newRow ∧
      (restore roomyCfg (run (step roomyCfg) (start (R := Nat) roomyCfg leftBehind) newRow).ck :
        AccumState Unit Nat Nat) = restore roomyCfg leftBehind :=
  have his : Along (step roomyCfg) (fun op i => SpillsRefused roomyCfg [0] op i ∧
      i.1 ≠ .marker (.checkpoint 1)) (start (R := Nat) roomyCfg leftBehind) newRow :=
    ⟨⟨fun _ hover => absurd hover.1 (by decide), nofun⟩, trivial⟩
  ⟨rfl, rfl, rfl, rfl, his,
    restart_restores roomyCfg rfl rfl leftBehind 1 [Int64.minValue] [0] rfl rfl newRow his⟩

/-- The first spill of the new instance overwrites chunk 0, and the second restart restores both
rows. -/
theorem restart_spill_overwrites :
    committedEpoch leftBehind = some 1 ∧
      leftBehind.get (.manifest 1) = some (.manifest [Int64.minValue] [0]) ∧
      restored incCfg leftBehind = ([[(tenSeconds, 1)]], [Int64.minValue]) ∧
      restored incCfg (run (step incCfg) (start (R := Nat) incCfg leftBehind) newRow).ck =
        ([[(tenSeconds, 1)], [(tenSeconds, 5)]], [Int64.minValue]) :=
  ⟨rfl, rfl, by decide, by decide⟩

end Zelox.Window
