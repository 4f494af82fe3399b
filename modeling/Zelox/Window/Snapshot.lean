import Zelox.Window.Exact

/-!
# Snapshot and restore

An append-mode operator without lateness reads some events and snapshots its state,
the snapshot is committed, and a second operator restores it and goes on to a
flushing end of data.  It holds the partial states of the first one
(`restored_snapshot`), its watermark, and as its fired floor that watermark.  The
floor is where windows get lost: finalizes are throttled, so a window may lie at or
below the watermark without having fired.  `handover_once_iff` says which groups are
emitted once by the two operators together.
-/

namespace Zelox.Window

open StateIo GroupFold Runs Store

variable {K V M R : Type}

/-! ## Handing over -/

/-- How the first operator snapshots its state. -/
inductive Snapshot where
  | endOfData
  | checkpoint (epoch : Nat)
deriving DecidableEq

namespace Snapshot

def marker : Snapshot → FlowMarker
  | .endOfData => .endOfData
  | .checkpoint epoch => .checkpoint epoch

/-- The runner promotes a staged snapshot; the realtime sink records an epoch. -/
def commit {B : Type} : Snapshot → Store B → Store B
  | .endOfData, ck => promote ck .staged .committed
  | .checkpoint epoch, ck => ck.put .realtimeCommitted (.committed epoch)

/-- The first operator also flushes its open windows. -/
def flushed (cfg : Config) : Snapshot → Bool
  | .endOfData => cfg.completeOnEnd
  | .checkpoint _ => false

end Snapshot

/-- The second operator's settings: as the first one's, and its end of data flushes. -/
def Config.completing (cfg : Config) : Config := { cfg with completeOnEnd := true }

/-- The groups with an accepted row. -/
def Intake.groups (s : Intake K V) : List (Group K) := seen [] s.rounds ++ keys s.rows

/-- The groups emitted once by the two operators: `s` is what the first one has taken
in, `rounds` are the rounds of the second.

* A window the first operator closed must have had a row of the group by then.
* A window at or below its watermark that it did not close is lost, unless it flushes.
* Any other window is closed by the second operator, and must not have been flushed
  by the first. -/
def CarriedOnce [DecidableEq K] (cfg : Config) (flushed : Bool) (s : Intake K V)
    (rounds : List (Round K V)) (g : Group K) : Prop :=
  ∃ e ∈ windowEndMicros cfg.unit g, Int64.minValue < e ∧
    if (s.rounds.any fun p => e ≤ p.emitWm) = true then g ∈ keys (dueRows e s.rounds)
    else if (s.wm.any fun v => e ≤ v) = true then flushed = true ∧ g ∈ s.groups
    else if flushed = true then g ∉ s.groups ∧ g ∈ keys (dueRows e rounds)
    else g ∈ s.groups ∨ g ∈ keys (dueRows e rounds)

instance [DecidableEq K] (cfg : Config) (flushed : Bool) (s : Intake K V)
    (rounds : List (Round K V)) (g : Group K) : Decidable (CarriedOnce cfg flushed s rounds g) := by
  unfold CarriedOnce
  exact Option.decidableExistsMem _

variable (cfg : Config)

/-! ## The store across a snapshot -/

theorem onCheckpoint_get_realtime (op : Op K M R) (id : Nat) :
    (onCheckpoint cfg op id).ck.get .realtimeCommitted = op.ck.get .realtimeCommitted :=
  onCheckpoint_get_of_ne cfg op id _ (by simp) (by simp) (by simp) (by simp)

theorem checkpointIncremental_get_self (op : Op K M R) (id : Nat) :
    (checkpointIncremental op id).ck.get (.manifest id) =
        some (.manifest (snapshotInfo op.acc) op.acc.spilled) ∧
      (checkpointIncremental op id).ck.get (.residual id) =
        some (.state op.acc.pendingRows []) := by
  unfold checkpointIncremental gcChunks
  rw [get_foldl_deleteSpill _ _ _ fun i _ => by simp,
    get_foldl_deleteSpill _ _ _ fun i _ => by simp]
  split
  · next hsub =>
    -- the epoch deleted is an older one
    have hne : id ≠ id - 2 := by
      unfold subsumed at hsub
      rw [Bool.and_eq_true, decide_eq_true_eq] at hsub
      omega
    unfold gcEpochIncremental stageEpochIncremental
    rw [get_delete_of_ne _ _ _ (by simp), get_delete_of_ne _ _ _ (by simp [hne]),
      get_delete_of_ne _ _ _ (by simp [hne]), get_delete_of_ne _ _ _ (by simp),
      get_put_self, get_put_of_ne _ _ _ _ (by simp), get_put_self]
    exact ⟨rfl, rfl⟩
  · unfold stageEpochIncremental
    rw [get_put_self, get_put_of_ne _ _ _ _ (by simp), get_put_self]
    exact ⟨rfl, rfl⟩

theorem restore_onCheckpoint (hs : cfg.hasStore = true) (op : Op K M R) (id : Nat) :
    (if cfg.incCkpt then restoreEpochIncremental (onCheckpoint cfg op id).ck id
      else restoreEpochState (onCheckpoint cfg op id).ck id) =
      (gatherPartials cfg op.ck op.acc, snapshotInfo op.acc) := by
  have hchunks := onCheckpoint_get_spill cfg op id
  cases hi : cfg.incCkpt with
  | true =>
    have hck : (onCheckpoint cfg op id).ck = (checkpointIncremental op id).ck := by
      unfold onCheckpoint
      rw [hs, hi]
      rfl
    obtain ⟨hman, hres⟩ := checkpointIncremental_get_self op id
    rw [hck] at hchunks ⊢
    rw [if_pos rfl]
    unfold restoreEpochIncremental gatherPartials
    rw [hman, hres, hs, if_pos rfl]
    dsimp only [decodeState]
    rw [flatMap_readSpill_congr op.ck _ op.acc.spilled hchunks]
  | false =>
    have hck : (onCheckpoint cfg op id).ck = (checkpointFull cfg op id).ck := by
      unfold onCheckpoint
      rw [hs, hi]
      rfl
    rw [hck, if_neg Bool.false_ne_true]
    unfold restoreEpochState checkpointFull
    dsimp only
    split
    · next hsub =>
      have hne : id ≠ id - 2 := by
        unfold subsumed at hsub
        rw [Bool.and_eq_true, decide_eq_true_eq] at hsub
        omega
      unfold gcEpochState stageEpochState
      rw [get_delete_of_ne _ _ _ (by simp [hne]), get_put_self]
      rfl
    · unfold stageEpochState
      rw [get_put_self]
      rfl

section

variable [DecidableEq K] [AddCommMonoid M] {agg : Aggregate V M R}

theorem onData_get (x : Exec K agg) (cfg : Config) (op : Op K M R) (batch : List (Group K × V))
    (h : SpillsOk cfg op.acc) (k : Key) (hk : ∀ i, k ≠ .spill i) :
    (onData x cfg op batch).ck.get k = op.ck.get k := by
  unfold onData
  dsimp only
  split
  · rfl
  · exact (spillPending_ok x cfg _ _ _ _ (accumulate_ok x cfg op _ h)).frame k fun i _ => hk i

/-! ## Rows of the two operators -/

theorem firedRows_of_none (base : List (Group K × M)) (floor : Int64) (g : Group K)
    (hge : windowEndMicros cfg.unit g = none) (rounds : List (Round K V)) :
    firedRows agg cfg base floor g rounds = [] := by
  induction rounds with
  | nil => rfl
  | cons r past ih =>
    rw [firedRows, ih, List.nil_append, if_neg]
    rintro ⟨e, he, -⟩
    rw [hge] at he
    cases he

/-- The first operator emits a group if its window was closed over a row, or it is flushed. -/
theorem length_handover (hm : cfg.outputMode = .append) (hL : cfg.allowedLateness = 0)
    (flushed : Bool) (s : Intake K V) (hok : s.Ok cfg) (g : Group K) (e : Int64)
    (hge : windowEndMicros cfg.unit g = some e) :
    (firedRows agg cfg [] Int64.minValue g
      (if flushed = true then s.close Int64.maxValue else s).rounds).length =
      if Int64.minValue < e ∧
        if (s.rounds.any fun p => e ≤ p.emitWm) = true then g ∈ keys (dueRows e s.rounds)
        else flushed = true ∧ g ∈ s.groups
      then 1 else 0 := by
  have hc : Chain cfg (if flushed = true then s.close Int64.maxValue else s).rounds := by
    split
    · exact hok.chain_close _ fun v _ => Int64.le_maxValue v
    · exact hok.chain
  rw [firedRows_eq agg cfg hm hL [] Int64.minValue g e hge _ hc]
  have hkey : ((if flushed = true then s.close Int64.maxValue else s).rounds.any
        fun p => e ≤ p.emitWm) = true ∧
      (g ∈ keys ([] : List (Group K × M)) ∨
        g ∈ keys (dueRows e (if flushed = true then s.close Int64.maxValue else s).rounds)) ↔
      if (s.rounds.any fun p => e ≤ p.emitWm) = true then g ∈ keys (dueRows e s.rounds)
        else flushed = true ∧ g ∈ s.groups := by
    have hnil : g ∉ keys ([] : List (Group K × M)) := List.not_mem_nil
    cases hcl : s.rounds.any fun p => decide (e ≤ p.emitWm) with
    | true =>
      cases flushed with
      | true => simp [Intake.close, dueRows, hcl, hnil, Int64.le_maxValue]
      | false => simp [hcl, hnil]
    | false =>
      cases flushed with
      | true =>
        have hg : g ∈ keys (dueRows e s.rounds ++ s.rows) ↔ g ∈ s.groups := by
          rw [keys_append, List.mem_append, mem_keys_dueRows e s.rounds hcl]
          exact List.mem_append.symm
        simp [Intake.close, dueRows, hcl, hnil, Int64.le_maxValue, ← hg]
      | false => simp [hcl]
  rw [if_congr (and_congr_right fun _ => hkey) rfl rfl]
  exact apply_ite List.length _ _ _

/-- The second operator emits a group that is past the first one's watermark and has a row by then.
-/
theorem length_resumed (hm : cfg.outputMode = .append) (hL : cfg.allowedLateness = 0)
    (s : Intake K V) (hok : s.Ok cfg) (base : List (Group K × M))
    (hbase : Agree base (held agg cfg [] s.rounds ++ agg.liftRows s.rows)) (g : Group K)
    (e : Int64) (hge : windowEndMicros cfg.unit g = some e) (rounds : List (Round K V))
    (hc : Chain cfg.completing rounds) (hcl : (rounds.any fun p => e ≤ p.emitWm) = true) :
    (firedRows agg cfg.completing base (s.wm.getD Int64.minValue) g rounds).length =
      if Int64.minValue < e ∧ (s.wm.any fun v => e ≤ v) = false ∧
        (g ∈ s.groups ∨ g ∈ keys (dueRows e rounds)) then 1 else 0 := by
  have hfl : s.wm.getD Int64.minValue < e ↔
      Int64.minValue < e ∧ (s.wm.any fun v => e ≤ v) = false := by
    cases hw : s.wm with
    | none => simp
    | some v =>
      have := Int64.toInt_bounds v
      simp only [Option.getD_some, Option.any_some, decide_eq_false_iff_not]
      rw [Int64.lt_iff_toInt_lt, Int64.lt_iff_toInt_lt, Int64.le_iff_toInt_le,
        Int64.toInt_minValue_eq]
      omega
  have hkey : s.wm.getD Int64.minValue < e ∧ (rounds.any fun p => e ≤ p.emitWm) = true ∧
      (g ∈ keys base ∨ g ∈ keys (dueRows e rounds)) ↔
      Int64.minValue < e ∧ (s.wm.any fun v => e ≤ v) = false ∧
        (g ∈ s.groups ∨ g ∈ keys (dueRows e rounds)) := by
    rw [hfl, and_assoc]
    refine and_congr_right fun _ => and_congr_right fun hn => ?_
    -- a window above the watermark was closed by no earlier finalize
    have hopen : (s.rounds.any fun p => e ≤ p.emitWm) = false := by
      rw [← Bool.not_eq_true, any_closed_iff cfg s.rounds hok.chain]
      rintro ⟨p, hp, hpe⟩
      obtain ⟨-, ⟨v, hv, hle⟩, -⟩ := hok.since p hp
      rw [hv, Option.any_some, decide_eq_false_iff_not] at hn
      exact hn (Int64.le_trans hpe hle)
    have hg : g ∈ keys base ↔ g ∈ s.groups := by
      rw [(hbase g).1, keys_append, List.mem_append, keys_liftRows,
        (held_of_open agg cfg hm [] g e hge s.rounds hopen).1, mem_keys_dueRows e s.rounds hopen]
      show _ ↔ g ∈ seen [] s.rounds ++ keys s.rows
      rw [List.mem_append]
      exact or_congr_left (or_iff_right List.not_mem_nil)
    rw [hg]
    exact and_iff_right hcl
  rw [firedRows_eq agg cfg.completing hm hL base _ g e hge rounds hc, if_congr hkey rfl rfl]
  exact apply_ite List.length _ _ _

/-! ## The store across events -/

variable [DecidableEq R]

theorem finalize_get (x : Exec K agg) (cfg : Config) (w : Int64) (after : FlowMarker)
    (op : Op K M R) (h : SpillsOk cfg op.acc) (k : Key) (hk : ∀ i, k ≠ .spill i) :
    (finalize x cfg w after op).ck.get k = op.ck.get k :=
  rebuild_frame x cfg _ op.ck _ (mergeDone_spillsOk cfg w _ op.acc h) k (fun i _ => hk i)
    fun _ i _ => hk i

theorem onEndOfData_get (x : Exec K agg) (cfg : Config) (hs : cfg.hasStore = true) (op : Op K M R)
    (h : SpillsOk cfg op.acc) (k : Key) (hk : ∀ i, k ≠ .spill i) :
    (onEndOfData x cfg op).ck.get k =
      (stageState op.ck (gatherPartials cfg op.ck op.acc) (snapshotInfo op.acc)).get k := by
  unfold onEndOfData
  rw [hs, if_pos rfl]
  split
  · refine (finalize_get x cfg _ _ _ ?_ k hk).trans rfl
    exact h
  · rfl

theorem step_get_realtime (op : Op K M R) (i : FlowEvent (Group K × V) × Exec K agg)
    (h : SpillsOk cfg op.acc) :
    (step cfg op i).ck.get .realtimeCommitted = op.ck.get .realtimeCommitted := by
  obtain ⟨ev, x⟩ := i
  cases ev with
  | data batch flags => exact onData_get x cfg op batch h .realtimeCommitted (by simp)
  | marker m =>
    cases m with
    | watermark source ts =>
      show (onWatermark x cfg op source ts).ck.get .realtimeCommitted = _
      unfold onWatermark
      dsimp only
      split
      · refine (finalize_get x cfg _ _ _ ?_ .realtimeCommitted (by simp)).trans rfl
        exact ⟨h.below, h.noStore⟩
      · rfl
    | endOfData =>
      show (onEndOfData x cfg op).ck.get .realtimeCommitted = _
      cases hs : cfg.hasStore with
      | true =>
        rw [onEndOfData_get x cfg hs op h .realtimeCommitted (by simp)]
        exact get_put_of_ne _ _ _ _ (by simp)
      | false =>
        unfold onEndOfData
        rw [hs, if_neg Bool.false_ne_true, finalize_get x cfg _ _ _ h .realtimeCommitted (by simp)]
    | checkpoint id => exact onCheckpoint_get_realtime cfg op id
    | latencyTracker source id ts => rfl
    | idle source => rfl

theorem run_get_realtime (op : Op K M R) (is : List (FlowEvent (Group K × V) × Exec K agg))
    (h : SpillsOk cfg op.acc) :
    (run (step cfg) op is).ck.get .realtimeCommitted = op.ck.get .realtimeCommitted := by
  induction is generalizing op with
  | nil => rfl
  | cons i is ih => rw [run_cons, ih _ (step_spillsOk cfg op i h), step_get_realtime cfg op i h]

theorem restored_snapshot (cfg cfg' : Config) (hs : cfg.hasStore = true)
    (hi : cfg'.incCkpt = cfg.incCkpt) (op : Op K M R) (h : SpillsOk cfg op.acc)
    (hrt : op.ck.get .realtimeCommitted = none) (k : Snapshot) (x : Exec K agg) :
    restored cfg' (k.commit (step cfg op (.marker k.marker, x)).ck) =
      (gatherPartials cfg op.ck op.acc, snapshotInfo op.acc) := by
  cases k with
  | endOfData =>
    show restored cfg' (promote (onEndOfData x cfg op).ck .staged .committed) = _
    have hst : (onEndOfData x cfg op).ck.get .staged =
        some (.state (gatherPartials cfg op.ck op.acc) (snapshotInfo op.acc)) := by
      rw [onEndOfData_get x cfg hs op h .staged (by simp)]
      exact get_put_self _ _ _
    have hr : (onEndOfData x cfg op).ck.get .realtimeCommitted = none := by
      rw [← hrt]
      exact step_get_realtime cfg op (.marker .endOfData, x) h
    unfold restored committedEpoch promote
    rw [hst]
    rw [get_delete_of_ne _ _ _ (by simp), get_put_of_ne _ _ _ _ (by simp), hr]
    dsimp only
    unfold restoreState
    rfl
  | checkpoint epoch =>
    show restored cfg' ((onCheckpoint cfg op epoch).ck.put .realtimeCommitted (.committed epoch)) = _
    rw [← restore_onCheckpoint cfg hs op epoch]
    unfold restored committedEpoch
    rw [get_put_self, hi]
    dsimp only
    cases cfg.incCkpt with
    | true =>
      exact restoreEpochIncremental_congr _ _ _ (get_put_of_ne _ _ _ _ (by simp))
        (get_put_of_ne _ _ _ _ (by simp))
        fun _ _ _ _ _ => get_put_of_ne _ _ _ _ (by simp)
    | false =>
      rw [if_neg Bool.false_ne_true, if_neg Bool.false_ne_true]
      unfold restoreEpochState
      rw [get_put_of_ne _ _ _ _ (by simp)]

/-! ## Two operators -/

/-- The first operator after its events and the snapshot. -/
def handover (cfg : Config) (ck : Store (List (Group K × M)))
    (is : List (FlowEvent (Group K × V) × Exec K agg)) (k : Snapshot) (x : Exec K agg) : Op K M R :=
  run (step cfg) (start cfg ck) (is ++ [(.marker k.marker, x)])

/-- The second operator, started on the committed snapshot, after its events and the
flush. -/
def resumed (cfg : Config) (first : Op K M R) (k : Snapshot)
    (is : List (FlowEvent (Group K × V) × Exec K agg)) (x : Exec K agg) : Op K M R :=
  run (step cfg.completing) (start cfg.completing (k.commit first.ck))
    (is ++ [(.marker .endOfData, x)])

theorem fresh_run_follows (ck : Store (List (Group K × M))) (hck : Uncommitted ck)
    (is : List (FlowEvent (Group K × V) × Exec K agg)) :
    Follows agg cfg [] (run (step cfg) (start cfg ck) is) (intake cfg none (is.map (·.1))) := by
  have h := run_follows cfg _ _ _ is (start_follows (R := R) cfg ck)
  rw [restore_of_uncommitted cfg ck hck] at h
  exact h

theorem fresh_run_appendInv (hm : cfg.outputMode = .append) (ck : Store (List (Group K × M)))
    (hck : Uncommitted ck) (is : List (FlowEvent (Group K × V) × Exec K agg))
    (hev : ∀ i ∈ is, i.1 ≠ .marker .endOfData) :
    AppendInv agg cfg [] Int64.minValue (run (step cfg) (start cfg ck) is).acc.restoreWmFloor
      (run (step cfg) (start cfg ck) is).acc.emittedEnds (run (step cfg) (start cfg ck) is).out
      (intake cfg none (is.map (·.1))) := by
  have hr := restore_of_uncommitted (R := R) cfg ck hck
  have hends := emittedEnds_le_of_restore_eq hr
  have h := start_run_appendInv hm hends is hev
  rw [hr] at h
  exact h

theorem restore_handover (hs : cfg.hasStore = true) (ck : Store (List (Group K × M)))
    (hck : Uncommitted ck) (is : List (FlowEvent (Group K × V) × Exec K agg)) (k : Snapshot)
    (x : Exec K agg) :
    restore (R := R) cfg.completing (k.commit (handover cfg ck is k x).ck) =
      { pendingRows := gatherPartials cfg (run (step cfg) (start cfg ck) is).ck
          (run (step cfg) (start cfg ck) is).acc
        watermarkMicros := (intake cfg none (is.map (·.1))).wm
        emittedEnds := (run (step cfg) (start cfg ck) is).acc.emittedEnds
        restoreWmFloor := (intake cfg none (is.map (·.1))).wm.getD Int64.minValue } := by
  have hf := fresh_run_follows cfg ck hck is
  have hrt : (run (step cfg) (start cfg ck) is).ck.get .realtimeCommitted = none := by
    rw [run_get_realtime cfg _ is (start_spillsOk cfg ck)]
    exact hck.realtime
  have hres := restored_snapshot cfg cfg.completing hs rfl _ hf.spills hrt k x
  have hwm := (intake_aboveMin cfg (is.map (·.1))).1
  unfold restore handover
  rw [run_append]
  show (if cfg.hasStore = true then _ else _) = _
  rw [hs, if_pos rfl]
  rw [show run (step cfg) (run (step cfg) (start cfg ck) is) [(.marker k.marker, x)] =
    step cfg (run (step cfg) (start cfg ck) is) (.marker k.marker, x) from rfl, hres]
  unfold snapshotInfo
  dsimp only
  rw [hf.wm]
  cases hw : (intake cfg none (is.map (·.1))).wm with
  | none => rfl
  | some v =>
    have hv := hwm v hw
    have hne : v ≠ Int64.minValue := by
      rintro rfl
      exact absurd hv (by decide)
    rw [Option.getD_some, if_pos hne]

/-- What the first operator emits: on its own, or with a last round that flushes. -/
theorem rowsFor_handover (hm : cfg.outputMode = .append) (hs : cfg.hasStore = true)
    (ck : Store (List (Group K × M))) (hck : Uncommitted ck)
    (is : List (FlowEvent (Group K × V) × Exec K agg)) (hev : ∀ i ∈ is, i.1 ≠ .marker .endOfData)
    (k : Snapshot) (x : Exec K agg) (g : Group K) :
    rowsFor g (handover cfg ck is k x).out =
      firedRows agg cfg [] Int64.minValue g
        (if k.flushed cfg = true then (intake cfg none (is.map (·.1))).close Int64.maxValue
          else intake cfg none (is.map (·.1))).rounds := by
  have hinv := fresh_run_appendInv cfg hm ck hck is hev
  have hout : ∀ m : FlowMarker, ∀ out : List (FlowEvent (Group K × R)),
      rowsFor g (out ++ [.marker m]) = rowsFor g out := by
    intro m out
    unfold rowsFor
    rw [rowsOut_append]
    exact congrArg _ (List.append_nil _)
  unfold handover
  rw [run_append]
  show rowsFor g (step cfg (run (step cfg) (start cfg ck) is) (.marker k.marker, x)).out = _
  cases k with
  | endOfData =>
    cases hco : cfg.completeOnEnd with
    | true =>
      have hfl : flushes cfg = true := by unfold flushes; rw [hco, Bool.or_true]
      have hok := intake_ok cfg none (is.map (·.1)) (map_ne_endOfData hev)
      have h := flush_appendInv hm hfl _ _ x (fresh_run_follows cfg ck hck is) hok hinv
      rw [if_pos (show Snapshot.flushed cfg .endOfData = true from hco)]
      exact h.rows g
    | false =>
      rw [if_neg (show ¬ Snapshot.flushed cfg .endOfData = true by
        show ¬ cfg.completeOnEnd = true; rw [hco]; exact Bool.false_ne_true), ← hinv.rows g]
      show rowsFor g (onEndOfData x cfg _).out = _
      unfold onEndOfData
      rw [hs, hco, if_pos rfl]
      exact hout _ _
  | checkpoint epoch =>
    rw [if_neg (show ¬ Snapshot.flushed cfg (.checkpoint epoch) = true from Bool.false_ne_true),
      ← hinv.rows g]
    show rowsFor g ((if cfg.hasStore = true then
      if cfg.incCkpt = true then checkpointIncremental _ _ else checkpointFull cfg _ _
      else _ : Op K M R).out ++ [_]) = _
    rw [hs, if_pos rfl, hout]
    split
    · rfl
    · rfl

/-- **Handing over**: the two operators emit every group exactly once, if and only if each is
carried once. -/
theorem handover_once_iff (cfg : Config) (hm : cfg.outputMode = .append)
    (hL : cfg.allowedLateness = 0) (hs : cfg.hasStore = true) (ck : Store (List (Group K × M)))
    (hck : Uncommitted ck) (is1 is2 : List (FlowEvent (Group K × V) × Exec K agg))
    (hev1 : ∀ i ∈ is1, i.1 ≠ .marker .endOfData) (hev2 : ∀ i ∈ is2, i.1 ≠ .marker .endOfData)
    (k : Snapshot) (x1 x2 : Exec K agg) :
    (∀ g ∈ (intake cfg none (is1.map (·.1))).groups ++
        seen [] (intake cfg.completing (intake cfg none (is1.map (·.1))).wm
          (is2.map (·.1) ++ [.marker .endOfData])).rounds,
      (rowsFor g (handover cfg ck is1 k x1).out ++
        rowsFor g (resumed cfg (handover cfg ck is1 k x1) k is2 x2).out).length = 1) ↔
    ∀ g ∈ (intake cfg none (is1.map (·.1))).groups ++
        seen [] (intake cfg.completing (intake cfg none (is1.map (·.1))).wm
          (is2.map (·.1) ++ [.marker .endOfData])).rounds,
      CarriedOnce cfg (k.flushed cfg) (intake cfg none (is1.map (·.1)))
        (intake cfg.completing (intake cfg none (is1.map (·.1))).wm
          (is2.map (·.1) ++ [.marker .endOfData])).rounds g := by
  have hok := intake_ok cfg none (is1.map (·.1)) (map_ne_endOfData hev1)
  have hfl2 : flushes cfg.completing = true := by
    exact Bool.or_true _
  have hc2 := chain_intake_flush cfg.completing hfl2 (intake cfg none (is1.map (·.1))).wm
    (is2.map (·.1)) (map_ne_endOfData hev2)
  have hres := restore_handover cfg hs ck hck is1 k x1
  have hinv := fresh_run_appendInv cfg hm ck hck is1 hev1
  have hends : ∀ e ∈ (restore (R := R) cfg.completing
        (k.commit (handover cfg ck is1 k x1).ck)).emittedEnds,
      e ≤ (restore (R := R) cfg.completing
        (k.commit (handover cfg ck is1 k x1).ck)).restoreWmFloor := by
    rw [hres]
    intro e he
    show e ≤ (intake cfg none (is1.map (·.1))).wm.getD Int64.minValue
    rcases hinv.closed e he with h | ⟨p, hp, hpe⟩
    · exact Int64.le_trans h (Int64.minValue_le _)
    · obtain ⟨-, ⟨v, hv, hle⟩, -⟩ := hok.since p hp
      rw [hv, Option.getD_some]
      exact Int64.le_trans hpe hle
  refine forall₂_congr fun g _ => ?_
  have h1 := rowsFor_handover cfg hm hs ck hck is1 hev1 k x1 g
  have h2 := rowsFor_run_flush (show cfg.completing.outputMode = .append from hm) hfl2 hends is2
    hev2 x2 g
  rw [hres] at h2
  rw [List.length_append, h1]
  unfold resumed
  rw [h2]
  cases hge : windowEndMicros cfg.unit g with
  | none =>
    rw [firedRows_of_none cfg _ _ g hge, firedRows_of_none cfg.completing _ _ g hge]
    unfold CarriedOnce
    rw [hge]
    simp
  | some e =>
    have hcl : ((intake cfg.completing (intake cfg none (is1.map (·.1))).wm
        (is2.map (·.1) ++ [.marker .endOfData])).rounds.any fun p => e ≤ p.emitWm) = true := by
      rw [intake_flush cfg.completing hfl2]
      simp [Intake.close, Int64.le_maxValue]
    have hst := (fresh_run_follows cfg ck hck is1).states
    have hl2 := length_resumed cfg hm hL _ hok _ hst g e hge _ hc2 hcl
    have hcw : ((intake cfg none (is1.map (·.1))).rounds.any fun p => e ≤ p.emitWm) = true →
        ((intake cfg none (is1.map (·.1))).wm.any fun v => e ≤ v) = true := by
      rw [any_closed_iff cfg _ hok.chain]
      rintro ⟨p, hp, hpe⟩
      obtain ⟨-, ⟨v, hv, hle⟩, -⟩ := hok.since p hp
      rw [hv, Option.any_some, decide_eq_true_eq]
      exact Int64.le_trans hpe hle
    rw [length_handover cfg hm hL (k.flushed cfg) _ hok g e hge]
    unfold content at hl2
    unfold CarriedOnce
    rw [hge]
    grind

end

/-! ## A throttled window -/

/-- Append mode with a store; the end of data snapshots and does not flush. -/
def snapshotCfg : Config := { spillCfg with completeOnEnd := false, incCkpt := true }

/-- A time in milliseconds. -/
def millis (n : Fin 100000) : DateTime :=
  ⟨n * 1000000, by unfold minUtcSecs; omega, by unfold maxUtcSecs; omega⟩

/-- The window that ends at `n` milliseconds. -/
def windowTo (n : Fin 100000) : Group Unit := ⟨some 0, some (Int64.ofNat (n * 1000)), ()⟩

/-- A finalize, a row of the window that ends at `n` ms, and a watermark too soon for another
finalize. -/
def throttled (n : Fin 100000) : List (FlowEvent (Group Unit × Nat) × Exec Unit sumAgg) :=
  [(.marker (.watermark "s" (millis 10000)), Exec.plain Unit sumAgg),
    (.data [(windowTo n, 1)] [false], Exec.plain Unit sumAgg),
    (.marker (.watermark "s" (millis 10150)), Exec.plain Unit sumAgg)]

/-- A window above the watermark is carried over. -/
theorem handover_once_open :
    snapshotCfg.outputMode = .append ∧ snapshotCfg.allowedLateness = 0 ∧
      snapshotCfg.hasStore = true ∧ Uncommitted (Store.empty : Store (List (Group Unit × Nat))) ∧
      (∀ i ∈ throttled 10200, i.1 ≠ .marker .endOfData) ∧
      ∀ g ∈ (intake snapshotCfg none ((throttled 10200).map (·.1))).groups ++
        seen [] (intake snapshotCfg.completing
          (intake snapshotCfg none ((throttled 10200).map (·.1))).wm
          ((throttled 10300).map (·.1) ++ [.marker .endOfData])).rounds,
        (rowsFor g (handover snapshotCfg Store.empty (throttled 10200) (.checkpoint 1)
            (Exec.plain Unit sumAgg)).out ++
          rowsFor g (resumed snapshotCfg (handover snapshotCfg Store.empty (throttled 10200)
            (.checkpoint 1) (Exec.plain Unit sumAgg)) (.checkpoint 1) (throttled 10300)
            (Exec.plain Unit sumAgg)).out).length = 1 :=
  ⟨rfl, rfl, rfl, uncommitted_empty, by decide, (handover_once_iff snapshotCfg rfl rfl rfl
    Store.empty uncommitted_empty (throttled 10200) (throttled 10300) (by decide) (by decide)
    (.checkpoint 1) (Exec.plain Unit sumAgg) (Exec.plain Unit sumAgg)).mpr (by decide)⟩

/-- A window between the last finalize and the watermark is emitted by neither. -/
theorem handover_throttled_lost :
    ¬ ∀ g ∈ (intake snapshotCfg none ((throttled 10100).map (·.1))).groups ++
        seen [] (intake (V := Nat) snapshotCfg.completing
          (intake snapshotCfg none ((throttled 10100).map (·.1))).wm
          [.marker .endOfData]).rounds,
      (rowsFor g (handover snapshotCfg Store.empty (throttled 10100) .endOfData
          (Exec.plain Unit sumAgg)).out ++
        rowsFor g (resumed snapshotCfg (handover snapshotCfg Store.empty (throttled 10100)
          .endOfData (Exec.plain Unit sumAgg)) .endOfData [] (Exec.plain Unit sumAgg)).out).length
        = 1 := by
  decide

end Zelox.Window
