import Zelox.Lib.Runs
import Zelox.Window.Spill

/-!
# Rounds

What the operator computes depends on its input through little: the rows it
accepts, and where the finalizes fall between them.  `Intake` reads exactly that
off the events: the current watermark, the watermark of the last finalize, the
rows accepted since, and the finished *rounds*, newest first.  Every run of the
operator follows the intake of its events (`run_follows`): its partial states
agree with the accepted rows that earlier finalizes retained, whatever the budget,
the compaction and DataFusion did.
-/

namespace Zelox.Window

open StateIo GroupFold Runs

variable {K V M R : Type}

/-! ## Intake -/

/-- A finalize at `emitWm`: the rows accepted since the previous one, and the
watermark at that point. -/
structure Round (K V : Type) where
  rows : List (Group K × V)
  wm : Option Int64
  emitWm : Int64
deriving DecidableEq

structure Intake (K V : Type) where
  wm : Option Int64 := none
  lastFinal : Option Int64 := none
  rows : List (Group K × V) := []
  rounds : List (Round K V) := []
deriving DecidableEq

/-- On arrival: no watermark yet, no window end, or `end + lateness ≥ watermark`. -/
def accepts (cfg : Config) (wm : Option Int64) (g : Group K) : Bool :=
  wm.all fun w => (windowEndMicros cfg.unit g).all fun e => w ≤ e.saturatingAdd cfg.allowedLateness

/-- `EndOfData` closes every window: there is no store to carry them over, or the
run is to complete. -/
def flushes (cfg : Config) : Bool := !cfg.hasStore || cfg.completeOnEnd

namespace Intake

def close (s : Intake K V) (emitWm : Int64) : Intake K V :=
  { s with rows := [], rounds := ⟨s.rows, s.wm, emitWm⟩ :: s.rounds }

def step (cfg : Config) (s : Intake K V) : FlowEvent (Group K × V) → Intake K V
  | .data batch _ => { s with rows := s.rows ++ batch.filter fun r => accepts cfg s.wm r.1 }
  | .marker (.watermark _ ts) =>
    let w := setWatermark s.wm ts.timestampMicros
    if shouldFinal w s.lastFinal then { s with wm := some w, lastFinal := some w }.close w
    else { s with wm := some w }
  | .marker .endOfData => if flushes cfg then s.close Int64.maxValue else s
  | .marker _ => s

end Intake

/-- The intake of the events `evs`, starting at the watermark `wm`. -/
def intake (cfg : Config) (wm : Option Int64) (evs : List (FlowEvent (Group K × V))) : Intake K V :=
  run (Intake.step cfg) { wm } evs

variable (cfg : Config)

/-- A flushing `EndOfData` is a finalize above every watermark. -/
theorem intake_flush (hfl : flushes cfg = true) (wm : Option Int64)
    (evs : List (FlowEvent (Group K × V))) :
    intake cfg wm (evs ++ [.marker .endOfData]) = (intake cfg wm evs).close Int64.maxValue := by
  unfold intake
  rw [run_append]
  show (if flushes cfg = true then _ else _) = _
  rw [if_pos hfl]

/-! ## Order of rounds -/

/-- What has come since the last of the rounds `past` was finalized by a watermark. -/
def Since (cfg : Config) (rows : List (Group K × V)) (wm : Option Int64)
    (past : List (Round K V)) : Prop :=
  ∀ p ∈ past.head?, p.wm = some p.emitWm ∧ (∃ v, wm = some v ∧ p.emitWm ≤ v) ∧
    ∀ x ∈ rows, ∀ e, windowEndMicros cfg.unit x.1 = some e →
      p.emitWm ≤ e.saturatingAdd cfg.allowedLateness

/-- Rounds come at increasing watermarks, and rows respect those before them. -/
def Chain (cfg : Config) : List (Round K V) → Prop
  | [] => True
  | r :: past => Since cfg r.rows r.wm past ∧ (∀ p ∈ past.head?, p.emitWm ≤ r.emitWm) ∧ Chain cfg past

/-- An intake between finalizes. -/
structure Intake.Ok (cfg : Config) (s : Intake K V) : Prop where
  chain : Chain cfg s.rounds
  since : Since cfg s.rows s.wm s.rounds

variable (wm : Option Int64)

theorem le_setWatermark (t v : Int64) (h : wm = some v) :
    v ≤ setWatermark wm t := by
  subst h
  exact Int64.le_max_left v t

theorem accepts_iff (g : Group K) (w e : Int64) (hw : wm = some w)
    (he : windowEndMicros cfg.unit g = some e) :
    accepts cfg wm g = true ↔ w ≤ e.saturatingAdd cfg.allowedLateness := by
  simp [accepts, hw, he]

theorem dropLateRows_eq (batch : List (Group K × V)) :
    dropLateRows cfg wm batch = batch.filter fun r => accepts cfg wm r.1 := by
  cases wm with
  | none => simp [dropLateRows, accepts]
  | some w => rfl

/-- Closing at the current watermark or above it keeps the rounds in order. -/
theorem Intake.Ok.chain_close {cfg : Config} {s : Intake K V} (h : s.Ok cfg) (w : Int64)
    (hw : ∀ v, s.wm = some v → v ≤ w) : Chain cfg (s.close w).rounds := by
  refine ⟨h.since, fun p hp => ?_, h.chain⟩
  obtain ⟨-, ⟨v, hv, hle⟩, -⟩ := h.since p hp
  exact Int64.le_trans hle (hw v hv)

theorem Intake.Ok.raise {cfg : Config} {s : Intake K V} (h : s.Ok cfg) (t : Int64)
    (lf : Option Int64) :
    Intake.Ok cfg { s with wm := some (setWatermark s.wm t), lastFinal := lf } := by
  refine ⟨h.chain, fun p hp => ?_⟩
  obtain ⟨h1, ⟨v, hv, hle⟩, h3⟩ := h.since p hp
  exact ⟨h1, ⟨_, rfl, Int64.le_trans hle (le_setWatermark s.wm t v hv)⟩, h3⟩

theorem Intake.step_ok (s : Intake K V) (ev : FlowEvent (Group K × V))
    (hev : ev ≠ .marker .endOfData) (h : s.Ok cfg) : (s.step cfg ev).Ok cfg := by
  cases ev with
  | data batch flags =>
    refine ⟨h.chain, fun p hp => ?_⟩
    obtain ⟨h1, ⟨v, hv, hle⟩, h3⟩ := h.since p hp
    refine ⟨h1, ⟨v, hv, hle⟩, fun x hx e he => ?_⟩
    rcases List.mem_append.mp hx with hx | hx
    · exact h3 x hx e he
    · have hacc := (accepts_iff cfg s.wm x.1 v e hv he).mp (List.mem_filter.mp hx).2
      exact Int64.le_trans hle hacc
  | marker m =>
    cases m with
    | watermark source ts =>
      unfold Intake.step
      dsimp only
      split
      · have h1 := h.raise ts.timestampMicros (some (setWatermark s.wm ts.timestampMicros))
        refine ⟨h1.chain_close _ ?_, ?_⟩
        · rintro v ⟨⟩
          exact Int64.le_refl _
        · rintro p ⟨⟩
          exact ⟨rfl, ⟨_, rfl, Int64.le_refl _⟩, nofun⟩
      · exact h.raise ts.timestampMicros s.lastFinal
    | endOfData => exact absurd rfl hev
    | latencyTracker source id ts | checkpoint id | idle source => exact h

theorem map_ne_endOfData {A : Type} {is : List (FlowEvent (Group K × V) × A)}
    (h : ∀ i ∈ is, i.1 ≠ .marker .endOfData) : ∀ ev ∈ is.map (·.1), ev ≠ .marker .endOfData := by
  intro ev hmem
  obtain ⟨i, hi, rfl⟩ := List.mem_map.mp hmem
  exact h i hi

theorem Intake.ok_start : Intake.Ok cfg ({ wm } : Intake K V) :=
  ⟨trivial, fun _ hp => by cases hp⟩

theorem intake_ok (evs : List (FlowEvent (Group K × V)))
    (hev : ∀ ev ∈ evs, ev ≠ .marker .endOfData) : (intake cfg wm evs).Ok cfg :=
  run_inv_mem (Intake.step cfg) (Intake.Ok cfg) evs
    (fun s ev hmem h => Intake.step_ok cfg s ev (hev ev hmem) h) _ (Intake.ok_start cfg wm)

theorem chain_intake_flush (hfl : flushes cfg = true) (wm : Option Int64)
    (evs : List (FlowEvent (Group K × V))) (hev : ∀ ev ∈ evs, ev ≠ .marker .endOfData) :
    Chain cfg (intake cfg wm (evs ++ [.marker .endOfData])).rounds := by
  rw [intake_flush cfg hfl]
  exact (intake_ok cfg wm evs hev).chain_close _ fun v _ => Int64.le_maxValue v

theorem Chain.emitWm_le {cfg : Config} {past : List (Round K V)} (h : Chain cfg past)
    (p : Round K V) (hp : p ∈ past.head?) : ∀ r ∈ past, r.emitWm ≤ p.emitWm := by
  induction past generalizing p with
  | nil => nofun
  | cons r past ih =>
    cases hp
    intro q hq
    rcases List.mem_cons.mp hq with rfl | hq
    · exact Int64.le_refl _
    · cases past with
      | nil => cases hq
      | cons p past =>
        exact Int64.le_trans (ih h.2.2 p rfl q hq) (h.2.1 p rfl)

/-! ## Watermarks are timestamps -/

/-- All watermarks seen, and those of the rounds, have the property `P`. -/
def Intake.Stamped (P : Int64 → Prop) (s : Intake K V) : Prop :=
  (∀ v, s.wm = some v → P v) ∧ ∀ r ∈ s.rounds, P r.emitWm

theorem setWatermark_cases (t : Int64) :
    setWatermark wm t = t ∨ wm = some (setWatermark wm t) := by
  cases wm with
  | none => exact .inl rfl
  | some v =>
    show max v t = t ∨ some v = some (max v t)
    rw [Option.some_inj, ← Int64.toInt_inj, ← Int64.toInt_inj, Int64.toInt_max]
    omega

theorem Intake.step_stamped {P : Int64 → Prop} (hts : ∀ t : DateTime, P t.timestampMicros)
    (cfg : Config) (s : Intake K V) (ev : FlowEvent (Group K × V))
    (hend : ev = .marker .endOfData → P Int64.maxValue) (h : s.Stamped P) :
    (s.step cfg ev).Stamped P := by
  have hclose : ∀ (s : Intake K V) (w : Int64), s.Stamped P → P w → (s.close w).Stamped P := by
    intro s w h hw
    exact ⟨h.1, List.forall_mem_cons.mpr ⟨hw, h.2⟩⟩
  cases ev with
  | data batch flags => exact h
  | marker m =>
    cases m with
    | watermark source ts =>
      have hw : P (setWatermark s.wm ts.timestampMicros) := by
        rcases setWatermark_cases s.wm ts.timestampMicros with hw | hw
        · rw [hw]
          exact hts ts
        · exact h.1 _ hw
      have hv : ∀ v, some (setWatermark s.wm ts.timestampMicros) = some v → P v := by
        rintro v ⟨⟩
        exact hw
      unfold Intake.step
      dsimp only
      split
      · exact hclose _ _ ⟨hv, h.2⟩ hw
      · exact ⟨hv, h.2⟩
    | endOfData =>
      unfold Intake.step
      dsimp only
      split
      · exact hclose _ _ h (hend rfl)
      · exact h
    | latencyTracker source id ts | checkpoint id | idle source => exact h

theorem intake_stamped (P : Int64 → Prop) (hts : ∀ t : DateTime, P t.timestampMicros) (cfg : Config)
    (evs : List (FlowEvent (Group K × V)))
    (hend : ∀ ev ∈ evs, ev = .marker .endOfData → P Int64.maxValue) :
    (intake cfg none evs).Stamped P :=
  run_inv_mem (Intake.step cfg) (Intake.Stamped P) evs
    (fun s ev hmem h => Intake.step_stamped hts cfg s ev (hend ev hmem) h) _ ⟨nofun, nofun⟩

/-! ## Retained rows -/

theorem liftRows_append (agg : Aggregate V M R) (xs ys : List (Group K × V)) :
    agg.liftRows (xs ++ ys) = agg.liftRows xs ++ agg.liftRows ys :=
  List.map_append

theorem keys_liftRows (agg : Aggregate V M R) (xs : List (Group K × V)) : keys (agg.liftRows xs) = keys xs := by
  simp [keys, Aggregate.liftRows, Function.comp_def]

theorem stageState_content (op : Op K M R) :
    content cfg (stageState op.ck (gatherPartials cfg op.ck op.acc) (snapshotInfo op.acc)) op.acc =
      content cfg op.ck op.acc :=
  content_congr cfg op.ck _ op.acc fun _ _ => Store.get_put_of_ne _ _ _ _ (by simp)

theorem restore_of_noStore (hs : cfg.hasStore = false) (ck : Store (List (Group K × M))) :
    (restore cfg ck : AccumState K M R) = {} := by
  unfold restore
  rw [hs, if_neg Bool.false_ne_true]

theorem emittedEnds_le_of_restore_eq {cfg : Config} {ck : Store (List (Group K × M))}
    (h : (restore cfg ck : AccumState K M R) = {}) :
    ∀ e ∈ (restore (R := R) cfg ck).emittedEnds, e ≤ (restore (R := R) cfg ck).restoreWmFloor := by
  rw [h]
  intro e he
  cases he

theorem restore_fresh (ck : Store (List (Group K × M))) :
    (restore (R := R) cfg ck).lastFinalWm = none ∧ (restore (R := R) cfg ck).spilled = [] ∧
      (restore (R := R) cfg ck).gcCandidates = [] := by
  unfold restore
  split
  · split
    · exact ⟨rfl, rfl, rfl⟩
    · exact ⟨rfl, rfl, rfl⟩
  · exact ⟨rfl, rfl, rfl⟩

theorem start_spillsOk (ck : Store (List (Group K × M))) :
    SpillsOk cfg (start (R := R) cfg ck).acc := by
  have hsp := (restore_fresh (R := R) cfg ck).2.1
  refine ⟨?_, fun _ => hsp⟩
  show ∀ i ∈ (restore (R := R) cfg ck).spilled, _
  rw [hsp]
  nofun

section

variable [DecidableEq K] [AddCommMonoid M] (agg : Aggregate V M R)

/-- The partial states that the finalizes of the given rounds leave behind, over
those the operator started with. -/
def held (cfg : Config) (base : List (Group K × M)) : List (Round K V) → List (Group K × M)
  | [] => base
  | r :: past =>
    (held cfg base past ++ agg.liftRows r.rows).filter fun x =>
      openAt cfg.unit (retainWm cfg r.emitWm) x.1

/-- The operator `op` after the events of the intake `s`. -/
structure Follows (cfg : Config) (base : List (Group K × M)) (op : Op K M R) (s : Intake K V) :
    Prop where
  wm : op.acc.watermarkMicros = s.wm
  lastFinal : op.acc.lastFinalWm = s.lastFinal
  spills : SpillsOk cfg op.acc
  states : Agree (content cfg op.ck op.acc) (held agg cfg base s.rounds ++ agg.liftRows s.rows)

variable {agg}

/-- A change of the operator that finalizes read nothing of. -/
theorem Follows.congr {cfg : Config} {base : List (Group K × M)} {op op' : Op K M R}
    {s : Intake K V} (h : Follows agg cfg base op s)
    (hw : op'.acc.watermarkMicros = op.acc.watermarkMicros)
    (hl : op'.acc.lastFinalWm = op.acc.lastFinalWm) (hn : op'.acc.nextSpill = op.acc.nextSpill)
    (hs : op'.acc.spilled = op.acc.spilled)
    (hc : content cfg op'.ck op'.acc = content cfg op.ck op.acc) : Follows agg cfg base op' s := by
  refine ⟨hw.trans h.wm, hl.trans h.lastFinal, ⟨?_, ?_⟩, hc ▸ h.states⟩
  · rw [hs, hn]; exact h.spills.below
  · rw [hs]; exact h.spills.noStore

theorem start_follows (ck : Store (List (Group K × M))) :
    Follows agg cfg (restore (R := R) cfg ck).pendingRows.flatten (start cfg ck)
      { wm := (restore (R := R) cfg ck).watermarkMicros } := by
  obtain ⟨hl, hsp, -⟩ := restore_fresh (R := R) cfg ck
  refine ⟨rfl, hl, start_spillsOk cfg ck, ?_⟩
  · have e : content cfg ck (restore (R := R) cfg ck) = (restore (R := R) cfg ck).pendingRows.flatten := by
      unfold content gatherPartials
      rw [hsp]
      simp
    show Agree (content cfg ck (restore (R := R) cfg ck)) (_ ++ [])
    rw [e, List.append_nil]
    exact Agree.refl _

end

section

variable [DecidableEq K] [DecidableEq R] [AddCommMonoid M] {agg : Aggregate V M R}

theorem finalize_follows (x : Exec K agg) (cfg : Config) (base : List (Group K × M)) (w : Int64)
    (after : FlowMarker) (op : Op K M R) (s : Intake K V) (h : Follows agg cfg base op s) :
    Follows agg cfg base (finalize x cfg w after op) (s.close w) := by
  have hacc : (finalize x cfg w after op).acc.watermarkMicros = op.acc.watermarkMicros ∧
      (finalize x cfg w after op).acc.lastFinalWm = op.acc.lastFinalWm := by
    unfold finalize rebuildRetainedState mergeDone
    cases cfg.outputMode with
    | append | update => exact ⟨rfl, rfl⟩
  refine ⟨hacc.1.trans h.wm, hacc.2.trans h.lastFinal, finalize_spillsOk x cfg w after op h.spills, ?_⟩
  refine (finalize_agree x cfg w after op h.spills).trans ?_
  show Agree _ (held agg cfg base (⟨s.rows, s.wm, w⟩ :: s.rounds) ++ [])
  rw [List.append_nil]
  exact h.states.filter _

section

variable (base : List (Group K × M)) (op : Op K M R) (s : Intake K V)

theorem step_follows (i : FlowEvent (Group K × V) × Exec K agg) (h : Follows agg cfg base op s) :
    Follows agg cfg base (step cfg op i) (s.step cfg i.1) := by
  obtain ⟨ev, x⟩ := i
  cases ev with
  | data batch flags =>
    have hacc : (onData x cfg op batch).acc.watermarkMicros = op.acc.watermarkMicros ∧
        (onData x cfg op batch).acc.lastFinalWm = op.acc.lastFinalWm := by
      unfold onData
      dsimp only
      split
      · exact ⟨rfl, rfl⟩
      · exact ⟨rfl, rfl⟩
    refine ⟨hacc.1.trans h.wm, hacc.2.trans h.lastFinal, onData_spillsOk x cfg op batch h.spills, ?_⟩
    refine (onData_agree x cfg op batch h.spills).trans ?_
    show Agree _ (held agg cfg base s.rounds ++ agg.liftRows (s.rows ++ _))
    rw [liftRows_append, ← List.append_assoc, dropLateRows_eq, h.wm]
    exact h.states.append (Agree.refl _)
  | marker m =>
    cases m with
    | watermark source ts =>
      show Follows agg cfg base (onWatermark x cfg op source ts) _
      unfold onWatermark Intake.step
      dsimp only
      rw [h.wm, h.lastFinal]
      split
      · exact finalize_follows x cfg base _ _ _ _ ⟨rfl, rfl, ⟨h.spills.below, h.spills.noStore⟩, h.states⟩
      · exact ⟨rfl, h.lastFinal, ⟨h.spills.below, h.spills.noStore⟩, h.states⟩
    | endOfData =>
      show Follows agg cfg base (onEndOfData x cfg op) (if flushes cfg then _ else _)
      unfold onEndOfData flushes
      cases cfg.hasStore with
      | true =>
        have hstaged : Follows agg cfg base
            { op with ck := stageState op.ck (gatherPartials cfg op.ck op.acc) (snapshotInfo op.acc) }
            s := h.congr rfl rfl rfl rfl (stageState_content cfg op)
        cases cfg.completeOnEnd with
        | true => exact finalize_follows x cfg base _ _ _ _ hstaged
        | false => exact hstaged.congr rfl rfl rfl rfl rfl
      | false => exact finalize_follows x cfg base _ _ _ _ h
    | checkpoint id =>
      obtain ⟨ec, gc, e⟩ := onCheckpoint_acc cfg op id
      exact h.congr (by show (onCheckpoint cfg op id).acc.watermarkMicros = _; rw [e])
        (by show (onCheckpoint cfg op id).acc.lastFinalWm = _; rw [e])
        (by show (onCheckpoint cfg op id).acc.nextSpill = _; rw [e])
        (by show (onCheckpoint cfg op id).acc.spilled = _; rw [e])
        (onCheckpoint_content cfg op id)
    | latencyTracker source id ts | idle source => exact h.congr rfl rfl rfl rfl rfl

theorem run_follows
    (is : List (FlowEvent (Group K × V) × Exec K agg)) (h : Follows agg cfg base op s) :
    Follows agg cfg base (run (step cfg) op is) (run (Intake.step cfg) s (is.map (·.1))) := by
  induction is generalizing op s with
  | nil => exact h
  | cons i is ih => exact ih (step cfg op i) (s.step cfg i.1) (step_follows cfg base op s i h)

end

end

end Zelox.Window
