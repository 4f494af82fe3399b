import Zelox.Join.Exact

/-!
# End-of-data of the join

`EndOfData` says that no more data events follow.  The merging operators forward one when
all of their inputs have ended.  The join snapshots the state and forwards the marker from
whichever input it came (`countP_endOfData`).  When both inputs end with one, two are
forwarded, and what the second input still sends behind the first marker is joined and
emitted.  The output ends once exactly if a single marker arrives on the two inputs
together, and no row behind it finds a match (`endsOnce_iff`).
-/

namespace Zelox.Join

open PairJoin List

variable {C V R : Type} {l r : Nat}

/-! ## Events -/

def isEndOfData : FlowEvent R → Bool
  | .marker .endOfData => true
  | _ => false

def isData : FlowEvent R → Bool
  | .data _ _ => true
  | .marker _ => false

def endsInput : Input C l r → Bool
  | .left e => isEndOfData e
  | .right e => isEndOfData e

/-- No `EndOfData` among the events. -/
def Running (events : List (FlowEvent R)) : Prop := ∀ e ∈ events, isEndOfData e = false

/-- Neither an `EndOfData` nor data. -/
def Quiet (events : List (FlowEvent R)) : Prop :=
  ∀ e ∈ events, isEndOfData e = false ∧ isData e = false

/-- Exactly one `EndOfData`, and no data behind it. -/
def EndsOnce (events : List (FlowEvent R)) : Prop :=
  ∃ before after, events = before ++ .marker .endOfData :: after ∧ Running before ∧ Quiet after

theorem running_nil : Running ([] : List (FlowEvent R)) := forall_mem_nil _

theorem quiet_nil : Quiet ([] : List (FlowEvent R)) := forall_mem_nil _

theorem running_append (xs ys : List (FlowEvent R)) :
    Running (xs ++ ys) ↔ Running xs ∧ Running ys := forall_mem_append

theorem quiet_append (xs ys : List (FlowEvent R)) : Quiet (xs ++ ys) ↔ Quiet xs ∧ Quiet ys :=
  forall_mem_append

variable {xs : List (FlowEvent R)}

theorem Quiet.running (h : Quiet xs) : Running xs := fun e he => (h e he).1

theorem Running.countP_eq_zero (h : Running xs) :
    xs.countP isEndOfData = 0 := by
  rw [List.countP_eq_zero]
  intro e he
  rw [h e he]
  exact Bool.false_ne_true

theorem EndsOnce.not_running (h : EndsOnce xs) : ¬ Running xs := by
  obtain ⟨before, after, rfl, -, -⟩ := h
  intro hrun
  have hend := hrun (.marker .endOfData) (mem_append_right _ mem_cons_self)
  cases hend

theorem EndsOnce.countP_eq_one (h : EndsOnce xs) :
    xs.countP isEndOfData = 1 := by
  obtain ⟨before, after, rfl, hbefore, hafter⟩ := h
  rw [countP_append, countP_cons, hbefore.countP_eq_zero, hafter.running.countP_eq_zero]
  rfl

theorem endsOnce_singleton : EndsOnce ([.marker .endOfData] : List (FlowEvent R)) :=
  ⟨[], [], rfl, running_nil, quiet_nil⟩

theorem endsOnce_append (xs ys : List (FlowEvent R)) :
    EndsOnce (xs ++ ys) ↔ Running xs ∧ EndsOnce ys ∨ EndsOnce xs ∧ Quiet ys := by
  constructor
  · rintro ⟨before, after, heq, hbefore, hafter⟩
    rcases append_eq_append_iff.mp heq with ⟨mid, hb, hy⟩ | ⟨mid, hx, ha⟩
    · rw [hb, running_append] at hbefore
      exact .inl ⟨hbefore.1, mid, after, hy, hbefore.2, hafter⟩
    · cases mid with
      | nil =>
        rw [append_nil] at hx
        rw [nil_append] at ha
        rw [hx]
        exact .inl ⟨hbefore, [], after, ha.symm, running_nil, hafter⟩
      | cons e mid =>
        rw [cons_append, List.cons.injEq] at ha
        obtain ⟨rfl, rfl⟩ := ha
        rw [quiet_append] at hafter
        exact .inr ⟨⟨before, mid, hx, hbefore, hafter.1⟩, hafter.2⟩
  · rintro (⟨hxs, before, after, rfl, hbefore, hafter⟩ | ⟨⟨before, after, rfl, hbefore, hafter⟩, hys⟩)
    · exact ⟨xs ++ before, after, by rw [append_assoc], (running_append _ _).mpr ⟨hxs, hbefore⟩,
        hafter⟩
    · exact ⟨before, after ++ ys, by rw [append_assoc, cons_append], hbefore,
        (quiet_append _ _).mpr ⟨hafter, hys⟩⟩

/-! ## What arrives -/

section Arrivals

variable [DecidableEq V]

/-- No row of the event matches a row that the other side holds. -/
def Unmatched (cfg : Config C V l r) (op : Op C l r) : Input C l r → Prop
  | .left (.data batch _) => ∀ a ∈ batch, ∀ b ∈ content cfg op.right,
      ¬ (keysMatch cfg.on a b = true ∧ passes cfg (Fin.append a b) = true)
  | .right (.data batch _) => ∀ b ∈ batch, ∀ a ∈ content cfg op.left,
      ¬ (keysMatch cfg.on a b = true ∧ passes cfg (Fin.append a b) = true)
  | _ => True

/-- No input ends, and no row finds a match. -/
def Silent (cfg : Config C V l r) (op : Op C l r) (events : List (Input C l r × Exec C V)) : Prop :=
  (∀ i ∈ events, endsInput i.1 = false) ∧
    Runs.Along (step cfg) (fun op i => Unmatched cfg op i.1) op events

/-- A single `EndOfData` arrives on the two inputs together, and no row behind it finds a match. -/
def OneEnd (cfg : Config C V l r) (op : Op C l r) (events : List (Input C l r × Exec C V)) : Prop :=
  ∃ before i after, events = before ++ i :: after ∧ (∀ j ∈ before, endsInput j.1 = false) ∧
    endsInput i.1 = true ∧ Silent cfg (Runs.run (step cfg) op (before ++ [i])) after

variable {cfg : Config C V l r} {op : Op C l r}

theorem silent_nil : Silent cfg op [] := ⟨forall_mem_nil _, trivial⟩

theorem silent_cons (i : Input C l r × Exec C V) (events : List (Input C l r × Exec C V)) :
    Silent cfg op (i :: events) ↔
      (endsInput i.1 = false ∧ Unmatched cfg op i.1) ∧ Silent cfg (step cfg op i) events := by
  unfold Silent
  rw [forall_mem_cons, Runs.Along]
  tauto

theorem not_oneEnd_nil : ¬ OneEnd cfg op [] := by
  rintro ⟨before, i, after, heq, -⟩
  cases before <;> cases heq

theorem oneEnd_cons (i : Input C l r × Exec C V) (events : List (Input C l r × Exec C V)) :
    OneEnd cfg op (i :: events) ↔
      endsInput i.1 = false ∧ OneEnd cfg (step cfg op i) events ∨
        endsInput i.1 = true ∧ Silent cfg (step cfg op i) events := by
  constructor
  · rintro ⟨before, j, after, heq, hbefore, hj, hafter⟩
    cases before with
    | nil =>
      cases heq
      exact .inr ⟨hj, hafter⟩
    | cons i' before =>
      rw [cons_append, List.cons.injEq] at heq
      obtain ⟨rfl, rfl⟩ := heq
      rw [forall_mem_cons] at hbefore
      exact .inl ⟨hbefore.1, before, j, after, rfl, hbefore.2, hj, hafter⟩
  · rintro (⟨hi, before, j, after, rfl, hbefore, hj, hafter⟩ | ⟨hi, hafter⟩)
    · exact ⟨i :: before, j, after, rfl, forall_mem_cons.mpr ⟨hi, hbefore⟩, hj, hafter⟩
    · exact ⟨[], i, events, rfl, forall_mem_nil _, hi, hafter⟩

/-! ## One event -/

omit [DecidableEq V] in
/-- Without a row there is no data event, and the other way round. -/
theorem quiet_emit_iff (out : List (Batch C (l + r))) :
    Quiet (emit cfg out) ↔ dataRows (emit cfg out) = [] := by
  unfold emit
  constructor
  · intro h
    suffices hnone : ((out.map (applyFilter cfg)).filter fun b => !b.isEmpty) = [] by
      rw [hnone]
      rfl
    refine eq_nil_iff_forall_not_mem.mpr fun b hb => ?_
    have hdata := (h (dataEvent b) (mem_map_of_mem hb)).2
    cases hdata
  · intro h e he
    obtain ⟨b, hb, rfl⟩ := mem_map.mp he
    -- a data event that is emitted has rows
    have hne := (mem_filter.mp hb).2
    have hrows := flatMap_eq_nil_iff.mp h _ (mem_map_of_mem hb)
    replace hrows : b = [] := hrows
    rw [hrows] at hne
    cases hne

omit [DecidableEq V] in
theorem running_emit (out : List (Batch C (l + r))) : Running (emit cfg out) := by
  intro e he
  obtain ⟨b, -, rfl⟩ := mem_map.mp he
  rfl

theorem matching_eq_zero_iff (a : Row C l) (b : Row C r) :
    (matching cfg a b : Multiset (Row C (l + r))) = 0 ↔
      ¬ (keysMatch cfg.on a b = true ∧ passes cfg (Fin.append a b) = true) := by
  unfold matching
  rw [← Bool.and_eq_true]
  split
  case isTrue h => simp [h]
  case isFalse h => simp [h]

theorem pairs_matching_eq_zero_iff (as : Multiset (Row C l)) (bs : Multiset (Row C r)) :
    pairs (fun a b => (matching cfg a b : Multiset (Row C (l + r)))) as bs = 0 ↔
      ∀ a ∈ as, ∀ b ∈ bs, ¬ (keysMatch cfg.on a b = true ∧ passes cfg (Fin.append a b) = true) := by
  rw [pairs_eq_zero_iff]
  simp only [matching_eq_zero_iff]

/-- What an event adds to the output. -/
structure Added (cfg : Config C V l r) (op : Op C l r) (i : Input C l r)
    (new : List (FlowEvent (Row C (l + r)))) : Prop where
  ends : endsInput i = true → new = [.marker .endOfData]
  running : endsInput i = false → Running new
  quiet : endsInput i = false → (Quiet new ↔ Unmatched cfg op i)

omit [DecidableEq V] in
/-- Markers other than `EndOfData`, from an event that is no data. -/
theorem quiet_markers (ms : List FlowMarker) (h : .endOfData ∉ ms) :
    Quiet (ms.map .marker : List (FlowEvent (Row C (l + r)))) := by
  intro e he
  obtain ⟨m, hm, rfl⟩ := mem_map.mp he
  refine ⟨?_, rfl⟩
  cases m with
  | endOfData => exact absurd hm h
  | _ => rfl

theorem added_of_quiet {i : Input C l r} {new : List (FlowEvent (Row C (l + r)))}
    (hi : endsInput i = false) (hnew : Quiet new) (hun : Unmatched cfg op i) :
    Added cfg op i new where
  ends h := absurd (hi.symm.trans h) Bool.false_ne_true
  running _ := hnew.running
  quiet _ := iff_of_true hnew hun

theorem forwardWatermark_out (op : Op C l r) :
    ∃ ms : List FlowMarker, (forwardWatermark op).out = op.out ++ ms.map .marker ∧ FlowMarker.endOfData ∉ ms := by
  unfold forwardWatermark
  split
  case h_1 lw rw _ _ =>
    split
    · refine ⟨(DateTime.fromTimestampMicros (min lw rw)).toList.map
        fun t => .watermark "stream-join" t, ?_, by simp⟩
      rw [map_map]
      rfl
    · exact ⟨[], (append_nil _).symm, nofun⟩
  case h_2 => exact ⟨[], (append_nil _).symm, nofun⟩

theorem onWatermark_out (x : Exec C V) (op : Op C l r) :
    (onWatermark x cfg op).out = (forwardWatermark op).out := by
  unfold onWatermark
  simp only
  split
  case h_1 lower upper _ =>
    have hleft : ∀ op : Op C l r, (evictLeft x cfg upper op).out = op.out := by
      intro op
      unfold evictLeft
      split <;> rfl
    have hright : ∀ op : Op C l r, (evictRight x cfg lower op).out = op.out := by
      intro op
      unfold evictRight
      split <;> rfl
    rw [hright, hleft]
  case h_2 => rfl

omit [DecidableEq V] in
theorem onEndOfData_out (op : Op C l r) :
    (onEndOfData cfg op).out = op.out ++ [.marker .endOfData] := by
  unfold onEndOfData
  cases cfg.hasStore <;> rfl

theorem onLeftData_out (x : Exec C V) (batch : Batch C l) (retracted : List Bool) :
    ∃ new, (onLeftData x cfg op batch).out = op.out ++ new ∧
      Added cfg op (.left (.data batch retracted)) new := by
  unfold onLeftData
  split
  case isTrue hempty =>
    refine ⟨[], (append_nil _).symm, added_of_quiet rfl quiet_nil ?_⟩
    rw [List.isEmpty_iff.mp hempty]
    exact forall_mem_nil _
  case isFalse =>
    refine ⟨_, rfl, nofun, fun _ => running_emit _, fun _ => ?_⟩
    rw [quiet_emit_iff, ← Multiset.coe_eq_zero, coe_emit_left, pairs_matching_eq_zero_iff]
    rfl

theorem onRightData_out (x : Exec C V) (batch : Batch C r) (retracted : List Bool) :
    ∃ new, (onRightData x cfg op batch).out = op.out ++ new ∧
      Added cfg op (.right (.data batch retracted)) new := by
  unfold onRightData
  split
  case isTrue hempty =>
    refine ⟨[], (append_nil _).symm, added_of_quiet rfl quiet_nil ?_⟩
    rw [List.isEmpty_iff.mp hempty]
    exact forall_mem_nil _
  case isFalse =>
    refine ⟨_, rfl, nofun, fun _ => running_emit _, fun _ => ?_⟩
    rw [quiet_emit_iff, ← Multiset.coe_eq_zero, coe_emit_right, pairs_matching_eq_zero_iff]
    exact ⟨fun h b hb a ha => h a ha b hb, fun h a ha b hb => h b hb a ha⟩

theorem added_marker (m : FlowMarker) (i : Input C l r) (hi : endsInput i = decide (m = .endOfData))
    (hun : Unmatched cfg op i) : Added cfg op i [.marker m] := by
  by_cases hm : m = .endOfData
  · subst hm
    refine ⟨fun _ => rfl, fun h => ?_, fun h => ?_⟩
    all_goals
      rw [hi] at h
      cases h
  · refine added_of_quiet (by rw [hi, decide_eq_false hm]) ?_ hun
    exact quiet_markers [m] (by simpa using Ne.symm hm)

theorem step_out (cfg : Config C V l r) (op : Op C l r) (i : Input C l r × Exec C V) :
    ∃ new, (step cfg op i).out = op.out ++ new ∧ Added cfg op i.1 new := by
  obtain ⟨i, x⟩ := i
  cases i with
  | left event =>
    cases event with
    | data batch retracted => exact onLeftData_out x batch retracted
    | marker m =>
      cases m with
      | watermark _ t =>
        obtain ⟨ms, hout, hms⟩ := forwardWatermark_out
          { op with lwm := some (advance op.lwm t.timestampMicros) }
        exact ⟨_, (onWatermark_out x _).trans hout, added_of_quiet rfl (quiet_markers ms hms) trivial⟩
      | endOfData => exact ⟨_, onEndOfData_out op, added_marker .endOfData _ rfl trivial⟩
      | latencyTracker _ _ _ | checkpoint _ | idle _ => exact ⟨_, rfl, added_marker _ _ rfl trivial⟩
  | right event =>
    cases event with
    | data batch retracted => exact onRightData_out x batch retracted
    | marker m =>
      cases m with
      | watermark _ t =>
        obtain ⟨ms, hout, hms⟩ := forwardWatermark_out
          { op with rwm := some (advance op.rwm t.timestampMicros) }
        exact ⟨_, (onWatermark_out x _).trans hout, added_of_quiet rfl (quiet_markers ms hms) trivial⟩
      | endOfData => exact ⟨_, onEndOfData_out op, added_marker .endOfData _ rfl trivial⟩
      | latencyTracker _ _ _ | checkpoint _ | idle _ => exact ⟨_, rfl, added_marker _ _ rfl trivial⟩

namespace Added

variable {i : Input C l r} {new : List (FlowEvent (Row C (l + r)))}

theorem running_iff (h : Added cfg op i new) : Running new ↔ endsInput i = false := by
  constructor
  · intro hrun
    by_contra hi
    rw [Bool.not_eq_false] at hi
    rw [h.ends hi] at hrun
    exact endsOnce_singleton.not_running hrun
  · exact h.running

theorem quiet_iff (h : Added cfg op i new) :
    Quiet new ↔ endsInput i = false ∧ Unmatched cfg op i := by
  constructor
  · intro hq
    have hi := h.running_iff.mp hq.running
    exact ⟨hi, (h.quiet hi).mp hq⟩
  · rintro ⟨hi, hun⟩
    exact (h.quiet hi).mpr hun

theorem endsOnce_iff_ends (h : Added cfg op i new) : EndsOnce new ↔ endsInput i = true := by
  constructor
  · intro honce
    by_contra hi
    rw [Bool.not_eq_true] at hi
    exact honce.not_running (h.running hi)
  · intro hi
    rw [h.ends hi]
    exact endsOnce_singleton

end Added

/-! ## Whole runs -/

section

variable (cfg : Config C V l r) (op : Op C l r) (events : List (Input C l r × Exec C V))

theorem run_out :
    ∃ new, (Runs.run (step cfg) op events).out = op.out ++ new ∧
      (Quiet new ↔ Silent cfg op events) ∧ (EndsOnce new ↔ OneEnd cfg op events) := by
  induction events generalizing op with
  | nil =>
    refine ⟨[], (append_nil _).symm, iff_of_true quiet_nil silent_nil, ?_⟩
    exact iff_of_false (fun h => h.not_running running_nil) not_oneEnd_nil
  | cons i events ih =>
    obtain ⟨new, hnew, hadded⟩ := step_out cfg op i
    obtain ⟨rest, hrest, hquiet, honce⟩ := ih (step cfg op i)
    refine ⟨new ++ rest, ?_, ?_, ?_⟩
    · rw [Runs.run_cons, hrest, hnew, append_assoc]
    · rw [quiet_append, silent_cons, hadded.quiet_iff, hquiet]
    · rw [endsOnce_append, oneEnd_cons, hadded.running_iff, hadded.endsOnce_iff_ends, honce, hquiet]

/-- As many markers are forwarded as arrive. -/
theorem countP_endOfData :
    (Runs.run (step cfg) op events).out.countP isEndOfData =
      op.out.countP isEndOfData + events.countP fun i => endsInput i.1 := by
  induction events generalizing op with
  | nil => rfl
  | cons i events ih =>
    obtain ⟨new, hnew, hadded⟩ := step_out cfg op i
    rw [Runs.run_cons, ih, hnew, countP_append, countP_cons]
    cases hi : endsInput i.1 with
    | true =>
      rw [hadded.ends hi]
      simp [isEndOfData]
      omega
    | false =>
      rw [(hadded.running hi).countP_eq_zero]
      simp

end

/-- Two inputs that both end never give an output that ends once. -/
theorem not_endsOnce_of_two (x : Exec C V) (cfg : Config C V l r) (lck : StateIo.Store (Batch C l))
    (rck : StateIo.Store (Batch C r)) (events : List (Input C l r × Exec C V))
    (h : 2 ≤ events.countP fun i => endsInput i.1) :
    ¬ EndsOnce (Runs.run (step cfg) (start x cfg lck rck) events).out := by
  intro honce
  have hcount := countP_endOfData cfg (start x cfg lck rck) events
  have hstart : (start x cfg lck rck).out.countP isEndOfData = 0 := rfl
  rw [honce.countP_eq_one, hstart] at hcount
  omega

/-- The join forwards one `EndOfData` and no data behind it exactly if a single one arrives on the
two inputs together and no row behind it finds a match. -/
theorem endsOnce_iff (x : Exec C V) (cfg : Config C V l r) (lck : StateIo.Store (Batch C l))
    (rck : StateIo.Store (Batch C r)) (events : List (Input C l r × Exec C V)) :
    EndsOnce (Runs.run (step cfg) (start x cfg lck rck) events).out ↔
      OneEnd cfg (start x cfg lck rck) events := by
  obtain ⟨new, hnew, -, honce⟩ := run_out cfg (start x cfg lck rck) events
  have hstart : (start x cfg lck rck).out = [] := rfl
  rw [hnew, hstart, nil_append]
  exact honce

end Arrivals

/-! ## Two inputs that end -/

def leftEnd : Input (Option Int64) 1 1 × Exec (Option Int64) Int64 :=
  (.left (.marker .endOfData), Exec.plain _ _)

def rightEnd : Input (Option Int64) 1 1 × Exec (Option Int64) Int64 :=
  (.right (.marker .endOfData), Exec.plain _ _)

/-- Only the left input ends with a marker; the row behind it matches nothing. -/
theorem endsOnce_leftEnd :
    OneEnd (tsConfig 0 5) (freshStart 0 5) [leftBatch [0], rightBatch [0], leftEnd, rightBatch [1]] ∧
      EndsOnce (Runs.run (step (tsConfig 0 5)) (freshStart 0 5)
        [leftBatch [0], rightBatch [0], leftEnd, rightBatch [1]]).out := by
  have hone : OneEnd (tsConfig 0 5) (freshStart 0 5)
      [leftBatch [0], rightBatch [0], leftEnd, rightBatch [1]] := by
    refine ⟨[leftBatch [0], rightBatch [0]], leftEnd, [rightBatch [1]], rfl, by simp [leftBatch,
      rightBatch, dataEvent, endsInput, isEndOfData], rfl, ?_, ?_, trivial⟩
    · simp [rightBatch, dataEvent, endsInput, isEndOfData]
    · intro b hb a ha
      rw [mem_singleton.mp hb]
      have hleft : a ∈ [tsRow 0] := ha
      rw [mem_singleton.mp hleft]
      decide
  exact ⟨hone, (endsOnce_iff _ (tsConfig 0 5) _ _ _).mpr hone⟩

/-- Each input ends with its own marker: two are forwarded, with a match between them. -/
theorem twoEnds_forwarded :
    (Runs.run (step (tsConfig 0 5)) (freshStart 0 5)
        [leftBatch [0], leftEnd, rightBatch [0], rightEnd]).out.map
        (fun e => (isEndOfData e, isData e)) = [(true, false), (false, true), (true, false)] ∧
    ¬ EndsOnce (Runs.run (step (tsConfig 0 5)) (freshStart 0 5)
        [leftBatch [0], leftEnd, rightBatch [0], rightEnd]).out :=
  ⟨by decide, not_endsOnce_of_two _ _ _ _ _ (by decide)⟩

end Zelox.Join
