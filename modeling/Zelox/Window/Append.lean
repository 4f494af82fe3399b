import Zelox.Window.Rounds

/-!
# Append mode

A finalize emits a group when its window is closed, lies above the fired floor and
is not among the emitted ends.  Over rounds the floor is `floorAt`, and a window is
`marked` when an earlier finalize closed it with some row of it at hand, until the
watermark has passed its end by more than the lateness; then the mark is pruned.
`firedRows` lists the rows of a group that the rounds emit, and the operator emits
exactly those (`run_appendInv`).
-/

namespace Zelox.Window

open StateIo GroupFold Runs

variable {K V M R : Type}

/-! ## Output rows -/

/-- All rows of the data batches of an output. -/
def rowsOut (out : List (FlowEvent (Group K × R))) : List (Group K × R) :=
  out.flatMap fun ev =>
    match ev with
    | .data batch _ => batch
    | .marker _ => []

def rowsFor [DecidableEq K] (g : Group K) (out : List (FlowEvent (Group K × R))) :
    List (Group K × R) :=
  (rowsOut out).filter fun r => r.1 = g

theorem rowsOut_append (xs ys : List (FlowEvent (Group K × R))) :
    rowsOut (xs ++ ys) = rowsOut xs ++ rowsOut ys :=
  List.flatMap_append

theorem rowsOut_pushBatch (out : List (FlowEvent (Group K × R))) (batch : List (Group K × R))
    (v : Bool) : rowsOut (pushBatch out batch v) = rowsOut out ++ batch := by
  unfold pushBatch
  split
  · next h => rw [List.isEmpty_iff.mp h, List.append_nil]
  · rw [rowsOut_append]
    simp [rowsOut]

theorem mem_markEmittedEnds {A : Type} (unit : TimeUnit) (batch : List (Group K × A)) (wm : Int64)
    (emitted : List Int64) (e : Int64) :
    e ∈ markEmittedEnds unit batch wm emitted ↔
      e ∈ emitted ∨ e ≤ wm ∧ ∃ r ∈ batch, windowEndMicros unit r.1 = some e := by
  have key : ∀ (ends : List Int64) (s : List Int64),
      e ∈ ends.foldl (fun s e => if e ≤ wm then s.insert e else s) s ↔
        e ∈ s ∨ e ≤ wm ∧ e ∈ ends := by
    intro ends
    induction ends with
    | nil => simp
    | cons a ends ih =>
      intro s
      rw [List.foldl_cons, ih, List.mem_cons]
      split
      · next ha => rw [List.mem_insert_iff]; grind
      · next ha => grind
  unfold markEmittedEnds
  rw [key, List.mem_filterMap]

section

variable [DecidableEq K] [DecidableEq R]

theorem consume_append (cfg : Config) (hm : cfg.outputMode = .append) (acc : AccumState K M R)
    (w : Int64) (batches : List (List (Group K × R))) (m : Merge K R) :
    rowsOut (batches.foldl (consumeMergeBatch cfg acc w) m).out = rowsOut m.out ++
        (batches.flatten.filter fun r =>
          windowEmitMask cfg.unit w acc.emittedEnds acc.restoreWmFloor r.1) ∧
      ∀ e, e ∈ (batches.foldl (consumeMergeBatch cfg acc w) m).newlyEmitted ↔
        e ∈ m.newlyEmitted ∨
          e ≤ w ∧ ∃ r ∈ batches.flatten, windowEndMicros cfg.unit r.1 = some e := by
  induction batches generalizing m with
  | nil => simp
  | cons b bs ih =>
    obtain ⟨h1, h2⟩ := ih (consumeMergeBatch cfg acc w m b)
    have e1 : consumeMergeBatch cfg acc w m b =
        { m with
          newlyEmitted := markEmittedEnds cfg.unit b w m.newlyEmitted
          out := pushBatch m.out
            (b.filter fun r => windowEmitMask cfg.unit w acc.emittedEnds acc.restoreWmFloor r.1)
            false } := by
      unfold consumeMergeBatch
      rw [hm]
    refine ⟨?_, fun e => ?_⟩
    · rw [List.foldl_cons, h1, e1]
      rw [rowsOut_pushBatch, List.flatten_cons, List.filter_append, List.append_assoc]
    · rw [List.foldl_cons, h2, e1]
      dsimp only
      rw [mem_markEmittedEnds]
      simp only [List.flatten_cons, List.mem_append, or_and_right, exists_or]
      grind

variable [AddCommMonoid M] {agg : Aggregate V M R}

section

variable (x : Exec K agg) (cfg : Config) (hm : cfg.outputMode = .append) (w : Int64)
  (after : FlowMarker) (op : Op K M R)
include hm

theorem finalize_floor :
    (finalize x cfg w after op).acc.restoreWmFloor =
      max op.acc.restoreWmFloor (w.saturatingSub cfg.allowedLateness) := by
  unfold finalize rebuildRetainedState mergeDone
  rw [hm]

section

variable (C : List (Group K × M)) (hC : Agree (content cfg op.ck op.acc) C)
include hC

theorem mem_finalize_ends (e : Int64) :
    e ∈ (finalize x cfg w after op).acc.emittedEnds ↔
      e ∈ op.acc.emittedEnds ∨ e ≤ w ∧ ∃ g ∈ keys C, windowEndMicros cfg.unit g = some e := by
  have h1 : (finalize x cfg w after op).acc.emittedEnds =
      (drainMerge x cfg w op).newlyEmitted ∪ op.acc.emittedEnds := by
    unfold finalize rebuildRetainedState mergeDone
    rw [hm]
  have h2 := (consume_append cfg hm op.acc w (x.finalAgg (gatherPartials cfg op.ck op.acc))
    ⟨[], op.acc.lastEmitted, op.out⟩).2 e
  have ht := (x.final_table (gatherPartials cfg op.ck op.acc)).agree hC
  rw [h1, List.mem_union_iff]
  unfold drainMerge
  rw [h2]
  have h3 : (∃ r ∈ (x.finalAgg (gatherPartials cfg op.ck op.acc)).flatten,
      windowEndMicros cfg.unit r.1 = some e) ↔ ∃ g ∈ keys C, windowEndMicros cfg.unit g = some e := by
    constructor
    · rintro ⟨r, hr, he⟩
      exact ⟨r.1, ((ht.2 r.1 r.2).mp hr).1, he⟩
    · rintro ⟨g, hg, he⟩
      exact ⟨(g, _), (ht.2 g _).mpr ⟨hg, rfl⟩, he⟩
  rw [h3]
  simp only [List.not_mem_nil, false_or]
  exact or_comm

theorem rowsFor_finalize (g : Group K) :
    rowsFor g (finalize x cfg w after op).out = rowsFor g op.out ++
      if g ∈ keys C ∧
        windowEmitMask cfg.unit w op.acc.emittedEnds op.acc.restoreWmFloor g = true then
        [(g, agg.evaluate (total g C))]
      else [] := by
  have h1 := (consume_append cfg hm op.acc w (x.finalAgg (gatherPartials cfg op.ck op.acc))
    ⟨[], op.acc.lastEmitted, op.out⟩).1
  have ht := (x.final_table (gatherPartials cfg op.ck op.acc)).agree hC
  have h2 := ht.filter_eq g
  show (rowsOut ((drainMerge x cfg w op).out ++ [FlowEvent.marker after])).filter _ = _
  rw [rowsOut_append]
  unfold drainMerge
  rw [h1]
  show (((rowsOut op.out ++ _) ++ []).filter _) = _
  rw [List.append_nil, List.filter_append, List.filter_filter]
  congr 1
  have h3 : ((x.finalAgg (gatherPartials cfg op.ck op.acc)).flatten.filter fun r =>
      decide (r.1 = g) && windowEmitMask cfg.unit w op.acc.emittedEnds op.acc.restoreWmFloor r.1) =
      ((x.finalAgg (gatherPartials cfg op.ck op.acc)).flatten.filter fun r => r.1 = g).filter
        fun _ => windowEmitMask cfg.unit w op.acc.emittedEnds op.acc.restoreWmFloor g := by
    rw [List.filter_filter]
    refine List.filter_congr fun r _ => ?_
    by_cases hr : r.1 = g
    · simp [hr]
    · simp [hr]
  rw [h3, h2]
  by_cases hg : g ∈ keys C
  · cases windowEmitMask cfg.unit w op.acc.emittedEnds op.acc.restoreWmFloor g with
    | true => simp [hg]
    | false => simp
  · simp [hg]

end

end

end

/-! ## Rounds in append mode -/

/-- The groups at hand at first and those with a row in the rounds. -/
def seen (first : List (Group K)) (past : List (Round K V)) : List (Group K) :=
  first ++ past.flatMap fun r => keys r.rows

/-- The fired floor after the rounds. -/
def floorAt (cfg : Config) (floor : Int64) : List (Round K V) → Int64
  | [] => floor
  | r :: past => max (floorAt cfg floor past) (r.emitWm.saturatingSub cfg.allowedLateness)

/-- Some round closed the window with a row of it at hand. -/
def marked (cfg : Config) (first : List (Group K)) (past : List (Round K V)) (e : Int64) : Bool :=
  (past.head?.any fun p => e ≤ p.emitWm) &&
    (seen first past).any fun g => windowEndMicros cfg.unit g = some e

section

variable (agg : Aggregate V M R)

/-- The round `r` after `past` emits group `g`. -/
def Emits (cfg : Config) (base : List (Group K × M)) (floor : Int64) (past : List (Round K V))
    (r : Round K V) (g : Group K) : Prop :=
  ∃ e, windowEndMicros cfg.unit g = some e ∧ e ≤ r.emitWm ∧ floorAt cfg floor past < e ∧
    g ∈ keys (held agg cfg base past ++ agg.liftRows r.rows) ∧
    ¬ (marked cfg (keys base) past e = true ∧
      r.wm.all (fun v => v ≤ e.saturatingAdd cfg.allowedLateness) = true)

variable [DecidableEq K] [AddCommMonoid M]

open Classical in
/-- The rows of group `g` that the rounds emit. -/
noncomputable def firedRows (cfg : Config) (base : List (Group K × M)) (floor : Int64)
    (g : Group K) : List (Round K V) → List (Group K × R)
  | [] => []
  | r :: past => firedRows cfg base floor g past ++
      if Emits agg cfg base floor past r g then
        [(g, agg.evaluate (total g (held agg cfg base past ++ agg.liftRows r.rows)))]
      else []

/-- The append-mode operator after the intake `s`.  Marks below the floor do not matter, nor do
those past their lateness. -/
structure AppendInv (cfg : Config) (base : List (Group K × M)) (floor0 floor : Int64)
    (ends : List Int64) (out : List (FlowEvent (Group K × R))) (s : Intake K V) : Prop where
  floor_eq : floor = floorAt cfg floor0 s.rounds
  mark_iff : ∀ e, floor < e → (∀ v, s.wm = some v → v ≤ e.saturatingAdd cfg.allowedLateness) →
    (e ∈ ends ↔ marked cfg (keys base) s.rounds e = true)
  no_rows : ∀ e ∈ ends, ∀ v, s.wm = some v → e.saturatingAdd cfg.allowedLateness < v →
    ∀ x ∈ s.rows, windowEndMicros cfg.unit x.1 ≠ some e
  closed : ∀ e ∈ ends, e ≤ floor0 ∨ ∃ p ∈ s.rounds.head?, e ≤ p.emitWm
  rows : ∀ g, rowsFor g out = firedRows agg cfg base floor0 g s.rounds

end

/-! ## Retained groups -/

theorem mem_seen_cons (first : List (Group K)) (r : Round K V) (past : List (Round K V))
    (g : Group K) : g ∈ seen first (r :: past) ↔ g ∈ seen first past ∨ g ∈ keys r.rows := by
  unfold seen
  rw [List.flatMap_cons, List.mem_append, List.mem_append, List.mem_append]
  constructor
  · rintro (h | h | h)
    · exact .inl (.inl h)
    · exact .inr h
    · exact .inl (.inr h)
  · rintro ((h | h) | h)
    · exact .inl h
    · exact .inr (.inr h)
    · exact .inr (.inl h)

theorem openAt_iff {unit : TimeUnit} {w e : Int64} {g : Group K}
    (he : windowEndMicros unit g = some e) : openAt unit w g = true ↔ ¬ e ≤ w := by
  simp [openAt, he, Int64.not_le]

theorem openAt_mono (unit : TimeUnit) (w w' : Int64) (g : Group K) (hw : w ≤ w')
    (h : openAt unit w' g = true) : openAt unit w g = true := by
  cases he : windowEndMicros unit g with
  | none => simp [openAt, he]
  | some e =>
    rw [openAt_iff he] at *
    exact fun hle => h (Int64.le_trans hle hw)

section

variable (agg : Aggregate V M R) (cfg : Config) (hm : cfg.outputMode = .append)
  (base : List (Group K × M)) (past : List (Round K V)) (hc : Chain cfg past)
include hm hc

/-- In append mode a group is retained while its window is open at the last round. -/
theorem mem_keys_held (g : Group K) :
    g ∈ keys (held agg cfg base past) ↔
      g ∈ seen (keys base) past ∧ ∀ p ∈ past.head?, openAt cfg.unit p.emitWm g = true := by
  induction past with
  | nil => simp [held, seen]
  | cons r past ih =>
    have hr : retainWm cfg r.emitWm = r.emitWm := by unfold retainWm; rw [hm]
    rw [held, mem_keys_filter, keys_append, List.mem_append, keys_liftRows, ih hc.2.2, hr,
      mem_seen_cons]
    constructor
    · rintro ⟨h | h, ho⟩
      · exact ⟨.inl h.1, by rintro p ⟨⟩; exact ho⟩
      · exact ⟨.inr h, by rintro p ⟨⟩; exact ho⟩
    · rintro ⟨h, ho⟩
      have ho := ho r rfl
      refine ⟨?_, ho⟩
      rcases h with h | h
      · exact .inl ⟨h, fun p hp => openAt_mono _ _ _ _ (hc.2.1 p hp) ho⟩
      · exact .inr h

theorem mem_keys_at (rows : List (Group K × V)) (g : Group K) :
    g ∈ keys (held agg cfg base past ++ agg.liftRows rows) ↔
      (g ∈ seen (keys base) past ∧ ∀ p ∈ past.head?, openAt cfg.unit p.emitWm g = true) ∨
        g ∈ keys rows := by
  rw [keys_append, List.mem_append, keys_liftRows, mem_keys_held agg cfg hm base past hc]

end

theorem le_floorAt (cfg : Config) (floor : Int64) (past : List (Round K V)) :
    floor ≤ floorAt cfg floor past := by
  induction past with
  | nil => exact Int64.le_refl _
  | cons r past ih =>
    exact Int64.le_trans ih (Int64.le_max_left _ _)

theorem any_lt_iff_not_all_le (wm : Option Int64) (e : Int64) :
    (wm.any fun v => e < v) = true ↔ ¬ wm.all (fun v => v ≤ e) = true := by
  cases wm with
  | none => simp
  | some v => simp [Int64.not_le]

theorem windowEmitMask_iff (unit : TimeUnit) (w : Int64) (ends : List Int64) (floor : Int64)
    (g : Group K) :
    windowEmitMask unit w ends floor g = true ↔
      ∃ e, windowEndMicros unit g = some e ∧ e ≤ w ∧ floor < e ∧ e ∉ ends := by
  unfold windowEmitMask
  cases windowEndMicros unit g with
  | none => simp
  | some e => simp [and_assoc]

theorem marked_iff (cfg : Config) (first : List (Group K)) (past : List (Round K V)) (e : Int64) :
    marked cfg first past e = true ↔
      (∃ p ∈ past.head?, e ≤ p.emitWm) ∧
        ∃ g ∈ seen first past, windowEndMicros cfg.unit g = some e := by
  unfold marked
  cases past.head? with
  | none => simp
  | some p => simp

/-! ## The operator keeps the invariant -/

section

variable [DecidableEq K] [AddCommMonoid M] {agg : Aggregate V M R} {cfg : Config}
  {base : List (Group K × M)} {floor0 : Int64}

section

variable {floor : Int64} {ends : List Int64} {out : List (FlowEvent (Group K × R))}
  {s : Intake K V} (h : AppendInv agg cfg base floor0 floor ends out s)
include h

/-- A group at hand when the intake `s` closes is emitted exactly when the mask says so. -/
theorem AppendInv.mask_iff (hm : cfg.outputMode = .append) (hok : s.Ok cfg) (w : Int64)
    (g : Group K) :
    (g ∈ keys (held agg cfg base s.rounds ++ agg.liftRows s.rows) ∧
        windowEmitMask cfg.unit w ends floor g = true) ↔
      Emits agg cfg base floor0 s.rounds ⟨s.rows, s.wm, w⟩ g := by
  rw [windowEmitMask_iff]
  constructor
  · rintro ⟨hg, e, he, hw, hf, hn⟩
    refine ⟨e, he, hw, h.floor_eq ▸ hf, hg, ?_⟩
    rintro ⟨hmark, hall⟩
    refine hn ((h.mark_iff e hf fun v hv => ?_).mpr hmark)
    rw [show (Round.mk s.rows s.wm w).wm = some v from hv] at hall
    simpa using hall
  · rintro ⟨e, he, hw, hf, hg, hn⟩
    refine ⟨hg, e, he, hw, h.floor_eq ▸ hf, fun hmem => ?_⟩
    by_cases hall : s.wm.all (fun v => v ≤ e.saturatingAdd cfg.allowedLateness) = true
    · refine hn ⟨(h.mark_iff e (h.floor_eq ▸ hf) fun v hv => ?_).mp hmem, hall⟩
      rw [hv] at hall
      simpa using hall
    · -- the mark is past its lateness: no row of the window is at hand
      obtain ⟨v, hwm, hlt⟩ := (Option.any_eq_true _ _).mp ((any_lt_iff_not_all_le _ _).mpr hall)
      rcases (mem_keys_at agg cfg hm base _ hok.chain _ g).mp hg with hg | hg
      · rcases h.closed e hmem with hfl | ⟨p, hp, hpe⟩
        · exact Int64.not_lt.mpr (Int64.le_trans hfl (le_floorAt cfg floor0 s.rounds)) hf
        · exact (openAt_iff he).mp (hg.2 p hp) hpe
      · obtain ⟨x, hx, rfl⟩ := List.mem_map.mp hg
        exact h.no_rows e hmem v hwm (of_decide_eq_true hlt) x hx he

theorem AppendInv.push (m : FlowMarker) :
    AppendInv agg cfg base floor0 floor ends (out ++ [.marker m]) s := by
  refine ⟨h.floor_eq, h.mark_iff, h.no_rows, h.closed, fun g => ?_⟩
  rw [← h.rows g]
  unfold rowsFor
  rw [rowsOut_append]
  exact congrArg _ (List.append_nil _)

theorem AppendInv.accept (batch : List (Group K × V)) (flags : List Bool) :
    AppendInv agg cfg base floor0 floor ends out (s.step cfg (.data batch flags)) := by
  refine ⟨h.floor_eq, h.mark_iff, fun e he v hv hlt x hx hxe => ?_, h.closed, h.rows⟩
  rcases List.mem_append.mp hx with hx | hx
  · exact h.no_rows e he v hv hlt x hx hxe
  · have hacc := (accepts_iff cfg s.wm x.1 v e hv hxe).mp (List.mem_filter.mp hx).2
    exact Int64.not_lt.mpr hacc hlt

/-- Raising the watermark prunes the marks that rows can no longer meet. -/
theorem AppendInv.raise (t : Int64) (lf : Option Int64) :
    AppendInv agg cfg base floor0 floor
      (ends.filter fun e => setWatermark s.wm t ≤ e.saturatingAdd cfg.allowedLateness) out
      { s with wm := some (setWatermark s.wm t), lastFinal := lf } := by
  refine ⟨h.floor_eq, fun e he hv => ?_, fun e he v hv hlt => ?_, fun e he => ?_, h.rows⟩
  · have hle := hv _ rfl
    rw [List.mem_filter, ← h.mark_iff e he fun v hwm => ?_]
    · simp [hle]
    · exact Int64.le_trans (le_setWatermark s.wm t v hwm) hle
  · cases hv
    exact absurd hlt (Int64.not_lt.mpr (of_decide_eq_true (List.mem_filter.mp he).2))
  · exact h.closed e (List.mem_filter.mp he).1

end

theorem start_appendInv (ck : Store (List (Group K × M)))
    (h : ∀ e ∈ (restore (R := R) cfg ck).emittedEnds,
      e ≤ (restore (R := R) cfg ck).restoreWmFloor) :
    AppendInv agg cfg (restore (R := R) cfg ck).pendingRows.flatten
      (restore (R := R) cfg ck).restoreWmFloor (start (R := R) cfg ck).acc.restoreWmFloor
      (start (R := R) cfg ck).acc.emittedEnds (start (R := R) cfg ck).out
      { wm := (restore (R := R) cfg ck).watermarkMicros } := by
  refine ⟨rfl, fun e he _ => ⟨fun hmem => ?_, nofun⟩, fun _ _ _ _ _ => nofun,
    fun e he => .inl (h e he), fun g => rfl⟩
  exact absurd he (Int64.not_lt.mpr (h e hmem))

variable [DecidableEq R]

theorem finalize_appendInv (x : Exec K agg) (hm : cfg.outputMode = .append) (w : Int64)
    (after : FlowMarker) (op : Op K M R) (s : Intake K V) (hf : Follows agg cfg base op s)
    (hok : s.Ok cfg) (hw : ∀ v, s.wm = some v → v ≤ w)
    (h : AppendInv agg cfg base floor0 op.acc.restoreWmFloor op.acc.emittedEnds op.out s) :
    AppendInv agg cfg base floor0 (finalize x cfg w after op).acc.restoreWmFloor
      (finalize x cfg w after op).acc.emittedEnds (finalize x cfg w after op).out (s.close w) := by
  have hends := mem_finalize_ends x cfg hm w after op _ hf.states
  have hchain := hok.chain_close w hw
  have hfloor : (finalize x cfg w after op).acc.restoreWmFloor =
      floorAt cfg floor0 (s.close w).rounds := by
    rw [finalize_floor x cfg hm, h.floor_eq]
    rfl
  refine ⟨hfloor, ?_, ?_, ?_, ?_⟩
  · intro e he hv
    have he0 : op.acc.restoreWmFloor < e := by
      rw [hfloor] at he
      rw [h.floor_eq]
      exact Int64.lt_of_le_of_lt (Int64.le_max_left _ _) he
    rw [hends, h.mark_iff e he0 hv, marked_iff, marked_iff]
    constructor
    · rintro (⟨⟨p, hp, hpe⟩, g, hg, hge⟩ | ⟨hew, g, hg, hge⟩)
      · refine ⟨⟨_, rfl, ?_⟩, g, (mem_seen_cons (keys base) _ _ g).mpr (.inl hg), hge⟩
        exact Int64.le_trans hpe (hchain.2.1 p hp)
      · refine ⟨⟨_, rfl, hew⟩, g, (mem_seen_cons (keys base) _ _ g).mpr ?_, hge⟩
        exact ((mem_keys_at agg cfg hm base _ hok.chain _ g).mp hg).imp (fun h => h.1) id
    · rintro ⟨⟨p, hp, hpe⟩, g, hg, hge⟩
      cases hp
      by_cases hclosed : ∃ p ∈ s.rounds.head?, e ≤ p.emitWm
      · rcases (mem_seen_cons (keys base) _ _ g).mp hg with hg | hg
        · exact .inl ⟨hclosed, g, hg, hge⟩
        · refine .inr ⟨hpe, g, ?_, hge⟩
          rw [keys_append, List.mem_append, keys_liftRows]
          exact .inr hg
      · refine .inr ⟨hpe, g, ?_, hge⟩
        rw [mem_keys_at agg cfg hm base _ hok.chain]
        refine ((mem_seen_cons (keys base) _ _ g).mp hg).imp (fun hg => ⟨hg, fun p hp => ?_⟩) id
        exact (openAt_iff hge).mpr fun hle => hclosed ⟨p, hp, hle⟩
  · intro e _ v _ _
    nofun
  · intro e he
    rcases (hends e).mp he with he | ⟨hew, -⟩
    · rcases h.closed e he with hfl | ⟨p, hp, hpe⟩
      · exact .inl hfl
      · exact .inr ⟨_, rfl, Int64.le_trans hpe (hchain.2.1 p hp)⟩
    · exact .inr ⟨_, rfl, hew⟩
  · intro g
    rw [rowsFor_finalize x cfg hm w after op _ hf.states g, h.rows g]
    show _ = firedRows agg cfg base floor0 g s.rounds ++ _
    congr 1
    by_cases he : Emits agg cfg base floor0 s.rounds ⟨s.rows, s.wm, w⟩ g
    · rw [if_pos he, if_pos ((h.mask_iff hm hok w g).mpr he)]
    · rw [if_neg he, if_neg fun hc => he ((h.mask_iff hm hok w g).mp hc)]

section

variable (hm : cfg.outputMode = .append) (op : Op K M R) (s : Intake K V)
include hm

theorem step_appendInv (i : FlowEvent (Group K × V) × Exec K agg) (hev : i.1 ≠ .marker .endOfData)
    (hf : Follows agg cfg base op s) (hok : s.Ok cfg)
    (h : AppendInv agg cfg base floor0 op.acc.restoreWmFloor op.acc.emittedEnds op.out s) :
    AppendInv agg cfg base floor0 (step cfg op i).acc.restoreWmFloor
      (step cfg op i).acc.emittedEnds (step cfg op i).out (s.step cfg i.1) := by
  obtain ⟨ev, x⟩ := i
  cases ev with
  | data batch flags =>
    have hacc : (onData x cfg op batch).acc.restoreWmFloor = op.acc.restoreWmFloor ∧
        (onData x cfg op batch).acc.emittedEnds = op.acc.emittedEnds ∧
        (onData x cfg op batch).out = op.out := by
      unfold onData
      dsimp only
      split
      · exact ⟨rfl, rfl, rfl⟩
      · exact ⟨rfl, rfl, rfl⟩
    show AppendInv agg cfg base floor0 (onData x cfg op batch).acc.restoreWmFloor
      (onData x cfg op batch).acc.emittedEnds (onData x cfg op batch).out _
    rw [hacc.1, hacc.2.1, hacc.2.2]
    exact h.accept batch flags
  | marker m =>
    cases m with
    | watermark source ts =>
      have hr := h.raise ts.timestampMicros (some (setWatermark s.wm ts.timestampMicros))
      have hw := hf.wm
      have hl := hf.lastFinal
      show AppendInv agg cfg base floor0 (onWatermark x cfg op source ts).acc.restoreWmFloor
        (onWatermark x cfg op source ts).acc.emittedEnds (onWatermark x cfg op source ts).out _
      unfold onWatermark Intake.step
      dsimp only
      rw [hw, hl]
      split
      · refine finalize_appendInv x hm _ _ _ _ ?_ ?_ ?_ hr
        · exact ⟨rfl, rfl, ⟨hf.spills.below, hf.spills.noStore⟩, hf.states⟩
        · exact hok.raise _ _
        · rintro v ⟨⟩
          exact Int64.le_refl _
      · exact (h.raise ts.timestampMicros s.lastFinal).push _
    | endOfData => exact absurd rfl hev
    | checkpoint id =>
      obtain ⟨ec, gc, e⟩ := onCheckpoint_acc cfg op id
      have hout : (onCheckpoint cfg op id).out = op.out ++ [.marker (.checkpoint id)] := by
        unfold onCheckpoint
        split
        · split
          · rfl
          · rfl
        · rfl
      show AppendInv agg cfg base floor0 (onCheckpoint cfg op id).acc.restoreWmFloor
        (onCheckpoint cfg op id).acc.emittedEnds (onCheckpoint cfg op id).out s
      rw [e, hout]
      exact h.push _
    | latencyTracker source id ts | idle source => exact h.push _

theorem run_appendInv (is : List (FlowEvent (Group K × V) × Exec K agg))
    (hev : ∀ i ∈ is, i.1 ≠ .marker .endOfData) (hf : Follows agg cfg base op s) (hok : s.Ok cfg)
    (h : AppendInv agg cfg base floor0 op.acc.restoreWmFloor op.acc.emittedEnds op.out s) :
    AppendInv agg cfg base floor0 (run (step cfg) op is).acc.restoreWmFloor
      (run (step cfg) op is).acc.emittedEnds (run (step cfg) op is).out
      (run (Intake.step cfg) s (is.map (·.1))) := by
  induction is generalizing op s with
  | nil => exact h
  | cons i is ih =>
    have hi := hev i List.mem_cons_self
    exact ih _ _ (fun j hj => hev j (List.mem_cons_of_mem _ hj)) (step_follows cfg base op s i hf)
      (Intake.step_ok cfg s i.1 hi hok) (step_appendInv hm op s i hi hf hok h)

end

theorem flush_appendInv (hm : cfg.outputMode = .append) (hfl : flushes cfg = true) (op : Op K M R)
    (s : Intake K V) (x : Exec K agg) (hf : Follows agg cfg base op s) (hok : s.Ok cfg)
    (h : AppendInv agg cfg base floor0 op.acc.restoreWmFloor op.acc.emittedEnds op.out s) :
    AppendInv agg cfg base floor0 (step cfg op (.marker .endOfData, x)).acc.restoreWmFloor
      (step cfg op (.marker .endOfData, x)).acc.emittedEnds
      (step cfg op (.marker .endOfData, x)).out (s.close Int64.maxValue) := by
  have hmax : ∀ v, s.wm = some v → v ≤ Int64.maxValue := fun v _ => Int64.le_maxValue v
  show AppendInv agg cfg base floor0 (onEndOfData x cfg op).acc.restoreWmFloor
    (onEndOfData x cfg op).acc.emittedEnds (onEndOfData x cfg op).out _
  unfold onEndOfData
  unfold flushes at hfl
  cases hs : cfg.hasStore with
  | true =>
    rw [hs] at hfl
    simp only [Bool.not_true, Bool.false_or] at hfl
    simp only [hfl, if_true]
    exact finalize_appendInv x hm _ _ _ _ (hf.congr rfl rfl rfl rfl (stageState_content cfg op))
      hok hmax h
  | false =>
    simp only [Bool.false_eq_true, if_false]
    exact finalize_appendInv x hm _ _ _ _ hf hok hmax h

/-! ## Whole runs -/

variable {ck : Store (List (Group K × M))}

theorem start_run_appendInv (hm : cfg.outputMode = .append)
    (hends : ∀ e ∈ (restore (R := R) cfg ck).emittedEnds,
      e ≤ (restore (R := R) cfg ck).restoreWmFloor)
    (is : List (FlowEvent (Group K × V) × Exec K agg))
    (hev : ∀ i ∈ is, i.1 ≠ .marker .endOfData) :
    AppendInv agg cfg (restore (R := R) cfg ck).pendingRows.flatten
      (restore (R := R) cfg ck).restoreWmFloor
      (run (step cfg) (start cfg ck) is).acc.restoreWmFloor
      (run (step cfg) (start cfg ck) is).acc.emittedEnds (run (step cfg) (start cfg ck) is).out
      (intake cfg (restore (R := R) cfg ck).watermarkMicros (is.map (·.1))) :=
  run_appendInv hm _ _ is hev (start_follows cfg ck) (Intake.ok_start cfg _)
    (start_appendInv ck hends)

/-- A run up to a flushing end of data emits the rows that its rounds fire. -/
theorem rowsFor_run_flush (hm : cfg.outputMode = .append) (hfl : flushes cfg = true)
    (hends : ∀ e ∈ (restore (R := R) cfg ck).emittedEnds,
      e ≤ (restore (R := R) cfg ck).restoreWmFloor)
    (is : List (FlowEvent (Group K × V) × Exec K agg))
    (hev : ∀ i ∈ is, i.1 ≠ .marker .endOfData) (x : Exec K agg) (g : Group K) :
    rowsFor g (run (step cfg) (start cfg ck) (is ++ [(.marker .endOfData, x)])).out =
      firedRows agg cfg (restore (R := R) cfg ck).pendingRows.flatten
        (restore (R := R) cfg ck).restoreWmFloor g
        (intake cfg (restore (R := R) cfg ck).watermarkMicros
          (is.map (·.1) ++ [.marker .endOfData])).rounds := by
  have hok := intake_ok cfg (restore (R := R) cfg ck).watermarkMicros (is.map (·.1)) (map_ne_endOfData hev)
  have h := flush_appendInv hm hfl _ _ x (run_follows cfg _ _ _ is (start_follows cfg ck)) hok
    (start_run_appendInv hm hends is hev)
  rw [intake_flush cfg hfl, run_append]
  exact h.rows g

end

end Zelox.Window
