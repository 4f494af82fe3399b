import Zelox.Window.AtMostOnce

/-!
# Exactness in append mode

With no lateness a fresh run that ends in a flush emits for each group one row, over
the rows accepted up to the first finalize that closes its window (`dueRows`), and
nothing for a group without such rows.  The one exception is a window whose end is
the least `i64`: the floor of a fresh start is that same value, and a window is
fired only above the floor (`append_exact_iff`).  The spill budget does not matter.
-/

namespace Zelox.Window

open StateIo GroupFold Runs

variable {K V M R : Type}

/-! ## The rows due -/

/-- The rows accepted up to the first finalize that closes the window end `e`. -/
def dueRows (e : Int64) : List (Round K V) → List (Group K × V)
  | [] => []
  | r :: past =>
    if past.any fun p => e ≤ p.emitWm then dueRows e past else dueRows e past ++ r.rows

/-- The row of a group over its due rows, if it has any. -/
def exactRow [DecidableEq K] [AddCommMonoid M] (agg : Aggregate V M R) (e : Int64)
    (rounds : List (Round K V)) (g : Group K) : List (Group K × R) :=
  if g ∈ keys (dueRows e rounds) then
    [(g, agg.evaluate (total g (agg.liftRows (dueRows e rounds))))]
  else []

/-- Nothing is committed that a new operator would restore. -/
structure Uncommitted {B : Type} (ck : Store B) : Prop where
  committed : ck.get .committed = none
  realtime : ck.get .realtimeCommitted = none

theorem restore_of_uncommitted (cfg : Config) (ck : Store (List (Group K × M)))
    (h : Uncommitted ck) : (restore cfg ck : AccumState K M R) = {} := by
  have hr : restored cfg ck = ([], []) := by
    unfold restored committedEpoch
    rw [h.realtime]
    unfold restoreState
    rw [h.committed]
    rfl
  unfold restore
  rw [hr]
  split
  · rfl
  · rfl

/-! ## Rounds without lateness -/

theorem any_closed_iff (cfg : Config) (past : List (Round K V)) (hc : Chain cfg past) (e : Int64) :
    (past.any fun p => e ≤ p.emitWm) = true ↔ ∃ p ∈ past.head?, e ≤ p.emitWm := by
  rw [List.any_eq_true]
  constructor
  · rintro ⟨r, hr, he⟩
    rw [decide_eq_true_eq] at he
    cases past with
    | nil => cases hr
    | cons p past =>
      exact ⟨p, rfl, Int64.le_trans he (hc.emitWm_le p rfl r hr)⟩
  · rintro ⟨p, hp, he⟩
    exact ⟨p, List.mem_of_mem_head? hp, decide_eq_true he⟩

/-- Without lateness the floor is below a window that no round has closed. -/
theorem floorAt_lt_iff (cfg : Config) (hL : cfg.allowedLateness = 0) (floor : Int64)
    (past : List (Round K V)) (e : Int64) :
    floorAt cfg floor past < e ↔ floor < e ∧ (past.any fun p => e ≤ p.emitWm) = false := by
  induction past with
  | nil => simp [floorAt]
  | cons r past ih =>
    rw [floorAt, hL, Int64.saturatingSub_zero, List.any_cons, Bool.or_eq_false_iff]
    have hmax : max (floorAt cfg floor past) r.emitWm < e ↔
        floorAt cfg floor past < e ∧ ¬ e ≤ r.emitWm := by
      rw [Int64.lt_iff_toInt_lt, Int64.lt_iff_toInt_lt, Int64.le_iff_toInt_le, Int64.toInt_max]
      omega
    grind

theorem mem_keys_dueRows (e : Int64) (past : List (Round K V))
    (hn : (past.any fun p => e ≤ p.emitWm) = false) (g : Group K) :
    g ∈ keys (dueRows e past) ↔ g ∈ seen [] past := by
  induction past with
  | nil => exact Iff.rfl
  | cons r past ih =>
    rw [List.any_cons, Bool.or_eq_false_iff] at hn
    rw [dueRows, hn.2, if_neg Bool.false_ne_true, keys_append, List.mem_append, ih hn.2,
      mem_seen_cons]

section

variable [DecidableEq K] [AddCommMonoid M] (agg : Aggregate V M R)

/-- Before the window is closed, the partial states of its due rows are retained. -/
theorem held_of_open (cfg : Config) (hm : cfg.outputMode = .append) (base : List (Group K × M))
    (g : Group K) (e : Int64) (hge : windowEndMicros cfg.unit g = some e)
    (past : List (Round K V)) (hn : (past.any fun p => e ≤ p.emitWm) = false) :
    (g ∈ keys (held agg cfg base past) ↔ g ∈ keys base ∨ g ∈ keys (dueRows e past)) ∧
      total g (held agg cfg base past) = total g (base ++ agg.liftRows (dueRows e past)) := by
  induction past with
  | nil => exact ⟨by simp [held, dueRows, keys], by simp [held, dueRows, Aggregate.liftRows]⟩
  | cons r past ih =>
    rw [List.any_cons, Bool.or_eq_false_iff] at hn
    obtain ⟨ih1, ih2⟩ := ih hn.2
    have hr : retainWm cfg r.emitWm = r.emitWm := by unfold retainWm; rw [hm]
    have ho : openAt cfg.unit r.emitWm g = true :=
      (openAt_iff hge).mpr (of_decide_eq_false hn.1)
    have hdue : dueRows e (r :: past) = dueRows e past ++ r.rows := by
      rw [dueRows, hn.2, if_neg Bool.false_ne_true]
    rw [held, mem_keys_filter, total_filter, hr, ho, if_pos rfl, hdue]
    constructor
    · rw [keys_append, keys_append, List.mem_append, List.mem_append, keys_liftRows, ih1, or_assoc]
      exact and_iff_left rfl
    · rw [total_append, ih2, liftRows_append, ← List.append_assoc]
      exact (total_append g _ _).symm

/-- Without lateness: one row over the due rows of a group, once a round has closed its window. -/
theorem firedRows_eq (cfg : Config) (hm : cfg.outputMode = .append)
    (hL : cfg.allowedLateness = 0) (base : List (Group K × M)) (floor : Int64) (g : Group K)
    (e : Int64) (hge : windowEndMicros cfg.unit g = some e) (rounds : List (Round K V))
    (hc : Chain cfg rounds) :
    firedRows agg cfg base floor g rounds =
      if floor < e ∧ (rounds.any fun p => e ≤ p.emitWm) = true ∧
          (g ∈ keys base ∨ g ∈ keys (dueRows e rounds)) then
        [(g, agg.evaluate (total g (base ++ agg.liftRows (dueRows e rounds))))]
      else [] := by
  induction rounds with
  | nil => simp [firedRows]
  | cons r past ih =>
    rw [firedRows, ih hc.2.2]
    cases hcl : past.any fun p => decide (e ≤ p.emitWm) with
    | true =>
      -- the floor has reached the window: nothing more is emitted
      have hne : ¬ Emits agg cfg base floor past r g := by
        rintro ⟨e', hge', -, hfl, -, -⟩
        rw [hge] at hge'
        cases hge'
        rw [floorAt_lt_iff cfg hL, hcl] at hfl
        cases hfl.2
      have hdue : dueRows e (r :: past) = dueRows e past := by rw [dueRows, hcl, if_pos rfl]
      rw [if_neg hne, List.append_nil, List.any_cons, hcl, Bool.or_true, hdue]
    | false =>
      obtain ⟨hk, ht⟩ := held_of_open agg cfg hm base g e hge past hcl
      have hdue : dueRows e (r :: past) = dueRows e past ++ r.rows := by
        rw [dueRows, hcl, if_neg Bool.false_ne_true]
      have hem : Emits agg cfg base floor past r g ↔
          floor < e ∧ decide (e ≤ r.emitWm) = true ∧
            (g ∈ keys base ∨ g ∈ keys (dueRows e (r :: past))) := by
        have hkeys : g ∈ keys (held agg cfg base past ++ agg.liftRows r.rows) ↔
            g ∈ keys base ∨ g ∈ keys (dueRows e (r :: past)) := by
          rw [keys_append, List.mem_append, keys_liftRows, hk, hdue, keys_append, List.mem_append,
            or_assoc]
        constructor
        · rintro ⟨e', hge', hle, hfl, hg, -⟩
          rw [hge] at hge'
          cases hge'
          exact ⟨((floorAt_lt_iff cfg hL floor past e).mp hfl).1, decide_eq_true hle, hkeys.mp hg⟩
        · rintro ⟨hfl, hle, hg⟩
          refine ⟨e, hge, of_decide_eq_true hle, (floorAt_lt_iff cfg hL floor past e).mpr ⟨hfl, hcl⟩,
            hkeys.mpr hg, fun h => ?_⟩
          obtain ⟨p, hp, hpe⟩ := ((marked_iff _ _ _ _).mp h.1).1
          rw [(any_closed_iff cfg past hc.2.2 e).mpr ⟨p, hp, hpe⟩] at hcl
          cases hcl
      have htot : total g (held agg cfg base past ++ agg.liftRows r.rows) =
          total g (base ++ agg.liftRows (dueRows e (r :: past))) := by
        rw [total_append, ht, hdue, liftRows_append, ← List.append_assoc]
        exact (total_append g _ _).symm
      rw [if_neg fun h => Bool.false_ne_true h.2.1, List.nil_append, htot, List.any_cons, hcl,
        Bool.or_false]
      by_cases h : Emits agg cfg base floor past r g
      · rw [if_pos h, if_pos (hem.mp h)]
      · rw [if_neg h, if_neg fun h' => h (hem.mpr h')]

end

/-! ## Watermarks -/

theorem intake_aboveMin (cfg : Config) (evs : List (FlowEvent (Group K × V))) :
    (intake cfg none evs).Stamped (Int64.minValue < ·) :=
  intake_stamped _ DateTime.minValue_lt_timestampMicros cfg evs fun _ _ _ => by decide

/-- An accepted row of the window ending at the least `i64` came before any
finalize, and is due. -/
theorem mem_dueRows_minValue (cfg : Config) (hL : cfg.allowedLateness = 0)
    (rounds : List (Round K V)) (hc : Chain cfg rounds)
    (hw : ∀ r ∈ rounds, Int64.minValue < r.emitWm) (r : Round K V) (hr : r ∈ rounds)
    (y : Group K × V) (hy : y ∈ r.rows)
    (hye : windowEndMicros cfg.unit y.1 = some Int64.minValue) :
    y ∈ dueRows Int64.minValue rounds := by
  induction rounds with
  | nil => cases hr
  | cons q past ih =>
    rcases List.mem_cons.mp hr with rfl | hr
    · cases past with
      | nil => exact hy
      | cons p past =>
        -- a row after a finalize is not below that finalize's watermark
        have h1 := (hc.1 p rfl).2.2 y hy _ hye
        have h2 := hw p (List.mem_cons_of_mem _ List.mem_cons_self)
        rw [hL, Int64.saturatingAdd_zero] at h1
        exact absurd h2 (Int64.not_lt.mpr h1)
    · have h1 := ih hc.2.2 (fun r hr => hw r (List.mem_cons_of_mem _ hr)) hr
      rw [dueRows]
      split
      · exact h1
      · exact List.mem_append_left _ h1

theorem mem_rounds_of_mem_dueRows (e : Int64) (rounds : List (Round K V)) (y : Group K × V)
    (hy : y ∈ dueRows e rounds) : ∃ r ∈ rounds, y ∈ r.rows := by
  induction rounds with
  | nil => cases hy
  | cons q past ih =>
    have hpast : y ∈ dueRows e past → ∃ r ∈ q :: past, y ∈ r.rows := fun h =>
      let ⟨r, hr, hyr⟩ := ih h
      ⟨r, List.mem_cons_of_mem _ hr, hyr⟩
    rw [dueRows] at hy
    split at hy
    · exact hpast hy
    · rcases List.mem_append.mp hy with hy | hy
      · exact hpast hy
      · exact ⟨q, List.mem_cons_self, hy⟩

/-! ## The operator -/

section

variable [DecidableEq K] [DecidableEq R] [AddCommMonoid M] {agg : Aggregate V M R}

theorem rowsFor_run_exact (cfg : Config) (hm : cfg.outputMode = .append)
    (hL : cfg.allowedLateness = 0) (hfl : flushes cfg = true) (ck : Store (List (Group K × M)))
    (hck : Uncommitted ck) (is : List (FlowEvent (Group K × V) × Exec K agg))
    (hev : ∀ i ∈ is, i.1 ≠ .marker .endOfData) (x : Exec K agg) (g : Group K) (e : Int64)
    (hge : windowEndMicros cfg.unit g = some e) :
    rowsFor g (run (step cfg) (start cfg ck) (is ++ [(.marker .endOfData, x)])).out =
      if e = Int64.minValue then []
      else exactRow agg e (intake cfg none (is.map (·.1) ++ [.marker .endOfData])).rounds g := by
  have hr := restore_of_uncommitted (R := R) cfg ck hck
  have hends := emittedEnds_le_of_restore_eq hr
  have hc := chain_intake_flush cfg hfl none (is.map (·.1)) (map_ne_endOfData hev)
  rw [rowsFor_run_flush hm hfl hends is hev x g, hr]
  have hclosed : ((intake cfg none (is.map (·.1) ++ [.marker .endOfData])).rounds.any
      fun p => e ≤ p.emitWm) = true := by
    rw [intake_flush cfg hfl]
    simp [Intake.close, Int64.le_maxValue]
  have hmin : Int64.minValue < e ↔ ¬ e = Int64.minValue := by
    have := Int64.toInt_bounds e
    rw [← Int64.toInt_inj, Int64.lt_iff_toInt_lt, Int64.toInt_minValue_eq]
    omega
  show firedRows agg cfg [] Int64.minValue g
    (intake cfg none (is.map (·.1) ++ [.marker .endOfData])).rounds = _
  rw [firedRows_eq agg cfg hm hL [] Int64.minValue g e hge _ hc]
  unfold exactRow
  by_cases he : e = Int64.minValue
  · rw [if_neg fun h => hmin.mp h.1 he, if_pos he]
  · rw [if_neg he]
    by_cases hg : g ∈ keys
        (dueRows e (intake cfg none (is.map (·.1) ++ [.marker .endOfData])).rounds)
    · rw [if_pos ⟨hmin.mpr he, hclosed, .inr hg⟩, if_pos hg, List.nil_append]
    · rw [if_neg fun h => h.2.2.elim List.not_mem_nil hg, if_neg hg]

/-- **Exactness**: a fresh run ended by a flush emits for every group exactly the row over its due
rows, if and only if no accepted row has the least `i64` as its window end. -/
theorem append_exact_iff (cfg : Config) (hm : cfg.outputMode = .append)
    (hL : cfg.allowedLateness = 0) (hfl : flushes cfg = true) (ck : Store (List (Group K × M)))
    (hck : Uncommitted ck) (is : List (FlowEvent (Group K × V) × Exec K agg))
    (hev : ∀ i ∈ is, i.1 ≠ .marker .endOfData) (x : Exec K agg) :
    ((∀ g e, windowEndMicros cfg.unit g = some e →
        rowsFor g (run (step cfg) (start cfg ck) (is ++ [(.marker .endOfData, x)])).out =
          exactRow agg e (intake cfg none (is.map (·.1) ++ [.marker .endOfData])).rounds g) ↔
      ∀ r ∈ (intake cfg none (is.map (·.1) ++ [.marker .endOfData])).rounds, ∀ y ∈ r.rows,
        windowEndMicros cfg.unit y.1 ≠ some Int64.minValue) ∧
    ∀ (budget : Nat) (ck' : Store (List (Group K × M))), Uncommitted ck' →
      ∀ (is' : List (FlowEvent (Group K × V) × Exec K agg)) (x' : Exec K agg),
        is'.map (·.1) = is.map (·.1) → ∀ g e, windowEndMicros cfg.unit g = some e →
          rowsFor g (run (step { cfg with stateBudgetBytes := budget })
            (start { cfg with stateBudgetBytes := budget } ck')
            (is' ++ [(.marker .endOfData, x')])).out =
          rowsFor g (run (step cfg) (start cfg ck) (is ++ [(.marker .endOfData, x)])).out := by
  have hc := chain_intake_flush cfg hfl none (is.map (·.1)) (map_ne_endOfData hev)
  have hrow := rowsFor_run_exact cfg hm hL hfl ck hck is hev x
  refine ⟨⟨fun h r hr y hy hye => ?_, fun h g e hge => ?_⟩, ?_⟩
  · have hdue := mem_dueRows_minValue cfg hL _ hc (intake_aboveMin cfg _).2 r hr y hy hye
    have h1 := h y.1 _ hye
    rw [hrow y.1 _ hye, if_pos rfl, exactRow, if_pos (mem_keys_of_mem hdue)] at h1
    cases h1
  · rw [hrow g e hge]
    split
    · next he =>
      subst he
      rw [exactRow, if_neg]
      intro hmem
      obtain ⟨y, hy, rfl⟩ := List.mem_map.mp hmem
      obtain ⟨r, hr, hyr⟩ := mem_rounds_of_mem_dueRows _ _ y hy
      exact h r hr y hyr hge
    · rfl
  · intro budget ck' hck' is' x' hmap g e hge
    have hev' : ∀ i ∈ is', i.1 ≠ .marker .endOfData := by
      intro i hi
      have hmem : i.1 ∈ is.map (·.1) := hmap ▸ List.mem_map.mpr ⟨i, hi, rfl⟩
      obtain ⟨j, hj, hji⟩ := List.mem_map.mp hmem
      exact hji ▸ hev j hj
    have hstep : Intake.step (K := K) (V := V) { cfg with stateBudgetBytes := budget } =
        Intake.step cfg := by
      funext s ev
      rfl
    rw [hrow g e hge, rowsFor_run_exact { cfg with stateBudgetBytes := budget } hm hL hfl ck' hck'
      is' hev' x' g e hge, hmap]
    unfold intake
    rw [hstep]

end

/-! ## A spilling run -/

/-- Append mode without lateness, spilling every batch to the store, completed at the
end of data. -/
def spillCfg : Config where
  outputMode := .append
  allowedLateness := 0
  stateBudgetBytes := 0
  compactEnabled := false
  incCkpt := false
  completeOnEnd := true
  hasStore := true
  unit := .microsecond

/-- Rows of two windows around a watermark that closes the first. -/
def twoWindows : List (FlowEvent (Group Unit × Nat) × Exec Unit sumAgg) :=
  [(.data [(tenSeconds, 1), (⟨some 0, some 20000000, ()⟩, 2)] [false, false], Exec.plain Unit sumAgg),
    (.data [(tenSeconds, 3)] [false], Exec.plain Unit sumAgg),
    (.marker (.watermark "s" (seconds 10)), Exec.plain Unit sumAgg),
    (.data [(tenSeconds, 5), (⟨some 0, some 20000000, ()⟩, 4)] [false, false],
      Exec.plain Unit sumAgg)]

theorem uncommitted_empty {B : Type} : Uncommitted (Store.empty : Store B) := ⟨rfl, rfl⟩

theorem append_exact_twoWindows :
    spillCfg.outputMode = .append ∧ spillCfg.allowedLateness = 0 ∧ flushes spillCfg = true ∧
      Uncommitted (Store.empty : Store (List (Group Unit × Nat))) ∧
      (∀ i ∈ twoWindows, i.1 ≠ .marker .endOfData) ∧
      ∀ g e, windowEndMicros spillCfg.unit g = some e →
        rowsFor g (run (step spillCfg) (start spillCfg Store.empty)
          (twoWindows ++ [(.marker .endOfData, Exec.plain Unit sumAgg)])).out =
        exactRow sumAgg e
          (intake spillCfg none (twoWindows.map (·.1) ++ [.marker .endOfData])).rounds g :=
  ⟨rfl, rfl, rfl, uncommitted_empty, by decide, (append_exact_iff spillCfg rfl rfl rfl Store.empty
    uncommitted_empty twoWindows (by decide) (Exec.plain Unit sumAgg)).1.mpr (by decide)⟩

example : exactRow sumAgg 10000000
    (intake spillCfg none (twoWindows.map (·.1) ++ [.marker .endOfData])).rounds tenSeconds =
    [(tenSeconds, 4)] := by
  decide

/-- The window that ends at the least `i64`. -/
def leastWindow : Group Unit := ⟨none, some Int64.minValue, ()⟩

/-- A row of it is accepted, and its window never emitted. -/
theorem append_leastWindow_lost :
    ¬ ∀ g e, windowEndMicros spillCfg.unit g = some e →
      rowsFor g (run (step spillCfg) (start spillCfg Store.empty)
        [(.data [(leastWindow, 1)] [false], Exec.plain Unit sumAgg),
          (.marker .endOfData, Exec.plain Unit sumAgg)]).out =
      exactRow sumAgg e (intake spillCfg none
        [.data [(leastWindow, 1)] [false], .marker .endOfData]).rounds g := by
  intro h
  have h1 := h leastWindow Int64.minValue rfl
  revert h1
  decide

end Zelox.Window
