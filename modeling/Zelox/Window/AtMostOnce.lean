import Zelox.Window.Append

/-!
# At most one row per group

Without a store, an append-mode run emits a group at most once if and only if no
group is *refired* (`append_atMostOnce_iff`).  A refire needs a positive lateness:
the window has fired at a watermark that is less than the lateness past its end, a
late row of a fired group is accepted, and before the next finalize the watermark
jumps past the end plus the lateness.  The jump prunes the emitted end while the
fired floor is still below it.
-/

namespace Zelox.Window

open StateIo GroupFold Runs

variable {K V M R : Type}

/-! ## Refires -/

/-- The groups with a row accepted up to the first round that fires the window. -/
def fireGroups (cfg : Config) (e : Int64) : List (Round K V) → List (Group K)
  | [] => []
  | r :: past =>
    if marked cfg [] past e then fireGroups cfg e past else fireGroups cfg e past ++ keys r.rows

/-- A row of a group that fired is at hand again, and only now the watermark is past the window's
end by more than the lateness. -/
def Refires (cfg : Config) (past : List (Round K V)) (r : Round K V) (g : Group K) (e : Int64) :
    Prop :=
  marked cfg [] past e = true ∧ g ∈ fireGroups cfg e past ∧
    (r.wm.any fun v => e.saturatingAdd cfg.allowedLateness < v) = true ∧
    (past.head?.any fun p => p.emitWm.saturatingSub cfg.allowedLateness < e) = true

instance [DecidableEq K] (cfg : Config) (past : List (Round K V)) (r : Round K V) (g : Group K)
    (e : Int64) : Decidable (Refires cfg past r g e) :=
  inferInstanceAs (Decidable (_ ∧ _))

def RefireFree (cfg : Config) : List (Round K V) → Prop
  | [] => True
  | r :: past => RefireFree cfg past ∧
      ∀ x ∈ r.rows, ∀ e ∈ windowEndMicros cfg.unit x.1, ¬ Refires cfg past r x.1 e

instance RefireFree.decidable [DecidableEq K] (cfg : Config) :
    ∀ rounds : List (Round K V), Decidable (RefireFree cfg rounds)
  | [] => inferInstanceAs (Decidable True)
  | r :: past =>
    have := RefireFree.decidable cfg past
    -- by membership: an instance over all of `i64` would not evaluate
    have (x : Group K × V) :
        Decidable (∀ e ∈ windowEndMicros cfg.unit x.1, ¬ Refires cfg past r x.1 e) :=
      Option.decidableForallMem _
    inferInstanceAs (Decidable (RefireFree cfg past ∧
      ∀ x ∈ r.rows, ∀ e ∈ windowEndMicros cfg.unit x.1, ¬ Refires cfg past r x.1 e))

/-! ## Marks and the floor over rounds -/

/-- From a fresh start the floor is the last finalize's watermark less the lateness. -/
theorem floorAt_cons (cfg : Config) (p : Round K V) (past : List (Round K V))
    (hc : Chain cfg (p :: past)) :
    floorAt cfg Int64.minValue (p :: past) = p.emitWm.saturatingSub cfg.allowedLateness := by
  induction past generalizing p with
  | nil =>
    rw [floorAt, floorAt, ← Int64.toInt_inj, Int64.toInt_max, Int64.toInt_minValue_eq]
    have := Int64.toInt_bounds (p.emitWm.saturatingSub cfg.allowedLateness)
    omega
  | cons q past ih =>
    rw [floorAt, ih q hc.2.2, ← Int64.toInt_inj, Int64.toInt_max]
    have := Int64.saturatingSub_mono q.emitWm p.emitWm cfg.allowedLateness (hc.2.1 q rfl)
    rw [Int64.le_iff_toInt_le] at this
    omega

theorem marked_cons (cfg : Config) (r : Round K V) (past : List (Round K V))
    (hc : Chain cfg (r :: past)) (e : Int64) (h : marked cfg [] past e = true) :
    marked cfg [] (r :: past) e = true := by
  rw [marked_iff] at *
  obtain ⟨⟨p, hp, hpe⟩, g, hg, hge⟩ := h
  refine ⟨⟨r, rfl, ?_⟩, g, (mem_seen_cons _ _ _ _).mpr (.inl hg), hge⟩
  exact Int64.le_trans hpe (hc.2.1 p hp)

/-- A window that no round has fired yet: every group with a row of it will be. -/
theorem mem_fireGroups_of_not_marked (cfg : Config) (past : List (Round K V))
    (hc : Chain cfg past) (e : Int64) (hn : marked cfg [] past e = false) (g : Group K)
    (hg : g ∈ seen [] past) : g ∈ fireGroups cfg e past := by
  induction past with
  | nil => cases hg
  | cons r past ih =>
    have hn' : marked cfg [] past e = false := by
      rw [← Bool.not_eq_true] at *
      exact fun h => hn (marked_cons cfg r past hc e h)
    rw [fireGroups, hn', if_neg Bool.false_ne_true, List.mem_append]
    exact ((mem_seen_cons _ _ _ _).mp hg).imp (ih hc.2.2 hn') id

theorem seen_of_mem_fireGroups (cfg : Config) (e : Int64) (past : List (Round K V)) (g : Group K)
    (hg : g ∈ fireGroups cfg e past) : g ∈ seen [] past := by
  induction past with
  | nil => cases hg
  | cons r past ih =>
    rw [mem_seen_cons]
    rw [fireGroups] at hg
    split at hg
    · exact .inl (ih hg)
    · exact (List.mem_append.mp hg).imp ih id

section

variable [DecidableEq K] [AddCommMonoid M] (agg : Aggregate V M R)

section

variable (cfg : Config) (hm : cfg.outputMode = .append) (past : List (Round K V))
  (hc : Chain cfg past) (g : Group K)
include hm hc

theorem marked_of_fired (h : firedRows agg cfg [] Int64.minValue g past ≠ []) :
    ∃ e, windowEndMicros cfg.unit g = some e ∧ marked cfg [] past e = true := by
  induction past with
  | nil => exact absurd rfl h
  | cons r past ih =>
    rw [firedRows] at h
    split at h
    · next he =>
      obtain ⟨e, hge, hle, -, hg, -⟩ := he
      refine ⟨e, hge, (marked_iff _ _ _ _).mpr ⟨⟨r, rfl, hle⟩, g, ?_, hge⟩⟩
      rw [mem_seen_cons]
      exact ((mem_keys_at agg cfg hm [] past hc.2.2 _ g).mp hg).imp (fun h => h.1) id
    · rw [List.append_nil] at h
      obtain ⟨e, hge, hmk⟩ := ih hc.2.2 h
      exact ⟨e, hge, marked_cons cfg r past hc e hmk⟩

/-- An emitted group had a row when the window first fired, as long as the lateness
is not over. -/
theorem mem_fireGroups_of_fired (e : Int64) (hge : windowEndMicros cfg.unit g = some e)
    (hin : ∀ p ∈ past.head?, p.wm = some p.emitWm ∧ p.emitWm ≤ e.saturatingAdd cfg.allowedLateness)
    (h : firedRows agg cfg [] Int64.minValue g past ≠ []) : g ∈ fireGroups cfg e past := by
  induction past with
  | nil => exact absurd rfl h
  | cons p past ih =>
    obtain ⟨hpw, hple⟩ := hin p rfl
    rw [firedRows] at h
    split at h
    · next he =>
      obtain ⟨e', hge', -, -, hg, hn⟩ := he
      rw [hge] at hge'
      cases hge'
      have hn' : marked cfg [] past e = false := by
        rw [← Bool.not_eq_true]
        intro hmk
        refine hn ⟨hmk, ?_⟩
        rw [hpw]
        simpa using hple
      rw [fireGroups, hn', if_neg Bool.false_ne_true, List.mem_append]
      refine ((mem_keys_at agg cfg hm [] past hc.2.2 _ g).mp hg).imp (fun hg => ?_) id
      exact mem_fireGroups_of_not_marked cfg past hc.2.2 e hn' g hg.1
    · rw [List.append_nil] at h
      obtain ⟨e', hge', hmk⟩ := marked_of_fired agg cfg hm past hc.2.2 g h
      rw [hge] at hge'
      cases hge'
      rw [fireGroups, hmk, if_pos rfl]
      exact ih hc.2.2 (fun q hq => ⟨(hc.1 q hq).1, Int64.le_trans (hc.2.1 q hq) hple⟩) h

/-- A group with a row when the window first fired has been emitted. -/
theorem fired_of_mem_fireGroups (e : Int64) (hge : windowEndMicros cfg.unit g = some e)
    (hmk : marked cfg [] past e = true) (hg : g ∈ fireGroups cfg e past)
    (hfl : floorAt cfg Int64.minValue past < e) :
    firedRows agg cfg [] Int64.minValue g past ≠ [] := by
  induction past with
  | nil => cases hg
  | cons p past ih =>
    have hfl' : floorAt cfg Int64.minValue past < e :=
      Int64.lt_of_le_of_lt (Int64.le_max_left _ _) hfl
    rw [firedRows]
    cases hmk' : marked cfg [] past e with
    | true =>
      rw [fireGroups, hmk', if_pos rfl] at hg
      exact List.append_ne_nil_of_left_ne_nil (ih hc.2.2 hmk' hg hfl') _
    | false =>
      rw [fireGroups, hmk', if_neg Bool.false_ne_true, List.mem_append] at hg
      obtain ⟨⟨p', hp', hle⟩, -⟩ := (marked_iff _ _ _ _).mp hmk
      cases hp'
      have hem : Emits agg cfg [] Int64.minValue past p g := by
        refine ⟨e, hge, hle, hfl', ?_, fun h => ?_⟩
        · rw [mem_keys_at agg cfg hm [] past hc.2.2 _ g]
          refine hg.imp (fun hg => ?_) id
          have hseen := seen_of_mem_fireGroups cfg e past g hg
          refine ⟨hseen, fun q hq => ?_⟩
          rw [← Bool.not_eq_true, marked_iff] at hmk'
          exact (openAt_iff hge).mpr fun hle => hmk' ⟨⟨q, hq, hle⟩, g, hseen, hge⟩
        · exact Bool.false_ne_true (hmk'.symm.trans h.1)
      rw [if_pos hem]
      exact List.append_ne_nil_of_right_ne_nil _ (List.cons_ne_nil _ _)

end

omit [DecidableEq K] in
theorem any_head_lt_iff (cfg : Config) {past : List (Round K V)} (hc : Chain cfg past)
    (hne : past ≠ []) (e : Int64) :
    (past.head?.any fun p => p.emitWm.saturatingSub cfg.allowedLateness < e) = true ↔
      floorAt cfg Int64.minValue past < e := by
  cases past with
  | nil => exact absurd rfl hne
  | cons p past =>
    rw [floorAt_cons cfg p past hc]
    simp

section

variable (cfg : Config) (hm : cfg.outputMode = .append) {r : Round K V} {past : List (Round K V)}
  (hc : Chain cfg (r :: past))
include hm hc

theorem emits_of_refires {x : Group K × V} (hx : x ∈ r.rows)
    {e : Int64} (he : windowEndMicros cfg.unit x.1 = some e) (hre : Refires cfg past r x.1 e) :
    Emits agg cfg [] Int64.minValue past r x.1 ∧
      firedRows agg cfg [] Int64.minValue x.1 past ≠ [] := by
  obtain ⟨hmk, hfg, hany, hfl⟩ := hre
  have hne : past ≠ [] := by
    rintro rfl
    cases hfl
  have hfloor := (any_head_lt_iff cfg hc.2.2 hne e).mp hfl
  refine ⟨⟨e, he, ?_, hfloor, ?_, ?_⟩,
    fired_of_mem_fireGroups agg cfg hm past hc.2.2 x.1 e he hmk hfg hfloor⟩
  · obtain ⟨⟨p, hp, hle⟩, -⟩ := (marked_iff _ _ _ _).mp hmk
    exact Int64.le_trans hle (hc.2.1 p hp)
  · rw [mem_keys_at agg cfg hm [] _ hc.2.2]
    exact .inr (List.mem_map.mpr ⟨x, hx, rfl⟩)
  · intro hall
    exact (any_lt_iff_not_all_le _ _).mp hany hall.2

theorem refires_of_emits {g : Group K}
    (hem : Emits agg cfg [] Int64.minValue past r g)
    (hf : firedRows agg cfg [] Int64.minValue g past ≠ []) :
    ∃ x ∈ r.rows, ∃ e ∈ windowEndMicros cfg.unit x.1, Refires cfg past r x.1 e := by
  obtain ⟨e, hge, -, hfl, hk, hn⟩ := hem
  obtain ⟨e', hge', hmk⟩ := marked_of_fired agg cfg hm past hc.2.2 g hf
  rw [hge] at hge'
  cases hge'
  obtain ⟨⟨p, hp, hle⟩, -⟩ := (marked_iff _ _ _ _).mp hmk
  -- the window is closed, so the group is there through a new row
  rcases (mem_keys_at agg cfg hm [] past hc.2.2 _ g).mp hk with hk | hk
  · exact absurd hle ((openAt_iff hge).mp (hk.2 p hp))
  · obtain ⟨x, hx, rfl⟩ := List.mem_map.mp hk
    obtain ⟨hpw, -, hrows⟩ := hc.1 p hp
    have hne : past ≠ [] := by
      rintro rfl
      cases hp
    refine ⟨x, hx, e, hge, hmk, ?_, ?_, (any_head_lt_iff cfg hc.2.2 hne e).mpr hfl⟩
    · refine mem_fireGroups_of_fired agg cfg hm past hc.2.2 x.1 e hge (fun q hq => ?_) hf
      rw [Option.mem_def.mp hp] at hq
      cases hq
      exact ⟨hpw, hrows x hx e hge⟩
    · rw [any_lt_iff_not_all_le]
      exact fun hall => hn ⟨hmk, hall⟩

end

/-- Over rounds in order: one row per group at most, if and only if nothing refires. -/
theorem fired_length_le_iff (cfg : Config) (hm : cfg.outputMode = .append)
    (rounds : List (Round K V)) (hc : Chain cfg rounds) :
    (∀ g, (firedRows agg cfg [] Int64.minValue g rounds).length ≤ 1) ↔ RefireFree cfg rounds := by
  induction rounds with
  | nil => exact ⟨fun _ => trivial, fun _ g => Nat.zero_le 1⟩
  | cons r past ih =>
    rw [RefireFree, ← ih hc.2.2]
    constructor
    · intro h
      refine ⟨fun g => ?_, fun x hx e he hre => ?_⟩
      · have := h g
        rw [firedRows, List.length_append] at this
        omega
      · obtain ⟨hem, hf⟩ := emits_of_refires agg cfg hm hc hx he hre
        have hlen := h x.1
        rw [firedRows, if_pos hem, List.length_append, List.length_singleton] at hlen
        have := List.length_pos_iff.mpr hf
        omega
    · rintro ⟨h, hre⟩ g
      rw [firedRows, List.length_append]
      split
      · next hem =>
        by_cases hf : firedRows agg cfg [] Int64.minValue g past = []
        · rw [hf]
          exact Nat.le_refl 1
        · obtain ⟨x, hx, e, he, hr⟩ := refires_of_emits agg cfg hm hc hem hf
          exact absurd hr (hre x hx e he)
      · simpa using h g

/-! ## The operator -/

variable {agg}

variable [DecidableEq R]

/-- **At most once**: a run ended by `EndOfData` emits every group in at most one row if and only if
it refires none. -/
theorem append_atMostOnce_iff (cfg : Config) (hm : cfg.outputMode = .append)
    (hs : cfg.hasStore = false) (ck : Store (List (Group K × M)))
    (is : List (FlowEvent (Group K × V) × Exec K agg))
    (hev : ∀ i ∈ is, i.1 ≠ .marker .endOfData) (x : Exec K agg) :
    (∀ g, (rowsFor g (run (step cfg) (start cfg ck)
        (is ++ [(.marker .endOfData, x)])).out).length ≤ 1) ↔
      RefireFree cfg (intake cfg none (is.map (·.1) ++ [.marker .endOfData])).rounds := by
  have hr := restore_of_noStore (R := R) cfg hs ck
  have hfl : flushes cfg = true := by unfold flushes; rw [hs]; rfl
  have hends := emittedEnds_le_of_restore_eq hr
  have hc := chain_intake_flush cfg hfl none (is.map (·.1)) (map_ne_endOfData hev)
  rw [← fired_length_le_iff agg cfg hm _ hc]
  refine forall_congr' fun g => ?_
  rw [rowsFor_run_flush hm hfl hends is hev x g, hr]
  exact Iff.rfl

end

/-! ## A late row -/

/-- Values summed per group. -/
def sumAgg : Aggregate Nat Nat Nat := ⟨id, id⟩

/-- Append mode without a store, one second of lateness. -/
def lateCfg : Config where
  outputMode := .append
  allowedLateness := 1000000
  stateBudgetBytes := 1000
  compactEnabled := true
  incCkpt := false
  completeOnEnd := false
  hasStore := false
  unit := .microsecond

/-- A time in seconds. -/
def seconds (n : UInt8) : DateTime :=
  have := n.toNat_lt
  ⟨n.toNat * 1000000000, by unfold minUtcSecs; omega, by unfold maxUtcSecs; omega⟩

/-- The window from 0 s to 10 s. -/
def tenSeconds : Group Unit := ⟨some 0, some 10000000, ()⟩

/-- A row, a watermark that fires its window, a late row of the same group, and a watermark at `n`
s. -/
def lateRow (n : UInt8) : List (FlowEvent (Group Unit × Nat) × Exec Unit sumAgg) :=
  [(.data [(tenSeconds, 1)] [false], Exec.plain Unit sumAgg),
    (.marker (.watermark "s" (seconds 10)), Exec.plain Unit sumAgg),
    (.data [(tenSeconds, 5)] [false], Exec.plain Unit sumAgg),
    (.marker (.watermark "s" (seconds n)), Exec.plain Unit sumAgg)]

/-- At a watermark within the lateness the late row's window is still marked. -/
theorem append_atMostOnce_lateRow :
    lateCfg.outputMode = .append ∧ lateCfg.hasStore = false ∧
      (∀ i ∈ lateRow 11, i.1 ≠ .marker .endOfData) ∧
      RefireFree lateCfg (intake lateCfg none ((lateRow 11).map (·.1) ++ [.marker .endOfData])).rounds ∧
      ∀ g, (rowsFor g (run (step lateCfg) (start lateCfg Store.empty)
        (lateRow 11 ++ [(.marker .endOfData, Exec.plain Unit sumAgg)])).out).length ≤ 1 :=
  ⟨rfl, rfl, by decide, by decide, (append_atMostOnce_iff lateCfg rfl rfl Store.empty (lateRow 11)
    (by decide) (Exec.plain Unit sumAgg)).mpr (by decide)⟩

/-- A watermark jump to 20 s prunes the mark: the window fires a second time. -/
theorem append_lateRow_refired :
    ¬ ∀ g, (rowsFor g (run (step lateCfg) (start lateCfg Store.empty)
      (lateRow 20 ++ [(.marker .endOfData, Exec.plain Unit sumAgg)])).out).length ≤ 1 := by
  intro h
  have h1 := h tenSeconds
  revert h1
  decide

end Zelox.Window
