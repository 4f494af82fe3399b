import Zelox.Event
import Zelox.Lib.Runs

/-!
# Inserting watermarks

`WatermarkExec`, the path without a partition column: the operator passes on what it reads, keeps
the greatest event time and inserts it, less the delay, as a watermark: once per interval at most
while data is read, and regardless before an `Idle` or `EndOfData` marker.

For a column of microseconds whose event times less the delay are dates that chrono can hold,
nothing is stranded (`conforms_run`).  Event times of another unit are not read at all
(`milliseconds_strand`), and the difference is not checked: an event time that is too small for
the delay gives a watermark above all others, which is not inserted but is remembered
(`underflow_strands`).

An instant is a number, and each item comes with the instant at which it is read.
-/

namespace Zelox.Streaming

open Runs List Option

variable {A : Type}

/-- The columns of a row: the event time, which may be null, and the others. -/
abbrev TimedRow (A : Type) := Option Int64 × A

/-- What is read from the input: an event, or an error. -/
abbrev InputItem (A : Type) := Except String (FlowEvent (TimedRow A))

/-- `unit` is that of the event-time column, if the schema has the column as a timestamp. -/
structure WatermarkConfig where
  unit : Option TimeUnit
  delay : Int64
  interval : Nat
deriving DecidableEq

/-- An item of the input, or a watermark marker of the operator's own. -/
inductive Emitted (A : Type) where
  | passed (item : InputItem A)
  | inserted (timestamp : DateTime)

namespace Emitted

def passed? : Emitted A → Option (InputItem A)
  | .passed item => some item
  | .inserted _ => none

def inserted? : Emitted A → Option DateTime
  | .passed _ => none
  | .inserted timestamp => some timestamp

end Emitted

structure WatermarkState (A : Type) where
  maxTs : Option Int64 := none
  lastWm : Option Int64 := none
  lastEmit : Option Nat := none
  out : List (Emitted A) := []

/-- The status transitions before which the current watermark is flushed. -/
def isStatusTransition : FlowMarker → Bool
  | .idle _ => true
  | .endOfData => true
  | .latencyTracker _ _ _ => false
  | .watermark _ _ => false
  | .checkpoint _ => false

namespace WatermarkExec

variable (cfg : WatermarkConfig)

/-- The greatest event time after a batch; only columns of microseconds are read. -/
def observe (batch : List (TimedRow A)) (maxTs : Option Int64) : Option Int64 :=
  if cfg.unit = some .microsecond then
    (batch.filterMap (·.1)).foldl (fun m e => some (m.elim e (max · e))) maxTs
  else maxTs

/-- Inserts the current watermark if it is ahead of the last one. -/
def advance (now : Nat) (s : WatermarkState A) : WatermarkState A :=
  match s.maxTs with
  | none => s
  | some m =>
    let wm := m - cfg.delay
    if s.lastWm.all (· < wm) then
      { s with
        lastWm := some wm
        lastEmit := some now
        out := s.out ++ ((DateTime.fromTimestampMicros wm).map Emitted.inserted).toList }
    else s

def pass (item : InputItem A) (s : WatermarkState A) : WatermarkState A :=
  { s with out := s.out ++ [.passed item] }

/-- The interval since the last watermark is over. -/
def due (now : Nat) (s : WatermarkState A) : Bool :=
  s.lastEmit.all fun le => cfg.interval ≤ now - le

/-- One item of the input, read at the instant `now`. -/
def step (s : WatermarkState A) (i : InputItem A × Nat) : WatermarkState A :=
  match i.1 with
  | .error e => pass (.error e) s
  | .ok (.data batch retracted) =>
    let s := pass (.ok (.data batch retracted)) { s with maxTs := observe cfg batch s.maxTs }
    if due cfg i.2 s then advance cfg i.2 s else s
  | .ok (.marker m) =>
    pass (.ok (.marker m)) (if isStatusTransition m then advance cfg i.2 s else s)

/-! ## What the output should be -/

/-- The event times of an item, in microseconds. -/
def itemTimes : InputItem A → List Int
  | .ok (.data batch _) => batch.filterMap fun row =>
      cfg.unit.bind fun unit => row.1.map fun raw => (readMicros unit raw).toInt
  | .ok (.marker _) => []
  | .error _ => []

/-- The event times of what has been passed on. -/
def eventTimes (out : List (Emitted A)) : List Int :=
  (out.filterMap Emitted.passed?).flatMap (itemTimes cfg)

def IsMaximum (times : List Int) (m : Int) : Prop := m ∈ times ∧ ∀ t ∈ times, t ≤ m

instance (times : List Int) (m : Int) : Decidable (IsMaximum times m) :=
  inferInstanceAs (Decidable (_ ∧ _))

/-- The output is the input with increasing watermarks inserted, none above the greatest event time
less the delay, and exactly that before a status transition. -/
structure Conforms (input : List (InputItem A)) (out : List (Emitted A)) : Prop where
  passed : out.filterMap Emitted.passed? = input
  increasing : (out.filterMap Emitted.inserted?).Pairwise fun t u => t.nanos < u.nanos
  bounded : ∀ pre t post, out = pre ++ .inserted t :: post →
    ∃ m, IsMaximum (eventTimes cfg pre) m ∧ t.nanos ≤ (m - cfg.delay.toInt) * 1000
  flushed : ∀ pre marker post, out = pre ++ .passed (.ok (.marker marker)) :: post →
    isStatusTransition marker = true → ∀ m, IsMaximum (eventTimes cfg pre) m →
      ∃ t, (pre.filterMap Emitted.inserted?).getLast? = some t ∧
        t.nanos = (m - cfg.delay.toInt) * 1000

/-- The event time less the delay is a date that chrono can hold. -/
def Representable (t : Int) : Prop :=
  minUtcSecs * 1000000 ≤ t - cfg.delay.toInt ∧ t - cfg.delay.toInt < (maxUtcSecs + 1) * 1000000

instance (t : Int) : Decidable (Representable cfg t) := inferInstanceAs (Decidable (_ ∧ _))

/-! ## The greatest event time -/

/-- What the operator keeps of the event times that it has seen. -/
def Tracks (maxTs : Option Int64) (times : List Int) : Prop :=
  match maxTs with
  | none => times = []
  | some m => IsMaximum times m.toInt

variable {cfg}

theorem IsMaximum.unique {times : List Int} {m m' : Int} (h : IsMaximum times m)
    (h' : IsMaximum times m') : m = m' := Int.le_antisymm (h'.2 m h.1) (h.2 m' h'.1)

theorem tracks_foldl (column : List Int64) {maxTs : Option Int64} {times : List Int}
    (h : Tracks maxTs times) :
    Tracks (column.foldl (fun m e => some (m.elim e (max · e))) maxTs)
      (times ++ column.map (·.toInt)) := by
  induction column generalizing maxTs times with
  | nil =>
    rw [map_nil, append_nil]
    exact h
  | cons e column ih =>
    have hnext : Tracks (some (maxTs.elim e (max · e))) (times ++ [e.toInt]) := by
      cases maxTs with
      | none =>
        obtain rfl : times = [] := h
        exact ⟨mem_singleton_self _, fun t ht => Int.le_of_eq (mem_singleton.mp ht)⟩
      | some m =>
        obtain ⟨hmem, hmax⟩ : IsMaximum times m.toInt := h
        show IsMaximum (times ++ [e.toInt]) (max m e).toInt
        rw [Int64.toInt_max]
        constructor
        · by_cases hle : m.toInt ≤ e.toInt
          · rw [Int.max_eq_right hle]
            exact mem_append_right _ (mem_singleton_self _)
          · rw [Int.max_eq_left (by omega)]
            exact mem_append_left _ hmem
        · refine Lists.forall_mem_concat.mpr ⟨fun t ht => ?_, by omega⟩
          have := hmax t ht
          omega
    have := ih hnext
    rw [append_assoc] at this
    exact this

theorem tracks_observe (hunit : ∀ unit ∈ cfg.unit, unit = .microsecond)
    {batch : List (TimedRow A)} (retracted : List Bool) {maxTs : Option Int64} {times : List Int}
    (h : Tracks maxTs times) :
    Tracks (observe cfg batch maxTs) (times ++ itemTimes cfg (.ok (.data batch retracted))) := by
  unfold observe
  show Tracks _ (times ++ batch.filterMap fun row => cfg.unit.bind fun unit =>
    row.1.map fun raw => (readMicros unit raw).toInt)
  cases hu : cfg.unit with
  | none =>
    have hnone : (batch.filterMap fun row : TimedRow A => (none : Option TimeUnit).bind
        fun unit => row.1.map fun raw => (readMicros unit raw).toInt) = [] :=
      filterMap_eq_nil_iff.mpr fun row _ => rfl
    rw [hnone, append_nil, if_neg nofun]
    exact h
  | some unit =>
    obtain rfl := hunit unit hu
    have htimes : (batch.filterMap fun row : TimedRow A => (some TimeUnit.microsecond).bind
        fun unit => row.1.map fun raw => (readMicros unit raw).toInt) =
          (batch.filterMap (·.1)).map (·.toInt) := by
      rw [map_filterMap]
      rfl
    rw [htimes, if_pos rfl]
    exact tracks_foldl _ h

/-! ## One step -/

theorem eventTimes_concat (out : List (Emitted A)) (e : Emitted A) :
    eventTimes cfg (out ++ [e]) = eventTimes cfg out ++ e.passed?.toList.flatMap (itemTimes cfg) := by
  unfold eventTimes
  rw [filterMap_append, flatMap_append]
  cases e with
  | passed item => rfl
  | inserted t => rfl

theorem inserted_concat_passed (out : List (Emitted A)) (item : InputItem A) :
    (out ++ [Emitted.passed item]).filterMap Emitted.inserted? = out.filterMap Emitted.inserted? := by
  rw [filterMap_append]
  exact append_nil _

/-- Between two items: the state keeps the greatest event time and the last watermark, which does
not run ahead. -/
structure Inv (cfg : WatermarkConfig) (input : List (InputItem A)) (s : WatermarkState A) : Prop
    where
  conforms : Conforms cfg input s.out
  max : Tracks s.maxTs (eventTimes cfg s.out)
  range : ∀ t ∈ eventTimes cfg s.out, Representable cfg t
  last : (s.out.filterMap Emitted.inserted?).getLast?.map (·.nanos) =
    s.lastWm.map fun w => w.toInt * 1000
  above : ∀ t ∈ s.out.filterMap Emitted.inserted?, ∃ w ∈ s.lastWm, t.nanos ≤ w.toInt * 1000
  behind : ∀ w ∈ s.lastWm, ∃ m ∈ s.maxTs, w.toInt ≤ m.toInt - cfg.delay.toInt

theorem inv_init : Inv cfg [] ({} : WatermarkState A) where
  conforms := by
    refine ⟨rfl, List.Pairwise.nil, ?_, ?_⟩
    · intro pre t post h
      exact absurd h.symm (by simp)
    · intro pre marker post h
      exact absurd h.symm (by simp)
  max := rfl
  range := by simp [eventTimes]
  last := rfl
  above := by simp
  behind := by simp

theorem toInt_sub_delay {m : Int64} (h : Representable cfg m.toInt) :
    (m - cfg.delay).toInt = m.toInt - cfg.delay.toInt := by
  obtain ⟨h1, h2⟩ := h
  unfold minUtcSecs at h1
  unfold maxUtcSecs at h2
  rw [Int64.toInt_sub]
  exact Int.bmod_eq_of_le (by omega) (by omega)

theorem fromTimestampMicros_sub_delay {m : Int64} (h : Representable cfg m.toInt) :
    ∃ t, DateTime.fromTimestampMicros (m - cfg.delay) = some t ∧
      t.nanos = (m.toInt - cfg.delay.toInt) * 1000 := by
  have hsub := toInt_sub_delay h
  obtain ⟨h1, h2⟩ := h
  have hrange : minUtcSecs * 1000000000 ≤ (m - cfg.delay).toInt * 1000 ∧
      (m - cfg.delay).toInt * 1000 < (maxUtcSecs + 1) * 1000000000 := by
    omega
  refine ⟨_, dif_pos hrange, ?_⟩
  show (m - cfg.delay).toInt * 1000 = _
  rw [hsub]

/-- A watermark is inserted: it is above the last one, and at most what is allowed. -/
theorem Conforms.insert {input : List (InputItem A)} {out : List (Emitted A)} {t : DateTime}
    {m : Int} (h : Conforms cfg input out) (hmax : IsMaximum (eventTimes cfg out) m)
    (hle : t.nanos ≤ (m - cfg.delay.toInt) * 1000)
    (hnew : ∀ u ∈ out.filterMap Emitted.inserted?, u.nanos < t.nanos) :
    Conforms cfg input (out ++ [.inserted t]) where
  passed := by
    rw [filterMap_append, h.passed]
    exact append_nil _
  increasing := by
    rw [filterMap_append]
    exact Lists.pairwise_concat.mpr ⟨h.increasing, hnew⟩
  bounded pre u post heq := by
    rcases Lists.concat_eq_append_cons heq with ⟨rfl, hu, -⟩ | ⟨post', hout, -⟩
    · cases hu
      exact ⟨m, hmax, hle⟩
    · exact h.bounded pre u post' hout
  flushed pre marker post heq := by
    rcases Lists.concat_eq_append_cons heq with ⟨-, hu, -⟩ | ⟨post', hout, -⟩
    · cases hu
    · exact h.flushed pre marker post' hout

/-- The last watermark is the greatest event time less the delay, if there is one. -/
def Flushed (cfg : WatermarkConfig) (out : List (Emitted A)) : Prop :=
  ∀ m, IsMaximum (eventTimes cfg out) m →
    ∃ t, (out.filterMap Emitted.inserted?).getLast? = some t ∧
      t.nanos = (m - cfg.delay.toInt) * 1000

/-- An item is passed on; before a status transition the last watermark is the current one. -/
theorem Conforms.pass {input : List (InputItem A)} {out : List (Emitted A)} {item : InputItem A}
    (h : Conforms cfg input out)
    (hflush : ∀ marker, item = .ok (.marker marker) → isStatusTransition marker = true →
      Flushed cfg out) :
    Conforms cfg (input ++ [item]) (out ++ [.passed item]) where
  passed := by
    rw [filterMap_append, h.passed]
    rfl
  increasing := by
    rw [inserted_concat_passed]
    exact h.increasing
  bounded pre u post heq := by
    rcases Lists.concat_eq_append_cons heq with ⟨-, hu, -⟩ | ⟨post', hout, -⟩
    · cases hu
    · exact h.bounded pre u post' hout
  flushed pre marker post heq := by
    rcases Lists.concat_eq_append_cons heq with ⟨rfl, hu, -⟩ | ⟨post', hout, -⟩
    · cases hu
      exact hflush marker rfl
    · exact h.flushed pre marker post' hout

section

variable {input : List (InputItem A)} {s : WatermarkState A} (h : Inv cfg input s)
include h

/-- The current watermark, if it is ahead, is inserted; afterwards it is the last one. -/
theorem Inv.advance (now : Nat) : Inv cfg input (advance cfg now s) ∧
    Flushed cfg (WatermarkExec.advance cfg now s).out := by
  have hmax := h.max
  cases hm : s.maxTs with
  | none =>
    -- no event time has been seen
    have hsame : WatermarkExec.advance cfg now s = s := by
      unfold WatermarkExec.advance
      rw [hm]
    rw [hm] at hmax
    rw [hsame]
    refine ⟨h, fun m hm => ?_⟩
    rw [show eventTimes cfg s.out = [] from hmax] at hm
    cases hm.1
  | some m =>
    rw [hm] at hmax
    have hrange := h.range _ hmax.1
    have hsub := toInt_sub_delay hrange
    obtain ⟨t, ht, hnanos⟩ := fromTimestampMicros_sub_delay hrange
    by_cases hahead : s.lastWm.all (· < m - cfg.delay) = true
    · have hnew : WatermarkExec.advance cfg now s =
          { s with
            lastWm := some (m - cfg.delay)
            lastEmit := some now
            out := s.out ++ [.inserted t] } := by
        unfold WatermarkExec.advance
        rw [hm]
        simp only [hahead, if_true, ht, map_some, toList_some]
      have htimes : eventTimes cfg (s.out ++ [.inserted t]) = eventTimes cfg s.out := by
        rw [eventTimes_concat]
        exact append_nil _
      have hlast : ((s.out ++ [Emitted.inserted t]).filterMap Emitted.inserted?).getLast? = some t := by
        rw [filterMap_append]
        exact getLast?_concat
      -- all earlier watermarks are at most the last one, which is below the new one
      have hbelow : ∀ u ∈ s.out.filterMap Emitted.inserted?, u.nanos < t.nanos := by
        intro u hu
        obtain ⟨w, hw, hle⟩ := h.above u hu
        rw [mem_def.mp hw] at hahead
        have hlt : w < m - cfg.delay := of_decide_eq_true hahead
        rw [Int64.lt_iff_toInt_lt, hsub] at hlt
        omega
      rw [hnew]
      refine ⟨⟨h.conforms.insert hmax (Int.le_of_eq hnanos) hbelow, ?_, ?_, ?_, ?_, ?_⟩, ?_⟩
      · rw [htimes, hm]
        exact hmax
      · rw [htimes]
        exact h.range
      · rw [hlast, map_some, map_some, hnanos, hsub]
      · intro u hu
        rw [filterMap_append] at hu
        refine ⟨m - cfg.delay, rfl, ?_⟩
        rw [hsub]
        rcases mem_append.mp hu with hu | hu
        · have := hbelow u hu
          omega
        · obtain rfl : u = t := mem_singleton.mp hu
          exact Int.le_of_eq hnanos
      · intro w hw
        obtain rfl : m - cfg.delay = w := some.inj hw
        exact ⟨m, hm, Int.le_of_eq hsub⟩
      · intro m' hmax'
        rw [htimes] at hmax'
        rw [hmax'.unique hmax]
        exact ⟨t, hlast, hnanos⟩
    · -- the last watermark is not behind, so it is the current one
      have hsame : WatermarkExec.advance cfg now s = s := by
        unfold WatermarkExec.advance
        rw [hm]
        simp only [hahead, Bool.false_eq_true, if_false]
      rw [hsame]
      refine ⟨h, fun m' hmax' => ?_⟩
      rw [hmax'.unique hmax]
      cases hw : s.lastWm with
      | none =>
        rw [hw] at hahead
        exact absurd rfl hahead
      | some w =>
        obtain ⟨m'', hm'', hle⟩ := h.behind w hw
        obtain rfl : m = m'' := some.inj (hm.symm.trans hm'')
        have hge : ¬ w < m - cfg.delay := by
          intro hlt
          rw [hw] at hahead
          exact hahead (decide_eq_true hlt)
        rw [Int64.lt_iff_toInt_lt, hsub] at hge
        have hlast := h.last
        rw [hw, map_some] at hlast
        obtain ⟨t', ht', hn⟩ := map_eq_some_iff.mp hlast
        exact ⟨t', ht', by omega⟩

/-- An item is passed on, with the greatest event time up to it. -/
theorem Inv.pass {item : InputItem A} {maxTs : Option Int64}
    (hmax : Tracks maxTs (eventTimes cfg s.out ++ itemTimes cfg item))
    (hrange : ∀ t ∈ itemTimes cfg item, Representable cfg t)
    (hflush : ∀ marker, item = .ok (.marker marker) → isStatusTransition marker = true →
      Flushed cfg s.out) :
    Inv cfg (input ++ [item]) (pass item { s with maxTs }) := by
  have htimes : eventTimes cfg (s.out ++ [.passed item]) =
      eventTimes cfg s.out ++ itemTimes cfg item := by
    rw [eventTimes_concat]
    show _ ++ ([item].flatMap (itemTimes cfg)) = _
    rw [flatMap_singleton]
  refine ⟨h.conforms.pass hflush, ?_, ?_, ?_, ?_, ?_⟩
  · show Tracks maxTs (eventTimes cfg (s.out ++ [.passed item]))
    rw [htimes]
    exact hmax
  · show ∀ t ∈ eventTimes cfg (s.out ++ [.passed item]), _
    rw [htimes]
    exact fun t ht => (mem_append.mp ht).elim (h.range t) (hrange t)
  · show ((s.out ++ [Emitted.passed item]).filterMap Emitted.inserted?).getLast?.map _ = _
    rw [inserted_concat_passed]
    exact h.last
  · show ∀ t ∈ (s.out ++ [Emitted.passed item]).filterMap Emitted.inserted?, _
    rw [inserted_concat_passed]
    exact h.above
  · -- the greatest event time does not get smaller
    intro w hw
    obtain ⟨m, hm, hle⟩ := h.behind w hw
    have hold := h.max
    rw [mem_def.mp hm] at hold
    have hmem := mem_append_left (itemTimes cfg item) (show m.toInt ∈ _ from hold.1)
    cases maxTs with
    | none =>
      rw [show _ ++ _ = [] from hmax] at hmem
      cases hmem
    | some m' =>
      have := hmax.2 m.toInt hmem
      exact ⟨m', rfl, by omega⟩

theorem Inv.pass_untimed {item : InputItem A} (hno : itemTimes cfg item = [])
    (hflush : ∀ marker, item = .ok (.marker marker) → isStatusTransition marker = true →
      Flushed cfg s.out) :
    Inv cfg (input ++ [item]) (WatermarkExec.pass item s) := by
  have hmax : Tracks s.maxTs (eventTimes cfg s.out ++ itemTimes cfg item) := by
    rw [hno, append_nil]
    exact h.max
  refine h.pass hmax (fun t ht => ?_) hflush
  rw [hno] at ht
  cases ht

theorem inv_step (hunit : ∀ unit ∈ cfg.unit, unit = .microsecond) (i : InputItem A × Nat)
    (hrange : ∀ t ∈ itemTimes cfg i.1, Representable cfg t) :
    Inv cfg (input ++ [i.1]) (step cfg s i) := by
  obtain ⟨item, now⟩ := i
  cases item with
  | error e =>
    refine h.pass_untimed rfl fun marker heq => ?_
    cases heq
  | ok event =>
    cases event with
    | data batch retracted =>
      have hdata := h.pass (tracks_observe hunit retracted h.max) hrange
        fun _ heq => by cases heq
      show Inv cfg _ (if due cfg now _ = true then _ else _)
      split
      · exact (hdata.advance now).1
      · exact hdata
    | marker m =>
      unfold step
      show Inv cfg _ (WatermarkExec.pass _ (if isStatusTransition m = true then _ else _))
      split
      next htrans =>
        obtain ⟨hadv, hlast⟩ := h.advance now
        exact hadv.pass_untimed rfl fun _ _ _ => hlast
      next htrans =>
        refine h.pass_untimed rfl fun marker heq hmarker => ?_
        cases heq
        exact absurd hmarker htrans

end

theorem inv_run (hunit : ∀ unit ∈ cfg.unit, unit = .microsecond)
    (items : List (InputItem A × Nat))
    (hrange : ∀ i ∈ items, ∀ t ∈ itemTimes cfg i.1, Representable cfg t)
    {input : List (InputItem A)} {s : WatermarkState A} (h : Inv cfg input s) :
    Inv cfg (input ++ items.map (·.1)) (run (step cfg) s items) := by
  induction items generalizing input s with
  | nil =>
    rw [map_nil, append_nil]
    exact h
  | cons i items ih =>
    have hstep := inv_step h hunit i (hrange i mem_cons_self)
    have := ih (fun j hj => hrange j (mem_cons_of_mem i hj)) hstep
    rw [append_assoc] at this
    exact this

/-- If the event times are microseconds that less the delay are dates, the output conforms. -/
theorem conforms_run (cfg : WatermarkConfig) (hunit : ∀ unit ∈ cfg.unit, unit = .microsecond)
    (items : List (InputItem A × Nat))
    (hrange : ∀ i ∈ items, ∀ t ∈ itemTimes cfg i.1, Representable cfg t) :
    Conforms cfg (items.map (·.1)) (run (step cfg) {} items).out :=
  (inv_run hunit items hrange inv_init).conforms

/-- A column of the given unit, the given delay, and an interval of 1000. -/
def plainConfig (unit : TimeUnit) (delay : Int64) : WatermarkConfig := ⟨some unit, delay, 1000⟩

/-- One row in a batch of its own. -/
def oneRow (raw : Int64) : InputItem Unit := .ok (.data [(some raw, ())] [false])

/-- The second event time is read within the interval, and flushed before the source goes idle. -/
theorem conforms_flush :
    (∀ i ∈ [(oneRow 5, 0), (oneRow 9, 1), (.ok (.marker (.idle "s")), 2)],
        ∀ t ∈ itemTimes (plainConfig .microsecond 2) i.1,
          Representable (plainConfig .microsecond 2) t) ∧
      Conforms (plainConfig .microsecond 2) [oneRow 5, oneRow 9, .ok (.marker (.idle "s"))]
        (run (step (plainConfig .microsecond 2)) {}
          [(oneRow 5, 0), (oneRow 9, 1), (.ok (.marker (.idle "s")), 2)]).out :=
  ⟨by decide, conforms_run (plainConfig .microsecond 2) (by decide)
    [(oneRow 5, 0), (oneRow 9, 1), (.ok (.marker (.idle "s")), 2)] (by decide)⟩

/-- A column of milliseconds: the source goes idle, and no watermark was ever inserted. -/
theorem milliseconds_strand :
    ¬ Conforms (plainConfig .millisecond 0) [oneRow 5, .ok (.marker (.idle "s"))]
      (run (step (plainConfig .millisecond 0)) {}
        [(oneRow 5, 0), (.ok (.marker (.idle "s")), 1)]).out := by
  intro h
  obtain ⟨t, ht, -⟩ := h.flushed [.passed (oneRow 5)] (.idle "s") [] rfl rfl 5000 (by decide)
  cases ht

/-- The difference wraps around to a watermark that is no date, and no later one is large enough. -/
theorem underflow_strands :
    ¬ Conforms (plainConfig .microsecond 1)
      [oneRow Int64.minValue, oneRow 5, .ok (.marker (.idle "s"))]
      (run (step (plainConfig .microsecond 1)) {}
        [(oneRow Int64.minValue, 0), (oneRow 5, 2000), (.ok (.marker (.idle "s")), 4000)]).out := by
  intro h
  obtain ⟨t, ht, -⟩ := h.flushed [.passed (oneRow Int64.minValue), .passed (oneRow 5)] (.idle "s")
    [] rfl rfl 5 (by decide)
  cases ht

end WatermarkExec

end Zelox.Streaming
