import Zelox.Streaming.WatermarkExec

/-!
# Deduplication bounded by the watermark

`StreamDeduplicateExec`: a row is passed on if its key is not remembered, and is then remembered
with its event time.  With an event-time column rows older than the watermark are dropped, a
duplicate extends the retention of its key, and a watermark forgets the keys whose event time is
below it.

Beside the source's own data the state keeps a log of the rows that have arrived, each with what
the operator knew then.  Every row of it is accounted for (`bounded_run`): a key is passed on again
only once the watermark is past all its rows, and what is not passed on is late or a duplicate of
something remembered.
-/

namespace Zelox.Streaming

open Runs List Option

variable {A K : Type}

/-- The key columns, and the unit of the event-time column if there is one. -/
structure DedupConfig (A K : Type) where
  key : TimedRow A → K
  eventTime : Option (Option TimeUnit)

/-- A row that has arrived: the watermark and the entry of its key at that point, and whether the
row was kept. -/
structure Arrival (A : Type) where
  row : TimedRow A
  watermark : Option Int64
  entry : Option Int64
  kept : Bool

/-- `HashMap<Vec<ScalarValue>, i64>`: the remembered keys with their event times. -/
abbrev Seen (K : Type) := K → Option Int64

structure DedupState (A K : Type) where
  seen : Seen K := fun _ => none
  watermark : Option Int64 := none
  out : List (InputItem A) := []
  /-- the rows that have arrived; not part of the source -/
  log : List (Arrival A) := []

def itemRows : InputItem A → List (TimedRow A)
  | .ok (.data batch _) => batch
  | .ok (.marker _) => []
  | .error _ => []

namespace Dedup

variable [DecidableEq K] (cfg : DedupConfig A K)

def eventTimeMicros (row : TimedRow A) : Option Int64 :=
  match cfg.eventTime with
  | some (some unit) => row.1.map (readMicros unit)
  | some none => none
  | none => none

/-- Older than the watermark. -/
def isLate (eventTime watermark : Option Int64) : Bool :=
  eventTime.any fun et => watermark.any fun wm => et < wm

/-- One row of a batch: whether it is kept, and what is remembered afterwards. -/
def filterRow (watermark : Option Int64) (seen : Seen K) (row : TimedRow A) : Bool × Seen K :=
  let eventTime := eventTimeMicros cfg row
  if isLate eventTime watermark then (false, seen)
  else
    let key := cfg.key row
    let etStore := eventTime.getD Int64.minValue
    match seen key with
    | some slot => (false, Function.update seen key (some (max slot etStore)))
    | none => (true, Function.update seen key (some etStore))

/-- The loop over the rows of a batch: which of them are kept, and what is remembered. -/
def filterNewRows (watermark : Option Int64) :
    Seen K → List (TimedRow A) → List Bool × Seen K
  | seen, [] => ([], seen)
  | seen, row :: rows =>
    let first := filterRow cfg watermark seen row
    let rest := filterNewRows watermark first.2 rows
    (first.1 :: rest.1, rest.2)

/-- `compute::filter_record_batch`. -/
def filterRecordBatch (batch : List (TimedRow A)) (keep : List Bool) : List (TimedRow A) :=
  ((batch.zip keep).filter (·.2)).map (·.1)

/-- The log of the rows of a batch. -/
def arrivals (watermark : Option Int64) : Seen K → List (TimedRow A) → List (Arrival A)
  | _, [] => []
  | seen, row :: rows =>
    let first := filterRow cfg watermark seen row
    ⟨row, watermark, seen (cfg.key row), first.1⟩ :: arrivals watermark first.2 rows

/-- `HashMap::retain` of the entries at or above the watermark. -/
def retain (wm : Int64) (seen : Seen K) : Seen K := fun k => (seen k).filter (wm ≤ ·)

def step (s : DedupState A K) : InputItem A → DedupState A K
  | .error e => { s with out := s.out ++ [.error e] }
  | .ok (.data batch _) =>
    let (keep, seen) := filterNewRows cfg s.watermark s.seen batch
    let filtered := filterRecordBatch batch keep
    let log := s.log ++ arrivals cfg s.watermark s.seen batch
    if filtered.isEmpty then { s with seen, log }
    else
      let retracted := List.replicate filtered.length false
      { s with seen, log, out := s.out ++ [.ok (.data filtered retracted)] }
  | .ok (.marker (.watermark source timestamp)) =>
    let out := s.out ++ [.ok (.marker (.watermark source timestamp))]
    if cfg.eventTime.isSome then
      let wm := timestamp.timestampMicros
      let wm := s.watermark.elim wm (max · wm)
      { s with seen := retain wm s.seen, watermark := some wm, out }
    else { s with out }
  | .ok (.marker m) => { s with out := s.out ++ [.ok (.marker m)] }

/-! ## What should become of a row -/

/-- The row was older than the watermark when it arrived. -/
def wasLate (a : Arrival A) : Bool := isLate (eventTimeMicros cfg a.row) a.watermark

def KeptBefore (before : List (Arrival A)) (a : Arrival A) : Prop :=
  ∃ q ∈ before, q.kept = true ∧ cfg.key q.row = cfg.key a.row

/-- A row is kept again only once the watermark is past every row of its key, and dropped only if it
is late or its key is remembered. -/
structure Accounted (before : List (Arrival A)) (a : Arrival A) : Prop where
  again : a.kept = true → KeptBefore cfg before a → ∃ wm ∈ a.watermark,
    ∀ q ∈ before, cfg.key q.row = cfg.key a.row → wasLate cfg q = false →
      ∀ et ∈ eventTimeMicros cfg q.row, et < wm
  dropped : a.kept = false →
    wasLate cfg a = true ∨ (a.entry.isSome = true ∧ KeptBefore cfg before a)

def keptRows (log : List (Arrival A)) : List (TimedRow A) := (log.filter (·.kept)).map (·.row)

/-- The state after `input`: the log is that of its rows, the output what was kept, and no
remembered event time is below the watermark. -/
structure Bounded (input : List (InputItem A)) (s : DedupState A K) : Prop where
  arrived : s.log.map (·.row) = input.flatMap itemRows
  output : s.out.flatMap itemRows = keptRows s.log
  remembered : ∀ k, ∀ et ∈ s.seen k, ∀ wm ∈ s.watermark, wm ≤ et
  accounted : ∀ before a after, s.log = before ++ a :: after → Accounted cfg before a

/-! ## One row -/

/-- Between two rows: an event time is covered by the entry of its key or by the watermark, and a
remembered key comes from a row that was kept. -/
structure Inv (watermark : Option Int64) (seen : Seen K) (log : List (Arrival A)) : Prop where
  remembered : ∀ k, ∀ et ∈ seen k, ∀ wm ∈ watermark, wm ≤ et
  covered : ∀ q ∈ log, wasLate cfg q = false → ∀ et ∈ eventTimeMicros cfg q.row,
    (∃ u ∈ seen (cfg.key q.row), et ≤ u) ∨ ∃ wm ∈ watermark, et < wm
  kept : ∀ k, (seen k).isSome = true → ∃ q ∈ log, q.kept = true ∧ cfg.key q.row = k
  timed : ∀ q ∈ log, q.kept = true →
    wasLate cfg q = false ∧ (eventTimeMicros cfg q.row).isSome = true
  accounted : ∀ before a after, log = before ++ a :: after → Accounted cfg before a

variable {cfg}

theorem isLate_eq_false {et : Int64} {watermark : Option Int64}
    (h : isLate (some et) watermark = false) : ∀ wm ∈ watermark, wm ≤ et := by
  intro wm hwm
  rw [mem_def.mp hwm] at h
  exact Int64.not_lt.mp (of_decide_eq_false h)

section

variable {watermark : Option Int64} {seen : Seen K} {log : List (Arrival A)}

section

variable (h : Inv cfg watermark seen log)
include h

omit [DecidableEq K] in
theorem Inv.late {a : Arrival A} (hlate : wasLate cfg a = true)
    (hkept : a.kept = false) :
    Inv cfg watermark seen (log ++ [a]) where
  remembered := h.remembered
  covered := by
    refine Lists.forall_mem_concat.mpr ⟨h.covered, fun hon => ?_⟩
    rw [hlate] at hon
    cases hon
  kept k hk := by
    obtain ⟨q, hq, hrest⟩ := h.kept k hk
    exact ⟨q, mem_append_left _ hq, hrest⟩
  timed := by
    refine Lists.forall_mem_concat.mpr ⟨h.timed, fun hk => ?_⟩
    rw [hkept] at hk
    cases hk
  accounted before b after heq := by
    rcases Lists.concat_eq_append_cons heq with ⟨rfl, rfl, -⟩ | ⟨after', hlog, -⟩
    · refine ⟨fun hk => ?_, fun _ => .inl hlate⟩
      rw [hkept] at hk
      cases hk
    · exact h.accounted before b after' hlog

/-- After a row on time its key is remembered with at least its event time; it is kept exactly if
the key was not remembered before. -/
theorem Inv.onTime {a : Arrival A} {et u : Int64}
    (het : eventTimeMicros cfg a.row = some et) (hlate : isLate (some et) watermark = false)
    (hwm : a.watermark = watermark) (hentry : a.entry = seen (cfg.key a.row))
    (hkept : a.kept = a.entry.isNone) (hu : et ≤ u) (hmax : ∀ slot ∈ a.entry, slot ≤ u) :
    Inv cfg watermark (Function.update seen (cfg.key a.row) (some u)) (log ++ [a]) where
  remembered k t ht wm hw := by
    by_cases hk : k = cfg.key a.row
    · obtain rfl : u = t := by
        rw [hk, Function.update_self] at ht
        exact some.inj ht
      exact Int64.le_trans (isLate_eq_false hlate wm hw) hu
    · rw [Function.update_of_ne hk] at ht
      exact h.remembered k t ht wm hw
  covered := by
    refine Lists.forall_mem_concat.mpr ⟨fun q hq hon t ht => ?_, fun _ t ht => ?_⟩
    · rcases h.covered q hq hon t ht with ⟨slot, hslot, hle⟩ | hpast
      · left
        by_cases hk : cfg.key q.row = cfg.key a.row
        · rw [hk, Function.update_self]
          rw [hk, ← hentry] at hslot
          exact ⟨u, rfl, Int64.le_trans hle (hmax slot hslot)⟩
        · rw [Function.update_of_ne hk]
          exact ⟨slot, hslot, hle⟩
      · exact .inr hpast
    · obtain rfl : et = t := some.inj (het.symm.trans ht)
      left
      rw [Function.update_self]
      exact ⟨u, rfl, hu⟩
  kept k hk := by
    by_cases hkey : k = cfg.key a.row
    · -- the key comes from an earlier row or from this one
      cases hbefore : a.entry with
      | none =>
        refine ⟨a, mem_append_right _ (mem_singleton_self a), ?_, hkey.symm⟩
        rw [hkept, hbefore]
        rfl
      | some slot =>
        have hsome : (seen k).isSome = true := by
          rw [hkey, ← hentry, hbefore]
          rfl
        obtain ⟨q, hq, hrest⟩ := h.kept k hsome
        exact ⟨q, mem_append_left _ hq, hrest⟩
    · rw [Function.update_of_ne hkey] at hk
      obtain ⟨q, hq, hrest⟩ := h.kept k hk
      exact ⟨q, mem_append_left _ hq, hrest⟩
  timed := by
    refine Lists.forall_mem_concat.mpr ⟨h.timed, fun _ => ?_⟩
    unfold wasLate
    rw [het, hwm]
    exact ⟨hlate, rfl⟩
  accounted before b after heq := by
    rcases Lists.concat_eq_append_cons heq with ⟨rfl, rfl, -⟩ | ⟨after', hlog, -⟩
    · constructor
      · -- nothing is remembered, so the watermark covers every row of the key
        rintro hk ⟨q₀, hq₀, hkept₀, hkey₀⟩
        have hnone : seen (cfg.key b.row) = none := by
          rw [hkept, hentry] at hk
          exact isNone_iff_eq_none.mp hk
        have hpast : ∀ q ∈ before, cfg.key q.row = cfg.key b.row → wasLate cfg q = false →
            ∀ t ∈ eventTimeMicros cfg q.row, ∃ wm ∈ watermark, t < wm := by
          intro q hq hkey hon t ht
          rcases h.covered q hq hon t ht with ⟨slot, hslot, -⟩ | hpast
          · rw [hkey, hnone] at hslot
            cases hslot
          · exact hpast
        obtain ⟨hon₀, htime₀⟩ := h.timed q₀ hq₀ hkept₀
        obtain ⟨t₀, ht₀⟩ := isSome_iff_exists.mp htime₀
        obtain ⟨wm, hw, -⟩ := hpast q₀ hq₀ hkey₀ hon₀ t₀ ht₀
        rw [hwm]
        refine ⟨wm, hw, ?_⟩
        intro q hq hkey hon t ht
        obtain ⟨wm', hw', hlt⟩ := hpast q hq hkey hon t ht
        obtain rfl : wm = wm' := some.inj (hw.symm.trans hw')
        exact hlt
      · intro hk
        rw [hkept] at hk
        have hsome : b.entry.isSome = true := by
          rw [← not_isNone, hk]
          rfl
        refine .inr ⟨hsome, ?_⟩
        rw [hentry] at hsome
        exact h.kept _ hsome
    · exact h.accounted before b after' hlog

/-! ## Batches and watermarks -/

theorem Inv.filterRow {row : TimedRow A} {et : Int64}
    (het : eventTimeMicros cfg row = some et) :
    Inv cfg watermark (filterRow cfg watermark seen row).2
      (log ++ [⟨row, watermark, seen (cfg.key row), (filterRow cfg watermark seen row).1⟩]) := by
  unfold Dedup.filterRow
  rw [het]
  by_cases hlate : isLate (some et) watermark = true
  · simp only [hlate, if_true]
    refine h.late ?_ rfl
    unfold wasLate
    rw [het]
    exact hlate
  · have hon : isLate (some et) watermark = false := Bool.eq_false_iff.mpr hlate
    simp only [hon, Bool.false_eq_true, if_false, getD_some]
    cases hentry : seen (cfg.key row) with
    | some slot =>
      refine h.onTime (a := ⟨row, watermark, some slot, false⟩) het hon rfl hentry.symm rfl
        (Int64.le_max_right slot et) ?_
      intro slot' hslot'
      obtain rfl : slot = slot' := some.inj hslot'
      exact Int64.le_max_left slot et
    | none =>
      refine h.onTime (a := ⟨row, watermark, none, true⟩) het hon rfl hentry.symm rfl
        (Int64.le_refl et) ?_
      intro slot' hslot'
      cases hslot'

end

theorem Inv.filterNewRows (batch : List (TimedRow A))
    (htimes : ∀ row ∈ batch, (eventTimeMicros cfg row).isSome = true)
    (h : Inv cfg watermark seen log) :
    Inv cfg watermark (filterNewRows cfg watermark seen batch).2
      (log ++ arrivals cfg watermark seen batch) := by
  induction batch generalizing seen log with
  | nil =>
    show Inv cfg watermark seen (log ++ [])
    rw [append_nil]
    exact h
  | cons row rows ih =>
    obtain ⟨et, het⟩ := isSome_iff_exists.mp (htimes row mem_cons_self)
    have hrest := ih (fun r hr => htimes r (mem_cons_of_mem row hr)) (h.filterRow het)
    rw [append_assoc] at hrest
    exact hrest

end

section

variable (watermark : Option Int64) (seen : Seen K) (batch : List (TimedRow A))

theorem keptRows_arrivals :
    keptRows (arrivals cfg watermark seen batch) =
      filterRecordBatch batch (filterNewRows cfg watermark seen batch).1 := by
  induction batch generalizing seen with
  | nil => rfl
  | cons row rows ih =>
    have hrest := ih (filterRow cfg watermark seen row).2
    unfold keptRows filterRecordBatch at hrest ⊢
    simp only [arrivals, filterNewRows, zip_cons_cons, filter_cons]
    by_cases hkeep : (filterRow cfg watermark seen row).1 = true
    · simp only [hkeep, if_true, map_cons]
      rw [hrest]
    · simp only [hkeep]
      exact hrest

theorem map_row_arrivals :
    (arrivals cfg watermark seen batch).map (·.row) = batch := by
  induction batch generalizing seen with
  | nil => rfl
  | cons row rows ih => exact congrArg (row :: ·) (ih _)

end

omit [DecidableEq K] in
/-- The watermark advances: what is forgotten is covered by the new watermark. -/
theorem Inv.retain {watermark : Option Int64} {seen : Seen K} {log : List (Arrival A)}
    (h : Inv cfg watermark seen log) {wm : Int64} (hwm : ∀ old ∈ watermark, old ≤ wm) :
    Inv cfg (some wm) (retain wm seen) log where
  remembered k t ht wm' hwm' := by
    obtain rfl : wm = wm' := some.inj hwm'
    exact of_decide_eq_true (mem_filter_iff.mp ht).2
  covered q hq hon t ht := by
    rcases h.covered q hq hon t ht with ⟨slot, hslot, hle⟩ | ⟨old, hold, hlt⟩
    · by_cases hge : wm ≤ slot
      · exact .inl ⟨slot, mem_filter_iff.mpr ⟨hslot, decide_eq_true hge⟩, hle⟩
      · exact .inr ⟨wm, rfl, Int64.lt_of_le_of_lt hle (Int64.not_le.mp hge)⟩
    · exact .inr ⟨wm, rfl, Int64.lt_of_lt_of_le hlt (hwm old hold)⟩
  kept k hk := by
    obtain ⟨t, ht⟩ := isSome_iff_exists.mp hk
    exact h.kept k (isSome_iff_exists.mpr ⟨t, (mem_filter_iff.mp ht).1⟩)
  timed := h.timed
  accounted := h.accounted

theorem keptRows_append (l l' : List (Arrival A)) :
    keptRows (l ++ l') = keptRows l ++ keptRows l' := by
  unfold keptRows
  rw [filter_append, map_append]

variable (cfg) in
theorem step_data (s : DedupState A K) (batch : List (TimedRow A)) (flags : List Bool) :
    (step cfg s (.ok (.data batch flags))).watermark = s.watermark ∧
      (step cfg s (.ok (.data batch flags))).seen =
        (filterNewRows cfg s.watermark s.seen batch).2 ∧
      (step cfg s (.ok (.data batch flags))).log =
        s.log ++ arrivals cfg s.watermark s.seen batch ∧
      (step cfg s (.ok (.data batch flags))).out.flatMap itemRows =
        s.out.flatMap itemRows ++ keptRows (arrivals cfg s.watermark s.seen batch) := by
  rw [keptRows_arrivals]
  show (if _ then _ else _ : DedupState A K).watermark = _ ∧
    (if _ then _ else _ : DedupState A K).seen = _ ∧
    (if _ then _ else _ : DedupState A K).log = _ ∧
    (if _ then _ else _ : DedupState A K).out.flatMap itemRows = _
  split
  · next hempty =>
    rw [List.isEmpty_iff.mp hempty, append_nil]
    exact ⟨rfl, rfl, rfl, rfl⟩
  · refine ⟨rfl, rfl, rfl, ?_⟩
    simp [itemRows]

variable (cfg) in
/-- What holds between two items. -/
structure RunInv (input : List (InputItem A)) (s : DedupState A K) : Prop where
  arrived : s.log.map (·.row) = input.flatMap itemRows
  output : s.out.flatMap itemRows = keptRows s.log
  inv : Inv cfg s.watermark s.seen s.log

omit [DecidableEq K] in
theorem runInv_init : RunInv cfg [] ({} : DedupState A K) where
  arrived := rfl
  output := rfl
  inv := by
    refine ⟨?_, ?_, ?_, ?_, ?_⟩
    · intro k et het
      cases het
    · intro q hq
      cases hq
    · intro k hk
      cases hk
    · intro q hq
      cases hq
    · intro before a after heq
      exact absurd heq.symm (by simp)

section

variable {input : List (InputItem A)} {s : DedupState A K} (h : RunInv cfg input s)
include h

omit [DecidableEq K] in
theorem RunInv.pass {item : InputItem A} (hrows : itemRows item = []) :
    RunInv cfg (input ++ [item]) { s with out := s.out ++ [item] } where
  arrived := by
    rw [flatMap_append, flatMap_singleton, hrows, append_nil]
    exact h.arrived
  output := by
    rw [flatMap_append, flatMap_singleton, hrows, append_nil]
    exact h.output
  inv := h.inv

theorem RunInv.data {batch : List (TimedRow A)} (flags : List Bool)
    (htimes : ∀ row ∈ batch, (eventTimeMicros cfg row).isSome = true) :
    RunInv cfg (input ++ [.ok (.data batch flags)]) (step cfg s (.ok (.data batch flags))) := by
  obtain ⟨hwm, hseen, hlog, hout⟩ := step_data cfg s batch flags
  refine ⟨?_, ?_, ?_⟩
  · rw [hlog, map_append, map_row_arrivals, flatMap_append, flatMap_singleton, h.arrived]
    rfl
  · rw [hout, hlog, keptRows_append, h.output]
  · rw [hwm, hseen, hlog]
    exact h.inv.filterNewRows batch htimes

theorem RunInv.watermark (source : String) (timestamp : DateTime) :
    RunInv cfg (input ++ [.ok (.marker (.watermark source timestamp))])
      (step cfg s (.ok (.marker (.watermark source timestamp)))) := by
  have hrows : itemRows (.ok (.marker (.watermark source timestamp)) : InputItem A) = [] := rfl
  have hpass := h.pass hrows
  by_cases hcol : cfg.eventTime.isSome = true
  · rw [step, if_pos hcol]
    refine ⟨hpass.arrived, hpass.output, h.inv.retain ?_⟩
    intro old hold
    rw [mem_def.mp hold]
    exact Int64.le_max_left old _
  · rw [step, if_neg hcol]
    exact hpass

theorem RunInv.step (item : InputItem A)
    (htimes : ∀ row ∈ itemRows item, (eventTimeMicros cfg row).isSome = true) :
    RunInv cfg (input ++ [item]) (step cfg s item) := by
  cases item with
  | error e => exact h.pass rfl
  | ok ev =>
    cases ev with
    | data batch flags => exact h.data flags htimes
    | marker m =>
      cases m with
      | watermark source timestamp => exact h.watermark source timestamp
      | latencyTracker source id timestamp | checkpoint id | endOfData | idle source =>
        exact h.pass rfl

end

/-! ## Whole runs -/

theorem runInv_run (items : List (InputItem A))
    (htimes : ∀ row ∈ items.flatMap itemRows, (eventTimeMicros cfg row).isSome = true)
    {input : List (InputItem A)} {s : DedupState A K} (h : RunInv cfg input s) :
    RunInv cfg (input ++ items) (run (step cfg) s items) := by
  induction items generalizing input s with
  | nil =>
    rw [append_nil]
    exact h
  | cons item items ih =>
    have hone := h.step item fun row hrow => htimes row (mem_append_left _ hrow)
    have hrest := ih (fun row hrow => htimes row (mem_append_right _ hrow)) hone
    rw [append_assoc] at hrest
    exact hrest

/-- Deduplication is bounded by the watermark as long as the rows have event times. -/
theorem bounded_run (cfg : DedupConfig A K) (items : List (InputItem A))
    (htimes : ∀ row ∈ items.flatMap itemRows, (eventTimeMicros cfg row).isSome = true) :
    Bounded cfg items (run (step cfg) {} items) := by
  have h : RunInv cfg ([] ++ items) (run (step cfg) {} items) := runInv_run items htimes runInv_init
  exact ⟨h.arrived, h.output, h.inv.remembered, h.inv.accounted⟩

/-- Key `7` is kept, then remembered, and kept again once a watermark is past both rows; the last is
late. -/
theorem bounded_run_again :
    let cfg : DedupConfig Nat Nat := ⟨(·.2), some (some .millisecond)⟩
    let wm := fun micros h h' => FlowMarker.watermark "w" ⟨micros * 1000, h, h'⟩
    let items : List (InputItem Nat) :=
      [.ok (.data [(some 10, 7), (some 20, 7)] [false, false]),
        .ok (.marker (wm 15000 (by decide) (by decide))), .ok (.data [(some 16, 7)] [false]),
        .ok (.marker (wm 30000 (by decide) (by decide))),
        .ok (.data [(some 31, 7), (some 29, 8)] [false, false])]
    (run (step cfg) {} items).log.map (·.kept) = [true, false, false, true, false] ∧
      Bounded cfg items (run (step cfg) {} items) := by
  refine ⟨by decide, bounded_run _ _ ?_⟩
  decide

end Dedup

end Zelox.Streaming
