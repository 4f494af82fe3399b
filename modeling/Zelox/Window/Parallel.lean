import Zelox.Exchange.Flow
import Zelox.Window.Exact

/-!
# Parallel instances

The planner runs a keyed window as one instance for each output of the exchange.  Without
lateness an instance emits for the groups of its keys what a single operator would have
emitted, however the rows are batched on the way.
-/

namespace Zelox.Window

open StateIo GroupFold Runs Exchange List

variable {A K V M R : Type} {cfg : Config}

/-- The rows and markers the operator reads; it does not look at the retraction flags. -/
def readBy (is : List (FlowEvent (Group K × V) × A)) : List ((Group K × V) ⊕ FlowMarker) :=
  is.flatMap fun
    | (.data batch _, _) => batch.map .inl
    | (.marker m, _) => [.inr m]

namespace Intake

/-- The intake of one row or marker. -/
def read (cfg : Config) (s : Intake K V) (u : (Group K × V) ⊕ FlowMarker) : Intake K V :=
  s.step cfg (u.elim (fun row => .data [row] []) .marker)

/-- The intake without the groups outside of `p`. -/
def only (p : Group K → Bool) (s : Intake K V) : Intake K V :=
  { s with
    rows := s.rows.filter fun r => p r.1
    rounds := s.rounds.map fun r => { r with rows := r.rows.filter fun r => p r.1 } }

theorem run_readBy (s : Intake K V) (is : List (FlowEvent (Group K × V) × A)) :
    run (read cfg) s (readBy is) = run (step cfg) s (is.map (·.1)) := by
  induction is generalizing s with
  | nil => rfl
  | cons i is ih =>
    rw [readBy, flatMap_cons, run_append, map_cons, run_cons, ← ih]
    congr 1
    match i with
    | (.marker m, _) => rfl
    | (.data batch flags, _) =>
      induction batch generalizing s with
      | nil => simp [step]
      | cons row batch ih => simp [read, step, ih, filter_cons]; grind

theorem only_close (p : Group K → Bool) (s : Intake K V) (w : Int64) :
    (s.close w).only p = (s.only p).close w := rfl

theorem only_read (p : Group K → Bool) (s : Intake K V) (u : (Group K × V) ⊕ FlowMarker) :
    (s.read cfg u).only p =
      if u.elim (p ·.1) fun _ => true then (s.only p).read cfg u else s.only p := by
  match u with
  | .inl row =>
    cases hp : p row.1 <;> cases ha : accepts cfg s.wm row.1 <;> simp [read, step, only, hp, ha]
  | .inr m =>
    cases m with
    | watermark | endOfData => exact (apply_ite (only p) _ _ _).trans rfl
    | latencyTracker | checkpoint | idle => rfl

theorem dueRows_only (p : Group K → Bool) (e : Int64) (s : Intake K V) :
    dueRows e (s.only p).rounds = (dueRows e s.rounds).filter fun r => p r.1 := by
  show dueRows e (s.rounds.map _) = _
  induction s.rounds with
  | nil => rfl
  | cons r past ih =>
    rw [map_cons, dueRows, dueRows, any_map, ih, apply_ite (filter _), filter_append]
    rfl

end Intake

section

variable [DecidableEq K] [AddCommMonoid M] {agg : Aggregate V M R}

theorem exactRow_only (p : Group K → Bool) (e : Int64) (s : Intake K V) (g : Group K) :
    exactRow agg e (s.only p).rounds g = if p g then exactRow agg e s.rounds g else [] := by
  have hlift : agg.liftRows ((dueRows e s.rounds).filter fun r => p r.1) =
      (agg.liftRows (dueRows e s.rounds)).filter fun r => p r.1 := by
    simp [Aggregate.liftRows, filter_map, Function.comp_def]
  unfold exactRow
  simp only [Intake.dueRows_only, hlift, mem_keys_filter, total_filter]
  grind

/-- Instance `j` of `n`, fed what the exchange sends it, emits the rows of a single operator for
its groups and nothing for the others. -/
theorem rowsFor_instance [DecidableEq R] (hm : cfg.outputMode = .append)
    (hL : cfg.allowedLateness = 0) (hfl : flushes cfg = true) (ck ck' : Store (List (Group K × M)))
    (hck : Uncommitted ck) (hck' : Uncommitted ck') (hash : K → UInt64) (n j : Nat) (hj : j < n)
    (items : List (Item (Group K × V))) (is js : List (FlowEvent (Group K × V) × Exec K agg))
    (his : readBy is = flow items)
    (hjs : readBy js = flow (sentTo j (distribute hash (fun row => row.1.key) n items)))
    (hev : ∀ i ∈ is ++ js, i.1 ≠ .marker .endOfData) (x y : Exec K agg) (g : Group K) (e : Int64)
    (hge : windowEndMicros cfg.unit g = some e) :
    rowsFor g (run (step cfg) (start cfg ck') (js ++ [(.marker .endOfData, y)])).out =
      if route hash n g.key = j then
        rowsFor g (run (step cfg) (start cfg ck) (is ++ [(.marker .endOfData, x)])).out
      else [] := by
  obtain ⟨hevi, hevj⟩ := forall_mem_append.mp hev
  have hin : intake cfg none (js.map (·.1)) =
      (intake cfg none (is.map (·.1))).only fun g => route hash n g.key = j := by
    unfold intake
    rw [← Intake.run_readBy, ← Intake.run_readBy, hjs, flow_distribute _ _ hj, ← his]
    exact run_filter (Intake.only_read fun g => route hash n g.key = j) {} _
  rw [rowsFor_run_exact cfg hm hL hfl ck' hck' js hevj y g e hge,
    rowsFor_run_exact cfg hm hL hfl ck hck is hevi x g e hge, intake_flush cfg hfl,
    intake_flush cfg hfl, hin, ← Intake.only_close, exactRow_only]
  grind

end

/-- A run over rows of one window, one for each key. -/
def keyRows (keys : List UInt64) : List (FlowEvent (Group UInt64 × Nat) × Exec UInt64 sumAgg) :=
  [(.data (keys.map fun key => (⟨some 0, some 10000000, key⟩, 1)) [], .plain UInt64 sumAgg)]

theorem rowsFor_instance_second :
    rowsFor ⟨some 0, some 10000000, 64⟩ (run (step spillCfg) (start spillCfg Store.empty)
        (keyRows [64] ++ [(.marker .endOfData, .plain UInt64 sumAgg)])).out =
      rowsFor ⟨some 0, some 10000000, 64⟩ (run (step spillCfg) (start spillCfg Store.empty)
        (keyRows [0, 64] ++ [(.marker .endOfData, .plain UInt64 sumAgg)])).out :=
  rowsFor_instance rfl rfl rfl _ _ uncommitted_empty uncommitted_empty id 2 1 (by decide)
    [.ok (.encodeData [(⟨some 0, some 10000000, 0⟩, 1), (⟨some 0, some 10000000, 64⟩, 1)])] _ _ rfl
    rfl (by decide) _ _ _ _ rfl

end Zelox.Window
