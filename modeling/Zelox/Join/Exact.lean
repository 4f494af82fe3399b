import Zelox.Join.Spill
import Zelox.Lib.PairJoin

/-!
# The join emits every matching pair once

The rows that the operator emits are those of the inner equi-join of all rows that have
arrived, filtered (`join_exact`).  A pair is emitted when its second row arrives, from
what the other side then holds; a row that is gone matches no later arrival, as the
filter implies the interval bounds and arrivals are not behind their side's watermark.

Eviction thresholds are computed in wrapping 64-bit arithmetic.  One below the range wraps
to the top and evicts rows that do match (`farPast_evicts`); the theorem asks of every
watermark that its threshold does not.
-/

namespace Zelox.Join

open PairJoin List

variable {C V : Type} {l r n : Nat}

/-! ## The specification -/

def dataRows (events : List (FlowEvent (Row C n))) : List (Row C n) :=
  events.flatMap fun
    | .data batch _ => batch
    | .marker _ => []

/-- The rows that arrive on the left, and on the right. -/
def leftRows : Input C l r → List (Row C l)
  | .left (.data batch _) => batch
  | _ => []

def rightRows : Input C l r → List (Row C r)
  | .right (.data batch _) => batch
  | _ => []

/-- The inner equi-join with the residual filter. -/
def filteredJoin [DecidableEq V] (cfg : Config C V l r) (as : List (Row C l)) (bs : List (Row C r)) :
    List (Row C (l + r)) :=
  (equiJoin cfg.on as bs).filter (passes cfg)

/-- The filter implies the interval bounds on the columns `li` and `ri`, which are the ones
the eviction looks at. -/
structure Implied (cfg : Config C V l r) (li : Fin l) (ri : Fin r) : Prop where
  left : ∀ i, cfg.leftTsIdx = some i → i = li
  right : ∀ i, cfg.rightTsIdx = some i → i = ri
  bounds : ∀ lower upper, cfg.intervalBounds = some (lower, upper) →
    ∀ (a : Row C l) (b : Row C r), passes cfg (Fin.append a b) = true →
      ∃ ts us, cfg.micros (a li) = some ts ∧ cfg.micros (b ri) = some us ∧
        ts.toInt + lower.toInt ≤ us.toInt ∧ us.toInt ≤ ts.toInt + upper.toInt

/-- No row arrives behind the watermark of its side. -/
def InTime (cfg : Config C V l r) (li : Fin l) (ri : Fin r) (op : Op C l r) : Input C l r → Prop
  | .left (.data batch _) => ∀ a ∈ batch, ∀ ts, cfg.micros (a li) = some ts →
      ∀ lw, op.lwm = some lw → lw ≤ ts
  | .right (.data batch _) => ∀ b ∈ batch, ∀ us, cfg.micros (b ri) = some us →
      ∀ rw, op.rwm = some rw → rw ≤ us
  | _ => True

/-- The threshold that a watermark gives is not below the 64-bit range. -/
def InRange (cfg : Config C V l r) : Input C l r → Prop
  | .left (.marker (.watermark _ t)) => ∀ lower upper, cfg.intervalBounds = some (lower, upper) →
      Int64.minValue.toInt ≤ t.timestampMicros.toInt + lower.toInt
  | .right (.marker (.watermark _ t)) => ∀ lower upper, cfg.intervalBounds = some (lower, upper) →
      Int64.minValue.toInt ≤ t.timestampMicros.toInt - upper.toInt
  | _ => True

/-! ## Joins of rows -/

section Rows

variable [DecidableEq V]

/-- What a pair of rows gives. -/
def matching (cfg : Config C V l r) (a : Row C l) (b : Row C r) : List (Row C (l + r)) :=
  if keysMatch cfg.on a b && passes cfg (Fin.append a b) then [Fin.append a b] else []

theorem filter_map_filter {A B : Type} (p : A → Bool) (f : A → B) (q : B → Bool) (xs : List A) :
    ((xs.filter p).map f).filter q = xs.flatMap fun a => if p a && q (f a) then [f a] else [] := by
  induction xs with
  | nil => rfl
  | cons a xs ih =>
    rw [flatMap_cons, ← ih, filter_cons]
    cases hp : p a with
    | false => simp
    | true => cases hq : q (f a) <;> simp [hq]

theorem coe_filteredJoin (cfg : Config C V l r) (as : List (Row C l)) (bs : List (Row C r)) :
    (filteredJoin cfg as bs : Multiset (Row C (l + r))) =
      pairs (fun a b => (matching cfg a b : Multiset (Row C (l + r)))) as bs := by
  unfold filteredJoin equiJoin
  rw [filter_flatMap, ← coe_flatMap_flatMap]
  simp only [filter_map_filter]
  rfl

theorem keysMatch_swap (on : On C V l r) (a : Row C l) (b : Row C r) :
    keysMatch (on.map Prod.swap) b a = keysMatch on a b := by
  unfold keysMatch
  rw [all_map]
  congr 1
  funext key
  show ((key.2 b).isSome && decide (key.2 b = key.1 a)) = _
  by_cases h : key.1 a = key.2 b
  · rw [h]
  · simp [h, Ne.symm h]

theorem reorder_append (a : Row C l) (b : Row C r) :
    reorderRightLeftToLeftRight (Fin.append b a) = Fin.append a b := by
  unfold reorderRightLeftToLeftRight
  simp only [Fin.append_left, Fin.append_right]

/-- The join with swapped keys, its columns put back in order. -/
theorem coe_swappedJoin (cfg : Config C V l r) (as : List (Row C l)) (bs : List (Row C r)) :
    ((((equiJoin (cfg.on.map Prod.swap) bs as).map reorderRightLeftToLeftRight).filter
        (passes cfg) : List (Row C (l + r))) : Multiset (Row C (l + r))) =
      pairs (fun a b => (matching cfg a b : Multiset (Row C (l + r)))) as bs := by
  unfold equiJoin
  rw [pairs_swap, ← coe_flatMap_flatMap, map_flatMap, filter_flatMap]
  simp only [map_map, filter_map_filter, Function.comp_def, keysMatch_swap, reorder_append]
  rfl

/-! ## Emitted rows -/

theorem dataRows_append (xs ys : List (FlowEvent (Row C n))) :
    dataRows (xs ++ ys) = dataRows xs ++ dataRows ys := flatMap_append

omit [DecidableEq V] in
theorem dataRows_emit (cfg : Config C V l r) (out : List (Batch C (l + r))) :
    dataRows (emit cfg out) = out.flatten.filter (passes cfg) := by
  have hdata : ∀ batches : List (Batch C (l + r)),
      dataRows (batches.map dataEvent) = batches.flatten := by
    intro batches
    unfold dataRows
    rw [flatMap_map]
    exact flatMap_id
  unfold emit
  rw [hdata, flatten_filter_not_isEmpty, filter_flatten]
  rfl

variable (x : Exec C V) (cfg : Config C V l r)

theorem flatten_runHashJoin {m : Nat} (on : On C V m n) (build : List (Batch C m))
    (probe : List (Batch C n)) :
    (runHashJoin x on build probe).flatten.Perm (equiJoin on build.flatten probe.flatten) := by
  unfold runHashJoin
  rw [flatten_filter_not_isEmpty]
  exact x.hashJoin_perm on build probe

theorem coe_emit_left (other : SideState C r) (batch : Batch C l) :
    (dataRows (emit cfg (joinIncomingLeft x cfg other batch)) : Multiset (Row C (l + r))) =
      pairs (fun a b => (matching cfg a b : Multiset (Row C (l + r)))) batch (content cfg other) := by
  unfold content
  rw [dataRows_emit, ← coe_filteredJoin]
  refine Multiset.coe_eq_coe.mpr (List.Perm.filter _ ?_)
  have hjoin := flatten_runHashJoin x cfg.on [batch] (gatherSide cfg other)
  rwa [flatten_singleton] at hjoin

theorem coe_emit_right (other : SideState C l) (batch : Batch C r) :
    (dataRows (emit cfg (joinIncomingRight x cfg other batch)) : Multiset (Row C (l + r))) =
      pairs (fun a b => (matching cfg a b : Multiset (Row C (l + r)))) (content cfg other) batch := by
  unfold content
  rw [dataRows_emit, ← coe_swappedJoin]
  refine Multiset.coe_eq_coe.mpr (List.Perm.filter _ ?_)
  have hjoin := flatten_runHashJoin x (cfg.on.map Prod.swap) [batch] (gatherSide cfg other)
  rw [flatten_singleton] at hjoin
  unfold joinIncomingRight
  rw [← map_flatten]
  exact hjoin.map _

end Rows

/-! ## The invariant -/

/-- A left row that is behind the right watermark by more than the upper bound. -/
def GoneLeft (cfg : Config C V l r) (li : Fin l) (op : Op C l r) (a : Row C l) : Prop :=
  ∃ lower upper rw ts, cfg.intervalBounds = some (lower, upper) ∧ op.rwm = some rw ∧
    cfg.micros (a li) = some ts ∧ ts.toInt + upper.toInt < rw.toInt

/-- A right row that is behind the left watermark by more than the lower bound allows. -/
def GoneRight (cfg : Config C V l r) (ri : Fin r) (op : Op C l r) (b : Row C r) : Prop :=
  ∃ lower upper lw us, cfg.intervalBounds = some (lower, upper) ∧ op.lwm = some lw ∧
    cfg.micros (b ri) = some us ∧ us.toInt < lw.toInt + lower.toInt

/-- The watermarks give thresholds that do not fall below the 64-bit range. -/
def WmInRange (cfg : Config C V l r) (op : Op C l r) : Prop :=
  ∀ lower upper, cfg.intervalBounds = some (lower, upper) →
    (∀ lw, op.lwm = some lw → Int64.minValue.toInt ≤ lw.toInt + lower.toInt) ∧
      ∀ rw, op.rwm = some rw → Int64.minValue.toInt ≤ rw.toInt - upper.toInt

structure Inv [DecidableEq V] (cfg : Config C V l r) (li : Fin l) (ri : Fin r)
    (as : Multiset (Row C l)) (bs : Multiset (Row C r)) (op : Op C l r) : Prop where
  left : Holds cfg op.left as (GoneLeft cfg li op)
  right : Holds cfg op.right bs (GoneRight cfg ri op)
  range : WmInRange cfg op
  out : (dataRows op.out : Multiset (Row C (l + r))) =
    pairs (fun a b => (matching cfg a b : Multiset (Row C (l + r)))) as bs

section Step

variable [DecidableEq V] {cfg : Config C V l r} {li : Fin l} {ri : Fin r}
  {as : Multiset (Row C l)} {bs : Multiset (Row C r)} {op : Op C l r}

theorem matching_of_not_passes {a : Row C l} {b : Row C r} (h : ¬ passes cfg (Fin.append a b) = true) :
    (matching cfg a b : Multiset (Row C (l + r))) = 0 := by
  unfold matching
  simp [h]

theorem matching_goneRight (himp : Implied cfg li ri) {b : Row C r} (hb : GoneRight cfg ri op b)
    {a : Row C l}
    (ha : ∀ ts, cfg.micros (a li) = some ts → ∀ lw, op.lwm = some lw → lw ≤ ts) :
    (matching cfg a b : Multiset (Row C (l + r))) = 0 := by
  apply matching_of_not_passes
  intro hpass
  obtain ⟨lower, upper, lw, us, hbounds, hlw, hus, hlt⟩ := hb
  obtain ⟨ts, us', hts, hus', hlo, -⟩ := himp.bounds lower upper hbounds a b hpass
  have hle := Int64.le_iff_toInt_le.mp (ha ts hts lw hlw)
  rw [hus, Option.some.injEq] at hus'
  subst hus'
  omega

theorem matching_goneLeft (himp : Implied cfg li ri) {a : Row C l} (ha : GoneLeft cfg li op a)
    {b : Row C r}
    (hb : ∀ us, cfg.micros (b ri) = some us → ∀ rw, op.rwm = some rw → rw ≤ us) :
    (matching cfg a b : Multiset (Row C (l + r))) = 0 := by
  apply matching_of_not_passes
  intro hpass
  obtain ⟨lower, upper, rw, ts, hbounds, hrw, hts, hlt⟩ := ha
  obtain ⟨ts', us, hts', hus, -, hup⟩ := himp.bounds lower upper hbounds a b hpass
  have hle := Int64.le_iff_toInt_le.mp (hb us hus rw hrw)
  rw [hts, Option.some.injEq] at hts'
  subst hts'
  omega

section

variable (h : Inv cfg li ri as bs op) (himp : Implied cfg li ri) (x : Exec C V)
include h himp

theorem Inv.onLeftData (batch : Batch C l) (hin : ∀ a ∈ batch, ∀ ts, cfg.micros (a li) = some ts →
      ∀ lw, op.lwm = some lw → lw ≤ ts) :
    Inv cfg li ri (as + batch) bs (Join.onLeftData x cfg op batch) := by
  unfold Join.onLeftData
  split
  case isTrue hempty =>
    rw [List.isEmpty_iff.mp hempty, Multiset.coe_nil, add_zero]
    exact h
  case isFalse =>
    obtain ⟨gone, hbs, hgone⟩ := h.right.split
    refine ⟨h.left.push x .left batch, h.right, h.range, ?_⟩
    rw [dataRows_append, ← Multiset.coe_add, coe_emit_left]
    refine arrive_left h.out hbs ?_
    intro a ha b hb
    exact matching_goneRight himp (hgone b hb) (hin a ha)

theorem Inv.onRightData (batch : Batch C r) (hin : ∀ b ∈ batch, ∀ us, cfg.micros (b ri) = some us →
      ∀ rw, op.rwm = some rw → rw ≤ us) :
    Inv cfg li ri as (bs + batch) (Join.onRightData x cfg op batch) := by
  unfold Join.onRightData
  split
  case isTrue hempty =>
    rw [List.isEmpty_iff.mp hempty, Multiset.coe_nil, add_zero]
    exact h
  case isFalse =>
    obtain ⟨gone, has, hgone⟩ := h.left.split
    refine ⟨h.left, h.right.push x .right batch, h.range, ?_⟩
    rw [dataRows_append, ← Multiset.coe_add, coe_emit_right]
    refine arrive_right h.out has ?_
    intro a ha b hb
    exact matching_goneLeft himp (hgone a ha) (hin b hb)

end

/-! ### Watermarks -/

theorem le_advance (wm : Option Int64) (ts : Int64) : ∀ w, wm = some w →
    w.toInt ≤ (advance wm ts).toInt := by
  rintro w rfl
  show w.toInt ≤ (max w ts).toInt
  rw [Int64.toInt_max]
  exact Int.le_max_left ..

theorem advance_cases (wm : Option Int64) (ts : Int64) : wm = some (advance wm ts) ∨
    advance wm ts = ts := by
  cases wm with
  | none => exact .inr rfl
  | some w =>
    show some w = some (max w ts) ∨ max w ts = ts
    rw [Int64.max_eq_ite]
    split
    · exact .inr rfl
    · exact .inl rfl

theorem advance_ind {Q : Int64 → Prop} {wm : Option Int64} {ts : Int64}
    (hold : ∀ w, wm = some w → Q w) (hnew : Q ts) : ∀ w, some (advance wm ts) = some w → Q w := by
  rintro _ ⟨⟩
  rcases advance_cases wm ts with h | h
  · exact hold _ h
  · rw [h]
    exact hnew

section

variable (h : Inv cfg li ri as bs op)
include h

theorem Inv.advanceLeft {ts : Int64}
    (hr : ∀ lower upper, cfg.intervalBounds = some (lower, upper) →
      Int64.minValue.toInt ≤ ts.toInt + lower.toInt) :
    Inv cfg li ri as bs { op with lwm := some (advance op.lwm ts) } := by
  refine ⟨h.left, h.right.mono ?_, ?_, h.out⟩
  · rintro b ⟨lower, upper, lw, us, hbounds, hlw, hus, hlt⟩
    have hle := le_advance op.lwm ts lw hlw
    exact ⟨lower, upper, _, us, hbounds, rfl, hus, by omega⟩
  · intro lower upper hbounds
    obtain ⟨hl, hrt⟩ := h.range lower upper hbounds
    exact ⟨advance_ind hl (hr lower upper hbounds), hrt⟩

theorem Inv.advanceRight {ts : Int64}
    (hr : ∀ lower upper, cfg.intervalBounds = some (lower, upper) →
      Int64.minValue.toInt ≤ ts.toInt - upper.toInt) :
    Inv cfg li ri as bs { op with rwm := some (advance op.rwm ts) } := by
  refine ⟨h.left.mono ?_, h.right, ?_, h.out⟩
  · rintro a ⟨lower, upper, rw, us, hbounds, hrw, hus, hlt⟩
    have hle := le_advance op.rwm ts rw hrw
    exact ⟨lower, upper, _, us, hbounds, rfl, hus, by omega⟩
  · intro lower upper hbounds
    obtain ⟨hl, hrt⟩ := h.range lower upper hbounds
    exact ⟨hl, advance_ind hrt (hr lower upper hbounds)⟩

theorem Inv.emitMarkers (ms : List FlowMarker) (lastWm : Option Int64) :
    Inv cfg li ri as bs { op with out := op.out ++ ms.map .marker, lastWm := lastWm } := by
  refine ⟨h.left, h.right, h.range, ?_⟩
  have hmarkers : dataRows (ms.map FlowEvent.marker : List (FlowEvent (Row C (l + r)))) = [] := by
    unfold dataRows
    rw [flatMap_map]
    simp
  show (dataRows (op.out ++ ms.map .marker) : Multiset (Row C (l + r))) = _
  rw [dataRows_append, hmarkers, append_nil]
  exact h.out

theorem Inv.forwardWatermark :
    Inv cfg li ri as bs (Join.forwardWatermark op) := by
  unfold Join.forwardWatermark
  split
  case h_1 lw rw _ _ =>
    split
    · have hemit := h.emitMarkers ((DateTime.fromTimestampMicros (min lw rw)).toList.map
        fun t => .watermark "stream-join" t) (some (min lw rw))
      rwa [map_map] at hemit
    · exact h
  case h_2 => exact h

end

omit [DecidableEq V] in
theorem lt_of_not_keeps {tsIdx : Fin n} {threshold : Int64} {row : Row C n}
    (h : ¬ keeps cfg tsIdx threshold row = true) :
    ∃ ts, cfg.micros (row tsIdx) = some ts ∧ ts.toInt < threshold.toInt := by
  unfold keeps at h
  cases hts : cfg.micros (row tsIdx) with
  | none =>
    rw [hts] at h
    exact absurd rfl h
  | some ts =>
    refine ⟨ts, rfl, ?_⟩
    rw [hts, Option.all_some, decide_eq_true_iff, Int64.le_iff_toInt_le] at h
    omega

section

variable (h : Inv cfg li ri as bs op)
include h

section

variable (himp : Implied cfg li ri) (x : Exec C V) {lower upper : Int64}
  (hbounds : cfg.intervalBounds = some (lower, upper))
include himp hbounds

theorem Inv.evictLeft :
    Inv cfg li ri as bs (Join.evictLeft x cfg upper op) := by
  unfold Join.evictLeft
  split
  case h_2 => exact h
  case h_1 rw idx hrw hidx =>
    obtain rfl := himp.left idx hidx
    refine ⟨h.left.evict x .left ?_, h.right, h.range, h.out⟩
    intro a ha
    obtain ⟨ts, hts, hlt⟩ := lt_of_not_keeps ha
    have hle := Int64.toInt_sub_le rw upper ((h.range lower upper hbounds).2 rw hrw)
    exact ⟨lower, upper, rw, ts, hbounds, hrw, hts, by omega⟩

theorem Inv.evictRight :
    Inv cfg li ri as bs (Join.evictRight x cfg lower op) := by
  unfold Join.evictRight
  split
  case h_2 => exact h
  case h_1 lw idx hlw hidx =>
    obtain rfl := himp.right idx hidx
    refine ⟨h.left, h.right.evict x .right ?_, h.range, h.out⟩
    intro b hb
    obtain ⟨us, hus, hlt⟩ := lt_of_not_keeps hb
    have hle := Int64.toInt_add_le lw lower ((h.range lower upper hbounds).1 lw hlw)
    exact ⟨lower, upper, lw, us, hbounds, hlw, hus, by omega⟩

end

theorem Inv.onWatermark (himp : Implied cfg li ri) (x : Exec C V) :
    Inv cfg li ri as bs (Join.onWatermark x cfg op) := by
  unfold Join.onWatermark
  simp only
  split
  case h_1 lower upper hbounds =>
    exact (h.forwardWatermark.evictLeft himp x hbounds).evictRight himp x hbounds
  case h_2 => exact h.forwardWatermark

theorem Inv.onEndOfData :
    Inv cfg li ri as bs (Join.onEndOfData cfg op) := by
  have hstage : Inv cfg li ri as bs (if cfg.hasStore then { op with
      left := stageSide cfg op.left (snapshotInfo op.toJoinAccum)
      right := stageSide cfg op.right [] } else op) := by
    split
    · exact ⟨h.left.stage _, h.right.stage _, h.range, h.out⟩
    · exact h
  exact hstage.emitMarkers [.endOfData] _

theorem inv_step (himp : Implied cfg li ri) (i : Input C l r × Exec C V)
    (htime : InTime cfg li ri op i.1) (hrange : InRange cfg i.1) :
    Inv cfg li ri (as + leftRows i.1) (bs + rightRows i.1) (step cfg op i) := by
  obtain ⟨i, x⟩ := i
  cases i with
  | left event =>
    cases event with
    | data batch _ =>
      simp only [leftRows, rightRows, Multiset.coe_nil, add_zero]
      exact h.onLeftData himp x batch htime
    | marker m =>
      simp only [leftRows, rightRows, Multiset.coe_nil, add_zero]
      cases m with
      | watermark _ t => exact (h.advanceLeft hrange).onWatermark himp x
      | endOfData => exact h.onEndOfData
      | latencyTracker _ _ _ | checkpoint _ | idle _ => exact h.emitMarkers [_] op.lastWm
  | right event =>
    cases event with
    | data batch _ =>
      simp only [leftRows, rightRows, Multiset.coe_nil, add_zero]
      exact h.onRightData himp x batch htime
    | marker m =>
      simp only [leftRows, rightRows, Multiset.coe_nil, add_zero]
      cases m with
      | watermark _ t => exact (h.advanceRight hrange).onWatermark himp x
      | endOfData => exact h.onEndOfData
      | latencyTracker _ _ _ | checkpoint _ | idle _ => exact h.emitMarkers [_] op.lastWm

theorem inv_run (himp : Implied cfg li ri) (is : List (Input C l r × Exec C V))
    (hrun : Runs.Along (step cfg) (fun op i => InTime cfg li ri op i.1 ∧ InRange cfg i.1) op is) :
    Inv cfg li ri (as + (is.flatMap fun i => leftRows i.1)) (bs + (is.flatMap fun i => rightRows i.1))
      (Runs.run (step cfg) op is) := by
  induction is generalizing op as bs with
  | nil =>
    rw [flatMap_nil, flatMap_nil, Multiset.coe_nil, Multiset.coe_nil, add_zero, add_zero]
    exact h
  | cons i is ih =>
    obtain ⟨⟨htime, hrange⟩, hrest⟩ := hrun
    rw [flatMap_cons, flatMap_cons, ← Multiset.coe_add, ← Multiset.coe_add, ← add_assoc,
      ← add_assoc]
    exact ih (inv_step h himp i htime hrange) hrest

end

end Step

/-! ## Whole runs -/

section Run

variable [DecidableEq V]

/-- The store has no snapshot of the join. -/
def Fresh (cfg : Config C V l r) (lck : StateIo.Store (Batch C l)) (rck : StateIo.Store (Batch C r)) :
    Prop :=
  restoreSide cfg lck = ([], []) ∧ (restoreSide cfg rck).1 = []

theorem inv_start (x : Exec C V) {cfg : Config C V l r} (li : Fin l) (ri : Fin r)
    {lck : StateIo.Store (Batch C l)} {rck : StateIo.Store (Batch C r)} (h : Fresh cfg lck rck) :
    Inv cfg li ri 0 0 (start x cfg lck rck) := by
  have hl : (start x cfg lck rck).left.buf = [] := by
    unfold start
    cases cfg.hasStore with
    | false => rfl
    | true => simp [h.1]
  have hr : (start x cfg lck rck).right.buf = [] := by
    unfold start
    cases cfg.hasStore with
    | false => rfl
    | true => simp [h.2]
  have hwm : (start x cfg lck rck).lwm = none ∧ (start x cfg lck rck).rwm = none := by
    unfold start
    cases cfg.hasStore with
    | false => exact ⟨rfl, rfl⟩
    | true => simp [h.1]
  refine ⟨⟨⟨by simp [start], fun _ => rfl⟩, 0, ?_, by simp⟩,
    ⟨⟨by simp [start], fun _ => rfl⟩, 0, ?_, by simp⟩, ?_, (zero_pairs _).symm⟩
  · rw [content_of_nothing ⟨hl, rfl⟩, add_zero]
  · rw [content_of_nothing ⟨hr, rfl⟩, add_zero]
  · intro lower upper _
    rw [hwm.1, hwm.2]
    exact ⟨nofun, nofun⟩

/-- For any interleaving, budget and answers of the store, if no eviction threshold falls below the
64-bit range, the emitted rows are those of the filtered inner equi-join. -/
theorem join_exact (cfg : Config C V l r) (li : Fin l) (ri : Fin r) (himp : Implied cfg li ri)
    (x : Exec C V) (lck : StateIo.Store (Batch C l)) (rck : StateIo.Store (Batch C r))
    (hfresh : Fresh cfg lck rck) (is : List (Input C l r × Exec C V))
    (hrun : Runs.Along (step cfg) (fun op i => InTime cfg li ri op i.1 ∧ InRange cfg i.1)
      (start x cfg lck rck) is) :
    (dataRows (Runs.run (step cfg) (start x cfg lck rck) is).out).Perm
      (filteredJoin cfg (is.flatMap fun i => leftRows i.1) (is.flatMap fun i => rightRows i.1)) := by
  have hinv := inv_run (inv_start x li ri hfresh) himp is hrun
  rw [← Multiset.coe_eq_coe, coe_filteredJoin, hinv.out, zero_add, zero_add]

end Run

/-! ## A timestamp column on each side -/

/-- One column, joined on equality and within the bounds; every batch is spilled. -/
def tsConfig (lower upper : Int64) : Config (Option Int64) Int64 1 1 where
  on := [(fun a => a (Fin.last 0), fun b => b (Fin.last 0))]
  filter := some fun row =>
    match row (Fin.castAdd 1 (Fin.last 0)), row (Fin.natAdd 1 (Fin.last 0)) with
    | some ts, some us => some (decide (ts.toInt + lower.toInt ≤ us.toInt) &&
        decide (us.toInt ≤ ts.toInt + upper.toInt))
    | _, _ => none
  intervalBounds := some (lower, upper)
  leftTsIdx := some (Fin.last 0)
  rightTsIdx := some (Fin.last 0)
  micros := id
  hasStore := true
  incCkpt := false
  budget := 0

theorem tsConfig_implied (lower upper : Int64) :
    Implied (tsConfig lower upper) (Fin.last 0) (Fin.last 0) := by
  refine ⟨?_, ?_, ?_⟩
  · intro i h
    exact (Option.some.inj h).symm
  · intro i h
    exact (Option.some.inj h).symm
  · rintro _ _ ⟨⟩ a b hpass
    simp only [passes, tsConfig, Option.all_some, decide_eq_true_iff, Fin.append_left,
      Fin.append_right] at hpass
    split at hpass
    case h_1 ts us hts hus =>
      simp only [Option.some.injEq, Bool.and_eq_true, decide_eq_true_iff] at hpass
      exact ⟨ts, us, hts, hus, hpass⟩
    case h_2 => cases hpass

def tsRow (ts : Int64) : Row (Option Int64) 1 := fun _ => some ts

def leftBatch (tss : List Int64) : Input (Option Int64) 1 1 × Exec (Option Int64) Int64 :=
  (.left (dataEvent (tss.map tsRow)), Exec.plain _ _)

def rightBatch (tss : List Int64) : Input (Option Int64) 1 1 × Exec (Option Int64) Int64 :=
  (.right (dataEvent (tss.map tsRow)), Exec.plain _ _)

def rightWatermark (t : DateTime) : Input (Option Int64) 1 1 × Exec (Option Int64) Int64 :=
  (.right (.marker (.watermark "right" t)), Exec.plain _ _)

def freshStart (lower upper : Int64) : Op (Option Int64) 1 1 :=
  start (Exec.plain _ _) (tsConfig lower upper) .empty .empty

theorem eightMicros_lo : minUtcSecs * 1000000000 ≤ 8000 := by decide

theorem eightMicros_hi : 8000 < (maxUtcSecs + 1) * 1000000000 := by decide

/-- Eight microseconds after the epoch. -/
def eightMicros : DateTime := ⟨8000, eightMicros_lo, eightMicros_hi⟩

/-- Bounds of 0 and 5; the watermark evicts the first left row, and the second one is matched
behind it. -/
def evicting : List (Input (Option Int64) 1 1 × Exec (Option Int64) Int64) :=
  [leftBatch [0, 10], rightWatermark eightMicros, rightBatch [10]]

theorem join_exact_evicting :
    Implied (tsConfig 0 5) (Fin.last 0) (Fin.last 0) ∧ Fresh (tsConfig 0 5) .empty .empty ∧
      Runs.Along (step (tsConfig 0 5)) (fun op i =>
        InTime (tsConfig 0 5) (Fin.last 0) (Fin.last 0) op i.1 ∧ InRange (tsConfig 0 5) i.1)
        (freshStart 0 5) evicting ∧
      (dataRows (Runs.run (step (tsConfig 0 5)) (freshStart 0 5) evicting).out).Perm
        (filteredJoin (tsConfig 0 5) [tsRow 0, tsRow 10] [tsRow 10]) := by
  have hrun : Runs.Along (step (tsConfig 0 5)) (fun op i =>
      InTime (tsConfig 0 5) (Fin.last 0) (Fin.last 0) op i.1 ∧ InRange (tsConfig 0 5) i.1)
      (freshStart 0 5) evicting := by
    refine ⟨⟨?_, trivial⟩, ⟨trivial, ?_⟩, ⟨?_, trivial⟩, trivial⟩
    · intro a _ ts _ lw hlw
      cases hlw
    · rintro _ _ ⟨⟩
      decide
    · intro b hb us hus rw hrw
      rw [mem_singleton.mp hb] at hus
      cases hus
      cases hrw
      decide
  exact ⟨tsConfig_implied 0 5, ⟨rfl, rfl⟩, hrun,
    join_exact (tsConfig 0 5) _ _ (tsConfig_implied 0 5) _ _ _ ⟨rfl, rfl⟩ evicting hrun⟩

theorem farPast_lo : minUtcSecs * 1000000000 ≤ -8000000000000000000000 := by decide

theorem farPast_hi : -8000000000000000000000 < (maxUtcSecs + 1) * 1000000000 := by decide

/-- 8 · 10^18 microseconds before the epoch. -/
def farPast : DateTime := ⟨-8000000000000000000000, farPast_lo, farPast_hi⟩

/-- The threshold of the watermark is -10^19, which wraps to a time far in the future. -/
def wrapping : List (Input (Option Int64) 1 1 × Exec (Option Int64) Int64) :=
  [leftBatch [0], rightWatermark farPast, rightBatch [0]]

/-- The left row is evicted, and the right row that matches it finds nothing. -/
theorem farPast_evicts :
    Implied (tsConfig 0 2000000000000000000) (Fin.last 0) (Fin.last 0) ∧
      Fresh (tsConfig 0 2000000000000000000) .empty .empty ∧
      Runs.Along (step (tsConfig 0 2000000000000000000)) (fun op i =>
        InTime (tsConfig 0 2000000000000000000) (Fin.last 0) (Fin.last 0) op i.1)
        (freshStart 0 2000000000000000000) wrapping ∧
      dataRows (Runs.run (step (tsConfig 0 2000000000000000000)) (freshStart 0 2000000000000000000)
        wrapping).out = [] ∧
      filteredJoin (tsConfig 0 2000000000000000000) (wrapping.flatMap fun i => leftRows i.1)
        (wrapping.flatMap fun i => rightRows i.1) = [Fin.append (tsRow 0) (tsRow 0)] := by
  refine ⟨tsConfig_implied _ _, ⟨rfl, rfl⟩, ⟨?_, trivial, ?_, trivial⟩, ?_, ?_⟩
  · intro a _ ts _ lw hlw
    cases hlw
  · intro b hb us hus rw hrw
    rw [mem_singleton.mp hb] at hus
    cases hus
    cases hrw
    decide
  · decide
  · decide

end Zelox.Join
