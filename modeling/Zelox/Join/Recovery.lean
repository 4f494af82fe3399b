import Zelox.Join.EndOfData

/-!
# Restoring the join after a failed micro-batch

A `JoinState` is what the join remembers: the rows of both sides and the watermarks.  The
operator refines it (`view_step`): how the rows are split into buffer and chunks, and
what the store takes, has no effect on it.

With incremental checkpoints every `EndOfData` writes a residual and a manifest under one
fixed epoch, in place, and a restarted join reads them (`restoreSide_of_snapped`).
`commit_source_offsets` promotes staged objects, of which the snapshot is none.  So a
micro-batch that fails behind its snapshot is restored as if committed; and if an eviction
runs behind the snapshot, its spilled rows are gone.  The last commit is restored exactly
if every failed micro-batch left the state as it was (`restores_iff`).
-/

namespace Zelox.Join

open StateIo List

variable {C V : Type} {l r n : Nat}

/-! ## What the join remembers -/

structure JoinState (C : Type) (l r : Nat) where
  left : Multiset (Row C l)
  right : Multiset (Row C r)
  lwm : Option Int64
  rwm : Option Int64
  lastWm : Option Int64

namespace JoinState

variable (cfg : Config C V l r)

def keep (tsIdx : Fin n) (threshold : Int64) (rows : Multiset (Row C n)) : Multiset (Row C n) :=
  rows.filter fun row => keeps cfg tsIdx threshold row = true

/-- The minimum of the watermarks, if it has advanced. -/
def forward (s : JoinState C l r) : JoinState C l r :=
  match s.lwm, s.rwm with
  | some lw, some rw =>
    if s.lastWm.all fun prev => prev < min lw rw then { s with lastWm := some (min lw rw) } else s
  | _, _ => s

def evictLeft (upper : Int64) (s : JoinState C l r) : JoinState C l r :=
  match s.rwm, cfg.leftTsIdx with
  | some rw, some idx => { s with left := keep cfg idx (rw - upper) s.left }
  | _, _ => s

def evictRight (lower : Int64) (s : JoinState C l r) : JoinState C l r :=
  match s.lwm, cfg.rightTsIdx with
  | some lw, some idx => { s with right := keep cfg idx (lw + lower) s.right }
  | _, _ => s

def onWatermark (s : JoinState C l r) : JoinState C l r :=
  match cfg.intervalBounds with
  | some (lower, upper) => evictRight cfg lower (evictLeft cfg upper s.forward)
  | none => s.forward

/-- Data adds rows, a watermark advances and evicts. -/
def step (s : JoinState C l r) : Input C l r → JoinState C l r
  | .left (.data batch _) => { s with left := s.left + batch }
  | .right (.data batch _) => { s with right := s.right + batch }
  | .left (.marker (.watermark _ t)) =>
    onWatermark cfg { s with lwm := some (advance s.lwm t.timestampMicros) }
  | .right (.marker (.watermark _ t)) =>
    onWatermark cfg { s with rwm := some (advance s.rwm t.timestampMicros) }
  | _ => s

end JoinState

/-- What the operator remembers. -/
def view (cfg : Config C V l r) (op : Op C l r) : JoinState C l r :=
  ⟨content cfg op.left, content cfg op.right, op.lwm, op.rwm, op.lastWm⟩

/-- Sound sides, and no watermark that the snapshot takes for a missing one. -/
structure OpOk (cfg : Config C V l r) (op : Op C l r) : Prop where
  left : SideOk cfg op.left
  right : SideOk cfg op.right
  lwm : op.lwm ≠ some Int64.minValue
  rwm : op.rwm ≠ some Int64.minValue
  lastWm : op.lastWm ≠ some Int64.minValue

/-! ## Refinement -/

section Refinement

variable {cfg : Config C V l r} {op : Op C l r}

theorem OpOk.forwardWatermark (h : OpOk cfg op) : OpOk cfg (forwardWatermark op) := by
  unfold Join.forwardWatermark
  split
  case h_1 lw rw hlw hrw =>
    split
    · refine { h with lastWm := ?_ }
      intro hmin
      -- the minimum is one of the two watermarks
      rw [Option.some.injEq, Int64.min_eq_ite] at hmin
      split at hmin
      · exact h.lwm (by rw [hlw, hmin])
      · exact h.rwm (by rw [hrw, hmin])
    · exact h
  case h_2 => exact h

theorem view_forwardWatermark (cfg : Config C V l r) (op : Op C l r) :
    view cfg (forwardWatermark op) = (view cfg op).forward := by
  cases hlw : op.lwm with
  | none => simp only [forwardWatermark, JoinState.forward, view, hlw]
  | some lw =>
    cases hrw : op.rwm with
    | none => simp only [forwardWatermark, JoinState.forward, view, hlw, hrw]
    | some rw =>
      simp only [forwardWatermark, JoinState.forward, view, hlw, hrw]
      split
      · rfl
      · rw [hlw, hrw]

theorem advance_ne_minValue (wm : Option Int64) (t : DateTime) (h : wm ≠ some Int64.minValue) :
    some (advance wm t.timestampMicros) ≠ some Int64.minValue := by
  intro heq
  have hnew : t.timestampMicros ≠ Int64.minValue := by
    intro hmin
    have hlt := t.minValue_lt_timestampMicros
    rw [hmin] at hlt
    exact Int64.lt_irrefl hlt
  have hne : ∀ w, some (advance wm t.timestampMicros) = some w → w ≠ Int64.minValue :=
    advance_ind (fun w hw hmin => h (by rw [hw, hmin])) hnew
  exact hne _ rfl (Option.some.inj heq)

variable [DecidableEq V] (x : Exec C V)

section

variable (h : OpOk cfg op)
include h

theorem evictLeft_refines (upper : Int64) :
    OpOk cfg (evictLeft x cfg upper op) ∧
      view cfg (evictLeft x cfg upper op) = (view cfg op).evictLeft cfg upper := by
  cases hrw : op.rwm with
  | none =>
    simp only [evictLeft, JoinState.evictLeft, view, hrw]
    exact ⟨h, trivial⟩
  | some rw =>
    cases hidx : cfg.leftTsIdx with
    | none =>
      simp only [evictLeft, JoinState.evictLeft, view, hrw, hidx]
      exact ⟨h, trivial⟩
    | some idx =>
      obtain ⟨hok, hc⟩ := evictRespillSide_spec x .left cfg op.left idx (rw - upper)
      simp only [evictLeft, JoinState.evictLeft, view, hrw, hidx, hc]
      exact ⟨⟨hok, h.right, h.lwm, hrw ▸ h.rwm, h.lastWm⟩, rfl⟩

theorem evictRight_refines (lower : Int64) :
    OpOk cfg (evictRight x cfg lower op) ∧
      view cfg (evictRight x cfg lower op) = (view cfg op).evictRight cfg lower := by
  cases hlw : op.lwm with
  | none =>
    simp only [evictRight, JoinState.evictRight, view, hlw]
    exact ⟨h, trivial⟩
  | some lw =>
    cases hidx : cfg.rightTsIdx with
    | none =>
      simp only [evictRight, JoinState.evictRight, view, hlw, hidx]
      exact ⟨h, trivial⟩
    | some idx =>
      obtain ⟨hok, hc⟩ := evictRespillSide_spec x .right cfg op.right idx (lw + lower)
      simp only [evictRight, JoinState.evictRight, view, hlw, hidx, hc]
      exact ⟨⟨h.left, hok, hlw ▸ h.lwm, h.rwm, h.lastWm⟩, rfl⟩

theorem onWatermark_refines :
    OpOk cfg (onWatermark x cfg op) ∧
      view cfg (onWatermark x cfg op) = (view cfg op).onWatermark cfg := by
  cases hb : cfg.intervalBounds with
  | none =>
    simp only [onWatermark, JoinState.onWatermark, hb]
    exact ⟨h.forwardWatermark, view_forwardWatermark cfg op⟩
  | some bounds =>
    obtain ⟨hok, hview⟩ := evictLeft_refines x h.forwardWatermark bounds.2
    obtain ⟨hok', hview'⟩ := evictRight_refines x hok bounds.1
    simp only [onWatermark, JoinState.onWatermark, hb]
    exact ⟨hok', by rw [hview', hview, view_forwardWatermark]⟩

theorem onLeftData_refines (batch : Batch C l) :
    OpOk cfg (onLeftData x cfg op batch) ∧
      view cfg (onLeftData x cfg op batch) =
        { view cfg op with left := (view cfg op).left + (batch : Multiset (Row C l)) } := by
  unfold onLeftData
  split
  case isTrue hempty =>
    rw [List.isEmpty_iff.mp hempty, Multiset.coe_nil, add_zero]
    exact ⟨h, rfl⟩
  case isFalse =>
    obtain ⟨hok, hc⟩ := pushBatch_spec x .left h.left batch
    refine ⟨⟨hok, h.right, h.lwm, h.rwm, h.lastWm⟩, ?_⟩
    unfold view
    rw [hc]

theorem onRightData_refines (batch : Batch C r) :
    OpOk cfg (onRightData x cfg op batch) ∧
      view cfg (onRightData x cfg op batch) =
        { view cfg op with right := (view cfg op).right + (batch : Multiset (Row C r)) } := by
  unfold onRightData
  split
  case isTrue hempty =>
    rw [List.isEmpty_iff.mp hempty, Multiset.coe_nil, add_zero]
    exact ⟨h, rfl⟩
  case isFalse =>
    obtain ⟨hok, hc⟩ := pushBatch_spec x .right h.right batch
    refine ⟨⟨h.left, hok, h.lwm, h.rwm, h.lastWm⟩, ?_⟩
    unfold view
    rw [hc]

end

omit [DecidableEq V] in
theorem onEndOfData_refines (h : OpOk cfg op) :
    OpOk cfg (onEndOfData cfg op) ∧ view cfg (onEndOfData cfg op) = view cfg op := by
  unfold onEndOfData
  simp only
  split
  · obtain ⟨hokl, hcl⟩ := stageSide_spec h.left (snapshotInfo op.toJoinAccum)
    obtain ⟨hokr, hcr⟩ := stageSide_spec h.right []
    refine ⟨⟨hokl, hokr, h.lwm, h.rwm, h.lastWm⟩, ?_⟩
    unfold view
    rw [hcl, hcr]
  · exact ⟨{ h with }, rfl⟩

theorem view_step (h : OpOk cfg op) (i : Input C l r × Exec C V) :
    OpOk cfg (step cfg op i) ∧ view cfg (step cfg op i) = (view cfg op).step cfg i.1 := by
  obtain ⟨i, x⟩ := i
  have hforward : ∀ m : FlowMarker, OpOk cfg { op with out := op.out ++ [.marker m] } := fun _ =>
    { h with }
  cases i with
  | left event =>
    cases event with
    | data batch _ => exact onLeftData_refines x h batch
    | marker m =>
      cases m with
      | watermark _ t =>
        exact onWatermark_refines x
          { h with lwm := advance_ne_minValue op.lwm t h.lwm }
      | endOfData => exact onEndOfData_refines h
      | latencyTracker _ _ _ | checkpoint _ | idle _ => exact ⟨hforward _, rfl⟩
  | right event =>
    cases event with
    | data batch _ => exact onRightData_refines x h batch
    | marker m =>
      cases m with
      | watermark _ t =>
        exact onWatermark_refines x
          { h with rwm := advance_ne_minValue op.rwm t h.rwm }
      | endOfData => exact onEndOfData_refines h
      | latencyTracker _ _ _ | checkpoint _ | idle _ => exact ⟨hforward _, rfl⟩

theorem view_run (h : OpOk cfg op) (is : List (Input C l r × Exec C V)) :
    OpOk cfg (Runs.run (step cfg) op is) ∧
      view cfg (Runs.run (step cfg) op is) =
        Runs.run (JoinState.step cfg) (view cfg op) (is.map Prod.fst) := by
  induction is generalizing op with
  | nil => exact ⟨h, rfl⟩
  | cons i is ih =>
    obtain ⟨hok, hview⟩ := view_step h i
    obtain ⟨hok', hview'⟩ := ih hok
    refine ⟨hok', ?_⟩
    rw [Runs.run_cons, hview', hview]
    rfl

end Refinement

/-! ## A snapshot in the store -/

/-- Batches were pushed: fresh chunks were written, and nothing else. -/
structure Ahead (s s' : SideState C n) : Prop where
  next : s.next ≤ s'.next
  live : ∀ i ∈ s.spilled, i ∈ s'.spilled
  get : ∀ k, (∀ j, s.next ≤ j → k ≠ .spill j) → s'.ck.get k = s.ck.get k

theorem Ahead.rfl {s : SideState C n} : Ahead s s := ⟨Nat.le_refl _, fun _ hi => hi, fun _ _ => by rfl⟩

theorem Ahead.trans {s s' s'' : SideState C n} (h : Ahead s s') (h' : Ahead s' s'') : Ahead s s'' where
  next := le_trans h.next h'.next
  live i hi := h'.live i (h.live i hi)
  get k hk := (h'.get k fun j hj => hk j (le_trans h.next hj)).trans (h.get k hk)

section Push

variable [DecidableEq V] (x : Exec C V) (cfg : Config C V l r) (side : Side)

theorem ahead_spillSideOverBudget (s : SideState C n) : Ahead s (spillSideOverBudget x cfg side s) := by
  unfold spillSideOverBudget
  split
  case isFalse => exact Ahead.rfl
  case isTrue =>
    unfold writeSpill
    cases x.taken side s.next s.buf with
    | false => exact Ahead.rfl
    | true =>
      refine ⟨Nat.le_succ _, fun i hi => mem_append_left _ hi, fun k hk => ?_⟩
      exact Store.get_put_of_ne _ _ _ _ (hk s.next (le_rfl))

theorem ahead_pushBatch (s : SideState C n) (batch : Batch C n) :
    Ahead s (pushBatch x cfg side s batch) := by
  have hspill := ahead_spillSideOverBudget x cfg side
    { s with buf := s.buf ++ [batch], bytes := s.bytes + x.memorySize batch }
  exact ⟨hspill.next, hspill.live, hspill.get⟩

theorem ahead_foldl_pushBatch (s : SideState C n) (batches : List (Batch C n)) :
    Ahead s (batches.foldl (pushBatch x cfg side) s) := by
  induction batches generalizing s with
  | nil => exact Ahead.rfl
  | cons batch batches ih => exact (ahead_pushBatch x cfg side s batch).trans (ih _)

end Push

/-- The side was snapshot as `s0`; an eviction deletes every live chunk, those of the snapshot among
them. -/
structure Snapped (s0 : SideState C n) (evicted : Bool) (s : SideState C n) : Prop where
  next : s0.next ≤ s.next
  live : evicted = false → ∀ i ∈ s0.spilled, i ∈ s.spilled
  other : ∀ k, (∀ j, k ≠ .spill j) → s.ck.get k = s0.ck.get k
  chunk : ∀ i ∈ s0.spilled, s.ck.get (.spill i) = if evicted then none else s0.ck.get (.spill i)

namespace Snapped

variable {cfg : Config C V l r} {s0 s s' : SideState C n} {evicted : Bool}

theorem start (s0 : SideState C n) : Snapped s0 false s0 where
  next := le_rfl
  live _ _ hi := hi
  other _ _ := rfl
  chunk _ _ := rfl

theorem ahead (h : Snapped s0 evicted s) (h0 : SideOk cfg s0) (hs : Ahead s s') :
    Snapped s0 evicted s' where
  next := le_trans h.next hs.next
  live he i hi := hs.live i (h.live he i hi)
  other k hk := (hs.get k fun j _ => hk j).trans (h.other k hk)
  chunk i hi := by
    rw [hs.get, h.chunk i hi]
    rintro j hj ⟨⟩
    exact absurd (h0.below i hi) (not_lt.mpr (le_trans h.next hj))

theorem evict [DecidableEq V] (h : Snapped s0 evicted s) (h0 : SideOk cfg s0)
    (hstore : cfg.hasStore = true) (x : Exec C V) (side : Side) (tsIdx : Fin n) (threshold : Int64) :
    Snapped s0 true (evictRespillSide x cfg side s tsIdx threshold) := by
  unfold evictRespillSide
  simp only [hstore, if_true]
  -- the chunks are deleted first, then what is kept is pushed
  refine ahead ?_ h0 (ahead_foldl_pushBatch x cfg side _ _)
  refine ⟨h.next, nofun, fun k hk => ?_, fun i hi => ?_⟩
  · show (s.spilled.foldl deleteSpill s.ck).get k = _
    rw [get_foldl_deleteSpill _ _ _ fun i _ => hk i]
    exact h.other k hk
  · show (s.spilled.foldl deleteSpill s.ck).get (.spill i) = none
    rw [get_spill_foldl_deleteSpill]
    split
    case isTrue => rfl
    case isFalse hnot =>
      rw [h.chunk i hi]
      cases evicted with
      | true => rfl
      | false => exact absurd (h.live rfl i hi) hnot

end Snapped

/-- What a snapshot restores: the buffer, and the chunks unless an eviction has run. -/
theorem restoreSide_of_snapped {cfg : Config C V l r} (hinc : cfg.incCkpt = true)
    {s s' : SideState C n} {info : List Int64} {evicted : Bool}
    (h : Snapped (stageSide cfg s info) evicted s') :
    restoreSide cfg s'.ck =
      (s.buf ++ (if evicted then [] else s.spilled.flatMap (readSpill s.ck)), info) := by
  have hstage : stageSide cfg s info =
      { s with ck := stageEpochIncremental s.ck joinSnapshotEpoch s.buf s.spilled info } := by
    unfold stageSide
    rw [if_pos hinc]
  rw [hstage] at h
  have hmanifest : s'.ck.get (.manifest joinSnapshotEpoch) = some (.manifest info s.spilled) := by
    rw [h.other _ (by simp)]
    exact Store.get_put_self _ _ _
  have hresidual : s'.ck.get (.residual joinSnapshotEpoch) = some (.state s.buf []) := by
    rw [h.other _ (by simp)]
    unfold stageEpochIncremental
    rw [Store.get_put_of_ne _ _ _ _ (by simp)]
    exact Store.get_put_self _ _ _
  have hchunks : s.spilled.flatMap (readSpill s'.ck) =
      if evicted then [] else s.spilled.flatMap (readSpill s.ck) := by
    cases evicted with
    | true =>
      rw [if_pos rfl]
      refine flatMap_eq_nil_iff.mpr fun i hi => ?_
      unfold readSpill
      rw [h.chunk i hi]
      rfl
    | false =>
      rw [if_neg Bool.false_ne_true]
      refine flatMap_readSpill_congr _ _ _ fun i hi => ?_
      rw [h.chunk i hi, if_neg Bool.false_ne_true]
      unfold stageEpochIncremental
      rw [Store.get_put_of_ne _ _ _ _ (by simp), Store.get_put_of_ne _ _ _ _ (by simp)]
  unfold restoreSide restoreEpochIncremental
  rw [if_pos hinc, hmanifest]
  simp only
  rw [hresidual, hchunks]
  rfl

/-! ## Events behind a snapshot -/

def isWatermark : Input C l r → Bool
  | .left (.marker (.watermark _ _)) | .right (.marker (.watermark _ _)) => true
  | _ => false

/-- The event evicts from the left side, and from the right side. -/
def evictsLeft (cfg : Config C V l r) (s : JoinState C l r) (i : Input C l r) : Bool :=
  isWatermark i && cfg.intervalBounds.isSome && cfg.leftTsIdx.isSome && (s.step cfg i).rwm.isSome

def evictsRight (cfg : Config C V l r) (s : JoinState C l r) (i : Input C l r) : Bool :=
  isWatermark i && cfg.intervalBounds.isSome && cfg.rightTsIdx.isSome && (s.step cfg i).lwm.isSome

def evictsAny (cfg : Config C V l r) (evicts : JoinState C l r → Input C l r → Bool) :
    JoinState C l r → List (Input C l r) → Bool
  | _, [] => false
  | s, i :: is => evicts s i || evictsAny cfg evicts (s.step cfg i) is

/-- Both sides since their snapshots. -/
structure BothSnapped (l0 : SideState C l) (r0 : SideState C r) (el er : Bool) (op : Op C l r) :
    Prop where
  left : Snapped l0 el op.left
  right : Snapped r0 er op.right

section After

variable [DecidableEq V] {cfg : Config C V l r} {op : Op C l r} {l0 : SideState C l}
  {r0 : SideState C r} {el er : Bool}

omit [DecidableEq V] in
theorem JoinState.onWatermark_wms (cfg : Config C V l r) (s : JoinState C l r) :
    (s.onWatermark cfg).lwm = s.lwm ∧ (s.onWatermark cfg).rwm = s.rwm := by
  have hforward : s.forward.lwm = s.lwm ∧ s.forward.rwm = s.rwm := by
    unfold JoinState.forward
    split
    · split <;> exact ⟨rfl, rfl⟩
    · exact ⟨rfl, rfl⟩
  have hleft : ∀ upper (s : JoinState C l r), (s.evictLeft cfg upper).lwm = s.lwm ∧
      (s.evictLeft cfg upper).rwm = s.rwm := by
    intro upper s
    unfold JoinState.evictLeft
    split <;> exact ⟨rfl, rfl⟩
  have hright : ∀ lower (s : JoinState C l r), (s.evictRight cfg lower).lwm = s.lwm ∧
      (s.evictRight cfg lower).rwm = s.rwm := by
    intro lower s
    unfold JoinState.evictRight
    split <;> exact ⟨rfl, rfl⟩
  unfold JoinState.onWatermark
  split
  case h_1 lower upper _ =>
    obtain ⟨hl1, hr1⟩ := hleft upper s.forward
    obtain ⟨hl2, hr2⟩ := hright lower (s.forward.evictLeft cfg upper)
    exact ⟨hl2.trans (hl1.trans hforward.1), hr2.trans (hr1.trans hforward.2)⟩
  case h_2 => exact hforward

theorem BothSnapped.evictLeft (h : BothSnapped l0 r0 el er op) (h0 : SideOk cfg l0)
    (hstore : cfg.hasStore = true) (x : Exec C V) (upper : Int64) :
    BothSnapped l0 r0 (el || (cfg.leftTsIdx.isSome && op.rwm.isSome)) er
      (Join.evictLeft x cfg upper op) := by
  unfold Join.evictLeft
  cases hrw : op.rwm with
  | none => simpa using h
  | some rw =>
    cases hidx : cfg.leftTsIdx with
    | none => simpa using h
    | some idx =>
      rw [Option.isSome_some, Option.isSome_some, Bool.and_true, Bool.or_true]
      exact ⟨h.left.evict h0 hstore x .left idx (rw - upper), h.right⟩

theorem BothSnapped.evictRight (h : BothSnapped l0 r0 el er op) (h0 : SideOk cfg r0)
    (hstore : cfg.hasStore = true) (x : Exec C V) (lower : Int64) :
    BothSnapped l0 r0 el (er || (cfg.rightTsIdx.isSome && op.lwm.isSome))
      (Join.evictRight x cfg lower op) := by
  unfold Join.evictRight
  cases hlw : op.lwm with
  | none => simpa using h
  | some lw =>
    cases hidx : cfg.rightTsIdx with
    | none => simpa using h
    | some idx =>
      rw [Option.isSome_some, Option.isSome_some, Bool.and_true, Bool.or_true]
      exact ⟨h.left, h.right.evict h0 hstore x .right idx (lw + lower)⟩

omit [DecidableEq V] in
theorem forwardWatermark_sides (op : Op C l r) :
    (forwardWatermark op).left = op.left ∧ (forwardWatermark op).right = op.right ∧
      (forwardWatermark op).lwm = op.lwm ∧ (forwardWatermark op).rwm = op.rwm := by
  unfold forwardWatermark
  split
  · split <;> exact ⟨rfl, rfl, rfl, rfl⟩
  · exact ⟨rfl, rfl, rfl, rfl⟩

section

variable (h : BothSnapped l0 r0 el er op) (hl : SideOk cfg l0) (hr : SideOk cfg r0)
  (hstore : cfg.hasStore = true)
include h hl hr hstore

theorem BothSnapped.onWatermark (x : Exec C V) :
    BothSnapped l0 r0
      (el || (cfg.intervalBounds.isSome && cfg.leftTsIdx.isSome && op.rwm.isSome))
      (er || (cfg.intervalBounds.isSome && cfg.rightTsIdx.isSome && op.lwm.isSome))
      (Join.onWatermark x cfg op) := by
  obtain ⟨hleft, hright, hlwm, hrwm⟩ := forwardWatermark_sides op
  have hforward : BothSnapped l0 r0 el er (forwardWatermark op) :=
    ⟨hleft ▸ h.left, hright ▸ h.right⟩
  unfold Join.onWatermark
  cases hb : cfg.intervalBounds with
  | none => simpa using hforward
  | some bounds =>
    have hevict := (hforward.evictLeft hl hstore x bounds.2).evictRight hr hstore x bounds.1
    have hkeep : (Join.evictLeft x cfg bounds.2 (forwardWatermark op)).lwm =
        (forwardWatermark op).lwm := by
      unfold Join.evictLeft
      split <;> rfl
    rw [hkeep, hlwm, hrwm] at hevict
    simpa using hevict

/-- An event that ends no input adds chunks, or deletes those of the snapshot. -/
theorem BothSnapped.step (i : Input C l r × Exec C V) (hi : endsInput i.1 = false) :
    BothSnapped l0 r0 (el || evictsLeft cfg (view cfg op) i.1)
      (er || evictsRight cfg (view cfg op) i.1) (Join.step cfg op i) := by
  obtain ⟨i, x⟩ := i
  have hmarker : ∀ m : FlowMarker, BothSnapped l0 r0 (el || false) (er || false)
      { op with out := op.out ++ [.marker m] } := by
    intro m
    rw [Bool.or_false, Bool.or_false]
    exact ⟨h.left, h.right⟩
  cases i with
  | left event =>
    cases event with
    | data batch _ =>
      simp only [evictsLeft, evictsRight, isWatermark, Bool.false_and, Bool.or_false]
      show BothSnapped l0 r0 el er (onLeftData x cfg op batch)
      unfold onLeftData
      split
      · exact h
      · exact ⟨h.left.ahead hl (ahead_pushBatch x cfg .left op.left batch), h.right⟩
    | marker m =>
      cases m with
      | watermark _ t =>
        have hset : BothSnapped l0 r0 el er { op with lwm := some (advance op.lwm t.timestampMicros) } :=
          ⟨h.left, h.right⟩
        simp only [evictsLeft, evictsRight, isWatermark, Bool.true_and, JoinState.step,
          JoinState.onWatermark_wms]
        exact hset.onWatermark hl hr hstore x
      | endOfData => cases hi
      | latencyTracker _ _ _ | checkpoint _ | idle _ => exact hmarker _
  | right event =>
    cases event with
    | data batch _ =>
      simp only [evictsLeft, evictsRight, isWatermark, Bool.false_and, Bool.or_false]
      show BothSnapped l0 r0 el er (onRightData x cfg op batch)
      unfold onRightData
      split
      · exact h
      · exact ⟨h.left, h.right.ahead hr (ahead_pushBatch x cfg .right op.right batch)⟩
    | marker m =>
      cases m with
      | watermark _ t =>
        have hset : BothSnapped l0 r0 el er { op with rwm := some (advance op.rwm t.timestampMicros) } :=
          ⟨h.left, h.right⟩
        simp only [evictsLeft, evictsRight, isWatermark, Bool.true_and, JoinState.step,
          JoinState.onWatermark_wms]
        exact hset.onWatermark hl hr hstore x
      | endOfData => cases hi
      | latencyTracker _ _ _ | checkpoint _ | idle _ => exact hmarker _

theorem BothSnapped.run (hop : OpOk cfg op) (is : List (Input C l r × Exec C V))
    (his : ∀ i ∈ is, endsInput i.1 = false) :
    BothSnapped l0 r0 (el || evictsAny cfg (evictsLeft cfg) (view cfg op) (is.map Prod.fst))
      (er || evictsAny cfg (evictsRight cfg) (view cfg op) (is.map Prod.fst))
      (Runs.run (Join.step cfg) op is) := by
  induction is generalizing op el er with
  | nil => simpa [evictsAny] using h
  | cons i is ih =>
    rw [forall_mem_cons] at his
    obtain ⟨hok, hview⟩ := view_step hop i
    have hrest := ih (h.step hl hr hstore i his.1) hok his.2
    rw [hview, Bool.or_assoc, Bool.or_assoc] at hrest
    exact hrest

end

end After

/-! ## Micro-batches -/

/-- `EndOfData` on one of the inputs. -/
def endOf : Side → Input C l r
  | .left => .left (.marker .endOfData)
  | .right => .right (.marker .endOfData)

/-- The events up to the last `EndOfData` that arrives, and what is processed behind it if the
execution fails.  Committed when both inputs have ended. -/
structure MicroBatch (C V : Type) [DecidableEq V] (l r : Nat) where
  restoring : Exec C V
  before : List (Input C l r × Exec C V)
  last : Side
  after : List (Input C l r × Exec C V)
  committed : Bool
  after_runs : ∀ i ∈ after, endsInput i.1 = false
  ended : committed = true → after = []

/-- The store, and the state at the end of the last micro-batch that was committed. -/
structure Query (C : Type) (l r : Nat) where
  lck : Store (Batch C l)
  rck : Store (Batch C r)
  last : JoinState C l r

section Batches

variable [DecidableEq V]

/-- The operator when it reaches the last snapshot of the micro-batch. -/
def atSnapshot (cfg : Config C V l r) (q : Query C l r) (b : MicroBatch C V l r) : Op C l r :=
  Runs.run (step cfg) (start b.restoring cfg q.lck q.rck) b.before

/-- The operator when the micro-batch stops. -/
def atEnd (cfg : Config C V l r) (q : Query C l r) (b : MicroBatch C V l r) : Op C l r :=
  Runs.run (step cfg) (start b.restoring cfg q.lck q.rck)
    (b.before ++ (endOf b.last, b.restoring) :: b.after)

/-- `commit_source_offsets`, in the join's part of the store. -/
def commitState {B : Type} (ck : Store B) : Store B := promote ck .staged .committed

def runMicroBatch (cfg : Config C V l r) (q : Query C l r) (b : MicroBatch C V l r) : Query C l r :=
  let op := atEnd cfg q b
  if b.committed then ⟨commitState op.left.ck, commitState op.right.ck, view cfg op⟩
  else ⟨op.left.ck, op.right.ck, q.last⟩

/-- The query begins with what the store holds. -/
def begin (cfg : Config C V l r) (x : Exec C V) (lck : Store (Batch C l)) (rck : Store (Batch C r)) :
    Query C l r :=
  ⟨lck, rck, view cfg (start x cfg lck rck)⟩

/-- A restarted join restores the state of the last commit. -/
def Restores (cfg : Config C V l r) (q : Query C l r) : Prop :=
  ∀ x : Exec C V, view cfg (start x cfg q.lck q.rck) = q.last

/-- The last snapshot of a micro-batch as it is left: after an eviction, only rows that were not
spilled.  Which these are depends on the sizes of the batches and on what the store took before the
snapshot, so they are those the operator has in its buffer there. -/
def remains (cfg : Config C V l r) (q : Query C l r) (b : MicroBatch C V l r) (s : JoinState C l r) :
    JoinState C l r :=
  let after := b.after.map Prod.fst
  let op := atSnapshot cfg q b
  { s with
    left := if evictsAny cfg (evictsLeft cfg) s after then op.left.buf.flatten else s.left
    right := if evictsAny cfg (evictsRight cfg) s after then op.right.buf.flatten else s.right }

/-- What remains of the last snapshot are the rows and the watermarks that the micro-batch
began with. -/
def Unchanged (cfg : Config C V l r) (q : Query C l r) (b : MicroBatch C V l r) : Prop :=
  remains cfg q b (Runs.run (JoinState.step cfg) q.last (b.before.map Prod.fst)) = q.last

variable {cfg : Config C V l r}

theorem seen_getD (wm : Option Int64) (h : wm ≠ some Int64.minValue) :
    (if wm.getD Int64.minValue ≠ Int64.minValue then some (wm.getD Int64.minValue) else none) = wm := by
  cases wm with
  | none => rfl
  | some w =>
    rw [Option.getD_some, if_pos]
    intro hw
    exact h (by rw [hw])

theorem opOk_start (x : Exec C V) (cfg : Config C V l r) (lck : Store (Batch C l))
    (rck : Store (Batch C r)) : OpOk cfg (start x cfg lck rck) := by
  have hseen : ∀ ts : Int64, (if ts ≠ Int64.minValue then some ts else none) ≠ some Int64.minValue := by
    intro ts
    split
    case isTrue h => exact fun heq => h (Option.some.inj heq)
    case isFalse => exact nofun
  refine ⟨⟨nofun, fun _ => rfl⟩, ⟨nofun, fun _ => rfl⟩, ?_, ?_, ?_⟩
  all_goals
    unfold start
    simp only
    split
    · exact hseen _
    · exact nofun

/-- The store is read through `restoreSide` only, and sizes are not remembered. -/
theorem view_start_congr (x x' : Exec C V) {lck lck' : Store (Batch C l)}
    {rck rck' : Store (Batch C r)} (hl : restoreSide cfg lck' = restoreSide cfg lck)
    (hr : restoreSide cfg rck' = restoreSide cfg rck) :
    view cfg (start x' cfg lck' rck') = view cfg (start x cfg lck rck) := by
  unfold start
  rw [hl, hr]
  rfl

theorem view_start_of_info (x : Exec C V) (hstore : cfg.hasStore = true) {lck : Store (Batch C l)}
    {rck : Store (Batch C r)} {lb : List (Batch C l)} {rb : List (Batch C r)} {acc : JoinAccum C l r}
    {info : List Int64} (hl : restoreSide cfg lck = (lb, snapshotInfo acc))
    (hr : restoreSide cfg rck = (rb, info)) (hlwm : acc.lwm ≠ some Int64.minValue)
    (hrwm : acc.rwm ≠ some Int64.minValue) (hlast : acc.lastWm ≠ some Int64.minValue) :
    view cfg (start x cfg lck rck) = ⟨lb.flatten, rb.flatten, acc.lwm, acc.rwm, acc.lastWm⟩ := by
  unfold start
  rw [hl, hr]
  simp only [hstore, if_true, snapshotInfo, seen_getD _ hlwm, seen_getD _ hrwm, seen_getD _ hlast, view,
    content, gatherSide, flatMap_nil, append_nil]

omit [DecidableEq V] in
theorem restoreSide_commitState (hinc : cfg.incCkpt = true) (ck : Store (Batch C n)) :
    restoreSide cfg (commitState ck) = restoreSide cfg ck := by
  have hget : ∀ k : Key, k ≠ .staged → k ≠ .committed → (commitState ck).get k = ck.get k := by
    intro k hs hc
    unfold commitState promote
    split
    · rw [Store.get_delete_of_ne _ _ _ hs, Store.get_put_of_ne _ _ _ _ hc]
    · rfl
  unfold restoreSide
  rw [if_pos hinc, if_pos hinc]
  exact restoreEpochIncremental_congr _ _ _ (hget _ nofun nofun) (hget _ nofun nofun)
    fun _ _ _ i _ => hget _ nofun nofun

omit [DecidableEq V] in
theorem coe_flatten_snapshot (hstore : cfg.hasStore = true) (s : SideState C n) (evicted : Bool) :
    ((s.buf ++ if evicted then [] else s.spilled.flatMap (readSpill s.ck)).flatten :
        Multiset (Row C n)) = if evicted then (s.buf.flatten : Multiset (Row C n)) else content cfg s := by
  cases evicted with
  | true => simp
  | false => simp [content, gatherSide, hstore]

theorem atEnd_eq (cfg : Config C V l r) (q : Query C l r) (b : MicroBatch C V l r) :
    atEnd cfg q b = Runs.run (step cfg) (onEndOfData cfg (atSnapshot cfg q b)) b.after := by
  have hsnap : step cfg (atSnapshot cfg q b) (endOf b.last, b.restoring) =
      onEndOfData cfg (atSnapshot cfg q b) := by
    cases b.last <;> rfl
  unfold atEnd
  rw [Runs.run_append, Runs.run_cons]
  exact congrArg (Runs.run (step cfg) · b.after) hsnap

section

variable (hstore : cfg.hasStore = true) (hinc : cfg.incCkpt = true) (q : Query C l r)
  (b : MicroBatch C V l r)
include hstore hinc

theorem view_restart (x : Exec C V) :
    view cfg (start x cfg (runMicroBatch cfg q b).lck (runMicroBatch cfg q b).rck) =
      remains cfg q b (view cfg (atSnapshot cfg q b)) := by
  -- the snapshot, and what was done behind it
  have hok : OpOk cfg (atSnapshot cfg q b) := (view_run (opOk_start _ _ _ _) b.before).1
  have hstage : onEndOfData cfg (atSnapshot cfg q b) = { atSnapshot cfg q b with
      left := stageSide cfg (atSnapshot cfg q b).left (snapshotInfo (atSnapshot cfg q b).toJoinAccum)
      right := stageSide cfg (atSnapshot cfg q b).right []
      out := (atSnapshot cfg q b).out ++ [.marker .endOfData] } := by
    unfold onEndOfData
    rw [if_pos hstore]
  obtain ⟨hok', hview'⟩ := onEndOfData_refines hok
  have hsides := BothSnapped.run ⟨Snapped.start _, Snapped.start _⟩ hok'.left hok'.right hstore hok'
    b.after b.after_runs
  rw [← atEnd_eq, hview', Bool.false_or, Bool.false_or, hstage] at hsides
  have hcks : restoreSide cfg (runMicroBatch cfg q b).lck = restoreSide cfg (atEnd cfg q b).left.ck ∧
      restoreSide cfg (runMicroBatch cfg q b).rck = restoreSide cfg (atEnd cfg q b).right.ck := by
    unfold runMicroBatch
    split
    · exact ⟨restoreSide_commitState hinc _, restoreSide_commitState hinc _⟩
    · exact ⟨rfl, rfl⟩
  rw [view_start_of_info x hstore (hcks.1.trans (restoreSide_of_snapped hinc hsides.left))
    (hcks.2.trans (restoreSide_of_snapped hinc hsides.right)) hok.lwm hok.rwm hok.lastWm]
  rw [coe_flatten_snapshot hstore, coe_flatten_snapshot hstore]
  rfl

/-- A restored micro-batch leaves its own state for the next one, committed or not. -/
theorem restores_runMicroBatch (hq : Restores cfg q) :
    Restores cfg (runMicroBatch cfg q b) ↔ (b.committed = false → Unchanged cfg q b) := by
  have hview : view cfg (atSnapshot cfg q b) =
      Runs.run (JoinState.step cfg) q.last (b.before.map Prod.fst) := by
    rw [← hq b.restoring]
    exact (view_run (opOk_start _ _ _ _) b.before).2
  cases hc : b.committed with
  | true =>
    refine iff_of_true (fun x => ?_) nofun
    -- the micro-batch stops at its snapshot
    have hafter := b.ended hc
    have hlast : (runMicroBatch cfg q b).last = view cfg (atSnapshot cfg q b) := by
      unfold runMicroBatch
      rw [if_pos hc, atEnd_eq, hafter]
      exact (onEndOfData_refines (view_run (opOk_start _ _ _ _) b.before).1).2
    rw [view_restart hstore hinc, hlast]
    unfold remains
    rw [hafter]
    rfl
  | false =>
    have hlast : (runMicroBatch cfg q b).last = q.last := by
      unfold runMicroBatch
      rw [if_neg (by rw [hc]; exact Bool.false_ne_true)]
    unfold Restores Unchanged
    rw [hlast, ← hview]
    constructor
    · intro h _
      rw [← h b.restoring, view_restart hstore hinc]
    · intro h x
      rw [view_restart hstore hinc, h rfl]

end

/-- A restarted join restores the state of the last commit every time exactly if every failed
micro-batch left the state as it was. -/
theorem restores_iff (cfg : Config C V l r) (hstore : cfg.hasStore = true) (hinc : cfg.incCkpt = true)
    (x : Exec C V) (lck : Store (Batch C l)) (rck : Store (Batch C r))
    (bs : List (MicroBatch C V l r)) :
    (∀ done rest, bs = done ++ rest →
        Restores cfg (Runs.run (runMicroBatch cfg) (begin cfg x lck rck) done)) ↔
      Runs.Along (runMicroBatch cfg) (fun q b => b.committed = false → Unchanged cfg q b)
        (begin cfg x lck rck) bs := by
  refine Runs.forall_states_iff_along (runMicroBatch cfg) (fun _ _ => True) _ (fun _ => True)
    (Restores cfg) (fun _ _ _ _ => trivial) ?_ _ bs ?_ trivial ?_
  · intro q b _ _ hq
    exact restores_runMicroBatch hstore hinc q b hq
  · exact (Runs.along_iff _ _ _ _).mpr fun _ _ _ _ => trivial
  · intro x'
    exact view_start_congr x x' rfl rfl

end Batches

/-! ## A failed micro-batch -/

section Stopped

variable (C V : Type) [DecidableEq V] (l r : Nat)

theorem nil_runs : ∀ i ∈ ([] : List (Input C l r × Exec C V)), endsInput i.1 = false :=
  forall_mem_nil _

theorem nil_ended (committed : Bool) :
    committed = true → ([] : List (Input C l r × Exec C V)) = [] := fun _ => rfl

variable {C V l r}

/-- A micro-batch that stops at its snapshot. -/
def stoppedBatch (restoring : Exec C V) (before : List (Input C l r × Exec C V)) (last : Side)
    (committed : Bool) : MicroBatch C V l r where
  restoring
  before
  last
  after := []
  committed
  after_runs := nil_runs C V l r
  ended := nil_ended C V l r committed

end Stopped

/-- `tsConfig` with incremental checkpoints. -/
def incConfig : Config (Option Int64) Int64 1 1 := { tsConfig 0 5 with incCkpt := true }

/-- One row arrives on the left, and both inputs end. -/
def oneRow (committed : Bool) : MicroBatch (Option Int64) Int64 1 1 :=
  stoppedBatch (Exec.plain _ _) [leftBatch [0], leftEnd] .right committed

/-- Both inputs end, and the micro-batch fails. -/
def noRow : MicroBatch (Option Int64) Int64 1 1 := stoppedBatch (Exec.plain _ _) [leftEnd] .right false

theorem restores_behind_noRow :
    incConfig.hasStore = true ∧ incConfig.incCkpt = true ∧
      ∀ done rest, [oneRow true, noRow] = done ++ rest →
        Restores incConfig (Runs.run (runMicroBatch incConfig)
          (begin incConfig (Exec.plain _ _) .empty .empty) done) :=
  ⟨rfl, rfl, (restores_iff incConfig rfl rfl _ _ _ _).mpr ⟨nofun, fun _ => rfl, trivial⟩⟩

/-- The row of a micro-batch that failed is restored. -/
theorem failedRow_restored :
    (begin incConfig (Exec.plain _ _) .empty .empty).last.left = 0 ∧
      (view incConfig (start (Exec.plain _ _) incConfig
        (runMicroBatch incConfig (begin incConfig (Exec.plain _ _) .empty .empty) (oneRow false)).lck
        (runMicroBatch incConfig (begin incConfig (Exec.plain _ _) .empty .empty) (oneRow false)).rck)).left
        = {tsRow 0} ∧
      ¬ Restores incConfig
        (runMicroBatch incConfig (begin incConfig (Exec.plain _ _) .empty .empty) (oneRow false)) := by
  have hrow : (view incConfig (start (Exec.plain _ _) incConfig
      (runMicroBatch incConfig (begin incConfig (Exec.plain _ _) .empty .empty) (oneRow false)).lck
      (runMicroBatch incConfig (begin incConfig (Exec.plain _ _) .empty .empty) (oneRow false)).rck)).left
      = {tsRow 0} := by decide
  refine ⟨by decide, hrow, fun h => ?_⟩
  rw [h] at hrow
  cases Multiset.singleton_ne_zero (tsRow 0) hrow.symm

end Zelox.Join
