import Zelox.Exchange.Distribute

/-!
# Streams row by row

To a keyed operator it is nothing how the rows of a stream are cut into batches; what counts
is their order, and where the markers stand between them: the `flow`.  The exchange hands
each output the flow of the rows it owns.  `coalesce_flow_events` in front of the Flight
transport cuts the batches anew, and drops nothing but what it holds at the first error.
-/

namespace Zelox.Exchange

open List

variable {α K : Type}

/-- The rows of the data batches and the markers, up to the first error. -/
def flow : List (Item α) → List (α ⊕ FlowMarker)
  | [] => []
  | .error _ :: _ => []
  | .ok b :: items =>
    match b.firstMarker with
    | none => b.data.map .inl ++ flow items
    | some (.ok m) => .inr m :: flow items
    | some (.error _) => []

theorem flow_data_append {xs : List (Item α)} (h : ∀ x ∈ xs, Item.isData x = true)
    (items : List (Item α)) : flow (xs ++ items) = (dataRows xs).map .inl ++ flow items := by
  induction xs with
  | nil => rfl
  | cons x xs ih =>
    obtain ⟨hx, hxs⟩ := forall_mem_cons.mp h
    cases x with
    | error e => cases hx
    | ok b =>
      have hx : b.isData = true := hx
      simp [flow, ih hxs, dataRows, hx, Option.isNone_iff_eq_none.mp hx]

/-- An output gets the rows routed to it, and every marker in its place. -/
theorem flow_distribute (hash : K → UInt64) (hashKeys : α → K) {n i : Nat} (hi : i < n)
    (items : List (Item α)) :
    flow (sentTo i (distribute hash hashKeys n items)) =
      (flow items).filter (Sum.elim (fun row => route hash n (hashKeys row) = i) fun _ => true) := by
  induction items with
  | nil => rfl
  | cons item items ih =>
    cases item with
    | error e =>
      show flow (sentTo i [(0, .error e)]) = []
      by_cases h0 : 0 = i <;> simp [sentTo, flow, h0]
    | ok b =>
      rw [distribute]
      split
      · next hb =>
        have hm : b.firstMarker = none := Option.isNone_iff_eq_none.mp hb
        rw [sentTo_append, flow_data_append, dataRows_split fun owner =>
          b.data.filter fun row => route hash n (hashKeys row) = owner, if_pos hi, ih]
        · simp [flow, hm, filter_map, Function.comp_def]
        · intro x hx
          obtain ⟨s, hs, rfl⟩ := mem_map.mp hx
          obtain ⟨o, -, ho⟩ := mem_filterMap.mp (mem_filter.mp hs).1
          unfold ownerBatch at ho
          split at ho
          · cases ho
          · cases ho
            exact isData_encodeData _
      · next hb =>
        have hall : sentTo i ((List.range n).map fun tx => (tx, (.ok b : Item α))) = [.ok b] := by
          simp [sentTo, filter_map, Function.comp_def, filter_eq, hi]
        rw [sentTo_append, hall, singleton_append, flow, flow, ih]
        rcases hm : b.firstMarker with _ | e | m
        · exact absurd (Option.isNone_iff_eq_none.mpr hm) hb
        · rfl
        · rfl

/-! ## The coalescer -/

/-- Arrow's `BatchCoalescer` for a positive target: it hands on what it is given in order, cut into
batches anew.  `push` and `finish` also drain what they complete, and `none` is an error. -/
structure BatchCoalescer (α : Type) where
  State : Type
  new : State
  buffered : State → List α
  push : State → List α → Option (List (List α) × State)
  finish : State → Option (List (List α) × State)
  buffered_new : buffered new = []
  push_rows : ∀ s rows batches s', push s rows = some (batches, s') →
    batches.flatten ++ buffered s' = buffered s ++ rows
  finish_rows : ∀ s batches s', finish s = some (batches, s') →
    batches.flatten = buffered s ∧ buffered s' = []

section

variable (c : BatchCoalescer α)

def toItems (batches : List (List α)) : List (Item α) :=
  batches.map fun rows => .ok (.encodeData rows)

/-- `flush!` -/
def flush (s : c.State) : Except String (List (Item α) × c.State) :=
  match c.finish s with
  | some (batches, s') => .ok (toItems batches, s')
  | none => .error "coalescer"

/-- One turn of the loop of `coalesce_flow_events`: an item of the input, or the flush timer
(`none`). -/
def coalesceTurn (s : c.State) : Option (Item α) → Except String (List (Item α) × c.State)
  | none => flush c s
  | some (.error e) => .error e
  | some (.ok batch) =>
    if batch.isData then
      match c.push s batch.data with
      | some (batches, s') => .ok (toItems batches, s')
      | none => .error "coalescer"
    else (flush c s).map fun (items, s') => (items ++ [.ok batch], s')

/-- What is sent: the first error ends the stream. -/
def coalesceFlowEvents : c.State → List (Option (Item α)) → List (Item α)
  | s, [] =>
    match flush c s with
    | .ok (items, _) => items
    | .error e => [.error e]
  | s, turn :: turns =>
    match coalesceTurn c s turn with
    | .ok (items, s') => items ++ coalesceFlowEvents s' turns
    | .error e => [.error e]

/-- Where the first error is met: the coalescer and the turns from there on. -/
def stopped : c.State → List (Option (Item α)) → Option (c.State × List (Option (Item α)))
  | s, [] =>
    match flush c s with
    | .ok _ => none
    | .error _ => some (s, [])
  | s, turn :: turns =>
    match coalesceTurn c s turn with
    | .ok (_, s') => stopped s' turns
    | .error _ => some (s, turn :: turns)

/-- The rows of the data batches and the marker batches, up to the first error. -/
def content : List (Item α) → List (α ⊕ RecordBatch α)
  | [] => []
  | .error _ :: _ => []
  | .ok b :: items => (if b.isData then b.data.map .inl else [.inr b]) ++ content items

/-- What is still to be sent: the buffer and the rest of the input. -/
def pending (s : c.State) (turns : List (Option (Item α))) : List (α ⊕ RecordBatch α) :=
  (c.buffered s).map .inl ++ content (turns.filterMap id)

theorem content_toItems (batches : List (List α)) (items : List (Item α)) :
    content (toItems batches ++ items) = batches.flatten.map .inl ++ content items := by
  induction batches with
  | nil => rfl
  | cons rows batches ih =>
    have hcons : toItems (rows :: batches) ++ items =
        .ok (.encodeData rows) :: (toItems batches ++ items) := rfl
    rw [hcons, content, ih, if_pos (isData_encodeData rows), flatten_cons, map_append, append_assoc]
    rfl

/-- A flush sends the buffer. -/
theorem content_flush {s s' : c.State} {sent : List (Item α)} (h : flush c s = .ok (sent, s'))
    (items : List (Item α)) :
    content (sent ++ items) = (c.buffered s).map .inl ++ content items ∧ c.buffered s' = [] := by
  unfold flush at h
  split at h
  · next batches s1 hf =>
    obtain ⟨rfl, rfl⟩ := Prod.mk.inj (Except.ok.inj h)
    obtain ⟨hrows, hempty⟩ := c.finish_rows s batches s1 hf
    exact ⟨by rw [content_toItems, hrows], hempty⟩
  · cases h

/-- A turn sends the beginning of what is pending. -/
theorem content_coalesceTurn {s s' : c.State} {turn : Option (Item α)} {sent : List (Item α)}
    (h : coalesceTurn c s turn = .ok (sent, s')) {turns : List (Option (Item α))}
    {items : List (Item α)} {rest : List (α ⊕ RecordBatch α)}
    (hrest : content items ++ rest = pending c s' turns) :
    content (sent ++ items) ++ rest = pending c s (turn :: turns) := by
  match turn with
  | none =>
    obtain ⟨hsent, hempty⟩ := content_flush c h items
    rw [hsent, append_assoc, hrest, pending, hempty]
    rfl
  | some (.error e) => cases h
  | some (.ok b) =>
    have hpending : pending c s (some (.ok b) :: turns) = (c.buffered s).map .inl ++
        ((if b.isData then b.data.map .inl else [.inr b]) ++ content (turns.filterMap id)) := rfl
    rw [hpending]
    rw [coalesceTurn] at h
    split at h
    · next hb =>
      rw [if_pos hb]
      split at h
      · next batches s1 hp =>
        obtain ⟨rfl, rfl⟩ := Prod.mk.inj (Except.ok.inj h)
        rw [content_toItems, append_assoc, hrest, pending, ← append_assoc, ← map_append,
          c.push_rows s b.data batches s1 hp, map_append, append_assoc]
      · cases h
    · next hb =>
      rw [if_neg hb]
      cases hf : flush c s with
      | error e => rw [hf] at h; cases h
      | ok p =>
        obtain ⟨sent', s1⟩ := p
        rw [hf] at h
        obtain ⟨rfl, rfl⟩ := Prod.mk.inj (Except.ok.inj h)
        obtain ⟨hsent, hempty⟩ := content_flush c hf (.ok b :: items)
        rw [append_assoc, singleton_append, hsent, content, if_neg hb, append_assoc, append_assoc,
          hrest, pending, hempty]
        rfl

theorem content_append_pending (s : c.State) (turns : List (Option (Item α))) :
    content (coalesceFlowEvents c s turns) ++
        (stopped c s turns).elim [] (fun p => pending c p.1 p.2) = pending c s turns := by
  induction turns generalizing s with
  | nil =>
    rw [coalesceFlowEvents, stopped]
    cases hf : flush c s with
    | ok p =>
      obtain ⟨hsent, -⟩ := content_flush c hf []
      rw [append_nil] at hsent
      exact (append_nil _).trans hsent
    | error e => rfl
  | cons turn turns ih =>
    rw [coalesceFlowEvents, stopped]
    cases ht : coalesceTurn c s turn with
    | ok p => exact content_coalesceTurn c ht (ih p.2)
    | error e => rfl

/-- The rows and marker batches of the input are sent on in order.  What is missing is what the
coalescer holds when it meets the first error, and what it has not read. -/
theorem coalesceFlowEvents_content (turns : List (Option (Item α))) :
    content (coalesceFlowEvents c c.new turns) ++
        (stopped c c.new turns).elim [] (fun p => pending c p.1 p.2) =
      content (turns.filterMap id) := by
  rw [content_append_pending, pending, c.buffered_new]
  rfl

end

/-- A coalescer that cuts batches of `target` rows. -/
def cut (target : Nat) : List α → List α → List (List α) × List α
  | buffered, [] => ([], buffered)
  | buffered, row :: rows =>
    if target ≤ buffered.length + 1 then
      let (batches, rest) := cut target [] rows
      ((buffered ++ [row]) :: batches, rest)
    else cut target (buffered ++ [row]) rows

theorem flatten_cut (target : Nat) (buffered rows : List α) :
    (cut target buffered rows).1.flatten ++ (cut target buffered rows).2 = buffered ++ rows := by
  induction rows generalizing buffered with
  | nil => simp [cut]
  | cons row rows ih =>
    rw [cut]
    split
    · simp [ih []]
    · simp [ih (buffered ++ [row])]

def cutter (α : Type) (target : Nat) : BatchCoalescer α where
  State := List α
  new := []
  buffered := id
  push s rows := some (cut target s rows)
  finish s := some ([s].filter (· ≠ []), [])
  buffered_new := rfl
  push_rows s rows batches s' h := by
    obtain ⟨rfl, rfl⟩ := Prod.mk.inj (Option.some.inj h)
    exact flatten_cut target s rows
  finish_rows s batches s' h := by
    obtain ⟨rfl, rfl⟩ := Prod.mk.inj (Option.some.inj h)
    cases s <;> simp

/-- The third row is in the buffer when the input fails. -/
theorem coalesceFlowEvents_content_cutter :
    coalesceFlowEvents (cutter Nat 2) [] [some (.ok (.encodeData [1, 2, 3])), some (.error "down")] =
        [.ok (.encodeData [1, 2]), .error "down"] ∧
      content [.ok (.encodeData [1, 2]), .error "down"] ++ [.inl 3] =
        content [.ok (.encodeData [1, 2, 3]), .error "down"] :=
  ⟨rfl, coalesceFlowEvents_content (cutter Nat 2)
    [some (.ok (.encodeData [1, 2, 3])), some (.error "down")]⟩

end Zelox.Exchange
