import Zelox.BarrierAlign.Align

/-!
# Levels of the barrier-aligning merge

An input's level is the number of barriers it has delivered, and the merge's level
the number it has forwarded.  An input that has not ended is at the merge's level,
or one above it while it is blocked (`AlignInv`), and so whatever is passed
through from an input is passed through at the level it has there (`OutInv`).
Neither uses the epoch numbers: the merge does not compare them.
-/

namespace Zelox.BarrierAlign

open List Option

open Function (update update_of_ne update_self)

variable {n : Nat} {α : Type}

/-! ## The part of an input that is read -/

/-- An error, or a marker that does not decode: the merge stops with an error at it. -/
def isFault : Item α → Bool
  | .ok b => b.firstMarker.any fun m => !m.isOk
  | .error _ => true

/-- What ends an input. -/
def stops (x : Item α) : Bool := Item.isEndOfData x || isFault x

/-- What an input delivers before it ends. -/
def readable (c : List (Item α)) : List (Item α) := c.takeWhile (!stops ·)

/-- The input ends with an error. -/
def faulty (c : List (Item α)) : Bool := (c.find? stops).any isFault

theorem readable_append (p r : List (Item α)) (h : ∀ x ∈ p, stops x = false) :
    readable (p ++ r) = p ++ readable r :=
  takeWhile_append_of_pos fun x hx => by rw [h x hx]; rfl

theorem faulty_append (p r : List (Item α)) (h : ∀ x ∈ p, stops x = false) :
    faulty (p ++ r) = faulty r := by
  unfold faulty
  rw [find?_append, find?_eq_none.mpr fun x hx => by simp [h x hx], none_or]

theorem readable_cons_of_stops (x : Item α) (r : List (Item α)) (h : stops x = true) :
    readable (x :: r) = [] := by
  simp [readable, h]

/-- The number of barriers in a stream. -/
def level (c : List (Item α)) : Nat := (epochs c).length

@[simp] theorem level_append (c d : List (Item α)) : level (c ++ d) = level c + level d := by
  simp [level]

/-- The number of barriers forwarded. -/
def outLevel (out : List (Yield n α)) : Nat := level (out.map (·.item))

@[simp] theorem outLevel_append (o o' : List (Yield n α)) :
    outLevel (o ++ o') = outLevel o + outLevel o' := by
  simp [outLevel]

theorem level_singleton (x : Item α) : level [x] = if (Item.checkpointId x).isSome then 1 else 0 := by
  unfold level epochs
  cases h : Item.checkpointId x <;> simp [h]

theorem outLevel_concat (out : List (Yield n α)) (y : Yield n α) :
    outLevel (out ++ [y]) = outLevel out + if (Item.checkpointId y.item).isSome then 1 else 0 := by
  rw [outLevel_append]
  exact congrArg _ (level_singleton y.item)

theorem checkpointId_of_marker {b : RecordBatch α} {e : Nat}
    (h : b.firstMarker = some (.ok (.checkpoint e))) :
    Item.checkpointId (.ok b : Item α) = some e := by
  simp [Item.checkpointId, RecordBatch.checkpointId, h]

/-- What is passed through from input `j`. -/
def passed (j : Fin n) (out : List (Yield n α)) : List (Item α) :=
  (out.filter fun y => y.src = some j).map (·.item)

@[simp] theorem passed_append (j : Fin n) (o o' : List (Yield n α)) :
    passed j (o ++ o') = passed j o ++ passed j o' := by
  simp [passed]

/-- Markers are passed through from input 0 only. -/
def forwards (j : Fin n) (x : Item α) : Bool := Item.isData x || j.val = 0

/-! ## The invariants -/

/-- What holds of the yields at all times. -/
structure OutInv (streams : Fin n → List (Item α)) (out : List (Yield n α)) : Prop where
  /-- an item is passed through at its own level -/
  pass : ∀ o1 y o2 j, out = o1 ++ y :: o2 → y.src = some j → Item.isError y.item = false →
    forwards j y.item = true ∧ ∃ p q, readable (streams j) = p ++ y.item :: q ∧ level p = outLevel o1
  order : ∀ j, (passed j out).Sublist (streams j)
  data : ∀ j, dataFrom j out <+: dataItems (readable (streams j))
  own : ∀ y ∈ out, y.src = none → Item.isData y.item = false ∧ Item.watermarkTime y.item = none
  endLast : ∀ o1 y o2, out = o1 ++ y :: o2 → Item.isEndOfData y.item = true → o2 = []
  /-- nobody is past an input that fails -/
  reach : ∀ k, faulty (streams k) = true → outLevel out ≤ level (readable (streams k))
  errors : ∀ y ∈ out, Item.isError y.item = true → ∃ k, faulty (streams k) = true

/-- The merge while it runs, over the consumed part `pre` of each input. -/
structure AlignInv (streams pre : Fin n → List (Item α)) (s : Align n α) : Prop where
  opened : ∀ j, s.ended j = false → streams j = pre j ++ s.receivers j
  closed : ∀ j, s.ended j = true → readable (streams j) = pre j ∧ faulty (streams j) = false ∧
    s.reached j = none ∧ level (pre j) ≤ outLevel s.out
  clean : ∀ j, ∀ x ∈ pre j, stops x = false
  data : ∀ j, dataFrom j s.out = dataItems (pre j)
  order : ∀ j, (passed j s.out).Sublist (pre j)
  levels : ∀ j, s.ended j = false →
    level (pre j) = outLevel s.out + if (s.reached j).isSome then 1 else 0
  blocked : ∀ j e, s.reached j = some e → ∃ b p, s.checkpointBatch j = some b ∧
    b.firstMarker = some (.ok (.checkpoint e)) ∧ pre j = p ++ [.ok b]
  endMarker : ∀ b, s.endBatch = some b → b.firstMarker = some (.ok .endOfData)
  noEnd : ∀ y ∈ s.out, Item.isEndOfData y.item = false

variable {streams pre : Fin n → List (Item α)} {s : Align n α}

theorem alignInv_init (streams : Fin n → List (Item α)) :
    AlignInv streams (fun _ => []) (Align.init streams) where
  opened := fun _ _ => rfl
  closed := fun _ h => by cases h
  clean := fun _ x hx => by cases hx
  data := fun _ => rfl
  order := fun _ => List.Sublist.refl _
  levels := fun _ _ => rfl
  blocked := fun _ _ h => by cases h
  endMarker := fun _ h => by cases h
  noEnd := fun _ h => by cases h

section

variable (h : AlignInv streams pre s)
include h

theorem AlignInv.readable_eq (j : Fin n) (hj : s.ended j = false) :
    readable (streams j) = pre j ++ readable (s.receivers j) := by
  rw [h.opened j hj, readable_append _ _ (h.clean j)]

theorem AlignInv.pre_le_readable (j : Fin n) :
    pre j <+: readable (streams j) := by
  cases hj : s.ended j with
  | true => exact (h.closed j hj).1 ▸ prefix_rfl
  | false => rw [h.readable_eq j hj]; exact prefix_append ..

theorem AlignInv.outLevel_le (k : Fin n) (hk : s.ended k = false) :
    outLevel s.out ≤ level (readable (streams k)) := by
  obtain ⟨r, hr⟩ := h.pre_le_readable k
  have := h.levels k hk
  rw [← hr, level_append]
  omega

theorem AlignInv.reach (k : Fin n) (hk : faulty (streams k) = true) :
    outLevel s.out ≤ level (readable (streams k)) := by
  refine h.outLevel_le k ?_
  rw [← Bool.not_eq_true]
  intro he
  rw [(h.closed k he).2.1] at hk
  cases hk

end

/-! ## Consuming one item -/

theorem readable_le (c : List (Item α)) : readable c <+: c := takeWhile_prefix _

theorem AlignInv.order_streams (h : AlignInv streams pre s) (j : Fin n) :
    (passed j s.out).Sublist (streams j) :=
  (h.order j).trans ((h.pre_le_readable j).trans (readable_le _)).sublist

theorem AlignInv.data_le (h : AlignInv streams pre s) (j : Fin n) :
    dataFrom j s.out <+: dataItems (readable (streams j)) := by
  rw [h.data j]
  exact (h.pre_le_readable j).filter _

theorem OutInv.concat {out : List (Yield n α)} (h : OutInv streams out) (y : Yield n α)
    (hend : ∀ z ∈ out, Item.isEndOfData z.item = false)
    (hpass : ∀ j, y.src = some j → Item.isError y.item = false → forwards j y.item = true ∧
      ∃ p q, readable (streams j) = p ++ y.item :: q ∧ level p = outLevel out)
    (horder : ∀ j, (passed j (out ++ [y])).Sublist (streams j))
    (hdata : ∀ j, dataFrom j (out ++ [y]) <+: dataItems (readable (streams j)))
    (hown : y.src = none → Item.isData y.item = false ∧ Item.watermarkTime y.item = none)
    (hreach : ∀ k, faulty (streams k) = true → outLevel (out ++ [y]) ≤ level (readable (streams k)))
    (herr : Item.isError y.item = true → ∃ k, faulty (streams k) = true) :
    OutInv streams (out ++ [y]) := by
  refine ⟨?_, horder, hdata, Lists.forall_mem_concat.mpr ⟨h.own, hown⟩, ?_, hreach,
    Lists.forall_mem_concat.mpr ⟨h.errors, herr⟩⟩
  · intro o1 z o2 j heq hz hok
    rcases Lists.concat_eq_append_cons heq with ⟨rfl, rfl, -⟩ | ⟨o3, hout, -⟩
    · exact hpass j hz hok
    · exact h.pass o1 z o3 j hout hz hok
  · intro o1 z o2 heq hz
    rcases Lists.concat_eq_append_cons heq with ⟨-, -, h2⟩ | ⟨o3, hout, -⟩
    · exact h2
    · rw [hend z (hout ▸ by simp)] at hz
      cases hz

theorem stops_of_marker (b : RecordBatch α) (m : FlowMarker) (hb : b.firstMarker = some (.ok m))
    (hm : m ≠ .endOfData) : stops (.ok b : Item α) = false := by
  simp [stops, Item.isEndOfData, RecordBatch.isEndOfData, isFault, hb, hm, Except.isOk, Except.toBool]

theorem update_concat (pre : Fin n → List (Item α)) (j : Fin n) (x : Item α) (k : Fin n) :
    update pre j (pre j ++ [x]) k = pre k ++ if k = j then [x] else [] := by
  by_cases hkj : k = j
  · subst hkj; simp
  · simp [hkj]

section consume

variable (h : AlignInv streams pre s) (j : Fin n) (hj : s.ended j = false) (x : Item α)
  (rest : List (Item α)) (hx : s.receivers j = x :: rest) (hstop : stops x = false)

include h hj hx in
/-- What remains of each input after `x` is taken from input `j`. -/
theorem AlignInv.opened_consume (k : Fin n) (hk : s.ended k = false) :
    streams k = update pre j (pre j ++ [x]) k ++ update s.receivers j rest k := by
  by_cases hkj : k = j
  · subst hkj
    rw [update_self, update_self, h.opened k hk, hx, append_assoc, singleton_append]
  · rw [update_of_ne hkj, update_of_ne hkj]
    exact h.opened k hk

include h hstop in
theorem AlignInv.clean_consume (k : Fin n) :
    ∀ y ∈ update pre j (pre j ++ [x]) k, stops y = false := by
  rw [update_concat]
  split
  · exact Lists.forall_mem_concat.mpr ⟨h.clean k, hstop⟩
  · rw [append_nil]
    exact h.clean k

include h hj hx hstop in
theorem AlignInv.readable_consume :
    readable (streams j) = pre j ++ x :: readable rest := by
  rw [h.opened j hj, hx, readable_append _ _ (h.clean j)]
  simp [readable, hstop]

include h hj hx hstop in
/-- An item other than a barrier is taken, and passed through if it is data. -/
theorem AlignInv.pass (hr : s.reached j = none) (hck : Item.checkpointId x = none)
    (ys : List (Yield n α)) (hys : ys = [⟨some j, x⟩] ∨ ys = [] ∧ Item.isData x = false) :
    AlignInv streams (update pre j (pre j ++ [x]))
      { s with receivers := update s.receivers j rest, out := s.out ++ ys } := by
  have hlev : outLevel ys = 0 := by
    rcases hys with rfl | ⟨rfl, -⟩
    · show level [x] = 0
      rw [level_singleton, hck]
      rfl
    · rfl
  have hlevel : ∀ k, level (update pre j (pre j ++ [x]) k) = level (pre k) := by
    intro k
    rw [update_concat, level_append]
    split
    · rw [level_singleton, hck]; rfl
    · rfl
  refine ⟨h.opened_consume j hj x rest hx, ?_, h.clean_consume j x hstop, ?_, ?_, ?_, ?_, h.endMarker, ?_⟩
  · intro k hk
    have hkj : k ≠ j := by rintro rfl; rw [hj] at hk; cases hk
    obtain ⟨h1, h2, h3, h4⟩ := h.closed k hk
    refine ⟨by rw [update_of_ne hkj]; exact h1, h2, h3, ?_⟩
    rw [hlevel k, outLevel_append]
    omega
  · intro k
    have hyk : dataFrom k ys = dataItems (if k = j then [x] else []) := by
      rcases hys with rfl | ⟨rfl, hd⟩
      · by_cases hkj : k = j
        · subst hkj; simp [dataFrom]
        · have : j ≠ k := fun h => hkj h.symm
          simp [dataFrom, dataItems, hkj, this]
      · split <;> simp [dataFrom, dataItems, hd]
    rw [dataFrom_append, h.data k, update_concat, dataItems_append, hyk]
  · intro k
    rw [passed_append, update_concat]
    refine (h.order k).append ?_
    rcases hys with rfl | ⟨rfl, -⟩
    · by_cases hkj : k = j
      · subst hkj; simp [passed]
      · have : j ≠ k := fun h => hkj h.symm
        simp [passed, this]
    · exact nil_sublist _
  · intro k hk
    rw [hlevel k, outLevel_append, h.levels k hk, hlev, Nat.add_zero]
  · intro k e he
    have hkj : k ≠ j := by rintro rfl; rw [hr] at he; cases he
    obtain ⟨b, p, h1, h2, h3⟩ := h.blocked k e he
    exact ⟨b, p, h1, h2, by rw [update_of_ne hkj]; exact h3⟩
  · rcases hys with rfl | ⟨rfl, -⟩
    · exact Lists.forall_mem_concat.mpr ⟨h.noEnd, (Bool.or_eq_false_iff.mp hstop).1⟩
    · rw [append_nil]
      exact h.noEnd

end consume

section barrier

variable (h : AlignInv streams pre s) (j : Fin n) (hj : s.ended j = false)
  (hr : s.reached j = none)

include h hj hr in
theorem AlignInv.block (b : RecordBatch α) (rest : List (Item α)) (e : Nat)
    (hx : s.receivers j = .ok b :: rest) (hb : b.firstMarker = some (.ok (.checkpoint e))) :
    AlignInv streams (update pre j (pre j ++ [.ok b]))
      { s with
        receivers := update s.receivers j rest
        reached := update s.reached j (some e)
        checkpointBatch := update s.checkpointBatch j (some b) } := by
  have hck := checkpointId_of_marker hb
  have hd : Item.isData (.ok b : Item α) = false := by simp [Item.isData, RecordBatch.isData, hb]
  have hstop := stops_of_marker b (.checkpoint e) hb nofun
  refine ⟨h.opened_consume j hj _ rest hx, ?_, h.clean_consume j _ hstop, ?_, ?_, ?_, ?_, h.endMarker,
    h.noEnd⟩
  · intro k hk
    have hkj : k ≠ j := by rintro rfl; rw [hj] at hk; cases hk
    simp only [update_of_ne hkj]
    exact h.closed k hk
  · intro k
    rw [update_concat, dataItems_append, h.data k]
    split <;> simp [dataItems, hd]
  · intro k
    rw [update_concat]
    exact (h.order k).trans (sublist_append_left _ _)
  · intro k hk
    by_cases hkj : k = j
    · subst hkj
      have := h.levels k hk
      rw [hr] at this
      simp only [update_self, level_append, level_singleton, hck, isSome_some,
        isSome_none, Bool.false_eq_true, if_true, if_false] at this ⊢
      omega
    · simp only [update_of_ne hkj]
      exact h.levels k hk
  · intro k c hc
    by_cases hkj : k = j
    · subst hkj
      simp only [update_self, some.injEq] at hc ⊢
      subst hc
      exact ⟨b, pre k, rfl, hb, rfl⟩
    · simp only [update_of_ne hkj] at hc ⊢
      exact h.blocked k c hc

include h hj hr in
theorem AlignInv.endInput (hx : readable (s.receivers j) = []) (hf : faulty (s.receivers j) = false)
    (eb : Option (RecordBatch α)) (heb : ∀ b, eb = some b → b.firstMarker = some (.ok .endOfData))
    (rs : Fin n → List (Item α)) (hrs : ∀ k, k ≠ j → rs k = s.receivers k) :
    AlignInv streams pre
      { s with receivers := rs, ended := update s.ended j true, endBatch := eb } := by
  refine ⟨?_, ?_, h.clean, h.data, h.order, ?_, h.blocked, heb, h.noEnd⟩
  · intro k hk
    have hkj : k ≠ j := by rintro rfl; simp at hk
    simp only [update_of_ne hkj, hrs k hkj] at hk ⊢
    exact h.opened k hk
  · intro k hk
    by_cases hkj : k = j
    · subst hkj
      have hl := h.levels k hj
      rw [hr] at hl
      refine ⟨by rw [h.readable_eq k hj, hx, append_nil], ?_, hr, le_of_eq hl⟩
      rw [h.opened k hj, faulty_append _ _ (h.clean k), hf]
    · simp only [update_of_ne hkj] at hk
      exact h.closed k hk
  · intro k hk
    have hkj : k ≠ j := by rintro rfl; simp at hk
    simp only [update_of_ne hkj] at hk
    exact h.levels k hk

end barrier

/-- All inputs that have not ended are blocked: one level up. -/
theorem AlignInv.sealEpoch (h : AlignInv streams pre s) (i : Fin n) (hi : s.ended i = false)
    (hall : ∀ k, s.ended k = false → (s.reached k).isSome = true) :
    ∃ b e, s.reached i = some e ∧ s.checkpointBatch i = some b ∧
      b.firstMarker = some (.ok (.checkpoint e)) ∧
      s.sealEpoch i = { s with
        out := s.out ++ [⟨none, .ok b⟩]
        reached := fun k => if s.ended k then s.reached k else none
        checkpointBatch := fun k => if s.ended k then s.checkpointBatch k else none } ∧
      AlignInv streams pre (s.sealEpoch i) := by
  obtain ⟨e, he⟩ := isSome_iff_exists.mp (hall i hi)
  obtain ⟨b, p, hb, hm, -⟩ := h.blocked i e he
  have hseal : s.sealEpoch i = { s with
        out := s.out ++ [⟨none, .ok b⟩]
        reached := fun k => if s.ended k then s.reached k else none
        checkpointBatch := fun k => if s.ended k then s.checkpointBatch k else none } := by
    simp only [Align.sealEpoch, hb, map_some, toList_some]
  refine ⟨b, e, he, hb, hm, hseal, ?_⟩
  rw [hseal]
  have hlev : outLevel (s.out ++ [⟨none, .ok b⟩]) = outLevel s.out + 1 := by
    rw [outLevel_concat, checkpointId_of_marker hm]
    rfl
  refine ⟨h.opened, ?_, h.clean, ?_, ?_, ?_, ?_, h.endMarker, ?_⟩
  · intro k hk
    obtain ⟨h1, h2, h3, h4⟩ := h.closed k hk
    refine ⟨h1, h2, ?_, ?_⟩
    · show (if s.ended k then s.reached k else none) = none
      rw [h3, ite_self]
    · show level (pre k) ≤ outLevel (s.out ++ _)
      omega
  · intro k
    show dataFrom k (s.out ++ _) = _
    rw [dataFrom_append, dataFrom_eq_nil k [_] (by simp), append_nil]
    exact h.data k
  · intro k
    show (passed k (s.out ++ _)).Sublist _
    rw [passed_append, show passed k [_] = [] by simp [passed], append_nil]
    exact h.order k
  · intro k hk
    have hb := hall k hk
    have hl := h.levels k hk
    have hk' : s.ended k = false := hk
    rw [hb, if_pos rfl] at hl
    simp only [hk', Bool.false_eq_true, if_false, isSome_none, hlev]
    exact hl
  · intro k c hc
    simp only at hc
    cases hk : s.ended k with
    | true => rw [hk, if_pos rfl, (h.closed k hk).2.2.1] at hc; cases hc
    | false => rw [hk, if_neg Bool.false_ne_true] at hc; cases hc
  · refine Lists.forall_mem_concat.mpr ⟨h.noEnd, ?_⟩
    simp [Item.isEndOfData, RecordBatch.isEndOfData, hm]

/-! ## One turn -/

/-- Every input is through. -/
def Complete (streams : Fin n → List (Item α)) (out : List (Yield n α)) : Prop :=
  ∀ j, faulty (streams j) = false ∧ dataFrom j out = dataItems (readable (streams j)) ∧
    level (readable (streams j)) ≤ outLevel out

/-- What a turn leaves: the invariant, or a merge that has returned. -/
def Outcome (streams : Fin n → List (Item α)) (t : Align n α) : Prop :=
  OutInv streams t.out ∧
  ((t.returned = false ∧ ∃ pre, AlignInv streams pre t) ∨
    (t.returned = true ∧ ((∃ k, faulty (streams k) = true) ∨ Complete streams t.out)))

theorem outcome_init (streams : Fin n → List (Item α)) : Outcome streams (Align.init streams) := by
  refine ⟨⟨?_, ?_, ?_, ?_, ?_, ?_, ?_⟩, .inl ⟨rfl, _, alignInv_init streams⟩⟩
  · intro o1 y o2 j h
    cases o1 <;> cases h
  · intro j
    exact nil_sublist _
  · intro j
    exact nil_prefix
  · intro y hy
    cases hy
  · intro o1 y o2 h
    cases o1 <;> cases h
  · intro k _
    exact Nat.zero_le _
  · intro y hy
    cases hy

section turn

variable (h : AlignInv streams pre s) (ho : OutInv streams s.out) (hr : s.returned = false)
  (j : Fin n) (hj : s.ended j = false) (hreach : s.reached j = none)

include h ho hr hj hreach in
theorem AlignInv.pass_outcome (x : Item α) (rest : List (Item α)) (hx : s.receivers j = x :: rest)
    (hstop : stops x = false) (hck : Item.checkpointId x = none) (ys : List (Yield n α))
    (hys : ys = [⟨some j, x⟩] ∨ ys = [] ∧ Item.isData x = false)
    (hfw : ys ≠ [] → forwards j x = true) :
    Outcome streams
      { s with receivers := update s.receivers j rest, out := s.out ++ ys } := by
  have h' := h.pass j hj x rest hx hstop hreach hck ys hys
  refine ⟨?_, .inl ⟨hr, _, h'⟩⟩
  rcases hys with rfl | ⟨rfl, -⟩
  · refine ho.concat _ h.noEnd ?_ h'.order_streams h'.data_le (by simp) h'.reach ?_
    · rintro k ⟨⟩ -
      refine ⟨hfw (cons_ne_nil _ _), pre j, readable rest,
        h.readable_consume j hj x rest hx hstop, ?_⟩
      have := h.levels j hj
      rw [hreach] at this
      exact this
    · intro herr
      cases x with
      | error e => cases hstop
      | ok b => cases herr
  · simpa only [append_nil] using ho

include h ho in
theorem AlignInv.fail_outcome (src : Option (Fin n)) (e : String) (rs : Fin n → List (Item α))
    (hfault : ∃ k, faulty (streams k) = true)
    (hsrc : ∀ k, src = some k → (passed k s.out ++ [Except.error e]).Sublist (streams k)) :
    Outcome streams (({ s with receivers := rs } : Align n α).fail src e) := by
  refine ⟨ho.concat _ h.noEnd ?_ ?_ ?_ ?_ ?_ fun _ => hfault, .inr ⟨rfl, .inl hfault⟩⟩
  · rintro k - herr
    cases herr
  · intro k
    by_cases hk : src = some k
    · simpa [passed, hk] using hsrc k hk
    · simpa [passed, hk] using h.order_streams k
  · intro k
    rw [dataFrom_append, dataFrom_eq_nil k [_] (by simp [Item.isData]), append_nil]
    exact h.data_le k
  · intro _
    exact ⟨rfl, rfl⟩
  · intro k hk
    rw [outLevel_append]
    exact h.reach k hk

include h hj in
theorem AlignInv.faulty_of_front (x : Item α) (rest : List (Item α)) (hx : s.receivers j = x :: rest)
    (hf : isFault x = true) : faulty (streams j) = true := by
  have hs : stops x = true := by simp [stops, hf]
  rw [h.opened j hj, hx, faulty_append _ _ (h.clean j)]
  simp [faulty, hs, hf]

include h ho hr hj hreach in
theorem AlignInv.onBatch_outcome (b : RecordBatch α) (rest : List (Item α))
    (hx : s.receivers j = .ok b :: rest) :
    Outcome streams
      (({ s with receivers := update s.receivers j rest } : Align n α).onBatch j b) := by
  unfold Align.onBatch
  have hc := classify_spec b
  cases hk : classify b with
  | error e =>
    rw [hk] at hc
    have hm : b.firstMarker = some (.error e) := hc
    refine h.fail_outcome ho none e _ ⟨j, ?_⟩ ?_
    · refine h.faulty_of_front j hj _ rest hx ?_
      simp [isFault, hm, Except.isOk, Except.toBool]
    · rintro k ⟨⟩
  | ok kind =>
    cases kind with
    | data =>
      rw [hk] at hc
      have hm : b.firstMarker = none := hc
      refine h.pass_outcome ho hr j hj hreach (.ok b) rest hx ?_ ?_ _ (.inl rfl) fun _ => ?_
      · simp [stops, Item.isEndOfData, RecordBatch.isEndOfData, isFault, hm]
      · simp [Item.checkpointId, RecordBatch.checkpointId, hm]
      · simp [forwards, Item.isData, RecordBatch.isData, hm]
    | checkpoint e =>
      rw [hk] at hc
      exact ⟨ho, .inl ⟨hr, _, h.block j hj hreach b rest e hx hc⟩⟩
    | otherMarker =>
      rw [hk] at hc
      obtain ⟨m, hm, hck, hend⟩ := hc
      have hd : Item.isData (.ok b : Item α) = false := by simp [Item.isData, RecordBatch.isData, hm]
      have hid : Item.checkpointId (.ok b : Item α) = none := by
        cases m <;> simp_all [Item.checkpointId, RecordBatch.checkpointId]
      have key := h.pass_outcome ho hr j hj hreach (.ok b) rest hx (stops_of_marker b m hm hend) hid
      simp only
      split
      · next hz => exact key _ (.inl rfl) fun _ => by simp [forwards, hz]
      · have := key [] (.inr ⟨rfl, hd⟩) fun h => absurd rfl h
        rw [append_nil] at this
        exact this
    | endOfData =>
      rw [hk] at hc
      have hm : b.firstMarker = some (.ok .endOfData) := hc
      have hs : stops (.ok b : Item α) = true := by
        simp [stops, Item.isEndOfData, RecordBatch.isEndOfData, hm]
      have hf : isFault (.ok b : Item α) = false := by simp [isFault, hm, Except.isOk, Except.toBool]
      refine ⟨ho, .inl ⟨hr, pre, h.endInput j hj hreach ?_ ?_ _ ?_ _ ?_⟩⟩
      · rw [hx]; exact readable_cons_of_stops _ _ hs
      · rw [hx]; simp [faulty, hs, hf]
      · rintro c ⟨⟩
        rcases eq_none_or_eq_some s.endBatch with hn | ⟨d, hd⟩
        · rw [hn]; exact hm
        · rw [hd]; exact h.endMarker d hd
      · intro k hkj
        exact update_of_ne hkj _ _

include h ho hr hj hreach in
theorem AlignInv.recv_outcome : Outcome streams (s.recv j) := by
  unfold Align.recv
  cases hx : s.receivers j with
  | nil =>
    refine ⟨ho, .inl ⟨hr, pre, h.endInput j hj hreach ?_ ?_ s.endBatch h.endMarker _ ?_⟩⟩
    · rw [hx]; rfl
    · rw [hx]; rfl
    · intro k _
      rfl
  | cons x rest =>
    cases x with
    | error e =>
      refine h.fail_outcome ho (some j) e _ ⟨j, h.faulty_of_front j hj _ rest hx rfl⟩ ?_
      rintro k ⟨⟩
      rw [h.opened j hj, hx]
      exact (h.order j).append (singleton_sublist.mpr mem_cons_self)
    | ok b => exact h.onBatch_outcome ho hr j hj hreach b rest hx

include h ho in
theorem AlignInv.finish_outcome (hall : ∀ k, s.ended k = true) : Outcome streams s.finish := by
  have hdone : ∀ k, faulty (streams k) = false ∧ dataFrom k s.out = dataItems (readable (streams k)) ∧
      level (readable (streams k)) ≤ outLevel s.out := by
    intro k
    obtain ⟨h1, h2, -, h4⟩ := h.closed k (hall k)
    rw [h1]
    exact ⟨h2, h.data k, h4⟩
  unfold Align.finish
  rcases eq_none_or_eq_some s.endBatch with hn | ⟨b, hb⟩
  · simp only [hn]
    exact ⟨ho, .inr ⟨rfl, .inr hdone⟩⟩
  · simp only [hb]
    have hm := h.endMarker b hb
    have hlev : outLevel (s.out ++ [⟨none, .ok b⟩]) = outLevel s.out := by
      rw [outLevel_concat]
      simp [Item.checkpointId, RecordBatch.checkpointId, hm]
    refine ⟨ho.concat _ h.noEnd ?_ ?_ ?_ ?_ ?_ (fun h => by cases h), .inr ⟨rfl, .inr fun k => ?_⟩⟩
    · rintro k ⟨⟩
    · intro k
      simpa [passed] using h.order_streams k
    · intro k
      rw [dataFrom_append, dataFrom_eq_nil k [_] (by simp), append_nil]
      exact h.data_le k
    · intro _
      simp [Item.isData, Item.watermarkTime, RecordBatch.isData, RecordBatch.watermarkTime, hm]
    · intro k hk
      rw [hlev]
      exact h.reach k hk
    · show _ ∧ dataFrom k (s.out ++ [_]) = _ ∧ _ ≤ outLevel (s.out ++ [_])
      rw [hlev, dataFrom_append, dataFrom_eq_nil k [_] (by simp), append_nil]
      exact hdone k

include h ho hr in
theorem AlignInv.iterate_outcome (ready : Fin n → Bool) : Outcome streams (s.iterate ready) := by
  rcases s.iterate_cases ready with e | ⟨-, ⟨hall, e⟩ | ⟨i, hi, hall, e⟩ | ⟨j, -, hj, hreach, e⟩⟩
  · rw [e]; exact ⟨ho, .inl ⟨hr, pre, h⟩⟩
  · rw [e]; exact h.finish_outcome ho hall
  · obtain ⟨b, c, -, -, hm, hseal, h'⟩ := h.sealEpoch i hi hall
    rw [e]
    refine ⟨?_, .inl ⟨by rw [hseal]; exact hr, pre, h'⟩⟩
    have ho' := h'.order_streams
    have hr' := h'.reach
    have hd' := h'.data_le
    rw [hseal] at ho' hr' hd' ⊢
    refine ho.concat _ h.noEnd ?_ ho' hd' ?_ hr' fun h => by cases h
    · rintro k ⟨⟩
    · intro _
      simp [Item.isData, Item.watermarkTime, RecordBatch.isData, RecordBatch.watermarkTime, hm]
  · rw [e]; exact h.recv_outcome ho hr j hj hreach

end turn

theorem Outcome.iterate (h : Outcome streams s) (ready : Fin n → Bool) :
    Outcome streams (s.iterate ready) := by
  obtain ⟨ho, ⟨hr, pre, hi⟩ | h⟩ := h
  · exact hi.iterate_outcome ho hr ready
  · have e : s.iterate ready = s := by simp only [Align.iterate, h.1, if_true]
    rw [e]
    exact ⟨ho, .inr h⟩

theorem outcome_run (streams : Fin n → List (Item α)) (sched : List (Fin n → Bool)) :
    Outcome streams (alignFlowEventStreams streams sched) :=
  Runs.run_inv Align.iterate (Outcome streams) (fun _ ready h => h.iterate ready) _ sched
    (outcome_init streams)

end Zelox.BarrierAlign
