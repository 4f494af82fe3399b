import Zelox.Join.Accum

/-!
# What a side of the join holds

Which rows are buffered and which are in spilled chunks is decided by the budget; all of
them together (`content`) change by what is pushed and by what is evicted, and by nothing
else.  A chunk is written to an index that no live chunk uses (`SideOk`).  Of what a side
has received it holds all but what was evicted (`Holds`).
-/

namespace Zelox.Join

open StateIo List

variable {C V : Type} {l r n : Nat}

/-- Live chunks have indices below the next one; without a store there are none. -/
structure SideOk (cfg : Config C V l r) (s : SideState C n) : Prop where
  below : ∀ i ∈ s.spilled, i < s.next
  noStore : cfg.hasStore = false → s.spilled = []

/-- All rows of a side. -/
def content (cfg : Config C V l r) (s : SideState C n) : Multiset (Row C n) :=
  (gatherSide cfg s).flatten

variable {cfg : Config C V l r} {s : SideState C n}

theorem content_of_nothing (h : s.buf = [] ∧ s.spilled = []) : content cfg s = 0 := by
  unfold content gatherSide
  rw [h.1, h.2]
  cases cfg.hasStore <;> rfl

theorem content_congr {s' : SideState C n} (hbuf : s'.buf = s.buf) (hsp : s'.spilled = s.spilled)
    (hck : ∀ i ∈ s.spilled, s'.ck.get (.spill i) = s.ck.get (.spill i)) :
    content cfg s' = content cfg s := by
  unfold content gatherSide
  rw [hbuf, hsp, flatMap_readSpill_congr s.ck s'.ck s.spilled hck]

section Push

variable [DecidableEq V] (x : Exec C V) (side : Side)

theorem spillSideOverBudget_spec (h : SideOk cfg s) :
    SideOk cfg (spillSideOverBudget x cfg side s) ∧
      content cfg (spillSideOverBudget x cfg side s) = content cfg s := by
  unfold spillSideOverBudget
  split
  case isFalse => exact ⟨h, rfl⟩
  case isTrue hover =>
    have hstore : cfg.hasStore = true := by
      simp only [Bool.and_eq_true] at hover
      exact hover.2
    unfold writeSpill
    cases x.taken side s.next s.buf with
    | false => exact ⟨h, rfl⟩
    | true =>
      refine ⟨⟨?_, ?_⟩, ?_⟩
      · refine Lists.forall_mem_concat.mpr ⟨fun i hi => ?_, Nat.lt_succ_self _⟩
        exact Nat.lt_succ_of_lt (h.below i hi)
      · intro hno
        rw [hstore] at hno
        cases hno
      · -- the new chunk is fresh, so the old ones read as before
        have hold : s.spilled.flatMap (readSpill (s.ck.put (.spill s.next) (.state s.buf []))) =
            s.spilled.flatMap (readSpill s.ck) := by
          refine flatMap_readSpill_congr _ _ _ fun i hi => Store.get_put_of_ne _ _ _ _ ?_
          intro heq
          cases heq
          exact lt_irrefl _ (h.below _ hi)
        unfold content gatherSide
        simp only [hstore, if_true, nil_append, flatMap_append, flatMap_singleton,
          readSpill_put_self, hold, flatten_append]
        exact Multiset.coe_eq_coe.mpr perm_append_comm

theorem pushBatch_spec (h : SideOk cfg s) (batch : Batch C n) :
    SideOk cfg (pushBatch x cfg side s batch) ∧
      content cfg (pushBatch x cfg side s batch) = content cfg s + (batch : Multiset (Row C n)) := by
  have hok : SideOk cfg { s with buf := s.buf ++ [batch], bytes := s.bytes + x.memorySize batch } :=
    ⟨h.below, h.noStore⟩
  obtain ⟨hspill, hcontent⟩ := spillSideOverBudget_spec x side hok
  refine ⟨hspill, hcontent.trans ?_⟩
  unfold content gatherSide
  simp only [flatten_append, flatten_singleton, append_assoc, ← Multiset.coe_add]
  rw [add_comm (batch : Multiset (Row C n)), add_assoc]

theorem foldl_pushBatch_spec (h : SideOk cfg s) (batches : List (Batch C n)) :
    SideOk cfg (batches.foldl (pushBatch x cfg side) s) ∧
      content cfg (batches.foldl (pushBatch x cfg side) s) =
        content cfg s + (batches.flatten : Multiset (Row C n)) := by
  induction batches generalizing s with
  | nil => exact ⟨h, (add_zero _).symm⟩
  | cons batch batches ih =>
    obtain ⟨hok, hc⟩ := pushBatch_spec x side h batch
    obtain ⟨hok', hc'⟩ := ih hok
    refine ⟨hok', ?_⟩
    rw [foldl_cons, hc', hc, flatten_cons, ← Multiset.coe_add, add_assoc]

theorem evictRespillSide_spec (cfg : Config C V l r) (s : SideState C n) (tsIdx : Fin n)
    (threshold : Int64) :
    SideOk cfg (evictRespillSide x cfg side s tsIdx threshold) ∧
      content cfg (evictRespillSide x cfg side s tsIdx threshold) =
        (content cfg s).filter fun row => keeps cfg tsIdx threshold row = true := by
  have hempty : SideOk cfg
      { s with buf := [], bytes := 0, spilled := [],
               ck := if cfg.hasStore then s.spilled.foldl deleteSpill s.ck else s.ck } :=
    ⟨by simp, fun _ => rfl⟩
  obtain ⟨hok, hc⟩ := foldl_pushBatch_spec x side hempty
    (evictOlderThan cfg (gatherSide cfg s) tsIdx threshold)
  refine ⟨hok, hc.trans ?_⟩
  rw [content_of_nothing ⟨rfl, rfl⟩, zero_add]
  unfold evictOlderThan content
  rw [flatten_filter_not_isEmpty, ← filter_flatten, Multiset.filter_coe]
  simp only [Bool.decide_eq_true]

end Push

theorem stageSide_spec (h : SideOk cfg s) (info : List Int64) :
    SideOk cfg (stageSide cfg s info) ∧ content cfg (stageSide cfg s info) = content cfg s := by
  unfold stageSide
  split
  · refine ⟨⟨h.below, h.noStore⟩, content_congr rfl rfl fun i _ => ?_⟩
    unfold stageEpochIncremental
    rw [Store.get_put_of_ne _ _ _ _ (by simp), Store.get_put_of_ne _ _ _ _ (by simp)]
  · refine ⟨⟨h.below, h.noStore⟩, content_congr rfl rfl fun i _ => ?_⟩
    exact Store.get_put_of_ne _ _ _ _ (by simp)

/-! ## Received, held and gone -/

/-- Of the rows that a side has received it holds all but some that are `Gone`. -/
structure Holds (cfg : Config C V l r) (s : SideState C n) (received : Multiset (Row C n))
    (Gone : Row C n → Prop) : Prop where
  ok : SideOk cfg s
  split : ∃ gone, received = content cfg s + gone ∧ ∀ row ∈ gone, Gone row

namespace Holds

variable {received : Multiset (Row C n)} {Gone : Row C n → Prop}

theorem mono (h : Holds cfg s received Gone) {Gone' : Row C n → Prop}
    (himp : ∀ row, Gone row → Gone' row) : Holds cfg s received Gone' := by
  obtain ⟨gone, heq, hgone⟩ := h.split
  exact ⟨h.ok, gone, heq, fun row hrow => himp row (hgone row hrow)⟩

theorem of_content_eq (h : Holds cfg s received Gone) {s' : SideState C n} (hok : SideOk cfg s')
    (hc : content cfg s' = content cfg s) : Holds cfg s' received Gone := by
  obtain ⟨gone, heq, hgone⟩ := h.split
  exact ⟨hok, gone, heq.trans (by rw [hc]), hgone⟩

theorem stage (h : Holds cfg s received Gone) (info : List Int64) :
    Holds cfg (stageSide cfg s info) received Gone := by
  obtain ⟨hok, hc⟩ := stageSide_spec h.ok info
  exact h.of_content_eq hok hc

variable [DecidableEq V]

theorem push (h : Holds cfg s received Gone) (x : Exec C V) (side : Side) (batch : Batch C n) :
    Holds cfg (pushBatch x cfg side s batch) (received + batch) Gone := by
  obtain ⟨hok, hc⟩ := pushBatch_spec x side h.ok batch
  obtain ⟨gone, heq, hgone⟩ := h.split
  refine ⟨hok, gone, ?_, hgone⟩
  rw [hc, heq, add_right_comm]

theorem evict (h : Holds cfg s received Gone) (x : Exec C V) (side : Side) {tsIdx : Fin n}
    {threshold : Int64} (hgone : ∀ row, ¬ keeps cfg tsIdx threshold row = true → Gone row) :
    Holds cfg (evictRespillSide x cfg side s tsIdx threshold) received Gone := by
  obtain ⟨hok, hc⟩ := evictRespillSide_spec x side cfg s tsIdx threshold
  obtain ⟨gone, heq, hold⟩ := h.split
  refine ⟨hok, gone + (content cfg s).filter fun row => ¬ keeps cfg tsIdx threshold row = true,
    ?_, ?_⟩
  · rw [hc, heq, add_comm gone, ← add_assoc, Multiset.filter_add_not]
  · intro row hrow
    rcases Multiset.mem_add.mp hrow with hrow | hrow
    · exact hold row hrow
    · exact hgone row (Multiset.mem_filter.mp hrow).2

end Holds

end Zelox.Join
