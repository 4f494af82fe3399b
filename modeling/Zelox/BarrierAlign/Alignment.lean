import Mathlib.Algebra.Order.BigOperators.Group.Finset
import Zelox.BarrierAlign.Levels

/-!
# Barrier alignment

For inputs whose epochs are prefixes of one strictly increasing sequence the
forwarded barriers are that sequence again, each with exactly the data before it
that every input delivered before its own (`Aligned`), whatever the poll order.
Under a fair one the merge ends with every input through
(`alignFlowEventStreams_aligned`): each turn that changes anything lowers `rank`.
-/

namespace Zelox.BarrierAlign

open List

variable {n : Nat} {α : Type}

/-- The data of a stream behind its `Checkpoint{e}`. -/
def dataAfter (e : Nat) (c : List (Item α)) : List (Item α) :=
  dataItems (c.dropWhile fun x => Item.checkpointId x ≠ some e)

theorem dataBefore_append_dataAfter (e : Nat) (c : List (Item α)) :
    dataBefore e c ++ dataAfter e c = dataItems c := by
  unfold dataBefore dataAfter
  rw [← dataItems_append, takeWhile_append_dropWhile]

/-- What the merge of inputs with epochs from `es` has yielded, at any point. -/
structure Aligned (es : List Nat) (streams : Fin n → List (Item α)) (out : List (Yield n α)) :
    Prop where
  /-- each input's batches once and in order -/
  data : ∀ j, dataFrom j out <+: dataItems (readable (streams j))
  /-- one barrier per epoch, in order, and only epochs that some input reaches -/
  barriers : epochs (out.map (·.item)) <+: es
  reached : ∀ e ∈ epochs (out.map (·.item)), ∃ j, e ∈ epochs (readable (streams j))
  /-- a barrier separates what each input's own barrier separates -/
  cut : ∀ o1 y o2 e, out = o1 ++ y :: o2 → Item.checkpointId y.item = some e → ∀ j,
    dataFrom j o1 = dataBefore e (readable (streams j)) ∧
    dataFrom j o2 <+: dataAfter e (readable (streams j))
  /-- so there is at most one `EndOfData` -/
  endLast : ∀ o1 y o2, out = o1 ++ y :: o2 → Item.isEndOfData y.item = true → o2 = []

/-! ## Cuts -/

/-- The part of `Aligned` that only a sealed epoch adds to. -/
structure CutInv (es : List Nat) (streams : Fin n → List (Item α)) (out : List (Yield n α)) :
    Prop where
  barriers : epochs (out.map (·.item)) = es.take (outLevel out)
  reached : ∀ e ∈ epochs (out.map (·.item)), ∃ j, e ∈ epochs (readable (streams j))
  cut : ∀ o1 y o2 e, out = o1 ++ y :: o2 → Item.checkpointId y.item = some e → ∀ j,
    dataFrom j o1 = dataBefore e (readable (streams j))

variable {es : List Nat} {streams pre : Fin n → List (Item α)} {s : Align n α}

section

variable (out : List (Yield n α)) (y : Yield n α) (hy : Item.checkpointId y.item = none)
include hy

theorem epochs_concat_none :
    epochs ((out ++ [y]).map (·.item)) = epochs (out.map (·.item)) := by
  simp [epochs, hy]

theorem outLevel_concat_none : outLevel (out ++ [y]) = outLevel out := by
  rw [outLevel_concat, hy]
  rfl

end

theorem CutInv.concat {out : List (Yield n α)} (h : CutInv es streams out) (y : Yield n α)
    (hy : Item.checkpointId y.item = none) : CutInv es streams (out ++ [y]) := by
  refine ⟨?_, ?_, ?_⟩
  · rw [epochs_concat_none out y hy, outLevel_concat_none out y hy]
    exact h.barriers
  · rw [epochs_concat_none out y hy]
    exact h.reached
  · intro o1 z o2 e heq hz j
    rcases Lists.concat_eq_append_cons heq with ⟨-, rfl, -⟩ | ⟨o3, hout, -⟩
    · rw [hy] at hz
      cases hz
    · exact h.cut o1 z o3 e hout hz j

section sealed

variable (h : AlignInv streams pre s) (hes : es.Pairwise (· < ·))
  (hpre : ∀ j, epochs (readable (streams j)) <+: es)
  (hall : ∀ k, s.ended k = false → (s.reached k).isSome = true)

include h hpre in
theorem AlignInv.epochs_take (k : Fin n) : epochs (pre k) = es.take (level (pre k)) := by
  obtain ⟨r, hr⟩ := h.pre_le_readable k
  have hk := hpre k
  rw [← hr, epochs_append] at hk
  exact prefix_iff_eq_take.mp ((prefix_append _ _).trans hk)

include h hpre hall in
theorem AlignInv.blocked_epoch (k : Fin n) (hk : s.ended k = false) :
    ∃ b e p, pre k = p ++ [.ok b] ∧ s.reached k = some e ∧ s.checkpointBatch k = some b ∧
      b.firstMarker = some (.ok (.checkpoint e)) ∧ epochs p = es.take (outLevel s.out) ∧
      es.take (outLevel s.out + 1) = es.take (outLevel s.out) ++ [e] := by
  obtain ⟨e, he⟩ := Option.isSome_iff_exists.mp (hall k hk)
  obtain ⟨b, p, hb, hm, hp⟩ := h.blocked k e he
  have hlast : epochs ([.ok b] : List (Item α)) = [e] := by
    simp [epochs, checkpointId_of_marker hm]
  have hlev := h.levels k hk
  rw [he, Option.isSome_some, if_pos rfl] at hlev
  have htake := h.epochs_take hpre k
  rw [hlev, hp, epochs_append, hlast] at htake
  have hlen : (epochs p).length = outLevel s.out := by
    rw [hp, level_append] at hlev
    have : level ([.ok b] : List (Item α)) = 1 := congrArg List.length hlast
    have : level p = (epochs p).length := rfl
    omega
  have hfront : epochs p = es.take (outLevel s.out) := by
    have := congrArg (List.take (outLevel s.out)) htake
    rw [take_take, Nat.min_eq_left (Nat.le_succ _), ← hlen, take_left' rfl] at this
    rw [← hlen]
    exact this
  exact ⟨b, e, p, hp, he, hb, hm, hfront, by rw [← htake, hfront]⟩

include hes in
theorem not_mem_take_of_next {L e : Nat} (hnext : es.take (L + 1) = es.take L ++ [e]) :
    e ∉ es.take L := by
  intro he
  have hp : (es.take (L + 1)).Pairwise (· < ·) := hes.sublist (take_sublist _ _)
  rw [hnext, pairwise_append] at hp
  have := hp.2.2 e he e (mem_singleton_self e)
  omega

include h hes hpre hall in
/-- At a seal every input's consumed data is its data before the sealed epoch. -/
theorem AlignInv.cut_at_seal (e : Nat)
    (hnext : es.take (outLevel s.out + 1) = es.take (outLevel s.out) ++ [e]) (k : Fin n) :
    dataFrom k s.out = dataBefore e (readable (streams k)) := by
  have hnot := not_mem_take_of_next hes hnext
  rw [h.data k]
  cases hk : s.ended k with
  | true =>
    -- an input that ended before the barrier has all its data in front of it
    obtain ⟨h1, -, -, h4⟩ := h.closed k hk
    have hmem : e ∉ epochs (pre k) := by
      intro he
      rw [h.epochs_take hpre k] at he
      exact hnot ((take_subset_take_left es h4) he)
    have := dataBefore_of_not_mem e (pre k) [] hmem
    rw [h1]
    simpa [dataBefore, dataItems] using this.symm
  | false =>
    obtain ⟨b, c, p, hp, -, -, hm, hfront, hnext'⟩ := h.blocked_epoch hpre hall k hk
    have hce : c = e := by
      rw [hnext] at hnext'
      simpa using hnext'.symm
    subst hce
    have hck := checkpointId_of_marker hm
    have hd : Item.isData (.ok b : Item α) = false := by simp [Item.isData, RecordBatch.isData, hm]
    rw [h.readable_eq k hk, hp, append_assoc, dataBefore_of_not_mem c p _ (hfront ▸ hnot)]
    simp [dataBefore, dataItems, hck, hd]

include h hes hpre hall in
theorem AlignInv.cutInv_seal (hc : CutInv es streams s.out) (i : Fin n) (hi : s.ended i = false) :
    CutInv es streams (s.sealEpoch i).out := by
  obtain ⟨b, e, p, hp, he, hb, hm, -, hnext⟩ := h.blocked_epoch hpre hall i hi
  have hck := checkpointId_of_marker hm
  have hep : epochs ([.ok b] : List (Item α)) = [e] := by simp [epochs, hck]
  have hout : (s.sealEpoch i).out = s.out ++ [⟨none, .ok b⟩] := by
    simp only [Align.sealEpoch, hb, Option.map_some, Option.toList_some]
  have hall' : epochs ((s.out ++ [(⟨none, .ok b⟩ : Yield n α)]).map (·.item)) =
      epochs (s.out.map (·.item)) ++ [e] := by
    rw [map_append, epochs_append]
    show _ ++ epochs [.ok b] = _
    rw [hep]
  rw [hout]
  refine ⟨?_, ?_, ?_⟩
  · have hlev : outLevel (s.out ++ [(⟨none, .ok b⟩ : Yield n α)]) = outLevel s.out + 1 := by
      rw [outLevel_concat, hck]
      rfl
    rw [hall', hlev, hnext, hc.barriers]
  · intro c hcm
    rw [hall'] at hcm
    rcases mem_append.mp hcm with hcm | hcm
    · exact hc.reached c hcm
    · obtain ⟨r, hr⟩ := h.pre_le_readable i
      refine ⟨i, ?_⟩
      rw [← hr, hp, epochs_append, epochs_append, hep]
      simp [mem_singleton.mp hcm]
  · intro o1 y o2 c heq hy k
    rcases Lists.concat_eq_append_cons heq with ⟨rfl, rfl, -⟩ | ⟨o3, ho, -⟩
    · rw [hck] at hy
      cases hy
      exact h.cut_at_seal hes hpre hall e hnext k
    · exact hc.cut o1 y o3 c ho hy k

end sealed

/-! ## Runs -/

theorem recv_out (s : Align n α) (j : Fin n) :
    (s.recv j).out = s.out ∨
      ∃ y, (s.recv j).out = s.out ++ [y] ∧ Item.checkpointId y.item = none := by
  unfold Align.recv
  rcases s.receivers j with _ | ⟨e | b, rest⟩
  · exact .inl rfl
  · exact .inr ⟨_, rfl, rfl⟩
  · simp only
    unfold Align.onBatch
    have hk := classify_spec b
    cases hb : classify b with
    | error e => exact .inr ⟨_, rfl, rfl⟩
    | ok kind =>
      rw [hb] at hk
      cases kind with
      | data =>
        have hm : b.firstMarker = none := hk
        exact .inr ⟨_, rfl, by simp [Item.checkpointId, RecordBatch.checkpointId, hm]⟩
      | checkpoint e | endOfData => exact .inl rfl
      | otherMarker =>
        obtain ⟨m, hm, hck, -⟩ := hk
        simp only
        split
        · refine .inr ⟨_, rfl, ?_⟩
          cases m <;> simp_all [Item.checkpointId, RecordBatch.checkpointId]
        · exact .inl rfl

theorem recv_cutInv (hc : CutInv es streams s.out) (j : Fin n) : CutInv es streams (s.recv j).out := by
  rcases recv_out s j with e | ⟨y, e, hy⟩
  · rw [e]; exact hc
  · rw [e]; exact hc.concat y hy

theorem AlignInv.finish_cutInv (h : AlignInv streams pre s) (hc : CutInv es streams s.out) :
    CutInv es streams s.finish.out := by
  unfold Align.finish
  rcases Option.eq_none_or_eq_some s.endBatch with hn | ⟨b, hb⟩
  · simp only [hn]
    exact hc
  · simp only [hb]
    have hm := h.endMarker b hb
    exact hc.concat _ (by simp [Item.checkpointId, RecordBatch.checkpointId, hm])

section

variable (hes : es.Pairwise (· < ·)) (hpre : ∀ j, epochs (readable (streams j)) <+: es)
  (sched : List (Fin n → Bool))
include hes hpre

theorem cutInv_run : CutInv es streams (alignFlowEventStreams streams sched).out := by
  refine (Runs.run_inv Align.iterate (fun s => Outcome streams s ∧ CutInv es streams s.out) ?_
    (Align.init streams) sched ⟨outcome_init streams, ?_⟩).2
  · rintro s ready ⟨h, hc⟩
    refine ⟨h.iterate ready, ?_⟩
    rcases s.iterate_cases ready with e | ⟨hr, hcase⟩
    · rw [e]; exact hc
    · obtain ⟨-, ⟨-, pre, hi⟩ | ⟨hr', -⟩⟩ := h
      · rcases hcase with ⟨hall, e⟩ | ⟨i, hi', hall, e⟩ | ⟨j, -, -, -, e⟩
        · rw [e]; exact hi.finish_cutInv hc
        · rw [e]; exact hi.cutInv_seal hes hpre hall hc i hi'
        · rw [e]; exact recv_cutInv hc j
      · rw [hr] at hr'
        cases hr'
  · refine ⟨rfl, ?_, ?_⟩
    · intro e he
      cases he
    · intro o1 y o2 e h
      cases o1 <;> cases h

theorem aligned_run : Aligned es streams (alignFlowEventStreams streams sched).out := by
  have ho := (outcome_run streams sched).1
  have hc := cutInv_run hes hpre sched
  refine ⟨ho.data, ?_, hc.reached, ?_, ho.endLast⟩
  · rw [hc.barriers]
    exact take_prefix _ _
  · intro o1 y o2 e heq hy j
    have hcut := hc.cut o1 y o2 e heq hy j
    refine ⟨hcut, ?_⟩
    have hd := ho.data j
    have hyd : dataFrom j [y] = [] := by
      refine dataFrom_eq_nil j [y] fun z hz _ => ?_
      rw [mem_singleton.mp hz]
      rcases hi : y.item with _ | b
      · rfl
      · rw [hi] at hy
        show b.firstMarker.isNone = false
        unfold Item.checkpointId RecordBatch.checkpointId at hy
        cases hf : b.firstMarker with
        | none => simp [hf] at hy
        | some m => rfl
    rw [heq, show o1 ++ y :: o2 = o1 ++ ([y] ++ o2) from rfl, dataFrom_append, dataFrom_append, hyd,
      nil_append, ← dataBefore_append_dataAfter e, hcut] at hd
    exact (prefix_append_right_inj _).mp hd

end

/-! ## Termination -/

/-- What is left of an input: two turns for an item (a barrier also unblocks), one for
the end. -/
def weight (s : Align n α) (k : Fin n) : Nat :=
  2 * (s.receivers k).length + (if s.ended k then 0 else 1) + (if (s.reached k).isSome then 1 else 0)

def rank (s : Align n α) : Nat := (if s.returned then 0 else 1) + ∑ k, weight s k

theorem rank_lt (s t : Align n α) (hr : s.returned = false) (hle : ∀ k, weight t k ≤ weight s k)
    (hlt : ∃ k, weight t k < weight s k) : rank t < rank s := by
  obtain ⟨k, hk⟩ := hlt
  have hsum : ∑ k, weight t k < ∑ k, weight s k :=
    Finset.sum_lt_sum (fun k _ => hle k) ⟨k, Finset.mem_univ k, hk⟩
  unfold rank
  rw [hr, if_neg Bool.false_ne_true]
  split <;> omega

theorem rank_finish_lt (s : Align n α) (hr : s.returned = false) : rank s.finish < rank s := by
  have hw : ∀ k, weight s.finish k = weight s k := by
    intro k
    unfold Align.finish
    cases s.endBatch <;> rfl
  have hret : s.finish.returned = true := by
    unfold Align.finish
    cases s.endBatch <;> rfl
  unfold rank
  rw [hr, hret, Finset.sum_congr rfl fun k _ => hw k]
  simp

theorem rank_sealEpoch_lt (s : Align n α) (hr : s.returned = false) (i : Fin n)
    (hi : s.ended i = false) (hb : (s.reached i).isSome = true) : rank (s.sealEpoch i) < rank s := by
  refine rank_lt s _ hr ?_ ⟨i, ?_⟩
  · intro k
    unfold weight Align.sealEpoch
    cases hk : s.ended k <;> simp [hk]
  · unfold weight Align.sealEpoch
    simp [hi, hb]

theorem weight_congr {s t : Align n α} (k : Fin n) (h1 : t.receivers k = s.receivers k)
    (h2 : t.ended k = s.ended k) (h3 : t.reached k = s.reached k) : weight t k = weight s k := by
  unfold weight
  rw [h1, h2, h3]

theorem weight_open (s : Align n α) (j : Fin n) (hj : s.ended j = false) (hb : s.reached j = none) :
    weight s j = 2 * (s.receivers j).length + 1 := by
  unfold weight
  rw [hj, hb]
  rfl

theorem weight_le (t : Align n α) (j : Fin n) : weight t j ≤ 2 * (t.receivers j).length + 2 := by
  unfold weight
  split <;> split <;> omega

section

variable (s : Align n α)

theorem onBatch_frame (j : Fin n) (b : RecordBatch α) :
    (s.onBatch j b).receivers = s.receivers ∧
    ∀ k, k ≠ j → (s.onBatch j b).ended k = s.ended k ∧ (s.onBatch j b).reached k = s.reached k := by
  unfold Align.onBatch
  rcases classify b with e | _ | e | _ | _
  · exact ⟨rfl, fun _ _ => ⟨rfl, rfl⟩⟩
  · exact ⟨rfl, fun _ _ => ⟨rfl, rfl⟩⟩
  · exact ⟨rfl, fun _ hk => ⟨rfl, Function.update_of_ne hk _ _⟩⟩
  · simp only
    split <;> exact ⟨rfl, fun _ _ => ⟨rfl, rfl⟩⟩
  · exact ⟨rfl, fun _ hk => ⟨Function.update_of_ne hk _ _, rfl⟩⟩

theorem weight_recv (j : Fin n) (hj : s.ended j = false) (hb : s.reached j = none) :
    weight (s.recv j) j < weight s j ∧ ∀ k, k ≠ j → weight (s.recv j) k = weight s k := by
  rw [weight_open s j hj hb]
  have key : ∀ (x : Item α) (rest : List (Item α)) (t : Align n α), s.receivers j = x :: rest →
      t.receivers = Function.update s.receivers j rest →
      (∀ k, k ≠ j → t.ended k = s.ended k ∧ t.reached k = s.reached k) →
      weight t j < 2 * (s.receivers j).length + 1 ∧ ∀ k, k ≠ j → weight t k = weight s k := by
    intro x rest t hx h1 h2
    refine ⟨?_, fun k hk => weight_congr k (by rw [h1, Function.update_of_ne hk]) (h2 k hk).1 (h2 k hk).2⟩
    have := weight_le t j
    rw [h1, Function.update_self] at this
    rw [hx, length_cons]
    omega
  rcases hx : s.receivers j with _ | ⟨e | b, rest⟩
  · have e : s.recv j = { s with ended := Function.update s.ended j true } := by
      simp only [Align.recv, hx]
    rw [e]
    refine ⟨?_, fun k hk => weight_congr k rfl (Function.update_of_ne hk _ _) rfl⟩
    simp [weight, hx, hb]
  · have e : s.recv j = ({ s with receivers := Function.update s.receivers j rest } : Align n α).fail
        (some j) e := by
      simp only [Align.recv, hx]
    rw [e, ← hx]
    exact key _ rest _ hx rfl fun _ _ => ⟨rfl, rfl⟩
  · have e : s.recv j =
        ({ s with receivers := Function.update s.receivers j rest } : Align n α).onBatch j b := by
      simp only [Align.recv, hx]
    obtain ⟨h1, h2⟩ := onBatch_frame { s with receivers := Function.update s.receivers j rest } j b
    rw [e, ← hx]
    exact key _ rest _ hx h1 h2

theorem rank_recv_lt (hr : s.returned = false) (j : Fin n) (hj : s.ended j = false)
    (hb : s.reached j = none) : rank (s.recv j) < rank s := by
  obtain ⟨h1, h2⟩ := weight_recv s j hj hb
  refine rank_lt s _ hr ?_ ⟨j, h1⟩
  intro k
  by_cases hk : k = j
  · subst hk; omega
  · exact le_of_eq (h2 k hk)

theorem rank_iterate_lt (ready : Fin n → Bool) (h : s.iterate ready ≠ s) :
    rank (s.iterate ready) < rank s := by
  rcases s.iterate_cases ready with e | ⟨hr, ⟨hall, e⟩ | ⟨i, hi, hall, e⟩ | ⟨j, -, hj, hb, e⟩⟩
  · exact absurd e h
  · rw [e]; exact rank_finish_lt s hr
  · rw [e]; exact rank_sealEpoch_lt s hr i hi (hall i hi)
  · rw [e]; exact rank_recv_lt s hr j hj hb

/-- While the merge runs there is an input it waits for, or it moves by itself. -/
theorem exists_iterate_ne (hr : s.returned = false) :
    (∀ ready, s.iterate ready ≠ s) ∨ ∃ j, ∀ ready : Fin n → Bool, ready j = true → s.iterate ready ≠ s := by
  have hne : ∀ t : Align n α, rank t < rank s → t ≠ s := by
    rintro t ht rfl
    omega
  cases ha : s.active with
  | nil =>
    left
    intro ready
    have e : s.iterate ready = s.finish := by
      simp only [Align.iterate, hr, ha, Bool.false_eq_true, if_false]
    rw [e]
    exact hne _ (rank_finish_lt s hr)
  | cons i is =>
    have hi : s.ended i = false := (s.mem_active i).mp (ha ▸ mem_cons_self)
    by_cases hb : ((i :: is).all fun k => (s.reached k).isSome) = true
    · left
      intro ready
      have e : s.iterate ready = s.sealEpoch i := by
        simp only [Align.iterate, hr, ha, hb, Bool.false_eq_true, if_false, if_true]
      rw [e]
      exact hne _ (rank_sealEpoch_lt s hr i hi (all_eq_true.mp hb i mem_cons_self))
    · right
      have hex : ∃ j ∈ i :: is, ¬ (s.reached j).isSome = true := by
        rw [all_eq_true] at hb
        push Not at hb
        exact hb
      obtain ⟨j, hj, hjn⟩ := hex
      refine ⟨j, fun ready hready => ?_⟩
      have hpoll : j ∈ s.pollable :=
        (s.mem_pollable j).mpr ⟨(s.mem_active j).mp (ha ▸ hj), by simpa using hjn⟩
      cases hf : s.pollable.find? ready with
      | none => exact absurd hready (find?_eq_none.mp hf j hpoll)
      | some k =>
        have hk := (s.mem_pollable k).mp (mem_of_find?_eq_some hf)
        have e : s.iterate ready = s.recv k := by
          simp only [Align.iterate, hr, ha, if_neg hb, hf, Bool.false_eq_true, if_false]
        rw [e]
        exact hne _ (rank_recv_lt s hr k hk.1 hk.2)

end

/-- Every input is ready again and again. -/
def Fair (sched : Nat → Fin n → Bool) : Prop := ∀ j m, ∃ k, m ≤ k ∧ sched k j = true

theorem exists_returned (streams : Fin n → List (Item α)) (sched : Nat → Fin n → Bool)
    (hfair : Fair sched) :
    ∃ N, (alignFlowEventStreams streams ((List.range N).map sched)).returned = true := by
  have hprog : ∀ s : Align n α, True → ¬ s.returned = true → ∀ m, ∃ k, m ≤ k ∧ s.iterate (sched k) ≠ s := by
    intro s _ hr m
    rw [Bool.not_eq_true] at hr
    rcases exists_iterate_ne s hr with h | ⟨j, h⟩
    · exact ⟨m, Nat.le_refl m, h _⟩
    · obtain ⟨k, hk, hj⟩ := hfair j m
      exact ⟨k, hk, h _ hj⟩
  obtain ⟨N, hN⟩ := Runs.exists_done Align.iterate (fun _ => True) (fun s => s.returned = true) rank
    sched (fun _ _ _ => trivial) (fun s ready _ => rank_iterate_lt s ready) hprog (Align.init streams)
    trivial 0
  refine ⟨N, ?_⟩
  rw [range_eq_range']
  exact hN

/-- **Barrier alignment**: whatever the poll order the yields are aligned, and under a fair one
without failures everything comes out. -/
theorem alignFlowEventStreams_aligned (es : List Nat) (hes : es.Pairwise (· < ·))
    (streams : Fin n → List (Item α)) (hpre : ∀ j, epochs (readable (streams j)) <+: es) :
    (∀ sched, Aligned es streams (alignFlowEventStreams streams sched).out) ∧
    ∀ sched : Nat → Fin n → Bool, Fair sched → (∀ j, faulty (streams j) = false) →
      ∃ N, (alignFlowEventStreams streams ((List.range N).map sched)).returned = true ∧
        (∀ y ∈ (alignFlowEventStreams streams ((List.range N).map sched)).out,
          Item.isError y.item = false) ∧
        (∀ j, dataFrom j (alignFlowEventStreams streams ((List.range N).map sched)).out =
          dataItems (readable (streams j))) ∧
        ∀ e, e ∈ epochs ((alignFlowEventStreams streams ((List.range N).map sched)).out.map (·.item)) ↔
          ∃ j, e ∈ epochs (readable (streams j)) := by
  refine ⟨aligned_run hes hpre, ?_⟩
  intro sched hfair hok
  obtain ⟨N, hN⟩ := exists_returned streams sched hfair
  have hc := cutInv_run hes hpre ((List.range N).map sched)
  obtain ⟨ho, ⟨hr, -⟩ | ⟨-, ⟨k, hk⟩ | hdone⟩⟩ := outcome_run streams ((List.range N).map sched)
  · rw [hN] at hr
    cases hr
  · rw [hok k] at hk
    cases hk
  refine ⟨N, hN, ?_, fun j => (hdone j).2.1, fun e => ⟨hc.reached e, ?_⟩⟩
  · intro y hy
    rw [← Bool.not_eq_true]
    intro he
    obtain ⟨k, hk⟩ := ho.errors y hy he
    rw [hok k] at hk
    cases hk
  · rintro ⟨j, hj⟩
    rw [prefix_iff_eq_take.mp (hpre j)] at hj
    rw [hc.barriers]
    exact take_subset_take_left es (hdone j).2.2 hj

/-- Two inputs, one of which ends before the second epoch. -/
def endsEarly : Fin 2 → List (Item Nat)
  | 0 => [.ok (.encodeData [1]), .ok (.encodeMarker (.checkpoint 5) 0), .ok (.encodeData [2]),
      .ok (.encodeMarker (.checkpoint 9) 0), .ok (.encodeMarker .endOfData 0)]
  | 1 => [.ok (.encodeMarker (.checkpoint 5) 0), .ok (.encodeData [3])]

theorem alignFlowEventStreams_aligned_endsEarly :
    (∀ sched, Aligned [5, 9] endsEarly (alignFlowEventStreams endsEarly sched).out) ∧
    ∃ N, (alignFlowEventStreams endsEarly ((List.range N).map fun _ _ => true)).returned = true ∧
      dataFrom 1 (alignFlowEventStreams endsEarly ((List.range N).map fun _ _ => true)).out =
        [.ok (.encodeData [3])] := by
  have h := alignFlowEventStreams_aligned [5, 9] (by decide) endsEarly (by decide)
  obtain ⟨N, hN, -, hdata, -⟩ := h.2 (fun _ _ => true) (fun _ m => ⟨m, Nat.le_refl m, rfl⟩) (by decide)
  exact ⟨h.1, N, hN, (hdata 1).trans (by decide)⟩

end Zelox.BarrierAlign
