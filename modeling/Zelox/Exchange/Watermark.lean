import Zelox.Exchange.Merge

/-!
# Watermarks of the bounded receiver merge

Without an idle timeout the merged watermark is a lower bound of the watermark of
every channel that has not ended (`merged_le`), and it is emitted only when it
advances.  A channel's own data stays above its own watermarks, so the merged
stream keeps that property: `mergeOutputSubchannels_onTime`.
-/

namespace Zelox.Exchange

open List

open Function (update update_of_ne update_self)

variable {n : Nat} {α : Type}

namespace Merge

/-! ## The minimum -/

theorem scanWm_mono (s : Merge n α) (a : WmScan) (k : Fin n) :
    (a.hasActive = true → (scanWm false s a k).hasActive = true) ∧
    (a.anyActivePending = true → (scanWm false s a k).anyActivePending = true) ∧
    (∀ v, a.minActive = some v → ∃ u, (scanWm false s a k).minActive = some u ∧ u ≤ v) := by
  unfold scanWm
  simp only [Bool.false_and, Bool.false_eq_true, if_false]
  split
  · exact ⟨id, id, fun v h => ⟨v, h, Int64.le_refl v⟩⟩
  · split
    · next u _ =>
      refine ⟨fun _ => rfl, id, fun v h => ?_⟩
      rw [h]
      exact ⟨min v u, rfl, Int64.min_le_left v u⟩
    · exact ⟨fun _ => rfl, fun _ => rfl, fun v h => ⟨v, h, Int64.le_refl v⟩⟩

theorem foldl_scanWm_mono (s : Merge n α) (ks : List (Fin n)) (a : WmScan) :
    (a.hasActive = true → (ks.foldl (scanWm false s) a).hasActive = true) ∧
    (a.anyActivePending = true → (ks.foldl (scanWm false s) a).anyActivePending = true) ∧
    (∀ v, a.minActive = some v → ∃ u, (ks.foldl (scanWm false s) a).minActive = some u ∧ u ≤ v) := by
  induction ks generalizing a with
  | nil => exact ⟨id, id, fun v h => ⟨v, h, Int64.le_refl v⟩⟩
  | cons k ks ih =>
    obtain ⟨h1, h2, h3⟩ := scanWm_mono s a k
    obtain ⟨i1, i2, i3⟩ := ih (scanWm false s a k)
    refine ⟨fun h => i1 (h1 h), fun h => i2 (h2 h), fun v h => ?_⟩
    obtain ⟨u, hu, huv⟩ := h3 v h
    obtain ⟨t, ht, htu⟩ := i3 u hu
    exact ⟨t, ht, Int64.le_trans htu huv⟩

/-- A scanned open channel is counted: active, and pending or above the minimum. -/
theorem foldl_scanWm_mem (s : Merge n α) (ks : List (Fin n)) (a : WmScan) (k : Fin n)
    (hk : k ∈ ks) (hopen : s.ended k = false) :
    (ks.foldl (scanWm false s) a).hasActive = true ∧
    ((ks.foldl (scanWm false s) a).anyActivePending = true ∨
      ∃ v u, s.wm k = some v ∧ (ks.foldl (scanWm false s) a).minActive = some u ∧ u ≤ v) := by
  induction ks generalizing a with
  | nil => cases hk
  | cons c ks ih =>
    rcases mem_cons.mp hk with rfl | hk
    · simp only [foldl_cons]
      obtain ⟨h1, h2, h3⟩ := foldl_scanWm_mono s ks (scanWm false s a k)
      cases hw : s.wm k with
      | none =>
        have e : scanWm false s a k = { a with hasActive := true, anyActivePending := true } := by
          simp [scanWm, hopen, hw]
        rw [e] at h1 h2 ⊢
        exact ⟨h1 rfl, .inl (h2 rfl)⟩
      | some v =>
        have e : scanWm false s a k =
            { a with hasActive := true, minActive := some (a.minActive.elim v (min · v)) } := by
          simp [scanWm, hopen, hw]
        rw [e] at h1 h3 ⊢
        obtain ⟨u, hu, huv⟩ := h3 _ rfl
        refine ⟨h1 rfl, .inr ⟨v, u, rfl, hu, Int64.le_trans huv ?_⟩⟩
        cases a.minActive with
        | none => exact Int64.le_refl v
        | some m =>
          exact Int64.min_le_right m v
    · exact ih (scanWm false s a c) hk

/-- The merged watermark is a lower bound over the open channels, all of which have reported. -/
theorem merged_le (s : Merge n α) (mw : Int64) (h : s.merged false = some mw) (k : Fin n)
    (hopen : s.ended k = false) : ∃ v, s.wm k = some v ∧ mw ≤ v := by
  obtain ⟨h1, h2⟩ := foldl_scanWm_mem s (List.finRange n) ⟨none, false, false, none⟩ k
    (mem_finRange k) hopen
  unfold merged at h
  simp only [h1, if_true] at h
  split at h
  · cases h
  · next hp =>
    rcases h2 with h2 | ⟨v, u, hv, hu, huv⟩
    · exact absurd h2 hp
    · rw [hu] at h
      cases h
      exact ⟨v, hv, huv⟩

/-! ## The invariant -/

/-- Each channel is split into a consumed part `pre` and the rest; the last emitted watermark is
below those of the open channels, and the output so far is on time. -/
structure WmInv (eventTime : α → Option Int) (subs pre : Fin n → List (Item α))
    (s : Merge n α) : Prop where
  split : ∀ j, subs j = pre j ++ s.receivers j
  seen : ∀ j v, s.wm j = some v →
    ∃ x ∈ pre j, ∃ t, Item.watermarkTime x = some t ∧ v = t.timestampMicros
  held : ∀ w, s.lastEmitted = some w → ∀ j, s.ended j = false → ∃ v, s.wm j = some v ∧ w ≤ v
  below : ∀ y ∈ s.out, ∀ t, Item.watermarkTime y.item = some t →
    ∃ w, s.lastEmitted = some w ∧ t.nanos ≤ w.toInt * 1000
  incr : ((s.out.map (·.item)).filterMap Item.watermarkTime).Pairwise fun v w => v.nanos < w.nanos
  onTime : (s.out.map (·.item)).Pairwise (OnTime eventTime)
  endMarker : ∀ b, s.endBatch = some b → b.firstMarker = some (.ok .endOfData)

variable {eventTime : α → Option Int} {subs pre : Fin n → List (Item α)} {s : Merge n α}

theorem wmInv_init (eventTime : α → Option Int) (subs : Fin n → List (Item α)) :
    WmInv eventTime subs (fun _ => []) (init subs) where
  split := fun _ => rfl
  seen := fun _ _ h => by cases h
  held := fun _ h => by cases h
  below := fun _ h => by cases h
  incr := List.Pairwise.nil
  onTime := List.Pairwise.nil
  endMarker := fun _ h => by cases h

theorem WmInv.append_markers (h : WmInv eventTime subs pre s) (ys : List (Yield n α)) (r : Bool)
    (hys : ∀ y ∈ ys, Item.watermarkTime y.item = none ∧ Item.isData y.item = false) :
    WmInv eventTime subs pre { s with out := s.out ++ ys, returned := r } where
  split := h.split
  seen := h.seen
  held := h.held
  below := by
    refine forall_mem_append.mpr ⟨h.below, fun y hy t ht => ?_⟩
    rw [(hys y hy).1] at ht
    cases ht
  incr := by
    have e : (ys.map (·.item)).filterMap Item.watermarkTime = [] := by
      rw [filterMap_eq_nil_iff]
      intro x hx
      obtain ⟨y, hy, rfl⟩ := mem_map.mp hx
      exact (hys y hy).1
    simp only [map_append, filterMap_append, e, append_nil]
    exact h.incr
  onTime := by
    have none : ∀ y ∈ ys, Item.eventTimes eventTime y.item = [] := by
      intro y hy
      have hd := (hys y hy).2
      unfold Item.eventTimes
      unfold Item.isData at hd
      split
      · next b e => rw [e] at hd; simp only at hd; simp [hd]
      · rfl
    simp only [map_append]
    rw [pairwise_append]
    refine ⟨h.onTime, ?_, ?_⟩
    · rw [pairwise_map]
      refine pairwise_of_forall_mem_list fun y hy z hz w hw => ?_
      rw [(hys y hy).1] at hw
      cases hw
    · intro a _ b hb w _
      obtain ⟨z, hz, rfl⟩ := mem_map.mp hb
      rw [none z hz]
      simp
  endMarker := h.endMarker

theorem watermarkTime_of_marker (b : RecordBatch α) (m : FlowMarker)
    (h : b.firstMarker = some (.ok m)) :
    Item.watermarkTime (.ok b : Item α) = (match m with | .watermark _ t => some t | _ => none) ∧
    Item.isData (.ok b : Item α) = false := by
  cases m <;> simp [Item.watermarkTime, Item.isData, RecordBatch.watermarkTime,
    RecordBatch.isData, h]

section

variable (h : WmInv eventTime subs pre s)
include h

theorem WmInv.emitWatermark :
    WmInv eventTime subs pre (s.emitWatermark false) := by
  rcases emitWatermark_cases false s with e | ⟨mw, hm, hlt, hcase⟩
  · rw [e]; exact h
  · have hset : WmInv eventTime subs pre { s with lastEmitted := some mw } := by
      refine ⟨h.split, h.seen, fun w hw j hj => ?_, fun y hy t ht => ?_, h.incr, h.onTime, h.endMarker⟩
      · cases hw
        exact merged_le s mw hm j hj
      · obtain ⟨w, hw, hle⟩ := h.below y hy t ht
        have := Int64.lt_iff_toInt_lt.mp (hlt w hw)
        exact ⟨mw, rfl, by omega⟩
    rcases hcase with ⟨_, e⟩ | ⟨tmpl, _, ⟨b, hb, e⟩ | ⟨err, _, e⟩⟩
    · rw [e]; exact hset
    · -- the new watermark lies strictly above every earlier one
      have hts : ∃ ts, b.firstMarker = some (.ok (.watermark "merged" ts)) ∧
          ts.nanos = mw.toInt * 1000 := by
        unfold rewriteWatermark at hb
        split at hb
        · cases hb
        · next ts hts =>
          exact ⟨ts, RecordBatch.firstMarker_of_rewriteMarker tmpl b _ hb,
            DateTime.nanos_of_fromTimestampMicros mw ts hts⟩
      obtain ⟨ts, hmk, hn⟩ := hts
      obtain ⟨hwt, hnd⟩ := watermarkTime_of_marker b _ hmk
      rw [e]
      refine ⟨h.split, h.seen, hset.held,
        Lists.forall_mem_concat.mpr ⟨hset.below, fun t ht => ?_⟩, ?_, ?_, h.endMarker⟩
      · rw [hwt] at ht
        cases ht
        exact ⟨mw, rfl, by omega⟩
      · simp only [yield, map_append, filterMap_append, map_cons, map_nil]
        rw [pairwise_append]
        refine ⟨h.incr, by simp [hwt], fun v hv w hw => ?_⟩
        simp only [filterMap_cons, hwt, filterMap_nil, mem_singleton] at hw
        obtain ⟨x, hx, hxv⟩ := mem_filterMap.mp hv
        obtain ⟨y, hy, rfl⟩ := mem_map.mp hx
        obtain ⟨l, hl, hle⟩ := h.below y hy v hxv
        have := Int64.lt_iff_toInt_lt.mp (hlt l hl)
        rw [hw, hn]
        omega
      · simp only [yield, map_append, map_cons, map_nil]
        refine Lists.pairwise_concat.mpr ⟨h.onTime, fun a _ w _ => ?_⟩
        have : b.isData = false := hnd
        simp [Item.eventTimes, this]
    · rw [e]
      exact hset.append_markers [⟨none, .error err⟩] true
        (by simp [Item.watermarkTime, Item.isData])

theorem WmInv.emitAligned :
    WmInv eventTime subs pre s.emitAligned := by
  unfold Merge.emitAligned
  split
  · exact h
  · next a _ =>
    obtain ⟨ys, r, e, _, hys⟩ := emitCheckpoints_eq s
      (List.range' (s.lastEmittedCkpt.elim a (· + 1)) (a + 1 - s.lastEmittedCkpt.elim a (· + 1)))
    have key := h.append_markers ys r fun y hy => by
      rcases (hys y hy).2 with ⟨b, c, hb, hmk, _⟩ | herr
      · rw [hb]; exact watermarkTime_of_marker b _ hmk
      · cases hi : y.item with
        | ok b => rw [hi] at herr; cases herr
        | error err => exact ⟨rfl, rfl⟩
    simp only [e]
    split
    · exact key
    · exact ⟨key.split, key.seen, key.held, key.below, key.incr, key.onTime, key.endMarker⟩

theorem WmInv.recompute :
    WmInv eventTime subs pre (s.recompute false) := by
  unfold Merge.recompute
  simp only
  split
  · exact h.emitWatermark
  · exact h.emitWatermark.emitAligned

theorem WmInv.consume (j : Fin n) (x : Item α) (rest : List (Item α))
    (hx : s.receivers j = x :: rest) :
    WmInv eventTime subs (update pre j (pre j ++ [x]))
      { s with receivers := update s.receivers j rest } := by
  refine ⟨fun k => ?_, fun k v hv => ?_, h.held, h.below, h.incr, h.onTime, h.endMarker⟩
  · by_cases hk : k = j
    · subst hk
      simp only [update_self]
      rw [h.split k, hx, append_assoc, singleton_append]
    · simp only [update_of_ne hk]
      exact h.split k
  · obtain ⟨y, hy, t, ht, e⟩ := h.seen k v hv
    refine ⟨y, ?_, t, ht, e⟩
    by_cases hk : k = j
    · subst hk
      rw [update_self]
      exact mem_append_left _ hy
    · rw [update_of_ne hk]
      exact hy

/-- Everything emitted so far lies below the data an open channel still holds. -/
theorem WmInv.head_onTime (hsubs : ∀ j, (subs j).Pairwise (OnTime eventTime)) (j : Fin n)
    (hopen : s.ended j = false) (x : Item α) (rest : List (Item α))
    (hx : s.receivers j = x :: rest) (y : Yield n α) (hy : y ∈ s.out) :
    OnTime eventTime y.item x := by
  intro w hw t ht
  obtain ⟨l, hl, hle⟩ := h.below y hy w hw
  obtain ⟨v, hv, hlv⟩ := h.held l hl j hopen
  obtain ⟨z, hz, u, hu, rfl⟩ := h.seen j v hv
  have hpw := hsubs j
  rw [h.split j, hx, pairwise_append] at hpw
  have := hpw.2.2 z hz x mem_cons_self u hu t ht
  rw [Int64.le_iff_toInt_le, DateTime.toInt_timestampMicros] at hlv
  omega

/-- A data batch, or another marker, passed through from an open channel. -/
theorem WmInv.pass (j : Fin n) (b : RecordBatch α) (hmk : b.watermarkTime = none)
    (hon : ∀ y ∈ s.out, OnTime eventTime y.item (.ok b)) :
    WmInv eventTime subs pre (s.yield (some j) (.ok b)) := by
  have hwt : Item.watermarkTime (.ok b : Item α) = none := hmk
  refine ⟨h.split, h.seen, h.held, Lists.forall_mem_concat.mpr ⟨h.below, fun t ht => ?_⟩, ?_, ?_,
    h.endMarker⟩
  · rw [hwt] at ht
    cases ht
  · simp only [yield, map_append, filterMap_append, map_cons, map_nil,
      filterMap_cons, hwt, filterMap_nil, append_nil]
    exact h.incr
  · simp only [yield, map_append, map_cons, map_nil]
    refine Lists.pairwise_concat.mpr ⟨h.onTime, fun a ha => ?_⟩
    obtain ⟨y, hy, rfl⟩ := mem_map.mp ha
    exact hon y hy

theorem WmInv.endChannel (j : Fin n) (eb : Option (RecordBatch α))
    (heb : ∀ b, eb = some b → b.firstMarker = some (.ok .endOfData)) :
    WmInv eventTime subs pre { s with ended := update s.ended j true, endBatch := eb } := by
  refine ⟨h.split, h.seen, fun w hw k hk => h.held w hw k ?_, h.below, h.incr, h.onTime, heb⟩
  by_cases hkj : k = j
  · subst hkj
    simp at hk
  · simpa [update_of_ne hkj] using hk

/-- Recording a consumed watermark only raises the channel's own bound. -/
theorem WmInv.recordWatermark (j : Fin n) (b : RecordBatch α) (t : DateTime) (hb : .ok b ∈ pre j)
    (ht : b.watermarkTime = some t) (im : Fin n → Bool) :
    WmInv eventTime subs pre
      { s with
        idleMarked := im
        wm := update s.wm j (some ((s.wm j).elim t.timestampMicros (max · t.timestampMicros)))
        wmTemplate := some b } := by
  refine ⟨h.split, fun k v hv => ?_, fun w hw k hk => ?_, h.below, h.incr, h.onTime, h.endMarker⟩
  · by_cases hkj : k = j
    · subst hkj
      simp only [update_self, Option.some.injEq] at hv
      have new : ∃ x ∈ pre k, ∃ u, Item.watermarkTime x = some u ∧
          t.timestampMicros = u.timestampMicros := ⟨.ok b, hb, t, ht, rfl⟩
      cases hw : s.wm k with
      | none => rw [hw] at hv; simp only [Option.elim_none] at hv; rw [← hv]; exact new
      | some u =>
        rw [hw] at hv
        simp only [Option.elim_some, Int64.max_eq_ite] at hv
        split at hv
        · rw [← hv]; exact new
        · exact h.seen k v (by rw [hw, hv])
    · simp only [update_of_ne hkj] at hv
      exact h.seen k v hv
  · obtain ⟨v, hv, hle⟩ := h.held w hw k hk
    by_cases hkj : k = j
    · subst hkj
      refine ⟨max v t.timestampMicros, by simp [hv], ?_⟩
      exact Int64.le_trans hle (Int64.le_max_left v _)
    · exact ⟨v, by simp [update_of_ne hkj, hv], hle⟩

theorem WmInv.onBatch (j : Fin n) (b : RecordBatch α) (hb : .ok b ∈ pre j)
    (hon : ∀ y ∈ s.out, OnTime eventTime y.item (.ok b)) :
    WmInv eventTime subs pre (s.onBatch false j b) := by
  have hc := classifyMk_spec b
  unfold Merge.onBatch
  cases hk : classifyMk b with
  | data =>
    rw [hk] at hc
    have h' : WmInv eventTime subs pre { s with idleMarked := update s.idleMarked j false } :=
      { h with }
    exact h'.pass j b (by simp [RecordBatch.watermarkTime, hc]) hon
  | watermark ts =>
    rw [hk] at hc
    obtain ⟨src, t, hm, rfl⟩ := hc
    exact (h.recordWatermark j b t hb (by simp [RecordBatch.watermarkTime, hm]) _).recompute
  | checkpoint e | idle =>
    exact WmInv.recompute { h with }
  | endOfData =>
    rw [hk] at hc
    refine (h.endChannel j _ fun c hcb => ?_).recompute
    cases he : s.endBatch with
    | none => rw [he] at hcb; cases hcb; exact hc
    | some d => rw [he] at hcb; cases hcb; exact h.endMarker _ he
  | other =>
    rw [hk] at hc
    simp only
    split
    · refine h.pass j b ?_ hon
      rcases hc with ⟨e, he⟩ | ⟨src, id, t, he⟩ <;> simp [RecordBatch.watermarkTime, he]
    · exact h

end

theorem WmInv.iterate (hsubs : ∀ j, (subs j).Pairwise (OnTime eventTime)) (ready : Fin n → Bool)
    (h : ∃ pre, WmInv eventTime subs pre s) :
    ∃ pre, WmInv eventTime subs pre (s.iterate false ready) := by
  obtain ⟨pre, h⟩ := h
  rcases iterate_cases false s ready with e | ⟨_, ⟨_, e⟩ | ⟨j, _, hopen, e⟩ | ⟨hf, _⟩⟩
  · exact ⟨pre, by rw [e]; exact h⟩
  · refine ⟨pre, ?_⟩
    rw [e]
    unfold Merge.finish
    split
    · next b hb =>
      have hm := watermarkTime_of_marker b _ (h.endMarker b hb)
      have key := h.append_markers [⟨none, .ok b⟩] true (by simp [hm])
      exact ⟨key.split, key.seen, key.held, key.below, key.incr, key.onTime, fun _ hc => by cases hc⟩
    · exact { h with }
  · rw [e]
    unfold Merge.recv
    split
    · exact ⟨pre, (h.endChannel j s.endBatch h.endMarker).recompute⟩
    · next x rest hx =>
      refine ⟨update pre j (pre j ++ [x]), ?_⟩
      split
      · exact (h.consume j _ rest hx).append_markers [⟨some j, .error _⟩] true
          (by simp [Item.watermarkTime, Item.isData])
      · refine (h.consume j _ rest hx).onBatch j _ (by simp) fun y hy => ?_
        exact h.head_onTime hsubs j hopen _ rest hx y hy
  · cases hf

end Merge

/-- **Watermark safety of the bounded merge**: if every sub-channel is on time, then for every poll
order the merged watermarks increase and no row comes after one that it is not above. -/
theorem mergeOutputSubchannels_onTime (eventTime : α → Option Int) (subs : Fin n → List (Item α))
    (hsubs : ∀ j, (subs j).Pairwise (OnTime eventTime)) (sched : List (Fin n → Bool)) :
    (((mergeOutputSubchannels false subs sched).out.map (·.item)).filterMap
      Item.watermarkTime).Pairwise (fun v w => v.nanos < w.nanos) ∧
    ((mergeOutputSubchannels false subs sched).out.map (·.item)).Pairwise (OnTime eventTime) := by
  obtain ⟨pre, h⟩ := Runs.run_inv (Merge.iterate false)
    (fun s => ∃ pre, Merge.WmInv eventTime subs pre s)
    (fun s ready h => Merge.WmInv.iterate hsubs ready h) (Merge.init subs) sched
    ⟨fun _ => [], Merge.wmInv_init eventTime subs⟩
  exact ⟨h.incr, h.onTime⟩

/-- A channel at 3 µs and a faster one at 5 µs, with rows just above. -/
def twoChannels : Fin 2 → List (Item Int)
  | 0 => [.ok (.encodeMarker (.watermark "w" ⟨5000, by decide, by decide⟩) 0), .ok (.encodeData [5001])]
  | 1 => [.ok (.encodeMarker (.watermark "w" ⟨3000, by decide, by decide⟩) 0), .ok (.encodeData [3001])]

/-- The merged watermark is the slower one, and stays below both channels' rows. -/
theorem mergeOutputSubchannels_onTime_twoChannels :
    ((mergeOutputSubchannels false twoChannels
      [fun _ => true, fun j => j = 1, fun _ => true, fun j => j = 1]).out.map (·.item)).filterMap
        Item.watermarkTime = [⟨3000, by decide, by decide⟩] ∧
    ((mergeOutputSubchannels false twoChannels
      [fun _ => true, fun j => j = 1, fun _ => true, fun j => j = 1]).out.map (·.item)).Pairwise
        (OnTime some) :=
  ⟨by decide, (mergeOutputSubchannels_onTime some twoChannels (by decide) _).2⟩

end Zelox.Exchange
