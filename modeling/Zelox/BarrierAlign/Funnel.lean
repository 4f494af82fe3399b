import Zelox.BarrierAlign.Alignment

/-!
# Watermarks through the barrier-aligning merge

The merge forwards input 0's watermarks as they come and drops the others', so a
row of another input can come out behind a watermark it does not exceed.  That
cannot happen exactly if no input holds a row at or below a watermark of input 0
that is at the same barrier level or an earlier one (`FunnelSafe`,
`onTime_iff_funnelSafe`).

If there is such a row, the run that yields the watermark first is built here: drive
the merge to the watermark's level (`exists_fresh`), take input 0 through the
watermark, drive on to the row's level, and take its input through the row (`drive`).
-/

namespace Zelox.BarrierAlign

open List

variable {n : Nat} {α : Type}

/-- The merge gets to level `b`: no input fails before it. -/
def Reaches (streams : Fin n → List (Item α)) (b : Nat) : Prop :=
  ∀ k, faulty (streams k) = true → b ≤ level (readable (streams k))

/-- Rows of the other inputs at the level of a watermark of input 0, or later, are
above it. -/
def FunnelSafe (eventTime : α → Option Int) (streams : Fin n → List (Item α)) : Prop :=
  ∀ i j : Fin n, i.val = 0 → j ≠ i → ∀ p w q p' d q',
    readable (streams i) = p ++ w :: q → readable (streams j) = p' ++ d :: q' →
    level p ≤ level p' → Reaches streams (level p') → OnTime eventTime w d

variable {streams pre : Fin n → List (Item α)} {s : Align n α}

/-! ## Safe inputs -/

theorem of_watermarkTime {x : Item α} {t : DateTime} (h : Item.watermarkTime x = some t) :
    Item.isError x = false ∧ Item.isData x = false ∧ Item.checkpointId x = none := by
  cases x with
  | error => cases h
  | ok b =>
    simp only [Item.watermarkTime, RecordBatch.watermarkTime] at h
    split at h
    next hb => simp [Item.isError, Item.isData, RecordBatch.isData, Item.checkpointId,
      RecordBatch.checkpointId, hb]
    next => cases h

theorem of_mem_eventTimes {eventTime : α → Option Int} {x : Item α} {e : Int}
    (h : e ∈ Item.eventTimes eventTime x) :
    Item.isError x = false ∧ Item.isData x = true ∧ Item.checkpointId x = none := by
  cases x with
  | error => cases h
  | ok b =>
    simp only [Item.eventTimes] at h
    split at h
    next hd =>
      have hb : b.firstMarker = none := Option.isNone_iff_eq_none.mp hd
      exact ⟨rfl, hd, by simp only [Item.checkpointId, RecordBatch.checkpointId, hb]⟩
    next => cases h

theorem OutInv.onTime {eventTime : α → Option Int} {out : List (Yield n α)}
    (h : OutInv streams out) (hstreams : ∀ j, (streams j).Pairwise (OnTime eventTime))
    (hsafe : FunnelSafe eventTime streams) : (out.map (·.item)).Pairwise (OnTime eventTime) := by
  rw [pairwise_map]
  refine pairwise_iff_forall_sublist.mpr ?_
  intro w d hsub
  obtain ⟨o1, o2, o3, hout⟩ : ∃ o1 o2 o3, out = o1 ++ w :: (o2 ++ d :: o3) := by
    obtain ⟨r1, r2, rfl, hw, hd⟩ := cons_sublist_iff.mp hsub
    obtain ⟨o1, m, rfl⟩ := append_of_mem hw
    obtain ⟨m', o3, rfl⟩ := append_of_mem (singleton_sublist.mp hd)
    exact ⟨o1, m ++ m', o3, by simp⟩
  intro t ht e he
  -- `w` is a watermark and `d` a data batch, both passed through
  obtain ⟨hwok, hwdata, -⟩ := of_watermarkTime ht
  obtain ⟨hdok, hddata, -⟩ := of_mem_eventTimes he
  have hwmem : w ∈ out := hout ▸ by simp
  have hdmem : d ∈ out := hout ▸ by simp
  obtain ⟨i, hi⟩ : ∃ i, w.src = some i := by
    cases hsrc : w.src with
    | none => rw [(h.own w hwmem hsrc).2] at ht; cases ht
    | some i => exact ⟨i, rfl⟩
  obtain ⟨j, hj⟩ : ∃ j, d.src = some j := by
    cases hsrc : d.src with
    | none => rw [(h.own d hdmem hsrc).1] at hddata; cases hddata
    | some j => exact ⟨j, rfl⟩
  by_cases hij : j = i
  · -- both from one input, in its own order
    subst hij
    have hpair : [w.item, d.item].Sublist (streams j) := by
      refine List.Sublist.trans ?_ (h.order j)
      have hf : ([w, d].filter fun y => y.src = some j) = [w, d] := by simp [hi, hj]
      have := (hsub.filter fun y => decide (y.src = some j)).map (·.item)
      rw [hf] at this
      exact this
    exact pairwise_iff_forall_sublist.mp (hstreams j) hpair t ht e he
  · obtain ⟨hfw, p, q, hp, hpl⟩ := h.pass o1 w _ i hout hi hwok
    obtain ⟨-, p', q', hp', hpl'⟩ := h.pass (o1 ++ w :: o2) d o3 j (by simp [hout]) hj hdok
    have hzero : i.val = 0 := by simpa [forwards, hwdata] using hfw
    refine hsafe i j hzero hij p w.item q p' d.item q' hp hp' ?_ ?_ t ht e he
    · rw [hpl, hpl', outLevel_append]
      omega
    · intro k hk
      have := h.reach k hk
      rw [hout, show o1 ++ w :: (o2 ++ d :: o3) = (o1 ++ w :: o2) ++ d :: o3 by simp, outLevel_append,
        ← hpl'] at this
      omega

/-! ## Driving one input -/

theorem readable_eq_cons {c r : List (Item α)} {x : Item α} (h : readable c = x :: r) :
    ∃ rest, c = x :: rest ∧ stops x = false ∧ readable rest = r := by
  cases c with
  | nil => cases h
  | cons y c =>
    unfold readable at h
    by_cases hy : stops y = true
    · rw [takeWhile_cons_of_neg (by simp [hy])] at h
      cases h
    · rw [takeWhile_cons_of_pos (by simp [hy])] at h
      cases h
      exact ⟨c, rfl, by simpa using hy, rfl⟩

theorem iterate_only (s : Align n α) (hr : s.returned = false) (k : Fin n) (hk : s.ended k = false)
    (hb : s.reached k = none) : s.iterate (fun i => i = k) = s.recv k := by
  have hf : s.pollable.find? (fun i => i = k) = some k := by
    have hmem := (s.mem_pollable k).mpr ⟨hk, hb⟩
    cases hf : s.pollable.find? (fun i => i = k) with
    | none => exact absurd (by simp) (find?_eq_none.mp hf k hmem)
    | some i =>
      have hik : i = k := by simpa using find?_some hf
      rw [hik]
  have ha : k ∈ s.active := (s.mem_active k).mpr hk
  cases hact : s.active with
  | nil => rw [hact] at ha; cases ha
  | cons i is =>
    have hall : ¬ ((i :: is).all fun k => (s.reached k).isSome) = true := by
      intro h
      have := all_eq_true.mp h k (hact ▸ ha)
      rw [hb] at this
      cases this
    simp only [Align.iterate, hr, hact, if_neg hall, hf, Bool.false_eq_true, if_false]

theorem recv_item (s : Align n α) (k : Fin n) (x : Item α) (rest : List (Item α))
    (hx : s.receivers k = x :: rest) (hstop : stops x = false) (hck : Item.checkpointId x = none) :
    s.recv k = { s with
      receivers := Function.update s.receivers k rest
      out := s.out ++ if forwards k x then [⟨some k, x⟩] else [] } := by
  cases x with
  | error e => cases hstop
  | ok b =>
    simp only [Align.recv, hx]
    unfold Align.onBatch
    have hc := classify_spec b
    cases hk : classify b with
    | error e =>
      rw [hk] at hc
      have hm : b.firstMarker = some (.error e) := hc
      simp [stops, isFault, hm, Except.isOk, Except.toBool] at hstop
    | ok kind =>
      rw [hk] at hc
      cases kind with
      | data =>
        have hm : b.firstMarker = none := hc
        simp [forwards, Item.isData, RecordBatch.isData, hm, Align.yield]
      | checkpoint e =>
        have hm : b.firstMarker = some (.ok (.checkpoint e)) := hc
        simp [Item.checkpointId, RecordBatch.checkpointId, hm] at hck
      | endOfData =>
        have hm : b.firstMarker = some (.ok .endOfData) := hc
        simp [stops, Item.isEndOfData, RecordBatch.isEndOfData, hm] at hstop
      | otherMarker =>
        obtain ⟨m, hm, -, -⟩ := hc
        by_cases hz : k.val = 0
        · simp [forwards, hz, Align.yield]
        · simp [forwards, hz, Item.isData, RecordBatch.isData, hm]

theorem AlignInv.step (h : AlignInv streams pre s) (hr : s.returned = false) (k : Fin n)
    (hk : s.ended k = false) (hb : s.reached k = none) (x : Item α) (rest : List (Item α))
    (hx : s.receivers k = x :: rest) (hstop : stops x = false) (hck : Item.checkpointId x = none) :
    ∃ t, Runs.Reach Align.iterate s t ∧ AlignInv streams (Function.update pre k (pre k ++ [x])) t ∧
      t.returned = false ∧ t.ended = s.ended ∧ t.reached = s.reached ∧
      t.receivers = Function.update s.receivers k rest ∧
      t.out = s.out ++ if forwards k x then [⟨some k, x⟩] else [] := by
  refine ⟨s.recv k, ?_, ?_, ?_⟩
  · rw [← iterate_only s hr k hk hb]
    exact Runs.Reach.single _ _ _
  · rw [recv_item s k x rest hx hstop hck]
    refine h.pass k hk x rest hx hstop hb hck _ ?_
    cases hf : forwards k x with
    | true => exact .inl rfl
    | false =>
      refine .inr ⟨rfl, ?_⟩
      exact (Bool.or_eq_false_iff.mp hf).1
  · rw [recv_item s k x rest hx hstop hck]
    exact ⟨hr, rfl, rfl, rfl, rfl⟩

/-- Input `k` is taken through `m` and then `x`, without a barrier in between. -/
theorem AlignInv.drive (k : Fin n) (m : List (Item α)) (x : Item α) (q : List (Item α))
    (hlev : level m = 0) (hck : Item.checkpointId x = none) (hfw : forwards k x = true)
    (h : AlignInv streams pre s) (hr : s.returned = false) (hk : s.ended k = false)
    (hb : s.reached k = none) (hread : readable (s.receivers k) = m ++ x :: q) :
    ∃ t ys, Runs.Reach Align.iterate s t ∧
      AlignInv streams (Function.update pre k (pre k ++ (m ++ [x]))) t ∧
      t.returned = false ∧ t.ended = s.ended ∧ t.reached = s.reached ∧
      t.out = s.out ++ ys ++ [⟨some k, x⟩] := by
  induction m generalizing s pre with
  | nil =>
    obtain ⟨rest, hx, hstop, -⟩ := readable_eq_cons hread
    obtain ⟨t, ht, hinv, h1, h2, h3, -, h5⟩ := h.step hr k hk hb x rest hx hstop hck
    rw [hfw, if_pos rfl] at h5
    exact ⟨t, [], ht, hinv, h1, h2, h3, by rw [h5, append_nil]⟩
  | cons y m ih =>
    obtain ⟨rest, hx, hstop, hrest⟩ := readable_eq_cons hread
    have hsplit : level [y] + level m = 0 := by
      rw [← level_append]
      exact hlev
    have hyck : Item.checkpointId y = none := by
      have : level [y] = 0 := by omega
      rw [level_singleton] at this
      cases hy : Item.checkpointId y with
      | none => rfl
      | some e => rw [hy] at this; cases this
    obtain ⟨t, ht, hinv, h1, h2, h3, h4, h5⟩ := h.step hr k hk hb y rest hx hstop hyck
    obtain ⟨u, ys, hu, hinv', h1', h2', h3', h5'⟩ := ih (by omega) hinv h1 (by rw [h2]; exact hk)
      (by rw [h3]; exact hb) (by rw [h4, Function.update_self]; exact hrest)
    refine ⟨u, (if forwards k y then [⟨some k, y⟩] else []) ++ ys, ht.trans hu, ?_, h1', h2'.trans h2,
      h3'.trans h3, by rw [h5', h5]; simp⟩
    rw [Function.update_self, Function.update_idem, append_assoc] at hinv'
    exact hinv'

/-! ## Driving the merge one level up -/

/-- The merge just after its `c`-th barrier: every open input is just behind its own. -/
structure Fresh (streams pre : Fin n → List (Item α)) (c : Nat) (t : Align n α) : Prop where
  running : t.returned = false
  out : OutInv streams t.out
  inv : AlignInv streams pre t
  atLevel : outLevel t.out = c
  free : ∀ k, t.ended k = false → t.reached k = none
  front : ∀ k, t.ended k = false →
    pre k = [] ∨ ∃ p x, pre k = p ++ [x] ∧ (Item.checkpointId x).isSome = true
  past : ∀ k, t.ended k = true → level (readable (streams k)) < c

theorem fresh_init (streams : Fin n → List (Item α)) :
    Fresh streams (fun _ => []) 0 (Align.init streams) where
  running := rfl
  out := (outcome_init streams).1
  inv := alignInv_init streams
  atLevel := rfl
  free := fun _ _ => rfl
  front := fun _ _ => .inl rfl
  past := fun _ h => by cases h

/-- With all open inputs blocked, the next turn seals the epoch. -/
theorem AlignInv.fresh_seal (h : AlignInv streams pre s) (ho : OutInv streams s.out)
    (hr : s.returned = false) (i : Fin n) (hi : s.ended i = false)
    (hall : ∀ k, s.ended k = false → (s.reached k).isSome = true) :
    Fresh streams pre (outLevel s.out + 1) (s.iterate fun _ => true) ∧
    s.out <+: (s.iterate fun _ => true).out := by
  have hact : s.active ≠ [] := ne_nil_of_mem ((s.mem_active i).mpr hi)
  obtain ⟨i', is, hc⟩ := exists_cons_of_ne_nil hact
  have hi' := (s.mem_active i').mp (hc ▸ mem_cons_self)
  have hall' : ((i' :: is).all fun k => (s.reached k).isSome) = true :=
    all_eq_true.mpr fun k hk => hall k ((s.mem_active k).mp (hc ▸ hk))
  have e : (s.iterate fun _ => true) = s.sealEpoch i' := by
    simp only [Align.iterate, hr, hc, hall', Bool.false_eq_true, if_false, if_true]
  obtain ⟨b, c, -, -, hm, hseal, h'⟩ := h.sealEpoch i' hi' hall
  have ho' := (h.iterate_outcome ho hr fun _ => true).1
  rw [e] at ho' ⊢
  refine ⟨⟨?_, ho', h', ?_, ?_, ?_, ?_⟩, ?_⟩
  · rw [hseal]; exact hr
  · rw [hseal, outLevel_concat, checkpointId_of_marker hm]
    rfl
  · intro k hk
    rw [hseal] at hk ⊢
    simp only at hk ⊢
    rw [hk]
    rfl
  · intro k hk
    obtain ⟨e, he⟩ := Option.isSome_iff_exists.mp (hall k hk)
    obtain ⟨b', p, -, hb', hp⟩ := h.blocked k e he
    exact .inr ⟨p, _, hp, by rw [checkpointId_of_marker hb']; rfl⟩
  · intro k hk
    rw [hseal] at hk
    obtain ⟨h1, -, -, h4⟩ := h.closed k hk
    rw [h1]
    omega
  · rw [hseal]
    exact prefix_append ..

theorem recv_returned (s : Align n α) (hr : s.returned = false) (k : Fin n)
    (hok : ∀ x rest, s.receivers k = x :: rest → isFault x = false) : (s.recv k).returned = false := by
  unfold Align.recv
  rcases hx : s.receivers k with _ | ⟨e | b, rest⟩
  · exact hr
  · cases hok _ rest hx
  · simp only
    unfold Align.onBatch
    have hc := classify_spec b
    cases hk : classify b with
    | error e =>
      rw [hk] at hc
      have hm : b.firstMarker = some (.error e) := hc
      have := hok _ rest hx
      simp [isFault, hm, Except.isOk, Except.toBool] at this
    | ok kind =>
      cases kind with
      | otherMarker =>
        simp only
        split <;> exact hr
      | _ => exact hr

/-- From any running state the merge can be driven one level up. -/
theorem exists_raise (c : Nat) (hreach : Reaches streams (c + 1)) (j : Fin n)
    (hj : c + 1 ≤ level (readable (streams j))) (h : AlignInv streams pre s)
    (ho : OutInv streams s.out) (hr : s.returned = false) (hc : outLevel s.out = c) :
    ∃ t pre', Runs.Reach Align.iterate s t ∧ Fresh streams pre' (c + 1) t ∧ s.out <+: t.out := by
  -- poll any unblocked input until all open ones are blocked; the rank bounds the turns
  induction hm : rank s using Nat.strongRecOn generalizing s pre with
  | ind r ih =>
    have hjo : s.ended j = false := by
      rw [← Bool.not_eq_true]
      intro he
      obtain ⟨h1, -, -, h4⟩ := h.closed j he
      rw [h1] at hj
      omega
    by_cases hall : ∀ k, s.ended k = false → (s.reached k).isSome = true
    · obtain ⟨hf, hp⟩ := h.fresh_seal ho hr j hjo hall
      rw [hc] at hf
      exact ⟨_, pre, Runs.Reach.single _ _ _, hf, hp⟩
    · push Not at hall
      obtain ⟨k, hk, hn⟩ := hall
      have hn : s.reached k = none := by simpa using hn
      have hret : (s.recv k).returned = false := by
        refine recv_returned s hr k fun x rest hx => ?_
        rw [← Bool.not_eq_true]
        intro hf
        have hfk := hreach k (h.faulty_of_front k hk x rest hx hf)
        have hlev := h.levels k hk
        rw [hn] at hlev
        rw [h.readable_eq k hk, hx, readable_cons_of_stops x rest (by simp [stops, hf]),
          append_nil, hlev] at hfk
        simp only [Option.isSome_none, Bool.false_eq_true, if_false] at hfk
        omega
      obtain ⟨ho', ⟨-, pre', h'⟩ | ⟨hr', -⟩⟩ := h.recv_outcome ho hr k hk hn
      swap
      · rw [hret] at hr'
        cases hr'
      have hout : outLevel (s.recv k).out = c ∧ s.out <+: (s.recv k).out := by
        rcases recv_out s k with e | ⟨y, e, hy⟩
        · rw [e]; exact ⟨hc, prefix_rfl⟩
        · rw [e, outLevel_concat_none s.out y hy]
          exact ⟨hc, prefix_append ..⟩
      obtain ⟨t, p, ht, hf, hp⟩ := ih _ (hm ▸ rank_recv_lt s hr k hk hn) h' ho' hret hout.1 rfl
      refine ⟨t, p, Runs.Reach.trans ?_ ht, hf, hout.2.trans hp⟩
      rw [← iterate_only s hr k hk hn]
      exact Runs.Reach.single _ _ _

theorem exists_fresh_above (b : Nat) (hreach : Reaches streams b) (j : Fin n)
    (hj : b ≤ level (readable (streams j))) (h : AlignInv streams pre s) (ho : OutInv streams s.out)
    (hr : s.returned = false) (hlt : outLevel s.out < b) :
    ∃ t pre', Runs.Reach Align.iterate s t ∧ Fresh streams pre' b t ∧ s.out <+: t.out := by
  induction b with
  | zero => omega
  | succ b ih =>
    have hreach' : Reaches streams b := fun k hk => Nat.le_of_succ_le (hreach k hk)
    by_cases hb : outLevel s.out = b
    · exact exists_raise b hreach j hj h ho hr hb
    · obtain ⟨t, p, ht, hf, hp⟩ := ih hreach' (by omega) (by omega)
      obtain ⟨u, p', hu, hf', hp'⟩ := exists_raise b hreach j hj hf.inv hf.out hf.running hf.atLevel
      exact ⟨u, p', ht.trans hu, hf', hp.trans hp'⟩

theorem exists_fresh (a : Nat) (hreach : Reaches streams a) (j : Fin n)
    (hj : a ≤ level (readable (streams j))) :
    ∃ t pre, Runs.Reach Align.iterate (Align.init streams) t ∧ Fresh streams pre a t := by
  by_cases ha : a = 0
  · subst ha
    exact ⟨_, _, Runs.Reach.refl _ _, fresh_init streams⟩
  · have h0 := fresh_init streams
    obtain ⟨t, p, ht, hf, -⟩ := exists_fresh_above a hreach j hj h0.inv h0.out h0.running
      (by rw [h0.atLevel]; omega)
    exact ⟨t, p, ht, hf⟩

/-- A position of an open input at the merge's level is still ahead if the input is
just behind a barrier. -/
theorem AlignInv.position (h : AlignInv streams pre s) (k : Fin n) (hk : s.ended k = false)
    (hn : s.reached k = none)
    (hfront : pre k = [] ∨ ∃ p x, pre k = p ++ [x] ∧ (Item.checkpointId x).isSome = true)
    (p : List (Item α)) (x : Item α) (q : List (Item α))
    (hp : readable (streams k) = p ++ x :: q) (hl : level p = outLevel s.out) :
    ∃ m, level m = 0 ∧ readable (s.receivers k) = m ++ x :: q := by
  have hlev := h.levels k hk
  rw [hn] at hlev
  simp only [Option.isSome_none, Bool.false_eq_true, if_false, Nat.add_zero] at hlev
  rw [h.readable_eq k hk] at hp
  rcases append_eq_append_iff.mp hp with ⟨m, hm, hr⟩ | ⟨m, hm, hr⟩
  · refine ⟨m, ?_, hr⟩
    rw [hm, level_append] at hl
    omega
  · -- `pre k` would end beyond `p`, with a barrier
    cases m with
    | nil => exact ⟨[], rfl, hr.symm⟩
    | cons y m =>
      rcases hfront with hnil | ⟨p', z, hz, hck⟩
      · rw [hnil] at hm
        cases p <;> cases hm
      · have hlast : level [z] = 1 := by rw [level_singleton, hck]; rfl
        have hp' : p <+: p' := by
          refine prefix_of_prefix_length_le (prefix_append p (y :: m))
            (hm ▸ hz ▸ prefix_append p' [z]) ?_
          have := congrArg List.length (hm.symm.trans hz)
          simp only [length_append, length_cons, length_nil] at this
          omega
        obtain ⟨r, hr'⟩ := hp'
        rw [hz, level_append, hlast, ← hr', level_append] at hlev
        omega

theorem Fresh.position {c : Nat} (h : Fresh streams pre c s) (k : Fin n) (p : List (Item α))
    (x : Item α) (q : List (Item α)) (hp : readable (streams k) = p ++ x :: q) (hl : level p = c) :
    s.ended k = false ∧ s.reached k = none ∧
    ∃ m, level m = 0 ∧ readable (s.receivers k) = m ++ x :: q := by
  have hk : s.ended k = false := by
    rw [← Bool.not_eq_true]
    intro he
    have := h.past k he
    rw [hp, level_append] at this
    omega
  refine ⟨hk, h.free k hk, ?_⟩
  exact h.inv.position k hk (h.free k hk) (h.front k hk) p x q hp (by rw [hl, h.atLevel])

/-- A run in which `w` of input `i` comes out before `d` of input `j`, which is at its level or
later. -/
theorem exists_run_overtaking (i j : Fin n) (hij : j ≠ i) (p : List (Item α)) (w : Item α)
    (q p' : List (Item α)) (d : Item α) (q' : List (Item α))
    (hp : readable (streams i) = p ++ w :: q) (hp' : readable (streams j) = p' ++ d :: q')
    (hw : Item.checkpointId w = none ∧ forwards i w = true)
    (hd : Item.checkpointId d = none ∧ forwards j d = true)
    (hle : level p ≤ level p') (hreach : Reaches streams (level p')) :
    ∃ sched o1 o2, (alignFlowEventStreams streams sched).out = o1 ++ [⟨some i, w⟩] ++ o2 ++ [⟨some j, d⟩] := by
  have hj : level p' ≤ level (readable (streams j)) := by
    rw [hp', level_append]
    omega
  -- to the level of `w`, and through it
  obtain ⟨t1, pre1, hr1, hf1⟩ := exists_fresh (level p) (fun k hk => le_trans hle (hreach k hk)) j
    (le_trans hle hj)
  obtain ⟨hi1, hi2, m, hm, hread⟩ := hf1.position i p w q hp rfl
  obtain ⟨t2, ys, hr2, h2, hret2, hend2, hrea2, hout2⟩ :=
    hf1.inv.drive i m w q hm hw.1 hw.2 hf1.running hi1 hi2 hread
  have hlev2 : outLevel t2.out = level p := by
    have hl := h2.levels i (by rw [hend2]; exact hi1)
    have hl1 := hf1.inv.levels i hi1
    rw [hrea2, hi2] at hl
    rw [hi2, hf1.atLevel] at hl1
    rw [Function.update_self, level_append, level_append, level_singleton, hw.1] at hl
    simp only [Option.isSome_none, Bool.false_eq_true, if_false, Nat.add_zero] at hl hl1
    omega
  by_cases heq : level p = level p'
  · -- `d` is at the same level: its input has not moved
    have hpre : Function.update pre1 i (pre1 i ++ (m ++ [w])) j = pre1 j := Function.update_of_ne hij _ _
    obtain ⟨hj1, hj2, -⟩ := hf1.position j p' d q' hp' heq.symm
    obtain ⟨m', hm', hread'⟩ := h2.position j (by rw [hend2]; exact hj1) (by rw [hrea2]; exact hj2)
      (by rw [hpre]; exact hf1.front j hj1) p' d q' hp' (by rw [hlev2, heq])
    obtain ⟨t3, zs, hr3, -, -, -, -, hout3⟩ := h2.drive j m' d q' hm' hd.1 hd.2 hret2
      (by rw [hend2]; exact hj1) (by rw [hrea2]; exact hj2) hread'
    obtain ⟨sched, hs⟩ := (hr1.trans hr2).trans hr3
    refine ⟨sched, t1.out ++ ys, zs, ?_⟩
    unfold alignFlowEventStreams
    rw [hs, hout3, hout2]
  · -- drive on to the level of `d`
    have ho2 : OutInv streams t2.out := by
      obtain ⟨sched, hs⟩ := hr1.trans hr2
      have := (outcome_run streams sched).1
      unfold alignFlowEventStreams at this
      rwa [hs] at this
    obtain ⟨t3, pre3, hr3, hf3, hpx⟩ := exists_fresh_above (level p') hreach j hj h2 ho2 hret2
      (by rw [hlev2]; omega)
    obtain ⟨hj1, hj2, m', hm', hread'⟩ := hf3.position j p' d q' hp' rfl
    obtain ⟨t4, zs, hr4, -, -, -, -, hout4⟩ := hf3.inv.drive j m' d q' hm' hd.1 hd.2 hf3.running hj1 hj2
      hread'
    obtain ⟨sched, hs⟩ := ((hr1.trans hr2).trans hr3).trans hr4
    obtain ⟨us, hus⟩ := hpx
    refine ⟨sched, t1.out ++ ys, us ++ zs, ?_⟩
    unfold alignFlowEventStreams
    rw [hs, hout4, ← hus, hout2]
    simp

/-! ## The condition is exact -/

/-- **Watermark safety of the funnel**: it holds for every poll order exactly if the inputs are
`FunnelSafe`. -/
theorem onTime_iff_funnelSafe (eventTime : α → Option Int) (streams : Fin n → List (Item α))
    (hstreams : ∀ j, (streams j).Pairwise (OnTime eventTime)) :
    (∀ sched, ((alignFlowEventStreams streams sched).out.map (·.item)).Pairwise (OnTime eventTime)) ↔
      FunnelSafe eventTime streams := by
  constructor
  · intro h i j hi hij p w q p' d q' hp hp' hle hreach t ht e he
    obtain ⟨-, -, hw⟩ := of_watermarkTime ht
    obtain ⟨-, hd, hdc⟩ := of_mem_eventTimes he
    obtain ⟨sched, o1, o2, hout⟩ := exists_run_overtaking i j hij p w q p' d q' hp hp'
      ⟨hw, by simp [forwards, hi]⟩ ⟨hdc, by simp [forwards, hd]⟩ hle hreach
    have hs := h sched
    have hsplit : o1 ++ [⟨some i, w⟩] ++ o2 ++ [⟨some j, d⟩] =
        o1 ++ (⟨some i, w⟩ :: (o2 ++ [⟨some j, d⟩] : List (Yield n α))) := by simp
    rw [hout, hsplit, map_append, map_cons, pairwise_append, pairwise_cons] at hs
    exact hs.2.1.1 d (by simp) t ht e he
  · intro hsafe sched
    exact (outcome_run streams sched).1.onTime hstreams hsafe

/-- Input 0 is at 10 µs when input 1 still has a row at 5 µs. -/
def lagging : Fin 2 → List (Item Int)
  | 0 => [.ok (.encodeMarker (.watermark "w" ⟨10000, by decide, by decide⟩) 0)]
  | 1 => [.ok (.encodeData [5000])]

/-- The row comes out behind the watermark. -/
theorem not_onTime_lagging :
    (∀ j, (lagging j).Pairwise (OnTime some)) ∧
    ¬ ((alignFlowEventStreams lagging [fun _ => true, fun j => j = 1]).out.map (·.item)).Pairwise
      (OnTime some) := by
  decide

/-- A barrier between the row and the watermark. -/
def separated : Fin 2 → List (Item Int)
  | 0 => [.ok (.encodeMarker (.checkpoint 1) 0),
      .ok (.encodeMarker (.watermark "w" ⟨10000, by decide, by decide⟩) 0)]
  | 1 => [.ok (.encodeData [5000]), .ok (.encodeMarker (.checkpoint 1) 0)]

theorem onTime_separated :
    (∀ j, (separated j).Pairwise (OnTime some)) ∧
    ∀ sched, ((alignFlowEventStreams separated sched).out.map (·.item)).Pairwise (OnTime some) := by
  refine ⟨by decide, (onTime_iff_funnelSafe some separated (by decide)).mpr ?_⟩
  intro i j hi hij p w q p' d q' hp hp' hle _ t ht e he
  obtain rfl : i = 0 := Fin.ext hi
  obtain rfl : j = 1 := by omega
  have h0 : readable (separated 0) = separated 0 := by decide
  have h1 : readable (separated 1) = separated 1 := by decide
  rcases p with _ | ⟨a, p⟩
  · -- the barrier is no watermark
    obtain ⟨rfl, -⟩ := List.cons.inj hp
    cases ht
  · obtain ⟨rfl, -⟩ := List.cons.inj hp
    rcases p' with _ | ⟨a', _ | ⟨a'', p'⟩⟩
    · -- the row is before the barrier
      have hck : level ([.ok (.encodeMarker (.checkpoint 1) 0)] : List (Item Int)) = 1 := by decide
      have hnil : level ([] : List (Item Int)) = 0 := rfl
      rw [show level (_ :: p) = level [_] + level p from level_append [_] p, hck, hnil] at hle
      omega
    · -- and the barrier has no rows
      obtain ⟨rfl, hd⟩ := List.cons.inj hp'
      obtain ⟨rfl, -⟩ := List.cons.inj hd
      cases he
    · obtain ⟨-, hd⟩ := List.cons.inj hp'
      cases p' <;> cases hd

end Zelox.BarrierAlign
