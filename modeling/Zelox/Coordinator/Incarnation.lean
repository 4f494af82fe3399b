import Zelox.Coordinator.Epochs

/-!
# Acks from before a recovery

`recover` resets the epoch clock to the last committed epoch, so the epochs after
it are numbered again.  An ack is accepted by its epoch number alone: one that was
sent for the old epoch and arrives when the number is in flight again is merged
into the new checkpoint, although the coordinator promises to ignore it.

Every checkpoint holds only acks that answer triggers since the last recovery if no
such ack is delivered while its epoch is in flight and its task has not acked it
(`Fresh`); and any ack that is not `Fresh` can end up in a checkpoint
(`checkpoint_current`).
-/

namespace Zelox.Coordinator

open Runs List

/-! ## Incarnations -/

/-- The recoveries so far, and the epochs triggered with the incarnation of each. -/
def incarnations (history : List (Call × Reply)) : Nat × List (Nat × Nat) :=
  history.foldl (fun acc x =>
    match x with
    | (.recover _, _) => (acc.1 + 1, acc.2)
    | (.trigger, .triggered e) => (acc.1, acc.2 ++ [(e, acc.1)])
    | _ => acc) (0, [])

def recoveries (history : List (Call × Reply)) : Nat := (incarnations history).1

def triggers (history : List (Call × Reply)) : List (Nat × Nat) := (incarnations history).2

/-- Acks answer triggers: the epoch was triggered in the incarnation the ack names. -/
def Session.Answers (s : Session) : Call → Prop
  | .ack epoch _ _ inc => (epoch, inc) ∈ triggers s.history
  | _ => True

/-- An ack that would be merged answers a trigger of the present incarnation. -/
def Session.Fresh (s : Session) : Call → Prop
  | .ack epoch task _ inc => ∀ state ∈ s.coord.inFlight.lookup epoch,
      task ∈ s.coord.expected → task ∉ state.acked → inc = recoveries s.history
  | _ => True

/-- Every checkpoint returned holds only acks that answer triggers since the last
recovery before it. -/
def Session.AllCurrent (s : Session) : Prop :=
  ∀ before i gc after, s.history = before ++ (i, .checkpoint gc) :: after →
    ∀ a ∈ acksFor s.coord.expected gc.epoch (before ++ [(i, .checkpoint gc)]),
      a.incarnation = recoveries before

section

variable (history : List (Call × Reply)) (i : Call) (r : Reply)
include history

theorem incarnations_snoc :
    incarnations (history ++ [(i, r)]) =
      match (i, r) with
      | (.recover _, _) => ((incarnations history).1 + 1, (incarnations history).2)
      | (.trigger, .triggered e) =>
        ((incarnations history).1, (incarnations history).2 ++ [(e, (incarnations history).1)])
      | _ => incarnations history := by
  unfold incarnations
  rw [foldl_append, foldl_cons, foldl_nil]

theorem recoveries_snoc
    (hi : ∀ k, i ≠ .recover k) : recoveries (history ++ [(i, r)]) = recoveries history := by
  unfold recoveries
  rw [incarnations_snoc]
  cases i with
  | recover k => exact absurd rfl (hi k)
  | trigger | ack _ _ _ _ | abort _ => cases r <;> rfl

theorem triggers_snoc_subset :
    triggers history ⊆ triggers (history ++ [(i, r)]) := by
  unfold triggers
  rw [incarnations_snoc]
  cases i <;> cases r <;> simp

end

theorem mem_triggers_of_live (e : Nat) (history : List (Call × Reply))
    (h : live e history = true) : (e, recoveries history) ∈ triggers history := by
  induction history using List.reverseRecOn with
  | nil => cases h
  | append_singleton history x ih =>
    obtain ⟨i, r⟩ := x
    rw [live_snoc] at h
    unfold triggers recoveries at ih ⊢
    rw [incarnations_snoc]
    cases i with
    | trigger =>
      cases r with
      | triggered e' =>
        by_cases he : e' = e
        · simp [he]
        · simp only [he, if_false] at h
          exact mem_append_left _ (ih h)
      | pending | checkpoint _ | unit | error _ => exact ih h
    | ack _ _ _ _ => cases r <;> exact ih h
    | abort e' =>
      by_cases he : e' = e
      · cases r <;> simp [he] at h
      · simp only [he, if_false] at h
        cases r <;> exact ih h
    | recover k => cases r <;> cases h

/-! ## Steps that keep checkpoints current -/

/-- An ack is added to those for `e` if it is the first of an expected task for `e`. -/
theorem mem_acksFor_ack (expected : Finset Nat) (e : Nat) (history : List (Call × Reply))
    (epoch task : Nat) (a : EpochAck) (inc : Nat) (r : Reply) (hr : ∀ e', r ≠ .triggered e')
    (b : Contribution) (hb : b ∈ acksFor expected e (history ++ [(.ack epoch task a inc, r)])) :
    b ∈ acksFor expected e history ∨
      epoch = e ∧ task ∈ expected ∧ task ∉ (acksFor expected e history).map (·.task) ∧
        b = ⟨task, a, inc⟩ := by
  by_cases hmerged : epoch = e ∧ task ∈ expected
  · obtain ⟨rfl, ht⟩ := hmerged
    rw [(frame_ack expected epoch task a inc history r hr ht).2] at hb
    split at hb
    · next hnew =>
      rcases mem_append.mp hb with hb | hb
      · exact .inl hb
      · exact .inr ⟨rfl, ht, hnew, mem_singleton.mp hb⟩
    · exact .inl hb
  · rw [(frame expected e history _ r (fun e' h => absurd h (hr e')) ?_ (by simp) (by simp)).2] at hb
    · exact .inl hb
    · intro task' a' inc' heq ht
      cases heq
      exact hmerged ⟨rfl, ht⟩

namespace Session

variable {s : Session}

/-- The acks recorded for the epochs in flight answer triggers of the present incarnation. -/
def Current (s : Session) : Prop :=
  ∀ p ∈ s.coord.inFlight, ∀ a ∈ acksFor s.coord.expected p.1 s.history,
    a.incarnation = recoveries s.history

theorem Inv.mem_acked (h : s.Inv) {e : Nat} {state : EpochState} (he : (e, state) ∈ s.coord.inFlight)
    (task : Nat) :
    task ∈ state.acked ↔ task ∈ (acksFor s.coord.expected e s.history).map (·.task) := by
  have hstate : state = .of (acksFor s.coord.expected e s.history) := (h.entries _ he).recorded
  rw [hstate]
  exact mem_toFinset

/-- With fresh acks only, an ack for an epoch in flight leaves current acks there. -/
theorem Inv.ack_current (h : s.Inv) (hc : s.Current) (epoch task : Nat) (a : EpochAck) (inc : Nat)
    (hf : s.Fresh (.ack epoch task a inc)) (r : Reply) (hr : ∀ e', r ≠ .triggered e')
    (p : Nat × EpochState) (hp : p ∈ s.coord.inFlight) :
    ∀ b ∈ acksFor s.coord.expected p.1 (s.history ++ [(.ack epoch task a inc, r)]),
      b.incarnation = recoveries s.history := by
  intro b hb
  rcases mem_acksFor_ack _ _ _ _ _ _ _ _ hr b hb with hb | ⟨rfl, ht, hnew, rfl⟩
  · exact hc p hp b hb
  · refine hf p.2 ((mem_iff_lookup h.keys p.1 p.2).mp hp) ht ?_
    rw [h.mem_acked hp]
    exact hnew

theorem Inv.step_current (h : s.Inv) (hc : s.Current) (i : Call) (hf : s.Fresh i) :
    (s.step i).Current := by
  unfold Current
  rw [s.expected_step i]
  obtain ⟨c, r, hstep, hout⟩ := s.step_outcome i
  rw [hstep]
  -- nothing is recovered but by a recovery, which leaves no epoch in flight
  by_cases hrec : ∀ k, i ≠ .recover k
  · rw [recoveries_snoc _ _ _ hrec]
    cases hout with
    | quiet hr _ habort _ _ =>
      intro p hp
      cases i with
      | ack epoch task a inc => exact h.ack_current hc epoch task a inc hf r hr p hp
      | trigger | abort _ | recover _ =>
        rw [(frame s.coord.expected p.1 s.history _ r (fun e' h' => absurd h' (hr e')) (by simp)
          (habort _) hrec).2]
        exact hc p hp
    | triggered _ =>
      intro p hp b hb
      by_cases hnew : p.1 = s.coord.nextEpoch
      · -- nothing has acked the new epoch
        unfold acksFor at hb
        rw [sinceTrigger_snoc] at hb
        simp only [hnew, if_true] at hb
        cases hb
      · rw [(frame s.coord.expected p.1 s.history .trigger _
          (fun e' he' => by cases he'; exact Ne.symm hnew) (by simp) (by simp) (by simp)).2] at hb
        rcases mem_append.mp hp with hp | hp
        · exact hc p (mem_filter.mp hp).1 b hb
        · exact absurd (congrArg Prod.fst (mem_singleton.mp hp)) hnew
    | @recorded epoch task a inc =>
      intro q hq
      obtain ⟨p, hp, rfl⟩ := mem_map.mp hq
      have hcurrent := h.ack_current hc epoch task a inc hf .pending (by simp) p hp
      split
      · next hpe => exact hpe ▸ hcurrent
      · exact hcurrent
    | completed =>
      intro p hp
      exact h.ack_current hc _ _ _ _ hf _ (by simp) p (mem_filter.mp hp).1
    | aborted epoch =>
      intro p hp
      obtain ⟨hp, hne⟩ := mem_filter.mp hp
      rw [(frame s.coord.expected p.1 s.history (.abort epoch) .unit (by simp) (by simp)
        (fun heq => by cases heq; exact of_decide_eq_true hne rfl) (by simp)).2]
      exact hc p hp
    | recovered k => exact absurd rfl (hrec k)
  · obtain ⟨k, rfl⟩ := not_forall_not.mp hrec
    cases hout with
    | quiet _ _ _ h _ => exact absurd rfl (h k)
    | recovered => exact fun p hp => (not_mem_nil hp).elim

theorem Inv.step_allCurrent (h : s.Inv) (hc : s.Current) (ha : s.AllCurrent) (i : Call)
    (hf : s.Fresh i) : (s.step i).AllCurrent := by
  intro before i' gc after heq
  rw [s.expected_step i]
  rcases Lists.concat_eq_append_cons heq with ⟨rfl, hx, rfl⟩ | ⟨after', hbefore, rfl⟩
  · obtain ⟨rfl, hgc⟩ := Prod.mk.inj hx
    have hout := s.coord.call_outcome i'
    rw [← hgc] at hout
    obtain ⟨task, a, inc, state, rfl, -, hstate, -⟩ := hout.checkpoint
    exact h.ack_current hc gc.epoch task a inc hf _ (by simp) (gc.epoch, state)
      ((mem_iff_lookup h.keys gc.epoch state).mpr hstate)
  · exact ha before i' gc after' hbefore

/-! ## Steps that need not -/

theorem not_allCurrent_step (ha : ¬ s.AllCurrent) (i : Call) : ¬ (s.step i).AllCurrent := by
  intro h
  apply ha
  intro before i' gc after heq
  rw [← s.expected_step i]
  refine h before i' gc (after ++ [(i, (s.coord.call i).2)]) ?_
  show s.history ++ _ = _
  rw [heq, append_assoc, cons_append]

/-- An epoch in flight holds an ack of an earlier incarnation. -/
def Tainted (s : Session) (e : Nat) (acked : List Nat) : Prop :=
  ∃ state, (e, state) ∈ s.coord.inFlight ∧ (∀ t ∈ acked, t ∈ state.acked) ∧
    ∃ a ∈ acksFor s.coord.expected e s.history, a.incarnation ≠ recoveries s.history

/-- A stale ack is recorded: the epoch completes with it, or goes on waiting. -/
theorem Inv.ack_tainted (h : s.Inv) (e task : Nat) (a : EpochAck) (inc : Nat) (state : EpochState)
    (he : (e, state) ∈ s.coord.inFlight) (ht : task ∈ s.coord.expected)
    (acked : List Nat) (hacked : ∀ t ∈ acked, t ∈ state.acked)
    (hstale : ∀ r, (∀ e', r ≠ Reply.triggered e') → ∃ b ∈ acksFor s.coord.expected e
      (s.history ++ [(.ack e task a inc, r)]), b.incarnation ≠ recoveries s.history) :
    ¬ (s.step (.ack e task a inc)).AllCurrent ∨
      (s.step (.ack e task a inc)).Tainted e (acked ++ [task]) := by
  have hlookup := (mem_iff_lookup h.keys e state).mp he
  obtain ⟨c, r, hstep, hout⟩ := s.step_outcome (.ack e task a inc)
  have hexp := s.expected_step (.ack e task a inc)
  rw [hstep] at hexp ⊢
  cases hout with
  | quiet _ _ _ _ hack =>
    exfalso
    rcases hack _ _ _ _ rfl with hno | ⟨k, hk, hle⟩ | hnone
    · exact hno ht
    · have : k < e := (h.entries _ he).aboveCommitted k hk
      omega
    · rw [hlookup] at hnone
      cases hnone
  | recorded _ hstate _ =>
    right
    rw [hlookup] at hstate
    cases hstate
    obtain ⟨b, hb, hne⟩ := hstale .pending (by simp)
    refine ⟨EpochCoordinator.recordAck state task a, ?_, ?_, b, hb, ?_⟩
    · exact mem_map.mpr ⟨(e, state), he, if_pos rfl⟩
    · unfold EpochCoordinator.recordAck
      split
      · next hin => exact Lists.forall_mem_concat.mpr ⟨hacked, hin⟩
      · exact Lists.forall_mem_concat.mpr ⟨fun t ht => Finset.mem_insert_of_mem (hacked t ht),
          Finset.mem_insert_self _ _⟩
    · rwa [recoveries_snoc _ _ _ (by simp)]
  | completed =>
    left
    intro hcur
    obtain ⟨b, hb, hne⟩ := hstale (.checkpoint _) (by simp)
    exact hne (hcur s.history _ _ [] rfl b (hexp ▸ hb))

/-- Acks from all of `tasks` complete a tainted epoch, or leave it waiting with them recorded. -/
theorem Inv.run_tainted (h : s.Inv) (e : Nat) (tasks acked : List Nat)
    (htasks : ∀ t ∈ tasks, t ∈ s.coord.expected)
    (htaint : ¬ s.AllCurrent ∨ s.Tainted e acked) :
    ¬ (run Session.step s (tasks.map fun t => .ack e t {} (recoveries s.history))).AllCurrent ∨
      (run Session.step s (tasks.map fun t => .ack e t {} (recoveries s.history))).Tainted e
        (acked ++ tasks) := by
  induction tasks generalizing s acked with
  | nil => simpa using htaint
  | cons t tasks ih =>
    have hrec : recoveries (s.step (.ack e t {} (recoveries s.history))).history =
        recoveries s.history := recoveries_snoc _ _ _ (by simp)
    have hnext : ¬ (s.step (.ack e t {} (recoveries s.history))).AllCurrent ∨
        (s.step (.ack e t {} (recoveries s.history))).Tainted e (acked ++ [t]) := by
      rcases htaint with hbad | ⟨state, he, hacked, b, hb, hne⟩
      · exact .inl (not_allCurrent_step hbad _)
      · refine h.ack_tainted e t {} _ state he (htasks t mem_cons_self) acked hacked ?_
        intro r hr
        refine ⟨b, ?_, hne⟩
        rw [(frame_ack s.coord.expected e t {} _ s.history r hr (htasks t mem_cons_self)).2]
        split
        · exact mem_append_left _ hb
        · exact hb
    have hrun := ih (h.step (.ack e t {} (recoveries s.history))) (acked ++ [t])
      (fun t' ht' => (s.expected_step _) ▸ htasks t' (mem_cons_of_mem t ht')) hnext
    rw [hrec, append_assoc] at hrun
    exact hrun

/-! ### Acks that answer the present trigger -/

/-- Acks for a triggered epoch answer its trigger, whatever comes before them. -/
theorem along_answers_acks {e inc : Nat} (h : (e, inc) ∈ triggers s.history) (tasks : List Nat) :
    Along Session.step Answers s (tasks.map fun t => .ack e t {} inc) := by
  induction tasks generalizing s with
  | nil => trivial
  | cons t tasks ih => exact ⟨h, ih (triggers_snoc_subset _ _ _ h)⟩

theorem along_fresh_acks {inc : Nat} (h : recoveries s.history = inc) (e : Nat) (tasks : List Nat) :
    Along Session.step Fresh s (tasks.map fun t => .ack e t {} inc) := by
  induction tasks generalizing s with
  | nil => trivial
  | cons t tasks ih =>
    refine ⟨fun _ _ _ _ => h.symm, ih ?_⟩
    exact (recoveries_snoc _ _ _ (by simp)).trans h

theorem expected_run (s : Session) (is : List Call) :
    (run Session.step s is).coord.expected = s.coord.expected :=
  run_inv Session.step (fun s' => s'.coord.expected = s.coord.expected)
    (fun s' i hs' => (s'.expected_step i).trans hs') s is rfl

/-- An epoch in flight waits for an expected task. -/
theorem Inv.not_tainted_of_all (h : s.Inv) {e : Nat} {acked : List Nat}
    (hall : ∀ t ∈ s.coord.expected, t ∈ acked) : ¬ s.Tainted e acked := by
  rintro ⟨state, he, hacked, -⟩
  refine absurd (h.entries _ he).waiting (not_lt.mpr (Finset.card_le_card ?_))
  intro t ht
  exact hacked t (hall t ht)

/-- After an ack that is not fresh, acks from every expected task complete the epoch with it. -/
theorem Inv.stale_completes (h : s.Inv) (i : Call) (hi : ¬ s.Fresh i) :
    ∃ js, Along Session.step Answers (s.step i) js ∧ Along Session.step Fresh (s.step i) js ∧
      ¬ (run Session.step (s.step i) js).AllCurrent := by
  cases i with
  | trigger | abort epoch | recover k => exact absurd trivial hi
  | ack e task a inc =>
    simp only [Fresh, not_forall] at hi
    obtain ⟨state, hstate, ht, hnew, hne⟩ := hi
    have he : (e, state) ∈ s.coord.inFlight := (mem_iff_lookup h.keys e state).mpr hstate
    have hrec : recoveries (s.step (.ack e task a inc)).history = recoveries s.history :=
      recoveries_snoc _ _ _ (by simp)
    have hexp : (s.step (.ack e task a inc)).coord.expected = s.coord.expected :=
      s.expected_step _
    have htaint := h.ack_tainted e task a inc state he ht [] (by simp) (fun r hr => by
      refine ⟨⟨task, a, inc⟩, ?_, hne⟩
      rw [(frame_ack s.coord.expected e task a inc s.history r hr ht).2, if_pos]
      · exact mem_append_right _ (mem_singleton.mpr rfl)
      · rwa [← h.mem_acked he])
    have htrig : (e, recoveries s.history) ∈ triggers s.history :=
      mem_triggers_of_live e s.history (h.entries _ he).live
    have hrun := (h.step (.ack e task a inc)).run_tainted e s.coord.expected.toList [task]
      (fun t htm => hexp ▸ Finset.mem_toList.mp htm) (by simpa using htaint)
    rw [hrec] at hrun
    refine ⟨_, along_answers_acks (triggers_snoc_subset _ _ _ htrig) s.coord.expected.toList,
      along_fresh_acks hrec e s.coord.expected.toList, hrun.resolve_right ?_⟩
    -- all expected tasks have acked, so the epoch cannot be waiting
    have hinv := run_inv Session.step Inv (fun _ i hs => hs.step i) _
      (s.coord.expected.toList.map fun t => Call.ack e t {} (recoveries s.history))
      (h.step (.ack e task a inc))
    apply hinv.not_tainted_of_all
    rw [expected_run, hexp]
    intro t htm
    exact mem_append_right _ (Finset.mem_toList.mpr htm)

instance (s : Session) (i : Call) : Decidable (s.Answers i) := by
  unfold Answers
  split <;> infer_instance

instance (s : Session) (i : Call) : Decidable (s.Fresh i) := by
  unfold Fresh
  split <;> infer_instance

end Session

/-- If all acks are fresh, checkpoints merge acks to triggers since the last recovery; one that is
not can get into one. -/
theorem checkpoint_current (expectedTasks : List Nat) (maxInFlight : Nat) (c : EpochCoordinator)
    (hnew : EpochCoordinator.new expectedTasks maxInFlight = .ok c) (calls : List Call)
    (hfresh : Along Session.step Session.Fresh (.start c) calls) :
    (run Session.step (.start c) calls).AllJustified expectedTasks.toFinset ∧
    (run Session.step (.start c) calls).AllCurrent ∧
    ∀ i, (run Session.step (.start c) calls).Fresh i ↔
      ∀ js, Along Session.step Session.Answers ((run Session.step (.start c) calls).step i) js →
        Along Session.step Session.Fresh ((run Session.step (.start c) calls).step i) js →
        (run Session.step ((run Session.step (.start c) calls).step i) js).AllCurrent := by
  have hstep : ∀ s i, Session.Fresh s i → (s.Inv ∧ s.Current ∧ s.AllCurrent) →
      (s.step i).Inv ∧ (s.step i).Current ∧ (s.step i).AllCurrent := by
    rintro s i hf ⟨h1, h2, h3⟩
    exact ⟨h1.step i, h1.step_current h2 i hf, h1.step_allCurrent h2 h3 i hf⟩
  have hstart : (Session.start c).Inv ∧ (Session.start c).Current ∧ (Session.start c).AllCurrent := by
    refine ⟨(Session.inv_start expectedTasks maxInFlight c hnew).1, ?_, ?_⟩
    · intro p _ a ha
      cases ha
    · intro before i gc after heq
      cases before <;> cases heq
  have key := along_inv Session.step Session.Fresh _ hstep (.start c) calls hfresh hstart
  refine ⟨(Session.run_justified expectedTasks maxInFlight c hnew calls).2.2.2, key.2.2, ?_⟩
  intro i
  constructor
  · intro hf js _ hjs
    exact (along_inv Session.step Session.Fresh _ hstep _ js hjs (hstep _ i hf key)).2.2
  · intro hall
    by_contra hf
    obtain ⟨js, hans, hjs, hbad⟩ := key.1.stale_completes i hf
    exact hbad (hall js hans hjs)

/-- Epoch 1 is triggered, lost in a recovery to epoch 0, and triggered and acked again. -/
def reusedEpoch (inc : Nat) : List Call :=
  [.trigger, .trigger, .recover 0, .trigger, .ack 1 1 (offsetAck 5) inc]

theorem checkpoint_current_reusedEpoch :
    EpochCoordinator.new [1] 4 = .ok oneTask ∧
      Along Session.step Session.Fresh (.start oneTask) (reusedEpoch 1) ∧
      (run Session.step (.start oneTask) (reusedEpoch 1)).AllCurrent :=
  have hf : Along Session.step Session.Fresh (.start oneTask) (reusedEpoch 1) := by decide
  ⟨rfl, hf, (checkpoint_current [1] 4 oneTask rfl (reusedEpoch 1) hf).2.1⟩

/-- The ack for epoch 1 from before the recovery makes the checkpoint. -/
theorem staleAck_merged :
    EpochCoordinator.new [1] 4 = .ok oneTask ∧
      Along Session.step Session.Answers (.start oneTask) (reusedEpoch 0) ∧
      (checkpoints (run Session.step (.start oneTask) (reusedEpoch 0)).history).map
        (fun gc => (gc.epoch, gc.offsets "t:0")) = [(1, some 5)] ∧
      ¬ (run Session.step (.start oneTask) (reusedEpoch 0)).AllCurrent := by
  refine ⟨rfl, by decide, by decide, fun h => ?_⟩
  have hstale := h _ _ _ [] rfl ⟨1, offsetAck 5, 0⟩ (mem_singleton.mpr rfl)
  revert hstale
  decide

end Zelox.Coordinator
