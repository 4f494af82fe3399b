import Mathlib.Data.Finset.Card
import Zelox.Lib.Lists
import Zelox.Lib.Runs

/-!
# The epoch coordinator

`EpochCoordinator` triggers epochs, collects an ack from every expected task, and
returns a global checkpoint when the last of them arrives; the epochs up to the
completed one are dropped.  A session is a list of calls with their replies.

What a checkpoint holds is read off the session: the first ack of each expected
task since the epoch was triggered (`firstAcks`, `sinceTrigger`).  Acks for an
epoch that is not in flight are ignored, also those that come before its trigger.
`u64` counters are `Nat`.
-/

namespace Zelox.Coordinator

open Runs List

/-- A `BTreeMap<String, V>`, by lookup. -/
abbrev StringMap (V : Type) := String → Option V

namespace StringMap

variable {V : Type}

def empty : StringMap V := fun _ => none

/-- `extend`: the entries of `other` replace those of `self`. -/
def extend (self other : StringMap V) : StringMap V := fun k => (other k).or (self k)

def single (k : String) (v : V) : StringMap V := fun k' => if k' = k then some v else none

end StringMap

structure EpochAck where
  offsets : StringMap Int64 := StringMap.empty
  statePtrs : StringMap String := StringMap.empty

structure GlobalCheckpoint where
  epoch : Nat
  offsets : StringMap Int64
  statePtrs : StringMap String

structure EpochState where
  acked : Finset Nat := ∅
  merged : EpochAck := {}

/-- The coordinator, with what its constructor checks. -/
structure EpochCoordinator where
  expected : Finset Nat
  inFlight : List (Nat × EpochState)
  lastTriggered : Option Nat
  lastCommitted : Option Nat
  maxInFlight : Nat
  expected_nonempty : expected.Nonempty
  maxInFlight_pos : 1 ≤ maxInFlight

def EpochAck.extend (self other : EpochAck) : EpochAck :=
  ⟨self.offsets.extend other.offsets, self.statePtrs.extend other.statePtrs⟩

/-- A call.  An ack also names the incarnation whose trigger it answers, which the code does not
see. -/
inductive Call where
  | trigger
  | ack (epoch task : Nat) (ack : EpochAck) (incarnation : Nat)
  | abort (epoch : Nat)
  | recover (lastCommitted : Nat)

/-- What a call returns; `pending` is `Ok(None)`. -/
inductive Reply where
  | triggered (epoch : Nat)
  | pending
  | checkpoint (gc : GlobalCheckpoint)
  | unit
  | error (message : String)

namespace EpochCoordinator

def new (expectedTasks : List Nat) (maxInFlight : Nat) : Except String EpochCoordinator :=
  if h : expectedTasks.toFinset.Nonempty then
    if hm : maxInFlight = 0 then .error "EpochCoordinator requires max_in_flight >= 1"
    else .ok ⟨expectedTasks.toFinset, [], none, none, maxInFlight, h, by omega⟩
  else .error "EpochCoordinator requires at least one expected task"

/-- The epoch the next trigger starts. -/
def nextEpoch (c : EpochCoordinator) : Nat :=
  match c.lastTriggered, c.lastCommitted with
  | some t, _ => t + 1
  | none, some k => k + 1
  | none, none => 0

def trigger (c : EpochCoordinator) : EpochCoordinator × Reply :=
  if c.inFlight.length ≥ c.maxInFlight then
    (c, .error s!"EpochCoordinator: {c.inFlight.length} epochs already in flight (max {c.maxInFlight})")
  else
    ({ c with
        lastTriggered := some c.nextEpoch
        inFlight := (c.inFlight.filter fun p => p.1 ≠ c.nextEpoch) ++ [(c.nextEpoch, {})] },
      .triggered c.nextEpoch)

/-- The state of an epoch after a task's ack; only the task's first one is merged. -/
def recordAck (state : EpochState) (task : Nat) (ack : EpochAck) : EpochState :=
  if task ∈ state.acked then state
  else ⟨insert task state.acked, state.merged.extend ack⟩

def ack (c : EpochCoordinator) (epoch task : Nat) (ack : EpochAck) : EpochCoordinator × Reply :=
  if task ∉ c.expected then (c, .error s!"EpochCoordinator: ack from unknown task {task}")
  else if c.lastCommitted.any fun k => epoch ≤ k then (c, .pending)
  else
    match c.inFlight.lookup epoch with
    | none => (c, .pending)
    | some state =>
      let state := recordAck state task ack
      if state.acked.card < c.expected.card then
        ({ c with inFlight := c.inFlight.map fun p => if p.1 = epoch then (epoch, state) else p },
          .pending)
      else
        ({ c with
            inFlight := c.inFlight.filter fun p => epoch < p.1
            lastCommitted := some epoch },
          .checkpoint ⟨epoch, state.merged.offsets, state.merged.statePtrs⟩)

def abort (c : EpochCoordinator) (epoch : Nat) : EpochCoordinator :=
  { c with inFlight := c.inFlight.filter fun p => p.1 ≠ epoch }

def recover (c : EpochCoordinator) (lastCommitted : Nat) : EpochCoordinator :=
  { c with lastCommitted := some lastCommitted, lastTriggered := some lastCommitted, inFlight := [] }

def call (c : EpochCoordinator) : Call → EpochCoordinator × Reply
  | .trigger => c.trigger
  | .ack epoch task a _ => c.ack epoch task a
  | .abort epoch => (c.abort epoch, .unit)
  | .recover k => (c.recover k, .unit)

end EpochCoordinator

/-! ## Sessions -/

/-- A coordinator with the calls made so far and their replies. -/
structure Session where
  coord : EpochCoordinator
  history : List (Call × Reply)

def Session.start (c : EpochCoordinator) : Session := ⟨c, []⟩

def Session.step (s : Session) (i : Call) : Session :=
  ⟨(s.coord.call i).1, s.history ++ [(i, (s.coord.call i).2)]⟩

/-- What has happened since `e` was last triggered. -/
def sinceTrigger (e : Nat) (history : List (Call × Reply)) : List (Call × Reply) :=
  history.foldl (fun since x =>
    match x.2 with
    | .triggered e' => if e' = e then [] else since ++ [x]
    | _ => since ++ [x]) []

/-- A task's ack, with the incarnation it answers. -/
structure Contribution where
  task : Nat
  ack : EpochAck
  incarnation : Nat

/-- The first ack of each expected task for `e`, in order of arrival. -/
def firstAcks (expected : Finset Nat) (e : Nat) (history : List (Call × Reply)) :
    List Contribution :=
  history.foldl (fun acks x =>
    match x.1 with
    | .ack e' task a inc =>
      if e' = e ∧ task ∈ expected ∧ task ∉ acks.map (·.task) then acks ++ [⟨task, a, inc⟩] else acks
    | _ => acks) []

def merge (acks : List Contribution) : EpochAck := acks.foldl (fun m a => m.extend a.ack) {}

/-- `e` was triggered, and since then neither aborted nor lost in a recovery. -/
def live (e : Nat) (history : List (Call × Reply)) : Bool :=
  history.foldl (fun l x =>
    match x with
    | (.trigger, .triggered e') => if e' = e then true else l
    | (.abort e', _) => if e' = e then false else l
    | (.recover _, _) => false
    | _ => l) false

def checkpoints (history : List (Call × Reply)) : List GlobalCheckpoint :=
  history.filterMap fun x =>
    match x.2 with
    | .checkpoint gc => some gc
    | _ => none

/-! ## One more call -/

section Snoc

variable (e : Nat) (expected : Finset Nat) (history : List (Call × Reply)) (i : Call)

theorem sinceTrigger_snoc (r : Reply) :
    sinceTrigger e (history ++ [(i, r)]) =
      match r with
      | .triggered e' => if e' = e then [] else sinceTrigger e history ++ [(i, r)]
      | _ => sinceTrigger e history ++ [(i, r)] := by
  unfold sinceTrigger
  rw [foldl_append, foldl_cons, foldl_nil]

theorem firstAcks_snoc (r : Reply) :
    firstAcks expected e (history ++ [(i, r)]) =
      match i with
      | .ack e' task a inc =>
        if e' = e ∧ task ∈ expected ∧ task ∉ (firstAcks expected e history).map (·.task) then
          firstAcks expected e history ++ [⟨task, a, inc⟩]
        else firstAcks expected e history
      | _ => firstAcks expected e history := by
  unfold firstAcks
  rw [foldl_append, foldl_cons, foldl_nil]

theorem live_snoc (r : Reply) :
    live e (history ++ [(i, r)]) =
      match (i, r) with
      | (.trigger, .triggered e') => if e' = e then true else live e history
      | (.abort e', _) => if e' = e then false else live e history
      | (.recover _, _) => false
      | _ => live e history := by
  unfold live
  rw [foldl_append, foldl_cons, foldl_nil]

theorem merge_snoc (acks : List Contribution) (a : Contribution) :
    merge (acks ++ [a]) = (merge acks).extend a.ack := by
  unfold merge
  rw [foldl_append, foldl_cons, foldl_nil]

theorem checkpoints_snoc (r : Reply) :
    checkpoints (history ++ [(i, r)]) =
      checkpoints history ++ (match r with | .checkpoint gc => [gc] | _ => []) := by
  unfold checkpoints
  rw [filterMap_append]
  cases r <;> rfl

end Snoc

/-- The bookkeeping of an epoch that has received `acks`. -/
def EpochState.of (acks : List Contribution) : EpochState :=
  ⟨(acks.map (·.task)).toFinset, merge acks⟩

theorem recordAck_of (acks : List Contribution) (task : Nat) (a : EpochAck) (inc : Nat) :
    EpochCoordinator.recordAck (.of acks) task a =
      .of (if task ∉ acks.map (·.task) then acks ++ [⟨task, a, inc⟩] else acks) := by
  unfold EpochCoordinator.recordAck EpochState.of
  by_cases h : task ∈ acks.map (·.task)
  · rw [if_pos (mem_toFinset.mpr h), if_neg (by simpa using h)]
  · rw [if_neg (fun hm => h (mem_toFinset.mp hm)), if_pos h]
    rw [merge_snoc, map_append, toFinset_append]
    congr 1
    simp [Finset.union_comm]

/-! ## What a call can do -/

namespace EpochCoordinator

def started (c : EpochCoordinator) : EpochCoordinator :=
  { c with
    lastTriggered := some c.nextEpoch
    inFlight := (c.inFlight.filter fun p => p.1 ≠ c.nextEpoch) ++ [(c.nextEpoch, {})] }

def recorded (c : EpochCoordinator) (epoch : Nat) (state : EpochState) : EpochCoordinator :=
  { c with inFlight := c.inFlight.map fun p => if p.1 = epoch then (epoch, state) else p }

def completed (c : EpochCoordinator) (epoch : Nat) : EpochCoordinator :=
  { c with
    inFlight := c.inFlight.filter fun p => epoch < p.1
    lastCommitted := some epoch }

/-- The coordinator after a call, and the reply. -/
inductive Outcome (c : EpochCoordinator) : Call → EpochCoordinator → Reply → Prop
  /-- refused or ignored -/
  | quiet {i : Call} {r : Reply} (hr : ∀ e, r ≠ .triggered e) (hgc : ∀ gc, r ≠ .checkpoint gc)
      (habort : ∀ e, i ≠ .abort e) (hrec : ∀ k, i ≠ .recover k)
      (hack : ∀ epoch task a inc, i = .ack epoch task a inc → task ∉ c.expected ∨
        (∃ k, c.lastCommitted = some k ∧ epoch ≤ k) ∨ c.inFlight.lookup epoch = none) :
    Outcome c i c r
  | triggered (h : c.inFlight.length < c.maxInFlight) :
    Outcome c .trigger c.started (.triggered c.nextEpoch)
  | recorded {epoch task : Nat} {a : EpochAck} {inc : Nat} {state : EpochState}
      (ht : task ∈ c.expected) (hstate : c.inFlight.lookup epoch = some state)
      (hcard : (recordAck state task a).acked.card < c.expected.card) :
    Outcome c (.ack epoch task a inc) (c.recorded epoch (recordAck state task a)) .pending
  | completed {epoch task : Nat} {a : EpochAck} {inc : Nat} {state : EpochState}
      (ht : task ∈ c.expected) (hstate : c.inFlight.lookup epoch = some state)
      (hcard : c.expected.card ≤ (recordAck state task a).acked.card) :
    Outcome c (.ack epoch task a inc) (c.completed epoch) (.checkpoint ⟨epoch,
      (recordAck state task a).merged.offsets, (recordAck state task a).merged.statePtrs⟩)
  | aborted (epoch : Nat) : Outcome c (.abort epoch) (c.abort epoch) .unit
  | recovered (k : Nat) : Outcome c (.recover k) (c.recover k) .unit

theorem call_outcome (c : EpochCoordinator) (i : Call) :
    Outcome c i (c.call i).1 (c.call i).2 := by
  cases i with
  | trigger =>
    show Outcome c .trigger c.trigger.1 c.trigger.2
    unfold trigger
    split
    next => exact .quiet (by simp) (by simp) (by simp) (by simp) (by simp)
    next hlen => exact .triggered (by omega)
  | ack epoch task a inc =>
    have hquiet (r : Reply) (hr : ∀ e, r ≠ .triggered e) (hgc : ∀ gc, r ≠ .checkpoint gc)
        (hwhy : task ∉ c.expected ∨ (∃ k, c.lastCommitted = some k ∧ epoch ≤ k) ∨
          c.inFlight.lookup epoch = none) : Outcome c (.ack epoch task a inc) c r :=
      .quiet hr hgc (by simp) (by simp) fun _ _ _ _ heq => by cases heq; exact hwhy
    show Outcome c _ (c.ack epoch task a).1 (c.ack epoch task a).2
    unfold ack
    split
    next ht => exact hquiet _ (by simp) (by simp) (.inl ht)
    next ht =>
      split
      next hk =>
        rw [Option.any_eq_true] at hk
        obtain ⟨k, hk, hle⟩ := hk
        exact hquiet _ (by simp) (by simp) (.inr (.inl ⟨k, hk, of_decide_eq_true hle⟩))
      next =>
        cases hstate : c.inFlight.lookup epoch with
        | none => exact hquiet _ (by simp) (by simp) (.inr (.inr hstate))
        | some state =>
          dsimp only
          split
          next hcard => exact .recorded (not_not.mp ht) hstate hcard
          next hcard => exact .completed (not_not.mp ht) hstate (Nat.le_of_not_lt hcard)
  | abort epoch => exact .aborted epoch
  | recover k => exact .recovered k

variable {c c' : EpochCoordinator} {i : Call}

theorem Outcome.constants {r : Reply} (h : Outcome c i c' r) :
    c'.expected = c.expected ∧ c'.maxInFlight = c.maxInFlight := by
  cases h <;> exact ⟨rfl, rfl⟩

theorem Outcome.checkpoint {gc : GlobalCheckpoint} (h : Outcome c i c' (.checkpoint gc)) :
    ∃ task a inc state, i = .ack gc.epoch task a inc ∧ task ∈ c.expected ∧
      c.inFlight.lookup gc.epoch = some state ∧
      c.expected.card ≤ (recordAck state task a).acked.card ∧
      gc.offsets = (recordAck state task a).merged.offsets ∧
      gc.statePtrs = (recordAck state task a).merged.statePtrs ∧
      c'.lastCommitted = some gc.epoch := by
  cases h with
  | quiet _ hgc => exact (hgc gc rfl).elim
  | completed ht hstate hcard => exact ⟨_, _, _, _, rfl, ht, hstate, hcard, rfl, rfl, rfl⟩

end EpochCoordinator

open EpochCoordinator (Outcome)

theorem Session.step_outcome (s : Session) (i : Call) :
    ∃ c r, s.step i = ⟨c, s.history ++ [(i, r)]⟩ ∧ Outcome s.coord i c r :=
  ⟨_, _, rfl, s.coord.call_outcome i⟩

theorem Session.expected_step (s : Session) (i : Call) :
    (s.step i).coord.expected = s.coord.expected :=
  (s.coord.call_outcome i).constants.1

/-! ## The invariant of a session -/

/-- The first ack of each expected task for `e` since `e` was last triggered. -/
def acksFor (expected : Finset Nat) (e : Nat) (history : List (Call × Reply)) :
    List Contribution :=
  firstAcks expected e (sinceTrigger e history)

theorem sinceTrigger_snoc_of_ne {e : Nat} (history : List (Call × Reply)) (i : Call) {r : Reply}
    (hr : ∀ e', r = .triggered e' → e' ≠ e) :
    sinceTrigger e (history ++ [(i, r)]) = sinceTrigger e history ++ [(i, r)] := by
  rw [sinceTrigger_snoc]
  cases r with
  | triggered e' => exact if_neg (hr e' rfl)
  | pending | checkpoint _ | unit | error _ => rfl

/-- A call that neither triggers, acks nor drops `e` leaves what is known of it. -/
theorem frame (expected : Finset Nat) (e : Nat) (history : List (Call × Reply)) (i : Call)
    (r : Reply) (hr : ∀ e', r = .triggered e' → e' ≠ e)
    (hack : ∀ task a inc, i = .ack e task a inc → task ∉ expected) (habort : i ≠ .abort e)
    (hrec : ∀ k, i ≠ .recover k) :
    live e (history ++ [(i, r)]) = live e history ∧
      acksFor expected e (history ++ [(i, r)]) = acksFor expected e history := by
  constructor
  · rw [live_snoc]
    cases i with
    | abort e' =>
      cases r <;> simp_all
    | recover k => exact absurd rfl (hrec k)
    | trigger | ack _ _ _ _ => cases r <;> simp_all
  · unfold acksFor
    rw [sinceTrigger_snoc_of_ne history i hr, firstAcks_snoc]
    cases i with
    | ack e' task a inc =>
      refine if_neg ?_
      rintro ⟨rfl, ht, -⟩
      exact hack task a inc rfl ht
    | trigger | abort _ | recover _ => rfl

theorem frame_ack (expected : Finset Nat) (e task : Nat) (a : EpochAck) (inc : Nat)
    (history : List (Call × Reply)) (r : Reply) (hr : ∀ e', r ≠ .triggered e')
    (ht : task ∈ expected) :
    live e (history ++ [(.ack e task a inc, r)]) = live e history ∧
      acksFor expected e (history ++ [(.ack e task a inc, r)]) =
        if task ∉ (acksFor expected e history).map (·.task) then
          acksFor expected e history ++ [⟨task, a, inc⟩]
        else acksFor expected e history := by
  constructor
  · rw [live_snoc]
  · unfold acksFor
    rw [sinceTrigger_snoc_of_ne history _ fun e' h => absurd h (hr e'), firstAcks_snoc]
    simp only [ht, true_and]

/-- What holds of an epoch in flight. -/
structure EntryOk (c : EpochCoordinator) (history : List (Call × Reply)) (p : Nat × EpochState) :
    Prop where
  belowTriggered : ∃ t, c.lastTriggered = some t ∧ p.1 ≤ t
  aboveCommitted : ∀ k, c.lastCommitted = some k → k < p.1
  live : Coordinator.live p.1 history = true
  /-- it holds the first acks since its trigger -/
  recorded : p.2 = .of (acksFor c.expected p.1 history)
  /-- and waits for another one -/
  waiting : p.2.acked.card < c.expected.card

/-- What holds of a coordinator and its history after any calls. -/
structure Session.Inv (s : Session) : Prop where
  /-- the epochs in flight are in order -/
  keys : s.coord.inFlight.Pairwise fun p q => p.1 < q.1
  bound : s.coord.inFlight.length ≤ s.coord.maxInFlight
  committedTriggered : ∀ k, s.coord.lastCommitted = some k →
    ∃ t, s.coord.lastTriggered = some t ∧ k ≤ t
  entries : ∀ p ∈ s.coord.inFlight, EntryOk s.coord s.history p

theorem EntryOk.frame {c c' : EpochCoordinator} {history : List (Call × Reply)}
    {p : Nat × EpochState} (h : EntryOk c history p) (i : Call) (r : Reply)
    (hexp : c'.expected = c.expected)
    (htr : ∀ t, c.lastTriggered = some t → ∃ t', c'.lastTriggered = some t' ∧ t ≤ t')
    (hcm : ∀ k, c'.lastCommitted = some k → k < p.1)
    (hr : ∀ e', r = .triggered e' → e' ≠ p.1)
    (hack : ∀ task a inc, i = .ack p.1 task a inc → task ∉ c.expected) (habort : i ≠ .abort p.1)
    (hrec : ∀ k, i ≠ .recover k) : EntryOk c' (history ++ [(i, r)]) p := by
  obtain ⟨hlive, hacks⟩ := Coordinator.frame c.expected p.1 history i r hr hack habort hrec
  constructor
  · obtain ⟨t, ht, hle⟩ := h.belowTriggered
    obtain ⟨t', ht', hle'⟩ := htr t ht
    exact ⟨t', ht', le_trans hle hle'⟩
  · exact hcm
  · exact hlive.trans h.live
  · rw [hexp, hacks]
    exact h.recorded
  · rw [hexp]
    exact h.waiting

theorem Session.inv_start (expectedTasks : List Nat) (maxInFlight : Nat) (c : EpochCoordinator)
    (h : EpochCoordinator.new expectedTasks maxInFlight = .ok c) :
    (Session.start c).Inv ∧ c.expected = expectedTasks.toFinset ∧ c.maxInFlight = maxInFlight := by
  unfold EpochCoordinator.new at h
  split at h
  · split at h
    · cases h
    · cases h
      refine ⟨?_, rfl, rfl⟩
      constructor <;> simp [Session.start]
  · cases h

theorem mem_iff_lookup {l : List (Nat × EpochState)} (hl : l.Pairwise fun p q => p.1 < q.1)
    (e : Nat) (st : EpochState) : (e, st) ∈ l ↔ l.lookup e = some st := by
  induction l with
  | nil => simp
  | cons p l ih =>
    obtain ⟨k, v⟩ := p
    rw [pairwise_cons] at hl
    rw [lookup_cons, mem_cons]
    by_cases hk : e = k
    · subst hk
      have hnot : (e, st) ∉ l := fun hm => by
        have := hl.1 (e, st) hm
        exact absurd this (lt_irrefl e)
      simp [hnot, eq_comm]
    · have hbeq : (e == k) = false := by simpa using hk
      simp [hbeq, hk, ih hl.2]

namespace Session.Inv

variable {s : Session}

theorem quiet (h : s.Inv) (i : Call) (r : Reply) (hr : ∀ e', r ≠ .triggered e')
    (hack : ∀ p ∈ s.coord.inFlight, ∀ task a inc, i = .ack p.1 task a inc → task ∉ s.coord.expected)
    (habort : ∀ e, i ≠ .abort e) (hrec : ∀ k, i ≠ .recover k) :
    (Session.mk s.coord (s.history ++ [(i, r)])).Inv where
  keys := h.keys
  bound := h.bound
  committedTriggered := h.committedTriggered
  entries p hp := (h.entries p hp).frame i r rfl (fun t ht => ⟨t, ht, Nat.le_refl t⟩)
    (h.entries p hp).aboveCommitted (fun e' h' => absurd h' (hr e')) (hack p hp) (habort p.1) hrec

theorem started (h : s.Inv) (hlen : s.coord.inFlight.length < s.coord.maxInFlight) :
    (Session.mk s.coord.started (s.history ++ [(.trigger, .triggered s.coord.nextEpoch)])).Inv := by
  -- the new epoch is after every one triggered before
  have hnext : ∀ t, s.coord.lastTriggered = some t → t < s.coord.nextEpoch := by
    intro t ht
    unfold EpochCoordinator.nextEpoch
    rw [ht]
    exact Nat.lt_succ_self t
  have hfresh : ∀ p ∈ s.coord.inFlight, p.1 < s.coord.nextEpoch := by
    intro p hp
    obtain ⟨t, ht, hle⟩ := (h.entries p hp).belowTriggered
    exact lt_of_le_of_lt hle (hnext t ht)
  have hcommitted : ∀ k, s.coord.lastCommitted = some k → k < s.coord.nextEpoch := by
    intro k hk
    obtain ⟨t, ht, hle⟩ := h.committedTriggered k hk
    exact lt_of_le_of_lt hle (hnext t ht)
  have hfilter : (s.coord.inFlight.filter fun p => p.1 ≠ s.coord.nextEpoch) = s.coord.inFlight := by
    rw [filter_eq_self]
    intro p hp
    exact decide_eq_true (ne_of_lt (hfresh p hp))
  unfold EpochCoordinator.started
  rw [hfilter]
  constructor
  · exact Lists.pairwise_concat.mpr ⟨h.keys, hfresh⟩
  · show (s.coord.inFlight ++ [_]).length ≤ s.coord.maxInFlight
    rw [length_append, length_singleton]
    omega
  · intro k hk
    exact ⟨_, rfl, le_of_lt (hcommitted k hk)⟩
  · refine Lists.forall_mem_concat.mpr ⟨fun p hp => ?_, ?_⟩
    · refine (h.entries p hp).frame .trigger (.triggered s.coord.nextEpoch) rfl
        (fun t ht => ⟨_, rfl, le_of_lt (hnext t ht)⟩) (h.entries p hp).aboveCommitted ?_
        (by simp) (by simp) (by simp)
      intro e' he'
      cases he'
      exact Nat.ne_of_gt (hfresh p hp)
    · constructor
      · exact ⟨_, rfl, le_rfl⟩
      · exact hcommitted
      · rw [live_snoc]
        exact if_pos rfl
      · unfold acksFor
        rw [sinceTrigger_snoc]
        show _ = EpochState.of (firstAcks _ _ (if _ then [] else _))
        rw [if_pos rfl]
        rfl
      · exact Finset.card_pos.mpr s.coord.expected_nonempty

/-- Only the entry of `epoch` changes, and keeps its key. -/
theorem recorded (h : s.Inv) {epoch task : Nat} {a : EpochAck} {inc : Nat} {state : EpochState}
    (ht : task ∈ s.coord.expected) (hmem : (epoch, state) ∈ s.coord.inFlight)
    (hcard : (EpochCoordinator.recordAck state task a).acked.card < s.coord.expected.card) :
    (Session.mk (s.coord.recorded epoch (EpochCoordinator.recordAck state task a))
      (s.history ++ [(.ack epoch task a inc, .pending)])).Inv := by
  constructor
  · refine pairwise_map.mpr (h.keys.imp ?_)
    intro p q hpq
    by_cases hp : p.1 = epoch <;> by_cases hq : q.1 = epoch <;> simp [hp, hq] at hpq ⊢ <;> omega
  · show (s.coord.inFlight.map _).length ≤ s.coord.maxInFlight
    rw [length_map]
    exact h.bound
  · exact h.committedTriggered
  · intro q hq
    obtain ⟨p, hp, rfl⟩ := mem_map.mp hq
    by_cases hpe : p.1 = epoch
    · rw [if_pos hpe]
      obtain ⟨hlive, hacks⟩ := frame_ack s.coord.expected epoch task a inc s.history .pending
        (by simp) ht
      have hentry := h.entries _ hmem
      refine ⟨hentry.belowTriggered, hentry.aboveCommitted, hlive.trans hentry.live, ?_, hcard⟩
      show EpochCoordinator.recordAck state task a = .of (acksFor s.coord.expected epoch _)
      rw [hacks, ← recordAck_of, ← hentry.recorded]
    · rw [if_neg hpe]
      refine (h.entries p hp).frame _ .pending rfl (fun t ht => ⟨t, ht, Nat.le_refl t⟩)
        (h.entries p hp).aboveCommitted (by simp) ?_ (by simp) (by simp)
      intro task' a' inc' heq
      cases heq
      exact absurd rfl hpe

/-- The epochs up to the completed one are dropped. -/
theorem completed (h : s.Inv) {epoch : Nat} {state : EpochState}
    (hmem : (epoch, state) ∈ s.coord.inFlight) (task : Nat) (a : EpochAck) (inc : Nat)
    (gc : GlobalCheckpoint) : (Session.mk (s.coord.completed epoch)
      (s.history ++ [(.ack epoch task a inc, .checkpoint gc)])).Inv := by
  constructor
  · exact h.keys.filter _
  · exact le_trans (length_filter_le _ _) h.bound
  · intro k hk
    cases hk
    exact (h.entries _ hmem).belowTriggered
  · intro p hp
    obtain ⟨hp, hlt⟩ := mem_filter.mp hp
    have hlt : epoch < p.1 := of_decide_eq_true hlt
    refine (h.entries p hp).frame _ _ rfl (fun t ht => ⟨t, ht, Nat.le_refl t⟩) ?_ (by simp) ?_
      (by simp) (by simp)
    · intro k hk
      cases hk
      exact hlt
    · intro task' a' inc' heq
      cases heq
      exact absurd hlt (lt_irrefl _)

theorem abort (h : s.Inv) (epoch : Nat) : (s.step (.abort epoch)).Inv := by
  constructor
  · exact h.keys.filter _
  · exact le_trans (length_filter_le _ _) h.bound
  · exact h.committedTriggered
  · intro p hp
    obtain ⟨hp, hne⟩ := mem_filter.mp hp
    refine (h.entries p hp).frame (.abort epoch) .unit rfl (fun t ht => ⟨t, ht, Nat.le_refl t⟩)
      (h.entries p hp).aboveCommitted (by simp) (by simp) ?_ (by simp)
    intro heq
    cases heq
    exact of_decide_eq_true hne rfl

theorem recover (s : Session) (k : Nat) : (s.step (.recover k)).Inv where
  keys := List.Pairwise.nil
  bound := Nat.zero_le _
  committedTriggered k' hk := by
    cases hk
    exact ⟨_, rfl, le_rfl⟩
  entries p hp := by cases hp

theorem step (h : s.Inv) (i : Call) : (s.step i).Inv := by
  obtain ⟨c, r, hstep, hout⟩ := s.step_outcome i
  rw [hstep]
  cases hout with
  | quiet hr _ habort hrec hack =>
    refine h.quiet i r hr ?_ habort hrec
    intro p hp task a inc heq
    rcases hack p.1 task a inc heq with ht | ⟨k, hk, hle⟩ | hnone
    · exact ht
    · have := (h.entries p hp).aboveCommitted k hk
      omega
    · rw [(mem_iff_lookup h.keys p.1 p.2).mp hp] at hnone
      cases hnone
  | triggered hlen => exact h.started hlen
  | recorded ht hstate hcard => exact h.recorded ht ((mem_iff_lookup h.keys _ _).mpr hstate) hcard
  | completed _ hstate _ => exact h.completed ((mem_iff_lookup h.keys _ _).mpr hstate) _ _ _ _
  | aborted epoch => exact h.abort epoch
  | recovered k => exact Inv.recover s k

end Session.Inv

/-! ## Checkpoints -/

theorem firstAcks_expected (expected : Finset Nat) (e : Nat) (history : List (Call × Reply)) :
    ∀ a ∈ firstAcks expected e history, a.task ∈ expected := by
  induction history using List.reverseRecOn with
  | nil => simp [firstAcks]
  | append_singleton history x ih =>
    obtain ⟨i, r⟩ := x
    rw [firstAcks_snoc]
    cases i with
    | ack e' task a inc =>
      dsimp only
      split
      · next h => exact Lists.forall_mem_concat.mpr ⟨ih, h.2.1⟩
      · exact ih
    | trigger | abort _ | recover _ => exact ih

/-- A checkpoint that the call `i` returns: of an epoch triggered and not dropped since, from the
first ack of every expected task. -/
structure Justified (expected : Finset Nat) (before : List (Call × Reply)) (i : Call)
    (gc : GlobalCheckpoint) : Prop where
  live : Coordinator.live gc.epoch before = true
  complete : ((acksFor expected gc.epoch (before ++ [(i, .checkpoint gc)])).map (·.task)).toFinset =
    expected
  offsets : gc.offsets = (merge (acksFor expected gc.epoch (before ++ [(i, .checkpoint gc)]))).offsets
  statePtrs : gc.statePtrs =
    (merge (acksFor expected gc.epoch (before ++ [(i, .checkpoint gc)]))).statePtrs

/-- A checkpoint is justified, and its epoch is after the last committed one. -/
theorem Session.Inv.checkpoint {s : Session} (h : s.Inv) {i : Call} {c : EpochCoordinator}
    {gc : GlobalCheckpoint} (hout : Outcome s.coord i c (.checkpoint gc)) :
    Justified s.coord.expected s.history i gc ∧
      (∀ k, s.coord.lastCommitted = some k → k < gc.epoch) ∧ c.lastCommitted = some gc.epoch := by
  obtain ⟨task, a, inc, state, rfl, ht, hstate, hcard, hoff, hptr, hlast⟩ := hout.checkpoint
  have hentry := h.entries _ ((mem_iff_lookup h.keys gc.epoch state).mpr hstate)
  refine ⟨?_, hentry.aboveCommitted, hlast⟩
  -- what is recorded once this ack is in
  have hof : EpochCoordinator.recordAck state task a = .of (acksFor s.coord.expected gc.epoch
      (s.history ++ [(.ack gc.epoch task a inc, .checkpoint gc)])) := by
    rw [(frame_ack s.coord.expected gc.epoch task a inc s.history _ (by simp) ht).2, ← recordAck_of,
      ← hentry.recorded]
  rw [hof] at hcard hoff hptr
  constructor
  · exact hentry.live
  · refine Finset.eq_of_subset_of_card_le ?_ hcard
    intro t htask
    obtain ⟨b, hb, rfl⟩ := mem_map.mp (mem_toFinset.mp htask)
    exact firstAcks_expected _ _ _ b hb
  · exact hoff
  · exact hptr

/-- Every checkpoint a session has returned is justified by the calls before it. -/
def Session.AllJustified (expected : Finset Nat) (s : Session) : Prop :=
  ∀ before i gc after, s.history = before ++ (i, .checkpoint gc) :: after →
    Justified expected before i gc

theorem Session.step_allJustified {s : Session} {expected : Finset Nat} (h : s.Inv)
    (hexp : s.coord.expected = expected) (hj : s.AllJustified expected) (i : Call) :
    (s.step i).AllJustified expected := by
  intro before i' gc after heq
  rcases Lists.concat_eq_append_cons heq with ⟨rfl, hx, rfl⟩ | ⟨after', hbefore, rfl⟩
  · obtain ⟨rfl, hgc⟩ := Prod.mk.inj hx
    exact hexp ▸ (h.checkpoint (hgc ▸ s.coord.call_outcome i')).1
  · exact hj before i' gc after' hbefore

theorem Session.run_justified (expectedTasks : List Nat) (maxInFlight : Nat) (c : EpochCoordinator)
    (hnew : EpochCoordinator.new expectedTasks maxInFlight = .ok c) (calls : List Call) :
    (run Session.step (.start c) calls).Inv ∧
      (run Session.step (.start c) calls).coord.expected = expectedTasks.toFinset ∧
      (run Session.step (.start c) calls).coord.maxInFlight = maxInFlight ∧
      (run Session.step (.start c) calls).AllJustified expectedTasks.toFinset := by
  obtain ⟨hinv, hexp, hmax⟩ := Session.inv_start expectedTasks maxInFlight c hnew
  refine run_inv Session.step (fun s => s.Inv ∧ s.coord.expected = expectedTasks.toFinset ∧
    s.coord.maxInFlight = maxInFlight ∧ s.AllJustified expectedTasks.toFinset) ?_ _ _
    ⟨hinv, hexp, hmax, ?_⟩
  · rintro s i ⟨h1, h2, h3, h4⟩
    obtain ⟨hc1, hc2⟩ := (s.coord.call_outcome i).constants
    exact ⟨h1.step i, hc1.trans h2, hc2.trans h3, Session.step_allJustified h1 h2 h4 i⟩
  · intro before i gc after heq
    cases before <;> cases heq

/-- The epochs of the checkpoints returned so far, in order and at most the last committed one. -/
def Session.Increasing (s : Session) : Prop :=
  ((checkpoints s.history).map (·.epoch)).Pairwise (· < ·) ∧
    ∀ gc ∈ checkpoints s.history, ∃ k, s.coord.lastCommitted = some k ∧ gc.epoch ≤ k

theorem Session.step_increasing {s : Session} (h : s.Inv) (hs : s.Increasing) (i : Call)
    (hi : ∀ k, i ≠ .recover k) : (s.step i).Increasing := by
  obtain ⟨hpair, hle⟩ := hs
  obtain ⟨c, r, hstep, hout⟩ := s.step_outcome i
  rw [hstep]
  unfold Session.Increasing
  rw [checkpoints_snoc]
  by_cases hgc : ∃ gc, r = .checkpoint gc
  · obtain ⟨gc, rfl⟩ := hgc
    obtain ⟨-, hlt, hnew⟩ := h.checkpoint hout
    have hlast : ∀ gc' ∈ checkpoints s.history, gc'.epoch < gc.epoch := by
      intro gc' hm
      obtain ⟨k, hk, hle'⟩ := hle gc' hm
      exact lt_of_le_of_lt hle' (hlt k hk)
    constructor
    · rw [map_append]
      refine Lists.pairwise_concat.mpr ⟨hpair, fun e he => ?_⟩
      obtain ⟨gc', hm, rfl⟩ := mem_map.mp he
      exact hlast gc' hm
    · refine Lists.forall_mem_concat.mpr ⟨fun gc' hm => ?_, gc.epoch, hnew, le_rfl⟩
      exact ⟨gc.epoch, hnew, le_of_lt (hlast gc' hm)⟩
  · -- nothing returned, so the last committed epoch stays
    have hcommitted : c.lastCommitted = s.coord.lastCommitted := by
      cases hout with
      | recovered k => exact absurd rfl (hi k)
      | completed => exact absurd ⟨_, rfl⟩ hgc
      | quiet | triggered | recorded | aborted => rfl
    rw [hcommitted]
    cases r with
    | checkpoint gc => exact absurd ⟨gc, rfl⟩ hgc
    | triggered _ | pending | unit | error _ => simpa using ⟨hpair, hle⟩

/-- What holds of the checkpoints and the epochs in flight in every session without a recovery. -/
theorem coordinator_safety (expectedTasks : List Nat) (maxInFlight : Nat) (c : EpochCoordinator)
    (hnew : EpochCoordinator.new expectedTasks maxInFlight = .ok c) (calls : List Call)
    (hcalls : ∀ i ∈ calls, ∀ k, i ≠ .recover k) :
    ((checkpoints (run Session.step (.start c) calls).history).map (·.epoch)).Pairwise (· < ·) ∧
    (run Session.step (.start c) calls).AllJustified expectedTasks.toFinset ∧
    (∀ p ∈ (run Session.step (.start c) calls).coord.inFlight, ∀ k,
      (run Session.step (.start c) calls).coord.lastCommitted = some k → k < p.1) ∧
    (run Session.step (.start c) calls).coord.inFlight.length ≤ maxInFlight := by
  obtain ⟨hinv, -, hmax, hjust⟩ := Session.run_justified expectedTasks maxInFlight c hnew calls
  have hinc : (run Session.step (.start c) calls).Inv ∧
      (run Session.step (.start c) calls).Increasing := by
    refine run_inv_mem Session.step (fun s => s.Inv ∧ s.Increasing) calls ?_ _
      ⟨(Session.inv_start expectedTasks maxInFlight c hnew).1, List.Pairwise.nil, ?_⟩
    · rintro s i hi ⟨h1, h2⟩
      exact ⟨h1.step i, Session.step_increasing h1 h2 i (hcalls i hi)⟩
    · intro gc hgc
      cases hgc
  exact ⟨hinc.2.1, hjust, fun p hp => (hinv.entries p hp).aboveCommitted, hmax ▸ hinv.bound⟩

def oneTask : EpochCoordinator := ⟨{1}, [], none, none, 4, by decide, by decide⟩

def offsetAck (off : Int64) : EpochAck := { offsets := StringMap.single "t:0" off }

theorem coordinator_safety_oneTask :
    EpochCoordinator.new [1] 4 = .ok oneTask ∧
      (∀ i ∈ [Call.trigger, .ack 0 1 (offsetAck 5) 0, .trigger, .abort 1, .trigger,
        .ack 2 1 (offsetAck 7) 0], ∀ k, i ≠ .recover k) ∧
      (run Session.step (.start oneTask) [.trigger, .ack 0 1 (offsetAck 5) 0, .trigger, .abort 1,
        .trigger, .ack 2 1 (offsetAck 7) 0]).AllJustified {1} :=
  have hcalls : ∀ i ∈ [Call.trigger, .ack 0 1 (offsetAck 5) 0, .trigger, .abort 1, .trigger,
      .ack 2 1 (offsetAck 7) 0], ∀ k, i ≠ .recover k := by simp
  ⟨rfl, hcalls, (coordinator_safety [1] 4 oneTask rfl _ hcalls).2.1⟩

/-- An ack that comes before its epoch is triggered is ignored: the checkpoint holds the next one.
-/
theorem earlyAck_ignored :
    let s := run Session.step (.start oneTask)
      [.ack 0 1 (offsetAck 5) 0, .trigger, .ack 0 1 (offsetAck 7) 0]
    ∃ gc ∈ checkpoints s.history, gc.epoch = 0 ∧
      gc.offsets ≠ (merge (firstAcks {1} 0 s.history)).offsets := by
  refine ⟨_, mem_singleton.mpr rfl, rfl, ?_⟩
  intro h
  have h7 := congrFun h "t:0"
  revert h7
  decide

end Zelox.Coordinator
