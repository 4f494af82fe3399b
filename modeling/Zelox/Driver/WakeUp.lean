import Zelox.Driver.Output

/-!
# Waking up the consumer of a job output

A poll that returns `Pending` has to leave a waker wherever the next item can come from.  The
waker is left with the receiver of the driver's items only if the receiver is itself polled to
`Pending`, and `poll_next` polls it once.  When that poll gives a stream and none of the streams
has an item at once, the call returns `Pending`, and the next item of the driver wakes nobody
(`wakesOnItem_iff`).
-/

namespace Zelox.Driver.JobOutputStream

variable {R : Type}

/-- `poll_next` returns `Pending`: it yields nothing. -/
def Pending (s : JobOutputStream R) (poll : JobOutputPoll R) : Prop :=
  (s.pollNext poll).out = s.out

/-- The receiver is polled in this call, to `Pending`. -/
def ReceiverPending (s : JobOutputStream R) (poll : JobOutputPoll R) : Prop :=
  s.state.isActive = true ∧ poll.received = .pending

/-- If the call returns `Pending` while the stream is active, the next item wakes the consumer. -/
def WakesOnItem (s : JobOutputStream R) (poll : JobOutputPoll R) : Prop :=
  Pending s poll → (s.pollNext poll).state.isActive = true → ReceiverPending s poll

/-- The streams that are read once the stream `key` has been added. -/
def withStream (inner : List (TaskStreamWrapper R)) (key : TaskStreamKey)
    (source : TaskStreamSource R) : List (TaskStreamWrapper R) :=
  inner.map (·.muteIfNeeded key) ++ [⟨key, some source, 0⟩]

theorem pollInner_active (ready : List Nat) (s : JobOutputStream R)
    {inner : List (TaskStreamWrapper R)} (h : s.state = .active inner) :
    (s.pollInner ready).state.isActive = true ∧
      ((s.pollInner ready).out = s.out ↔ (selectAll ready inner).1 = none) := by
  unfold pollInner
  rw [h]
  refine ⟨rfl, ?_⟩
  show s.out ++ ((selectAll ready inner).1.map fun x => Yield.ofItem x.1 x.2).toList = s.out ↔ _
  cases (selectAll ready inner).1 with
  | none => simp
  | some x => simp

theorem isActive_of_pollNext {s : JobOutputStream R} {poll : JobOutputPoll R}
    (h : (s.pollNext poll).state.isActive = true) : ∃ inner, s.state = .active inner := by
  cases hs : s.state with
  | active inner => exact ⟨inner, rfl⟩
  | draining inner =>
    have hd : (s.pollNext poll).state.isActive = false := by
      simp only [pollNext, hs, JobOutputState.recv, pollInner]
      split <;> rfl
    rw [hd] at h
    cases h
  | completed | failed =>
    simp only [pollNext, hs, JobOutputState.recv, pollInner] at h
    cases h

/-- An active stream that receives a stream reads it with the others, in the same call. -/
theorem pollNext_stream {s : JobOutputStream R} {poll : JobOutputPoll R}
    {inner : List (TaskStreamWrapper R)} {key : TaskStreamKey} {source : TaskStreamSource R}
    (hs : s.state = .active inner) (hr : poll.received = .item (.stream key source))
    (hc : inner.any (·.conflictsWith key) = false) :
    s.pollNext poll =
      pollInner poll.ready { s with state := .active (withStream inner key source) } := by
  simp only [pollNext, hs, hr, JobOutputState.recv, hc, withStream, Bool.false_eq_true, if_false]

/-- The contract holds for a poll of an active stream if and only if a stream that arrives in it
finds some stream with an item ready. -/
theorem wakesOnItem_iff (s : JobOutputStream R) (poll : JobOutputPoll R) :
    WakesOnItem s poll ↔ ∀ inner key source, s.state = .active inner →
      poll.received = .item (.stream key source) → inner.any (·.conflictsWith key) = false →
        (selectAll poll.ready (withStream inner key source)).1 ≠ none := by
  constructor
  · intro h inner key source hs hr hc hnone
    -- nothing is ready: the call returns `Pending`, but the receiver has given an item
    have hpoll := pollNext_stream hs hr hc
    obtain ⟨hactive, hout⟩ := pollInner_active poll.ready
      { s with state := .active (withStream inner key source) } rfl
    have hpending : Pending s poll := by
      unfold Pending
      rw [hpoll]
      exact hout.mpr hnone
    have hwaits := h hpending (by rw [hpoll]; exact hactive)
    rw [ReceiverPending, hr] at hwaits
    cases hwaits.2
  · intro h hpending hactive
    obtain ⟨inner, hs⟩ := isActive_of_pollNext hactive
    refine ⟨by rw [hs]; rfl, ?_⟩
    cases hr : poll.received with
    | pending => rfl
    | closed =>
      -- the stream is draining from then on
      simp only [pollNext, hs, hr, JobOutputState.recv, pollInner] at hactive
      split at hactive <;> cases hactive
    | item item =>
      exfalso
      cases item with
      | error cause =>
        simp only [pollNext, hs, hr, JobOutputState.recv] at hactive
        cases hactive
      | stream key source =>
        by_cases hc : inner.any (·.conflictsWith key) = true
        · simp only [pollNext, hs, hr, JobOutputState.recv, hc, if_true] at hactive
          cases hactive
        · rw [Bool.not_eq_true] at hc
          refine h inner key source hs hr hc ?_
          rw [Pending, pollNext_stream hs hr hc] at hpending
          exact (pollInner_active poll.ready
            { s with state := .active (withStream inner key source) } rfl).2.mp hpending

/-- The first stream arrives before it has an item: the call returns `Pending` although the receiver
has not been polled to `Pending`. -/
theorem new_not_wakesOnItem :
    ¬ WakesOnItem (new : JobOutputStream Nat) ⟨.item (.stream ⟨0, 0, 0, 0, 0⟩ [.ok [1]]), []⟩ := by
  intro h
  exact absurd (h rfl rfl).2 (by simp)

end Zelox.Driver.JobOutputStream
