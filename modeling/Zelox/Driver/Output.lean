import Zelox.Driver.Scheduler
import Zelox.Lib.Runs
import Mathlib.Data.List.TakeWhile

/-!
# The output of a job

The driver hands the output streams of the final tasks to the job output, which merges
them into one stream.  When a task is tried again the stream of the new attempt is handed
over, too: it replaces the stream of the old attempt if that has not yielded rows, and
otherwise it is an error (`recv`).

Only the streams that are still being read are compared with the new one, and `selectAll`
drops a stream when it ends.  If no stream arrives for an output of which another attempt
has yielded rows and ended (`NoLateAttempt`), all rows of an output come from one attempt
(`rows_oneAttempt`).  Otherwise they may not (`secondAttempt_yields`).

Which streams are ready, and in which order they are polled, comes with the poll.
-/

namespace Zelox.Driver

open Runs List

/-! ## Task streams -/

inductive TaskStreamError where
  | unknown (message : String)
  | external (message : String)
deriving DecidableEq

def TaskStreamError.ofCause : CommonErrorCause → TaskStreamError
  | .unknown message | .internal message | .execution message => .unknown message
  | .reported kind message => if kind = "Python" then .external message else .unknown message

namespace TaskStreamKey

/-- `TaskStreamKeyDisplay`. -/
def display (key : TaskStreamKey) : String :=
  s!"job {key.jobId} stage {key.stage} partition {key.partition} attempt {key.attempt} channel {key.channel}"

/-- The job, the stage, the partition and the channel: the stream without the attempt. -/
def output (key : TaskStreamKey) : Nat × Nat × Nat × Nat :=
  (key.jobId, key.stage, key.partition, key.channel)

end TaskStreamKey

/-- What a stream yields until it ends. -/
abbrev TaskStreamSource (R : Type) := List (Except TaskStreamError (List R))

structure TaskStreamWrapper (R : Type) where
  key : TaskStreamKey
  inner : Option (TaskStreamSource R)
  count : Nat

namespace TaskStreamWrapper

variable {R : Type}

def conflictsWith (w : TaskStreamWrapper R) (key : TaskStreamKey) : Bool :=
  w.key.output = key.output && 0 < w.count

/-- The stream is not muted. -/
def isLive (w : TaskStreamWrapper R) : Bool := w.inner.isSome

def muteIfNeeded (key : TaskStreamKey) (w : TaskStreamWrapper R) : TaskStreamWrapper R :=
  if w.key.output = key.output then { w with inner := none } else w

/-- `poll_next` of a stream that is ready; `none` if it has ended. -/
def pollNext (w : TaskStreamWrapper R) :
    Option (Except TaskStreamError (List R)) × TaskStreamWrapper R :=
  match w.inner with
  | none => (none, w)
  | some [] => (none, w)
  | some (.ok batch :: rest) =>
    (some (.ok batch), { w with inner := some rest, count := w.count + batch.length })
  | some (.error e :: rest) => (some (.error e), { w with inner := some rest })

end TaskStreamWrapper

/-- `SelectAll::poll_next`: ready streams are polled until one yields.  The last component are the
ended. -/
def selectAll {R : Type} : List Nat → List (TaskStreamWrapper R) →
    Option (TaskStreamKey × Except TaskStreamError (List R)) × List (TaskStreamWrapper R) ×
      List (TaskStreamWrapper R)
  | [], streams => (none, streams, [])
  | i :: ready, streams =>
    match streams[i]? with
    | none => selectAll ready streams
    | some w =>
      match w.pollNext with
      | (some result, w') => (some (w.key, result), streams.set i w', [])
      | (none, _) =>
        let polled := selectAll ready (streams.eraseIdx i)
        (polled.1, polled.2.1, w :: polled.2.2)

/-! ## The job output -/

inductive JobOutputItem (R : Type) where
  | stream (key : TaskStreamKey) (source : TaskStreamSource R)
  | error (cause : CommonErrorCause)

/-- `receiver.poll_recv`. -/
inductive Received (R : Type) where
  | pending
  | item (item : JobOutputItem R)
  | closed

def Received.streamKey {R : Type} : Received R → Option TaskStreamKey
  | .item (.stream key _) => some key
  | .item (.error _) => none
  | .pending => none
  | .closed => none

inductive JobOutputState (R : Type) where
  | active (inner : List (TaskStreamWrapper R))
  | draining (inner : List (TaskStreamWrapper R))
  | completed
  | failed

namespace JobOutputState

variable {R : Type}

/-- The receiver is still open. -/
def isActive : JobOutputState R → Bool
  | .active _ => true
  | .draining _ => false
  | .completed => false
  | .failed => false

/-- The first half of `poll_next`: an item of the driver, or the error that it leads to. -/
def recv (received : Received R) : JobOutputState R → Option TaskStreamError × JobOutputState R
  | .active inner =>
    match received with
    | .pending => (none, .active inner)
    | .item (.error cause) => (some (.ofCause cause), .failed)
    | .item (.stream key source) =>
      if inner.any (·.conflictsWith key) then
        (some (.unknown
          s!"cannot add stream for {key.display}: a different attempt has already produced job output"),
          .failed)
      else (none, .active (inner.map (·.muteIfNeeded key) ++ [⟨key, some source, 0⟩]))
    | .closed => (none, .draining inner)
  | state => (none, state)

end JobOutputState

/-- What the consumer gets; a batch with the stream that it comes from. -/
inductive Yield (R : Type) where
  | batch (key : TaskStreamKey) (rows : List R)
  | error (e : TaskStreamError)
  | done

namespace Yield

variable {R : Type}

def isBatch : Yield R → Bool
  | .batch _ _ => true
  | .error _ => false
  | .done => false

def rows : Yield R → List (TaskStreamKey × R)
  | .batch key rows => rows.map fun row => (key, row)
  | .error _ => []
  | .done => []

def ofItem (key : TaskStreamKey) : Except TaskStreamError (List R) → Yield R
  | .ok rows => .batch key rows
  | .error e => .error e

end Yield

/-- `out` is what has been yielded, and `finished` are the streams that have been dropped. -/
structure JobOutputStream (R : Type) where
  state : JobOutputState R
  finished : List (TaskStreamWrapper R)
  out : List (Yield R)

/-- One call of `poll_next` by the consumer. -/
structure JobOutputPoll (R : Type) where
  received : Received R
  ready : List Nat

namespace JobOutputStream

variable {R : Type}

def new : JobOutputStream R := ⟨.active [], [], []⟩

/-- The second half of `poll_next`. -/
def pollInner (ready : List Nat) (s : JobOutputStream R) : JobOutputStream R :=
  match s.state with
  | .active inner =>
    let polled := selectAll ready inner
    ⟨.active polled.2.1, s.finished ++ polled.2.2,
      s.out ++ (polled.1.map fun x => Yield.ofItem x.1 x.2).toList⟩
  | .draining inner =>
    match selectAll ready inner with
    | (some (key, result), inner, dropped) =>
      ⟨.draining inner, s.finished ++ dropped, s.out ++ [.ofItem key result]⟩
    | (none, [], dropped) => ⟨.completed, s.finished ++ dropped, s.out ++ [.done]⟩
    | (none, inner, dropped) => ⟨.draining inner, s.finished ++ dropped, s.out⟩
  | .completed => { s with out := s.out ++ [.done] }
  | .failed => { s with out := s.out ++ [.done] }

def pollNext (s : JobOutputStream R) (poll : JobOutputPoll R) : JobOutputStream R :=
  match s.state.recv poll.received with
  | (some e, state) => { s with state := state, out := s.out ++ [.error e] }
  | (none, state) => pollInner poll.ready { s with state := state }

/-- The rows that are yielded before the stream ends or yields an error. -/
def rows (out : List (Yield R)) : List (TaskStreamKey × R) := (out.takeWhile Yield.isBatch).flatMap Yield.rows

/-- The rows of an output come from one attempt. -/
def OneAttempt (rows : List (TaskStreamKey × R)) : Prop :=
  ∀ x ∈ rows, ∀ y ∈ rows, x.1.output = y.1.output → x.1.attempt = y.1.attempt

theorem rows_append_of_open {out : List (Yield R)} (h : out.all Yield.isBatch = true)
    (new : List (Yield R)) : rows (out ++ new) = rows out ++ rows new := by
  have hall : ∀ y ∈ out, Yield.isBatch y = true := all_eq_true.mp h
  unfold rows
  rw [takeWhile_append_of_pos hall, flatMap_append, takeWhile_eq_self_iff.mpr hall]

theorem rows_append_of_not_open {out : List (Yield R)} (h : ¬ out.all Yield.isBatch = true)
    (new : List (Yield R)) : rows (out ++ new) = rows out := by
  have hlt : (out.takeWhile Yield.isBatch).length ≠ out.length := by
    intro heq
    refine h (all_eq_true.mpr ?_)
    exact takeWhile_eq_self_iff.mp (( takeWhile_prefix _).eq_of_length heq)
  unfold rows
  rw [takeWhile_append, if_neg hlt]

/-! ## What the streams have yielded -/

def liveOutputs (streams : List (TaskStreamWrapper R)) : List (Nat × Nat × Nat × Nat) :=
  (streams.filter TaskStreamWrapper.isLive).map fun w => w.key.output

theorem liveOutputs_cons_of_live {w : TaskStreamWrapper R} (h : w.isLive = true)
    (streams : List (TaskStreamWrapper R)) :
    liveOutputs (w :: streams) = w.key.output :: liveOutputs streams := by
  unfold liveOutputs
  rw [filter_cons_of_pos h, map_cons]

theorem liveOutputs_perm {streams streams' : List (TaskStreamWrapper R)} (h : streams.Perm streams') :
    (liveOutputs streams).Perm (liveOutputs streams') := (h.filter _).map _

theorem muteIfNeeded_spec (w : TaskStreamWrapper R) (key : TaskStreamKey) :
    (w.muteIfNeeded key).key = w.key ∧ (w.muteIfNeeded key).count = w.count ∧
      (w.muteIfNeeded key).isLive = (decide (w.key.output ≠ key.output) && w.isLive) := by
  unfold TaskStreamWrapper.muteIfNeeded
  split
  next h => simp [TaskStreamWrapper.isLive, h]
  next h => simp [h]

theorem liveOutputs_mute (key : TaskStreamKey) (streams : List (TaskStreamWrapper R)) :
    liveOutputs (streams.map (·.muteIfNeeded key)) =
      (liveOutputs streams).filter fun output => output ≠ key.output := by
  unfold liveOutputs
  rw [filter_map, map_map, filter_map, filter_filter]
  simp only [Function.comp_def, fun w : TaskStreamWrapper R => (muteIfNeeded_spec w key).1,
    fun w : TaskStreamWrapper R => (muteIfNeeded_spec w key).2.2]

/-- The streams that are read and those that have ended, with the rows that were yielded. -/
structure Coherent (inner finished : List (TaskStreamWrapper R)) (rows : List (TaskStreamKey × R)) :
    Prop where
  one : OneAttempt rows
  /-- A stream that is not muted goes on with what was yielded of its output. -/
  live : ∀ w ∈ inner, w.isLive = true → ∀ x ∈ rows, x.1.output = w.key.output →
    x.1.attempt = w.key.attempt
  /-- At most one stream of an output is not muted. -/
  single : (liveOutputs inner).Nodup
  counted : ∀ x ∈ rows, ∃ w ∈ inner ++ finished, w.key = x.1 ∧ 0 < w.count

variable {inner finished : List (TaskStreamWrapper R)} {rs : List (TaskStreamKey × R)}

namespace Coherent

section

variable (h : Coherent inner finished rs)
include h

theorem eq_of_live {w w' : TaskStreamWrapper R} (hw : w ∈ inner)
    (hw' : w' ∈ inner) (hlive : w.isLive = true) (hlive' : w'.isLive = true)
    (heq : w.key.output = w'.key.output) : w = w' :=
  inj_on_of_nodup_map h.single (mem_filter.mpr ⟨hw, hlive⟩) (mem_filter.mpr ⟨hw', hlive'⟩)
    heq

theorem drop {i : Nat} {w : TaskStreamWrapper R} (hw : inner[i]? = some w) :
    Coherent (inner.eraseIdx i) (finished ++ [w]) rs := by
  have hsub := eraseIdx_sublist inner i
  obtain ⟨hi, rfl⟩ := List.getElem?_eq_some_iff.mp hw
  refine ⟨h.one, fun w' hw' => h.live w' (hsub.subset hw'), ?_, fun x hx => ?_⟩
  · exact h.single.sublist ((hsub.filter _).map _)
  · obtain ⟨w', hw', hkey, hcount⟩ := h.counted x hx
    refine ⟨w', ?_, hkey, hcount⟩
    have hperm : (inner[i] :: inner.eraseIdx i).Perm inner := getElem_cons_eraseIdx_perm hi
    simp only [mem_append, mem_singleton]
    rcases mem_append.mp hw' with hin | hfin
    · rcases mem_cons.mp (hperm.mem_iff.mpr hin) with heq | hin
      · exact .inr (.inr heq)
      · exact .inl hin
    · exact .inr (.inl hfin)

theorem yield {i : Nat} {w : TaskStreamWrapper R} (hw : inner[i]? = some w)
    (hlive : w.isLive = true) (batch : List R) (rest : TaskStreamSource R) :
    Coherent (inner.set i { w with inner := some rest, count := w.count + batch.length }) finished
      (rs ++ batch.map fun row => (w.key, row)) := by
  have hmem : w ∈ inner := mem_of_getElem? hw
  obtain ⟨hi, hget⟩ := List.getElem?_eq_some_iff.mp hw
  have hcons : (w :: inner.eraseIdx i).Perm inner := hget ▸ getElem_cons_eraseIdx_perm hi
  have hset := set_perm_cons_eraseIdx hi
    ({ w with inner := some rest, count := w.count + batch.length } : TaskStreamWrapper R)
  -- a row of the batch comes from `w`
  have hnew : ∀ x ∈ batch.map (fun row => (w.key, row)), x.1 = w.key := by
    intro x hx
    obtain ⟨row, -, rfl⟩ := mem_map.mp hx
    rfl
  have hattempt : ∀ x ∈ rs ++ batch.map (fun row => (w.key, row)), x.1.output = w.key.output →
      x.1.attempt = w.key.attempt := by
    intro x hx hout
    rcases mem_append.mp hx with hx | hx
    · exact h.live w hmem hlive x hx hout
    · rw [hnew x hx]
  refine ⟨fun x hx y hy hout => ?_, fun w' hw' hlive' x hx hout => ?_, ?_, fun x hx => ?_⟩
  · rcases mem_append.mp hx with hold | hbatch
    · rcases mem_append.mp hy with hold' | hbatch'
      · exact h.one x hold y hold' hout
      · rw [hnew y hbatch'] at hout ⊢
        exact hattempt x hx hout
    · rw [hnew x hbatch] at hout ⊢
      exact (hattempt y hy hout.symm).symm
  · rcases mem_or_eq_of_mem_set hw' with hw' | rfl
    · rcases mem_append.mp hx with hx | hx
      · exact h.live w' hw' hlive' x hx hout
      · rw [hnew x hx] at hout ⊢
        rw [h.eq_of_live hmem hw' hlive hlive' hout]
    · exact hattempt x hx hout
  · -- the outputs of the streams that are read are the same ones
    have hold := (liveOutputs_perm hcons).nodup_iff.mpr h.single
    refine (liveOutputs_perm hset).nodup_iff.mpr ?_
    rw [liveOutputs_cons_of_live hlive] at hold
    exact hold
  · rcases mem_append.mp hx with hx | hx
    · obtain ⟨w', hw', hkey, hcount⟩ := h.counted x hx
      rcases mem_append.mp hw' with hin | hfin
      · rcases mem_cons.mp (hcons.mem_iff.mpr hin) with rfl | hin
        · exact ⟨_, mem_append_left _ (hset.mem_iff.mpr mem_cons_self), hkey,
            Nat.add_pos_left hcount _⟩
        · exact ⟨w', mem_append_left _ (hset.mem_iff.mpr (mem_cons_of_mem _ hin)), hkey, hcount⟩
      · exact ⟨w', mem_append_right _ hfin, hkey, hcount⟩
    · refine ⟨_, mem_append_left _ (hset.mem_iff.mpr mem_cons_self), (hnew x hx).symm, ?_⟩
      obtain ⟨row, hrow, -⟩ := mem_map.mp hx
      exact Nat.add_pos_right _ (length_pos_of_mem hrow)

/-- A stream arrives that is not in conflict with what is read or has ended. -/
theorem add {key : TaskStreamKey} (source : TaskStreamSource R)
    (hconflict : ¬ inner.any (·.conflictsWith key) = true)
    (hlate : ∀ w ∈ finished, w.key.output = key.output → 0 < w.count → w.key.attempt = key.attempt) :
    Coherent (inner.map (·.muteIfNeeded key) ++ [⟨key, some source, 0⟩]) finished rs := by
  -- what has been yielded of the output comes from a stream that has ended
  have hattempt : ∀ x ∈ rs, x.1.output = key.output → x.1.attempt = key.attempt := by
    intro x hx hout
    obtain ⟨w, hw, hkey, hcount⟩ := h.counted x hx
    rw [← hkey] at hout ⊢
    rcases mem_append.mp hw with hin | hfin
    · refine absurd (any_eq_true.mpr ⟨w, hin, ?_⟩) hconflict
      unfold TaskStreamWrapper.conflictsWith
      rw [Bool.and_eq_true, decide_eq_true_iff, decide_eq_true_iff]
      exact ⟨hout, hcount⟩
    · exact hlate w hfin hout hcount
  refine ⟨h.one, fun w hw hsome x hx hout => ?_, ?_, fun x hx => ?_⟩
  · rcases mem_append.mp hw with hw | hw
    · obtain ⟨w, hin, rfl⟩ := mem_map.mp hw
      obtain ⟨hkey, -, hlive⟩ := muteIfNeeded_spec w key
      rw [hlive, Bool.and_eq_true] at hsome
      rw [hkey] at hout ⊢
      exact h.live w hin hsome.2 x hx hout
    · cases mem_singleton.mp hw
      exact hattempt x hx hout
  · have happend : liveOutputs (inner.map (·.muteIfNeeded key) ++ [⟨key, some source, 0⟩]) =
        (liveOutputs inner).filter (fun output => output ≠ key.output) ++ [key.output] := by
      rw [← liveOutputs_mute]
      unfold liveOutputs
      rw [filter_append, map_append]
      rfl
    rw [happend, nodup_append]
    refine ⟨h.single.filter _, nodup_singleton _, fun output hin output' hin' heq => ?_⟩
    rw [heq, mem_singleton.mp hin'] at hin
    simp at hin
  · obtain ⟨w, hw, hkey, hcount⟩ := h.counted x hx
    rcases mem_append.mp hw with hin | hfin
    · obtain ⟨hkey', hcount', -⟩ := muteIfNeeded_spec w key
      refine ⟨w.muteIfNeeded key, ?_, hkey'.trans hkey, hcount' ▸ hcount⟩
      exact mem_append_left _ (mem_append_left _ (mem_map_of_mem hin))
    · exact ⟨w, mem_append_right _ hfin, hkey, hcount⟩

end

end Coherent

theorem coherent_selectAll (ready : List Nat) (h : Coherent inner finished rs) :
    Coherent (selectAll ready inner).2.1 (finished ++ (selectAll ready inner).2.2)
      (rs ++ ((selectAll ready inner).1.map fun x => (Yield.ofItem x.1 x.2).rows).getD []) := by
  induction ready generalizing inner finished with
  | nil =>
    show Coherent inner (finished ++ []) (rs ++ [])
    rw [append_nil, append_nil]
    exact h
  | cons i ready ih =>
    unfold selectAll
    cases hw : inner[i]? with
    | none => exact ih h
    | some w =>
      dsimp only
      have hdrop := ih (h.drop hw)
      rw [append_assoc, singleton_append] at hdrop
      unfold TaskStreamWrapper.pollNext
      split
      · next result w' heq =>
        split at heq
        · cases heq
        · cases heq
        · next batch rest hinner =>
          cases heq
          rw [append_nil]
          exact h.yield hw (congrArg Option.isSome hinner) batch rest
        · next e rest hinner =>
          cases heq
          rw [append_nil]
          exact h.yield hw (congrArg Option.isSome hinner) [] rest
      · exact hdrop

/-! ## Whole runs -/

/-- Nothing but batches has been yielded. -/
def isOpen (s : JobOutputStream R) : Bool := s.out.all Yield.isBatch

/-- No stream arrives for an output of which a stream of another attempt has yielded rows and
ended. -/
def NoLateAttempt (s : JobOutputStream R) (poll : JobOutputPoll R) : Prop :=
  s.state.isActive = true → s.isOpen = true → ∀ key ∈ poll.received.streamKey, ∀ w ∈ s.finished,
    w.key.output = key.output → 0 < w.count → w.key.attempt = key.attempt

instance NoLateAttempt.decidable (s : JobOutputStream R) (poll : JobOutputPoll R) :
    Decidable (NoLateAttempt s poll) :=
  inferInstanceAs (Decidable (s.state.isActive = true → s.isOpen = true →
    ∀ key ∈ poll.received.streamKey, ∀ w ∈ s.finished,
      w.key.output = key.output → 0 < w.count → w.key.attempt = key.attempt))

def streams : JobOutputState R → List (TaskStreamWrapper R)
  | .active inner => inner
  | .draining inner => inner
  | .completed => []
  | .failed => []

structure Sound (s : JobOutputStream R) : Prop where
  one : OneAttempt (rows s.out)
  coherent : s.isOpen = true → Coherent (streams s.state) s.finished (rows s.out)

theorem sound_new : Sound (new : JobOutputStream R) := by
  have hnone : OneAttempt (rows ([] : List (Yield R))) := fun _ hx => by cases hx
  exact ⟨hnone, fun _ => ⟨hnone, forall_mem_nil _, nodup_nil, forall_mem_nil _⟩⟩

/-- A state in which the stream is still open only if it was, and then coherent. -/
theorem Sound.of_out {s s' : JobOutputStream R} (h : Sound s) {new : List (Yield R)}
    (hout : s'.out = s.out ++ new)
    (hopen : s.isOpen = true → OneAttempt (rows s.out ++ rows new) ∧
      (new.all Yield.isBatch = true → Coherent (streams s'.state) s'.finished (rows s.out ++ rows new))) :
    Sound s' := by
  have hsplit : s'.isOpen = (s.isOpen && new.all Yield.isBatch) := by
    unfold isOpen
    rw [hout, all_append]
  by_cases ho : s.isOpen = true
  · obtain ⟨hone, hcoherent⟩ := hopen ho
    refine ⟨?_, fun ho' => ?_⟩
    · rw [hout, rows_append_of_open ho]
      exact hone
    · rw [hsplit, Bool.and_eq_true] at ho'
      rw [hout, rows_append_of_open ho]
      exact hcoherent ho'.2
  · refine ⟨?_, fun ho' => ?_⟩
    · rw [hout, rows_append_of_not_open ho]
      exact h.one
    · rw [hsplit, Bool.and_eq_true] at ho'
      exact absurd ho'.1 ho

theorem Sound.of_out_closed {s s' : JobOutputStream R} (h : Sound s) {y : Yield R}
    (hout : s'.out = s.out ++ [y]) (hy : y.isBatch = false) : Sound s' := by
  refine h.of_out hout fun _ => ?_
  have hrows : rows [y] = [] := by
    unfold rows
    rw [takeWhile_cons_of_neg (Bool.eq_false_iff.mp hy)]
    rfl
  refine ⟨?_, fun hall => ?_⟩
  · rw [hrows, append_nil]
    exact h.one
  · rw [all_cons, hy] at hall
    cases hall

theorem rows_ofItem (x : TaskStreamKey × Except TaskStreamError (List R)) :
    rows [Yield.ofItem x.1 x.2] = (Yield.ofItem x.1 x.2).rows := by
  obtain ⟨key, result⟩ := x
  cases result with
  | ok batch => exact append_nil _
  | error e => rfl

theorem Sound.pollInner {s : JobOutputStream R} (h : Sound s) (ready : List Nat) :
    Sound (s.pollInner ready) := by
  -- polling the streams, whatever becomes of the state
  have hpolled : ∀ inner, streams s.state = inner → ∀ s' : JobOutputStream R,
      s'.out = s.out ++ ((selectAll ready inner).1.map fun x => Yield.ofItem x.1 x.2).toList →
      s'.finished = s.finished ++ (selectAll ready inner).2.2 →
      streams s'.state = (selectAll ready inner).2.1 → Sound s' := by
    intro inner hinner s' hout hfinished hstreams
    refine h.of_out hout fun ho => ?_
    have hcoherent := h.coherent ho
    rw [hinner] at hcoherent
    have hnext := coherent_selectAll ready hcoherent
    have hrows : rows ((selectAll ready inner).1.map fun x => Yield.ofItem x.1 x.2).toList =
        ((selectAll ready inner).1.map fun x => (Yield.ofItem x.1 x.2).rows).getD [] := by
      cases (selectAll ready inner).1 with
      | none => rfl
      | some x => exact rows_ofItem x
    rw [hrows, hfinished, hstreams]
    exact ⟨hnext.one, fun _ => hnext⟩
  unfold JobOutputStream.pollInner
  cases hstate : s.state with
  | active inner => exact hpolled inner (by rw [hstate]; rfl) _ rfl rfl rfl
  | draining inner =>
    have hinner : streams s.state = inner := by rw [hstate]; rfl
    dsimp only
    split
    · next key result inner' dropped heq =>
      refine hpolled inner hinner _ ?_ ?_ ?_ <;> rw [heq] <;> rfl
    · exact h.of_out_closed rfl rfl
    · next inner' dropped _ heq =>
      refine hpolled inner hinner _ ?_ ?_ ?_
      · rw [heq]
        exact (append_nil _).symm
      · rw [heq]
      · rw [heq]
        rfl
  | completed | failed => exact h.of_out_closed rfl rfl

theorem Sound.pollNext {s : JobOutputStream R} (h : Sound s) (poll : JobOutputPoll R)
    (hlate : NoLateAttempt s poll) : Sound (s.pollNext poll) := by
  -- the streams stay the same, or one is added
  have hsame : ∀ state : JobOutputState R, streams state = streams s.state →
      Sound { s with state := state } := fun _ heq => ⟨h.one, fun ho => heq ▸ h.coherent ho⟩
  unfold JobOutputStream.pollNext
  cases hstate : s.state with
  | active inner =>
    have hinner : streams s.state = inner := by rw [hstate]; rfl
    cases hreceived : poll.received with
    | pending => exact Sound.pollInner (hsame (.active inner) hinner.symm) poll.ready
    | closed => exact Sound.pollInner (hsame (.draining inner) hinner.symm) poll.ready
    | item item =>
      cases item with
      | error cause => exact h.of_out_closed rfl rfl
      | stream key source =>
        unfold JobOutputState.recv
        dsimp only
        by_cases hconflict : inner.any (·.conflictsWith key) = true
        · rw [if_pos hconflict]
          exact h.of_out_closed rfl rfl
        · rw [if_neg hconflict]
          have hadded : Sound { s with
              state := .active (inner.map (·.muteIfNeeded key) ++ [⟨key, some source, 0⟩]) } := by
            refine ⟨h.one, fun ho => ?_⟩
            have hcoherent := h.coherent ho
            rw [hinner] at hcoherent
            refine hcoherent.add source hconflict (hlate ?_ ho key ?_)
            · rw [hstate]
              rfl
            · rw [hreceived]
              exact Option.mem_some_self key
          exact hadded.pollInner poll.ready
  | draining inner => exact Sound.pollInner (hsame (.draining inner) (by rw [hstate])) poll.ready
  | completed => exact Sound.pollInner (hsame .completed (by rw [hstate])) poll.ready
  | failed => exact Sound.pollInner (hsame .failed (by rw [hstate])) poll.ready

/-- All rows of an output come from one attempt, if no stream arrives for an output of which another
attempt has yielded rows and ended. -/
theorem rows_oneAttempt (polls : List (JobOutputPoll R))
    (hlate : Along pollNext NoLateAttempt new polls) :
    ∀ x ∈ rows (run pollNext new polls).out, ∀ y ∈ rows (run pollNext new polls).out,
      x.1.output = y.1.output → x.1.attempt = y.1.attempt := by
  have hsound : Sound (run pollNext new polls) :=
    along_inv pollNext NoLateAttempt Sound (fun _ poll hl h => h.pollNext poll hl) new polls hlate sound_new
  exact hsound.one

end JobOutputStream

/-! ## A second attempt -/

/-- A stream arrives, and the one at the index is polled. -/
def arrives (attempt : Nat) (source : TaskStreamSource Nat) (ready : List Nat) : JobOutputPoll Nat :=
  ⟨.item (.stream ⟨1, 0, 0, attempt, 0⟩ source), ready⟩

/-- No item arrives. -/
def waits (ready : List Nat) : JobOutputPoll Nat := ⟨.pending, ready⟩

open JobOutputStream in
/-- The second attempt replaces the first one, which has yielded no row. -/
theorem rows_oneAttempt_replaced :
    let polls := [arrives 0 [.ok [], .ok [7]] [0], arrives 1 [.ok [8]] [1], waits [0]]
    Along pollNext NoLateAttempt new polls ∧
    rows (run pollNext new polls).out = [(⟨1, 0, 0, 1, 0⟩, 8)] ∧
    ∀ x ∈ rows (run pollNext new polls).out, ∀ y ∈ rows (run pollNext new polls).out,
      x.1.output = y.1.output → x.1.attempt = y.1.attempt :=
  ⟨by decide, rfl, rows_oneAttempt _ (by decide)⟩

open JobOutputStream in
/-- The first attempt yields its row and ends before the second one arrives: both rows are
yielded. -/
theorem secondAttempt_yields :
    rows (run pollNext new [arrives 0 [.ok [7]] [0], waits [0], arrives 1 [.ok [7]] [0]]).out =
      [(⟨1, 0, 0, 0, 0⟩, 7), (⟨1, 0, 0, 1, 0⟩, 7)] := by
  decide

end Zelox.Driver
