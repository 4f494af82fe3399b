import Zelox.Connect.Executor
import Zelox.Lib.Lists

/-!
# What the client of a reattachable execution receives

The client should get the non-empty batches of the stream once and in order, then one
`ResultComplete`, however often it leaves and comes back.  Cut behind the last response received,
the buffer holds exactly the responses that are missing, as long as no more than 128 are
outstanding (`release_last`).  The last response is the weak point.  A task that has sent it leaves
no context behind, so a client that loses it cannot reattach (`completed_unreceived`); a task
paused while it sends it starts again behind it, with a second schema and a second `ResultComplete`
(`complete_twice`).  And a reattach that is dropped while it waits for the task leaves the executor
pausing for good.

Away from these three (`delivers_run`), what was received, what is in flight and what the task
still has to send always make up what was produced.
-/

namespace Zelox.Connect

open Runs ExecutorTask ExecutorState List

variable {R : Type}

def ExecutorOutput.isComplete (out : ExecutorOutput R) : Bool :=
  match out.batch with
  | .complete => true
  | _ => false

def ExecutorOutput.rows (out : ExecutorOutput R) : Option (List R) :=
  match out.batch with
  | .arrowBatch rows => some rows
  | _ => none

def hasComplete (outs : List (ExecutorOutput R)) : Bool := outs.any (·.isComplete)

def nonEmpty (batches : List (List R)) : List (List R) := batches.filter fun rows => !rows.isEmpty

/-- The non-empty batches among the responses. -/
def data (outs : List (ExecutorOutput R)) : List (List R) := nonEmpty (outs.filterMap (·.rows))

@[simp] theorem hasComplete_append (outs outs' : List (ExecutorOutput R)) :
    hasComplete (outs ++ outs') = (hasComplete outs || hasComplete outs') :=
  any_append

theorem nonEmpty_cons (rows : List R) (batches : List (List R)) :
    nonEmpty (rows :: batches) = nonEmpty [rows] ++ nonEmpty batches := by
  rw [← singleton_append]
  exact filter_append ..

theorem data_append (outs outs' : List (ExecutorOutput R)) :
    data (outs ++ outs') = data outs ++ data outs' := by
  rw [data, filterMap_append]
  exact filter_append ..

/-- The one `ResultComplete` is the last response. -/
def EndsComplete (outs : List (ExecutorOutput R)) : Prop :=
  ∃ before out, outs = before ++ [out] ∧ out.isComplete = true ∧ hasComplete before = false

theorem EndsComplete.hasComplete {outs : List (ExecutorOutput R)} (h : EndsComplete outs) :
    hasComplete outs = true := by
  obtain ⟨before, out, rfl, ho, -⟩ := h
  simp [Connect.hasComplete, ho]

variable {out : ExecutorOutput R} {context : ExecutorTaskContext R} {task : ExecutorTask R}

theorem EndsComplete.eq_nil {outs rest : List (ExecutorOutput R)}
    (h : EndsComplete (outs ++ out :: rest)) (ho : out.isComplete = true) : rest = [] := by
  obtain ⟨before, last, heq, -, hbefore⟩ := h
  rcases eq_nil_or_concat' rest with rfl | ⟨rest, x, rfl⟩
  · rfl
  · exfalso
    have hsplit : outs ++ out :: rest ++ [x] = before ++ [last] := by
      rw [← heq]
      simp
    have hb : outs ++ out :: rest = before := (append_inj' hsplit rfl).1
    rw [← hb, hasComplete_append] at hbefore
    simp [Connect.hasComplete, ho] at hbefore

/-! ## The buffer -/

/-- Responses are numbered in the order they are made. -/
def Numbered (outs : List (ExecutorOutput R)) : Prop :=
  ∀ (i : Nat) (out : ExecutorOutput R), outs[i]? = some out → out.id = i

theorem Numbered.concat {outs : List (ExecutorOutput R)} (h : Numbered outs)
    (batch : ExecutorBatch R) : Numbered (outs ++ [⟨outs.length, batch⟩]) := by
  intro i out hi
  rw [getElem?_append] at hi
  split at hi
  · exact h i out hi
  · rename_i hge
    obtain ⟨hlt, rfl⟩ := List.getElem?_eq_some_iff.mp hi
    have h0 : i - outs.length = 0 := by simpa using hlt
    have : i = outs.length := by omega
    simp [this]

theorem ExecutorBuffer.removeUntil_drop {outs : List (ExecutorOutput R)} (h : Numbered outs)
    (k id : Nat) (hid : id < outs.length) :
    (removeUntil ⟨outs.drop k⟩ id).inner = outs.drop (max k (id + 1)) := by
  have hnum : ∀ j (hj : j < (outs.drop k).length), (outs.drop k)[j].id = k + j := by
    intro j hj
    refine h (k + j) _ ?_
    rw [← getElem?_drop]
    exact getElem?_eq_getElem hj
  unfold removeUntil
  by_cases hk : k ≤ id
  · have hlt : id - k < (outs.drop k).length := by
      rw [length_drop]
      omega
    have hfind : (outs.drop k).findIdx? (·.id == id) = some (id - k) := by
      refine findIdx?_eq_some_iff_getElem.mpr ⟨hlt, ?_, ?_⟩
      · rw [hnum]
        simp
        omega
      · intro j hj
        rw [hnum]
        simp
        omega
    simp only [hfind, drop_drop]
    congr 1
    omega
  · have hfind : (outs.drop k).findIdx? (·.id == id) = none := by
      refine findIdx?_eq_none_iff.mpr fun out hout => ?_
      obtain ⟨j, hj, rfl⟩ := mem_iff_getElem.mp hout
      rw [hnum]
      simp
      omega
    simp only [hfind]
    congr 1
    omega

/-- The buffer holds everything that the client does not have. -/
structure Kept (context : ExecutorTaskContext R) (received : List (ExecutorOutput R)) : Prop where
  numbered : Numbered context.produced
  first : received <+: context.produced
  bound : context.produced.length ≤ received.length + 128
  buffered : ∃ k ≤ received.length, context.buffer.inner = context.produced.drop k

section Kept

variable {context : ExecutorTaskContext R} {received : List (ExecutorOutput R)}

section

variable (h : Kept context received)
include h

theorem Kept.saveOutput (batch : ExecutorBatch R)
    (hbound : context.produced.length + 1 ≤ received.length + 128) :
    Kept (context.saveOutput ⟨context.produced.length, batch⟩) received := by
  obtain ⟨k, hk, hbuf⟩ := h.buffered
  have hle := h.first.length_le
  refine ⟨h.numbered.concat batch, h.first.trans (prefix_append ..), ?_, ?_⟩
  · simpa [ExecutorTaskContext.saveOutput] using hbound
  · simp only [ExecutorTaskContext.saveOutput, ExecutorBuffer.add, hbuf, length_drop]
    -- a full buffer loses its front, which is among the responses received
    by_cases hfull : ExecutorBuffer.capacity ≤ context.produced.length - k
    · have hmany : 128 ≤ context.produced.length - k := hfull
      refine ⟨k + 1, by omega, ?_⟩
      rw [if_pos hfull, drop_drop, drop_append_of_le_length (by omega)]
    · refine ⟨k, hk, ?_⟩
      rw [if_neg hfull, drop_append_of_le_length (by omega)]

theorem Kept.concat (hout : received ++ [out] <+: context.produced) :
    Kept context (received ++ [out]) := by
  obtain ⟨k, hk, hbuf⟩ := h.buffered
  have hlen : (received ++ [out]).length = received.length + 1 := by simp
  exact ⟨h.numbered, hout, by have := h.bound; omega, k, by omega, hbuf⟩

theorem Kept.release {responseId : Option Nat}
    (hid : ∀ id, responseId = some id → id < received.length) :
    Kept (releaseContext context responseId) received := by
  cases responseId with
  | none => exact h
  | some id =>
    obtain ⟨k, hk, hbuf⟩ := h.buffered
    have hlt := hid id rfl
    have hle := h.first.length_le
    refine ⟨h.numbered, h.first, h.bound, max k (id + 1), by omega, ?_⟩
    show (context.buffer.removeUntil id).inner = context.produced.drop (max k (id + 1))
    rw [← ExecutorBuffer.removeUntil_drop h.numbered k id (by omega), ← hbuf]

theorem Kept.id_eq {i : Nat} (hi : received[i]? = some out) : out.id = i := by
  obtain ⟨rest, hrest⟩ := h.first
  refine h.numbered i out ?_
  rw [← hrest, getElem?_append_left (List.getElem?_eq_some_iff.mp hi).1]
  exact hi

theorem Kept.id_lt (hout : out ∈ received) :
    out.id < received.length := by
  obtain ⟨i, hi⟩ := mem_iff_getElem?.mp hout
  rw [h.id_eq hi]
  exact (List.getElem?_eq_some_iff.mp hi).1

theorem Kept.released_lt {responseId : Option Nat}
    (hr : ∀ id ∈ responseId, id ∈ received.map (·.id)) :
    ∀ id, responseId = some id → id < received.length := by
  intro id hid
  obtain ⟨out, hout, rfl⟩ := mem_map.mp (hr id hid)
  exact h.id_lt hout

/-- Cut behind the last response received, the buffer holds exactly those that are missing. -/
theorem Kept.release_last :
    (releaseContext context (received.getLast?.map (·.id))).buffer.inner =
      context.produced.drop received.length := by
  obtain ⟨k, hk, hbuf⟩ := h.buffered
  rcases eq_nil_or_concat' received with rfl | ⟨before, last, rfl⟩
  · rw [length_nil, Nat.le_zero] at hk
    subst hk
    exact hbuf
  · have hid : last.id = before.length := h.id_eq (by simp)
    have hle := h.first.length_le
    rw [length_append, length_singleton] at hk hle ⊢
    rw [getLast?_concat, Option.map_some, hid]
    show (context.buffer.removeUntil before.length).inner = _
    have hcut := ExecutorBuffer.removeUntil_drop h.numbered k before.length (by omega)
    rw [← hbuf] at hcut
    rw [show max k (before.length + 1) = before.length + 1 by omega] at hcut
    exact hcut

end

end Kept

/-! ## The task -/

/-- The non-empty batches of the stream are those of the responses made and those to come. -/
def Carries (total : List (List R)) (context : ExecutorTaskContext R) : Prop :=
  ∃ rest : List (List R), context.stream = rest.map .ok ∧
    data context.produced ++ nonEmpty rest = total

/-- The last response is made once the stream is at its end, and nothing is made after it. -/
def Resume.Fits (context : ExecutorTaskContext R) : Resume → Prop
  | .schema => hasComplete context.produced = false
  | .next _ => hasComplete context.produced = false
  | .complete => hasComplete context.produced = false ∧ context.stream = []
  | .finish => EndsComplete context.produced ∧ context.stream = []

def Resume.Waits : Resume → Prop
  | .schema => True
  | .next _ => True
  | _ => False

def TaskStatus.Fits (context : ExecutorTaskContext R) : TaskStatus R → Prop
  | .active sending after => after.Fits context ∧ (sending = [] → after.Waits)
  | .paused => True
  | .failed _ => False
  | .completed => Resume.finish.Fits context

def TaskStatus.sending : TaskStatus R → List (ExecutorOutput R)
  | .active sending _ => sending
  | _ => []

/-- What holds of a task between two steps. -/
structure TaskInv (total : List (List R)) (received : List (ExecutorOutput R))
    (connection : Option (List (ExecutorOutput R))) (task : ExecutorTask R) : Prop where
  kept : Kept task.context received
  carries : Carries total task.context
  flow : ∀ inFlight, connection = some inFlight →
    received ++ inFlight ++ task.status.sending = task.context.produced
  paused : task.status = .paused → connection = none
  fits : task.status.Fits task.context

section Task

variable {total : List (List R)} {received : List (ExecutorOutput R)}
  {connection : Option (List (ExecutorOutput R))} {context : ExecutorTaskContext R}

theorem Carries.saveOutput (h : Carries total context) (hout : data [out] = []) :
    Carries total (context.saveOutput out) := by
  obtain ⟨rest, hrest, hdata⟩ := h
  refine ⟨rest, hrest, ?_⟩
  show data (context.produced ++ [out]) ++ nonEmpty rest = total
  rw [data_append, hout, append_nil]
  exact hdata

theorem Carries.saveItem {rows : List R} {stream : List (Except String (List R))}
    (h : Carries total context) (hstream : context.stream = .ok rows :: stream) (id : Nat) :
    Carries total (({ context with stream := stream } : ExecutorTaskContext R).saveOutput
      ⟨id, .arrowBatch rows⟩) := by
  obtain ⟨rest, hrest, hdata⟩ := h
  rw [hstream] at hrest
  cases rest with
  | nil => cases hrest
  | cons rows' rest =>
    rw [map_cons, List.cons.injEq, Except.ok.injEq] at hrest
    obtain ⟨rfl, hrest⟩ := hrest
    refine ⟨rest, hrest, ?_⟩
    show data (context.produced ++ [⟨id, .arrowBatch rows⟩]) ++ nonEmpty rest = total
    rw [data_append, append_assoc, ← hdata, nonEmpty_cons]
    rfl

theorem hasComplete_saveOutput (id : Nat) {batch : ExecutorBatch R}
    (h : hasComplete context.produced = false)
    (hb : (⟨id, batch⟩ : ExecutorOutput R).isComplete = false) :
    hasComplete (context.saveOutput ⟨id, batch⟩).produced = false := by
  show hasComplete (context.produced ++ [⟨id, batch⟩]) = false
  rw [hasComplete_append, h, Bool.false_or]
  simpa [hasComplete] using hb

theorem endsComplete_saveOutput (id : Nat) (h : hasComplete context.produced = false) :
    EndsComplete (context.saveOutput ⟨id, .complete⟩).produced :=
  ⟨context.produced, ⟨id, .complete⟩, rfl, rfl, h⟩

section

variable (hkept : Kept context received)
  (hflow : ∀ inFlight, connection = some inFlight → received ++ inFlight = context.produced)
include hkept hflow

theorem TaskInv.produce (batch : ExecutorBatch R) (after : Resume)
    (hbound : (ExecutorTask.produce context batch after).context.produced.length ≤
      received.length + 128)
    (hcarries : Carries total (ExecutorTask.produce context batch after).context)
    (hfits : after.Fits (ExecutorTask.produce context batch after).context) :
    TaskInv total received connection (ExecutorTask.produce context batch after) := by
  have hlen : context.produced.length + 1 ≤ received.length + 128 := by
    simpa [ExecutorTask.produce, ExecutorTaskContext.saveOutput] using hbound
  refine ⟨hkept.saveOutput batch hlen, hcarries, ?_, ?_, hfits, ?_⟩
  · intro inFlight hc
    show received ++ inFlight ++ [_] = context.produced ++ [_]
    rw [hflow inFlight hc]
  · intro h
    cases h
  · intro h
    cases h

theorem TaskInv.resume (hcarries : Carries total context) {after : Resume}
    (hfits : after.Fits context)
    (hbound : (resume context after).context.produced.length ≤ received.length + 128) :
    TaskInv total received connection (resume context after) := by
  have hsent : ∀ inFlight, connection = some inFlight →
      received ++ inFlight ++ [] = context.produced := by
    intro inFlight hc
    rw [append_nil, hflow inFlight hc]
  cases after with
  | schema =>
    exact .produce hkept hflow _ _ hbound (hcarries.saveOutput rfl)
      (hasComplete_saveOutput _ hfits rfl)
  | next empty => exact ⟨hkept, hcarries, hsent, (fun h => by cases h), hfits, fun _ => trivial⟩
  | complete =>
    exact .produce hkept hflow _ _ hbound (hcarries.saveOutput rfl)
      ⟨endsComplete_saveOutput _ hfits.1, hfits.2⟩
  | finish => exact ⟨hkept, hcarries, hsent, (fun h => by cases h), hfits⟩

end

/-- While the task waits for the stream, all that it has made is sent. -/
theorem TaskInv.flow_waiting {after : Resume}
    (h : TaskInv total received connection ⟨context, .active [] after⟩) :
    ∀ inFlight, connection = some inFlight → received ++ inFlight = context.produced := by
  intro inFlight hc
  rw [← h.flow inFlight hc]
  exact (append_nil _).symm

variable {task : ExecutorTask R}

theorem TaskInv.send (h : TaskInv total received connection task)
    (hbound : (task.send connection).1.context.produced.length ≤ received.length + 128) :
    TaskInv total received (task.send connection).2 (task.send connection).1 := by
  obtain ⟨context, status⟩ := task
  cases status with
  | paused | failed e | completed => exact h
  | active sending after =>
    cases sending with
    | nil => exact .resume h.kept h.flow_waiting h.carries h.fits.1 hbound
    | cons out sending =>
      cases connection with
      | none =>
        refine ⟨h.kept, h.carries, ?_, fun _ => rfl, trivial⟩
        intro inFlight hc
        cases hc
      | some inFlight =>
        have hflow := h.flow inFlight rfl
        have hsent : received ++ (inFlight ++ [out]) ++ sending = context.produced := by
          rw [← hflow]
          simp [TaskStatus.sending]
        cases sending with
        | nil =>
          refine .resume h.kept ?_ h.carries h.fits.1 hbound
          intro inFlight' hc
          cases hc
          rw [← hsent, append_nil]
        | cons out' sending =>
          refine ⟨h.kept, h.carries, ?_, ?_, h.fits.1, ?_⟩
          · intro inFlight' hc
            cases hc
            exact hsent
          · intro hp
            cases hp
          · intro hn
            cases hn

section

variable (h : TaskInv total received connection task)
include h

theorem TaskInv.next (hbound : task.next.context.produced.length ≤ received.length + 128) :
    TaskInv total received connection task.next := by
  obtain ⟨context, status⟩ := task
  unfold ExecutorTask.next at hbound ⊢
  split at hbound
  · rename_i empty hstatus hstream
    simp only at hstatus hstream
    subst hstatus
    have hopen : hasComplete context.produced = false := h.fits.1
    split at hbound
    · rw [if_pos ‹_›]
      refine .produce h.kept h.flow_waiting _ _ hbound (h.carries.saveOutput rfl) ?_
      exact ⟨hasComplete_saveOutput _ hopen rfl, hstream⟩
    · rw [if_neg ‹_›]
      refine .produce h.kept h.flow_waiting _ _ hbound (h.carries.saveOutput rfl) ?_
      exact ⟨endsComplete_saveOutput _ hopen, hstream⟩
  · rename_i empty rows stream hstatus hstream
    simp only at hstatus hstream
    subst hstatus
    have hkept : Kept { context with stream := stream } received :=
      ⟨h.kept.numbered, h.kept.first, h.kept.bound, h.kept.buffered⟩
    exact .produce hkept h.flow_waiting _ _ hbound (h.carries.saveItem hstream _)
      (hasComplete_saveOutput _ h.fits.1 rfl)
  · rename_i empty e stream hstatus hstream
    -- the streams considered have no errors
    exfalso
    obtain ⟨rest, hrest, -⟩ := h.carries
    simp only at hstream hrest
    rw [hstream] at hrest
    cases rest with
    | nil | cons rows rest => cases hrest
  · exact h

theorem TaskInv.heartbeat
    (hbound : task.heartbeat.context.produced.length ≤ received.length + 128) :
    TaskInv total received connection task.heartbeat := by
  obtain ⟨context, status⟩ := task
  unfold heartbeat at hbound ⊢
  split at hbound
  · rename_i empty hstatus
    simp only at hstatus
    subst hstatus
    exact .produce h.kept h.flow_waiting _ _ hbound (h.carries.saveOutput rfl)
      (hasComplete_saveOutput _ h.fits.1 rfl)
  · exact h

theorem TaskInv.release {responseId : Option Nat}
    (hid : ∀ id, responseId = some id → id < received.length) :
    TaskInv total received connection
      { task with context := releaseContext task.context responseId } := by
  obtain ⟨context, status⟩ := task
  cases responseId with
  | none => exact h
  | some id =>
    refine ⟨h.kept.release hid, h.carries, h.flow, h.paused, ?_⟩
    have hfits := h.fits
    cases status with
    | active sending after =>
      cases after with
      | schema | next empty | complete | finish => exact hfits
    | paused => trivial
    | failed e | completed => exact hfits

/-- Without a connection nothing is said of what is in flight. -/
theorem TaskInv.disconnect :
    TaskInv total received none task := by
  refine ⟨h.kept, h.carries, ?_, fun _ => rfl, h.fits⟩
  intro inFlight hc
  cases hc

end

section

variable {inFlight : List (ExecutorOutput R)}
  (h : TaskInv total received (some (out :: inFlight)) task)
include h

theorem TaskInv.receive :
    TaskInv total (received ++ [out]) (some inFlight) task := by
  have hflow := h.flow _ rfl
  refine ⟨h.kept.concat ?_, h.carries, ?_, fun hp => ?_, h.fits⟩
  · refine ⟨inFlight ++ task.status.sending, ?_⟩
    rw [← hflow]
    simp
  · intro inFlight' hc
    cases hc
    rw [← hflow]
    simp
  · cases h.paused hp

theorem TaskInv.receive_complete (hout : out.isComplete = true) :
    inFlight = [] ∧ task.status = .completed ∧ received ++ [out] = task.context.produced ∧
      Resume.finish.Fits task.context := by
  have hflow : received ++ out :: (inFlight ++ task.status.sending) = task.context.produced := by
    rw [← h.flow _ rfl]
    simp
  have hmade : hasComplete task.context.produced = true := by
    rw [← hflow, hasComplete_append]
    simp [hasComplete, hout]
  have hfits := h.fits
  obtain ⟨context, status⟩ := task
  cases status with
  | paused => cases h.paused rfl
  | failed e => exact hfits.elim
  | completed =>
    have hends := hfits.1
    rw [← hflow] at hends
    obtain ⟨rfl, -⟩ := append_eq_nil_iff.mp (hends.eq_nil hout)
    exact ⟨rfl, rfl, hflow, hfits⟩
  | active sending after =>
    exfalso
    obtain ⟨hafter, hwaits⟩ := hfits
    cases after with
    | schema | next empty => exact absurd hmade (by rw [hafter]; decide)
    | complete => exact absurd hmade (by rw [hafter.1]; decide)
    | finish =>
      have hends := hafter.1
      rw [← hflow] at hends
      exact hwaits (append_eq_nil_iff.mp (hends.eq_nil hout)).2

end

theorem Carries.data_received (h : Carries total context) (hkept : Kept context received) :
    data received <+: total := by
  obtain ⟨rest, -, hdata⟩ := h
  obtain ⟨more, hmore⟩ := hkept.first
  rw [← hdata, ← hmore, data_append, append_assoc]
  exact prefix_append ..

theorem Carries.data_eq (h : Carries total context) (hstream : context.stream = []) :
    data context.produced = total := by
  obtain ⟨rest, hrest, hdata⟩ := h
  rw [hstream] at hrest
  cases rest with
  | nil => simpa [nonEmpty] using hdata
  | cons rows rest => cases hrest

@[simp] theorem releaseContext_produced (responseId : Option Nat) :
    (releaseContext context responseId).produced = context.produced := by
  cases responseId with
  | none => rfl
  | some id => rfl

theorem Carries.release (h : Carries total context) (responseId : Option Nat) :
    Carries total (releaseContext context responseId) := by
  cases responseId with
  | none => exact h
  | some id => exact h

/-- A context starts again with what the client lacks. -/
theorem TaskInv.spawn (hkept : Kept context received) (hcarries : Carries total context)
    (hopen : hasComplete context.produced = false) :
    TaskInv total received (some []) (.spawn
      (releaseContext context (received.getLast?.map (·.id)))) := by
  have hlt : ∀ id, received.getLast?.map (·.id) = some id → id < received.length := by
    intro id h
    obtain ⟨out, hout, rfl⟩ := Option.map_eq_some_iff.mp h
    exact hkept.id_lt (mem_of_getLast? hout)
  refine ⟨hkept.release hlt, hcarries.release _, ?_, ?_, ?_, fun _ => trivial⟩
  · intro inFlight hc
    cases hc
    show received ++ [] ++ (releaseContext context _).buffer.inner = _
    rw [hkept.release_last, append_nil]
    exact (prefix_iff_eq_append.mp hkept.first).trans (releaseContext_produced _).symm
  · intro h
    cases h
  · show hasComplete (releaseContext context _).produced = false
    rw [releaseContext_produced]
    exact hopen

end Task

/-! ## Whole runs -/

def ExecutorState.isPausing : ExecutorState R → Bool
  | .pausing _ => true
  | _ => false

/-- There is work left: a task, or a context to start one from. -/
def ExecutorState.Going (total : List (List R)) (received : List (ExecutorOutput R))
    (connection : Option (List (ExecutorOutput R))) : ExecutorState R → Prop
  | .pending context =>
    Kept context received ∧ Carries total context ∧ hasComplete context.produced = false
  | .running task => TaskInv total received connection task
  | .pausing (some task) => TaskInv total received connection task
  | _ => False

theorem ExecutorState.Going.data_received {total : List (List R)}
    {received : List (ExecutorOutput R)} {connection : Option (List (ExecutorOutput R))}
    {state : ExecutorState R} (h : state.Going total received connection) :
    data received <+: total := by
  cases state with
  | idle | failed e => exact h.elim
  | pending context => exact h.2.1.data_received h.1
  | running task => exact h.carries.data_received h.kept
  | pausing task =>
    cases task with
    | none => exact h.elim
    | some task => exact h.carries.data_received h.kept

/-- No task will send anything any more. -/
def ExecutorState.Over : ExecutorState R → Prop
  | .idle => True
  | .running task => task.status = .completed
  | .pausing (some task) => task.status = .completed
  | .pausing none => True
  | _ => False

/-- What may happen while a reattach waits for the task. -/
def Event.resumes (produced : List (ExecutorOutput R)) : Event → Bool
  | .join => !hasComplete produced
  | .reattach => false
  | .disconnect => false
  | _ => true

namespace Execution

/-- The client has the non-empty batches in order and then the one `ResultComplete`. -/
def Delivered (batches : List (List R)) (s : Execution R) : Prop :=
  data s.received = nonEmpty batches ∧ EndsComplete s.received

def Attached (s : Execution R) : Prop :=
  ∃ task inFlight, s.executor = .running task ∧ s.connection = some inFlight

/-- The client releases what it has received, and is at most 128 responses behind. -/
def Allowed (s : Execution R) (event : Event) : Prop :=
  (∀ id ∈ event.released, id ∈ s.received.map (·.id)) ∧
    (s.step event).executor.produced.length ≤ (s.step event).received.length + 128

/-- The task is not stopped between making `ResultComplete` and the client having it, nor is a
waiting reattach disturbed. -/
def Resumable (s : Execution R) (event : Event) : Prop :=
  s.executor.isPausing = true → hasComplete s.received = false →
    event.resumes s.executor.produced = true

instance (s : Execution R) (event : Event) : Decidable (s.Allowed event) :=
  inferInstanceAs (Decidable (_ ∧ _))

instance (s : Execution R) (event : Event) : Decidable (s.Resumable event) :=
  inferInstanceAs (Decidable (_ → _ → _))

structure Inv (batches : List (List R)) (s : Execution R) : Prop where
  answered : ∀ failure ∈ s.failures, hasComplete failure.1 = true
  state : (s.Delivered batches ∧ s.executor.Over ∧ (s.connection = none ∨ s.connection = some [])) ∨
    (hasComplete s.received = false ∧
      s.executor.Going (nonEmpty batches) s.received s.connection)

variable {batches : List (List R)} {s : Execution R}

theorem Inv.delivered (h : Inv batches s) (hrec : hasComplete s.received = true) :
    s.Delivered batches := by
  rcases h.state with hover | hgoing
  · exact hover.1
  · rw [hgoing.1] at hrec
    cases hrec

theorem Inv.going (h : Inv batches s) (hrec : hasComplete s.received = false) :
    s.executor.Going (nonEmpty batches) s.received s.connection := by
  rcases h.state with hover | hgoing
  · rw [hover.1.2.hasComplete] at hrec
    cases hrec
  · exact hgoing.2

theorem restart_pending (hexec : s.executor = .pending context) :
    s.restart = { s with
      executor := .running (.spawn
        (releaseContext context (s.received.getLast?.map (·.id))))
      connection := some [] } := by
  unfold restart
  rw [hexec]
  rfl

section

variable (hans : ∀ failure ∈ s.failures, hasComplete failure.1 = true)
include hans

theorem inv_restart (hexec : s.executor = .pending context) (hrec : hasComplete s.received = false)
    (hgoing : s.executor.Going (nonEmpty batches) s.received s.connection) :
    Inv batches s.restart := by
  rw [hexec] at hgoing
  obtain ⟨hkept, hcarries, hopen⟩ := hgoing
  rw [restart_pending hexec]
  exact ⟨hans, .inr ⟨hrec, .spawn hkept hcarries hopen⟩⟩

/-- Once everything is delivered, a reattach fails and changes nothing else. -/
theorem inv_restart_over (hdel : s.Delivered batches)
    (hover : s.executor = .idle ∨ ∃ task, s.executor = .pausing task) (hov : s.executor.Over) :
    Inv batches s.restart := by
  have hans' : ∀ e, ∀ failure ∈ s.failures ++ [(s.received, e)], hasComplete failure.1 = true :=
    fun e => Lists.forall_mem_concat.mpr ⟨hans, hdel.2.hasComplete⟩
  unfold restart
  rcases hover with hexec | ⟨task, hexec⟩
  · rw [hexec]
    exact ⟨hans' _, .inl ⟨hdel, trivial, .inl rfl⟩⟩
  · rw [hexec] at hov ⊢
    exact ⟨hans' _, .inl ⟨hdel, hov, .inl rfl⟩⟩

theorem inv_step_over (event : Event) (hdel : s.Delivered batches) (hover : s.executor.Over)
    (hconn : s.connection = none ∨ s.connection = some []) :
    Inv batches (s.step event) := by
  have hsame : Inv batches s := ⟨hans, .inl ⟨hdel, hover, hconn⟩⟩
  obtain ⟨executor, connection, received, failures⟩ := s
  cases executor with
  | failed e | pending context => exact hover.elim
  | idle =>
    cases event with
    | disconnect => exact ⟨hans, .inl ⟨hdel, trivial, .inl rfl⟩⟩
    | reattach => exact inv_restart_over hans hdel (.inl rfl) hover
    | _ => exact hsame
  | running task =>
    obtain ⟨context, status⟩ := task
    cases hover
    cases event with
    | receive =>
      rcases hconn with hc | hc <;> cases hc <;> exact hsame
    | disconnect => exact ⟨hans, .inl ⟨hdel, rfl, .inl rfl⟩⟩
    | release id | reattach => exact ⟨hans, .inl ⟨hdel, rfl, hconn⟩⟩
    | _ => exact hsame
  | pausing task =>
    cases task with
    | none =>
      cases event with
      | disconnect => exact ⟨hans, .inl ⟨hdel, trivial, .inl rfl⟩⟩
      | reattach => exact inv_restart_over hans hdel (.inr ⟨_, rfl⟩) hover
      | _ => exact hsame
    | some task =>
      cases event with
      | disconnect => exact ⟨hans, .inl ⟨hdel, trivial, .inl rfl⟩⟩
      | reattach => exact inv_restart_over hans hdel (.inr ⟨_, rfl⟩) hover
      | join =>
        obtain ⟨context, status⟩ := task
        cases hover
        refine inv_restart_over (s := ⟨.idle, connection, received, failures⟩) hans hdel
          (.inl rfl) trivial
      | release id | receive => exact hsame
      | _ =>
        obtain ⟨context, status⟩ := task
        cases hover
        exact hsame

theorem inv_receive (hexec : s.executor = .running task) (hrec : hasComplete s.received = false)
    (hgoing : TaskInv (nonEmpty batches) s.received s.connection task) :
    Inv batches s.receive := by
  obtain ⟨executor, connection, received, failures⟩ := s
  cases hexec
  match connection with
  | none | some [] => exact ⟨hans, .inr ⟨hrec, hgoing⟩⟩
  | some (out :: inFlight) =>
    cases hout : out.isComplete with
    | false =>
      refine ⟨hans, .inr ⟨?_, hgoing.receive⟩⟩
      show hasComplete (received ++ [out]) = false
      rw [hasComplete_append, hrec, Bool.false_or]
      simpa [hasComplete] using hout
    | true =>
      obtain ⟨rfl, hstatus, hall, hends, hstream⟩ := hgoing.receive_complete hout
      refine ⟨hans, .inl ⟨⟨?_, ?_⟩, hstatus, .inr rfl⟩⟩
      · show data (received ++ [out]) = nonEmpty batches
        rw [hall]
        exact hgoing.carries.data_eq hstream
      · show EndsComplete (received ++ [out])
        rw [hall]
        exact hends

end

/-- A task that has not made the last response leaves its context when it is stopped. -/
theorem join_eq_pending {total : List (List R)} {received : List (ExecutorOutput R)}
    {connection : Option (List (ExecutorOutput R))} (h : TaskInv total received connection task)
    (hopen : hasComplete task.context.produced = false) : task.join = .pending task.context := by
  obtain ⟨context, status⟩ := task
  cases status with
  | active sending after => rfl
  | paused => rfl
  | failed e => exact h.fits.elim
  | completed =>
    rw [h.fits.1.hasComplete] at hopen
    cases hopen

theorem inv_step {event : Event} (h : Inv batches s) (hallowed : s.Allowed event)
    (hres : s.Resumable event) : Inv batches (s.step event) := by
  obtain ⟨hans, ⟨hdel, hover, hconn⟩ | ⟨hrec, hgoing⟩⟩ := h
  · exact inv_step_over hans event hdel hover hconn
  have hsame : Inv batches s := ⟨hans, .inr ⟨hrec, hgoing⟩⟩
  obtain ⟨hreleased, hbound⟩ := hallowed
  obtain ⟨executor, connection, received, failures⟩ := s
  cases executor with
  | failed e | idle => exact hgoing.elim
  | pending context =>
    cases event with
    | disconnect => exact ⟨hans, .inr ⟨hrec, hgoing⟩⟩
    | release responseId =>
      obtain ⟨hkept, hcarries, hopen⟩ := hgoing
      refine ⟨hans, .inr ⟨hrec, hkept.release (hkept.released_lt hreleased),
        hcarries.release responseId, ?_⟩⟩
      rw [releaseContext_produced]
      exact hopen
    | reattach => exact inv_restart hans rfl hrec hgoing
    | _ => exact hsame
  | running task =>
    cases event with
    | send => exact ⟨hans, .inr ⟨hrec, hgoing.send hbound⟩⟩
    | item => exact ⟨hans, .inr ⟨hrec, hgoing.next hbound⟩⟩
    | heartbeat => exact ⟨hans, .inr ⟨hrec, hgoing.heartbeat hbound⟩⟩
    | receive => exact inv_receive hans rfl hrec hgoing
    | disconnect => exact ⟨hans, .inr ⟨hrec, hgoing.disconnect⟩⟩
    | release responseId =>
      exact ⟨hans, .inr ⟨hrec, hgoing.release (hgoing.kept.released_lt hreleased)⟩⟩
    | reattach => exact ⟨hans, .inr ⟨hrec, hgoing⟩⟩
    | join => exact hsame
  | pausing task =>
    cases task with
    | none => exact hgoing.elim
    | some task =>
      cases event with
      | send => exact ⟨hans, .inr ⟨hrec, hgoing.send hbound⟩⟩
      | item => exact ⟨hans, .inr ⟨hrec, hgoing.next hbound⟩⟩
      | heartbeat => exact ⟨hans, .inr ⟨hrec, hgoing.heartbeat hbound⟩⟩
      | disconnect | reattach => cases hres rfl hrec
      | join =>
        have hopen : hasComplete task.context.produced = false :=
          (Bool.not_eq_true' _).mp (hres rfl hrec)
        show Inv batches (restart ⟨task.join, connection, received, failures⟩)
        rw [join_eq_pending hgoing hopen]
        exact inv_restart hans rfl hrec ⟨hgoing.kept, hgoing.carries, hopen⟩
      | _ => exact hsame

end Execution

/-! ## Progress -/

/-- An upper bound on the responses still to be made, for a stream of `n` more batches. -/
def Resume.left (n : Nat) : Resume → Nat
  | .schema => n + 3
  | .next _ => n + 2
  | .complete => 1
  | .finish => 0

/-- A response is made, sent and received. -/
def ExecutorTask.rank (task : ExecutorTask R) : Nat :=
  match task.status with
  | .active sending after => 3 * after.left task.context.stream.length + 2 * sending.length
  | _ => 0

section

variable (context : ExecutorTaskContext R)

theorem rank_produce (batch : ExecutorBatch R) (after : Resume) :
    (ExecutorTask.produce context batch after).rank =
      3 * after.left context.stream.length + 2 := rfl

theorem rank_resume_le (after : Resume) :
    (resume context after).rank ≤ 3 * after.left context.stream.length := by
  cases after with
  | schema =>
    rw [resume, rank_produce]
    simp only [Resume.left]
    omega
  | next empty => exact le_rfl
  | complete => exact Nat.le_succ 2
  | finish => exact le_rfl

theorem length_resume_le (after : Resume) :
    (resume context after).context.produced.length ≤ context.produced.length + 1 := by
  cases after <;> simp [resume, ExecutorTask.produce, ExecutorTaskContext.saveOutput]

end

/-- The stream's answer makes one response, of those that were still to be made. -/
theorem next_waiting {total : List (List R)} (h : Carries total context) (empty : Bool) :
    (next ⟨context, .active [] (.next empty)⟩).rank < 3 * (context.stream.length + 2) ∧
      (next ⟨context, .active [] (.next empty)⟩).context.produced.length =
        context.produced.length + 1 := by
  obtain ⟨rest, hrest, -⟩ := h
  obtain ⟨stream, buffer, produced⟩ := context
  cases rest with
  | nil =>
    cases hrest
    cases empty with
    | true => exact ⟨Nat.lt_succ_self 5, length_append⟩
    | false => exact ⟨by show 2 < 6; omega, length_append⟩
  | cons rows rest =>
    cases hrest
    refine ⟨?_, length_append⟩
    show 3 * ((rest.map Except.ok).length + 2) + 2 < 3 * ((rest.map Except.ok).length + 1 + 2)
    omega

namespace Execution

def rank (s : Execution R) : Nat :=
  match s.executor, s.connection with
  | .running task, some inFlight => task.rank + inFlight.length
  | _, _ => 0

/-- What the run may do next. -/
def Good (s : Execution R) (event : Event) : Prop := s.Allowed event ∧ s.Resumable event

/-- Something may happen that brings an attached client nearer to what it lacks. -/
def Advances (batches : List (List R)) (s : Execution R) : Prop :=
  ∃ event, s.Good event ∧ (Inv batches (s.step event) ∧ (s.step event).Attached) ∧
    (s.step event).rank < s.rank

variable {batches : List (List R)} {s : Execution R}

theorem allowed {event : Event} (hrel : event.released = none)
    (hbound : (s.step event).executor.produced.length ≤ (s.step event).received.length + 128) :
    s.Allowed event := by
  refine ⟨fun id hid => ?_, hbound⟩
  rw [hrel] at hid
  cases hid

theorem advances (hexec : s.executor = .running task) (h : Inv batches s) (event : Event)
    (hrel : event.released = none)
    (hbound : (s.step event).executor.produced.length ≤ (s.step event).received.length + 128)
    (hatt : (s.step event).Attached) (hrank : (s.step event).rank < s.rank) :
    s.Advances batches := by
  have hallowed := allowed hrel hbound
  have hres : s.Resumable event := by
    intro hp
    rw [hexec] at hp
    cases hp
  exact ⟨event, ⟨hallowed, hres⟩, ⟨inv_step h hallowed hres, hatt⟩, hrank⟩

/-- With nothing in flight the task gets its next response sent, or makes one. -/
theorem advances_task {sending received : List (ExecutorOutput R)} {after : Resume}
    {failures : List (List (ExecutorOutput R) × String)}
    (h : Inv batches ⟨.running ⟨context, .active sending after⟩, some [], received, failures⟩)
    (hgoing : TaskInv (nonEmpty batches) received (some []) ⟨context, .active sending after⟩) :
    Advances batches ⟨.running ⟨context, .active sending after⟩, some [], received, failures⟩ := by
  have hlen := congrArg List.length (hgoing.flow [] rfl)
  simp only [append_nil, length_append, TaskStatus.sending] at hlen
  match sending, after with
  | out :: out' :: sending, after =>
    refine advances rfl h .send rfl hgoing.kept.bound ⟨_, _, rfl, rfl⟩ ?_
    show 3 * after.left context.stream.length + 2 * (sending.length + 1) + 1 <
      3 * after.left context.stream.length + 2 * (sending.length + 1 + 1) + 0
    omega
  | [out], after =>
    rw [length_singleton] at hlen
    have hmade := length_resume_le context after
    have hrank := rank_resume_le context after
    refine advances rfl h .send rfl ?_ ⟨_, _, rfl, rfl⟩ ?_
    · show (resume context after).context.produced.length ≤ received.length + 128
      omega
    · show (resume context after).rank + 1 <
        3 * after.left context.stream.length + 2 * 1 + 0
      omega
  | [], .schema =>
    rw [length_nil] at hlen
    have hmade := length_resume_le context .schema
    refine advances rfl h .send rfl ?_ ⟨_, _, rfl, rfl⟩ ?_
    · show (resume context .schema).context.produced.length ≤ received.length + 128
      omega
    · show 3 * (context.stream.length + 2) + 2 + 0 < 3 * (context.stream.length + 3) + 2 * 0 + 0
      omega
  | [], .next empty =>
    rw [length_nil] at hlen
    have hcarries : Carries (nonEmpty batches) context := hgoing.carries
    obtain ⟨hrank, hmade⟩ := next_waiting hcarries empty
    refine advances rfl h .item rfl ?_ ⟨_, _, rfl, rfl⟩ hrank
    show (next ⟨context, _⟩).context.produced.length ≤ received.length + 128
    omega
  | [], .complete => exact (hgoing.fits.2 rfl).elim
  | [], .finish => exact (hgoing.fits.2 rfl).elim

theorem advances_of_attached (h : Inv batches s) (hatt : s.Attached)
    (hrec : ¬ hasComplete s.received = true) : s.Advances batches := by
  obtain ⟨task, inFlight, hexec, hconn⟩ := hatt
  have hgoing := h.going (Bool.eq_false_iff.mpr hrec)
  obtain ⟨executor, connection, received, failures⟩ := s
  obtain ⟨context, status⟩ := task
  cases hexec
  cases hconn
  cases inFlight with
  | cons out inFlight =>
    have hbound := hgoing.receive.kept.bound
    exact advances rfl h .receive rfl hbound ⟨_, _, rfl, rfl⟩ (Nat.lt_succ_self _)
  | nil =>
    cases status with
    | paused => cases hgoing.paused rfl
    | failed e => exact hgoing.fits.elim
    | completed =>
      have hall : received = context.produced := by
        simpa [TaskStatus.sending] using hgoing.flow [] rfl
      exact absurd (hall ▸ hgoing.fits.1.hasComplete) hrec
    | active sending after => exact advances_task h hgoing

theorem restart_attached (hexec : s.executor = .pending context) (hkept : Kept context s.received) :
    s.restart.Attached ∧
      s.restart.executor.produced.length ≤ s.restart.received.length + 128 := by
  rw [restart_pending hexec]
  refine ⟨⟨_, _, rfl, rfl⟩, ?_⟩
  show (releaseContext context _).produced.length ≤ s.received.length + 128
  rw [releaseContext_produced]
  exact hkept.bound

/-- A reattach that waits for a task without the last response gets through. -/
theorem good_join (hexec : s.executor = .pausing (some task))
    (hgoing : TaskInv (nonEmpty batches) s.received s.connection task)
    (hopen : hasComplete task.context.produced = false) :
    s.Good .join ∧ (s.step .join).Attached := by
  have hstep : s.step .join = restart { s with executor := .pending task.context } := by
    show s.join = _
    rw [← join_eq_pending hgoing hopen]
    simp only [join, hexec]
  obtain ⟨hatt, hbound⟩ := restart_attached (s := { s with executor := .pending task.context }) rfl
    hgoing.kept
  rw [← hstep] at hatt hbound
  refine ⟨⟨allowed rfl hbound, fun _ _ => ?_⟩, hatt⟩
  show (!hasComplete s.executor.produced) = true
  rw [hexec]
  exact (Bool.not_eq_true' _).mpr hopen

/-- A client that is not attached reattaches, unless `ResultComplete` is already lost on it. -/
theorem exists_attached (h : Inv batches s) (hrec : hasComplete s.received = false)
    (hlost : hasComplete s.executor.produced = true → s.Attached) :
    ∃ events, Along step Good s events ∧ Inv batches (run step s events) ∧
      (run step s events).Attached := by
  have hgoing := h.going hrec
  have hopen : ¬ s.Attached → hasComplete s.executor.produced = false := by
    intro hn
    exact Bool.eq_false_iff.mpr fun hc => hn (hlost hc)
  obtain ⟨executor, connection, received, failures⟩ := s
  cases executor with
  | idle | failed e => exact hgoing.elim
  | pending context =>
    obtain ⟨hatt, hbound⟩ := restart_attached
      (s := ⟨.pending context, connection, received, failures⟩) rfl hgoing.1
    have hgood : Good ⟨.pending context, connection, received, failures⟩ .reattach :=
      ⟨allowed rfl hbound, fun hp => by cases hp⟩
    exact ⟨[.reattach], ⟨hgood, trivial⟩, inv_step h hgood.1 hgood.2, hatt⟩
  | running task =>
    cases connection with
    | some inFlight => exact ⟨[], trivial, h, _, _, rfl, rfl⟩
    | none =>
      have hgood : Good ⟨.running task, none, received, failures⟩ .reattach :=
        ⟨allowed rfl hgoing.kept.bound, fun hp => by cases hp⟩
      have hinv := inv_step h hgood.1 hgood.2
      obtain ⟨hjoin, hatt⟩ := good_join (s := ⟨.pausing (some task), none, received, failures⟩) rfl
        hgoing (hopen (by rintro ⟨_, _, _, h⟩; cases h))
      exact ⟨[.reattach, .join], ⟨hgood, hjoin, trivial⟩, inv_step hinv hjoin.1 hjoin.2, hatt⟩
  | pausing task =>
    cases task with
    | none => exact hgoing.elim
    | some task =>
      obtain ⟨hjoin, hatt⟩ := good_join
        (s := ⟨.pausing (some task), connection, received, failures⟩) rfl hgoing
        (hopen (by rintro ⟨_, _, h, _⟩; cases h))
      exact ⟨[.join], ⟨hjoin, trivial⟩, inv_step h hjoin.1 hjoin.2, hatt⟩

theorem exists_delivered (h : Inv batches s)
    (hlost : hasComplete s.executor.produced = true → s.Attached) :
    ∃ events, Along step Good s events ∧ (run step s events).Delivered batches := by
  cases hrec : hasComplete s.received with
  | true => exact ⟨[], trivial, h.delivered hrec⟩
  | false =>
    obtain ⟨events, hgood, hinv, hatt⟩ := exists_attached h hrec hlost
    obtain ⟨more, hgood', ⟨hinv', -⟩, hdone⟩ := exists_run_of_rank step Good
      (fun s => Inv batches s ∧ s.Attached) (fun s => hasComplete s.received = true) rank
      (fun s hs hd => advances_of_attached hs.1 hs.2 hd) (run step s events) ⟨hinv, hatt⟩
    refine ⟨events ++ more, (along_append ..).mpr ⟨hgood, hgood'⟩, ?_⟩
    rw [run_append]
    exact hinv'.delivered hdone

/-- What the client can rely on: only useless reattaches fail, what it has is a first part of the
result, and unless `ResultComplete` is lost on it the run can go on to deliver everything. -/
structure Delivers (batches : List (List R)) (s : Execution R) : Prop where
  answered : ∀ failure ∈ s.failures, hasComplete failure.1 = true
  data : data s.received <+: nonEmpty batches
  complete : hasComplete s.received = true → s.Delivered batches
  goes_on : (hasComplete s.executor.produced = true → s.Attached) →
    ∃ events, Along step Allowed s events ∧ Along step Resumable s events ∧
      (run step s events).Delivered batches

theorem Inv.delivers (h : Inv batches s) : Delivers batches s := by
  refine ⟨h.answered, ?_, h.delivered, ?_⟩
  · rcases h.state with hover | ⟨-, hgoing⟩
    · exact hover.1.1 ▸ prefix_rfl
    · exact hgoing.data_received
  · intro hlost
    obtain ⟨events, hgood, hdel⟩ := exists_delivered h hlost
    rw [along_iff] at hgood
    refine ⟨events, (along_iff ..).mpr ?_, (along_iff ..).mpr ?_, hdel⟩
    · intro before event after heq
      exact (hgood before event after heq).1
    · intro before event after heq
      exact (hgood before event after heq).2

theorem inv_new (batches : List (List R)) : Inv batches (new batches) := by
  refine inv_restart (fun failure hf => absurd hf not_mem_nil) rfl rfl ⟨?_, ?_, rfl⟩
  · refine ⟨?_, prefix_rfl, Nat.zero_le _, 0, Nat.le_refl 0, rfl⟩
    intro i out hi
    cases hi
  · exact ⟨batches, rfl, rfl⟩

/-- As long as every event is `Resumable` the client gets the result exactly once. -/
theorem delivers_run (batches : List (List R)) (events : List Event)
    (hallowed : Along step Allowed (new batches) events)
    (hres : Along step Resumable (new batches) events) :
    Delivers batches (run step (new batches) events) := by
  have hinv := along_inv step (fun s e => s.Allowed e ∧ s.Resumable e) (Inv batches)
    (fun s e hc hs => inv_step hs hc.1 hc.2) (new batches) events
    (along_and step hallowed hres) (inv_new batches)
  exact hinv.delivers

/-- The client leaves with the schema, comes back and gets the rest. -/
theorem delivered_after_reattach :
    Delivered [[7]] (run step (new [[7]]) [.send, .send, .receive, .disconnect, .item, .send,
      .reattach, .join, .send, .receive, .release (some 1), .send, .receive, .item, .send, .receive,
      .send, .receive]) :=
  (delivers_run [[7]] _ (by decide) (by decide)).complete (by decide)

/-- The task has sent `ResultComplete` and is gone when the client, which lost it, comes back. -/
theorem completed_unreceived :
    Along step Allowed (new [[7]]) [.send, .send, .receive, .item, .send, .receive, .item, .send,
      .disconnect, .reattach, .join] ∧
    ¬ Delivers [[7]] (run step (new [[7]]) [.send, .send, .receive, .item, .send, .receive, .item,
      .send, .disconnect, .reattach, .join]) := by
  refine ⟨by decide, fun h => ?_⟩
  have hfailed : ((run step (new [[7]]) [.send, .send, .receive, .item, .send, .receive, .item,
      .send, .disconnect, .reattach, .join]).failures.all fun f => hasComplete f.1) = false := by
    decide
  rw [all_eq_true.mpr h.answered] at hfailed
  cases hfailed

/-- Stopped while it sends `ResultComplete`: the new task sends it, and then a result of its own. -/
theorem complete_twice :
    (run step (new [[7]]) [.send, .send, .receive, .item, .send, .receive, .item, .disconnect,
      .send, .reattach, .join, .send, .receive, .send, .receive, .item, .send, .receive, .send,
      .receive]).received.map (·.batch) =
      [.schema, .arrowBatch [7], .complete, .schema, .arrowBatch [], .complete] := by
  decide

/-- The client leaves while its reattach waits for the task: the executor stays in `Pausing`. -/
theorem dropped_reattach :
    (run step (new [[7]]) [.send, .send, .reattach, .disconnect, .join, .reattach]).failures =
      [([], "task is being paused")] := by
  decide

end Execution

end Zelox.Connect
