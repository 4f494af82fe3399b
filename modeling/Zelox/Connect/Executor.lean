import Zelox.Lib.Runs

/-!
# Reattachable execution

`Executor` of the Spark Connect server: a task reads the result stream, saves every response in a
buffer of the last 128 and sends it to the client.  When the client is gone the task stops, and its
context is kept.  A client that reattaches says which response it received last: the task is
paused, the buffer is cut behind that response, and a new task replays what is left of it and goes
on from there, beginning again with a schema.

A step of the model is one thing that can happen between two `await`s: the task gets a response
sent, the stream answers, the heartbeat fires, the client receives, leaves, releases or
reattaches, and the call that pauses the task gets its result.  Channel and network are one list
of responses in flight, which the client loses when it leaves.  Responses are numbered where the
source draws a UUID, so the context also counts those.
-/

namespace Zelox.Connect

variable {R : Type}

/-- The responses that a task makes; a batch is given by its rows. -/
inductive ExecutorBatch (R : Type) where
  | schema
  | arrowBatch (rows : List R)
  | complete
deriving DecidableEq

structure ExecutorOutput (R : Type) where
  id : Nat
  batch : ExecutorBatch R
deriving DecidableEq

structure ExecutorBuffer (R : Type) where
  inner : List (ExecutorOutput R)

namespace ExecutorBuffer

/-- `VecDeque::with_capacity(128)`. -/
def capacity : Nat := 128

def add (buffer : ExecutorBuffer R) (output : ExecutorOutput R) : ExecutorBuffer R :=
  ⟨(if capacity ≤ buffer.inner.length then buffer.inner.drop 1 else buffer.inner) ++ [output]⟩

def removeUntil (buffer : ExecutorBuffer R) (id : Nat) : ExecutorBuffer R :=
  match buffer.inner.findIdx? (·.id == id) with
  | some index => ⟨buffer.inner.drop (index + 1)⟩
  | none => buffer

end ExecutorBuffer

/-- `produced` is not in the source: all responses made for the operation. -/
structure ExecutorTaskContext (R : Type) where
  stream : List (Except String (List R))
  buffer : ExecutorBuffer R
  produced : List (ExecutorOutput R)

namespace ExecutorTaskContext

def new (stream : List (Except String (List R))) : ExecutorTaskContext R := ⟨stream, ⟨[]⟩, []⟩

def saveOutput (context : ExecutorTaskContext R) (output : ExecutorOutput R) :
    ExecutorTaskContext R :=
  { context with
    buffer := context.buffer.add output
    produced := context.produced ++ [output] }

def replayOutputs (context : ExecutorTaskContext R) : List (ExecutorOutput R) :=
  context.buffer.inner

end ExecutorTaskContext

/-- Where `run_internal` goes on once its responses are sent; `empty`: no batch has been sent yet.
-/
inductive Resume where
  | schema
  | next (empty : Bool)
  | complete
  | finish

/-- A task that sends `sending` and then goes on, or the result that it has ended with. -/
inductive TaskStatus (R : Type) where
  | active (sending : List (ExecutorOutput R)) (after : Resume)
  | paused
  | failed (error : String)
  | completed

structure ExecutorTask (R : Type) where
  context : ExecutorTaskContext R
  status : TaskStatus R

/-- `Pausing` has the task that the waiting call owns; it is gone if that call is dropped. -/
inductive ExecutorState (R : Type) where
  | idle
  | pending (context : ExecutorTaskContext R)
  | running (task : ExecutorTask R)
  | pausing (task : Option (ExecutorTask R))
  | failed (error : String)

namespace ExecutorTask

/-- `ExecutorOutput::new`, `save_output` and the `send` that follows. -/
def produce (context : ExecutorTaskContext R) (batch : ExecutorBatch R) (after : Resume) :
    ExecutorTask R :=
  ⟨context.saveOutput ⟨context.produced.length, batch⟩,
    .active [⟨context.produced.length, batch⟩] after⟩

/-- From one `await` of `run_internal` to the next. -/
def resume (context : ExecutorTaskContext R) : Resume → ExecutorTask R
  | .schema => produce context .schema (.next true)
  | .next empty => ⟨context, .active [] (.next empty)⟩
  | .complete => produce context .complete .finish
  | .finish => ⟨context, .completed⟩

def proceed (context : ExecutorTaskContext R) (sending : List (ExecutorOutput R))
    (after : Resume) : ExecutorTask R :=
  match sending with
  | [] => resume context after
  | _ :: _ => ⟨context, .active sending after⟩

/-- The task as `tokio::spawn` has it, before anything of `run_internal` is done. -/
def spawn (context : ExecutorTaskContext R) : ExecutorTask R :=
  ⟨context, .active context.replayOutputs .schema⟩

/-- `tx.send(out).await?`: without a receiver the task ends in `SendError`, that is `Paused`. -/
def send (task : ExecutorTask R) (connection : Option (List (ExecutorOutput R))) :
    ExecutorTask R × Option (List (ExecutorOutput R)) :=
  match task.status, connection with
  | .active [] after, _ => (resume task.context after, connection)
  | .active (out :: sending) after, some inFlight =>
    (proceed task.context sending after, some (inFlight ++ [out]))
  | .active (_ :: _) _, none => (⟨task.context, .paused⟩, none)
  | _, _ => (task, connection)

/-- `context.next()` with the stream's answer; a stream that has ended says so again. -/
def next (task : ExecutorTask R) : ExecutorTask R :=
  match task.status, task.context.stream with
  | .active [] (.next empty), [] =>
    if empty then produce task.context (.arrowBatch []) .complete
    else produce task.context .complete .finish
  | .active [] (.next _), .ok rows :: stream =>
    produce { task.context with stream := stream } (.arrowBatch rows) (.next false)
  | .active [] (.next _), .error e :: stream =>
    ⟨{ task.context with stream := stream }, .failed e⟩
  | _, _ => task

/-- `context.next()` after the heartbeat interval. -/
def heartbeat (task : ExecutorTask R) : ExecutorTask R :=
  match task.status with
  | .active [] (.next _) => produce task.context (.arrowBatch []) (.next false)
  | _ => task

/-- `task.handle.await` in `pause_if_running`: a task that has not ended is stopped where it stands.
-/
def join (task : ExecutorTask R) : ExecutorState R :=
  match task.status with
  | .active _ _ => .pending task.context
  | .paused => .pending task.context
  | .completed => .idle
  | .failed e => .failed e

end ExecutorTask

namespace ExecutorState

def start : ExecutorState R → ExecutorState R × Option String
  | .pending context => (.running (.spawn context), none)
  | .failed e => (.failed "task failed due to a previous error", some e)
  | .idle => (.idle, some "task context not found for operation")
  | .running task => (.running task, some "task is already running")
  | .pausing task => (.pausing task, some "task is being paused")

def releaseContext (context : ExecutorTaskContext R) (responseId : Option Nat) :
    ExecutorTaskContext R :=
  match responseId with
  | some id => { context with buffer := context.buffer.removeUntil id }
  | none => context

def release (responseId : Option Nat) : ExecutorState R → ExecutorState R
  | .running task => .running { task with context := releaseContext task.context responseId }
  | .pending context => .pending (releaseContext context responseId)
  | state => state

/-- The responses made so far, as long as there is a context. -/
def produced : ExecutorState R → List (ExecutorOutput R)
  | .pending context => context.produced
  | .running task => task.context.produced
  | .pausing (some task) => task.context.produced
  | _ => []

def mapTask (f : ExecutorTask R → ExecutorTask R) : ExecutorState R → ExecutorState R
  | .running task => .running (f task)
  | .pausing (some task) => .pausing (some (f task))
  | state => state

end ExecutorState

/-- The operation and its client; the connection holds what is sent and not yet received. -/
structure Execution (R : Type) where
  executor : ExecutorState R
  connection : Option (List (ExecutorOutput R))
  received : List (ExecutorOutput R)
  failures : List (List (ExecutorOutput R) × String)

inductive Event where
  /-- The task gets its next response sent. -/
  | send
  /-- The stream answers with its next batch, or its end. -/
  | item
  | heartbeat
  /-- The client receives the next response. -/
  | receive
  /-- The client leaves, and with it the receiver of its call. -/
  | disconnect
  | release (responseId : Option Nat)
  /-- A reattach arrives, with the last response received. -/
  | reattach
  /-- A reattach that waits for the task gets its result. -/
  | join
deriving DecidableEq

/-- The response up to which the client releases. -/
def Event.released : Event → Option Nat
  | .release responseId => responseId
  | _ => none

namespace Execution

/-- The rest of `handle_reattach_execute` once the task is paused. -/
def restart (s : Execution R) : Execution R :=
  match (s.executor.release (s.received.getLast?.map (·.id))).start with
  | (executor, none) => { s with executor := executor, connection := some [] }
  | (executor, some e) =>
    { s with
      executor := executor
      connection := none
      failures := s.failures ++ [(s.received, e)] }

/-- `Executor::new` and `start`, for a stream that gives the batches. -/
def new (batches : List (List R)) : Execution R :=
  restart ⟨.pending (.new (batches.map .ok)), none, [], []⟩

def send (s : Execution R) : Execution R :=
  match s.executor with
  | .running task =>
    { s with
      executor := .running (task.send s.connection).1
      connection := (task.send s.connection).2 }
  | .pausing (some task) =>
    { s with
      executor := .pausing (some (task.send s.connection).1)
      connection := (task.send s.connection).2 }
  | _ => s

/-- A client that waits for its reattach does not read the old connection any more. -/
def receive (s : Execution R) : Execution R :=
  match s.executor, s.connection with
  | .running _, some (out :: inFlight) =>
    { s with connection := some inFlight, received := s.received ++ [out] }
  | _, _ => s

def disconnect (s : Execution R) : Execution R :=
  match s.executor with
  | .pausing _ => { s with executor := .pausing none, connection := none }
  | _ => { s with connection := none }

/-- `handle_reattach_execute` up to the point where it waits, or to its end. -/
def reattach (s : Execution R) : Execution R :=
  match s.executor with
  | .running task => { s with executor := .pausing (some task) }
  | _ => s.restart

def join (s : Execution R) : Execution R :=
  match s.executor with
  | .pausing (some task) => { s with executor := task.join }.restart
  | _ => s

def step (s : Execution R) : Event → Execution R
  | .send => s.send
  | .item => { s with executor := s.executor.mapTask .next }
  | .heartbeat => { s with executor := s.executor.mapTask .heartbeat }
  | .receive => s.receive
  | .disconnect => s.disconnect
  | .release responseId => { s with executor := s.executor.release responseId }
  | .reattach => s.reattach
  | .join => s.join

end Execution

end Zelox.Connect
