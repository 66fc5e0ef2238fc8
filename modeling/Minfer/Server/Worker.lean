/-
The process around the worker (`server/worker.rs`, and the handlers of
`server/mod.rs`): any number of requests, the job channel between them and
the worker, the worker's incarnations, and the supervisor that watches
them.

# What a step is

A step is what one thread does between two points at which another may
interfere: a check, a send, a receive, a turn of the supervisor's drain
loop. `step` says when it can happen and what it leaves, so a run is a list
of steps and an interleaving is any of them.

The worker is as free as its contract lets it be: it takes queued jobs,
sends events for the jobs it holds, and gives each job up with one terminal
event. It may start to stall at any step, and then answers what it holds
and what is queued before it returns (`serve_loop`); it may return because
every sender is gone; and it may panic at any step, which drops what it
owns: the jobs it holds, the receiver, and the queue behind it.

A job's event channel is what was sent on it (`sent`), how much of it its
handler has received (`seen`), and whether its sender was dropped
(`closed`). The sender is dropped with the job.
-/
import Minfer.Server.Engine

namespace Minfer.Server

-- ========================== the worker

/-- `WorkerExit`. -/
inductive WorkerExit where
  | shutdown
  | stalled
  | panic
deriving Repr, DecidableEq

/-- `WorkerStatus`: running, or why the worker stopped. -/
abbrev WorkerStatus := Option WorkerExit

namespace WorkerStatus

/-- `is_stopped`. -/
def isStopped (status : WorkerStatus) : Bool := status.isSome

/-- `refusal_message`. -/
def refusalMessage : WorkerStatus → String
  | none => ""
  | some .shutdown => "the inference worker is down: the server is shutting down"
  | some .stalled =>
      ("the inference worker is down: it stopped making " ++
        "progress (see the server log)")
  | some .panic =>
      ("the inference worker is down: it stopped " ++
        "unexpectedly (see the server log)")

end WorkerStatus

/-- `MAX_WORKER_RESTARTS`. -/
def maxWorkerRestarts : Nat := 5

/-- `can_restart`. -/
def canRestart (exit : WorkerExit) (restarts maxRestarts : Nat) : Bool :=
  decide (exit = .stalled) && decide (restarts < maxRestarts)

/-- `WORKER_STALLED_MESSAGE`. -/
def workerStalledMessage : String := "the worker stalled"

/-- Where an incarnation of the worker is. -/
inductive WorkerPhase where
  | running
  /-- The no-progress bound tripped: answering everything before it returns. -/
  | stalling
  /-- Its loop returned the resources. -/
  | returned (exit : WorkerExit)
  /-- It unwound. -/
  | panicked
  /-- It was joined. -/
  | gone
deriving Repr, DecidableEq

/-- Where `run_supervisor` is. -/
inductive SupervisorPhase where
  /-- In `handle.join()`. -/
  | joining
  /-- In the loop that answers the queue. -/
  | draining (exit : WorkerExit)
  /-- Out of the loop, still holding the resources. -/
  | leaving
  /-- In the backoff before a restart. -/
  | restarting
  | ended
deriving Repr, DecidableEq

-- ======================== the handlers

/-- `toolcall::Parser`, as `stream_response` drives it: what it makes of the
text fed to it, and its end. -/
structure CallParser where
  State : Type
  Item : Type
  new : State
  feed : State → List Char → State × List Item
  finish : State → Except String (List Item)
  isCall : Item → Bool

/-- One frame of an SSE stream; an `item` stands for the chunks `push_parsed`
makes of one parser event. -/
inductive Frame (P : CallParser) where
  | role
  | item (i : P.Item)
  | finish (reason : String)
  | error (e : ApiError)
  | done

/-- The state of a stream's closure: the frames written so far, the parser
until its end, and whether a call was seen. -/
structure StreamState (P : CallParser) where
  frames : List (Frame P)
  parser : Option P.State
  sawCall : Bool

/-- The text of a finish reason. -/
def FinishReason.text : FinishReason → String
  | .stop => "stop"
  | .length => "length"

namespace StreamState

variable {P : CallParser}

/-- The role chunk, before any event. -/
def start : StreamState P := ⟨[.role], some P.new, false⟩

/-- `push_parsed`, over a batch of parser events. -/
def push (st : StreamState P) (items : List P.Item) : StreamState P :=
  { st with frames := st.frames ++ items.map .item
            sawCall := st.sawCall || items.any P.isCall }

/-- What `stream_response` does with one event. -/
def event (st : StreamState P) : StreamEvent → StreamState P
  | .text chunk =>
      match st.parser with
      | none => st
      | some p => { st with parser := some (P.feed p chunk).1 }.push
          (P.feed p chunk).2
  | .finish reason _ =>
      let closing (st : StreamState P) : StreamState P :=
        { st with frames :=
          st.frames ++ [.finish
            (if st.sawCall then "tool_calls" else reason.text)] }
      match st.parser with
      | none => closing st
      | some p =>
          match P.finish p with
          | .ok items => closing ({ st with parser := none }.push items)
          | .error e =>
              { st with parser := none
                        frames := st.frames ++ [.error (ApiError.invalidRequest e)] }
  | .err e => { st with frames := st.frames ++ [.error e] }

end StreamState

/-- What `collect_response` has put together. -/
structure Collected where
  text : List Char
  reason : String
  completionTokens : Nat
deriving Repr, DecidableEq

namespace Collected

def start : Collected := ⟨[], "stop", 0⟩

/-- One turn of the loop of `collect_response`. -/
def event (c : Collected) : StreamEvent → Except ApiError Collected
  | .text chunk => .ok { c with text := c.text ++ chunk }
  | .finish reason tokens =>
      .ok { c with reason := reason.text, completionTokens := tokens }
  | .err e => .error e

end Collected

/-- Where a handler of `chat_completions` is. -/
inductive HandlerPhase (P : CallParser) where
  /-- Before the `draining` check. -/
  | arrived
  /-- Before the `is_stopped` check. -/
  | checked
  /-- Past both: parsing, rendering, tokenizing, then awaiting the send. -/
  | preparing
  /-- In `collect_response`. -/
  | collecting (c : Collected)
  /-- In the stream of `stream_response`. -/
  | streaming (st : StreamState P)
  /-- Answered with an error. -/
  | refused (e : ApiError)
  /-- `collect_response` returned `Ok`. -/
  | completed (c : Collected)
  /-- The stream ended. -/
  | streamed (frames : List (Frame P))

/-- One request: its handler, and the event channel of its job. -/
structure Handler (P : CallParser) where
  stream : Bool
  phase : HandlerPhase P
  /-- The job went into the channel. -/
  accepted : Bool
  sent : List StreamEvent
  seen : Nat
  closed : Bool

namespace Handler

variable {P : CallParser}

/-- The handler still keeps the application's state, and with it the job
channel's sender: a stream gives it up with its response. -/
def holdsSender (h : Handler P) : Bool :=
  match h.phase with
  | .arrived | .checked | .preparing | .collecting _ => true
  | .streaming _ | .refused _ | .completed _ | .streamed _ => false

/-- An event on the job's channel. -/
def emit (h : Handler P) (ev : StreamEvent) : Handler P :=
  { h with sent := h.sent ++ [ev] }

/-- The job was dropped, and its event sender with it. -/
def close (h : Handler P) : Handler P := { h with closed := true }

/-- Answer the request with an error. -/
def refuse (h : Handler P) (e : ApiError) : Handler P :=
  { h with phase := .refused e }

/-- The job is in the channel: read its events. -/
def accept (h : Handler P) : Handler P :=
  { h with accepted := true
           phase := if h.stream then .streaming .start else .collecting .start }

/-- `rx.recv()`: the next event, or the end once the sender is gone; nothing
while the channel is open and empty. -/
def recv (h : Handler P) : Option (Handler P) :=
  match h.phase with
  | .collecting c =>
      match h.sent[h.seen]? with
      | some ev =>
          match c.event ev with
          | .ok c => some { h with seen := h.seen + 1, phase := .collecting c }
          | .error e => some { h with seen := h.seen + 1, phase := .refused e }
      | none => if h.closed then some { h with phase := .completed c } else none
  | .streaming st =>
      match h.sent[h.seen]? with
      | some ev =>
          some { h with seen := h.seen + 1, phase := .streaming (st.event ev) }
      | none => if h.closed
          then some { h with phase := .streamed (st.frames ++ [.done]) }
          else none
  | _ => none

end Handler

-- ========================= the process

/-- The capacity of the job channel. -/
def jobChannelCapacity : Nat := 64

/-- The capacity of a job's event channel. -/
def eventChannelCapacity : Nat := 64

/-- The whole process. Jobs go by the index of their handler. -/
structure Process (P : CallParser) where
  /-- The server accepts connections, and holds the channel's sender. -/
  serving : Bool
  /-- `metrics.draining`. -/
  draining : Bool
  status : WorkerStatus
  handlers : List (Handler P)
  /-- The job channel. -/
  queue : List Nat
  /-- The receiving end of the job channel exists. -/
  receiver : Bool
  worker : WorkerPhase
  /-- The jobs the worker has taken and not given up. -/
  held : List Nat
  supervisor : SupervisorPhase
  restarts : Nat

/-- One step of one thread. -/
inductive ProcessStep where
  -- the server
  | arrive (stream : Bool)
  | drain
  | stopServing
  -- a handler
  | checkDraining (i : Nat)
  | checkStopped (i : Nat)
  | refuseRequest (i : Nat) (e : ApiError)
  | send (i : Nat)
  | recv (i : Nat)
  -- the worker
  | take
  | text (i : Nat) (chunk : List Char)
  | finish (i : Nat) (reason : FinishReason) (tokens : Nat)
  | fail (i : Nat) (e : ApiError)
  | stall
  | rejectQueued
  | returnStalled
  | returnShutdown
  | panic
  -- the supervisor
  | join
  | refuseQueued
  | drained
  | respawn
  | release

namespace Process

variable {P : CallParser}

/-- A server with its first worker running, and no request yet. -/
def start : Process P where
  serving := true
  draining := false
  status := none
  handlers := []
  queue := []
  receiver := true
  worker := .running
  held := []
  supervisor := .joining
  restarts := 0

/-- Change one handler. -/
def modify (s : Process P) (i : Nat) (f : Handler P → Handler P) : Process P :=
  { s with handlers := s.handlers.modify i f }

/-- Every sender of the job channel is gone. -/
def sendersGone (s : Process P) : Bool :=
  !s.serving && s.handlers.all (!·.holdsSender)

/-- Drop jobs, with whatever was sent to them. -/
def dropJobs (s : Process P) (jobs : List Nat) : Process P :=
  jobs.foldl (fun s i => s.modify i .close) s

/-- An event of the worker for a job it holds, when there is room for it. -/
def workerSends (s : Process P) (i : Nat) (ev : StreamEvent) : Option (Process P) :=
  match s.handlers[i]? with
  | none => none
  | some h =>
      if (s.worker = .running ∨ s.worker = .stalling) ∧ i ∈ s.held
          ∧ h.sent.length < h.seen + eventChannelCapacity then
        some (s.modify i (·.emit ev))
      else none

/-- The job's last event: the worker gives the job up with it. -/
def workerEnds (s : Process P) (i : Nat) (ev : StreamEvent) : Option (Process P) :=
  (s.workerSends i ev).map fun s => { s.modify i .close with held := s.held.erase i }

/-- Answer the oldest queued job with an error and drop it. -/
def answerQueued (s : Process P) (e : ApiError) : Option (Process P) :=
  match s.queue with
  | [] => none
  | i :: rest =>
      some { s.modify i fun h => (h.emit (.err e)).close with queue := rest }

/-- One step, when it can happen. `maxRestarts` is the restart policy's. -/
def step (maxRestarts : Nat) (s : Process P) : ProcessStep → Option (Process P)
  | .arrive stream =>
      if s.serving then
        some { s with handlers :=
          s.handlers ++ [⟨stream, .arrived, false, [], 0, false⟩] }
      else none
  | .drain => some { s with draining := true }
  | .stopServing => some { s with serving := false }
  | .checkDraining i =>
      match s.handlers[i]? with
      | some ⟨_, .arrived, _, _, _, _⟩ =>
          if s.draining
            then some (s.modify i
              (·.refuse (.unavailable "server is draining")))
          else some (s.modify i fun h => { h with phase := .checked })
      | _ => none
  | .checkStopped i =>
      match s.handlers[i]? with
      | some ⟨_, .checked, _, _, _, _⟩ =>
          if s.status.isStopped then
            some (s.modify i (·.refuse (.unavailable s.status.refusalMessage)))
          else some (s.modify i fun h => { h with phase := .preparing })
      | _ => none
  | .refuseRequest i e =>
      match s.handlers[i]? with
      | some ⟨_, .preparing, _, _, _, _⟩ => some (s.modify i (·.refuse e))
      | _ => none
  | .send i =>
      match s.handlers[i]? with
      | some ⟨_, .preparing, _, _, _, _⟩ =>
          if !s.receiver
            then some (s.modify i
              (·.refuse (.unavailable "server shutting down")))
          else if s.queue.length < jobChannelCapacity then
            some { s.modify i .accept with queue := s.queue ++ [i] }
          else none
      | _ => none
  | .recv i =>
      match s.handlers[i]? with
      | some h => h.recv.map fun h => s.modify i fun _ => h
      | none => none
  | .take =>
      match s.worker, s.queue with
      | .running, i :: rest => some { s with queue := rest, held := s.held ++ [i] }
      | _, _ => none
  | .text i chunk => s.workerSends i (.text chunk)
  | .finish i reason tokens =>
      if s.worker = .running then s.workerEnds i (.finish reason tokens) else none
  | .fail i e => s.workerEnds i (.err e)
  | .stall => if s.worker = .running then some { s with worker := .stalling }
      else none
  | .rejectQueued =>
      if s.worker = .stalling ∧ s.held = [] then
        s.answerQueued (.server workerStalledMessage)
      else none
  | .returnStalled =>
      -- `try_recv` found nothing; what is sent from here on stays queued
      if s.worker = .stalling ∧ s.held = [] ∧ s.queue = [] then
        some { s with worker := .returned .stalled }
      else none
  | .returnShutdown =>
      -- the channel is closed, with or without jobs left in it
      if s.worker = .running ∧ s.held = [] ∧ s.sendersGone then
        some { s with worker := .returned .shutdown }
      else none
  | .panic =>
      if s.worker = .running ∨ s.worker = .stalling then
        some { s.dropJobs (s.held ++ s.queue) with
               worker := .panicked, held := [], queue := [], receiver := false }
      else none
  | .join =>
      match s.supervisor, s.worker with
      | .joining, .returned exit =>
          some { s with
            worker := .gone, status := some exit, supervisor := .draining exit }
      | .joining, .panicked =>
          -- no resources: nothing to answer, and no restart
          some { s with worker := .gone, status := some .panic, supervisor := .ended }
      | _, _ => none
  | .refuseQueued =>
      match s.supervisor with
      | .draining _ => s.answerQueued (.unavailable s.status.refusalMessage)
      | _ => none
  | .drained =>
      match s.supervisor, s.queue with
      | .draining exit, [] =>
          if exit ≠ .shutdown ∧ canRestart exit s.restarts maxRestarts then
            some { s with supervisor := .restarting, restarts := s.restarts + 1 }
          else some { s with supervisor := .leaving }
      | _, _ => none
  | .respawn =>
      match s.supervisor with
      | .restarting =>
          some { s with status := none, worker := .running, supervisor :=
            .joining }
      | _ => none
  | .release =>
      match s.supervisor with
      | .leaving =>
          some { s.dropJobs s.queue with
            queue := [], receiver := false, supervisor := .ended }
      | _ => none

/-- A run of steps. -/
def run (maxRestarts : Nat) (s : Process P) : List ProcessStep → Option (Process P)
  | [] => some s
  | x :: rest =>
      match s.step maxRestarts x with
      | some s => s.run maxRestarts rest
      | none => none

end Process
end Minfer.Server
