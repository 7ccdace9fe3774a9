import Cusco.SchedulerPolicy

/-!
The workload scheduler. One thread owns the jobs, the slots and the fair policy; it
dispatches quanta until none can be selected and then handles one event, a command of a
client or the completion of a task. A slot executes its tasks in the order they were sent.
What a session returns, whether a thread can be spawned and when a client goes away are
left open. A client is the channel to it: the messages sent while it listens, and how many
tokens it has acknowledged by asking to continue or to stop.
-/

namespace Cusco.Scheduler

open Admission (ControlState)
open Infer (Error EngineOutput)
open SchedulerPolicy

structure ModelSlotKey where
  modelId : String
  modelEpoch : ℕ
  deriving DecidableEq

/-- What the scheduler reads of a request. -/
structure EngineRequest where
  modelId : String
  modelEpoch : ℕ
  principal : String
  schedulingClass : SchedulingClass
  deriving DecidableEq

namespace EngineRequest

def flow (r : EngineRequest) : FlowKey := ⟨r.principal, r.schedulingClass⟩

def slot (r : EngineRequest) : ModelSlotKey := ⟨r.modelId, r.modelEpoch⟩

end EngineRequest

inductive ClientMessage
  | token (id : ℤ) (piece : List UInt8) (terminalOrControl : Bool)
  | finished (output : EngineOutput)
  | failed (error : Error)
  deriving DecidableEq

namespace ClientMessage

def isToken : ClientMessage → Bool
  | token .. => true
  | _ => false

end ClientMessage

/-- A step of a session, with the tokens its observation charges. -/
inductive SessionStep
  | progress (chargedTokens : ℕ)
  | token (id : ℤ) (piece : List UInt8) (terminalOrControl : Bool) (chargedTokens : ℕ)
  | finished (output : EngineOutput)
  deriving DecidableEq

/-- A session of the engine, by its identity. -/
abbrev Session := ℕ

inductive SlotAction
  | start (request : EngineRequest)
  | step (session : Session)
  | finish (session : Session)
  deriving DecidableEq

/-- A task, with the slot it was sent to. -/
structure SlotTask where
  slot : ModelSlotKey
  id : ℕ
  action : SlotAction
  selection : Option Selection
  deriving DecidableEq

/-- A slot's thread holds the receiver of its tasks until it is shut down. -/
structure SlotWorker where
  receiving : Bool
  busy : Bool
  deriving DecidableEq

structure Job where
  request : Option EngineRequest
  session : Option Session
  control : ControlState
  flow : FlowKey
  slot : ModelSlotKey
  admittedRound : ℕ
  inFlight : Bool
  cancelRequested : Bool
  deriving DecidableEq

namespace Job

def submitted (request : EngineRequest) (round : ℕ) : Job :=
  ⟨some request, none, .running, request.flow, request.slot, round, false, false⟩

/-- The action of the next quantum; a started job has its session. -/
def takeAction (job : Job) : Option (SlotAction × Job) :=
  match job.request, job.session with
  | some request, _ => some (.start request, { job with request := none, inFlight := true })
  | none, some session => some (.step session, { job with session := none, inFlight := true })
  | none, none => none

def requestCancel (job : Job) : Job :=
  { job with control := job.control.cancel, cancelRequested := true }

end Job

structure SchedulerCounters where
  admitted : ℕ
  completed : ℕ
  cancelled : ℕ
  deadlines : ℕ
  failed : ℕ
  waiting : ℕ
  deriving DecidableEq

/-- `fetch_add` of one on an atomic word, which wraps. -/
def fetchAdd (n : ℕ) : ℕ := if n = u64Max then 0 else n + 1

/-- `fetch_sub` of one on an atomic word, which wraps. -/
def fetchSub (n : ℕ) : ℕ := if n = 0 then u64Max else n - 1

namespace SchedulerCounters

def count (result : Except Error EngineOutput) (c : SchedulerCounters) : SchedulerCounters :=
  match result with
  | .ok _ => { c with completed := c.completed + 1 }
  | .error (.admission .cancelled) => { c with cancelled := c.cancelled + 1 }
  | .error (.admission .deadline) => { c with deadlines := c.deadlines + 1 }
  | .error _ => { c with failed := c.failed + 1 }

end SchedulerCounters

structure Client where
  messages : List ClientMessage
  acked : ℕ
  listening : Bool
  deriving DecidableEq

namespace Client

def tokens (c : Client) : ℕ := c.messages.countP ClientMessage.isToken

/-- A message reaches a client that still listens. -/
def receive (message : ClientMessage) (c : Client) : Client :=
  if c.listening then { c with messages := c.messages ++ [message] } else c

end Client

structure State where
  policy : FairPolicy
  jobs : Table ℕ Job
  slots : Table ModelSlotKey SlotWorker
  tasks : List SlotTask
  counters : SchedulerCounters
  clients : Table ℕ Client
  shuttingDown : Bool
  exited : Bool

def cancelled : Error := .admission .cancelled

def shuttingDown : Error := .admission .shuttingDown

def workerStopped : Error := Infer.state "model slot worker stopped"

def workerPanicked : Error := Infer.state "model slot worker panicked"

/-- What can come back for an action: a started session makes progress, a step returns its
session unless the worker panicked, and a finished session is gone. -/
def yields : SlotAction → Except Error SessionStep → Option Session → Bool
  | .start _, .ok (.progress 1), some _ => true
  | .start _, .error _, none => true
  | .step session, _, some returned => session = returned
  | .step _, .error e, none => e = workerPanicked
  | .finish _, .ok (.finished _), none => true
  | .finish _, .error _, none => true
  | _, _, _ => false

/-- What a completed quantum means for its job. -/
inductive Outcome
  | terminal (result : Except Error EngineOutput)
  | wait (message : ClientMessage)
  | again

def outcome (cancelRequested listening : Bool) : Except Error SessionStep → Outcome
  | .ok (.progress _) => if cancelRequested then .terminal (.error cancelled) else .again
  | .ok (.token id piece control _) =>
    if cancelRequested || !listening then .terminal (.error cancelled)
    else .wait (.token id piece control)
  | .ok (.finished output) =>
    .terminal (if cancelRequested then .error cancelled else .ok output)
  | .error e => .terminal (if cancelRequested then .error cancelled else .error e)

def chargedTokens : Except Error SessionStep → ℕ
  | .ok (.progress n) => n
  | .ok (.token _ _ _ n) => n
  | _ => 1

def terminalMessage : Except Error EngineOutput → ClientMessage
  | .ok output => .finished output
  | .error e => .failed e

namespace State

def initial (config : SchedulerPolicyConfig) : State :=
  ⟨FairPolicy.new config, ∅, ∅, [], ⟨0, 0, 0, 0, 0, 0⟩, ∅, false, false⟩

section Pieces

def post (id : ℕ) (message : ClientMessage) (s : State) : State :=
  { s with clients := s.clients.modify id (Client.receive message) }

def listens (s : State) (id : ℕ) : Bool := (s.clients.lookup id).any Client.listening

def putJob (id : ℕ) (job : Job) (s : State) : State := { s with jobs := s.jobs.insert id job }

def removeJob (id : ℕ) (s : State) : State := { s with jobs := s.jobs.erase id }

def enqueue (id : ℕ) (job : Job) (s : State) : State :=
  { s with policy := s.policy.enqueue id job.flow job.admittedRound }

def unqueue (id : ℕ) (s : State) : State := { s with policy := (s.policy.remove id).2 }

def addWaiting (s : State) : State :=
  { s with counters := { s.counters with waiting := fetchAdd s.counters.waiting } }

def subWaiting (s : State) : State :=
  { s with counters := { s.counters with waiting := fetchSub s.counters.waiting } }

def sendTerminal (id : ℕ) (result : Except Error EngineOutput) (s : State) : State :=
  { s.post id (terminalMessage result) with counters := s.counters.count result }

def clearIfIdle (flow : FlowKey) (s : State) : State :=
  { s with policy := s.policy.clearIfIdle flow (s.jobs.values.map Job.flow) }

def retireSlotIfIdle (key : ModelSlotKey) (s : State) : State :=
  if s.jobs.values.any (fun job => job.slot = key) then s
  else { s with slots := s.slots.erase key }

end Pieces

section Slots

/-- The worker of a slot, spawned if there is none; spawning may fail with a message. -/
def ensureSlot (key : ModelSlotKey) (spawn : Option String) (s : State) :
    Except Error SlotWorker :=
  match s.slots.lookup key, spawn with
  | some worker, _ => .ok worker
  | none, none => .ok ⟨true, false⟩
  | none, some message => .error (Infer.state message)

/-- The slot is marked busy before the task is sent. -/
def sendTask (task : SlotTask) (worker : SlotWorker) (s : State) : Except Error Unit × State :=
  let marked := { s with slots := s.slots.insert task.slot { worker with busy := true } }
  if worker.receiving then (.ok (), { marked with tasks := s.tasks ++ [task] })
  else (.error workerStopped, marked)

/-- Send a task to its slot; a job whose task cannot be sent is removed. -/
def assign (task : SlotTask) (spawn : Option String) (s : State) : State :=
  match s.ensureSlot task.slot spawn with
  | .error e => (s.removeJob task.id).sendTerminal task.id (.error e)
  | .ok worker =>
    match s.sendTask task worker with
    | (.ok (), s') => s'
    | (.error e, s') => (s'.removeJob task.id).sendTerminal task.id (.error e)

end Slots

/-- The job can be dispatched: it is not in flight and its slot is not busy. -/
def available (s : State) (id : ℕ) : Bool :=
  (s.jobs.lookup id).any (fun job =>
    !job.inFlight && !(s.slots.lookup job.slot).any SlotWorker.busy)

def dispatchOne (spawn : Option String) (s : State) : Option State :=
  (s.policy.select s.available).bind (fun x =>
    (s.jobs.lookup x.1.id).bind (fun job =>
      job.takeAction.map (fun y =>
        ({ s with policy := x.2 }.putJob x.1.id y.2).assign
          ⟨job.slot, x.1.id, y.1, some x.1⟩ spawn)))

section Commands

def submit (id : ℕ) (request : EngineRequest) (s : State) : State :=
  if s.shuttingDown then
    { s with clients := s.clients.insert id ⟨[.failed Scheduler.shuttingDown], 0, true⟩ }
  else
    { s with
      policy := s.policy.enqueue id request.flow s.policy.round
      jobs := s.jobs.insert id (Job.submitted request s.policy.round)
      counters := { s.counters with admitted := s.counters.admitted + 1 }
      clients := s.clients.insert id ⟨[], 0, true⟩ }

/-- The client takes note of a token before it sends its command. -/
def ack (id : ℕ) (s : State) : State :=
  { s with clients := s.clients.modify id (fun c => { c with acked := c.acked + 1 }) }

def continueJob (id : ℕ) (s : State) : State :=
  if s.shuttingDown then s
  else
    match s.jobs.lookup id with
    | none => s
    | some job => (s.enqueue id job).subWaiting

/-- The task of a stopped job is sent whether or not its slot is busy. -/
def stop (id : ℕ) (spawn : Option String) (s : State) : State :=
  if s.shuttingDown then s
  else
    match s.jobs.lookup id with
    | none => s.subWaiting.unqueue id
    | some job =>
      match job.session with
      | none => (s.subWaiting.unqueue id).putJob id job.requestCancel
      | some session =>
        ((s.subWaiting.unqueue id).putJob id { job with session := none, inFlight := true }).assign
          ⟨job.slot, id, .finish session, none⟩ spawn

def cancel (id : ℕ) (s : State) : State :=
  if s.shuttingDown then s
  else
    match s.jobs.lookup id with
    | none => s.unqueue id
    | some job =>
      if job.inFlight then (s.unqueue id).putJob id job.requestCancel
      else
        let removed := (s.unqueue id).removeJob id
        let settled := if job.session.isSome && !(s.policy.remove id).1 then removed.subWaiting
          else removed
        (settled.sendTerminal id (.error cancelled)).clearIfIdle job.flow

def shutdown (s : State) : State :=
  { s with
    policy := { s.policy with runnable := [] }
    jobs := s.jobs.mapValues Job.requestCancel
    shuttingDown := true }

end Commands

def chargeSelection (flow : FlowKey) (tokens : ℕ) : Option Selection → FairPolicy → FairPolicy
  | some selection, p => p.charge flow tokens selection.chargeScale
  | none, p => p

def handleCompletion (task : SlotTask) (result : Except Error SessionStep)
    (session : Option Session) (s : State) : State :=
  match s.jobs.lookup task.id with
  | none => s
  | some job =>
    let returned := { job with inFlight := false, session := session }
    let charged := { s.putJob task.id returned with
      slots := s.slots.modify job.slot (fun worker => { worker with busy := false })
      policy := chargeSelection job.flow (chargedTokens result) task.selection s.policy }
    match outcome job.cancelRequested (s.listens task.id) result with
    | .terminal result =>
      (((charged.removeJob task.id).sendTerminal task.id result).clearIfIdle
        job.flow).retireSlotIfIdle job.slot
    | .wait message => (charged.post task.id message).addWaiting
    | .again => charged.enqueue task.id returned

/-- The completion of the first task of a slot. -/
def complete (key : ModelSlotKey) (result : Except Error SessionStep)
    (session : Option Session) (s : State) : Option State :=
  (s.tasks.find? (fun task => task.slot = key)).bind (fun task =>
    if yields task.action result session then
      some ({ s with tasks := s.tasks.eraseP (fun task => task.slot = key) }.handleCompletion
        task result session)
    else none)

/-- The end of the scheduler: the remaining jobs are cancelled and the slots shut down. -/
def exit (s : State) : State :=
  { s.jobs.keys.foldl (fun s id => s.post id (.failed cancelled)) s with
    jobs := ∅
    slots := ∅
    exited := true }

section Loop

/-- No more quanta can be dispatched. -/
def settled (s : State) : Bool := (s.policy.select s.available).isNone

/-- Shutting down, with no slot busy. -/
def drained (s : State) : Bool := s.shuttingDown && !s.slots.values.any SlotWorker.busy

/-- The loop waits for an event. -/
def receives (s : State) : Bool := !s.exited && s.settled && !s.drained

/-- The client was sent a token that it has not acknowledged. -/
def unacked (s : State) (id : ℕ) : Bool :=
  (s.clients.lookup id).any (fun c => c.acked < c.tokens)

/-- A client can send a command after a token it has received and not acknowledged. -/
def mayAnswer (s : State) (id : ℕ) : Bool := s.listens id && s.unacked id

end Loop

end State

open State

inductive Action
  | dispatch (spawn : Option String)
  | submit (id : ℕ) (request : EngineRequest)
  | continue (id : ℕ)
  | stop (id : ℕ) (spawn : Option String)
  | cancel (id : ℕ)
  | shutdown
  | complete (slot : ModelSlotKey) (result : Except Error SessionStep) (session : Option Session)
  | exit
  | dropClient (id : ℕ)
  deriving DecidableEq

namespace State

def act (s : State) : Action → Option State
  | .dispatch spawn => if s.exited then none else s.dispatchOne spawn
  | .submit id request =>
    if s.receives && (s.clients.lookup id).isNone && id < u64Max then some (s.submit id request)
    else none
  | .continue id =>
    if s.receives && s.mayAnswer id then some ((s.ack id).continueJob id) else none
  | .stop id spawn =>
    if s.receives && s.mayAnswer id then some ((s.ack id).stop id spawn) else none
  | .cancel id =>
    if s.receives && (s.clients.lookup id).isSome then some (s.cancel id) else none
  | .shutdown => if s.receives then some s.shutdown else none
  | .complete slot result session => if s.receives then s.complete slot result session else none
  | .exit => if !s.exited && s.settled && s.drained then some s.exit else none
  | .dropClient id =>
    if s.listens id then
      some { s with clients := s.clients.modify id (fun c => { c with listening := false }) }
    else none

def Step (s : State) (a : Action) (s' : State) : Prop := s.act a = some s'

end State

def sharedRequest : EngineRequest := ⟨"qwen", 1, "ana", .interactive⟩

def sharedSlot : ModelSlotKey := ⟨"qwen", 1⟩

/-- A job runs until its client has a token. -/
def untilToken : List Action :=
  [.submit 0 sharedRequest, .dispatch none, .complete sharedSlot (.ok (.progress 1)) (some 7),
    .dispatch none, .complete sharedSlot (.ok (.token 5 [104] false 1)) (some 7)]

end Cusco.Scheduler
