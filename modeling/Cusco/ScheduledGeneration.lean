import Cusco.DirectGeneration
import Cusco.SchedulerSteps

/-!
Scheduled generation. The slots of the scheduler run the sessions of an engine one quantum at
a time, for all clients together; each client answers its tokens as its sink does. Whatever
the order of the steps, a client receives what a direct generation of its request hands to its
sink, and in the end the result of that generation, or an error of the scheduler itself with
its cause among the steps before.
-/

namespace Cusco.ScheduledGeneration

open DirectGeneration Runs Scheduler Scheduler.State
open Infer (Error EngineOutput)

universe u v

/-- An engine, what the scheduler does not read of each request, and the sink of each client. -/
structure Workload (ρ : Type u) (S : Type v) where
  engine : InferenceEngine (EngineRequest × ρ) S
  payloads : ℕ → ρ
  sinks : ℕ → TokenSink

/-- The scheduler with the sessions of the engine and whose they are. -/
structure World (S : Type v) where
  scheduler : State
  sessions : Table Session (ℕ × S)

inductive Event (S : Type v)
  | schedule (action : Action)
  | started (task : SlotTask) (state : S) (session : Session)
  | refused (task : SlotTask) (e : Error)
  | stepped (task : SlotTask) (result : Except Error SessionStep) (state : S)
  | finished (task : SlotTask) (result : Except Error EngineOutput)
  | panicked (task : SlotTask)

/-- The token of a message. -/
def heard : ClientMessage → Option Token
  | .token id piece terminalOrControl => some ⟨id, piece, terminalOrControl⟩
  | _ => none

def tokenMessage (t : Token) : ClientMessage := .token t.id t.piece t.terminalOrControl

section Steps

variable {ρ : Type u} {S : Type v}

def World.initial (config : SchedulerPolicy.SchedulerPolicyConfig) : World S :=
  ⟨State.initial config, ∅⟩

/-- A client asks to go on, or to stop, when its sink says so of the tokens it received. -/
def Answers (sinks : ℕ → TokenSink) (s : State) : Action → Prop
  | .continue id => ∀ client, s.clients.lookup id = some client →
      sinks id (client.messages.filterMap heard) = .ok .continues
  | .stop id _ => ∀ client, s.clients.lookup id = some client →
      sinks id (client.messages.filterMap heard) = .ok .stop
  | .complete _ _ _ => False
  | _ => True

/-- The task is the first of its slot, whose worker runs it. -/
def Serves (s : State) (task : SlotTask) : Prop :=
  s.tasks.find? (fun t => t.slot = task.slot) = some task

instance (s : State) (task : SlotTask) : Decidable (Serves s task) :=
  inferInstanceAs (Decidable (_ = _))

end Steps

section Statement

variable {ρ : Type u} {S : Type v} (g : Workload ρ S) (events : List (Event S)) (id : ℕ)

/-- A cancellation that reaches the job: the client's own, or that of the shutdown. -/
def Cancelled : Prop := .schedule (.cancel id) ∈ events ∨ .schedule .shutdown ∈ events

/-- The errors of the scheduler itself, each with an event that caused it. -/
inductive OwnError : Error → Prop
  | cancelled (h : Cancelled events id) : OwnError cancelled
  | shuttingDown (h : .schedule .shutdown ∈ events) : OwnError shuttingDown
  | panicked (task : SlotTask) (h : .panicked task ∈ events) (hid : task.id = id) :
      OwnError workerPanicked
  | undispatched (message : String) (h : .schedule (.dispatch (some message)) ∈ events) :
      OwnError (Infer.state message)
  | unstopped (message : String) (h : .schedule (.stop id (some message)) ∈ events) :
      OwnError (Infer.state message)

/-- A result of the direct generation of a request, or an error of the scheduler. -/
inductive Concludes (request : EngineRequest) (toks : List Token) :
    Except Error EngineOutput → Prop
  | direct (result : Except Error EngineOutput)
      (h : Generates g.engine (g.sinks id) (request, g.payloads id) toks result) :
      Concludes request toks result
  | own (e : Error) (h : OwnError events id e) : Concludes request toks (.error e)

/-- What a client has received: the tokens of a direct generation of its request so far,
perhaps with a result at the end. -/
def Receives (messages : List ClientMessage) : Prop :=
  ∃ request toks, .schedule (.submit id request) ∈ events ∧
    Progresses g.engine (g.sinks id) (request, g.payloads id) toks ∧
    (messages = toks.map tokenMessage ∨ ∃ result, Concludes g events id request toks result ∧
      messages = toks.map tokenMessage ++ [terminalMessage result])

end Statement

section Following

variable {ρ : Type u} {S : Type v} (g : Workload ρ S) (events : List (Event S))
  (sessions : Table Session (ℕ × S)) (down : Bool) (id : ℕ)

/-- What a client with a job has received. -/
structure Standing (messages : List ClientMessage) (request : EngineRequest)
    (toks : List Token) : Prop where
  submitted : .schedule (.submit id request) ∈ events
  messages_eq : messages = toks.map tokenMessage

/-- A session, in the state of the loop of a direct generation. -/
structure Held (request : EngineRequest) (toks : List Token) (session : Session) (state : S)
    (awaits : Bool) : Prop where
  lookup_eq : sessions.lookup session = some (id, state)
  drives : Drives g.engine (g.sinks id) (request, g.payloads id) toks state awaits

/-- What an action of a job stands for in that loop, and whether a token is to be answered. -/
inductive Stands (request : EngineRequest) (toks : List Token) : SlotAction → Bool → Prop
  | start (htoks : toks = []) : Stands request toks (.start request) false
  | step (session : Session) (state : S) (awaits : Bool)
      (hheld : Held g sessions id request toks session state awaits) :
      Stands request toks (.step session) awaits
  | finish (session : Session) (state : S)
      (hheld : Held g sessions id request toks session state true)
      (hstop : g.sinks id toks = .ok .stop) : Stands request toks (.finish session) false

/-- The next action of a job is ready, or a task of its slot; a job that is not queued waits
for its client, unless the scheduler shuts down. -/
inductive Follow : View → Prop
  | unused : Follow ⟨none, none, [], []⟩
  | ready (job : Job) (client : Client) (queued : List SchedulerPolicy.PolicyEntry)
      (request : EngineRequest) (toks : List Token) (action : SlotAction) (awaits : Bool)
      (hcause : job.cancelRequested = true → Cancelled events id)
      (hstanding : Standing events id client.messages request toks)
      (hnext : job.takeAction.map Prod.fst = some action)
      (hstands : Stands g sessions id request toks action awaits)
      (hqueued : queued ≠ [] → awaits = false)
      (hwaits : queued = [] → down = false → awaits = true) :
      Follow ⟨some job, some client, queued, []⟩
  | sent (job : Job) (client : Client) (task : SlotTask) (request : EngineRequest)
      (toks : List Token) (hcause : job.cancelRequested = true → Cancelled events id)
      (hstanding : Standing events id client.messages request toks)
      (hstands : Stands g sessions id request toks task.action false) :
      Follow ⟨some job, some client, [], [task]⟩
  | gone (client : Client) (hmessages : Receives g events id client.messages) :
      Follow ⟨none, some client, [], []⟩

end Following

section Receiving

variable {ρ : Type u} {S : Type v} {g : Workload ρ S} {events : List (Event S)}
  {sessions sessions' : Table Session (ℕ × S)} {down : Bool} {id : ℕ} {v : View}
  {request : EngineRequest} {toks : List Token} {action : SlotAction} {awaits : Bool}

theorem Stands.mono (h : Stands g sessions id request toks action awaits)
    (hsessions : ∀ n state, sessions.lookup n = some (id, state) →
      sessions'.lookup n = some (id, state)) :
    Stands g sessions' id request toks action awaits := by
  cases h with
  | start htoks => exact .start htoks
  | step session state _ hheld =>
    exact .step session state _ ⟨hsessions session state hheld.lookup_eq, hheld.drives⟩
  | finish session state hheld hstop =>
    exact .finish session state ⟨hsessions session state hheld.lookup_eq, hheld.drives⟩ hstop

/-- An id whose view and whose sessions stay the same is followed as before. -/
theorem Follow.mono (h : Follow g events sessions down id v)
    (hsessions : ∀ n state, sessions.lookup n = some (id, state) →
      sessions'.lookup n = some (id, state)) : Follow g events sessions' down id v := by
  cases h with
  | unused => exact .unused
  | ready job client queued request toks action awaits hcause hstanding hnext hstands hqueued
      hwaits =>
    exact .ready job client queued request toks action awaits hcause hstanding hnext
      (hstands.mono hsessions) hqueued hwaits
  | sent job client task request toks hcause hstanding hstands =>
    exact .sent job client task request toks hcause hstanding (hstands.mono hsessions)
  | gone client hmessages => exact .gone client hmessages

theorem Stands.progresses (h : Stands g sessions id request toks action awaits) :
    Progresses g.engine (g.sinks id) (request, g.payloads id) toks := by
  cases h with
  | start htoks => exact Or.inl htoks
  | step session state _ hheld => exact hheld.drives.progresses
  | finish session state hheld hstop => exact hheld.drives.progresses

/-- The client of a job is in the middle of its direct generation. -/
theorem Follow.standing {job : Job} {client : Client}
    {queued : List SchedulerPolicy.PolicyEntry} {assigned : List SlotTask}
    (h : Follow g events sessions down id ⟨some job, some client, queued, assigned⟩) :
    ∃ request toks, Standing events id client.messages request toks ∧
      Progresses g.engine (g.sinks id) (request, g.payloads id) toks := by
  cases h with
  | ready _ _ _ request toks action awaits hcause hstanding hnext hstands =>
    exact ⟨request, toks, hstanding, hstands.progresses⟩
  | sent _ _ task request toks hcause hstanding hstands =>
    exact ⟨request, toks, hstanding, hstands.progresses⟩

theorem Standing.receives {messages : List ClientMessage}
    (h : Standing events id messages request toks)
    (hprogresses : Progresses g.engine (g.sinks id) (request, g.payloads id) toks) :
    Receives g events id messages :=
  ⟨request, toks, h.submitted, hprogresses, Or.inl h.messages_eq⟩

/-- A client is sent a result, which it receives unless it went away. -/
theorem Standing.concluded {client : Client} {result : Except Error EngineOutput}
    (h : Standing events id client.messages request toks)
    (hprogresses : Progresses g.engine (g.sinks id) (request, g.payloads id) toks)
    (hconcludes : Concludes g events id request toks result) :
    Receives g events id (client.receive (terminalMessage result)).messages := by
  cases hlistening : client.listening with
  | true =>
    rw [client.receive_listening hlistening]
    refine ⟨request, toks, h.submitted, hprogresses, Or.inr ⟨result, hconcludes, ?_⟩⟩
    exact congrArg (fun sent => sent ++ [terminalMessage result]) h.messages_eq
  | false =>
    rw [client.receive_silent hlistening]
    exact h.receives hprogresses

/-- The end of a job by the scheduler: its client is sent an error. -/
theorem Follow.failed {job : Job} {client : Client} {e : Error}
    {queued : List SchedulerPolicy.PolicyEntry} {assigned : List SlotTask}
    (h : Follow g events sessions down id ⟨some job, some client, queued, assigned⟩)
    (herror : OwnError events id e) : Follow g events sessions down id
      ⟨none, some (client.receive (terminalMessage (.error e))), [], []⟩ := by
  obtain ⟨request, toks, hstanding, hprogresses⟩ := h.standing
  exact .gone _ (hstanding.concluded hprogresses (.own e herror))

theorem Follow.receives (h : Follow g events sessions down id v) {client : Client}
    (hclient : v.client = some client) : Receives g events id client.messages := by
  cases h with
  | unused => cases hclient
  | ready _ _ _ request toks action awaits hcause hstanding hnext hstands =>
    cases hclient
    exact hstanding.receives hstands.progresses
  | sent _ _ task request toks hcause hstanding hstands =>
    cases hclient
    exact hstanding.receives hstands.progresses
  | gone _ hmessages =>
    cases hclient
    exact hmessages

end Receiving

end Cusco.ScheduledGeneration
