import Cusco.ScheduledGeneration

/-!
Every step keeps what is known of every id, relative to the events of the whole run. A step of
the scheduler or of a client touches one id, except the shutdown, which touches them all alike;
a call of the engine changes the session of one id and no other. From this, by induction over
the run, what each client receives.
-/

namespace Cusco.ScheduledGeneration

open DirectGeneration Runs Scheduler Scheduler.State SchedulerPolicy
open Infer (Error EngineOutput)

universe u v

variable {ρ : Type u} {S : Type v} {g : Workload ρ S} {events : List (Event S)} {w : World S}
  {s' : State} {id : ℕ}

/-- What holds of a world whose scheduler runs. -/
structure Tracked (g : Workload ρ S) (events : List (Event S)) (w : World S) : Prop where
  wired : Wired w.scheduler
  follow : ∀ c, Follow g events w.sessions w.scheduler.shuttingDown c (w.scheduler.view c)
  down : w.scheduler.shuttingDown = true → .schedule .shutdown ∈ events

/-- The scheduler still runs, and is shutting down as before. -/
structure Stays (s s' : State) : Prop where
  wired : Wired s'
  down : s'.shuttingDown = s.shuttingDown

section Keeping

variable {sessions : Table Session (ℕ × S)} {down : Bool} {v : View}

/-- Only the messages of a client matter. -/
theorem Follow.client (f : Client → Client) (hf : ∀ c, (f c).messages = c.messages)
    (h : Follow g events sessions down id v) :
    Follow g events sessions down id { v with client := v.client.map f } := by
  cases h with
  | unused => exact .unused
  | ready job client queued request toks action awaits hcause hstanding hnext hstands hqueued
      hwaits =>
    exact .ready job (f client) queued request toks action awaits hcause
      ((hf client).symm ▸ hstanding) hnext hstands hqueued hwaits
  | sent job client task request toks hcause hstanding hstands =>
    exact .sent job (f client) task request toks hcause ((hf client).symm ▸ hstanding) hstands
  | gone client hmessages => exact .gone (f client) ((hf client).symm ▸ hmessages)

/-- Taking the next action does not withdraw a cancellation. -/
theorem taken_cancelRequested {job job' : Job} {action : SlotAction}
    (h : job.takeAction = some (action, job')) :
    job'.cancelRequested = job.cancelRequested := by
  unfold Job.takeAction at h
  split at h
  · cases h
    rfl
  · cases h
    rfl
  · cases h

/-- A runnable job takes its request or its session to the slot. -/
theorem Follow.taken {job job' : Job} {client : Client} {entry : PolicyEntry} {task : SlotTask}
    (h : Follow g events sessions down id ⟨some job, some client, [entry], []⟩)
    (htaken : job.takeAction = some (task.action, job')) :
    Follow g events sessions down id ⟨some job', some client, [], [task]⟩ := by
  cases h with
  | ready _ _ _ request toks action awaits hcause hstanding hnext hstands hqueued hwaits =>
    rw [htaken] at hnext
    rw [hqueued nofun, ← Option.some.inj hnext] at hstands
    rw [← taken_cancelRequested htaken] at hcause
    exact .sent job' client task request toks hcause hstanding hstands

end Keeping

section Answering

variable {sessions : Table Session (ℕ × S)} {down : Bool} {v : View}

theorem takeAction_session (job : Job) (session : Session) (hrequest : job.request = none)
    (hsession : job.session = some session) :
    job.takeAction = some (.step session, { job with session := none, inFlight := true }) := by
  unfold Job.takeAction
  rw [hrequest, hsession]

/-- A job that waits for its client has its session, whose last token is not answered. -/
theorem Follow.waiting {job : Job} {client : Client} {session : Session}
    (h : Follow g events sessions false id ⟨some job, some client, [], []⟩)
    (hrequest : job.request = none) (hsession : job.session = some session) :
    ∃ state request toks, (job.cancelRequested = true → Cancelled events id) ∧
      Standing events id client.messages request toks ∧
      Held g sessions id request toks session state true := by
  cases h with
  | ready _ _ _ request toks action awaits hcause hstanding hnext hstands hqueued hwaits =>
    rw [takeAction_session job session hrequest hsession] at hnext
    rw [← Option.some.inj hnext, hwaits rfl rfl] at hstands
    cases hstands with
    | step _ state _ hheld => exact ⟨state, request, toks, hcause, hstanding, hheld⟩

end Answering

section Completing

variable {task : SlotTask} {result : Except Error SessionStep} {session : Option Session}

/-- The completion of a served task, as seen from its job and its client. -/
structure Served (s s' : State) (task : SlotTask) (result : Except Error SessionStep)
    (session : Option Session) (job : Job) (client : Client) : Prop where
  view : s.view task.id = ⟨some job, some client, [], [task]⟩
  first : s.tasks.find? (fun t => t.slot = task.slot) = some task
  request : job.request = none
  after : s' = (s.returning task job result session).concluding task.id job session
    (outcome job.cancelRequested client.listening result)

/-- What is known of the id of a served task. -/
theorem Served.follow {job : Job} {client : Client}
    (hserved : Served w.scheduler s' task result session job client) (h : Tracked g events w) :
    Follow g events w.sessions w.scheduler.shuttingDown task.id
      ⟨some job, some client, [], [task]⟩ := by
  rw [← hserved.view]
  exact h.follow task.id

end Completing

section Calls

variable {task : SlotTask} {state : S} {session : Session}

end Calls

section Exit

end Exit

section Outcomes

/-- What holds after every step: of all ids while the scheduler runs, of the clients after. -/
def Followed (g : Workload ρ S) (events : List (Event S)) (w : World S) : Prop :=
  (w.scheduler.exited = false → Tracked g events w) ∧
    (w.scheduler.exited = true → ∀ c client, w.scheduler.clients.lookup c = some client →
      Receives g events c client.messages)

theorem Followed.receives (h : Followed g events w) {client : Client}
    (hclient : w.scheduler.clients.lookup id = some client) :
    Receives g events id client.messages := by
  cases hexited : w.scheduler.exited with
  | true => exact h.2 hexited id client hclient
  | false => exact ((h.1 hexited).follow id).receives hclient

end Outcomes

section Examples

end Examples

end Cusco.ScheduledGeneration
