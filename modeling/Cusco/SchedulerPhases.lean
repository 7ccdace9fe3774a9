import Cusco.Scheduler
import Cusco.Selections

/-!
The phases of a job. What the state holds about one id, its job, its client, its entries in
the queue and its tasks, is a view; a step changes the view of one id. In every reachable
state each view is in a phase: unused, runnable, executing, waiting for the client, gone,
or stranded by the shutdown.
-/

namespace Cusco.Scheduler

open Admission (ControlState)
open Infer (Error EngineOutput)
open SchedulerPolicy Selections State

/-- What the state holds about one id. -/
structure View where
  job : Option Job
  client : Option Client
  queued : List PolicyEntry
  assigned : List SlotTask

def State.view (s : State) (id : ℕ) : View :=
  ⟨s.jobs.lookup id, s.clients.lookup id, s.policy.runnable.filter (fun e => e.id = id),
    s.tasks.filter (fun t => t.id = id)⟩

/-- The second state differs from the first only in the view of one id. -/
def Touches (id : ℕ) (f : View → View) (s s' : State) : Prop :=
  ∀ c, s'.view c = if c = id then f (s.view c) else s.view c

namespace Touches

variable {id : ℕ} {f g : View → View} {s s' s'' : State}

theorem trans (h : Touches id f s s') (h' : Touches id g s' s'') :
    Touches id (fun v => g (f v)) s s'' := by
  intro c
  rw [h' c]
  split
  · rename_i hc
    rw [h c, if_pos hc]
  · rename_i hc
    rw [h c, if_neg hc]

theorem at_id (h : Touches id f s s') : s'.view id = f (s.view id) := by
  rw [h id, if_pos rfl]

theorem of_ne (h : Touches id f s s') (c : ℕ) (hc : c ≠ id) : s'.view c = s.view c := by
  rw [h c, if_neg hc]

end Touches

section Pieces

variable (s : State) (id : ℕ)

theorem view_post (message : ClientMessage) : Touches id
    (fun v => { v with client := v.client.map (Client.receive message) }) s
    (s.post id message) := by
  intro c
  unfold State.view State.post
  simp only [AList.lookup_modify]
  split <;> rfl

theorem view_ack : Touches id
    (fun v => { v with client := v.client.map (fun c => { c with acked := c.acked + 1 }) }) s
    (s.ack id) := by
  intro c
  unfold State.view State.ack
  simp only [AList.lookup_modify]
  split <;> rfl

theorem view_dropClient : Touches id
    (fun v => { v with client := v.client.map (fun c => { c with listening := false }) }) s
    { s with clients := s.clients.modify id (fun c => { c with listening := false }) } := by
  intro c
  unfold State.view
  simp only [AList.lookup_modify]
  split <;> rfl

theorem view_putJob (job : Job) :
    Touches id (fun v => { v with job := some job }) s (s.putJob id job) := by
  intro c
  unfold State.view State.putJob
  simp only [AList.lookup_insert_ite]
  split <;> rfl

theorem view_removeJob : Touches id (fun v => { v with job := none }) s (s.removeJob id) := by
  intro c
  unfold State.view State.removeJob
  simp only [AList.lookup_erase_ite]
  split <;> rfl

theorem view_enqueue (job : Job) : Touches id
    (fun v => { v with queued := v.queued ++ [⟨id, job.flow, job.admittedRound⟩] }) s
    (s.enqueue id job) := by
  intro c
  unfold State.view State.enqueue FairPolicy.enqueue
  simp only [List.filter_append]
  by_cases hc : c = id
  · subst hc
    simp
  · simp [hc, Ne.symm hc]

theorem view_unqueue : Touches id (fun v => { v with queued := [] }) s (s.unqueue id) := by
  intro c
  unfold State.view State.unqueue FairPolicy.remove
  simp only [List.filter_filter]
  by_cases hc : c = id
  · subst hc
    simp
  · rw [if_neg hc]
    congr 1
    apply List.filter_congr
    intro e _
    by_cases he : e.id = c
    · simp [he, hc]
    · simp [he]

theorem view_sendTerminal (result : Except Error EngineOutput) : Touches id
    (fun v => { v with client := v.client.map (Client.receive (terminalMessage result)) }) s
    (s.sendTerminal id result) :=
  view_post s id (terminalMessage result)

theorem view_addTask (task : SlotTask) (slots : Table ModelSlotKey SlotWorker) :
    Touches task.id (fun v => { v with assigned := v.assigned ++ [task] }) s
    { s with slots := slots, tasks := s.tasks ++ [task] } := by
  intro c
  unfold State.view
  simp only [List.filter_append]
  by_cases hc : c = task.id
  · subst hc
    simp
  · simp [hc, Ne.symm hc]

/-- Counters do not show in the views. -/
theorem view_subWaiting : Touches id (fun v => v) s s.subWaiting := by
  intro c
  unfold State.view State.subWaiting
  split <;> rfl

theorem view_addWaiting : Touches id (fun v => v) s s.addWaiting := by
  intro c
  unfold State.view State.addWaiting
  split <;> rfl

theorem clearIfIdle_runnable (flow : FlowKey) :
    (s.clearIfIdle flow).policy.runnable = s.policy.runnable := by
  unfold State.clearIfIdle FairPolicy.clearIfIdle
  split <;> rfl

/-- Credits do not show in the views. -/
theorem view_clearIfIdle (flow : FlowKey) : Touches id (fun v => v) s (s.clearIfIdle flow) := by
  intro c
  unfold State.view
  rw [clearIfIdle_runnable]
  split <;> rfl

theorem view_retireSlotIfIdle (key : ModelSlotKey) :
    Touches id (fun v => v) s (s.retireSlotIfIdle key) := by
  intro c
  unfold State.retireSlotIfIdle
  split <;> split <;> rfl

end Pieces

section Phases

/-- Only tokens were sent. -/
def Client.Open (c : Client) : Prop := ∀ m ∈ c.messages, m.isToken = true

/-- The last message, and no other, is terminal. -/
def Client.Closed (c : Client) : Prop :=
  ∃ sent m, c.messages = sent ++ [m] ∧ (∀ x ∈ sent, x.isToken = true) ∧ m.isToken = false

/-- The phase of an id; `down` after the shutdown. -/
inductive Phase (down : Bool) : View → Prop
  | unused : Phase down ⟨none, none, [], []⟩
  | runnable (job : Job) (client : Client) (entry : PolicyEntry)
      (hidle : job.inFlight = false) (htask : job.takeAction.isSome = true)
      (hflow : entry.flow = job.flow) (hopen : client.Open)
      (hacked : client.acked = client.tokens) : Phase down ⟨some job, some client, [entry], []⟩
  | executing (job : Job) (client : Client) (task : SlotTask) (hflight : job.inFlight = true)
      (hrequest : job.request = none) (hslot : task.slot = job.slot) (hopen : client.Open)
      (hacked : client.acked = client.tokens) : Phase down ⟨some job, some client, [], [task]⟩
  | waiting (job : Job) (client : Client) (session : Session) (hidle : job.inFlight = false)
      (hrequest : job.request = none) (hsession : job.session = some session)
      (hopen : client.Open) (hacked : client.acked + 1 = client.tokens) :
      Phase down ⟨some job, some client, [], []⟩
  | stranded (job : Job) (client : Client) (hdown : down = true) (hidle : job.inFlight = false)
      (hopen : client.Open) (hacked : client.acked ≤ client.tokens)
      (hfew : client.tokens ≤ client.acked + 1) : Phase down ⟨some job, some client, [], []⟩
  | gone (client : Client) (hclosed : client.Closed ∨ (client.Open ∧ client.listening = false))
      (hacked : client.acked ≤ client.tokens) (hfew : client.tokens ≤ client.acked + 1) :
      Phase down ⟨none, some client, [], []⟩

/-- What holds of a scheduler that runs. -/
structure Wired (s : State) : Prop where
  phase : ∀ id, Phase s.shuttingDown (s.view id)
  receiving : ∀ key worker, s.slots.lookup key = some worker → worker.receiving = true
  bounded : ∀ id client, s.clients.lookup id = some client → id < u64Max

theorem Wired.initial (config : SchedulerPolicyConfig) : Wired (State.initial config) where
  phase := fun _ => .unused
  receiving := by
    intro key worker h
    exact nomatch h
  bounded := by
    intro id client h
    exact nomatch h

namespace Client

variable (c : Client)

theorem receive_silent (h : c.listening = false) (m : ClientMessage) : c.receive m = c := by
  unfold receive
  rw [h]
  rfl

theorem receive_listening (h : c.listening = true) (m : ClientMessage) :
    c.receive m = { c with messages := c.messages ++ [m] } := by
  unfold receive
  rw [if_pos h]

@[simp] theorem receive_acked (m : ClientMessage) : (c.receive m).acked = c.acked := by
  unfold receive
  split <;> rfl

/-- Messages other than tokens do not change what is to be acknowledged. -/
theorem receive_tokens (m : ClientMessage) (hm : m.isToken = false) :
    (c.receive m).tokens = c.tokens := by
  unfold receive tokens
  split
  · simp [List.countP_append, hm]
  · rfl

/-- A terminal message ends what an open client is sent. -/
theorem receive_terminal (m : ClientMessage) (hm : m.isToken = false) (h : c.Open) :
    (c.receive m).Closed ∨ ((c.receive m).Open ∧ (c.receive m).listening = false) := by
  cases hlistening : c.listening with
  | true =>
    left
    rw [receive_listening c hlistening]
    exact ⟨c.messages, m, rfl, h, hm⟩
  | false =>
    right
    rw [receive_silent c hlistening]
    exact ⟨h, hlistening⟩

theorem receive_token (m : ClientMessage) (hm : m.isToken = true) (h : c.Open)
    (hlistening : c.listening = true) :
    (c.receive m).Open ∧ (c.receive m).tokens = c.tokens + 1 := by
  rw [receive_listening c hlistening]
  constructor
  · intro x hx
    rcases List.mem_append.mp hx with hx | hx
    · exact h x hx
    · rw [List.mem_singleton.mp hx]
      exact hm
  · simp [tokens, List.countP_append, hm]

end Client

theorem terminalMessage_isToken (result : Except Error EngineOutput) :
    (terminalMessage result).isToken = false := by
  cases result <;> rfl

/-- The end of a live job: its client is sent a terminal message. -/
theorem gone_of_open (down : Bool) (client : Client) (m : ClientMessage)
    (hm : m.isToken = false) (hopen : client.Open) (hacked : client.acked ≤ client.tokens)
    (hfew : client.tokens ≤ client.acked + 1) :
    Phase down ⟨none, some (client.receive m), [], []⟩ := by
  have htokens := client.receive_tokens m hm
  have hsame := client.receive_acked m
  exact .gone _ (client.receive_terminal m hm hopen) (by omega) (by omega)

end Phases

section Sending

/-- A task reaches its slot, unless no worker can be spawned for it. -/
theorem assign_cases (s : State) (task : SlotTask) (spawn : Option String)
    (hreceiving : ∀ worker, s.slots.lookup task.slot = some worker → worker.receiving = true) :
    (s.slots.lookup task.slot = none ∧ ∃ message, spawn = some message ∧ s.assign task spawn =
      (s.removeJob task.id).sendTerminal task.id (.error (Infer.state message))) ∨
    ((s.slots.lookup task.slot = none → spawn = none) ∧ s.assign task spawn =
      { s with slots := s.slots.insert task.slot ⟨true, true⟩, tasks := s.tasks ++ [task] }) := by
  unfold State.assign State.ensureSlot
  cases hslot : s.slots.lookup task.slot with
  | some worker =>
    obtain ⟨receiving, busy⟩ := worker
    cases hreceiving _ hslot
    exact Or.inr ⟨nofun, rfl⟩
  | none =>
    cases spawn with
    | none => exact Or.inr ⟨fun _ => rfl, rfl⟩
    | some message => exact Or.inl ⟨rfl, message, rfl, rfl⟩

end Sending

end Cusco.Scheduler
