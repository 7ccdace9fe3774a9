import Cusco.SchedulerPhases

/-!
What each event does. In a state whose views are all in a phase, the branches of the source
that an event can take are few, and each leaves an explicit state. From these the phases
are kept by every step.
-/

namespace Cusco.Scheduler

open Admission (ControlState)
open Infer (Error EngineOutput)
open SchedulerPolicy Selections State

section Lists

variable {α : Type}

theorem split_of_getElem? (l : List α) (i : ℕ) (x : α) (h : l[i]? = some x) :
    ∃ l₁ l₂, l = l₁ ++ x :: l₂ ∧ l.eraseIdx i = l₁ ++ l₂ := by
  induction l generalizing i with
  | nil => exact nomatch h
  | cons y rest ih =>
    cases i with
    | zero =>
      cases h
      exact ⟨[], rest, rfl, rfl⟩
    | succ i =>
      obtain ⟨l₁, l₂, hl, herase⟩ := ih i h
      refine ⟨y :: l₁, l₂, ?_, ?_⟩
      · rw [hl]
        rfl
      · rw [List.eraseIdx_cons_succ, herase]
        rfl

theorem filter_removed (p : α → Bool) (l₁ l₂ : List α) (x : α) (h : p x = false) :
    (l₁ ++ l₂).filter p = (l₁ ++ x :: l₂).filter p := by
  simp [h]

theorem filter_removed_single (p : α → Bool) (l₁ l₂ : List α) (x : α) (hx : p x = true)
    (h : (l₁ ++ x :: l₂).filter p = [x]) : (l₁ ++ l₂).filter p = [] := by
  have hlength := congrArg List.length h
  simp only [List.filter_append, List.filter_cons_of_pos hx, List.length_append,
    List.length_cons, List.length_nil] at hlength
  apply List.eq_nil_of_length_eq_zero
  rw [List.filter_append, List.length_append]
  omega

end Lists

section Views

variable {s : State} {id : ℕ}

theorem unacked_eq (s : State) (id : ℕ) :
    s.unacked id = (s.view id).client.any (fun c => c.acked < c.tokens) := rfl

/-- A queued entry belongs to a runnable job. -/
theorem runnable_of_entry (hw : Wired s) (e : PolicyEntry) (he : e ∈ s.policy.runnable) :
    ∃ job client, s.view e.id = ⟨some job, some client, [e], []⟩ ∧ job.inFlight = false ∧
      job.takeAction.isSome = true ∧ e.flow = job.flow ∧ client.Open ∧
      client.acked = client.tokens := by
  have hmem : e ∈ (s.view e.id).queued := List.mem_filter.mpr ⟨he, decide_eq_true rfl⟩
  have hphase := hw.phase e.id
  generalize hv : s.view e.id = v at hphase hmem
  cases hphase with
  | runnable job client entry hidle htask hflow hopen hacked =>
    cases List.mem_singleton.mp hmem
    exact ⟨job, client, rfl, hidle, htask, hflow, hopen, hacked⟩
  | _ => cases hmem

/-- A task belongs to an executing job. -/
theorem executing_of_task (hw : Wired s) (t : SlotTask) (ht : t ∈ s.tasks) :
    ∃ job client, s.view t.id = ⟨some job, some client, [], [t]⟩ ∧ job.inFlight = true ∧
      job.request = none ∧ t.slot = job.slot ∧ client.Open ∧ client.acked = client.tokens := by
  have hmem : t ∈ (s.view t.id).assigned := List.mem_filter.mpr ⟨ht, decide_eq_true rfl⟩
  have hphase := hw.phase t.id
  generalize hv : s.view t.id = v at hphase hmem
  cases hphase with
  | executing job client task hflight hrequest hslot hopen hacked =>
    cases List.mem_singleton.mp hmem
    exact ⟨job, client, rfl, hflight, hrequest, hslot, hopen, hacked⟩
  | _ => cases hmem

/-- A client that may answer has no job any more, or one that waits. -/
theorem answer_cases (hw : Wired s) (h : s.mayAnswer id = true) :
    (∃ client, s.view id = ⟨none, some client, [], []⟩ ∧ client.acked < client.tokens) ∨
    (∃ job client, s.view id = ⟨some job, some client, [], []⟩ ∧ job.inFlight = false ∧
      client.Open ∧ client.acked + 1 = client.tokens ∧
      (s.shuttingDown = false → ∃ session, job.request = none ∧ job.session = some session)) := by
  have hunacked : s.unacked id = true := (Bool.and_eq_true_iff.mp h).2
  rw [unacked_eq] at hunacked
  have hphase := hw.phase id
  generalize hv : s.view id = v at hphase hunacked
  cases hphase with
  | unused => cases hunacked
  | runnable job client entry _ _ _ _ hacked =>
    have := of_decide_eq_true hunacked
    omega
  | executing job client task _ _ _ _ hacked =>
    have := of_decide_eq_true hunacked
    omega
  | waiting job client session hidle hrequest hsession hopen hacked =>
    exact Or.inr ⟨job, client, rfl, hidle, hopen, hacked, fun _ => ⟨session, hrequest, hsession⟩⟩
  | stranded job client hdown hidle hopen hacked hfew =>
    have := of_decide_eq_true hunacked
    refine Or.inr ⟨job, client, rfl, hidle, hopen, by omega, fun h => ?_⟩
    exact absurd (hdown.symm.trans h) (by decide)
  | gone client hclosed hacked hfew => exact Or.inl ⟨client, rfl, of_decide_eq_true hunacked⟩

end Views

section Dispatch

/-- What a dispatch finds: an entry of an idle job whose slot is not busy. -/
structure Dispatches (s : State) (selection : Selection) (p : FairPolicy) (head : Head)
    (job : Job) (client : Client) (action : SlotAction) (job' : Job) : Prop where
  select_eq : s.policy.select s.available = some (selection, p)
  selects : Selects s.policy s.available selection p head
  view : s.view head.entry.id = ⟨some job, some client, [head.entry], []⟩
  idle : job.inFlight = false
  opened : client.Open
  acked : client.acked = client.tokens
  flow : head.entry.flow = job.flow
  free : (s.slots.lookup job.slot).any SlotWorker.busy = false
  taken : job.takeAction = some (action, job')

theorem taken_cases (job job' : Job) (action : SlotAction)
    (h : job.takeAction = some (action, job')) : job'.inFlight = true ∧ job'.request = none ∧
      job'.slot = job.slot ∧ job'.flow = job.flow := by
  unfold Job.takeAction at h
  split at h
  · cases h
    exact ⟨rfl, rfl, rfl, rfl⟩
  · rename_i hrequest _
    cases h
    exact ⟨rfl, hrequest, rfl, rfl⟩
  · exact nomatch h

/-- The state of a dispatch before its task is sent. -/
def State.taking (s : State) (p : FairPolicy) (id : ℕ) (job : Job) : State :=
  { s with policy := p }.putJob id job

theorem dispatch_cases {s s' : State} {spawn : Option String} (hw : Wired s)
    (h : s.dispatchOne spawn = some s') : ∃ selection p head job client action job',
      Dispatches s selection p head job client action job' ∧
      ((s.slots.lookup job.slot = none ∧ ∃ message, spawn = some message ∧
        s' = ((s.taking p head.entry.id job').removeJob head.entry.id).sendTerminal
          head.entry.id (.error (Infer.state message))) ∨
      ((s.slots.lookup job.slot = none → spawn = none) ∧ s' = { s.taking p head.entry.id job' with
        slots := s.slots.insert job.slot ⟨true, true⟩
        tasks := s.tasks ++ [⟨job.slot, head.entry.id, action, some selection⟩] })) := by
  obtain ⟨⟨selection, p⟩, hselect, hrest⟩ := Option.bind_eq_some_iff.mp h
  obtain ⟨job, hjob, hrest⟩ := Option.bind_eq_some_iff.mp hrest
  obtain ⟨⟨action, job'⟩, htaken, rfl⟩ := Option.map_eq_some_iff.mp hrest
  obtain ⟨head, hsel⟩ := select_cases s.policy p s.available selection hselect
  obtain ⟨hplace, havailable, _⟩ := heads_placed s.policy s.available head hsel.head
  obtain ⟨found, client, hview, hidle, _, hflow, hopen, hacked⟩ :=
    runnable_of_entry hw head.entry (List.mem_of_getElem? hplace)
  have hfound : s.jobs.lookup head.entry.id = some found := congrArg View.job hview
  change s.jobs.lookup selection.id = some job at hjob
  rw [hsel.id_eq] at hjob
  cases hjob.symm.trans hfound
  have hfree : (s.slots.lookup job.slot).any SlotWorker.busy = false := by
    unfold State.available at havailable
    rw [hjob, Option.any_some, hidle] at havailable
    simpa using havailable
  refine ⟨selection, p, head, job, client, action, job',
    ⟨hselect, hsel, hview, hidle, hopen, hacked, hflow, hfree, htaken⟩, ?_⟩
  rw [← hsel.id_eq]
  exact assign_cases (s.taking p selection.id job') ⟨job.slot, selection.id, action, some selection⟩
    spawn (hw.receiving job.slot)

/-- The selected entry leaves the queue. -/
theorem view_taking {s : State} {selection : Selection} {p : FairPolicy} {head : Head}
    {job : Job} {client : Client} {action : SlotAction} {job' : Job}
    (h : Dispatches s selection p head job client action job') : Touches head.entry.id
      (fun v => { v with queued := [], job := some job' }) s
      (s.taking p head.entry.id job') := by
  obtain ⟨hplace, _, _⟩ := heads_placed s.policy s.available head h.selects.head
  obtain ⟨l₁, l₂, hqueue, herase⟩ := split_of_getElem? _ _ _ hplace
  have hpolicy : Touches head.entry.id (fun v => { v with queued := [] }) s
      { s with policy := p } := by
    intro c
    unfold State.view
    simp only [h.selects.runnable_eq, herase]
    by_cases hc : c = head.entry.id
    · subst hc
      have hsingle : s.policy.runnable.filter (fun e => e.id = head.entry.id) =
        [head.entry] := congrArg View.queued h.view
      rw [hqueue] at hsingle
      rw [if_pos rfl, filter_removed_single _ l₁ l₂ head.entry (decide_eq_true rfl) hsingle]
    · rw [if_neg hc, hqueue, filter_removed _ l₁ l₂ head.entry]
      exact decide_eq_false (Ne.symm hc)
  exact hpolicy.trans (view_putJob _ _ job')

end Dispatch

section Commands

variable {s s' : State} {id : ℕ}

theorem submit_cases {request : EngineRequest} (hw : Wired s)
    (h : s.act (.submit id request) = some s') :
    s.view id = ⟨none, none, [], []⟩ ∧ id < u64Max ∧ s' = s.submit id request := by
  obtain ⟨hguard, heq⟩ := Option.ite_none_right_eq_some.mp h
  cases heq
  simp only [Bool.and_eq_true, decide_eq_true_eq] at hguard
  obtain ⟨⟨_, hnew⟩, hid⟩ := hguard
  have hclient : (s.view id).client = none := Option.isNone_iff_eq_none.mp hnew
  have hphase := hw.phase id
  generalize hv : s.view id = v at hphase hclient
  cases hphase with
  | unused => exact ⟨rfl, hid, rfl⟩
  | _ => cases hclient

/-- A waiting job, seen from a client that may answer. -/
structure Waits (s : State) (id : ℕ) (job : Job) (client : Client) (session : Session) :
    Prop where
  view : s.view id = ⟨some job, some client, [], []⟩
  idle : job.inFlight = false
  request : job.request = none
  session_eq : job.session = some session
  opened : client.Open
  acked : client.acked + 1 = client.tokens

theorem continue_cases (hw : Wired s) (h : s.act (.continue id) = some s') :
    s.mayAnswer id = true ∧
    ((s' = s.ack id ∧ (s.shuttingDown = true ∨ (s.view id).job = none)) ∨
    (s.shuttingDown = false ∧ ∃ job client session, Waits s id job client session ∧
      s' = ((s.ack id).enqueue id job).subWaiting)) := by
  obtain ⟨hguard, heq⟩ := Option.ite_none_right_eq_some.mp h
  cases heq
  have hmay := (Bool.and_eq_true_iff.mp hguard).2
  refine ⟨hmay, ?_⟩
  unfold State.continueJob
  split
  · rename_i hdown
    exact Or.inl ⟨rfl, Or.inl hdown⟩
  · rename_i hup
    have hup : s.shuttingDown = false := Bool.eq_false_iff.mpr hup
    rcases answer_cases hw hmay with ⟨client, hview, _⟩ |
      ⟨job, client, hview, hidle, hopen, hacked, hsession⟩
    · have hjob : (s.ack id).jobs.lookup id = none := congrArg View.job hview
      rw [hjob]
      exact Or.inl ⟨rfl, Or.inr (congrArg View.job hview)⟩
    · have hjob : (s.ack id).jobs.lookup id = some job := congrArg View.job hview
      obtain ⟨session, hrequest, hsession⟩ := hsession hup
      rw [hjob]
      exact Or.inr ⟨hup, job, client, session,
        ⟨hview, hidle, hrequest, hsession, hopen, hacked⟩, rfl⟩

/-- The state of a stop before its task is sent. -/
def State.stopping (s : State) (id : ℕ) (job : Job) : State :=
  ((s.ack id).subWaiting.unqueue id).putJob id { job with session := none, inFlight := true }

theorem stop_cases {spawn : Option String} (hw : Wired s)
    (h : s.act (.stop id spawn) = some s') :
    s.mayAnswer id = true ∧
    ((s' = s.ack id ∧ s.shuttingDown = true) ∨
    (s' = (s.ack id).subWaiting.unqueue id ∧ s.shuttingDown = false ∧
      (s.view id).job = none) ∨
    (s.shuttingDown = false ∧ ∃ job client session, Waits s id job client session ∧
      ((s.slots.lookup job.slot = none ∧ ∃ message, spawn = some message ∧
        s' = ((s.stopping id job).removeJob id).sendTerminal id
          (.error (Infer.state message))) ∨
      ((s.slots.lookup job.slot = none → spawn = none) ∧ s' = { s.stopping id job with
        slots := s.slots.insert job.slot ⟨true, true⟩
        tasks := s.tasks ++ [⟨job.slot, id, .finish session, none⟩] })))) := by
  obtain ⟨hguard, heq⟩ := Option.ite_none_right_eq_some.mp h
  cases heq
  have hmay := (Bool.and_eq_true_iff.mp hguard).2
  refine ⟨hmay, ?_⟩
  unfold State.stop
  split
  · rename_i hdown
    exact Or.inl ⟨rfl, hdown⟩
  · rename_i hup
    have hup : s.shuttingDown = false := Bool.eq_false_iff.mpr hup
    rcases answer_cases hw hmay with ⟨client, hview, _⟩ |
      ⟨job, client, hview, hidle, hopen, hacked, hsession⟩
    · have hjob : (s.ack id).jobs.lookup id = none := congrArg View.job hview
      refine Or.inr (Or.inl ⟨?_, hup, congrArg View.job hview⟩)
      simp only [hjob]
    · have hjob : (s.ack id).jobs.lookup id = some job := congrArg View.job hview
      obtain ⟨session, hrequest, hsession⟩ := hsession hup
      simp only [hjob, hsession]
      refine Or.inr (Or.inr ⟨hup, job, client, session,
        ⟨hview, hidle, hrequest, hsession, hopen, hacked⟩, ?_⟩)
      exact assign_cases (s.stopping id job) ⟨job.slot, id, .finish session, none⟩ spawn
        (hw.receiving job.slot)

/-- Whether a removal finds an entry. -/
theorem remove_found (p : FairPolicy) (id : ℕ) :
    (p.remove id).1 = true ↔ p.runnable.filter (fun e => e.id = id) ≠ [] := by
  have hsplit : p.runnable.length = (p.runnable.filter (fun e => e.id = id)).length +
      (p.runnable.filter (fun e => e.id ≠ id)).length := by
    simpa using List.length_eq_length_filter_add (l := p.runnable) (fun e => decide (e.id = id))
  unfold FairPolicy.remove
  rw [decide_eq_true_eq, ← List.length_pos_iff]
  omega

/-- The state after a cancellation that ends an idle job. -/
def State.cancelling (s : State) (id : ℕ) (job : Job) : State :=
  (((s.unqueue id).removeJob id).sendTerminal id (.error cancelled)).clearIfIdle job.flow

theorem cancel_cases (hw : Wired s) (h : s.act (.cancel id) = some s') :
    (s' = s ∧ s.shuttingDown = true) ∨
    (s.shuttingDown = false ∧
      ((s' = s.unqueue id ∧ (s.view id).job = none) ∨
      (∃ job client task, s.view id = ⟨some job, some client, [], [task]⟩ ∧
        job.inFlight = true ∧ s' = (s.unqueue id).putJob id job.requestCancel) ∨
      (∃ job client entry, s.view id = ⟨some job, some client, [entry], []⟩ ∧
        job.inFlight = false ∧ client.Open ∧ client.acked = client.tokens ∧
        s' = s.cancelling id job) ∨
      ∃ job client session, Waits s id job client session ∧
        s' = s.subWaiting.cancelling id job)) := by
  obtain ⟨hguard, heq⟩ := Option.ite_none_right_eq_some.mp h
  cases heq
  unfold State.cancel
  split
  · rename_i hdown
    exact Or.inl ⟨rfl, hdown⟩
  · rename_i hup
    have hup : s.shuttingDown = false := Bool.eq_false_iff.mpr hup
    refine Or.inr ⟨hup, ?_⟩
    have hphase := hw.phase id
    generalize hv : s.view id = v at hphase
    have hjob : s.jobs.lookup id = v.job := congrArg View.job hv
    have hqueued : s.policy.runnable.filter (fun e => e.id = id) = v.queued :=
      congrArg View.queued hv
    have hfound := remove_found s.policy id
    rw [hqueued] at hfound
    cases hphase with
    | unused =>
      refine Or.inl ⟨?_, rfl⟩
      simp only [hjob]
    | gone client =>
      refine Or.inl ⟨?_, rfl⟩
      simp only [hjob]
    | executing job client task hflight =>
      refine Or.inr (Or.inl ⟨job, client, task, rfl, hflight, ?_⟩)
      simp only [hjob, hflight, if_true]
    | runnable job client entry hidle htask hflow hopen hacked =>
      have hremoved : (s.policy.remove id).1 = true := hfound.mpr nofun
      refine Or.inr (Or.inr (Or.inl ⟨job, client, entry, rfl, hidle, hopen, hacked, ?_⟩))
      simp only [hjob, hidle, hremoved, Bool.not_true, Bool.and_false, Bool.false_eq_true,
        if_false]
      rfl
    | waiting job client session hidle hrequest hsession hopen hacked =>
      have hremoved : (s.policy.remove id).1 = false :=
        Bool.eq_false_iff.mpr (fun hmem => hfound.mp hmem rfl)
      refine Or.inr (Or.inr (Or.inr ⟨job, client, session,
        ⟨hv, hidle, hrequest, hsession, hopen, hacked⟩, ?_⟩))
      simp only [hjob, hidle, hremoved, hsession, Option.isSome_some, Bool.not_false,
        Bool.and_self, Bool.false_eq_true, if_false, if_true]
      rfl
    | stranded job client hdown => exact absurd (hdown.symm.trans hup) (by decide)

end Commands

section Completions

/-- The state once a task is back, before its result is looked at. -/
def State.returning (s : State) (task : SlotTask) (job : Job)
    (result : Except Error SessionStep) (session : Option Session) : State :=
  { s with
    jobs := s.jobs.insert task.id { job with inFlight := false, session := session }
    slots := s.slots.modify job.slot (fun worker => { worker with busy := false })
    tasks := s.tasks.eraseP (fun t => t.slot = task.slot)
    policy := chargeSelection job.flow (chargedTokens result) task.selection s.policy }

/-- The state after a completion, by what the result means for the job. -/
def State.concluding (s : State) (id : ℕ) (job : Job) (session : Option Session) :
    Outcome → State
  | .terminal result =>
    (((s.removeJob id).sendTerminal id result).clearIfIdle job.flow).retireSlotIfIdle job.slot
  | .wait message => (s.post id message).addWaiting
  | .again => s.enqueue id { job with inFlight := false, session := session }

theorem complete_cases {s s' : State} {key : ModelSlotKey} {result : Except Error SessionStep}
    {session : Option Session} (hw : Wired s)
    (h : s.act (.complete key result session) = some s') :
    ∃ task job client, s.view task.id = ⟨some job, some client, [], [task]⟩ ∧
      s.tasks.find? (fun t => t.slot = key) = some task ∧ task.slot = key ∧
      job.inFlight = true ∧ job.request = none ∧ task.slot = job.slot ∧ client.Open ∧
      client.acked = client.tokens ∧ yields task.action result session = true ∧
      s' = (s.returning task job result session).concluding task.id job session
        (outcome job.cancelRequested client.listening result) := by
  obtain ⟨_, hcomplete⟩ := Option.ite_none_right_eq_some.mp h
  obtain ⟨task, hfind, hrest⟩ := Option.bind_eq_some_iff.mp hcomplete
  obtain ⟨hyields, heq⟩ := Option.ite_none_right_eq_some.mp hrest
  cases heq
  have hkey : task.slot = key := by simpa using List.find?_some hfind
  obtain ⟨job, client, hview, hflight, hrequest, hslot, hopen, hacked⟩ :=
    executing_of_task hw task (List.mem_of_find?_eq_some hfind)
  refine ⟨task, job, client, hview, hfind, hkey, hflight, hrequest, hslot, hopen, hacked,
    hyields, ?_⟩
  have hjob : s.jobs.lookup task.id = some job := congrArg View.job hview
  have hclient : s.clients.lookup task.id = some client := congrArg View.client hview
  unfold State.handleCompletion State.listens
  simp only [hjob, hclient, Option.any_some, ← hkey]
  cases outcome job.cancelRequested client.listening result <;> rfl

/-- The completed task leaves, and its job is back. -/
theorem view_returning {s : State} {task : SlotTask} {job : Job} {client : Client}
    (hview : s.view task.id = ⟨some job, some client, [], [task]⟩)
    (hfind : s.tasks.find? (fun t => t.slot = task.slot) = some task)
    (result : Except Error SessionStep) (session : Option Session) : Touches task.id
      (fun v => { v with
        assigned := []
        job := some { job with inFlight := false, session := session } }) s
      (s.returning task job result session) := by
  obtain ⟨htask, l₁, l₂, htasks, hbefore⟩ := List.find?_eq_some_iff_append.mp hfind
  have herase : s.tasks.eraseP (fun t => t.slot = task.slot) = l₁ ++ l₂ := by
    rw [htasks, List.eraseP_append_right]
    · simp
    · intro t ht
      simpa using hbefore t ht
  have hqueue : (chargeSelection job.flow (chargedTokens result) task.selection
      s.policy).runnable = s.policy.runnable := by
    unfold chargeSelection
    split <;> rfl
  have hsingle : s.tasks.filter (fun t => t.id = task.id) = [task] :=
    congrArg View.assigned hview
  intro c
  unfold State.view State.returning
  simp only [herase, hqueue, AList.lookup_insert_ite]
  rw [htasks] at hsingle
  by_cases hc : c = task.id
  · subst hc
    rw [if_pos rfl, if_pos rfl, filter_removed_single _ l₁ l₂ task (decide_eq_true rfl) hsingle]
  · rw [if_neg hc, if_neg hc, htasks, filter_removed _ l₁ l₂ task]
    exact decide_eq_false (Ne.symm hc)

end Completions

section Keeping

variable {s s' : State} {id : ℕ}

/-- A step that touches one id keeps the phases if it leaves that id in a phase. -/
theorem wired_of_touches {f : View → View} (hw : Wired s) (ht : Touches id f s s')
    (hphase : Phase s.shuttingDown (f (s.view id))) (hdown : s'.shuttingDown = s.shuttingDown)
    (hid : id < u64Max)
    (hslots : ∀ key worker, s'.slots.lookup key = some worker → worker.receiving = true) :
    Wired s' where
  phase := by
    intro c
    rw [hdown, ht c]
    split
    · rename_i hc
      exact hc ▸ hphase
    · exact hw.phase c
  receiving := hslots
  bounded := by
    intro c client hc
    by_cases heq : c = id
    · exact heq ▸ hid
    · have hsame := congrArg View.client (ht.of_ne c heq)
      exact hw.bounded c client (hsame.symm.trans hc)

theorem client_of_view {job : Option Job} {client : Client} {queued : List PolicyEntry}
    {assigned : List SlotTask} (hw : Wired s)
    (h : s.view id = ⟨job, some client, queued, assigned⟩) : id < u64Max :=
  hw.bounded id client (congrArg View.client h)

theorem receiving_insert (hw : Wired s) (key : ModelSlotKey) :
    ∀ k worker, (s.slots.insert key ⟨true, true⟩).lookup k = some worker →
      worker.receiving = true := by
  intro k worker h
  rw [AList.lookup_insert_ite] at h
  split at h
  · cases h
    rfl
  · exact hw.receiving k worker h

theorem wired_dispatch {spawn : Option String} (hw : Wired s)
    (h : s.dispatchOne spawn = some s') : Wired s' := by
  obtain ⟨selection, p, head, job, client, action, job', hd, hcase⟩ := dispatch_cases hw h
  obtain ⟨hflight, hrequest, hslot, _⟩ := taken_cases job job' action hd.taken
  have htaking := view_taking hd
  have hacked := hd.acked
  rcases hcase with ⟨_, message, _, rfl⟩ | ⟨_, rfl⟩
  · refine wired_of_touches hw ((htaking.trans (view_removeJob _ _)).trans
      (view_sendTerminal _ _ _)) ?_ rfl (client_of_view hw hd.view) hw.receiving
    rw [hd.view]
    exact gone_of_open _ client _ (terminalMessage_isToken _) hd.opened (by omega) (by omega)
  · refine wired_of_touches hw (htaking.trans (view_addTask _
      ⟨job.slot, head.entry.id, action, some selection⟩ _)) ?_ rfl (client_of_view hw hd.view)
      (receiving_insert hw job.slot)
    rw [hd.view]
    exact .executing job' client _ hflight hrequest hslot.symm hd.opened hd.acked

theorem view_submit {request : EngineRequest} (hup : s.shuttingDown = false) : Touches id
    (fun v => { v with
      job := some (Job.submitted request s.policy.round)
      client := some ⟨[], 0, true⟩
      queued := v.queued ++ [⟨id, request.flow, s.policy.round⟩] }) s (s.submit id request) := by
  intro c
  unfold State.submit
  rw [if_neg (Bool.eq_false_iff.mp hup)]
  unfold State.view FairPolicy.enqueue
  simp only [AList.lookup_insert_ite, List.filter_append]
  by_cases hc : c = id
  · subst hc
    simp
  · simp [hc, Ne.symm hc]

theorem view_refused {request : EngineRequest} (hdown : s.shuttingDown = true) : Touches id
    (fun v => { v with client := some ⟨[.failed shuttingDown], 0, true⟩ }) s
    (s.submit id request) := by
  intro c
  unfold State.submit
  rw [if_pos hdown]
  unfold State.view
  simp only [AList.lookup_insert_ite]
  split <;> rfl

theorem submit_shuttingDown (s : State) (id : ℕ) (request : EngineRequest) :
    (s.submit id request).shuttingDown = s.shuttingDown := by
  unfold State.submit
  split <;> rfl

theorem submit_counters (s : State) (id : ℕ) (request : EngineRequest)
    (hup : s.shuttingDown = false) : (s.submit id request).counters =
      { s.counters with admitted := s.counters.admitted + 1 } := by
  unfold State.submit
  rw [if_neg (Bool.eq_false_iff.mp hup)]

theorem submit_slots (s : State) (id : ℕ) (request : EngineRequest) :
    (s.submit id request).slots = s.slots := by
  unfold State.submit
  split <;> rfl

theorem wired_submit {request : EngineRequest} (hw : Wired s)
    (h : s.act (.submit id request) = some s') : Wired s' := by
  obtain ⟨hview, hid, rfl⟩ := submit_cases hw h
  cases hdown : s.shuttingDown with
  | true =>
    refine wired_of_touches hw (view_refused hdown) ?_ (submit_shuttingDown s id request) hid ?_
    · rw [hview]
      exact .gone _ (Or.inl ⟨[], _, rfl, nofun, rfl⟩) (Nat.zero_le _) (Nat.zero_le _)
    · rw [submit_slots]
      exact hw.receiving
  | false =>
    refine wired_of_touches hw (view_submit hdown) ?_ (submit_shuttingDown s id request) hid ?_
    · rw [hview]
      exact .runnable _ _ _ rfl rfl rfl nofun rfl
    · rw [submit_slots]
      exact hw.receiving

theorem wired_ack_gone (hw : Wired s) (hmay : s.mayAnswer id = true)
    (hgone : s.shuttingDown = true ∨ (s.view id).job = none) : Wired (s.ack id) := by
  rcases answer_cases hw hmay with ⟨client, hview, hlt⟩ | ⟨job, client, hview, hidle, hopen,
    hacked, _⟩
  · refine wired_of_touches hw (view_ack s id) ?_ rfl (client_of_view hw hview) hw.receiving
    have hphase := hw.phase id
    rw [hview] at hphase ⊢
    cases hphase with
    | gone _ hclosed _ hfew =>
      refine .gone _ hclosed ?_ ?_
      · exact hlt
      · exact hfew.trans (Nat.le_succ _)
  · refine wired_of_touches hw (view_ack s id) ?_ rfl (client_of_view hw hview) hw.receiving
    have hdown : s.shuttingDown = true := by
      rcases hgone with hdown | hnone
      · exact hdown
      · rw [hview] at hnone
        cases hnone
    rw [hview]
    refine .stranded job _ hdown hidle hopen ?_ ?_
    · exact hacked.le
    · exact hacked.ge.trans (Nat.le_succ _)

theorem wired_continue (hw : Wired s) (h : s.act (.continue id) = some s') : Wired s' := by
  obtain ⟨hmay, ⟨rfl, hgone⟩ | ⟨_, job, client, session, hwaits, rfl⟩⟩ := continue_cases hw h
  · exact wired_ack_gone hw hmay hgone
  · refine wired_of_touches hw (((view_ack s id).trans (view_enqueue (s.ack id) id job)).trans
      (view_subWaiting _ id)) ?_ rfl (client_of_view hw hwaits.view) hw.receiving
    rw [hwaits.view]
    refine .runnable job _ _ hwaits.idle ?_ rfl hwaits.opened hwaits.acked
    unfold Job.takeAction
    rw [hwaits.request, hwaits.session_eq]
    rfl

theorem view_stopping (s : State) (id : ℕ) (job : Job) : Touches id (fun v =>
    { job := some { job with session := none, inFlight := true }
      client := v.client.map (fun c => { c with acked := c.acked + 1 })
      queued := []
      assigned := v.assigned }) s (s.stopping id job) :=
  (((view_ack s id).trans (view_subWaiting _ id)).trans (view_unqueue _ id)).trans
    (view_putJob _ id _)

/-- An id without a job has no entries. -/
theorem wired_unqueue (hw : Wired s) (hgone : (s.view id).job = none) :
    Wired (s.unqueue id) where
  phase := by
    intro c
    rw [view_unqueue s id c]
    have hphase := hw.phase c
    split
    · rename_i hc
      rw [hc] at hphase ⊢
      change Phase s.shuttingDown { s.view id with queued := [] }
      generalize s.view id = v at hphase hgone
      cases hphase with
      | unused => exact .unused
      | gone client hclosed hacked hfew => exact .gone client hclosed hacked hfew
      | _ => cases hgone
    · exact hphase
  receiving := hw.receiving
  bounded := hw.bounded

theorem wired_subWaiting (hw : Wired s) : Wired s.subWaiting where
  phase := by
    intro c
    have hview := view_subWaiting s c c
    rw [if_pos rfl] at hview
    rw [hview]
    exact hw.phase c
  receiving := hw.receiving
  bounded := hw.bounded

theorem wired_stop {spawn : Option String} (hw : Wired s)
    (h : s.act (.stop id spawn) = some s') : Wired s' := by
  obtain ⟨hmay, hcase⟩ := stop_cases hw h
  rcases hcase with ⟨rfl, hdown⟩ | ⟨rfl, hup, hgone⟩ |
    ⟨hup, job, client, session, hwaits, ⟨_, message, _, rfl⟩ | ⟨_, rfl⟩⟩
  · exact wired_ack_gone hw hmay (Or.inl hdown)
  · exact wired_unqueue (wired_subWaiting (wired_ack_gone hw hmay (Or.inr hgone))) hgone
  · refine wired_of_touches hw (((view_stopping s id job).trans (view_removeJob _ id)).trans
      (view_sendTerminal _ id _)) ?_ rfl (client_of_view hw hwaits.view) hw.receiving
    rw [hwaits.view]
    refine gone_of_open _ { client with acked := client.acked + 1 } _
      (terminalMessage_isToken _) hwaits.opened ?_ ?_
    · exact hwaits.acked.le
    · exact hwaits.acked.ge.trans (Nat.le_succ _)
  · refine wired_of_touches hw ((view_stopping s id job).trans (view_addTask _
      ⟨job.slot, id, .finish session, none⟩ _)) ?_ rfl (client_of_view hw hwaits.view)
      (receiving_insert hw job.slot)
    rw [hwaits.view]
    exact .executing _ _ _ rfl hwaits.request rfl hwaits.opened hwaits.acked

theorem view_cancelling (s : State) (id : ℕ) (job : Job) : Touches id (fun v =>
    { job := none
      client := v.client.map (Client.receive (terminalMessage (.error cancelled)))
      queued := []
      assigned := v.assigned }) s (s.cancelling id job) :=
  (((view_unqueue s id).trans (view_removeJob _ id)).trans (view_sendTerminal _ id _)).trans
    (view_clearIfIdle _ id job.flow)

theorem wired_cancel (hw : Wired s) (h : s.act (.cancel id) = some s') : Wired s' := by
  rcases cancel_cases hw h with ⟨rfl, _⟩ | ⟨hup, hcase⟩
  · exact hw
  rcases hcase with ⟨rfl, hgone⟩ | ⟨job, client, task, hview, hflight, rfl⟩ |
    ⟨job, client, entry, hview, hidle, hopen, hacked, rfl⟩ |
    ⟨job, client, session, hwaits, rfl⟩
  · exact wired_unqueue hw hgone
  · refine wired_of_touches hw ((view_unqueue s id).trans (view_putJob _ id _)) ?_ rfl
      (client_of_view hw hview) hw.receiving
    have hphase := hw.phase id
    rw [hview] at hphase ⊢
    cases hphase with
    | executing _ _ _ _ hrequest hslot hopen hacked =>
      exact .executing _ client task hflight hrequest hslot hopen hacked
  · refine wired_of_touches hw (view_cancelling s id job) ?_ rfl (client_of_view hw hview)
      hw.receiving
    rw [hview]
    exact gone_of_open _ client _ rfl hopen hacked.le (hacked.ge.trans (Nat.le_succ _))
  · refine wired_of_touches hw ((view_subWaiting s id).trans
      (view_cancelling s.subWaiting id job)) ?_ rfl (client_of_view hw hwaits.view) hw.receiving
    rw [hwaits.view]
    have hacked := hwaits.acked
    exact gone_of_open _ client _ rfl hwaits.opened (by omega) (by omega)

theorem outcome_again (c l : Bool) (result : Except Error SessionStep)
    (h : outcome c l result = .again) : ∃ n, result = .ok (.progress n) := by
  match result with
  | .ok (.progress n) => exact ⟨n, rfl⟩
  | .ok (.token ..) => cases c <;> cases l <;> cases h
  | .ok (.finished _) => cases h
  | .error _ => cases h

/-- Only a token that is listened to makes its job wait. -/
theorem outcome_wait (c l : Bool) (result : Except Error SessionStep) (m : ClientMessage)
    (h : outcome c l result = .wait m) : m.isToken = true ∧ l = true ∧
      ∃ id piece control n, result = .ok (.token id piece control n) := by
  match result with
  | .ok (.progress n) => cases c <;> cases h
  | .ok (.token id piece control n) =>
    cases c <;> cases l <;> cases h
    exact ⟨rfl, rfl, id, piece, control, n, rfl⟩
  | .ok (.finished _) => cases h
  | .error _ => cases h

/-- An action that goes on returns its session. -/
theorem session_of_yields (action : SlotAction) (step : SessionStep) (session : Option Session)
    (hyields : yields action (.ok step) session = true)
    (hstep : ∀ output, step ≠ .finished output) : ∃ returned, session = some returned := by
  cases session with
  | some returned => exact ⟨returned, rfl⟩
  | none =>
    cases action with
    | start request => simp [yields] at hyields
    | step session => simp [yields] at hyields
    | finish session =>
      cases step with
      | finished output => exact absurd rfl (hstep output)
      | _ => simp [yields] at hyields

theorem receiving_modify (hw : Wired s) (key : ModelSlotKey) :
    ∀ k worker, (s.slots.modify key (fun w => { w with busy := false })).lookup k =
      some worker → worker.receiving = true := by
  intro k worker h
  rw [AList.lookup_modify] at h
  split at h
  · obtain ⟨w, hw', rfl⟩ := Option.map_eq_some_iff.mp h
    exact hw.receiving k w hw'
  · exact hw.receiving k worker h

theorem retire_slots (s : State) (key k : ModelSlotKey) (worker : SlotWorker)
    (h : (s.retireSlotIfIdle key).slots.lookup k = some worker) :
    s.slots.lookup k = some worker := by
  unfold State.retireSlotIfIdle at h
  split at h
  · exact h
  · change (s.slots.erase key).lookup k = some worker at h
    rw [AList.lookup_erase_ite] at h
    split at h
    · exact nomatch h
    · exact h

theorem retire_counters (s : State) (key : ModelSlotKey) :
    (s.retireSlotIfIdle key).counters = s.counters := by
  unfold State.retireSlotIfIdle
  split <;> rfl

theorem retire_shuttingDown (s : State) (key : ModelSlotKey) :
    (s.retireSlotIfIdle key).shuttingDown = s.shuttingDown := by
  unfold State.retireSlotIfIdle
  split <;> rfl

theorem wired_complete {key : ModelSlotKey} {result : Except Error SessionStep}
    {session : Option Session} (hw : Wired s)
    (h : s.act (.complete key result session) = some s') : Wired s' := by
  obtain ⟨task, job, client, hview, hfind, rfl, hflight, hrequest, hslot, hopen, hacked, hyields,
    rfl⟩ := complete_cases hw h
  have hid := client_of_view hw hview
  have hreturning := view_returning hview hfind result session
  have hreceiving := receiving_modify hw job.slot
  cases houtcome : outcome job.cancelRequested client.listening result with
  | terminal r =>
    refine wired_of_touches hw ((((hreturning.trans (view_removeJob _ _)).trans
      (view_sendTerminal _ _ r)).trans (view_clearIfIdle _ _ job.flow)).trans
      (view_retireSlotIfIdle _ _ job.slot)) ?_ ?_ hid ?_
    · rw [hview]
      exact gone_of_open _ client _ (terminalMessage_isToken r) hopen hacked.le
        (hacked.ge.trans (Nat.le_succ _))
    · exact retire_shuttingDown _ job.slot
    · intro k worker hk
      exact hreceiving k worker (retire_slots _ job.slot k worker hk)
  | wait m =>
    obtain ⟨hm, hlistening, _, _, _, _, rfl⟩ := outcome_wait _ _ _ _ houtcome
    obtain ⟨returned, rfl⟩ := session_of_yields _ _ _ hyields nofun
    obtain ⟨hopen', htokens⟩ := client.receive_token m hm hopen hlistening
    refine wired_of_touches hw ((hreturning.trans (view_post _ _ m)).trans
      (view_addWaiting _ _)) ?_ rfl hid hreceiving
    rw [hview]
    refine .waiting _ _ returned rfl hrequest rfl hopen' ?_
    rw [client.receive_acked, hacked, htokens]
  | again =>
    obtain ⟨n, rfl⟩ := outcome_again _ _ _ houtcome
    obtain ⟨returned, rfl⟩ := session_of_yields _ _ _ hyields nofun
    refine wired_of_touches hw (hreturning.trans (view_enqueue _ _ _)) ?_ rfl hid hreceiving
    rw [hview]
    refine .runnable _ client _ rfl ?_ rfl hopen hacked
    unfold Job.takeAction
    simp only [hrequest]
    rfl

theorem wired_shutdown (hw : Wired s) : Wired s.shutdown where
  phase := by
    intro c
    have hview : s.shutdown.view c = { s.view c with
        job := (s.view c).job.map Job.requestCancel
        queued := [] } := by
      unfold State.view State.shutdown
      simp only [AList.lookup_mapValues, List.filter_nil]
    rw [hview]
    have hphase := hw.phase c
    generalize s.view c = v at hphase
    change Phase true _
    cases hphase with
    | unused => exact .unused
    | runnable job client entry hidle htask hflow hopen hacked =>
      exact .stranded _ client rfl hidle hopen hacked.le (hacked.ge.trans (Nat.le_succ _))
    | executing job client task hflight hrequest hslot hopen hacked =>
      exact .executing _ client task hflight hrequest hslot hopen hacked
    | waiting job client session hidle hrequest hsession hopen hacked =>
      exact .waiting _ client session hidle hrequest hsession hopen hacked
    | stranded job client _ hidle hopen hacked hfew =>
      exact .stranded _ client rfl hidle hopen hacked hfew
    | gone client hclosed hacked hfew => exact .gone client hclosed hacked hfew
  receiving := hw.receiving
  bounded := hw.bounded

theorem wired_dropClient (hw : Wired s) (h : s.act (.dropClient id) = some s') : Wired s' := by
  obtain ⟨hlistens, heq⟩ := Option.ite_none_right_eq_some.mp h
  cases heq
  obtain ⟨client, hclient, _⟩ := (Option.any_eq_true _ _).mp hlistens
  refine wired_of_touches hw (view_dropClient s id) ?_ rfl (hw.bounded id client hclient)
    hw.receiving
  have hphase := hw.phase id
  generalize s.view id = v at hphase
  cases hphase with
  | unused => exact .unused
  | runnable job client entry hidle htask hflow hopen hacked =>
    exact .runnable job _ entry hidle htask hflow hopen hacked
  | executing job client task hflight hrequest hslot hopen hacked =>
    exact .executing job _ task hflight hrequest hslot hopen hacked
  | waiting job client session hidle hrequest hsession hopen hacked =>
    exact .waiting job _ session hidle hrequest hsession hopen hacked
  | stranded job client hdown hidle hopen hacked hfew =>
    exact .stranded job _ hdown hidle hopen hacked hfew
  | gone client hclosed hacked hfew =>
    exact .gone _ (hclosed.imp (fun h => h) (fun h => ⟨h.1, rfl⟩)) hacked hfew

/-- The flags of the loop. -/
def State.flags (s : State) : Bool × Bool := (s.shuttingDown, s.exited)

theorem retire_flags (s : State) (key : ModelSlotKey) :
    (s.retireSlotIfIdle key).flags = s.flags := by
  unfold State.retireSlotIfIdle
  split <;> rfl

theorem flags_step {a : Action} (hw : Wired s) (hstep : Step s a s') (hup : a ≠ .shutdown)
    (hruns : a ≠ .exit) : s'.flags = s.flags := by
  cases a with
  | dispatch spawn =>
    obtain ⟨_, _, _, _, _, _, _, _, ⟨_, _, _, rfl⟩ | ⟨_, rfl⟩⟩ :=
      dispatch_cases hw (Option.ite_none_left_eq_some.mp hstep).2 <;> rfl
  | submit id request =>
    obtain ⟨_, _, rfl⟩ := submit_cases hw hstep
    unfold State.submit
    split <;> rfl
  | «continue» id =>
    obtain ⟨_, ⟨rfl, _⟩ | ⟨_, _, _, _, _, rfl⟩⟩ := continue_cases hw hstep <;> rfl
  | stop id spawn =>
    obtain ⟨_, ⟨rfl, _⟩ | ⟨rfl, _, _⟩ | ⟨_, _, _, _, _, ⟨_, _, _, rfl⟩ | ⟨_, rfl⟩⟩⟩ :=
      stop_cases hw hstep <;> rfl
  | cancel id =>
    obtain ⟨rfl, _⟩ | ⟨_, ⟨rfl, _⟩ | ⟨_, _, _, _, _, rfl⟩ | ⟨_, _, _, _, _, _, _, rfl⟩ |
      ⟨_, _, _, _, rfl⟩⟩ := cancel_cases hw hstep <;> rfl
  | shutdown => exact absurd rfl hup
  | complete key result session =>
    obtain ⟨task, job, client, _, _, _, _, _, _, _, _, _, rfl⟩ := complete_cases hw hstep
    cases outcome job.cancelRequested client.listening result with
    | terminal r => exact retire_flags _ job.slot
    | _ => rfl
  | exit => exact absurd rfl hruns
  | dropClient id =>
    obtain ⟨_, heq⟩ := Option.ite_none_right_eq_some.mp hstep
    cases heq
    rfl

theorem exited_step {a : Action} (hw : Wired s) (hstep : Step s a s') (hruns : a ≠ .exit) :
    s'.exited = s.exited := by
  by_cases hup : a = .shutdown
  · subst hup
    obtain ⟨_, heq⟩ := Option.ite_none_right_eq_some.mp hstep
    cases heq
    rfl
  · exact congrArg Prod.snd (flags_step hw hstep hup hruns)

/-- Every step of a running scheduler keeps the phases. -/
theorem wired_step (hw : Wired s) (a : Action) (hstep : Step s a s')
    (hruns : s'.exited = false) : Wired s' := by
  cases a with
  | dispatch spawn =>
    exact wired_dispatch hw (Option.ite_none_left_eq_some.mp hstep).2
  | submit id request => exact wired_submit hw hstep
  | «continue» id => exact wired_continue hw hstep
  | stop id spawn => exact wired_stop hw hstep
  | cancel id => exact wired_cancel hw hstep
  | shutdown =>
    obtain ⟨_, heq⟩ := Option.ite_none_right_eq_some.mp hstep
    cases heq
    exact wired_shutdown hw
  | complete key result session => exact wired_complete hw hstep
  | exit =>
    obtain ⟨_, heq⟩ := Option.ite_none_right_eq_some.mp hstep
    cases heq
    cases hruns
  | dropClient id => exact wired_dropClient hw hstep

/-- Once the scheduler is gone, only clients go away. -/
theorem gone_step {a : Action} (hexited : s.exited = true)
    (hstep : Step s a s') : ∃ id, a = .dropClient id ∧ s'.slots = s.slots ∧
      s'.tasks = s.tasks ∧ s'.exited = true := by
  unfold State.Step State.act State.receives at hstep
  cases a with
  | dropClient id =>
    obtain ⟨_, heq⟩ := Option.ite_none_right_eq_some.mp hstep
    cases heq
    exact ⟨id, rfl, rfl, rfl, hexited⟩
  | _ => simp [hexited] at hstep

end Keeping

end Cusco.Scheduler
