import Cusco.SchedulerSteps

/-!
The slots and their backlogs. A slot without a worker has no task, an idle worker none and a
busy worker one. A dispatch looks for a free slot first, a stop does not: the workers stay
exclusive along a run exactly when every stop of a waiting job finds its slot free.
-/

namespace Cusco.Scheduler

open Infer (Error EngineOutput)
open SchedulerPolicy Selections Runs State

section Desks

/-- The tasks sent to a slot and not yet completed. -/
def State.outstanding (s : State) (key : ModelSlotKey) : List SlotTask :=
  s.tasks.filter (fun t => t.slot = key)

/-- A worker and its backlog. -/
inductive Desk : Option SlotWorker → List SlotTask → Prop
  | missing : Desk none []
  | idle (worker : SlotWorker) (hidle : worker.busy = false) : Desk (some worker) []
  | busy (worker : SlotWorker) (task : SlotTask) (hbusy : worker.busy = true) :
      Desk (some worker) [task]

def Manned (s : State) : Prop := ∀ key, Desk (s.slots.lookup key) (s.outstanding key)

/-- Each worker has at most one task, and is busy exactly when it has one. -/
def Exclusive (s : State) : Prop :=
  ∀ key worker, s.slots.lookup key = some worker →
    (s.outstanding key).length ≤ 1 ∧ (worker.busy = true ↔ s.outstanding key ≠ [])

/-- A slot is torn down only once its tasks are done. -/
def TearsDownIdle (s s' : State) : Prop :=
  ∀ key worker, s.slots.lookup key = some worker → s'.slots.lookup key = none →
    s'.outstanding key = []

theorem Desk.of_free {worker : Option SlotWorker} {tasks : List SlotTask}
    (h : Desk worker tasks) (hfree : worker.any SlotWorker.busy = false) : tasks = [] := by
  cases h with
  | missing => rfl
  | idle worker hidle => rfl
  | busy worker task hbusy => exact absurd (hfree.symm.trans hbusy) (by decide)

theorem Manned.exclusive {s : State} (h : Manned s) : Exclusive s := by
  intro key worker hworker
  have hdesk := h key
  rw [hworker] at hdesk
  generalize s.outstanding key = tasks at hdesk
  cases hdesk with
  | idle _ hidle => simp [hidle]
  | busy _ task hbusy => simp [hbusy]

variable {s s' : State}

theorem Manned.same (h : Manned s) (hslots : s'.slots = s.slots) (htasks : s'.tasks = s.tasks) :
    Manned s' ∧ TearsDownIdle s s' := by
  constructor
  · intro key
    have hdesk := h key
    unfold State.outstanding at hdesk ⊢
    rw [hslots, htasks]
    exact hdesk
  · intro key worker hworker hnone
    rw [hslots, hworker] at hnone
    cases hnone

theorem outstanding_append (s : State) (slots : Table ModelSlotKey SlotWorker) (task : SlotTask)
    (key : ModelSlotKey) :
    { s with slots := slots, tasks := s.tasks ++ [task] }.outstanding key =
      if key = task.slot then s.outstanding key ++ [task] else s.outstanding key := by
  unfold State.outstanding
  rw [List.filter_append]
  by_cases hkey : key = task.slot
  · simp [hkey]
  · simp [hkey, Ne.symm hkey]

/-- A task for a free slot makes its worker busy. -/
theorem Manned.sent (h : Manned s) (task : SlotTask)
    (hfree : (s.slots.lookup task.slot).any SlotWorker.busy = false)
    (hslots : s'.slots = s.slots.insert task.slot ⟨true, true⟩)
    (htasks : s'.tasks = s.tasks ++ [task]) : Manned s' ∧ TearsDownIdle s s' := by
  have houtstanding : ∀ key, s'.outstanding key =
      if key = task.slot then s.outstanding key ++ [task] else s.outstanding key := by
    intro key
    rw [← outstanding_append s s.slots task key]
    unfold State.outstanding
    rw [htasks]
  constructor
  · intro key
    rw [houtstanding key, hslots, AList.lookup_insert_ite]
    split
    · rename_i hkey
      rw [hkey, (h task.slot).of_free hfree]
      exact .busy ⟨true, true⟩ task rfl
    · exact h key
  · intro key worker hworker hnone
    rw [hslots, AList.lookup_insert_ite] at hnone
    split at hnone
    · cases hnone
    · rw [hworker] at hnone
      cases hnone

/-- A task for a busy slot is one too many. -/
theorem Exclusive.overloaded (h : Exclusive s) (task : SlotTask)
    (hbusy : (s.slots.lookup task.slot).any SlotWorker.busy = true)
    (hslots : s'.slots = s.slots.insert task.slot ⟨true, true⟩)
    (htasks : s'.tasks = s.tasks ++ [task]) : ¬Exclusive s' := by
  intro hexclusive
  obtain ⟨worker, hworker, hbusy⟩ := (Option.any_eq_true _ _).mp hbusy
  have hsome : s.outstanding task.slot ≠ [] := (h task.slot worker hworker).2.mp hbusy
  have hinserted : s'.slots.lookup task.slot = some ⟨true, true⟩ := by
    rw [hslots, AList.lookup_insert_ite, if_pos rfl]
  have hfew := (hexclusive task.slot _ hinserted).1
  have hmore : s'.outstanding task.slot = s.outstanding task.slot ++ [task] := by
    unfold State.outstanding
    rw [htasks, List.filter_append]
    simp
  have hpos := List.length_pos_iff.mpr hsome
  rw [hmore, List.length_append, List.length_singleton] at hfew
  omega

end Desks

section Keeping

variable {s s' : State} {id : ℕ}

theorem manned_dispatch {spawn : Option String} (hw : Wired s) (h : Manned s)
    (hstep : s.dispatchOne spawn = some s') : Manned s' ∧ TearsDownIdle s s' := by
  obtain ⟨selection, p, head, job, client, action, job', hd, ⟨_, _, _, rfl⟩ | ⟨_, rfl⟩⟩ :=
    dispatch_cases hw hstep
  · exact h.same rfl rfl
  · exact h.sent ⟨job.slot, head.entry.id, action, some selection⟩ hd.free rfl rfl

/-- The state before the step lets a stop have its slot to itself. -/
def StopsAlone (s : State) : Action → Prop
  | .stop id _ => s.shuttingDown = false → ∀ job, s.jobs.lookup id = some job →
      (s.slots.lookup job.slot).any SlotWorker.busy = false
  | _ => True

theorem manned_stop {spawn : Option String} (hw : Wired s) (h : Manned s)
    (halone : StopsAlone s (.stop id spawn)) (hstep : s.act (.stop id spawn) = some s') :
    Manned s' ∧ TearsDownIdle s s' := by
  obtain ⟨_, ⟨rfl, _⟩ | ⟨rfl, _, _⟩ |
    ⟨hup, job, client, session, hwaits, ⟨_, _, _, rfl⟩ | ⟨_, rfl⟩⟩⟩ := stop_cases hw hstep
  · exact h.same rfl rfl
  · exact h.same rfl rfl
  · exact h.same rfl rfl
  · exact h.sent ⟨job.slot, id, .finish session, none⟩
      (halone hup job (congrArg View.job hwaits.view)) rfl rfl

theorem crowded_stop {spawn : Option String} (hw : Wired s) (h : Exclusive s)
    (hcrowd : ¬StopsAlone s (.stop id spawn)) (hstep : s.act (.stop id spawn) = some s') :
    ¬Exclusive s' := by
  unfold StopsAlone at hcrowd
  push Not at hcrowd
  obtain ⟨hup, job, hjob, hbusy⟩ := hcrowd
  obtain ⟨_, ⟨_, hdown⟩ | ⟨_, _, hgone⟩ |
    ⟨_, found, client, session, hwaits, hcase⟩⟩ := stop_cases hw hstep
  · exact absurd (hup.symm.trans hdown) (by decide)
  · rw [show s.jobs.lookup id = none from hgone] at hjob
    cases hjob
  · have hfound : s.jobs.lookup id = some found := congrArg View.job hwaits.view
    cases hfound.symm.trans hjob
    rcases hcase with ⟨hnone, _⟩ | ⟨_, rfl⟩
    · rw [hnone] at hbusy
      exact absurd rfl hbusy
    · exact h.overloaded ⟨job.slot, id, .finish session, none⟩
        (Bool.eq_true_of_not_eq_false hbusy) rfl rfl

theorem outstanding_returning {s : State} {task : SlotTask}
    (hfind : s.tasks.find? (fun t => t.slot = task.slot) = some task) (job : Job)
    (result : Except Error SessionStep) (session : Option Session) (key : ModelSlotKey) :
    (s.returning task job result session).outstanding key =
      if key = task.slot then (s.outstanding key).tail else s.outstanding key := by
  obtain ⟨_, l₁, l₂, htasks, hbefore⟩ := List.find?_eq_some_iff_append.mp hfind
  have hfirst : l₁.filter (fun t => t.slot = task.slot) = [] := by
    rw [List.filter_eq_nil_iff]
    intro t ht
    simpa using hbefore t ht
  have herase : (s.returning task job result session).tasks = l₁ ++ l₂ := by
    unfold State.returning
    rw [htasks, List.eraseP_append_right _ (by simpa using hbefore)]
    simp
  unfold State.outstanding
  rw [herase, htasks]
  by_cases hkey : key = task.slot
  · rw [if_pos hkey, hkey, List.filter_append, List.filter_append, hfirst]
    simp
  · simp [hkey, Ne.symm hkey]

/-- The task of a busy worker comes back, and the worker is idle. -/
theorem manned_returning {task : SlotTask} {job : Job} (h : Manned s)
    (hfind : s.tasks.find? (fun t => t.slot = task.slot) = some task)
    (hslot : task.slot = job.slot) (result : Except Error SessionStep)
    (session : Option Session) : Manned (s.returning task job result session) := by
  intro key
  rw [outstanding_returning hfind]
  have hslots : (s.returning task job result session).slots =
    s.slots.modify job.slot (fun worker => { worker with busy := false }) := rfl
  rw [hslots, AList.lookup_modify, ← hslot]
  have hdesk := h key
  by_cases hkey : key = task.slot
  · rw [if_pos hkey, if_pos hkey]
    generalize s.outstanding key = tasks at hdesk
    generalize s.slots.lookup key = worker at hdesk
    cases hdesk with
    | missing => exact .missing
    | idle worker hidle => exact .idle _ rfl
    | busy worker task hbusy => exact .idle _ rfl
  · rw [if_neg hkey, if_neg hkey]
    exact hdesk

/-- No task is left for a slot that no job has. -/
theorem outstanding_of_unused (hw : Wired s) (key : ModelSlotKey)
    (hunused : ∀ id job, s.jobs.lookup id = some job → job.slot ≠ key) :
    s.outstanding key = [] := by
  unfold State.outstanding
  rw [List.filter_eq_nil_iff]
  intro t ht hslot
  obtain ⟨job, client, hview, _, _, hjob, _⟩ := executing_of_task hw t ht
  exact hunused t.id job (congrArg View.job hview) (hjob.symm.trans (of_decide_eq_true hslot))

theorem manned_retire (h : Manned s) (key : ModelSlotKey)
    (hw : Wired (s.retireSlotIfIdle key)) :
    Manned (s.retireSlotIfIdle key) ∧ TearsDownIdle s (s.retireSlotIfIdle key) := by
  unfold State.retireSlotIfIdle at hw ⊢
  split
  · exact h.same rfl rfl
  · rename_i hidle
    rw [if_neg hidle] at hw
    have hunused : { s with slots := s.slots.erase key }.outstanding key = [] := by
      apply outstanding_of_unused hw key
      intro id job hjob hslot
      apply hidle
      exact List.any_eq_true.mpr ⟨job, (AList.mem_values_iff _ _).mpr ⟨id, hjob⟩,
        decide_eq_true hslot⟩
    constructor
    · intro k
      have hdesk := h k
      change Desk ((s.slots.erase key).lookup k) (s.outstanding k)
      rw [AList.lookup_erase_ite]
      split
      · rename_i hk
        rw [hk, show s.outstanding key = [] from hunused]
        exact .missing
      · exact hdesk
    · intro k worker hworker hnone
      change (s.slots.erase key).lookup k = none at hnone
      rw [AList.lookup_erase_ite] at hnone
      split at hnone
      · rename_i hk
        rw [hk]
        exact hunused
      · rw [hworker] at hnone
        cases hnone

theorem manned_complete {key : ModelSlotKey} {result : Except Error SessionStep}
    {session : Option Session} (hw : Wired s) (h : Manned s)
    (hstep : s.act (.complete key result session) = some s') :
    Manned s' ∧ TearsDownIdle s s' := by
  have hw' := wired_complete hw hstep
  obtain ⟨task, job, client, _, hfind, rfl, _, _, hslot, _, _, _, rfl⟩ := complete_cases hw hstep
  have hreturning := manned_returning h hfind hslot result session
  have hkeeps : ∀ k worker, s.slots.lookup k = some worker →
      (s.returning task job result session).slots.lookup k ≠ none := by
    intro k worker hworker hnone
    change (s.slots.modify job.slot _).lookup k = none at hnone
    rw [AList.lookup_modify, hworker] at hnone
    split at hnone <;> cases hnone
  cases houtcome : outcome job.cancelRequested client.listening result with
  | terminal r =>
    rw [houtcome] at hw'
    have hbefore : Manned ((((s.returning task job result session).removeJob
        task.id).sendTerminal task.id r).clearIfIdle job.flow) :=
      (hreturning.same rfl rfl).1
    obtain ⟨hmanned, htorn⟩ := manned_retire hbefore job.slot hw'
    refine ⟨hmanned, fun k worker hworker => ?_⟩
    obtain ⟨returned, hreturned⟩ := Option.ne_none_iff_exists'.mp (hkeeps k worker hworker)
    exact htorn k returned hreturned
  | wait m =>
    exact ⟨(hreturning.same rfl rfl).1, fun k worker hworker hnone =>
      absurd hnone (hkeeps k worker hworker)⟩
  | again =>
    exact ⟨(hreturning.same rfl rfl).1, fun k worker hworker hnone =>
      absurd hnone (hkeeps k worker hworker)⟩

theorem foldl_post_tasks (ids : List ℕ) (m : ClientMessage) (s : State) :
    (ids.foldl (fun s id => s.post id m) s).tasks = s.tasks := by
  induction ids generalizing s with
  | nil => rfl
  | cons id rest ih => exact ih (s.post id m)

/-- The scheduler exits only when no worker is busy. -/
theorem torn_exit (h : Manned s) (hstep : s.act .exit = some s') :
    Exclusive s' ∧ TearsDownIdle s s' := by
  obtain ⟨hguard, heq⟩ := Option.ite_none_right_eq_some.mp hstep
  cases heq
  constructor
  · intro key worker hworker
    exact nomatch hworker
  · intro key worker hworker _
    have hdrained : s.slots.values.any SlotWorker.busy = false := by
      simp only [State.drained, Bool.and_eq_true, Bool.not_eq_true'] at hguard
      exact hguard.2.2
    have hidle : worker.busy = false := by
      have hmem : worker ∈ s.slots.values := (AList.mem_values_iff _ _).mpr ⟨key, hworker⟩
      simpa using List.any_eq_false.mp hdrained worker hmem
    have hdesk := h key
    have hfree : (s.slots.lookup key).any SlotWorker.busy = false := by
      rw [hworker]
      exact hidle
    have hnone := hdesk.of_free hfree
    unfold State.outstanding at hnone ⊢
    change (s.jobs.keys.foldl _ s).tasks.filter _ = []
    rw [foldl_post_tasks]
    exact hnone

/-- A step other than an exit, whose stop has its slot to itself, keeps the desks. -/
theorem manned_step {a : Action} (hw : Wired s) (h : Manned s) (hstep : Step s a s')
    (hruns : a ≠ .exit) (halone : StopsAlone s a) : Manned s' ∧ TearsDownIdle s s' := by
  cases a with
  | dispatch spawn => exact manned_dispatch hw h (Option.ite_none_left_eq_some.mp hstep).2
  | submit id request =>
    obtain ⟨_, _, rfl⟩ := submit_cases hw hstep
    refine h.same (submit_slots s id request) ?_
    unfold State.submit
    split <;> rfl
  | «continue» id =>
    obtain ⟨_, ⟨rfl, _⟩ | ⟨_, _, _, _, _, rfl⟩⟩ := continue_cases hw hstep <;> exact h.same rfl rfl
  | stop id spawn => exact manned_stop hw h halone hstep
  | cancel id =>
    obtain ⟨rfl, _⟩ | ⟨_, ⟨rfl, _⟩ | ⟨_, _, _, _, _, rfl⟩ | ⟨_, _, _, _, _, _, _, rfl⟩ |
      ⟨_, _, _, _, rfl⟩⟩ := cancel_cases hw hstep <;> exact h.same rfl rfl
  | shutdown =>
    obtain ⟨_, heq⟩ := Option.ite_none_right_eq_some.mp hstep
    cases heq
    exact h.same rfl rfl
  | complete key result session => exact manned_complete hw h hstep
  | exit => exact absurd rfl hruns
  | dropClient id =>
    obtain ⟨_, heq⟩ := Option.ite_none_right_eq_some.mp hstep
    cases heq
    exact h.same rfl rfl

end Keeping

section Runs

/-- What every run keeps as long as stops have their slots to themselves. -/
def Staffed (s : State) : Prop :=
  (s.exited = true ∧ s.slots = ∅) ∨ (s.exited = false ∧ Wired s ∧ Manned s)

theorem Staffed.exclusive {s : State} (h : Staffed s) : Exclusive s := by
  rcases h with ⟨_, hempty⟩ | ⟨_, _, hmanned⟩
  · intro key worker hworker
    rw [hempty] at hworker
    cases hworker
  · exact hmanned.exclusive

/-- The promises on slots that a step can break. -/
def SlotsSafe (s s' : State) : Prop := Exclusive s' ∧ TearsDownIdle s s'

theorem staffed_step {s s' : State} {a : Action} (h : Staffed s) (hstep : Step s a s')
    (halone : StopsAlone s a) : Staffed s' ∧ SlotsSafe s s' := by
  rcases h with ⟨hexited, hempty⟩ | ⟨hruns, hw, hmanned⟩
  · obtain ⟨id, rfl, hslots, _, hexited'⟩ := gone_step hexited hstep
    have hstaffed : Staffed s' := Or.inl ⟨hexited', hslots.trans hempty⟩
    refine ⟨hstaffed, hstaffed.exclusive, ?_⟩
    intro key worker hworker
    rw [hempty] at hworker
    cases hworker
  · by_cases hexit : a = .exit
    · subst hexit
      have hsafe := torn_exit hmanned hstep
      obtain ⟨_, heq⟩ := Option.ite_none_right_eq_some.mp hstep
      cases heq
      exact ⟨Or.inl ⟨rfl, rfl⟩, hsafe⟩
    · obtain ⟨hmanned', htorn⟩ := manned_step hw hmanned hstep hexit halone
      have hruns' : s'.exited = false := (exited_step hw hstep hexit).trans hruns
      exact ⟨Or.inr ⟨hruns', wired_step hw a hstep hruns', hmanned'⟩, hmanned'.exclusive, htorn⟩

/-- The slots are safe after a step exactly when a stop has its slot to itself. -/
theorem slotsSafe_iff {s s' : State} {a : Action} (h : Staffed s) (hstep : Step s a s') :
    SlotsSafe s s' ↔ StopsAlone s a := by
  by_cases halone : StopsAlone s a
  · exact iff_of_true (staffed_step h hstep halone).2 halone
  · refine iff_of_false (fun hsafe => ?_) halone
    cases a with
    | stop id spawn =>
      rcases h with ⟨hexited, _⟩ | ⟨_, hw, hmanned⟩
      · obtain ⟨_, heq, _⟩ := gone_step hexited hstep
        cases heq
      · exact crowded_stop hw hmanned.exclusive halone hstep hsafe.1
    | _ => exact halone trivial

/-- The slots are safe all along a run exactly when every stop has its slot to itself. -/
theorem slots_safe_iff_stops_alone (config : SchedulerPolicyConfig)
    (run : List (Action × State)) (hrun : IsRun Step (State.initial config) run) :
    Along (fun s _ s' => SlotsSafe s s') (State.initial config) run ↔
      Meets StopsAlone (State.initial config) run := by
  refine along_steps_iff_meets Step Staffed (fun s _ s' => SlotsSafe s s') StopsAlone
    (fun _ _ _ => slotsSafe_iff)
    (fun _ _ _ h hstep halone => (staffed_step h hstep halone).1) (State.initial config) run ?_ hrun
  exact Or.inr ⟨rfl, Wired.initial config, fun _ => .missing⟩

section Examples

instance (s : State) (a : Action) : Decidable (StopsAlone s a) :=
  match a with
  | .stop id _ => decidable_of_iff (s.shuttingDown = false → ∀ job ∈ (s.jobs.lookup id).toList,
      (s.slots.lookup job.slot).any SlotWorker.busy = false)
      (by simp only [StopsAlone, Option.mem_toList])
  | .dispatch _ | .submit _ _ | .continue _ | .cancel _ | .shutdown | .complete _ _ _ | .exit
  | .dropClient _ => isTrue trivial

theorem stop_on_idle_slot_is_safe : ∃ run, IsRun Step (State.initial .default) run ∧
    run.length = 8 ∧ Along (fun s _ s' => SlotsSafe s s') (State.initial .default) run := by
  have hrun : (trace State.act (State.initial .default) (untilToken ++ [.stop 0 none,
      .complete sharedSlot (.ok (.finished ⟨[1, 5], 1, 0, 1⟩)) none, .shutdown])).any (fun run =>
      decide (Meets StopsAlone (State.initial .default) run ∧ run.length = 8)) = true := by
    decide +kernel
  obtain ⟨run, htrace, hchecks⟩ := (Option.any_eq_true _ _).mp hrun
  obtain ⟨halone, hlength⟩ := of_decide_eq_true hchecks
  have hsteps := isRun_of_trace _ _ _ run htrace
  exact ⟨run, hsteps, hlength, (slots_safe_iff_stops_alone .default run hsteps).mpr halone⟩

/-- A second job of the model executes when the first is stopped. -/
def stoppedBesideAnother : List Action :=
  untilToken ++ [.submit 1 sharedRequest, .dispatch none, .stop 0 none, .shutdown,
    .complete sharedSlot (.ok (.progress 1)) (some 8), .exit]

/-- The slot has two tasks at once, and is torn down while the second is left. -/
theorem stop_beside_another_overloads : ∃ run, IsRun Step (State.initial .default) run ∧
    (∃ x ∈ run, (x.2.outstanding sharedSlot).length = 2) ∧
    (last (State.initial .default) run).exited = true ∧
    (last (State.initial .default) run).outstanding sharedSlot ≠ [] ∧
    ¬Along (fun s _ s' => SlotsSafe s s') (State.initial .default) run := by
  have hrun : (trace State.act (State.initial .default) stoppedBesideAnother).any (fun run =>
      run.any (fun x => (x.2.slots.lookup sharedSlot).isSome &&
        (x.2.outstanding sharedSlot).length = 2) &&
      ((last (State.initial .default) run).exited &&
        !((last (State.initial .default) run).outstanding sharedSlot).isEmpty)) = true := by
    decide +kernel
  obtain ⟨run, htrace, hchecks⟩ := (Option.any_eq_true _ _).mp hrun
  simp only [Bool.and_eq_true, decide_eq_true_eq, Bool.not_eq_true', List.any_eq_true,
    List.isEmpty_eq_false_iff] at hchecks
  obtain ⟨⟨x, hx, hworker, htwo⟩, hexited, hleft⟩ := hchecks
  refine ⟨run, isRun_of_trace _ _ _ run htrace, ⟨x, hx, htwo⟩, hexited, hleft, fun hall => ?_⟩
  obtain ⟨_, hexclusive, _⟩ := along_mem _ _ run hall x hx
  obtain ⟨worker, hworker⟩ := Option.isSome_iff_exists.mp hworker
  have hfew := (hexclusive sharedSlot worker hworker).1
  omega

end Examples

end Runs

end Cusco.Scheduler
