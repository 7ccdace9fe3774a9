import Cusco.SchedulerSteps

/-!
What the scheduler keeps for its jobs. A worker that is not busy is kept for a live job of
its model, and the credit of a flow for a live job of the flow. The end of a completed job
gives both back. A cancellation leaves the worker, and a task that cannot be sent leaves the
credit: both stay for good unless another job has them too.
-/

namespace Cusco.Scheduler

open Infer (Error EngineOutput)
open SchedulerPolicy Selections Runs State

section Owners

/-- Some live job has the property. -/
def State.Has (s : State) (P : Job → Prop) : Prop :=
  ∃ id job, s.jobs.lookup id = some job ∧ P job

def State.HasOther (s : State) (id : ℕ) (P : Job → Prop) : Prop :=
  ∃ c job, c ≠ id ∧ s.jobs.lookup c = some job ∧ P job

/-- Workers and credits are kept for live jobs only. -/
structure Tidy (s : State) : Prop where
  workers : ∀ key worker, s.slots.lookup key = some worker → worker.busy = false →
    s.Has (fun job => job.slot = key)
  flows : ∀ flow, flow ∈ s.policy.deficits → s.Has (fun job => job.flow = flow)

variable {s s' : State} {id : ℕ} {f : View → View}

theorem other_of_has {P : Job → Prop} (h : s.Has P)
    (hid : ∀ job, s.jobs.lookup id = some job → ¬P job) : s.HasOther id P := by
  obtain ⟨c, job, hjob, hP⟩ := h
  refine ⟨c, job, ?_, hjob, hP⟩
  intro hc
  exact hid job (hc ▸ hjob) hP

theorem has_of_other (ht : Touches id f s s') {P : Job → Prop} (h : s.HasOther id P) :
    s'.Has P := by
  obtain ⟨c, job, hc, hjob, hP⟩ := h
  exact ⟨c, job, (congrArg View.job (ht.of_ne c hc)).trans hjob, hP⟩

theorem other_of_removed (ht : Touches id f s s') (hgone : (f (s.view id)).job = none)
    {P : Job → Prop} (h : s'.Has P) : s.HasOther id P := by
  obtain ⟨c, job, hjob, hP⟩ := h
  have hc : c ≠ id := by
    intro hc
    have hnone : s'.jobs.lookup id = none := (congrArg View.job ht.at_id).trans hgone
    rw [hc, hnone] at hjob
    cases hjob
  exact ⟨c, job, hc, (congrArg View.job (ht.of_ne c hc)).symm.trans hjob, hP⟩

/-- What a job is kept under. -/
def Job.belongs (job : Job) : ModelSlotKey × FlowKey := (job.slot, job.flow)

/-- A job that stays keeps its slot and its flow. -/
theorem has_of_kept (ht : Touches id f s s')
    (hkept : (f (s.view id)).job.map Job.belongs = (s.view id).job.map Job.belongs)
    (Q : ModelSlotKey × FlowKey → Prop) (h : s.Has (fun job => Q job.belongs)) :
    s'.Has (fun job => Q job.belongs) := by
  obtain ⟨c, job, hjob, hQ⟩ := h
  by_cases hc : c = id
  · have hview : (s.view id).job = some job := hc ▸ hjob
    rw [hview, Option.map_some, Option.map_eq_some_iff] at hkept
    obtain ⟨job', hjob', hbelongs⟩ := hkept
    refine ⟨id, job', (congrArg View.job ht.at_id).trans hjob', ?_⟩
    exact Eq.mpr (congrArg Q hbelongs) hQ
  · exact ⟨c, job, (congrArg View.job (ht.of_ne c hc)).trans hjob, hQ⟩

/-- A step that ends no job keeps the state tidy if what it adds has an owner. -/
theorem Tidy.kept (ht : Touches id f s s')
    (hkept : (f (s.view id)).job.map Job.belongs = (s.view id).job.map Job.belongs)
    (hworkers : ∀ key worker, s'.slots.lookup key = some worker → worker.busy = false →
      s.Has (fun job => job.slot = key))
    (hflows : ∀ flow, flow ∈ s'.policy.deficits → s.Has (fun job => job.flow = flow)) :
    Tidy s' where
  workers := by
    intro key worker hworker hidle
    exact has_of_kept ht hkept (fun b => b.1 = key) (hworkers key worker hworker hidle)
  flows := by
    intro flow hflow
    exact has_of_kept ht hkept (fun b => b.2 = flow) (hflows flow hflow)

/-- A step leaves a tidy state if all it leaves belongs to the jobs it does not touch. -/
theorem Tidy.of_others (ht : Touches id f s s')
    (hworkers : ∀ key worker, s'.slots.lookup key = some worker → worker.busy = false →
      s.HasOther id (fun job => job.slot = key))
    (hflows : ∀ flow, flow ∈ s'.policy.deficits →
      s.HasOther id (fun job => job.flow = flow)) : Tidy s' where
  workers := by
    intro key worker hworker hidle
    exact has_of_other ht (hworkers key worker hworker hidle)
  flows := by
    intro flow hflow
    exact has_of_other ht (hflows flow hflow)

end Owners

section Conditions

/-- A job that ends in the step without giving back its worker or its credit leaves them to
another job. -/
def LeavesToOthers (s : State) : Action → Prop
  | .dispatch spawn => spawn.isSome = true →
      ∀ x ∈ s.policy.select s.available, ∀ job ∈ s.jobs.lookup x.1.id,
        s.slots.lookup job.slot = none → s.HasOther x.1.id (fun other => other.flow = job.flow)
  | .stop id spawn => spawn.isSome = true → s.shuttingDown = false →
      ∀ job ∈ s.jobs.lookup id, s.slots.lookup job.slot = none → job.flow ∈ s.policy.deficits →
        s.HasOther id (fun other => other.flow = job.flow)
  | .cancel id => s.shuttingDown = false →
      ∀ job ∈ s.jobs.lookup id, job.inFlight = false → ∀ worker ∈ s.slots.lookup job.slot,
        worker.busy = false → s.HasOther id (fun other => other.slot = job.slot)
  | _ => True

end Conditions

section Steps

variable {s s' : State} {id : ℕ}

/-- The credits that a selection adds are those of runnable jobs. -/
theorem credited_of_select {selection : Selection} {p : FairPolicy} {head : Head} (hw : Wired s)
    (h : Tidy s) (hselects : Selects s.policy s.available selection p head) (flow : FlowKey)
    (hflow : flow ∈ p.deficits) : s.Has (fun job => job.flow = flow) := by
  rw [hselects.deficits_eq, mem_refillAll] at hflow
  rcases hflow with hflow | ⟨x, hx, rfl⟩
  · exact h.flows flow hflow
  · obtain ⟨hplace, _, _⟩ := heads_placed s.policy s.available x hx
    obtain ⟨job, client, hview, _, _, hentry, _⟩ :=
      runnable_of_entry hw x.entry (List.mem_of_getElem? hplace)
    exact ⟨x.entry.id, job, congrArg View.job hview, hentry.symm⟩

theorem tidy_dispatch {spawn : Option String} (hw : Wired s) (h : Tidy s)
    (hstep : s.dispatchOne spawn = some s') : Tidy s' ↔ LeavesToOthers s (.dispatch spawn) := by
  obtain ⟨selection, p, head, job, client, action, job', hd, hcase⟩ := dispatch_cases hw hstep
  obtain ⟨_, _, hslot', hflow'⟩ := taken_cases job job' action hd.taken
  have htaking := view_taking hd
  have hjob : s.jobs.lookup head.entry.id = some job := congrArg View.job hd.view
  have hcredited := credited_of_select hw h hd.selects
  have hcond : LeavesToOthers s (.dispatch spawn) ↔ (spawn.isSome = true →
      s.slots.lookup job.slot = none →
        s.HasOther head.entry.id (fun other => other.flow = job.flow)) := by
    unfold LeavesToOthers
    have hselected : s.jobs.lookup selection.id = some job := hd.selects.id_eq ▸ hjob
    simp only [hd.select_eq, Option.mem_def, Option.some.injEq, forall_eq', hselected,
      hd.selects.id_eq]
  rw [hcond]
  rcases hcase with ⟨hnone, message, rfl, rfl⟩ | ⟨hspawn, rfl⟩
  · have ht := (htaking.trans (view_removeJob _ _)).trans
      (view_sendTerminal _ head.entry.id (.error (Infer.state message)))
    constructor
    · intro htidy _ _
      refine other_of_removed ht rfl (htidy.flows job.flow ?_)
      change job.flow ∈ p.deficits
      rw [hd.selects.deficits_eq, mem_refillAll]
      exact Or.inr ⟨head, hd.selects.head, hd.flow⟩
    · intro hother
      refine Tidy.of_others ht ?_ ?_
      · intro key worker hworker hidle
        refine other_of_has (h.workers key worker hworker hidle) ?_
        intro found hfound hkey
        cases hjob.symm.trans hfound
        have hfree : s.slots.lookup key = none := hkey ▸ hnone
        cases hfree.symm.trans hworker
      · intro flow hflow
        by_cases heq : flow = job.flow
        · rw [heq]
          exact hother rfl hnone
        · refine other_of_has (hcredited flow hflow) ?_
          intro found hfound hfoundFlow
          cases hjob.symm.trans hfound
          exact heq hfoundFlow.symm
  · refine iff_of_true ?_ ?_
    · refine Tidy.kept (htaking.trans (view_addTask _
        ⟨job.slot, head.entry.id, action, some selection⟩ _)) ?_ ?_ hcredited
      · rw [hd.view]
        simp [Job.belongs, hslot', hflow']
      · intro key worker hworker hidle
        rw [AList.lookup_insert_ite] at hworker
        split at hworker
        · cases hworker
          cases hidle
        · exact h.workers key worker hworker hidle
    · intro hsome hnone
      rw [hspawn hnone] at hsome
      cases hsome

/-- A step that keeps the jobs, the workers and the credits. -/
theorem Tidy.same (h : Tidy s) {f : View → View} (ht : Touches id f s s')
    (hkept : (f (s.view id)).job.map Job.belongs = (s.view id).job.map Job.belongs)
    (hslots : s'.slots = s.slots) (hdeficits : s'.policy.deficits = s.policy.deficits) :
    Tidy s' :=
  Tidy.kept ht hkept (fun key worker hworker => h.workers key worker (hslots ▸ hworker))
    (fun flow hflow => h.flows flow (hdeficits ▸ hflow))

theorem tidy_stop {spawn : Option String} (hw : Wired s) (h : Tidy s)
    (hstep : s.act (.stop id spawn) = some s') : Tidy s' ↔ LeavesToOthers s (.stop id spawn) := by
  obtain ⟨_, hcase⟩ := stop_cases hw hstep
  rcases hcase with ⟨rfl, hdown⟩ | ⟨rfl, hup, hgone⟩ | ⟨hup, job, client, session, hwaits, hcase⟩
  · refine iff_of_true ?_ (fun _ hup => absurd (hup.symm.trans hdown) (by decide))
    exact h.same (view_ack s id) rfl rfl rfl
  · refine iff_of_true ?_ ?_
    · exact h.same (((view_ack s id).trans (view_subWaiting _ id)).trans (view_unqueue _ id))
        rfl rfl rfl
    · intro _ _ job hjob
      cases hgone.symm.trans hjob
  · have hjob : s.jobs.lookup id = some job := congrArg View.job hwaits.view
    have hcond : LeavesToOthers s (.stop id spawn) ↔ (spawn.isSome = true →
        s.slots.lookup job.slot = none → job.flow ∈ s.policy.deficits →
          s.HasOther id (fun other => other.flow = job.flow)) := by
      unfold LeavesToOthers
      simp only [hup, hjob, Option.mem_def, Option.some.injEq, forall_eq', true_implies]
    rw [hcond]
    rcases hcase with ⟨hnone, message, rfl, rfl⟩ | ⟨hspawn, rfl⟩
    · have ht := ((view_stopping s id job).trans (view_removeJob _ id)).trans
        (view_sendTerminal _ id (.error (Infer.state message)))
      constructor
      · intro htidy _ _ hflow
        exact other_of_removed ht rfl (htidy.flows job.flow hflow)
      · intro hother
        refine Tidy.of_others ht ?_ ?_
        · intro key worker hworker hidle
          refine other_of_has (h.workers key worker hworker hidle) ?_
          intro found hfound hkey
          cases hjob.symm.trans hfound
          have hfree : s.slots.lookup key = none := hkey ▸ hnone
          cases hfree.symm.trans hworker
        · intro flow hflow
          by_cases heq : flow = job.flow
          · rw [heq] at hflow ⊢
            exact hother rfl hnone hflow
          · refine other_of_has (h.flows flow hflow) ?_
            intro found hfound hfoundFlow
            cases hjob.symm.trans hfound
            exact heq hfoundFlow.symm
    · refine iff_of_true ?_ ?_
      · refine Tidy.kept ((view_stopping s id job).trans (view_addTask _
          ⟨job.slot, id, .finish session, none⟩ _)) ?_ ?_ h.flows
        · rw [hwaits.view]
          rfl
        · intro key worker hworker hidle
          rw [AList.lookup_insert_ite] at hworker
          split at hworker
          · cases hworker
            cases hidle
          · exact h.workers key worker hworker hidle
      · intro hsome hnone
        rw [hspawn hnone] at hsome
        cases hsome

theorem queued_owned (hw : Wired s) (e : PolicyEntry) (he : e ∈ s.policy.runnable) :
    s.Has (fun job => job.flow = e.flow) := by
  obtain ⟨job, client, hview, _, _, hflow, _⟩ := runnable_of_entry hw e he
  exact ⟨e.id, job, congrArg View.job hview, hflow.symm⟩

/-- The credit of a flow is forgotten unless a job of the flow lives. -/
theorem cleared_flows {flow g : FlowKey}
    (hqueued : ∀ e ∈ s.policy.runnable, s.Has (fun job => job.flow = e.flow))
    (hg : g ∈ (s.clearIfIdle flow).policy.deficits) :
    g ∈ s.policy.deficits ∧ (g = flow → s.Has (fun job => job.flow = flow)) := by
  unfold State.clearIfIdle FairPolicy.clearIfIdle at hg
  split at hg
  · obtain ⟨hne, hg⟩ := AList.mem_erase.mp hg
    exact ⟨hg, fun heq => absurd heq hne⟩
  · rename_i hbusy
    refine ⟨hg, fun _ => ?_⟩
    simp only [Bool.and_eq_true, Bool.not_eq_true', not_and_or, Bool.not_eq_false,
      List.any_eq_true, decide_eq_true_eq] at hbusy
    rcases hbusy with ⟨e, he, hflow⟩ | ⟨g', hg', rfl⟩
    · rw [← hflow]
      exact hqueued e he
    · obtain ⟨job, hjob, hflow⟩ := List.mem_map.mp hg'
      obtain ⟨id, hlookup⟩ := (AList.mem_values_iff _ _).mp hjob
      exact ⟨id, job, hlookup, hflow⟩

/-- After the end of a job the credit of its flow is kept only for another job. -/
theorem flows_of_ended {s₁ : State} {f : View → View} {job : Job}
    (hjob : s.jobs.lookup id = some job) (ht : Touches id f s s₁)
    (hgone : (f (s.view id)).job = none)
    (hqueued : ∀ e ∈ s₁.policy.runnable, s₁.Has (fun other => other.flow = e.flow))
    (hflows : ∀ flow, flow ∈ s₁.policy.deficits → s.Has (fun other => other.flow = flow))
    (flow : FlowKey) (hflow : flow ∈ (s₁.clearIfIdle job.flow).policy.deficits) :
    s.HasOther id (fun other => other.flow = flow) := by
  obtain ⟨hbefore, hkept⟩ := cleared_flows hqueued hflow
  by_cases heq : flow = job.flow
  · rw [heq]
    exact other_of_removed ht hgone (hkept heq)
  · refine other_of_has (hflows flow hbefore) ?_
    intro found hfound hfoundFlow
    cases hjob.symm.trans hfound
    exact heq hfoundFlow.symm

/-- A job that is cancelled while it is idle leaves its worker behind. -/
theorem tidy_cancelling {job : Job} (h : Tidy s) (hjob : s.jobs.lookup id = some job)
    (hw' : Wired (s.cancelling id job)) : Tidy (s.cancelling id job) ↔
      ∀ worker ∈ s.slots.lookup job.slot, worker.busy = false →
        s.HasOther id (fun other => other.slot = job.slot) := by
  have ht := view_cancelling s id job
  constructor
  · intro htidy worker hworker hidle
    exact other_of_removed ht rfl (htidy.workers job.slot worker hworker hidle)
  · intro hother
    refine Tidy.of_others ht ?_ ?_
    · intro key worker hworker hidle
      by_cases heq : key = job.slot
      · rw [heq] at hworker ⊢
        exact hother worker hworker hidle
      · refine other_of_has (h.workers key worker hworker hidle) ?_
        intro found hfound hkey
        cases hjob.symm.trans hfound
        exact heq hkey.symm
    · intro flow hflow
      have hbefore := ((view_unqueue s id).trans (view_removeJob _ id)).trans
        (view_sendTerminal _ id (.error cancelled))
      refine flows_of_ended hjob hbefore rfl ?_ h.flows flow hflow
      intro e he
      exact queued_owned hw' e ((clearIfIdle_runnable _ job.flow).symm ▸ he)

theorem tidy_cancel (hw : Wired s) (h : Tidy s) (hstep : s.act (.cancel id) = some s') :
    Tidy s' ↔ LeavesToOthers s (.cancel id) := by
  have hw' := wired_cancel hw hstep
  rcases cancel_cases hw hstep with ⟨rfl, hdown⟩ | ⟨hup, hcase⟩
  · exact iff_of_true h (fun hup => absurd (hup.symm.trans hdown) (by decide))
  rcases hcase with ⟨rfl, hgone⟩ | ⟨job, client, task, hview, hflight, rfl⟩ |
    ⟨job, client, entry, hview, hidle, hopen, hacked, rfl⟩ |
    ⟨job, client, session, hwaits, rfl⟩
  · refine iff_of_true (h.same (view_unqueue s id) rfl rfl rfl) ?_
    intro _ job hjob
    cases hgone.symm.trans hjob
  · refine iff_of_true ?_ ?_
    · refine h.same ((view_unqueue s id).trans (view_putJob _ id job.requestCancel)) ?_ rfl rfl
      rw [hview]
      rfl
    · intro _ found hfound hidle
      have hjob : s.jobs.lookup id = some job := congrArg View.job hview
      cases hjob.symm.trans hfound
      exact absurd (hidle.symm.trans hflight) (by decide)
  · have hjob : s.jobs.lookup id = some job := congrArg View.job hview
    rw [tidy_cancelling h hjob hw']
    unfold LeavesToOthers
    simp only [hup, hjob, hidle, Option.mem_def, Option.some.injEq, forall_eq', true_implies]
  · have hjob : s.jobs.lookup id = some job := congrArg View.job hwaits.view
    have hcounted : Tidy s.subWaiting := h.same (view_subWaiting s id) rfl rfl rfl
    rw [tidy_cancelling hcounted hjob hw']
    unfold LeavesToOthers
    simp only [hup, hjob, hwaits.idle, Option.mem_def, Option.some.injEq, forall_eq', true_implies]
    exact Iff.rfl

theorem mem_charged {flow g : FlowKey} {n : ℕ} {selection : Option Selection} {p : FairPolicy}
    (hg : g ∈ (chargeSelection flow n selection p).deficits) : g = flow ∨ g ∈ p.deficits := by
  unfold chargeSelection at hg
  split at hg
  · exact (AList.mem_insert _).mp hg
  · exact Or.inr hg

theorem retire_jobs (s : State) (key : ModelSlotKey) :
    (s.retireSlotIfIdle key).jobs = s.jobs := by
  unfold State.retireSlotIfIdle
  split <;> rfl

theorem retire_policy (s : State) (key : ModelSlotKey) :
    (s.retireSlotIfIdle key).policy = s.policy := by
  unfold State.retireSlotIfIdle
  split <;> rfl

/-- A worker that is not retired has a job. -/
theorem retire_kept {key : ModelSlotKey} {worker : SlotWorker} (s : State)
    (h : (s.retireSlotIfIdle key).slots.lookup key = some worker) :
    s.Has (fun job => job.slot = key) := by
  unfold State.retireSlotIfIdle at h
  split at h
  · rename_i hbusy
    obtain ⟨job, hjob, hslot⟩ := List.any_eq_true.mp hbusy
    obtain ⟨id, hlookup⟩ := (AList.mem_values_iff _ _).mp hjob
    exact ⟨id, job, hlookup, of_decide_eq_true hslot⟩
  · change (s.slots.erase key).lookup key = some worker at h
    rw [AList.lookup_erase_ite, if_pos rfl] at h
    cases h

theorem tidy_complete {key : ModelSlotKey} {result : Except Error SessionStep}
    {session : Option Session} (hw : Wired s) (h : Tidy s)
    (hstep : s.act (.complete key result session) = some s') : Tidy s' := by
  have hw' := wired_complete hw hstep
  obtain ⟨task, job, client, hview, hfind, rfl, _, _, hslot, _, _, _, rfl⟩ :=
    complete_cases hw hstep
  have hjob : s.jobs.lookup task.id = some job := congrArg View.job hview
  have hreturning := view_returning hview hfind result session
  have hworkers : ∀ k worker, (s.returning task job result session).slots.lookup k = some worker →
      worker.busy = false → s.Has (fun other => other.slot = k) := by
    intro k worker hworker hidle
    change (s.slots.modify job.slot _).lookup k = some worker at hworker
    rw [AList.lookup_modify] at hworker
    split at hworker
    · rename_i hk
      exact ⟨task.id, job, hjob, hk.symm⟩
    · exact h.workers k worker hworker hidle
  have hflows : ∀ flow, flow ∈ (s.returning task job result session).policy.deficits →
      s.Has (fun other => other.flow = flow) := by
    intro flow hflow
    rcases mem_charged hflow with rfl | hflow
    · exact ⟨task.id, job, hjob, rfl⟩
    · exact h.flows flow hflow
  cases houtcome : outcome job.cancelRequested client.listening result with
  | terminal r =>
    rw [houtcome] at hw'
    have hended := (hreturning.trans (view_removeJob _ task.id)).trans
      (view_sendTerminal _ task.id r)
    have hcleared := hended.trans (view_clearIfIdle _ task.id job.flow)
    refine Tidy.of_others (hcleared.trans (view_retireSlotIfIdle _ task.id job.slot)) ?_ ?_
    · intro k worker hworker hidle
      by_cases heq : k = job.slot
      · subst heq
        exact other_of_removed hcleared rfl (retire_kept _ hworker)
      · have hbefore := retire_slots _ job.slot k worker hworker
        refine other_of_has (hworkers k worker hbefore hidle) ?_
        intro found hfound hk
        cases hjob.symm.trans hfound
        exact heq hk.symm
    · intro flow hflow
      change flow ∈ (State.retireSlotIfIdle job.slot _).policy.deficits at hflow
      rw [retire_policy] at hflow
      refine flows_of_ended hjob hended rfl ?_ hflows flow hflow
      intro e he
      obtain ⟨c, other, hother, heflow⟩ := queued_owned hw' e (by
        change e ∈ (State.retireSlotIfIdle job.slot _).policy.runnable
        rw [retire_policy, clearIfIdle_runnable]
        exact he)
      change (State.retireSlotIfIdle job.slot _).jobs.lookup c = some other at hother
      rw [retire_jobs] at hother
      exact ⟨c, other, hother, heflow⟩
  | wait m =>
    refine Tidy.kept ((hreturning.trans (view_post _ _ m)).trans (view_addWaiting _ _)) ?_
      hworkers hflows
    rw [hview]
    rfl
  | again =>
    refine Tidy.kept (hreturning.trans (view_enqueue _ _ _)) ?_ hworkers hflows
    rw [hview]
    rfl

theorem tidy_shutdown (h : Tidy s) : Tidy s.shutdown := by
  have hcancelled : ∀ id job, s.jobs.lookup id = some job →
      s.shutdown.jobs.lookup id = some job.requestCancel := by
    intro id job hjob
    change (s.jobs.mapValues Job.requestCancel).lookup id = _
    rw [AList.lookup_mapValues, hjob]
    rfl
  constructor
  · intro key worker hworker hidle
    obtain ⟨id, job, hjob, hslot⟩ := h.workers key worker hworker hidle
    exact ⟨id, job.requestCancel, hcancelled id job hjob, hslot⟩
  · intro flow hflow
    obtain ⟨id, job, hjob, heq⟩ := h.flows flow hflow
    exact ⟨id, job.requestCancel, hcancelled id job hjob, heq⟩

/-- A step of a running scheduler keeps it tidy exactly when what an ended job leaves belongs
to another. -/
theorem tidy_step {a : Action} (hw : Wired s) (h : Tidy s) (hstep : Step s a s')
    (hruns : a ≠ .exit) : Tidy s' ↔ LeavesToOthers s a := by
  cases a with
  | dispatch spawn => exact tidy_dispatch hw h (Option.ite_none_left_eq_some.mp hstep).2
  | submit id request =>
    refine iff_of_true ?_ trivial
    obtain ⟨hview, _, rfl⟩ := submit_cases hw hstep
    cases hdown : s.shuttingDown with
    | true =>
      refine h.same (view_refused hdown) rfl (submit_slots s id request) ?_
      unfold State.submit
      rw [if_pos hdown]
    | false =>
      have hnew : ∀ job, s.jobs.lookup id ≠ some job := by
        intro job hjob
        exact nomatch (congrArg View.job hview).symm.trans hjob
      refine Tidy.of_others (view_submit hdown) ?_ ?_
      · intro key worker hworker hidle
        rw [submit_slots] at hworker
        exact other_of_has (h.workers key worker hworker hidle) (fun job hjob =>
          absurd hjob (hnew job))
      · intro flow hflow
        unfold State.submit at hflow
        rw [if_neg (Bool.eq_false_iff.mp hdown)] at hflow
        exact other_of_has (h.flows flow hflow) (fun job hjob => absurd hjob (hnew job))
  | «continue» id =>
    refine iff_of_true ?_ trivial
    obtain ⟨_, ⟨rfl, _⟩ | ⟨_, job, _, _, hwaits, rfl⟩⟩ := continue_cases hw hstep
    · exact h.same (view_ack s id) rfl rfl rfl
    · exact h.same (((view_ack s id).trans (view_enqueue _ id job)).trans (view_subWaiting _ id))
        rfl rfl rfl
  | stop id spawn => exact tidy_stop hw h hstep
  | cancel id => exact tidy_cancel hw h hstep
  | shutdown =>
    obtain ⟨_, heq⟩ := Option.ite_none_right_eq_some.mp hstep
    cases heq
    exact iff_of_true (tidy_shutdown h) trivial
  | complete key result session => exact iff_of_true (tidy_complete hw h hstep) trivial
  | exit => exact absurd rfl hruns
  | dropClient id =>
    obtain ⟨_, heq⟩ := Option.ite_none_right_eq_some.mp hstep
    cases heq
    exact iff_of_true (h.same (view_dropClient s id) rfl rfl rfl) trivial

end Steps

section Runs

/-- The state is tidy as long as the loop runs. -/
def TidyWhileRunning (s : State) : Prop := s.exited = false → Tidy s

/-- The scheduler keeps workers and credits for live jobs only, all along a run, exactly when
every job that ends without giving its own back leaves them to another job. -/
theorem tidy_iff_leaves_to_others (config : SchedulerPolicyConfig)
    (run : List (Action × State)) (hrun : IsRun Step (State.initial config) run) :
    (∀ x ∈ run, TidyWhileRunning x.2) ↔ Meets LeavesToOthers (State.initial config) run := by
  refine along_iff_meets Step (fun s => s.exited = true ∨ (s.exited = false ∧ Wired s))
    TidyWhileRunning LeavesToOthers ?_ ?_ (State.initial config) run ?_ ?_ hrun
  · intro s a s' h hstep
    rcases h with hexited | ⟨hruns, hw⟩
    · obtain ⟨_, _, _, _, hexited'⟩ := gone_step hexited hstep
      exact Or.inl hexited'
    · cases hexited' : s'.exited with
      | true => exact Or.inl rfl
      | false => exact Or.inr ⟨rfl, wired_step hw a hstep hexited'⟩
  · intro s a s' h htidy hstep
    rcases h with hexited | ⟨hruns, hw⟩
    · obtain ⟨id, rfl, _, _, hexited'⟩ := gone_step hexited hstep
      exact iff_of_true (fun hruns => absurd (hruns.symm.trans hexited') (by decide)) trivial
    · by_cases hexit : a = .exit
      · subst hexit
        obtain ⟨_, heq⟩ := Option.ite_none_right_eq_some.mp hstep
        cases heq
        exact iff_of_true nofun trivial
      · have hruns' : s'.exited = false := (exited_step hw hstep hexit).trans hruns
        rw [← tidy_step hw (htidy hruns) hstep hexit]
        exact ⟨fun h => h hruns', fun h _ => h⟩
  · exact Or.inr ⟨rfl, Wired.initial config⟩
  · exact fun _ => ⟨nofun, nofun⟩

section Examples

instance (s : State) (id : ℕ) (P : Job → Prop) [DecidablePred P] : Decidable (s.HasOther id P) :=
  decidable_of_iff (∃ e ∈ s.jobs.entries, e.1 ≠ id ∧ P e.2) (by
    constructor
    · intro ⟨⟨c, job⟩, hmem, hc, hP⟩
      exact ⟨c, job, hc, (AList.mem_entries_iff _ _ _).mp hmem, hP⟩
    · intro ⟨c, job, hc, hjob, hP⟩
      exact ⟨⟨c, job⟩, (AList.mem_entries_iff _ _ _).mpr hjob, hc, hP⟩)

instance (s : State) (a : Action) : Decidable (LeavesToOthers s a) :=
  match a with
  | .dispatch spawn => inferInstanceAs (Decidable (spawn.isSome = true →
      ∀ x ∈ s.policy.select s.available, ∀ job ∈ s.jobs.lookup x.1.id,
        s.slots.lookup job.slot = none → s.HasOther x.1.id (fun other => other.flow = job.flow)))
  | .stop id spawn => inferInstanceAs (Decidable (spawn.isSome = true → s.shuttingDown = false →
      ∀ job ∈ s.jobs.lookup id, s.slots.lookup job.slot = none → job.flow ∈ s.policy.deficits →
        s.HasOther id (fun other => other.flow = job.flow)))
  | .cancel id => inferInstanceAs (Decidable (s.shuttingDown = false →
      ∀ job ∈ s.jobs.lookup id, job.inFlight = false → ∀ worker ∈ s.slots.lookup job.slot,
        worker.busy = false → s.HasOther id (fun other => other.slot = job.slot)))
  | .submit _ _ | .continue _ | .shutdown | .complete _ _ _ | .exit | .dropClient _ =>
    isTrue trivial

/-- Two jobs of a model wait for their clients, and one is cancelled. -/
def cancelledBesideAnother : List Action :=
  untilToken ++ [.submit 1 sharedRequest, .dispatch none,
    .complete sharedSlot (.ok (.progress 1)) (some 8), .dispatch none,
    .complete sharedSlot (.ok (.token 5 [104] false 1)) (some 8), .cancel 0]

theorem cancel_beside_another_is_tidy : ∃ run, IsRun Step (State.initial .default) run ∧
    (last (State.initial .default) run).jobs.keys = [1] ∧
    ∀ x ∈ run, TidyWhileRunning x.2 := by
  have hrun : (trace State.act (State.initial .default) cancelledBesideAnother).any (fun run =>
      decide (Meets LeavesToOthers (State.initial .default) run ∧
        (last (State.initial .default) run).jobs.keys = [1])) = true := by
    decide +kernel
  obtain ⟨run, htrace, hchecks⟩ := (Option.any_eq_true _ _).mp hrun
  obtain ⟨hleaves, hjobs⟩ := of_decide_eq_true hchecks
  have hsteps := isRun_of_trace _ _ _ run htrace
  exact ⟨run, hsteps, hjobs, (tidy_iff_leaves_to_others .default run hsteps).mpr hleaves⟩

theorem untidy_of_no_jobs {s : State} (hruns : s.exited = false) (hjobs : s.jobs.keys = [])
    (hleft : (s.slots.lookup sharedSlot).any (fun worker => !worker.busy) = true ∨
      sharedRequest.flow ∈ s.policy.deficits) : ¬TidyWhileRunning s := by
  intro htidy
  have hnone : ∀ P, ¬s.Has P := by
    intro P ⟨id, job, hjob, _⟩
    have hmem : id ∈ s.jobs.keys :=
      AList.mem_keys.mp (AList.lookup_isSome.mp (Option.isSome_iff_exists.mpr ⟨job, hjob⟩))
    rw [hjobs] at hmem
    cases hmem
  rcases hleft with hworker | hflow
  · obtain ⟨worker, hworker, hidle⟩ := (Option.any_eq_true _ _).mp hworker
    exact hnone _ ((htidy hruns).workers sharedSlot worker hworker (by simpa using hidle))
  · exact hnone _ ((htidy hruns).flows _ hflow)

/-- The last job of a model is cancelled while its client holds a token: its worker stays. The
only job of a flow cannot be sent to a worker: the credit stays. -/
theorem ended_jobs_leave_worker_and_credit :
    (∃ run, IsRun Step (State.initial .default) run ∧
      (last (State.initial .default) run).jobs.keys = [] ∧
      ((last (State.initial .default) run).slots.lookup sharedSlot).isSome = true ∧
      ¬∀ x ∈ run, TidyWhileRunning x.2) ∧
    ∃ run, IsRun Step (State.initial .default) run ∧
      (last (State.initial .default) run).jobs.keys = [] ∧
      sharedRequest.flow ∈ (last (State.initial .default) run).policy.deficits ∧
      ¬∀ x ∈ run, TidyWhileRunning x.2 := by
  constructor
  · have hrun : (trace State.act (State.initial .default) (untilToken ++ [.cancel 0])).any
        (fun run => decide ((last (State.initial .default) run).jobs.keys = [] ∧
          ((last (State.initial .default) run).slots.lookup sharedSlot).isSome = true ∧
          run.any (fun x => !x.2.exited && x.2.jobs.keys = [] &&
            (x.2.slots.lookup sharedSlot).any (fun worker => !worker.busy)) = true)) = true := by
      decide +kernel
    obtain ⟨run, htrace, hchecks⟩ := (Option.any_eq_true _ _).mp hrun
    obtain ⟨hjobs, hworker, hsome⟩ := of_decide_eq_true hchecks
    refine ⟨run, isRun_of_trace _ _ _ run htrace, hjobs, hworker, fun hall => ?_⟩
    obtain ⟨x, hx, hleft⟩ := List.any_eq_true.mp hsome
    simp only [Bool.and_eq_true, Bool.not_eq_true', decide_eq_true_eq] at hleft
    exact untidy_of_no_jobs hleft.1.1 hleft.1.2 (Or.inl hleft.2) (hall x hx)
  · have hrun : (trace State.act (State.initial .default)
        [.submit 0 sharedRequest, .dispatch (some "no thread")]).any
        (fun run => decide ((last (State.initial .default) run).jobs.keys = [] ∧
          sharedRequest.flow ∈ (last (State.initial .default) run).policy.deficits ∧
          run.any (fun x => !x.2.exited && x.2.jobs.keys = [] &&
            decide (sharedRequest.flow ∈ x.2.policy.deficits)) = true)) = true := by
      decide +kernel
    obtain ⟨run, htrace, hchecks⟩ := (Option.any_eq_true _ _).mp hrun
    obtain ⟨hjobs, hcredit, hsome⟩ := of_decide_eq_true hchecks
    refine ⟨run, isRun_of_trace _ _ _ run htrace, hjobs, hcredit, fun hall => ?_⟩
    obtain ⟨x, hx, hleft⟩ := List.any_eq_true.mp hsome
    simp only [Bool.and_eq_true, Bool.not_eq_true', decide_eq_true_eq] at hleft
    exact untidy_of_no_jobs hleft.1.1 hleft.1.2 (Or.inr hleft.2) (hall x hx)

end Examples

end Runs

end Cusco.Scheduler
