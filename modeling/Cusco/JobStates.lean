import Cusco.SchedulerSteps
import Mathlib.Data.Finset.Card

/-!
The states of the jobs before the shutdown. A live job is runnable, in flight or waiting for
its client, its client has at most one token to acknowledge, and the terminal message is the
last one. The counters add up over the jobs, except that a stop of a job that is already
gone counts down the waiting jobs once more: they add up along a run exactly when every
stop finds its job.
-/

namespace Cusco.Scheduler

open Infer (Error EngineOutput)
open SchedulerPolicy Runs State

section Totals

/-- The sum over the jobs of a measure of their views. -/
def State.sum (s : State) (μ : View → ℕ) : ℕ := s.jobs.total (fun id _ => μ (s.view id))

theorem sum_split (s : State) (μ : View → ℕ) (hμ : ∀ v, v.job = none → μ v = 0) (id : ℕ) :
    s.sum μ = μ (s.view id) + (s.jobs.erase id).total (fun c _ => μ (s.view c)) := by
  unfold State.sum
  cases hjob : s.jobs.lookup id with
  | none => rw [hμ (s.view id) hjob, AList.erase_of_lookup_none _ _ hjob, Nat.zero_add]
  | some job => exact AList.total_erase _ _ _ _ hjob

/-- A step that touches one id changes a sum by what that id measures. -/
theorem sum_touches {s s' : State} {id : ℕ} {f : View → View} (ht : Touches id f s s')
    (μ : View → ℕ) (hμ : ∀ v, v.job = none → μ v = 0) :
    s'.sum μ + μ (s.view id) = s.sum μ + μ (f (s.view id)) := by
  have hrest : (s'.jobs.erase id).total (fun c _ => μ (s'.view c)) =
      (s.jobs.erase id).total (fun c _ => μ (s.view c)) := by
    have hlookup : ∀ c, (s'.jobs.erase id).lookup c = (s.jobs.erase id).lookup c := by
      intro c
      rw [AList.lookup_erase_ite, AList.lookup_erase_ite]
      by_cases hc : c = id
      · rw [if_pos hc, if_pos hc]
      · rw [if_neg hc, if_neg hc]
        exact congrArg View.job (ht.of_ne c hc)
    rw [AList.total_of_lookup _ _ _ hlookup]
    apply AList.total_congr
    intro c job hjob
    rw [AList.lookup_erase_ite] at hjob
    by_cases hc : c = id
    · rw [if_pos hc] at hjob
      cases hjob
    · rw [ht.of_ne c hc]
  rw [sum_split s' μ hμ id, sum_split s μ hμ id, hrest, ht.at_id]
  omega

def View.live (v : View) : ℕ := v.job.elim 0 (fun _ => 1)

/-- A live job whose client has a token to acknowledge. -/
def View.waits (v : View) : ℕ :=
  v.job.elim 0 (fun _ => (v.client.any (fun c => c.acked < c.tokens)).toNat)

theorem live_of_none (v : View) (h : v.job = none) : v.live = 0 := by
  unfold View.live
  rw [h]
  rfl

theorem waits_of_none (v : View) (h : v.job = none) : v.waits = 0 := by
  unfold View.waits
  rw [h]
  rfl

def State.liveJobs (s : State) : ℕ := s.sum View.live

def State.waitingJobs (s : State) : ℕ := s.sum View.waits

/-- There are fewer jobs than identifiers. -/
theorem liveJobs_le {s : State} (hw : Wired s) : s.liveJobs ≤ u64Max := by
  have hcount : s.liveJobs = s.jobs.keys.length := by
    unfold State.liveJobs State.sum
    rw [AList.total_congr (fun id _ => (s.view id).live) (fun _ _ => 1) s.jobs]
    · simp [AList.total, AList.keys, List.keys]
    · intro id job hjob
      have hview : (s.view id).job = some job := hjob
      unfold View.live
      rw [hview]
      rfl
  have hsub : s.jobs.keys.toFinset ⊆ Finset.range u64Max := by
    intro id hid
    have hmem : id ∈ s.jobs := AList.mem_keys.mp (List.mem_toFinset.mp hid)
    obtain ⟨job, hjob⟩ := Option.isSome_iff_exists.mp (AList.lookup_isSome.mpr hmem)
    have hview : (s.view id).job = some job := hjob
    have hphase := hw.phase id
    refine Finset.mem_range.mpr ?_
    generalize hv : s.view id = v at hphase hview
    cases hphase with
    | unused => cases hview
    | gone client => cases hview
    | runnable _ client => exact hw.bounded id client (congrArg View.client hv)
    | executing _ client => exact hw.bounded id client (congrArg View.client hv)
    | waiting _ client => exact hw.bounded id client (congrArg View.client hv)
    | stranded _ client => exact hw.bounded id client (congrArg View.client hv)
  have hcard := Finset.card_le_card hsub
  rw [Finset.card_range, List.toFinset_card_of_nodup (AList.keys_nodup s.jobs)] at hcard
  rw [hcount]
  exact hcard

end Totals

section Books

/-- The jobs that the counters say have ended. -/
def SchedulerCounters.ended (c : SchedulerCounters) : ℕ :=
  c.completed + c.cancelled + c.deadlines + c.failed

theorem count_ended (result : Except Error EngineOutput) (c : SchedulerCounters) :
    (c.count result).ended = c.ended + 1 := by
  unfold SchedulerCounters.count SchedulerCounters.ended
  split <;> simp only <;> omega

@[simp] theorem count_admitted (result : Except Error EngineOutput) (c : SchedulerCounters) :
    (c.count result).admitted = c.admitted := by
  unfold SchedulerCounters.count
  split <;> rfl

@[simp] theorem count_waiting (result : Except Error EngineOutput) (c : SchedulerCounters) :
    (c.count result).waiting = c.waiting := by
  unfold SchedulerCounters.count
  split <;> rfl

/-- A terminal result moves one job from the live to the ended ones. -/
theorem count_balance (result : Except Error EngineOutput) (c : SchedulerCounters) :
    (c.count result).admitted + c.ended + 1 = c.admitted + (c.count result).ended + 0 := by
  rw [count_admitted, count_ended]
  omega

/-- Every job that was admitted has ended or lives. -/
def Counted (s : State) : Prop :=
  s.counters.admitted = s.counters.ended + s.liveJobs

/-- A step keeps the count of the jobs, and the counter of the waiting ones follows them. -/
structure Books (s s' : State) : Prop where
  counted : Counted s → Counted s'
  waiting : (s'.counters.waiting = s.counters.waiting ∧ s'.waitingJobs = s.waitingJobs) ∨
    (s'.counters.waiting = fetchAdd s.counters.waiting ∧
      s'.waitingJobs = s.waitingJobs + 1 ∧ s.waitingJobs < s.liveJobs) ∨
    (s'.counters.waiting = fetchSub s.counters.waiting ∧ s.waitingJobs = s'.waitingJobs + 1)

/-- The counter of the waiting jobs is right. -/
def Waiting (s : State) : Prop := s.counters.waiting = s.waitingJobs

theorem fetchSub_ne (n : ℕ) : fetchSub n ≠ n := by
  unfold fetchSub
  split
  · rename_i h
    rw [h]
    decide
  · omega

theorem Books.waits {s s' : State} (h : Books s s') (hw : Wired s) (hs : Waiting s) :
    Waiting s' := by
  have hlive := liveJobs_le hw
  unfold Waiting at hs ⊢
  rcases h.waiting with ⟨hcounter, hjobs⟩ | ⟨hcounter, hjobs, hless⟩ | ⟨hcounter, hjobs⟩
  · rw [hcounter, hjobs, hs]
  · unfold fetchAdd at hcounter
    rw [if_neg (by omega)] at hcounter
    omega
  · unfold fetchSub at hcounter
    rw [if_neg (by omega)] at hcounter
    omega

theorem waitingJobs_lt (s : State) (id : ℕ) (h : (s.view id).waits < (s.view id).live) :
    s.waitingJobs < s.liveJobs := by
  have hrest : (s.jobs.erase id).total (fun c _ => (s.view c).waits) ≤
      (s.jobs.erase id).total (fun c _ => (s.view c).live) := by
    apply AList.total_mono
    intro c job _
    unfold View.waits View.live
    cases (s.view c).job with
    | none => exact le_rfl
    | some job => exact Bool.toNat_le _
  have hwaits := sum_split s View.waits waits_of_none id
  have hlive := sum_split s View.live live_of_none id
  unfold State.waitingJobs State.liveJobs
  omega

/-- The books after a step that touches one id, from what it did to the counters and to the
view of that id. -/
theorem books_of_touches {s s' : State} {id : ℕ} {f : View → View} {v v' : View}
    (ht : Touches id f s s') (hv : s.view id = v) (hv' : f v = v')
    (hcounted : s'.counters.admitted + s.counters.ended + v.live =
      s.counters.admitted + s'.counters.ended + v'.live)
    (hwaiting : (s'.counters.waiting = s.counters.waiting ∧ v'.waits = v.waits) ∨
      (s'.counters.waiting = fetchAdd s.counters.waiting ∧ v'.waits = v.waits + 1 ∧
        v.waits < v.live) ∨
      (s'.counters.waiting = fetchSub s.counters.waiting ∧ v.waits = v'.waits + 1)) :
    Books s s' := by
  have hlive := sum_touches ht View.live live_of_none
  have hwaits := sum_touches ht View.waits waits_of_none
  rw [hv, hv'] at hlive hwaits
  constructor
  · unfold Counted State.liveJobs
    omega
  · rcases hwaiting with ⟨hcounter, heq⟩ | ⟨hcounter, heq, hless⟩ | ⟨hcounter, heq⟩
    · refine Or.inl ⟨hcounter, ?_⟩
      unfold State.waitingJobs
      omega
    · refine Or.inr (Or.inl ⟨hcounter, ?_, waitingJobs_lt s id (hv ▸ hless)⟩)
      unfold State.waitingJobs
      omega
    · refine Or.inr (Or.inr ⟨hcounter, ?_⟩)
      unfold State.waitingJobs
      omega

section Measures

variable (job : Job) (client : Client) (queued : List PolicyEntry) (assigned : List SlotTask)

theorem waits_of_acked (h : client.acked = client.tokens) :
    View.waits ⟨some job, some client, queued, assigned⟩ = 0 := by
  unfold View.waits
  simp [h]

theorem waits_of_unacked (h : client.acked + 1 = client.tokens) :
    View.waits ⟨some job, some client, queued, assigned⟩ = 1 := by
  unfold View.waits
  have hlt : client.acked < client.tokens := by omega
  simp [hlt]

end Measures

variable {s s' : State} {id : ℕ}

theorem books_dispatch {spawn : Option String} (hw : Wired s)
    (h : s.dispatchOne spawn = some s') : Books s s' := by
  obtain ⟨selection, p, head, job, client, action, job', hd, hcase⟩ := dispatch_cases hw h
  have htaking := view_taking hd
  have hbefore := waits_of_acked job client [head.entry] [] hd.acked
  rcases hcase with ⟨_, message, _, rfl⟩ | ⟨_, rfl⟩
  · refine books_of_touches ((htaking.trans (view_removeJob _ _)).trans (view_sendTerminal _ _ _))
      hd.view rfl (count_balance _ s.counters) (Or.inl ⟨count_waiting _ _, hbefore.symm⟩)
  · refine books_of_touches (htaking.trans (view_addTask _
      ⟨job.slot, head.entry.id, action, some selection⟩ _)) hd.view rfl rfl (Or.inl ⟨rfl, ?_⟩)
    rw [hbefore]
    exact waits_of_acked job' client _ _ hd.acked

theorem books_submit {request : EngineRequest} (hw : Wired s) (hup : s.shuttingDown = false)
    (h : s.act (.submit id request) = some s') : Books s s' := by
  obtain ⟨hview, _, rfl⟩ := submit_cases hw h
  have hcounters := submit_counters s id request hup
  refine books_of_touches (view_submit hup) hview rfl ?_ (Or.inl ⟨?_, rfl⟩)
  · rw [hcounters]
    change s.counters.admitted + 1 + s.counters.ended + 0 =
      s.counters.admitted + s.counters.ended + 1
    omega
  · rw [hcounters]

theorem books_ack_gone (hgone : (s.view id).job = none) : Books s (s.ack id) := by
  generalize hv : s.view id = v at hgone
  obtain ⟨job, client, queued, assigned⟩ := v
  cases hgone
  exact books_of_touches (view_ack s id) hv rfl rfl (Or.inl ⟨rfl, rfl⟩)

theorem books_continue (hw : Wired s) (hup : s.shuttingDown = false)
    (h : s.act (.continue id) = some s') : Books s s' := by
  obtain ⟨_, ⟨rfl, hgone⟩ | ⟨_, job, client, session, hwaits, rfl⟩⟩ := continue_cases hw h
  · rcases hgone with hdown | hgone
    · exact absurd (hup.symm.trans hdown) (by decide)
    · exact books_ack_gone hgone
  · refine books_of_touches (((view_ack s id).trans (view_enqueue (s.ack id) id job)).trans
      (view_subWaiting _ id)) hwaits.view rfl rfl (Or.inr (Or.inr ⟨rfl, ?_⟩))
    rw [waits_of_unacked job client [] [] hwaits.acked]
    exact congrArg (· + 1) (waits_of_acked job { client with acked := client.acked + 1 } _ _
      hwaits.acked).symm

/-- A stop of a live job keeps the books. -/
theorem books_stop {spawn : Option String} (hw : Wired s) (hup : s.shuttingDown = false)
    (hlive : (s.jobs.lookup id).isSome = true) (h : s.act (.stop id spawn) = some s') :
    Books s s' := by
  obtain ⟨_, ⟨_, hdown⟩ | ⟨_, _, hgone⟩ |
    ⟨_, job, client, session, hwaits, ⟨_, message, _, rfl⟩ | ⟨_, rfl⟩⟩⟩ := stop_cases hw h
  · exact absurd (hup.symm.trans hdown) (by decide)
  · rw [show s.jobs.lookup id = none from hgone] at hlive
    cases hlive
  · refine books_of_touches (((view_stopping s id job).trans (view_removeJob _ id)).trans
      (view_sendTerminal _ id _)) hwaits.view rfl (count_balance _ s.subWaiting.counters)
      (Or.inr (Or.inr ⟨count_waiting _ s.subWaiting.counters, ?_⟩))
    exact waits_of_unacked job client [] [] hwaits.acked
  · refine books_of_touches ((view_stopping s id job).trans (view_addTask _
      ⟨job.slot, id, .finish session, none⟩ _)) hwaits.view rfl rfl (Or.inr (Or.inr ⟨rfl, ?_⟩))
    rw [waits_of_unacked job client [] [] hwaits.acked]
    exact congrArg (· + 1) (waits_of_acked _ { client with acked := client.acked + 1 } _ _
      hwaits.acked).symm

/-- A stop of a job that is gone counts down, though no job stops waiting. -/
theorem stop_of_gone {spawn : Option String} (hw : Wired s) (hup : s.shuttingDown = false)
    (hgone : s.jobs.lookup id = none) (h : s.act (.stop id spawn) = some s') :
    s'.counters.waiting = fetchSub s.counters.waiting ∧ s'.waitingJobs = s.waitingJobs ∧
      (Counted s → Counted s') := by
  obtain ⟨_, ⟨_, hdown⟩ | ⟨rfl, _, _⟩ | ⟨_, job, client, session, hwaits, _⟩⟩ := stop_cases hw h
  · exact absurd (hup.symm.trans hdown) (by decide)
  · have ht := ((view_ack s id).trans (view_subWaiting _ id)).trans (view_unqueue _ id)
    have hlive := sum_touches ht View.live live_of_none
    have hwaits := sum_touches ht View.waits waits_of_none
    have hnone : (s.view id).job = none := hgone
    simp only [View.live, View.waits, hnone, Option.elim_none, add_zero] at hlive hwaits
    refine ⟨rfl, hwaits, fun hcounted => ?_⟩
    exact hcounted.trans (congrArg (s.counters.ended + ·) hlive.symm)
  · exact absurd (hgone.symm.trans (congrArg View.job hwaits.view)) nofun

theorem books_cancel (hw : Wired s) (hup : s.shuttingDown = false)
    (h : s.act (.cancel id) = some s') : Books s s' := by
  rcases cancel_cases hw h with ⟨_, hdown⟩ | ⟨_, hcase⟩
  · exact absurd (hup.symm.trans hdown) (by decide)
  rcases hcase with ⟨rfl, hgone⟩ | ⟨job, client, task, hview, hflight, rfl⟩ |
    ⟨job, client, entry, hview, hidle, hopen, hacked, rfl⟩ |
    ⟨job, client, session, hwaits, rfl⟩
  · generalize hv : s.view id = v at hgone
    obtain ⟨job, client, queued, assigned⟩ := v
    cases hgone
    exact books_of_touches (view_unqueue s id) hv rfl rfl (Or.inl ⟨rfl, rfl⟩)
  · exact books_of_touches ((view_unqueue s id).trans (view_putJob _ id _)) hview rfl rfl
      (Or.inl ⟨rfl, rfl⟩)
  · refine books_of_touches (view_cancelling s id job) hview rfl (count_balance _ s.counters)
      (Or.inl ⟨count_waiting _ s.counters, ?_⟩)
    exact (waits_of_acked job client [entry] [] hacked).symm
  · refine books_of_touches ((view_subWaiting s id).trans (view_cancelling s.subWaiting id job))
      hwaits.view rfl (count_balance _ s.subWaiting.counters)
      (Or.inr (Or.inr ⟨count_waiting _ s.subWaiting.counters, ?_⟩))
    exact waits_of_unacked job client [] [] hwaits.acked

theorem books_complete {key : ModelSlotKey} {result : Except Error SessionStep}
    {session : Option Session} (hw : Wired s)
    (h : s.act (.complete key result session) = some s') : Books s s' := by
  obtain ⟨task, job, client, hview, hfind, rfl, hflight, hrequest, hslot, hopen, hacked, hyields,
    rfl⟩ := complete_cases hw h
  have hreturning := view_returning hview hfind result session
  have hbefore := waits_of_acked job client [] [task] hacked
  cases houtcome : outcome job.cancelRequested client.listening result with
  | terminal r =>
    refine books_of_touches ((((hreturning.trans (view_removeJob _ _)).trans
      (view_sendTerminal _ _ r)).trans (view_clearIfIdle _ _ job.flow)).trans
      (view_retireSlotIfIdle _ _ job.slot)) hview rfl ?_ (Or.inl ⟨?_, hbefore.symm⟩)
    · have hcounters : ((s.returning task job result session).concluding task.id job session
          (.terminal r)).counters = s.counters.count r := retire_counters _ job.slot
      rw [hcounters]
      exact count_balance r s.counters
    · exact (congrArg SchedulerCounters.waiting (retire_counters _ job.slot)).trans
        (count_waiting r s.counters)
  | wait m =>
    obtain ⟨hm, hlistening, _⟩ := outcome_wait _ _ _ _ houtcome
    obtain ⟨_, htokens⟩ := client.receive_token m hm hopen hlistening
    refine books_of_touches ((hreturning.trans (view_post _ _ m)).trans (view_addWaiting _ _))
      hview rfl rfl (Or.inr (Or.inl ⟨rfl, ?_, by rw [hbefore]; exact Nat.zero_lt_one⟩))
    rw [hbefore]
    refine waits_of_unacked _ _ _ _ ?_
    rw [client.receive_acked, hacked, htokens]
  | again =>
    refine books_of_touches (hreturning.trans (view_enqueue _ _ _)) hview rfl rfl
      (Or.inl ⟨rfl, ?_⟩)
    rw [hbefore]
    exact waits_of_acked _ client _ _ hacked

theorem books_dropClient (h : s.act (.dropClient id) = some s') : Books s s' := by
  obtain ⟨_, heq⟩ := Option.ite_none_right_eq_some.mp h
  cases heq
  generalize hv : s.view id = v
  obtain ⟨job, client, queued, assigned⟩ := v
  refine books_of_touches (view_dropClient s id) hv rfl rfl (Or.inl ⟨rfl, ?_⟩)
  unfold View.waits
  cases job <;> cases client <;> rfl

end Books

section Runs

/-- Exactly one of three. -/
def ExactlyOne (p q r : Prop) : Prop := (p ∧ ¬q ∧ ¬r) ∨ (¬p ∧ q ∧ ¬r) ∨ (¬p ∧ ¬q ∧ r)

def State.entries (s : State) (id : ℕ) : List PolicyEntry :=
  s.policy.runnable.filter (fun e => e.id = id)

/-- The job has one entry in the queue and is not in flight. -/
def Runnable (s : State) (id : ℕ) (job : Job) : Prop :=
  (s.entries id).length = 1 ∧ job.inFlight = false

def InFlight (s : State) (id : ℕ) (job : Job) : Prop :=
  s.entries id = [] ∧ job.inFlight = true

/-- The job is out of the queue and of the slots until its client acknowledges a token. -/
def WaitsForConsumer (s : State) (id : ℕ) (job : Job) : Prop :=
  s.entries id = [] ∧ job.inFlight = false ∧ s.unacked id = true

/-- The promises on jobs before the shutdown. -/
structure JobsSound (s : State) : Prop where
  state : ∀ id job, s.jobs.lookup id = some job →
    ExactlyOne (Runnable s id job) (InFlight s id job) (WaitsForConsumer s id job)
  acknowledged : ∀ id client, s.clients.lookup id = some client →
    client.tokens ≤ client.acked + 1
  going : ∀ id client, s.clients.lookup id = some client → (s.jobs.lookup id).isSome = true →
    client.Open
  ended : ∀ id client, s.clients.lookup id = some client → s.jobs.lookup id = none →
    client.Closed ∨ (client.Open ∧ client.listening = false)
  waiting : s.counters.waiting = (s.jobs.entries.filter (fun e => s.unacked e.1)).length
  admitted : s.counters.admitted = s.counters.completed + s.counters.cancelled +
    s.counters.deadlines + s.counters.failed + s.jobs.entries.length

theorem waitingJobs_eq (s : State) :
    s.waitingJobs = (s.jobs.entries.filter (fun e => s.unacked e.1)).length := by
  rw [← List.countP_eq_length_filter, AList.countP_entries]
  unfold State.waitingJobs State.sum
  apply AList.total_congr
  intro id job hjob
  have hview : (s.view id).job = some job := hjob
  unfold View.waits
  rw [hview, Option.elim_some, ← unacked_eq]
  cases s.unacked id <;> rfl

theorem liveJobs_eq (s : State) : s.liveJobs = s.jobs.entries.length := by
  have htrue := AList.countP_entries (fun _ => true) s.jobs
  rw [List.countP_true] at htrue
  rw [htrue]
  unfold State.liveJobs State.sum
  apply AList.total_congr
  intro id job hjob
  have hview : (s.view id).job = some job := hjob
  unfold View.live
  rw [hview]
  rfl

/-- What every run before the shutdown keeps. -/
structure Running (s : State) : Prop where
  up : s.shuttingDown = false
  runs : s.exited = false
  wired : Wired s
  counted : Counted s

theorem Running.initial (config : SchedulerPolicyConfig) : Running (State.initial config) :=
  ⟨rfl, rfl, Wired.initial config, rfl⟩

/-- The phases give the states of the jobs; the counter of the waiting ones is left. -/
theorem jobsSound_iff {s : State} (h : Running s) : JobsSound s ↔ Waiting s := by
  unfold Waiting
  constructor
  · intro hs
    rw [hs.waiting, waitingJobs_eq]
  · intro hwaiting
    refine ⟨?_, ?_, ?_, ?_, hwaiting.trans (waitingJobs_eq s), ?_⟩
    · intro id job hjob
      have hphase := h.wired.phase id
      have hview : (s.view id).job = some job := hjob
      unfold Runnable InFlight WaitsForConsumer
      rw [unacked_eq, show s.entries id = (s.view id).queued from rfl]
      generalize s.view id = v at hphase hview
      cases hphase with
      | unused => cases hview
      | gone client => cases hview
      | runnable _ client entry hidle _ _ _ hacked =>
        cases hview
        simp [ExactlyOne, hidle]
      | executing _ client task hflight =>
        cases hview
        simp [ExactlyOne, hflight]
      | waiting _ client session hidle _ _ _ hacked =>
        cases hview
        have hlt : client.acked < client.tokens := by omega
        simp [ExactlyOne, hidle, hlt]
      | stranded _ client hdown => exact absurd (hdown.symm.trans h.up) (by decide)
    · intro id client hclient
      have hphase := h.wired.phase id
      have hview : (s.view id).client = some client := hclient
      generalize s.view id = v at hphase hview
      cases hphase <;> cases hview <;> omega
    · intro id client hclient hjob
      have hphase := h.wired.phase id
      have hview : (s.view id).client = some client := hclient
      have hlive : (s.view id).job.isSome = true := hjob
      generalize s.view id = v at hphase hview hlive
      cases hphase <;> cases hview <;> first | assumption | cases hlive
    · intro id client hclient hjob
      have hphase := h.wired.phase id
      have hview : (s.view id).client = some client := hclient
      have hgone : (s.view id).job = none := hjob
      generalize s.view id = v at hphase hview hgone
      cases hphase <;> cases hview <;> first | assumption | cases hgone
    · rw [← liveJobs_eq]
      exact h.counted

/-- A stop finds its job. -/
def StopsLive (s : State) : Action → Prop
  | .stop id _ => (s.jobs.lookup id).isSome = true
  | _ => True

/-- The steps before the shutdown. -/
def Early (s : State) (a : Action) (s' : State) : Prop := Step s a s' ∧ a ≠ .shutdown

theorem books_step {s s' : State} {a : Action} (h : Running s) (hstep : Early s a s')
    (hlive : StopsLive s a) : Books s s' := by
  obtain ⟨hstep, hne⟩ := hstep
  cases a with
  | dispatch spawn => exact books_dispatch h.wired (Option.ite_none_left_eq_some.mp hstep).2
  | submit id request => exact books_submit h.wired h.up hstep
  | «continue» id => exact books_continue h.wired h.up hstep
  | stop id spawn => exact books_stop h.wired h.up hlive hstep
  | cancel id => exact books_cancel h.wired h.up hstep
  | shutdown => exact absurd rfl hne
  | complete key result session => exact books_complete h.wired hstep
  | exit =>
    obtain ⟨hguard, _⟩ := Option.ite_none_right_eq_some.mp hstep
    simp [State.drained, h.up] at hguard
  | dropClient id => exact books_dropClient hstep

theorem running_step {s s' : State} {a : Action} (h : Running s) (hstep : Early s a s') :
    Running s' := by
  have hexit : a ≠ .exit := by
    intro heq
    obtain ⟨hguard, _⟩ := Option.ite_none_right_eq_some.mp (heq ▸ hstep.1)
    simp [State.drained, h.up] at hguard
  have hflags := flags_step h.wired hstep.1 hstep.2 hexit
  have hruns : s'.exited = false := (congrArg Prod.snd hflags).trans h.runs
  refine ⟨(congrArg Prod.fst hflags).trans h.up, hruns, wired_step h.wired a hstep.1 hruns, ?_⟩
  by_cases hlive : StopsLive s a
  · exact (books_step h hstep hlive).counted h.counted
  · cases a with
    | stop id spawn =>
      have hgone : s.jobs.lookup id = none := Option.not_isSome_iff_eq_none.mp hlive
      exact (stop_of_gone h.wired h.up hgone hstep.1).2.2 h.counted
    | _ => exact absurd trivial hlive

/-- The counter stays right exactly when a stop finds its job. -/
theorem waiting_step {s s' : State} {a : Action} (h : Running s) (hwaiting : Waiting s)
    (hstep : Early s a s') : Waiting s' ↔ StopsLive s a := by
  by_cases hlive : StopsLive s a
  · exact iff_of_true ((books_step h hstep hlive).waits h.wired hwaiting) hlive
  · refine iff_of_false ?_ hlive
    cases a with
    | stop id spawn =>
      have hgone : s.jobs.lookup id = none := Option.not_isSome_iff_eq_none.mp hlive
      obtain ⟨hcounter, hjobs, _⟩ := stop_of_gone h.wired h.up hgone hstep.1
      unfold Waiting at hwaiting ⊢
      rw [hcounter, hjobs, ← hwaiting]
      exact fetchSub_ne _
    | _ => exact absurd trivial hlive

/-- The jobs are sound all along a run before the shutdown exactly when every stop finds its
job. -/
theorem jobs_sound_iff_stops_live (config : SchedulerPolicyConfig) (run : List (Action × State))
    (hrun : IsRun Early (State.initial config) run) :
    (∀ x ∈ run, JobsSound x.2) ↔ Meets StopsLive (State.initial config) run := by
  refine along_iff_meets Early Running JobsSound StopsLive (fun _ _ _ => running_step) ?_
    (State.initial config) run (Running.initial config) ?_ hrun
  · intro s a s' hs hsound hstep
    exact (jobsSound_iff (running_step hs hstep)).trans
      (waiting_step hs ((jobsSound_iff hs).mp hsound) hstep)
  · exact (jobsSound_iff (Running.initial config)).mpr rfl

section Examples

instance (s : State) (a : Action) : Decidable (StopsLive s a) :=
  match a with
  | .stop id _ => inferInstanceAs (Decidable ((s.jobs.lookup id).isSome = true))
  | .dispatch _ | .submit _ _ | .continue _ | .cancel _ | .shutdown | .complete _ _ _ | .exit
  | .dropClient _ => isTrue trivial

/-- The client stops its job, which then finishes. -/
def stopped : List Action :=
  untilToken ++ [.stop 0 none, .complete sharedSlot (.ok (.finished ⟨[1, 5], 1, 0, 1⟩)) none]

theorem stopped_job_is_sound : ∃ run, IsRun Early (State.initial .default) run ∧
    run.length = 7 ∧ ∀ x ∈ run, JobsSound x.2 := by
  have hrun : (trace State.act (State.initial .default) stopped).any (fun run =>
      decide (Meets (fun _ a => a ≠ .shutdown) (State.initial .default) run ∧
        Meets StopsLive (State.initial .default) run ∧ run.length = 7)) = true := by
    decide +kernel
  obtain ⟨run, htrace, hchecks⟩ := (Option.any_eq_true _ _).mp hrun
  obtain ⟨hearly, hlive, hlength⟩ := of_decide_eq_true hchecks
  have hsteps := isRun_of_meets Step _ _ run (isRun_of_trace _ _ _ run htrace) hearly
  exact ⟨run, hsteps, hlength, (jobs_sound_iff_stops_live .default run hsteps).mpr hlive⟩

/-- The client cancels its job while it holds a token, and then stops it. -/
def cancelledThenStopped : List Action := untilToken ++ [.cancel 0, .stop 0 none]

/-- A stop of a cancelled job makes the counter of the waiting jobs wrap. -/
theorem waiting_counter_wraps : ∃ run, IsRun Early (State.initial .default) run ∧
    ∃ x ∈ run, x.2.counters.waiting = u64Max ∧ x.2.jobs.entries = [] ∧ ¬JobsSound x.2 := by
  have hrun : (trace State.act (State.initial .default) cancelledThenStopped).any (fun run =>
      decide (Meets (fun _ a => a ≠ .shutdown) (State.initial .default) run ∧
        run.any (fun x => x.2.counters.waiting = u64Max ∧ x.2.jobs.entries = []) = true)) =
      true := by
    decide +kernel
  obtain ⟨run, htrace, hchecks⟩ := (Option.any_eq_true _ _).mp hrun
  obtain ⟨hearly, hsome⟩ := of_decide_eq_true hchecks
  obtain ⟨x, hx, hcounter⟩ := List.any_eq_true.mp hsome
  obtain ⟨hmax, hnone⟩ := of_decide_eq_true hcounter
  have hsteps := isRun_of_meets Step _ _ run (isRun_of_trace _ _ _ run htrace) hearly
  refine ⟨run, hsteps, x, hx, hmax, hnone, fun hsound => ?_⟩
  have hwaiting := hsound.waiting
  rw [hmax, hnone, List.filter_nil, List.length_nil] at hwaiting
  exact absurd hwaiting (by decide)

end Examples

end Runs

end Cusco.Scheduler
