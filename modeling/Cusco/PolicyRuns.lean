import Cusco.Credits
import Cusco.Selections

/-!
Runs of the fair policy under changing jobs. A job is submitted, queued again after a
quantum, and finished; a quantum selects among the available entries of live jobs and
charges the flow of the selected job. When the last job of a flow finishes the credit of
the flow is forgotten.
-/

namespace Cusco.PolicyRuns

open SchedulerPolicy FairPolicy Runs Selections

/-- What the policy needs of a job. -/
structure PolicyJob where
  flow : FlowKey
  admittedRound : ℕ
  deriving DecidableEq

structure World where
  policy : FairPolicy
  jobs : Table ℕ PolicyJob

inductive Action
  | submit (id : ℕ) (flow : FlowKey)
  | requeue (id : ℕ)
  | finish (id : ℕ)
  | quantum (available : ℕ → Bool) (tokens : ℕ)

def Action.isQuantum : Action → Bool
  | .quantum .. => true
  | _ => false

namespace World

def initial (config : SchedulerPolicyConfig) : World := ⟨FairPolicy.new config, ∅⟩

def jobFlows (jobs : Table ℕ PolicyJob) : List FlowKey := jobs.values.map PolicyJob.flow

/-- The flows with a job. -/
def flows (w : World) : Finset FlowKey := (jobFlows w.jobs).toFinset

/-- An entry can be selected only while its job lives. -/
def live (w : World) (available : ℕ → Bool) (id : ℕ) : Bool :=
  (w.jobs.lookup id).isSome && available id

def credit (w : World) (flow : FlowKey) : ℤ := deficit w.policy.deficits flow

def submit (id : ℕ) (flow : FlowKey) (w : World) : Option World :=
  if (w.jobs.lookup id).isSome then none
  else some ⟨w.policy.enqueue id flow w.policy.round, w.jobs.insert id ⟨flow, w.policy.round⟩⟩

def requeue (id : ℕ) (w : World) : Option World :=
  if w.policy.runnable.any (fun entry => entry.id = id) then none
  else (w.jobs.lookup id).map (fun job =>
    { w with policy := w.policy.enqueue id job.flow job.admittedRound })

def finish (id : ℕ) (w : World) : Option World :=
  (w.jobs.lookup id).map (fun job =>
    ⟨(w.policy.remove id).2.clearIfIdle job.flow (jobFlows (w.jobs.erase id)), w.jobs.erase id⟩)

def quantum (available : ℕ → Bool) (tokens : ℕ) (w : World) : Option World :=
  (w.policy.select (w.live available)).bind (fun x =>
    (w.jobs.lookup x.1.id).map (fun job =>
      { w with policy := x.2.charge job.flow tokens x.1.chargeScale }))

def act (w : World) : Action → Option World
  | .submit id flow => w.submit id flow
  | .requeue id => w.requeue id
  | .finish id => w.finish id
  | .quantum available tokens => w.quantum available tokens

/-- The flow has a head in the quantum. -/
def Available (flow : FlowKey) (w : World) : Action → Prop
  | .quantum available _ => ∃ h ∈ w.policy.heads (w.live available), h.entry.flow = flow
  | _ => True

/-- The quantum goes to the flow. -/
def Selected (flow : FlowKey) (w : World) : Action → Prop
  | .quantum available _ => ∃ x job, w.policy.select (w.live available) = some x ∧
      w.jobs.lookup x.1.id = some job ∧ job.flow = flow
  | _ => False

end World

open World

/-- A quantum costs between one and `m` tokens. -/
def Action.costs (m : ℕ) : Action → Prop
  | .quantum _ tokens => 1 ≤ tokens ∧ tokens ≤ m
  | _ => True

/-- After the step at most `n` flows have jobs; a quantum costs one to `m` tokens. -/
def Fits (n m : ℕ) (_ : World) (a : Action) (w' : World) : Prop :=
  w'.flows.card ≤ n ∧ a.costs m

/-- What every run keeps: queued entries belong to live jobs, only flows with jobs have
credit, and no more than eight times the heaviest weight. -/
structure Sound (config : SchedulerPolicyConfig) (w : World) : Prop where
  config_eq : w.policy.config = config
  queued : ∀ entry ∈ w.policy.runnable, ∃ job,
    w.jobs.lookup entry.id = some job ∧ job.flow = entry.flow
  keyed : ∀ flow ∈ w.policy.deficits, flow ∈ w.flows
  capped : ∀ flow, w.credit flow ≤ 8 * u32Max

theorem mem_flows (w : World) (flow : FlowKey) :
    flow ∈ w.flows ↔ ∃ id job, w.jobs.lookup id = some job ∧ job.flow = flow := by
  simp only [flows, jobFlows, List.mem_toFinset, List.mem_map, AList.mem_values_iff]
  constructor
  · rintro ⟨job, ⟨id, hid⟩, rfl⟩
    exact ⟨id, job, hid, rfl⟩
  · rintro ⟨id, job, hid, rfl⟩
    exact ⟨job, ⟨id, hid⟩, rfl⟩

theorem Sound.initial (config : SchedulerPolicyConfig) : Sound config (World.initial config) where
  config_eq := rfl
  queued := nofun
  keyed := by
    intro flow h
    exact absurd h (AList.notMem_empty flow)
  capped := by
    intro flow
    change (0 : ℤ) ≤ 8 * (u32Max : ℤ)
    omega

/-- An entry joins the queue for a job with its flow; credits stay. -/
structure Joins (w : World) (id : ℕ) (flow : FlowKey) (w' : World) : Prop where
  config_eq : w'.policy.config = w.policy.config
  deficits_eq : w'.policy.deficits = w.policy.deficits
  runnable : ∀ entry ∈ w'.policy.runnable,
    entry ∈ w.policy.runnable ∨ (entry.id = id ∧ entry.flow = flow)
  joined : ∃ job, w'.jobs.lookup id = some job ∧ job.flow = flow
  kept : ∀ c job, w.jobs.lookup c = some job → w'.jobs.lookup c = some job

theorem joins_of_submit (w w' : World) (id : ℕ) (flow : FlowKey)
    (h : w.submit id flow = some w') : Joins w id flow w' := by
  unfold submit at h
  split at h
  · exact nomatch h
  · rename_i hnew
    cases h
    refine ⟨rfl, rfl, ?_, ⟨_, AList.lookup_insert _, rfl⟩, ?_⟩
    · intro entry hentry
      rcases List.mem_append.mp hentry with hentry | hentry
      · exact Or.inl hentry
      · rw [List.mem_singleton.mp hentry]
        exact Or.inr ⟨rfl, rfl⟩
    · intro c job hc
      rw [AList.lookup_insert_ne]
      · exact hc
      · rintro rfl
        exact hnew (by rw [hc]; rfl)

theorem joins_of_requeue (w w' : World) (id : ℕ) (h : w.requeue id = some w') :
    ∃ flow, Joins w id flow w' := by
  unfold requeue at h
  split at h
  · exact nomatch h
  · obtain ⟨job, hjob, rfl⟩ := Option.map_eq_some_iff.mp h
    refine ⟨job.flow, rfl, rfl, ?_, ⟨job, hjob, rfl⟩, fun c job hc => hc⟩
    intro entry hentry
    rcases List.mem_append.mp hentry with hentry | hentry
    · exact Or.inl hentry
    · rw [List.mem_singleton.mp hentry]
      exact Or.inr ⟨rfl, rfl⟩

theorem Joins.sound {config : SchedulerPolicyConfig} {w w' : World} {id : ℕ} {flow : FlowKey}
    (h : Joins w id flow w') (hs : Sound config w) : Sound config w' where
  config_eq := h.config_eq.trans hs.config_eq
  queued := by
    intro entry hentry
    rcases h.runnable entry hentry with hold | ⟨hid, hflow⟩
    · obtain ⟨job, hjob, hflow⟩ := hs.queued entry hold
      exact ⟨job, h.kept entry.id job hjob, hflow⟩
    · rw [hid, hflow]
      exact h.joined
  keyed := by
    intro flow hflow
    rw [h.deficits_eq] at hflow
    obtain ⟨c, job, hjob, hc⟩ := (mem_flows w flow).mp (hs.keyed flow hflow)
    exact (mem_flows w' flow).mpr ⟨c, job, h.kept c job hjob, hc⟩
  capped := by
    intro flow
    unfold credit
    rw [h.deficits_eq]
    exact hs.capped flow

/-- A job leaves, and the credit of its flow is forgotten exactly if it was the last. -/
structure Leaves (w : World) (id : ℕ) (job : PolicyJob) (w' : World) : Prop where
  found : w.jobs.lookup id = some job
  config_eq : w'.policy.config = w.policy.config
  jobs_eq : w'.jobs = w.jobs.erase id
  runnable : ∀ entry ∈ w'.policy.runnable, entry ∈ w.policy.runnable ∧ entry.id ≠ id
  deficits : (w'.policy.deficits = w.policy.deficits ∧ job.flow ∈ w'.flows) ∨
    (w'.policy.deficits = w.policy.deficits.erase job.flow ∧ job.flow ∉ w'.flows)

theorem leaves_of_finish (config : SchedulerPolicyConfig) (w w' : World) (id : ℕ)
    (hs : Sound config w) (h : w.finish id = some w') : ∃ job, Leaves w id job w' := by
  obtain ⟨job, hjob, rfl⟩ := Option.map_eq_some_iff.mp h
  refine ⟨job, hjob, ?_, rfl, ?_, ?_⟩
  · unfold clearIfIdle
    split <;> rfl
  · intro entry hentry
    have hkept : entry ∈ w.policy.runnable.filter (fun entry => entry.id ≠ id) := by
      unfold clearIfIdle at hentry
      split at hentry <;> exact hentry
    obtain ⟨hmem, hne⟩ := List.mem_filter.mp hkept
    exact ⟨hmem, of_decide_eq_true hne⟩
  · have hqueued : ∀ entry ∈ w.policy.runnable.filter (fun entry => entry.id ≠ id),
        entry.flow = job.flow → job.flow ∈ jobFlows (w.jobs.erase id) := by
      intro entry hentry hflow
      obtain ⟨hmem, hne⟩ := List.mem_filter.mp hentry
      obtain ⟨other, hother, heq⟩ := hs.queued entry hmem
      refine List.mem_map.mpr ⟨other, (AList.mem_values_iff _ other).mpr ⟨entry.id, ?_⟩,
        heq.trans hflow⟩
      rw [AList.lookup_erase_ne (of_decide_eq_true hne)]
      exact hother
    by_cases hlast : job.flow ∈ jobFlows (w.jobs.erase id)
    · left
      refine ⟨?_, List.mem_toFinset.mpr hlast⟩
      unfold clearIfIdle
      rw [if_neg]
      · rfl
      · intro hidle
        obtain ⟨_, hnone⟩ := Bool.and_eq_true_iff.mp hidle
        simp only [Bool.not_eq_true', List.any_eq_false] at hnone
        exact hnone job.flow hlast (decide_eq_true rfl)
    · right
      refine ⟨?_, fun hmem => hlast (List.mem_toFinset.mp hmem)⟩
      unfold clearIfIdle
      rw [if_pos]
      · rfl
      · simp only [Bool.and_eq_true, Bool.not_eq_true', List.any_eq_false]
        constructor
        · intro entry hentry hflow
          exact hlast (hqueued entry hentry (of_decide_eq_true hflow))
        · intro flow hflow heq
          exact hlast (of_decide_eq_true heq ▸ hflow)

theorem Leaves.flows {w w' : World} {id : ℕ} {job : PolicyJob} (h : Leaves w id job w')
    (flow : FlowKey) (hflow : flow ∈ w.flows) (hkept : flow = job.flow → flow ∈ w'.flows) :
    flow ∈ w'.flows := by
  by_cases heq : flow = job.flow
  · exact hkept heq
  · obtain ⟨c, other, hother, rfl⟩ := (mem_flows w flow).mp hflow
    refine (mem_flows w' other.flow).mpr ⟨c, other, ?_, rfl⟩
    rw [h.jobs_eq, AList.lookup_erase_ne]
    · exact hother
    · rintro rfl
      cases h.found.symm.trans hother
      exact heq rfl

theorem Leaves.credit {w w' : World} {id : ℕ} {job : PolicyJob} (h : Leaves w id job w')
    (flow : FlowKey) : w'.credit flow = w.credit flow ∨
      (w'.credit flow = 0 ∧ flow = job.flow ∧ flow ∉ w'.flows) := by
  unfold World.credit
  rcases h.deficits with ⟨heq, _⟩ | ⟨heq, hlast⟩
  · rw [heq]
    exact Or.inl rfl
  · rw [heq, deficit_erase]
    by_cases hflow : flow = job.flow
    · rw [if_pos hflow]
      exact Or.inr ⟨rfl, hflow, hflow ▸ hlast⟩
    · rw [if_neg hflow]
      exact Or.inl rfl

theorem Leaves.sound {config : SchedulerPolicyConfig} {w w' : World} {id : ℕ}
    {job : PolicyJob} (h : Leaves w id job w') (hs : Sound config w) : Sound config w' where
  config_eq := h.config_eq.trans hs.config_eq
  queued := by
    intro entry hentry
    obtain ⟨hold, hne⟩ := h.runnable entry hentry
    obtain ⟨other, hother, hflow⟩ := hs.queued entry hold
    refine ⟨other, ?_, hflow⟩
    rw [h.jobs_eq, AList.lookup_erase_ne hne]
    exact hother
  keyed := by
    intro flow hflow
    rcases h.deficits with ⟨heq, hkept⟩ | ⟨heq, hlast⟩
    · rw [heq] at hflow
      exact h.flows flow (hs.keyed flow hflow) (fun hjob => hjob ▸ hkept)
    · rw [heq, AList.mem_erase] at hflow
      exact h.flows flow (hs.keyed flow hflow.2) (fun hjob => absurd hjob hflow.1)
  capped := by
    intro flow
    rcases h.credit flow with heq | ⟨heq, _⟩
    · rw [heq]
      exact hs.capped flow
    · rw [heq]
      omega

/-- What a quantum does: one head is selected, and its flow pays. -/
structure Serves (w : World) (available : ℕ → Bool) (tokens : ℕ) (w' : World) (h : Head) :
    Prop where
  head : h ∈ w.policy.heads (w.live available)
  job : ∃ job, w.jobs.lookup h.entry.id = some job ∧ job.flow = h.entry.flow
  selected : Selected h.entry.flow w (.quantum available tokens)
  jobs_eq : w'.jobs = w.jobs
  config_eq : w'.policy.config = w.policy.config
  runnable_eq : w'.policy.runnable = w.policy.runnable.eraseIdx h.index
  deficits_eq : w'.policy.deficits =
    (refillAll w.policy.deficits (w.policy.heads (w.live available))).insert h.entry.flow
      (deficit (refillAll w.policy.deficits (w.policy.heads (w.live available))) h.entry.flow -
        chargeOf tokens (totalWeight (w.policy.heads (w.live available))))
  most : ∀ x ∈ w.policy.heads (w.live available),
    deficit (refillAll w.policy.deficits (w.policy.heads (w.live available))) x.entry.flow ≤
    deficit (refillAll w.policy.deficits (w.policy.heads (w.live available))) h.entry.flow

theorem serves_of_quantum (config : SchedulerPolicyConfig) (w w' : World)
    (available : ℕ → Bool) (tokens : ℕ) (hs : Sound config w)
    (h : w.quantum available tokens = some w') : ∃ head, Serves w available tokens w' head := by
  obtain ⟨⟨selection, p⟩, hselect, hcharge⟩ := Option.bind_eq_some_iff.mp h
  obtain ⟨job, hjob, rfl⟩ := Option.map_eq_some_iff.mp hcharge
  obtain ⟨head, hsel⟩ := select_cases w.policy p (w.live available) selection hselect
  obtain ⟨hplace, _, _⟩ := heads_placed w.policy (w.live available) head hsel.head
  obtain ⟨queued, hqueued, hflow⟩ := hs.queued head.entry (List.mem_of_getElem? hplace)
  have hlookup : w.jobs.lookup head.entry.id = some job := hsel.id_eq ▸ hjob
  cases hqueued.symm.trans hlookup
  have hdeficits := hsel.deficits_eq
  refine ⟨head, hsel.head, ⟨job, hlookup, hflow⟩, ⟨_, job, hselect, hjob, hflow⟩, rfl,
    hsel.config_eq, hsel.runnable_eq, ?_, ?_⟩
  · change p.deficits.insert job.flow (deficit p.deficits job.flow - _) = _
    rw [hdeficits, hflow, hsel.scale_eq]
  · intro x hx
    have := hsel.most x hx
    rwa [hdeficits] at this

namespace Serves

variable {config : SchedulerPolicyConfig} {w w' : World} {available : ℕ → Bool} {tokens : ℕ}
  {h : Head}

theorem mem_deficits (hserves : Serves w available tokens w' h) (flow : FlowKey) :
    flow ∈ w'.policy.deficits ↔ flow ∈ w.policy.deficits ∨
      ∃ x ∈ w.policy.heads (w.live available), x.entry.flow = flow := by
  rw [hserves.deficits_eq, AList.mem_insert, mem_refillAll]
  constructor
  · rintro (rfl | hmem)
    · exact Or.inr ⟨h, hserves.head, rfl⟩
    · exact hmem
  · exact Or.inr

theorem credit_of_ne (hserves : Serves w available tokens w' h) (flow : FlowKey)
    (hne : flow ≠ h.entry.flow) : w'.credit flow =
      deficit (refillAll w.policy.deficits (w.policy.heads (w.live available))) flow := by
  unfold World.credit
  rw [hserves.deficits_eq, deficit_insert, if_neg hne]

theorem credit_payer (hserves : Serves w available tokens w' h) : w'.credit h.entry.flow =
    deficit (refillAll w.policy.deficits (w.policy.heads (w.live available))) h.entry.flow -
      chargeOf tokens (totalWeight (w.policy.heads (w.live available))) := by
  unfold World.credit
  rw [hserves.deficits_eq, deficit_insert, if_pos rfl]

/-- Heads belong to flows with jobs. -/
theorem head_flow (hs : Sound config w) (x : Head)
    (hx : x ∈ w.policy.heads (w.live available)) : x.entry.flow ∈ w.flows := by
  obtain ⟨hplace, _, _⟩ := heads_placed w.policy (w.live available) x hx
  obtain ⟨job, hjob, hflow⟩ := hs.queued x.entry (List.mem_of_getElem? hplace)
  exact (mem_flows w x.entry.flow).mpr ⟨x.entry.id, job, hjob, hflow⟩

theorem sound (hserves : Serves w available tokens w' h) (hs : Sound config w) :
    Sound config w' where
  config_eq := hserves.config_eq.trans hs.config_eq
  queued := by
    intro entry hentry
    rw [hserves.runnable_eq] at hentry
    rw [hserves.jobs_eq]
    exact hs.queued entry (List.mem_of_mem_eraseIdx hentry)
  keyed := by
    intro flow hflow
    unfold flows
    rw [hserves.jobs_eq]
    rcases (hserves.mem_deficits flow).mp hflow with hold | ⟨x, hx, rfl⟩
    · exact hs.keyed flow hold
    · exact head_flow hs x hx
  capped := by
    have hrefilled : ∀ flow, deficit (refillAll w.policy.deficits
        (w.policy.heads (w.live available))) flow ≤ 8 * u32Max := by
      intro flow
      by_cases hflow : ∃ x ∈ w.policy.heads (w.live available), x.entry.flow = flow
      · obtain ⟨x, hx, rfl⟩ := hflow
        rw [refillAll_of_mem _ _ (heads_nodup _ _) x hx]
        have hcredit := (heads_placed _ _ x hx).2.2
        have hweight := weight_le w.policy (w.policy.effectiveClass x.entry).1
        omega
      · rw [refillAll_of_ne _ _ flow (fun x hx heq => hflow ⟨x, hx, heq⟩)]
        exact hs.capped flow
    intro flow
    by_cases hflow : flow = h.entry.flow
    · have := hrefilled h.entry.flow
      have hcharge : 0 ≤ chargeOf tokens (totalWeight (w.policy.heads (w.live available))) := by
        have hscale : 1 ≤ totalWeight (w.policy.heads (w.live available)) := le_max_right _ _
        unfold chargeOf i64Max
        have := mul_nonneg (Int.natCast_nonneg (max tokens 1)) (le_trans zero_le_one hscale)
        omega
      rw [hflow, hserves.credit_payer]
      omega
    · rw [hserves.credit_of_ne flow hflow]
      exact hrefilled flow

end Serves

theorem act_sound (config : SchedulerPolicyConfig) (w w' : World) (a : Action)
    (hs : Sound config w) (h : w.act a = some w') : Sound config w' := by
  cases a with
  | submit id flow => exact (joins_of_submit w w' id flow h).sound hs
  | requeue id =>
    obtain ⟨flow, hjoins⟩ := joins_of_requeue w w' id h
    exact hjoins.sound hs
  | finish id =>
    obtain ⟨job, hleaves⟩ := leaves_of_finish config w w' id hs h
    exact hleaves.sound hs
  | quantum available tokens =>
    obtain ⟨head, hserves⟩ := serves_of_quantum config w w' available tokens hs h
    exact hserves.sound hs

end Cusco.PolicyRuns
