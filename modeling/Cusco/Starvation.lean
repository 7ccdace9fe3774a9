import Cusco.WaitingFlows

/-!
Starvation of a flow. A flow whose others lead it by a bounded credit, with a bounded number
of them leaving in debt, is selected in a bounded number of quanta. The second bound does
not follow from the policy, even where no debt is deep: a flow whose every job lasts one
quantum never pays.
-/

namespace Cusco.Starvation

open SchedulerPolicy FairPolicy Runs Selections PolicyRuns PolicyRuns.World Credits WaitingFlows

section Claims

/-- Some quantum of the run goes to the flow. -/
def SelectedIn (flow : FlowKey) (w : World) (run : List (Action × World)) : Prop :=
  ¬Meets (fun w a => ¬Selected flow w a) w run

def quanta (w : World) (run : List (Action × World)) : ℕ := count (fun _ a => a.isQuantum) w run

def i64Min : ℤ := -2 ^ 63

/-- The tokens of a quantum and the weights of its heads fit an `i64`. -/
def InRange (w : World) : Action → Prop
  | .quantum available tokens =>
    (tokens : ℤ) ≤ i64Max ∧ totalWeight (w.policy.heads (w.live available)) ≤ i64Max
  | _ => True

/-- A step that stays within the 64-bit numbers of the code, which subtracts without a check. -/
structure Step (w : World) (a : Action) (w' : World) : Prop where
  act_eq : w.act a = some w'
  inRange : InRange w a
  credits : ∀ flow, i64Min ≤ w'.credit flow

theorem few_of_run (n m : ℕ) (w : World) (run : List (Action × World))
    (hfew : w.flows.card ≤ n) (hfits : Along (Fits n m) w run) :
    (last w run).flows.card ≤ n := by
  induction run generalizing w with
  | nil => exact hfew
  | cons head rest ih => exact ih head.2 hfits.1.1 hfits.2

theorem isRun_passesBy (n m lead : ℕ) (flow : FlowKey) (w : World)
    (run : List (Action × World)) (hrun : IsRun Step w run) (hfits : Along (Fits n m) w run)
    (havailable : Meets (Available flow) w run) (hlevel : Meets (Level lead flow) w run)
    (hpassed : Meets (fun w a => ¬Selected flow w a) w run) :
    IsRun (PassesBy n m lead flow) w run := by
  induction run generalizing w with
  | nil => trivial
  | cons head rest ih =>
    exact ⟨⟨hrun.1.act_eq, hfits.1, havailable.1, hlevel.1, hpassed.1⟩,
      ih head.2 hrun.2 hfits.2 havailable.2 hlevel.2 hpassed.2⟩

/-- The quanta that are enough for a flow, with `n` flows, `m` tokens, a lead of others over
the flow, and a number of flows that leave in debt. -/
def enough (n m lead pardoned : ℕ) : ℕ :=
  n * (8 * u32Max) + 2 * n * (lead + m * (n * u32Max + 1)) +
    (lead + m * (n * u32Max + 1)) * pardoned + 1

/-- If the flows with jobs lead a waiting flow by a bounded credit, and a bounded number of
them leaves in debt, then the flow is selected in a bounded number of quanta, whatever ran
before. -/
theorem flow_selected_within (config : SchedulerPolicyConfig)
    (hvalid : config.validate = .ok config) (n m lead pardoned : ℕ) :
    ∃ bound, ∀ (history window : List (Action × World)) (flow : FlowKey),
      IsRun Step (initial config) (history ++ window) →
      Along (Fits n m) (initial config) (history ++ window) →
      Meets (Available flow) (last (initial config) history) window →
      Meets (Level lead flow) (last (initial config) history) window →
      count pardons (last (initial config) history) window ≤ pardoned →
      bound ≤ quanta (last (initial config) history) window →
      SelectedIn flow (last (initial config) history) window := by
  refine ⟨enough n m lead pardoned, ?_⟩
  intro history window flow hrun hfits havailable hlevel hpardoned hquanta hpassed
  obtain ⟨_, hzero⟩ := validate_eq config config hvalid
  obtain ⟨hhistory, hwindow⟩ := (isRun_append _ _ history window).mp hrun
  obtain ⟨hfits, hfits'⟩ := (along_append _ _ history window).mp hfits
  have hs := invariant_of_run Step (Sound config)
    (fun w a w' hs hstep => act_sound config w w' a hs hstep.act_eq) (initial config) history
    (Sound.initial config) hhistory
  have hfew := few_of_run n m (initial config) history (Nat.zero_le n) hfits
  have hcount := quanta_le config hzero n m lead flow (last (initial config) history) window hs
    hfew (isRun_passesBy n m lead flow _ window hwindow hfits' havailable hlevel hpassed)
  have hpaid : (lead + dearest n m) * (count pardons (last (initial config) history) window : ℤ)
      ≤ (lead + dearest n m) * pardoned :=
    mul_le_mul_of_nonneg_left (by exact_mod_cast hpardoned)
      (add_nonneg (Int.natCast_nonneg lead) (dearest_nonneg n m))
  have henough : (enough n m lead pardoned : ℤ) ≤
      count (fun _ a => a.isQuantum) (last (initial config) history) window := by
    exact_mod_cast hquanta
  have hbound : (enough n m lead pardoned : ℤ) = mostSettled n m lead +
      n * (lead + dearest n m) + (lead + dearest n m) * pardoned + 1 := by
    unfold enough mostSettled dearest
    push_cast
    ring
  omega

end Claims

section Families

theorem selected_unique (w : World) (a : Action) (f g : FlowKey) (hf : Selected f w a)
    (hg : Selected g w a) : f = g := by
  cases a with
  | quantum available tokens =>
    obtain ⟨x, job, hx, hjob, rfl⟩ := hf
    obtain ⟨y, other, hy, hother, rfl⟩ := hg
    cases hx.symm.trans hy
    cases hjob.symm.trans hother
    rfl
  | _ => exact hf.elim

/-- Every entry may be selected. -/
def anyEntry : ℕ → Bool := fun _ => true

theorem live_of_queued (config : SchedulerPolicyConfig) (w : World) (hs : Sound config w)
    (e : PolicyEntry) (he : e ∈ w.policy.runnable) : w.live anyEntry e.id = true := by
  obtain ⟨job, hjob, _⟩ := hs.queued e he
  simp [World.live, hjob, anyEntry]

theorem exists_serves (config : SchedulerPolicyConfig) (w : World) (tokens : ℕ)
    (entry : PolicyEntry) (hs : Sound config w) (hentry : entry ∈ w.policy.runnable) :
    ∃ w' h, w.act (.quantum anyEntry tokens) = some w' ∧ Serves w anyEntry tokens w' h := by
  obtain ⟨x, hselect⟩ := exists_select w.policy (w.live anyEntry) entry hentry
    (live_of_queued config w hs entry hentry)
  obtain ⟨head, hsel⟩ := select_cases w.policy x.2 (w.live anyEntry) x.1 hselect
  obtain ⟨hplace, _, _⟩ := heads_placed _ _ head hsel.head
  obtain ⟨job, hjob, _⟩ := hs.queued head.entry (List.mem_of_getElem? hplace)
  have hstep : w.act (.quantum anyEntry tokens) =
      some { w with policy := x.2.charge job.flow tokens x.1.chargeScale } := by
    change w.quantum anyEntry tokens = _
    unfold World.quantum
    rw [hselect, Option.bind_some, hsel.id_eq, hjob]
    rfl
  obtain ⟨h, hserves⟩ := serves_of_quantum config w _ anyEntry tokens hs hstep
  exact ⟨_, h, hstep, hserves⟩

theorem heads_single (p : FairPolicy) (available : ℕ → Bool) (e : PolicyEntry)
    (hqueue : p.runnable = [e]) (he : available e.id = true) :
    p.heads available = [p.headOf 0 e] := by
  simp [heads, hqueue, collectHeads, he]

theorem heads_pair (p : FairPolicy) (available : ℕ → Bool) (e r : PolicyEntry)
    (hqueue : p.runnable = [e, r]) (he : available e.id = true) (hr : available r.id = true)
    (hne : e.flow ≠ r.flow) : p.heads available = [p.headOf 0 e, p.headOf 1 r] := by
  simp [heads, hqueue, collectHeads, he, hr, headOf, hne]

/-- A quantum of the only entry. -/
structure Solo (e : PolicyEntry) (tokens : ℕ) (weight : ℤ) (w w' : World) : Prop where
  act_eq : w.act (.quantum anyEntry tokens) = some w'
  runnable_eq : w'.policy.runnable = []
  jobs_eq : w'.jobs = w.jobs
  credit : w'.credit e.flow = min (w.credit e.flow + weight) (weight * 8) -
    chargeOf tokens (max weight 1)
  available : Available e.flow w (.quantum anyEntry tokens)
  weights : totalWeight (w.policy.heads (w.live anyEntry)) = max weight 1

theorem exists_solo (config : SchedulerPolicyConfig) (w : World) (e : PolicyEntry)
    (tokens : ℕ) (weight : ℤ) (hs : Sound config w) (hqueue : w.policy.runnable = [e])
    (hweight : w.policy.weight (w.policy.effectiveClass e).1 = weight) :
    ∃ w', Solo e tokens weight w w' := by
  have he : e ∈ w.policy.runnable := by rw [hqueue]; exact List.mem_singleton_self e
  obtain ⟨w', h, hstep, hserves⟩ := exists_serves config w tokens e hs he
  have hheads := heads_single w.policy (w.live anyEntry) e hqueue
    (live_of_queued config w hs e he)
  have hh : h = w.policy.headOf 0 e := List.mem_singleton.mp (hheads ▸ hserves.head)
  have hcredit := hserves.credit_payer
  have hrefill := refillAll_of_mem w.policy.deficits _ (heads_nodup _ _) h hserves.head
  subst hh
  have hweights : totalWeight (w.policy.heads (w.live anyEntry)) = max weight 1 := by
    simp [hheads, headOf, totalWeight, hweight]
  refine ⟨w', hstep, ?_, hserves.jobs_eq, ?_, ⟨_, hserves.head, rfl⟩, hweights⟩
  · rw [hserves.runnable_eq, hqueue]
    rfl
  · refine hcredit.trans ?_
    rw [hrefill, hweights]
    simp [headOf, hweight, World.credit]

/-- A quantum of the second of two entries, which passes the first by. -/
structure Beaten (e r : PolicyEntry) (tokens : ℕ) (a b : ℤ) (w w' : World) : Prop where
  act_eq : w.act (.quantum anyEntry tokens) = some w'
  runnable_eq : w'.policy.runnable = [e]
  jobs_eq : w'.jobs = w.jobs
  credit : w'.credit e.flow = min (w.credit e.flow + a) (a * 8)
  paid : w'.credit r.flow = min (w.credit r.flow + b) (b * 8) - chargeOf tokens (max (a + b) 1)
  available : Available e.flow w (.quantum anyEntry tokens)
  passed : ¬Selected e.flow w (.quantum anyEntry tokens)
  weights : totalWeight (w.policy.heads (w.live anyEntry)) = max (a + b) 1

theorem exists_beaten (config : SchedulerPolicyConfig) (w : World) (e r : PolicyEntry)
    (tokens : ℕ) (a b : ℤ) (hs : Sound config w) (hqueue : w.policy.runnable = [e, r])
    (hne : e.flow ≠ r.flow) (ha : w.policy.weight (w.policy.effectiveClass e).1 = a)
    (hb : w.policy.weight (w.policy.effectiveClass r).1 = b)
    (hless : min (w.credit e.flow + a) (a * 8) < min (w.credit r.flow + b) (b * 8)) :
    ∃ w', Beaten e r tokens a b w w' := by
  have he : e ∈ w.policy.runnable := by rw [hqueue]; exact List.mem_cons_self
  have hr : r ∈ w.policy.runnable := by rw [hqueue]; exact List.mem_cons_of_mem _ List.mem_cons_self
  obtain ⟨w', h, hstep, hserves⟩ := exists_serves config w tokens e hs he
  have hheads := heads_pair w.policy (w.live anyEntry) e r hqueue
    (live_of_queued config w hs e he) (live_of_queued config w hs r hr) hne
  have hnodup := heads_nodup w.policy (w.live anyEntry)
  have hemem : w.policy.headOf 0 e ∈ w.policy.heads (w.live anyEntry) := by simp [hheads]
  have hrmem : w.policy.headOf 1 r ∈ w.policy.heads (w.live anyEntry) := by simp [hheads]
  have hecredit := refillAll_of_mem w.policy.deficits _ hnodup _ hemem
  have hrcredit := refillAll_of_mem w.policy.deficits _ hnodup _ hrmem
  simp only [headOf, ha, hb] at hecredit hrcredit
  have hh : h = w.policy.headOf 1 r := by
    have hmem := hserves.head
    rw [hheads] at hmem
    rcases List.mem_cons.mp hmem with rfl | hmem
    · have hmost := hserves.most _ hrmem
      simp only [headOf, hecredit, hrcredit] at hmost
      exact absurd hmost (not_le.mpr hless)
    · exact List.mem_singleton.mp hmem
  have hpaid := hserves.credit_payer
  have hkept := hserves.credit_of_ne e.flow (by rw [hh]; exact hne)
  have hselected := hserves.selected
  have hweights : totalWeight (w.policy.heads (w.live anyEntry)) = max (a + b) 1 := by
    simp [hheads, headOf, totalWeight, ha, hb]
  rw [hweights] at hpaid
  subst hh
  refine ⟨w', hstep, ?_, hserves.jobs_eq, hkept.trans hecredit, ?_, ⟨_, hemem, rfl⟩, ?_,
    hweights⟩
  · rw [hserves.runnable_eq, hqueue]
    rfl
  · refine hpaid.trans ?_
    simp only [headOf, hrcredit]
    rfl
  · intro h
    exact hne (selected_unique w _ _ _ h hselected)

theorem flows_card_le (w : World) (f g : FlowKey)
    (h : ∀ c job, w.jobs.lookup c = some job → job.flow = f ∨ job.flow = g) :
    w.flows.card ≤ 2 := by
  refine (Finset.card_le_card ?_).trans (Finset.card_le_two (a := f) (b := g))
  intro flow hflow
  obtain ⟨c, job, hjob, rfl⟩ := (mem_flows w flow).mp hflow
  rcases h c job hjob with heq | heq <;> simp [heq]

theorem requeue_step (w : World) (id : ℕ) (job : PolicyJob)
    (hjob : w.jobs.lookup id = some job) (hqueue : ∀ e ∈ w.policy.runnable, e.id ≠ id) :
    w.act (.requeue id) =
      some { w with policy := w.policy.enqueue id job.flow job.admittedRound } := by
  change w.requeue id = _
  unfold World.requeue
  rw [if_neg, hjob]
  · rfl
  · simpa using hqueue

theorem submit_step (w : World) (id : ℕ) (flow : FlowKey) (h : w.jobs.lookup id = none) :
    w.act (.submit id flow) = some
      ⟨w.policy.enqueue id flow w.policy.round, w.jobs.insert id ⟨flow, w.policy.round⟩⟩ := by
  change w.submit id flow = _
  unfold World.submit
  rw [h]
  rfl

theorem only_single (job : PolicyJob) (c : ℕ) (other : PolicyJob)
    (h : ((∅ : Table ℕ PolicyJob).insert 0 job).lookup c = some other) :
    c = 0 ∧ other.flow = job.flow := by
  rw [AList.lookup_insert_ite] at h
  split at h
  · rename_i hc
    cases h
    exact ⟨hc, rfl⟩
  · exact nomatch h

end Families

section Pardons

def modest : FlowKey := ⟨"modest", .interactive⟩

def heavy : FlowKey := ⟨"heavy", .standard⟩

/-- Valid, though the standard class outweighs the interactive one. -/
def heavyConfig : SchedulerPolicyConfig := ⟨1, 1, 100, 1, 1, 32, 64, 1024⟩

/-- Only the modest flow has a job, and it is not in debt. -/
structure Modest (w : World) : Prop where
  sound : Sound heavyConfig w
  runnable_eq : w.policy.runnable = [⟨0, modest, 0⟩]
  job : w.jobs.lookup 0 = some ⟨modest, 0⟩
  only : ∀ c job, w.jobs.lookup c = some job → c = 0 ∧ job.flow = modest
  nonneg : 0 ≤ w.credit modest

theorem modest_weight (w : World) (hs : Sound heavyConfig w) :
    w.policy.weight (w.policy.effectiveClass ⟨0, modest, 0⟩).1 = 1 := by
  change ((min (w.policy.config.interactiveWeight * w.policy.config.deficitRefill) u32Max : ℕ) :
    ℤ) = 1
  rw [hs.config_eq]
  rfl

/-- A flow without a job is not in debt. -/
theorem credit_ge (config : SchedulerPolicyConfig) (w : World) (least : ℤ) (hs : Sound config w)
    (hleast : least ≤ 0)
    (h : ∀ c job, w.jobs.lookup c = some job → least ≤ w.credit job.flow) (flow : FlowKey) :
    least ≤ w.credit flow := by
  by_cases hmem : flow ∈ w.policy.deficits
  · obtain ⟨c, job, hjob, rfl⟩ := (mem_flows w flow).mp (hs.keyed flow hmem)
    exact h c job hjob
  · have hzero : w.credit flow = 0 := deficit_of_notMem _ _ hmem
    rw [hzero]
    exact hleast

namespace Modest

variable {w : World}

theorem few (h : Modest w) : w.flows.card ≤ 2 :=
  flows_card_le w modest modest (fun c job hjob => Or.inl (h.only c job hjob).2)

theorem credits (h : Modest w) (flow : FlowKey) : i64Min ≤ w.credit flow := by
  refine le_trans (by decide) (credit_ge heavyConfig w 0 h.sound le_rfl ?_ flow)
  intro c job hjob
  rw [(h.only c job hjob).2]
  exact h.nonneg

end Modest

theorem finish_runnable (w w' : World) (id : ℕ) (h : w.finish id = some w') :
    w'.policy.runnable = w.policy.runnable.filter (fun e => e.id ≠ id) := by
  obtain ⟨job, _, rfl⟩ := Option.map_eq_some_iff.mp h
  unfold clearIfIdle
  split <;> rfl

/-- A job of the heavy flow has joined. -/
structure Joined (j r : ℕ) (w : World) : Prop where
  sound : Sound heavyConfig w
  runnable_eq : w.policy.runnable = [⟨0, modest, 0⟩, ⟨j + 1, heavy, r⟩]
  round_eq : w.policy.round = r
  job : w.jobs.lookup 0 = some ⟨modest, 0⟩
  only : ∀ c job, w.jobs.lookup c = some job →
    (c = 0 ∧ job.flow = modest) ∨ (c = j + 1 ∧ job.flow = heavy)
  joined : w.jobs.lookup (j + 1) = some ⟨heavy, r⟩
  nonneg : 0 ≤ w.credit modest
  fresh : w.credit heavy = 0

theorem joined_of_submit (w : World) (j : ℕ) (h : Modest w) :
    ∃ w', w.act (.submit (j + 1) heavy) = some w' ∧ Joined j w.policy.round w' := by
  have hnone : w.jobs.lookup (j + 1) = none := by
    cases hjob : w.jobs.lookup (j + 1) with
    | none => rfl
    | some job => exact absurd (h.only (j + 1) job hjob).1 (Nat.succ_ne_zero j)
  have hstep := submit_step w (j + 1) heavy hnone
  refine ⟨_, hstep, act_sound heavyConfig _ _ _ h.sound hstep, ?_, rfl, ?_, ?_,
    AList.lookup_insert _, h.nonneg, ?_⟩
  · change w.policy.runnable ++ [_] = _
    rw [h.runnable_eq]
    rfl
  · exact (AList.lookup_insert_ne (Nat.succ_ne_zero j).symm).trans h.job
  · intro c job hjob
    rw [AList.lookup_insert_ite] at hjob
    split at hjob
    · rename_i hc
      cases hjob
      exact Or.inr ⟨hc, rfl⟩
    · exact Or.inl (h.only c job hjob)
  · apply deficit_of_notMem
    intro hmem
    obtain ⟨c, job, hjob, hflow⟩ := (mem_flows w heavy).mp (h.sound.keyed heavy hmem)
    exact absurd ((h.only c job hjob).2.symm.trans hflow) (by decide)

namespace Joined

variable {j r : ℕ} {w w' : World}

theorem few (h : Joined j r w) (heq : w'.jobs = w.jobs) : w'.flows.card ≤ 2 := by
  refine flows_card_le w' modest heavy ?_
  intro c job hjob
  exact (h.only c job (heq ▸ hjob)).imp And.right And.right

theorem heavy_weight (h : Joined j r w) :
    w.policy.weight (w.policy.effectiveClass ⟨j + 1, heavy, r⟩).1 = 100 := by
  have hage : w.policy.promotionsOf ⟨j + 1, heavy, r⟩ = 0 := by
    simp [promotionsOf, h.round_eq]
  unfold effectiveClass weight
  rw [hage]
  change ((min (w.policy.config.standardWeight * w.policy.config.deficitRefill) u32Max : ℕ) :
    ℤ) = 100
  rw [h.sound.config_eq]
  rfl

theorem exists_beaten (h : Joined j r w) :
    ∃ w', Beaten ⟨0, modest, 0⟩ ⟨j + 1, heavy, r⟩ 1 1 100 w w' := by
  have hnonneg := h.nonneg
  have hfresh := h.fresh
  exact Starvation.exists_beaten heavyConfig w _ _ 1 1 100 h.sound h.runnable_eq
    (show modest ≠ heavy by decide) (modest_weight w h.sound) h.heavy_weight
    (by simp only; omega)

theorem level (h : Joined j r w)
    (hbeaten : Beaten ⟨0, modest, 0⟩ ⟨j + 1, heavy, r⟩ 1 1 100 w w') :
    Level 0 modest w (.quantum anyEntry 1) := by
  constructor
  · intro g hg
    have hnonneg := h.nonneg
    obtain ⟨c, job, hjob, rfl⟩ := (mem_flows w g).mp hg
    rcases h.only c job hjob with ⟨_, heq⟩ | ⟨_, heq⟩
    · rw [heq, Nat.cast_zero, add_zero]
    · rw [heq, h.fresh]
      omega
  · rw [hbeaten.weights]
    decide

/-- The debt after the quantum is one. -/
theorem debt (h : Joined j r w)
    (hbeaten : Beaten ⟨0, modest, 0⟩ ⟨j + 1, heavy, r⟩ 1 1 100 w w') :
    w'.credit heavy = -1 ∧ 0 ≤ w'.credit modest := by
  have hpaid := hbeaten.paid
  have hcredit := hbeaten.credit
  have hnonneg := h.nonneg
  have hcharge : chargeOf 1 (max (1 + 100) 1) = 101 := by decide
  change w'.credit heavy = min (w.credit heavy + 100) (100 * 8) - _ at hpaid
  change w'.credit modest = min (w.credit modest + 1) (1 * 8) at hcredit
  rw [h.fresh, hcharge] at hpaid
  exact ⟨by omega, by omega⟩

theorem pardoned (h : Joined j r w)
    (hbeaten : Beaten ⟨0, modest, 0⟩ ⟨j + 1, heavy, r⟩ 1 1 100 w w') :
    pardons w' (.finish (j + 1)) = true := by
  have hjob := hbeaten.jobs_eq ▸ h.joined
  simp only [pardons, hjob, Option.any_some, (h.debt hbeaten).1, Bool.and_eq_true,
    decide_eq_true_eq, Bool.not_eq_true', List.any_eq_false]
  refine ⟨by decide, ?_⟩
  intro flow hflow
  obtain ⟨job, hmem, rfl⟩ := List.mem_map.mp hflow
  obtain ⟨c, hc⟩ := (AList.mem_values_iff _ job).mp hmem
  rw [hbeaten.jobs_eq, AList.lookup_erase_ite] at hc
  split at hc
  · cases hc
  · rename_i hne
    rcases h.only c job hc with ⟨_, heq⟩ | ⟨heq, _⟩
    · rw [heq]
      decide
    · exact absurd heq hne

/-- The heavy job finishes after its quantum, and its debt is forgotten. -/
theorem modest_of_finish (h : Joined j r w)
    (hbeaten : Beaten ⟨0, modest, 0⟩ ⟨j + 1, heavy, r⟩ 1 1 100 w w') :
    ∃ w'', w'.act (.finish (j + 1)) = some w'' ∧ Modest w'' := by
  have hsound := act_sound heavyConfig w w' _ h.sound hbeaten.act_eq
  have hfinish : w'.act (.finish (j + 1)) = some _ :=
    Option.map_eq_some_iff.mpr ⟨_, hbeaten.jobs_eq ▸ h.joined, rfl⟩
  obtain ⟨job, hleaves⟩ := leaves_of_finish heavyConfig w' _ (j + 1) hsound hfinish
  refine ⟨_, hfinish, act_sound heavyConfig w' _ _ hsound hfinish, ?_, ?_, ?_, ?_⟩
  · rw [finish_runnable w' _ (j + 1) hfinish, hbeaten.runnable_eq]
    rfl
  · rw [hleaves.jobs_eq, hbeaten.jobs_eq, AList.lookup_erase_ite, if_neg (Nat.succ_ne_zero j).symm]
    exact h.job
  · intro c job hjob
    rw [hleaves.jobs_eq, hbeaten.jobs_eq, AList.lookup_erase_ite] at hjob
    split at hjob
    · exact nomatch hjob
    · rename_i hne
      exact (h.only c job hjob).elim id (fun hboth => absurd hboth.1 hne)
  · rcases hleaves.credit modest with heq | ⟨hzero, _⟩
    · rw [heq]
      exact (h.debt hbeaten).2
    · exact hzero.ge

end Joined

/-- A window of `k` quanta in which the modest flow has a job and no flow leads it; `p` flows
leave in debt. -/
structure Waits (k p : ℕ) (w : World) (window : List (Action × World)) : Prop where
  run : IsRun Step w window
  fits : Along (Fits 2 1) w window
  available : Meets (Available modest) w window
  level : Meets (Level 0 modest) w window
  quanta_eq : quanta w window = k
  pardons_eq : count pardons w window = p
  modest : Modest (last w window)

theorem Waits.append {k l p q : ℕ} {w : World} {r t : List (Action × World)}
    (hr : Waits k p w r) (ht : Waits l q (last w r) t) : Waits (k + l) (p + q) w (r ++ t) where
  run := (isRun_append _ _ r t).mpr ⟨hr.run, ht.run⟩
  fits := (along_append _ _ r t).mpr ⟨hr.fits, ht.fits⟩
  available := (meets_append _ _ r t).mpr ⟨hr.available, ht.available⟩
  level := (meets_append _ _ r t).mpr ⟨hr.level, ht.level⟩
  quanta_eq := by
    unfold quanta
    rw [count_append]
    exact congrArg₂ _ hr.quanta_eq ht.quanta_eq
  pardons_eq := by rw [count_append, hr.pardons_eq, ht.pardons_eq]
  modest := by
    rw [last_append]
    exact ht.modest

def Passed (w : World) (window : List (Action × World)) : Prop :=
  Meets (fun w a => ¬Selected modest w a) w window

/-- A heavy job comes, runs for a quantum and leaves in debt. -/
theorem exists_visit (j : ℕ) (w : World) (h : Modest w) :
    ∃ window, Waits 1 1 w window ∧ Passed w window := by
  obtain ⟨w₁, hsubmit, hjoined⟩ := joined_of_submit w j h
  obtain ⟨w₂, hbeaten⟩ := hjoined.exists_beaten
  obtain ⟨w₃, hfinish, hnext⟩ := hjoined.modest_of_finish hbeaten
  have hsound := act_sound heavyConfig w₁ w₂ _ hjoined.sound hbeaten.act_eq
  have hcredits : ∀ flow, i64Min ≤ w₁.credit flow := by
    intro flow
    have heq : w₁.credit flow = w.credit flow :=
      credit_of_eq (joins_of_submit w w₁ (j + 1) heavy hsubmit).deficits_eq
    rw [heq]
    exact h.credits flow
  have hcredits' : ∀ flow, i64Min ≤ w₂.credit flow := by
    intro flow
    refine le_trans (by decide) (credit_ge heavyConfig w₂ (-1) hsound (by decide) ?_ flow)
    obtain ⟨hdebt, hnonneg⟩ := hjoined.debt hbeaten
    intro c job hjob
    rcases hjoined.only c job (hbeaten.jobs_eq ▸ hjob) with ⟨_, heq⟩ | ⟨_, heq⟩
    · rw [heq]
      omega
    · rw [heq, hdebt]
  have hlevel := hjoined.level hbeaten
  refine ⟨[(.submit (j + 1) heavy, w₁), (.quantum anyEntry 1, w₂), (.finish (j + 1), w₃)],
    ⟨⟨⟨hsubmit, trivial, hcredits⟩, ⟨hbeaten.act_eq, ⟨by decide, hlevel.2⟩, hcredits'⟩,
      ⟨hfinish, trivial, hnext.credits⟩, trivial⟩,
      ⟨⟨hjoined.few rfl, trivial⟩, ⟨hjoined.few hbeaten.jobs_eq, by decide, by decide⟩,
        ⟨hnext.few, trivial⟩, trivial⟩,
      ⟨trivial, hbeaten.available, trivial, trivial⟩, ⟨trivial, hlevel, trivial, trivial⟩, rfl,
      ?_, hnext⟩, ⟨id, hbeaten.passed, id, trivial⟩⟩
  change 0 + (0 + ((pardons w₂ (.finish (j + 1))).toNat + 0)) = 1
  rw [hjoined.pardoned hbeaten]
  rfl

/-- The modest job runs for a quantum, alone, and queues again. -/
theorem exists_turn (w : World) (h : Modest w) : ∃ window, Waits 1 0 w window := by
  obtain ⟨w₁, hsolo⟩ := exists_solo heavyConfig w ⟨0, modest, 0⟩ 1 1 h.sound h.runnable_eq
    (modest_weight w h.sound)
  have hsound := act_sound heavyConfig w w₁ _ h.sound hsolo.act_eq
  have hjob : w₁.jobs.lookup 0 = some ⟨modest, 0⟩ := hsolo.jobs_eq ▸ h.job
  have honly : ∀ c job, w₁.jobs.lookup c = some job → c = 0 ∧ job.flow = modest :=
    hsolo.jobs_eq ▸ h.only
  have hnonneg : 0 ≤ w₁.credit modest := by
    have hcredit := hsolo.credit
    have hbefore := h.nonneg
    have hcharge : chargeOf 1 (max 1 1) = 1 := by decide
    change w₁.credit modest = min (w.credit modest + 1) (1 * 8) - _ at hcredit
    rw [hcharge] at hcredit
    omega
  have hrequeue := requeue_step w₁ 0 ⟨modest, 0⟩ hjob (by simp [hsolo.runnable_eq])
  have hcredits : ∀ flow, i64Min ≤ w₁.credit flow := by
    intro flow
    refine le_trans (by decide) (credit_ge heavyConfig w₁ 0 hsound le_rfl ?_ flow)
    intro c job hc
    rw [(honly c job hc).2]
    exact hnonneg
  have hnext : Modest { w₁ with policy := w₁.policy.enqueue 0 modest 0 } := by
    refine ⟨act_sound heavyConfig _ _ _ hsound hrequeue, ?_, hjob, honly, hnonneg⟩
    change w₁.policy.runnable ++ [_] = _
    rw [hsolo.runnable_eq]
    rfl
  have hweights : totalWeight (w.policy.heads (w.live anyEntry)) ≤ i64Max := by
    rw [hsolo.weights]
    decide
  have hlevel : ∀ g ∈ w.flows, w.credit g ≤ w.credit modest + (0 : ℕ) := by
    intro g hg
    obtain ⟨c, job, hc, rfl⟩ := (mem_flows w g).mp hg
    rw [(h.only c job hc).2, Nat.cast_zero, add_zero]
  have hfew : w₁.flows.card ≤ 2 :=
    flows_card_le w₁ modest modest (fun c job hc => Or.inl (honly c job hc).2)
  exact ⟨[(.quantum anyEntry 1, w₁), (.requeue 0, _)],
    ⟨⟨hsolo.act_eq, ⟨by decide, hweights⟩, hcredits⟩, ⟨hrequeue, trivial, hcredits⟩, trivial⟩,
    ⟨⟨hfew, by decide, by decide⟩, ⟨hfew, trivial⟩, trivial⟩,
    ⟨hsolo.available, trivial, trivial⟩, ⟨⟨hlevel, hweights⟩, trivial, trivial⟩, rfl, rfl, hnext⟩

theorem modest_starves (k j : ℕ) (w : World) (h : Modest w) :
    ∃ window, Waits k k w window ∧ Passed w window := by
  induction k generalizing j w with
  | zero => exact ⟨[], ⟨trivial, trivial, trivial, trivial, rfl, rfl, h⟩, trivial⟩
  | succ k ih =>
    obtain ⟨visit, hvisit, hpassed⟩ := exists_visit j w h
    obtain ⟨rest, hrest, hpassed'⟩ := ih (j + 1) (last w visit) hvisit.modest
    rw [Nat.add_comm]
    exact ⟨visit ++ rest, hvisit.append hrest, (meets_append _ _ _ _).mpr ⟨hpassed, hpassed'⟩⟩

theorem modest_runs (k : ℕ) (w : World) (h : Modest w) : ∃ window, Waits k 0 w window := by
  induction k generalizing w with
  | zero => exact ⟨[], trivial, trivial, trivial, trivial, rfl, rfl, h⟩
  | succ k ih =>
    obtain ⟨turn, hturn⟩ := exists_turn w h
    obtain ⟨rest, hrest⟩ := ih (last w turn) hturn.modest
    rw [Nat.add_comm]
    exact ⟨turn ++ rest, hturn.append hrest⟩

theorem modest_submitted :
    ∃ w, Waits 0 0 (initial heavyConfig) [(.submit 0 modest, w)] ∧ Modest w := by
  have hsubmit := submit_step (initial heavyConfig) 0 modest (AList.lookup_empty 0)
  have hmodest : Modest _ := ⟨act_sound heavyConfig _ _ _ (Sound.initial _) hsubmit, rfl,
    AList.lookup_insert _, only_single ⟨modest, 0⟩, le_rfl⟩
  exact ⟨_, ⟨⟨⟨hsubmit, trivial, hmodest.credits⟩, trivial⟩, ⟨⟨hmodest.few, trivial⟩, trivial⟩,
    ⟨trivial, trivial⟩, ⟨trivial, trivial⟩, rfl, rfl, hmodest⟩, hmodest⟩

/-- The modest flow is passed by once, for a heavy flow that then leaves in debt, and is
selected in a window that is long enough. -/
theorem modest_selected_within : ∃ (history visit rest : List (Action × World)),
    IsRun Step (initial heavyConfig) (history ++ (visit ++ rest)) ∧
    Meets (Level 0 modest) (last (initial heavyConfig) history) (visit ++ rest) ∧
    count pardons (last (initial heavyConfig) history) (visit ++ rest) = 1 ∧
    ¬SelectedIn modest (last (initial heavyConfig) history) visit ∧
    SelectedIn modest (last (initial heavyConfig) history) (visit ++ rest) := by
  obtain ⟨bound, hbound⟩ := flow_selected_within heavyConfig rfl 2 1 0 1
  obtain ⟨w, hsubmit, hmodest⟩ := modest_submitted
  obtain ⟨visit, hvisit, hpassed⟩ := exists_visit 0 w hmodest
  obtain ⟨rest, hrest⟩ := modest_runs bound (last w visit) hvisit.modest
  have hwindow := hvisit.append hrest
  have hall := hsubmit.append hwindow
  refine ⟨_, visit, rest, hall.run, hwindow.level, hwindow.pardons_eq, not_not.mpr hpassed, ?_⟩
  exact hbound _ (visit ++ rest) modest hall.run hall.fits hwindow.available hwindow.level
    hwindow.pardons_eq.le (hwindow.quanta_eq ▸ Nat.le_add_left bound 1)

/-- Even if no flow ever leads the waiting one, unpaid departures can pass it by for any
number of quanta. -/
theorem level_flows_can_starve : ∃ config : SchedulerPolicyConfig,
    config.validate = .ok config ∧ ∀ bound, ∃ (history window : List (Action × World))
      (flow : FlowKey), IsRun Step (initial config) (history ++ window) ∧
      Along (Fits 2 1) (initial config) (history ++ window) ∧
      Meets (Available flow) (last (initial config) history) window ∧
      Meets (Level 0 flow) (last (initial config) history) window ∧
      bound ≤ quanta (last (initial config) history) window ∧
      ¬SelectedIn flow (last (initial config) history) window := by
  refine ⟨heavyConfig, rfl, fun bound => ?_⟩
  obtain ⟨w, hsubmit, hmodest⟩ := modest_submitted
  obtain ⟨window, hwindow, hpassed⟩ := modest_starves bound 0 w hmodest
  have hall := hsubmit.append hwindow
  exact ⟨_, window, modest, hall.run, hall.fits, hwindow.available, hwindow.level,
    hwindow.quanta_eq.ge, not_not.mpr hpassed⟩

end Pardons

end Cusco.Starvation
