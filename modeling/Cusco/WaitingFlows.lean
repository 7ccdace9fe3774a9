import Cusco.PolicyRuns
import Mathlib.Tactic.Ring

/-!
How long a flow with an available head is passed by. A quantum is a round of credit: its
charge covers what all heads were credited, so the credit of the other flows shrinks by
the weight of the waiting one. Debts count only as far as a flow can owe that had at least
the credit of the waiting flow, and a flow that starts from zero does not count while the
waiting flow is in debt, since no flow may lead it by much.
-/

namespace Cusco.WaitingFlows

open SchedulerPolicy FairPolicy Runs Selections PolicyRuns PolicyRuns.World Credits

section Rounds

/-- The weight of the flow's head, if it has one. -/
def weightOf (heads : List Head) (flow : FlowKey) : ℤ :=
  ((heads.find? (fun h => h.entry.flow = flow)).map Head.credit).getD 0

def headFlows (heads : List Head) : Finset FlowKey :=
  (heads.map (fun h => h.entry.flow)).toFinset

theorem mem_headFlows (heads : List Head) (flow : FlowKey) :
    flow ∈ headFlows heads ↔ ∃ h ∈ heads, h.entry.flow = flow := by
  simp [headFlows]

theorem weightOf_of_mem (heads : List Head)
    (hnodup : (heads.map (fun h => h.entry.flow)).Nodup) (h : Head) (hmem : h ∈ heads) :
    weightOf heads h.entry.flow = h.credit := by
  induction heads with
  | nil => exact nomatch hmem
  | cons head rest ih =>
    rw [List.map_cons, List.nodup_cons] at hnodup
    unfold weightOf
    rcases List.mem_cons.mp hmem with rfl | hmem
    · simp
    · rw [List.find?_cons_of_neg]
      · exact ih hnodup.2 hmem
      · intro heq
        exact hnodup.1 (of_decide_eq_true heq ▸ List.mem_map_of_mem hmem)

theorem sum_weightOf (heads : List Head)
    (hnodup : (heads.map (fun h => h.entry.flow)).Nodup) :
    ∑ flow ∈ headFlows heads, weightOf heads flow = (heads.map Head.credit).sum := by
  rw [headFlows, List.sum_toFinset _ hnodup, List.map_map]
  congr 1
  apply List.map_congr_left
  intro h hmem
  exact weightOf_of_mem heads hnodup h hmem

variable {config : SchedulerPolicyConfig} {w w' : World} {available : ℕ → Bool} {tokens : ℕ}
  {h : Head}

theorem head_credit (hs : Sound config w) (hvalid : config.hasZero = false) (x : Head)
    (hx : x ∈ w.policy.heads (w.live available)) : 1 ≤ x.credit ∧ x.credit ≤ u32Max := by
  rw [(heads_placed _ _ x hx).2.2]
  exact ⟨weight_pos _ (hs.config_eq ▸ hvalid) _, weight_le _ _⟩

/-- A quantum is a round of credit: its charge covers the weights of all heads. -/
theorem round_of_serves (hs : Sound config w) (hvalid : config.hasZero = false)
    (hserves : Serves w available tokens w' h)
    (hfits : totalWeight (w.policy.heads (w.live available)) ≤ i64Max) :
    Round (headFlows (w.policy.heads (w.live available)))
      (weightOf (w.policy.heads (w.live available))) h.entry.flow
      (chargeOf tokens (totalWeight (w.policy.heads (w.live available))))
      w.credit w'.credit := by
  have hnodup := heads_nodup w.policy (w.live available)
  refine ⟨(mem_headFlows _ _).mpr ⟨h, hserves.head, rfl⟩, ?_, ?_, ?_, ?_⟩
  · intro flow hflow
    obtain ⟨x, hx, rfl⟩ := (mem_headFlows _ _).mp hflow
    rw [weightOf_of_mem _ hnodup x hx]
    have := (head_credit hs hvalid x hx).1
    omega
  · intro flow hne
    rw [hserves.credit_of_ne flow hne]
    by_cases hflow : flow ∈ headFlows (w.policy.heads (w.live available))
    · obtain ⟨x, hx, rfl⟩ := (mem_headFlows _ _).mp hflow
      rw [if_pos hflow, weightOf_of_mem _ hnodup x hx, refillAll_of_mem _ _ hnodup x hx]
      exact min_le_left _ _
    · rw [if_neg hflow, refillAll_of_ne, add_zero]
      · exact le_rfl
      · intro x hx heq
        exact hflow ((mem_headFlows _ _).mpr ⟨x, hx, heq⟩)
  · rw [hserves.credit_payer, weightOf_of_mem _ hnodup h hserves.head,
      refillAll_of_mem _ _ hnodup h hserves.head]
    exact sub_le_sub_right (min_le_left _ _) _
  · rw [sum_weightOf _ hnodup]
    have hsum : ((w.policy.heads (w.live available)).map Head.credit).sum ≤
        totalWeight (w.policy.heads (w.live available)) := le_max_left _ _
    have hone : 1 ≤ totalWeight (w.policy.heads (w.live available)) := le_max_right _ _
    have htokens : (1 : ℤ) ≤ (max tokens 1 : ℕ) := by omega
    have hscale := le_mul_of_one_le_left (le_trans zero_le_one hone) htokens
    exact le_min (hsum.trans hscale) (hsum.trans hfits)

/-- The most a quantum of `m` tokens is charged among `n` flows. -/
def dearest (n m : ℕ) : ℤ := m * (n * u32Max + 1)

theorem dearest_nonneg (n m : ℕ) : 0 ≤ dearest n m := by
  unfold dearest
  positivity

theorem charge_le (n m : ℕ) (available : ℕ → Bool) (hs : Sound config w)
    (hvalid : config.hasZero = false)
    (hflows : w.flows.card ≤ n) (htokens : 1 ≤ tokens ∧ tokens ≤ m) :
    chargeOf tokens (totalWeight (w.policy.heads (w.live available))) ≤ dearest n m := by
  have hnodup := heads_nodup w.policy (w.live available)
  have hcount : (w.policy.heads (w.live available)).length ≤ n := by
    have hsub : headFlows (w.policy.heads (w.live available)) ⊆ w.flows := by
      intro flow hflow
      obtain ⟨x, hx, rfl⟩ := (mem_headFlows _ _).mp hflow
      exact Serves.head_flow hs x hx
    have hcard := Finset.card_le_card hsub
    rw [headFlows, List.toFinset_card_of_nodup hnodup, List.length_map] at hcard
    exact hcard.trans hflows
  have hsum : ((w.policy.heads (w.live available)).map Head.credit).sum ≤ n * u32Max := by
    have hle := List.sum_le_card_nsmul
      ((w.policy.heads (w.live available)).map Head.credit) (u32Max : ℤ) (by
        intro c hc
        obtain ⟨x, hx, rfl⟩ := List.mem_map.mp hc
        exact (head_credit hs hvalid x hx).2)
    rw [List.length_map, nsmul_eq_mul] at hle
    exact hle.trans (mul_le_mul_of_nonneg_right (by exact_mod_cast hcount) (by positivity))
  have hscale : totalWeight (w.policy.heads (w.live available)) ≤ n * u32Max + 1 :=
    max_le (hsum.trans (by omega)) (by
      have : (0 : ℤ) ≤ n * u32Max := by positivity
      omega)
  refine (min_le_left _ _).trans ?_
  rw [max_eq_left htokens.1]
  exact mul_le_mul (by exact_mod_cast htokens.2) hscale
    (le_trans zero_le_one (le_max_right _ _)) (by positivity)

end Rounds

section Waiting

/-- No flow with a job has more credit than the waiting flow by more than `lead`, and the
weights of the heads add up to an `i64`. -/
def Level (lead : ℕ) (flow : FlowKey) (w : World) : Action → Prop
  | .quantum available _ => (∀ g ∈ w.flows, w.credit g ≤ w.credit flow + lead) ∧
      totalWeight (w.policy.heads (w.live available)) ≤ i64Max
  | _ => True

/-- The last job of a flow in debt finishes. -/
def pardons (w : World) : Action → Bool
  | .finish id => (w.jobs.lookup id).any (fun job =>
      w.credit job.flow < 0 && !(jobFlows (w.jobs.erase id)).any (fun g => g = job.flow))
  | _ => false

/-- The other flows that have credit or debt. -/
def others (flow : FlowKey) (w : World) : Finset FlowKey :=
  w.policy.deficits.keys.toFinset.erase flow

theorem mem_others (flow g : FlowKey) (w : World) :
    g ∈ others flow w ↔ g ≠ flow ∧ g ∈ w.policy.deficits := by
  rw [others, Finset.mem_erase, List.mem_toFinset, AList.mem_keys]

/-- The credit of the others, with debts counted as far as one that waits can owe. -/
def settled (n m lead : ℕ) (flow : FlowKey) (w : World) : ℤ :=
  ledger (-(lead + dearest n m)) 0 w.credit (others flow w) + n * (lead + dearest n m)

/-- The credit of the others above the deepest debt that a quantum can leave. -/
def indebted (n m : ℕ) (debt : ℤ) (flow : FlowKey) (w : World) : ℤ :=
  ledger (-(debt + dearest n m)) (-(debt + dearest n m)) w.credit (others flow w)

def mostSettled (n m lead : ℕ) : ℤ := n * (8 * u32Max) + n * (lead + dearest n m)

/-- While the waiting flow owes more than `lead`, no other flow starts from zero. -/
def potential (n m lead : ℕ) (debt : ℤ) (flow : FlowKey) (w : World) : ℤ :=
  if w.credit flow < -lead then mostSettled n m lead + indebted n m debt flow w
  else settled n m lead flow w

/-- A sound state with few flows, in which the waiting flow owes at most `debt`. -/
structure Patient (config : SchedulerPolicyConfig) (n : ℕ) (debt : ℤ) (flow : FlowKey)
    (w : World) : Prop where
  sound : Sound config w
  few : w.flows.card ≤ n
  nonneg : 0 ≤ debt
  owes : -debt ≤ w.credit flow

theorem others_card {config : SchedulerPolicyConfig} {w : World} {n : ℕ} (flow : FlowKey)
    (hs : Sound config w) (hfew : w.flows.card ≤ n) : (others flow w).card ≤ n := by
  refine (Finset.card_le_card ?_).trans hfew
  intro g hg
  exact hs.keyed g ((mem_others flow g w).mp hg).2

section Bounds

variable {config : SchedulerPolicyConfig} {w : World} {n m lead : ℕ} {debt : ℤ}
  {flow : FlowKey}

theorem indebted_nonneg (n m : ℕ) (debt : ℤ) (flow : FlowKey) (w : World) :
    0 ≤ indebted n m debt flow w :=
  ledger_nonneg _ _ _ _ le_rfl

theorem settled_nonneg (m lead : ℕ) (hp : Patient config n debt flow w) :
    0 ≤ settled n m lead flow w := by
  have hle := le_ledger (-(lead + dearest n m)) 0 w.credit (others flow w)
  have hcard : ((others flow w).card : ℤ) ≤ n := by
    exact_mod_cast others_card flow hp.sound hp.few
  have hmul := mul_le_mul_of_nonneg_right hcard
    (add_nonneg (Int.natCast_nonneg lead) (dearest_nonneg n m))
  unfold settled
  linarith

theorem settled_le (m lead : ℕ) (hp : Patient config n debt flow w) :
    settled n m lead flow w ≤ mostSettled n m lead := by
  have hnonneg := dearest_nonneg n m
  have hle := ledger_le (-(lead + dearest n m)) 0 (8 * u32Max) w.credit (others flow w)
    (by omega) (fun g _ => hp.sound.capped g)
  have hcard : ((others flow w).card : ℤ) ≤ n := by
    exact_mod_cast others_card flow hp.sound hp.few
  have hmul := mul_le_mul_of_nonneg_right hcard
    (show (0 : ℤ) ≤ 8 * u32Max by omega)
  unfold settled mostSettled
  linarith

theorem potential_nonneg (hp : Patient config n debt flow w) :
    0 ≤ potential n m lead debt flow w := by
  unfold potential
  split
  · have := settled_nonneg m lead hp
    have := settled_le m lead hp
    have := indebted_nonneg n m debt flow w
    omega
  · exact settled_nonneg m lead hp

/-- Before a quantum among level flows the potential does not depend on the debts. -/
theorem potential_le (m : ℕ) (hp : Patient config n (max (-w.credit flow) 0) flow w)
    (hlevel : ∀ g ∈ w.flows, w.credit g ≤ w.credit flow + lead) :
    potential n m lead (max (-w.credit flow) 0) flow w ≤
      mostSettled n m lead + n * (lead + dearest n m) := by
  have hnonneg := dearest_nonneg n m
  have hcard : ((others flow w).card : ℤ) ≤ n := by
    exact_mod_cast others_card flow hp.sound hp.few
  have hmul := mul_le_mul_of_nonneg_right hcard
    (add_nonneg (Int.natCast_nonneg lead) hnonneg)
  unfold potential
  split
  · have hdebt : max (-w.credit flow) 0 = -w.credit flow := by omega
    have hle := ledger_le (-(-w.credit flow + dearest n m)) (-(-w.credit flow + dearest n m))
      (w.credit flow + lead) w.credit (others flow w) (by omega)
      (fun g hg => hlevel g (hp.sound.keyed g ((mem_others flow g w).mp hg).2))
    have hspan : w.credit flow + lead - -(-w.credit flow + dearest n m) =
        lead + dearest n m := by omega
    rw [hspan] at hle
    unfold indebted
    rw [hdebt]
    linarith
  · have hsettled := settled_le m lead hp
    have : (0 : ℤ) ≤ n * (lead + dearest n m) := by positivity
    linarith

end Bounds

section Steps

variable {config : SchedulerPolicyConfig} {w w' : World} {n m lead : ℕ} {debt : ℤ}
  {flow : FlowKey}

theorem potential_congr (h : w'.policy.deficits = w.policy.deficits) :
    potential n m lead debt flow w' = potential n m lead debt flow w := by
  unfold potential settled indebted others World.credit
  rw [h]

theorem pardons_of_leaves {id : ℕ} {job : PolicyJob} (h : Leaves w id job w')
    (hdebt : w.credit job.flow < 0) (hlast : job.flow ∉ w'.flows) :
    pardons w (.finish id) = true := by
  simp only [pardons, h.found, Option.any_some, Bool.and_eq_true, Bool.not_eq_true',
    List.any_eq_false]
  refine ⟨decide_eq_true hdebt, ?_⟩
  intro g hg heq
  apply hlast
  unfold flows
  rw [h.jobs_eq, List.mem_toFinset]
  exact of_decide_eq_true heq ▸ hg

/-- A flow that is forgotten leaves the ledger of the others. -/
theorem others_erase (g : FlowKey) (h : w'.policy.deficits = w.policy.deficits.erase g) :
    others flow w' = (others flow w).erase g := by
  ext x
  rw [mem_others, Finset.mem_erase, mem_others, h, AList.mem_erase]
  tauto

theorem ledger_of_erase (floor base : ℤ) (g : FlowKey)
    (h : w'.policy.deficits = w.policy.deficits.erase g) :
    ledger floor base w'.credit (others flow w') =
      ledger floor base w.credit ((others flow w).erase g) := by
  rw [others_erase g h]
  apply ledger_congr
  intro x hx
  unfold World.credit
  rw [h, deficit_erase, if_neg (Finset.ne_of_mem_erase hx)]

/-- Only a flow forgotten in debt raises the potential. -/
theorem potential_of_leaves (m lead : ℕ) {id : ℕ} {job : PolicyJob} (h : Leaves w id job w')
    (hp : Patient config n debt flow w) :
    potential n m lead debt flow w' ≤ potential n m lead debt flow w +
      (lead + dearest n m) * (pardons w (.finish id)).toNat := by
  have hnonneg := dearest_nonneg n m
  have hraise : 0 ≤ (lead + dearest n m) * ((pardons w (.finish id)).toNat : ℤ) := by positivity
  rcases h.deficits with ⟨heq, _⟩ | ⟨heq, hlast⟩
  · rw [potential_congr heq]
    omega
  by_cases hmem : job.flow ∈ others flow w
  · have hcredit : w'.credit flow = w.credit flow := by
      unfold World.credit
      rw [heq, deficit_erase, if_neg (Ne.symm ((mem_others flow _ w).mp hmem).1)]
    unfold potential
    rw [hcredit]
    split
    · unfold indebted
      rw [ledger_of_erase _ _ job.flow heq, ledger_erase _ _ _ _ _ hmem]
      omega
    · unfold settled
      rw [ledger_of_erase _ _ job.flow heq, ledger_erase _ _ _ _ _ hmem]
      by_cases hdebt : w.credit job.flow < 0
      · rw [pardons_of_leaves h hdebt hlast, Bool.toNat_true]
        omega
      · omega
  · have hledger : ∀ floor base, ledger floor base w'.credit (others flow w') =
        ledger floor base w.credit (others flow w) := by
      intro floor base
      rw [ledger_of_erase floor base job.flow heq, Finset.erase_eq_of_notMem hmem]
    have hsettled : settled n m lead flow w' = settled n m lead flow w := by
      unfold settled
      rw [hledger]
    have hindebted : indebted n m debt flow w' = indebted n m debt flow w := by
      unfold indebted
      rw [hledger]
    have hle := settled_le m lead hp
    have hpos := indebted_nonneg n m debt flow w
    have hsame := h.credit flow
    unfold potential
    rw [hsettled, hindebted]
    split <;> split <;> omega

variable {available : ℕ → Bool} {tokens : ℕ} {h : Head}

/-- A flow that has a head and is passed by gains credit, unless it already has some. -/
theorem credit_of_waiting (hvalid : config.hasZero = false)
    (hserves : Serves w available tokens w' h) (hs : Sound config w)
    (hhead : ∃ x ∈ w.policy.heads (w.live available), x.entry.flow = flow)
    (hne : h.entry.flow ≠ flow) : min (w.credit flow + 1) 8 ≤ w'.credit flow := by
  obtain ⟨x, hx, rfl⟩ := hhead
  have hweight := (head_credit hs hvalid x hx).1
  rw [hserves.credit_of_ne _ (Ne.symm hne), refillAll_of_mem _ _ (heads_nodup _ _) x hx]
  change min (w.credit x.entry.flow + 1) 8 ≤ min (w.credit x.entry.flow + x.credit) _
  omega

/-- The flow that pays had at least the credit of the waiting flow, so its debt is at most
one charge deeper than the debt of that flow. -/
theorem payer_floor (hvalid : config.hasZero = false)
    (hserves : Serves w available tokens w' h) (hs : Sound config w) (hfew : w.flows.card ≤ n)
    (htokens : 1 ≤ tokens ∧ tokens ≤ m)
    (hhead : ∃ x ∈ w.policy.heads (w.live available), x.entry.flow = flow)
    (hne : h.entry.flow ≠ flow) : w'.credit flow - dearest n m ≤ w'.credit h.entry.flow := by
  obtain ⟨x, hx, rfl⟩ := hhead
  have hmost := hserves.most x hx
  have hcharge := charge_le n m available hs hvalid hfew htokens
  rw [hserves.credit_payer, hserves.credit_of_ne _ (Ne.symm hne)]
  omega

theorem others_of_serves (hserves : Serves w available tokens w' h) (g : FlowKey) :
    g ∈ others flow w' ↔ g ∈ others flow w ∨
      (g ≠ flow ∧ ∃ x ∈ w.policy.heads (w.live available), x.entry.flow = g) := by
  rw [mem_others, mem_others, hserves.mem_deficits]
  tauto

/-- A quantum that passes the waiting flow by lowers the potential. -/
theorem potential_of_serves (hvalid : config.hasZero = false)
    (hserves : Serves w available tokens w' h) (hp : Patient config n debt flow w)
    (hp' : Patient config n debt flow w') (htokens : 1 ≤ tokens ∧ tokens ≤ m)
    (hlevel : Level lead flow w (.quantum available tokens))
    (hhead : ∃ x ∈ w.policy.heads (w.live available), x.entry.flow = flow)
    (hne : h.entry.flow ≠ flow) :
    potential n m lead debt flow w' + 1 ≤ potential n m lead debt flow w := by
  have hround := round_of_serves hp.sound hvalid hserves hlevel.2
  have hwaiting := credit_of_waiting hvalid hserves hp.sound hhead hne
  have hfloor := payer_floor hvalid hserves hp.sound hp.few htokens hhead hne
  have howes := hp.owes
  have hnonneg := hp.nonneg
  have hsub : others flow w ⊆ others flow w' := by
    intro g hg
    exact (others_of_serves hserves g).mpr (Or.inl hg)
  have hpayer : h.entry.flow ∈ others flow w' :=
    (others_of_serves hserves _).mpr (Or.inr ⟨hne, h, hserves.head, rfl⟩)
  have hweight : 1 ≤ weightOf (w.policy.heads (w.live available)) flow := by
    obtain ⟨x, hx, rfl⟩ := hhead
    rw [weightOf_of_mem _ (heads_nodup _ _) x hx]
    exact (head_credit hp.sound hvalid x hx).1
  have hlower : ∀ floor base, floor ≤ w'.credit h.entry.flow →
      ledger floor base w'.credit (others flow w') + 1 ≤
        ledger floor base w.credit (others flow w') := by
    intro floor base hle
    have := hround.ledger_lt floor base (others flow w') flow ((mem_headFlows _ _).mpr hhead)
      (by simp [others]) hpayer hle
    omega
  -- the waiting flow only rises while it is in debt, so it never returns to the first phase
  unfold potential
  by_cases hphase : w.credit flow < -lead
  · have hsame : others flow w' = others flow w := by
      apply Finset.Subset.antisymm _ hsub
      intro g hg
      rcases (others_of_serves hserves g).mp hg with hold | ⟨hg, x, hx, rfl⟩
      · exact hold
      · refine (mem_others flow _ w).mpr ⟨hg, ?_⟩
        by_contra hnone
        have hzero := deficit_of_notMem w.policy.deficits x.entry.flow hnone
        have := hlevel.1 x.entry.flow (Serves.head_flow hp.sound x hx)
        unfold World.credit at this hphase
        omega
    have hlt : indebted n m debt flow w' + 1 ≤ indebted n m debt flow w := by
      have := hlower (-(debt + dearest n m)) (-(debt + dearest n m)) (by omega)
      unfold indebted
      rw [hsame] at this ⊢
      exact this
    have hpos := indebted_nonneg n m debt flow w'
    have hmost := settled_le m lead hp'
    rw [if_pos hphase]
    split <;> omega
  · have hzero : ∀ g ∈ others flow w', g ∉ others flow w →
        max (w.credit g) (-(lead + dearest n m)) = 0 := by
      intro g hg hnew
      have hnone : g ∉ w.policy.deficits := by
        intro hmem
        exact hnew ((mem_others flow g w).mpr ⟨((mem_others flow g w').mp hg).1, hmem⟩)
      rw [World.credit, deficit_of_notMem _ _ hnone]
      exact max_eq_left (neg_nonpos.mpr (add_nonneg (Int.natCast_nonneg lead)
        (dearest_nonneg n m)))
    have hlt := hlower (-(lead + dearest n m)) 0 (by omega)
    rw [← ledger_subset _ _ _ _ _ hsub hzero] at hlt
    rw [if_neg hphase, if_neg (by omega)]
    unfold settled
    omega

/-- A step while the flow waits: it has an available head and is not selected. -/
structure PassesBy (n m lead : ℕ) (flow : FlowKey) (w : World) (a : Action) (w' : World) :
    Prop where
  step : w.act a = some w'
  fits : Fits n m w a w'
  available : Available flow w a
  level : Level lead flow w a
  passed : ¬Selected flow w a

theorem patient_of_credit {a : Action} (hp : Patient config n debt flow w)
    (h : PassesBy n m lead flow w a w') (howes : -debt ≤ w'.credit flow) :
    Patient config n debt flow w' :=
  ⟨act_sound config w w' a hp.sound h.step, h.fits.1, hp.nonneg, howes⟩

theorem credit_of_eq (h : w'.policy.deficits = w.policy.deficits) :
    w'.credit flow = w.credit flow := by
  unfold World.credit
  rw [h]

/-- One step: a quantum lowers the potential, and only a pardon raises it. -/
theorem step_of_passesBy (hvalid : config.hasZero = false) (a : Action)
    (hp : Patient config n debt flow w) (h : PassesBy n m lead flow w a w') :
    Patient config n debt flow w' ∧
      potential n m lead debt flow w' + a.isQuantum.toNat ≤
        potential n m lead debt flow w + (lead + dearest n m) * (pardons w a).toNat := by
  have hstep := h.step
  have howes := hp.owes
  cases a with
  | submit id g =>
    have hsame := (joins_of_submit w w' id g hstep).deficits_eq
    refine ⟨patient_of_credit hp h (credit_of_eq hsame ▸ howes), ?_⟩
    rw [potential_congr hsame]
    simp [Action.isQuantum, pardons]
  | requeue id =>
    obtain ⟨g, hjoins⟩ := joins_of_requeue w w' id hstep
    refine ⟨patient_of_credit hp h (credit_of_eq hjoins.deficits_eq ▸ howes), ?_⟩
    rw [potential_congr hjoins.deficits_eq]
    simp [Action.isQuantum, pardons]
  | finish id =>
    obtain ⟨job, hleaves⟩ := leaves_of_finish config w w' id hp.sound hstep
    have hnonneg := hp.nonneg
    have hp' : Patient config n debt flow w' := by
      apply patient_of_credit hp h
      rcases hleaves.credit flow with heq | ⟨hzero, _⟩ <;> omega
    refine ⟨hp', ?_⟩
    have := potential_of_leaves m lead hleaves hp
    simpa [Action.isQuantum] using this
  | quantum available tokens =>
    obtain ⟨head, hserves⟩ := serves_of_quantum config w w' available tokens hp.sound hstep
    have hne : head.entry.flow ≠ flow := by
      rintro rfl
      exact h.passed hserves.selected
    have hwaiting := credit_of_waiting hvalid hserves hp.sound h.available hne
    have hnonneg := hp.nonneg
    have hp' := patient_of_credit hp h (by omega)
    refine ⟨hp', ?_⟩
    have := potential_of_serves hvalid hserves hp hp' h.fits.2 h.level h.available hne
    simpa [Action.isQuantum, pardons] using this

end Steps

theorem credits_of_level (lead : ℕ) (flow : FlowKey) (w : World) (a : Action)
    (hquantum : a.isQuantum = true) (h : Level lead flow w a) :
    ∀ g ∈ w.flows, w.credit g ≤ w.credit flow + lead := by
  cases a with
  | quantum available tokens => exact h.1
  | _ => cases hquantum

/-- The quanta that pass a waiting flow by. -/
theorem quanta_le (config : SchedulerPolicyConfig) (hvalid : config.hasZero = false)
    (n m lead : ℕ) (flow : FlowKey) (w : World) (window : List (Action × World))
    (hs : Sound config w) (hfew : w.flows.card ≤ n)
    (hrun : IsRun (PassesBy n m lead flow) w window) :
    (count (fun _ a => a.isQuantum) w window : ℤ) ≤ mostSettled n m lead +
      n * (lead + dearest n m) + (lead + dearest n m) * count pardons w window := by
  have hnonneg := dearest_nonneg n m
  induction window generalizing w with
  | nil =>
    simp only [count, mostSettled]
    positivity
  | cons head rest ih =>
    obtain ⟨a, w'⟩ := head
    by_cases hquantum : a.isQuantum = true
    · have hp : Patient config n (max (-w.credit flow) 0) flow w :=
        ⟨hs, hfew, le_max_right _ _, by omega⟩
      have hlevel := credits_of_level lead flow w a hquantum hrun.1.level
      have hcount := count_le (PassesBy n m lead flow)
        (Patient config n (max (-w.credit flow) 0) flow)
        (potential n m lead (max (-w.credit flow) 0) flow) (fun _ a => a.isQuantum) pardons
        (lead + dearest n m) (fun _ => potential_nonneg)
        (fun s a s' hp h => step_of_passesBy hvalid a hp h) w _ hp hrun
      have hstart := potential_le m hp hlevel
      omega
    · have hrest := ih w' (act_sound config w w' a hs hrun.1.step) hrun.1.fits.1 hrun.2
      have hpardons : (0 : ℤ) ≤ (lead + dearest n m) * (pardons w a).toNat := by positivity
      have hquanta : a.isQuantum.toNat = 0 := by simpa using hquantum
      simp only [count, hquanta, Nat.cast_add, mul_add, Nat.cast_zero]
      linarith

end Waiting

end Cusco.WaitingFlows
