import Cusco.SelectionOrder
import Cusco.Shares
import Mathlib.Data.Rat.Lemmas
import Mathlib.Tactic.FieldSimp

/-!
The shares of flows by weight. Flows that always have an available entry are served in turns:
a selection credits all of them and the charge of one token at its scale is the sum of their
weights. So a flow is selected less than once more than its share, and exactly its share in
every whole number of cycles, whatever the order of the queue and the place of the cursor.
-/

namespace Cusco.PolicyShares

open SchedulerPolicy FairPolicy Selections SelectionOrder Runs Shares

/-- The weight of a flow that is not promoted. -/
def share (p : FairPolicy) (flow : FlowKey) : ℕ :=
  min (p.classWeight flow.schedulingClass * p.config.deficitRefill) u32Max

/-- A quantum of one token, or a change of the queue. -/
inductive Action
  | serve (available : ℕ → Bool)
  | enqueue (id : ℕ) (flow : FlowKey) (admittedRound : ℕ)
  | remove (id : ℕ)

/-- The head that is selected is charged one token at the scale of the selection. -/
def serve (p : FairPolicy) (available : ℕ → Bool) : Option FairPolicy :=
  (p.select available).bind (fun x => (chosen p available).map (fun h =>
    x.2.charge h.entry.flow 1 x.1.chargeScale))

def act (p : FairPolicy) : Action → Option FairPolicy
  | .serve available => serve p available
  | .enqueue id flow admittedRound => some (p.enqueue id flow admittedRound)
  | .remove id => some (p.remove id).2

def Step (p : FairPolicy) (a : Action) (p' : FairPolicy) : Prop := act p a = some p'

/-- The flows of the selections of a run. -/
def served (p : FairPolicy) : List (Action × FairPolicy) → List FlowKey
  | [] => []
  | (.serve available, p') :: rest =>
    ((chosen p available).map (fun h => h.entry.flow)).toList ++ served p' rest
  | (_, p') :: rest => served p' rest

/-- Each flow has an available entry and no other flow has one, no available entry is promoted
and no credit is clipped. -/
structure Backlogged (flows : Finset FlowKey) (p : FairPolicy) (available : ℕ → Bool) : Prop where
  entries : ∀ flow, flow ∈ flows ↔ ∃ e ∈ p.runnable, available e.id = true ∧ e.flow = flow
  unpromoted : ∀ e ∈ p.runnable, available e.id = true →
    (p.effectiveClass e).1 = e.flow.schedulingClass
  unclipped : ∀ flow ∈ flows, deficit p.deficits flow + share p flow ≤ share p flow * 8

def Fair (flows : Finset FlowKey) (p : FairPolicy) : Action → Prop
  | .serve available => Backlogged flows p available
  | _ => True

section Turns

variable {flows : Finset FlowKey} {p p' : FairPolicy} {available : ℕ → Bool}

theorem head_credit (hback : Backlogged flows p available) (h : Head)
    (hh : h ∈ p.heads available) : h.entry.flow ∈ flows ∧ h.credit = share p h.entry.flow := by
  obtain ⟨hplace, havailable, hcredit⟩ := heads_placed p available h hh
  have hmem := List.mem_of_getElem? hplace
  refine ⟨(hback.entries _).mpr ⟨h.entry, hmem, havailable, rfl⟩, ?_⟩
  rw [hcredit, hback.unpromoted h.entry hmem havailable]
  rfl

theorem heads_flows (hback : Backlogged flows p available) :
    ((p.heads available).map (fun h => h.entry.flow)).toFinset = flows := by
  ext flow
  rw [List.mem_toFinset, List.mem_map]
  constructor
  · intro ⟨h, hh, hflow⟩
    exact hflow ▸ (head_credit hback h hh).1
  · intro hflow
    obtain ⟨e, he, havailable, rfl⟩ := (hback.entries flow).mp hflow
    exact exists_head p available e he havailable

/-- The scale of a selection is the sum of the weights. -/
theorem totalWeight_eq (hback : Backlogged flows p available)
    (hpos : 0 < ∑ flow ∈ flows, share p flow) :
    totalWeight (p.heads available) = ∑ flow ∈ flows, (share p flow : ℤ) := by
  have hcredits : (p.heads available).map Head.credit =
      ((p.heads available).map (fun h => h.entry.flow)).map (fun flow => (share p flow : ℤ)) := by
    rw [List.map_map]
    exact List.map_congr_left (fun h hh => (head_credit hback h hh).2)
  unfold totalWeight
  rw [hcredits, ← List.sum_toFinset _ (heads_nodup p available), heads_flows hback,
    ← Nat.cast_sum]
  omega

/-- A quantum is a turn of the flows. -/
theorem turn_of_serve (hback : Backlogged flows p available)
    (hpos : 0 < ∑ flow ∈ flows, share p flow)
    (hfits : ∑ flow ∈ flows, share p flow ≤ i64Max) (hserve : serve p available = some p') :
    ∃ h, chosen p available = some h ∧ p'.config = p.config ∧
      Turn flows (share p) (deficit p.deficits) h.entry.flow (deficit p'.deficits) := by
  obtain ⟨⟨selection, p''⟩, hselect, hcharge⟩ := Option.bind_eq_some_iff.mp hserve
  obtain ⟨h, hchosen, rfl⟩ := Option.map_eq_some_iff.mp hcharge
  have hmem := chosen_mem p available h hchosen
  rw [select_eq, hchosen, Option.map_some, Option.some.injEq] at hselect
  have hscale := totalWeight_eq hback hpos
  have hcharged : chargeOf 1 (totalWeight (p.heads available)) =
      ∑ flow ∈ flows, (share p flow : ℤ) := by
    unfold chargeOf
    rw [hscale, ← Nat.cast_sum, max_self, Nat.cast_one, one_mul]
    omega
  have hrefilled : ∀ x ∈ p.heads available,
      deficit (refillAll p.deficits (p.heads available)) x.entry.flow =
        deficit p.deficits x.entry.flow + share p x.entry.flow := by
    intro x hx
    obtain ⟨hflow, hcredit⟩ := head_credit hback x hx
    rw [refillAll_of_mem _ _ (heads_nodup p available) x hx, hcredit]
    exact min_eq_left (hback.unclipped _ hflow)
  have hall : ∀ flow ∈ flows, ∃ x ∈ p.heads available, x.entry.flow = flow := by
    intro flow hflow
    rw [← heads_flows hback, List.mem_toFinset] at hflow
    exact List.mem_map.mp hflow
  cases hselect
  refine ⟨h, hchosen, rfl, (head_credit hback h hmem).1, ?_, ?_, ?_⟩
  · intro flow hflow
    obtain ⟨x, hx, rfl⟩ := hall flow hflow
    have hmost : deficit (refillAll p.deficits (p.heads available)) x.entry.flow ≤
        deficit (refillAll p.deficits (p.heads available)) h.entry.flow := by
      have hmax := of_decide_eq_true (List.mem_filter.mp (List.mem_of_getElem? hchosen)).2
      exact (le_maxDeficit _ _ x hx).trans_eq hmax.symm
    rw [hrefilled x hx, hrefilled h hmem] at hmost
    exact hmost
  · change deficit ((refillAll p.deficits (p.heads available)).insert h.entry.flow
      (deficit (refillAll p.deficits (p.heads available)) h.entry.flow -
        chargeOf 1 (totalWeight (p.heads available)))) h.entry.flow = _
    rw [deficit_insert, if_pos rfl, hrefilled h hmem, hcharged]
  · intro flow hflow hne
    obtain ⟨x, hx, rfl⟩ := hall flow hflow
    change deficit ((refillAll p.deficits (p.heads available)).insert h.entry.flow
      (deficit (refillAll p.deficits (p.heads available)) h.entry.flow -
        chargeOf 1 (totalWeight (p.heads available)))) x.entry.flow = _
    rw [deficit_insert, if_neg hne, hrefilled x hx]

/-- The quanta of a run are turns. -/
theorem turns_of_run (weight : FlowKey → ℕ) (hpos : 0 < ∑ flow ∈ flows, weight flow)
    (hfits : ∑ flow ∈ flows, weight flow ≤ i64Max) (p : FairPolicy)
    (run : List (Action × FairPolicy)) (hweight : share p = weight) (hrun : IsRun Step p run)
    (hfair : Meets (Fair flows) p run) :
    Turns flows weight (deficit p.deficits) (served p run) (deficit (last p run).deficits) := by
  induction run generalizing p with
  | nil => exact .none _
  | cons head rest ih =>
    obtain ⟨a, p'⟩ := head
    obtain ⟨hstep, hrest⟩ := hrun
    obtain ⟨hhere, hlater⟩ := hfair
    cases a with
    | serve available =>
      subst hweight
      obtain ⟨h, hchosen, hconfig, hturn⟩ := turn_of_serve hhere hpos hfits hstep
      have hshare : share p' = share p := by
        unfold share FairPolicy.classWeight
        rw [hconfig]
      simp only [served, hchosen]
      exact .turn hturn (ih p' hshare hrest hlater)
    | enqueue id flow admittedRound =>
      cases hstep
      exact ih (p.enqueue id flow admittedRound) hweight hrest hlater
    | remove id =>
      cases hstep
      exact ih (p.remove id).2 hweight hrest hlater

end Turns

section Claim

/-- From no credits, each flow has been selected less than once more than its share of the
selections, and exactly its share after whole cycles. -/
theorem weighted_shares (flows : Finset FlowKey) (p : FairPolicy) (hempty : p.deficits = ∅)
    (hpos : ∀ flow ∈ flows, 0 < share p flow)
    (hfits : ∑ flow ∈ flows, share p flow ≤ i64Max) (run : List (Action × FairPolicy))
    (hrun : IsRun Step p run) (hfair : Meets (Fair flows) p run) (flow : FlowKey)
    (hflow : flow ∈ flows) :
    ((served p run).count flow : ℚ) <
        (served p run).length * share p flow / ∑ g ∈ flows, (share p g : ℚ) + 1 ∧
      ((∑ g ∈ flows, share p g) / flows.gcd (share p) ∣ (served p run).length →
        ((served p run).count flow : ℚ) =
          (served p run).length * share p flow / ∑ g ∈ flows, (share p g : ℚ)) := by
  have hsum : 0 < ∑ g ∈ flows, share p g := Finset.sum_pos hpos ⟨flow, hflow⟩
  have hzero : deficit p.deficits = fun _ => 0 := by
    funext g
    rw [hempty]
    rfl
  have hturns := turns_of_run (share p) hsum hfits p run rfl hrun hfair
  rw [hzero] at hturns
  have hsumQ : (0 : ℚ) < ∑ g ∈ flows, (share p g : ℚ) := by
    exact_mod_cast hsum
  constructor
  · rw [← sub_lt_iff_lt_add, lt_div_iff₀ hsumQ]
    have hlt := hturns.count_lt hsum flow hflow
    have hcast : ((served p run).count flow : ℚ) * ∑ g ∈ flows, (share p g : ℚ) <
        (served p run).length * share p flow + ∑ g ∈ flows, (share p g : ℚ) := by
      exact_mod_cast hlt
    linarith
  · intro hwhole
    have heq := hturns.count_eq hsum hwhole flow hflow
    rw [eq_div_iff hsumQ.ne']
    exact_mod_cast heq

instance (flows : Finset FlowKey) (p : FairPolicy) (available : ℕ → Bool) :
    Decidable (Backlogged flows p available) :=
  decidable_of_iff
    (flows = ((p.runnable.filter (fun e => available e.id)).map PolicyEntry.flow).toFinset ∧
      (∀ e ∈ p.runnable, available e.id = true →
        (p.effectiveClass e).1 = e.flow.schedulingClass) ∧
      ∀ flow ∈ flows, deficit p.deficits flow + share p flow ≤ share p flow * 8) (by
    constructor
    · intro ⟨hflows, hunpromoted, hunclipped⟩
      refine ⟨fun flow => ?_, hunpromoted, hunclipped⟩
      rw [hflows]
      simp [and_assoc]
    · intro h
      refine ⟨?_, h.unpromoted, h.unclipped⟩
      ext flow
      rw [h.entries flow]
      simp [and_assoc])

instance (flows : Finset FlowKey) (p : FairPolicy) (a : Action) : Decidable (Fair flows p a) :=
  match a with
  | .serve available => inferInstanceAs (Decidable (Backlogged flows p available))
  | .enqueue _ _ _ | .remove _ => isTrue trivial

def classFlow (c : SchedulingClass) : FlowKey := ⟨"ana", c⟩

/-- A flow of each class, queued once. -/
def threeFlows : FairPolicy :=
  (((FairPolicy.new .default).enqueue 0 (classFlow .interactive) 0).enqueue 1
    (classFlow .standard) 0).enqueue 2 (classFlow .batch) 0

/-- A quantum, after which its entry is queued again. -/
def quantum (id : ℕ) (c : SchedulingClass) : List Action :=
  [.serve (fun _ => true), .enqueue id (classFlow c) 0]

/-- One cycle of the flows of weights 4, 2 and 1. -/
def cycle : List Action :=
  quantum 0 .interactive ++ quantum 1 .standard ++ quantum 0 .interactive ++ quantum 2 .batch ++
    quantum 0 .interactive ++ quantum 1 .standard ++ quantum 0 .interactive

theorem interactive_gets_its_share : ∃ run, IsRun Step threeFlows run ∧
    (served threeFlows run).length = 7 ∧
    ((served threeFlows run).count (classFlow .interactive) : ℚ) = 7 * 4 / 7 := by
  have hrun : (trace act threeFlows cycle).any (fun run =>
      decide (Meets (Fair {classFlow .interactive, classFlow .standard, classFlow .batch})
        threeFlows run ∧ (served threeFlows run).length = 7)) = true := by
    decide +kernel
  obtain ⟨run, htrace, hchecks⟩ := (Option.any_eq_true _ _).mp hrun
  obtain ⟨hfair, hlength⟩ := of_decide_eq_true hchecks
  have hsteps := isRun_of_trace _ _ _ run htrace
  refine ⟨run, hsteps, hlength, ?_⟩
  have hshare := (weighted_shares {classFlow .interactive, classFlow .standard, classFlow .batch}
    threeFlows rfl (by decide) (by decide) run hsteps hfair (classFlow .interactive)
    (by decide)).2 (by rw [hlength]; decide)
  rw [hshare, hlength]
  have hclass : share threeFlows (classFlow .interactive) = 4 := by decide
  have hsum : ∑ g ∈ ({classFlow .interactive, classFlow .standard, classFlow .batch} :
      Finset FlowKey), (share threeFlows g : ℚ) = 7 := by
    have hnat : ∑ g ∈ ({classFlow .interactive, classFlow .standard, classFlow .batch} :
        Finset FlowKey), share threeFlows g = 7 := by
      decide
    exact_mod_cast hnat
  rw [hclass, hsum]
  norm_num

end Claim

end Cusco.PolicyShares
