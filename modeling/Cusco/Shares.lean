import Mathlib.Algebra.BigOperators.Group.Finset.Piecewise
import Mathlib.Algebra.BigOperators.Ring.Finset
import Mathlib.Algebra.GCDMonoid.Finset
import Mathlib.Algebra.GCDMonoid.Nat
import Mathlib.Algebra.Order.BigOperators.Group.Finset
import Mathlib.Tactic.Linarith
import Mathlib.Tactic.Ring

/-!
Weighted turns. In a turn every holder is credited its weight, and one with the most credit
pays the sum of the weights. The credits add up to nothing, so the payer never owes the whole
sum, however ties are broken: after any number of turns a holder has paid less than once more
than its share, and exactly its share whenever the shares are whole.
-/

namespace Cusco.Shares

variable {ι : Type*} [DecidableEq ι]

/-- One turn: all holders are credited, and one of those with the most credit pays. -/
structure Turn (holders : Finset ι) (weight : ι → ℕ) (c : ι → ℤ) (payer : ι) (c' : ι → ℤ) :
    Prop where
  payer_mem : payer ∈ holders
  most : ∀ i ∈ holders, c i + weight i ≤ c payer + weight payer
  pays : c' payer = c payer + weight payer - ∑ i ∈ holders, (weight i : ℤ)
  credited : ∀ i ∈ holders, i ≠ payer → c' i = c i + weight i

/-- Turns one after the other, by their payers. -/
inductive Turns (holders : Finset ι) (weight : ι → ℕ) : (ι → ℤ) → List ι → (ι → ℤ) → Prop
  | none (c : ι → ℤ) : Turns holders weight c [] c
  | turn {c c' c'' : ι → ℤ} {payer : ι} {payers : List ι} (h : Turn holders weight c payer c')
      (hrest : Turns holders weight c' payers c'') : Turns holders weight c (payer :: payers) c''

/-- Credits that add up to nothing, with no holder owing the whole sum. -/
structure Level (holders : Finset ι) (weight : ι → ℕ) (c : ι → ℤ) : Prop where
  sum_zero : ∑ i ∈ holders, c i = 0
  above : ∀ i ∈ holders, -∑ j ∈ holders, (weight j : ℤ) < c i

section Turns

variable {holders : Finset ι} {weight : ι → ℕ} {c c' : ι → ℤ} {payer : ι} {payers : List ι}

/-- What a turn does to each credit. -/
theorem Turn.credit (h : Turn holders weight c payer c') (i : ι) (hi : i ∈ holders) :
    c' i = c i + weight i - if i = payer then ∑ j ∈ holders, (weight j : ℤ) else 0 := by
  by_cases heq : i = payer
  · rw [heq, if_pos rfl]
    exact h.pays
  · rw [if_neg heq, sub_zero]
    exact h.credited i hi heq

theorem Turn.level (h : Turn holders weight c payer c') (hpos : 0 < ∑ i ∈ holders, weight i)
    (hlevel : Level holders weight c) : Level holders weight c' where
  sum_zero := by
    have hsum : ∑ i ∈ holders, c' i = ∑ i ∈ holders, (c i + weight i -
        if i = payer then ∑ j ∈ holders, (weight j : ℤ) else 0) :=
      Finset.sum_congr rfl (fun i hi => h.credit i hi)
    have hpaid : ∑ i ∈ holders, (if i = payer then ∑ j ∈ holders, (weight j : ℤ) else 0) =
        ∑ j ∈ holders, (weight j : ℤ) := by
      rw [Finset.sum_ite_eq', if_pos h.payer_mem]
    rw [hsum, Finset.sum_sub_distrib, Finset.sum_add_distrib, hpaid, hlevel.sum_zero]
    omega
  above := by
    intro i hi
    have habove := hlevel.above i hi
    rw [h.credit i hi]
    by_cases heq : i = payer
    · -- the payer has the most of credits whose sum is positive
      have hcredit : 0 < c i + weight i := by
        by_contra hnot
        have hle : ∑ j ∈ holders, (c j + weight j) ≤ 0 := by
          apply Finset.sum_nonpos
          intro j hj
          have hmost := h.most j hj
          rw [heq] at hnot
          omega
        rw [Finset.sum_add_distrib, hlevel.sum_zero, ← Nat.cast_sum] at hle
        omega
      rw [if_pos heq]
      omega
    · rw [if_neg heq]
      omega

theorem Turns.level (h : Turns holders weight c payers c')
    (hpos : 0 < ∑ i ∈ holders, weight i) (hlevel : Level holders weight c) :
    Level holders weight c' := by
  induction h with
  | none => exact hlevel
  | turn hturn _ ih => exact ih (hturn.level hpos hlevel)

omit [DecidableEq ι] in
theorem Turns.payers_mem (h : Turns holders weight c payers c') : ∀ i ∈ payers, i ∈ holders := by
  induction h with
  | none => exact nofun
  | turn hturn _ ih =>
    intro i hi
    rcases List.mem_cons.mp hi with rfl | hi
    · exact hturn.payer_mem
    · exact ih i hi

/-- A credit is what was given less what was paid. -/
theorem Turns.credit (h : Turns holders weight c payers c') (i : ι) (hi : i ∈ holders) :
    c' i = c i + payers.length * weight i -
      payers.count i * ∑ j ∈ holders, (weight j : ℤ) := by
  induction h with
  | none => simp
  | @turn _ _ _ payer _ hturn _ ih =>
    rw [ih, hturn.credit i hi, List.length_cons, List.count_cons]
    by_cases heq : i = payer
    · subst heq
      simp only [if_true, beq_self_eq_true]
      push_cast
      ring
    · have hne : (payer == i) = false := beq_false_of_ne (Ne.symm heq)
      simp only [if_neg heq, hne, Bool.false_eq_true, if_false]
      push_cast
      ring

variable (h : Turns holders weight (fun _ => 0) payers c')
include h

/-- A holder pays less than once more than its share. -/
theorem Turns.count_lt (hpos : 0 < ∑ i ∈ holders, weight i) (i : ι) (hi : i ∈ holders) :
    payers.count i * ∑ j ∈ holders, weight j <
      payers.length * weight i + ∑ j ∈ holders, weight j := by
  have hzero : Level holders weight (fun _ => 0) := by
    refine ⟨Finset.sum_const_zero, fun i _ => ?_⟩
    rw [← Nat.cast_sum]
    omega
  have habove := (h.level hpos hzero).above i hi
  rw [h.credit i hi, ← Nat.cast_sum] at habove
  zify
  push_cast at habove ⊢
  linarith

theorem Turns.sum_count : ∑ i ∈ holders, payers.count i = payers.length := by
  have hsub : payers.toFinset ⊆ holders := by
    intro i hi
    exact h.payers_mem i (List.mem_toFinset.mp hi)
  rw [← List.sum_toFinset_count_eq_length payers]
  refine (Finset.sum_subset hsub ?_).symm
  intro i _ hi
  exact List.count_eq_zero.mpr (fun hmem => hi (List.mem_toFinset.mpr hmem))

/-- A holder pays exactly its share when the shares are whole. -/
theorem Turns.count_eq (hpos : 0 < ∑ i ∈ holders, weight i)
    (hwhole : (∑ i ∈ holders, weight i) / holders.gcd weight ∣ payers.length) (i : ι)
    (hi : i ∈ holders) :
    payers.count i * ∑ j ∈ holders, weight j = payers.length * weight i := by
  obtain ⟨k, hk⟩ := hwhole
  have hdvd : holders.gcd weight ∣ ∑ j ∈ holders, weight j :=
    Finset.dvd_sum (fun j hj => Finset.gcd_dvd hj)
  have hsum : ∑ j ∈ holders, weight j =
      holders.gcd weight * ((∑ j ∈ holders, weight j) / holders.gcd weight) :=
    (Nat.mul_div_cancel' hdvd).symm
  have hshare : ∀ j ∈ holders, payers.length * weight j =
      k * (weight j / holders.gcd weight) * ∑ x ∈ holders, weight x := by
    intro j hj
    obtain ⟨u, hu⟩ : holders.gcd weight ∣ weight j := Finset.gcd_dvd hj
    have hgcd : 0 < holders.gcd weight := Nat.pos_of_dvd_of_pos hdvd hpos
    have hquotient : weight j / holders.gcd weight = u := by
      rw [hu, Nat.mul_div_cancel_left u hgcd]
    rw [hquotient, hk]
    calc (∑ x ∈ holders, weight x) / holders.gcd weight * k * weight j
        = (∑ x ∈ holders, weight x) / holders.gcd weight * k * (holders.gcd weight * u) := by
          rw [hu]
      _ = k * u * (holders.gcd weight * ((∑ x ∈ holders, weight x) / holders.gcd weight)) := by
          ring
      _ = k * u * ∑ x ∈ holders, weight x := by rw [← hsum]
  have hle : ∀ j ∈ holders, payers.count j ≤ k * (weight j / holders.gcd weight) := by
    intro j hj
    have hlt := h.count_lt hpos j hj
    rw [hshare j hj, ← Nat.succ_mul] at hlt
    exact Nat.lt_succ_iff.mp (Nat.lt_of_mul_lt_mul_right hlt)
  have htotal : ∑ j ∈ holders, k * (weight j / holders.gcd weight) = payers.length := by
    apply Nat.eq_of_mul_eq_mul_right hpos
    rw [Finset.sum_mul, Finset.mul_sum]
    exact Finset.sum_congr rfl (fun j hj => (hshare j hj).symm)
  have hall := (Finset.sum_eq_sum_iff_of_le hle).mp (h.sum_count.trans htotal.symm)
  rw [hall i hi, hshare i hi]

end Turns

end Cusco.Shares
