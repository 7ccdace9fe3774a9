import Cusco.Runs
import Mathlib.Algebra.BigOperators.Group.Finset.Piecewise
import Mathlib.Algebra.Order.BigOperators.Group.Finset
import Mathlib.Tactic.Linarith

/-!
Credits that are given out and paid back in rounds. In a round some holders are
credited, and one of them pays at least what all were credited. A credit counts in the
ledger of a set of holders only down to a floor; a round whose payer stays above the
floor lowers the ledger of a set by what a holder outside it was credited. Along a run,
a quantity that some steps lower and few steps raise bounds how many of them there are.
-/

namespace Cusco.Credits

section Ledger

variable {ι : Type*}

/-- What the holders in a set have above a base, each credit counted down to a floor. -/
def ledger (floor base : ℤ) (credit : ι → ℤ) (s : Finset ι) : ℤ :=
  ∑ i ∈ s, (max (credit i) floor - base)

theorem ledger_nonneg (floor base : ℤ) (credit : ι → ℤ) (s : Finset ι) (h : base ≤ floor) :
    0 ≤ ledger floor base credit s := by
  apply Finset.sum_nonneg
  intro i _
  have := le_max_right (credit i) floor
  omega

theorem le_ledger (floor base : ℤ) (credit : ι → ℤ) (s : Finset ι) :
    s.card * (floor - base) ≤ ledger floor base credit s := by
  have h : s.card • (floor - base) ≤ ledger floor base credit s := by
    apply Finset.card_nsmul_le_sum
    intro i _
    have := le_max_right (credit i) floor
    omega
  simpa using h

theorem ledger_le (floor base top : ℤ) (credit : ι → ℤ) (s : Finset ι) (hfloor : floor ≤ top)
    (h : ∀ i ∈ s, credit i ≤ top) : ledger floor base credit s ≤ s.card * (top - base) := by
  have hsum : ledger floor base credit s ≤ s.card • (top - base) := by
    apply Finset.sum_le_card_nsmul
    intro i hi
    have := max_le (h i hi) hfloor
    omega
  simpa using hsum

/-- Holders whose credit is the base do not count. -/
theorem ledger_subset (floor base : ℤ) (credit : ι → ℤ) (s t : Finset ι) (hst : s ⊆ t)
    (h : ∀ i ∈ t, i ∉ s → max (credit i) floor = base) :
    ledger floor base credit s = ledger floor base credit t := by
  apply Finset.sum_subset hst
  intro i hi hs
  rw [h i hi hs, sub_self]

theorem ledger_congr (floor base : ℤ) (c c' : ι → ℤ) (s : Finset ι) (h : ∀ i ∈ s, c i = c' i) :
    ledger floor base c s = ledger floor base c' s := by
  apply Finset.sum_congr rfl
  intro i hi
  rw [h i hi]

variable [DecidableEq ι]

theorem ledger_erase (floor base : ℤ) (credit : ι → ℤ) (s : Finset ι) (i : ι) (h : i ∈ s) :
    ledger floor base credit (s.erase i) =
      ledger floor base credit s - (max (credit i) floor - base) := by
  have := Finset.sum_erase_add s (fun j => max (credit j) floor - base) h
  unfold ledger
  omega

/-- One round: the holders in `heads` are credited, and one of them pays. -/
structure Round (heads : Finset ι) (weight : ι → ℤ) (payer : ι) (paid : ℤ) (c c' : ι → ℤ) :
    Prop where
  payer_mem : payer ∈ heads
  weight_nonneg : ∀ i ∈ heads, 0 ≤ weight i
  credited : ∀ i, i ≠ payer → c' i ≤ c i + if i ∈ heads then weight i else 0
  pays : c' payer ≤ c payer + weight payer - paid
  covers : ∑ i ∈ heads, weight i ≤ paid

namespace Round

variable {heads : Finset ι} {weight : ι → ℤ} {payer : ι} {paid : ℤ} {c c' : ι → ℤ}

/-- The credit given to a set that leaves out one of the heads. -/
theorem credited_le (h : Round heads weight payer paid c c') (s : Finset ι) (f : ι)
    (hf : f ∈ heads) (hs : f ∉ s) :
    (∑ i ∈ s, if i ∈ heads then weight i else 0) + weight f ≤ paid := by
  have hsub : s.filter (fun i => i ∈ heads) ⊆ heads.erase f := by
    intro i hi
    obtain ⟨his, hih⟩ := Finset.mem_filter.mp hi
    refine Finset.mem_erase.mpr ⟨?_, hih⟩
    rintro rfl
    exact hs his
  have hsum : ∑ i ∈ s.filter (fun i => i ∈ heads), weight i ≤ ∑ i ∈ heads.erase f, weight i := by
    apply Finset.sum_le_sum_of_subset_of_nonneg hsub
    intro i hi _
    exact h.weight_nonneg i (Finset.mem_of_mem_erase hi)
  have hall := Finset.sum_erase_add heads weight hf
  have hcovers := h.covers
  rw [← Finset.sum_filter]
  omega

/-- A payer above the floor lowers the ledger by the credit of a head outside the set. -/
theorem ledger_lt (h : Round heads weight payer paid c c') (floor base : ℤ) (s : Finset ι)
    (f : ι) (hf : f ∈ heads) (hs : f ∉ s) (hpayer : payer ∈ s) (hfloor : floor ≤ c' payer) :
    ledger floor base c' s + weight f ≤ ledger floor base c s := by
  have hterm : ∀ i ∈ s, max (c' i) floor - base ≤ (max (c i) floor - base) +
      ((if i ∈ heads then weight i else 0) - if i = payer then paid else 0) := by
    intro i _
    by_cases hi : i = payer
    · subst hi
      have hpays := h.pays
      have := le_max_left (c i) floor
      rw [max_eq_left hfloor, if_pos h.payer_mem, if_pos rfl]
      omega
    · have hcredited := h.credited i hi
      have hweight : 0 ≤ if i ∈ heads then weight i else 0 := by
        split
        · exact h.weight_nonneg i ‹_›
        · exact le_rfl
      have hc := le_max_left (c i) floor
      have hf := le_max_right (c i) floor
      have hmost : max (c' i) floor ≤ max (c i) floor + if i ∈ heads then weight i else 0 :=
        max_le (by omega) (by omega)
      rw [if_neg hi]
      omega
  have hpaid : ∑ i ∈ s, (if i = payer then paid else 0) = paid := by
    rw [Finset.sum_ite_eq', if_pos hpayer]
  have hcredited := h.credited_le s f hf hs
  calc ledger floor base c' s + weight f
      ≤ ∑ i ∈ s, ((max (c i) floor - base) +
          ((if i ∈ heads then weight i else 0) - if i = payer then paid else 0)) + weight f :=
        add_le_add_left (Finset.sum_le_sum hterm) _
    _ = ledger floor base c s + ((∑ i ∈ s, if i ∈ heads then weight i else 0) - paid) +
          weight f := by
        rw [Finset.sum_add_distrib, Finset.sum_sub_distrib (fun i => if i ∈ heads then weight i
          else 0), hpaid]
        rfl
    _ ≤ ledger floor base c s := by omega

end Round

end Ledger

section Budget

open Runs

variable {σ α : Type*}

/-- The steps of a run with a property of the label and the state before. -/
def count (p : σ → α → Bool) : σ → List (α × σ) → ℕ
  | _, [] => 0
  | s, (a, s') :: rest => (p s a).toNat + count p s' rest

theorem count_append (p : σ → α → Bool) (s : σ) (r q : List (α × σ)) :
    count p s (r ++ q) = count p s r + count p (last s r) q := by
  induction r generalizing s with
  | nil => exact (Nat.zero_add _).symm
  | cons head rest ih => simp only [List.cons_append, count, last, ih, Nat.add_assoc]

/-- If each counted step lowers a nonnegative quantity by one and only the paid steps
raise it, each by no more than `raise`, the counted steps are bounded by its first value
and what the paid steps added. -/
theorem count_le (step : σ → α → σ → Prop) (inv : σ → Prop) (potential : σ → ℤ)
    (counted paid : σ → α → Bool) (raise : ℤ)
    (hnonneg : ∀ s, inv s → 0 ≤ potential s)
    (hstep : ∀ s a s', inv s → step s a s' →
      inv s' ∧ potential s' + (counted s a).toNat ≤ potential s + raise * (paid s a).toNat)
    (s : σ) (run : List (α × σ)) (hs : inv s) (hrun : IsRun step s run) :
    (count counted s run : ℤ) ≤ potential s + raise * count paid s run := by
  induction run generalizing s with
  | nil => simpa [count] using hnonneg s hs
  | cons head rest ih =>
    obtain ⟨hinv, hdrop⟩ := hstep s head.1 head.2 hs hrun.1
    have hrest := ih head.2 hinv hrun.2
    simp only [count, Nat.cast_add, mul_add]
    linarith

end Budget

end Cusco.Credits
