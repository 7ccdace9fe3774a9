import Mathlib.Logic.Relation
import Mathlib.Tactic.Common

/-!
Runs of a labelled transition relation. A run lists the label and the state of
every step. Invariants are preserved from one end of a run to the other, and a
property that each step keeps exactly when a condition on the state before it
holds is kept along a run exactly when every step meets the condition.
-/

namespace Cusco.Runs

universe u v

variable {σ : Type u} {α : Type v}

/-- Consecutive steps from `s`; each element is a label and the state reached. -/
def IsRun (step : σ → α → σ → Prop) : σ → List (α × σ) → Prop
  | _, [] => True
  | s, (a, s') :: rest => step s a s' ∧ IsRun step s' rest

/-- The state a run ends in. -/
def last (s : σ) : List (α × σ) → σ
  | [] => s
  | (_, s') :: rest => last s' rest

/-- Every step of the run meets a condition on its label and the state before it. -/
def Meets (cond : σ → α → Prop) : σ → List (α × σ) → Prop
  | _, [] => True
  | s, (a, s') :: rest => cond s a ∧ Meets cond s' rest

/-- Every step of the run has a property of its label and both its states. -/
def Along (prop : σ → α → σ → Prop) : σ → List (α × σ) → Prop
  | _, [] => True
  | s, (a, s') :: rest => prop s a s' ∧ Along prop s' rest

/-- Some run leads from the first state to the second. -/
def Reaches (step : σ → α → σ → Prop) (s t : σ) : Prop :=
  ∃ run, IsRun step s run ∧ last s run = t

theorem isRun_append (step : σ → α → σ → Prop) (s : σ) (r q : List (α × σ)) :
    IsRun step s (r ++ q) ↔ IsRun step s r ∧ IsRun step (last s r) q := by
  induction r generalizing s with
  | nil => simp [IsRun, last]
  | cons head rest ih =>
    obtain ⟨a, s'⟩ := head
    simp only [List.cons_append, IsRun, last, ih s', and_assoc]

theorem last_append (s : σ) (r q : List (α × σ)) :
    last s (r ++ q) = last (last s r) q := by
  induction r generalizing s with
  | nil => rfl
  | cons head rest ih => exact ih head.2

theorem meets_append (cond : σ → α → Prop) (s : σ) (r q : List (α × σ)) :
    Meets cond s (r ++ q) ↔ Meets cond s r ∧ Meets cond (last s r) q := by
  induction r generalizing s with
  | nil => simp [Meets, last]
  | cons head rest ih => simp only [List.cons_append, Meets, last, ih head.2, and_assoc]

theorem meets_imp {cond cond' : σ → α → Prop} (h : ∀ s a, cond s a → cond' s a) (s : σ)
    (run : List (α × σ)) (hmeets : Meets cond s run) : Meets cond' s run := by
  induction run generalizing s with
  | nil => trivial
  | cons head rest ih => exact ⟨h s head.1 hmeets.1, ih head.2 hmeets.2⟩

theorem Reaches.refl (step : σ → α → σ → Prop) (s : σ) : Reaches step s s :=
  ⟨[], trivial, rfl⟩

theorem Reaches.step {step : σ → α → σ → Prop} {s t t' : σ} {a : α}
    (h : Reaches step s t) (hstep : step t a t') : Reaches step s t' := by
  obtain ⟨run, hrun, rfl⟩ := h
  refine ⟨run ++ [(a, t')], (isRun_append step s run _).mpr ⟨hrun, hstep, trivial⟩, ?_⟩
  rw [last_append]
  rfl

/-- A run whose steps meet a condition is a run of the steps that meet it. -/
theorem isRun_of_meets (step : σ → α → σ → Prop) (cond : σ → α → Prop) (s : σ)
    (run : List (α × σ)) (hrun : IsRun step s run) (hmeets : Meets cond s run) :
    IsRun (fun s a s' => step s a s' ∧ cond s a) s run := by
  induction run generalizing s with
  | nil => trivial
  | cons head rest ih => exact ⟨⟨hrun.1, hmeets.1⟩, ih head.2 hrun.2 hmeets.2⟩

/-- An invariant of every step holds at the end of every run. -/
theorem invariant_of_run (step : σ → α → σ → Prop) (inv : σ → Prop)
    (hstep : ∀ s a s', inv s → step s a s' → inv s') (s : σ) (run : List (α × σ))
    (hs : inv s) (hrun : IsRun step s run) : inv (last s run) := by
  induction run generalizing s with
  | nil => exact hs
  | cons head rest ih => exact ih head.2 (hstep s head.1 head.2 hs hrun.1) hrun.2

theorem Reaches.invariant {step : σ → α → σ → Prop} {s t : σ} (h : Reaches step s t)
    (inv : σ → Prop) (hstep : ∀ s a s', inv s → step s a s' → inv s') (hs : inv s) :
    inv t := by
  obtain ⟨run, hrun, rfl⟩ := h
  exact invariant_of_run step inv hstep s run hs hrun

/-- A reflexive and transitive relation that every step respects, under an
invariant, relates the two ends of every run. -/
theorem Reaches.relation {step : σ → α → σ → Prop} {s t : σ} (h : Reaches step s t)
    (inv : σ → Prop) (rel : σ → σ → Prop)
    (hstep : ∀ s a s', inv s → step s a s' → inv s') (hrefl : ∀ s, rel s s)
    (htrans : ∀ a b c, rel a b → rel b c → rel a c)
    (hrel : ∀ s a s', inv s → step s a s' → rel s s') (hs : inv s) : rel s t := by
  obtain ⟨run, hrun, rfl⟩ := h
  induction run generalizing s with
  | nil => exact hrefl s
  | cons head rest ih =>
    exact htrans s head.2 _ (hrel s head.1 head.2 hs hrun.1)
      (ih (hstep s head.1 head.2 hs hrun.1) hrun.2)

/-- Such a relation also holds from the start of a run to each of its states, and
from there to its end. -/
theorem relation_of_mem (step : σ → α → σ → Prop) (inv : σ → Prop) (rel : σ → σ → Prop)
    (hstep : ∀ s a s', inv s → step s a s' → inv s') (hrefl : ∀ s, rel s s)
    (htrans : ∀ a b c, rel a b → rel b c → rel a c)
    (hrel : ∀ s a s', inv s → step s a s' → rel s s') (s : σ) (run : List (α × σ)) (hs : inv s)
    (hrun : IsRun step s run) : ∀ x ∈ run, rel s x.2 ∧ rel x.2 (last s run) := by
  induction run generalizing s with
  | nil => exact fun x hx => (nomatch hx)
  | cons head rest ih =>
    have hfirst := hrel s head.1 head.2 hs hrun.1
    have hs' := hstep s head.1 head.2 hs hrun.1
    have hrest : Reaches step head.2 (last head.2 rest) := ⟨rest, hrun.2, rfl⟩
    intro x hx
    rcases List.mem_cons.mp hx with rfl | hx
    · exact ⟨hfirst, hrest.relation inv rel hstep hrefl htrans hrel hs'⟩
    · have hboth := ih head.2 hs' hrun.2 x hx
      exact ⟨htrans s head.2 x.2 hfirst hboth.1, hboth.2⟩

/-- If, under an invariant, a step keeps a property exactly when its condition
holds, then the property holds in every state of a run exactly when every step
of the run meets the condition. -/
theorem along_iff_meets (step : σ → α → σ → Prop) (inv good : σ → Prop)
    (cond : σ → α → Prop) (hinv : ∀ s a s', inv s → step s a s' → inv s')
    (hgood : ∀ s a s', inv s → good s → step s a s' → (good s' ↔ cond s a))
    (s : σ) (run : List (α × σ)) (hs : inv s) (hg : good s) (hrun : IsRun step s run) :
    (∀ x ∈ run, good x.2) ↔ Meets cond s run := by
  induction run generalizing s with
  | nil => simp [Meets]
  | cons head rest ih =>
    obtain ⟨a, s'⟩ := head
    obtain ⟨hstep, hrest⟩ := hrun
    have hiff := hgood s a s' hs hg hstep
    simp only [List.mem_cons, forall_eq_or_imp, Meets, hiff]
    constructor
    · rintro ⟨hc, hall⟩
      exact ⟨hc, (ih s' (hinv s a s' hs hstep) (hiff.mpr hc) hrest).mp hall⟩
    · rintro ⟨hc, hmeets⟩
      exact ⟨hc, (ih s' (hinv s a s' hs hstep) (hiff.mpr hc) hrest).mpr hmeets⟩

theorem along_states_iff (prop : σ → Prop) (s : σ) (run : List (α × σ)) :
    Along (fun _ _ t => prop t) s run ↔ ∀ x ∈ run, prop x.2 := by
  induction run generalizing s with
  | nil => simp [Along]
  | cons head rest ih => simp [Along, ih]

theorem along_append (prop : σ → α → σ → Prop) (s : σ) (r q : List (α × σ)) :
    Along prop s (r ++ q) ↔ Along prop s r ∧ Along prop (last s r) q := by
  induction r generalizing s with
  | nil => simp [Along, last]
  | cons head rest ih =>
    obtain ⟨a, s'⟩ := head
    simp only [List.cons_append, Along, last, ih s', and_assoc]

/-- Every step of a run with a property along it has the property. -/
theorem along_mem (prop : σ → α → σ → Prop) (s : σ) (run : List (α × σ))
    (h : Along prop s run) : ∀ x ∈ run, ∃ t, prop t x.1 x.2 := by
  induction run generalizing s with
  | nil => exact fun x hx => (nomatch hx)
  | cons head rest ih =>
    intro x hx
    rcases List.mem_cons.mp hx with rfl | hx
    · exact ⟨s, h.1⟩
    · exact ih head.2 h.2 x hx

/-- What holds of every step holds along every run. -/
theorem along_of_run (step : σ → α → σ → Prop) (prop : σ → α → σ → Prop)
    (hprop : ∀ s a s', step s a s' → prop s a s') (s : σ) (run : List (α × σ))
    (hrun : IsRun step s run) : Along prop s run := by
  induction run generalizing s with
  | nil => trivial
  | cons head rest ih => exact ⟨hprop s head.1 head.2 hrun.1, ih head.2 hrun.2⟩

/-- What holds of every step from an invariant state holds along a run. -/
theorem along_of_invariant (step : σ → α → σ → Prop) (inv : σ → Prop)
    (prop : σ → α → σ → Prop) (hstep : ∀ s a s', inv s → step s a s' → inv s' ∧ prop s a s')
    (s : σ) (run : List (α × σ)) (hs : inv s) (hrun : IsRun step s run) : Along prop s run := by
  induction run generalizing s with
  | nil => trivial
  | cons head rest ih =>
    obtain ⟨hinv, hprop⟩ := hstep s head.1 head.2 hs hrun.1
    exact ⟨hprop, ih head.2 hinv hrun.2⟩

/-- If a step without a property ends in a state that is never left, a run that does not
end in such a state has the property along it. -/
theorem along_of_last (step : σ → α → σ → Prop) (prop : σ → α → σ → Prop) (final : σ → Prop)
    (hprop : ∀ s a s', step s a s' → prop s a s' ∨ final s')
    (hstays : ∀ s a s', step s a s' → final s → final s') (s : σ) (run : List (α × σ))
    (hrun : IsRun step s run) (hlast : ¬final (last s run)) : Along prop s run := by
  induction run generalizing s with
  | nil => trivial
  | cons head rest ih =>
    refine ⟨?_, ih head.2 hrun.2 hlast⟩
    rcases hprop s head.1 head.2 hrun.1 with h | h
    · exact h
    · exact absurd (invariant_of_run step final (fun t a t' hf hs => hstays t a t' hs hf) head.2
        rest h hrun.2) hlast

/-- If a step from an invariant state has a property exactly when its condition
holds, and then ends in an invariant state, then every step of a run has the
property exactly when every step meets the condition. -/
theorem along_steps_iff_meets (step : σ → α → σ → Prop) (inv : σ → Prop)
    (prop : σ → α → σ → Prop) (cond : σ → α → Prop)
    (hprop : ∀ s a s', inv s → step s a s' → (prop s a s' ↔ cond s a))
    (hinv : ∀ s a s', inv s → step s a s' → cond s a → inv s')
    (s : σ) (run : List (α × σ)) (hs : inv s) (hrun : IsRun step s run) :
    Along prop s run ↔ Meets cond s run := by
  induction run generalizing s with
  | nil => exact Iff.rfl
  | cons head rest ih =>
    obtain ⟨a, s'⟩ := head
    obtain ⟨hstep, hrest⟩ := hrun
    have hiff := hprop s a s' hs hstep
    constructor
    · intro h
      have hcond := hiff.mp h.1
      exact ⟨hcond, (ih s' (hinv s a s' hs hstep hcond) hrest).mp h.2⟩
    · intro h
      exact ⟨hiff.mpr h.1, (ih s' (hinv s a s' hs hstep h.1) hrest).mpr h.2⟩

/-- A property that each step keeps under a condition holds in every state of a run
whose steps all meet it. -/
theorem along_of_meets (step : σ → α → σ → Prop) (good : σ → Prop) (cond : σ → α → Prop)
    (hgood : ∀ s a s', good s → cond s a → step s a s' → good s') (s : σ)
    (run : List (α × σ)) (hs : good s) (hrun : IsRun step s run) (hmeets : Meets cond s run) :
    ∀ x ∈ run, good x.2 := by
  induction run generalizing s with
  | nil => exact fun x hx => (nomatch hx)
  | cons head rest ih =>
    have hnext := hgood s head.1 head.2 hs hmeets.1 hrun.1
    intro x hx
    rcases List.mem_cons.mp hx with rfl | hx
    · exact hnext
    · exact ih head.2 hnext hrun.2 hmeets.2 x hx

/-- The run made by a list of labels, if each can be taken. -/
def trace (act : σ → α → Option σ) (s : σ) : List α → Option (List (α × σ))
  | [] => some []
  | a :: rest => (act s a).bind (fun s' => (trace act s' rest).map (fun run => (a, s') :: run))

theorem isRun_of_trace (act : σ → α → Option σ) (s : σ) (labels : List α)
    (run : List (α × σ)) (h : trace act s labels = some run) :
    IsRun (fun s a s' => act s a = some s') s run := by
  induction labels generalizing s run with
  | nil =>
    cases h
    trivial
  | cons a rest ih =>
    obtain ⟨s', hs', hrest⟩ := Option.bind_eq_some_iff.mp h
    obtain ⟨run', hrun', rfl⟩ := Option.map_eq_some_iff.mp hrest
    exact ⟨hs', ih s' run' hrun'⟩

theorem labels_of_trace (act : σ → α → Option σ) (s : σ) (labels : List α)
    (run : List (α × σ)) (h : trace act s labels = some run) : run.map Prod.fst = labels := by
  induction labels generalizing s run with
  | nil =>
    cases h
    rfl
  | cons a rest ih =>
    obtain ⟨s', _, hrest⟩ := Option.bind_eq_some_iff.mp h
    obtain ⟨run', hrun', rfl⟩ := Option.map_eq_some_iff.mp hrest
    rw [List.map_cons, ih s' run' hrun']

/-- The run made by a list of labels that can always be taken. -/
def follow (act : σ → α → σ) (s : σ) : List α → List (α × σ)
  | [] => []
  | a :: rest => (a, act s a) :: follow act (act s a) rest

theorem isRun_follow (act : σ → α → σ) (s : σ) (labels : List α) :
    IsRun (fun s a s' => s' = act s a) s (follow act s labels) := by
  induction labels generalizing s with
  | nil => trivial
  | cons a rest ih => exact ⟨rfl, ih (act s a)⟩

/-- Whether a run meets a condition can be computed if the condition can. -/
instance decidableMeets (cond : σ → α → Prop) [∀ s a, Decidable (cond s a)] (s : σ)
    (run : List (α × σ)) : Decidable (Meets cond s run) :=
  match run with
  | [] => isTrue trivial
  | (a, s') :: rest =>
    have := decidableMeets cond s' rest
    inferInstanceAs (Decidable (cond s a ∧ Meets cond s' rest))

end Cusco.Runs
