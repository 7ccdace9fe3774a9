import Cusco.Cancellation

/-!
Isolation of cancellation. The flag of the executor is set only by the closure of
a request whose control was won. While the request that owns the engine lock runs,
the flag is false between its reset and its last decode, unless a cloned closure
of another request is called there. That call can come after its owner's step has
dropped the registration, and the decode it hits belongs to someone else.
-/

namespace Cusco.CancellationIsolation

open Admission (ControlState Error)
open Cancellation Runs

variable {ρ : Type}

/-- No decode of a request whose control still runs has returned `Cancelled`. -/
def Isolated (s : State ρ) : Prop :=
  ∀ r, s.decoded r = some .cancelled → s.control r ≠ .running

/-- A request whose control was won stays won, and its next check ends the step
with the error of the check. -/
def Observes (s : State ρ) (a : Action ρ) (s' : State ρ) : Prop :=
  ∀ r, s.control r ≠ .running → s'.control r ≠ .running ∧
    ∀ fails rest, a = .advance r fails → s.program r = .check :: rest →
      ∃ e, (s.control r).check = .error e ∧ s'.failed r = some e ∧
        s'.program r = unwind (s.program r)

/-- A cloned closure is called while no step of another request stands between its
reset and its last decode. -/
def CallsHarmless (s : State ρ) : Action ρ → Prop
  | .call r => ∀ q, s.owner = some q → q ≠ r → resetsFirst (s.program q) = true
  | _ => True

/-- What the steps keep: the owner of the lock is inside its step, a canceller has won
its control, and a set flag will be reset or belongs to the owner. -/
structure Serialized (s : State ρ) : Prop where
  points : ∀ r, Point (s.program r)
  owned : ∀ r, s.owner = some r ↔ Inside (s.program r)
  called : ∀ r, s.canceller r ≠ .idle → s.control r ≠ .running
  flagged : s.flag = true → ∀ r, s.owner = some r →
    resetsFirst (s.program r) = true ∨ s.control r ≠ .running
  isolated : Isolated s

theorem serialized_initial : Serialized (State.initial : State ρ) where
  points := fun _ => point_nil
  owned := fun r => iff_of_false (by simp [State.initial]) (fun h => h.1 rfl)
  called := fun r h => absurd rfl h
  flagged := fun h => (nomatch h)
  isolated := fun r h => (nomatch h)

/-- A control that was won stays won. -/
theorem check_error_iff (c : ControlState) :
    (∃ e, c.check = .error e) ↔ c ≠ .running := by
  cases c <;> simp [ControlState.check]

structure Elsewhere (s s' : State ρ) : Prop where
  program : s'.program = s.program
  owner : s'.owner = s.owner
  decoded : s'.decoded = s.decoded
  control : ∀ r, s.control r ≠ .running → s'.control r ≠ .running

theorem serialized_of_elsewhere (s s' : State ρ) (h : Serialized s) (hmove : Elsewhere s s')
    (hcalled : ∀ r, s'.canceller r ≠ .idle → s'.control r ≠ .running)
    (hflagged : s'.flag = true → ∀ r, s'.owner = some r →
      resetsFirst (s'.program r) = true ∨ s'.control r ≠ .running) : Serialized s' where
  points := by
    rw [hmove.program]
    exact h.points
  owned := by
    rw [hmove.program, hmove.owner]
    exact h.owned
  called := hcalled
  flagged := hflagged
  isolated := by
    intro r hr
    rw [hmove.decoded] at hr
    exact hmove.control r (h.isolated r hr)

theorem flagged_of_elsewhere (s s' : State ρ) (h : Serialized s) (hmove : Elsewhere s s')
    (hflag : s'.flag = true → s.flag = true) : s'.flag = true → ∀ r, s'.owner = some r →
      resetsFirst (s'.program r) = true ∨ s'.control r ≠ .running := by
  intro hset r hr
  rw [hmove.owner] at hr
  rw [hmove.program]
  exact (h.flagged (hflag hset) r hr).imp id (hmove.control r)

theorem serialized_register (s : State ρ) (h : Serialized s) (registered : ρ → Bool) :
    Serialized { s with registered := registered } :=
  ⟨h.points, h.owned, h.called, h.flagged, h.isolated⟩

variable [DecidableEq ρ]

theorem serialized_win (s : State ρ) (h : Serialized s) (r : ρ)
    (f : ControlState → ControlState) (hf : f .running ≠ .running) : Serialized (s.win r f) := by
  unfold State.win
  split
  · have hcontrol : ∀ q, s.control q ≠ .running ∨ q = r →
        Function.update s.control r (f .running) q ≠ .running := by
      intro q hq
      by_cases hqr : q = r
      · subst hqr
        rw [Function.update_self]
        exact hf
      · rw [Function.update_of_ne hqr]
        exact hq.resolve_right hqr
    have hmove : Elsewhere s { s with
        control := Function.update s.control r (f .running)
        canceller := Function.update s.canceller r .won } :=
      ⟨rfl, rfl, rfl, fun q hq => hcontrol q (Or.inl hq)⟩
    refine serialized_of_elsewhere s _ h hmove ?_ (flagged_of_elsewhere s _ h hmove id)
    intro q hq
    by_cases hqr : q = r
    · exact hcontrol q (Or.inr hqr)
    · refine hcontrol q (Or.inl (h.called q ?_))
      dsimp only at hq
      rwa [Function.update_of_ne hqr] at hq
  · exact h

theorem serialized_complete (s : State ρ) (h : Serialized s) (r : ρ) :
    Serialized { s with control := Function.update s.control r (s.control r).finish } := by
  have hcontrol : ∀ q, s.control q ≠ .running →
      Function.update s.control r (s.control r).finish q ≠ .running := by
    intro q hq
    by_cases hqr : q = r
    · subst hqr
      rw [Function.update_self]
      cases hc : s.control q with
      | running => exact absurd hc hq
      | cancelled | deadline | complete => simp [ControlState.finish]
    · rw [Function.update_of_ne hqr]
      exact hq
  have hmove : Elsewhere s { s with
      control := Function.update s.control r (s.control r).finish } :=
    ⟨rfl, rfl, rfl, hcontrol⟩
  exact serialized_of_elsewhere s _ h hmove (fun q hq => hcontrol q (h.called q hq))
    (flagged_of_elsewhere s _ h hmove id)

theorem serialized_cloneAbort (s s' : State ρ) (h : Serialized s) (r : ρ)
    (hact : s.cloneAbort r = some s') : Serialized s' := by
  unfold State.cloneAbort at hact
  split at hact
  · rename_i hwon
    cases hact
    have hmove : ∀ c, Elsewhere s { s with canceller := c } := fun c => ⟨rfl, rfl, rfl, fun _ => id⟩
    refine serialized_of_elsewhere s _ h (hmove _) ?_ (flagged_of_elsewhere s _ h (hmove _) id)
    intro q hq
    apply h.called q
    by_cases hqr : q = r
    · rw [hqr, hwon]
      simp
    · dsimp only at hq
      rwa [Function.update_of_ne hqr] at hq
  · cases hact

/-- The call of a closure is harmless to its own request, which was won. -/
theorem serialized_callAbort (s s' : State ρ) (h : Serialized s) (r : ρ)
    (hact : s.callAbort r = some s') (hharmless : CallsHarmless s (.call r)) :
    Serialized s' := by
  unfold State.callAbort at hact
  split at hact
  · rename_i hholding
    cases hact
    have hwon : s.control r ≠ .running := h.called r (by rw [hholding]; simp)
    have hmove : Elsewhere s { s with
        canceller := Function.update s.canceller r .returned
        flag := true } := ⟨rfl, rfl, rfl, fun _ => id⟩
    refine serialized_of_elsewhere s _ h hmove ?_ ?_
    · intro q hq
      by_cases hqr : q = r
      · rw [hqr]
        exact hwon
      · dsimp only at hq
        rw [Function.update_of_ne hqr] at hq
        exact h.called q hq
    · intro _ q hq
      by_cases hqr : q = r
      · rw [hqr]
        exact Or.inr hwon
      · exact Or.inl (hharmless q hq hqr)
  · cases hact

/-- A step of `r` moves to `p`: the other programs and the controls are as before. -/
structure Moves (s s' : State ρ) (r : ρ) (p : List Op) : Prop where
  program : s'.program = Function.update s.program r p
  control : s'.control = s.control
  canceller : s'.canceller = s.canceller

theorem serialized_of_moves (s s' : State ρ) (h : Serialized s) (r : ρ) (p : List Op)
    (hmove : Moves s s' r p) (hpoint : Point p)
    (howned : ∀ q, s'.owner = some q ↔ Inside (Function.update s.program r p q))
    (hflagged : s'.flag = true → ∀ q, s'.owner = some q →
      resetsFirst (Function.update s.program r p q) = true ∨ s.control q ≠ .running)
    (hdecoded : ∀ q, s'.decoded q = some .cancelled → s.decoded q = some .cancelled ∨
      s.control q ≠ .running) : Serialized s' where
  points := by
    intro q
    rw [hmove.program]
    by_cases hqr : q = r
    · subst hqr
      rw [Function.update_self]
      exact hpoint
    · rw [Function.update_of_ne hqr]
      exact h.points q
  owned := by
    rw [hmove.program]
    exact howned
  called := by
    rw [hmove.canceller, hmove.control]
    exact h.called
  flagged := by
    rw [hmove.program, hmove.control]
    exact hflagged
  isolated := by
    intro q hq
    rw [hmove.control]
    exact (hdecoded q hq).elim (h.isolated q) id

/-- A move of `r` that neither takes nor releases the lock. -/
theorem owned_of_kept (s : State ρ) (h : Serialized s) (r : ρ) (p : List Op)
    (hinside : Inside p ↔ Inside (s.program r)) (q : ρ) :
    s.owner = some q ↔ Inside (Function.update s.program r p q) := by
  by_cases hqr : q = r
  · subst hqr
    rw [Function.update_self, hinside]
    exact h.owned q
  · rw [Function.update_of_ne hqr]
    exact h.owned q

/-- A move of `r` to a point no closer to a decode leaves the flag as safe as it was. -/
theorem flagged_of_kept (s : State ρ) (h : Serialized s) (r : ρ) (p : List Op)
    (hresets : resetsFirst (s.program r) = true → resetsFirst p = true) (hflag : s.flag = true)
    (q : ρ) (hq : s.owner = some q) :
    resetsFirst (Function.update s.program r p q) = true ∨ s.control q ≠ .running := by
  by_cases hqr : q = r
  · subst hqr
    rw [Function.update_self]
    exact (h.flagged hflag q hq).imp hresets id
  · rw [Function.update_of_ne hqr]
    exact h.flagged hflag q hq

theorem serialized_fail (s : State ρ) (h : Serialized s) (r : ρ) (hne : s.program r ≠ [])
    (e : Error) : Serialized (s.fail r e) :=
  serialized_of_moves s _ h r (unwind (s.program r)) ⟨rfl, rfl, rfl⟩ (point_unwind _)
    (owned_of_kept s h r _ (inside_unwind_iff _ hne))
    (flagged_of_kept s h r _ (fun _ => resetsFirst_unwind _)) (fun _ hq => Or.inl hq)

/-- The result of a decode that was not cancelled changes nothing else. -/
theorem serialized_returnDecode (s : State ρ) (h : Serialized s) (r : ρ) (outcome : DecodeOutcome)
    (houtcome : outcome = .cancelled → s.control r ≠ .running) :
    Serialized (s.returnDecode r outcome) where
  points := h.points
  owned := h.owned
  called := h.called
  flagged := h.flagged
  isolated := by
    intro q hq
    unfold State.returnDecode at hq
    dsimp only at hq
    by_cases hqr : q = r
    · subst hqr
      rw [Function.update_self] at hq
      exact houtcome (Option.some.inj hq)
    · rw [Function.update_of_ne hqr] at hq
      exact h.isolated q hq

/-- The operations that read or set the flag stand inside the lock. -/
theorem inside_of_head (op : Op) (rest : List Op) (hpoint : Point (op :: rest))
    (hop : op = .recheck ∨ op = .decode ∨ op = .evaluate) : Inside (op :: rest) := by
  have hall : ∀ kind : StepKind, ∀ q ∈ kind.program.tails,
      q.head? = some .recheck ∨ q.head? = some .decode ∨ q.head? = some .evaluate → Inside q := by
    intro kind
    cases kind with
    | decode evaluates => cases evaluates <;> decide
    | _ => decide
  refine of_point (fun q => q.head? = some op → Inside q) _ hpoint ?_ rfl
  intro kind q hq hhead
  apply hall kind q hq
  rw [hhead, Option.some.injEq, Option.some.injEq, Option.some.injEq]
  exact hop

/-- A decode finds the flag set only if its own request was won. -/
theorem serialized_decodeCancelled (s : State ρ) (h : Serialized s) (r : ρ) (op : Op)
    (rest : List Op) (hprogram : s.program r = op :: rest) (hop : op = .decode ∨ op = .evaluate)
    (hflag : s.flag = true) : Serialized (s.decodeCancelled r) := by
  have hinside := inside_of_head op rest (hprogram ▸ h.points r) (Or.inr hop)
  have howner : s.owner = some r := (h.owned r).mpr (hprogram ▸ hinside)
  have hwon : s.control r ≠ .running := by
    apply (h.flagged hflag r howner).resolve_left
    rw [hprogram]
    rcases hop with rfl | rfl <;> simp [resetsFirst]
  have hcleared : Serialized { s with flag := false } :=
    ⟨h.points, h.owned, h.called, fun hset => (nomatch hset), h.isolated⟩
  apply serialized_fail
  · exact serialized_returnDecode _ hcleared r .cancelled (fun _ => hwon)
  · show s.program r ≠ []
    rw [hprogram]
    exact List.cons_ne_nil _ _

theorem serialized_goOn (s : State ρ) (h : Serialized s) (r : ρ) (op : Op) (rest : List Op)
    (hprogram : s.program r = op :: rest) (hinside : Inside rest ↔ Inside (op :: rest))
    (hresets : resetsFirst (op :: rest) = true → resetsFirst rest = true) :
    Serialized (s.goOn r rest) :=
  serialized_of_moves s _ h r rest ⟨rfl, rfl, rfl⟩
    (point_tail op rest (hprogram ▸ h.points r))
    (owned_of_kept s h r rest (by rw [hprogram]; exact hinside))
    (flagged_of_kept s h r rest (by rw [hprogram]; exact hresets)) (fun _ hq => Or.inl hq)

theorem serialized_lock (s : State ρ) (h : Serialized s) (r : ρ) (rest : List Op)
    (hprogram : s.program r = .lock :: rest) (hfree : s.owner = none) :
    Serialized { s.goOn r rest with owner := some r } := by
  have hpoint := hprogram ▸ h.points r
  have hafter := insideAfter_of_point _ hpoint
  simp only [insideAfter, Bool.and_eq_true, decide_eq_true_eq] at hafter
  refine serialized_of_moves s _ h r rest ⟨rfl, rfl, rfl⟩ (point_tail _ _ hpoint) ?_ ?_
    (fun _ hq => Or.inl hq)
  · intro q
    show some r = some q ↔ _
    by_cases hqr : q = r
    · subst hqr
      rw [Function.update_self]
      exact iff_of_true rfl hafter.1
    · rw [Function.update_of_ne hqr, ← h.owned q, hfree]
      simp [Ne.symm hqr]
  · intro _ q hq
    have hqr : q = r := (Option.some.inj hq).symm
    subst hqr
    rw [Function.update_self]
    exact Or.inl hafter.2

theorem serialized_unlock (s : State ρ) (h : Serialized s) (r : ρ) (rest : List Op)
    (hprogram : s.program r = .unlock :: rest) :
    Serialized { s.goOn r rest with owner := none } := by
  have hpoint := hprogram ▸ h.points r
  have hafter := insideAfter_of_point _ hpoint
  simp only [insideAfter, Bool.and_eq_true, decide_eq_true_eq] at hafter
  have howner : s.owner = some r := (h.owned r).mpr (hprogram ▸ hafter.2)
  refine serialized_of_moves s _ h r rest ⟨rfl, rfl, rfl⟩ (point_tail _ _ hpoint) ?_ ?_
    (fun _ hq => Or.inl hq)
  · intro q
    show none = some q ↔ _
    by_cases hqr : q = r
    · subst hqr
      rw [Function.update_self, hafter.1]
      simp [Inside]
    · rw [Function.update_of_ne hqr, ← h.owned q, howner]
      simp [Ne.symm hqr]
  · exact fun _ q hq => nomatch hq

/-- The closure called by the registration itself belongs to the owner. -/
theorem serialized_recheck (s : State ρ) (h : Serialized s) (r : ρ) (rest : List Op)
    (hprogram : s.program r = .recheck :: rest) (hwon : s.control r ≠ .running) :
    Serialized { s.goOn r rest with flag := true } := by
  have hpoint := hprogram ▸ h.points r
  have hinside := inside_of_head _ rest hpoint (Or.inl rfl)
  have howner : s.owner = some r := (h.owned r).mpr (hprogram ▸ hinside)
  have hafter := insideAfter_of_point _ hpoint
  simp only [insideAfter, decide_eq_true_eq] at hafter
  refine serialized_of_moves s _ h r rest ⟨rfl, rfl, rfl⟩ (point_tail _ _ hpoint)
    (owned_of_kept s h r rest (by rw [hprogram]; exact hafter)) ?_ (fun _ hq => Or.inl hq)
  intro _ q hq
  have hqr : r = q := Option.some.inj (howner.symm.trans hq)
  rw [← hqr]
  exact Or.inr hwon

theorem serialized_perform (s s' : State ρ) (h : Serialized s) (r : ρ) (fails : Bool) (op : Op)
    (rest : List Op) (hprogram : s.program r = op :: rest)
    (hact : s.perform r fails rest op = some s') : Serialized s' := by
  have hne : s.program r ≠ [] := by
    rw [hprogram]
    exact List.cons_ne_nil _ _
  have hpoint := hprogram ▸ h.points r
  have hafter := insideAfter_of_point _ hpoint
  cases op with
  | check =>
    simp only [insideAfter, decide_eq_true_eq] at hafter
    simp only [State.perform] at hact
    split at hact
    · cases hact
      exact serialized_goOn s h r _ rest hprogram hafter id
    · cases hact
      exact serialized_fail s h r hne _
  | lock =>
    simp only [State.perform] at hact
    split at hact
    · rename_i hfree
      cases hact
      exact serialized_lock s h r rest hprogram hfree
    · cases hact
  | reset =>
    simp only [insideAfter, decide_eq_true_eq] at hafter
    cases hact
    exact serialized_of_moves s _ h r rest ⟨rfl, rfl, rfl⟩ (point_tail _ _ hpoint)
      (owned_of_kept s h r rest (by rw [hprogram]; exact hafter)) (fun hset => nomatch hset)
      (fun _ hq => Or.inl hq)
  | store =>
    simp only [insideAfter, decide_eq_true_eq] at hafter
    cases hact
    exact serialized_register _ (serialized_goOn s h r _ rest hprogram hafter id) _
  | recheck =>
    simp only [insideAfter, decide_eq_true_eq] at hafter
    simp only [State.perform] at hact
    split at hact
    · cases hact
      exact serialized_goOn s h r _ rest hprogram hafter id
    · rename_i e herror
      cases hact
      exact serialized_recheck s h r rest hprogram ((check_error_iff _).mp ⟨e, herror⟩)
  | attempt =>
    simp only [insideAfter, decide_eq_true_eq] at hafter
    cases hact
    split
    · exact serialized_fail s h r hne _
    · exact serialized_goOn s h r _ rest hprogram hafter id
  | decode =>
    simp only [insideAfter, decide_eq_true_eq] at hafter
    cases hact
    split
    · rename_i hflag
      exact serialized_decodeCancelled s h r _ rest hprogram (Or.inl rfl) hflag
    · exact serialized_goOn s h r _ rest hprogram hafter (fun hresets => nomatch hresets)
  | evaluate =>
    simp only [insideAfter, decide_eq_true_eq] at hafter
    have hreturned : ∀ outcome, outcome ≠ .cancelled → Serialized (s.returnDecode r outcome) :=
      fun outcome houtcome =>
        serialized_returnDecode s h r outcome (fun heq => absurd heq houtcome)
    cases hact
    split
    · exact serialized_fail _ (hreturned .backend (by simp)) r hne _
    · exact serialized_goOn _ (hreturned .ok (by simp)) r _ rest hprogram hafter
        (fun hresets => nomatch hresets)
  | drop =>
    simp only [insideAfter, decide_eq_true_eq] at hafter
    cases hact
    exact serialized_register _ (serialized_goOn s h r _ rest hprogram hafter id) _
  | unlock =>
    cases hact
    exact serialized_unlock s h r rest hprogram

theorem serialized_enter (s s' : State ρ) (h : Serialized s) (r : ρ) (kind : StepKind)
    (hact : s.enter r kind = some s') : Serialized s' := by
  unfold State.enter at hact
  split at hact
  · rename_i hidle
    cases hact
    have houtside : ¬ Inside (s.program r) := by
      rw [hidle]
      exact fun hinside => hinside.1 rfl
    refine serialized_of_moves s _ h r kind.program ⟨rfl, rfl, rfl⟩ (point_program kind)
      (owned_of_kept s h r _ (iff_of_false (not_inside_program kind) houtside)) ?_ ?_
    · intro hflag q hq
      have hqr : q ≠ r := by
        intro heq
        exact houtside (heq ▸ (h.owned q).mp hq)
      rw [Function.update_of_ne hqr]
      exact h.flagged hflag q hq
    · intro q hq
      left
      dsimp only at hq
      by_cases hqr : q = r
      · subst hqr
        rw [Function.update_self] at hq
        cases hq
      · rwa [Function.update_of_ne hqr] at hq
  · cases hact

/-- Every step with harmless calls keeps the invariant. -/
theorem serialized_step (s : State ρ) (a : Action ρ) (s' : State ρ) (h : Serialized s)
    (hharmless : CallsHarmless s a) (hstep : Step s a s') : Serialized s' := by
  unfold Step at hstep
  cases a with
  | cancel r =>
    cases hstep
    exact serialized_win s h r _ (by simp [ControlState.cancel])
  | expire r =>
    cases hstep
    exact serialized_win s h r _ (by simp [ControlState.expire])
  | complete r =>
    cases hstep
    exact serialized_complete s h r
  | clone r => exact serialized_cloneAbort s s' h r hstep
  | call r => exact serialized_callAbort s s' h r hstep hharmless
  | enter r kind => exact serialized_enter s s' h r kind hstep
  | advance r fails =>
    simp only [State.act, State.advance] at hstep
    split at hstep
    · cases hstep
    · rename_i op rest hprogram
      exact serialized_perform s s' h r fails op rest hprogram hstep
  | poll r =>
    simp only [State.act, State.poll] at hstep
    split at hstep
    · rename_i rest hprogram
      cases hstep
      split
      · rename_i hflag
        exact serialized_decodeCancelled s h r _ rest hprogram (Or.inr rfl) hflag
      · exact h
    · cases hstep

theorem control_perform (s s' : State ρ) (r : ρ) (fails : Bool) (op : Op) (rest : List Op)
    (hact : s.perform r fails rest op = some s') : s'.control = s.control := by
  cases op with
  | check | recheck =>
    simp only [State.perform] at hact
    split at hact <;> cases hact <;> rfl
  | lock =>
    simp only [State.perform] at hact
    split at hact
    · cases hact
      rfl
    · cases hact
  | attempt | decode | evaluate =>
    cases hact
    split <;> rfl
  | reset | store | drop | unlock =>
    cases hact
    rfl

theorem control_won (s : State ρ) (a : Action ρ) (s' : State ρ) (hstep : Step s a s') (r : ρ)
    (hwon : s.control r ≠ .running) : s'.control r ≠ .running := by
  have hupdate : ∀ (q : ρ) (c : ControlState), (q = r → c ≠ .running) →
      Function.update s.control q c r ≠ .running := by
    intro q c hc
    by_cases hqr : r = q
    · subst hqr
      rw [Function.update_self]
      exact hc rfl
    · rw [Function.update_of_ne hqr]
      exact hwon
  have hwin : ∀ q f, (s.win q f).control r ≠ .running := by
    intro q f
    unfold State.win
    split
    · rename_i hrunning
      exact hupdate q _ (fun hqr => absurd (hqr ▸ hrunning) hwon)
    · exact hwon
  unfold Step at hstep
  cases a with
  | cancel q =>
    cases hstep
    exact hwin q _
  | expire q =>
    cases hstep
    exact hwin q _
  | complete q =>
    cases hstep
    apply hupdate
    intro hqr
    subst hqr
    cases hc : s.control q with
    | running => exact absurd hc hwon
    | cancelled | deadline | complete => simp [ControlState.finish]
  | clone q =>
    simp only [State.act, State.cloneAbort] at hstep
    split at hstep <;> cases hstep
    exact hwon
  | call q =>
    simp only [State.act, State.callAbort] at hstep
    split at hstep <;> cases hstep
    exact hwon
  | enter q kind =>
    simp only [State.act, State.enter] at hstep
    split at hstep <;> cases hstep
    exact hwon
  | advance q fails =>
    simp only [State.act, State.advance] at hstep
    split at hstep
    · cases hstep
    · rw [control_perform s s' q fails _ _ hstep]
      exact hwon
  | poll q =>
    simp only [State.act, State.poll] at hstep
    split at hstep
    · cases hstep
      split <;> exact hwon
    · cases hstep

theorem observes_step (s : State ρ) (a : Action ρ) (s' : State ρ) (hstep : Step s a s') :
    Observes s a s' := by
  intro r hwon
  refine ⟨control_won s a s' hstep r hwon, ?_⟩
  intro fails rest ha hprogram
  obtain ⟨e, he⟩ := (check_error_iff _).mpr hwon
  subst ha
  simp only [Step, State.act, State.advance, hprogram, State.perform, he] at hstep
  cases hstep
  refine ⟨e, he, ?_, ?_⟩
  · unfold State.fail
    dsimp only
    rw [Function.update_self]
  · unfold State.fail
    dsimp only
    rw [Function.update_self]

/-- In every run whose cloned closures are called harmlessly, no decode of a request
whose control runs returns `Cancelled`; and in every run, a request that was won
fails at its next check. -/
theorem cancellation_isolated (run : List (Action ρ × State ρ))
    (hrun : IsRun Step State.initial run) :
    (Meets CallsHarmless State.initial run → ∀ x ∈ run, Isolated x.2) ∧
      Along Observes State.initial run := by
  constructor
  · intro hmeets x hx
    exact (along_of_meets Step Serialized CallsHarmless serialized_step State.initial run
      serialized_initial hrun hmeets x hx).isolated
  · exact along_of_run Step Observes observes_step State.initial run hrun

instance (s : State ρ) (a : Action ρ) : Decidable (CallsHarmless s a) :=
  match a with
  | .call r => decidable_of_iff
      (∀ q ∈ s.owner.toList, q ≠ r → resetsFirst (s.program q) = true)
      (by simp [CallsHarmless, Option.mem_toList])
  | .cancel _ | .expire _ | .complete _ | .clone _ | .enter _ _ | .advance _ _ | .poll _ =>
    isTrue trivial

def advances (r : ℕ) (n : ℕ) : List (Action ℕ) := List.replicate n (.advance r false)

/-- A request enters its prefill step and goes on to its decode. -/
def untilDecode (r : ℕ) : List (Action ℕ) := .enter r .prefill :: advances r 7

/-- A request is cancelled and its closure called just before its own decode. -/
def cancelledInTime : List (Action ℕ) :=
  untilDecode 0 ++ [.cancel 0, .clone 0, .call 0, .advance 0 false]

/-- A second request waits for the lock meanwhile; when it has it, but has not yet reset the flag,
the closure of a third one is called late. -/
def anotherGoesOn : List (Action ℕ) :=
  untilDecode 2 ++ [.cancel 2, .clone 2] ++ advances 2 5 ++ .enter 1 .prefill :: cancelledInTime ++
    advances 0 2 ++ advances 1 2 ++ .call 2 :: advances 1 7

theorem own_cancel_isolated :
    ∃ run, IsRun Step (State.initial : State ℕ) run ∧
      (last State.initial run).decoded 0 = some .cancelled ∧
      (last State.initial run).decoded 1 = some .ok ∧
      (∀ x ∈ run, Isolated x.2) ∧ Along Observes State.initial run := by
  have hrun : (trace State.act (State.initial : State ℕ) anotherGoesOn).any (fun run =>
      decide (Meets CallsHarmless State.initial run) &&
      decide ((last State.initial run).decoded 0 = some .cancelled ∧
        (last State.initial run).decoded 1 = some .ok)) = true := by
    decide +kernel
  obtain ⟨run, htrace, hchecks⟩ := (Option.any_eq_true _ _).mp hrun
  rw [Bool.and_eq_true, decide_eq_true_eq, decide_eq_true_eq] at hchecks
  have hsteps := isRun_of_trace _ _ _ run htrace
  have hisolated := cancellation_isolated run hsteps
  exact ⟨run, hsteps, hchecks.2.1, hchecks.2.2, hisolated.1 hchecks.1, hisolated.2⟩

/-- The closure is cloned during the first request's step, which then ends, and is
called while the second request stands before its decode. -/
def cancelledLate : List (Action ℕ) :=
  untilDecode 0 ++ [.cancel 0, .clone 0] ++ advances 0 5 ++ untilDecode 1 ++
    [.call 0, .advance 1 false]

/-- Cancelling one request makes a decode of another, uncancelled one return `Cancelled`. -/
theorem late_call_cancels_another :
    ∃ run, IsRun Step (State.initial : State ℕ) run ∧
      (last State.initial run).control 0 = .cancelled ∧
      (last State.initial run).control 1 = .running ∧
      (last State.initial run).decoded 1 = some .cancelled ∧
        ¬ Isolated (last State.initial run) := by
  have hrun : (trace State.act (State.initial : State ℕ) cancelledLate).any (fun run =>
      decide ((last State.initial run).control 0 = .cancelled ∧
        (last State.initial run).control 1 = .running ∧
        (last State.initial run).decoded 1 = some .cancelled)) = true := by
    decide +kernel
  obtain ⟨run, htrace, hchecks⟩ := (Option.any_eq_true _ _).mp hrun
  obtain ⟨hfirst, hsecond, hdecoded⟩ := of_decide_eq_true hchecks
  refine ⟨run, isRun_of_trace _ _ _ run htrace, hfirst, hsecond, hdecoded, ?_⟩
  exact fun hisolated => hisolated 1 hdecoded hsecond

end Cusco.CancellationIsolation
