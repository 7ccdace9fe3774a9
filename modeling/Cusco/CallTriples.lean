import Cusco.Calls

/-!
Triples of fallible calls. A triple says what holds of the state a call leaves when it returns
a value and when it returns an error, which is not rolled back. Calls on a part of the state,
calls with a cleanup after an error and calls whose error is ignored have their rules here.
-/

namespace Cusco.Calls.Call

variable {σ τ ε δ α β : Type}

/-- A call on a part of the state, its error wrapped. -/
def within (part : τ → σ) (put : σ → τ → τ) (wrap : ε → δ) (x : Call σ ε α) : Call τ δ α :=
  ⟨fun t =>
  match x.run (part t) with
  | .returns (.ok a) s => .returns (.ok a) (put s t)
  | .returns (.error e) s => .returns (.error (wrap e)) (put s t)
  | .panics => .panics⟩

/-- A call with a cleanup after an error, which is returned all the same. -/
def rescue (x : Call σ ε α) (cleanup : Call σ ε Unit) : Call σ ε α := ⟨fun s =>
  match x.run s with
  | .returns (.ok a) t => .returns (.ok a) t
  | .returns (.error e) t =>
    match cleanup.run t with
    | .returns _ u => .returns (.error e) u
    | .panics => .panics
  | .panics => .panics⟩

/-- `let _ = ..`: the error of a call is ignored. -/
def ignore (x : Call σ ε Unit) : Call σ ε Unit := ⟨fun s =>
  match x.run s with
  | .returns _ t => .returns (.ok ()) t
  | .panics => .panics⟩

/-- `expect`: the error of a call is a panic. -/
def expect (x : Call σ ε α) : Call σ ε α := ⟨fun s =>
  match x.run s with
  | .returns (.ok a) t => .returns (.ok a) t
  | .returns (.error _) _ => .panics
  | .panics => .panics⟩

/-- What an outcome that is no panic leaves. -/
def Lands (Q : α → σ → Prop) (E : σ → Prop) : Outcome σ ε α → Prop
  | .returns (.ok a) t => Q a t
  | .returns (.error _) t => E t
  | .panics => True

/-- From every state with `P` the call returns a value with `Q` or an error with `E`. -/
def Triple (P : σ → Prop) (x : Call σ ε α) (Q : α → σ → Prop) (E : σ → Prop) : Prop :=
  ∀ s, P s → Lands Q E (x.run s)

namespace Triple

variable {P P' E E' : σ → Prop} {Q Q' : α → σ → Prop} {x : Call σ ε α}

theorem returned (h : Triple P x Q E) {s t : σ} {a : α} (hs : P s)
    (hrun : x.run s = .returns (.ok a) t) : Q a t := by
  have hlands := h s hs
  rw [hrun] at hlands
  exact hlands

theorem failed (h : Triple P x Q E) {s t : σ} {e : ε} (hs : P s)
    (hrun : x.run s = .returns (.error e) t) : E t := by
  have hlands := h s hs
  rw [hrun] at hlands
  exact hlands

theorem left {R : σ → Prop} (h : Triple P x (fun _ => R) R) {s t : σ} {r : Except ε α} (hs : P s)
    (hrun : x.run s = .returns r t) : R t := by
  cases r with
  | ok a => exact h.returned hs hrun
  | error e => exact h.failed hs hrun

theorem of_run (h : ∀ s, P s → (∀ a t, x.run s = .returns (.ok a) t → Q a t) ∧
    ∀ e t, x.run s = .returns (.error e) t → E t) : Triple P x Q E := by
  intro s hs
  obtain ⟨hok, herror⟩ := h s hs
  cases hrun : x.run s with
  | panics => trivial
  | returns r t =>
    cases r with
    | ok a => exact hok a t hrun
    | error e => exact herror e t hrun

theorem weaken (h : Triple P x Q E) (hpre : ∀ s, P' s → P s) (hok : ∀ a s, Q a s → Q' a s)
    (herror : ∀ s, E s → E' s) : Triple P' x Q' E' := by
  apply of_run
  intro s hs
  refine ⟨?_, ?_⟩
  · intro a t hrun
    exact hok a t (h.returned (hpre s hs) hrun)
  · intro e t hrun
    exact herror t (h.failed (hpre s hs) hrun)

theorem before (h : Triple P x Q E) (hpre : ∀ s, P' s → P s) : Triple P' x Q E :=
  h.weaken hpre (fun _ _ hq => hq) (fun _ he => he)

theorem after (h : Triple P x Q E) (hok : ∀ a s, Q a s → Q' a s) : Triple P x Q' E :=
  h.weaken (fun _ hs => hs) hok (fun _ he => he)

/-- What two triples say of a call holds together. -/
theorem and {Q' : α → σ → Prop} (h : Triple P x Q E) (h' : Triple P' x Q' E') :
    Triple (fun s => P s ∧ P' s) x (fun a s => Q a s ∧ Q' a s) (fun s => E s ∧ E' s) := by
  apply of_run
  intro s ⟨hs, hs'⟩
  exact ⟨fun a t hrun => ⟨h.returned hs hrun, h'.returned hs' hrun⟩,
    fun e t hrun => ⟨h.failed hs hrun, h'.failed hs' hrun⟩⟩

/-- What holds beside the state may be assumed of the call. -/
theorem assume {p : Prop} (h : p → Triple P x Q E) : Triple (fun s => P s ∧ p) x Q E :=
  fun s hs => h hs.2 s hs.1

/-- What exists before the call may be named. -/
theorem of_exists {ι : Type} {R : ι → σ → Prop} (h : ∀ i, Triple (R i) x Q E) :
    Triple (fun s => ∃ i, R i s) x Q E :=
  fun s ⟨i, hs⟩ => h i s hs

theorem bind {R : α → σ → Prop} {f : α → Call σ ε β} {Q : β → σ → Prop} (hx : Triple P x R E)
    (hf : ∀ a, Triple (R a) (f a) Q E) : Triple P (x >>= f) Q E := by
  apply of_run
  intro s hs
  refine ⟨?_, ?_⟩
  · intro b t hrun
    obtain ⟨a, s', ha, hrest⟩ := of_bind_ok hrun
    exact (hf a).returned (hx.returned hs ha) hrest
  · intro e t hrun
    rcases of_bind hrun with ⟨e', he, _⟩ | ⟨a, s', ha, hrest⟩
    · exact hx.failed hs he
    · exact (hf a).failed (hx.returned hs ha) hrest

theorem pure {a : α} (h : ∀ s, P s → Q a s) : Triple P (Pure.pure a : Call σ ε α) Q E :=
  fun s hs => h s hs

theorem update {g : σ → σ} {Q : Unit → σ → Prop} (h : ∀ s, P s → Q () (g s)) :
    Triple P (update g : Call σ ε Unit) Q E :=
  fun s hs => h s hs

/-- The state read is the state. -/
theorem read : Triple P (read : Call σ ε σ) (fun a s => a = s ∧ P s) E :=
  fun _ hs => ⟨rfl, hs⟩

theorem read_bind {f : σ → Call σ ε β} {Q : β → σ → Prop}
    (hf : ∀ a, P a → Triple (fun s => s = a) (f a) Q E) :
    Triple P (Call.read >>= f) Q E := by
  apply bind read
  intro a s hs
  obtain ⟨rfl, hs⟩ := hs
  exact hf a hs a rfl

theorem check_bind {ok : Bool} {e : ε} {f : Unit → Call σ ε β} {Q : β → σ → Prop}
    (hfails : ∀ s, P s → E s) (hf : ok = true → Triple P (f ()) Q E) :
    Triple P (check ok e >>= f) Q E := by
  intro s hs
  cases ok with
  | true => exact hf rfl s hs
  | false => exact hfails s hs

theorem require_bind {o : Option α} {e : ε} {f : α → Call σ ε β} {Q : β → σ → Prop}
    (hfails : ∀ s, P s → E s) (hf : ∀ a, o = some a → Triple P (f a) Q E) :
    Triple P (require o e >>= f) Q E := by
  intro s hs
  cases o with
  | some a => exact hf a rfl s hs
  | none => exact hfails s hs

/-- A value known to be there is handed over. -/
theorem require_some_bind {o : Option α} {a : α} {e : ε} {f : α → Call σ ε β}
    {Q : β → σ → Prop} (ho : o = some a) (hf : Triple P (f a) Q E) :
    Triple P (require o e >>= f) Q E := by
  subst ho
  exact hf

theorem unwrap_bind {o : Option α} {f : α → Call σ ε β} {Q : β → σ → Prop}
    (hf : ∀ a, o = some a → Triple P (f a) Q E) : Triple P (unwrap o >>= f) Q E := by
  intro s hs
  cases o with
  | some a => exact hf a rfl s hs
  | none => trivial

theorem ite {p : Prop} [Decidable p] {y : Call σ ε α} (hx : p → Triple P x Q E)
    (hy : ¬p → Triple P y Q E) : Triple P (if p then x else y) Q E := by
  by_cases hp : p
  · rw [if_pos hp]
    exact hx hp
  · rw [if_neg hp]
    exact hy hp

theorem rescue {R : σ → Prop} {cleanup : Call σ ε Unit} (hx : Triple P x Q R)
    (hcleanup : Triple R cleanup (fun _ => E) E) : Triple P (x.rescue cleanup) Q E := by
  intro s hs
  cases hrun : x.run s with
  | panics =>
    simp only [Call.rescue, hrun]
    trivial
  | returns r t =>
    cases r with
    | ok a =>
      simp only [Call.rescue, hrun]
      exact hx.returned hs hrun
    | error e =>
      cases hclean : cleanup.run t with
      | panics =>
        simp only [Call.rescue, hrun, hclean]
        trivial
      | returns r' u =>
        simp only [Call.rescue, hrun, hclean]
        exact hcleanup.left (hx.failed hs hrun) hclean

theorem ignore {x : Call σ ε Unit} {R : σ → Prop} (hx : Triple P x (fun _ => R) R) :
    Triple P x.ignore (fun _ => R) E := by
  intro s hs
  cases hrun : x.run s with
  | panics =>
    simp only [Call.ignore, hrun]
    trivial
  | returns r t =>
    simp only [Call.ignore, hrun]
    exact hx.left hs hrun

theorem within {part : τ → σ} {put : σ → τ → τ} {wrap : ε → δ} {P E : τ → Prop}
    {Q : α → τ → Prop} (h : ∀ t, P t →
      Lands (fun a s => Q a (put s t)) (fun s => E (put s t)) (x.run (part t))) :
    Triple P (x.within part put wrap) Q E := by
  intro t ht
  have hlands := h t ht
  cases hrun : x.run (part t) with
  | panics =>
    simp only [Call.within, hrun]
    trivial
  | returns r s =>
    rw [hrun] at hlands
    cases r with
    | ok a =>
      simp only [Call.within, hrun]
      exact hlands
    | error e =>
      simp only [Call.within, hrun]
      exact hlands

/-- A call that moves along a relation keeps what the relation keeps. -/
theorem of_moves {R : σ → σ → Prop} (hx : Moves R x) (hkeep : ∀ s t, R s t → P s → P t) :
    Triple P x (fun _ => P) P := by
  apply of_run
  intro s hs
  exact ⟨fun a t hrun => hkeep s t (hx s (.ok a) t hrun) hs,
    fun e t hrun => hkeep s t (hx s (.error e) t hrun) hs⟩

end Triple

section Moves

variable {R : σ → σ → Prop}

theorem Moves.ignore {x : Call σ ε Unit} (hx : Moves R x) : Moves R x.ignore := by
  intro s r t h
  unfold Call.ignore at h
  cases hrun : x.run s with
  | panics =>
    simp only [hrun] at h
    cases h
  | returns r' t' =>
    simp only [hrun] at h
    cases h
    exact hx s r' t hrun

theorem Moves.rescue (htrans : ∀ a b c, R a b → R b c → R a c) {x : Call σ ε α}
    {cleanup : Call σ ε Unit} (hx : Moves R x) (hcleanup : Moves R cleanup) :
    Moves R (x.rescue cleanup) := by
  intro s r t h
  unfold Call.rescue at h
  cases hrun : x.run s with
  | panics =>
    simp only [hrun] at h
    cases h
  | returns r' s' =>
    cases r' with
    | ok a =>
      simp only [hrun] at h
      cases h
      exact hx s (.ok a) t hrun
    | error e =>
      cases hclean : cleanup.run s' with
      | panics =>
        simp only [hrun, hclean] at h
        cases h
      | returns r'' t' =>
        simp only [hrun, hclean] at h
        cases h
        exact htrans s s' t (hx s (.error e) s' hrun) (hcleanup s' r'' t hclean)

/-- A call on a part of the state moves it along the relation that the part's moves induce. -/
theorem Moves.lift {part : τ → σ} {put : σ → τ → τ} {wrap : ε → δ} {x : Call σ ε α}
    {R : σ → σ → Prop} {S : τ → τ → Prop} (hx : Moves R x)
    (hput : ∀ s t, R (part t) s → S t (put s t)) : Moves S (x.within part put wrap) := by
  intro t r u h
  unfold Call.within at h
  cases hrun : x.run (part t) with
  | panics =>
    simp only [hrun] at h
    cases h
  | returns r' s =>
    have hmoved := hput s t (hx (part t) r' s hrun)
    cases r' with
    | ok a =>
      simp only [hrun] at h
      cases h
      exact hmoved
    | error e =>
      simp only [hrun] at h
      cases h
      exact hmoved

theorem Moves.within {part : τ → σ} {put : σ → τ → τ} {wrap : ε → δ} {x : Call σ ε α}
    {R : τ → τ → Prop} (hput : ∀ s t, R t (put s t)) : Moves R (x.within part put wrap) :=
  Moves.lift (R := fun _ _ => True) (fun _ _ _ _ => trivial) (fun s t _ => hput s t)

end Moves

end Cusco.Calls.Call
