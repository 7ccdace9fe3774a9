import Mathlib.Tactic.Common

/-!
Fallible calls on a state. A call returns a value or an error together with the
state it leaves, which an error does not roll back, or it panics. Calls compose
as a monad; the rules below take a sequence of calls apart by its outcome.
-/

namespace Cusco.Calls

/-- The result of a call and the state it leaves, or a panic. -/
inductive Outcome (σ ε α : Type)
  | returns (result : Except ε α) (state : σ)
  | panics

/-- The call returned a value. -/
def Outcome.isOk {σ ε α : Type} : Outcome σ ε α → Bool
  | .returns (.ok _) _ => true
  | .returns (.error _) _ => false
  | .panics => false

structure Call (σ ε α : Type) where
  run : σ → Outcome σ ε α

namespace Call

variable {σ ε α β : Type}

def pure (a : α) : Call σ ε α := ⟨fun s => .returns (.ok a) s⟩

def bind (x : Call σ ε α) (f : α → Call σ ε β) : Call σ ε β := ⟨fun s =>
  match x.run s with
  | .returns (.ok a) s' => (f a).run s'
  | .returns (.error e) s' => .returns (.error e) s'
  | .panics => .panics⟩

instance : Monad (Call σ ε) where
  pure := Call.pure
  bind := Call.bind

def read : Call σ ε σ := ⟨fun s => .returns (.ok s) s⟩

def update (f : σ → σ) : Call σ ε Unit := ⟨fun s => .returns (.ok ()) (f s)⟩

def fail (e : ε) : Call σ ε α := ⟨fun s => .returns (.error e) s⟩

/-- Return an error unless a condition holds. -/
def check (ok : Bool) (e : ε) : Call σ ε Unit := ⟨fun s =>
  .returns (if ok then .ok () else .error e) s⟩

/-- The value of an option, or an error. -/
def require (o : Option α) (e : ε) : Call σ ε α := ⟨fun s =>
  match o with
  | some a => .returns (.ok a) s
  | none => .returns (.error e) s⟩

/-- The value of an option, or a panic. -/
def unwrap (o : Option α) : Call σ ε α := ⟨fun s =>
  match o with
  | some a => .returns (.ok a) s
  | none => .panics⟩

/-- Skip a call when a condition holds. -/
def skipIf (skip : Bool) (x : Call σ ε Unit) : Call σ ε Unit := if skip then Call.pure () else x

/-- Raise the error of a result computed without touching the state. -/
def ofExcept (r : Except ε α) : Call σ ε α := ⟨fun s => .returns r s⟩

theorem run_bind (x : Call σ ε α) (f : α → Call σ ε β) (s : σ) :
    (x >>= f).run s = match x.run s with
      | .returns (.ok a) s' => (f a).run s'
      | .returns (.error e) s' => .returns (.error e) s'
      | .panics => .panics := rfl

@[simp] theorem run_pure (a : α) (s : σ) : (Pure.pure a : Call σ ε α).run s = .returns (.ok a) s :=
  rfl

@[simp] theorem run_fail (e : ε) (s : σ) : (fail e : Call σ ε α).run s = .returns (.error e) s :=
  rfl

theorem run_bind_ok {x : Call σ ε α} {s s' : σ} {a : α} (h : x.run s = .returns (.ok a) s')
    (f : α → Call σ ε β) : (x >>= f).run s = (f a).run s' := by
  rw [run_bind, h]

theorem run_bind_error {x : Call σ ε α} {s s' : σ} {e : ε}
    (h : x.run s = .returns (.error e) s') (f : α → Call σ ε β) :
    (x >>= f).run s = .returns (.error e) s' := by
  rw [run_bind, h]

@[simp] theorem run_read_bind (f : σ → Call σ ε β) (s : σ) : (read >>= f).run s = (f s).run s :=
  rfl

@[simp] theorem run_update_bind (g : σ → σ) (f : Unit → Call σ ε β) (s : σ) :
    (update g >>= f).run s = (f ()).run (g s) := rfl

@[simp] theorem run_pure_bind (a : α) (f : α → Call σ ε β) (s : σ) :
    ((Pure.pure a : Call σ ε α) >>= f).run s = (f a).run s := rfl

@[simp] theorem run_check_true_bind (e : ε) (f : Unit → Call σ ε β) (s : σ) :
    (check true e >>= f).run s = (f ()).run s := rfl

@[simp] theorem run_check_false_bind (e : ε) (f : Unit → Call σ ε β) (s : σ) :
    (check false e >>= f).run s = .returns (.error e) s := rfl

@[simp] theorem run_require_some_bind (a : α) (e : ε) (f : α → Call σ ε β) (s : σ) :
    (require (some a) e >>= f).run s = (f a).run s := rfl

@[simp] theorem run_require_none_bind (e : ε) (f : α → Call σ ε β) (s : σ) :
    (require none e >>= f).run s = .returns (.error e) s := rfl

@[simp] theorem run_unwrap_some_bind (a : α) (f : α → Call σ ε β) (s : σ) :
    (unwrap (some a) >>= f).run s = (f a).run s := rfl

@[simp] theorem run_skipIf_true_bind (x : Call σ ε Unit) (f : Unit → Call σ ε β) (s : σ) :
    (skipIf true x >>= f).run s = (f ()).run s := rfl

@[simp] theorem run_skipIf_false_bind (x : Call σ ε Unit) (f : Unit → Call σ ε β) (s : σ) :
    (skipIf false x >>= f).run s = (x >>= f).run s := rfl

/-- A sequence that returns: its first call returned, and either its error or the
rest of the sequence gives the result. -/
theorem of_bind {x : Call σ ε α} {f : α → Call σ ε β} {s t : σ} {r : Except ε β}
    (h : (x >>= f).run s = .returns r t) :
    (∃ e, x.run s = .returns (.error e) t ∧ r = .error e) ∨
      ∃ a s', x.run s = .returns (.ok a) s' ∧ (f a).run s' = .returns r t := by
  rw [run_bind] at h
  cases hx : x.run s with
  | panics =>
    rw [hx] at h
    cases h
  | returns result s' =>
    cases result with
    | error e =>
      rw [hx] at h
      cases h
      exact Or.inl ⟨e, rfl, rfl⟩
    | ok a =>
      rw [hx] at h
      exact Or.inr ⟨a, s', rfl, h⟩

/-- A call whose value is only mapped. -/
theorem of_bind_pure {x : Call σ ε α} {f : α → β} {s t : σ} {r : Except ε β}
    (h : (x >>= fun a => Pure.pure (f a)).run s = .returns r t) :
    ∃ r', x.run s = .returns r' t ∧ r = r'.map f := by
  rcases of_bind h with ⟨e, he, rfl⟩ | ⟨a, s', ha, hrest⟩
  · exact ⟨.error e, he, rfl⟩
  · cases hrest
    exact ⟨.ok a, ha, rfl⟩

theorem of_bind_ok {x : Call σ ε α} {f : α → Call σ ε β} {s t : σ} {b : β}
    (h : (x >>= f).run s = .returns (.ok b) t) :
    ∃ a s', x.run s = .returns (.ok a) s' ∧ (f a).run s' = .returns (.ok b) t := by
  rcases of_bind h with ⟨e, _, he⟩ | hrest
  · cases he
  · exact hrest

/-- A check that is passed or fails. -/
theorem of_check_bind {ok : Bool} {e : ε} {f : Unit → Call σ ε β} {s t : σ} {r : Except ε β}
    (h : (check ok e >>= f).run s = .returns r t) :
    (ok = false ∧ t = s ∧ r = .error e) ∨ (ok = true ∧ (f ()).run s = .returns r t) := by
  cases ok with
  | true => exact Or.inr ⟨rfl, h⟩
  | false =>
    cases h
    exact Or.inl ⟨rfl, rfl, rfl⟩

theorem of_require_bind {o : Option α} {e : ε} {f : α → Call σ ε β} {s t : σ} {r : Except ε β}
    (h : (require o e >>= f).run s = .returns r t) :
    (o = none ∧ t = s ∧ r = .error e) ∨ ∃ a, o = some a ∧ (f a).run s = .returns r t := by
  cases o with
  | none =>
    cases h
    exact Or.inl ⟨rfl, rfl, rfl⟩
  | some a => exact Or.inr ⟨a, rfl, h⟩

theorem of_ofExcept_bind {o : Except ε α} {f : α → Call σ ε β} {s t : σ} {r : Except ε β}
    (h : (ofExcept o >>= f).run s = .returns r t) :
    (∃ e, o = .error e ∧ t = s ∧ r = .error e) ∨ ∃ a, o = .ok a ∧ (f a).run s = .returns r t := by
  cases o with
  | error e =>
    cases h
    exact Or.inl ⟨e, rfl, rfl, rfl⟩
  | ok a => exact Or.inr ⟨a, rfl, h⟩

theorem of_unwrap_bind {o : Option α} {f : α → Call σ ε β} {s t : σ} {r : Except ε β}
    (h : (unwrap o >>= f).run s = .returns r t) :
    ∃ a, o = some a ∧ (f a).run s = .returns r t := by
  cases o with
  | none => cases h
  | some a => exact ⟨a, rfl, h⟩

/-- A call that never returns an error. -/
def Infallible (x : Call σ ε α) : Prop := ∀ s t e, x.run s ≠ .returns (.error e) t

theorem Infallible.pure (a : α) : Infallible (Pure.pure a : Call σ ε α) := by
  intro s t e h
  cases h

theorem Infallible.read : Infallible (read : Call σ ε σ) := by
  intro s t e h
  cases h

theorem Infallible.update (g : σ → σ) : Infallible (update g : Call σ ε Unit) := by
  intro s t e h
  cases h

theorem Infallible.unwrap (o : Option α) : Infallible (unwrap o : Call σ ε α) := by
  intro s t e h
  cases o with
  | none => cases h
  | some a => cases h

theorem Infallible.bind {x : Call σ ε α} {f : α → Call σ ε β} (hx : Infallible x)
    (hf : ∀ a, Infallible (f a)) : Infallible (x >>= f) := by
  intro s t e h
  rcases of_bind h with ⟨e', he, _⟩ | ⟨a, s', _, hrest⟩
  · exact hx s t e' he
  · exact hf a s' t e hrest

theorem Infallible.ite {p : Prop} [Decidable p] {x y : Call σ ε α} (hx : Infallible x)
    (hy : Infallible y) : Infallible (if p then x else y) := by
  by_cases hp : p
  · rw [if_pos hp]
    exact hx
  · rw [if_neg hp]
    exact hy

theorem Infallible.skipIf {x : Call σ ε Unit} (skip : Bool) (hx : Infallible x) :
    Infallible (skipIf skip x) :=
  Infallible.ite (Infallible.pure ()) hx

/-- An error of a sequence whose rest cannot fail is an error of its first call. -/
theorem error_of_bind {x : Call σ ε α} {f : α → Call σ ε β} (hf : ∀ a, Infallible (f a))
    {s t : σ} {e : ε} (h : (x >>= f).run s = .returns (.error e) t) :
    x.run s = .returns (.error e) t := by
  rcases of_bind h with ⟨e', he, hsame⟩ | ⟨a, s', _, hrest⟩
  · cases hsame
    exact he
  · exact absurd hrest (hf a s' t e)

/-- Whatever a call returns, it leaves a state related to the one it started in. -/
def Moves (R : σ → σ → Prop) (x : Call σ ε α) : Prop := ∀ s r t, x.run s = .returns r t → R s t

section Moves

variable {R : σ → σ → Prop}

theorem Moves.update {g : σ → σ} (hg : ∀ s, R s (g s)) :
    Moves R (update g : Call σ ε Unit) := by
  intro s r t h
  cases h
  exact hg s

theorem Moves.bind (htrans : ∀ a b c, R a b → R b c → R a c) {x : Call σ ε α}
    {f : α → Call σ ε β} (hx : Moves R x) (hf : ∀ a, Moves R (f a)) : Moves R (x >>= f) := by
  intro s r t h
  rcases of_bind h with ⟨e, he, _⟩ | ⟨a, s', ha, hrest⟩
  · exact hx s (.error e) t he
  · exact htrans s s' t (hx s (.ok a) s' ha) (hf a s' r t hrest)

theorem Moves.ite {p : Prop} [Decidable p] {x y : Call σ ε α} (hx : Moves R x)
    (hy : Moves R y) : Moves R (if p then x else y) := by
  by_cases hp : p
  · rw [if_pos hp]
    exact hx
  · rw [if_neg hp]
    exact hy

variable (hrefl : ∀ s, R s s)

include hrefl

theorem Moves.pure (a : α) : Moves R (Pure.pure a : Call σ ε α) := by
  intro s r t h
  cases h
  exact hrefl s

theorem Moves.read : Moves R (read : Call σ ε σ) := by
  intro s r t h
  cases h
  exact hrefl s

theorem Moves.check (ok : Bool) (e : ε) : Moves R (check ok e) := by
  intro s r t h
  cases h
  exact hrefl s

theorem Moves.require (o : Option α) (e : ε) : Moves R (require o e) := by
  intro s r t h
  cases o with
  | none =>
    cases h
    exact hrefl s
  | some a =>
    cases h
    exact hrefl s

theorem Moves.unwrap (o : Option α) : Moves R (unwrap o : Call σ ε α) := by
  intro s r t h
  cases o with
  | none => cases h
  | some a =>
    cases h
    exact hrefl s

theorem Moves.skipIf {x : Call σ ε Unit} (skip : Bool) (hx : Moves R x) :
    Moves R (skipIf skip x) :=
  Moves.ite (Moves.pure hrefl ()) hx

end Moves

/-- The call returns a value or an error from a state. -/
def Returns (x : Call σ ε α) (s : σ) : Prop := ∃ r t, x.run s = .returns r t

theorem Returns.bind {x : Call σ ε α} {f : α → Call σ ε β} {s : σ} (hx : Returns x s)
    (hf : ∀ a t, x.run s = .returns (.ok a) t → Returns (f a) t) : Returns (x >>= f) s := by
  obtain ⟨r, t, hrun⟩ := hx
  cases r with
  | error e => exact ⟨.error e, t, run_bind_error hrun f⟩
  | ok a =>
    obtain ⟨r, u, hrest⟩ := hf a t hrun
    exact ⟨r, u, (run_bind_ok hrun f).trans hrest⟩

theorem Returns.read_bind {f : σ → Call σ ε β} {s : σ} (h : Returns (f s) s) :
    Returns (read >>= f) s := h

theorem Returns.update_bind {g : σ → σ} {f : Unit → Call σ ε β} {s : σ}
    (h : Returns (f ()) (g s)) : Returns (update g >>= f) s := h

theorem Returns.check_bind {ok : Bool} {e : ε} {f : Unit → Call σ ε β} {s : σ}
    (h : ok = true → Returns (f ()) s) : Returns (check ok e >>= f) s := by
  cases ok with
  | true => exact h rfl
  | false => exact ⟨.error e, s, rfl⟩

theorem Returns.require_bind {o : Option α} {e : ε} {f : α → Call σ ε β} {s : σ}
    (h : ∀ a, o = some a → Returns (f a) s) : Returns (require o e >>= f) s := by
  cases o with
  | none => exact ⟨.error e, s, rfl⟩
  | some a => exact h a rfl

theorem Returns.skipIf {skip : Bool} {x : Call σ ε Unit} {s : σ}
    (h : skip = false → Returns x s) : Returns (skipIf skip x) s := by
  cases skip with
  | true => exact ⟨.ok (), s, rfl⟩
  | false => exact h rfl

end Call

/-- A sequence that succeeds: both parts of it did. -/
theorem ok_of_bind {ε α β : Type} {x : Except ε α} {f : α → Except ε β} {b : β}
    (h : (x >>= f) = .ok b) : ∃ a, x = .ok a ∧ f a = .ok b := by
  cases x with
  | error e => cases h
  | ok a => exact ⟨a, rfl, h⟩

theorem ok_of_map {ε α β : Type} {x : Except ε α} {f : α → β} {b : β}
    (h : x.map f = .ok b) : ∃ a, x = .ok a ∧ f a = b := by
  cases x with
  | error e => cases h
  | ok a => exact ⟨a, rfl, Except.ok.inj h⟩

theorem ok_of_toOption {ε α : Type} {x : Except ε α} {a : α} (h : x.toOption = some a) :
    x = .ok a := by
  cases x with
  | error e => cases h
  | ok b => exact congrArg _ (Option.some.inj h)

/-- A condition that an error would have ended. -/
theorem ok_of_ite {ε α : Type} {p : Prop} [Decidable p] {e : ε} {x : Except ε α} {b : α}
    (h : (if p then .error e else x) = .ok b) : ¬p ∧ x = .ok b := by
  by_cases hp : p
  · rw [if_pos hp] at h
    cases h
  · rw [if_neg hp] at h
    exact ⟨hp, h⟩

end Cusco.Calls
