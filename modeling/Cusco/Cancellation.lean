import Cusco.Admission
import Cusco.Runs

/-!
Cancellation of requests that share one executor. A canceller wins the state of a
request's control, then clones the abort closure out of its mutex, then calls it,
and any other thread may act between these. A session step is a program of the
atomic operations its source performs in order; the engine lock serializes the
steps. The closure sets the cancel flag of the executor, which every decode
exchanges for false, at its start and whenever the backend polls it.
-/

namespace Cusco.Cancellation

open Admission (ControlState Error)
open Runs

/-- An atomic operation of a session step. -/
inductive Op
  /-- `control.check()?` -/
  | check
  /-- `self.state.lock()` -/
  | lock
  /-- `executor.reset_cancellation()` -/
  | reset
  /-- `register_abort` stores the closure. -/
  | store
  /-- `register_abort` calls the closure if the control no longer runs. -/
  | recheck
  /-- Work that may fail for reasons of its own. -/
  | attempt
  /-- `executor.decode` exchanges the flag. -/
  | decode
  /-- The backend evaluates the batch and may poll the flag. -/
  | evaluate
  /-- The registration is dropped. -/
  | drop
  /-- The lock is released. -/
  | unlock
  deriving DecidableEq

/-- The steps of a `MappedSession` by their stage; a prefill step whose tokens are
all evaluated only builds the sampler, and the last decode step does not decode. -/
inductive StepKind
  | preparation
  | prefill
  | sampler
  | decode (evaluates : Bool)
  | publication
  | release
  deriving DecidableEq

namespace StepKind

/-- Registration and the first check under it. -/
def registration : List Op := [.reset, .store, .recheck]

/-- A decode and what follows it to the end of the step. -/
def evaluation : List Op := [.decode, .evaluate, .check, .attempt, .drop, .unlock]

def program : StepKind → List Op
  | preparation =>
    [.check, .lock] ++ registration ++ [.attempt, .check, .attempt, .drop, .unlock]
  | prefill => [.lock, .check] ++ registration ++ [.check, .attempt] ++ evaluation
  | sampler => [.lock, .attempt, .unlock]
  | decode true =>
    [.lock, .check] ++ registration ++ [.check, .attempt, .check, .attempt] ++ evaluation
  | decode false =>
    [.lock, .check] ++ registration ++ [.check, .attempt, .check, .attempt, .drop, .unlock]
  | publication => [.check, .lock, .attempt, .unlock]
  | release => [.lock, .attempt, .unlock]

end StepKind

/-- What is still done when the step returns early: a registration is dropped
before the lock, and only what the step has taken is given back. -/
def unwind (rest : List Op) : List Op :=
  if .lock ∈ rest then []
  else if .store ∈ rest ∨ .drop ∉ rest then [.unlock]
  else [.drop, .unlock]

/-- A call of `cancel` or `expire` that won the control of its request. -/
inductive Canceller
  | idle
  | won
  | holding
  | returned
  deriving DecidableEq

inductive DecodeOutcome
  | ok
  | cancelled
  | backend
  deriving DecidableEq

/-- The requests, the executor's flag and the engine lock. `decoded` and `failed`
are the results of the current step of a request. -/
structure State (ρ : Type) where
  control : ρ → ControlState
  registered : ρ → Bool
  canceller : ρ → Canceller
  program : ρ → List Op
  decoded : ρ → Option DecodeOutcome
  failed : ρ → Option Error
  owner : Option ρ
  flag : Bool

inductive Action (ρ : Type)
  | cancel (r : ρ)
  | expire (r : ρ)
  | complete (r : ρ)
  | clone (r : ρ)
  | call (r : ρ)
  | enter (r : ρ) (kind : StepKind)
  | advance (r : ρ) (fails : Bool)
  | poll (r : ρ)

variable {ρ : Type} [DecidableEq ρ]

namespace State

/-- No request has started. -/
def initial : State ρ where
  control := fun _ => .running
  registered := fun _ => false
  canceller := fun _ => .idle
  program := fun _ => []
  decoded := fun _ => none
  failed := fun _ => none
  owner := none
  flag := false

/-- `compare_exchange` from running, followed by `abort` only if it succeeds. -/
def win (s : State ρ) (r : ρ) (f : ControlState → ControlState) : State ρ :=
  if s.control r = .running then { s with
    control := Function.update s.control r (f .running)
    canceller := Function.update s.canceller r .won }
  else s

/-- `self.abort.lock().clone()`. -/
def cloneAbort (s : State ρ) (r : ρ) : Option (State ρ) :=
  match s.canceller r with
  | .won => some { s with
      canceller := Function.update s.canceller r
        (if s.registered r then .holding else .returned) }
  | _ => none

/-- The cloned closure is called. -/
def callAbort (s : State ρ) (r : ρ) : Option (State ρ) :=
  match s.canceller r with
  | .holding => some { s with
      canceller := Function.update s.canceller r .returned
      flag := true }
  | _ => none

/-- A session step of `r` begins. -/
def enter (s : State ρ) (r : ρ) (kind : StepKind) : Option (State ρ) :=
  if s.program r = [] then some { s with
    program := Function.update s.program r kind.program
    decoded := Function.update s.decoded r none
    failed := Function.update s.failed r none }
  else none

/-- The step of `r` goes on with `rest`. -/
def goOn (s : State ρ) (r : ρ) (rest : List Op) : State ρ :=
  { s with program := Function.update s.program r rest }

/-- The step of `r` returns an error. -/
def fail (s : State ρ) (r : ρ) (e : Error) : State ρ :=
  { s with
    program := Function.update s.program r (unwind (s.program r))
    failed := Function.update s.failed r (some e) }

/-- A decode of `r` returns. -/
def returnDecode (s : State ρ) (r : ρ) (outcome : DecodeOutcome) : State ρ :=
  { s with decoded := Function.update s.decoded r (some outcome) }

/-- The flag was found set and is exchanged for false. -/
def decodeCancelled (s : State ρ) (r : ρ) : State ρ :=
  ({ s with flag := false }.returnDecode r .cancelled).fail r (.state "operation cancelled")

/-- One operation of the step of `r`. -/
def perform (s : State ρ) (r : ρ) (fails : Bool) (rest : List Op) : Op → Option (State ρ)
  | .check =>
    match (s.control r).check with
    | .ok () => some (s.goOn r rest)
    | .error e => some (s.fail r e)
  | .lock => if s.owner = none then some { s.goOn r rest with owner := some r } else none
  | .reset => some { s.goOn r rest with flag := false }
  | .store => some { s.goOn r rest with registered := Function.update s.registered r true }
  | .recheck =>
    match (s.control r).check with
    | .ok () => some (s.goOn r rest)
    | .error _ => some { s.goOn r rest with flag := true }
  | .attempt => some (if fails then s.fail r (.state "operation failed") else s.goOn r rest)
  | .decode => some (if s.flag then s.decodeCancelled r else s.goOn r rest)
  | .evaluate =>
    some (if fails then (s.returnDecode r .backend).fail r (.state "backend failed")
      else (s.returnDecode r .ok).goOn r rest)
  | .drop => some { s.goOn r rest with registered := Function.update s.registered r false }
  | .unlock => some { s.goOn r rest with owner := none }

def advance (s : State ρ) (r : ρ) (fails : Bool) : Option (State ρ) :=
  match s.program r with
  | [] => none
  | op :: rest => s.perform r fails rest op

/-- The abort callback of the backend. -/
def poll (s : State ρ) (r : ρ) : Option (State ρ) :=
  match s.program r with
  | .evaluate :: _ => some (if s.flag then s.decodeCancelled r else s)
  | _ => none

def act (s : State ρ) : Action ρ → Option (State ρ)
  | .cancel r => some (s.win r ControlState.cancel)
  | .expire r => some (s.win r ControlState.expire)
  | .complete r => some { s with
      control := Function.update s.control r (s.control r).finish }
  | .clone r => s.cloneAbort r
  | .call r => s.callAbort r
  | .enter r kind => s.enter r kind
  | .advance r fails => s.advance r fails
  | .poll r => s.poll r

end State

def Step (s : State ρ) (a : Action ρ) (s' : State ρ) : Prop := s.act a = some s'

/-- A reset comes before the next decode. -/
def resetsFirst : List Op → Bool
  | [] => true
  | .reset :: _ => true
  | .decode :: _ => false
  | .evaluate :: _ => false
  | _ :: rest => resetsFirst rest

/-- A point of a step. -/
def Point (p : List Op) : Prop := ∃ kind : StepKind, p <:+ kind.program

/-- The step has taken the lock and not yet released it. -/
def Inside (p : List Op) : Prop := p ≠ [] ∧ .lock ∉ p

instance (p : List Op) : Decidable (Inside p) := inferInstanceAs (Decidable (_ ∧ _))

theorem point_program (kind : StepKind) : Point kind.program := ⟨kind, List.suffix_refl _⟩

theorem point_nil : Point [] := ⟨.release, List.nil_suffix⟩

theorem point_tail (op : Op) (rest : List Op) (h : Point (op :: rest)) : Point rest := by
  obtain ⟨kind, hkind⟩ := h
  exact ⟨kind, (List.suffix_cons op rest).trans hkind⟩

theorem point_unwind (p : List Op) : Point (unwind p) := by
  unfold unwind
  split
  · exact point_nil
  · split
    · exact ⟨.release, by decide⟩
    · exact ⟨.prefill, by decide⟩

/-- A fact about the points of every step, by going through the steps. -/
theorem of_point (fact : List Op → Prop) (p : List Op) (hp : Point p)
    (h : ∀ kind : StepKind, ∀ q ∈ kind.program.tails, fact q) : fact p := by
  obtain ⟨kind, hkind⟩ := hp
  exact h kind p ((List.mem_tails _ _).mpr hkind)

/-- Where a step is inside, by the operation it is at. -/
def insideAfter (p : List Op) : Bool :=
  match p with
  | [] => true
  | .lock :: rest => decide (Inside rest) && resetsFirst rest
  | .unlock :: rest => decide (rest = []) && decide (Inside p)
  | _ :: rest => decide (Inside rest ↔ Inside p)

theorem insideAfter_of_point (p : List Op) (hp : Point p) : insideAfter p = true := by
  refine of_point (fun q => insideAfter q = true) p hp ?_
  intro kind
  cases kind with
  | decode evaluates => cases evaluates <;> decide
  | _ => decide

theorem not_inside_program (kind : StepKind) : ¬ Inside kind.program := by
  cases kind with
  | decode evaluates => cases evaluates <;> decide
  | _ => decide

theorem inside_unwind_iff (p : List Op) (hne : p ≠ []) :
    Inside (unwind p) ↔ Inside p := by
  unfold unwind Inside
  by_cases hlock : .lock ∈ p
  · simp [hlock]
  · rw [if_neg hlock]
    split
    · simp [hlock, hne]
    · simp [hlock, hne]

/-- The way out of a step never decodes. -/
theorem resetsFirst_unwind (p : List Op) : resetsFirst (unwind p) = true := by
  unfold unwind
  split
  · rfl
  · split <;> rfl

end Cusco.Cancellation
