import Cusco.Runs

/-!
The pre-queue gate. A semaphore holds the free permits; lowering the limit forgets free permits
and leaves the rest to be retired when permits are dropped. A step is a section of the gate's
mutex or an operation on the semaphore alone. A permit comes back past the retirements where its
drop has left the mutex before a lower limit is set, and where it was handed to a waiting caller
that then goes away: it is free again although another one is still to be retired for it.
-/

namespace Cusco.PrequeueGate

open Runs

/-- The semaphore of `tokio`, by its counts: the free permits, the queued acquires, and the
acquires that were handed a permit and have not been polled since. -/
structure Semaphore where
  permits : ℕ
  waiting : ℕ
  assigned : ℕ
  deriving DecidableEq

namespace Semaphore

def new (permits : ℕ) : Semaphore := ⟨permits, 0, 0⟩

/-- `try_acquire_owned`. -/
def tryAcquire (s : Semaphore) : Option Semaphore :=
  if s.permits = 0 then none else some { s with permits := s.permits - 1 }

/-- `forget_permits`: the number forgotten is at most the number that is free. -/
def forgetPermits (s : Semaphore) (n : ℕ) : Semaphore × ℕ :=
  ({ s with permits := s.permits - n }, min s.permits n)

/-- `add_permits`, also for a permit that is dropped: the queued acquires are served first. -/
def addPermits (s : Semaphore) (n : ℕ) : Semaphore :=
  ⟨s.permits + (n - min n s.waiting), s.waiting - min n s.waiting,
    s.assigned + min n s.waiting⟩

/-- A first poll of `acquire_owned` that finds no permit. -/
def enqueue (s : Semaphore) : Semaphore := { s with waiting := s.waiting + 1 }

/-- A queued acquire is dropped. -/
def dequeue (s : Semaphore) : Semaphore := { s with waiting := s.waiting - 1 }

/-- An acquire that was assigned a permit is polled. -/
def complete (s : Semaphore) : Semaphore := { s with assigned := s.assigned - 1 }

/-- An acquire that was assigned a permit is dropped, which gives the permit back. -/
def giveBack (s : Semaphore) : Semaphore := s.complete.addPermits 1

end Semaphore

structure PrequeueState where
  limit : ℕ
  retireOnDrop : ℕ
  deriving DecidableEq

structure PrequeueGate where
  semaphore : Semaphore
  state : PrequeueState
  deriving DecidableEq

namespace PrequeueGate

def new (limit : ℕ) : PrequeueGate := ⟨.new limit, limit, 0⟩

def setLimit (g : PrequeueGate) (limit : ℕ) : PrequeueGate :=
  if limit < g.state.limit then
    let reduction := g.state.limit - limit
    let (semaphore, retired) := g.semaphore.forgetPermits reduction
    ⟨semaphore, limit, g.state.retireOnDrop + (reduction - retired)⟩
  else
    let increase := limit - g.state.limit
    let cancelledRetirements := min increase g.state.retireOnDrop
    ⟨g.semaphore.addPermits (increase - cancelledRetirements), limit,
      g.state.retireOnDrop - cancelledRetirements⟩

/-- The section of `PrequeuePermit::drop`, and whether the permit is to be released. -/
def drop (g : PrequeueGate) : PrequeueGate × Bool :=
  if g.state.retireOnDrop = 0 then (g, true)
  else ({ g with state := { g.state with retireOnDrop := g.state.retireOnDrop - 1 } }, false)

def addPermits (g : PrequeueGate) (n : ℕ) : PrequeueGate :=
  { g with semaphore := g.semaphore.addPermits n }

end PrequeueGate

/-- The gate, the permits that are held and those that are about to be released. -/
structure World where
  gate : PrequeueGate
  held : ℕ
  returning : ℕ
  deriving DecidableEq

namespace World

def new (limit : ℕ) : World := ⟨.new limit, 0, 0⟩

def withSemaphore (w : World) (s : Semaphore) : World :=
  { w with gate := { w.gate with semaphore := s } }

def outstanding (w : World) : ℕ := w.held + w.returning + w.gate.semaphore.assigned

end World

/-- A caller waits from its `acquire` until it polls the permit that it was assigned; it may
leave the queue before, or abandon the permit. -/
inductive Act
  | acquire
  | tryAcquire
  | poll
  | leave
  | abandon
  | drop
  | release
  | setLimit (limit : ℕ)
  deriving DecidableEq

def act (w : World) : Act → Option World
  | .acquire =>
    match w.gate.semaphore.tryAcquire with
    | none => some (w.withSemaphore w.gate.semaphore.enqueue)
    | some semaphore => some { w.withSemaphore semaphore with held := w.held + 1 }
  | .tryAcquire => w.gate.semaphore.tryAcquire.map (fun semaphore =>
      { w.withSemaphore semaphore with held := w.held + 1 })
  | .poll =>
    if w.gate.semaphore.assigned = 0 then none
    else some { w.withSemaphore w.gate.semaphore.complete with held := w.held + 1 }
  | .leave =>
    if w.gate.semaphore.waiting = 0 then none
    else some (w.withSemaphore w.gate.semaphore.dequeue)
  | .abandon =>
    if w.gate.semaphore.assigned = 0 then none
    else some (w.withSemaphore w.gate.semaphore.giveBack)
  | .drop =>
    if w.held = 0 then none
    else
      let (gate, released) := w.gate.drop
      some ⟨gate, w.held - 1, if released then w.returning + 1 else w.returning⟩
  | .release =>
    if w.returning = 0 then none
    else some { w with gate := w.gate.addPermits 1, returning := w.returning - 1 }
  | .setLimit limit => some { w with gate := w.gate.setLimit limit }

def Step (w : World) (a : Act) (w' : World) : Prop := act w a = some w'

/-- A limit that leaves permits to be retired is not set while a permit is about to be released
or is assigned to a caller that has not been polled. -/
def Settled (w : World) : Act → Prop
  | .setLimit limit => (w.returning = 0 ∧ w.gate.semaphore.assigned = 0) ∨
      w.gate.state.limit ≤ limit + w.gate.semaphore.permits
  | _ => True

instance (w : World) (a : Act) : Decidable (Settled w a) :=
  match a with
  | .setLimit _ => inferInstanceAs (Decidable (_ ∨ _))
  | .acquire | .tryAcquire | .poll | .leave | .abandon | .drop | .release =>
    inferInstanceAs (Decidable True)

/-- While permits are to be retired, none is free and none can become free. -/
def Retiring (w : World) : Prop :=
  w.gate.state.retireOnDrop = 0 ∨ (w.gate.semaphore.permits = 0 ∧
    w.gate.semaphore.assigned = 0 ∧ w.returning = 0)

section Steps

variable {w w' : World}

theorem addPermits_counts (s : Semaphore) (n : ℕ) :
    (s.addPermits n).permits + (s.addPermits n).assigned = s.permits + s.assigned + n ∧
      (s.addPermits n).waiting + (s.addPermits n).assigned = s.waiting + s.assigned ∧
      s.assigned ≤ (s.addPermits n).assigned ∧ s.permits ≤ (s.addPermits n).permits := by
  unfold Semaphore.addPermits
  simp only
  omega

/-- What the steps do to the counts. -/
inductive Effect (w : World) : Act → World → Prop
  | enqueue : Effect w .acquire (w.withSemaphore w.gate.semaphore.enqueue)
  | dequeue (hwaiting : 0 < w.gate.semaphore.waiting) :
      Effect w .leave (w.withSemaphore w.gate.semaphore.dequeue)
  | take (a : Act) (hfree : 0 < w.gate.semaphore.permits) :
      Effect w a { w.withSemaphore { w.gate.semaphore with
        permits := w.gate.semaphore.permits - 1 } with held := w.held + 1 }
  | poll (hassigned : 0 < w.gate.semaphore.assigned) :
      Effect w .poll { w.withSemaphore w.gate.semaphore.complete with held := w.held + 1 }
  | abandon (hassigned : 0 < w.gate.semaphore.assigned) :
      Effect w .abandon (w.withSemaphore w.gate.semaphore.giveBack)
  | drop (hheld : 0 < w.held) (hzero : w.gate.state.retireOnDrop = 0) :
      Effect w .drop ⟨w.gate, w.held - 1, w.returning + 1⟩
  | retire (hheld : 0 < w.held) (hretire : 0 < w.gate.state.retireOnDrop) :
      Effect w .drop ⟨⟨w.gate.semaphore, w.gate.state.limit, w.gate.state.retireOnDrop - 1⟩,
        w.held - 1, w.returning⟩
  | release (hreturning : 0 < w.returning) :
      Effect w .release { w with gate := w.gate.addPermits 1, returning := w.returning - 1 }
  | setLimit (limit : ℕ) :
      Effect w (.setLimit limit) { w with gate := w.gate.setLimit limit }

theorem effect_of_step {a : Act} (h : Step w a w') : Effect w a w' := by
  cases a with
  | acquire =>
    unfold Step act Semaphore.tryAcquire at h
    by_cases hzero : w.gate.semaphore.permits = 0
    · simp only [if_pos hzero, Option.some.injEq] at h
      rw [← h]
      exact .enqueue
    · simp only [if_neg hzero, Option.some.injEq] at h
      rw [← h]
      exact .take _ (Nat.pos_of_ne_zero hzero)
  | tryAcquire =>
    unfold Step act Semaphore.tryAcquire at h
    by_cases hzero : w.gate.semaphore.permits = 0
    · simp [hzero] at h
    · simp only [if_neg hzero, Option.map_some, Option.some.injEq] at h
      rw [← h]
      exact .take _ (Nat.pos_of_ne_zero hzero)
  | poll =>
    obtain ⟨hassigned, h⟩ := Option.ite_none_left_eq_some.mp h
    cases h
    exact .poll (Nat.pos_of_ne_zero hassigned)
  | leave =>
    obtain ⟨hwaiting, h⟩ := Option.ite_none_left_eq_some.mp h
    cases h
    exact .dequeue (Nat.pos_of_ne_zero hwaiting)
  | abandon =>
    obtain ⟨hassigned, h⟩ := Option.ite_none_left_eq_some.mp h
    cases h
    exact .abandon (Nat.pos_of_ne_zero hassigned)
  | drop =>
    unfold Step act PrequeueGate.drop at h
    obtain ⟨hheld, h⟩ := Option.ite_none_left_eq_some.mp h
    by_cases hzero : w.gate.state.retireOnDrop = 0
    · simp only [if_pos hzero, Option.some.injEq] at h
      rw [← h]
      exact .drop (Nat.pos_of_ne_zero hheld) hzero
    · simp only [if_neg hzero, Option.some.injEq] at h
      rw [← h]
      exact .retire (Nat.pos_of_ne_zero hheld) (Nat.pos_of_ne_zero hzero)
  | release =>
    obtain ⟨hreturning, h⟩ := Option.ite_none_left_eq_some.mp h
    cases h
    exact .release (Nat.pos_of_ne_zero hreturning)
  | setLimit limit =>
    cases h
    exact .setLimit limit

/-- What a new limit does: the permits it takes away are forgotten or left to be retired, and
those it adds cancel retirements first. -/
theorem setLimit_counts (g : PrequeueGate) (limit : ℕ) :
    (g.setLimit limit).state.limit = limit ∧
      (g.setLimit limit).semaphore.permits + (g.setLimit limit).semaphore.assigned +
          g.state.limit + g.state.retireOnDrop =
        g.semaphore.permits + g.semaphore.assigned + limit +
          (g.setLimit limit).state.retireOnDrop ∧
      ((g.setLimit limit).state.retireOnDrop = 0 ∨
        ((g.setLimit limit).semaphore.assigned = g.semaphore.assigned ∧
          (g.setLimit limit).semaphore.waiting = g.semaphore.waiting ∧
          (0 < g.state.retireOnDrop → g.semaphore.permits = 0 →
            (g.setLimit limit).semaphore.permits = 0))) ∧
      (g.state.limit ≤ limit + g.semaphore.permits →
        (g.setLimit limit).state.retireOnDrop ≤ g.state.retireOnDrop) ∧
      (limit + g.semaphore.permits < g.state.limit →
        (g.setLimit limit).semaphore = { g.semaphore with permits := 0 } ∧
          0 < (g.setLimit limit).state.retireOnDrop) := by
  unfold PrequeueGate.setLimit Semaphore.forgetPermits
  by_cases hlower : limit < g.state.limit
  · simp only [if_pos hlower, Semaphore.mk.injEq, and_true, true_and]
    refine ⟨?_, ?_, ?_, ?_⟩ <;> omega
  · simp only [if_neg hlower, true_and]
    have hcounts := addPermits_counts g.semaphore
      (limit - g.state.limit - min (limit - g.state.limit) g.state.retireOnDrop)
    refine ⟨?_, ?_, ?_, ?_⟩ <;> omega

theorem retiring_step (a : Act) (h : Retiring w) (hsettled : Settled w a) (hstep : Step w a w') :
    Retiring w' := by
  unfold Retiring at h ⊢
  cases effect_of_step hstep with
  | enqueue => exact h
  | dequeue hwaiting => exact h
  | take _ hfree => exact Or.inl (h.resolve_right (fun hnone => by omega))
  | poll hassigned => exact Or.inl (h.resolve_right (fun hnone => by omega))
  | abandon hassigned => exact Or.inl (h.resolve_right (fun hnone => by omega))
  | drop hheld hzero => exact Or.inl hzero
  | retire hheld hretire => exact Or.inr (h.resolve_left (Nat.pos_iff_ne_zero.mp hretire))
  | release hreturning => exact Or.inl (h.resolve_right (fun hnone => by omega))
  | setLimit limit =>
    obtain ⟨-, -, hzero, hless, hfull⟩ := setLimit_counts w.gate limit
    simp only [Settled] at hsettled
    simp only
    rcases hzero with hzero | ⟨hassigned, -, hpermits⟩
    · exact Or.inl hzero
    · rcases hsettled with ⟨hreturning, hnone⟩ | hroom
      · by_cases hlower : limit + w.gate.semaphore.permits < w.gate.state.limit
        · exact Or.inr ⟨by rw [(hfull hlower).1], by omega, hreturning⟩
        · have := hless (by omega)
          omega
      · have := hless hroom
        omega

end Steps

end Cusco.PrequeueGate
