import Cusco.Infer
import Mathlib.Algebra.Ring.Int.Defs

/-!
The fair policy of the workload scheduler. Runnable entries wait in one queue; a flow, a
principal with a class, has at most one head among the available entries. Every selection
credits the heads with the weight of their class, which ages, up to eight times the weight,
and takes the head with the most credit. Credit is an exact integer here: the weights are
32-bit, so adding them to a 64-bit deficit never saturates.
-/

namespace Cusco.SchedulerPolicy

open Infer (Error)

def i64Max : ℤ := 2 ^ 63 - 1

inductive SchedulingClass
  | interactive
  | standard
  | batch
  deriving DecidableEq

structure SchedulerPolicyConfig where
  version : ℕ
  interactiveWeight : ℕ
  standardWeight : ℕ
  batchWeight : ℕ
  deficitRefill : ℕ
  prefillTokens : ℕ
  promotionRounds : ℕ
  diagnosticCapacity : ℕ
  deriving DecidableEq

namespace SchedulerPolicyConfig

/-- `SchedulerPolicyConfig::default`. -/
def default : SchedulerPolicyConfig := ⟨1, 4, 2, 1, 1, 32, 64, 1024⟩

/-- Some parameter is zero. -/
def hasZero (c : SchedulerPolicyConfig) : Bool :=
  c.interactiveWeight == 0 || c.standardWeight == 0 || c.batchWeight == 0 ||
  c.deficitRefill == 0 || c.prefillTokens == 0 || c.promotionRounds == 0 ||
  c.diagnosticCapacity == 0

def validate (c : SchedulerPolicyConfig) : Except Error SchedulerPolicyConfig :=
  if c.version ≠ 1 then
    .error (Infer.state s!"unsupported scheduler policy version {c.version}")
  else if c.hasZero then
    .error (Infer.state "scheduler policy parameters must be nonzero")
  else
    .ok c

end SchedulerPolicyConfig

structure FlowKey where
  principal : String
  schedulingClass : SchedulingClass
  deriving DecidableEq

structure PolicyEntry where
  id : ℕ
  flow : FlowKey
  admittedRound : ℕ
  deriving DecidableEq

structure Selection where
  id : ℕ
  queueAgeRounds : ℕ
  promotions : ℕ
  chargeScale : ℤ
  deriving DecidableEq

structure FairPolicy where
  config : SchedulerPolicyConfig
  runnable : List PolicyEntry
  deficits : Table FlowKey ℤ
  round : ℕ
  cursor : ℕ
  deriving DecidableEq

/-- The first available entry of a flow, with its place in the queue. -/
structure Head where
  index : ℕ
  entry : PolicyEntry
  schedulingClass : SchedulingClass
  promotions : ℕ
  credit : ℤ
  deriving DecidableEq

namespace FairPolicy

def new (config : SchedulerPolicyConfig) : FairPolicy := ⟨config, [], ∅, 0, 0⟩

def enqueue (id : ℕ) (flow : FlowKey) (admittedRound : ℕ) (p : FairPolicy) : FairPolicy :=
  { p with runnable := p.runnable ++ [⟨id, flow, admittedRound⟩] }

def promotionsOf (p : FairPolicy) (entry : PolicyEntry) : ℕ :=
  min ((p.round - entry.admittedRound) / p.config.promotionRounds) 2

/-- The class of an entry by its age. -/
def promoted : SchedulingClass → ℕ → SchedulingClass
  | .batch, 1 => .standard
  | .batch, 2 => .interactive
  | .standard, 0 => .standard
  | .standard, _ => .interactive
  | c, _ => c

def effectiveClass (p : FairPolicy) (entry : PolicyEntry) : SchedulingClass × ℕ :=
  (promoted entry.flow.schedulingClass (p.promotionsOf entry), p.promotionsOf entry)

def classWeight (p : FairPolicy) : SchedulingClass → ℕ
  | .interactive => p.config.interactiveWeight
  | .standard => p.config.standardWeight
  | .batch => p.config.batchWeight

def weight (p : FairPolicy) (c : SchedulingClass) : ℤ :=
  (min (p.classWeight c * p.config.deficitRefill) u32Max : ℕ)

def headOf (p : FairPolicy) (index : ℕ) (entry : PolicyEntry) : Head :=
  ⟨index, entry, (p.effectiveClass entry).1, (p.effectiveClass entry).2,
    p.weight (p.effectiveClass entry).1⟩

/-- The loop of `select` that collects the heads from the entries at `index` and after. -/
def collectHeads (p : FairPolicy) (available : ℕ → Bool) :
    List PolicyEntry → ℕ → List Head → List Head
  | [], _, heads => heads
  | entry :: rest, index, heads =>
    if heads.any (fun h => h.entry.flow = entry.flow) || !available entry.id then
      collectHeads p available rest (index + 1) heads
    else
      collectHeads p available rest (index + 1) (heads ++ [p.headOf index entry])

def heads (p : FairPolicy) (available : ℕ → Bool) : List Head :=
  collectHeads p available p.runnable 0 []

def deficit (deficits : Table FlowKey ℤ) (flow : FlowKey) : ℤ := (deficits.lookup flow).getD 0

/-- Credit one head. -/
def refill (deficits : Table FlowKey ℤ) (h : Head) : Table FlowKey ℤ :=
  deficits.insert h.entry.flow (min (deficit deficits h.entry.flow + h.credit) (h.credit * 8))

def refillAll (deficits : Table FlowKey ℤ) (heads : List Head) : Table FlowKey ℤ :=
  heads.foldl refill deficits

def totalWeight (heads : List Head) : ℤ := max (heads.map Head.credit).sum 1

def maxDeficit (deficits : Table FlowKey ℤ) (heads : List Head) : ℤ :=
  ((heads.map (fun h => deficit deficits h.entry.flow)).max?).getD 0

def eligible (deficits : Table FlowKey ℤ) (heads : List Head) : List Head :=
  heads.filter (fun h => deficit deficits h.entry.flow = maxDeficit deficits heads)

/-- The selection of a head, which leaves the queue. -/
def take (p : FairPolicy) (deficits : Table FlowKey ℤ) (heads : List Head) (selected : Head) :
    Selection × FairPolicy :=
  let round := min (p.round + 1) u64Max
  (⟨selected.entry.id, round - selected.entry.admittedRound, selected.promotions,
      totalWeight heads⟩,
    { p with
      runnable := p.runnable.eraseIdx selected.index
      deficits := deficits
      round := round
      cursor := (p.cursor + 1) % (eligible deficits heads).length })

def select (p : FairPolicy) (available : ℕ → Bool) : Option (Selection × FairPolicy) :=
  let heads := p.heads available
  let deficits := refillAll p.deficits heads
  let eligible := eligible deficits heads
  (eligible[p.cursor % eligible.length]?).map (take p deficits heads)

/-- The charge of a quantum, by its tokens and the weight present at its selection. -/
def chargeOf (tokens : ℕ) (scale : ℤ) : ℤ := min ((max tokens 1 : ℕ) * scale) i64Max

/-- The source subtracts `i64`s without a check, which wraps where a debt would pass `i64::MIN`;
here a debt may grow without end. -/
def charge (flow : FlowKey) (tokens : ℕ) (scale : ℤ) (p : FairPolicy) : FairPolicy :=
  { p with deficits :=
      p.deficits.insert flow (deficit p.deficits flow - chargeOf tokens scale) }

/-- Forget the credit of a flow without entries and jobs. -/
def clearIfIdle (flow : FlowKey) (jobFlows : List FlowKey) (p : FairPolicy) : FairPolicy :=
  if !p.runnable.any (fun entry => entry.flow = flow) && !jobFlows.any (fun f => f = flow) then
    { p with deficits := p.deficits.erase flow }
  else
    p

def remove (id : ℕ) (p : FairPolicy) : Bool × FairPolicy :=
  let runnable := p.runnable.filter (fun entry => entry.id ≠ id)
  (runnable.length ≠ p.runnable.length, { p with runnable := runnable })

end FairPolicy

end Cusco.SchedulerPolicy
