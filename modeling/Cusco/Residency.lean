import Cusco.Admission
import Cusco.Runs

/-!
Residency of models. Every section under the residency lock is one step, and so is
every atomic update outside it; native loads, estimates and engine calls run between
steps, with any outcome. A `ModelRef` stands for an `Arc` of a resident model: two
loads of one key make different references. The entries are visited in any order
that the hash map may choose, so the sorted idle list comes with the step.
-/

namespace Cusco.Residency

open Admission (ControlState Error)
open Runs

/-- The fields of `ResidencyConfig` that admission reads. -/
structure Config where
  deviceBytes : ℕ
  hostBytes : ℕ
  storageBytes : ℕ
  contextReserveBytes : ℕ
  gpuLayers : ℤ
  requireCompetent : Bool
  deriving DecidableEq

structure Point where
  modelBytes : ℕ
  contextBytes : ℕ
  deviceBytes : ℕ
  hostBytes : ℕ
  competent : Bool
  deriving DecidableEq

structure Record where
  id : String
  epoch : ℕ
  sizeBytes : ℕ
  deriving DecidableEq

abbrev Key := String × ℕ

def Record.key (r : Record) : Key := (r.id, r.epoch)

abbrev ModelRef := ℕ

structure ResidentModel where
  record : Record
  point : Point
  active : ℕ
  sessions : ℕ
  retiring : Bool
  contextResident : Bool
  lastUsed : ℕ

/-- What a call or a session returned early with. -/
inductive Failure
  | stopped (error : Error)
  | estimate (error : Error)
  | exhausted
  | demotion (error : Error)
  | loader (error : Error)
  | incompetent
  | oversized
  | profile (error : Error)
  | disappeared
  | engine (error : Error)
  deriving DecidableEq

/-- Where a call of `prepare_model` or `start_session`, or the session it made, stands.
A lease is held from `starting` to `counted` or `refused`, and while `stepping`. -/
inductive Stage
  | lookup
  | estimating
  | planning (estimate : Point)
  | loading (estimate : Point) (victims : List ModelRef)
  | publishing (point : Point) (victims : List ModelRef)
  | loaded (m : ModelRef)
  | starting (m : ModelRef)
  | counted (m : ModelRef)
  | refused (m : ModelRef) (error : Error)
  | suspended (m : ModelRef) (last : Option Failure)
  | stepping (m : ModelRef)
  | returning (m : ModelRef)
  | failing (m : ModelRef) (error : Error)
  | dropping (m : ModelRef)
  | done
  | failed (failure : Failure)
  deriving DecidableEq

/-- A call with its model record; only `start_session` has a request control. -/
structure Agent where
  record : Record
  starts : Bool
  stage : Stage
  deriving DecidableEq

structure State where
  entries : Table Key ModelRef
  model : ModelRef → ResidentModel
  fresh : ModelRef
  clock : ℕ
  agents : List Agent

/-- What `demote_inactive` returns. -/
inductive Demotion
  | failed (error : Error)
  | count (n : ℕ)

inductive Action
  | prepare (record : Record)
  | start (record : Record)
  | find (i : ℕ) (control : ControlState)
  | estimate (i : ℕ) (profile : Except Error (Option Point)) (file : Except Error ℕ)
  | plan (i : ℕ) (idle : List ModelRef) (demote : ModelRef → Demotion)
  | load (i : ℕ) (loaded : Except Error Point) (control : ControlState)
  | publish (i : ℕ) (profile : Option Error)
  | acquire (i : ℕ) (idle : List ModelRef) (demote : ModelRef → Demotion)
  | begin (i : ℕ) (engine : Option Error)
  | giveBack (i : ℕ)
  | release (i : ℕ)
  | drop (i : ℕ)
  | leave (i : ℕ)
  | commit (record : Record)
  | retire (id : String) (epoch : ℕ)

/-- Whether a point fits with the retained ones. -/
def fitsWith (config : Config) (point : Point) (retained : List Point) : Bool :=
  decide (retained.foldl (fun sum p => saturatingAdd sum p.deviceBytes) point.deviceBytes ≤
      config.deviceBytes) &&
    decide (retained.foldl (fun sum p => saturatingAdd sum p.hostBytes) point.hostBytes ≤
      config.hostBytes) &&
    decide (retained.foldl (fun sum p => saturatingAdd sum p.modelBytes) point.modelBytes ≤
      config.storageBytes)

/-- A context that is not resident counts as storage. -/
def effectivePoint (m : ResidentModel) : Point :=
  if m.contextResident then m.point
  else if m.point.deviceBytes = 0 then { m.point with
    hostBytes := m.point.hostBytes - m.point.contextBytes
    modelBytes := saturatingAdd m.point.modelBytes m.point.contextBytes }
  else { m.point with
    deviceBytes := m.point.deviceBytes - m.point.contextBytes
    modelBytes := saturatingAdd m.point.modelBytes m.point.contextBytes }

/-- The size of the model: recorded, or else what the file system answers. -/
def declaredBytes (record : Record) (file : Except Error ℕ) : Except Error ℕ :=
  if record.sizeBytes = 0 then file else .ok record.sizeBytes

/-- The point assumed of a model that was never measured. -/
def bootstrapPoint (config : Config) (modelBytes : ℕ) : Point :=
  let bytes := saturatingAdd modelBytes config.contextReserveBytes
  { modelBytes := modelBytes
    contextBytes := config.contextReserveBytes
    deviceBytes := if config.gpuLayers > 0 then bytes else 0
    hostBytes := if config.gpuLayers > 0 then 0 else bytes
    competent := !config.requireCompetent || decide (config.gpuLayers > 0) }

/-- The part of `estimate` after a lookup that found no profile. -/
def bootstrapEstimate (config : Config) (record : Record) (file : Except Error ℕ) :
    Except Error Point := do
  let modelBytes ← declaredBytes record file
  if modelBytes ≤ config.storageBytes then .ok (bootstrapPoint config modelBytes)
  else .error (.state "model exceeds the configured storage residency budget")

/-- The admission estimate: a cached profile on CPU, else the size of the model. -/
def estimate (config : Config) (record : Record) (profile : Except Error (Option Point))
    (file : Except Error ℕ) : Except Error Point := do
  let cached ← if config.gpuLayers > 0 then pure none else profile
  match cached with
  | some point => return point
  | none => bootstrapEstimate config record file

/-- The loaded point, never below the estimate. -/
def Point.measured (estimate point : Point) : Point where
  modelBytes := max point.modelBytes estimate.modelBytes
  contextBytes := max point.contextBytes estimate.contextBytes
  deviceBytes := max point.deviceBytes estimate.deviceBytes
  hostBytes := max point.hostBytes estimate.hostBytes
  competent := point.competent

def Point.withHeadroom (point : Point) : Point :=
  { point with deviceBytes := saturatingAdd point.deviceBytes (point.deviceBytes / 20) }

namespace State

def initial : State where
  entries := ∅
  model := fun _ =>
    { record := ⟨"", 0, 0⟩, point := ⟨0, 0, 0, 0, false⟩, active := 0, sessions := 0,
      retiring := false, contextResident := false, lastUsed := 0 }
  fresh := 0
  clock := 0
  agents := []

def key (s : State) (m : ModelRef) : Key := (s.model m).record.key

def point (s : State) (m : ModelRef) : Point := effectivePoint (s.model m)

def modify (s : State) (m : ModelRef) (f : ResidentModel → ResidentModel) : State :=
  { s with model := Function.update s.model m (f (s.model m)) }

def tick (s : State) : ℕ := (s.clock + 1) % 2 ^ 64

/-- A use of the model at the next clock. -/
def touch (s : State) (m : ModelRef) : State :=
  { s.modify m (fun r => { r with lastUsed := s.tick }) with clock := s.tick }

def unused (s : State) (m : ModelRef) : Prop :=
  (s.model m).active = 0 ∧ (s.model m).sessions = 0

instance (s : State) (m : ModelRef) : Decidable (s.unused m) :=
  inferInstanceAs (Decidable (_ ∧ _))

/-- The entries of `values` that a filter keeps, sorted by last use and epoch. -/
def SortedIdle (s : State) (keep : ModelRef → Prop) [DecidablePred keep]
    (idle : List ModelRef) : Prop :=
  idle.Perm (s.entries.values.filter (fun m => decide (keep m))) ∧
    idle.Pairwise (fun m n => (s.model m).lastUsed < (s.model n).lastUsed ∨
      (s.model m).lastUsed = (s.model n).lastUsed ∧
        (s.model m).record.epoch ≤ (s.model n).record.epoch)

instance (s : State) (keep : ModelRef → Prop) [DecidablePred keep] (idle : List ModelRef) :
    Decidable (s.SortedIdle keep idle) :=
  inferInstanceAs (Decidable (_ ∧ _))

def spill (s : State) (m : ModelRef) : State :=
  s.modify m (fun r => { r with contextResident := false })

end State

inductive SpillExit
  | fits
  | exhausted
  | refused
  | failed (error : Error)
  deriving DecidableEq

/-- Contexts of idle entries are demoted in order until the check passes. An entry
passed over is not resident and stays so, so each is looked at once. -/
def spillIdle (fits : State → Bool) (demote : ModelRef → Demotion) (s : State) :
    List ModelRef → SpillExit × State
  | [] => if fits s then (.fits, s) else (.exhausted, s)
  | m :: rest =>
    if fits s then (.fits, s)
    else if (s.model m).contextResident then
      match demote m with
      | .failed error => (.failed error, s)
      | .count 0 => (.refused, s)
      | .count _ => spillIdle fits demote (s.spill m) rest
    else spillIdle fits demote s rest

/-- Idle entries become victims in order until the estimate fits with the others. -/
def chooseVictims (fits : List ModelRef → Bool) :
    List ModelRef → List ModelRef → Option (List ModelRef)
  | [], retained => if fits retained then some [] else none
  | m :: rest, retained =>
    if fits retained then some []
    else (chooseVictims fits rest (retained.filter (· ≠ m))).map (m :: ·)

namespace State

/-- The first section of `load`. -/
def find (s : State) (record : Record) : Option ModelRef × State :=
  match s.entries.lookup record.key with
  | some m => (some m, s.touch m)
  | none => (none, s)

def fitsAll (config : Config) (estimate : Point) (s : State) : Bool :=
  fitsWith config estimate (s.entries.values.map s.point)

/-- The section of `load` that spills idle contexts and chooses the victims. -/
def plan (config : Config) (estimate : Point) (idle : List ModelRef)
    (demote : ModelRef → Demotion) (s : State) : Except Failure (List ModelRef) × State :=
  match spillIdle (fitsAll config estimate) demote s idle with
  | (.failed error, s') => (.error (.demotion error), s')
  | (_, s') =>
    match chooseVictims (fun retained => fitsWith config estimate (retained.map s'.point)) idle
        s'.entries.values with
    | some victims => (.ok victims, s')
    | none => (.error .exhausted, s')

/-- The entries counted against the loaded point. -/
def retained (s : State) (victims : List ModelRef) : List (Sigma fun _ : Key => ModelRef) :=
  s.entries.entries.filter (fun e =>
    e.1 ∉ victims.map s.key ∨ (s.model e.2).active ≠ 0)

/-- The keys whose entries are removed. -/
def gone (s : State) (victims : List ModelRef) : List Key :=
  (victims.filter (fun v => (s.model v).active = 0)).map s.key

def insertLoaded (s : State) (record : Record) (point : Point) (victims : List ModelRef) :
    State :=
  { s with
    entries := (s.entries.eraseAll (s.gone victims)).insert record.key s.fresh
    model := Function.update s.model s.fresh
      { record := record, point := point, active := 0, sessions := 0, retiring := false,
        contextResident := true, lastUsed := s.tick }
    fresh := s.fresh + 1
    clock := s.tick }

def fitsRetained (config : Config) (s : State) (point : Point) (victims : List ModelRef) : Bool :=
  fitsWith config point ((s.retained victims).map (fun e => s.point e.2))

/-- The last section of `load`. -/
def publish (config : Config) (record : Record) (point : Point) (victims : List ModelRef)
    (profile : Option Error) (s : State) : Except Failure ModelRef × State :=
  match s.entries.lookup record.key with
  | some m => (.ok m, s)
  | none =>
    if !s.fitsRetained config point victims then (.error .oversized, s)
    else match profile with
      | some error => (.error (.profile error), s)
      | none => (.ok s.fresh, s.insertLoaded record point victims)

def fitsTarget (config : Config) (target : ModelRef) (s : State) : Bool :=
  fitsWith config (s.model target).point
    ((s.entries.values.filter (· ≠ target)).map s.point)

/-- The lease that ends `acquire_entry`. -/
def lease (s : State) (target : ModelRef) : State :=
  (s.modify target (fun r => { r with active := r.active + 1 })).touch target

def reload (s : State) (target : ModelRef) : State :=
  s.modify target (fun r => { r with contextResident := true })

def acquireEntry (config : Config) (target : ModelRef) (idle : List ModelRef)
    (demote : ModelRef → Demotion) (s : State) : Except Failure Bool × State :=
  if s.entries.lookup (s.key target) ≠ some target then (.ok false, s)
  else if (s.model target).contextResident then (.ok true, s.lease target)
  else match spillIdle (fitsTarget config target) demote s idle with
    | (.fits, s') =>
      (.ok true, (s'.reload target).lease target)
    | (.failed error, s') => (.error (.demotion error), s')
    | (_, s') => (.error .exhausted, s')

def countSession (s : State) (m : ModelRef) : State :=
  s.modify m (fun r => { r with sessions := r.sessions + 1 })

def giveBack (s : State) (m : ModelRef) : State :=
  s.modify m (fun r => { r with active := r.active - 1 })

def dropSession (s : State) (m : ModelRef) : State :=
  s.modify m (fun r => { r with sessions := r.sessions - 1 })

/-- The section of `release_entry` and of a dropped session. -/
def settle (s : State) (m : ModelRef) : State :=
  if (s.model m).retiring ∧ s.unused m then { s with entries := s.entries.erase (s.key m) }
  else s

/-- One entry retires, and leaves if nothing uses it. -/
def retireEntry (s : State) (e : Sigma fun _ : Key => ModelRef) : State :=
  let retired := s.modify e.2 (fun r => { r with retiring := true })
  if s.unused e.2 then { retired with entries := s.entries.erase e.1 } else retired

def retireOtherEpochs (s : State) (record : Record) : State :=
  (s.entries.entries.filter (fun e => e.1.1 = record.id ∧ e.1.2 ≠ record.epoch)).foldl
    retireEntry s

def retireModel (s : State) (id : String) (epoch : ℕ) : State :=
  match s.entries.lookup (id, epoch) with
  | some m => s.retireEntry ⟨(id, epoch), m⟩
  | none => s

def enter (s : State) (record : Record) (starts : Bool) : State :=
  { s with agents := s.agents ++ [⟨record, starts, .lookup⟩] }

def goto (s : State) (i : ℕ) (a : Agent) (stage : Stage) : State :=
  { s with agents := s.agents.set i { a with stage := stage } }

end State

/-- What the first section of `load` may read as idle. -/
abbrev idleFor (s : State) (record : Record) (m : ModelRef) : Prop :=
  s.unused m ∧ (s.model m).record.id ≠ record.id

/-- What `acquire_entry` may read as idle. -/
abbrev idleBeside (s : State) (target : ModelRef) (m : ModelRef) : Prop :=
  m ≠ target ∧ s.unused m ∧ (s.model m).contextResident

/-- `control.check()?` of a call that has a control. -/
def checkControl (a : Agent) (control : ControlState) : Except Error Unit :=
  if a.starts then control.check else .ok ()

/-- Where a loaded call goes on: `prepare_model` returns. -/
def loadedStage (a : Agent) (m : ModelRef) : Stage := if a.starts then .loaded m else .done

/-- What the loaded point passes between the native load and its publication. -/
def loadPoint (config : Config) (a : Agent) (estimate : Point) (loaded : Except Error Point)
    (control : ControlState) : Except Failure Point :=
  match loaded with
  | .error error => .error (.loader error)
  | .ok point =>
    match checkControl a control with
    | .error error => .error (.stopped error)
    | .ok _ =>
      if config.requireCompetent && !point.competent then .error .incompetent
      else .ok (estimate.measured point).withHeadroom

def foundStage (a : Agent) : Option ModelRef → Stage
  | some m => loadedStage a m
  | none => .estimating

def plannedStage (estimate : Point) : Except Failure (List ModelRef) → Stage
  | .ok victims => .loading estimate victims
  | .error failure => .failed failure

def publishedStage (a : Agent) : Except Failure ModelRef → Stage
  | .ok m => loadedStage a m
  | .error failure => .failed failure

/-- `start_session` loads again when the entry is no longer the resident one. -/
def startedStage (m : ModelRef) : Except Failure Bool → Stage
  | .ok true => .starting m
  | .ok false => .lookup
  | .error failure => .failed failure

/-- A session reports that its model disappeared. -/
def resumedStage (m : ModelRef) : Except Failure Bool → Stage
  | .ok true => .stepping m
  | .ok false => .suspended m (some .disappeared)
  | .error failure => .suspended m (some failure)

/-- A step of an agent in a stage; `none` when it cannot be taken there. -/
def agentStep (config : Config) (s : State) (i : ℕ) (a : Agent) : Action → Option State
  | .find _ control =>
    match a.stage with
    | .lookup =>
      match checkControl a control with
      | .error error => some (s.goto i a (.failed (.stopped error)))
      | .ok _ => some ((s.find a.record).2.goto i a (foundStage a (s.find a.record).1))
    | _ => none
  | .estimate _ profile file =>
    match a.stage with
    | .estimating =>
      match estimate config a.record profile file with
      | .error error => some (s.goto i a (.failed (.estimate error)))
      | .ok point => some (s.goto i a (.planning point))
    | _ => none
  | .plan _ idle demote =>
    match a.stage with
    | .planning estimate =>
      let planned := s.plan config estimate idle demote
      if s.SortedIdle (idleFor s a.record) idle then
        some (planned.2.goto i a (plannedStage estimate planned.1))
      else none
    | _ => none
  | .load _ loaded control =>
    match a.stage with
    | .loading estimate victims =>
      match loadPoint config a estimate loaded control with
      | .error failure => some (s.goto i a (.failed failure))
      | .ok point => some (s.goto i a (.publishing point victims))
    | _ => none
  | .publish _ profile =>
    match a.stage with
    | .publishing point victims =>
      let published := s.publish config a.record point victims profile
      some (published.2.goto i a (publishedStage a published.1))
    | _ => none
  | .acquire _ idle demote =>
    match a.stage with
    | .loaded m =>
      let acquired := s.acquireEntry config m idle demote
      if s.SortedIdle (idleBeside s m) idle then
        some (acquired.2.goto i a (startedStage m acquired.1))
      else none
    | .suspended m _ =>
      let acquired := s.acquireEntry config m idle demote
      if s.SortedIdle (idleBeside s m) idle then
        some (acquired.2.goto i a (resumedStage m acquired.1))
      else none
    | _ => none
  | .begin _ engine =>
    match a.stage with
    | .starting m =>
      match engine with
      | some error => some (s.goto i a (.refused m error))
      | none => some ((s.countSession m).goto i a (.counted m))
    | _ => none
  | .giveBack _ =>
    match a.stage with
    | .counted m => some ((s.giveBack m).goto i a (.returning m))
    | .stepping m => some ((s.giveBack m).goto i a (.returning m))
    | .refused m error => some ((s.giveBack m).goto i a (.failing m error))
    | _ => none
  | .release _ =>
    match a.stage with
    | .returning m => some ((s.settle m).goto i a (.suspended m none))
    | .failing m error => some ((s.settle m).goto i a (.failed (.engine error)))
    | _ => none
  | .drop _ =>
    match a.stage with
    | .suspended m _ => some ((s.dropSession m).goto i a (.dropping m))
    | _ => none
  | .leave _ =>
    match a.stage with
    | .dropping m => some ((s.settle m).goto i a .done)
    | _ => none
  | _ => none

/-- The agent an action belongs to. -/
def Action.agent : Action → Option ℕ
  | find i _ | estimate i _ _ | plan i _ _ | load i _ _ | publish i _ | acquire i _ _
  | begin i _ | giveBack i | release i | drop i | leave i => some i
  | prepare _ | start _ | commit _ | retire _ _ => none

def act (config : Config) (s : State) (action : Action) : Option State :=
  match action with
  | .prepare record => some (s.enter record false)
  | .start record => some (s.enter record true)
  | .commit record => some (s.retireOtherEpochs record)
  | .retire id epoch => some (s.retireModel id epoch)
  | _ => action.agent.bind (fun i => s.agents[i]?.bind (fun a => agentStep config s i a action))

def Step (config : Config) (s : State) (action : Action) (s' : State) : Prop :=
  act config s action = some s'

end Cusco.Residency
