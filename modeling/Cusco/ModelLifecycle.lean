import Cusco.Calls
import Cusco.Runs
import Cusco.Tables
import Cusco.MachineIntegers
import Mathlib.Data.List.Sort
import Mathlib.Data.String.Basic

/-!
The model lifecycle service and its catalog. A registration is prepared by the engine,
published by its caller, entered into the map of models and committed to the engine; an
alias is taken from every other model in the map, but only the row of its new owner is
written. What the engine and the disk answer is part of each call.
-/

namespace Cusco.ModelLifecycle

open Calls Runs

structure ModelRecord where
  id : String
  revision : String
  path : String
  sha256 : String
  aliases : List String
  family : String
  sizeBytes : ℕ
  epoch : ℕ
  deriving DecidableEq

/-- Models by id: the map in memory, or the rows of the catalog. -/
abbrev Models := Table String ModelRecord

inductive Error
  | modelNotFound (id : String)
  | state (message : String)
  /-- Whatever else the engine or a publication answers. -/
  | other (message : String)
  deriving DecidableEq

/-- The calls made to the engine. -/
inductive EngineCall
  | prepare (id : String) (epoch : ℕ) (ok : Bool)
  | commit (id : String) (epoch : ℕ) (replaced : Option ℕ)
  | retire (id : String) (epoch : ℕ)
  deriving DecidableEq

structure Service where
  models : Models
  nextEpoch : ℕ
  /-- Whether a catalog is attached. -/
  attached : Bool
  rows : Models
  engine : List EngineCall
  deriving DecidableEq

abbrev Operation (α : Type) := Call Service Error α

def i64Max : ℕ := 2 ^ 63 - 1

/-- `ModelLifecycleService::new`, with a catalog that holds some rows. -/
def Service.new (attached : Bool) (rows : Models) : Service := ⟨∅, 1, attached, rows, []⟩

/-- Another row has the path and the revision of a record. -/
def conflicting (rows : Models) (model : ModelRecord) : Bool :=
  rows.values.any (fun row =>
    row.id ≠ model.id && row.path = model.path && row.revision = model.revision)

/-- `ModelCatalog::publish`, with the texts of its errors. -/
def catalogPublish (fault : Option String) (model : ModelRecord) (rows : Models) :
    Except Error Models :=
  if model.epoch = 0 then .error (.state "catalog data: model epoch must be nonzero")
  else if i64Max < model.sizeBytes then
    .error (.state "catalog data: model size exceeds SQLite integer")
  else if i64Max < model.epoch then
    .error (.state "catalog data: model epoch exceeds SQLite integer")
  else
    match fault with
    | some text => .error (.state ("catalog database: " ++ text))
    | none =>
      if conflicting rows model then
        .error (.state
          "catalog database: UNIQUE constraint failed: models.path, models.revision")
      else .ok (rows.insert model.id model)

def catalogRemove (fault : Option String) (id : String) (rows : Models) : Except Error Models :=
  match fault with
  | some text => .error (.state ("catalog database: " ++ text))
  | none => .ok (rows.erase id)

/-- The records by ascending id, as `ModelCatalog::models` lists them. -/
def catalogModels (rows : Models) : List ModelRecord :=
  rows.values.insertionSort (fun a b => a.id ≤ b.id)

/-- `ModelLifecycleService::model`: by id, else some model with the alias. The source
searches the values in no particular order. -/
def Service.model (s : Service) (name : String) : Option ModelRecord :=
  (s.models.lookup name).or (s.models.values.find? (fun m => name ∈ m.aliases))

/-- Sorted, with equal aliases, which are now adjacent, dropped. -/
def normalizeAliases (aliases : List String) : List String :=
  (aliases.insertionSort (· ≤ ·)).dedup

/-- Without the aliases of the record in any other. -/
def retainAliases (taken : List String) (models : Models) : Models :=
  models.mapValues (fun existing =>
    { existing with aliases := existing.aliases.filter (fun a => a ∉ taken) })

def enter (model : ModelRecord) (models : Models) : Models :=
  (retainAliases model.aliases models).insert model.id model

def log (call : EngineCall) : Operation Unit :=
  Call.update (fun s => { s with engine := s.engine ++ [call] })

/-- `prepare_model`, with the engine's answer. -/
def prepareModel (answer : Option Error) (model : ModelRecord) : Operation Unit := do
  log (.prepare model.id model.epoch answer.isNone)
  match answer with
  | some e => Call.fail e
  | none => pure ()

def defaultModelFamily : String := "gemma4"

/-- The record that `register` goes on with; `size` is what the file system answers. -/
def completed (size : Except String ℕ) (model : ModelRecord) : Except Error ModelRecord :=
  let named := { model with
    aliases := normalizeAliases model.aliases
    family := if model.family = "" then defaultModelFamily else model.family }
  if model.sizeBytes = 0 then
    match size with
    | .error text => .error (.state text)
    | .ok bytes => .ok { named with sizeBytes := bytes }
  else .ok named

def sameContent (existing model : ModelRecord) : Bool :=
  existing.revision = model.revision && existing.path = model.path &&
    existing.sha256 = model.sha256 && existing.family = model.family &&
    existing.sizeBytes = model.sizeBytes

/-- The model already registered with the same content. -/
def registeredSame (models : Models) (model : ModelRecord) : Option ModelRecord :=
  (models.lookup model.id).filter (fun existing => sameContent existing model)

/-- A publication: whatever the caller does with the record and the catalog. -/
abbrev Publication := ModelRecord → Models → Except Error Models

/-- What a registration runs on: where its caller keeps the service, and what the engine and
the publication do there. -/
structure Registrar (σ ε : Type) where
  service : σ → Service
  modify : (Service → Service) → σ → σ
  refuse : Error → ε
  prepare : ModelRecord → Call σ ε Unit
  publish : ModelRecord → σ → Except Error σ
  commit : ModelRecord → Option ℕ → Call σ ε Unit

section Registrar

variable {σ ε : Type} (on : Registrar σ ε)

/-- The part of `register` after the publication. -/
def enterAndCommit (registered : ModelRecord) (previousEpoch : Option ℕ) :
    Call σ ε ModelRecord := do
  Call.update (on.modify (fun s => { s with models := enter registered s.models }))
  let next ← Call.require (if registered.epoch < u64Max then some (registered.epoch + 1) else none)
    (on.refuse (.state "model epoch space exhausted"))
  Call.update (on.modify (fun s => { s with nextEpoch := next }))
  on.commit registered previousEpoch
  pure registered

/-- The part of `register` for a record that is new or has new content. -/
def registerNew (model : ModelRecord) : Call σ ε ModelRecord := do
  let s ← Call.read
  let registered := { model with epoch := (on.service s).nextEpoch }
  let previousEpoch := ((on.service s).models.lookup model.id).map (fun record => record.epoch)
  on.prepare registered
  let s ← Call.read
  match on.publish registered s with
  | .error e => do
    Call.update (on.modify (fun s =>
      { s with engine := s.engine ++ [.retire registered.id registered.epoch] }))
    Call.fail (on.refuse e)
  | .ok published => do
    Call.update (fun _ => published)
    enterAndCommit on registered previousEpoch

/-- The part of `register` for a completed record. -/
def registerCompleted (model : ModelRecord) : Call σ ε ModelRecord := do
  let s ← Call.read
  match registeredSame (on.service s).models model with
  | some existing => do
    on.prepare existing
    pure existing
  | none => registerNew on model

/-- A model with the same content is prepared again; any other is registered anew. -/
theorem registerCompleted_run (model : ModelRecord) (s : σ) :
    (registerCompleted on model).run s =
      match registeredSame (on.service s).models model with
      | some existing => (on.prepare existing >>= fun _ => pure existing).run s
      | none => (registerNew on model).run s := by
  unfold registerCompleted
  rw [Call.run_read_bind]
  cases registeredSame (on.service s).models model with
  | some existing => rfl
  | none => rfl

end Registrar

/-- The service by itself. -/
def alone (prepare : Option Error) (publish : Publication) : Registrar Service Error where
  service s := s
  modify f := f
  refuse e := e
  prepare := prepareModel prepare
  publish model s := (publish model s.rows).map (fun rows => { s with rows := rows })
  commit model previousEpoch := log (.commit model.id model.epoch previousEpoch)

@[simp] theorem service_alone (prepare : Option Error) (publish : Publication) (s : Service) :
    (alone prepare publish).service s = s := rfl

@[simp] theorem prepare_alone (prepare : Option Error) (publish : Publication) :
    (alone prepare publish).prepare = prepareModel prepare := rfl

def register (size : Except String ℕ) (prepare : Option Error) (publish : Publication)
    (model : ModelRecord) : Operation ModelRecord := do
  let model ← Call.ofExcept (completed size model)
  registerCompleted (alone prepare publish) model

def registerFromCatalog (prepare : Option Error) (model : ModelRecord) :
    Operation ModelRecord := do
  Call.check (model.epoch ≠ 0) (.state "catalog model epoch must be nonzero")
  prepareModel prepare model
  let s ← Call.read
  Call.update (fun s => { s with
    nextEpoch := max s.nextEpoch (min (model.epoch + 1) u64Max)
    models := enter model s.models })
  log (.commit model.id model.epoch ((s.models.lookup model.id).map (fun record => record.epoch)))
  pure model

/-- The map after an alias was given to a model. -/
def aliased (id name : String) (models : Models) : Models :=
  (retainAliases [name] models).modify id (fun m =>
    { m with aliases := normalizeAliases (m.aliases ++ [name]) })

/-- Write to the catalog, if one is attached. -/
def written (write : Models → Except Error Models) : Operation Unit := do
  let s ← Call.read
  if s.attached then do
    let rows ← Call.ofExcept (write s.rows)
    Call.update (fun s => { s with rows := rows })
  else pure ()

/-- `ModelLifecycleService::alias`. -/
def aliasModel (fault : Option String) (id name : String) : Operation ModelRecord := do
  let s ← Call.read
  Call.check (s.models.lookup id).isSome (.modelNotFound id)
  let candidate := aliased id name s.models
  let out ← Call.unwrap (candidate.lookup id)
  written (catalogPublish fault out)
  Call.update (fun s => { s with models := candidate })
  pure out

def remove (fault : Option String) (id : String) : Operation Unit := do
  let s ← Call.read
  let model ← Call.require (s.models.lookup id) (.modelNotFound id)
  written (catalogRemove fault id)
  Call.update (fun s => { s with models := s.models.erase id })
  log (.retire model.id model.epoch)

inductive Action
  | register (size : Except String ℕ) (prepare : Option Error) (publish : Publication)
      (model : ModelRecord)
  | registerFromCatalog (prepare : Option Error) (model : ModelRecord)
  | aliasModel (fault : Option String) (id name : String)
  | remove (fault : Option String) (id : String)

/-- A call with the record it returns, if it returns one. -/
def perform : Action → Operation (Option ModelRecord)
  | .register size prepare publish model => do
    let registered ← register size prepare publish model
    pure (some registered)
  | .registerFromCatalog prepare model => do
    let registered ← registerFromCatalog prepare model
    pure (some registered)
  | .aliasModel fault id name => do
    let out ← aliasModel fault id name
    pure (some out)
  | .remove fault id => do
    remove fault id
    pure none

/-- The state that a call leaves, unless it panics. -/
def act (s : Service) (a : Action) : Option Service :=
  match (perform a).run s with
  | .returns _ s' => some s'
  | .panics => none

def Step (s : Service) (a : Action) (s' : Service) : Prop := act s a = some s'

theorem result_of_step {s s' : Service} {a : Action} (h : Step s a s') :
    ∃ result, (perform a).run s = .returns result s' := by
  unfold Step act at h
  cases hrun : (perform a).run s with
  | panics =>
    rw [hrun] at h
    cases h
  | returns result t =>
    rw [hrun] at h
    cases h
    exact ⟨result, rfl⟩

/-- A small model file under a name, with some aliases. -/
def smallModel (id : String) (aliases : List String) : ModelRecord where
  id := id
  revision := "r1"
  path := id ++ ".gguf"
  sha256 := "00"
  aliases := aliases
  family := defaultModelFamily
  sizeBytes := 1
  epoch := 0

/-- A registration that the engine prepares and the catalog takes. -/
def publishing (id : String) (aliases : List String) : Action :=
  .register (.ok 1) none (catalogPublish none) (smallModel id aliases)

end Cusco.ModelLifecycle
