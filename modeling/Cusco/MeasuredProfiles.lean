import Cusco.Calls
import Cusco.ResidencySteps

/-!
Measured execution profiles of a resident engine. A load is admitted by an estimate, which
is the profile of the catalog when one can be reused, and publishes what it measured as the
next profile. The load below is the whole of `ResidentEngine::load`, with nothing between
its sections; additions that the source leaves unchecked panic when they overflow.
-/

namespace Cusco.MeasuredProfiles

open Admission (ControlState Error)
open Calls Residency

/-- An operating point, with the fields that admission does not read. -/
structure OperatingPoint extends Point where
  gpuLayers : ℤ
  modelLayers : ℤ
  deriving DecidableEq

/-- The fields of a model record that a load reads. -/
structure Model where
  record : Record
  revision : String
  sha256 : String

/-- The configuration, with the environment variable `CUSCO_GPU_DEVICE_ID` and the hexadecimal
digest of SHA-256. -/
structure Settings where
  config : Config
  nCtx : ℕ
  gpuDevice : Option String
  digest : List UInt8 → String

inductive MeasurementSource
  | backendAllocator
  | conservativeFallback
  deriving DecidableEq

structure MeasuredExecutionProfile where
  schemaMajor : ℕ
  schemaMinor : ℕ
  modelBytes : ℕ
  deviceModelBytes : ℕ
  hostModelBytes : ℕ
  contextStateBytes : ℕ
  deviceExecutionReserveBytes : ℕ
  hostStagingBytes : ℕ
  allocatorHeadroomBytes : ℕ
  modelLayers : ℤ
  competent : Bool
  measurementSource : MeasurementSource
  provenance : String
  deriving DecidableEq

/-- A row, with the profile that its JSON text holds. -/
structure Row where
  schemaMajor : ℕ
  profile : MeasuredExecutionProfile
  deriving DecidableEq

/-- The identity of the model, the hash of the configuration and the GPU. -/
abbrev ProfileKey := String × String × String

abbrev Profiles := Table ProfileKey Row

def profileSchemaMajor : ℕ := 1

/-- The row can be reused: its schema is known and it was measured by this executor. -/
def Row.usable (row : Row) (expectedProvenance : String) : Bool :=
  row.schemaMajor = profileSchemaMajor && row.profile.schemaMajor = profileSchemaMajor &&
    row.profile.provenance = expectedProvenance

/-- `ModelCatalog::measured_execution_profile`, with a fault of the database or its data. -/
def measuredExecutionProfile (fault : Option Error) (key : ProfileKey)
    (expectedProvenance : String) (rows : Profiles) :
    Except Error (Option MeasuredExecutionProfile) :=
  match fault with
  | some e => .error e
  | none =>
    .ok (((rows.lookup key).filter (fun row => row.usable expectedProvenance)).map
      (fun row => row.profile))

/-- `ModelCatalog::publish_measured_execution_profile`. -/
def publishMeasuredExecutionProfile (fault : Option Error) (key : ProfileKey)
    (profile : MeasuredExecutionProfile) (rows : Profiles) : Except Error Profiles :=
  if profile.schemaMajor ≠ profileSchemaMajor then
    .error (.state ("unsupported measured execution profile schema " ++
      toString profile.schemaMajor))
  else
    match fault with
    | some e => .error e
    | none => .ok (rows.insert key ⟨profile.schemaMajor, profile⟩)

def abiVersion : String := "14"

def llamaVersion : String := "b10273"

def configText (settings : Settings) : String :=
  "abi=" ++ abiVersion ++ ";llama=" ++ llamaVersion ++ ";n_ctx=" ++ toString settings.nCtx ++
    ";n_batch=" ++ toString settings.nCtx ++ ";gpu_layers=" ++
    toString settings.config.gpuLayers ++ ";mapped=true"

def modelIdentity (model : Model) : String :=
  if model.sha256 = "" then model.record.id ++ "@" ++ model.revision else model.sha256

def gpuId (settings : Settings) : String :=
  if settings.config.gpuLayers > 0 then
    "configured-gpu:" ++ settings.gpuDevice.getD "unspecified"
  else "cpu"

/-- `profile_key`, without the provenance. -/
def profileKey (settings : Settings) (model : Model) : ProfileKey :=
  (modelIdentity model, settings.digest (configText settings).toUTF8.toList, gpuId settings)

def provenance : String := "executor-abi=" ++ abiVersion ++ ";llama=" ++ llamaVersion

structure Engine where
  state : State
  /-- The profiles of the catalog, if one is attached. -/
  catalog : Option Profiles

abbrev Operation (α : Type) := Call Engine Failure α

/-- The point that a cached profile stands for. -/
def cachedPoint (settings : Settings) (p : MeasuredExecutionProfile) : Option OperatingPoint := do
  let placed ← checkedAdd p.deviceModelBytes p.deviceExecutionReserveBytes
  let device ← checkedAdd placed p.allocatorHeadroomBytes
  let host ← checkedAdd p.hostModelBytes p.hostStagingBytes
  pure {
    modelBytes := p.modelBytes
    contextBytes := p.contextStateBytes
    deviceBytes := device
    hostBytes := host
    gpuLayers := settings.config.gpuLayers
    modelLayers := p.modelLayers
    competent := p.competent }

def cachedProfile (settings : Settings) (query : Option Error) (model : Model) :
    Operation (Option OperatingPoint) := do
  if settings.config.gpuLayers > 0 then pure none
  else do
    let e ← Call.read
    match e.catalog with
    | none => pure none
    | some rows => do
      let record ← Call.ofExcept ((measuredExecutionProfile query (profileKey settings model)
        provenance rows).mapError Failure.estimate)
      match record with
      | none => pure none
      | some profile => do
        let point ← Call.unwrap (cachedPoint settings profile)
        pure (some point)

/-- The profile that a measured point is published as. -/
def profileOf (settings : Settings) (point : OperatingPoint) : MeasuredExecutionProfile where
  schemaMajor := profileSchemaMajor
  schemaMinor := 0
  modelBytes := point.modelBytes
  deviceModelBytes := point.deviceBytes
  hostModelBytes := point.hostBytes
  contextStateBytes := point.contextBytes
  deviceExecutionReserveBytes := 0
  hostStagingBytes := 0
  allocatorHeadroomBytes := point.deviceBytes / 20
  modelLayers := point.modelLayers
  competent := point.competent
  measurementSource :=
    if settings.config.gpuLayers > 0 then .backendAllocator else .conservativeFallback
  provenance := provenance

def publishProfile (settings : Settings) (fault : Option Error) (model : Model)
    (point : OperatingPoint) : Operation Unit := do
  if settings.config.gpuLayers > 0 then pure ()
  else do
    let e ← Call.read
    match e.catalog with
    | none => pure ()
    | some rows => do
      let rows ← Call.ofExcept ((publishMeasuredExecutionProfile fault
        (profileKey settings model) (profileOf settings point) rows).mapError Failure.profile)
      Call.update (fun e => { e with catalog := some rows })

def estimate (settings : Settings) (query : Option Error) (file : Except Error ℕ)
    (model : Model) : Operation OperatingPoint := do
  let cached ← cachedProfile settings query model
  match cached with
  | some profile => pure profile
  | none => do
    let point ← Call.ofExcept
      ((bootstrapEstimate settings.config model.record file).mapError Failure.estimate)
    pure { toPoint := point, gpuLayers := settings.config.gpuLayers, modelLayers := 0 }

/-- The loaded point, never below the estimate. -/
def measured (estimate point : OperatingPoint) : OperatingPoint :=
  { point with toPoint := estimate.toPoint.measured point.toPoint }

def withHeadroom (point : OperatingPoint) : OperatingPoint :=
  { point with toPoint := point.toPoint.withHeadroom }

/-- What the outside answers during a load; only a session has a request control. -/
structure Answers where
  before : Option ControlState
  query : Option Error
  file : Except Error ℕ
  idle : List ModelRef
  demote : ModelRef → Demotion
  loaded : Except Error OperatingPoint
  after : Option ControlState
  publication : Option Error

def checked : Option ControlState → Except Failure Unit
  | some control => control.check.mapError Failure.stopped
  | none => .ok ()

/-- The last section of `load`. -/
def enterLoaded (settings : Settings) (publication : Option Error) (model : Model)
    (victims : List ModelRef) (measuredPoint point : OperatingPoint) : Operation ModelRef := do
  let e ← Call.read
  match e.state.entries.lookup model.record.key with
  | some m => pure m
  | none => do
    Call.check (e.state.fitsRetained settings.config point.toPoint victims) .oversized
    publishProfile settings publication model measuredPoint
    Call.update (fun e =>
      { e with state := e.state.insertLoaded model.record point.toPoint victims })
    pure e.state.fresh

/-- The sections after the lookup, which found no entry. -/
def loadNew (settings : Settings) (model : Model) (a : Answers) : Operation ModelRef := do
  let estimate ← estimate settings a.query a.file model
  let e ← Call.read
  let planned := e.state.plan settings.config estimate.toPoint a.idle a.demote
  Call.update (fun e => { e with state := planned.2 })
  let victims ← Call.ofExcept planned.1
  let loaded ← Call.ofExcept (a.loaded.mapError Failure.loader)
  let point := withHeadroom (measured estimate loaded)
  Call.ofExcept (checked a.after)
  Call.check (!(settings.config.requireCompetent && !point.competent)) .incompetent
  enterLoaded settings a.publication model victims (measured estimate loaded) point

def load (settings : Settings) (model : Model) (a : Answers) : Operation ModelRef := do
  Call.ofExcept (checked a.before)
  let e ← Call.read
  match e.state.find model.record with
  | (some m, s) => do
    Call.update (fun e => { e with state := s })
    pure m
  | (none, _) => loadNew settings model a

/-- The profile of the catalog that the model can reuse. -/
def reusable (settings : Settings) (model : Model) (rows : Profiles) :
    Option MeasuredExecutionProfile :=
  ((rows.lookup (profileKey settings model)).filter (fun row => row.usable provenance)).map
    (fun row => row.profile)

/-- What a cached profile rests on. -/
theorem cachedProfile_ok {settings : Settings} {query : Option Error} {model : Model}
    {e e' : Engine} {result : Option OperatingPoint}
    (h : (cachedProfile settings query model).run e = .returns (.ok result) e') :
    e' = e ∧ ((result = none ∧ (settings.config.gpuLayers ≤ 0 → ∀ rows, e.catalog = some rows →
        reusable settings model rows = none)) ∨
      ∃ rows profile point, settings.config.gpuLayers ≤ 0 ∧ e.catalog = some rows ∧
        reusable settings model rows = some profile ∧
        cachedPoint settings profile = some point ∧ result = some point) := by
  unfold cachedProfile at h
  by_cases hgpu : settings.config.gpuLayers > 0
  · rw [if_pos hgpu] at h
    cases h
    refine ⟨rfl, Or.inl ⟨rfl, ?_⟩⟩
    intro hcpu
    omega
  rw [if_neg hgpu, Call.run_read_bind] at h
  cases hrows : e.catalog with
  | none =>
    rw [hrows] at h
    cases h
    exact ⟨rfl, Or.inl ⟨rfl, fun _ rows hsome => by cases hsome⟩⟩
  | some rows =>
    rw [hrows] at h
    rcases Call.of_ofExcept_bind h with ⟨_, _, _, herror⟩ | ⟨record, hrecord, h⟩
    · cases herror
    have hreusable : record = reusable settings model rows := by
      cases query with
      | some fault => cases hrecord
      | none =>
        cases hrecord
        rfl
    cases record with
    | none =>
      cases h
      refine ⟨rfl, Or.inl ⟨rfl, ?_⟩⟩
      intro _ rows' hrows'
      cases hrows'
      exact hreusable.symm
    | some profile =>
      obtain ⟨point, hpoint, h⟩ := Call.of_unwrap_bind h
      cases h
      exact ⟨rfl, Or.inr ⟨rows, profile, point, by omega, rfl, hreusable.symm, hpoint, rfl⟩⟩

theorem cachedProfile_of_reusable {settings : Settings} {model : Model} {e : Engine}
    {rows : Profiles} {profile : MeasuredExecutionProfile} {point : OperatingPoint}
    (hcpu : settings.config.gpuLayers ≤ 0) (hrows : e.catalog = some rows)
    (hprofile : reusable settings model rows = some profile)
    (hpoint : cachedPoint settings profile = some point) :
    (cachedProfile settings none model).run e = .returns (.ok (some point)) e := by
  have hgpu : ¬ settings.config.gpuLayers > 0 := by omega
  have hquery : (measuredExecutionProfile none (profileKey settings model) provenance
      rows).mapError Failure.estimate = .ok (some profile) := by
    rw [← hprofile]
    rfl
  unfold cachedProfile
  rw [if_neg hgpu, Call.run_read_bind, hrows]
  simp only [hquery]
  change (Call.unwrap (cachedPoint settings profile) >>= fun point =>
    (pure (some point) : Operation (Option OperatingPoint))).run e = _
  rw [hpoint]
  rfl

/-- What the point of a model that was never measured rests on. -/
theorem of_bootstrapEstimate {config : Config} {record : Record} {file : Except Error ℕ}
    {point : Point} (h : bootstrapEstimate config record file = .ok point) :
    ∃ bytes, declaredBytes record file = .ok bytes ∧ bytes ≤ config.storageBytes ∧
      point = bootstrapPoint config bytes := by
  unfold bootstrapEstimate at h
  cases hbytes : declaredBytes record file with
  | error err =>
    rw [hbytes] at h
    cases h
  | ok bytes =>
    rw [hbytes] at h
    simp only [bind, Except.bind] at h
    by_cases hfits : bytes ≤ config.storageBytes
    · rw [if_pos hfits] at h
      cases h
      exact ⟨bytes, rfl, hfits, rfl⟩
    · rw [if_neg hfits] at h
      cases h

/-- An estimate is a cached profile, or the point assumed of the declared size. -/
theorem estimate_ok {settings : Settings} {query : Option Error} {file : Except Error ℕ}
    {model : Model} {e e' : Engine} {point : OperatingPoint}
    (h : (estimate settings query file model).run e = .returns (.ok point) e') :
    e' = e ∧ ((∃ rows profile, settings.config.gpuLayers ≤ 0 ∧ e.catalog = some rows ∧
        reusable settings model rows = some profile ∧
        cachedPoint settings profile = some point) ∨
      ((settings.config.gpuLayers ≤ 0 → ∀ rows, e.catalog = some rows →
          reusable settings model rows = none) ∧
        ∃ bytes, declaredBytes model.record file = .ok bytes ∧
          bytes ≤ settings.config.storageBytes ∧
          point.toPoint = bootstrapPoint settings.config bytes)) := by
  unfold estimate at h
  obtain ⟨cached, t, hcached, h⟩ := Call.of_bind_ok h
  obtain ⟨rfl, ⟨rfl, hnone⟩ | ⟨rows, profile, q, hcpu, hrows, hprofile, hq, rfl⟩⟩ :=
    cachedProfile_ok hcached
  · rcases Call.of_ofExcept_bind h with ⟨_, _, _, herror⟩ | ⟨assumed, hassumed, h⟩
    · cases herror
    cases h
    have hestimate : bootstrapEstimate settings.config model.record file = .ok assumed := by
      cases hresult : bootstrapEstimate settings.config model.record file with
      | error err =>
        rw [hresult] at hassumed
        cases hassumed
      | ok result =>
        rw [hresult] at hassumed
        cases hassumed
        rfl
    obtain ⟨bytes, hbytes, hfits, rfl⟩ := of_bootstrapEstimate hestimate
    exact ⟨rfl, Or.inr ⟨hnone, bytes, hbytes, hfits, rfl⟩⟩
  · cases h
    exact ⟨rfl, Or.inl ⟨rows, profile, hcpu, hrows, hprofile, hq⟩⟩

theorem spillIdle_entries (fits : State → Bool) (demote : ModelRef → Demotion)
    (idle : List ModelRef) (s : State) :
    (spillIdle fits demote s idle).2.entries = s.entries := by
  induction idle generalizing s with
  | nil =>
    unfold spillIdle
    split
    · rfl
    · rfl
  | cons m rest ih =>
    unfold spillIdle
    split
    · rfl
    · split
      · split
        · rfl
        · rfl
        · exact ih (s.spill m)
      · exact ih s

theorem publishProfile_ok {settings : Settings} {fault : Option Error} {model : Model}
    {point : OperatingPoint} {e e' : Engine} {rows : Profiles}
    (hcpu : settings.config.gpuLayers ≤ 0) (hrows : e.catalog = some rows)
    (h : (publishProfile settings fault model point).run e = .returns (.ok ()) e') :
    e' = { e with catalog := some (rows.insert (profileKey settings model)
      ⟨profileSchemaMajor, profileOf settings point⟩) } := by
  have hgpu : ¬ settings.config.gpuLayers > 0 := by omega
  unfold publishProfile at h
  rw [if_neg hgpu, Call.run_read_bind, hrows] at h
  rcases Call.of_ofExcept_bind h with ⟨_, _, _, herror⟩ | ⟨rows', hrows', h⟩
  · cases herror
  cases fault with
  | some err => cases hrows'
  | none =>
    cases hrows'
    cases h
    rfl

/-- A load of a model that was not resident publishes the point it measured, and enters the
model with headroom added to it. -/
theorem load_ok {settings : Settings} {model : Model} {a : Answers} {e e' : Engine}
    {rows : Profiles} {m : ModelRef} (hcpu : settings.config.gpuLayers ≤ 0)
    (hrows : e.catalog = some rows)
    (hnew : e.state.entries.lookup model.record.key = none)
    (h : (load settings model a).run e = .returns (.ok m) e') :
    ∃ admission loaded,
      (estimate settings a.query a.file model).run e = .returns (.ok admission) e ∧
      a.loaded = .ok loaded ∧
      e'.catalog = some (rows.insert (profileKey settings model)
        ⟨profileSchemaMajor, profileOf settings (measured admission loaded)⟩) ∧
      (e'.state.model m).point = (withHeadroom (measured admission loaded)).toPoint := by
  unfold load at h
  rcases Call.of_ofExcept_bind h with ⟨_, _, _, herror⟩ | ⟨_, _, h⟩
  · cases herror
  have hfind : e.state.find model.record = (none, e.state) := by
    unfold State.find
    rw [hnew]
  rw [Call.run_read_bind, hfind] at h
  simp only at h
  unfold loadNew at h
  obtain ⟨admission, t, hestimate, hrest⟩ := Call.of_bind_ok h
  have ht := (estimate_ok hestimate).1
  rw [ht] at hestimate hrest
  rw [Call.run_read_bind, Call.run_update_bind] at hrest
  rcases Call.of_ofExcept_bind hrest with ⟨_, _, _, herror⟩ | ⟨victims, _, hrest⟩
  · cases herror
  rcases Call.of_ofExcept_bind hrest with ⟨_, _, _, herror⟩ | ⟨loaded, hloaded, hrest⟩
  · cases herror
  rcases Call.of_ofExcept_bind hrest with ⟨_, _, _, herror⟩ | ⟨_, _, hrest⟩
  · cases herror
  rcases Call.of_check_bind hrest with ⟨_, _, herror⟩ | ⟨_, hrest⟩
  · cases herror
  have hentries : (e.state.plan settings.config admission.toPoint a.idle a.demote).2.entries =
      e.state.entries := by
    rw [plan_state, spillIdle_entries]
  unfold enterLoaded at hrest
  rw [Call.run_read_bind] at hrest
  simp only [hentries, hnew] at hrest
  rcases Call.of_check_bind hrest with ⟨_, _, herror⟩ | ⟨_, hrest⟩
  · cases herror
  obtain ⟨_, t', hpublish, hrest⟩ := Call.of_bind_ok hrest
  have hplanned : (Engine.mk (e.state.plan settings.config admission.toPoint a.idle a.demote).2
      e.catalog).catalog = some rows := hrows
  have ht' := publishProfile_ok hcpu hplanned hpublish
  rw [Call.run_update_bind] at hrest
  cases hrest
  refine ⟨admission, loaded, hestimate, ?_, ?_, ?_⟩
  · cases hanswer : a.loaded with
    | error err =>
      rw [hanswer] at hloaded
      cases hloaded
    | ok q =>
      rw [hanswer] at hloaded
      cases hloaded
      rfl
  · rw [ht']
  · rw [ht']
    simp only [State.insertLoaded, Function.update_self]

end Cusco.MeasuredProfiles
