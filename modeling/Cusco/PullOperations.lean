import Cusco.LifecycleEffects

/-!
Pulls of models. A pull begins an operation in the catalog, fetches the model, and registers it
in a blocking task whose publication completes the operation in the same transaction; an error
finishes the operation as failed. Pulls run side by side and beside every other call of the
lifecycle service. A registration that finds the model unchanged does not publish, and a task
that panics is not looked at any further: these leave the operation as it is.
-/

namespace Cusco.PullOperations

open Calls Runs ModelLifecycle LifecycleEffects

inductive Status
  | running
  | complete
  | failed
  deriving DecidableEq

/-- A row of `lifecycle_operations`. -/
structure OperationRow where
  modelId : String
  kind : String
  status : Status
  detail : Option String
  deriving DecidableEq

/-- The lifecycle service with the catalog's operations. -/
structure Registry where
  service : Service
  operations : Table String OperationRow
  deriving DecidableEq

/-- What ends a blocking task: an error it returns, or a panic. -/
inductive Failure
  | error (e : Error)
  | panicked
  deriving DecidableEq

def isRunning (operations : Table String OperationRow) (id : String) : Bool :=
  (operations.lookup id).any (fun row => row.status = .running)

def databaseError (text : String) : Error := .state ("catalog database: " ++ text)

/-- The text of an error. -/
def text : Error → String
  | .modelNotFound id => "model not installed: " ++ id
  | .state message => "state error: " ++ message
  | .other message => message

def absentOrTerminal (id : String) : Error :=
  .state ("catalog data: operation " ++ id ++ " is absent or terminal")

def finished (status : Status) (detail : Option String) (row : OperationRow) : OperationRow :=
  { row with status := status, detail := detail }

def beginOperation (fault : Option String) (id model kind : String)
    (operations : Table String OperationRow) : Except Error (Table String OperationRow) :=
  match fault with
  | some text => .error (databaseError text)
  | none =>
    if (operations.lookup id).isSome then
      .error (databaseError "UNIQUE constraint failed: lifecycle_operations.id")
    else .ok (operations.insert id ⟨model, kind, .running, none⟩)

def finishOperation (fault : Option String) (id : String) (status : Status)
    (detail : Option String) (operations : Table String OperationRow) :
    Except Error (Table String OperationRow) :=
  match fault with
  | some text => .error (databaseError text)
  | none =>
    if isRunning operations id then .ok (operations.modify id (finished status detail))
    else .error (absentOrTerminal id)

/-- One transaction: the model's row and the end of the operation. -/
def publishAndFinishOperation (fault : Option String) (operation : String) (model : ModelRecord)
    (r : Registry) : Except Error Registry :=
  match catalogPublish fault model r.service.rows with
  | .error e => .error e
  | .ok rows =>
    if isRunning r.operations operation then
      .ok ⟨{ r.service with rows := rows },
        r.operations.modify operation (finished .complete none)⟩
    else .error (absentOrTerminal operation)

abbrev Registration (α : Type) := Call Registry Failure α

/-- An outcome of the service, beside the operations. -/
def beside {α : Type} (operations : Table String OperationRow) :
    Outcome Service Error α → Outcome Registry Failure α
  | .returns (.ok a) s => .returns (.ok a) ⟨s, operations⟩
  | .returns (.error e) s => .returns (.error (.error e)) ⟨s, operations⟩
  | .panics => .panics

/-- A call of the service alone. -/
def lifted {α : Type} (x : Operation α) : Registration α :=
  ⟨fun r => beside r.operations (x.run r.service)⟩

/-- `prepare_model`, with the engine's answer, which may be a panic. -/
def prepareWith (answer : Option Failure) (model : ModelRecord) : Registration Unit :=
  match answer with
  | none => lifted (prepareModel none model)
  | some (.error e) => lifted (prepareModel (some e) model)
  | some .panicked => Call.fail .panicked

/-- `commit_model`. -/
def commitWith (panics : Bool) (model : ModelRecord) (previousEpoch : Option ℕ) :
    Registration Unit :=
  if panics then Call.fail .panicked
  else lifted (log (.commit model.id model.epoch previousEpoch))

/-- What the engine answers to a registration. -/
structure Engine where
  prepare : Option Failure
  commitPanics : Bool
  deriving DecidableEq

/-- The service beside the operations, with an engine that may panic. -/
def besideOperations (engine : Engine)
    (publish : ModelRecord → Registry → Except Error Registry) : Registrar Registry Failure where
  service r := r.service
  modify f r := { r with service := f r.service }
  refuse := .error
  prepare := prepareWith engine.prepare
  publish := publish
  commit := commitWith engine.commitPanics

/-- `register`, where the publication also writes the operations. -/
def registerWith (size : Except String ℕ) (engine : Engine)
    (publish : ModelRecord → Registry → Except Error Registry) (model : ModelRecord) :
    Registration ModelRecord := do
  let model ← lifted (Call.ofExcept (completed size model))
  registerCompleted (besideOperations engine publish) model

@[simp] theorem service_besideOperations (engine : Engine)
    (publish : ModelRecord → Registry → Except Error Registry) (r : Registry) :
    (besideOperations engine publish).service r = r.service := rfl

@[simp] theorem prepare_besideOperations (engine : Engine)
    (publish : ModelRecord → Registry → Except Error Registry) :
    (besideOperations engine publish).prepare = prepareWith engine.prepare := rfl

theorem prepareWith_none {r : Registry} {model : ModelRecord} : (prepareWith none model).run r =
    .returns (.ok ()) { r with service := logged r.service [.prepare model.id model.epoch true] } :=
  rfl

structure FetchedModel where
  identity : String
  path : String
  sha256 : String
  size : ℕ
  deriving DecidableEq

/-- The record of a fetched model with the architecture found in its file. -/
def pulledRecord (name : String) (fetched : FetchedModel) (architecture : String) :
    ModelRecord where
  id := name
  revision := fetched.identity
  path := fetched.path
  sha256 := fetched.sha256
  aliases := []
  family := architecture
  sizeBytes := fetched.size
  epoch := 0

/-- What the file, the engine and the database answer to the blocking task. -/
structure Task where
  probe : Except Failure String
  size : Except String ℕ
  engine : Engine
  fault : Option String

/-- The second blocking task. -/
def completion (operation name : String) (fetched : FetchedModel) (task : Task) :
    Registration ModelRecord := do
  let architecture ← Call.ofExcept task.probe
  registerWith task.size task.engine (publishAndFinishOperation task.fault operation)
    (pulledRecord name fetched architecture)

/-- Where a pull stands. -/
inductive Phase
  | fetching (name : String)
  | registering (name : String) (fetched : FetchedModel)
  | failing (e : Error) (detail : String)
  | returned (result : Except Error Unit)
  deriving DecidableEq

/-- The registry, and the pulls by their operation. -/
structure World where
  registry : Registry
  pulls : Table String Phase

def World.new (attached : Bool) (rows : Models) : World := ⟨⟨.new attached rows, ∅⟩, ∅⟩

inductive Act
  | begins (id name : String) (fault : Option String)
  | fetches (id : String) (outcome : Except String FetchedModel)
  | registers (id : String) (task : Task)
  | finishes (id : String) (fault : Option String)
  | service (action : Action)

/-- An error of the second task is to be recorded; a panic is returned at once. -/
def afterTask : Except Failure ModelRecord → Phase
  | .ok _ => .returned (.ok ())
  | .error (.error e) => .failing e (text e)
  | .error .panicked => .returned (.error (.state "task panicked"))

/-- A pull that cannot begin its operation returns at once. An error or a panic of the first
task is to be recorded. -/
def act (w : World) : Act → Option World
  | .begins id name fault =>
    match beginOperation fault id name "pull" w.registry.operations with
    | .error _ => some w
    | .ok operations => some ⟨{ w.registry with operations := operations },
        w.pulls.insert id (.fetching name)⟩
  | .fetches id outcome =>
    match w.pulls.lookup id with
    | some (.fetching name) =>
      match outcome with
      | .ok fetched => some { w with pulls := w.pulls.insert id (.registering name fetched) }
      | .error detail =>
        some { w with pulls := w.pulls.insert id (.failing (.state detail) detail) }
    | _ => none
  | .registers id task =>
    match w.pulls.lookup id with
    | some (.registering name fetched) =>
      match (completion id name fetched task).run w.registry with
      | .returns result registry => some ⟨registry, w.pulls.insert id (afterTask result)⟩
      | .panics => none
    | _ => none
  | .finishes id fault =>
    match w.pulls.lookup id with
    | some (.failing e detail) =>
      match finishOperation fault id .failed (some detail) w.registry.operations with
      | .ok operations => some ⟨{ w.registry with operations := operations },
          w.pulls.insert id (.returned (.error e))⟩
      | .error e' => some { w with pulls := w.pulls.insert id (.returned (.error e')) }
    | _ => none
  | .service action =>
    match ModelLifecycle.act w.registry.service action with
    | none => none
    | some service => some { w with registry := { w.registry with service := service } }

def Step (w : World) (a : Act) (w' : World) : Prop := act w a = some w'

/-- The operation of a pull that has returned is terminal: complete exactly if the pull was
successful, and failed if it was not. -/
def Terminal (operations : Table String OperationRow) (id : String)
    (result : Except Error Unit) : Prop :=
  ∃ row, operations.lookup id = some row ∧ (row.status = .complete ↔ result = .ok ()) ∧
    ((∃ e, result = .error e) → row.status = .failed)

def Terminated (w : World) : Prop :=
  ∀ id result, w.pulls.lookup id = some (.returned result) →
    Terminal w.registry.operations id result

def probePanics : Except Failure String → Bool
  | .error .panicked => true
  | _ => false

/-- The blocking task does not panic, and the engine is not found to have the model already. -/
def Clean (registry : Registry) (name : String) (fetched : FetchedModel) (task : Task) : Prop :=
  probePanics task.probe = false ∧
    ∀ architecture ∈ task.probe.toOption,
      ∀ model ∈ (completed task.size (pulledRecord name fetched architecture)).toOption,
        task.engine.prepare ≠ some .panicked ∧
          (task.engine.prepare = none → registeredSame registry.service.models model = none ∧
            (task.engine.commitPanics = true → (catalogPublish task.fault
              { model with epoch := registry.service.nextEpoch } registry.service.rows).toOption =
                none))

instance (registry : Registry) (name : String) (fetched : FetchedModel) (task : Task) :
    Decidable (Clean registry name fetched task) :=
  inferInstanceAs (Decidable (_ ∧ _))

def Phase.toRegister : Phase → Option (String × FetchedModel)
  | .registering name fetched => some (name, fetched)
  | _ => none

/-- The task of a pull is clean, and the write that records an error is not refused. -/
def Ends (w : World) : Act → Prop
  | .registers id task => ∀ fetched ∈ (w.pulls.lookup id).bind Phase.toRegister,
      Clean w.registry fetched.1 fetched.2 task
  | .finishes _ fault => fault = none
  | _ => True

instance (w : World) (a : Act) : Decidable (Ends w a) :=
  match a with
  | .registers id task => inferInstanceAs (Decidable (∀ fetched ∈
      (w.pulls.lookup id).bind Phase.toRegister, Clean w.registry fetched.1 fetched.2 task))
  | .finishes _ fault => inferInstanceAs (Decidable (fault = none))
  | .begins _ _ _ | .fetches _ _ | .service _ => inferInstanceAs (Decidable True)

section Completion

variable {r r' : Registry} {size : Except String ℕ} {engine : Engine} {fault : Option String}
  {operation : String} {model : ModelRecord} {result : Except Failure ModelRecord}

/-- The operations after the publication. -/
def completedBy (operation : String) (operations : Table String OperationRow) :
    Table String OperationRow :=
  operations.modify operation (finished .complete none)

/-- A publication that succeeds was of an epoch that SQLite can store. -/
theorem epoch_of_published {rows rows' : Models}
    (h : catalogPublish fault model rows = .ok rows') : model.epoch < u64Max := by
  unfold catalogPublish at h
  obtain ⟨-, h⟩ := ok_of_ite h
  obtain ⟨-, h⟩ := ok_of_ite h
  obtain ⟨hepoch, -⟩ := ok_of_ite h
  have hbounds : i64Max < u64Max := by decide
  omega

theorem prepareWith_some (model : ModelRecord) (failure : Failure) : ∃ service,
    (prepareWith (some failure) model).run r =
      .returns (.error failure) { r with service := service } := by
  cases failure with
  | error e => exact ⟨logged r.service [.prepare model.id model.epoch false], rfl⟩
  | panicked => exact ⟨r.service, rfl⟩

theorem enterAndCommit_run (engine : Engine)
    (publish : ModelRecord → Registry → Except Error Registry) (previousEpoch : Option ℕ)
    (hepoch : model.epoch < u64Max) : ∃ service,
    (enterAndCommit (besideOperations engine publish) model previousEpoch).run r =
      .returns (if engine.commitPanics then .error .panicked else .ok model)
        ⟨service, r.operations⟩ := by
  unfold enterAndCommit
  rw [if_pos hepoch]
  obtain ⟨prepare, panics⟩ := engine
  cases panics with
  | true => exact ⟨_, rfl⟩
  | false => exact ⟨_, rfl⟩

/-- A registration that gets to the publication: it is refused, or the operation is complete. -/
theorem registerNew_published (fault : Option String) (model : ModelRecord)
    (hrunning : isRunning r.operations operation = true)
    (hprepare : engine.prepare = none) {m : ModelRecord}
    (hm : m = { model with epoch := r.service.nextEpoch }) :
    (∃ e service, (catalogPublish fault m r.service.rows).toOption = none ∧
      (registerNew (besideOperations engine (publishAndFinishOperation fault operation))
        model).run r = .returns (.error (.error e)) ⟨service, r.operations⟩) ∨
    ∃ service, (catalogPublish fault m r.service.rows).toOption ≠ none ∧
      (registerNew (besideOperations engine (publishAndFinishOperation fault operation))
        model).run r = .returns (if engine.commitPanics then .error .panicked else .ok m)
          ⟨service, completedBy operation r.operations⟩ := by
  subst hm
  unfold registerNew
  rw [Call.run_read_bind]
  simp only [besideOperations, hprepare]
  rw [Call.run_bind_ok prepareWith_none, Call.run_read_bind]
  unfold publishAndFinishOperation
  cases hpublish : catalogPublish fault { model with epoch := r.service.nextEpoch }
      r.service.rows with
  | error e =>
    left
    refine ⟨e, logged (logged r.service [.prepare model.id r.service.nextEpoch true])
      [.retire model.id r.service.nextEpoch], rfl, ?_⟩
    simp only [logged, hpublish]
    rfl
  | ok rows =>
    right
    simp only [logged, hpublish, hrunning, if_true, Call.run_update_bind]
    let prepared := logged r.service [.prepare model.id r.service.nextEpoch true]
    obtain ⟨service, hrun⟩ := enterAndCommit_run
      (r := ⟨{ prepared with rows := rows }, completedBy operation r.operations⟩)
      engine (publishAndFinishOperation fault operation)
      ((r.service.models.lookup model.id).map (fun record => record.epoch))
      (epoch_of_published hpublish)
    rw [← hprepare]
    refine ⟨service, ?_, hrun⟩
    simp [Except.toOption]

/-- What the second task does to the operation, and whether it is clean. -/
inductive Completes (r : Registry) (operation name : String) (fetched : FetchedModel)
    (task : Task) (r' : Registry) : Except Failure ModelRecord → Prop
  | refused (e : Error) (hoperations : r'.operations = r.operations)
      (hclean : Clean r name fetched task) : Completes r operation name fetched task r'
        (.error (.error e))
  | published (m : ModelRecord) (hoperations : r'.operations = completedBy operation r.operations)
      (hclean : Clean r name fetched task) : Completes r operation name fetched task r' (.ok m)
  | unchanged (m : ModelRecord) (hoperations : r'.operations = r.operations)
      (hclean : ¬Clean r name fetched task) : Completes r operation name fetched task r' (.ok m)
  | panicked (hoperations : r'.operations = r.operations ∨
        r'.operations = completedBy operation r.operations)
      (hclean : ¬Clean r name fetched task) : Completes r operation name fetched task r'
        (.error .panicked)

theorem completion_run (name : String) (fetched : FetchedModel) (task : Task)
    (hrunning : isRunning r.operations operation = true) : ∃ result r',
      (completion operation name fetched task).run r = .returns result r' ∧
      Completes r operation name fetched task r' result := by
  unfold completion
  cases hprobe : task.probe with
  | error failure =>
    refine ⟨.error failure, r, rfl, ?_⟩
    cases failure with
    | error e => exact .refused e rfl (by simp [Clean, hprobe, probePanics, Except.toOption])
    | panicked => exact .panicked (Or.inl rfl) (by simp [Clean, hprobe, probePanics])
  | ok architecture =>
    have hprobed : (Call.ofExcept (.ok architecture) : Registration String).run r =
        .returns (.ok architecture) r := rfl
    rw [Call.run_bind_ok hprobed]
    unfold registerWith
    cases hcompleted : completed task.size (pulledRecord name fetched architecture) with
    | error e =>
      refine ⟨.error (.error e), r, rfl, .refused e rfl ?_⟩
      simp [Clean, hprobe, hcompleted, probePanics, Except.toOption]
    | ok model =>
      have hclean : Clean r name fetched task ↔ task.engine.prepare ≠ some .panicked ∧
          (task.engine.prepare = none → registeredSame r.service.models model = none ∧
            (task.engine.commitPanics = true → (catalogPublish task.fault
              { model with epoch := r.service.nextEpoch } r.service.rows).toOption = none)) := by
        unfold Clean
        simp only [hprobe, hcompleted, probePanics, Except.toOption, Option.mem_some_iff,
          forall_eq', true_and]
      have hlifted : (lifted (Call.ofExcept (.ok model)) : Registration ModelRecord).run r =
          .returns (.ok model) r := rfl
      rw [Call.run_bind_ok hlifted, registerCompleted_run, service_besideOperations,
        prepare_besideOperations]
      cases hprepare : task.engine.prepare with
      | some failure =>
        have hrefused : ∀ service,
          Completes r operation name fetched task { r with service := service }
            (.error failure) := by
          intro service
          cases failure with
          | error e => exact .refused e rfl (hclean.mpr (by simp [hprepare]))
          | panicked => exact .panicked (Or.inl rfl) (by simp [hclean, hprepare])
        cases hsame : registeredSame r.service.models model with
        | some existing =>
          obtain ⟨service, hrun⟩ := prepareWith_some (r := r) existing failure
          refine ⟨.error failure, _, ?_, hrefused service⟩
          simp only
          exact Call.run_bind_error hrun _
        | none =>
          obtain ⟨service, hrun⟩ := prepareWith_some (r := r)
            { model with epoch := r.service.nextEpoch } failure
          refine ⟨.error failure, _, ?_, hrefused service⟩
          simp only
          unfold registerNew
          rw [Call.run_read_bind]
          simp only [service_besideOperations, prepare_besideOperations, hprepare]
          exact Call.run_bind_error hrun _
      | none =>
        cases hsame : registeredSame r.service.models model with
        | some existing =>
          let prepared := logged r.service [.prepare existing.id existing.epoch true]
          refine ⟨.ok existing, ⟨prepared, r.operations⟩, ?_,
            .unchanged existing rfl (by simp [hclean, hprepare, hsame])⟩
          simp only
          rw [Call.run_bind_ok prepareWith_none, Call.run_pure]
        | none =>
          simp only
          rcases registerNew_published task.fault model hrunning hprepare rfl with
            ⟨e, service, hrefused, hrun⟩ | ⟨service, hpublished, hrun⟩
          · exact ⟨_, _, hrun, .refused e rfl (hclean.mpr (by simp [hprepare, hsame, hrefused]))⟩
          · refine ⟨_, _, hrun, ?_⟩
            cases hpanics : task.engine.commitPanics with
            | false => exact .published _ rfl (hclean.mpr (by simp [hprepare, hsame, hpanics]))
            | true =>
              exact .panicked (Or.inr rfl) (by simp [hclean, hprepare, hsame, hpanics, hpublished])

end Completion

section Runs

variable {w w' : World}

/-- The operation of a pull that has not returned is running. -/
def Phase.open : Phase → Bool
  | .returned _ => false
  | _ => true

structure Tracked (w : World) : Prop where
  running : ∀ id phase, w.pulls.lookup id = some phase → phase.open = true →
    isRunning w.registry.operations id = true
  begun : ∀ id, (w.pulls.lookup id).isSome → (w.registry.operations.lookup id).isSome

/-- The operations differ in one row at most. -/
def Touches (id : String) (operations operations' : Table String OperationRow) : Prop :=
  ∀ other, other ≠ id → operations'.lookup other = operations.lookup other

theorem Touches.refl (id : String) (operations : Table String OperationRow) :
    Touches id operations operations := fun _ _ => rfl

theorem touches_modify (id : String) (f : OperationRow → OperationRow)
    (operations : Table String OperationRow) : Touches id operations (operations.modify id f) := by
  intro other hother
  rw [AList.lookup_modify, if_neg hother]

theorem isRunning_congr {operations operations' : Table String OperationRow} {id : String}
    (h : operations'.lookup id = operations.lookup id) :
    isRunning operations' id = isRunning operations id := by
  unfold isRunning
  rw [h]

theorem begun_of_running {operations : Table String OperationRow} {id : String}
    (h : isRunning operations id = true) : (operations.lookup id).isSome := by
  obtain ⟨row, hrow, -⟩ := (Option.any_eq_true _ _).mp h
  rw [hrow]
  rfl

variable {service : Service} {operations : Table String OperationRow} {id : String} {phase : Phase}

theorem tracked_insert (h : Tracked w) (htouches : Touches id w.registry.operations operations)
    (hbegun : (operations.lookup id).isSome)
    (hrunning : phase.open = true → isRunning operations id = true) :
    Tracked ⟨⟨service, operations⟩, w.pulls.insert id phase⟩ := by
  refine ⟨?_, ?_⟩
  · intro other phase' hphase hopen
    rw [AList.lookup_insert_ite] at hphase
    by_cases hother : other = id
    · rw [if_pos hother] at hphase
      cases hphase
      rw [hother]
      exact hrunning hopen
    · rw [if_neg hother] at hphase
      rw [isRunning_congr (htouches other hother)]
      exact h.running other phase' hphase hopen
  · intro other hphase
    rw [AList.lookup_insert_ite] at hphase
    by_cases hother : other = id
    · rw [hother]
      exact hbegun
    · rw [if_neg hother] at hphase
      rw [htouches other hother]
      exact h.begun other hphase

theorem terminated_insert (h : Terminated w)
    (htouches : Touches id w.registry.operations operations) :
    Terminated ⟨⟨service, operations⟩, w.pulls.insert id phase⟩ ↔
      ∀ result, phase = .returned result → Terminal operations id result := by
  constructor
  · intro hall result hphase
    apply hall id result
    rw [AList.lookup_insert_ite, if_pos rfl, hphase]
  · intro hhere other result hphase
    rw [AList.lookup_insert_ite] at hphase
    by_cases hother : other = id
    · rw [if_pos hother] at hphase
      rw [hother]
      exact hhere result (Option.some.inj hphase)
    · rw [if_neg hother] at hphase
      unfold Terminal
      rw [htouches other hother]
      exact h other result hphase

/-- A pull that returns while its operation is running has not ended it. -/
theorem not_terminal_of_running {result : Except Error Unit}
    (h : isRunning operations id = true) : ¬Terminal operations id result := by
  intro hterminal
  obtain ⟨row, hrow, hcomplete, hfailed⟩ := hterminal
  obtain ⟨row', hrow', hrunning⟩ := (Option.any_eq_true _ _).mp h
  rw [hrow] at hrow'
  cases hrow'
  have hstatus := of_decide_eq_true hrunning
  cases result with
  | ok u =>
    rw [hcomplete.mpr rfl] at hstatus
    cases hstatus
  | error e =>
    rw [hfailed ⟨e, rfl⟩] at hstatus
    cases hstatus

theorem terminal_modify {operations : Table String OperationRow}
    (h : isRunning operations id = true)
    (status : Status) (detail : Option String) (result : Except Error Unit) :
    Terminal (operations.modify id (finished status detail)) id result ↔
      (status = .complete ↔ result = .ok ()) ∧ ((∃ e, result = .error e) → status = .failed) := by
  obtain ⟨row, hrow, -⟩ := (Option.any_eq_true _ _).mp h
  have hmodified : (operations.modify id (finished status detail)).lookup id =
      some (finished status detail row) := by
    rw [AList.lookup_modify, if_pos rfl, hrow]
    rfl
  unfold Terminal
  rw [hmodified]
  constructor
  · intro hterminal
    obtain ⟨row', hrow', hrest⟩ := hterminal
    cases hrow'
    exact hrest
  · intro hrest
    exact ⟨_, rfl, hrest⟩

theorem isRunning_insert (operations : Table String OperationRow) (id model kind : String) :
    isRunning (operations.insert id ⟨model, kind, .running, none⟩) id = true := by
  unfold isRunning
  rw [AList.lookup_insert_ite, if_pos rfl]
  rfl

/-- A step of one pull: it goes on while its operation is running, or it returns. -/
theorem pull_moves (h : Tracked w) (htouches : Touches id w.registry.operations operations)
    (hbegun : (operations.lookup id).isSome)
    (hrunning : phase.open = true → isRunning operations id = true) {cond : Prop}
    (hcond : (∀ result, phase = .returned result → Terminal operations id result) ↔ cond) :
    Tracked ⟨⟨service, operations⟩, w.pulls.insert id phase⟩ ∧
      (Terminated w → (Terminated ⟨⟨service, operations⟩, w.pulls.insert id phase⟩ ↔ cond)) := by
  refine ⟨tracked_insert h htouches hbegun hrunning, ?_⟩
  intro hterminated
  rw [terminated_insert hterminated htouches, hcond]

theorem pull_goes_on (h : Tracked w) (htouches : Touches id w.registry.operations operations)
    (hrunning : isRunning operations id = true) (hopen : phase.open = true) {cond : Prop}
    (hcond : cond) : Tracked ⟨⟨service, operations⟩, w.pulls.insert id phase⟩ ∧
      (Terminated w → (Terminated ⟨⟨service, operations⟩, w.pulls.insert id phase⟩ ↔ cond)) := by
  refine pull_moves h htouches (begun_of_running hrunning) (fun _ => hrunning)
    (iff_of_true ?_ hcond)
  intro result hphase
  rw [hphase] at hopen
  cases hopen

theorem pull_returns (h : Tracked w) (htouches : Touches id w.registry.operations operations)
    (hbegun : (operations.lookup id).isSome) (result : Except Error Unit) {cond : Prop}
    (hcond : Terminal operations id result ↔ cond) :
    Tracked ⟨⟨service, operations⟩, w.pulls.insert id (.returned result)⟩ ∧
      (Terminated w →
        (Terminated ⟨⟨service, operations⟩, w.pulls.insert id (.returned result)⟩ ↔ cond)) := by
  refine pull_moves h htouches hbegun (fun hopen => Bool.noConfusion hopen) ?_
  rw [← hcond]
  constructor
  · intro hall
    exact hall result rfl
  · intro hterminal result' hphase
    cases hphase
    exact hterminal

theorem begun_modify {operations : Table String OperationRow} (h : isRunning operations id = true)
    (status : Status) (detail : Option String) :
    ((operations.modify id (finished status detail)).lookup id).isSome := by
  rw [AList.lookup_modify, if_pos rfl, Option.isSome_map]
  exact begun_of_running h

/-- The second task ends the operation exactly if it is clean. -/
theorem completes_moves {name : String} {fetched : FetchedModel} {task : Task} {registry : Registry}
    {result : Except Failure ModelRecord} (h : Tracked w)
    (hrunning : isRunning w.registry.operations id = true)
    (hcompletes : Completes w.registry id name fetched task registry result) :
    Tracked ⟨registry, w.pulls.insert id (afterTask result)⟩ ∧
      (Terminated w → (Terminated ⟨registry, w.pulls.insert id (afterTask result)⟩ ↔
        Clean w.registry name fetched task)) := by
  have hkept := Touches.refl id w.registry.operations
  have hdone := touches_modify id (finished .complete none) w.registry.operations
  have hbegun := begun_of_running hrunning
  obtain ⟨service, operations⟩ := registry
  cases hcompletes with
  | refused e hoperations hclean =>
    obtain rfl : operations = _ := hoperations
    exact pull_goes_on h hkept hrunning rfl hclean
  | published m hoperations hclean =>
    obtain rfl : operations = _ := hoperations
    refine pull_returns h hdone (begun_modify hrunning _ _) _ (iff_of_true ?_ hclean)
    exact (terminal_modify hrunning .complete none _).mpr (by simp)
  | unchanged m hoperations hclean =>
    obtain rfl : operations = _ := hoperations
    exact pull_returns h hkept hbegun _ (iff_of_false (not_terminal_of_running hrunning) hclean)
  | panicked hoperations hclean =>
    rcases hoperations with hoperations | hoperations
    · obtain rfl : operations = _ := hoperations
      exact pull_returns h hkept hbegun _ (iff_of_false (not_terminal_of_running hrunning) hclean)
    · obtain rfl : operations = _ := hoperations
      refine pull_returns h hdone (begun_modify hrunning _ _) _ (iff_of_false ?_ hclean)
      intro hterminal
      have hcomplete := ((terminal_modify hrunning .complete none _).mp hterminal).1.mp rfl
      cases hcomplete

/-- One step keeps the pulls tracked, and every pull that returns in it ends its operation
exactly if the condition holds. -/
theorem step_ends (a : Act) (h : Tracked w) (hstep : Step w a w') :
    Tracked w' ∧ (Terminated w → (Terminated w' ↔ Ends w a)) := by
  cases a with
  | begins id name fault =>
    unfold Step act at hstep
    cases hbegin : beginOperation fault id name "pull" w.registry.operations with
    | error e =>
      simp only [hbegin] at hstep
      cases hstep
      exact ⟨h, fun hterminated => iff_of_true hterminated trivial⟩
    | ok operations =>
      simp only [hbegin] at hstep
      cases hstep
      unfold beginOperation at hbegin
      cases fault with
      | some text => cases hbegin
      | none =>
        obtain ⟨-, hbegin⟩ := ok_of_ite hbegin
        cases hbegin
        refine pull_goes_on h ?_ (isRunning_insert _ id name "pull") rfl trivial
        intro other hother
        rw [AList.lookup_insert_ite, if_neg hother]
  | fetches id outcome =>
    unfold Step act at hstep
    cases hphase : w.pulls.lookup id with
    | none => simp [hphase] at hstep
    | some phase =>
      cases phase with
      | registering | failing | returned => simp [hphase] at hstep
      | fetching name =>
        have hrunning := h.running id _ hphase rfl
        have hkept := Touches.refl id w.registry.operations
        cases outcome with
        | ok fetched =>
          simp only [hphase] at hstep
          cases hstep
          exact pull_goes_on h hkept hrunning rfl trivial
        | error detail =>
          simp only [hphase] at hstep
          cases hstep
          exact pull_goes_on h hkept hrunning rfl trivial
  | registers id task =>
    unfold Step act at hstep
    cases hphase : w.pulls.lookup id with
    | none => simp [hphase] at hstep
    | some phase =>
      cases phase with
      | fetching | failing | returned => simp [hphase] at hstep
      | registering name fetched =>
        have hrunning := h.running id _ hphase rfl
        have hends : Ends w (.registers id task) ↔ Clean w.registry name fetched task := by
          simp [Ends, hphase, Phase.toRegister]
        obtain ⟨result, registry, hrun, hcompletes⟩ := completion_run name fetched task hrunning
        simp only [hphase, hrun] at hstep
        cases hstep
        rw [hends]
        exact completes_moves h hrunning hcompletes
  | finishes id fault =>
    unfold Step act at hstep
    cases hphase : w.pulls.lookup id with
    | none => simp [hphase] at hstep
    | some phase =>
      cases phase with
      | fetching | registering | returned => simp [hphase] at hstep
      | failing e detail =>
        have hrunning := h.running id _ hphase rfl
        cases fault with
        | some text =>
          simp only [hphase, finishOperation] at hstep
          cases hstep
          refine pull_returns h (Touches.refl id _) (begun_of_running hrunning) _
            (iff_of_false (not_terminal_of_running hrunning) ?_)
          simp [Ends]
        | none =>
          simp only [hphase, finishOperation, hrunning, if_true] at hstep
          cases hstep
          refine pull_returns h (touches_modify id _ _) (begun_modify hrunning _ _) _
            (iff_of_true ?_ rfl)
          exact (terminal_modify hrunning .failed (some detail) _).mpr (by simp)
  | service action =>
    unfold Step act at hstep
    cases hact : ModelLifecycle.act w.registry.service action with
    | none => simp [hact] at hstep
    | some service =>
      simp only [hact] at hstep
      cases hstep
      refine ⟨⟨h.running, h.begun⟩, ?_⟩
      intro hterminated
      exact iff_of_true hterminated trivial

end Runs

/-- However pulls and other calls are interleaved, every pull that has returned has ended its
operation exactly if the task of no pull panicked or found the model unchanged, and no write of
an error was refused. -/
theorem pulls_terminate (attached : Bool) (rows : Models) (run : List (Act × World))
    (hrun : IsRun Step (World.new attached rows) run) :
    (∀ x ∈ run, Terminated x.2) ↔ Meets Ends (World.new attached rows) run := by
  apply along_iff_meets Step Tracked Terminated Ends
  · intro w a w' h hstep
    exact (step_ends a h hstep).1
  · intro w a w' h hterminated hstep
    exact (step_ends a h hstep).2 hterminated
  · exact ⟨fun id phase hphase => (nomatch hphase), fun id hphase => (nomatch hphase)⟩
  · intro id result hphase
    cases hphase
  · exact hrun

/-- A model file that has been fetched, and a task on which nothing fails. -/
def fetchedModel : FetchedModel := ⟨"r1", "m.gguf", "00", 1⟩
def smoothTask : Task := ⟨.ok "gemma4", .ok 1, ⟨none, false⟩, none⟩

/-- A pull of `m` as one operation. -/
def pull (id : String) : List Act :=
  [.begins id "m" none, .fetches id (.ok fetchedModel), .registers id smoothTask]

theorem first_pull_terminates : ∃ run, IsRun Step (World.new true ∅) run ∧
    run.length = 6 ∧ ∀ x ∈ run, Terminated x.2 := by
  have hrun : (trace act (World.new true ∅) (pull "one" ++ [.begins "two" "m" none,
      .fetches "two" (.error "unreachable"), .finishes "two" none])).any
      (fun run => decide (Meets Ends (World.new true ∅) run)) = true := by
    decide +kernel
  obtain ⟨run, htrace, hchecks⟩ := (Option.any_eq_true _ _).mp hrun
  have hsteps : IsRun Step (World.new true ∅) run := isRun_of_trace _ _ _ run htrace
  have hlength := congrArg List.length (labels_of_trace _ _ _ run htrace)
  rw [List.length_map] at hlength
  exact ⟨run, hsteps, hlength,
    (pulls_terminate true ∅ run hsteps).mpr (of_decide_eq_true hchecks)⟩

/-- The second pull of the same file returns successfully while its operation is running. -/
theorem repull_stays_running : ∃ run, IsRun Step (World.new true ∅) run ∧
    run.map Prod.fst = pull "one" ++ pull "two" ∧
    (last (World.new true ∅) run).pulls.lookup "two" = some (.returned (.ok ())) ∧
    isRunning (last (World.new true ∅) run).registry.operations "two" = true ∧
    ¬Terminated (last (World.new true ∅) run) := by
  have hrun : (trace act (World.new true ∅) (pull "one" ++ pull "two")).any (fun run =>
      decide ((last (World.new true ∅) run).pulls.lookup "two" = some (.returned (.ok ()))) &&
      isRunning (last (World.new true ∅) run).registry.operations "two") = true := by
    decide +kernel
  obtain ⟨run, htrace, hchecks⟩ := (Option.any_eq_true _ _).mp hrun
  obtain ⟨hphase, hrunning⟩ := (Bool.and_eq_true_iff).mp hchecks
  have hreturned := of_decide_eq_true hphase
  refine ⟨run, isRun_of_trace _ _ _ run htrace, labels_of_trace _ _ _ run htrace, hreturned,
    hrunning, ?_⟩
  intro hterminated
  exact not_terminal_of_running hrunning (hterminated "two" _ hreturned)

end Cusco.PullOperations
