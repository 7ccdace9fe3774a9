import Mathlib.Data.Finset.Basic
import Cusco.Grants
import Cusco.MachineIntegers

/-!
Admission of requests. Every section under the lock of the server is one step, and
so is every step of a waiting reservation outside it: its receiver is polled, times
out or is dropped, and the guard is dropped afterwards. A queue entry's sender is
the identity of the guard that waits for it. Stamps and limits of grants are kept
for reasoning; no code reads them.
-/

namespace Cusco.Admission

open Grants

inductive Error
  | cancelled
  | deadline
  | busy
  | shuttingDown
  | payloadTooLarge
  | state (message : String)
  deriving DecidableEq

/-- The state of a `RequestControl`. -/
inductive ControlState
  | running
  | cancelled
  | deadline
  | complete
  deriving DecidableEq

namespace ControlState

def check : ControlState → Except Error Unit
  | running => .ok ()
  | deadline => .error .deadline
  | _ => .error .cancelled

def cancel : ControlState → ControlState
  | running => cancelled
  | s => s

def expire : ControlState → ControlState
  | running => deadline
  | s => s

/-- The completion of a control; the abort callbacks are left out. -/
def finish : ControlState → ControlState
  | running => complete
  | s => s

end ControlState

structure ServerConfig where
  activeRequests : ℕ
  queueCount : ℕ
  queueBytes : ℕ
  requestBytes : ℕ
  preQueueConcurrency : ℕ
  defaultOutputTokens : ℕ
  headerBytes : ℕ
  bodyTimeoutMs : ℕ
  wallTimeMs : ℕ
  activeTimeMs : ℕ
  streamBuffer : ℕ
  shutdownGraceMs : ℕ
  compactionEnabled : Bool
  compactionWorkers : ℕ
  compactionDeclarations : ℕ
  compactionDeclarationRatePerMinute : ℕ
  compactionDeclarationLifetimeMs : ℕ
  deriving DecidableEq

abbrev GuardId := ℕ

structure QueueEntry where
  ticket : ℕ
  requestId : String
  bytes : ℕ
  ready : GuardId
  deriving DecidableEq

/-- The state under the lock; a control is named by the guard made for it. -/
structure Inner where
  controls : Table String GuardId
  pendingCancelled : Finset String
  active : ℕ
  admissionLimit : ℕ
  queue : List QueueEntry
  queuedBytes : ℕ
  nextTicket : ℕ
  shuttingDown : Bool
  config : ServerConfig
  deriving DecidableEq

/-- A guard together with the receiver of the reservation that waits with it. The
grant is set when admission is granted, at once or by the message of a promotion. -/
structure AdmissionGuard where
  ticket : Option ℕ
  requestId : String
  active : Bool
  receiver : Bool
  grant : Option Grant
  deriving DecidableEq

structure Server where
  inner : Inner
  guards : Table GuardId AdmissionGuard
  controls : Table GuardId ControlState
  nextGuard : GuardId
  clock : ℕ
  deriving DecidableEq

namespace Server

def new (config : ServerConfig) : Server where
  inner :=
    { controls := ∅
      pendingCancelled := ∅
      active := 0
      admissionLimit := config.activeRequests
      queue := []
      queuedBytes := 0
      nextTicket := 0
      shuttingDown := false
      config := config }
  guards := ∅
  controls := ∅
  nextGuard := 0
  clock := 0

def updateControl (f : ControlState → ControlState) (control : GuardId) (s : Server) : Server :=
  { s with controls := s.controls.modify control f }

/-- `ready.send(())`: a dropped receiver refuses the message. -/
def send (ready : GuardId) (s : Server) : Option Server :=
  match s.guards.lookup ready with
  | some guard =>
    if guard.receiver then
      some { s with
        guards := s.guards.insert ready
          { guard with grant := some ⟨s.clock, s.inner.admissionLimit⟩ }
        clock := s.clock + 1 }
    else
      none
  | none => none

def popFront (entry : QueueEntry) (rest : List QueueEntry) (s : Server) : Server :=
  { s with inner := { s.inner with
      queue := rest
      queuedBytes := s.inner.queuedBytes - entry.bytes } }

def addActive (s : Server) : Server :=
  { s with inner := { s.inner with active := s.inner.active + 1 } }

/-- The loop of `promote_queued` over the entries in the queue. -/
def promoteEntries : List QueueEntry → Server → Server
  | [], s => s
  | entry :: rest, s =>
    if s.inner.active < s.inner.admissionLimit then
      match send entry.ready (popFront entry rest s) with
      | some sent => promoteEntries rest (addActive sent)
      | none => promoteEntries rest (popFront entry rest s)
    else
      s

def promoteQueued (s : Server) : Server := promoteEntries s.inner.queue s

/-- Remove the first entry that satisfies a predicate, with its bytes. -/
def dequeue (p : QueueEntry → Bool) (s : Server) : Option Server :=
  match s.inner.queue.find? p with
  | some entry => some { s with inner := { s.inner with
      queue := s.inner.queue.eraseP p
      queuedBytes := s.inner.queuedBytes - entry.bytes } }
  | none => none

def subActive (s : Server) : Server :=
  { s with inner := { s.inner with active := s.inner.active - 1 } }

/-- Remove the control under a request's id and complete it. -/
def removeControl (requestId : String) (s : Server) : Server :=
  match s.inner.controls.lookup requestId with
  | some control => updateControl ControlState.finish control
      { s with inner := { s.inner with controls := s.inner.controls.erase requestId } }
  | none => s

/-- The part of `release_or_cancel_admission` that settles the count or the queue. -/
def settle (ticket : Option ℕ) (active : Bool) (s : Server) : Server :=
  if active then
    subActive s
  else
    match ticket with
    | some ticket => (dequeue (fun entry => entry.ticket = ticket) s).getD (subActive s)
    | none => s

def releaseOrCancelAdmission (ticket : Option ℕ) (requestId : String) (active : Bool)
    (s : Server) : Server :=
  promoteQueued (settle ticket active (removeControl requestId s))

/-- The new guard and its control, which the caller made for the request. -/
def addGuard (guard : AdmissionGuard) (s : Server) : Server :=
  { s with
    guards := s.guards.insert s.nextGuard guard
    controls := s.controls.insert s.nextGuard .running
    nextGuard := s.nextGuard + 1 }

def insertControl (requestId : String) (s : Server) : Server :=
  { s with inner := { s.inner with
      controls := s.inner.controls.insert requestId s.nextGuard } }

/-- Admit a request at once. -/
def grantNow (requestId : String) (s : Server) : Server :=
  let granted := addGuard ⟨none, requestId, true, false,
    some ⟨s.clock, s.inner.admissionLimit⟩⟩ (addActive s)
  { granted with clock := s.clock + 1 }

def forgetCancelled (requestId : String) (s : Server) : Server :=
  { s with inner := { s.inner with
      pendingCancelled := s.inner.pendingCancelled.erase requestId } }

def tryAdmit (requestId : String) (s : Server) : Except Error GuardId × Server :=
  if requestId ∈ s.inner.pendingCancelled then
    (.error .cancelled, forgetCancelled requestId s)
  else if s.inner.shuttingDown then
    (.error .shuttingDown, s)
  else if s.inner.admissionLimit ≤ s.inner.active ∨ s.inner.queue ≠ [] then
    (.error .busy, s)
  else
    (.ok s.nextGuard, grantNow requestId (insertControl requestId s))

/-- Queue a request behind the others. -/
def enqueue (requestId : String) (bytes : ℕ) (s : Server) : Server :=
  addGuard ⟨some s.inner.nextTicket, requestId, false, true, none⟩
    { s with inner := { s.inner with
        nextTicket := s.inner.nextTicket + 1
        queue := s.inner.queue ++ [⟨s.inner.nextTicket, requestId, bytes, s.nextGuard⟩]
        queuedBytes := s.inner.queuedBytes + bytes } }

def eraseControl (requestId : String) (s : Server) : Server :=
  { s with inner := { s.inner with controls := s.inner.controls.erase requestId } }

/-- A control that stays in the map without a guard. -/
def leakControl (s : Server) : Server :=
  { s with
    controls := s.controls.insert s.nextGuard .running
    nextGuard := s.nextGuard + 1 }

/-- The locked section of `reserve_admission`. The guard it returns is active or
waits with the ticket of its queue entry. -/
def reserveAdmission (requestId : String) (bytes : ℕ) (s : Server) :
    Except Error GuardId × Server :=
  if requestId ∈ s.inner.pendingCancelled then
    (.error .cancelled, forgetCancelled requestId s)
  else if s.inner.shuttingDown then
    (.error .shuttingDown, s)
  else if s.inner.config.requestBytes < bytes then
    (.error .payloadTooLarge, s)
  else
    let inserted := insertControl requestId s
    if s.inner.active < s.inner.admissionLimit ∧ s.inner.queue = [] then
      (.ok s.nextGuard, grantNow requestId inserted)
    else if s.inner.config.queueCount ≤ s.inner.queue.length ∨
        s.inner.config.queueBytes - s.inner.queuedBytes < bytes then
      (.error .busy, eraseControl requestId inserted)
    else if s.inner.nextTicket = u64Max then
      (.error (.state "admission ticket space exhausted"), leakControl inserted)
    else
      (.ok s.nextGuard, enqueue requestId bytes inserted)

def cancelControl (request : String) (s : Server) : Server :=
  match s.inner.controls.lookup request with
  | some control => updateControl ControlState.cancel control s
  | none => { s with inner := { s.inner with
      pendingCancelled := insert request s.inner.pendingCancelled } }

def cancel (request : String) (s : Server) : Server :=
  let cancelled := cancelControl request s
  promoteQueued ((dequeue (fun entry => entry.requestId = request) cancelled).getD cancelled)

def setAdmissionLimit (limit : ℕ) (s : Server) : Server :=
  promoteQueued { s with inner := { s.inner with
    admissionLimit := limit
    config := { s.inner.config with activeRequests := limit } } }

/-- Some limit of a configuration is zero. -/
def hasZeroLimit (config : ServerConfig) : Bool :=
  config.activeRequests == 0 || config.queueCount == 0 || config.queueBytes == 0 ||
  config.requestBytes == 0 || config.preQueueConcurrency == 0 ||
  config.defaultOutputTokens == 0 || config.headerBytes == 0 || config.bodyTimeoutMs == 0 ||
  config.wallTimeMs == 0 || config.activeTimeMs == 0 || config.streamBuffer == 0 ||
  config.shutdownGraceMs == 0 || config.compactionWorkers == 0 ||
  config.compactionDeclarations == 0 || config.compactionDeclarationRatePerMinute == 0 ||
  config.compactionDeclarationLifetimeMs == 0

/-- `Server::configure`, without the gates of the pre-queue and of the workers. -/
def configure (config : ServerConfig) (s : Server) : Except Error Unit × Server :=
  if hasZeroLimit config then
    (.error (.state "server limits must be nonzero"), s)
  else
    (.ok (), promoteQueued { s with inner := { s.inner with
      admissionLimit := config.activeRequests
      config := config } })

def beginShutdown (s : Server) : Server :=
  { s with inner := { s.inner with shuttingDown := true } }

def cancelRemaining (s : Server) : Server :=
  let cancelled := s.inner.controls.values.foldl
    (fun t control => updateControl ControlState.cancel control t) s
  { cancelled with inner := { cancelled.inner with
      queue := []
      queuedBytes := 0 } }

def setGuard (id : GuardId) (guard : AdmissionGuard) (s : Server) : Server :=
  { s with guards := s.guards.insert id guard }

def checkControl (id : GuardId) (s : Server) : Except Error Unit :=
  match s.controls.lookup id with
  | some control => control.check
  | none => .ok ()

/-- The sender of a guard is gone: no queue entry holds it. -/
def senderDropped (id : GuardId) (s : Server) : Bool :=
  s.inner.queue.all (fun entry => entry.ready ≠ id)

/-- The receiver is polled. A message makes the guard active unless its control has
ended; a closed channel takes the ticket from the guard. -/
def resume (id : GuardId) (s : Server) : Server :=
  match s.guards.lookup id with
  | some guard =>
    if guard.receiver then
      if guard.grant.isSome then
        match checkControl id s with
        | .ok () => setGuard id { guard with receiver := false, ticket := none, active := true } s
        | .error _ => setGuard id { guard with receiver := false } s
      else if senderDropped id s then
        setGuard id { guard with receiver := false, ticket := none } s
      else
        s
    else
      s
  | none => s

/-- The receiver goes away at its deadline or because the future is dropped. -/
def closeReceiver (id : GuardId) (s : Server) : Server :=
  match s.guards.lookup id with
  | some guard => if guard.receiver then setGuard id { guard with receiver := false } s else s
  | none => s

/-- The deadline of a waiting reservation passes, which expires its control. -/
def timeOut (id : GuardId) (s : Server) : Server :=
  match s.guards.lookup id with
  | some guard =>
    if guard.receiver then updateControl ControlState.expire id (closeReceiver id s) else s
  | none => s

/-- The drop of a guard, once no future waits with it. -/
def dropGuard (id : GuardId) (s : Server) : Server :=
  match s.guards.lookup id with
  | some guard =>
    if guard.receiver then
      s
    else
      releaseOrCancelAdmission guard.ticket guard.requestId guard.active
        { s with guards := s.guards.erase id }
  | none => s

end Server

inductive Action
  | reserveAdmission (requestId : String) (bytes : ℕ)
  | tryAdmit (requestId : String)
  | cancel (request : String)
  | setAdmissionLimit (limit : ℕ)
  | configure (config : ServerConfig)
  | beginShutdown
  | cancelRemaining
  | resume (id : GuardId)
  | timeOut (id : GuardId)
  | dropFuture (id : GuardId)
  | dropGuard (id : GuardId)
  /-- A control changes outside the lock: a disconnect cancels it, a watchdog expires it. -/
  | cancelControl (id : GuardId)
  | expireControl (id : GuardId)

def perform (s : Server) : Action → Server
  | .reserveAdmission requestId bytes => (s.reserveAdmission requestId bytes).2
  | .tryAdmit requestId => (s.tryAdmit requestId).2
  | .cancel request => s.cancel request
  | .setAdmissionLimit limit => s.setAdmissionLimit limit
  | .configure config => (s.configure config).2
  | .beginShutdown => s.beginShutdown
  | .cancelRemaining => s.cancelRemaining
  | .resume id => s.resume id
  | .timeOut id => s.timeOut id
  | .dropFuture id => s.closeReceiver id
  | .dropGuard id => s.dropGuard id
  | .cancelControl id => s.updateControl ControlState.cancel id
  | .expireControl id => s.updateControl ControlState.expire id

def Step (s : Server) (a : Action) (t : Server) : Prop := t = perform s a

end Cusco.Admission
