import Cusco.Tables
import Cusco.MachineIntegers

/-!
Compaction declarations of the server: they are created for a principal, expire, and may be
looked up and revoked by their principal. The number of declarations and the rate of a
principal's creations are limited.
-/

namespace Cusco.CompactionDeclarations

inductive Error
  | badRequest (message : String)
  | busy
  | forbidden
  | state (message : String)
  deriving DecidableEq

structure Config where
  compactionEnabled : Bool
  compactionDeclarationLifetimeMs : ℕ
  compactionDeclarations : ℕ
  compactionDeclarationRatePerMinute : ℕ

structure CreateCompactionDeclaration where
  contextId : String
  strategyPreferences : List String
  targetTokens : Option ℕ
  expiresInMs : ℕ
  deriving DecidableEq

structure CompactionDeclaration where
  declarationId : String
  contextId : String
  strategyPreferences : List String
  targetTokens : Option ℕ
  expiresAtMs : ℕ
  deriving DecidableEq

structure DeclarationRecord where
  declaration : CompactionDeclaration
  principal : String
  deriving DecidableEq

/-- The records by identifier, and the times of recent creations by principal. -/
structure DeclarationState where
  records : Table String DeclarationRecord
  creationTimes : Table String (List ℕ)

def window : ℕ := 60000

/-- Declarations that have expired are dropped. -/
def liveRecords (now : ℕ) (records : Table String DeclarationRecord) :
    Table String DeclarationRecord :=
  records.retain (fun _ record =>
    if record.declaration.expiresAtMs > now then some record else none)

/-- Creations that have left the window are popped off the front. -/
def recentTimes (now : ℕ) (times : Table String (List ℕ)) : Table String (List ℕ) :=
  times.retain (fun _ recent =>
    let recent := recent.dropWhile (fun created => decide (now - created ≥ window))
    if recent.isEmpty then none else some recent)

/-- The times of the principal, pruned once more. -/
def principalTimes (now : ℕ) (principal : String) (times : Table String (List ℕ)) : List ℕ :=
  ((times.lookup principal).getD []).dropWhile (fun created => decide (created ≤ now - window))

def epochError : Error := .state "system clock before unix epoch"

/-- `id` is the identifier that is drawn; `clock` is `none` before the epoch. -/
def createCompactionDeclarationFor (config : Config) (s : DeclarationState) (principal : String)
    (request : CreateCompactionDeclaration) (clock : Option ℕ) (id : String) :
    Except Error CompactionDeclaration × DeclarationState :=
  if ¬config.compactionEnabled then (.error (.badRequest "compaction is disabled"), s)
  else if request.expiresInMs = 0 ∨
      request.expiresInMs > config.compactionDeclarationLifetimeMs then
    (.error (.badRequest "invalid compaction declaration lifetime"), s)
  else
    match clock with
    | none => (.error epochError, s)
    | some now =>
      let declaration : CompactionDeclaration :=
        ⟨id, request.contextId, request.strategyPreferences, request.targetTokens,
          min (now + request.expiresInMs) u64Max⟩
      let records := liveRecords now s.records
      let times := recentTimes now s.creationTimes
      if records.entries.length ≥ config.compactionDeclarations then
        (.error .busy, ⟨records, times⟩)
      else
        let recent := principalTimes now principal times
        if recent.length ≥ config.compactionDeclarationRatePerMinute then
          (.error .busy, ⟨records, times.insert principal recent⟩)
        else
          (.ok declaration, ⟨records.insert id ⟨declaration, principal⟩,
            times.insert principal (recent ++ [now])⟩)

def notFound : Error := .badRequest "compaction declaration not found"

def compactionDeclarationFor (s : DeclarationState) (principal : String) (clock : Option ℕ)
    (id : String) : Except Error CompactionDeclaration × DeclarationState :=
  match clock with
  | none => (.error epochError, s)
  | some now =>
    match s.records.lookup id with
    | none => (.error notFound, s)
    | some record =>
      if record.declaration.expiresAtMs ≤ now then
        (.error (.badRequest "compaction declaration expired"),
          { s with records := s.records.erase id })
      else if record.principal ≠ principal then (.error .forbidden, s)
      else (.ok record.declaration, s)

def revokeCompactionDeclarationFor (s : DeclarationState) (principal : String) (id : String) :
    Except Error Unit × DeclarationState :=
  match s.records.lookup id with
  | none => (.error notFound, s)
  | some record =>
    if record.principal ≠ principal then (.error .forbidden, s)
    else (.ok (), { s with records := s.records.erase id })

end Cusco.CompactionDeclarations
