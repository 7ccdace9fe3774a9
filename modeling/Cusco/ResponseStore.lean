import Mathlib.Data.List.Sort
import Mathlib.Data.String.Basic
import Cusco.Calls
import Cusco.Tables

/-!
The file store of response resources. A resource lives in a map in memory and in
one JSON file, at the path joined from its id. Every filesystem step of an operation
can fail on its own; the steps before it have then happened and the later ones have
not. What serde writes and reads, and which file a path is, are left open. Temporary
files are never read and are left out.
-/

namespace Cusco.ResponseStore

open Calls

def responseRetentionSeconds : ℕ := 30 * 24 * 60 * 60

/-- A stored response. The payload stands for the fields that the store carries
without reading them. -/
structure ResponseResource where
  id : String
  owner : String
  createdAt : ℕ
  store : Bool
  previousResponseId : Option String
  lineageRevision : ℕ
  payload : String
  deriving DecidableEq

def expired (resource : ResponseResource) (timestamp : ℕ) : Bool :=
  decide (responseRetentionSeconds ≤ timestamp - resource.createdAt)

/-- The filesystem steps; an operation takes each of them at most once. -/
inductive FsStep
  | createResources
  | createTemporary
  | readDirectory
  | readFile (id : String)
  | removeExpired (id : String)
  | openPruned
  | syncPruned
  | createFile
  | writeFile
  | syncFile
  | renameFile
  | removeFile
  | openResources
  | syncResources
  deriving DecidableEq

inductive StoreError
  | notFound (id : String)
  | io (step : FsStep)
  | malformed (message : String)
  | staleRevision (expected current : ℕ)
  | conflict (id : String)
  deriving DecidableEq

/-- A file: `entry id` is the committed file `{id}.json` of the directory, which recovery
reads; any other file is outside. -/
inductive Location
  | entry (id : String)
  | outside (path : String)
  deriving DecidableEq

/-- What serde makes of a resource and of the bytes of a file, and the file at the path
joined from an id. -/
structure FileFormat (β : Type) where
  toVecPretty : ResponseResource → Except String β
  fromSlice : β → Except String ResponseResource
  resourcePath : String → Location

abbrev Directory (β : Type) := Table Location β

structure FileResponseResourceStore (β : Type) where
  resources : Directory β
  recovered : Table String ResponseResource
  deriving DecidableEq

/-- The surroundings of one operation: the time it reads, the order in which it
walks over the map, and the filesystem steps that fail. -/
structure Surroundings where
  timestamp : ℕ
  order : List String → List String
  order_perm : ∀ ids, (order ids).Perm ids
  fails : FsStep → Bool

/-- The surroundings of a recovery, which reads the time for every file. -/
structure Recovery where
  clock : String → ℕ
  fails : FsStep → Bool

abbrev StoreCall (β : Type) := Call (FileResponseResourceStore β) StoreError

variable {β : Type}

def attempt (fails : FsStep → Bool) (step : FsStep) : StoreCall β Unit :=
  Call.check (!fails step) (.io step)

/-- `fs::remove_file`, which also fails on a missing file. -/
def removeFile (fails : FsStep → Bool) (step : FsStep) (file : Location) : StoreCall β Unit := do
  attempt fails step
  let store ← Call.read
  Call.check (store.resources.lookup file).isSome (.io step)
  Call.update (fun store => { store with resources := store.resources.erase file })

namespace FileResponseResourceStore

variable (format : FileFormat β)

def fileName (id : String) : String := id ++ ".json"

def entryPath (stateRoot id : String) : String :=
  stateRoot ++ "/responses/resources/" ++ fileName id

/-- The body of the loop over the directory entries. -/
def recoverEntry (stateRoot : String) (env : Recovery) (id : String) (bytes : β) :
    StoreCall β Unit := do
  attempt env.fails (.readFile id)
  let resource ← Call.ofExcept ((format.fromSlice bytes).mapError (fun message =>
    .malformed (entryPath stateRoot id ++ ": " ++ message)))
  Call.check (decide (fileName id = fileName resource.id)) (.malformed
    (entryPath stateRoot id ++ " does not match resource id " ++ resource.id))
  if expired resource (env.clock id) then
    removeFile env.fails (.removeExpired id) (.entry id)
  else
    Call.update (fun store =>
      { store with recovered := store.recovered.insert resource.id resource })

def recoverEntries (stateRoot : String) (env : Recovery) : List (String × β) → StoreCall β Unit
  | [] => pure ()
  | entry :: rest => do
    recoverEntry format stateRoot env entry.1 entry.2
    recoverEntries stateRoot env rest

/-- A committed file, by the id in its name. -/
def committed (file : Sigma fun _ : Location => β) : Option (String × β) :=
  match file.1 with
  | .entry id => some (id, file.2)
  | .outside _ => none

def sortedEntries (directory : Directory β) : List (String × β) :=
  (directory.entries.filterMap committed).insertionSort (fun a b => fileName a.1 ≤ fileName b.1)

/-- Open a directory; the store it returns holds what the directory keeps. -/
def openStore (stateRoot : String) (env : Recovery) (directory : Directory β) :
    Outcome (FileResponseResourceStore β) StoreError Unit :=
  (do
    attempt env.fails .createResources
    attempt env.fails .createTemporary
    attempt env.fails .readDirectory
    recoverEntries format stateRoot env (sortedEntries directory) : StoreCall β Unit).run
      ⟨directory, ∅⟩

def writeResource (env : Surroundings) (resource : ResponseResource) : StoreCall β Unit := do
  let bytes ← Call.ofExcept ((format.toVecPretty resource).mapError .malformed)
  attempt env.fails .createFile
  attempt env.fails .writeFile
  attempt env.fails .syncFile
  attempt env.fails .renameFile
  Call.update (fun store =>
    { store with resources := store.resources.insert (format.resourcePath resource.id) bytes })
  attempt env.fails .openResources
  attempt env.fails .syncResources

def removeExpired (env : Surroundings) : List String → StoreCall β Unit
  | [] => pure ()
  | id :: rest => do
    removeFile env.fails (.removeExpired id) (format.resourcePath id)
    Call.update (fun store => { store with recovered := store.recovered.erase id })
    removeExpired env rest

def expiredIds (env : Surroundings) (store : FileResponseResourceStore β) : List String :=
  env.order ((store.recovered.values.filter (fun resource =>
    expired resource env.timestamp)).map (fun resource => resource.id))

def pruneExpired (env : Surroundings) : StoreCall β Unit := do
  let store ← Call.read
  removeExpired format env (expiredIds env store)
  Call.skipIf (expiredIds env store).isEmpty (do
    attempt env.fails .openPruned
    attempt env.fails .syncPruned)

def insertRecovered (resource : ResponseResource) : StoreCall β Unit :=
  Call.update (fun store =>
    { store with recovered := store.recovered.insert resource.id resource })

def hasSuccessor (store : FileResponseResourceStore β) (id : String) : Bool :=
  store.recovered.values.any (fun candidate => candidate.previousResponseId = some id)

def put (env : Surroundings) (resource : ResponseResource) : StoreCall β Unit := do
  pruneExpired format env
  writeResource format env resource
  insertRecovered resource

def putSuccessor (env : Surroundings) (baseId : String) (expectedRevision : ℕ)
    (resource : ResponseResource) : StoreCall β Unit := do
  pruneExpired format env
  let store ← Call.read
  let base ← Call.require (store.recovered.lookup baseId) (.notFound baseId)
  Call.check (decide (base.lineageRevision = expectedRevision))
    (.staleRevision expectedRevision base.lineageRevision)
  Call.check (!store.hasSuccessor baseId) (.conflict baseId)
  writeResource format env resource
  insertRecovered resource

def get (store : FileResponseResourceStore β) (id : String) : Except StoreError ResponseResource :=
  match store.recovered.lookup id with
  | some resource => .ok resource
  | none => .error (.notFound id)

def delete (env : Surroundings) (id : String) : StoreCall β Unit := do
  let store ← Call.read
  Call.check (store.recovered.lookup id).isSome (.notFound id)
  Call.check (!store.hasSuccessor id) (.conflict id)
  removeFile env.fails .removeFile (format.resourcePath id)
  attempt env.fails .openResources
  attempt env.fails .syncResources
  Call.update (fun store => { store with recovered := store.recovered.erase id })

end FileResponseResourceStore

/-- The content of a file that reads back as it was written. -/
inductive FileContent
  | resource (resource : ResponseResource)
  | unreadable (message : String)
  deriving DecidableEq

/-- Files that keep every resource as it is, for ids that are plain file names: what a
lineage reads of a resource are strings and 64-bit numbers, which JSON keeps. -/
def exactFiles : FileFormat FileContent where
  toVecPretty resource := .ok (.resource resource)
  fromSlice
    | .resource resource => .ok resource
    | .unreadable message => .error message
  resourcePath := .entry

end Cusco.ResponseStore
