import Cusco.ResponseStore
import Cusco.MachineIntegers

/-!
The response service. Responses that are not stored are kept in a bounded
transient map, which answers before the store does and is lost on a restart. The
files keep every resource as it is.
-/

namespace Cusco.Responses

open Calls ResponseStore

def transientResponseCapacity : ℕ := 1024

/-- `u64::saturating_add(1)`. -/
def saturatingIncrement (n : ℕ) : ℕ := min (n + 1) u64Max

structure TransientResponses where
  resources : Table String ResponseResource
  insertionOrder : List String

structure ResponseService where
  store : FileResponseResourceStore FileContent
  transient : TransientResponses

abbrev ServiceCall := Call ResponseService StoreError Unit

/-- A call of the store made by the service. -/
def onStore (x : StoreCall FileContent Unit) : ServiceCall := ⟨fun service =>
  match x.run service.store with
  | .returns result store => .returns result { service with store := store }
  | .panics => .panics⟩

namespace ResponseService

/-- `ResponseService::new`. -/
def new (store : FileResponseResourceStore FileContent) : ResponseService := ⟨store, ⟨∅, []⟩⟩

/-- The loop that keeps the transient map within its capacity. -/
def evictOldest (resources : Table String ResponseResource) : List String → TransientResponses
  | [] => ⟨resources, []⟩
  | id :: rest =>
    if transientResponseCapacity < resources.entries.length then
      evictOldest (resources.erase id) rest
    else
      ⟨resources, id :: rest⟩

def rememberTransient (resource : ResponseResource) (transient : TransientResponses) :
    TransientResponses :=
  evictOldest (transient.resources.insert resource.id resource)
    (if (transient.resources.lookup resource.id).isSome then transient.insertionOrder
      else transient.insertionOrder ++ [resource.id])

def remember (env : Surroundings) (resource : ResponseResource) : ServiceCall :=
  if resource.store then
    match resource.previousResponseId with
    | some baseId =>
      onStore (FileResponseResourceStore.putSuccessor exactFiles env baseId
        (resource.lineageRevision - 1) resource)
    | none => onStore (FileResponseResourceStore.put exactFiles env resource)
  else
    Call.update (fun service =>
      { service with transient := rememberTransient resource service.transient })

def commitSuccessor (env : Surroundings) (baseId : String) (expectedRevision : ℕ)
    (resource : ResponseResource) : ServiceCall :=
  onStore (FileResponseResourceStore.putSuccessor exactFiles env baseId expectedRevision resource)

def retrieve (service : ResponseService) (id owner : String) :
    Except StoreError ResponseResource := do
  let resource ← match service.transient.resources.lookup id with
    | some resource => .ok resource
    | none => service.store.get id
  if resource.owner = owner then .ok resource else .error (.notFound id)

def delete (env : Surroundings) (id owner : String) : ServiceCall := do
  let service ← Call.read
  let _ ← Call.ofExcept (service.retrieve id owner)
  Call.check (!service.transient.resources.values.any (fun candidate =>
    candidate.previousResponseId = some id)) (.conflict id)
  if (service.transient.resources.lookup id).isSome then
    Call.update (fun service => { service with transient :=
      ⟨service.transient.resources.erase id,
        service.transient.insertionOrder.filter (fun candidate => candidate ≠ id)⟩ })
  else
    onStore (FileResponseResourceStore.delete exactFiles env id)

end ResponseService

open ResponseService

theorem of_onStore {x : StoreCall FileContent Unit} {s t : ResponseService}
    {r : Except StoreError Unit} (h : (onStore x).run s = .returns r t) :
    ∃ u, x.run s.store = .returns r u ∧ t = { s with store := u } := by
  have hrun : (onStore x).run s = match x.run s.store with
    | .returns result store => .returns result { s with store := store }
    | .panics => .panics := rfl
  rw [hrun] at h
  cases hx : x.run s.store with
  | panics =>
    rw [hx] at h
    cases h
  | returns result u =>
    rw [hx] at h
    cases h
    exact ⟨u, rfl, rfl⟩

/-- Keeping the transient map small only removes entries. -/
theorem lookup_evictOldest (resources : Table String ResponseResource) (order : List String)
    (id : String) (r : ResponseResource)
    (h : (evictOldest resources order).resources.lookup id = some r) :
    resources.lookup id = some r := by
  induction order generalizing resources with
  | nil => exact h
  | cons head rest ih =>
    unfold evictOldest at h
    split at h
    · have herase := ih (resources.erase head) h
      rw [AList.lookup_erase_ite] at herase
      split at herase
      · cases herase
      · exact herase
    · exact h

theorem lookup_rememberTransient {resource : ResponseResource} {transient : TransientResponses}
    {id : String} {r : ResponseResource}
    (h : (rememberTransient resource transient).resources.lookup id = some r) :
    id = resource.id ∨ transient.resources.lookup id = some r := by
  have hinsert := lookup_evictOldest _ _ id r h
  rw [AList.lookup_insert_ite] at hinsert
  split at hinsert
  · rename_i hid
    exact Or.inl hid
  · exact Or.inr hinsert

/-- A deletion is refused, removes a transient response, or deletes from the store. -/
theorem delete_cases {env : Surroundings} {id owner : String} {s t : ResponseService}
    {result : Except StoreError Unit} (h : (delete env id owner).run s = .returns result t) :
    t = s ∨
      (t.store = s.store ∧ t.transient.resources = s.transient.resources.erase id) ∨
      (s.transient.resources.lookup id = none ∧
        ∃ u, (FileResponseResourceStore.delete exactFiles env id).run s.store = .returns result u ∧
          t = { s with store := u }) := by
  unfold delete at h
  rw [Call.run_read_bind] at h
  rcases Call.of_ofExcept_bind h with ⟨_, _, ht, _⟩ | ⟨_, _, hrest⟩
  · exact Or.inl ht
  rcases Call.of_check_bind hrest with ⟨_, ht, _⟩ | ⟨_, hrest⟩
  · exact Or.inl ht
  cases htransient : s.transient.resources.lookup id with
  | some _ =>
    rw [htransient] at hrest
    cases hrest
    exact Or.inr (Or.inl ⟨rfl, rfl⟩)
  | none =>
    rw [htransient] at hrest
    exact Or.inr (Or.inr ⟨rfl, of_onStore hrest⟩)

end Cusco.Responses
