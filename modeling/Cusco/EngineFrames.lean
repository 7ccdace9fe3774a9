import Cusco.MappedEngine
import Cusco.PinnedCatalogue

/-!
What the operations of the mapped engine leave alone. Most of them change the physical manager,
the active representation and the answers of the outside only. All of them let the state
evolve: mappings and contexts stay, and no representation is written but the caller's own.
-/

namespace Cusco.EngineFrames

open Calls LogicalStore Physical Mapped
open Calls.Call (Moves Triple)

section Compound

variable {Logits : Type} {R : MappedState Logits → MappedState Logits → Prop}
  (hrefl : ∀ s, R s s) (htrans : ∀ s t u, R s t → R t u → R s u)

include hrefl htrans

theorem moves_demoteAll
    (hdemote : ∀ id, Moves R (onPhysical (PhysicalManager.demoteToStorage id)))
    (ids : List PhysicalRepresentationId) : Moves R (demoteAll ids) := by
  induction ids with
  | nil => exact Moves.pure hrefl ()
  | cons id rest ih => exact Moves.bind htrans (hdemote id) (fun _ => ih)

theorem moves_completeTransfers {cleanup : Operation Logits Unit}
    (hcomplete : ∀ x, Moves R (onPhysical (PhysicalManager.completeTransfer x true)))
    (hcleanup : Moves R cleanup) (transfers : List TransferId) :
    Moves R (completeTransfers cleanup transfers) := by
  induction transfers with
  | nil => exact Moves.pure hrefl ()
  | cons transfer rest ih =>
    exact Moves.bind htrans (Moves.rescue htrans (hcomplete transfer) hcleanup) (fun _ => ih)

theorem moves_releaseRepresentations
    (hrelease : ∀ id, Moves R (onPhysical (PhysicalManager.releaseLogicalReference id)))
    (ids : List PhysicalRepresentationId) : Moves R (releaseRepresentations ids) := by
  induction ids with
  | nil => exact Moves.pure hrefl ()
  | cons id rest ih => exact Moves.bind htrans (Moves.ignore (hrelease id)) (fun _ => ih)

theorem moves_registerComponents {mapping : EvaluatedPrefixId} {representedEnd bytes : ℕ}
    {rollback : RepresentationHandle}
    (hregister : ∀ component, Moves R (onPhysical (PhysicalManager.register mapping component
      representedEnd bytes .host representedEnd)))
    (hcleanup : ∀ registered, Moves R (rollBack registered rollback))
    (registered : List PhysicalRepresentationId) (components : List Component) :
    Moves R (registerComponents mapping representedEnd bytes rollback registered components) := by
  induction components generalizing registered with
  | nil => exact Moves.pure hrefl _
  | cons component rest ih =>
    exact Moves.bind htrans (Moves.rescue htrans (hregister component) (hcleanup registered))
      (fun id => ih (registered ++ [id]))

end Compound

section Aside

variable {Logits Sampler : Type}

/-- Only the active representation, the physical manager and the answers may differ. -/
structure Aside (s t : MappedState Logits) : Prop where
  nextIdentity : t.executor.nextIdentity = s.executor.nextIdentity
  evaluated : t.executor.evaluated = s.executor.evaluated
  root : t.root = s.root
  logical : t.logical = s.logical
  modelEpoch : t.modelEpoch = s.modelEpoch
  resident : t.resident = s.resident
  spillBytes : t.spillBytes = s.spillBytes
  files : t.files = s.files

theorem Aside.refl (s : MappedState Logits) : Aside s s :=
  ⟨rfl, rfl, rfl, rfl, rfl, rfl, rfl, rfl⟩

theorem Aside.trans (s t u : MappedState Logits) (hst : Aside s t) (htu : Aside t u) :
    Aside s u where
  nextIdentity := htu.nextIdentity.trans hst.nextIdentity
  evaluated := htu.evaluated.trans hst.evaluated
  root := htu.root.trans hst.root
  logical := htu.logical.trans hst.logical
  modelEpoch := htu.modelEpoch.trans hst.modelEpoch
  resident := htu.resident.trans hst.resident
  spillBytes := htu.spillBytes.trans hst.spillBytes
  files := htu.files.trans hst.files

theorem Aside.tokensOf {s t : MappedState Logits} (h : Aside s t) (k : RepresentationHandle) :
    t.executor.tokensOf k = s.executor.tokensOf k := by
  unfold Executor.tokensOf
  rw [h.evaluated]

theorem Aside.nativeOf {s t : MappedState Logits} (h : Aside s t) (m : EvaluatedPrefixId) :
    t.nativeOf m = s.nativeOf m := by
  unfold MappedState.nativeOf
  rw [h.resident]

theorem aside_bind {α β : Type} {x : Operation Logits α} {f : α → Operation Logits β}
    (hx : Moves Aside x) (hf : ∀ a, Moves Aside (f a)) : Moves Aside (x >>= f) :=
  Moves.bind Aside.trans hx hf

theorem aside_read_bind {β : Type} {f : MappedState Logits → Operation Logits β}
    (hf : ∀ s, Moves Aside (f s)) : Moves Aside (Call.read >>= f) :=
  aside_bind (Moves.read Aside.refl) hf

theorem aside_pure {α : Type} (a : α) : Moves Aside (pure a : Operation Logits α) :=
  Moves.pure Aside.refl a

theorem aside_attempt (e : Mapped.Error) : Moves Aside (attempt e : Operation Logits Unit) := by
  intro s r t h
  unfold attempt at h
  rcases hout : s.outside with _ | ⟨_ | _, rest⟩
  · simp only [hout] at h
    cases h
    exact Aside.refl s
  · simp only [hout] at h
    cases h
    exact ⟨rfl, rfl, rfl, rfl, rfl, rfl, rfl, rfl⟩
  · simp only [hout] at h
    cases h
    exact ⟨rfl, rfl, rfl, rfl, rfl, rfl, rfl, rfl⟩

theorem aside_onPhysical {α : Type} (x : Physical.Operation α) :
    Moves Aside (onPhysical x : Operation Logits α) :=
  Moves.within (fun _ _ => ⟨rfl, rfl, rfl, rfl, rfl, rfl, rfl, rfl⟩)

theorem aside_activateMapping (h : RepresentationHandle) :
    Moves Aside (activateMapping h : Operation Logits Unit) :=
  aside_bind (aside_attempt _) (fun _ => Moves.update
    (fun _ => ⟨rfl, rfl, rfl, rfl, rfl, rfl, rfl, rfl⟩))

theorem aside_activeRepresentation :
    Moves Aside (activeRepresentation : Operation Logits RepresentationHandle) :=
  aside_bind (aside_attempt _) (fun _ => aside_read_bind (fun _ => aside_pure _))

theorem aside_prepareMappingFork (source : RepresentationHandle) :
    Moves Aside (prepareMappingFork source : Operation Logits (List Token)) :=
  aside_bind (aside_attempt _) (fun _ => aside_read_bind (fun _ => aside_pure _))

theorem aside_exportMapping (h : RepresentationHandle) :
    Moves Aside (exportMapping h : Operation Logits MappingState) :=
  aside_bind (aside_attempt _) (fun _ => aside_read_bind (fun _ => aside_pure _))

theorem aside_readFile (path : EvaluatedPrefixId) :
    Moves Aside (readFile path : Operation Logits (List Token)) :=
  aside_bind (aside_attempt _) (fun _ => aside_read_bind (fun _ => Moves.require Aside.refl _ _))

theorem aside_demoteAll (ids : List PhysicalRepresentationId) :
    Moves Aside (demoteAll ids : Operation Logits Unit) :=
  moves_demoteAll Aside.refl Aside.trans (fun _ => aside_onPhysical _) ids

theorem aside_abortTransition (transition : PreparedTransitionId) :
    Moves Aside (abortTransition transition : Operation Logits Unit) :=
  Moves.ignore (aside_onPhysical _)

theorem aside_rescue {α : Type} {x : Operation Logits α} {cleanup : Operation Logits Unit}
    (hx : Moves Aside x) (hcleanup : Moves Aside cleanup) : Moves Aside (x.rescue cleanup) :=
  Moves.rescue Aside.trans hx hcleanup

theorem aside_completeTransfers {cleanup : Operation Logits Unit} (hcleanup : Moves Aside cleanup)
    (transfers : List TransferId) : Moves Aside (completeTransfers cleanup transfers) :=
  moves_completeTransfers Aside.refl Aside.trans (fun _ => aside_onPhysical _) hcleanup transfers

theorem aside_nativeIdentity (h : RepresentationHandle) :
    Moves Aside (nativeIdentity h : Operation Logits ℕ) :=
  Moves.require Aside.refl _ _

theorem aside_revisionOf (context : LogicalContextId) :
    Moves Aside (revisionOf context : Operation Logits ℕ) :=
  aside_read_bind (fun _ => aside_bind (Moves.require Aside.refl _ _) (fun _ => aside_pure _))

theorem aside_releaseRepresentations (ids : List PhysicalRepresentationId) :
    Moves Aside (releaseRepresentations ids : Operation Logits Unit) :=
  moves_releaseRepresentations Aside.refl Aside.trans (fun _ => aside_onPhysical _) ids

theorem aside_rollBack (registered : List PhysicalRepresentationId)
    (rollback : RepresentationHandle) :
    Moves Aside (rollBack registered rollback : Operation Logits Unit) :=
  aside_bind (aside_releaseRepresentations registered)
    (fun _ => Moves.ignore (aside_activateMapping rollback))

theorem aside_registerComponents (mapping : EvaluatedPrefixId) (representedEnd bytes : ℕ)
    (rollback : RepresentationHandle) (registered : List PhysicalRepresentationId)
    (components : List Component) :
    Moves Aside (registerComponents mapping representedEnd bytes rollback registered components :
      Operation Logits (List PhysicalRepresentationId)) :=
  moves_registerComponents Aside.refl Aside.trans (fun _ => aside_onPhysical _)
    (fun registered => aside_rollBack registered rollback) registered components

theorem aside_representationsOf (p : ExecutionProfile) (mapping : EvaluatedPrefixId)
    (representedEnd bytes : ℕ) (rollback : RepresentationHandle)
    (existing : Option (ResidentMapping Logits)) :
    Moves Aside (representationsOf p mapping representedEnd bytes rollback existing) := by
  cases existing with
  | some resident => exact aside_pure _
  | none => exact aside_registerComponents mapping representedEnd bytes rollback [] _

theorem aside_reserveBlock (p : ExecutionProfile) (b : Backend Logits Sampler)
    (native : RepresentationHandle) : Moves Aside (reserveBlock p b native) := by
  refine aside_bind (aside_bind (aside_attempt _) (fun _ => aside_read_bind
    (fun _ => aside_pure _))) ?_
  intro serialized
  refine aside_bind (Moves.require Aside.refl _ _) ?_
  intro bytes
  refine aside_bind (Moves.require Aside.refl _ _) ?_
  intro required
  refine aside_read_bind ?_
  intro s
  exact aside_bind (Moves.check Aside.refl _ _) (fun _ => aside_pure _)

/-- An operation aside keeps what depends on the rest of the state only. -/
theorem triple_aside {α : Type} {x : Operation Logits α} {P : MappedState Logits → Prop}
    (hx : Moves Aside x) (hstable : ∀ s t, Aside s t → P s → P t) :
    Triple P x (fun _ => P) P :=
  Triple.of_moves hx hstable

end Aside

end Cusco.EngineFrames
