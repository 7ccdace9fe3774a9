import Cusco.BlockTables
import Cusco.EngineRuns

/-!
The layers under the mapped engine. The executor and the files work beside the physical manager,
the logical store and the resident mappings. A call of the manager keeps its owners and its block
tables in order, and only a mapped commit publishes a table.
-/

namespace Cusco.LayerFrames

open Calls LogicalStore Physical Mapped PhysicalOwners PhysicalRuns BlockTables EngineFrames
open EngineOperations
open Calls.Call (Moves Triple)

section Beside

variable {Logits Sampler : Type}

/-- The physical manager, the logical store and the resident mappings are left alone. -/
structure Beside (s t : MappedState Logits) : Prop where
  physical : t.physical = s.physical
  logical : t.logical = s.logical
  resident : t.resident = s.resident

theorem Beside.refl (s : MappedState Logits) : Beside s s := ⟨rfl, rfl, rfl⟩

theorem Beside.trans (s t u : MappedState Logits) (hst : Beside s t) (htu : Beside t u) :
    Beside s u :=
  ⟨htu.physical.trans hst.physical, htu.logical.trans hst.logical,
    htu.resident.trans hst.resident⟩

theorem beside_bind {α β : Type} {x : Operation Logits α} {f : α → Operation Logits β}
    (hx : Moves Beside x) (hf : ∀ a, Moves Beside (f a)) : Moves Beside (x >>= f) :=
  Moves.bind Beside.trans hx hf

theorem beside_read_bind {β : Type} {f : MappedState Logits → Operation Logits β}
    (hf : ∀ s, Moves Beside (f s)) : Moves Beside (Call.read >>= f) :=
  beside_bind (Moves.read Beside.refl) hf

theorem beside_pure {α : Type} (a : α) : Moves Beside (pure a : Operation Logits α) :=
  Moves.pure Beside.refl a

theorem beside_require {α : Type} (o : Option α) (e : Mapped.Error) :
    Moves Beside (Call.require o e : Operation Logits α) :=
  Moves.require Beside.refl o e

theorem beside_attempt (e : Mapped.Error) : Moves Beside (attempt e : Operation Logits Unit) := by
  intro s r t h
  unfold attempt at h
  rcases hout : s.outside with _ | ⟨_ | _, rest⟩
  · simp only [hout] at h
    cases h
    exact Beside.refl s
  · simp only [hout] at h
    cases h
    exact ⟨rfl, rfl, rfl⟩
  · simp only [hout] at h
    cases h
    exact ⟨rfl, rfl, rfl⟩

theorem beside_setExecutor (f : Executor → Executor) :
    Moves Beside (setExecutor f : Operation Logits Unit) :=
  Moves.update (fun _ => ⟨rfl, rfl, rfl⟩)

/-- An operation that asks the outside first and then reads the state. -/
theorem beside_attempt_read {α : Type} {e : Mapped.Error} {f : MappedState Logits → α} :
    Moves Beside (do
      attempt e
      let s ← Call.read
      pure (f s) : Operation Logits α) :=
  beside_bind (beside_attempt e) (fun _ => beside_read_bind (fun _ => beside_pure _))

theorem beside_activateMapping (h : RepresentationHandle) :
    Moves Beside (activateMapping h : Operation Logits Unit) :=
  beside_bind (beside_attempt _) (fun _ => beside_setExecutor _)

theorem beside_activeRepresentation :
    Moves Beside (activeRepresentation : Operation Logits RepresentationHandle) :=
  beside_attempt_read

theorem beside_enterRepresentation (tokens : List Token) :
    Moves Beside (enterRepresentation tokens : Operation Logits RepresentationHandle) :=
  beside_bind (beside_attempt _) (fun _ => beside_read_bind (fun _ =>
    beside_bind (beside_setExecutor _) (fun _ => beside_pure _)))

theorem beside_snapshotActiveMapping (active : RepresentationHandle) :
    Moves Beside (snapshotActiveMapping active : Operation Logits RepresentationHandle) :=
  beside_bind beside_attempt_read (fun _ => beside_enterRepresentation _)

theorem beside_forkForRequestBranch (source : RepresentationHandle) :
    Moves Beside (forkForRequestBranch source : Operation Logits RepresentationHandle) :=
  beside_bind beside_attempt_read (fun _ => beside_bind (beside_enterRepresentation _)
    (fun _ => beside_bind (beside_activateMapping _) (fun _ => beside_pure _)))

theorem beside_exportMapping (h : RepresentationHandle) :
    Moves Beside (exportMapping h : Operation Logits MappingState) :=
  beside_attempt_read

theorem beside_decodeTokens (b : Backend Logits Sampler) (tokens : List Token) :
    Moves Beside (decodeTokens b tokens) := by
  intro s r t h
  unfold decodeTokens at h
  rcases hout : s.outside with _ | ⟨_ | _, rest⟩
  · simp only [hout] at h
    cases h
    exact ⟨rfl, rfl, rfl⟩
  · simp only [hout] at h
    cases h
    exact ⟨rfl, rfl, rfl⟩
  · simp only [hout] at h
    cases h
    exact ⟨rfl, rfl, rfl⟩

theorem beside_writeFile (path : EvaluatedPrefixId) (tokens : List Token) :
    Moves Beside (writeFile path tokens : Operation Logits Unit) :=
  beside_bind (beside_attempt _) (fun _ => beside_bind (beside_attempt _)
    (fun _ => Moves.update (fun _ => ⟨rfl, rfl, rfl⟩)))

theorem beside_removeFile (path : EvaluatedPrefixId) :
    Moves Beside (removeFile path : Operation Logits Unit) :=
  beside_bind (beside_attempt _) (fun _ => Moves.update (fun _ => ⟨rfl, rfl, rfl⟩))

theorem beside_revisionOf (context : LogicalContextId) :
    Moves Beside (revisionOf context : Operation Logits ℕ) :=
  beside_read_bind (fun _ => beside_bind (beside_require _ _) (fun _ => beside_pure _))

theorem beside_nativeState (b : Backend Logits Sampler) (resident : ResidentMapping Logits) :
    Moves Beside (nativeState b resident) := by
  unfold nativeState
  cases resident.native with
  | some native => exact beside_pure native
  | none =>
    refine beside_bind (beside_require _ _) (fun spilled => ?_)
    have hread : Moves Beside (readFile spilled.path : Operation Logits (List Token)) :=
      beside_bind (beside_attempt _) (fun _ => beside_read_bind (fun _ => beside_require _ _))
    refine beside_bind hread (fun tokens => ?_)
    exact beside_bind (Moves.check Beside.refl _ _) (fun _ => beside_enterRepresentation _)

theorem beside_reserveBlock (p : ExecutionProfile) (b : Backend Logits Sampler)
    (native : RepresentationHandle) : Moves Beside (reserveBlock p b native) := by
  refine beside_bind beside_attempt_read (fun serialized => ?_)
  refine beside_bind (beside_require _ _) (fun bytes => ?_)
  refine beside_bind (beside_require _ _) (fun required => ?_)
  exact beside_read_bind (fun s => beside_bind (Moves.check Beside.refl _ _)
    (fun _ => beside_pure _))

theorem beside_hear (s : MappedState Logits) (outside : List Answer) :
    Beside s (s.hear outside) := ⟨rfl, rfl, rfl⟩

end Beside

section Apart

variable {Logits Sampler : Type}

/-- Nothing but the answers, the active representation and what it holds may differ. -/
structure Apart (s t : MappedState Logits) : Prop where
  beside : Beside s t
  nextIdentity : t.executor.nextIdentity = s.executor.nextIdentity
  modelEpoch : t.modelEpoch = s.modelEpoch

theorem Apart.refl (s : MappedState Logits) : Apart s s := ⟨Beside.refl s, rfl, rfl⟩

theorem Apart.trans (s t u : MappedState Logits) (hst : Apart s t) (htu : Apart t u) :
    Apart s u :=
  ⟨Beside.trans s t u hst.beside htu.beside, htu.nextIdentity.trans hst.nextIdentity,
    htu.modelEpoch.trans hst.modelEpoch⟩

theorem apart_of_aside {α : Type} {x : Operation Logits α} (hx : Moves Aside x)
    (hbeside : Moves Beside x) : Moves Apart x := by
  intro s r t hrun
  have haside := hx s r t hrun
  exact ⟨hbeside s r t hrun, haside.nextIdentity, haside.modelEpoch⟩

theorem apart_attempt (err : Mapped.Error) :
    Moves Apart (attempt err : Operation Logits Unit) :=
  apart_of_aside (aside_attempt err) (beside_attempt err)

theorem apart_decodeTokens (b : Backend Logits Sampler) (tokens : List Token) :
    Moves Apart (decodeTokens b tokens) := by
  intro s r t hrun
  refine ⟨beside_decodeTokens b tokens s r t hrun, ?_, ?_⟩
  all_goals
    unfold decodeTokens at hrun
    rcases hout : s.outside with _ | ⟨_ | _, rest⟩
    all_goals
      simp only [hout] at hrun
      cases hrun
      rfl

theorem apart_activateMapping (h : RepresentationHandle) :
    Moves Apart (activateMapping h : Operation Logits Unit) :=
  apart_of_aside (aside_activateMapping h) (beside_activateMapping h)

theorem apart_activeRepresentation :
    Moves Apart (activeRepresentation : Operation Logits RepresentationHandle) :=
  apart_of_aside aside_activeRepresentation beside_activeRepresentation

end Apart

section Manager

/-- The owners are accounted for, and every table names the binding of its context. -/
structure Orderly (p : PhysicalManager) : Prop where
  owned : Owned p
  tabled : Tabled p

/-- The order is kept and no table is new. -/
def Settles (p q : PhysicalManager) : Prop :=
  Orderly p → Orderly q ∧ ∀ c table, q.blockTables.lookup c = some table →
    p.blockTables.lookup c = some table

theorem settles_refl (p : PhysicalManager) : Settles p p := fun hp => ⟨hp, fun _ _ h => h⟩

theorem settles_trans (p q r : PhysicalManager) (hpq : Settles p q) (hqr : Settles q r) :
    Settles p r := by
  intro hp
  obtain ⟨hq, htables⟩ := hpq hp
  obtain ⟨hr, htables'⟩ := hqr hq
  exact ⟨hr, fun c table h => htables c table (htables' c table h)⟩

theorem orderly_step {p q : PhysicalManager} {a : PhysicalRuns.Action} (hp : Orderly p)
    (h : PhysicalRuns.Step p a q) : Orderly q :=
  ⟨owned_step p a q hp.owned h, tabled_step hp.owned hp.tabled h⟩

/-- A call of the manager that recedes settles. -/
theorem settles_of_recedes {α : Type} {x : Physical.Operation α} (a : PhysicalRuns.Action)
    (ha : ∀ p, perform p a = returned (x.run p))
    (hrecedes : ∀ p r q, Owned p → x.run p = .returns r q → Recedes p q) : Moves Settles x := by
  intro p r q hrun hp
  have hstep : PhysicalRuns.Step p a q := (ha p).trans (congrArg returned hrun)
  exact ⟨orderly_step hp hstep, (hrecedes p r q hp.owned hrun).tables⟩

open PhysicalManager

theorem settles_register (mapping : EvaluatedPrefixId) (component : Component)
    (representedEnd bytes : ℕ) (tier : Tier) (reuseValue : ℕ) :
    Moves Settles (register mapping component representedEnd bytes tier reuseValue) :=
  settles_of_recedes (.register mapping component representedEnd bytes tier reuseValue)
    (fun _ => rfl) (fun _ _ _ hp h => recedes_register hp h)

theorem settles_releaseLogicalReference (id : PhysicalRepresentationId) :
    Moves Settles (releaseLogicalReference id) :=
  settles_of_recedes (.releaseLogicalReference id) (fun _ => rfl)
    (fun _ _ _ _ h => recedes_releaseLogicalReference h)

theorem settles_demoteToStorage (id : PhysicalRepresentationId) :
    Moves Settles (demoteToStorage id) :=
  settles_of_recedes (.demoteToStorage id) (fun _ => rfl)
    (fun _ _ _ _ h => recedes_demoteToStorage h)

theorem settles_prepareTransition (context : LogicalContextId) (revision : ℕ)
    (mapping : EvaluatedPrefixId) (representedEnd : ℕ) (required : ComponentMask)
    (ids : List PhysicalRepresentationId) :
    Moves Settles (prepareTransition context revision mapping representedEnd required ids false) :=
  settles_of_recedes (.prepareTransition context revision mapping representedEnd required ids false)
    (fun _ => rfl) (fun _ _ _ hp h => recedes_prepareTransition hp h)

theorem settles_completeTransfer (id : TransferId) (success : Bool) :
    Moves Settles (completeTransfer id success) :=
  settles_of_recedes (.completeTransfer id success) (fun _ => rfl)
    (fun _ _ _ hp h => recedes_completeTransfer hp h)

theorem settles_abortTransition (id : PreparedTransitionId) :
    Moves Settles (abortTransition id) :=
  settles_of_recedes (.abortTransition id) (fun _ => rfl)
    (fun p r q _ h => receding_abortTransition id p r q h)

theorem settles_releaseBinding (context : LogicalContextId) :
    Moves Settles (releaseBinding context) :=
  settles_of_recedes (.releaseBinding context) (fun _ => rfl)
    (fun _ _ _ _ h => (recedes_unbind h).1)

end Manager

section Keeps

variable {Logits : Type}

/-- The store and the resident mappings are left alone, and the manager settles. -/
structure Keeps (s t : MappedState Logits) : Prop where
  logical : t.logical = s.logical
  resident : t.resident = s.resident
  physical : Settles s.physical t.physical

theorem Keeps.refl (s : MappedState Logits) : Keeps s s := ⟨rfl, rfl, settles_refl _⟩

theorem Keeps.trans (s t u : MappedState Logits) (hst : Keeps s t) (htu : Keeps t u) :
    Keeps s u :=
  ⟨htu.logical.trans hst.logical, htu.resident.trans hst.resident,
    settles_trans _ _ _ hst.physical htu.physical⟩

theorem Keeps.of_beside {s t : MappedState Logits} (h : Beside s t) : Keeps s t :=
  ⟨h.logical, h.resident, h.physical ▸ settles_refl _⟩

theorem keeps_of_beside {α : Type} {x : Operation Logits α} (hx : Moves Beside x) :
    Moves Keeps x :=
  fun s r t hrun => .of_beside (hx s r t hrun)

theorem keeps_onPhysical {α : Type} {x : Physical.Operation α} (hx : Moves Settles x) :
    Moves Keeps (onPhysical x : Operation Logits α) :=
  Moves.lift hx (fun _ _ hp => ⟨rfl, rfl, hp⟩)

theorem keeps_bind {α β : Type} {x : Operation Logits α} {f : α → Operation Logits β}
    (hx : Moves Keeps x) (hf : ∀ a, Moves Keeps (f a)) : Moves Keeps (x >>= f) :=
  Moves.bind Keeps.trans hx hf

theorem keeps_abortTransition (transition : PreparedTransitionId) :
    Moves Keeps (abortTransition transition : Operation Logits Unit) :=
  Moves.ignore (keeps_onPhysical (settles_abortTransition transition))

theorem keeps_rollBack (registered : List PhysicalRepresentationId)
    (rollback : RepresentationHandle) :
    Moves Keeps (rollBack registered rollback : Operation Logits Unit) :=
  keeps_bind (moves_releaseRepresentations Keeps.refl Keeps.trans
      (fun id => keeps_onPhysical (settles_releaseLogicalReference id)) registered)
    (fun _ => Moves.ignore (keeps_of_beside (beside_activateMapping rollback)))

theorem keeps_representationsOf (p : ExecutionProfile) (mapping : EvaluatedPrefixId)
    (representedEnd bytes : ℕ) (rollback : RepresentationHandle)
    (existing : Option (ResidentMapping Logits)) :
    Moves Keeps (representationsOf p mapping representedEnd bytes rollback existing) := by
  cases existing with
  | some resident => exact Moves.pure Keeps.refl _
  | none =>
    exact moves_registerComponents Keeps.refl Keeps.trans
      (fun component => keeps_onPhysical (settles_register mapping component _ _ _ _))
      (fun registered => keeps_rollBack registered rollback) [] _

end Keeps

end Cusco.LayerFrames
