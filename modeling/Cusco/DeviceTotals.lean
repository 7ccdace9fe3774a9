import Cusco.Physical

/-!
The device's size in the metrics. It is written when the manager is made, and every operation
of the mapped engine on the manager leaves it alone.
-/

namespace Cusco.DeviceTotals

open Calls Physical Physical.PhysicalManager

/-- The metrics name the same device size. -/
def SameTotal (m m' : PhysicalManager) : Prop := m'.metrics.deviceTotal = m.metrics.deviceTotal

theorem sameTotal_refl (m : PhysicalManager) : SameTotal m m := rfl

theorem sameTotal_trans (a b c : PhysicalManager) (hab : SameTotal a b) (hbc : SameTotal b c) :
    SameTotal a c :=
  Eq.trans hbc hab

/-- An operation that leaves the device's size alone. -/
abbrev Steady {α : Type} (x : Operation α) : Prop := Call.Moves SameTotal x

theorem Steady.bind {α β : Type} {x : Operation α} {f : α → Operation β} (hx : Steady x)
    (hf : ∀ a, Steady (f a)) : Steady (x >>= f) :=
  Call.Moves.bind sameTotal_trans hx hf

theorem steady_pure {α : Type} (a : α) : Steady (pure a) := Call.Moves.pure sameTotal_refl a

theorem steady_read : Steady Call.read := Call.Moves.read sameTotal_refl

theorem steady_read_bind {α : Type} {f : PhysicalManager → Operation α}
    (hf : ∀ m, Steady (f m)) : Steady (Call.read >>= f) :=
  steady_read.bind hf

theorem steady_require {α : Type} (o : Option α) (e : Error) : Steady (Call.require o e) :=
  Call.Moves.require sameTotal_refl o e

theorem steady_check (ok : Bool) (e : Error) : Steady (Call.check ok e) :=
  Call.Moves.check sameTotal_refl ok e

theorem steady_unwrap {α : Type} (o : Option α) : Steady (Call.unwrap o) :=
  Call.Moves.unwrap sameTotal_refl o

theorem steady_skipIf {x : Operation Unit} (skip : Bool) (hx : Steady x) :
    Steady (Call.skipIf skip x) :=
  Call.Moves.skipIf sameTotal_refl skip hx

theorem steady_update {g : PhysicalManager → PhysicalManager}
    (hg : ∀ m, (g m).metrics.deviceTotal = m.metrics.deviceTotal) : Steady (Call.update g) :=
  Call.Moves.update hg

theorem steady_update_bind {α : Type} {g : PhysicalManager → PhysicalManager}
    {f : Unit → Operation α} (hf : Steady (f ()))
    (hg : ∀ m, (g m).metrics.deviceTotal = m.metrics.deviceTotal) :
    Steady (Call.update g >>= f) :=
  (steady_update hg).bind (fun _ => hf)

/-- The table changes and the gauges are counted again. -/
theorem steady_updated {g : PhysicalManager → PhysicalManager} {f : Metrics → Metrics}
    (hg : ∀ m, (g m).metrics.deviceTotal = m.metrics.deviceTotal)
    (hf : ∀ x, (f x).deviceTotal = x.deviceTotal) : Steady (do
      Call.update g
      Call.update (setMetrics f)
      refresh : Operation Unit) :=
  (steady_update hg).bind (fun _ => (steady_update (fun m => hf m.metrics)).bind
    (fun _ => steady_update (fun _ => rfl)))

theorem steady_identity : Steady identity := by
  intro m r m' h
  unfold identity at h
  simp only at h
  by_cases hmax : m.nextId = u64Max
  · rw [if_pos hmax] at h
    cases h
  · rw [if_neg hmax] at h
    cases h
    rfl

theorem steady_tick : Steady tick := by
  intro m r m' h
  unfold tick at h
  simp only at h
  by_cases hmax : m.clock = u64Max
  · rw [if_pos hmax] at h
    cases h
  · rw [if_neg hmax] at h
    cases h
    rfl

theorem steady_representation (k : PhysicalRepresentationId) : Steady (representation k) :=
  steady_read_bind (fun _ => steady_unwrap _)

theorem steady_adjustReference (f : ReferenceCounts → Option ReferenceCounts)
    (k : PhysicalRepresentationId) : Steady (adjustReference f k) :=
  (steady_representation k).bind (fun _ => (steady_unwrap _).bind
    (fun _ => steady_update (fun _ => rfl)))

theorem steady_adjustReferences (f : ReferenceCounts → Option ReferenceCounts)
    (ids : List PhysicalRepresentationId) : Steady (adjustReferences f ids) := by
  induction ids with
  | nil => exact steady_pure ()
  | cons k rest ih => exact (steady_adjustReference f k).bind (fun _ => ih)

theorem steady_evict (k : PhysicalRepresentationId) (tier : Tier) : Steady (evict k tier) := by
  refine steady_read_bind (fun m => (steady_require _ _).bind (fun r => ?_))
  refine (steady_check _ _).bind (fun _ => ?_)
  exact Call.Moves.ite (steady_updated (fun _ => rfl) (fun _ => rfl)) (steady_pure ())

theorem steady_evictUntilFits (additional fuel : ℕ) : Steady (evictUntilFits additional fuel) := by
  induction fuel with
  | zero =>
    intro m r m' h
    cases h
    rfl
  | succ fuel ih =>
    refine steady_read_bind (fun m => Call.Moves.ite (steady_pure ()) ?_)
    exact (steady_require _ _).bind (fun c => (steady_evict c.id .device).bind (fun _ => ih))

theorem steady_ensureDeviceSpace (additional : ℕ) : Steady (ensureDeviceSpace additional) :=
  steady_read_bind (fun _ => steady_evictUntilFits _ _)

theorem steady_ensureDeviceCapacity (additional : ℕ) :
    Steady (ensureDeviceCapacity additional) :=
  steady_read_bind (fun _ => (steady_require _ _).bind (fun _ => (steady_check _ _).bind
    (fun _ => steady_ensureDeviceSpace additional)))

theorem steady_ensureTier (tier : Tier) (bytes : ℕ) : Steady (ensureTier tier bytes) := by
  cases tier with
  | device => exact steady_ensureDeviceCapacity bytes
  | host => exact steady_read_bind (fun _ => steady_check _ _)
  | storage => exact steady_pure ()

theorem steady_register (mapping : LogicalStore.EvaluatedPrefixId) (component : Component)
    (representedEnd bytes : ℕ) (tier : Tier) (reuseValue : ℕ) :
    Steady (register mapping component representedEnd bytes tier reuseValue) := by
  refine (steady_ensureTier tier bytes).bind (fun _ => steady_identity.bind (fun id => ?_))
  refine steady_tick.bind (fun lastUsed => steady_update_bind ?_ (fun _ => rfl))
  exact steady_update_bind (steady_pure _) (fun _ => rfl)

theorem steady_releaseLogicalReference (k : PhysicalRepresentationId) :
    Steady (releaseLogicalReference k) := by
  refine steady_read_bind (fun m => (steady_require _ _).bind (fun r => ?_))
  refine steady_update_bind (steady_update (fun _ => rfl)) (fun m => ?_)
  simp only
  split <;> rfl

theorem steady_demoteToStorage (k : PhysicalRepresentationId) : Steady (demoteToStorage k) :=
  steady_read_bind (fun _ => (steady_require _ _).bind (fun _ => (steady_check _ _).bind
    (fun _ => steady_updated (fun _ => rfl) (fun _ => rfl))))

theorem steady_planMissing (allowRecompute : Bool) (ids : List PhysicalRepresentationId)
    (missing : ℕ) (recompute : Bool) :
    Steady (planMissing allowRecompute ids missing recompute) := by
  induction ids generalizing missing recompute with
  | nil => exact steady_pure _
  | cons k rest ih =>
    refine (steady_representation k).bind (fun r => Call.Moves.ite (ih _ _) ?_)
    exact (steady_check _ _).bind (fun _ => (steady_require _ _).bind (fun _ => ih _ _))

theorem steady_reserveRepresentations (ids : List PhysicalRepresentationId) :
    Steady (reserveRepresentations ids) := by
  induction ids with
  | nil => exact steady_pure []
  | cons k rest ih =>
    refine (steady_representation k).bind (fun r => (steady_adjustReference _ k).bind (fun _ => ?_))
    refine Call.Moves.ite (steady_identity.bind (fun transfer => ?_)) ih
    refine (steady_adjustReference _ k).bind (fun _ => steady_update_bind ?_ (fun _ => rfl))
    exact ih.bind (fun _ => steady_pure _)

theorem steady_prepareTransition (context : LogicalStore.LogicalContextId) (revision : ℕ)
    (mapping : LogicalStore.EvaluatedPrefixId) (representedEnd : ℕ)
    (required : LogicalStore.ComponentMask) (ids : List PhysicalRepresentationId)
    (allowRecompute : Bool) : Steady (prepareTransition context revision mapping representedEnd
      required ids allowRecompute) := by
  have hvalid : ∀ o : Except Error Unit, Steady (Call.ofExcept o) := by
    intro o m r m' h
    cases h
    rfl
  refine steady_read_bind (fun m => (hvalid _).bind (fun _ => ?_))
  refine (steady_planMissing _ _ _ _).bind (fun planned => ?_)
  refine (steady_ensureDeviceCapacity _).bind (fun _ => steady_read_bind (fun m => ?_))
  refine steady_identity.bind (fun transition => ?_)
  refine (steady_reserveRepresentations ids).bind (fun transfers => ?_)
  refine steady_update_bind ?_ (fun _ => rfl)
  refine steady_update_bind ?_ (fun _ => rfl)
  exact steady_update_bind (steady_pure _) (fun _ => rfl)

theorem steady_completeTransfer (x : TransferId) (success : Bool) :
    Steady (completeTransfer x success) := by
  refine steady_read_bind (fun m => (steady_require _ _).bind (fun y => ?_))
  refine Call.Moves.ite (steady_pure ()) ?_
  have harrive : Steady (arrive y.representation) :=
    (steady_representation _).bind (fun _ => steady_update (fun _ => rfl))
  have hpromote : Steady (promote y) :=
    (steady_ensureDeviceSpace _).bind (fun _ => harrive.bind
      (fun _ => steady_update (fun _ => rfl)))
  have hreceive : Steady (receive y) :=
    (steady_representation _).bind (fun _ => (steady_skipIf _ hpromote).bind
      (fun _ => steady_update (fun _ => rfl)))
  refine (steady_skipIf _ hreceive).bind (fun _ => steady_update_bind ?_ (fun _ => rfl))
  refine (steady_adjustReference _ _).bind (fun _ => steady_update_bind ?_ (fun _ => rfl))
  exact steady_skipIf _ (steady_update (fun _ => rfl))

theorem steady_dropBinding (context : LogicalStore.LogicalContextId) :
    Steady (dropBinding context) := by
  refine steady_read_bind (fun m => ?_)
  cases m.bindings.lookup context with
  | none => exact steady_pure ()
  | some old => exact steady_update_bind (steady_adjustReferences _ _) (fun _ => rfl)

theorem steady_releaseBinding (context : LogicalStore.LogicalContextId) :
    Steady (releaseBinding context) := by
  refine steady_read_bind (fun m => (steady_require _ _).bind (fun _ => ?_))
  refine steady_update_bind ?_ (fun _ => rfl)
  exact (steady_dropBinding context).bind (fun _ => steady_update (fun _ => rfl))

theorem steady_checkTransfers (xs : List TransferId) : Steady (checkTransfers xs) := by
  induction xs with
  | nil => exact steady_pure ()
  | cons x rest ih =>
    exact steady_read_bind (fun _ => (steady_unwrap _).bind (fun _ => (steady_check _ _).bind
      (fun _ => (steady_check _ _).bind (fun _ => ih))))

theorem steady_deviceBlocks (e : Error) (ids : List PhysicalRepresentationId) :
    Steady (deviceBlocks e ids) := by
  induction ids with
  | nil => exact steady_pure []
  | cons k rest ih =>
    exact (steady_representation k).bind (fun _ => (steady_check _ _).bind
      (fun _ => ih.bind (fun _ => steady_pure _)))

theorem steady_activate (ids : List PhysicalRepresentationId) : Steady (activate ids) := by
  induction ids with
  | nil => exact steady_pure ()
  | cons k rest ih =>
    refine (steady_adjustReference _ k).bind (fun _ => (steady_representation k).bind (fun r => ?_))
    exact steady_update_bind ih (fun _ => rfl)

theorem steady_bindTransition (i : PreparedTransitionId) (t : PreparedTransition) :
    Steady (bindTransition i t) := by
  refine steady_update_bind ?_ (fun _ => rfl)
  refine (steady_adjustReferences _ _).bind (fun _ => steady_update_bind ?_ (fun _ => rfl))
  refine steady_read_bind (fun m => steady_update_bind ?_ (fun _ => rfl))
  refine (steady_dropBinding _).bind (fun _ => (steady_activate _).bind (fun _ => ?_))
  refine steady_identity.bind (fun binding => steady_update_bind ?_ (fun _ => rfl))
  refine steady_update_bind ?_ (fun _ => rfl)
  exact steady_update_bind (steady_pure _) (fun _ => rfl)

theorem steady_commitTransition (i : PreparedTransitionId) (revision : ℕ) :
    Steady (commitTransition i revision) := by
  refine steady_read_bind (fun m => (steady_require _ _).bind (fun t => ?_))
  have hcheck : Steady (checkCommit t revision) :=
    (steady_check _ _).bind (fun _ => (steady_checkTransfers _).bind
      (fun _ => (steady_deviceBlocks _ _).bind (fun _ => steady_pure _)))
  exact hcheck.bind (fun _ => steady_bindTransition i t)

theorem steady_commitMappedTransition (i : PreparedTransitionId) (revision executorMapping : ℕ) :
    Steady (commitMappedTransition i revision executorMapping) := by
  refine steady_read_bind (fun m => (steady_require _ _).bind (fun t => ?_))
  refine (steady_check _ _).bind (fun _ => (steady_checkTransfers _).bind (fun _ => ?_))
  refine (steady_deviceBlocks _ _).bind (fun blocks => steady_identity.bind (fun table => ?_))
  refine (steady_commitTransition i revision).bind (fun binding => ?_)
  refine steady_update_bind ?_ (fun _ => rfl)
  exact steady_update_bind (steady_pure _) (fun _ => rfl)

theorem steady_detachTransfers (xs : List TransferId) : Steady (detachTransfers xs) := by
  induction xs with
  | nil => exact steady_pure ()
  | cons x rest ih =>
    refine Steady.bind (steady_read_bind (fun m => (steady_unwrap _).bind (fun y => ?_)))
      (fun _ => ih)
    exact Call.Moves.ite (steady_update (fun _ => rfl)) (steady_update (fun _ => rfl))

theorem steady_abortTransition (i : PreparedTransitionId) : Steady (abortTransition i) := by
  refine steady_read_bind (fun m => (steady_require _ _).bind (fun t => ?_))
  refine steady_update_bind ?_ (fun _ => rfl)
  refine (steady_detachTransfers _).bind (fun _ => (steady_adjustReferences _ _).bind (fun _ => ?_))
  exact steady_update_bind (steady_update (fun _ => rfl)) (fun _ => rfl)

end Cusco.DeviceTotals
