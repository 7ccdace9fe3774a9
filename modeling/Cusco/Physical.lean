import Cusco.LogicalStore

/-!
The physical manager. Representations of evaluated prefixes live on a device,
host or storage tier; bindings, prepared transitions, transfers and growth
reservations own them and bound the bytes admitted to the device. Trace events
are left out, and byte sums are natural numbers; the additions that the source
checks are checked here against `usize`.
-/

namespace Cusco.Physical

open Calls LogicalStore

structure PhysicalRepresentationId where
  value : ℕ
  deriving DecidableEq

structure ActiveBindingId where
  value : ℕ
  deriving DecidableEq

structure PreparedTransitionId where
  value : ℕ
  deriving DecidableEq

structure TransferId where
  value : ℕ
  deriving DecidableEq

structure GrowthReservationId where
  value : ℕ
  deriving DecidableEq

structure DeviceBlockTableId where
  value : ℕ
  deriving DecidableEq

inductive Component
  | globalKv
  | slidingWindow
  | recurrent
  deriving DecidableEq

def Component.mask : Component → ComponentMask
  | .globalKv => ComponentMask.globalKv
  | .slidingWindow => ComponentMask.swa
  | .recurrent => ComponentMask.recurrent

inductive Tier
  | device
  | host
  | storage
  deriving DecidableEq

inductive TransitionClass
  | referenceOnly
  | nonDestructive
  | quiesced
  | recompute
  deriving DecidableEq

structure ReferenceCounts where
  logical : ℕ
  active : ℕ
  reservations : ℕ
  transfers : ℕ
  deriving DecidableEq

/-- `ReferenceCounts::protected`. -/
def ReferenceCounts.isProtected (r : ReferenceCounts) : Bool :=
  r.active ≠ 0 || r.reservations ≠ 0 || r.transfers ≠ 0

structure PhysicalRepresentation where
  id : PhysicalRepresentationId
  mapping : EvaluatedPrefixId
  component : Component
  representedEnd : ℕ
  bytes : ℕ
  device : Bool
  host : Bool
  storage : Bool
  references : ReferenceCounts
  lastUsed : ℕ
  reuseValue : ℕ
  deriving DecidableEq

structure DeviceBlock where
  representation : PhysicalRepresentationId
  component : Component
  bytes : ℕ
  deriving DecidableEq

structure DeviceBlockTable where
  id : DeviceBlockTableId
  binding : ActiveBindingId
  mapping : EvaluatedPrefixId
  executorMapping : ℕ
  blocks : List DeviceBlock
  deriving DecidableEq

structure Capacity where
  deviceBytes : ℕ
  hostBytes : ℕ
  device_le : deviceBytes ≤ u64Max
  host_le : hostBytes ≤ u64Max
  deriving DecidableEq

structure Metrics where
  deviceTotal : ℕ
  deviceActive : ℕ
  deviceGrowthReserved : ℕ
  deviceTransitionReserved : ℕ
  deviceDetachedTransferReserved : ℕ
  deviceWarm : ℕ
  hostTotal : ℕ
  hostUsed : ℕ
  transferBytes : ℕ
  promotions : ℕ
  demotions : ℕ
  evictions : ℕ
  prepared : ℕ
  committed : ℕ
  aborted : ℕ
  recomputed : ℕ
  mappedPublications : ℕ
  referenceSwitches : ℕ
  deriving DecidableEq

structure ActiveBinding where
  id : ActiveBindingId
  mapping : EvaluatedPrefixId
  representations : List PhysicalRepresentationId
  deriving DecidableEq

structure PreparedTransition where
  context : LogicalContextId
  revision : ℕ
  mapping : EvaluatedPrefixId
  representations : List PhysicalRepresentationId
  transfers : List TransferId
  reservedBytes : ℕ
  transitionClass : TransitionClass
  deriving DecidableEq

structure Transfer where
  representation : PhysicalRepresentationId
  bytes : ℕ
  completed : Bool
  success : Bool
  detached : Bool
  deriving DecidableEq

structure GrowthReservation where
  bytes : ℕ
  deriving DecidableEq

inductive Error
  | representationNotFound
  | bindingNotFound
  | transitionNotFound
  | transferNotFound
  | growthReservationNotFound
  | deviceCapacity
  | hostCapacity
  | invalidComposite
  | noPromotionSource
  | transferPending
  | transferFailed
  | staleRevision
  | isProtected
  deriving DecidableEq

abbrev Representations := Table PhysicalRepresentationId PhysicalRepresentation

structure PhysicalManager where
  capacity : Capacity
  nextId : ℕ
  clock : ℕ
  representations : Representations
  bindings : Table LogicalContextId ActiveBinding
  transitions : Table PreparedTransitionId PreparedTransition
  transfers : Table TransferId Transfer
  growth : Table GrowthReservationId GrowthReservation
  blockTables : Table LogicalContextId DeviceBlockTable
  metrics : Metrics
  deriving DecidableEq

abbrev Operation (α : Type) := Call PhysicalManager Error α

namespace PhysicalManager

/-- `PhysicalManager::new`. -/
def new (capacity : Capacity) : PhysicalManager where
  capacity := capacity
  nextId := 1
  clock := 0
  representations := ∅
  bindings := ∅
  transitions := ∅
  transfers := ∅
  growth := ∅
  blockTables := ∅
  metrics := {
    deviceTotal := capacity.deviceBytes
    deviceActive := 0
    deviceGrowthReserved := 0
    deviceTransitionReserved := 0
    deviceDetachedTransferReserved := 0
    deviceWarm := 0
    hostTotal := capacity.hostBytes
    hostUsed := 0
    transferBytes := 0
    promotions := 0
    demotions := 0
    evictions := 0
    prepared := 0
    committed := 0
    aborted := 0
    recomputed := 0
    mappedPublications := 0
    referenceSwitches := 0 }

/-- The bytes of the representations that satisfy a predicate. -/
def bytesWhere (m : PhysicalManager) (p : PhysicalRepresentation → Bool) : ℕ :=
  m.representations.total (fun _ r => if p r then r.bytes else 0)

def deviceUsed (m : PhysicalManager) : ℕ := m.bytesWhere (fun r => r.device)

/-- `protected_device_bytes`: the device bytes of active representations. -/
def protectedDeviceBytes (m : PhysicalManager) : ℕ :=
  m.bytesWhere (fun r => r.device && r.references.active ≠ 0)

def deviceWarmBytes (m : PhysicalManager) : ℕ :=
  m.bytesWhere (fun r => r.device && !r.references.isProtected)

def hostUsed (m : PhysicalManager) : ℕ := m.bytesWhere (fun r => r.host)

def growthReservedBytes (m : PhysicalManager) : ℕ := m.growth.total (fun _ g => g.bytes)

def transitionReservedBytes (m : PhysicalManager) : ℕ :=
  m.transitions.total (fun _ t => t.reservedBytes)

/-- Admission bounds what a tier holds and what is reserved, so these sums fit a `usize`, which
the code adds without a check; only the transfers that aborted transitions leave detached can
take a sum of reserved bytes past it. -/
def detachedTransferReservedBytes (m : PhysicalManager) : ℕ :=
  m.transfers.total (fun _ x => if x.detached && !x.completed then x.bytes else 0)

def refreshCapacityMetrics (m : PhysicalManager) : PhysicalManager :=
  { m with metrics := { m.metrics with
    deviceActive := m.protectedDeviceBytes
    deviceGrowthReserved := m.growthReservedBytes
    deviceTransitionReserved := m.transitionReservedBytes
    deviceDetachedTransferReserved := m.detachedTransferReservedBytes
    deviceWarm := m.deviceWarmBytes
    hostUsed := m.hostUsed } }

def refresh : Operation Unit := Call.update refreshCapacityMetrics

/-- `PhysicalManager::id`. -/
def identity : Operation ℕ := ⟨fun m =>
  if m.nextId = u64Max then .panics
  else .returns (.ok m.nextId) { m with nextId := m.nextId + 1 }⟩

def tick : Operation ℕ := ⟨fun m =>
  if m.clock = u64Max then .panics
  else .returns (.ok (m.clock + 1)) { m with clock := m.clock + 1 }⟩

def setRepresentation (id : PhysicalRepresentationId) (r : PhysicalRepresentation)
    (m : PhysicalManager) : PhysicalManager :=
  { m with representations := m.representations.insert id r }

def setMetrics (f : Metrics → Metrics) (m : PhysicalManager) : PhysicalManager :=
  { m with metrics := f m.metrics }

/-- The representation that an index or an `unwrap` expects to be present. -/
def representation (id : PhysicalRepresentationId) : Operation PhysicalRepresentation := do
  let m ← Call.read
  Call.unwrap (m.representations.lookup id)

/-- Rewrite the counts of a representation; `none` is an underflow. -/
def adjustReference (f : ReferenceCounts → Option ReferenceCounts)
    (id : PhysicalRepresentationId) : Operation Unit := do
  let r ← representation id
  let references ← Call.unwrap (f r.references)
  Call.update (setRepresentation id { r with references := references })

def adjustReferences (f : ReferenceCounts → Option ReferenceCounts) :
    List PhysicalRepresentationId → Operation Unit
  | [] => pure ()
  | id :: rest => do
    adjustReference f id
    adjustReferences f rest

end PhysicalManager

namespace ReferenceCounts

def addActive (r : ReferenceCounts) : Option ReferenceCounts :=
  some { r with active := r.active + 1 }

def dropActive (r : ReferenceCounts) : Option ReferenceCounts :=
  if r.active = 0 then none else some { r with active := r.active - 1 }

def addReservation (r : ReferenceCounts) : Option ReferenceCounts :=
  some { r with reservations := r.reservations + 1 }

def dropReservation (r : ReferenceCounts) : Option ReferenceCounts :=
  if r.reservations = 0 then none else some { r with reservations := r.reservations - 1 }

def addTransfer (r : ReferenceCounts) : Option ReferenceCounts :=
  some { r with transfers := r.transfers + 1 }

def dropTransfer (r : ReferenceCounts) : Option ReferenceCounts :=
  if r.transfers = 0 then none else some { r with transfers := r.transfers - 1 }

end ReferenceCounts

namespace PhysicalManager

/-- Clear one tier's flag. -/
def clearTier (r : PhysicalRepresentation) : Tier → PhysicalRepresentation
  | .device => { r with device := false }
  | .host => { r with host := false }
  | .storage => { r with storage := false }

def onTier (r : PhysicalRepresentation) : Tier → Bool
  | .device => r.device
  | .host => r.host
  | .storage => r.storage

def evict (id : PhysicalRepresentationId) (tier : Tier) : Operation Unit := do
  let m ← Call.read
  let r ← Call.require (m.representations.lookup id) .representationNotFound
  Call.check (!r.references.isProtected) .isProtected
  if onTier r tier then do
    Call.update (setRepresentation id (clearTier r tier))
    Call.update (setMetrics (fun x => { x with evictions := x.evictions + 1 }))
    refresh
  else pure ()

/-- The order of `(reuse_value, last_used, id)`. -/
def keyLt (a b : PhysicalRepresentation) : Bool :=
  a.reuseValue < b.reuseValue || (a.reuseValue = b.reuseValue &&
    (a.lastUsed < b.lastUsed || (a.lastUsed = b.lastUsed && a.id.value < b.id.value)))

/-- `min_by_key`: the first representation with the least key. -/
def minByKey : List PhysicalRepresentation → Option PhysicalRepresentation
  | [] => none
  | r :: rest =>
    match minByKey rest with
    | none => some r
    | some best => if keyLt best r then some best else some r

def evictionCandidate (m : PhysicalManager) : Option PhysicalRepresentation :=
  minByKey (m.representations.values.filter (fun r => r.device && !r.references.isProtected))

/-- `checked_add(..).is_some_and(|used| used <= limit)`. -/
def fitsWithin (used additional limit : ℕ) : Bool :=
  (checkedAdd used additional).any (fun sum => sum ≤ limit)

/-- The loop of `ensure_device_space`; every round takes one representation off
the device, so the number of representations bounds the rounds. -/
def evictUntilFits (additional : ℕ) : ℕ → Operation Unit
  | 0 => Call.fail .deviceCapacity
  | fuel + 1 => do
    let m ← Call.read
    if fitsWithin m.deviceUsed additional m.capacity.deviceBytes then pure ()
    else do
      let candidate ← Call.require m.evictionCandidate .deviceCapacity
      evict candidate.id .device
      evictUntilFits additional fuel

def ensureDeviceSpace (additional : ℕ) : Operation Unit := do
  let m ← Call.read
  evictUntilFits additional (m.representations.entries.length + 1)

def ensureDeviceCapacity (additionalGuarded : ℕ) : Operation Unit := do
  let m ← Call.read
  let reservations := m.growthReservedBytes + m.transitionReservedBytes +
    m.detachedTransferReservedBytes
  let required ← Call.require ((checkedAdd m.protectedDeviceBytes reservations).bind
    (fun sum => checkedAdd sum additionalGuarded)) .deviceCapacity
  Call.check (required ≤ m.capacity.deviceBytes) .deviceCapacity
  ensureDeviceSpace additionalGuarded

def ensureHostCapacity (additional : ℕ) : Operation Unit := do
  let m ← Call.read
  Call.check (fitsWithin m.hostUsed additional m.capacity.hostBytes) .hostCapacity

/-- The capacity check of `register`. -/
def ensureTier (tier : Tier) (bytes : ℕ) : Operation Unit :=
  match tier with
  | .device => ensureDeviceCapacity bytes
  | .host => ensureHostCapacity bytes
  | .storage => pure ()

def register (mapping : EvaluatedPrefixId) (component : Component) (representedEnd bytes : ℕ)
    (tier : Tier) (reuseValue : ℕ) : Operation PhysicalRepresentationId := do
  ensureTier tier bytes
  let id ← identity
  let lastUsed ← tick
  Call.update (setRepresentation ⟨id⟩ {
    id := ⟨id⟩
    mapping := mapping
    component := component
    representedEnd := representedEnd
    bytes := bytes
    device := tier = .device
    host := tier = .host
    storage := tier = .storage
    references := ⟨1, 0, 0, 0⟩
    lastUsed := lastUsed
    reuseValue := reuseValue })
  refresh
  pure ⟨id⟩

def releaseLogicalReference (id : PhysicalRepresentationId) : Operation Unit := do
  let m ← Call.read
  let r ← Call.require (m.representations.lookup id) .representationNotFound
  let references := { r.references with logical := r.references.logical - 1 }
  Call.update (fun m =>
    if references.logical = 0 && !references.isProtected then
      { m with representations := m.representations.erase id }
    else setRepresentation id { r with references := references } m)
  refresh

def reserveGrowth (bytes : ℕ) : Operation GrowthReservationId := do
  ensureDeviceCapacity bytes
  let id ← identity
  Call.update (fun m => { m with growth := m.growth.insert ⟨id⟩ ⟨bytes⟩ })
  refresh
  pure ⟨id⟩

def releaseGrowth (id : GrowthReservationId) : Operation Unit := do
  let m ← Call.read
  let _ ← Call.require (m.growth.lookup id) .growthReservationNotFound
  Call.update (fun m => { m with growth := m.growth.erase id })
  refresh

def demoteToHost (id : PhysicalRepresentationId) : Operation Unit := do
  let m ← Call.read
  let r ← Call.require (m.representations.lookup id) .representationNotFound
  Call.check (!r.references.isProtected) .isProtected
  Call.skipIf r.host (ensureHostCapacity r.bytes)
  Call.update (setRepresentation id { r with host := true, device := false })
  Call.update (setMetrics (fun x =>
    { x with demotions := if r.device then x.demotions + 1 else x.demotions }))
  refresh

def demoteToStorage (id : PhysicalRepresentationId) : Operation Unit := do
  let m ← Call.read
  let r ← Call.require (m.representations.lookup id) .representationNotFound
  Call.check (!r.references.isProtected) .isProtected
  Call.update (setRepresentation id { r with storage := true, host := false, device := false })
  Call.update (setMetrics (fun x =>
    { x with demotions := if r.device then x.demotions + 1 else x.demotions }))
  refresh

/-- The components of the representations, checked one after the other. -/
def presentComponents (m : PhysicalManager) (mapping : EvaluatedPrefixId) (representedEnd : ℕ) :
    List Component → List PhysicalRepresentationId → Except Error (List Component)
  | present, [] => .ok present
  | present, id :: rest =>
    match m.representations.lookup id with
    | none => .error .representationNotFound
    | some r =>
      if r.mapping ≠ mapping ∨ r.representedEnd ≠ representedEnd ∨ r.component ∈ present then
        .error .invalidComposite
      else presentComponents m mapping representedEnd (present ++ [r.component]) rest

def validateComposite (m : PhysicalManager) (mapping : EvaluatedPrefixId) (representedEnd : ℕ)
    (required : ComponentMask) (representations : List PhysicalRepresentationId) :
    Except Error Unit :=
  match presentComponents m mapping representedEnd [] representations with
  | .error e => .error e
  | .ok present =>
    if [Component.globalKv, Component.slidingWindow, Component.recurrent].all
        (fun c => required.contains c.mask == present.contains c) then .ok ()
    else .error .invalidComposite

/-- The bytes to bring to the device, and whether something is to be recomputed. -/
def planMissing (allowRecompute : Bool) :
    List PhysicalRepresentationId → ℕ → Bool → Operation (ℕ × Bool)
  | [], missing, recompute => pure (missing, recompute)
  | id :: rest, missing, recompute => do
    let r ← representation id
    if r.device then planMissing allowRecompute rest missing recompute
    else do
      Call.check (r.host || r.storage || allowRecompute) .noPromotionSource
      let missing' ← Call.require (checkedAdd missing r.bytes) .deviceCapacity
      planMissing allowRecompute rest missing' (recompute || !(r.host || r.storage))

/-- Reserve the representations, starting a transfer for each copy to promote. -/
def reserveRepresentations : List PhysicalRepresentationId → Operation (List TransferId)
  | [] => pure []
  | id :: rest => do
    let r ← representation id
    adjustReference ReferenceCounts.addReservation id
    if !r.device && (r.host || r.storage) then do
      let transfer ← identity
      adjustReference ReferenceCounts.addTransfer id
      Call.update (fun m => { m with
        transfers := m.transfers.insert ⟨transfer⟩ ⟨id, r.bytes, false, false, false⟩ })
      let transfers ← reserveRepresentations rest
      pure (⟨transfer⟩ :: transfers)
    else reserveRepresentations rest

def prepareTransition (context : LogicalContextId) (revision : ℕ) (mapping : EvaluatedPrefixId)
    (representedEnd : ℕ) (required : ComponentMask)
    (representations : List PhysicalRepresentationId) (allowRecompute : Bool) :
    Operation (PreparedTransitionId × TransitionClass × List TransferId) := do
  let m ← Call.read
  Call.ofExcept (m.validateComposite mapping representedEnd required representations)
  let (missing, recompute) ← planMissing allowRecompute representations 0 false
  ensureDeviceCapacity missing
  let m ← Call.read
  let transitionClass := if recompute then TransitionClass.recompute
    else if missing = 0 then .referenceOnly
    else if (m.bindings.lookup context).isSome then .nonDestructive
    else .quiesced
  let transition ← identity
  let transfers ← reserveRepresentations representations
  Call.update (fun m => { m with
    transitions := m.transitions.insert ⟨transition⟩
      ⟨context, revision, mapping, representations, transfers, missing, transitionClass⟩ })
  Call.update (setMetrics (fun x => { x with prepared := x.prepared + 1 }))
  refresh
  pure (⟨transition⟩, transitionClass, transfers)

/-- Mark a representation as resident on the device. -/
def arrive (id : PhysicalRepresentationId) : Operation Unit := do
  let r ← representation id
  Call.update (setRepresentation id { r with device := true })

/-- Bring the bytes of a transfer to the device. -/
def promote (x : Transfer) : Operation Unit := do
  ensureDeviceSpace x.bytes
  arrive x.representation
  Call.update (setMetrics (fun y => { y with promotions := y.promotions + 1 }))

/-- The part of `complete_transfer` for a transfer that succeeded. -/
def receive (x : Transfer) : Operation Unit := do
  let r ← representation x.representation
  Call.skipIf r.device (promote x)
  Call.update (setMetrics (fun y => { y with transferBytes := y.transferBytes + x.bytes }))

def completeTransfer (id : TransferId) (success : Bool) : Operation Unit := do
  let m ← Call.read
  let x ← Call.require (m.transfers.lookup id) .transferNotFound
  if x.completed then pure ()
  else do
    Call.skipIf (!success) (receive x)
    Call.update (fun m => { m with
      transfers := m.transfers.insert id { x with completed := true, success := success } })
    adjustReference ReferenceCounts.dropTransfer x.representation
    refresh
    Call.skipIf (!x.detached)
      (Call.update (fun m => { m with transfers := m.transfers.erase id }))

/-- Bring a recomputed representation to the device. -/
def rebuild (id : PhysicalRepresentationId) (bytes : ℕ) : Operation Unit := do
  ensureDeviceSpace bytes
  arrive id
  Call.update (setMetrics (fun x => { x with recomputed := x.recomputed + 1 }))

def completeRecompute (transition : PreparedTransitionId)
    (id : PhysicalRepresentationId) : Operation Unit := do
  let m ← Call.read
  let t ← Call.require (m.transitions.lookup transition) .transitionNotFound
  Call.check (t.transitionClass = .recompute && id ∈ t.representations) .invalidComposite
  let r ← representation id
  Call.skipIf r.device (rebuild id r.bytes)
  refresh

def checkTransfers : List TransferId → Operation Unit
  | [] => pure ()
  | id :: rest => do
    let m ← Call.read
    let x ← Call.unwrap (m.transfers.lookup id)
    Call.check x.completed .transferPending
    Call.check x.success .transferFailed
    checkTransfers rest

/-- The device blocks of the representations, or an error at the first one that
is not resident. -/
def deviceBlocks (e : Error) : List PhysicalRepresentationId → Operation (List DeviceBlock)
  | [] => pure []
  | id :: rest => do
    let r ← representation id
    Call.check r.device e
    let blocks ← deviceBlocks e rest
    pure (⟨id, r.component, r.bytes⟩ :: blocks)

def releaseTransitionRefs (t : PreparedTransition) : Operation Unit :=
  adjustReferences ReferenceCounts.dropReservation t.representations

/-- Make representations active at the current clock. -/
def activate : List PhysicalRepresentationId → Operation Unit
  | [] => pure ()
  | id :: rest => do
    adjustReference ReferenceCounts.addActive id
    let r ← representation id
    Call.update (fun m => setRepresentation id { r with lastUsed := m.clock } m)
    activate rest

/-- Remove the binding of a context, if it has one, and its active references. -/
def dropBinding (context : LogicalContextId) : Operation Unit := do
  let m ← Call.read
  match m.bindings.lookup context with
  | none => pure ()
  | some old => do
    Call.update (fun m => { m with bindings := m.bindings.erase context })
    adjustReferences ReferenceCounts.dropActive old.representations

def eraseBlockTable (context : LogicalContextId) (m : PhysicalManager) : PhysicalManager :=
  { m with blockTables := m.blockTables.erase context }

/-- The checks of `commit_transition`. -/
def checkCommit (t : PreparedTransition) (currentRevision : ℕ) : Operation Unit := do
  Call.check (t.revision = currentRevision) .staleRevision
  checkTransfers t.transfers
  let _ ← deviceBlocks .transferPending t.representations

/-- The part of `commit_transition` after its checks. -/
def bindTransition (id : PreparedTransitionId) (t : PreparedTransition) :
    Operation ActiveBindingId := do
  Call.update (fun m => { m with transitions := m.transitions.erase id })
  releaseTransitionRefs t
  Call.update (eraseBlockTable t.context)
  let m ← Call.read
  Call.update (setMetrics (fun x => { x with referenceSwitches :=
    if t.transitionClass = .referenceOnly && (m.bindings.lookup t.context).isSome then
      x.referenceSwitches + 1
    else x.referenceSwitches }))
  dropBinding t.context
  activate t.representations
  let binding ← identity
  Call.update (fun m => { m with
    bindings := m.bindings.insert t.context ⟨⟨binding⟩, t.mapping, t.representations⟩
    transfers := m.transfers.eraseAll t.transfers })
  Call.update (setMetrics (fun x => { x with committed := x.committed + 1 }))
  refresh
  pure ⟨binding⟩

def commitTransition (id : PreparedTransitionId) (currentRevision : ℕ) :
    Operation ActiveBindingId := do
  let m ← Call.read
  let t ← Call.require (m.transitions.lookup id) .transitionNotFound
  checkCommit t currentRevision
  bindTransition id t

def commitMappedTransition (id : PreparedTransitionId) (currentRevision executorMapping : ℕ) :
    Operation (ActiveBindingId × DeviceBlockTableId) := do
  let m ← Call.read
  let t ← Call.require (m.transitions.lookup id) .transitionNotFound
  Call.check (t.revision = currentRevision) .staleRevision
  checkTransfers t.transfers
  let blocks ← deviceBlocks .transferPending t.representations
  let table ← identity
  let binding ← commitTransition id currentRevision
  Call.update (fun m => { m with
    blockTables := m.blockTables.insert t.context
      ⟨⟨table⟩, binding, t.mapping, executorMapping, blocks⟩ })
  Call.update (setMetrics (fun x => { x with mappedPublications := x.mappedPublications + 1 }))
  pure (binding, ⟨table⟩)

def publishDeviceBlockTable (context : LogicalContextId) (binding : ActiveBindingId)
    (executorMapping : ℕ) : Operation DeviceBlockTableId := do
  let m ← Call.read
  let active ← Call.require (m.bindings.lookup context) .bindingNotFound
  Call.check (active.id = binding) .bindingNotFound
  let blocks ← deviceBlocks .invalidComposite active.representations
  let id ← identity
  Call.update (fun m => { m with
    blockTables := m.blockTables.insert context
      ⟨⟨id⟩, binding, active.mapping, executorMapping, blocks⟩ })
  Call.update (setMetrics (fun x => { x with mappedPublications := x.mappedPublications + 1 }))
  pure ⟨id⟩

def unbind (context : LogicalContextId) : Operation Unit := do
  let m ← Call.read
  let _ ← Call.require (m.bindings.lookup context) .bindingNotFound
  Call.update (eraseBlockTable context)
  dropBinding context
  refresh

/-- The same steps as `unbind`. -/
def releaseBinding (context : LogicalContextId) : Operation Unit := unbind context

/-- Drop a completed transfer; detach an incomplete one. -/
def detachTransfer (id : TransferId) : Operation Unit := do
  let m ← Call.read
  let x ← Call.unwrap (m.transfers.lookup id)
  if x.completed then Call.update (fun m => { m with transfers := m.transfers.erase id })
  else Call.update (fun m => { m with
    transfers := m.transfers.insert id { x with detached := true } })

def detachTransfers : List TransferId → Operation Unit
  | [] => pure ()
  | id :: rest => do
    detachTransfer id
    detachTransfers rest

def abortTransition (id : PreparedTransitionId) : Operation Unit := do
  let m ← Call.read
  let t ← Call.require (m.transitions.lookup id) .transitionNotFound
  Call.update (fun m => { m with transitions := m.transitions.erase id })
  detachTransfers t.transfers
  releaseTransitionRefs t
  Call.update (setMetrics (fun x => { x with aborted := x.aborted + 1 }))
  refresh

end PhysicalManager

end Cusco.Physical
