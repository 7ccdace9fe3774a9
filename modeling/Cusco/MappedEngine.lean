import Cusco.CallTriples
import Cusco.Physical

/-!
The mapped engine. It keeps a native executor, a logical context store and a physical manager
in step: a completed block is published in all three, a cached prefix is activated from them,
and inactive mappings are spilled to files. What the executor computes depends on the tokens
evaluated in the active representation; every operation of the executor, of the file system
and of the request's control may fail, as the answers of the outside say.
-/

namespace Cusco.Mapped

open Calls LogicalStore Physical

/-- `ADAPTER_EPOCH`. -/
def adapterEpoch : AdapterEpoch := ⟨0⟩

/-- `EXECUTION_SLOT`. -/
def executionSlot : LogicalContextId := ⟨u64Max⟩

inductive ProfileComponent
  | kv
  | swa
  | recurrent
  deriving DecidableEq

namespace ProfileComponent

def mask : ProfileComponent → ComponentMask
  | .kv => ComponentMask.globalKv
  | .swa => ComponentMask.swa
  | .recurrent => ComponentMask.recurrent

def component : ProfileComponent → Component
  | .kv => .globalKv
  | .swa => .slidingWindow
  | .recurrent => .recurrent

/-- The union of the components' masks. -/
def requiredMask (components : List ProfileComponent) : ComponentMask :=
  components.foldl (fun mask c => mask.union c.mask) ComponentMask.empty

end ProfileComponent

/-- A profile of the catalog: its schema keeps the components distinct, and `validate` asks for
a block size and for all three components. -/
structure ExecutionProfile where
  blockSize : ℕ
  requiredComponents : List ProfileComponent
  distinct : requiredComponents.Nodup
  block_pos : 0 < blockSize
  complete : ∀ c : ProfileComponent,
    (ProfileComponent.requiredMask requiredComponents).contains c.mask = true

namespace ExecutionProfile

def requiredMask (p : ExecutionProfile) : ComponentMask :=
  ProfileComponent.requiredMask p.requiredComponents

def components (p : ExecutionProfile) : List Component :=
  p.requiredComponents.map ProfileComponent.component

end ExecutionProfile

/-- The floats by their bits. -/
structure SamplingConfig where
  temperature : UInt32
  topP : UInt32
  seed : UInt32
  deriving DecidableEq

/-- What the executor computes. A decode gives the logits after all tokens evaluated, and the
sizes of a representation and of its export depend on these tokens. -/
structure Backend (Logits Sampler : Type) where
  tokenize : String → List Token
  logits : List Token → Logits
  samplerWithGrammar : SamplingConfig → Option String → Sampler
  sample : Sampler → Logits → Token × Sampler
  tokenIsEog : Token → Bool
  renderToken : Token → List UInt8
  serializedBytes : List Token → ℕ
  exportedBytes : List Token → ℕ

structure RepresentationHandle where
  identity : ℕ
  deriving DecidableEq

/-- The tokens evaluated in each representation, one of which is active. -/
structure Executor where
  nextIdentity : ℕ
  active : RepresentationHandle
  evaluated : Table RepresentationHandle (List Token)

namespace Executor

/-- After `open`, with the root's identity the first. -/
def opened : Executor := ⟨2, ⟨0⟩, (∅ : Table RepresentationHandle (List Token)).insert ⟨0⟩ []⟩

def tokensOf (x : Executor) (h : RepresentationHandle) : List Token :=
  (x.evaluated.lookup h).getD []

/-- A new representation with the tokens given. -/
def enter (x : Executor) (tokens : List Token) : Executor :=
  { x with
    nextIdentity := x.nextIdentity + 1
    evaluated := x.evaluated.insert ⟨x.nextIdentity⟩ tokens }

/-- The tokens of the active representation are replaced. -/
def write (x : Executor) (tokens : List Token) : Executor :=
  { x with evaluated := x.evaluated.insert x.active tokens }

end Executor

/-- An exported representation. -/
structure MappingState where
  tokens : List Token
  position : ℕ
  deriving DecidableEq

inductive Error
  | stopped
  | executor
  | file
  | logical (e : LogicalStore.Error)
  | physical (e : Physical.Error)
  | state (text : String)
  deriving DecidableEq

/-- An operation of the outside is done, or fails; a decode that fails leaves the active
representation with any tokens. -/
inductive Answer
  | done
  | failed (tokens : List Token)
  deriving DecidableEq

/-- The file is named after the mapping. -/
structure SpilledMapping where
  path : EvaluatedPrefixId
  bytes : ℕ
  position : ℕ
  deriving DecidableEq

structure ResidentMapping (Logits : Type) where
  native : Option RepresentationHandle
  spill : Option SpilledMapping
  representations : List PhysicalRepresentationId
  continuation : Logits

/-- The state behind the lock, the spill files, and the answers that the outside still has
for the call under way; without an answer an operation is done. -/
structure MappedState (Logits : Type) where
  executor : Executor
  root : RepresentationHandle
  logical : ContextStore
  physical : PhysicalManager
  modelEpoch : ModelEpoch
  resident : Table EvaluatedPrefixId (ResidentMapping Logits)
  spillBytes : ℕ
  files : Table EvaluatedPrefixId (List Token)
  outside : List Answer

structure MappedEngine where
  profile : ExecutionProfile
  modelPath : String
  contextCapacity : ℕ
  spillDir : Option String
  spillCapacity : ℕ

/-- The state of `open_at_epoch_with_spill`. -/
def MappedState.opened {Logits : Type} (capacity : Capacity) (modelEpoch : ModelEpoch) :
    MappedState Logits where
  executor := Executor.opened
  root := Executor.opened.active
  logical := ContextStore.empty
  physical := PhysicalManager.new capacity
  modelEpoch := modelEpoch
  resident := ∅
  spillBytes := 0
  files := ∅
  outside := []

section Operations

variable {Logits Sampler : Type}

abbrev Operation (Logits α : Type) := Call (MappedState Logits) Error α

/-- An operation of the outside. -/
def attempt (e : Error) : Operation Logits Unit := ⟨fun s =>
  match s.outside with
  | [] => .returns (.ok ()) s
  | .done :: rest => .returns (.ok ()) { s with outside := rest }
  | .failed _ :: rest => .returns (.error e) { s with outside := rest }⟩

/-- A call of the physical manager. -/
def onPhysical {α : Type} (x : Physical.Operation α) : Operation Logits α :=
  x.within MappedState.physical (fun p s => { s with physical := p }) Error.physical

/-- A call of the logical store. -/
def onLogical {α : Type} (f : ContextStore → Outcome ContextStore LogicalStore.Error α) :
    Operation Logits α :=
  (⟨f⟩ : Call ContextStore LogicalStore.Error α).within MappedState.logical
    (fun l s => { s with logical := l }) Error.logical

/-- A question to the logical store. -/
def askLogical {α : Type} (f : ContextStore → Except LogicalStore.Error α) :
    Operation Logits α :=
  onLogical (fun l => .returns (f l) l)

def setExecutor (f : Executor → Executor) : Operation Logits Unit :=
  Call.update (fun s => { s with executor := f s.executor })

/-- `control.check()`. -/
def checkControl : Operation Logits Unit := attempt .stopped

def activateMapping (h : RepresentationHandle) : Operation Logits Unit := do
  attempt .executor
  setExecutor (fun x => { x with active := h })

def activeRepresentation : Operation Logits RepresentationHandle := do
  attempt .executor
  let s ← Call.read
  pure s.executor.active

/-- A new representation, once the operation is done. -/
def enterRepresentation (tokens : List Token) : Operation Logits RepresentationHandle := do
  attempt .executor
  let s ← Call.read
  setExecutor (fun x => x.enter tokens)
  pure ⟨s.executor.nextIdentity⟩

/-- `prepare_mapping_fork`: the tokens are copied here. -/
def prepareMappingFork (source : RepresentationHandle) : Operation Logits (List Token) := do
  attempt .executor
  let s ← Call.read
  pure (s.executor.tokensOf source)

def commitMapping (prepared : List Token) : Operation Logits RepresentationHandle :=
  enterRepresentation prepared

def importMapping (state : MappingState) : Operation Logits RepresentationHandle :=
  enterRepresentation state.tokens

def exportMapping (h : RepresentationHandle) : Operation Logits MappingState := do
  attempt .executor
  let s ← Call.read
  pure ⟨s.executor.tokensOf h, (s.executor.tokensOf h).length⟩

/-- `describe_representation(..).serialized_bytes`. -/
def describeRepresentation (b : Backend Logits Sampler) (h : RepresentationHandle) :
    Operation Logits ℕ := do
  attempt .executor
  let s ← Call.read
  pure (b.serializedBytes (s.executor.tokensOf h))

/-- `decode` in the active representation. -/
def decodeTokens (b : Backend Logits Sampler) (tokens : List Token) : Operation Logits Logits :=
  ⟨fun s =>
    let all := s.executor.tokensOf s.executor.active ++ tokens
    match s.outside with
    | [] => .returns (.ok (b.logits all)) { s with executor := s.executor.write all }
    | .done :: rest =>
      .returns (.ok (b.logits all)) { s with executor := s.executor.write all, outside := rest }
    | .failed left :: rest =>
      .returns (.error .executor) { s with executor := s.executor.write left, outside := rest }⟩

def readFile (path : EvaluatedPrefixId) : Operation Logits (List Token) := do
  attempt .file
  let s ← Call.read
  Call.require (s.files.lookup path) .file

/-- `write` to the temporary file, then `rename`. -/
def writeFile (path : EvaluatedPrefixId) (tokens : List Token) : Operation Logits Unit := do
  attempt .file
  attempt .file
  Call.update (fun s => { s with files := s.files.insert path tokens })

def removeFile (path : EvaluatedPrefixId) : Operation Logits Unit := do
  attempt .file
  Call.update (fun s => { s with files := s.files.erase path })

/-- The native state of a resident mapping. -/
def MappedState.nativeOf (s : MappedState Logits) (id : EvaluatedPrefixId) :
    Option RepresentationHandle :=
  (s.resident.lookup id).bind ResidentMapping.native

def MappedState.setResident (s : MappedState Logits) (id : EvaluatedPrefixId)
    (r : ResidentMapping Logits) : MappedState Logits :=
  { s with resident := s.resident.insert id r }

/-- The resident mappings with native state that is not active, in the order of the map. -/
def spillCandidates (s : MappedState Logits) (order : List EvaluatedPrefixId) :
    List (EvaluatedPrefixId × RepresentationHandle) :=
  order.filterMap (fun id => (s.nativeOf id).bind (fun native =>
    if native.identity ≠ s.executor.active.identity then some (id, native) else none))

def demoteAll : List PhysicalRepresentationId → Operation Logits Unit
  | [] => pure ()
  | representation :: rest => do
    onPhysical (PhysicalManager.demoteToStorage representation)
    demoteAll rest

/-- The native state is given up for the file, where all spilled bytes are now `total`. -/
def spilledTo (id : EvaluatedPrefixId) (r : ResidentMapping Logits) (bytes position total : ℕ)
    (s : MappedState Logits) : MappedState Logits :=
  { s.setResident id { r with native := none, spill := some ⟨id, bytes, position⟩ } with
    spillBytes := total }

/-- One round of the loop; the answer says whether the mapping was spilled. The sum of the
spilled bytes panics when it overflows. -/
def spillOne (e : MappedEngine) (b : Backend Logits Sampler) (id : EvaluatedPrefixId)
    (native : RepresentationHandle) : Operation Logits Bool := do
  let mapping ← exportMapping native
  let s ← Call.read
  if saturatingAdd s.spillBytes (b.exportedBytes mapping.tokens) > e.spillCapacity then pure false
  else do
    writeFile id mapping.tokens
    let s ← Call.read
    let r ← Call.unwrap (s.resident.lookup id)
    demoteAll r.representations
    let s ← Call.read
    let total ← Call.unwrap (checkedAdd s.spillBytes (b.exportedBytes mapping.tokens))
    Call.update (spilledTo id r (b.exportedBytes mapping.tokens) mapping.position total)
    pure true

def spillAll (e : MappedEngine) (b : Backend Logits Sampler) :
    List (EvaluatedPrefixId × RepresentationHandle) → ℕ → Operation Logits ℕ
  | [], spilled => pure spilled
  | (id, native) :: rest, spilled => do
    let done ← spillOne e b id native
    spillAll e b rest (if done then spilled + 1 else spilled)

def spillInactiveMappings (e : MappedEngine) (b : Backend Logits Sampler)
    (order : List EvaluatedPrefixId) : Operation Logits ℕ :=
  match e.spillDir with
  | none => pure 0
  | some _ => do
    let s ← Call.read
    if spillCandidates s order = [] then pure 0
    else do
      (onPhysical (PhysicalManager.releaseBinding executionSlot)).ignore
      spillAll e b (spillCandidates s order) 0

/-- Transfers are completed one after the other, with the caller's cleanup after an error. -/
def completeTransfers (cleanup : Operation Logits Unit) : List TransferId → Operation Logits Unit
  | [] => pure ()
  | transfer :: rest => do
    (onPhysical (PhysicalManager.completeTransfer transfer true)).rescue cleanup
    completeTransfers cleanup rest

def abortTransition (transition : PreparedTransitionId) : Operation Logits Unit :=
  (onPhysical (PhysicalManager.abortTransition transition)).ignore

/-- `u32::try_from(native.identity())`. -/
def nativeIdentity (h : RepresentationHandle) : Operation Logits ℕ :=
  Call.require (if h.identity < 2 ^ 32 then some h.identity else none)
    (.state "native representation identity exhausted")

def revisionOf (context : LogicalContextId) : Operation Logits ℕ := do
  let s ← Call.read
  let c ← Call.require (s.logical.contexts.lookup context) (.state "logical context disappeared")
  pure c.revision

/-- The native state of the prefix, read back from its file if it was spilled. -/
def nativeState (b : Backend Logits Sampler) (resident : ResidentMapping Logits) :
    Operation Logits RepresentationHandle :=
  match resident.native with
  | some native => pure native
  | none => do
    let spilled ← Call.require resident.spill
      (.state "mapping has neither native nor spilled state")
    let tokens ← readFile spilled.path
    Call.check (b.exportedBytes tokens = spilled.bytes) (.state "spilled mapping size changed")
    importMapping ⟨tokens, spilled.position⟩

/-- The spilled state of a restored mapping is given up for the native one. -/
def restore (id : EvaluatedPrefixId) (native : RepresentationHandle) : Operation Logits Unit := do
  let s ← Call.read
  let r ← Call.unwrap (s.resident.lookup id)
  let spilled ← Call.unwrap r.spill
  Call.update (fun s => s.setResident id { r with spill := none })
  (removeFile spilled.path).ignore
  Call.update (fun s =>
    { s.setResident id { r with spill := none, native := some native } with
      spillBytes := s.spillBytes - spilled.bytes })

def activatePrefix (b : Backend Logits Sampler) (context : LogicalContextId) :
    Option EvaluatedPrefix → Operation Logits Unit
  | none => do
    let s ← Call.read
    activateMapping s.root
  | some m => do
    let s ← Call.read
    let resident ← Call.require (s.resident.lookup m.id)
      (.state "logical mapping has no resident native mapping")
    let native ← nativeState b resident
    let revision ← revisionOf context
    let previous ← activeRepresentation
    let (prepared, _, transfers) ← onPhysical (PhysicalManager.prepareTransition executionSlot
      revision m.id m.representedEnd m.requiredComponents resident.representations false)
    completeTransfers (abortTransition prepared) transfers
    (activateMapping native).rescue (abortTransition prepared)
    let identity ← nativeIdentity native
    let _ ← (onPhysical (PhysicalManager.commitMappedTransition prepared revision identity)).rescue
      (activateMapping previous).ignore
    Call.skipIf resident.native.isSome (restore m.id native)

def forkForRequestBranch (source : RepresentationHandle) :
    Operation Logits RepresentationHandle := do
  let prepared ← prepareMappingFork source
  let mapping ← commitMapping prepared
  activateMapping mapping
  pure mapping

def snapshotActiveMapping (active : RepresentationHandle) :
    Operation Logits RepresentationHandle := do
  let prepared ← prepareMappingFork active
  commitMapping prepared

def releaseRepresentations : List PhysicalRepresentationId → Operation Logits Unit
  | [] => pure ()
  | representation :: rest => do
    (onPhysical (PhysicalManager.releaseLogicalReference representation)).ignore
    releaseRepresentations rest

/-- The cleanup of a publication that fails. -/
def rollBack (registered : List PhysicalRepresentationId) (rollback : RepresentationHandle) :
    Operation Logits Unit := do
  releaseRepresentations registered
  (activateMapping rollback).ignore

def registerComponents (mapping : EvaluatedPrefixId) (representedEnd bytes : ℕ)
    (rollback : RepresentationHandle) (registered : List PhysicalRepresentationId) :
    List Component → Operation Logits (List PhysicalRepresentationId)
  | [] => pure registered
  | component :: rest => do
    let id ← (onPhysical (PhysicalManager.register mapping component representedEnd bytes .host
      representedEnd)).rescue (rollBack registered rollback)
    registerComponents mapping representedEnd bytes rollback (registered ++ [id]) rest

/-- The representations of a mapping that is resident already, or new ones. -/
def representationsOf (p : ExecutionProfile) (mapping : EvaluatedPrefixId)
    (representedEnd bytes : ℕ) (rollback : RepresentationHandle)
    (existing : Option (ResidentMapping Logits)) :
    Operation Logits (List PhysicalRepresentationId) :=
  match existing with
  | some resident => pure resident.representations
  | none => registerComponents mapping representedEnd bytes rollback [] p.components

/-- What a failed publication releases. -/
def registeredOf (existing : Option (ResidentMapping Logits))
    (representations : List PhysicalRepresentationId) : List PhysicalRepresentationId :=
  if existing.isSome then [] else representations

/-- The bytes of a component, rounded up. -/
def bytesPerComponent (serialized count : ℕ) : Option ℕ :=
  (checkedAdd serialized (count - 1)).bind (fun bytes =>
    if count = 0 then none else some (bytes / count))

def checkedMul (a b : ℕ) : Option ℕ := if a * b ≤ u64Max then some (a * b) else none

def unavailableBytes (m : Metrics) : ℕ :=
  saturatingAdd (saturatingAdd (saturatingAdd m.deviceActive m.deviceGrowthReserved)
    m.deviceTransitionReserved) m.deviceDetachedTransferReserved

/-- The capacity check of `publish_block` and the bytes of one component. -/
def reserveBlock (p : ExecutionProfile) (b : Backend Logits Sampler)
    (native : RepresentationHandle) : Operation Logits ℕ := do
  let serialized ← describeRepresentation b native
  let bytes ← Call.require (bytesPerComponent serialized p.requiredComponents.length)
    (.state "representation size overflow")
  let required ← Call.require (checkedMul bytes p.requiredComponents.length)
    (.state "representation size overflow")
  let s ← Call.read
  Call.check
    (required ≤ s.physical.metrics.deviceTotal - unavailableBytes s.physical.metrics)
    (.state "device capacity cannot publish the completed block")
  pure bytes

/-- The mapping committed to the store becomes resident if it was not. -/
def commitBlock (prepared : PreparedPublication) (existing : Option (ResidentMapping Logits))
    (native : RepresentationHandle) (representations : List PhysicalRepresentationId)
    (continuation : Logits) : Operation Logits EvaluatedPrefixId := do
  let mapping ← (onLogical (fun l => l.commitPublication prepared)).expect
  Call.skipIf existing.isSome (Call.update (fun s => s.setResident mapping.id
    ⟨some native, none, representations, continuation⟩))
  pure mapping.id

/-- The transition of `publish_block` and its commits. -/
def transitionBlock (p : ExecutionProfile) (context : LogicalContextId) (representedEnd : ℕ)
    (native rollback : RepresentationHandle) (continuation : Logits)
    (prepared : PreparedPublication) (existing : Option (ResidentMapping Logits))
    (representations : List PhysicalRepresentationId) : Operation Logits EvaluatedPrefixId := do
  let cleanup := rollBack (registeredOf existing representations) rollback
  let revision ← revisionOf context
  let expected ← Call.require (if revision = u64Max then none else some (revision + 1))
    (.state "logical context revision exhausted")
  let (transition, _, transfers) ← (onPhysical (PhysicalManager.prepareTransition executionSlot
    expected prepared.mapping.id representedEnd p.requiredMask representations false)).rescue
      cleanup
  completeTransfers (do abortTransition transition; cleanup) transfers
  let identity ← nativeIdentity ((existing.bind ResidentMapping.native).getD native)
  let _ ← (onPhysical (PhysicalManager.commitMappedTransition transition expected
    identity)).rescue cleanup
  commitBlock prepared existing native representations continuation

def publishBlock (sha : List UInt8 → Digest) (p : ExecutionProfile)
    (b : Backend Logits Sampler) (context : LogicalContextId) (representedEnd : ℕ)
    (parent : Option EvaluatedPrefixId) (native : RepresentationHandle) (continuation : Logits) :
    Operation Logits EvaluatedPrefixId := do
  let bytes ← reserveBlock p b native
  let active ← activeRepresentation
  let s ← Call.read
  let rollback := (parent.bind s.nativeOf).getD active
  let prepared ← askLogical (fun l => l.preparePublication sha context representedEnd parent
    p.requiredMask p.requiredMask zeroDigest)
  askLogical (fun l => l.validatePublication prepared)
  let existing := s.resident.lookup prepared.mapping.id
  let representations ← representationsOf p prepared.mapping.id representedEnd bytes rollback
    existing
  transitionBlock p context representedEnd native rollback continuation prepared existing
    representations

end Operations

end Cusco.Mapped
