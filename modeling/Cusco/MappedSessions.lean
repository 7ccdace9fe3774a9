import Cusco.MappedEngine

/-!
Sessions of the mapped engine. A session prepares its context and its own branch of the
executor's state, evaluates the prompt in chunks that end at block boundaries, decodes token
after token and publishes every completed block. A world is the engine's state with the
sessions alive; each action is one call, which holds the lock from start to end.
-/

namespace Cusco.Mapped

open Calls LogicalStore Physical

structure EngineRequest where
  modelPath : String
  prompt : String
  maxTokens : ℕ
  priorTokens : List Token
  sampling : SamplingConfig
  grammar : Option String
  prefillChunkTokens : ℕ
  deriving DecidableEq

structure EngineOutput where
  successorTokens : List Token
  inputTokens : ℕ
  cachedTokens : ℕ
  evaluatedTokens : ℕ
  deriving DecidableEq

inductive QuantumKind
  | preparation
  | prefill
  | decode
  deriving DecidableEq

structure QuantumObservation where
  kind : QuantumKind
  chargedTokens : ℕ
  transitionCostBytes : ℕ
  deriving DecidableEq

inductive SessionStep
  | progress (observation : QuantumObservation)
  | token (id : Token) (piece : List UInt8) (terminalOrControl : Bool)
      (observation : QuantumObservation)
  | finished (output : EngineOutput)
  deriving DecidableEq

inductive MappedStage
  | preparation
  | prefill
  | decode
  | publication
  | finished
  deriving DecidableEq

structure MappedSession (Logits Sampler : Type) where
  request : EngineRequest
  stage : MappedStage
  tokens : List Token
  logicalContext : Option LogicalContextId
  activeMapping : Option RepresentationHandle
  parent : Option EvaluatedPrefixId
  next : Option Logits
  sampler : Option Sampler
  inputTokens : ℕ
  cached : ℕ
  evaluatedTokens : ℕ
  evaluated : ℕ
  generated : ℕ
  finished : Option EngineOutput

/-- The engine's state and the session that holds the lock. -/
structure Locked (Logits Sampler : Type) where
  state : MappedState Logits
  session : MappedSession Logits Sampler

section Calls

variable {Logits Sampler : Type}

/-- `start_session`, once the request's control has let it pass. -/
def startSession (e : MappedEngine) (request : EngineRequest) :
    Except Error (MappedSession Logits Sampler) :=
  if request.prefillChunkTokens = 0 then .error (.state "prefill chunk size must be nonzero")
  else if request.modelPath ≠ e.modelPath then
    .error (.state "mapped execution admits only a resident process-owned model")
  else .ok {
    request := request
    stage := .preparation
    tokens := []
    logicalContext := none
    activeMapping := none
    parent := none
    next := none
    sampler := none
    inputTokens := 0
    cached := 0
    evaluatedTokens := 0
    evaluated := 0
    generated := 0
    finished := none }

abbrev SessionCall (Logits Sampler α : Type) := Call (Locked Logits Sampler) Error α

def onState {α : Type} (x : Operation Logits α) : SessionCall Logits Sampler α :=
  x.within Locked.state (fun s l => { l with state := s }) id

def setSession (f : MappedSession Logits Sampler → MappedSession Logits Sampler) :
    SessionCall Logits Sampler Unit :=
  Call.update (fun l => { l with session := f l.session })

/-- What the longest valid prefix gives the session. -/
def adopt (resident : Option (ResidentMapping Logits)) (m : Option EvaluatedPrefix)
    (session : MappedSession Logits Sampler) : MappedSession Logits Sampler :=
  let cached := (m.map EvaluatedPrefix.representedEnd).getD 0
  { session with
    cached := cached
    evaluatedTokens := session.tokens.length - cached
    evaluated := cached
    parent := m.map EvaluatedPrefix.id
    next := resident.map ResidentMapping.continuation }

/-- The tokens of the request and the check against the model's context. -/
def tokenizeRequest (e : MappedEngine) (b : Backend Logits Sampler) :
    SessionCall Logits Sampler Unit := do
  onState (attempt .executor)
  let l ← Call.read
  let request := l.session.request
  let prompt := b.tokenize request.prompt
  onState checkControl
  setSession (fun s => { s with inputTokens := prompt.length })
  let total ← Call.require ((checkedAdd request.priorTokens.length prompt.length).bind
    (fun sum => checkedAdd sum request.maxTokens)) (.state "request token count overflow")
  Call.check (total ≤ e.contextCapacity) (.state "request exceeds model context capacity")
  setSession (fun s => { s with tokens := request.priorTokens ++ prompt })

/-- The session's own branch of the prefix. -/
def branchPrefix (b : Backend Logits Sampler) (context : LogicalContextId)
    (m : Option EvaluatedPrefix) : Operation Logits RepresentationHandle := do
  activatePrefix b context m
  let source ← activeRepresentation
  forkForRequestBranch source

def prepare (e : MappedEngine) (b : Backend Logits Sampler) :
    SessionCall Logits Sampler SessionStep := do
  onState checkControl
  tokenizeRequest e b
  let l ← Call.read
  let context ← onState (onLogical (fun s => s.create l.session.tokens l.state.modelEpoch
    adapterEpoch))
  let m ← onState (askLogical (fun s => s.longestValidPrefix context))
  let l ← Call.read
  setSession (adopt (m.bind (fun m => l.state.resident.lookup m.id)) m)
  let active ← onState (branchPrefix b context m)
  let l' ← Call.read
  setSession (fun s => { s with
    activeMapping := some active
    logicalContext := some context
    stage := .prefill })
  pure (.progress ⟨.preparation, 1, l'.state.physical.metrics.transferBytes -
    l.state.physical.metrics.transferBytes⟩)

/-- `activate_owned`. -/
def activateOwned (session : MappedSession Logits Sampler) : SessionCall Logits Sampler Unit := do
  let active ← Call.unwrap session.activeMapping
  onState (activateMapping active)

/-- At a block boundary the active mapping is snapshot and published. -/
def completeBlock (sha : List UInt8 → Digest) (e : MappedEngine) (b : Backend Logits Sampler) :
    SessionCall Logits Sampler Unit := do
  let l ← Call.read
  if l.session.evaluated % e.profile.blockSize = 0 then do
    let active ← Call.unwrap l.session.activeMapping
    let snapshot ← onState (snapshotActiveMapping active)
    let context ← Call.unwrap l.session.logicalContext
    let continuation ← Call.unwrap l.session.next
    let id ← onState (publishBlock sha e.profile b context l.session.evaluated l.session.parent
      snapshot continuation)
    setSession (fun s => { s with parent := some id })
  else pure ()

/-- The end of the next chunk, which does not cross a block boundary. -/
def chunkEnd (e : MappedEngine) (s : MappedSession Logits Sampler) : ℕ :=
  let nextBlock := min ((s.evaluated / e.profile.blockSize + 1) * e.profile.blockSize) u64Max
  min (min s.tokens.length nextBlock) (saturatingAdd s.evaluated s.request.prefillChunkTokens)

/-- The chunk is decoded. -/
def decodeChunk (e : MappedEngine) (b : Backend Logits Sampler) :
    SessionCall Logits Sampler Unit := do
  let l ← Call.read
  let stop := chunkEnd e l.session
  let next ← onState (decodeTokens b
    ((l.session.tokens.take stop).drop l.session.evaluated))
  setSession (fun s => { s with next := some next })
  onState checkControl
  setSession (fun s => { s with evaluated := stop })

/-- All tokens of the prompt are evaluated. -/
def enterDecode (b : Backend Logits Sampler) : SessionCall Logits Sampler SessionStep := do
  let l ← Call.read
  Call.check (l.session.request.maxTokens = 0 || l.session.next.isSome)
    (.state "an exact cached prefix cannot supply uncached logits")
  onState (attempt .executor)
  setSession (fun s => { s with
    sampler := some (b.samplerWithGrammar l.session.request.sampling l.session.request.grammar)
    stage := .decode })
  pure (.progress ⟨.prefill, 1, 0⟩)

def prefill (sha : List UInt8 → Digest) (e : MappedEngine) (b : Backend Logits Sampler) :
    SessionCall Logits Sampler SessionStep := do
  let l ← Call.read
  if l.session.tokens.length ≤ l.session.evaluated then enterDecode b
  else do
    onState checkControl
    onState checkControl
    activateOwned l.session
    decodeChunk e b
    completeBlock sha e b
    pure (.progress ⟨.prefill, max (chunkEnd e l.session - l.session.evaluated) 1, 0⟩)

/-- The mapping to go back to when the session's branch is given up. -/
def leaveBranch : SessionCall Logits Sampler Unit := do
  let l ← Call.read
  match l.session.activeMapping with
  | none => pure ()
  | some active => do
    setSession (fun s => { s with activeMapping := none })
    let current ← onState activeRepresentation
    let fallback := (l.session.parent.bind l.state.nativeOf).getD current
    if active ≠ fallback then onState (activateMapping fallback) else pure ()

def outputOf (s : MappedSession Logits Sampler) : EngineOutput :=
  ⟨s.tokens, s.inputTokens, s.cached, s.evaluatedTokens⟩

def publish : SessionCall Logits Sampler EngineOutput := do
  let l ← Call.read
  match l.session.finished with
  | some output => pure output
  | none => do
    onState checkControl
    setSession (fun s => { s with sampler := none })
    leaveBranch
    setSession (fun s => { s with finished := some (outputOf s), stage := .finished })
    pure (outputOf l.session)

/-- The next token is sampled, rendered and appended to the context. -/
def sampleToken (b : Backend Logits Sampler) : SessionCall Logits Sampler (Token × List UInt8) := do
  let l ← Call.read
  let sampler ← Call.unwrap l.session.sampler
  let next ← Call.unwrap l.session.next
  let (sampled, sampler') := b.sample sampler next
  setSession (fun s => { s with sampler := some sampler' })
  onState (attempt .executor)
  let piece := if b.tokenIsEog sampled then [] else b.renderToken sampled
  Call.skipIf (b.tokenIsEog sampled) (onState (attempt .executor))
  onState checkControl
  setSession (fun s => { s with tokens := s.tokens ++ [sampled] })
  let context ← Call.unwrap l.session.logicalContext
  onState (onLogical (fun s => s.append context [sampled]))
  setSession (fun s => { s with generated := s.generated + 1 })
  pure (sampled, piece)

/-- The sampled token is evaluated. -/
def decodeSampled (sha : List UInt8 → Digest) (e : MappedEngine) (b : Backend Logits Sampler)
    (sampled : Token) : SessionCall Logits Sampler Unit := do
  let next ← onState (decodeTokens b [sampled])
  setSession (fun s => { s with next := some next })
  onState checkControl
  setSession (fun s => { s with evaluated := s.evaluated + 1 })
  completeBlock sha e b

def decode (sha : List UInt8 → Digest) (e : MappedEngine) (b : Backend Logits Sampler) :
    SessionCall Logits Sampler SessionStep := do
  let l ← Call.read
  if l.session.request.maxTokens ≤ l.session.generated then do
    setSession (fun s => { s with stage := .publication })
    let output ← publish
    pure (.finished output)
  else do
    onState checkControl
    onState checkControl
    activateOwned l.session
    let (sampled, piece) ← sampleToken b
    if b.tokenIsEog sampled || l.session.generated + 1 = l.session.request.maxTokens then
      setSession (fun s => { s with stage := .publication })
    else decodeSampled sha e b sampled
    pure (.token sampled piece (b.tokenIsEog sampled) ⟨.decode, 1, 0⟩)

def stepSession (sha : List UInt8 → Digest) (e : MappedEngine) (b : Backend Logits Sampler) :
    SessionCall Logits Sampler SessionStep := do
  let l ← Call.read
  match l.session.stage with
  | .preparation => prepare e b
  | .prefill => prefill sha e b
  | .decode => decode sha e b
  | .publication => do
    let output ← publish
    pure (.finished output)
  | .finished => do
    let output ← Call.unwrap l.session.finished
    pure (.finished output)

def finishSession : SessionCall Logits Sampler SessionStep := do
  let output ← publish
  pure (.finished output)

/-- `drop`. -/
def dropSession (s : MappedSession Logits Sampler) : Operation Logits Unit := do
  match s.activeMapping with
  | none => pure ()
  | some active => do
    let state ← Call.read
    let fallback := (s.parent.bind state.nativeOf).getD state.root
    if active ≠ fallback then (activateMapping fallback).ignore else pure ()

end Calls

/-- A session alive, with what is seen of it: whether a call returned an error, whether it was
asked to finish before it had, the contexts created in its calls and the tokens it handed
out. -/
structure Live (Logits Sampler : Type) where
  session : MappedSession Logits Sampler
  failed : Bool
  stopped : Bool
  contexts : List LogicalContextId
  emitted : List Token

structure World (Logits Sampler : Type) where
  state : MappedState Logits
  sessions : Table ℕ (Live Logits Sampler)

inductive Action
  | start (id : ℕ) (request : EngineRequest)
  | step (id : ℕ) (outside : List Answer)
  | finish (id : ℕ) (outside : List Answer)
  | drop (id : ℕ) (outside : List Answer)
  | spill (order : List EvaluatedPrefixId) (outside : List Answer)
  deriving DecidableEq

section Worlds

variable {Logits Sampler : Type}

def World.opened (capacity : Capacity) (modelEpoch : ModelEpoch) : World Logits Sampler :=
  ⟨MappedState.opened capacity modelEpoch, ∅⟩

def MappedState.hear (s : MappedState Logits) (outside : List Answer) : MappedState Logits :=
  { s with outside := outside }

def emittedBy : Except Error SessionStep → List Token
  | .ok (.token id _ _ _) => [id]
  | .ok (.progress _) => []
  | .ok (.finished _) => []
  | .error _ => []

/-- The contexts a store created since another. -/
def createdSince (before after : ContextStore) : List LogicalContextId :=
  (List.range' before.nextContext (after.nextContext - before.nextContext)).map
    LogicalContextId.mk

/-- The world after a call of a session, which may have stopped it. -/
def settle (w : World Logits Sampler) (id : ℕ) (live : Live Logits Sampler) (stops : Bool) :
    Outcome (Locked Logits Sampler) Error SessionStep → Option (World Logits Sampler)
  | .returns r l => some ⟨l.state.hear [], w.sessions.insert id
      ⟨l.session, r.toOption.isNone, live.stopped || stops && live.session.finished.isNone,
        live.contexts ++ createdSince w.state.logical l.state.logical,
        live.emitted ++ emittedBy r⟩⟩
  | .panics => none

/-- A call of a session that has not failed. -/
def callSession (w : World Logits Sampler) (id : ℕ) (outside : List Answer) (stops : Bool)
    (x : SessionCall Logits Sampler SessionStep) : Option (World Logits Sampler) :=
  (w.sessions.lookup id).bind (fun live =>
    if live.failed then none
    else settle w id live stops (x.run ⟨w.state.hear outside, live.session⟩))

/-- The world after a call on the state alone. -/
def settleState {α : Type} (sessions : Table ℕ (Live Logits Sampler)) :
    Outcome (MappedState Logits) Error α → Option (World Logits Sampler)
  | .returns _ s => some ⟨s.hear [], sessions⟩
  | .panics => none

def act (sha : List UInt8 → Digest) (e : MappedEngine) (b : Backend Logits Sampler)
    (w : World Logits Sampler) : Action → Option (World Logits Sampler)
  | .start id request =>
    if (w.sessions.lookup id).isSome then none
    else match startSession e request with
      | .error _ => some w
      | .ok session => some
        { w with sessions := w.sessions.insert id ⟨session, false, false, [], []⟩ }
  | .step id outside => callSession w id outside false (stepSession sha e b)
  | .finish id outside => callSession w id outside true finishSession
  | .drop id outside => (w.sessions.lookup id).bind (fun live =>
      settleState (w.sessions.erase id)
        ((dropSession live.session).run (w.state.hear outside)))
  | .spill order outside =>
    if order.Perm w.state.resident.keys then
      settleState w.sessions ((spillInactiveMappings e b order).run (w.state.hear outside))
    else none

def Step (sha : List UInt8 → Digest) (e : MappedEngine) (b : Backend Logits Sampler)
    (w : World Logits Sampler) (a : Action) (w' : World Logits Sampler) : Prop :=
  act sha e b w a = some w'

end Worlds

end Cusco.Mapped
