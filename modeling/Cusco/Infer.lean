import Cusco.Admission
import Cusco.ContextStrategy
import Cusco.Generation
import Cusco.Runs

/-!
The infer calls of a server. A call reads its context under the lock, may have the engine
prepare a compacted prompt, generates with a callback for every piece, and commits under
the lock. Between these sections any other call may act, and the engine, the emission of
a delta, the clock and the control of the request may have any outcome. A call without a
context commits under an identifier that was never given out before.
-/

namespace Cusco.Infer

open Admission (ControlState)
open ContextStrategy Generation Runs Utf8

inductive Error
  | admission (error : Admission.Error)
  | forbidden
  | modelNotFound (id : String)
  | contextNotFound
  | badRequest (message : String)
  deriving DecidableEq

def state (message : String) : Error := .admission (.state message)

abbrev ContextId := String

structure ContextRecord where
  id : ContextId
  revision : ℕ
  tokens : List Token
  nativeTokens : List ℤ
  deriving DecidableEq

structure InferRequest where
  prompt : Text
  maxTokens : ℕ
  contextId : Option ContextId
  deadlineMs : Option ℕ
  stop : List Text
  rawContinuation : Bool
  compaction : Option CompactionRequest

structure CompactionDeclaration where
  contextId : ContextId
  strategyPreferences : List String
  targetTokens : Option ℕ
  deriving DecidableEq

structure EngineOutput where
  successorTokens : List ℤ
  inputTokens : ℕ
  cachedTokens : ℕ
  evaluatedTokens : ℕ
  deriving DecidableEq

structure Usage where
  inputTokens : ℕ
  generatedTokens : ℕ
  evaluatedTokens : ℕ
  cachedTokens : ℕ
  contextId : ContextId
  compactionResult : Option CompactionResult
  deriving DecidableEq

structure InferResponse where
  text : List UInt8
  finishReason : FinishReason
  usage : Usage
  deriving DecidableEq

/-- What a call has computed since it read its context: the compaction it was asked for,
the context it read, and the tokens that it will build on. -/
structure Progress where
  frontier : GenerationFrontier
  compaction : Option CompactionRequest
  context : Option ContextRecord
  tokens : List Token
  priorTokens : List ℤ
  compactionResult : Option CompactionResult
  deriving DecidableEq

inductive Stage
  | entered (frontier : GenerationFrontier)
  | prepared (frontier : GenerationFrontier) (compaction : Option CompactionRequest)
  | loaded (p : Progress)
  | compacting (p : Progress) (proposal : CompactionProposal)
  | generating (p : Progress)
  | committing (p : Progress) (output : EngineOutput) (shown : FrontierResult)
  | committed (p : Progress) (response : InferResponse)
  | failed (error : Error)
  deriving DecidableEq

structure Call where
  request : InferRequest
  successorId : ContextId
  stage : Stage

structure State where
  contexts : Table ContextId ContextRecord
  calls : List Call

inductive Action
  | enter (request : InferRequest) (fresh : ContextId) (stops : Except Error (List Text))
  | prepare (i : ℕ) (declaration : Except Error CompactionDeclaration)
      (control : Option ControlState) (model : Except Error Unit)
  | read (i : ℕ)
  | compact (i : ℕ) (control : ControlState)
  | prepared (i : ℕ) (output : Except Error EngineOutput) (control : ControlState)
  | piece (i : ℕ) (piece : List UInt8) (terminalOrControl late : Bool) (control : ControlState)
      (emit : List UInt8 → Except Error Unit)
  | generated (i : ℕ) (output : Except Error EngineOutput)
      (emit : List UInt8 → Except Error Unit) (control : ControlState) (late : Bool)
  | commit (i : ℕ)

def Action.call : Action → Option ℕ
  | enter _ _ _ => none
  | prepare i _ _ _ | read i | compact i _ | prepared i _ _ | piece i _ _ _ _ _
  | generated i _ _ _ _ | commit i => some i

/-- `split_whitespace` of a text, given as its bytes. -/
def splitWhitespace (text : List UInt8) : List Token :=
  (((lossy text).splitOnP isWhitespace).filter (fun word => !word.isEmpty)).map List.flatten

def check (control : ControlState) : Except Error Unit := control.check.mapError .admission

/-- A declared compaction takes its strategies and its target from the declaration. -/
def resolveCompaction (request : InferRequest)
    (declaration : Except Error CompactionDeclaration) :
    Except Error (Option CompactionRequest) :=
  match request.compaction with
  | none => .ok none
  | some compaction =>
    match compaction.declarationId with
    | none => .ok (some compaction)
    | some _ => do
      let declared ← declaration
      match request.contextId with
      | none => throw (.badRequest "compaction declaration requires context")
      | some contextId =>
        if contextId ≠ declared.contextId then
          throw (.badRequest "compaction declaration context mismatch")
        return some { compaction with
          strategyPreferences := declared.strategyPreferences
          targetTokens := compaction.targetTokens.orElse (fun _ => declared.targetTokens) }

def prepare (request : InferRequest) (declaration : Except Error CompactionDeclaration)
    (control : Option ControlState) (model : Except Error Unit) :
    Except Error (Option CompactionRequest) := do
  let compaction ← resolveCompaction request declaration
  if request.deadlineMs = some 0 then throw (.admission .deadline)
  match control with
  | none => throw (.admission .cancelled)
  | some control =>
    check control
    model
    return compaction

def progress (frontier : GenerationFrontier) (compaction : Option CompactionRequest)
    (context : Option ContextRecord) : Progress where
  frontier := frontier
  compaction := compaction
  context := context
  tokens := context.elim [] ContextRecord.tokens
  priorTokens := context.elim [] ContextRecord.nativeTokens
  compactionResult := none

/-- The result reported when no requested strategy is known. -/
def noMatchResult (compaction : CompactionRequest) (source : ContextRecord)
    (tokens : List Token) : CompactionResult where
  compactMode := "window_tail"
  compactReason := .none
  requestedStrategyIds := compaction.strategyPreferences
  selectedStrategyId := none
  requestedStrategyBudget := compaction.targetTokens.getD 3072
  resultingBudget := tokens.length
  retainedIndices := List.range tokens.length
  retainedMessageCount := tokens.length
  sourceMessageCount := tokens.length
  retainedAnchorCount := 0
  success := false
  fallback := true
  resultingContextEpoch := min (source.revision + 1) (2 ^ 64 - 1)

/-- The stage after the compaction was decided; only a proposal that changes the tokens
goes to the engine. -/
def compact (p : Progress) (control : ControlState) : Except Error Stage :=
  match p.compaction with
  | none => .ok (.generating p)
  | some compaction =>
    match p.context with
    | none => .error (.badRequest "compaction requires an existing context")
    | some source =>
      match selectStrategy compaction.strategyPreferences with
      | none =>
        if compaction.fallbackWhenNoMatch = .reject then
          .error (.badRequest "unsupported_compaction_strategy")
        else .ok (.generating { p with
          compactionResult := some (noMatchResult compaction source p.tokens) })
      | some selected =>
        if selected.isEmpty then .ok (.generating p)
        else if selected ≠ windowTailStrategyId then
          .error (.badRequest "unsupported compaction strategy for this release")
        else
          match applyWindowTailStrategy p.tokens (compaction.targetTokens.getD 3072)
              [selected] with
          | .error message => .error (.badRequest message)
          | .ok proposal =>
            match check control with
            | .error error => .error error
            | .ok _ =>
              let result := { proposal.result with
                selectedStrategyId := some (deterministicStrategyId selected)
                resultingContextEpoch := min (source.revision + 1) (2 ^ 64 - 1) }
              if proposal.resultingTokens ≠ p.tokens then
                .ok (.compacting { p with compactionResult := some result } proposal)
              else .ok (.generating { p with compactionResult := some result })

/-- The engine has prepared the compacted prompt. -/
def takeProposal (p : Progress) (proposal : CompactionProposal)
    (output : Except Error EngineOutput) (control : ControlState) : Except Error Progress := do
  let prepared ← output
  check control
  return { p with
    tokens := proposal.resultingTokens
    priorTokens := prepared.successorTokens }

/-- The callback for one piece: the deadline, the control, then the frontier. -/
def takePiece (request : InferRequest) (p : Progress) (piece : List UInt8)
    (terminalOrControl late : Bool) (control : ControlState)
    (emit : List UInt8 → Except Error Unit) : Except Error Progress :=
  match check (if request.deadlineMs.isSome && late then control.expire else control) with
  | .error error => .error error
  | .ok _ =>
    match p.frontier.push emit piece terminalOrControl with
    | (.error error, _, _) => .error error
    | (.ok _, frontier, _) => .ok { p with frontier := frontier }

/-- From the engine's output to the commit: the rest of the text is flushed, and the
control and the deadline are looked at once more. -/
def conclude (request : InferRequest) (p : Progress) (output : Except Error EngineOutput)
    (emit : List UInt8 → Except Error Unit) (control : ControlState) (late : Bool) :
    Except Error (EngineOutput × FrontierResult) := do
  let generated ← output
  let shown ← (p.frontier.finish emit).1
  check control
  if request.deadlineMs.isSome && late then throw (.admission .deadline)
  return (generated, shown)

/-- The tokens to commit: those built on, the prompt's words and the text's words. -/
def logicalContextTokens (request : InferRequest) (p : Progress) (shown : FrontierResult) :
    List Token :=
  p.tokens ++ splitWhitespace request.prompt.bytes ++ splitWhitespace shown.text

def response (p : Progress) (output : EngineOutput) (shown : FrontierResult)
    (contextId : ContextId) : InferResponse where
  text := shown.text
  finishReason := shown.finishReason
  usage := {
    inputTokens := output.inputTokens
    generatedTokens := shown.generatedTokens
    evaluatedTokens := output.evaluatedTokens
    cachedTokens := output.cachedTokens
    contextId := contextId
    compactionResult := p.compactionResult }

/-- The section that commits. -/
def commit (contexts : Table ContextId ContextRecord) (c : Call) (p : Progress)
    (output : EngineOutput) (shown : FrontierResult) :
    Except Error (ContextId × Table ContextId ContextRecord) :=
  match p.context with
  | some context =>
    match contexts.lookup context.id with
    | none => .error .contextNotFound
    | some stored =>
      if stored.revision ≠ context.revision then
        .error (state "context changed during compaction")
      else .ok (stored.id, contexts.insert context.id { stored with
        tokens := logicalContextTokens c.request p shown
        nativeTokens := output.successorTokens
        revision := stored.revision + 1 })
  | none => .ok (c.successorId, contexts.insert c.successorId {
      id := c.successorId
      revision := 1
      tokens := logicalContextTokens c.request p shown
      nativeTokens := output.successorTokens })

namespace State

/-- A server with these contexts and no call. -/
def initial (contexts : Table ContextId ContextRecord) : State := ⟨contexts, []⟩

def goto (s : State) (i : ℕ) (c : Call) (stage : Stage) : State :=
  { s with calls := s.calls.set i { c with stage := stage } }

/-- An identifier that no context has and no call was given. -/
def Unissued (s : State) (id : ContextId) : Prop :=
  s.contexts.lookup id = none ∧ ∀ c ∈ s.calls, c.request.contextId = none → c.successorId ≠ id

instance (s : State) (id : ContextId) : Decidable (s.Unissued id) :=
  inferInstanceAs (Decidable (_ ∧ _))

/-- The frontier of a call, from its own stops and those of the model's family. -/
def enter (s : State) (request : InferRequest) (fresh : ContextId)
    (stops : Except Error (List Text)) : State :=
  let stage := match stops with
    | .error error => .failed error
    | .ok stops =>
      match GenerationFrontier.newEffective stops request.rawContinuation with
      | .error message => .failed (Infer.state message)
      | .ok frontier => .entered frontier
  { s with calls := s.calls ++ [⟨request, request.contextId.getD fresh, stage⟩] }

/-- The read of the context, for a call that names one. -/
def readContext (s : State) (request : InferRequest) : Except Error (Option ContextRecord) :=
  match request.contextId with
  | none => .ok none
  | some id =>
    match s.contexts.lookup id with
    | none => .error .contextNotFound
    | some record => .ok (some record)

end State

/-- The stage after a part of a call. -/
def Stage.after {α : Type} (next : α → Stage) : Except Error α → Stage
  | .ok a => next a
  | .error error => .failed error

/-- The next stage of a call; only a commit changes the contexts. -/
def nextStage (s : State) (c : Call) : Action → Option Stage
  | .prepare _ declaration control model =>
    match c.stage with
    | .entered frontier =>
      some (.after (.prepared frontier) (prepare c.request declaration control model))
    | _ => none
  | .read _ =>
    match c.stage with
    | .prepared frontier compaction =>
      some (.after (fun context => .loaded (progress frontier compaction context))
        (s.readContext c.request))
    | _ => none
  | .compact _ control =>
    match c.stage with
    | .loaded p => some (.after id (compact p control))
    | _ => none
  | .prepared _ output control =>
    match c.stage with
    | .compacting p proposal =>
      some (.after .generating (takeProposal p proposal output control))
    | _ => none
  | .piece _ piece terminalOrControl late control emit =>
    match c.stage with
    | .generating p =>
      some (.after .generating
        (takePiece c.request p piece terminalOrControl late control emit))
    | _ => none
  | .generated _ output emit control late =>
    match c.stage with
    | .generating p =>
      some (.after (fun r => .committing p r.1 r.2)
        (conclude c.request p output emit control late))
    | _ => none
  | _ => none

def act (s : State) (action : Action) : Option State :=
  match action with
  | .enter request fresh stops =>
    if s.Unissued fresh then some (s.enter request fresh stops) else none
  | .commit i =>
    s.calls[i]?.bind (fun c =>
      match c.stage with
      | .committing p output shown =>
        match commit s.contexts c p output shown with
        | .error error => some (s.goto i c (.failed error))
        | .ok (id, contexts) =>
          some ({ s with contexts := contexts }.goto i c
            (.committed p (response p output shown id)))
      | _ => none)
  | _ =>
    action.call.bind (fun i => s.calls[i]?.bind (fun c =>
      (nextStage s c action).map (s.goto i c)))

def Step (s : State) (action : Action) (s' : State) : Prop := act s action = some s'

end Cusco.Infer
