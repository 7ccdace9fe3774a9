import Cusco.Conversations
import Cusco.Generation
import Cusco.JsonValues
import Cusco.ModelLifecycle

/-!
The two ways in which a request for a response is executed. The buffered way makes the
resource from the finished inference; the streaming way builds it up event by event and
takes the text from there. Either way the resource is remembered when it is complete. The
engine pushes any pieces, and any of its calls and of the checks around them may fail.
-/

namespace Cusco.Completions

open Conversations (ResponsesToolChoice ResponseInputItem)
open Generation JsonValues Prompt Utf8

structure ResponseTextPart where
  text : List UInt8
  deriving DecidableEq

structure ResponseMessage where
  id : String
  role : String
  status : String
  content : List ResponseTextPart
  deriving DecidableEq

structure ResponseFunctionCall where
  id : String
  callId : String
  name : String
  arguments : String
  status : String
  deriving DecidableEq

inductive ResponseOutputItem
  | message (message : ResponseMessage)
  | functionCall (call : ResponseFunctionCall)
  deriving DecidableEq

structure ResponseUsage where
  inputTokens : ℕ
  cachedTokens : ℕ
  outputTokens : ℕ
  deriving DecidableEq

structure ResponseMetadata where
  correlationId : String
  inferenceId : String
  executionSessionId : String
  deriving DecidableEq

structure ResponseResource where
  schemaVersion : ℕ
  id : String
  owner : String
  model : String
  createdAt : ℕ
  status : String
  store : Bool
  previousResponseId : Option String
  input : List ResponseInputItem
  output : List ResponseOutputItem
  tools : List Json
  toolChoice : Json
  finishReason : Option FinishReason
  usage : Option ResponseUsage
  metadata : ResponseMetadata
  lineageRevision : ℕ

def responseSchemaVersion : ℕ := 1

structure Usage where
  model : String
  inputTokens : ℕ
  generatedTokens : ℕ
  evaluatedTokens : ℕ
  cachedTokens : ℕ
  correlationId : String
  inferenceId : String
  executionSessionId : String
  deriving DecidableEq

/-- `ResponseUsage::from`. -/
def responseUsage (usage : Usage) : ResponseUsage :=
  ⟨usage.inputTokens, usage.cachedTokens, usage.generatedTokens⟩

inductive StreamEvent
  | started (requestId correlationId inferenceId executionSessionId : String)
  | token (token : List UInt8) (index : ℕ)
  | finished (reason : FinishReason) (usage : Usage)
  | error (message : String)

structure InferResponse where
  id : String
  text : List UInt8
  usage : Usage

structure EngineOutput where
  inputTokens : ℕ
  cachedTokens : ℕ
  evaluatedTokens : ℕ

/-- Why an inference fails. -/
inductive Failure
  | request (error : Error)
  | modelNotFound (id : String)
  | deadline
  deriving DecidableEq

def Failure.text : Failure → String
  | .request (.badRequest message) => "invalid request: " ++ message
  | .request (.state message) => "state error: " ++ message
  | .request (.conflict message) => "lineage conflict: " ++ message
  | .request .contextNotFound => "context not found"
  | .request .cancelled => "request cancelled"
  | .modelNotFound id => "model not installed: " ++ id
  | .deadline => "deadline exceeded"

/-- The stop strings of the model, the pieces that the engine pushes, what it returns, and
the outcome of the checks and the commit after it. -/
structure Inference where
  stops : List Text
  pushes : List (List UInt8 × Bool)
  output : Except Failure EngineOutput
  committed : Except Failure Unit

/-- What is generated anew for every execution: ids, and the time that it reads. -/
structure Identity where
  requestId : String
  inferenceId : String
  functionCallId : String
  callId : String
  now : ℕ

/-- The closure of the client that takes every delta. -/
def sent (_ : List UInt8) : Except Failure Unit := .ok ()

/-- The deltas emitted by the pieces, and the frontier after them. -/
def pushed (frontier : GenerationFrontier) (pushes : List (List UInt8 × Bool)) :
    List (List UInt8) × GenerationFrontier :=
  match frontier.pushAll sent pushes with
  | .error _ => ([], frontier)
  | .ok (_, deltas, last) => (deltas, last)

def usageOf (record : ModelLifecycle.ModelRecord) (ids : Identity) (output : EngineOutput)
    (generatedTokens : ℕ) : Usage where
  model := record.id
  inputTokens := output.inputTokens
  generatedTokens := generatedTokens
  evaluatedTokens := output.evaluatedTokens
  cachedTokens := output.cachedTokens
  correlationId := ids.requestId
  inferenceId := ids.inferenceId
  executionSessionId := ids.inferenceId

/-- `infer_admitted` from the frontier on: the deltas emitted, and what it returns. -/
def inferAdmitted (record : ModelLifecycle.ModelRecord) (ids : Identity) (inference : Inference)
    (frontier : GenerationFrontier) :
    List (List UInt8) × Except Failure (InferResponse × FinishReason × Usage) :=
  let (deltas, last) := pushed frontier inference.pushes
  match inference.output with
  | .error e => (deltas, .error e)
  | .ok output =>
    match last.finish sent with
    | (.error e, more) => (deltas ++ more, .error e)
    | (.ok result, more) =>
      match inference.committed with
      | .error e => (deltas ++ more, .error e)
      | .ok () =>
        let usage := usageOf record ids output result.generatedTokens
        (deltas ++ more, .ok (⟨ids.requestId, result.text, usage⟩, result.finishReason, usage))

/-- The frontier of an inference, with the model that the name stands for. -/
def prepared (models : ModelLifecycle.Service) (name : String) (inference : Inference) :
    Except Failure (ModelLifecycle.ModelRecord × GenerationFrontier) :=
  match models.model name with
  | none => .error (.modelNotFound name)
  | some record =>
    match GenerationFrontier.newEffective inference.stops false with
    | .error message => .error (.request (.state message))
    | .ok frontier => .ok (record, frontier)

def startedEvent (ids : Identity) : StreamEvent :=
  .started ids.requestId ids.requestId ids.inferenceId ids.inferenceId

def tokenEvents (deltas : List (List UInt8)) : List StreamEvent :=
  deltas.zipIdx.map (fun (delta, index) => .token delta index)

/-- `infer_reserved`, with the reason of the last event. -/
def inferReserved (models : ModelLifecycle.Service) (name : String) (ids : Identity)
    (inference : Inference) : Except Failure (InferResponse × FinishReason) :=
  match prepared models name inference with
  | .error e => .error e
  | .ok (record, frontier) =>
    match (inferAdmitted record ids inference frontier).2 with
    | .error e => .error e
    | .ok (response, reason, _) => .ok (response, reason)

/-- `infer_stream_reserved`, with all events until the channel closes. -/
def inferStreamReserved (models : ModelLifecycle.Service) (name : String) (ids : Identity)
    (inference : Inference) : Except Failure (List StreamEvent) :=
  match prepared models name inference with
  | .error e => .error e
  | .ok (record, frontier) =>
    let (deltas, result) := inferAdmitted record ids inference frontier
    .ok (startedEvent ids :: tokenEvents deltas ++
      match result with
      | .error e => [.error e.text]
      | .ok (_, reason, usage) => [.finished reason usage])

structure ResponseRequestOptions where
  store : Bool
  previousResponseId : Option String
  lineageRevision : ℕ
  input : List ResponseInputItem
  toolNames : List String
  tools : List Json
  toolChoice : Option ResponsesToolChoice
  toolChoiceValue : Json

def requiresCall : Option ResponsesToolChoice → Bool
  | some (.mode .required) => true
  | some (.function _ _) => true
  | _ => false

/-- The name and the arguments of the JSON object that the text is, if it is one. -/
def calledFunction (json : SerdeJson) (text : List UInt8) : Option (String × String) := do
  let parsed ← json.fromStr (trim (lossy text)).flatten
  let name ← (parsed.get "name").bind Json.asStr
  let arguments ← parsed.get "arguments"
  some (name, arguments.asStr.getD (json.toText arguments))

def newFunctionCall (ids : Identity) (name arguments : String) : ResponseFunctionCall :=
  ⟨"fc_" ++ ids.functionCallId, "call_" ++ ids.callId, name, arguments, "completed"⟩

/-- The call that the tool choice takes from a text, apart from its ids. -/
def chosenCall (json : SerdeJson) (text : List UInt8) (options : ResponseRequestOptions) :
    Except Error (Option (String × String)) :=
  if options.toolNames.isEmpty || options.toolChoice = some (.mode .none) then .ok none
  else
    match calledFunction json text with
    | some (name, arguments) =>
      if name ∉ options.toolNames then
        if requiresCall options.toolChoice then
          .error (.badRequest ("model selected undeclared function `" ++ name ++ "`"))
        else .ok none
      else
        match options.toolChoice with
        | some (.function _ required) =>
          if name ≠ required then
            .error (.badRequest ("model selected `" ++ name ++
              "` instead of required function `" ++ required ++ "`"))
          else .ok (some (name, arguments))
        | _ => .ok (some (name, arguments))
    | none =>
      if requiresCall options.toolChoice then
        .error (.badRequest "model did not produce the required function call")
      else .ok none

def parseFunctionCall (json : SerdeJson) (ids : Identity) (text : List UInt8)
    (options : ResponseRequestOptions) : Except Error (Option ResponseFunctionCall) :=
  (chosenCall json text options).map (fun chosen =>
    chosen.map (fun (name, arguments) => newFunctionCall ids name arguments))

/-- A text as the conversations read it. -/
def content (text : List UInt8) : Content := (lossy text).map (fun c => Char.ofNat (codePoint c))

def keptOutput : ResponseOutputItem → Conversations.ResponseOutputItem
  | .message message => .message (message.content.map (fun part => content part.text))
  | .functionCall call => .functionCall call.callId call.name.toList call.arguments.toList

/-- What the service reads of a resource that it keeps. -/
def kept (resource : ResponseResource) : Conversations.ResponseResource where
  id := resource.id
  owner := resource.owner
  model := resource.model
  store := resource.store
  previousResponseId := resource.previousResponseId
  input := resource.input
  output := resource.output.map keptOutput
  lineageRevision := resource.lineageRevision

/-- The responses of the service, and the resource that an execution has stored there. -/
structure Outcome where
  service : Conversations.ResponseService
  stored : Option ResponseResource

def remember (outcome : Outcome) (resource : ResponseResource) : Outcome :=
  match outcome.service.remember (kept resource) with
  | .error _ => outcome
  | .ok service => ⟨service, some resource⟩

def completedMessage (text : List UInt8) : ResponseMessage :=
  ⟨"msg_0", "assistant", "completed", [⟨text⟩]⟩

/-- `ResponseService::complete`. -/
def complete (ids : Identity) (owner : String) (response : InferResponse) (reason : FinishReason)
    (options : ResponseRequestOptions) (call : Option ResponseFunctionCall) : ResponseResource where
  schemaVersion := responseSchemaVersion
  id := response.id
  owner := owner
  model := response.usage.model
  createdAt := ids.now
  status := "completed"
  store := options.store
  previousResponseId := options.previousResponseId
  input := options.input
  output :=
    match call with
    | none => [.message (completedMessage response.text)]
    | some call => [.functionCall call]
  tools := options.tools
  toolChoice := options.toolChoiceValue
  finishReason := some reason
  usage := some (responseUsage response.usage)
  metadata := ⟨response.usage.correlationId, response.usage.inferenceId,
    response.usage.executionSessionId⟩
  lineageRevision := options.lineageRevision

/-- The buffered branch of `infer_response`, with `completed_response`. -/
def buffered (json : SerdeJson) (models : ModelLifecycle.Service)
    (service : Conversations.ResponseService) (owner name : String)
    (options : ResponseRequestOptions) (inference : Inference) (ids : Identity) : Outcome :=
  match inferReserved models name ids inference with
  | .error _ => ⟨service, none⟩
  | .ok (response, reason) =>
    match parseFunctionCall json ids response.text options with
    | .error _ => ⟨service, none⟩
    | .ok call => remember ⟨service, none⟩ (complete ids owner response reason options call)

inductive ResponseEvent
  | created (resource : ResponseResource)
  | outputItemAdded (message : ResponseMessage)
  | functionCallAdded (call : ResponseFunctionCall)
  | contentPartAdded (part : ResponseTextPart)
  | textDelta (delta : List UInt8)
  | textDone (part : ResponseTextPart)
  | contentPartDone (part : ResponseTextPart)
  | outputItemDone (message : ResponseMessage)
  | functionCallDone (call : ResponseFunctionCall)
  | completed (resource : ResponseResource)
  | error (message : String)

structure ResponseProjection where
  resource : ResponseResource
  sequence : ℕ
  bufferOutput : Bool
  functionCall : Option ResponseFunctionCall

/-- `stream_projection`. -/
def streamProjection (ids : Identity) (owner name : String) (options : ResponseRequestOptions) :
    ResponseProjection where
  resource :=
    { schemaVersion := responseSchemaVersion
      id := ""
      owner := owner
      model := name
      createdAt := ids.now
      status := "in_progress"
      store := options.store
      previousResponseId := options.previousResponseId
      input := options.input
      output := []
      tools := options.tools
      toolChoice := options.toolChoiceValue
      finishReason := none
      usage := none
      metadata := ⟨"", "", ""⟩
      lineageRevision := options.lineageRevision }
  sequence := 0
  bufferOutput := !options.toolNames.isEmpty
  functionCall := none

namespace ResponseProjection

def generatedText (p : ResponseProjection) : List UInt8 :=
  match p.resource.output.head? with
  | some (.message message) => (message.content.head?.map ResponseTextPart.text).getD []
  | _ => []

def message (p : ResponseProjection) (status : String) : ResponseMessage :=
  ⟨"msg_0", "assistant", status, [⟨p.generatedText⟩]⟩

/-- `push_str` on the first part of a message. -/
def pushStr (token : List UInt8) : ResponseOutputItem → ResponseOutputItem
  | .message message => .message { message with
      content := message.content.modifyHead (fun part => ⟨part.text ++ token⟩) }
  | .functionCall call => .functionCall call

/-- The events that the rows of a stream event are made of. -/
def events (p : ResponseProjection) : StreamEvent → ResponseProjection × List ResponseEvent
  | .started requestId correlationId inferenceId executionSessionId =>
    let message := p.message "in_progress"
    let resource := { p.resource with
      id := requestId
      metadata := ⟨correlationId, inferenceId, executionSessionId⟩ }
    let started := { p with resource := { resource with output := [.message message] } }
    (started, .created started.resource :: if p.bufferOutput then []
      else [.outputItemAdded message, .contentPartAdded ⟨[]⟩])
  | .token token _ =>
    ({ p with resource := { p.resource with
        output := p.resource.output.modifyHead (pushStr token) } },
      if p.bufferOutput then [] else [.textDelta token])
  | .finished reason usage =>
    let resource := { p.resource with
      status := "completed"
      finishReason := some reason
      usage := some (responseUsage usage) }
    match p.functionCall with
    | some call =>
      let done := { resource with output := [.functionCall call] }
      ({ p with resource := done, functionCall := none },
        [.functionCallAdded call, .functionCallDone call, .completed done])
    | none =>
      let message := p.message "completed"
      let done := { resource with output := [.message message] }
      let part : ResponseTextPart := ⟨p.generatedText⟩
      ({ p with resource := done },
        (if p.bufferOutput then
          [.outputItemAdded message, .contentPartAdded ⟨[]⟩, .textDelta p.generatedText]
        else []) ++
          [.textDone part, .contentPartDone part, .outputItemDone message, .completed done])
  | .error message => (p, [.error message])

/-- `project`, with the numbered events of its rows. -/
def project (p : ResponseProjection) (event : StreamEvent) :
    ResponseProjection × List (ResponseEvent × ℕ) :=
  let (projected, rows) := p.events event
  ({ projected with sequence := p.sequence + rows.length }, rows.zipIdx p.sequence)

def completedResource (p : ResponseProjection) : Option ResponseResource :=
  if p.resource.status = "completed" then some p.resource else none

end ResponseProjection

/-- The closure over the events of a stream. -/
def streamRow (json : SerdeJson) (ids : Identity) (options : ResponseRequestOptions)
    (state : ResponseProjection × Outcome) (event : StreamEvent) : ResponseProjection × Outcome :=
  let chosen : Except Error ResponseProjection :=
    match event with
    | .finished _ _ =>
      (parseFunctionCall json ids state.1.generatedText options).map (fun call =>
        { state.1 with functionCall := call })
    | _ => .ok state.1
  match chosen with
  | .error _ => state
  | .ok projection =>
    let projected := (projection.project event).1
    match projected.completedResource with
    | none => (projected, state.2)
    | some resource => (projected, remember state.2 resource)

/-- The streaming branch of `infer_response`, for a client that reads to the end. -/
def streamed (json : SerdeJson) (models : ModelLifecycle.Service)
    (service : Conversations.ResponseService) (owner name : String)
    (options : ResponseRequestOptions) (inference : Inference) (ids : Identity) : Outcome :=
  match inferStreamReserved models name ids inference with
  | .error _ => ⟨service, none⟩
  | .ok events =>
    (events.foldl (streamRow json ids options)
      (streamProjection ids owner name options, ⟨service, none⟩)).2

end Cusco.Completions
