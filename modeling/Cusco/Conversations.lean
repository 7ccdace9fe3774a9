import Cusco.Prompt
import Cusco.Responses

/-!
Conversations over stored responses. A request is lowered to a prompt item by item,
after the prompt of the lineage it continues; its input items are kept with the
response, and a context update stores items of its own. The text of a lineage is
rendered from these items. No filesystem step of the store fails here, nothing is
deleted and nothing expires.
-/

namespace Cusco.Conversations

open Calls Prompt
open Responses (saturatingIncrement transientResponseCapacity)

inductive ResponseInputItem
  | message (role : String) (text : Content)
  | functionCallOutput (callId : String) (output : Content)
  | functionCall (callId : String) (name arguments : Content)
  deriving DecidableEq

/-- The content of a message is the list of its parts. -/
inductive ResponseOutputItem
  | message (content : List Content)
  | functionCall (callId : String) (name arguments : Content)
  deriving DecidableEq

structure ResponseResource where
  id : String
  owner : String
  model : String
  store : Bool
  previousResponseId : Option String
  input : List ResponseInputItem
  output : List ResponseOutputItem
  lineageRevision : ℕ
  deriving DecidableEq

/-- Stored responses by their id, and the responses that are not stored, oldest first. -/
structure ResponseService where
  stored : Table String ResponseResource
  transient : List ResponseResource
  deriving DecidableEq

namespace ResponseService

def retrieve (service : ResponseService) (id owner : String) : Except Error ResponseResource :=
  match (service.transient.find? (fun resource => resource.id = id)).or
      (service.stored.lookup id) with
  | none => .error .contextNotFound
  | some resource => if resource.owner = owner then .ok resource else .error .contextNotFound

def put (service : ResponseService) (resource : ResponseResource) : ResponseService :=
  { service with stored := service.stored.insert resource.id resource }

def hasSuccessor (service : ResponseService) (id : String) : Bool :=
  service.stored.values.any (fun candidate => candidate.previousResponseId = some id)

def putSuccessor (service : ResponseService) (baseId : String) (expectedRevision : ℕ)
    (resource : ResponseResource) : Except Error ResponseService :=
  match service.stored.lookup baseId with
  | none => .error .contextNotFound
  | some base =>
    if base.lineageRevision ≠ expectedRevision then
      .error (.conflict ("response lineage revision is stale: expected " ++
        toString expectedRevision ++ ", current " ++ toString base.lineageRevision))
    else if service.hasSuccessor baseId then
      .error (.conflict ("response resource " ++ baseId ++ " already has a committed successor"))
    else .ok (service.put resource)

/-- Response ids do not repeat, so the map of transient responses is the list of them
in the order of insertion. -/
def remember (service : ResponseService) (resource : ResponseResource) :
    Except Error ResponseService :=
  if resource.store then
    match resource.previousResponseId with
    | some baseId => service.putSuccessor baseId (resource.lineageRevision - 1) resource
    | none => .ok (service.put resource)
  else
    .ok { service with
      transient := (service.transient ++ [resource]).drop
        (service.transient.length + 1 - transientResponseCapacity) }

end ResponseService

/-- What the code takes from elsewhere: the JSON text of a call with the given name and
arguments, and the admission of the bytes of an image. -/
structure Externals where
  callJson : Content → Content → Content
  admitDataUri : String → Except String Unit

def toolResult (callId : String) (output : Content) : Content :=
  "Tool result for ".toList ++ callId.toList ++ ": ".toList ++ output

def inputMessage (ext : Externals) : ResponseInputItem → Message
  | .message role text => ⟨role, text⟩
  | .functionCall _ name arguments => ⟨"assistant", ext.callJson name arguments⟩
  | .functionCallOutput callId output => ⟨"user", toolResult callId output⟩

def outputMessage (ext : Externals) : ResponseOutputItem → Message
  | .message content => ⟨"assistant", content.flatten⟩
  | .functionCall _ name arguments => ⟨"assistant", ext.callJson name arguments⟩

def resourceMessages (ext : Externals) (resource : ResponseResource) : List Message :=
  resource.input.map (inputMessage ext) ++ resource.output.map (outputMessage ext)

def lineageLimit : ℕ := 1024

/-- The loop from a response to its predecessors, with the rounds that are left. -/
def collectLineage (service : ResponseService) (owner : String) :
    ℕ → ResponseResource → Except Error (List ResponseResource)
  | 0, _ => .ok []
  | rounds + 1, resource =>
    match resource.previousResponseId with
    | none => .ok [resource]
    | some id => do
      let previous ← service.retrieve id owner
      let lineage ← collectLineage service owner rounds previous
      .ok (resource :: lineage)

def exceedsLimit : Error := .badRequest "response lineage exceeds 1024 resources"

def responseLineagePrompt (ext : Externals) (service : ResponseService)
    (resource : ResponseResource) (owner family : String) : Except Error Content := do
  let lineage ← collectLineage service owner lineageLimit resource
  if lineage.getLast?.any (fun oldest => oldest.previousResponseId.isSome) then
    .error exceedsLimit
  else
    applyChatTemplate family
      (normalizeResponseMessages (lineage.reverse.flatMap (resourceMessages ext)))

def isCall (callId : String) : ResponseOutputItem → Bool
  | .message _ => false
  | .functionCall id _ _ => id = callId

def hasCallFrom (service : ResponseService) (owner callId : String) :
    ℕ → ResponseResource → Except Error Bool
  | 0, _ => .error exceedsLimit
  | rounds + 1, resource =>
    if resource.output.any (isCall callId) then .ok true
    else
      match resource.previousResponseId with
      | none => .ok false
      | some id => do
        let previous ← service.retrieve id owner
        hasCallFrom service owner callId rounds previous

def lineageHasCall (service : ResponseService) (previous : Option String) (owner callId : String) :
    Except Error Bool :=
  match previous with
  | none => .ok false
  | some id => do
    let resource ← service.retrieve id owner
    hasCallFrom service owner callId lineageLimit resource

inductive ContentPart
  | text (text : Content)
  | imageUrl (url : String)
  deriving DecidableEq

inductive ChatContent
  | text (text : Content)
  | parts (parts : List ContentPart)
  deriving DecidableEq

structure ChatMessage where
  role : String
  content : ChatContent
  deriving DecidableEq

inductive ResponsesContentPart
  | inputText (text : Content)
  | outputText (text : Content)
  | inputImage (imageUrl : String)
  deriving DecidableEq

inductive ResponsesContent
  | text (text : Content)
  | parts (parts : List ResponsesContentPart)
  deriving DecidableEq

inductive ResponsesInputItem
  | message (role : String) (content : ResponsesContent)
  | functionCall (callId : String) (name arguments : Content)
  | functionCallOutput (callId : String) (output : Content)
  deriving DecidableEq

inductive ResponsesInput
  | text (text : Content)
  | items (items : List ResponsesInputItem)
  deriving DecidableEq

def partText : ResponsesContentPart → Option Content
  | .inputText text => some text
  | .outputText text => some text
  | .inputImage _ => none

def rawText : ResponsesContent → Content
  | .text text => text
  | .parts parts => (parts.filterMap partText).flatten

def chatPart : ResponsesContentPart → ContentPart
  | .inputText text => .text text
  | .outputText text => .text text
  | .inputImage imageUrl => .imageUrl imageUrl

def chatContent : ResponsesContent → ChatContent
  | .text text => .text text
  | .parts parts => .parts (parts.map chatPart)

/-- No model has a vision projector, so an image is refused once it is admitted. -/
def lowerParts (ext : Externals) (role : String) : List ContentPart → Except Error Content
  | [] => .ok []
  | .text text :: rest => (lowerParts ext role rest).map (fun later => text ++ later)
  | .imageUrl url :: _ =>
    if role ≠ "user" then .error (.badRequest "images are accepted only in user messages")
    else
      match ext.admitDataUri url with
      | .error message => .error (.badRequest message)
      | .ok () => .error (.badRequest
          "image_unsupported: selected model has no compatible vision projector")

def lowerContent (ext : Externals) (role : String) : ChatContent → Except Error Content
  | .text text => .ok text
  | .parts parts => lowerParts ext role parts

def lowerMessage (ext : Externals) (message : ChatMessage) : Except Error Message :=
  if ¬(message.role = "system" ∨ message.role = "user" ∨ message.role = "assistant") then
    .error (.badRequest ("unsupported message role " ++ message.role))
  else
    (lowerContent ext message.role message.content).map (fun text => ⟨message.role, text⟩)

def lowerAll (ext : Externals) : List ChatMessage → Except Error (List Message)
  | [] => .ok []
  | message :: rest => do
    let lowered ← lowerMessage ext message
    let later ← lowerAll ext rest
    .ok (lowered :: later)

def lowerMessages (ext : Externals) (family : String) (messages : List ChatMessage) :
    Except Error Content := do
  let normalized ← lowerAll ext messages
  applyChatTemplate family normalized

def flushResponseMessages (ext : Externals) (family : String) (prompt : Content)
    (messages : List ChatMessage) : Except Error Content :=
  if messages.isEmpty then .ok prompt
  else do
    let rendered ← lowerMessages ext family messages
    appendRendered family prompt rendered

/-- The variables of the loop over the input items. -/
structure Lowering where
  prompt : Content
  pendingMessages : List ChatMessage
  inputCallIds : List String
  inputLedger : List ResponseInputItem
  deriving DecidableEq

/-- What the loop reads besides its variables. -/
structure Request where
  owner : String
  family : String
  previousResponseId : Option String

def flush (ext : Externals) (request : Request) (state : Lowering) : Except Error Lowering := do
  let prompt ← flushResponseMessages ext request.family state.prompt state.pendingMessages
  .ok { state with prompt := prompt, pendingMessages := [] }

def knowsCall (service : ResponseService) (request : Request) (state : Lowering)
    (callId : String) : Except Error Bool :=
  if callId ∈ state.inputCallIds then .ok true
  else lineageHasCall service request.previousResponseId request.owner callId

def unknownCall (callId : String) : Error :=
  .badRequest ("function_call_output references unknown call_id `" ++ callId ++ "`")

def lowerItem (ext : Externals) (service : ResponseService) (request : Request)
    (state : Lowering) : ResponsesInputItem → Except Error Lowering
  | .functionCall callId name arguments => do
    let flushed ← flush ext request state
    let prompt ← appendAssistantContent request.family flushed.prompt
      (ext.callJson name arguments)
    .ok { flushed with
      prompt := prompt
      inputCallIds := flushed.inputCallIds ++ [callId]
      inputLedger := flushed.inputLedger ++ [.functionCall callId name arguments] }
  | .message role content =>
    .ok { state with
      inputLedger := state.inputLedger ++ [.message role (rawText content)]
      pendingMessages := state.pendingMessages ++ [⟨role, chatContent content⟩] }
  | .functionCallOutput callId output => do
    let flushed ← flush ext request state
    let known ← knowsCall service request flushed callId
    if known = false then .error (unknownCall callId)
    else do
      let rendered ← lowerMessages ext request.family
        [⟨"user", .text (toolResult callId output)⟩]
      let prompt ← appendRendered request.family flushed.prompt rendered
      .ok { flushed with
        prompt := prompt
        inputLedger := flushed.inputLedger ++ [.functionCallOutput callId output] }

def lowerItems (ext : Externals) (service : ResponseService) (request : Request) :
    Lowering → List ResponsesInputItem → Except Error Lowering
  | state, [] => flush ext request state
  | state, item :: rest => do
    let next ← lowerItem ext service request state item
    lowerItems ext service request next rest

def lowerInput (ext : Externals) (service : ResponseService) (request : Request)
    (prompt : Content) : ResponsesInput → Except Error Lowering
  | .text text => do
    let rendered ← lowerMessages ext request.family [⟨"user", .text text⟩]
    let prompt ← appendRendered request.family prompt rendered
    .ok ⟨prompt, [], [], [.message "user" text]⟩
  | .items items => lowerItems ext service request ⟨prompt, [], [], []⟩ items

/-- A tool with the JSON text of its definition. -/
structure ToolDefinition where
  name : String
  definition : Content
  deriving DecidableEq

inductive ResponsesToolChoiceMode
  | auto
  | none
  | required
  deriving DecidableEq

inductive ResponsesToolChoice
  | mode (mode : ResponsesToolChoiceMode)
  | function (kind name : String)
  deriving DecidableEq

def ResponsesToolChoice.validate (tools : List ToolDefinition) :
    ResponsesToolChoice → Except Error Unit
  | .mode .auto => .ok ()
  | .mode .none => .ok ()
  | .mode .required =>
    if tools.isEmpty then
      .error (.badRequest "tool_choice `required` requires at least one tool")
    else .ok ()
  | .function kind name =>
    if kind ≠ "function" then
      .error (.badRequest ("unsupported tool_choice type `" ++ kind ++
        "`; only `function` is supported"))
    else if name = "" then
      .error (.badRequest "tool_choice function name must not be empty")
    else if tools.any (fun tool => tool.name = name) then .ok ()
    else .error (.badRequest ("tool_choice references undeclared function `" ++ name ++ "`"))

def toolDefinitions (tools : List ToolDefinition) : Content :=
  "[".toList ++ List.intercalate ",".toList (tools.map ToolDefinition.definition) ++ "]".toList

def toolInstructions (tools : List ToolDefinition) (choice : Option ResponsesToolChoice)
    (hasToolOutput : Bool) : Content :=
  "\n\nAvailable tools: ".toList ++ toolDefinitions tools ++
    ("\nWhen calling a tool, output only JSON in the form " ++
      "\x7b\"name\":\"function_name\",\"arguments\":\x7b...\x7d\x7d.").toList ++
    (match choice with
      | some (.mode .required) => " You must call a tool.".toList
      | some (.function _ name) => (" You must call the `" ++ name ++ "` function.").toList
      | _ => []) ++
    (if hasToolOutput then
      (" A tool result is already provided above. Use it to answer the user; " ++
        "do not repeat a completed call.").toList
      else [])

def appendToolInstructions (family : String) (prompt : Content) (tools : List ToolDefinition)
    (choice : Option ResponsesToolChoice) (hasToolOutput : Bool) : Except Error Content :=
  if tools.isEmpty || decide (choice = some (.mode .none)) then .ok prompt
  else insertGenerationInstructions family prompt (toolInstructions tools choice hasToolOutput)

structure ResponsesRequest where
  model : String
  input : ResponsesInput
  store : Bool
  previousResponseId : Option String
  tools : List ToolDefinition
  toolChoice : Option ResponsesToolChoice
  deriving DecidableEq

/-- What a response is committed with, once its text has been generated. -/
structure ResponseRequestOptions where
  principal : String
  model : String
  prompt : Content
  store : Bool
  previousResponseId : Option String
  lineageRevision : ℕ
  input : List ResponseInputItem
  deriving DecidableEq

/-- The checks of a predecessor, the prompt of its lineage, and the next revision. -/
def continued (ext : Externals) (service : ResponseService) (owner family : String)
    (request : ResponsesRequest) : Except Error (Content × ℕ) :=
  match request.previousResponseId with
  | none => .ok ([], 0)
  | some previousId => do
    let predecessor ← service.retrieve previousId owner
    if predecessor.model ≠ request.model then
      .error (.badRequest "previous_response_id uses an incompatible model")
    else if predecessor.store = false then
      .error (.badRequest "previous_response_id requires a stored response")
    else do
      let prompt ← responseLineagePrompt ext service predecessor owner family
      .ok (prompt, saturatingIncrement predecessor.lineageRevision)

def isToolOutput : ResponseInputItem → Bool
  | .functionCallOutput _ _ => true
  | _ => false

/-- The handler up to the inference. The checks before it read neither the input nor the
lineage; a request that they refuse is not accepted. -/
def responses (ext : Externals) (service : ResponseService) (owner family : String)
    (request : ResponsesRequest) : Except Error ResponseRequestOptions := do
  let _ ← (request.toolChoice.map (ResponsesToolChoice.validate request.tools)).getD (.ok ())
  let start ← continued ext service owner family request
  let lowered ← lowerInput ext service ⟨owner, family, request.previousResponseId⟩ start.1
    request.input
  let prompt ← appendToolInstructions family lowered.prompt request.tools request.toolChoice
    (lowered.inputLedger.any isToolOutput)
  .ok {
    principal := owner
    model := request.model
    prompt := prompt
    store := request.store
    previousResponseId := request.previousResponseId
    lineageRevision := start.2
    input := lowered.inputLedger }

/-- The output is the generated text or the function call that was parsed from it. -/
def completedResource (options : ResponseRequestOptions) (id : String)
    (output : ResponseOutputItem) : ResponseResource where
  id := id
  owner := options.principal
  model := options.model
  store := options.store
  previousResponseId := options.previousResponseId
  input := options.input
  output := [output]
  lineageRevision := options.lineageRevision

def completedResponse (service : ResponseService) (options : ResponseRequestOptions) (id : String)
    (output : ResponseOutputItem) : Except Error ResponseService :=
  service.remember (completedResource options id output)

/-- A fold; it is the only operation. -/
structure ContextUpdateRequest where
  baseResponseId : String
  expectedRevision : ℕ
  operationId : Option String
  items : List ResponseInputItem
  deriving DecidableEq

def isMessage : ResponseInputItem → Bool
  | .message _ _ => true
  | _ => false

def foldOutput : ResponseInputItem → List ResponseOutputItem
  | .message _ text => [.message [text]]
  | _ => []

/-- The two checks of the request control may end the update. -/
structure RequestControl where
  first : Except Error Unit
  second : Except Error Unit
  deriving DecidableEq

def foldResource (request : ContextUpdateRequest) (base : ResponseResource) (owner id : String) :
    ResponseResource where
  id := id
  owner := owner
  model := base.model
  store := true
  previousResponseId := some request.baseResponseId
  input := request.items
  output := request.items.flatMap foldOutput
  lineageRevision := saturatingIncrement request.expectedRevision

def apply (service : ResponseService) (owner id : String) (request : ContextUpdateRequest)
    (control : RequestControl) : Except Error ResponseService :=
  if request.baseResponseId = "" then .error (.badRequest "base_response_id must not be empty")
  else if request.items.isEmpty then .error (.badRequest "fold items must not be empty")
  else if request.items.any (fun item => !isMessage item) then
    .error (.badRequest "fold items must be portable message items")
  else do
    let base ← service.retrieve request.baseResponseId owner
    if base.store = false then
      .error (.badRequest "context updates require a stored base response")
    else do
      let _ ← control.first
      if request.operationId = some "" then
        .error (.badRequest "operation_id must not be empty")
      else do
        let _ ← control.second
        service.putSuccessor request.baseResponseId request.expectedRevision
          (foldResource request base owner id)

/-- The responses and the accepted requests whose text is being generated. -/
structure State where
  service : ResponseService
  pending : List ResponseRequestOptions
  deriving DecidableEq

def State.initial : State := ⟨⟨∅, []⟩, []⟩

inductive Action
  | respond (owner : String) (request : ResponsesRequest)
  | complete (index : ℕ) (id : String) (output : ResponseOutputItem)
  | abandon (index : ℕ)
  | update (owner id : String) (request : ContextUpdateRequest) (control : RequestControl)
  deriving DecidableEq

/-- The ids of responses are random and do not repeat. -/
def ResponseService.fresh (service : ResponseService) (id : String) : Bool :=
  (service.stored.lookup id).isNone && !service.transient.any (fun resource => resource.id = id)

/-- A refused call leaves the responses as they are. -/
def ResponseService.orSame (service : ResponseService) :
    Except Error ResponseService → ResponseService
  | .ok changed => changed
  | .error _ => service

def act (ext : Externals) (family : String) (s : State) : Action → Option State
  | .respond owner request =>
    match responses ext s.service owner family request with
    | .ok options => some { s with pending := s.pending ++ [options] }
    | .error _ => some s
  | .complete index id output =>
    if s.service.fresh id then
      s.pending[index]?.map (fun options =>
        ⟨s.service.orSame (completedResponse s.service options id output),
          s.pending.eraseIdx index⟩)
    else none
  | .abandon index =>
    if index < s.pending.length then some { s with pending := s.pending.eraseIdx index } else none
  | .update owner id request control =>
    if s.service.fresh id then
      some { s with service := s.service.orSame (apply s.service owner id request control) }
    else none

/-- Every model is of the Gemma family. -/
def Step (ext : Externals) (s : State) (a : Action) (s' : State) : Prop :=
  act ext "gemma4" s a = some s'

def Replayable (ext : Externals) (service : ResponseService) (resource : ResponseResource) :
    Prop :=
  (responseLineagePrompt ext service resource resource.owner "gemma4").isOk = true

end Cusco.Conversations
