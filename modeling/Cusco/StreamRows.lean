import Cusco.EventSource
import Cusco.JsonPrinting
import Cusco.ProjectedStreams

/-!
The rows of a stream as they are written. Every event becomes JSON values, one row each, and the
last row of a finished completion or chat is followed by a mark of its own. Printed JSON has no
line break in it, so a client reads exactly the values that were written, whatever texts they
hold and however the body was cut on its way.
-/

namespace Cusco.StreamRows

open Completions EventSource Generation JsonPrinting JsonTexts JsonValues ProjectedStreams

section Projection

def text (bytes : List UInt8) : Json := .string (String.ofList (content bytes))

def reasonName : FinishReason → String
  | .stop => "stop"
  | .length => "length"

def reasonValue (reason : FinishReason) : Json := .string (reasonName reason)

/-- The bits of `1.0`. -/
def one : Json := .number (.float 0x3FF0000000000000)

def projectPart (part : ResponseTextPart) : Json :=
  .object [("annotations", .array []), ("logprobs", .array []), ("text", text part.text),
    ("type", .string "output_text")]

def projectMessage (message : ResponseMessage) : Json :=
  .object [("content", .array (message.content.map projectPart)), ("id", .string message.id),
    ("role", .string message.role), ("status", .string message.status),
    ("type", .string "message")]

def projectOutputItem : ResponseOutputItem → Json
  | .message message => projectMessage message
  | .functionCall call =>
    .object [("arguments", .string call.arguments), ("call_id", .string call.callId),
      ("id", .string call.id), ("name", .string call.name), ("status", .string call.status),
      ("type", .string "function_call")]

def projectUsage (usage : ResponseUsage) : Json :=
  .object [("input_tokens", natural usage.inputTokens),
    ("input_tokens_details", .object [("cached_tokens", natural usage.cachedTokens)]),
    ("output_tokens", natural usage.outputTokens),
    ("output_tokens_details", .object [("reasoning_tokens", natural 0)]),
    ("total_tokens", natural (usage.inputTokens + usage.outputTokens))]

def projectMetadata (metadata : ResponseMetadata) : Json :=
  .object [("correlation_id", .string metadata.correlationId),
    ("execution_session_id", .string metadata.executionSessionId),
    ("inference_id", .string metadata.inferenceId)]

/-- `project_resource`, of a resource that no context update made. -/
def projectResource (resource : ResponseResource) : Json :=
  .object [("background", .bool false), ("created_at", natural resource.createdAt),
    ("cusco", .object [("context_update", .null),
      ("lineage_revision", natural resource.lineageRevision)]),
    ("error", .null), ("finish_reason", (resource.finishReason.map reasonValue).getD .null),
    ("id", .string resource.id), ("incomplete_details", .null), ("instructions", .null),
    ("max_output_tokens", .null), ("metadata", projectMetadata resource.metadata),
    ("model", .string resource.model), ("object", .string "response"),
    ("output", .array (resource.output.map projectOutputItem)),
    ("parallel_tool_calls", .bool true),
    ("previous_response_id", optional resource.previousResponseId),
    ("prompt_cache_key", .null), ("reasoning", .null), ("safety_identifier", .null),
    ("service_tier", .string "default"), ("status", .string resource.status),
    ("store", .bool resource.store), ("temperature", one),
    ("text", .object [("format", .object [("type", .string "text")]),
      ("verbosity", .string "medium")]),
    ("tool_choice", resource.toolChoice), ("tools", .array resource.tools),
    ("top_logprobs", natural 0), ("top_p", one), ("truncation", .string "disabled"),
    ("usage", (resource.usage.map projectUsage).getD .null)]

/-- The fields of an event besides its type and its number, those that come before these and
those that come between them. -/
def eventFields : ResponseEvent → List (String × Json) × List (String × Json)
  | .created resource => ([("response", projectResource resource)], [])
  | .outputItemAdded message =>
    ([("item", projectMessage message), ("output_index", natural 0)], [])
  | .functionCallAdded call =>
    ([("item", projectOutputItem (.functionCall call)), ("output_index", natural 0)], [])
  | .contentPartAdded part =>
    ([("content_index", natural 0), ("item_id", .string "msg_0"), ("output_index", natural 0),
      ("part", projectPart part)], [])
  | .textDelta delta =>
    ([("content_index", natural 0), ("delta", text delta), ("item_id", .string "msg_0"),
      ("logprobs", .array []), ("output_index", natural 0)], [])
  | .textDone part =>
    ([("content_index", natural 0), ("item_id", .string "msg_0"), ("logprobs", .array []),
      ("output_index", natural 0)], [("text", text part.text)])
  | .contentPartDone part =>
    ([("content_index", natural 0), ("item_id", .string "msg_0"), ("output_index", natural 0),
      ("part", projectPart part)], [])
  | .outputItemDone message =>
    ([("item", projectMessage message), ("output_index", natural 0)], [])
  | .functionCallDone call =>
    ([("item", projectOutputItem (.functionCall call)), ("output_index", natural 0)], [])
  | .completed resource => ([("response", projectResource resource)], [])
  | .error message =>
    ([("code", .string "server_error"), ("message", .string message), ("param", .null)], [])

/-- `project_event`. -/
def projectEvent (event : ResponseEvent) (sequenceNumber : ℕ) : Json :=
  let (before, between) := eventFields event
  .object (before ++ ("sequence_number", natural sequenceNumber) :: between ++
    [("type", .string (eventType event))])

/-- A row of a response, or the error in its place. -/
def rowValue : Row → Json
  | .event event sequenceNumber => projectEvent event sequenceNumber
  | .failure message =>
    .object [("error", .object [("message", .string message)]), ("type", .string "error")]

end Projection

section Events

/-- The protocols whose events are projected one by one. -/
inductive WireProtocol
  | completion
  | chat
  deriving DecidableEq

/-- The `usage` of a completion. -/
def usageValue (usage : Usage) : Json :=
  .object [("completion_tokens", natural usage.generatedTokens),
    ("prompt_tokens", natural usage.inputTokens),
    ("total_tokens", natural (usage.inputTokens + usage.generatedTokens))]

def sessionValue (correlationId inferenceId executionSessionId : String) : Json :=
  .object [("correlation_id", .string correlationId),
    ("execution_session_id", .string executionSessionId),
    ("inference_id", .string inferenceId)]

/-- The value of an event in `stream_row_with_state`. -/
def eventValue (includeUsage : Bool) : WireProtocol → StreamEvent → Json
  | .completion, .token token _ =>
    .object [("choices", .array [.object [("finish_reason", .null), ("index", natural 0),
      ("text", text token)]]), ("object", .string "text_completion")]
  | .chat, .token token _ =>
    .object [("choices", .array [.object [("delta", .object [("content", text token)]),
      ("finish_reason", .null), ("index", natural 0)]]),
      ("object", .string "chat.completion.chunk")]
  | _, .finished reason usage =>
    .object (("choices", .array [.object [("finish_reason", reasonValue reason),
      ("index", natural 0)]]) :: if includeUsage then [("usage", usageValue usage)] else [])
  | _, .error message =>
    .object [("error", .object [("message", .string message), ("type", .string "server_error")])]
  | .chat, .started requestId correlationId inferenceId executionSessionId =>
    .object [("choices", .array [.object [("delta", .object [("role", .string "assistant")]),
      ("finish_reason", .null), ("index", natural 0)]]),
      ("cusco", sessionValue correlationId inferenceId executionSessionId),
      ("id", .string requestId), ("object", .string "chat.completion.chunk")]
  | .completion, .started requestId correlationId inferenceId executionSessionId =>
    .object [("choices", .array []),
      ("cusco", sessionValue correlationId inferenceId executionSessionId),
      ("id", .string requestId), ("object", .string "text_completion")]

/-- The first choice of a value gives a reason to finish. -/
def finishes (value : Json) : Bool :=
  match value.get "choices" with
  | some (.array (choice :: _)) =>
    match choice.get "finish_reason" with
    | none | some .null => false
    | some _ => true
  | _ => false

/-- What the data of a row is. -/
inductive Payload
  | value (json : Json)
  | done

def eventPayloads (protocol : WireProtocol) (includeUsage : Bool) (event : StreamEvent) :
    List Payload :=
  let value := eventValue includeUsage protocol event
  .value value :: if finishes value then [.done] else []

/-- How a request wants its events. -/
inductive Wire
  | plain (protocol : WireProtocol) (includeUsage : Bool)
  | responses (answers : Answers) (projection : ResponseProjection)

/-- The rows of the closure over a stream. -/
def Wire.payloads (wire : Wire) (stream : List StreamEvent) : List Payload :=
  match wire with
  | .plain protocol includeUsage => stream.flatMap (eventPayloads protocol includeUsage)
  | .responses answers projection =>
    (projectStream answers projection stream).2.map (fun row => .value (rowValue row))

end Events

section Bodies

variable {floats : Floats} (printer : Printer floats)

def doneMark : List Char := "[DONE]".toList

def Payload.text : Payload → List Char
  | .value json => printer.text json
  | .done => doneMark

/-- The body of a streamed answer. -/
def body (wire : Wire) (stream : List StreamEvent) : List Char :=
  (wire.payloads stream).flatMap (fun payload => frame (payload.text printer))

/-- What a client makes of the data of an event. -/
inductive Message
  | value (value : Value)
  | done

def message (data : List Char) : Option Message :=
  if data = doneMark then some .done else (readJson data).map Message.value

/-- What a client receives of a body that arrives in parts. -/
def received (parts : List (List Char)) : List (Option Message) :=
  (readParts Reader.start parts).map message

def Payload.message (floats : Floats) : Payload → Message
  | .value json => .value (denote floats json)
  | .done => .done

/-- What a client is told by a stream. -/
def messages (floats : Floats) (wire : Wire) (stream : List StreamEvent) : List Message :=
  (wire.payloads stream).map (Payload.message floats)

end Bodies

section Transport

variable {floats : Floats} (printer : Printer floats)

theorem oneLine_payload (payload : Payload) : OneLine (payload.text printer) := by
  cases payload with
  | value json => exact printer.oneLine json
  | done =>
    change OneLine doneMark
    decide

/-- The mark at the end is the text of no value. -/
theorem message_payload (payload : Payload) :
    StreamRows.message (payload.text printer) = some (payload.message floats) := by
  cases payload with
  | value json =>
    have hne : printer.text json ≠ doneMark := by
      intro h
      have hread := printer.readJson_text json
      rw [h] at hread
      cases (rfl : readJson doneMark = none).symm.trans hread
    change StreamRows.message (printer.text json) = _
    unfold StreamRows.message
    rw [if_neg hne, printer.readJson_text]
    rfl
  | done => exact if_pos rfl

theorem body_eq (wire : Wire) (stream : List StreamEvent) :
    body printer wire stream =
      ((wire.payloads stream).map (Payload.text printer)).flatMap frame := by
  unfold body
  rw [List.flatMap_map]

theorem readEvents_body (wire : Wire) (stream : List StreamEvent) :
    (readEvents (body printer wire stream)).map message =
      (messages floats wire stream).map some := by
  rw [body_eq, readEvents_frames]
  · rw [List.map_map]
    unfold messages
    rw [List.map_map]
    exact List.map_congr_left (fun payload _ => message_payload printer payload)
  · intro text htext
    obtain ⟨payload, -, rfl⟩ := List.mem_map.mp htext
    exact oneLine_payload printer payload

theorem received_eq (parts : List (List Char)) :
    received parts = (readEvents parts.flatten).map message := by
  unfold received readEvents
  rw [readParts_flatten]

theorem received_body (wire : Wire) (stream : List StreamEvent) {parts : List (List Char)}
    (h : parts.flatten = body printer wire stream) :
    received parts = (messages floats wire stream).map some := by
  rw [received_eq, h, readEvents_body]

/-- A client that has received a part of a body has read the first messages of the stream, and
among them every one whose rows have arrived; with the whole body it has read them all. -/
theorem rows_received (wire : Wire) (stream : List StreamEvent) (parts : List (List Char))
    (h : parts.flatten <+: body printer wire stream) :
    received parts <+: (messages floats wire stream).map some ∧
    (∀ before, body printer wire before <+: parts.flatten →
      (messages floats wire before).map some <+: received parts) ∧
    (parts.flatten = body printer wire stream →
      received parts = (messages floats wire stream).map some) := by
  refine ⟨?_, ?_, received_body printer wire stream⟩
  · rw [received_eq, ← readEvents_body]
    exact (readEvents_isPrefix h).map message
  · intro before hbefore
    rw [received_eq, ← readEvents_body]
    exact (readEvents_isPrefix hbefore).map message

end Transport

def twoLines : List StreamEvent := [.token [0x61, 0x0A, 0x62] 0, .error "late"]

/-- A text of two lines arrives as it is, also when the body breaks off within the next row. -/
theorem broken_rows_received :
    let parts := [(body zeroPrinter (.plain .completion false) twoLines).take 100]
    received parts <+: (messages zeroFloats (.plain .completion false) twoLines).map some ∧
    (∀ before, body zeroPrinter (.plain .completion false) before <+: parts.flatten →
      (messages zeroFloats (.plain .completion false) before).map some <+: received parts) ∧
    (parts.flatten = body zeroPrinter (.plain .completion false) twoLines →
      received parts = (messages zeroFloats (.plain .completion false) twoLines).map some) :=
  rows_received zeroPrinter (.plain .completion false) twoLines _
    (by rw [List.flatten_singleton]; exact List.take_prefix 100 _)

end Cusco.StreamRows
