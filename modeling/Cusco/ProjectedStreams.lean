import Cusco.Completions

/-!
The rows of a streamed response. Each event of an inference is projected to numbered rows,
and the closure over the stream puts a row of its own, without a number, in the place of the
last ones when the function call cannot be read from the text or the finished resource cannot
be remembered.
-/

namespace Cusco.ProjectedStreams

open Completions Generation

/-- A row of the stream: an event of the projection with its number, or the error that the
closure makes itself. -/
inductive Row
  | event (event : ResponseEvent) (sequenceNumber : ℕ)
  | failure (message : String)

/-- The `type` of an event, as `project_event` writes it. -/
def eventType : ResponseEvent → String
  | .created _ => "response.created"
  | .outputItemAdded _ | .functionCallAdded _ => "response.output_item.added"
  | .contentPartAdded _ => "response.content_part.added"
  | .textDelta _ => "response.output_text.delta"
  | .textDone _ => "response.output_text.done"
  | .contentPartDone _ => "response.content_part.done"
  | .outputItemDone _ | .functionCallDone _ => "response.output_item.done"
  | .completed _ => "response.completed"
  | .error _ => "error"

namespace Row

def type : Row → String
  | .event e _ => eventType e
  | .failure _ => "error"

def sequenceNumber : Row → Option ℕ
  | .event _ n => some n
  | .failure _ => none

def projected : Row → Option ResponseEvent
  | .event e _ => some e
  | .failure _ => none

end Row

def numberedRows (rows : List (ResponseEvent × ℕ)) : List Row :=
  rows.map (fun row => .event row.1 row.2)

/-- What the closure gets from elsewhere: the function call that the text is read as, and
whether the resource could be remembered. -/
structure Answers where
  call : Except Failure (Option ResponseFunctionCall)
  remembered : Except String Unit

/-- The rows of an event after the call was set. -/
def projectedRows (a : Answers) (p : ResponseProjection) (event : StreamEvent) :
    ResponseProjection × List Row :=
  let projected := p.project event
  match projected.1.completedResource with
  | none => (projected.1, numberedRows projected.2)
  | some _ =>
    match a.remembered with
    | .error message => (projected.1, [.failure message])
    | .ok _ => (projected.1, numberedRows projected.2)

/-- The closure over the events of a stream. -/
def streamRows (a : Answers) (p : ResponseProjection) (event : StreamEvent) :
    ResponseProjection × List Row :=
  match event with
  | .finished _ _ =>
    match a.call with
    | .error error => (p, [.failure error.text])
    | .ok call => projectedRows a { p with functionCall := call } event
  | _ => projectedRows a p event

def projectStream (a : Answers) (p : ResponseProjection) :
    List StreamEvent → ResponseProjection × List Row
  | [] => (p, [])
  | event :: rest =>
    let (next, rows) := streamRows a p event
    let (final, more) := projectStream a next rest
    (final, rows ++ more)

/-- The end of a stream. -/
inductive Ending
  | finished (reason : FinishReason) (usage : Usage)
  | failed (message : String)

def Ending.event : Ending → StreamEvent
  | .finished reason usage => .finished reason usage
  | .failed message => .error message

/-- Where a stream begins: its request, and the ids of its first event. -/
structure Opening where
  ids : Identity
  owner : String
  name : String
  options : ResponseRequestOptions
  bufferOutput : Bool
  requestId : String
  correlationId : String
  inferenceId : String
  executionSessionId : String

def Opening.projection (o : Opening) : ResponseProjection :=
  { streamProjection o.ids o.owner o.name o.options with bufferOutput := o.bufferOutput }

/-- One start, any tokens and one end. -/
def Opening.events (o : Opening) (tokens : List (List UInt8 × ℕ)) (ending : Ending) :
    List StreamEvent :=
  .started o.requestId o.correlationId o.inferenceId o.executionSessionId ::
    tokens.map (fun token => .token token.1 token.2) ++ [ending.event]

def terminalTypes : List String := ["response.completed", "error"]

def deltaOf : ResponseEvent → Option (List UInt8)
  | .textDelta delta => some delta
  | _ => none

def doneOf : ResponseEvent → Option (List UInt8)
  | .textDone part => some part.text
  | _ => none

def deltaText (rows : List Row) : List UInt8 :=
  ((rows.filterMap Row.projected).filterMap deltaOf).flatten

def doneTexts (rows : List Row) : List (List UInt8) :=
  (rows.filterMap Row.projected).filterMap doneOf

/-- The event tells of a message or its text. -/
def tellsMessage : ResponseEvent → Bool
  | .outputItemAdded _ | .contentPartAdded _ | .textDelta _ | .textDone _ | .contentPartDone _
  | .outputItemDone _ => true
  | _ => false

/-- The ids of the items that are open, and whether a part is. -/
structure Opened where
  items : List String
  part : Bool
  deriving DecidableEq

/-- What is open after an event, if it comes at a right time. -/
def follow (opened : Opened) : ResponseEvent → Option Opened
  | .created _ | .error _ => some opened
  | .outputItemAdded message => some { opened with items := message.id :: opened.items }
  | .functionCallAdded call => some { opened with items := call.id :: opened.items }
  | .contentPartAdded _ => if opened.part then none else some { opened with part := true }
  | .textDelta _ | .textDone _ => if opened.part then some opened else none
  | .contentPartDone _ => if opened.part then some { opened with part := false } else none
  | .outputItemDone message =>
    if message.id ∈ opened.items ∧ !opened.part then
      some { opened with items := opened.items.erase message.id }
    else none
  | .functionCallDone call =>
    if call.id ∈ opened.items then some { opened with items := opened.items.erase call.id }
    else none
  | .completed _ => if opened.items = [] ∧ !opened.part then some opened else none

def followAll (opened : Opened) (rows : List Row) : Option Opened :=
  (rows.filterMap Row.projected).foldlM follow opened

structure WellFormed (rows : List Row) (final : ResponseProjection)
    (tokens : List (List UInt8 × ℕ)) (bufferOutput : Bool)
    (call : Option ResponseFunctionCall) : Prop where
  numbered : rows.map Row.sequenceNumber = (List.range rows.length).map some
  created : rows.head?.map Row.type = some "response.created"
  ended : ∃ before last, rows = before ++ [last] ∧ last.type ∈ terminalTypes ∧
    ∀ row ∈ before, row.type ∉ terminalTypes
  text : ∀ resource message, final.completedResource = some resource →
    resource.output = [.message message] → doneTexts rows = [deltaText rows] ∧
      message.content.map ResponseTextPart.text = [deltaText rows] ∧
      deltaText rows = (tokens.map Prod.fst).flatten
  closed : (followAll ⟨[], false⟩ rows).isSome = true
  called : ∀ c resource, bufferOutput = true → call = some c →
    final.completedResource = some resource →
      resource.output = [.functionCall c] ∧
        ∀ row ∈ rows, ∀ event, row.projected = some event → tellsMessage event = false

/-- The end is an error, or the call could be read, the resource could be remembered, and a
call comes only where the output is buffered. -/
def Succeeds (bufferOutput : Bool) (a : Answers) : Ending → Prop
  | .failed _ => True
  | .finished _ _ => (∃ call, a.call = .ok call ∧ (bufferOutput = true ∨ call = none)) ∧
      a.remembered = .ok ()

/-- The resource of a stream that has begun, with the text so far. -/
def Opening.begun (o : Opening) (text : List UInt8) : ResponseResource :=
  { o.projection.resource with
    id := o.requestId
    metadata := ⟨o.correlationId, o.inferenceId, o.executionSessionId⟩
    output := [.message ⟨"msg_0", "assistant", "in_progress", [⟨text⟩]⟩] }

def openingEvents (o : Opening) : List ResponseEvent :=
  .created (o.begun []) :: if o.bufferOutput then []
    else [.outputItemAdded ⟨"msg_0", "assistant", "in_progress", [⟨[]⟩]⟩, .contentPartAdded ⟨[]⟩]

theorem started_rows (a : Answers) (o : Opening) :
    streamRows a o.projection
        (.started o.requestId o.correlationId o.inferenceId o.executionSessionId) =
      (⟨o.begun [], (openingEvents o).length, o.bufferOutput, none⟩,
        numberedRows (openingEvents o).zipIdx) := by
  cases hbuffer : o.bufferOutput with
  | true =>
    unfold openingEvents Opening.begun Opening.projection
    rw [hbuffer]
    rfl
  | false =>
    unfold openingEvents Opening.begun Opening.projection
    rw [hbuffer]
    rfl

def deltaEvents (o : Opening) (tokens : List (List UInt8 × ℕ)) : List ResponseEvent :=
  if o.bufferOutput then [] else tokens.map (fun token => .textDelta token.1)

theorem token_rows (a : Answers) (o : Opening) (text token : List UInt8) (index n : ℕ) :
    streamRows a ⟨o.begun text, n, o.bufferOutput, none⟩ (.token token index) =
      (⟨o.begun (text ++ token), n + (deltaEvents o [(token, index)]).length, o.bufferOutput,
        none⟩, numberedRows ((deltaEvents o [(token, index)]).zipIdx n)) := by
  cases hbuffer : o.bufferOutput with
  | true =>
    unfold deltaEvents
    rw [hbuffer]
    rfl
  | false =>
    unfold deltaEvents
    rw [hbuffer]
    rfl

theorem projectStream_append (a : Answers) (p : ResponseProjection)
    (before after : List StreamEvent) :
    projectStream a p (before ++ after) =
      ((projectStream a (projectStream a p before).1 after).1,
        (projectStream a p before).2 ++
          (projectStream a (projectStream a p before).1 after).2) := by
  induction before generalizing p with
  | nil => rfl
  | cons event rest ih =>
    simp only [List.cons_append, projectStream, ih, List.append_assoc]

theorem numberedRows_append (before after : List ResponseEvent) (n : ℕ) :
    numberedRows ((before ++ after).zipIdx n) =
      numberedRows (before.zipIdx n) ++ numberedRows (after.zipIdx (n + before.length)) := by
  unfold numberedRows
  rw [List.zipIdx_append, List.map_append]

theorem tokens_rows (a : Answers) (o : Opening) (tokens : List (List UInt8 × ℕ))
    (text : List UInt8) (n : ℕ) :
    projectStream a ⟨o.begun text, n, o.bufferOutput, none⟩
        (tokens.map (fun token => .token token.1 token.2)) =
      (⟨o.begun (text ++ (tokens.map Prod.fst).flatten), n + (deltaEvents o tokens).length,
        o.bufferOutput, none⟩, numberedRows ((deltaEvents o tokens).zipIdx n)) := by
  induction tokens generalizing text n with
  | nil =>
    have hnone : deltaEvents o [] = [] := by
      unfold deltaEvents
      split
      · rfl
      · rfl
    rw [hnone, List.map_nil, List.map_nil, List.flatten_nil, List.append_nil]
    rfl
  | cons token rest ih =>
    have hsplit : deltaEvents o (token :: rest) =
        deltaEvents o [(token.1, token.2)] ++ deltaEvents o rest := by
      unfold deltaEvents
      split
      · rfl
      · rfl
    rw [List.map_cons, projectStream, token_rows]
    simp only
    rw [ih, hsplit, numberedRows_append, List.length_append, List.map_cons, List.flatten_cons,
      List.append_assoc, Nat.add_assoc]

/-- The events before the end, and what they leave. -/
theorem opening_rows (a : Answers) (o : Opening) (tokens : List (List UInt8 × ℕ)) :
    projectStream a o.projection
        (.started o.requestId o.correlationId o.inferenceId o.executionSessionId ::
          tokens.map (fun token => .token token.1 token.2)) =
      (⟨o.begun (tokens.map Prod.fst).flatten,
        (openingEvents o ++ deltaEvents o tokens).length, o.bufferOutput, none⟩,
        numberedRows (openingEvents o ++ deltaEvents o tokens).zipIdx) := by
  rw [projectStream, started_rows]
  simp only
  rw [tokens_rows, numberedRows_append, List.length_append, List.nil_append, Nat.zero_add]

/-- The resource of a stream that has finished, with its output. -/
def Opening.done (o : Opening) (reason : FinishReason) (usage : Usage)
    (output : ResponseOutputItem) : ResponseResource :=
  { o.begun [] with
    status := "completed"
    finishReason := some reason
    usage := some (responseUsage usage)
    output := [output] }

/-- The events of a message that is complete. -/
def messageEvents (o : Opening) (text : List UInt8) (resource : ResponseResource) :
    List ResponseEvent :=
  (if o.bufferOutput then
    [.outputItemAdded (completedMessage text), .contentPartAdded ⟨[]⟩, .textDelta text]
  else []) ++
    [.textDone ⟨text⟩, .contentPartDone ⟨text⟩, .outputItemDone (completedMessage text),
      .completed resource]

def callEvents (call : ResponseFunctionCall) (resource : ResponseResource) :
    List ResponseEvent :=
  [.functionCallAdded call, .functionCallDone call, .completed resource]

theorem failed_rows (a : Answers) (o : Opening) (text : List UInt8) (n : ℕ) (message : String) :
    streamRows a ⟨o.begun text, n, o.bufferOutput, none⟩ (.error message) =
      (⟨o.begun text, n + 1, o.bufferOutput, none⟩,
        numberedRows ([ResponseEvent.error message].zipIdx n)) := rfl

theorem message_rows {a : Answers} (hcall : a.call = .ok none) (hstored : a.remembered = .ok ())
    (o : Opening) (text : List UInt8) (n : ℕ) (reason : FinishReason) (usage : Usage) :
    ∃ m, streamRows a ⟨o.begun text, n, o.bufferOutput, none⟩ (.finished reason usage) =
      (⟨o.done reason usage (.message (completedMessage text)), m, o.bufferOutput, none⟩,
        numberedRows ((messageEvents o text
          (o.done reason usage (.message (completedMessage text)))).zipIdx n)) := by
  unfold streamRows
  simp only [hcall]
  unfold projectedRows
  rw [hstored]
  exact ⟨_, rfl⟩

theorem call_rows {a : Answers} {call : ResponseFunctionCall} (hcall : a.call = .ok (some call))
    (hstored : a.remembered = .ok ()) (o : Opening) (text : List UInt8) (n : ℕ)
    (reason : FinishReason) (usage : Usage) :
    ∃ m, streamRows a ⟨o.begun text, n, o.bufferOutput, none⟩ (.finished reason usage) =
      (⟨o.done reason usage (.functionCall call), m, o.bufferOutput, none⟩,
        numberedRows ((callEvents call
          (o.done reason usage (.functionCall call))).zipIdx n)) := by
  unfold streamRows
  simp only [hcall]
  unfold projectedRows
  rw [hstored]
  exact ⟨_, rfl⟩

/-- The closure ends the stream itself when the call or the resource is refused. -/
theorem refused_rows {a : Answers} (h : a.remembered ≠ .ok () ∨ ∀ call, a.call ≠ .ok call)
    (o : Opening) (text : List UInt8) (n : ℕ) (reason : FinishReason) (usage : Usage) :
    ∃ p message, streamRows a ⟨o.begun text, n, o.bufferOutput, none⟩ (.finished reason usage) =
      (p, [.failure message]) := by
  unfold streamRows
  cases hcall : a.call with
  | error error => exact ⟨_, _, rfl⟩
  | ok call =>
    cases hstored : a.remembered with
    | ok done =>
      rcases h with h | h
      · exact absurd hstored h
      · exact absurd hcall (h call)
    | error message =>
      simp only
      unfold projectedRows
      rw [hstored]
      cases call with
      | none => exact ⟨_, _, rfl⟩
      | some call => exact ⟨_, _, rfl⟩

theorem projected_numberedRows (events : List ResponseEvent) (n : ℕ) :
    (numberedRows (events.zipIdx n)).filterMap Row.projected = events := by
  unfold numberedRows
  rw [List.filterMap_map]
  induction events generalizing n with
  | nil => rfl
  | cons event rest ih =>
    rw [List.zipIdx_cons, List.filterMap_cons]
    simp only [Function.comp_apply, Row.projected]
    exact congrArg (List.cons event) (ih (n + 1))

theorem types_numberedRows (events : List ResponseEvent) (n : ℕ) :
    (numberedRows (events.zipIdx n)).map Row.type = events.map eventType := by
  unfold numberedRows
  rw [List.map_map]
  induction events generalizing n with
  | nil => rfl
  | cons event rest ih =>
    rw [List.zipIdx_cons, List.map_cons, List.map_cons, ih]
    rfl

theorem sequenceNumber_numberedRows (events : List ResponseEvent) :
    (numberedRows events.zipIdx).map Row.sequenceNumber =
      (List.range (numberedRows events.zipIdx).length).map some := by
  have hlength : (numberedRows events.zipIdx).length = events.length := by
    unfold numberedRows
    rw [List.length_map, List.length_zipIdx]
  have hnumbers : (numberedRows events.zipIdx).map Row.sequenceNumber =
      (events.zipIdx.map Prod.snd).map some := by
    unfold numberedRows
    rw [List.map_map, List.map_map]
    rfl
  rw [hnumbers, hlength, List.zipIdx_map_snd, List.range_eq_range']

/-- A row of the closure's own is not numbered. -/
theorem not_numbered {rows : List Row} {message : String} (h : .failure message ∈ rows) :
    rows.map Row.sequenceNumber ≠ (List.range rows.length).map some := by
  intro hnumbered
  have hnone := List.mem_map_of_mem (f := Row.sequenceNumber) h
  rw [hnumbered] at hnone
  obtain ⟨n, _, hn⟩ := List.mem_map.mp hnone
  cases hn

theorem type_of_event {events : List ResponseEvent} {n : ℕ} {row : Row}
    (h : row ∈ numberedRows (events.zipIdx n)) : ∃ event ∈ events, row.type = eventType event ∧
      row.projected = some event := by
  obtain ⟨⟨event, number⟩, hmem, rfl⟩ := List.mem_map.mp h
  exact ⟨event, List.fst_mem_of_mem_zipIdx hmem, rfl, rfl⟩

end Cusco.ProjectedStreams
