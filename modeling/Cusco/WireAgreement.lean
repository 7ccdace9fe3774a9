import Cusco.LossyDecoding
import Cusco.StreamAgreement
import Cusco.StreamRows

/-!
Completions and chats on the wire. A client that asked for a stream and one that waited for the
whole answer are told the same: the texts of the rows add up to the text of the answer, the last
row has its reason to finish and, when asked for, its usage. The mark of the end comes after a
finished inference and never after one that failed.
-/

namespace Cusco.WireAgreement

open Completions EventSource Generation JsonPrinting JsonTexts JsonValues StreamAgreement StreamRows
open GenerationFrontier Utf8

structure PrefillMetrics where
  totalTokens : ℕ
  cachedTokens : ℕ
  uncachedTokens : ℕ
  tokenizationNs : ℕ
  prefixLookupNs : ℕ
  mappingActivationNs : ℕ
  uncachedPrefillNs : ℕ
  totalNs : ℕ

/-- What an answer tells besides its usage: the result of a compaction, the metrics of the
prefill, and the quotient of two numbers as a float. -/
structure Diagnostics where
  compactionResult : Json
  prefill : PrefillMetrics
  quotient : ℕ → ℕ → UInt64

def prefillValue (diagnostics : Diagnostics) : Json :=
  let prefill := diagnostics.prefill
  let cachedRatio :=
    if 0 < prefill.totalTokens then
      Json.number (.float (diagnostics.quotient prefill.cachedTokens prefill.totalTokens))
    else .null
  .object [("cached_ratio", cachedRatio), ("cached_tokens", natural prefill.cachedTokens),
    ("mapping_activation_ns", natural prefill.mappingActivationNs),
    ("prefix_lookup_ns", natural prefill.prefixLookupNs),
    ("tokenization_ns", natural prefill.tokenizationNs), ("total_ns", natural prefill.totalNs),
    ("total_tokens", natural prefill.totalTokens),
    ("uncached_prefill_ns", natural prefill.uncachedPrefillNs),
    ("uncached_tokens", natural prefill.uncachedTokens)]

def cuscoValue (diagnostics : Diagnostics) (usage : Usage) : Json :=
  .object [("compaction_result", diagnostics.compactionResult),
    ("correlation_id", .string usage.correlationId),
    ("execution_session_id", .string usage.executionSessionId),
    ("inference_id", .string usage.inferenceId),
    ("usage", .object [("cached_tokens", natural usage.cachedTokens),
      ("evaluated_tokens", natural usage.evaluatedTokens),
      ("generated_tokens", natural usage.generatedTokens),
      ("input_tokens", natural usage.inputTokens), ("prefill", prefillValue diagnostics)])]

/-- `completed_response` for a completion or a chat. -/
def completedValue (diagnostics : Diagnostics) (protocol : WireProtocol) (response : InferResponse)
    (finishReason : FinishReason) : Json :=
  match protocol with
  | .completion =>
    .object [("choices", .array [.object [("finish_reason", reasonValue finishReason),
      ("index", natural 0), ("text", text response.text)]]),
      ("cusco", cuscoValue diagnostics response.usage), ("id", .string response.id),
      ("object", .string "text_completion"), ("usage", usageValue response.usage)]
  | .chat =>
    .object [("choices", .array [.object [("finish_reason", reasonValue finishReason),
      ("index", natural 0), ("message", .object [("content", text response.text),
        ("role", .string "assistant")])]]),
      ("cusco", cuscoValue diagnostics response.usage), ("id", .string response.id),
      ("object", .string "chat.completion"), ("usage", usageValue response.usage)]

/-- The member of a value with a name. -/
def member (name : String) : Value → Value
  | .object members => ((members.find? (fun m => m.1 = units name)).map (fun m => m.2)).getD .null
  | _ => .null

def firstItem : Value → Value
  | .array (item :: _) => item
  | _ => .null

def firstChoice (v : Value) : Value := firstItem (member "choices" v)

def reasonOf (v : Value) : Value := member "finish_reason" (firstChoice v)

def unitsOf : Value → List ℕ
  | .string units => units
  | _ => []

/-- The text that a row adds. -/
def pieceOf : WireProtocol → Value → List ℕ
  | .completion, v => unitsOf (member "text" (firstChoice v))
  | .chat, v => unitsOf (member "content" (member "delta" (firstChoice v)))

/-- The text of a whole answer. -/
def textOf : WireProtocol → Value → Value
  | .completion, v => member "text" (firstChoice v)
  | .chat, v => member "content" (member "message" (firstChoice v))

/-- What a client has been told when an inference has finished. -/
structure Told (protocol : WireProtocol) (includeUsage : Bool) (told : List Message)
    (answer : Value) (rows : List Value) (last : Value) : Prop where
  told_eq : told = rows.map Message.value ++ [.value last, .done]
  first : ∃ v ∈ rows.head?, member "id" v = member "id" answer
  goesOn : ∀ v ∈ rows, reasonOf v = .null
  reason : reasonOf last = reasonOf answer
  finishes : reasonOf last ≠ .null
  usage : member "usage" last = if includeUsage then member "usage" answer else .null
  text : Value.string ((rows ++ [last]).flatMap (pieceOf protocol)) = textOf protocol answer

/-- What a client has been told when an inference has failed after its first event. -/
structure ToldFailure (message : String) (told : List Message) (rows : List Value) (last : Value) :
    Prop where
  told_eq : told = rows.map Message.value ++ [.value last]
  goesOn : ∀ v ∈ rows ++ [last], reasonOf v = .null
  failure : member "message" (member "error" last) = .string (units message)

section Deltas

theorem valid_of_isChar {cs : List Encoded} (h : ∀ c ∈ cs, IsChar c) : Valid cs.flatten :=
  ⟨cs, h, rfl⟩

variable {ε : Type} (emit : List UInt8 → Except ε Unit)

/-- Only whole characters are emitted. -/
theorem emitPrefix_valid (f : GenerationFrontier) (requested : ℕ) (finalFlush : Bool) :
    ∀ delta ∈ (f.emitPrefix emit requested finalFlush).2.2, Valid delta := by
  unfold GenerationFrontier.emitPrefix
  dsimp only
  generalize (if finalFlush = true then requested
    else utf8CompletePrefix (f.pending.take requested)) = consumed
  have hchars : ∀ c ∈ (if f.strippingLeadingWhitespace = true then
      List.dropWhile isWhitespace (lossy (f.pending.take consumed))
      else lossy (f.pending.take consumed)), IsChar c := by
    intro c hc
    split_ifs at hc
    · exact lossy_isChar _ c ((List.dropWhile_sublist _).subset hc)
    · exact lossy_isChar _ c hc
  revert hchars
  generalize (if f.strippingLeadingWhitespace = true then
    List.dropWhile isWhitespace (lossy (f.pending.take consumed))
    else lossy (f.pending.take consumed)) = delta
  intro hchars
  split_ifs with hnone hempty
  · exact List.forall_mem_nil _
  · exact List.forall_mem_nil _
  · cases emit delta.flatten with
    | error e => exact List.forall_mem_nil _
    | ok _ => exact List.forall_mem_singleton.mpr (valid_of_isChar hchars)

theorem push_valid (f : GenerationFrontier) (piece : List UInt8) (terminalOrControl : Bool) :
    ∀ delta ∈ (f.push emit piece terminalOrControl).2.2, Valid delta := by
  unfold GenerationFrontier.push
  split_ifs with hstopped hterminal
  · exact List.forall_mem_nil _
  · dsimp only
    generalize ({ f with
      sampledTokens := f.sampledTokens + 1
      tokenBoundaries := f.tokenBoundaries ++
        [f.tokenBoundaries.getLast?.getD f.pendingOffset + piece.length] } :
        GenerationFrontier) = sampled
    have hvalid := emitPrefix_valid emit sampled f.pending.length true
    rcases hout : sampled.emitPrefix emit f.pending.length true with
      ⟨outcome, shown, deltas⟩
    rw [hout] at hvalid
    cases outcome with
    | error e => exact hvalid
    | ok _ => exact hvalid
  · dsimp only
    generalize ({ f with
      sampledTokens := f.sampledTokens + 1
      tokenBoundaries := f.tokenBoundaries ++
        [f.tokenBoundaries.getLast?.getD f.pendingOffset + piece.length]
      pending := f.pending ++ piece } : GenerationFrontier) = extended
    cases extended.stopMatch with
    | none =>
      dsimp only
      generalize (f.pending ++ piece).length - extended.longestPossibleStopSuffix = requested
      have hvalid := emitPrefix_valid emit extended requested false
      rcases hout : extended.emitPrefix emit requested false with
        ⟨outcome, shown, deltas⟩
      rw [hout] at hvalid
      cases outcome with
      | error e => exact hvalid
      | ok _ => exact hvalid
    | some found =>
      have hvalid := emitPrefix_valid emit extended found.1 true
      dsimp only
      rcases hout : extended.emitPrefix emit found.1 true with
        ⟨outcome, shown, deltas⟩
      rw [hout] at hvalid
      cases outcome with
      | error e => exact hvalid
      | ok _ => exact hvalid

theorem pushAll_valid (f : GenerationFrontier) (pushes : List (List UInt8 × Bool))
    {controls : List FrontierControl} {deltas : List (List UInt8)} {last : GenerationFrontier}
    (h : f.pushAll emit pushes = .ok (controls, deltas, last)) : ∀ delta ∈ deltas, Valid delta := by
  induction pushes generalizing f controls deltas last with
  | nil =>
    cases h
    exact List.forall_mem_nil _
  | cons piece rest ih =>
    have hfirst := push_valid emit f piece.1 piece.2
    unfold GenerationFrontier.pushAll at h
    rcases hout : f.push emit piece.1 piece.2 with
      ⟨outcome, next, shown⟩
    rw [hout] at hfirst h
    cases outcome with
    | error e => cases h
    | ok control =>
      dsimp only at h
      cases hrest : next.pushAll emit rest with
      | error e =>
        rw [hrest] at h
        cases h
      | ok run =>
        obtain ⟨more, moreDeltas, final⟩ := run
        rw [hrest] at h
        cases h
        intro delta hdelta
        rcases List.mem_append.mp hdelta with hdelta | hdelta
        · exact hfirst delta hdelta
        · exact ih next hrest delta hdelta

theorem finish_valid (f : GenerationFrontier) : ∀ delta ∈ (f.finish emit).2, Valid delta := by
  unfold GenerationFrontier.finish
  cases f.finishReason with
  | some reason => exact List.forall_mem_nil _
  | none =>
    have hvalid := emitPrefix_valid emit f f.pending.length true
    dsimp only
    rcases hout : f.emitPrefix emit f.pending.length true with
      ⟨outcome, shown, deltas⟩
    rw [hout] at hvalid
    cases outcome with
    | error e => exact hvalid
    | ok _ => exact hvalid

theorem inferAdmitted_valid (record : ModelLifecycle.ModelRecord) (ids : Identity)
    (inference : Inference) (frontier : GenerationFrontier) :
    ∀ delta ∈ (inferAdmitted record ids inference frontier).1, Valid delta := by
  obtain ⟨controls, deltas, last, hpushes, -⟩ := pushAll_sent frontier inference.pushes
  obtain ⟨result, more, hfinish, -⟩ := finish_sent last
  have hdeltas := pushAll_valid sent frontier inference.pushes hpushes
  have hmore := finish_valid sent last
  rw [hfinish] at hmore
  have hpushed : pushed frontier inference.pushes = (deltas, last) := by
    unfold pushed
    rw [hpushes]
  have hall : ∀ delta ∈ deltas ++ more, Valid delta := by
    intro delta hdelta
    rcases List.mem_append.mp hdelta with hdelta | hdelta
    · exact hdeltas delta hdelta
    · exact hmore delta hdelta
  unfold inferAdmitted
  rw [hpushed]
  dsimp only
  cases inference.output with
  | error e => exact hdeltas
  | ok output =>
    dsimp only
    rw [hfinish]
    cases inference.committed with
    | error e => exact hall
    | ok _ => exact hall

theorem content_append {a : List UInt8} (b : List UInt8) (ha : Valid a) :
    content (a ++ b) = content a ++ content b := by
  unfold content
  rw [lossy_append a b (not_continued_of_valid ha), List.map_append]

/-- The texts of whole characters add up. -/
theorem content_flatten {deltas : List (List UInt8)} (h : ∀ delta ∈ deltas, Valid delta) :
    content deltas.flatten = deltas.flatMap content := by
  induction deltas with
  | nil => rfl
  | cons delta deltas ih =>
    rw [List.flatten_cons, List.flatMap_cons,
      content_append _ (h delta List.mem_cons_self),
      ih (fun d hd => h d (List.mem_cons_of_mem delta hd))]

end Deltas

section Rows

variable (floats : Floats) (protocol : WireProtocol) (includeUsage : Bool) (ids : Identity)
  (diagnostics : Diagnostics) (response : InferResponse) (reason : FinishReason)

/-- The value that a client is told of an event. -/
def eventRow (event : StreamEvent) : Value :=
  denote floats (eventValue includeUsage protocol event)

theorem started_payloads : eventPayloads protocol includeUsage (startedEvent ids) =
    [.value (eventValue includeUsage protocol (startedEvent ids))] := by
  cases protocol with
  | completion => rfl
  | chat => rfl

theorem token_payloads (token : List UInt8) (index : ℕ) :
    eventPayloads protocol includeUsage (.token token index) =
      [.value (eventValue includeUsage protocol (.token token index))] := by
  cases protocol with
  | completion => rfl
  | chat => rfl

theorem failed_payloads (message : String) :
    eventPayloads protocol includeUsage (.error message) =
      [.value (eventValue includeUsage protocol (.error message))] := by
  cases protocol with
  | completion => rfl
  | chat => rfl

theorem finished_payloads (usage : Usage) :
    eventPayloads protocol includeUsage (.finished reason usage) =
      [.value (eventValue includeUsage protocol (.finished reason usage)), .done] := by
  cases protocol with
  | completion => rfl
  | chat => rfl

/-- The rows before the last one. -/
def openingRows (deltas : List (List UInt8)) : List Value :=
  (startedEvent ids :: tokenEvents deltas).map (eventRow floats protocol includeUsage)

theorem opening_messages (deltas : List (List UInt8)) (last : StreamEvent) :
    messages floats (.plain protocol includeUsage)
        (startedEvent ids :: tokenEvents deltas ++ [last]) =
      (openingRows floats protocol includeUsage ids deltas).map Message.value ++
        (eventPayloads protocol includeUsage last).map (Payload.message floats) := by
  have htokens : (tokenEvents deltas).flatMap (eventPayloads protocol includeUsage) =
      (tokenEvents deltas).map (fun event => .value (eventValue includeUsage protocol event)) := by
    unfold tokenEvents
    rw [List.flatMap_map, List.map_map]
    generalize deltas.zipIdx = indexed
    induction indexed with
    | nil => rfl
    | cons delta rest ih =>
      rw [List.flatMap_cons, List.map_cons, ih, token_payloads]
      rfl
  unfold messages Wire.payloads openingRows
  simp only [List.flatMap_append, List.flatMap_cons, List.flatMap_nil, List.append_nil,
    List.map_append, started_payloads, htokens, List.map_cons, List.map_map, List.singleton_append]
  rfl

theorem reasonOf_started : reasonOf (eventRow floats protocol includeUsage (startedEvent ids)) =
    .null := by
  cases protocol with
  | completion => rfl
  | chat => rfl

theorem pieceOf_started :
    pieceOf protocol (eventRow floats protocol includeUsage (startedEvent ids)) = [] := by
  cases protocol with
  | completion => rfl
  | chat => rfl

theorem token_row (token : List UInt8) (index : ℕ) :
    reasonOf (eventRow floats protocol includeUsage (.token token index)) = .null ∧
    pieceOf protocol (eventRow floats protocol includeUsage (.token token index)) =
      units (String.ofList (content token)) := by
  cases protocol with
  | completion => exact ⟨rfl, rfl⟩
  | chat => exact ⟨rfl, rfl⟩

theorem goesOn_opening (deltas : List (List UInt8)) :
    ∀ v ∈ openingRows floats protocol includeUsage ids deltas, reasonOf v = .null := by
  intro v hv
  unfold openingRows tokenEvents at hv
  rw [List.map_cons, List.map_map] at hv
  rcases List.mem_cons.mp hv with rfl | hv
  · exact reasonOf_started floats protocol includeUsage ids
  · obtain ⟨delta, -, rfl⟩ := List.mem_map.mp hv
    exact (token_row floats protocol includeUsage delta.1 delta.2).1

theorem units_ofList (cs : List Char) : units (String.ofList cs) = cs.flatMap utf16 := by
  unfold units
  rw [String.toList_ofList]

/-- The pieces of the rows add up to the text of the deltas. -/
theorem pieces_opening {deltas : List (List UInt8)} (h : ∀ delta ∈ deltas, Valid delta) :
    (openingRows floats protocol includeUsage ids deltas).flatMap (pieceOf protocol) =
      units (String.ofList (content deltas.flatten)) := by
  have htokens : ∀ indexed : List (List UInt8 × ℕ),
      (indexed.map (fun delta => eventRow floats protocol includeUsage
        (.token delta.1 delta.2))).flatMap (pieceOf protocol) =
        ((indexed.map Prod.fst).flatMap content).flatMap utf16 := by
    intro indexed
    induction indexed with
    | nil => rfl
    | cons delta rest ih =>
      rw [List.map_cons, List.flatMap_cons, ih, List.map_cons, List.flatMap_cons,
        List.flatMap_append, (token_row floats protocol includeUsage delta.1 delta.2).2,
        units_ofList]
  unfold openingRows tokenEvents
  rw [List.map_cons, List.flatMap_cons, pieceOf_started, List.nil_append, List.map_map,
    units_ofList, content_flatten h]
  have hall := htokens deltas.zipIdx
  rw [List.zipIdx_map_fst] at hall
  exact hall

/-- The last row of an inference that has finished, beside the whole answer. -/
theorem finished_row :
    let last := eventRow floats protocol includeUsage (.finished reason response.usage)
    let answer := denote floats (completedValue diagnostics protocol response reason)
    reasonOf last = reasonOf answer ∧ reasonOf last ≠ .null ∧
    member "usage" last = (if includeUsage then member "usage" answer else .null) ∧
    pieceOf protocol last = [] ∧
    textOf protocol answer = .string (units (String.ofList (content response.text))) ∧
    member "id" answer = .string (units response.id) := by
  cases protocol with
  | completion =>
    refine ⟨rfl, ?_, ?_, rfl, rfl, rfl⟩
    · intro h
      cases h
    · cases includeUsage with
      | false => rfl
      | true => rfl
  | chat =>
    refine ⟨rfl, ?_, ?_, rfl, rfl, rfl⟩
    · intro h
      cases h
    · cases includeUsage with
      | false => rfl
      | true => rfl

theorem failed_row (message : String) :
    let last := eventRow floats protocol includeUsage (.error message)
    reasonOf last = .null ∧ member "message" (member "error" last) = .string (units message) := by
  cases protocol with
  | completion => exact ⟨rfl, rfl⟩
  | chat => exact ⟨rfl, rfl⟩

theorem id_started : member "id" (eventRow floats protocol includeUsage (startedEvent ids)) =
    .string (units ids.requestId) := by
  cases protocol with
  | completion => rfl
  | chat => rfl

/-- A stream whose deltas add up to the text of the answer. -/
theorem told_finished {deltas : List (List UInt8)} (hvalid : ∀ delta ∈ deltas, Valid delta)
    (hid : response.id = ids.requestId) (htext : response.text = deltas.flatten) :
    Told protocol includeUsage
      (messages floats (.plain protocol includeUsage)
        (startedEvent ids :: tokenEvents deltas ++ [.finished reason response.usage]))
      (denote floats (completedValue diagnostics protocol response reason))
      (openingRows floats protocol includeUsage ids deltas)
      (eventRow floats protocol includeUsage (.finished reason response.usage)) := by
  obtain ⟨hreason, hends, husage, hpiece, hanswer, hanswerId⟩ :=
    finished_row floats protocol includeUsage diagnostics response reason
  refine ⟨?_, ⟨_, rfl, ?_⟩, goesOn_opening floats protocol includeUsage ids deltas, hreason, hends,
    husage, ?_⟩
  · rw [opening_messages, finished_payloads]
    rfl
  · rw [id_started, hanswerId, hid]
  · rw [List.flatMap_append, List.flatMap_singleton, hpiece, List.append_nil,
      pieces_opening floats protocol includeUsage ids hvalid, hanswer, htext]

theorem told_failed (deltas : List (List UInt8)) (message : String) :
    ToldFailure message
      (messages floats (.plain protocol includeUsage)
        (startedEvent ids :: tokenEvents deltas ++ [.error message]))
      (openingRows floats protocol includeUsage ids deltas)
      (eventRow floats protocol includeUsage (.error message)) := by
  obtain ⟨hreason, hmessage⟩ := failed_row floats protocol includeUsage message
  refine ⟨?_, ?_, hmessage⟩
  · rw [opening_messages, failed_payloads]
    rfl
  · intro v hv
    rcases List.mem_append.mp hv with hv | hv
    · exact goesOn_opening floats protocol includeUsage ids deltas v hv
    · rw [List.mem_singleton] at hv
      exact hv ▸ hreason

end Rows

section Ways

variable {floats : Floats} (printer : Printer floats) (protocol : WireProtocol)
  (includeUsage : Bool) (diagnostics : Diagnostics) (models : ModelLifecycle.Service)
  (name : String) (ids : Identity) (inference : Inference)

/-- Both ways of one inference: they fail alike before the first event, and after it they have
the same response, or the same failure. -/
theorem ways_cases :
    (∃ e, inferReserved models name ids inference = .error e ∧
      inferStreamReserved models name ids inference = .error e) ∨
    ∃ deltas, (∀ delta ∈ deltas, Valid delta) ∧
      ((∃ e, inferReserved models name ids inference = .error e ∧
        inferStreamReserved models name ids inference =
          .ok (startedEvent ids :: tokenEvents deltas ++ [.error e.text])) ∨
      ∃ response reason, inferReserved models name ids inference = .ok (response, reason) ∧
        response.id = ids.requestId ∧ response.text = deltas.flatten ∧
        inferStreamReserved models name ids inference =
          .ok (startedEvent ids :: tokenEvents deltas ++ [.finished reason response.usage])) := by
  unfold inferReserved inferStreamReserved
  cases hprepared : prepared models name inference with
  | error e => exact Or.inl ⟨e, rfl, rfl⟩
  | ok found =>
    obtain ⟨record, frontier⟩ := found
    obtain ⟨deltas, generated, hgenerate, htext, hinfer, hdeltas⟩ :=
      inferAdmitted_eq record ids inference frontier (prepared_visible hprepared).2
    have hvalid := inferAdmitted_valid record ids inference frontier
    rw [hinfer] at hvalid
    refine Or.inr ⟨deltas, hvalid, ?_⟩
    dsimp only
    rw [hinfer]
    cases houtput : inference.output with
    | error e => exact Or.inl ⟨e, rfl, rfl⟩
    | ok output =>
      cases inference.committed with
      | error e => exact Or.inl ⟨e, rfl, rfl⟩
      | ok _ =>
        rw [houtput] at hdeltas
        refine Or.inr ⟨respond ids record output generated.result, generated.result.finishReason,
          rfl, rfl, ?_, rfl⟩
        rw [hdeltas rfl]
        exact htext

/-- A client of a stream is told what a client of the whole answer is told, or both are told of
the same failure. -/
theorem ways_told :
    (∀ response reason, inferReserved models name ids inference = .ok (response, reason) →
      ∃ stream answer told rows last,
        inferStreamReserved models name ids inference = .ok stream ∧
        readJson (printer.text (completedValue diagnostics protocol response reason)) =
          some answer ∧
        (∀ parts, parts.flatten = body printer (.plain protocol includeUsage) stream →
          received parts = told.map some) ∧
        Told protocol includeUsage told answer rows last) ∧
    ∀ e, inferReserved models name ids inference = .error e →
      inferStreamReserved models name ids inference = .error e ∨
      ∃ stream told rows last,
        inferStreamReserved models name ids inference = .ok stream ∧
        (∀ parts, parts.flatten = body printer (.plain protocol includeUsage) stream →
          received parts = told.map some) ∧
        ToldFailure e.text told rows last := by
  rcases ways_cases models name ids inference with ⟨e, hwhole, hstream⟩ | ⟨deltas, hvalid, hways⟩
  · refine ⟨?_, ?_⟩
    · intro response reason h
      rw [hwhole] at h
      cases h
    · intro e' h
      rw [hwhole] at h
      cases h
      exact Or.inl hstream
  · rcases hways with ⟨e, hwhole, hstream⟩ | ⟨response, reason, hwhole, hid, htext, hstream⟩
    · refine ⟨?_, ?_⟩
      · intro response reason h
        rw [hwhole] at h
        cases h
      · intro e' h
        rw [hwhole] at h
        cases h
        exact Or.inr ⟨_, _, _, _, hstream, fun _ hparts => received_body printer _ _ hparts,
          told_failed floats protocol includeUsage ids deltas e.text⟩
    · refine ⟨?_, ?_⟩
      · intro response' reason' h
        rw [hwhole] at h
        cases h
        exact ⟨_, _, _, _, _, hstream, printer.readJson_text _,
          fun _ hparts => received_body printer _ _ hparts,
          told_finished floats protocol includeUsage ids diagnostics response reason hvalid hid
            htext⟩
      · intro e h
        rw [hwhole] at h
        cases h

end Ways

def noDiagnostics : Diagnostics := ⟨.null, ⟨0, 0, 0, 0, 0, 0, 0, 0⟩, fun _ _ => 0⟩

theorem short_chat_told :
    ∃ response reason, inferReserved aliasModels "m" drawn shortInference = .ok (response, reason) ∧
      response.text = [104, 105] ∧
      ∃ stream answer told rows last,
        inferStreamReserved aliasModels "m" drawn shortInference = .ok stream ∧
        readJson (zeroPrinter.text (completedValue noDiagnostics .chat response reason)) =
          some answer ∧
        (∀ parts, parts.flatten = body zeroPrinter (.plain .chat true) stream →
          received parts = told.map some) ∧
        Told .chat true told answer rows last :=
  ⟨_, _, rfl, rfl, (ways_told zeroPrinter .chat true noDiagnostics aliasModels "m" drawn
    shortInference).1 _ _ rfl⟩

end Cusco.WireAgreement
