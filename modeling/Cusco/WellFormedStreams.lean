import Cusco.ProjectedStreams

/-!
When a streamed response is well formed. The projection numbers its rows and closes what it
opens in every mode but one: a function call over output that was not buffered leaves the
message open. The rows that the closure makes itself have no number, so a stream that ends in
one of them is not well formed.
-/

namespace Cusco.WellFormedStreams

open Completions Generation ProjectedStreams

theorem not_terminal_opening (o : Opening) :
    ∀ event ∈ openingEvents o, eventType event ∉ terminalTypes := by
  intro event hevent
  unfold openingEvents at hevent
  cases hbuffer : o.bufferOutput with
  | true =>
    rw [hbuffer, if_pos rfl, List.mem_singleton] at hevent
    rw [hevent]
    exact (by decide : "response.created" ∉ terminalTypes)
  | false =>
    rw [hbuffer, if_neg (by decide)] at hevent
    simp only [List.mem_cons, List.not_mem_nil, or_false] at hevent
    rcases hevent with rfl | rfl | rfl
    · exact (by decide : "response.created" ∉ terminalTypes)
    · exact (by decide : "response.output_item.added" ∉ terminalTypes)
    · exact (by decide : "response.content_part.added" ∉ terminalTypes)

theorem mem_deltaEvents {o : Opening} {tokens : List (List UInt8 × ℕ)} {event : ResponseEvent}
    (h : event ∈ deltaEvents o tokens) :
    o.bufferOutput = false ∧ ∃ delta, event = .textDelta delta := by
  unfold deltaEvents at h
  cases hbuffer : o.bufferOutput with
  | true =>
    rw [hbuffer, if_pos rfl] at h
    cases h
  | false =>
    rw [hbuffer, if_neg (by decide)] at h
    obtain ⟨token, _, rfl⟩ := List.mem_map.mp h
    exact ⟨rfl, token.1, rfl⟩

theorem not_terminal_tokens (o : Opening) (tokens : List (List UInt8 × ℕ)) :
    ∀ event ∈ deltaEvents o tokens, eventType event ∉ terminalTypes := by
  intro event hevent
  obtain ⟨_, delta, rfl⟩ := mem_deltaEvents hevent
  exact (by decide : "response.output_text.delta" ∉ terminalTypes)

theorem deltas_tokens (o : Opening) (tokens : List (List UInt8 × ℕ)) :
    (deltaEvents o tokens).filterMap deltaOf =
      if o.bufferOutput then [] else tokens.map Prod.fst := by
  unfold deltaEvents
  cases o.bufferOutput with
  | true => rfl
  | false =>
    rw [if_neg (by decide), if_neg (by decide), List.filterMap_map]
    exact congrFun List.filterMap_eq_map tokens

theorem dones_tokens (o : Opening) (tokens : List (List UInt8 × ℕ)) :
    (deltaEvents o tokens).filterMap doneOf = [] := by
  rw [List.filterMap_eq_nil_iff]
  intro event hevent
  obtain ⟨_, delta, rfl⟩ := mem_deltaEvents hevent
  rfl

theorem deltas_opening (o : Opening) : (openingEvents o).filterMap deltaOf = [] := by
  unfold openingEvents
  cases o.bufferOutput with
  | true => rfl
  | false => rfl

theorem dones_opening (o : Opening) : (openingEvents o).filterMap doneOf = [] := by
  unfold openingEvents
  cases o.bufferOutput with
  | true => rfl
  | false => rfl

theorem message_last (o : Opening) (text : List UInt8) (resource : ResponseResource) :
    ∃ before, messageEvents o text resource = before ++ [ResponseEvent.completed resource] ∧
      ∀ event ∈ before, eventType event ∉ terminalTypes := by
  unfold messageEvents
  cases o.bufferOutput with
  | true =>
    refine ⟨[.outputItemAdded (completedMessage text), .contentPartAdded ⟨[]⟩, .textDelta text,
      .textDone ⟨text⟩, .contentPartDone ⟨text⟩, .outputItemDone (completedMessage text)], rfl, ?_⟩
    intro event hevent
    simp only [List.mem_cons, List.not_mem_nil, or_false] at hevent
    rcases hevent with rfl | rfl | rfl | rfl | rfl | rfl
    · exact (by decide : "response.output_item.added" ∉ terminalTypes)
    · exact (by decide : "response.content_part.added" ∉ terminalTypes)
    · exact (by decide : "response.output_text.delta" ∉ terminalTypes)
    · exact (by decide : "response.output_text.done" ∉ terminalTypes)
    · exact (by decide : "response.content_part.done" ∉ terminalTypes)
    · exact (by decide : "response.output_item.done" ∉ terminalTypes)
  | false =>
    refine ⟨[.textDone ⟨text⟩, .contentPartDone ⟨text⟩, .outputItemDone (completedMessage text)],
      rfl, ?_⟩
    intro event hevent
    simp only [List.mem_cons, List.not_mem_nil, or_false] at hevent
    rcases hevent with rfl | rfl | rfl
    · exact (by decide : "response.output_text.done" ∉ terminalTypes)
    · exact (by decide : "response.content_part.done" ∉ terminalTypes)
    · exact (by decide : "response.output_item.done" ∉ terminalTypes)

theorem texts_message (o : Opening) (text : List UInt8) (resource : ResponseResource) :
    (messageEvents o text resource).filterMap doneOf = [text] ∧
      (messageEvents o text resource).filterMap deltaOf =
        if o.bufferOutput then [text] else [] := by
  unfold messageEvents
  cases o.bufferOutput with
  | true => exact ⟨rfl, rfl⟩
  | false => exact ⟨rfl, rfl⟩

/-- Before the end, the message and its part are open unless the output is buffered. -/
def openBeforeEnd (o : Opening) : Opened :=
  if o.bufferOutput then ⟨[], false⟩ else ⟨["msg_0"], true⟩

theorem follow_opening (o : Opening) :
    (openingEvents o).foldlM follow ⟨[], false⟩ = some (openBeforeEnd o) := by
  unfold openingEvents openBeforeEnd
  cases o.bufferOutput with
  | true => rfl
  | false => rfl

theorem follow_tokens (o : Opening) (tokens : List (List UInt8 × ℕ)) :
    (deltaEvents o tokens).foldlM follow (openBeforeEnd o) = some (openBeforeEnd o) := by
  unfold deltaEvents openBeforeEnd
  cases o.bufferOutput with
  | true => rfl
  | false =>
    rw [if_neg (by decide), if_neg (by decide)]
    induction tokens with
    | nil => rfl
    | cons token rest ih =>
      rw [List.map_cons, List.foldlM_cons]
      exact ih

theorem follow_before (o : Opening) (tokens : List (List UInt8 × ℕ))
    (last : List ResponseEvent) :
    (openingEvents o ++ deltaEvents o tokens ++ last).foldlM follow ⟨[], false⟩ =
      last.foldlM follow (openBeforeEnd o) := by
  rw [List.foldlM_append, List.foldlM_append, follow_opening]
  change ((deltaEvents o tokens).foldlM follow (openBeforeEnd o)).bind _ = _
  rw [follow_tokens]
  rfl

theorem follow_message (o : Opening) (text : List UInt8) (resource : ResponseResource) :
    ((messageEvents o text resource).foldlM follow (openBeforeEnd o)).isSome = true := by
  unfold messageEvents openBeforeEnd
  cases o.bufferOutput with
  | true => rfl
  | false => rfl

/-- A call is closed, and with it all, exactly when the message was not opened. -/
theorem follow_call (o : Opening) (call : ResponseFunctionCall) (resource : ResponseResource) :
    ((callEvents call resource).foldlM follow (openBeforeEnd o)).isSome = true ↔
      o.bufferOutput = true := by
  unfold callEvents openBeforeEnd
  cases o.bufferOutput with
  | true =>
    simp [follow]
  | false =>
    simp [follow]

theorem rows_of_end {a : Answers} {o : Opening} {tokens : List (List UInt8 × ℕ)}
    {ending : Ending} {p : ResponseProjection} {last : List Row}
    (h : streamRows a ⟨o.begun (tokens.map Prod.fst).flatten,
      (openingEvents o ++ deltaEvents o tokens).length, o.bufferOutput, none⟩ ending.event =
        (p, last)) :
    projectStream a o.projection (o.events tokens ending) =
      (p, numberedRows (openingEvents o ++ deltaEvents o tokens).zipIdx ++ last) := by
  unfold Opening.events
  rw [projectStream_append, opening_rows]
  simp only [projectStream, h, List.append_nil]

/-- What is left to show of a stream whose rows are all numbered. -/
theorem wellFormed_of_events {o : Opening} {tokens : List (List UInt8 × ℕ)}
    {final : ResponseProjection} {call : Option ResponseFunctionCall}
    {last : List ResponseEvent} {event : ResponseEvent}
    (hlast : ∃ before, last = before ++ [event] ∧ ∀ e ∈ before, eventType e ∉ terminalTypes)
    (hterminal : eventType event ∈ terminalTypes)
    (htext : ∀ resource message, final.completedResource = some resource →
      resource.output = [.message message] →
        last.filterMap doneOf = [(tokens.map Prod.fst).flatten] ∧
        message.content.map ResponseTextPart.text = [(tokens.map Prod.fst).flatten] ∧
        last.filterMap deltaOf =
          if o.bufferOutput then [(tokens.map Prod.fst).flatten] else [])
    (hclosed : (last.foldlM follow (openBeforeEnd o)).isSome = true)
    (hcalled : ∀ c resource, o.bufferOutput = true → call = some c →
      final.completedResource = some resource →
        resource.output = [.functionCall c] ∧ ∀ e ∈ last, tellsMessage e = false) :
    WellFormed (numberedRows (openingEvents o ++ deltaEvents o tokens ++ last).zipIdx) final
      tokens o.bufferOutput call := by
  obtain ⟨before, hsplit, hbefore⟩ := hlast
  refine ⟨sequenceNumber_numberedRows _, ?_, ?_, ?_, ?_, ?_⟩
  · rw [← List.head?_map, types_numberedRows, List.append_assoc]
    rfl
  · have hrows : numberedRows (openingEvents o ++ deltaEvents o tokens ++ last).zipIdx =
        numberedRows (openingEvents o ++ deltaEvents o tokens ++ before).zipIdx ++
          [.event event (openingEvents o ++ deltaEvents o tokens ++ before).length] := by
      rw [hsplit, ← List.append_assoc, numberedRows_append, Nat.zero_add]
      rfl
    refine ⟨_, _, hrows, hterminal, ?_⟩
    intro row hrow
    obtain ⟨e, he, htype, _⟩ := type_of_event hrow
    rw [htype]
    rcases List.mem_append.mp he with he | he
    · rcases List.mem_append.mp he with he | he
      · exact not_terminal_opening o e he
      · exact not_terminal_tokens o tokens e he
    · exact hbefore e he
  · intro resource message hresource hmessage
    obtain ⟨hdone, hcontent, hdelta⟩ := htext resource message hresource hmessage
    have hdeltas : deltaText (numberedRows (openingEvents o ++ deltaEvents o tokens ++
        last).zipIdx) = (tokens.map Prod.fst).flatten := by
      unfold deltaText
      rw [projected_numberedRows, List.filterMap_append, List.filterMap_append, deltas_opening,
        deltas_tokens, hdelta, List.nil_append]
      cases o.bufferOutput with
      | true => simp
      | false => simp
    rw [hdeltas]
    refine ⟨?_, hcontent, rfl⟩
    unfold doneTexts
    rw [projected_numberedRows, List.filterMap_append, List.filterMap_append, dones_opening,
      dones_tokens, hdone]
    rfl
  · unfold followAll
    rw [projected_numberedRows, follow_before]
    exact hclosed
  · intro c resource hbuffer hcall hresource
    obtain ⟨houtput, htold⟩ := hcalled c resource hbuffer hcall hresource
    refine ⟨houtput, ?_⟩
    intro row hrow e he
    obtain ⟨e', he', _, hprojected⟩ := type_of_event hrow
    rw [hprojected] at he
    cases he
    rcases List.mem_append.mp he' with he' | he'
    · rcases List.mem_append.mp he' with he' | he'
      · unfold openingEvents at he'
        rw [hbuffer, if_pos rfl, List.mem_singleton] at he'
        rw [he']
        rfl
      · have hunbuffered := (mem_deltaEvents he').1
        rw [hbuffer] at hunbuffered
        cases hunbuffered
    · exact htold e he'

theorem failed_well_formed (a : Answers) (o : Opening) (tokens : List (List UInt8 × ℕ))
    (message : String) (call : Option ResponseFunctionCall) :
    WellFormed (projectStream a o.projection (o.events tokens (.failed message))).2
      (projectStream a o.projection (o.events tokens (.failed message))).1 tokens o.bufferOutput
      call := by
  have hlast : streamRows a ⟨o.begun (tokens.map Prod.fst).flatten,
      (openingEvents o ++ deltaEvents o tokens).length, o.bufferOutput, none⟩
      (Ending.failed message).event = _ := failed_rows a o _ _ message
  have hresource : ∀ n resource, (ResponseProjection.mk (o.begun (tokens.map Prod.fst).flatten) n
      o.bufferOutput none).completedResource ≠ some resource := by
    intro n resource h
    cases h
  rw [rows_of_end hlast]
  rw [← Nat.zero_add (openingEvents o ++ deltaEvents o tokens).length, ← numberedRows_append]
  apply wellFormed_of_events ⟨[], rfl, fun e he => by cases he⟩
  · exact (by decide : "error" ∈ terminalTypes)
  · intro resource _ h
    exact absurd h (hresource _ resource)
  · unfold openBeforeEnd
    cases o.bufferOutput with
    | true => rfl
    | false => rfl
  · intro _ resource _ _ h
    exact absurd h (hresource _ resource)

theorem message_well_formed {a : Answers} (hcall : a.call = .ok none)
    (hstored : a.remembered = .ok ()) (o : Opening) (tokens : List (List UInt8 × ℕ))
    (reason : FinishReason) (usage : Usage) :
    WellFormed (projectStream a o.projection (o.events tokens (.finished reason usage))).2
      (projectStream a o.projection (o.events tokens (.finished reason usage))).1 tokens
      o.bufferOutput none := by
  obtain ⟨m, hlast⟩ := message_rows hcall hstored o (tokens.map Prod.fst).flatten
    (openingEvents o ++ deltaEvents o tokens).length reason usage
  have hend : streamRows a ⟨o.begun (tokens.map Prod.fst).flatten,
      (openingEvents o ++ deltaEvents o tokens).length, o.bufferOutput, none⟩
      (Ending.finished reason usage).event = _ := hlast
  rw [rows_of_end hend]
  rw [← Nat.zero_add (openingEvents o ++ deltaEvents o tokens).length, ← numberedRows_append]
  apply wellFormed_of_events
  · exact message_last o _ _
  · exact (by decide : "response.completed" ∈ terminalTypes)
  · intro resource message hresource hmessage
    cases hresource
    cases hmessage
    obtain ⟨hdone, hdelta⟩ := texts_message o (tokens.map Prod.fst).flatten
      (o.done reason usage (.message (completedMessage (tokens.map Prod.fst).flatten)))
    exact ⟨hdone, rfl, hdelta⟩
  · exact follow_message o _ _
  · intro c resource _ hnone
    cases hnone

theorem call_well_formed_iff {a : Answers} {call : ResponseFunctionCall}
    (hcall : a.call = .ok (some call)) (hstored : a.remembered = .ok ()) (o : Opening)
    (tokens : List (List UInt8 × ℕ)) (reason : FinishReason) (usage : Usage) :
    WellFormed (projectStream a o.projection (o.events tokens (.finished reason usage))).2
      (projectStream a o.projection (o.events tokens (.finished reason usage))).1 tokens
      o.bufferOutput (some call) ↔ o.bufferOutput = true := by
  obtain ⟨m, hlast⟩ := call_rows hcall hstored o (tokens.map Prod.fst).flatten
    (openingEvents o ++ deltaEvents o tokens).length reason usage
  have hend : streamRows a ⟨o.begun (tokens.map Prod.fst).flatten,
      (openingEvents o ++ deltaEvents o tokens).length, o.bufferOutput, none⟩
      (Ending.finished reason usage).event = _ := hlast
  rw [rows_of_end hend]
  rw [← Nat.zero_add (openingEvents o ++ deltaEvents o tokens).length, ← numberedRows_append]
  constructor
  · intro h
    have hclosed := h.closed
    unfold followAll at hclosed
    rw [projected_numberedRows, follow_before] at hclosed
    exact (follow_call o call _).mp hclosed
  · intro hbuffer
    apply wellFormed_of_events
    · refine ⟨[.functionCallAdded call, .functionCallDone call], rfl, ?_⟩
      intro e he
      simp only [List.mem_cons, List.not_mem_nil, or_false] at he
      rcases he with rfl | rfl
      · exact (by decide : "response.output_item.added" ∉ terminalTypes)
      · exact (by decide : "response.output_item.done" ∉ terminalTypes)
    · exact (by decide : "response.completed" ∈ terminalTypes)
    · intro resource message hresource hmessage
      cases hresource
      cases hmessage
    · exact (follow_call o call _).mpr hbuffer
    · intro c resource _ hc hresource
      cases hresource
      cases hc
      refine ⟨rfl, ?_⟩
      intro e he
      simp only [callEvents, List.mem_cons, List.not_mem_nil, or_false] at he
      rcases he with rfl | rfl | rfl
      · rfl
      · rfl
      · rfl

/-- A stream is well formed exactly when it ends in an error of the inference, or the call
could be read, came only where the output was buffered, and the resource was remembered. -/
theorem stream_well_formed_iff (a : Answers) (o : Opening) (tokens : List (List UInt8 × ℕ))
    (ending : Ending) :
    WellFormed (projectStream a o.projection (o.events tokens ending)).2
        (projectStream a o.projection (o.events tokens ending)).1 tokens o.bufferOutput
        (a.call.toOption.join) ↔
      Succeeds o.bufferOutput a ending := by
  cases ending with
  | failed message => exact ⟨fun _ => trivial, fun _ => failed_well_formed a o tokens message _⟩
  | finished reason usage =>
    unfold Succeeds
    by_cases hrefused : a.remembered ≠ .ok () ∨ ∀ call, a.call ≠ .ok call
    · obtain ⟨p, message, hlast⟩ := refused_rows hrefused o (tokens.map Prod.fst).flatten
        (openingEvents o ++ deltaEvents o tokens).length reason usage
      have hend : streamRows a ⟨o.begun (tokens.map Prod.fst).flatten,
          (openingEvents o ++ deltaEvents o tokens).length, o.bufferOutput, none⟩
          (Ending.finished reason usage).event = _ := hlast
      rw [rows_of_end hend]
      constructor
      · intro h
        have hfailure : Row.failure message ∈
            numberedRows (openingEvents o ++ deltaEvents o tokens).zipIdx ++
              [.failure message] := List.mem_append_right _ List.mem_cons_self
        exact absurd h.numbered (not_numbered hfailure)
      · rintro ⟨⟨call, hcall, _⟩, hstored⟩
        rcases hrefused with h | h
        · exact absurd hstored h
        · exact absurd hcall (h call)
    · simp only [not_or, ne_eq, not_not, not_forall] at hrefused
      obtain ⟨hstored, call, hcall⟩ := hrefused
      rw [hcall]
      simp only [Except.ok.injEq, exists_eq_left', hstored, and_true]
      cases call with
      | none =>
        refine ⟨fun _ => Or.inr rfl, ?_⟩
        intro _
        exact message_well_formed hcall hstored o tokens reason usage
      | some call =>
        simp only [reduceCtorEq, or_false]
        exact call_well_formed_iff hcall hstored o tokens reason usage

/-- A request with one tool, which has to be called. -/
def requiredTool : Opening where
  ids := ⟨"resp", "inf", "f", "c", 0⟩
  owner := "owner"
  name := "m"
  options := ⟨false, none, 0, [], ["lookup"], [], some (.mode .required), .string "required"⟩
  bufferOutput := true
  requestId := "resp"
  correlationId := "resp"
  inferenceId := "inf"
  executionSessionId := "inf"

/-- The answer to a text that is no call. -/
def noCall : Answers where
  call := .error (.request (.badRequest "model did not produce the required function call"))
  remembered := .ok ()

def smallUsage : Usage := ⟨"m", 1, 0, 1, 0, "resp", "inf", "inf"⟩

/-- Without the required call the stream ends in a row that has no number. -/
theorem refusal_not_numbered :
    (projectStream noCall requiredTool.projection (requiredTool.events []
      (.finished .stop smallUsage))).2.map Row.sequenceNumber = [some 0, none] ∧
    ¬ WellFormed (projectStream noCall requiredTool.projection (requiredTool.events []
        (.finished .stop smallUsage))).2
      (projectStream noCall requiredTool.projection (requiredTool.events []
        (.finished .stop smallUsage))).1 [] true none := by
  have hnumbers : (projectStream noCall requiredTool.projection (requiredTool.events []
      (.finished .stop smallUsage))).2.map Row.sequenceNumber = [some 0, none] := rfl
  refine ⟨hnumbers, ?_⟩
  intro h
  have hnumbered := h.numbered
  rw [hnumbers] at hnumbered
  have hnone : none ∈ [some 0, none] := List.mem_cons_of_mem (some 0) List.mem_cons_self
  rw [hnumbered] at hnone
  obtain ⟨n, _, hn⟩ := List.mem_map.mp hnone
  cases hn

end Cusco.WellFormedStreams
