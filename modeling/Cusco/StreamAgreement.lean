import Cusco.Completions

/-!
Buffered and streamed responses. The deltas of a stream add up to the text of the buffered
response, so both ways give the same resource up to its model: the stream keeps the name
of the request, the buffered way the id of the model that the name stands for. They agree,
and a later request may continue either, exactly when these are the same or nothing is
stored.
-/

namespace Cusco.StreamAgreement

open Completions Generation GenerationFrontier JsonValues Prompt

theorem emitPrefix_sent (f : GenerationFrontier) (requested : ℕ) (finalFlush : Bool) :
    ∃ g deltas, f.emitPrefix sent requested finalFlush = (.ok (), g, deltas) ∧
      g.visible = f.visible ++ deltas.flatten := by
  unfold GenerationFrontier.emitPrefix
  dsimp only
  generalize (if finalFlush = true then requested
    else utf8CompletePrefix (f.pending.take requested)) = consumed
  by_cases hnone : consumed = 0
  · rw [if_pos hnone]
    exact ⟨f, [], rfl, (List.append_nil _).symm⟩
  · rw [if_neg hnone]
    generalize (if f.strippingLeadingWhitespace = true then
      List.dropWhile Utf8.isWhitespace (Utf8.lossy (f.pending.take consumed))
      else Utf8.lossy (f.pending.take consumed)) = delta
    by_cases hempty : delta.flatten.isEmpty = true
    · rw [if_pos hempty]
      exact ⟨_, [], rfl, (List.append_nil _).symm⟩
    · rw [if_neg hempty]
      refine ⟨_, [delta.flatten], rfl, ?_⟩
      rw [List.flatten_singleton]
      rfl

/-- What a push shows is what it sends. -/
theorem push_sent (f : GenerationFrontier) (piece : List UInt8) (terminalOrControl : Bool) :
    ∃ control g deltas, f.push sent piece terminalOrControl = (.ok control, g, deltas) ∧
      g.visible = f.visible ++ deltas.flatten := by
  unfold GenerationFrontier.push
  by_cases hstopped : f.finishReason.isSome = true
  · rw [if_pos hstopped]
    exact ⟨.stop, f, [], rfl, (List.append_nil _).symm⟩
  · rw [if_neg hstopped]
    dsimp only
    by_cases hterminal : terminalOrControl = true
    · rw [if_pos hterminal]
      obtain ⟨g, deltas, hemit, hvisible⟩ := emitPrefix_sent { f with
        sampledTokens := f.sampledTokens + 1
        tokenBoundaries := f.tokenBoundaries ++
          [f.tokenBoundaries.getLast?.getD f.pendingOffset + piece.length] } f.pending.length true
      rw [hemit]
      exact ⟨_, _, _, rfl, hvisible⟩
    · rw [if_neg hterminal]
      generalize hextended : ({ f with
        sampledTokens := f.sampledTokens + 1
        tokenBoundaries := f.tokenBoundaries ++
          [f.tokenBoundaries.getLast?.getD f.pendingOffset + piece.length]
        pending := f.pending ++ piece } : GenerationFrontier) = extended
      have hshown : extended.visible = f.visible := by rw [← hextended]
      rw [← hshown]
      cases extended.stopMatch with
      | none =>
        obtain ⟨g, deltas, hemit, hvisible⟩ := emitPrefix_sent extended
          ((f.pending ++ piece).length - extended.longestPossibleStopSuffix) false
        dsimp only
        rw [hemit]
        exact ⟨_, _, _, rfl, hvisible⟩
      | some found =>
        obtain ⟨g, deltas, hemit, hvisible⟩ := emitPrefix_sent extended found.1 true
        dsimp only
        rw [hemit]
        exact ⟨_, _, _, rfl, hvisible⟩

theorem pushAll_sent (f : GenerationFrontier) (pushes : List (List UInt8 × Bool)) :
    ∃ controls deltas last, f.pushAll sent pushes = .ok (controls, deltas, last) ∧
      last.visible = f.visible ++ deltas.flatten := by
  induction pushes generalizing f with
  | nil => exact ⟨[], [], f, rfl, (List.append_nil _).symm⟩
  | cons piece rest ih =>
    obtain ⟨control, g, deltas, hpush, hfirst⟩ := push_sent f piece.1 piece.2
    obtain ⟨controls, more, last, hrest, hlast⟩ := ih g
    refine ⟨control :: controls, deltas ++ more, last, ?_, ?_⟩
    · unfold GenerationFrontier.pushAll
      rw [hpush]
      dsimp only
      rw [hrest]
    · rw [hlast, hfirst, List.flatten_append, List.append_assoc]

theorem finish_sent (f : GenerationFrontier) :
    ∃ result more, f.finish sent = (.ok result, more) ∧
      result.text = f.visible ++ more.flatten := by
  unfold GenerationFrontier.finish
  cases f.finishReason with
  | some reason => exact ⟨_, [], rfl, (List.append_nil _).symm⟩
  | none =>
    obtain ⟨g, deltas, hemit, hvisible⟩ := emitPrefix_sent f f.pending.length true
    dsimp only
    rw [hemit]
    exact ⟨_, _, rfl, hvisible⟩

theorem newEffective_visible {stops : List Utf8.Text} {f : GenerationFrontier}
    (h : newEffective stops false = .ok f) : f.visible = [] := by
  unfold newEffective withLimit at h
  obtain ⟨_, h⟩ := Calls.ok_of_ite h
  obtain ⟨_, h⟩ := Calls.ok_of_ite h
  cases h
  rfl

/-- The resource of a projection that has received its first event and a text. -/
def inProgress (ids : Identity) (owner name : String) (options : ResponseRequestOptions)
    (text : List UInt8) : ResponseResource :=
  { (streamProjection ids owner name options).resource with
    id := ids.requestId
    metadata := ⟨ids.requestId, ids.inferenceId, ids.inferenceId⟩
    output := [.message ⟨"msg_0", "assistant", "in_progress", [⟨text⟩]⟩] }

/-- A projection before its last event. -/
structure Shows (resource : ResponseResource) (p : ResponseProjection) : Prop where
  shown : p.resource = resource
  noCall : p.functionCall = none

section Rows

variable (json : SerdeJson) (ids : Identity) (owner name : String)
  (options : ResponseRequestOptions) (outcome : Outcome)

theorem started_row :
    ∃ p, streamRow json ids options (streamProjection ids owner name options, outcome)
        (startedEvent ids) = (p, outcome) ∧ Shows (inProgress ids owner name options []) p :=
  ⟨_, rfl, rfl, rfl⟩

theorem token_row (p : ResponseProjection) (text token : List UInt8) (index : ℕ)
    (h : Shows (inProgress ids owner name options text) p) :
    ∃ q, streamRow json ids options (p, outcome) (.token token index) = (q, outcome) ∧
      Shows (inProgress ids owner name options (text ++ token)) q := by
  obtain ⟨resource, sequence, bufferOutput, functionCall⟩ := p
  obtain ⟨rfl, rfl⟩ := h
  exact ⟨_, rfl, rfl, rfl⟩

theorem token_rows (deltas : List (List UInt8 × ℕ)) (p : ResponseProjection) (text : List UInt8)
    (h : Shows (inProgress ids owner name options text) p) :
    ∃ q, (deltas.map (fun (delta, index) => StreamEvent.token delta index)).foldl
        (streamRow json ids options) (p, outcome) = (q, outcome) ∧
      Shows (inProgress ids owner name options (text ++ (deltas.map Prod.fst).flatten)) q := by
  induction deltas generalizing p text with
  | nil => exact ⟨p, rfl, by simpa using h⟩
  | cons delta rest ih =>
    obtain ⟨q, hrow, hshows⟩ := token_row json ids owner name options outcome p text delta.1
      delta.2 h
    obtain ⟨last, hrows, hlast⟩ := ih q (text ++ delta.1) hshows
    refine ⟨last, ?_, ?_⟩
    · rw [List.map_cons, List.foldl_cons]
      dsimp only
      rw [hrow]
      exact hrows
    · rw [List.map_cons, List.flatten_cons, ← List.append_assoc]
      exact hlast

/-- The events before the last one. -/
theorem opening_rows (deltas : List (List UInt8)) :
    ∃ p, (startedEvent ids :: tokenEvents deltas).foldl (streamRow json ids options)
        (streamProjection ids owner name options, outcome) = (p, outcome) ∧
      Shows (inProgress ids owner name options deltas.flatten) p := by
  obtain ⟨p, hrow, hshows⟩ := started_row json ids owner name options outcome
  obtain ⟨q, hrows, hlast⟩ :=
    token_rows json ids owner name options outcome deltas.zipIdx p [] hshows
  refine ⟨q, ?_, ?_⟩
  · rw [List.foldl_cons, hrow]
    exact hrows
  · rw [List.nil_append, List.zipIdx_map_fst] at hlast
    exact hlast

theorem error_row (p : ResponseProjection) (text : List UInt8) (message : String)
    (h : Shows (inProgress ids owner name options text) p) :
    (streamRow json ids options (p, outcome) (.error message)).2 = outcome := by
  obtain ⟨resource, sequence, bufferOutput, functionCall⟩ := p
  obtain ⟨rfl, rfl⟩ := h
  rfl

/-- The last event of an inference that succeeds. -/
theorem finished_row (p : ResponseProjection) (response : InferResponse) (reason : FinishReason)
    (hid : response.id = ids.requestId)
    (hmetadata : response.usage.correlationId = ids.requestId ∧
      response.usage.inferenceId = ids.inferenceId ∧
      response.usage.executionSessionId = ids.inferenceId)
    (h : Shows (inProgress ids owner name options response.text) p) :
    (streamRow json ids options (p, outcome) (.finished reason response.usage)).2 =
      match parseFunctionCall json ids response.text options with
      | .error _ => outcome
      | .ok call => remember outcome
          { complete ids owner response reason options call with model := name } := by
  obtain ⟨resource, sequence, bufferOutput, functionCall⟩ := p
  obtain ⟨rfl, rfl⟩ := h
  obtain ⟨hcorrelation, hinference, hsession⟩ := hmetadata
  have htext : (ResponseProjection.mk (inProgress ids owner name options response.text) sequence
      bufferOutput none).generatedText = response.text := rfl
  unfold streamRow
  dsimp only
  rw [htext]
  cases hparse : parseFunctionCall json ids response.text options with
  | error e => rfl
  | ok call =>
    cases call with
    | none =>
      unfold complete
      rw [hid, hcorrelation, hinference, hsession]
      rfl
    | some call =>
      unfold complete
      rw [hid, hcorrelation, hinference, hsession]
      rfl

end Rows

/-- What an inference comes to, apart from the ids that are made for it. -/
def inferred (models : ModelLifecycle.Service) (name : String) (inference : Inference) :
    Except Failure (ModelLifecycle.ModelRecord × EngineOutput × FrontierResult) := do
  let (record, frontier) ← prepared models name inference
  let output ← inference.output
  let generated ← generate sent frontier inference.pushes
  let _ ← inference.committed
  .ok (record, output, generated.result)

/-- The response of an inference, with its ids. -/
def respond (ids : Identity) (record : ModelLifecycle.ModelRecord) (output : EngineOutput)
    (result : FrontierResult) : InferResponse :=
  ⟨ids.requestId, result.text, usageOf record ids output result.generatedTokens⟩

/-- What is made of an inference, with the model of the resource given. -/
def finished (json : SerdeJson) (service : Conversations.ResponseService) (owner : String)
    (options : ResponseRequestOptions) (ids : Identity)
    (model : ModelLifecycle.ModelRecord → String) :
    Except Failure (ModelLifecycle.ModelRecord × EngineOutput × FrontierResult) → Outcome
  | .error _ => ⟨service, none⟩
  | .ok (record, output, result) =>
    match parseFunctionCall json ids result.text options with
    | .error _ => ⟨service, none⟩
    | .ok call => remember ⟨service, none⟩
        { complete ids owner (respond ids record output result) result.finishReason options
            call with
          model := model record }

theorem prepared_visible {models : ModelLifecycle.Service} {name : String} {inference : Inference}
    {record : ModelLifecycle.ModelRecord} {frontier : GenerationFrontier}
    (h : prepared models name inference = .ok (record, frontier)) :
    models.model name = some record ∧ frontier.visible = [] := by
  unfold prepared at h
  cases hmodel : models.model name with
  | none => simp [hmodel] at h
  | some _ =>
    cases hnew : newEffective inference.stops false with
    | error e => simp [hmodel, hnew] at h
    | ok new =>
      rw [hmodel, hnew] at h
      cases h
      exact ⟨rfl, newEffective_visible hnew⟩

/-- An inference from the frontier on: its deltas add up to the text, and it fails like the
engine and the commit. -/
theorem inferAdmitted_eq (record : ModelLifecycle.ModelRecord) (ids : Identity)
    (inference : Inference) (frontier : GenerationFrontier) (hvisible : frontier.visible = []) :
    ∃ deltas generated, generate sent frontier inference.pushes = .ok generated ∧
      generated.result.text = generated.deltas.flatten ∧
      inferAdmitted record ids inference frontier = (deltas, do
        let output ← inference.output
        let _ ← inference.committed
        .ok (respond ids record output generated.result, generated.result.finishReason,
          usageOf record ids output generated.result.generatedTokens)) ∧
      (inference.output.isOk = true → deltas = generated.deltas) := by
  obtain ⟨controls, sentDeltas, last, hpushes, hlast⟩ := pushAll_sent frontier inference.pushes
  obtain ⟨result, more, hfinish, htext⟩ := finish_sent last
  have hpushed : pushed frontier inference.pushes = (sentDeltas, last) := by
    unfold pushed
    rw [hpushes]
  have hgenerate : generate sent frontier inference.pushes =
      .ok ⟨controls, sentDeltas ++ more, result⟩ := by
    unfold generate
    rw [hpushes]
    dsimp only
    rw [hfinish]
  have hshown : result.text = (sentDeltas ++ more).flatten := by
    rw [htext, hlast, hvisible, List.nil_append, List.flatten_append]
  unfold inferAdmitted
  rw [hpushed]
  dsimp only
  cases houtput : inference.output with
  | error e => exact ⟨_, _, hgenerate, hshown, rfl, fun h => by cases h⟩
  | ok output =>
    dsimp only
    rw [hfinish]
    cases hcommitted : inference.committed with
    | error e => exact ⟨_, _, hgenerate, hshown, rfl, fun _ => rfl⟩
    | ok _ => exact ⟨_, _, hgenerate, hshown, rfl, fun _ => rfl⟩

section Ways

variable (json : SerdeJson) (models : ModelLifecycle.Service)
  (service : Conversations.ResponseService) (owner name : String)
  (options : ResponseRequestOptions) (inference : Inference) (ids : Identity)

theorem buffered_eq : buffered json models service owner name options inference ids =
    finished json service owner options ids (fun record => record.id)
      (inferred models name inference) := by
  unfold buffered inferReserved inferred
  cases hprepared : prepared models name inference with
  | error e => rfl
  | ok found =>
    obtain ⟨record, frontier⟩ := found
    obtain ⟨deltas, generated, hgenerate, _, hinfer, _⟩ :=
      inferAdmitted_eq record ids inference frontier (prepared_visible hprepared).2
    dsimp only
    rw [hinfer]
    change _ = finished json service owner options ids _ (do
      let output ← inference.output
      let generated ← generate sent frontier inference.pushes
      let _ ← inference.committed
      .ok (record, output, generated.result))
    rw [hgenerate]
    cases inference.output with
    | error e => rfl
    | ok output =>
      cases inference.committed with
      | error e => rfl
      | ok _ => rfl

theorem streamed_eq : streamed json models service owner name options inference ids =
    finished json service owner options ids (fun _ => name) (inferred models name inference) := by
  unfold streamed inferStreamReserved inferred
  cases hprepared : prepared models name inference with
  | error e => rfl
  | ok found =>
    obtain ⟨record, frontier⟩ := found
    obtain ⟨deltas, generated, hgenerate, htext, hinfer, hdeltas⟩ :=
      inferAdmitted_eq record ids inference frontier (prepared_visible hprepared).2
    obtain ⟨p, hrows, hshows⟩ := opening_rows json ids owner name options ⟨service, none⟩ deltas
    dsimp only
    rw [hinfer]
    dsimp only
    rw [List.foldl_append, hrows]
    change _ = finished json service owner options ids _ (do
      let output ← inference.output
      let generated ← generate sent frontier inference.pushes
      let _ ← inference.committed
      .ok (record, output, generated.result))
    rw [hgenerate]
    cases houtput : inference.output with
    | error e => exact error_row json ids owner name options _ p deltas.flatten e.text hshows
    | ok output =>
      cases inference.committed with
      | error e => exact error_row json ids owner name options _ p deltas.flatten e.text hshows
      | ok _ =>
        rw [houtput] at hdeltas
        rw [hdeltas rfl, ← htext] at hshows
        exact finished_row json ids owner name options _ p
          (respond ids record output generated.result) generated.result.finishReason rfl
          ⟨rfl, rfl, rfl⟩ hshows

end Ways

/-- The store takes a response: it is not stored, it starts a lineage, or it is the first
to continue the current revision of its base. -/
def Takes (service : Conversations.ResponseService) (options : ResponseRequestOptions) : Prop :=
  options.store = true → ∀ baseId ∈ options.previousResponseId,
    ∃ base, service.stored.lookup baseId = some base ∧
      base.lineageRevision = options.lineageRevision - 1 ∧ service.hasSuccessor baseId = false

/-- The inference succeeds, the tool choice takes its text, and the store its response. -/
def Stores (json : SerdeJson) (models : ModelLifecycle.Service)
    (service : Conversations.ResponseService) (name : String) (options : ResponseRequestOptions)
    (inference : Inference) : Prop :=
  ∃ record frontier output generated,
    prepared models name inference = .ok (record, frontier) ∧
      inference.output = .ok output ∧ inference.committed = .ok () ∧
      generate sent frontier inference.pushes = .ok generated ∧
      (chosenCall json generated.result.text options).isOk = true ∧ Takes service options

/-- The name is the id of the model that it stands for. -/
def Named (models : ModelLifecycle.Service) (name : String) : Prop :=
  ∀ record, models.model name = some record → record.id = name

/-- Without what is generated for a resource alone. -/
def anonymousItem : ResponseOutputItem → ResponseOutputItem
  | .message message => .message message
  | .functionCall call => .functionCall { call with id := "", callId := "" }

def anonymous (resource : ResponseResource) : ResponseResource :=
  { resource with
    id := ""
    createdAt := 0
    output := resource.output.map anonymousItem
    metadata := ⟨"", "", ""⟩ }

section Stored

variable {json : SerdeJson} {models : ModelLifecycle.Service}
  {service : Conversations.ResponseService} {owner name : String}
  {options : ResponseRequestOptions} {inference : Inference} {ids : Identity}

theorem putSuccessor_isOk (service : Conversations.ResponseService) (baseId : String)
    (expectedRevision : ℕ) (resource : Conversations.ResponseResource) :
    (service.putSuccessor baseId expectedRevision resource).isOk = true ↔
      ∃ base, service.stored.lookup baseId = some base ∧
        base.lineageRevision = expectedRevision ∧ service.hasSuccessor baseId = false := by
  unfold Conversations.ResponseService.putSuccessor
  cases service.stored.lookup baseId with
  | none => simp [Except.isOk, Except.toBool]
  | some base =>
    by_cases hrevision : base.lineageRevision = expectedRevision
    · cases hsuccessor : service.hasSuccessor baseId with
      | false => simp [hrevision, Except.isOk, Except.toBool]
      | true => simp [hrevision, Except.isOk, Except.toBool]
    · simp [hrevision, Except.isOk, Except.toBool]

/-- A resource made with the options is stored exactly when the store takes it. -/
theorem remember_isOk (resource : ResponseResource) (hstore : resource.store = options.store)
    (hprevious : resource.previousResponseId = options.previousResponseId)
    (hrevision : resource.lineageRevision = options.lineageRevision) :
    (service.remember (kept resource)).isOk = true ↔ Takes service options := by
  unfold Takes Conversations.ResponseService.remember
  rw [show (kept resource).store = options.store from hstore,
    show (kept resource).previousResponseId = options.previousResponseId from hprevious,
    show (kept resource).lineageRevision = options.lineageRevision from hrevision]
  cases options.store with
  | false => simp [Except.isOk, Except.toBool]
  | true =>
    cases options.previousResponseId with
    | none => simp [Except.isOk, Except.toBool]
    | some baseId => simpa using putSuccessor_isOk service baseId _ (kept resource)

theorem remember_of_takes (h : Takes service options) (resource : ResponseResource)
    (hstore : resource.store = options.store)
    (hprevious : resource.previousResponseId = options.previousResponseId)
    (hrevision : resource.lineageRevision = options.lineageRevision) :
    (remember ⟨service, none⟩ resource).stored = some resource := by
  have hok := (remember_isOk resource hstore hprevious hrevision).mpr h
  unfold remember
  dsimp only
  cases hremember : service.remember (kept resource) with
  | error e => simp [hremember, Except.isOk, Except.toBool] at hok
  | ok next => rfl

theorem remember_of_not_takes (h : ¬Takes service options) (resource : ResponseResource)
    (hstore : resource.store = options.store)
    (hprevious : resource.previousResponseId = options.previousResponseId)
    (hrevision : resource.lineageRevision = options.lineageRevision) :
    remember ⟨service, none⟩ resource = ⟨service, none⟩ := by
  have hok := mt (remember_isOk resource hstore hprevious hrevision).mp h
  unfold remember
  dsimp only
  cases hremember : service.remember (kept resource) with
  | error e => rfl
  | ok next => simp [hremember, Except.isOk, Except.toBool] at hok

/-- The resource that is made of an inference. -/
def made (owner : String) (options : ResponseRequestOptions) (ids : Identity) (model : String)
    (record : ModelLifecycle.ModelRecord) (output : EngineOutput) (result : FrontierResult)
    (chosen : Option (String × String)) : ResponseResource :=
  { complete ids owner (respond ids record output result) result.finishReason options
      (chosen.map (fun (name, arguments) => newFunctionCall ids name arguments)) with
    model := model }

theorem anonymous_made (owner : String) (options : ResponseRequestOptions) (ids ids' : Identity)
    (model : String) (record : ModelLifecycle.ModelRecord) (output : EngineOutput)
    (result : FrontierResult) (chosen : Option (String × String)) :
    anonymous (made owner options ids model record output result chosen) =
      anonymous (made owner options ids' model record output result chosen) := by
  cases chosen <;> rfl

theorem inferred_of_stores (h : Stores json models service name options inference) :
    ∃ record output result chosen, models.model name = some record ∧
      inferred models name inference = .ok (record, output, result) ∧
      chosenCall json result.text options = .ok chosen ∧ Takes service options := by
  obtain ⟨record, frontier, output, generated, hprepared, houtput, hcommitted, hgenerate, hchosen,
    htakes⟩ := h
  have hinferred : inferred models name inference = .ok (record, output, generated.result) := by
    unfold inferred
    rw [hprepared, houtput, hcommitted]
    change (generate sent frontier inference.pushes >>= fun generated =>
      Except.ok (record, output, generated.result)) = _
    rw [hgenerate]
    rfl
  cases hcall : chosenCall json generated.result.text options with
  | error e => simp [hcall, Except.isOk, Except.toBool] at hchosen
  | ok chosen =>
    exact ⟨record, output, generated.result, chosen, (prepared_visible hprepared).1, hinferred,
      hcall, htakes⟩

theorem stores_of_inferred {record : ModelLifecycle.ModelRecord} {output : EngineOutput}
    {result : FrontierResult} {chosen : Option (String × String)}
    (hinferred : inferred models name inference = .ok (record, output, result))
    (hchosen : chosenCall json result.text options = .ok chosen) (htakes : Takes service options) :
    Stores json models service name options inference := by
  obtain ⟨⟨found, frontier⟩, hprepared, h⟩ := Calls.ok_of_bind hinferred
  obtain ⟨answer, houtput, h⟩ := Calls.ok_of_bind h
  obtain ⟨generated, hgenerate, h⟩ := Calls.ok_of_bind h
  obtain ⟨_, hcommitted, h⟩ := Calls.ok_of_bind h
  cases h
  exact ⟨record, frontier, output, generated, hprepared, houtput, hcommitted, hgenerate,
    by rw [hchosen]; rfl, htakes⟩

/-- An execution that stores something stores what is made of its inference. -/
theorem finished_of_stores (h : Stores json models service name options inference) :
    ∃ record output result chosen, models.model name = some record ∧
      ∀ owner ids model, (finished json service owner options ids model
        (inferred models name inference)).stored =
          some (made owner options ids (model record) record output result chosen) := by
  obtain ⟨record, output, result, chosen, hmodel, hinferred, hchosen, htakes⟩ :=
    inferred_of_stores h
  refine ⟨record, output, result, chosen, hmodel, ?_⟩
  intro owner ids model
  rw [hinferred]
  unfold finished parseFunctionCall
  dsimp only
  rw [hchosen]
  exact remember_of_takes htakes (made owner options ids (model record) record output result chosen)
    rfl rfl rfl

theorem finished_of_not_stores (h : ¬Stores json models service name options inference)
    (owner : String) (ids : Identity) (model : ModelLifecycle.ModelRecord → String) :
    finished json service owner options ids model (inferred models name inference) =
      ⟨service, none⟩ := by
  cases hinferred : inferred models name inference with
  | error e => rfl
  | ok found =>
    obtain ⟨record, output, result⟩ := found
    unfold finished parseFunctionCall
    cases hchosen : chosenCall json result.text options with
    | error e =>
      dsimp only
      rw [hchosen]
      rfl
    | ok chosen =>
      have htakes : ¬Takes service options :=
        fun htakes => h (stores_of_inferred hinferred hchosen htakes)
      dsimp only
      rw [hchosen]
      exact remember_of_not_takes htakes
        (made owner options ids (model record) record output result chosen) rfl rfl rfl

/-- What is stored does not depend on the ids but for what is generated from them. -/
theorem finished_anonymous (owner : String) (ids ids' : Identity)
    (model : ModelLifecycle.ModelRecord → String) :
    (finished json service owner options ids model
        (inferred models name inference)).stored.map anonymous =
      (finished json service owner options ids' model
        (inferred models name inference)).stored.map anonymous := by
  by_cases hstores : Stores json models service name options inference
  · obtain ⟨record, output, result, chosen, _, hfinished⟩ := finished_of_stores hstores
    rw [hfinished, hfinished]
    exact congrArg some
      (anonymous_made owner options ids ids' (model record) record output result chosen)
  · rw [finished_of_not_stores hstores, finished_of_not_stores hstores]

theorem finished_of_named (h : Named models name) (owner : String) (ids : Identity) :
    finished json service owner options ids (fun _ => name) (inferred models name inference) =
      finished json service owner options ids (fun record => record.id)
        (inferred models name inference) := by
  cases hinferred : inferred models name inference with
  | error e => rfl
  | ok found =>
    obtain ⟨record, output, result⟩ := found
    obtain ⟨⟨_, _⟩, hprepared, hrest⟩ := Calls.ok_of_bind hinferred
    obtain ⟨_, _, hrest⟩ := Calls.ok_of_bind hrest
    obtain ⟨_, _, hrest⟩ := Calls.ok_of_bind hrest
    obtain ⟨_, _, hrest⟩ := Calls.ok_of_bind hrest
    cases hrest
    have hname : record.id = name := h record (prepared_visible hprepared).1
    unfold finished
    dsimp only
    rw [hname]

end Stored

/-- Both ways store the same resource up to what is generated for it, or nothing; and with
the same ids drawn, every later request that names the same model is accepted after both
or after neither. -/
def Agree (json : SerdeJson) (models : ModelLifecycle.Service)
    (service : Conversations.ResponseService) (owner name : String)
    (options : ResponseRequestOptions) (inference : Inference) : Prop :=
  (∀ ids ids',
    (streamed json models service owner name options inference ids).stored.map anonymous =
      (buffered json models service owner name options inference ids').stored.map anonymous) ∧
  ∀ ids ext principal family (next : Conversations.ResponsesRequest),
    (Conversations.responses ext
        (streamed json models service owner name options inference ids).service principal family
        { next with model := name }).isOk =
      (Conversations.responses ext
        (buffered json models service owner name options inference ids).service principal family
        { next with model := name }).isOk

theorem agree_iff (json : SerdeJson) (models : ModelLifecycle.Service)
    (service : Conversations.ResponseService) (owner name : String)
    (options : ResponseRequestOptions) (inference : Inference) :
    Agree json models service owner name options inference ↔
      (Stores json models service name options inference → Named models name) := by
  constructor
  · intro hagree hstores record hrecord
    obtain ⟨found, output, result, chosen, hmodel, hfinished⟩ := finished_of_stores hstores
    obtain rfl : found = record := Option.some.inj (hmodel.symm.trans hrecord)
    have hsame := hagree.1 ⟨"", "", "", "", 0⟩ ⟨"", "", "", "", 0⟩
    rw [streamed_eq, buffered_eq, hfinished, hfinished] at hsame
    have hmodels := congrArg ResponseResource.model (Option.some.inj hsame)
    exact hmodels.symm
  · intro h
    have hsame : ∀ ids, streamed json models service owner name options inference ids =
        buffered json models service owner name options inference ids := by
      intro ids
      rw [streamed_eq, buffered_eq]
      by_cases hstores : Stores json models service name options inference
      · exact finished_of_named (h hstores) owner ids
      · rw [finished_of_not_stores hstores, finished_of_not_stores hstores]
    refine ⟨?_, ?_⟩
    · intro ids ids'
      rw [hsame, buffered_eq, buffered_eq]
      exact finished_anonymous owner ids ids' _
    · intro ids ext principal family next
      rw [hsame]

def aliasModels : ModelLifecycle.Service :=
  ⟨(∅ : ModelLifecycle.Models).insert "m" ⟨"m", "r1", "m.gguf", "", ["latest"], "gemma4", 1, 1⟩,
    2, false, ∅, []⟩

def plainOptions : ResponseRequestOptions :=
  ⟨true, none, 0, [.message "user" "hi".toList], [], [], none, .null⟩

def shortInference : Inference := ⟨[], [([104, 105], false)], .ok ⟨1, 0, 1⟩, .ok ()⟩

def noJson : SerdeJson := ⟨fun _ => none, fun _ => none, fun _ => ""⟩

def noExternals : Conversations.Externals := ⟨fun name _ => name, fun _ => .ok ()⟩

def drawn : Identity := ⟨"r", "i", "f", "c", 7⟩

def byStream (name : String) : Outcome :=
  streamed noJson aliasModels ⟨∅, []⟩ "alice" name plainOptions shortInference drawn

def atOnce (name : String) : Outcome :=
  buffered noJson aliasModels ⟨∅, []⟩ "alice" name plainOptions shortInference drawn

def goesOn (outcome : Outcome) (name : String) : Bool :=
  (Conversations.responses noExternals outcome.service "alice" "gemma4"
    ⟨name, .text "go on".toList, true, some "r", [], none⟩).isOk

/-- A request that names the alias can be continued under this name after a stream only. -/
theorem alias_disagrees :
    ¬Agree noJson aliasModels ⟨∅, []⟩ "alice" "latest" plainOptions shortInference ∧
      (byStream "latest").stored.map ResponseResource.model = some "latest" ∧
      (atOnce "latest").stored.map ResponseResource.model = some "m" ∧
      goesOn (byStream "latest") "latest" = true ∧ goesOn (atOnce "latest") "latest" = false := by
  refine ⟨?_, by decide +kernel, by decide +kernel, by decide +kernel, by decide +kernel⟩
  intro hagree
  have hmodels := congrArg (Option.map ResponseResource.model) (hagree.1 drawn drawn)
  have hdiffer : ((byStream "latest").stored.map anonymous).map ResponseResource.model ≠
      ((atOnce "latest").stored.map anonymous).map ResponseResource.model := by decide +kernel
  exact hdiffer hmodels

end Cusco.StreamAgreement
