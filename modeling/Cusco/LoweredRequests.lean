import Cusco.Conversations

/-!
What the lowering of a request guarantees about its input items. Every role is one that
the template knows, and a request that starts a conversation begins as the template
demands. The later parts of a request are rendered one by one, so that nothing is known
about the place of a system message in them.
-/

namespace Cusco.LoweredRequests

open Calls Prompt Conversations

def itemRole : ResponseInputItem → String
  | .message role _ => role
  | .functionCall _ _ _ => "assistant"
  | .functionCallOutput _ _ => "user"

theorem inputMessage_role (ext : Externals) (item : ResponseInputItem) :
    (inputMessage ext item).role = itemRole item := by
  cases item <;> rfl

theorem outputMessage_role (ext : Externals) (item : ResponseOutputItem) :
    (outputMessage ext item).role = "assistant" := by
  cases item <;> rfl

theorem roles_lowerAll (ext : Externals) (messages : List ChatMessage)
    (normalized : List Message) (h : lowerAll ext messages = .ok normalized) :
    roles normalized = messages.map (fun message => message.role) := by
  induction messages generalizing normalized with
  | nil =>
    cases h
    rfl
  | cons message rest ih =>
    obtain ⟨lowered, hlowered, h⟩ := ok_of_bind h
    obtain ⟨later, hlater, h⟩ := ok_of_bind h
    obtain ⟨_, hcontent⟩ := ok_of_ite hlowered
    obtain ⟨text, _, rfl⟩ := ok_of_map hcontent
    cases h
    simpa [roles] using ih later hlater

theorem begins_of_lowerMessages (ext : Externals) (messages : List ChatMessage) (prompt : Content)
    (h : lowerMessages ext "gemma4" messages = .ok prompt) :
    Begins (messages.map (fun message => message.role)) ∧
      ∀ role ∈ messages.map (fun message => message.role), supported role := by
  obtain ⟨normalized, hnormalized, h⟩ := ok_of_bind h
  have hgemma : gemma4 normalized = .ok prompt := by simpa [applyChatTemplate] using h
  rw [← roles_lowerAll ext messages normalized hnormalized]
  exact begins_of_gemma4 hgemma

/-- The items of an accepted request. Only the first part of a conversation is known to
be in its place. -/
structure Lowered (previous : Option String) (items : List ResponseInputItem) : Prop where
  supported : ∀ role ∈ items.map itemRole, supported role
  begins : previous = none → items = [] ∨ Begins (items.map itemRole)

/-- What the loop has rendered, and that it has rendered something unless the request
has just begun. -/
structure Lowers (previous : Option String) (state : Lowering) (rendered : List String) :
    Prop where
  ledger : state.inputLedger.map itemRole =
    rendered ++ state.pendingMessages.map (fun message => message.role)
  supported : ∀ role ∈ rendered, Prompt.supported role
  begins : previous = none →
    Begins rendered ∨ (rendered = [] ∧ state.prompt = [] ∧ state.inputCallIds = [])

theorem lowers_flush {ext : Externals} {request : Request} {s t : Lowering}
    {rendered : List String} (hfamily : request.family = "gemma4")
    (hs : Lowers request.previousResponseId s rendered) (h : flush ext request s = .ok t) :
    Lowers request.previousResponseId t (s.inputLedger.map itemRole) ∧
      t.pendingMessages = [] := by
  obtain ⟨prompt, hprompt, h⟩ := ok_of_bind h
  cases h
  unfold flushResponseMessages at hprompt
  rw [hfamily] at hprompt
  refine ⟨?_, rfl⟩
  cases hpending : s.pendingMessages with
  | nil =>
    rw [hpending] at hprompt
    cases hprompt
    have hall : s.inputLedger.map itemRole = rendered := by simp [hs.ledger, hpending]
    exact ⟨by simp, by simpa [hall] using hs.supported, by simpa [hall] using hs.begins⟩
  | cons message rest =>
    rw [hpending] at hprompt
    obtain ⟨text, htext, _⟩ := ok_of_bind hprompt
    obtain ⟨hbegins, hsupported⟩ := begins_of_lowerMessages ext _ text htext
    have hledger := hs.ledger
    rw [hpending] at hledger
    refine ⟨by simp, ?_, ?_⟩
    · intro role hmem
      rw [hledger] at hmem
      rcases List.mem_append.mp hmem with hmem | hmem
      · exact hs.supported role hmem
      · exact hsupported role hmem
    · intro hnone
      left
      rw [hledger]
      rcases hs.begins hnone with h | ⟨hrendered, _, _⟩
      · exact h.append _
      · rw [hrendered, List.nil_append]
        exact hbegins

theorem lowers_item {ext : Externals} {service : ResponseService} {request : Request}
    {s t : Lowering} {rendered : List String} {item : ResponsesInputItem}
    (hfamily : request.family = "gemma4")
    (hs : Lowers request.previousResponseId s rendered)
    (h : lowerItem ext service request s item = .ok t) :
    ∃ more, Lowers request.previousResponseId t more := by
  cases item with
  | message role content =>
    cases h
    exact ⟨rendered, by simp [hs.ledger, itemRole], hs.supported, hs.begins⟩
  | functionCall callId name arguments =>
    obtain ⟨u, hu, h⟩ := ok_of_bind h
    obtain ⟨prompt, hprompt, h⟩ := ok_of_bind h
    obtain ⟨hflushed, hempty⟩ := lowers_flush hfamily hs hu
    cases h
    have hledger : u.inputLedger.map itemRole = s.inputLedger.map itemRole := by
      simpa [hempty] using hflushed.ledger
    refine ⟨s.inputLedger.map itemRole ++ ["assistant"], ?_, ?_, ?_⟩
    · simp [hledger, hempty, itemRole]
    · intro role hmem
      rcases List.mem_append.mp hmem with hmem | hmem
      · exact hflushed.supported role hmem
      · rw [List.mem_singleton.mp hmem]
        exact Or.inr (Or.inr rfl)
    · intro hnone
      rcases hflushed.begins hnone with hbegins | ⟨_, hnil, _⟩
      · exact Or.inl (hbegins.append _)
      · -- nothing is rendered yet, so there is no generation prompt to append to
        rw [hfamily, hnil] at hprompt
        cases hprompt
  | functionCallOutput callId output =>
    obtain ⟨u, hu, h⟩ := ok_of_bind h
    obtain ⟨known, hknown, h⟩ := ok_of_bind h
    obtain ⟨hflushed, hempty⟩ := lowers_flush hfamily hs hu
    obtain ⟨htrue, h⟩ := ok_of_ite h
    obtain ⟨text, htext, h⟩ := ok_of_bind h
    obtain ⟨prompt, hprompt, h⟩ := ok_of_bind h
    cases h
    have hledger : u.inputLedger.map itemRole = s.inputLedger.map itemRole := by
      simpa [hempty] using hflushed.ledger
    refine ⟨s.inputLedger.map itemRole ++ ["user"], ?_, ?_, ?_⟩
    · simp [hledger, hempty, itemRole]
    · intro role hmem
      rcases List.mem_append.mp hmem with hmem | hmem
      · exact hflushed.supported role hmem
      · rw [List.mem_singleton.mp hmem]
        exact Or.inr (Or.inl rfl)
    · intro hnone
      rcases hflushed.begins hnone with hbegins | ⟨_, _, hcalls⟩
      · exact Or.inl (hbegins.append _)
      · -- no call has been seen, in the request or before it
        unfold knowsCall at hknown
        rw [hcalls, if_neg (by simp), hnone] at hknown
        cases hknown
        exact absurd rfl htrue

theorem lowers_items {ext : Externals} {service : ResponseService} {request : Request}
    (hfamily : request.family = "gemma4") (items : List ResponsesInputItem) (s t : Lowering)
    (rendered : List String) (hs : Lowers request.previousResponseId s rendered)
    (h : lowerItems ext service request s items = .ok t) :
    Lowered request.previousResponseId t.inputLedger := by
  induction items generalizing s rendered with
  | nil =>
    obtain ⟨hflushed, hempty⟩ := lowers_flush hfamily hs h
    have hledger : t.inputLedger.map itemRole = s.inputLedger.map itemRole := by
      simpa [hempty] using hflushed.ledger
    constructor
    · rw [hledger]
      exact hflushed.supported
    · intro hnone
      rcases hflushed.begins hnone with hbegins | ⟨hnil, _, _⟩
      · rw [hledger]
        exact Or.inr hbegins
      · rw [← hledger] at hnil
        exact Or.inl (List.map_eq_nil_iff.mp hnil)
  | cons item rest ih =>
    obtain ⟨u, hu, h⟩ := ok_of_bind h
    obtain ⟨more, hmore⟩ := lowers_item hfamily hs hu
    exact ih u more hmore h

theorem lowered_input {ext : Externals} {service : ResponseService} {request : Request}
    (hfamily : request.family = "gemma4") (prompt : Content) (input : ResponsesInput)
    (hprompt : request.previousResponseId = none → prompt = []) (t : Lowering)
    (h : lowerInput ext service request prompt input = .ok t) :
    Lowered request.previousResponseId t.inputLedger := by
  cases input with
  | text text =>
    obtain ⟨_, _, h⟩ := ok_of_bind h
    obtain ⟨_, _, h⟩ := ok_of_bind h
    cases h
    exact ⟨by simp [itemRole, Prompt.supported], fun _ => Or.inr (Or.inl rfl)⟩
  | items items =>
    refine lowers_items hfamily items ⟨prompt, [], [], []⟩ t [] ⟨rfl, by simp, ?_⟩ h
    exact fun hnone => Or.inr ⟨rfl, hprompt hnone, rfl⟩

end Cusco.LoweredRequests
