import Cusco.LoweredRequests

/-!
The prompt of a request as a list of turns. The handler renders the parts of a request one
after the other, each in place of the generation prompt of what came before, so that its
prompt is the rendering of all messages in turn. A merge of two messages makes the
rendering shorter.
-/

namespace Cusco.LiveRendering

open Calls Prompt Conversations

def messageTurn (message : Message) : Content :=
  turn (if message.role = "assistant" then "model" else "user") message.content

def render (messages : List Message) : Content :=
  messages.flatMap messageTurn ++ generationPrompt

/-- The turns of a conversation: a leading system message is part of the first turn. -/
def absorb (messages : List Message) : List Message :=
  match (takeSystem messages).2 with
  | [] => []
  | first :: later => withSystem (takeSystem messages).1 first :: later

theorem render_ne_nil (messages : List Message) : render messages ≠ [] := by
  have hprompt : generationPrompt ≠ [] := by decide
  simp [render, hprompt]

theorem render_append (a b : List Message) :
    render (a ++ b) = a.flatMap messageTurn ++ render b := by
  simp [render]

theorem of_turns (index : ℕ) (messages : List Message) (prompt : Content)
    (h : turns index messages = .ok prompt) : prompt = render messages := by
  induction messages generalizing index prompt with
  | nil =>
    cases h
    rfl
  | cons message rest ih =>
    unfold turns at h
    by_cases hrole : message.role = expectedRole index
    · rw [if_pos hrole] at h
      obtain ⟨later, hlater, rfl⟩ := ok_of_map h
      rw [ih (index + 1) later hlater]
      simp [render, messageTurn]
    · rw [if_neg hrole] at h
      cases h

theorem of_gemma4 {messages : List Message} {prompt : Content} (h : gemma4 messages = .ok prompt) :
    prompt = render (absorb messages) ∧ absorb messages ≠ [] := by
  obtain ⟨first, later, hrest, _, hturns⟩ := gemma4_ok h
  have habsorb : absorb messages = withSystem (takeSystem messages).1 first :: later := by
    simp [absorb, hrest]
  rw [habsorb]
  exact ⟨of_turns 0 _ prompt hturns, by simp⟩

theorem absorb_append (messages more : List Message) (h : absorb messages ≠ []) :
    absorb (messages ++ more) = absorb messages ++ more := by
  cases messages with
  | nil => exact absurd rfl h
  | cons first rest =>
    by_cases hrole : first.role = "system"
    · cases rest with
      | nil => simp [absorb, takeSystem, hrole] at h
      | cons second later => simp [absorb, takeSystem, hrole]
    · simp [absorb, takeSystem, hrole]

/-- No message after the first is a system message. -/
def Clean (messages : List Message) : Prop := ∀ message ∈ messages.tail, message.role ≠ "system"

theorem Clean.of_append {a b : List Message} (h : Clean (a ++ b)) : Clean a := by
  intro message hmem
  refine h message ?_
  cases a with
  | nil => cases hmem
  | cons first rest => exact List.mem_append_left _ hmem

theorem absorb_of_no_system (messages : List Message)
    (h : ∀ message ∈ messages, message.role ≠ "system") : absorb messages = messages := by
  cases messages with
  | nil => rfl
  | cons first rest =>
    have hfirst : first.role ≠ "system" := h first List.mem_cons_self
    simp [absorb, takeSystem, hfirst, withSystem]

theorem suffix_render (messages : List Message) :
    generationPrompt.isSuffixOf (render messages) = true := by
  rw [List.isSuffixOf_iff_suffix]
  exact List.suffix_append _ _

theorem appendRendered_render (messages : List Message) (continuation : Content) :
    appendRendered "gemma4" (render messages) continuation =
      .ok (messages.flatMap messageTurn ++ continuation) := by
  have hempty : (render messages).isEmpty = false := by
    simpa [List.isEmpty_eq_false_iff] using render_ne_nil messages
  unfold appendRendered
  rw [hempty, suffix_render]
  simp [render]

theorem generationPrompt_eq :
    generationPrompt = "<start_of_turn>".toList ++ "model".toList ++ ['\n'] := by decide

/-- The generation prompt opens the turn of the model. -/
theorem assistantTurn_eq (content : Content) :
    messageTurn ⟨"assistant", content⟩ =
      generationPrompt ++ content ++ "<end_of_turn>\n".toList := by
  rw [generationPrompt_eq]
  rfl

theorem render_assistant (messages : List Message) (content : Content) :
    render (messages ++ [⟨"assistant", content⟩]) =
      render messages ++ content ++ "<end_of_turn>\n".toList ++ generationPrompt := by
  unfold render
  rw [List.flatMap_append, List.flatMap_singleton, assistantTurn_eq]
  simp only [List.append_assoc]

theorem appendAssistantContent_render (messages : List Message) (content : Content) :
    appendAssistantContent "gemma4" (render messages) content =
      .ok (render (messages ++ [⟨"assistant", content⟩])) := by
  unfold appendAssistantContent
  rw [suffix_render, render_assistant, if_pos rfl, if_pos rfl]

theorem of_lowerParts (ext : Externals) (role : String) (parts : List ResponsesContentPart)
    (text : Content) (h : lowerParts ext role (parts.map chatPart) = .ok text) :
    text = (parts.filterMap partText).flatten := by
  induction parts generalizing text with
  | nil =>
    cases h
    rfl
  | cons part rest ih =>
    cases part with
    | inputText t =>
      obtain ⟨later, hlater, rfl⟩ := ok_of_map h
      simp [partText, ih later hlater]
    | outputText t =>
      obtain ⟨later, hlater, rfl⟩ := ok_of_map h
      simp [partText, ih later hlater]
    | inputImage url =>
      obtain ⟨_, h⟩ := ok_of_ite h
      cases hroom : ext.admitDataUri url with
      | error message =>
        rw [hroom] at h
        cases h
      | ok admitted =>
        rw [hroom] at h
        cases h

theorem of_lowerContent (ext : Externals) (role : String) (content : ResponsesContent)
    (text : Content) (h : lowerContent ext role (chatContent content) = .ok text) :
    text = rawText content := by
  cases content with
  | text t =>
    cases h
    rfl
  | parts parts => exact of_lowerParts ext role parts text h

abbrev Waiting := List (String × ResponsesContent)

def chatMessages (waiting : Waiting) : List ChatMessage :=
  waiting.map (fun message => ⟨message.1, chatContent message.2⟩)

def plainMessages (waiting : Waiting) : List Message :=
  waiting.map (fun message => ⟨message.1, rawText message.2⟩)

/-- The text that is rendered is the text that is kept. -/
theorem of_lowerAll (ext : Externals) (waiting : Waiting) (messages : List Message)
    (h : lowerAll ext (chatMessages waiting) = .ok messages) :
    messages = plainMessages waiting := by
  induction waiting generalizing messages with
  | nil =>
    cases h
    rfl
  | cons message rest ih =>
    obtain ⟨lowered, hlowered, h⟩ := ok_of_bind h
    obtain ⟨later, hlater, h⟩ := ok_of_bind h
    obtain ⟨_, hcontent⟩ := ok_of_ite hlowered
    obtain ⟨text, htext, rfl⟩ := ok_of_map hcontent
    cases h
    rw [of_lowerContent ext _ _ text htext, ih later hlater]
    rfl

def livePrompt (messages : List Message) : Content :=
  if messages.isEmpty then [] else render (absorb messages)

/-- The variables of the loop: `base` has been rendered before the request, `rendered` by
it, and the rest waits for the next flush. -/
structure Live (ext : Externals) (base : List Message) (state : Lowering)
    (rendered : List Message) (waiting : Waiting) : Prop where
  pending : state.pendingMessages = chatMessages waiting
  ledger : state.inputLedger.map (inputMessage ext) = rendered ++ plainMessages waiting
  begun : base ++ rendered = [] ∨ absorb (base ++ rendered) ≠ []
  prompt : Clean (base ++ rendered) → state.prompt = livePrompt (base ++ rendered)

theorem livePrompt_of_begun {messages : List Message} (h : absorb messages ≠ []) :
    livePrompt messages = render (absorb messages) := by
  cases messages with
  | nil => exact absurd rfl h
  | cons first rest => rfl

theorem no_system_of_clean {messages chunk : List Message} (hne : messages ≠ [])
    (hclean : Clean (messages ++ chunk)) : ∀ m ∈ chunk, m.role ≠ "system" := by
  intro m hm
  refine hclean m ?_
  cases messages with
  | nil => exact absurd rfl hne
  | cons first more => exact List.mem_append_right more hm

/-- A rendered part continues what has been rendered before it. -/
theorem live_append {messages chunk : List Message} {before text prompt : Content}
    (hbegun : messages = [] ∨ absorb messages ≠ [])
    (hbefore : Clean messages → before = livePrompt messages)
    (hchunk : gemma4 chunk = .ok text) (h : appendRendered "gemma4" before text = .ok prompt) :
    absorb (messages ++ chunk) ≠ [] ∧
      (Clean (messages ++ chunk) → prompt = livePrompt (messages ++ chunk)) := by
  obtain ⟨rfl, habsorb⟩ := of_gemma4 hchunk
  rcases hbegun with rfl | hbegun
  · refine ⟨habsorb, ?_⟩
    intro _
    have hnil : before = [] := hbefore (fun _ hm => (nomatch hm))
    rw [hnil] at h
    rw [List.nil_append, livePrompt_of_begun habsorb]
    exact (Except.ok.inj h).symm
  · have hdone : absorb (messages ++ chunk) = absorb messages ++ chunk :=
      absorb_append _ _ hbegun
    have hne : absorb (messages ++ chunk) ≠ [] := by simp [hdone, hbegun]
    refine ⟨hne, ?_⟩
    intro hclean
    have hmessages : messages ≠ [] := by
      rintro rfl
      exact hbegun rfl
    rw [hbefore hclean.of_append, livePrompt_of_begun hbegun, appendRendered_render,
      absorb_of_no_system _ (no_system_of_clean hmessages hclean), ← render_append] at h
    rw [livePrompt_of_begun hne, hdone]
    exact (Except.ok.inj h).symm

theorem of_lowerMessages {ext : Externals} {waiting : Waiting} {text : Content}
    (h : lowerMessages ext "gemma4" (chatMessages waiting) = .ok text) :
    gemma4 (plainMessages waiting) = .ok text := by
  obtain ⟨chunk, hchunk, htemplate⟩ := ok_of_bind h
  rw [← of_lowerAll ext waiting chunk hchunk]
  simpa [applyChatTemplate] using htemplate

theorem live_flush {ext : Externals} {request : Request} {base rendered : List Message}
    {waiting : Waiting} {s t : Lowering} (hfamily : request.family = "gemma4")
    (hs : Live ext base s rendered waiting) (h : flush ext request s = .ok t) :
    Live ext base t (rendered ++ plainMessages waiting) [] := by
  obtain ⟨prompt, hprompt, h⟩ := ok_of_bind h
  cases h
  have hledger : s.inputLedger.map (inputMessage ext) =
      rendered ++ plainMessages waiting ++ plainMessages [] := by
    simp [hs.ledger, plainMessages]
  unfold flushResponseMessages at hprompt
  rw [hfamily, hs.pending] at hprompt
  cases waiting with
  | nil =>
    cases hprompt
    have hsame : rendered ++ plainMessages [] = rendered := List.append_nil _
    refine ⟨rfl, hledger, ?_, ?_⟩
    · rw [hsame]
      exact hs.begun
    · rw [hsame]
      exact hs.prompt
  | cons message rest =>
    obtain ⟨text, htext, happend⟩ := ok_of_bind hprompt
    obtain ⟨hbegun, hclean⟩ := live_append hs.begun hs.prompt (of_lowerMessages htext) happend
    refine ⟨rfl, hledger, ?_, ?_⟩
    · rw [← List.append_assoc]
      exact Or.inr hbegun
    · rw [← List.append_assoc]
      exact hclean

theorem live_item {ext : Externals} {service : ResponseService} {request : Request}
    {base rendered : List Message} {waiting : Waiting} {s t : Lowering}
    {item : ResponsesInputItem} (hfamily : request.family = "gemma4")
    (hs : Live ext base s rendered waiting)
    (h : lowerItem ext service request s item = .ok t) :
    ∃ more later, Live ext base t more later := by
  cases item with
  | message role content =>
    cases h
    refine ⟨rendered, waiting ++ [(role, content)], ?_, ?_, hs.begun, hs.prompt⟩
    · simp [hs.pending, chatMessages]
    · simp [hs.ledger, plainMessages, inputMessage]
  | functionCall callId name arguments =>
    obtain ⟨u, hu, h⟩ := ok_of_bind h
    obtain ⟨prompt, hprompt, h⟩ := ok_of_bind h
    have hu := live_flush hfamily hs hu
    cases h
    refine ⟨rendered ++ plainMessages waiting ++ [⟨"assistant", ext.callJson name arguments⟩], [],
      hu.pending, ?_, ?_, ?_⟩
    · simp [hu.ledger, plainMessages, inputMessage]
    · rw [← List.append_assoc]
      rcases hu.begun with hnil | hbegun
      · rw [hnil]
        exact Or.inr (by simp [absorb, takeSystem])
      · rw [absorb_append _ _ hbegun]
        exact Or.inr (by simp)
    · intro hclean
      rw [← List.append_assoc] at hclean ⊢
      have hlive := hu.prompt hclean.of_append
      rw [hfamily, hlive] at hprompt
      rcases hu.begun with hnil | hbegun
      · -- nothing is rendered yet, so there is no generation prompt to append to
        rw [hnil] at hprompt
        cases hprompt
      · rw [livePrompt_of_begun hbegun, appendAssistantContent_render] at hprompt
        have hdone := absorb_append _ [⟨"assistant", ext.callJson name arguments⟩] hbegun
        have hne : absorb (base ++ (rendered ++ plainMessages waiting) ++
            [⟨"assistant", ext.callJson name arguments⟩]) ≠ [] := by
          rw [hdone]
          simp
        rw [livePrompt_of_begun hne, hdone]
        exact (Except.ok.inj hprompt).symm
  | functionCallOutput callId output =>
    obtain ⟨u, hu, h⟩ := ok_of_bind h
    obtain ⟨known, _, h⟩ := ok_of_bind h
    obtain ⟨_, h⟩ := ok_of_ite h
    obtain ⟨text, htext, h⟩ := ok_of_bind h
    obtain ⟨prompt, hprompt, h⟩ := ok_of_bind h
    have hu := live_flush hfamily hs hu
    cases h
    rw [hfamily] at htext hprompt
    have hgemma : gemma4 [⟨"user", toolResult callId output⟩] = .ok text :=
      @of_lowerMessages ext [("user", .text (toolResult callId output))] text htext
    obtain ⟨hbegun, hclean⟩ := live_append hu.begun hu.prompt hgemma hprompt
    refine ⟨rendered ++ plainMessages waiting ++ [⟨"user", toolResult callId output⟩], [],
      hu.pending, ?_, ?_, ?_⟩
    · simp [hu.ledger, plainMessages, inputMessage]
    · rw [← List.append_assoc]
      exact Or.inr hbegun
    · rw [← List.append_assoc]
      exact hclean

theorem live_items {ext : Externals} {service : ResponseService} {request : Request}
    {base : List Message} (hfamily : request.family = "gemma4") (items : List ResponsesInputItem)
    (s t : Lowering) (rendered : List Message) (waiting : Waiting)
    (hs : Live ext base s rendered waiting)
    (h : lowerItems ext service request s items = .ok t) :
    Live ext base t (t.inputLedger.map (inputMessage ext)) [] := by
  induction items generalizing s rendered waiting with
  | nil =>
    have ht := live_flush hfamily hs h
    have hledger : t.inputLedger.map (inputMessage ext) = rendered ++ plainMessages waiting := by
      simpa [plainMessages] using ht.ledger
    rw [hledger]
    exact ht
  | cons item rest ih =>
    obtain ⟨u, hu, h⟩ := ok_of_bind h
    obtain ⟨more, later, hmore⟩ := live_item hfamily hs hu
    exact ih u more later hmore h

/-- The prompt of a request is the rendering of everything before it and of its items. -/
theorem live_input {ext : Externals} {service : ResponseService} {request : Request}
    {base : List Message} {prompt : Content} {input : ResponsesInput} {t : Lowering}
    (hfamily : request.family = "gemma4") (hbegun : base = [] ∨ absorb base ≠ [])
    (hprompt : Clean base → prompt = livePrompt base)
    (h : lowerInput ext service request prompt input = .ok t)
    (hclean : Clean (base ++ t.inputLedger.map (inputMessage ext))) :
    t.prompt = livePrompt (base ++ t.inputLedger.map (inputMessage ext)) := by
  cases input with
  | text text =>
    obtain ⟨rendered, hrendered, h⟩ := ok_of_bind h
    obtain ⟨_, happend, h⟩ := ok_of_bind h
    cases h
    rw [hfamily] at hrendered happend
    have hgemma : gemma4 [⟨"user", text⟩] = .ok rendered :=
      @of_lowerMessages ext [("user", .text text)] rendered hrendered
    exact (live_append hbegun hprompt hgemma happend).2 hclean
  | items items =>
    have hs : Live ext base ⟨prompt, [], [], []⟩ [] [] := by
      refine ⟨rfl, rfl, ?_, ?_⟩
      · rw [List.append_nil]
        exact hbegun
      · rw [List.append_nil]
        exact hprompt
    exact (live_items hfamily items _ t [] [] hs h).prompt hclean

/-- What a message adds to the length of a rendering. -/
def weight (message : Message) : ℕ :=
  if message.role = "system" then message.content.length + 2 else (messageTurn message).length

def weights (messages : List Message) : ℕ := (messages.map weight).sum

theorem weights_append (a b : List Message) : weights (a ++ b) = weights a + weights b := by
  simp [weights]

theorem length_around (a b c d e : Content) :
    (a ++ b ++ c ++ d ++ e).length = (a ++ b ++ c ++ [] ++ e).length + d.length := by
  simp only [List.length_append, List.length_nil]
  omega

theorem length_messageTurn (role : String) (content : Content) :
    (messageTurn ⟨role, content⟩).length = (messageTurn ⟨role, []⟩).length + content.length :=
  length_around _ _ _ _ _

theorem two_le_around (a b c d e : Content) (ha : 1 ≤ a.length) (hc : 1 ≤ c.length) :
    2 ≤ (a ++ b ++ c ++ d ++ e).length := by
  simp only [List.length_append]
  omega

theorem two_le_messageTurn (role : String) : 2 ≤ (messageTurn ⟨role, []⟩).length :=
  two_le_around _ _ _ _ _ (by decide) (by decide)

theorem length_joined (a b : Content) : (joined a b).length ≤ a.length + b.length + 1 := by
  unfold joined
  split
  · simp only [List.length_append, List.length_singleton]
    omega
  · simp only [List.length_append]
    omega

theorem weight_joined (role : String) (a b : Content) :
    weight ⟨role, joined a b⟩ < weight ⟨role, a⟩ + weight ⟨role, b⟩ := by
  have hjoined := length_joined a b
  have hturn := two_le_messageTurn role
  by_cases hsystem : role = "system"
  · simp only [weight, hsystem, if_true]
    omega
  · simp only [weight, hsystem, if_false, length_messageTurn role (joined a b),
      length_messageTurn role a, length_messageTurn role b]
    omega

theorem weights_mergeMessage (normalized : List Message) (message : Message) :
    mergeMessage normalized message = normalized ++ [message] ∨
      weights (mergeMessage normalized message) < weights (normalized ++ [message]) := by
  rcases List.eq_nil_or_concat normalized with rfl | ⟨before, previous, rfl⟩
  · exact Or.inl rfl
  · rw [List.concat_eq_append]
    by_cases hrole : previous.role = message.role
    · right
      have hmerge : mergeMessage (before ++ [previous]) message =
          before ++ [⟨previous.role, joined previous.content message.content⟩] := by
        simp [mergeMessage, hrole]
      have hlt := weight_joined previous.role previous.content message.content
      have hmessage : weight ⟨previous.role, message.content⟩ = weight message := by rw [hrole]
      have hprevious : weight ⟨previous.role, previous.content⟩ = weight previous := rfl
      rw [hmerge, weights_append, weights_append, weights_append]
      simp only [weights, List.map_singleton, List.sum_singleton]
      omega
    · left
      simp [mergeMessage, hrole]

/-- Merging keeps a list of messages or makes it lighter. -/
theorem weights_foldl (messages normalized : List Message) :
    messages.foldl mergeMessage normalized = normalized ++ messages ∨
      weights (messages.foldl mergeMessage normalized) < weights (normalized ++ messages) := by
  induction messages generalizing normalized with
  | nil => simp
  | cons message rest ih =>
    have hsplit : normalized ++ message :: rest = normalized ++ [message] ++ rest := by simp
    rw [List.foldl_cons, hsplit]
    rcases weights_mergeMessage normalized message with hpush | hlt
    · rw [hpush]
      exact ih (normalized ++ [message])
    · right
      have hrest := ih (mergeMessage normalized message)
      rw [weights_append] at hrest ⊢
      rcases hrest with heq | hrest
      · rw [heq, weights_append]
        omega
      · omega

theorem length_render (messages : List Message) (h : ∀ m ∈ messages, m.role ≠ "system") :
    (render messages).length = weights messages + generationPrompt.length := by
  induction messages with
  | nil => simp [render, weights]
  | cons first rest ih =>
    have hfirst : weight first = (messageTurn first).length := by
      simp [weight, h first List.mem_cons_self]
    have hrest := ih (fun m hm => h m (List.mem_cons_of_mem _ hm))
    have hrender : render (first :: rest) = messageTurn first ++ render rest := by simp [render]
    rw [hrender, List.length_append, hrest]
    simp only [weights, List.map_cons, List.sum_cons, hfirst]
    omega

theorem length_render_absorb (messages : List Message) (hclean : Clean messages)
    (h : absorb messages ≠ []) :
    (render (absorb messages)).length = weights messages + generationPrompt.length := by
  cases messages with
  | nil => exact absurd rfl h
  | cons first rest =>
    by_cases hrole : first.role = "system"
    · cases rest with
      | nil => simp [absorb, takeSystem, hrole] at h
      | cons second later =>
        have hnone : ∀ m ∈ second :: later, m.role ≠ "system" := hclean
        have hsecond : second.role ≠ "system" := hnone second List.mem_cons_self
        have habsorb : absorb (first :: second :: later) =
            ⟨second.role, first.content ++ "\n\n".toList ++ second.content⟩ :: later := by
          simp [absorb, takeSystem, hrole, withSystem]
        have hnone' : ∀ m ∈ (⟨second.role, first.content ++ "\n\n".toList ++ second.content⟩ :
            Message) :: later, m.role ≠ "system" := by
          intro m hm
          rcases List.mem_cons.mp hm with rfl | hm
          · exact hsecond
          · exact hnone m (List.mem_cons_of_mem _ hm)
        have htwo : ("\n\n".toList).length = 2 := by decide
        rw [habsorb, length_render _ hnone']
        simp only [weights, List.map_cons, List.sum_cons, weight, hrole, hsecond, if_true, if_false,
          length_messageTurn second.role (first.content ++ _ ++ _),
          length_messageTurn second.role second.content, List.length_append, htwo]
        omega
    · have hnone : ∀ m ∈ first :: rest, m.role ≠ "system" := by
        intro m hm
        rcases List.mem_cons.mp hm with rfl | hm
        · exact hrole
        · exact hclean m hm
      rw [absorb_of_no_system _ hnone, length_render _ hnone]

end Cusco.LiveRendering
