import Cusco.LiveRendering
import Cusco.Replay

/-!
The prompt that a response was generated from against the prompt of its lineage. Both list
the same messages; the live prompt gives every message a turn, while a replay merges
neighbours of one role. They agree exactly when the response can be replayed and no
message has the role of the message before it.
-/

namespace Cusco.ReplayPrompts

open Calls Prompt Conversations LoweredRequests LiveRendering Replay Runs
open Responses (saturatingIncrement)

variable {service : ResponseService}

/-- Every stored response has an output. -/
def Answered (service : ResponseService) : Prop :=
  ∀ id resource, service.stored.lookup id = some resource → resource.output ≠ []

theorem Answered.put {resource : ResponseResource} (h : Answered service)
    (houtput : resource.output ≠ []) : Answered (service.put resource) := by
  intro id r hr
  rw [lookup_put] at hr
  by_cases hid : id = resource.id
  · rw [if_pos hid] at hr
    cases hr
    exact houtput
  · rw [if_neg hid] at hr
    exact h id r hr

theorem foldOutput_ne_nil (items : List ResponseInputItem) (hne : items ≠ [])
    (hmessages : ∀ item ∈ items, isMessage item = true) : items.flatMap foldOutput ≠ [] := by
  cases items with
  | nil => exact absurd rfl hne
  | cons item rest =>
    have hitem := hmessages item List.mem_cons_self
    cases item with
    | message role text => simp [foldOutput]
    | functionCallOutput _ _ => cases hitem
    | functionCall _ _ _ => cases hitem

theorem answered_of_apply {service t : ResponseService} {owner id : String}
    {request : ContextUpdateRequest} {control : RequestControl} (hs : Answered service)
    (hsound : Sound service) (h : apply service owner id request control = .ok t) :
    Answered t := by
  obtain ⟨base, lineage, _, _, rfl, _⟩ := of_apply hsound h
  obtain ⟨_, h⟩ := ok_of_ite h
  obtain ⟨hempty, h⟩ := ok_of_ite h
  obtain ⟨hmessages, _⟩ := ok_of_ite h
  apply hs.put
  apply foldOutput_ne_nil
  · simpa using hempty
  · intro item hitem
    by_contra hnot
    exact hmessages (List.any_eq_true.mpr ⟨item, hitem, by simpa using hnot⟩)

theorem answered_orSame {result : Except Error ResponseService} (hs : Answered service)
    (h : ∀ t, result = .ok t → Answered t) : Answered (service.orSame result) := by
  cases result with
  | error e => exact hs
  | ok t => exact h t rfl

theorem answered_step (ext : Externals) (s : State) (a : Action) (s' : State)
    (hs : Invariant s ∧ Answered s.service) (h : Step ext s a s') :
    Invariant s' ∧ Answered s'.service := by
  refine ⟨invariant_step ext s a s' hs.1 h, ?_⟩
  rcases step_cases h with ⟨_, _, _, hservice, _⟩ | ⟨_, _, _, _, _, _, _, rfl⟩ | ⟨_, _, rfl⟩ |
    ⟨_, _, _, _, _, _, rfl⟩
  · rw [hservice]
    exact hs.2
  · refine answered_orSame hs.2 ?_
    intro t ht
    rcases remember_cases ht with ⟨_, kept, rfl, _⟩ | ⟨_, rfl⟩
    · exact hs.2
    · exact hs.2.put (List.cons_ne_nil _ _)
  · exact hs.2
  · exact answered_orSame hs.2 (fun t ht => answered_of_apply hs.2 hs.1.sound ht)

theorem foldl_mergeMessage_eq (messages normalized : List Message)
    (h : Alternating (normalized ++ messages)) :
    messages.foldl mergeMessage normalized = normalized ++ messages := by
  induction messages generalizing normalized with
  | nil => simp
  | cons message rest ih =>
    have hsplit : normalized ++ message :: rest = normalized ++ [message] ++ rest := by simp
    rw [hsplit] at h ⊢
    rw [List.foldl_cons]
    have hpush : mergeMessage normalized message = normalized ++ [message] := by
      rcases roles_mergeMessage normalized message with ⟨_, before, hbefore⟩ | ⟨hpush, _⟩
      · unfold Alternating at h
        rw [roles_append, roles_append, hbefore, List.append_assoc, List.append_assoc] at h
        have hpair := (List.isChain_append.mp h).2.1
        simp [roles] at hpair
      · exact hpush
    rw [hpush]
    exact ih (normalized ++ [message]) h

theorem normalize_append (a b : List Message) :
    normalizeResponseMessages (a ++ b) = b.foldl mergeMessage (normalizeResponseMessages a) :=
  List.foldl_append

theorem getLast_mergeMessage (normalized : List Message) (message : Message) :
    (roles (mergeMessage normalized message)).getLast? = some message.role := by
  rcases roles_mergeMessage normalized message with ⟨hroles, before, hbefore⟩ | ⟨hpush, _⟩
  · rw [hroles, hbefore]
    simp
  · rw [hpush]
    simp [roles]

theorem getLast_normalize (messages : List Message) (last : Message) :
    (roles (normalizeResponseMessages (messages ++ [last]))).getLast? = some last.role := by
  rw [normalize_append]
  exact getLast_mergeMessage _ last

def lineageMessages (ext : Externals) (lineage : List ResponseResource) : List Message :=
  lineage.reverse.flatMap (resourceMessages ext)

/-- A lineage ends with what the model or an update has answered. -/
theorem getLast_lineage (ext : Externals) {base : ResponseResource}
    {lineage : List ResponseResource} (h : Lineage service base lineage)
    (houtput : base.output ≠ []) :
    (roles (normalizeResponseMessages (lineageMessages ext lineage))).getLast? =
      some "assistant" := by
  obtain ⟨before, last, hlast⟩ : ∃ before last, base.output = before ++ [last] := by
    rcases List.eq_nil_or_concat base.output with hnil | ⟨before, last, heq⟩
    · exact absurd hnil houtput
    · exact ⟨before, last, by rw [heq, List.concat_eq_append]⟩
  obtain ⟨older, rfl⟩ : ∃ older, lineage = base :: older := by
    cases h with
    | root => exact ⟨[], rfl⟩
    | next => exact ⟨_, rfl⟩
  have hsplit : lineageMessages ext (base :: older) =
      lineageMessages ext older ++ base.input.map (inputMessage ext) ++
        before.map (outputMessage ext) ++ [outputMessage ext last] := by
    simp [lineageMessages, resourceMessages, hlast]
  rw [hsplit, getLast_normalize, outputMessage_role]

theorem clean_of_after {messages : List Message} (hbegins : Begins (roles messages))
    (hsupported : ∀ role ∈ roles messages, supported role)
    (h : Phase.after (roles messages) = .dialogue) : Clean messages := by
  have htail := (after_of_begins hbegins hsupported).mp h
  intro message hmem
  refine htail message.role ?_
  unfold roles
  rw [← List.map_tail]
  exact List.mem_map_of_mem hmem

theorem absorb_of_begins {messages : List Message} (h : Begins (roles messages)) :
    absorb messages ≠ [] := by
  cases messages with
  | nil => simp [Begins, roles] at h
  | cons first rest =>
    by_cases hrole : first.role = "system"
    · cases rest with
      | nil => simp [Begins, roles, hrole] at h
      | cons second later => simp [absorb, takeSystem, hrole]
    · simp [absorb, takeSystem, hrole]

theorem after_foldl (messages normalized : List Message) :
    Phase.after (roles (messages.foldl mergeMessage normalized)) =
      Phase.after (roles (normalized ++ messages)) := by
  rw [foldl_mergeMessage, roles_append, Phase.after_append]

theorem alternating_foldl (messages normalized : List Message) (h : Alternating normalized) :
    Alternating (messages.foldl mergeMessage normalized) := by
  induction messages generalizing normalized with
  | nil => exact h
  | cons message rest ih => exact ih _ (alternating_mergeMessage normalized message h)

/-- The merged conversation and one more answer render to the prompt and the answer
exactly when they make a dialogue in which nothing is merged. -/
theorem gemma4_merged_iff (base items : List Message) (text : Content)
    (hbase : Alternating base)
    (hbegins : base ++ items = [] ∨ Begins (roles (base ++ items)))
    (hsupported : ∀ role ∈ roles (base ++ items), supported role) (prompt : Content)
    (hprompt : Clean (base ++ items) → prompt = livePrompt (base ++ items)) :
    gemma4 (List.foldl mergeMessage base (items ++ [⟨"assistant", text⟩])) =
        .ok (prompt ++ text ++ "<end_of_turn>\n".toList ++ generationPrompt) ↔
      Phase.after (roles (base ++ items ++ [⟨"assistant", text⟩])) = .dialogue ∧
        Alternating (base ++ items ++ [⟨"assistant", text⟩]) := by
  have hmerged := alternating_foldl (items ++ [⟨"assistant", text⟩]) base hbase
  have hgemma := gemma4_iff _ hmerged
  rw [after_foldl, ← List.append_assoc] at hgemma
  -- in a dialogue the live prompt is a rendering
  have hlive : Phase.after (roles (base ++ items ++ [⟨"assistant", text⟩])) = .dialogue →
      Clean (base ++ items ++ [⟨"assistant", text⟩]) ∧
        absorb (base ++ items ++ [⟨"assistant", text⟩]) ≠ [] ∧
        prompt ++ text ++ "<end_of_turn>\n".toList ++ generationPrompt =
          render (absorb (base ++ items ++ [⟨"assistant", text⟩])) := by
    intro hafter
    rcases hbegins with hnil | hbegins
    · rw [hnil] at hafter
      cases hafter
    · have habsorb := absorb_of_begins hbegins
      have hdone := absorb_append _ [⟨"assistant", text⟩] habsorb
      have hwhole : Begins (roles (base ++ items ++ [⟨"assistant", text⟩])) := by
        rw [roles_append]
        exact hbegins.append _
      have hclean : Clean (base ++ items ++ [⟨"assistant", text⟩]) := by
        refine clean_of_after hwhole ?_ hafter
        intro role hrole
        rw [roles_append] at hrole
        rcases List.mem_append.mp hrole with hrole | hrole
        · exact hsupported role hrole
        · rw [List.mem_singleton.mp hrole]
          exact Or.inr (Or.inr rfl)
      refine ⟨hclean, absorb_of_begins hwhole, ?_⟩
      rw [hprompt hclean.of_append, livePrompt_of_begun habsorb, hdone, render_assistant]
  constructor
  · intro h
    have hafter := hgemma.mp (by rw [h]; rfl)
    refine ⟨hafter, ?_⟩
    obtain ⟨hclean, hne, hrender⟩ := hlive hafter
    obtain ⟨htext, habsorb⟩ := of_gemma4 h
    have hmergedbegins := begins_of_gemma4 h
    have hmergedclean : Clean (List.foldl mergeMessage base (items ++ [⟨"assistant", text⟩])) := by
      refine clean_of_after hmergedbegins.1 hmergedbegins.2 ?_
      rw [after_foldl, ← List.append_assoc]
      exact hafter
    have hlength := congrArg List.length (hrender.symm.trans htext)
    rw [length_render_absorb _ hclean hne, length_render_absorb _ hmergedclean habsorb,
      List.append_assoc] at hlength
    rcases weights_foldl (items ++ [⟨"assistant", text⟩]) base with heq | hlt
    · rw [List.append_assoc, ← heq]
      exact hmerged
    · omega
  · intro h
    obtain ⟨hafter, halternating⟩ := h
    obtain ⟨_, _, hrender⟩ := hlive hafter
    rw [List.append_assoc] at halternating
    have hfold := foldl_mergeMessage_eq (items ++ [⟨"assistant", text⟩]) base halternating
    have hok := hgemma.mpr hafter
    rw [hfold, ← List.append_assoc] at hok ⊢
    cases hresult : gemma4 (base ++ items ++ [⟨"assistant", text⟩]) with
    | error e =>
      rw [hresult] at hok
      cases hok
    | ok result => rw [(of_gemma4 hresult).1, hrender]

/-- What comes before a request: nothing, or the merged lineage of its predecessor, which
the request was accepted with. -/
inductive Base (ext : Externals) (service : ResponseService) (previous : Option String) :
    List Message → Prop
  | root (hprevious : previous = none) : Base ext service previous []
  | next {id : String} {resource : ResponseResource} {lineage : List ResponseResource}
      (hprevious : previous = some id) (hlookup : service.stored.lookup id = some resource)
      (hlineage : Lineage service resource lineage)
      (hlength : lineage.length ≤ lineageLimit)
      (hgemma : (gemma4 (normalizeResponseMessages (lineageMessages ext lineage))).isOk = true) :
      Base ext service previous (normalizeResponseMessages (lineageMessages ext lineage))

theorem Base.mono {ext : Externals} {service changed : ResponseService}
    {previous : Option String} {base : List Message} (h : Base ext service previous base)
    (hkept : ∀ id r, service.stored.lookup id = some r → changed.stored.lookup id = some r) :
    Base ext changed previous base := by
  cases h with
  | root hprevious => exact .root hprevious
  | next hprevious hlookup hlineage hlength hgemma =>
    exact .next hprevious (hkept _ _ hlookup) (hlineage.mono hkept) hlength hgemma

theorem Base.alternating {ext : Externals} {previous : Option String} {base : List Message}
    (h : Base ext service previous base) : Alternating base := by
  cases h with
  | root hprevious => exact .nil
  | next => exact alternating_normalize _

theorem Base.begins {ext : Externals} {previous : Option String} {base : List Message}
    (h : Base ext service previous base) :
    (previous = none ∧ base = []) ∨
      (Begins (roles base) ∧ ∀ role ∈ roles base, supported role) := by
  cases h with
  | root hprevious => exact Or.inl ⟨hprevious, rfl⟩
  | @next _ _ lineage _ _ _ _ hgemma =>
    cases hresult : gemma4 (normalizeResponseMessages (lineageMessages ext lineage)) with
    | error e =>
      rw [hresult] at hgemma
      cases hgemma
    | ok prompt => exact Or.inr (begins_of_gemma4 hresult)

/-- The prompt of an accepted request without tools. -/
theorem live_of_responses {ext : Externals} {owner : String} {request : ResponsesRequest}
    {options : ResponseRequestOptions} (hsound : Sound service) (htools : request.tools = [])
    (h : responses ext service owner "gemma4" request = .ok options) :
    options.principal = owner ∧ ∃ base, Base ext service options.previousResponseId base ∧
      (Clean (base ++ options.input.map (inputMessage ext)) →
        options.prompt = livePrompt (base ++ options.input.map (inputMessage ext))) := by
  obtain ⟨_, _, h⟩ := ok_of_bind h
  obtain ⟨start, hstart, h⟩ := ok_of_bind h
  obtain ⟨lowered, hlowered, h⟩ := ok_of_bind h
  obtain ⟨prompt, hprompt, h⟩ := ok_of_bind h
  have hsame : prompt = lowered.prompt := by
    rw [htools] at hprompt
    exact (Except.ok.inj hprompt).symm
  subst hsame
  cases h
  obtain ⟨hroot, hnext⟩ := of_continued hsound hstart
  refine ⟨rfl, ?_⟩
  cases hprevious : request.previousResponseId with
  | none =>
    refine ⟨[], .root rfl, ?_⟩
    refine live_input rfl (Or.inl rfl) ?_ hlowered
    intro _
    rw [hroot hprevious]
    rfl
  | some id =>
    obtain ⟨base, hlookup, howner, _, hlineageprompt⟩ := hnext id hprevious
    obtain ⟨lineage, hlineage⟩ := hsound.lineage id base hlookup
    rw [← howner, hlineage.prompt hsound ext] at hlineageprompt
    obtain ⟨hlength, htemplate⟩ := ok_of_ite hlineageprompt
    have hgemma : gemma4 (normalizeResponseMessages (lineageMessages ext lineage)) =
        .ok start.1 := by simpa [applyChatTemplate, lineageMessages] using htemplate
    obtain ⟨hrender, habsorb⟩ := of_gemma4 hgemma
    refine ⟨_, .next rfl hlookup hlineage (by omega) (by rw [hgemma]; rfl), ?_⟩
    refine live_input rfl (Or.inr habsorb) ?_ hlowered
    intro _
    rw [livePrompt_of_begun habsorb]
    exact hrender

/-- No message of the request has the role of the message before it, nor has the answer. -/
def Interleaved (previous : Option String) (items : List ResponseInputItem) : Prop :=
  (previous.elim [] (fun _ => ["assistant"]) ++ items.map itemRole ++ ["assistant"]).IsChain
    (fun a b => a ≠ b)

theorem roles_inputMessages (ext : Externals) (items : List ResponseInputItem) :
    roles (items.map (inputMessage ext)) = items.map itemRole := by
  simp [roles, inputMessage_role]

theorem alternating_iff {ext : Externals} {previous : Option String} {base : List Message}
    (h : Base ext service previous base) (hanswered : Answered service)
    (items : List ResponseInputItem) (text : Content) :
    Alternating (base ++ items.map (inputMessage ext) ++ [⟨"assistant", text⟩]) ↔
      Interleaved previous items := by
  have hroles : roles (base ++ items.map (inputMessage ext) ++ [⟨"assistant", text⟩]) =
      roles base ++ (items.map itemRole ++ ["assistant"]) := by
    rw [roles_append, roles_append, roles_inputMessages, List.append_assoc]
    rfl
  unfold Alternating Interleaved
  rw [hroles, List.append_assoc]
  cases h with
  | root hprevious =>
    rw [hprevious]
    exact Iff.rfl
  | @next id resource lineage hprevious hlookup hlineage hlength hgemma =>
    have hlast := getLast_lineage ext hlineage (hanswered id resource hlookup)
    have hchain : (roles (normalizeResponseMessages (lineageMessages ext lineage))).IsChain
        (fun a b => a ≠ b) := alternating_normalize _
    rw [hprevious, List.isChain_append]
    simp only [hlast, Option.mem_def, Option.some.injEq, hchain, true_and, Option.elim_some,
      List.singleton_append, List.isChain_cons, forall_eq']
    exact and_comm

/-- The lineage of a completed response, as messages. -/
theorem messages_completed (ext : Externals) (options : ResponseRequestOptions) (id : String)
    (text : Content) (lineage : List ResponseResource) :
    lineageMessages ext (completedResource options id (.message [text]) :: lineage) =
      lineageMessages ext lineage ++
        (options.input.map (inputMessage ext) ++ [⟨"assistant", text⟩]) := by
  simp [lineageMessages, resourceMessages, completedResource, outputMessage]

theorem completed_of_base {ext : Externals} {options : ResponseRequestOptions} {base : List Message}
    (hsound : Sound service) (hprepared : Prepared service options)
    (hbase : Base ext service options.previousResponseId base) (id : String) (text : Content) :
    ∃ lineage, Lineage service (completedResource options id (.message [text])) lineage ∧
      normalizeResponseMessages (lineageMessages ext lineage) = List.foldl mergeMessage base
        (options.input.map (inputMessage ext) ++ [⟨"assistant", text⟩]) ∧
      ((lineage.length ≤ lineageLimit ∧ Phase.after (lineageRoles lineage) = .dialogue) ↔
        Continues service options.previousResponseId options.input) := by
  cases hbase with
  | root hprevious =>
    have hlowered := hprepared.lowered
    rw [hprevious] at hlowered ⊢
    refine ⟨[completedResource options id (.message [text])],
      .root hprevious (hprepared.root hprevious), ?_, ?_⟩
    · rw [messages_completed]
      rfl
    · have hroot : Phase.after (lineageRoles [completedResource options id (.message [text])]) =
          .dialogue ↔ Opens options.input := root_dialogue_iff (.message [text]) hlowered rfl
      have hone : [completedResource options id (.message [text])].length ≤ lineageLimit :=
        Nat.succ_le_succ (Nat.zero_le _)
      exact ⟨fun hboth => hroot.mp hboth.2, fun hopens => ⟨hone, hroot.mpr hopens⟩⟩
  | @next baseId resource lineage hprevious hlookup hlineage hlength hgemma =>
    obtain ⟨resource', hlookup', howner, hrevision⟩ := hprepared.next baseId hprevious
    rw [hlookup] at hlookup'
    cases hlookup'
    have hreplayable : Replayable ext service resource := by
      refine (hlineage.replayable_iff hsound ext).mpr ⟨hlength, ?_⟩
      rw [← roles_lineage ext, ← applyChatTemplate_normalize_iff]
      simpa [applyChatTemplate, lineageMessages] using hgemma
    refine ⟨completedResource options id (.message [text]) :: lineage,
      .next hprevious hlookup howner hrevision hlineage, ?_, ?_⟩
    · rw [messages_completed, normalize_append]
    · rw [next_dialogue_iff ext hsound hlineage hreplayable, hprevious]
      simp [Continues, hlookup, completedResource]

/-- The stored responses stay as they are. -/
def Keeps (s t : State) : Prop :=
  ∀ id r, s.service.stored.lookup id = some r → t.service.stored.lookup id = some r

theorem keeps_of_reaches {ext : Externals} {s t : State} (h : Reaches (Step ext) s t)
    (hs : Invariant s) : Keeps s t :=
  h.relation Invariant Keeps (invariant_step ext) (fun _ _ _ hr => hr)
    (fun _ _ _ hab hbc id r hr => hbc id r (hab id r hr))
    (fun _ _ _ hs hstep => (change_of_step hs hstep).kept) hs

/-- A response to an accepted request without tools is replayed as the prompt it was
generated from, followed by its text, exactly when it continues its lineage and no message
of the request, nor the answer, has the role of the message before it. -/
theorem replay_eq_live_iff (ext : Externals) (s t : State) (owner id : String)
    (request : ResponsesRequest) (options : ResponseRequestOptions) (text : Content)
    (service : ResponseService) (hs : Reaches (Step ext) State.initial s)
    (ht : Reaches (Step ext) s t) (htools : request.tools = [])
    (haccepted : responses ext s.service owner "gemma4" request = .ok options)
    (hfresh : t.service.fresh id = true)
    (hcommitted : completedResponse t.service options id (.message [text]) = .ok service) :
    responseLineagePrompt ext service (completedResource options id (.message [text])) owner
        "gemma4" =
      .ok (options.prompt ++ text ++ "<end_of_turn>\n".toList ++ generationPrompt) ↔
    Continues t.service options.previousResponseId options.input ∧
      Interleaved options.previousResponseId options.input := by
  obtain ⟨hinvs, hanswers⟩ := hs.invariant (fun s => Invariant s ∧ Answered s.service)
    (answered_step ext) ⟨invariant_initial, fun _ _ h => (nomatch h)⟩
  obtain ⟨hinvt, hanswert⟩ := ht.invariant (fun s => Invariant s ∧ Answered s.service)
    (answered_step ext) ⟨hinvs, hanswers⟩
  have hkeeps := keeps_of_reaches ht hinvs
  have hprepared := (prepared_of_responses hinvs.sound haccepted).mono hkeeps
  obtain ⟨rfl, base, hbases, hprompt⟩ := live_of_responses hinvs.sound htools haccepted
  have hbase := hbases.mono hkeeps
  obtain ⟨lineage, hlineage, hmerged, hcontinues⟩ :=
    completed_of_base hinvt.sound hprepared hbase id text
  have hchange := change_of_complete hprepared hinvt.sound hfresh hcommitted
  have hreplay := (hlineage.mono hchange.kept).prompt (hchange.sound hinvt.sound) ext
  change responseLineagePrompt ext service (completedResource options id (.message [text]))
    options.principal "gemma4" = _ at hreplay
  -- what the request adds begins as it should
  have hlowered := hprepared.lowered
  have hbegins : base ++ options.input.map (inputMessage ext) = [] ∨
      Begins (roles (base ++ options.input.map (inputMessage ext))) := by
    rw [roles_append, roles_inputMessages]
    rcases hbase.begins with ⟨hnone, hnil⟩ | ⟨hbegins, _⟩
    · rw [hnil]
      rcases hlowered.begins hnone with hempty | hbegins
      · rw [hempty]
        exact Or.inl rfl
      · exact Or.inr hbegins
    · exact Or.inr (hbegins.append _)
  have hsupported : ∀ role ∈ roles (base ++ options.input.map (inputMessage ext)),
      supported role := by
    intro role hrole
    rw [roles_append, roles_inputMessages] at hrole
    rcases List.mem_append.mp hrole with hrole | hrole
    · rcases hbase.begins with ⟨_, hnil⟩ | ⟨_, hsupported⟩
      · rw [hnil] at hrole
        cases hrole
      · exact hsupported role hrole
    · exact hlowered.supported role hrole
  have hiff := gemma4_merged_iff base (options.input.map (inputMessage ext)) text
    hbase.alternating hbegins hsupported options.prompt hprompt
  have hafter : Phase.after (roles (base ++ options.input.map (inputMessage ext) ++
      [⟨"assistant", text⟩])) = Phase.after (lineageRoles lineage) := by
    rw [List.append_assoc, ← after_foldl, ← hmerged, after_normalize, ← roles_lineage ext]
    rfl
  rw [hafter, alternating_iff hbase hanswert, ← hmerged] at hiff
  rw [hreplay, ← hcontinues]
  by_cases hlong : lineageLimit < lineage.length
  · rw [if_pos hlong]
    constructor
    · intro h
      cases h
    · intro h
      exact absurd h.1.1 (by omega)
  · have hshort : lineage.length ≤ lineageLimit := by omega
    have htemplate : applyChatTemplate "gemma4"
        (normalizeResponseMessages (lineage.reverse.flatMap (resourceMessages ext))) =
        gemma4 (normalizeResponseMessages (lineageMessages ext lineage)) := if_pos rfl
    rw [if_neg hlong, htemplate, hiff]
    simp only [hshort, true_and]

/-- A question and the given items after it. -/
def asking (items : List ResponsesInputItem) : ResponsesRequest :=
  ⟨"gemma", .items (.message "user" (.text "Time?".toList) :: items), true, none, [], none⟩

def oneCall : List ResponsesInputItem :=
  [.functionCall "c1" "clock".toList "\x7b\x7d".toList, .functionCallOutput "c1" "noon".toList]

def twoCalls : List ResponsesInputItem :=
  [.functionCall "c1" "clock".toList "\x7b\x7d".toList,
    .functionCall "c2" "zone".toList "\x7b\x7d".toList,
    .functionCallOutput "c1" "noon".toList, .functionCallOutput "c2" "UTC".toList]

theorem one_call_replayed : ∃ options service,
    responses sampleExternals State.initial.service "owner" "gemma4" (asking oneCall) =
      .ok options ∧
    completedResponse State.initial.service options "resp_0" (.message ["Noon.".toList]) =
      .ok service ∧
    responseLineagePrompt sampleExternals service
        (completedResource options "resp_0" (.message ["Noon.".toList])) "owner" "gemma4" =
      .ok (options.prompt ++ "Noon.".toList ++ "<end_of_turn>\n".toList ++ generationPrompt) := by
  have hrun : (responses sampleExternals State.initial.service "owner" "gemma4"
      (asking oneCall)).toOption.any (fun options => decide
        (options.previousResponseId = none ∧ options.input =
          [.message "user" "Time?".toList, .functionCall "c1" "clock".toList "\x7b\x7d".toList,
            .functionCallOutput "c1" "noon".toList] ∧ options.store = true)) = true := by
    decide +kernel
  obtain ⟨options, hoptions, hfields⟩ := (Option.any_eq_true _ _).mp hrun
  obtain ⟨hprevious, hinput, hstore⟩ := of_decide_eq_true hfields
  have haccepted := ok_of_toOption hoptions
  have hcommitted : completedResponse State.initial.service options "resp_0"
      (.message ["Noon.".toList]) = .ok (State.initial.service.put
        (completedResource options "resp_0" (.message ["Noon.".toList]))) := by
    simp [completedResponse, ResponseService.remember, completedResource, hprevious, hstore]
  refine ⟨options, _, haccepted, hcommitted, ?_⟩
  refine (replay_eq_live_iff sampleExternals State.initial State.initial "owner" "resp_0"
    (asking oneCall) options "Noon.".toList _ (Reaches.refl _ _) (Reaches.refl _ _) rfl haccepted
    rfl hcommitted).mpr ?_
  rw [hprevious, hinput]
  exact ⟨by decide, by simp [Interleaved, itemRole]⟩

/-- A replay merges the two calls, and the two results. -/
theorem two_calls_merged :
    ¬ ∀ (ext : Externals) (s t : State) (owner id : String) (request : ResponsesRequest)
      (options : ResponseRequestOptions) (text : Content) (service : ResponseService),
      Reaches (Step ext) State.initial s → Reaches (Step ext) s t → request.tools = [] →
      responses ext s.service owner "gemma4" request = .ok options →
      t.service.fresh id = true →
      completedResponse t.service options id (.message [text]) = .ok service →
      responseLineagePrompt ext service (completedResource options id (.message [text])) owner
          "gemma4" =
        .ok (options.prompt ++ text ++ "<end_of_turn>\n".toList ++ generationPrompt) := by
  intro hall
  have hrun : (responses sampleExternals State.initial.service "owner" "gemma4"
      (asking twoCalls)).toOption.any (fun options =>
        (completedResponse State.initial.service options "resp_0"
          (.message ["Noon.".toList])).toOption.any (fun service =>
            (responseLineagePrompt sampleExternals service
              (completedResource options "resp_0" (.message ["Noon.".toList])) "owner"
              "gemma4").toOption.any (fun prompt => decide (prompt ≠ options.prompt ++
                "Noon.".toList ++ "<end_of_turn>\n".toList ++ generationPrompt)))) = true := by
    decide +kernel
  obtain ⟨options, hoptions, hrest⟩ := (Option.any_eq_true _ _).mp hrun
  obtain ⟨service, hservice, hrest⟩ := (Option.any_eq_true _ _).mp hrest
  obtain ⟨prompt, hprompt, hne⟩ := (Option.any_eq_true _ _).mp hrest
  have hequal := hall sampleExternals State.initial State.initial "owner" "resp_0"
    (asking twoCalls) options "Noon.".toList service (Reaches.refl _ _) (Reaches.refl _ _) rfl
    (ok_of_toOption hoptions) rfl (ok_of_toOption hservice)
  rw [hequal] at hprompt
  exact of_decide_eq_true hne (Option.some.inj hprompt).symm

end Cusco.ReplayPrompts
