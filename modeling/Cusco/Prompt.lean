import Mathlib.Data.List.Chain
import Mathlib.Data.String.Basic
import Mathlib.Tactic.Common

/-!
The chat template of the Gemma family. Content is the list of its characters. A
conversation may start with one system message and then alternates between user and
assistant; before a stored lineage is rendered again, consecutive messages of one role
are merged. What the template accepts of a merged conversation depends only on the
phase that the roles lead to.
-/

namespace Cusco.Prompt

abbrev Content := List Char

inductive Error
  | badRequest (message : String)
  | state (message : String)
  | conflict (message : String)
  | contextNotFound
  | cancelled
  deriving DecidableEq

structure Message where
  role : String
  content : Content
  deriving DecidableEq

def generationPrompt : Content := "<start_of_turn>model\n".toList

def generationSuffix : Content := "<end_of_turn>\n<start_of_turn>model\n".toList

def unsupportedFamily (family : String) : Error :=
  .badRequest ("unsupported_capability: model family " ++ family ++ " has no chat template")

def turn (templateRole : String) (content : Content) : Content :=
  "<start_of_turn>".toList ++ templateRole.toList ++ ['\n'] ++ content ++
    "<end_of_turn>\n".toList

def expectedRole (index : ℕ) : String := if index % 2 = 0 then "user" else "assistant"

/-- The loop of the template over the messages that follow the system message. -/
def turns : ℕ → List Message → Except Error Content
  | _, [] => .ok generationPrompt
  | index, message :: rest =>
    if message.role = expectedRole index then
      (turns (index + 1) rest).map (fun later =>
        turn (if message.role = "assistant" then "model" else "user") message.content ++ later)
    else
      .error (.badRequest ("Gemma chat messages must alternate user and assistant roles; " ++
        "expected " ++ expectedRole index))

/-- A leading system message is taken out of the conversation. -/
def takeSystem : List Message → Option Content × List Message
  | [] => (none, [])
  | message :: rest =>
    if message.role = "system" then (some message.content, rest) else (none, message :: rest)

def withSystem (system : Option Content) (first : Message) : Message :=
  match system with
  | some text => { first with content := text ++ "\n\n".toList ++ first.content }
  | none => first

def gemma4 (messages : List Message) : Except Error Content :=
  if messages.isEmpty then .error (.badRequest "messages must not be empty")
  else if (takeSystem messages).2.any (fun message => message.role = "system") then
    .error (.badRequest "system messages are accepted only in the first position")
  else
    match (takeSystem messages).2 with
    | [] => .error (.badRequest "Gemma chat must begin with a user message")
    | first :: later =>
      if first.role = "user" then
        turns 0 (withSystem (takeSystem messages).1 first :: later)
      else .error (.badRequest "Gemma chat must begin with a user message")

def applyChatTemplate (family : String) (messages : List Message) : Except Error Content :=
  if family = "gemma4" then gemma4 messages else .error (unsupportedFamily family)

/-- The continuation replaces the generation prompt that the text ends in. -/
def appendRendered (family : String) (prompt continuation : Content) : Except Error Content :=
  if prompt.isEmpty then .ok continuation
  else if family = "gemma4" then
    if generationPrompt.isSuffixOf prompt then
      .ok (prompt.take (prompt.length - generationPrompt.length) ++ continuation)
    else .error (.state "rendered Gemma conversation lacks its generation prompt")
  else .error (unsupportedFamily family)

def appendAssistantContent (family : String) (prompt content : Content) :
    Except Error Content :=
  if family = "gemma4" then
    if generationPrompt.isSuffixOf prompt then
      .ok (prompt ++ content ++ "<end_of_turn>\n".toList ++ generationPrompt)
    else .error (.state "rendered Gemma conversation lacks its generation prompt")
  else .error (unsupportedFamily family)

/-- `str::rfind`: the position of the last occurrence. -/
def rfind (pattern : Content) : Content → Option ℕ
  | [] => if pattern.isEmpty then some 0 else none
  | c :: rest =>
    match rfind pattern rest with
    | some position => some (position + 1)
    | none => if pattern.isPrefixOf (c :: rest) then some 0 else none

def insertGenerationInstructions (family : String) (prompt instructions : Content) :
    Except Error Content :=
  if family = "gemma4" then
    match rfind generationSuffix prompt with
    | some position => .ok (prompt.take position ++ instructions ++ prompt.drop position)
    | none => .error (.state "rendered Gemma conversation lacks its generation suffix")
  else .error (unsupportedFamily family)

def joined (previous message : Content) : Content :=
  if !previous.isEmpty && !message.isEmpty then previous ++ ['\n'] ++ message
  else previous ++ message

/-- One message is merged into the last one if it has the same role. -/
def mergeMessage (normalized : List Message) (message : Message) : List Message :=
  match normalized.getLast? with
  | none => normalized ++ [message]
  | some previous =>
    if previous.role = message.role then
      normalized.dropLast ++ [{ previous with content := joined previous.content message.content }]
    else normalized ++ [message]

def normalizeResponseMessages (messages : List Message) : List Message :=
  messages.foldl mergeMessage []

/-- Before the first user message, after it, or past a role that has no place. -/
inductive Phase
  | opening
  | dialogue
  | refused
  deriving DecidableEq

namespace Phase

def next : Phase → String → Phase
  | opening, role =>
    if role = "system" then opening else if role = "user" then dialogue else refused
  | dialogue, role => if role = "user" ∨ role = "assistant" then dialogue else refused
  | refused, _ => refused

def after (roles : List String) : Phase := roles.foldl next opening

theorem next_next (p : Phase) (role : String) : (p.next role).next role = p.next role := by
  cases p with
  | opening =>
    by_cases hsystem : role = "system"
    · simp [next, hsystem]
    · by_cases huser : role = "user"
      · simp [next, huser]
      · simp [next, hsystem, huser]
  | dialogue =>
    by_cases h : role = "user" ∨ role = "assistant"
    · simp [next, h]
    · simp [next, h]
  | refused => rfl

theorem after_append (a b : List String) : after (a ++ b) = b.foldl next (after a) :=
  List.foldl_append

theorem foldl_refused (roles : List String) : roles.foldl next refused = refused := by
  induction roles with
  | nil => rfl
  | cons role rest ih => exact ih

/-- A dialogue goes on exactly when users and assistants take part in it. -/
theorem foldl_dialogue_iff (roles : List String) :
    roles.foldl next dialogue = dialogue ↔ ∀ role ∈ roles, role = "user" ∨ role = "assistant" := by
  induction roles with
  | nil => simp
  | cons role rest ih =>
    rw [List.foldl_cons, List.forall_mem_cons, ← ih]
    by_cases h : role = "user" ∨ role = "assistant"
    · simp [next, h]
    · simp [next, h, foldl_refused]

theorem after_append_iff (a b : List String) (h : after a = dialogue) :
    after (a ++ b) = dialogue ↔ ∀ role ∈ b, role = "user" ∨ role = "assistant" := by
  rw [after_append, h, foldl_dialogue_iff]

end Phase

def roles (messages : List Message) : List String := messages.map (fun message => message.role)

@[simp] theorem roles_append (a b : List Message) : roles (a ++ b) = roles a ++ roles b :=
  List.map_append

theorem roles_mergeMessage (normalized : List Message) (message : Message) :
    (roles (mergeMessage normalized message) = roles normalized ∧
      ∃ before, roles normalized = before ++ [message.role]) ∨
    (mergeMessage normalized message = normalized ++ [message] ∧
      ∀ previous ∈ normalized.getLast?, previous.role ≠ message.role) := by
  rcases List.eq_nil_or_concat normalized with rfl | ⟨before, previous, rfl⟩
  · exact Or.inr ⟨rfl, by simp⟩
  · by_cases hrole : previous.role = message.role
    · refine Or.inl ⟨?_, roles before, ?_⟩
      · simp [mergeMessage, hrole, roles]
      · simp [roles, hrole]
    · refine Or.inr ⟨by simp [mergeMessage, hrole], ?_⟩
      simpa using hrole

theorem after_mergeMessage (normalized : List Message) (message : Message) :
    Phase.after (roles (mergeMessage normalized message)) =
      (Phase.after (roles normalized)).next message.role := by
  rcases roles_mergeMessage normalized message with ⟨hroles, before, hbefore⟩ | ⟨hpush, _⟩
  · rw [hroles, hbefore, Phase.after_append]
    exact (Phase.next_next _ _).symm
  · rw [hpush, roles_append, Phase.after_append]
    rfl

theorem foldl_mergeMessage (messages normalized : List Message) :
    Phase.after (roles (messages.foldl mergeMessage normalized)) =
      (roles messages).foldl Phase.next (Phase.after (roles normalized)) := by
  induction messages generalizing normalized with
  | nil => rfl
  | cons message rest ih =>
    rw [List.foldl_cons, ih, after_mergeMessage]
    rfl

theorem after_normalize (messages : List Message) :
    Phase.after (roles (normalizeResponseMessages messages)) = Phase.after (roles messages) :=
  foldl_mergeMessage messages []

/-- No message has the role of the one before it. -/
def Alternating (messages : List Message) : Prop :=
  (roles messages).IsChain (fun a b => a ≠ b)

theorem alternating_mergeMessage (normalized : List Message) (message : Message)
    (h : Alternating normalized) : Alternating (mergeMessage normalized message) := by
  unfold Alternating at h ⊢
  rcases roles_mergeMessage normalized message with ⟨hroles, _⟩ | ⟨hpush, hlast⟩
  · rw [hroles]
    exact h
  · rw [hpush, roles_append]
    refine List.IsChain.append h (List.IsChain.singleton _) ?_
    intro a ha b hb
    obtain ⟨previous, hprevious, rfl⟩ : ∃ previous, normalized.getLast? = some previous ∧
        previous.role = a := by simpa [roles] using ha
    have hb' : message.role = b := by simpa [roles] using hb
    rw [← hb']
    exact hlast previous hprevious

theorem alternating_normalize (messages : List Message) :
    Alternating (normalizeResponseMessages messages) := by
  suffices h : ∀ normalized, Alternating normalized →
      Alternating (messages.foldl mergeMessage normalized) from h [] List.IsChain.nil
  induction messages with
  | nil => exact fun _ h => h
  | cons message rest ih =>
    intro normalized h
    exact ih (mergeMessage normalized message) (alternating_mergeMessage normalized message h)

theorem expectedRole_cases (index : ℕ) :
    (expectedRole index = "user" ∧ expectedRole (index + 1) = "assistant") ∨
      (expectedRole index = "assistant" ∧ expectedRole (index + 1) = "user") := by
  unfold expectedRole
  by_cases h : index % 2 = 0
  · have hnext : (index + 1) % 2 ≠ 0 := by omega
    simp [h, hnext]
  · have hnext : (index + 1) % 2 = 0 := by omega
    simp [h, hnext]

theorem dialogue_of_turns (index : ℕ) (messages : List Message) (prompt : Content)
    (h : turns index messages = .ok prompt) :
    ∀ role ∈ roles messages, role = "user" ∨ role = "assistant" := by
  induction messages generalizing index prompt with
  | nil => simp [roles]
  | cons message rest ih =>
    unfold turns at h
    by_cases hrole : message.role = expectedRole index
    · rw [if_pos hrole] at h
      cases hrest : turns (index + 1) rest with
      | error e =>
        rw [hrest] at h
        cases h
      | ok later =>
        intro role hmem
        rcases List.mem_cons.mp hmem with rfl | hmem
        · rcases expectedRole_cases index with ⟨hexpected, _⟩ | ⟨hexpected, _⟩
          · exact Or.inl (hrole.trans hexpected)
          · exact Or.inr (hrole.trans hexpected)
        · exact ih (index + 1) later hrest role hmem
    · rw [if_neg hrole] at h
      cases h

theorem turns_of_dialogue (index : ℕ) (messages : List Message)
    (hchain : Alternating messages)
    (hdialogue : ∀ role ∈ roles messages, role = "user" ∨ role = "assistant")
    (hhead : ∀ message ∈ messages.head?, message.role = expectedRole index) :
    ∃ prompt, turns index messages = .ok prompt := by
  induction messages generalizing index with
  | nil => exact ⟨generationPrompt, rfl⟩
  | cons message rest ih =>
    have hrole : message.role = expectedRole index := hhead message rfl
    have hrest : ∃ prompt, turns (index + 1) rest = .ok prompt := by
      refine ih (index + 1) hchain.tail (fun role h => hdialogue role (List.mem_cons_of_mem _ h)) ?_
      intro second hsecond
      obtain ⟨more, rfl⟩ : ∃ more, rest = second :: more := List.head?_eq_some_iff.mp hsecond
      have hne : message.role ≠ second.role := (List.isChain_cons_cons.mp hchain).1
      have hsecondrole := hdialogue second.role (by simp [roles])
      rcases expectedRole_cases index with ⟨hexpected, hnext⟩ | ⟨hexpected, hnext⟩
      · rw [hrole, hexpected] at hne
        rw [hnext]
        exact hsecondrole.resolve_left (fun h => hne h.symm)
      · rw [hrole, hexpected] at hne
        rw [hnext]
        exact hsecondrole.resolve_right (fun h => hne h.symm)
    obtain ⟨later, hlater⟩ := hrest
    unfold turns
    rw [if_pos hrole, hlater]
    exact ⟨_, rfl⟩

/-- The roles start with a user message, after one system message at most. -/
def Begins (roles : List String) : Prop :=
  roles.head? = some "user" ∨ (roles.head? = some "system" ∧ roles.tail.head? = some "user")

theorem Begins.append {a : List String} (h : Begins a) (b : List String) : Begins (a ++ b) := by
  obtain _ | ⟨first, rest⟩ := a
  · simp [Begins] at h
  · rcases h with h | ⟨hfirst, hsecond⟩
    · exact Or.inl (by simpa using h)
    · obtain _ | ⟨second, more⟩ := rest
      · simp at hsecond
      · exact Or.inr ⟨by simpa using hfirst, by simpa using hsecond⟩

def supported (role : String) : Prop := role = "system" ∨ role = "user" ∨ role = "assistant"

/-- What is left after the system message starts with a user. -/
theorem gemma4_ok {messages : List Message} {prompt : Content} (h : gemma4 messages = .ok prompt) :
    ∃ first later, (takeSystem messages).2 = first :: later ∧ first.role = "user" ∧
      turns 0 (withSystem (takeSystem messages).1 first :: later) = .ok prompt := by
  unfold gemma4 at h
  cases hempty : messages.isEmpty with
  | true => simp [hempty] at h
  | false =>
    rw [hempty, if_neg (by simp)] at h
    cases hsystem : (takeSystem messages).2.any (fun message => message.role = "system") with
    | true => simp [hsystem] at h
    | false =>
      rw [hsystem, if_neg (by simp)] at h
      cases hrest : (takeSystem messages).2 with
      | nil => simp [hrest] at h
      | cons first later =>
        rw [hrest] at h
        by_cases hrole : first.role = "user"
        · simp only [hrole, if_true] at h
          exact ⟨first, later, rfl, hrole, h⟩
        · simp [hrole] at h

theorem withSystem_role (system : Option Content) (first : Message) :
    (withSystem system first).role = first.role := by
  cases system <;> rfl

theorem roles_takeSystem (messages : List Message) :
    roles messages = roles (takeSystem messages).2 ∨
      roles messages = "system" :: roles (takeSystem messages).2 := by
  cases messages with
  | nil => exact Or.inl rfl
  | cons message rest =>
    by_cases hrole : message.role = "system"
    · right
      simp [takeSystem, hrole, roles]
    · left
      simp [takeSystem, hrole]

/-- A conversation that the template accepts begins as it should. -/
theorem begins_of_gemma4 {messages : List Message} {prompt : Content}
    (h : gemma4 messages = .ok prompt) :
    Begins (roles messages) ∧ ∀ role ∈ roles messages, supported role := by
  obtain ⟨first, later, hrest, hfirst, hturns⟩ := gemma4_ok h
  have hdialogue := dialogue_of_turns 0 _ prompt hturns
  have hroles : roles (withSystem (takeSystem messages).1 first :: later) =
      roles (takeSystem messages).2 := by
    rw [hrest]
    simp [roles, withSystem_role]
  rw [hroles] at hdialogue
  have hhead : (roles (takeSystem messages).2).head? = some "user" := by
    rw [hrest]
    simp [roles, hfirst]
  rcases roles_takeSystem messages with heq | heq
  · rw [heq]
    exact ⟨Or.inl hhead, fun role hmem => Or.inr (hdialogue role hmem)⟩
  · rw [heq]
    refine ⟨Or.inr ⟨rfl, hhead⟩, ?_⟩
    intro role hmem
    rcases List.mem_cons.mp hmem with rfl | hmem
    · exact Or.inl rfl
    · exact Or.inr (hdialogue role hmem)

/-- Roles that begin as they should reach the dialogue unless a system message comes later. -/
theorem after_of_begins {roles : List String} (hbegins : Begins roles)
    (hsupported : ∀ role ∈ roles, supported role) :
    Phase.after roles = .dialogue ↔ ∀ role ∈ roles.tail, role ≠ "system" := by
  have hkey : ∀ rest : List String, (∀ role ∈ rest, supported role) →
      (rest.foldl Phase.next .dialogue = .dialogue ↔ ∀ role ∈ rest, role ≠ "system") := by
    intro rest hrest
    rw [Phase.foldl_dialogue_iff]
    constructor
    · intro h role hmem hrole
      rcases h role hmem with h | h
      · simp [hrole] at h
      · simp [hrole] at h
    · intro h role hmem
      exact (hrest role hmem).resolve_left (h role hmem)
  obtain _ | ⟨first, rest⟩ := roles
  · simp [Begins] at hbegins
  · rcases hbegins with h | ⟨hfirst, hsecond⟩
    · obtain rfl : first = "user" := by simpa using h
      exact hkey rest (fun role hmem => hsupported role (List.mem_cons_of_mem _ hmem))
    · obtain rfl : first = "system" := by simpa using hfirst
      obtain _ | ⟨second, more⟩ := rest
      · simp at hsecond
      · obtain rfl : second = "user" := by simpa using hsecond
        have hmore := hkey more (fun role hmem =>
          hsupported role (List.mem_cons_of_mem _ (List.mem_cons_of_mem _ hmem)))
        rw [List.tail_cons, List.forall_mem_cons]
        exact ⟨fun h => ⟨by decide, hmore.mp h⟩, fun h => hmore.mpr h.2⟩

theorem takeSystem_cases (messages : List Message) (hchain : Alternating messages) :
    Alternating (takeSystem messages).2 ∧
      (∀ message ∈ (takeSystem messages).2.head?, message.role ≠ "system") ∧
      Phase.after (roles (takeSystem messages).2) = Phase.after (roles messages) := by
  cases messages with
  | nil => exact ⟨hchain, by simp [takeSystem], rfl⟩
  | cons message rest =>
    by_cases hrole : message.role = "system"
    · have htake : (takeSystem (message :: rest)).2 = rest := by simp [takeSystem, hrole]
      rw [htake]
      refine ⟨hchain.tail, ?_, by simp [roles, Phase.after, Phase.next, hrole]⟩
      intro second hsecond hsystem
      obtain ⟨more, rfl⟩ : ∃ more, rest = second :: more := List.head?_eq_some_iff.mp hsecond
      exact (List.isChain_cons_cons.mp hchain).1 (hrole.trans hsystem.symm)
    · have htake : (takeSystem (message :: rest)).2 = message :: rest := by
        simp [takeSystem, hrole]
      rw [htake]
      exact ⟨hchain, by simpa using hrole, rfl⟩

/-- A conversation that reaches the dialogue and does not start with a system message. -/
theorem of_after (messages : List Message) (h : Phase.after (roles messages) = .dialogue)
    (hhead : ∀ message ∈ messages.head?, message.role ≠ "system") :
    ∃ first later, messages = first :: later ∧ first.role = "user" ∧
      ∀ role ∈ roles later, role = "user" ∨ role = "assistant" := by
  cases messages with
  | nil => cases h
  | cons first later =>
    have hsystem : first.role ≠ "system" := hhead first rfl
    by_cases huser : first.role = "user"
    · refine ⟨first, later, rfl, huser, ?_⟩
      rw [← Phase.foldl_dialogue_iff]
      simpa [Phase.after, roles, Phase.next, huser] using h
    · have hrefused : Phase.after (roles (first :: later)) = .refused := by
        rw [← Phase.foldl_refused (roles later)]
        simp [Phase.after, roles, Phase.next, huser, hsystem]
      rw [hrefused] at h
      cases h

/-- The template accepts a merged conversation exactly when its roles reach the dialogue. -/
theorem gemma4_iff (messages : List Message) (hchain : Alternating messages) :
    (gemma4 messages).isOk = true ↔ Phase.after (roles messages) = .dialogue := by
  obtain ⟨hrestchain, hresthead, hafter⟩ := takeSystem_cases messages hchain
  rw [← hafter]
  constructor
  · intro h
    obtain ⟨prompt, hprompt⟩ : ∃ prompt, gemma4 messages = .ok prompt := by
      cases hgemma : gemma4 messages with
      | error e => simp [hgemma, Except.isOk, Except.toBool] at h
      | ok prompt => exact ⟨prompt, rfl⟩
    obtain ⟨first, later, hrest, hfirst, hturns⟩ := gemma4_ok hprompt
    have hdialogue := dialogue_of_turns 0 _ prompt hturns
    rw [hrest]
    have hlater : (roles later).foldl Phase.next .dialogue = .dialogue :=
      (Phase.foldl_dialogue_iff _).mpr (fun role hmem =>
        hdialogue role (List.mem_cons_of_mem _ hmem))
    simpa [Phase.after, roles, Phase.next, hfirst] using hlater
  · intro h
    obtain ⟨first, later, hrest, hfirst, hlater⟩ := of_after _ h hresthead
    have hturns : ∃ prompt,
        turns 0 (withSystem (takeSystem messages).1 first :: later) = .ok prompt := by
      have hroles : roles (withSystem (takeSystem messages).1 first :: later) =
          "user" :: roles later := by simp [roles, withSystem_role, hfirst]
      apply turns_of_dialogue
      · unfold Alternating at hrestchain ⊢
        rw [hrest] at hrestchain
        rw [hroles]
        simpa [roles, hfirst] using hrestchain
      · rw [hroles]
        exact List.forall_mem_cons.mpr ⟨Or.inl rfl, hlater⟩
      · intro message hmessage
        obtain rfl : withSystem (takeSystem messages).1 first = message := by
          simpa using hmessage
        rw [withSystem_role]
        exact hfirst
    obtain ⟨prompt, hprompt⟩ := hturns
    have hempty : messages.isEmpty = false := by
      cases messages with
      | nil => cases hrest
      | cons _ _ => rfl
    have hsystem : (takeSystem messages).2.any (fun message => message.role = "system") =
        false := by
      rw [hrest, List.any_eq_false]
      intro message hmem
      rcases List.mem_cons.mp hmem with rfl | hmem
      · simp [hfirst]
      · rcases hlater message.role (List.mem_map_of_mem hmem) with hrole | hrole
        · simp [hrole]
        · simp [hrole]
    have hok : gemma4 messages = .ok prompt := by
      unfold gemma4
      rw [hempty, hsystem, hrest]
      simpa [hfirst] using hprompt
    rw [hok]
    rfl

/-- What the template accepts of a lineage depends on the roles of its messages alone. -/
theorem applyChatTemplate_normalize_iff (messages : List Message) :
    (applyChatTemplate "gemma4" (normalizeResponseMessages messages)).isOk = true ↔
      Phase.after (roles messages) = .dialogue := by
  have htemplate : applyChatTemplate "gemma4" (normalizeResponseMessages messages) =
      gemma4 (normalizeResponseMessages messages) := if_pos rfl
  rw [htemplate, gemma4_iff _ (alternating_normalize messages), after_normalize]

end Cusco.Prompt
