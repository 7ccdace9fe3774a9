import Cusco.LoweredRequests
import Cusco.Runs

/-!
Which committed responses can be continued. A request is rendered part by part before it
is committed and a context update is not rendered at all, while a replay renders the
whole lineage. The response can be replayed exactly when no later message has a role that
a dialogue does not know and the lineage has room for one more resource.
-/

namespace Cusco.Replay

open Calls Prompt Conversations LoweredRequests Runs
open Responses (saturatingIncrement)

variable {lineage : List ResponseResource} {service t : ResponseService}
variable {options : ResponseRequestOptions} {resource : ResponseResource}

/-- A response and its predecessors, the newest first. -/
inductive Lineage (service : ResponseService) : ResponseResource → List ResponseResource → Prop
  | root {resource : ResponseResource} (hprevious : resource.previousResponseId = none)
      (hrevision : resource.lineageRevision = 0) : Lineage service resource [resource]
  | next {resource base : ResponseResource} {id : String} {lineage : List ResponseResource}
      (hprevious : resource.previousResponseId = some id)
      (hlookup : service.stored.lookup id = some base) (howner : base.owner = resource.owner)
      (hrevision : resource.lineageRevision = saturatingIncrement base.lineageRevision)
      (hbase : Lineage service base lineage) : Lineage service resource (resource :: lineage)

/-- Every stored response has its lineage, and no response that is not stored hides one
that is. -/
structure Sound (service : ResponseService) : Prop where
  lineage : ∀ id resource, service.stored.lookup id = some resource →
    ∃ lineage, Lineage service resource lineage
  transient : ∀ resource ∈ service.transient,
    resource.store = false ∧ service.stored.lookup resource.id = none

theorem Lineage.mono {service changed : ResponseService} (h : Lineage service resource lineage)
    (hkept : ∀ id r, service.stored.lookup id = some r → changed.stored.lookup id = some r) :
    Lineage changed resource lineage := by
  induction h with
  | root hprevious hrevision => exact .root hprevious hrevision
  | next hprevious hlookup howner hrevision _ ih =>
    exact .next hprevious (hkept _ _ hlookup) howner hrevision ih

theorem Lineage.length_pos (h : Lineage service resource lineage) : 0 < lineage.length := by
  cases h with
  | root => simp
  | next => simp

/-- The revision of a response counts its predecessors. -/
theorem Lineage.revision (h : Lineage service resource lineage) :
    resource.lineageRevision = min (lineage.length - 1) u64Max := by
  induction h with
  | root hprevious hrevision => simp [hrevision]
  | next hprevious hlookup howner hrevision hbase ih =>
    have hpos := hbase.length_pos
    rw [hrevision, ih, List.length_cons]
    unfold saturatingIncrement
    omega

theorem retrieve_stored (hsound : Sound service) {id owner : String}
    (hlookup : service.stored.lookup id = some resource) (howner : resource.owner = owner) :
    service.retrieve id owner = .ok resource := by
  have hfind : service.transient.find? (fun r => r.id = id) = none := by
    rw [List.find?_eq_none]
    intro r hr hid
    have hnone := (hsound.transient r hr).2
    rw [of_decide_eq_true hid, hlookup] at hnone
    cases hnone
  simp [ResponseService.retrieve, hfind, hlookup, howner]

/-- The loop over the predecessors collects as much of the lineage as it has rounds. -/
theorem Lineage.collect (h : Lineage service resource lineage) (hsound : Sound service)
    (rounds : ℕ) :
    collectLineage service resource.owner rounds resource = .ok (lineage.take rounds) := by
  induction h generalizing rounds with
  | root hprevious hrevision =>
    cases rounds with
    | zero => rfl
    | succ rounds => simp [collectLineage, hprevious]
  | @next resource base id lineage hprevious hlookup howner hrevision hbase ih =>
    cases rounds with
    | zero => rfl
    | succ rounds =>
      have hrest := ih rounds
      rw [howner] at hrest
      have hstep : collectLineage service resource.owner (rounds + 1) resource =
          (collectLineage service resource.owner rounds base >>= fun collected =>
            .ok (resource :: collected)) := by
        simp only [collectLineage, hprevious, retrieve_stored hsound hlookup howner]
        rfl
      rw [hstep, hrest]
      rfl

/-- The oldest response that was collected has a predecessor exactly when the rounds did
not reach the root. -/
theorem Lineage.oldest (h : Lineage service resource lineage) (rounds : ℕ) :
    (lineage.take (rounds + 1)).getLast?.any (fun r => r.previousResponseId.isSome) =
      decide (rounds + 1 < lineage.length) := by
  induction h generalizing rounds with
  | root hprevious hrevision => simp [hprevious]
  | next hprevious hlookup howner hrevision hbase ih =>
    cases rounds with
    | zero => simp [hprevious, hbase.length_pos]
    | succ rounds =>
      obtain ⟨first, rest, heq⟩ := List.exists_cons_of_length_pos hbase.length_pos
      have hrest := ih rounds
      rw [heq, List.take_succ_cons] at hrest
      rw [heq, List.take_succ_cons, List.take_succ_cons, List.getLast?_cons_cons, hrest]
      simp

def resourceRoles (resource : ResponseResource) : List String :=
  resource.input.map itemRole ++ resource.output.map (fun _ => "assistant")

theorem roles_resourceMessages (ext : Externals) (resource : ResponseResource) :
    roles (resourceMessages ext resource) = resourceRoles resource := by
  simp [roles, resourceMessages, resourceRoles, inputMessage_role, outputMessage_role,
    Function.comp_def]

def lineageRoles (lineage : List ResponseResource) : List String :=
  lineage.reverse.flatMap resourceRoles

theorem roles_lineage (ext : Externals) (lineage : List ResponseResource) :
    roles (lineage.reverse.flatMap (resourceMessages ext)) = lineageRoles lineage := by
  unfold lineageRoles
  induction lineage.reverse with
  | nil => rfl
  | cons resource rest ih =>
    rw [List.flatMap_cons, List.flatMap_cons, roles_append, roles_resourceMessages, ih]

theorem lineageRoles_cons (resource : ResponseResource) (lineage : List ResponseResource) :
    lineageRoles (resource :: lineage) = lineageRoles lineage ++ resourceRoles resource := by
  simp [lineageRoles]

/-- The whole lineage is rendered, unless it is too long. -/
theorem Lineage.prompt (h : Lineage service resource lineage) (hsound : Sound service)
    (ext : Externals) :
    responseLineagePrompt ext service resource resource.owner "gemma4" =
      if lineageLimit < lineage.length then .error exceedsLimit
      else applyChatTemplate "gemma4"
        (normalizeResponseMessages (lineage.reverse.flatMap (resourceMessages ext))) := by
  have hcollect := h.collect hsound lineageLimit
  have holdest : (lineage.take lineageLimit).getLast?.any
      (fun r => r.previousResponseId.isSome) = decide (lineageLimit < lineage.length) :=
    h.oldest 1023
  have hprompt : responseLineagePrompt ext service resource resource.owner "gemma4" =
      if (lineage.take lineageLimit).getLast?.any (fun r => r.previousResponseId.isSome) then
        .error exceedsLimit
      else applyChatTemplate "gemma4" (normalizeResponseMessages
        ((lineage.take lineageLimit).reverse.flatMap (resourceMessages ext))) := by
    unfold responseLineagePrompt
    rw [hcollect]
    rfl
  rw [hprompt, holdest]
  by_cases hlong : lineageLimit < lineage.length
  · simp [hlong]
  · rw [List.take_of_length_le (by omega)]
    simp [hlong]

/-- A response can be replayed if its lineage is short enough and its roles make a dialogue. -/
theorem Lineage.replayable_iff (h : Lineage service resource lineage) (hsound : Sound service)
    (ext : Externals) :
    Replayable ext service resource ↔
      lineage.length ≤ lineageLimit ∧ Phase.after (lineageRoles lineage) = .dialogue := by
  unfold Replayable
  rw [h.prompt hsound ext]
  by_cases hlong : lineageLimit < lineage.length
  · simp [hlong, Except.isOk, Except.toBool]
  · rw [if_neg hlong, applyChatTemplate_normalize_iff, roles_lineage]
    exact ⟨fun hafter => ⟨by omega, hafter⟩, fun hboth => hboth.2⟩

/-- Every stored response can be rendered again. -/
def AllReplayable (ext : Externals) (service : ResponseService) : Prop :=
  ∀ id resource, service.stored.lookup id = some resource → Replayable ext service resource

def Speaks (items : List ResponseInputItem) : Prop :=
  ∀ item ∈ items, itemRole item = "user" ∨ itemRole item = "assistant"

/-- The items may start a conversation. -/
def Opens (items : List ResponseInputItem) : Prop :=
  items ≠ [] ∧ ∀ item ∈ items.tail, itemRole item ≠ "system"

/-- The items may follow the given predecessor: its revision counts the resources of its
lineage, and one more must fit. -/
def Continues (service : ResponseService) (previous : Option String)
    (items : List ResponseInputItem) : Prop :=
  match previous with
  | none => Opens items
  | some id => Speaks items ∧
    ∀ base ∈ service.stored.lookup id, base.lineageRevision + 1 < lineageLimit

theorem fresh_iff (service : ResponseService) (id : String) :
    service.fresh id = true ↔
      service.stored.lookup id = none ∧ ∀ resource ∈ service.transient, resource.id ≠ id := by
  simp [ResponseService.fresh]

theorem lookup_put (service : ResponseService) (resource : ResponseResource) (id : String) :
    (service.put resource).stored.lookup id =
      if id = resource.id then some resource else service.stored.lookup id :=
  AList.lookup_insert_ite resource.id id resource service.stored

section Put

theorem lookup_put_kept (hfresh : service.fresh resource.id = true) (id : String)
    (r : ResponseResource) (h : service.stored.lookup id = some r) :
    (service.put resource).stored.lookup id = some r := by
  have hne : id ≠ resource.id := by
    rintro rfl
    rw [((fresh_iff service _).mp hfresh).1] at h
    cases h
  rw [lookup_put, if_neg hne, h]

theorem Sound.put (hsound : Sound service) (hfresh : service.fresh resource.id = true)
    (hlineage : Lineage service resource lineage) : Sound (service.put resource) := by
  constructor
  · intro id r hr
    rw [lookup_put] at hr
    by_cases hid : id = resource.id
    · rw [if_pos hid] at hr
      cases hr
      exact ⟨lineage, hlineage.mono (lookup_put_kept hfresh)⟩
    · rw [if_neg hid] at hr
      obtain ⟨l, hl⟩ := hsound.lineage id r hr
      exact ⟨l, hl.mono (lookup_put_kept hfresh)⟩
  · intro r hr
    obtain ⟨hstore, hnone⟩ := hsound.transient r hr
    refine ⟨hstore, ?_⟩
    rw [lookup_put, if_neg (((fresh_iff service _).mp hfresh).2 r hr), hnone]

/-- Only the response that is stored decides whether all of them can be replayed. -/
theorem allReplayable_put_iff (ext : Externals) (hsound : Sound service)
    (hgood : AllReplayable ext service) (hfresh : service.fresh resource.id = true)
    (hlineage : Lineage service resource lineage) :
    AllReplayable ext (service.put resource) ↔
      lineage.length ≤ lineageLimit ∧ Phase.after (lineageRoles lineage) = .dialogue := by
  have hput := hsound.put hfresh hlineage
  have hiff := (hlineage.mono (lookup_put_kept hfresh)).replayable_iff hput ext
  rw [← hiff]
  constructor
  · intro h
    exact h resource.id resource (by rw [lookup_put, if_pos rfl])
  · intro h id r hr
    rw [lookup_put] at hr
    by_cases hid : id = resource.id
    · rw [if_pos hid] at hr
      cases hr
      exact h
    · rw [if_neg hid] at hr
      obtain ⟨l, hl⟩ := hsound.lineage id r hr
      exact ((hl.mono (lookup_put_kept hfresh)).replayable_iff hput ext).mpr
        ((hl.replayable_iff hsound ext).mp (hgood id r hr))

end Put

theorem of_next_assistant {phase : Phase} (h : phase.next "assistant" = .dialogue) :
    phase = .dialogue := by
  cases phase with
  | opening => cases h
  | dialogue => rfl
  | refused => cases h

/-- The first response of a conversation. -/
theorem root_dialogue_iff (output : ResponseOutputItem) (hlowered : Lowered none resource.input)
    (houtput : resource.output = [output]) :
    Phase.after (lineageRoles [resource]) = .dialogue ↔ Opens resource.input := by
  have hroles : lineageRoles [resource] = resource.input.map itemRole ++ ["assistant"] := by
    simp [lineageRoles, resourceRoles, houtput]
  rw [hroles]
  rcases hlowered.begins rfl with hnil | hbegins
  · rw [hnil]
    constructor
    · intro h
      cases h
    · intro h
      exact absurd rfl h.1
  · have hafter := after_of_begins hbegins hlowered.supported
    have hne : resource.input ≠ [] := by
      intro hnil
      rw [hnil] at hbegins
      simp [Begins] at hbegins
    have htail : (∀ role ∈ (resource.input.map itemRole).tail, role ≠ "system") ↔
        Opens resource.input := by
      simp [Opens, hne, ← List.map_tail]
    rw [← htail, ← hafter]
    constructor
    · intro h
      rw [Phase.after_append] at h
      exact of_next_assistant h
    · intro h
      exact (Phase.after_append_iff _ _ h).mpr (by simp)

/-- A response that follows one that can be replayed. -/
theorem next_dialogue_iff {resource base : ResponseResource} (ext : Externals)
    (hsound : Sound service) (hbase : Lineage service base lineage)
    (hreplayable : Replayable ext service base) :
    ((resource :: lineage).length ≤ lineageLimit ∧
        Phase.after (lineageRoles (resource :: lineage)) = .dialogue) ↔
      Speaks resource.input ∧ base.lineageRevision + 1 < lineageLimit := by
  obtain ⟨hlength, hafter⟩ := (hbase.replayable_iff hsound ext).mp hreplayable
  have hrevision := hbase.revision
  have hpos := hbase.length_pos
  have hroom : (resource :: lineage).length ≤ lineageLimit ↔
      base.lineageRevision + 1 < lineageLimit := by
    have hmax : lineageLimit < u64Max := by decide
    rw [List.length_cons]
    omega
  have hspeaks : Phase.after (lineageRoles (resource :: lineage)) = .dialogue ↔
      Speaks resource.input := by
    rw [lineageRoles_cons, Phase.after_append_iff _ _ hafter]
    constructor
    · intro h item hitem
      exact h (itemRole item) (List.mem_append_left _ (List.mem_map_of_mem hitem))
    · intro h role hrole
      rcases List.mem_append.mp hrole with hrole | hrole
      · obtain ⟨item, hitem, rfl⟩ := List.mem_map.mp hrole
        exact h item hitem
      · obtain ⟨_, _, rfl⟩ := List.mem_map.mp hrole
        exact Or.inr rfl
  rw [hroom, hspeaks]
  exact and_comm

theorem of_putSuccessor {baseId : String} {expected : ℕ}
    (h : service.putSuccessor baseId expected resource = .ok t) :
    ∃ base, service.stored.lookup baseId = some base ∧ base.lineageRevision = expected ∧
      t = service.put resource := by
  unfold ResponseService.putSuccessor at h
  cases hlookup : service.stored.lookup baseId with
  | none =>
    rw [hlookup] at h
    cases h
  | some base =>
    rw [hlookup] at h
    obtain ⟨hrevision, h⟩ := ok_of_ite h
    obtain ⟨_, h⟩ := ok_of_ite h
    cases h
    exact ⟨base, rfl, not_not.mp hrevision, rfl⟩

/-- An accepted request was lowered, and names a stored predecessor of its owner. -/
structure Prepared (service : ResponseService) (options : ResponseRequestOptions) : Prop where
  lowered : Lowered options.previousResponseId options.input
  root : options.previousResponseId = none → options.lineageRevision = 0
  next : ∀ id, options.previousResponseId = some id → ∃ base,
    service.stored.lookup id = some base ∧ base.owner = options.principal ∧
      options.lineageRevision = saturatingIncrement base.lineageRevision

theorem Prepared.mono {service changed : ResponseService} (h : Prepared service options)
    (hkept : ∀ id r, service.stored.lookup id = some r → changed.stored.lookup id = some r) :
    Prepared changed options := by
  refine ⟨h.lowered, h.root, ?_⟩
  intro id hid
  obtain ⟨base, hlookup, hrest⟩ := h.next id hid
  exact ⟨base, hkept id base hlookup, hrest⟩

theorem of_retrieve {id owner : String} (h : service.retrieve id owner = .ok resource) :
    (resource ∈ service.transient ∨ service.stored.lookup id = some resource) ∧
      resource.owner = owner := by
  unfold ResponseService.retrieve at h
  cases hfound : (service.transient.find? (fun r => r.id = id)).or (service.stored.lookup id) with
  | none =>
    rw [hfound] at h
    cases h
  | some r =>
    rw [hfound] at h
    by_cases howner : r.owner = owner
    · simp only [howner, if_true] at h
      cases h
      refine ⟨?_, howner⟩
      rcases Option.or_eq_some_iff.mp hfound with hfind | ⟨_, hlookup⟩
      · exact Or.inl (List.mem_of_find?_eq_some hfind)
      · exact Or.inr hlookup
    · simp [howner] at h

theorem of_continued {ext : Externals} {owner family : String} {request : ResponsesRequest}
    {start : Content × ℕ} (hsound : Sound service)
    (h : continued ext service owner family request = .ok start) :
    (request.previousResponseId = none → start = ([], 0)) ∧
      ∀ id, request.previousResponseId = some id → ∃ base,
        service.stored.lookup id = some base ∧ base.owner = owner ∧
          start.2 = saturatingIncrement base.lineageRevision ∧
          responseLineagePrompt ext service base owner family = .ok start.1 := by
  unfold continued at h
  cases hprevious : request.previousResponseId with
  | none =>
    rw [hprevious] at h
    cases h
    exact ⟨fun _ => rfl, fun _ hid => (nomatch hid)⟩
  | some id =>
    rw [hprevious] at h
    obtain ⟨base, hretrieve, h⟩ := ok_of_bind h
    obtain ⟨_, h⟩ := ok_of_ite h
    obtain ⟨hstore, h⟩ := ok_of_ite h
    obtain ⟨prompt, hprompt, h⟩ := ok_of_bind h
    cases h
    obtain ⟨hfound, howner⟩ := of_retrieve hretrieve
    refine ⟨fun hnone => (nomatch hnone), ?_⟩
    intro id' hid
    cases hid
    refine ⟨base, hfound.resolve_left ?_, howner, rfl, hprompt⟩
    intro hmem
    exact hstore (hsound.transient base hmem).1

theorem prepared_of_responses {ext : Externals} {owner : String} {request : ResponsesRequest}
    (hsound : Sound service) (h : responses ext service owner "gemma4" request = .ok options) :
    Prepared service options := by
  obtain ⟨_, _, h⟩ := ok_of_bind h
  obtain ⟨start, hstart, h⟩ := ok_of_bind h
  obtain ⟨lowered, hlowered, h⟩ := ok_of_bind h
  obtain ⟨_, _, h⟩ := ok_of_bind h
  cases h
  obtain ⟨hroot, hnext⟩ := of_continued hsound hstart
  refine ⟨?_, ?_, ?_⟩
  · have hprompt : request.previousResponseId = none → start.1 = [] := by
      intro hnone
      rw [hroot hnone]
    exact lowered_input rfl start.1 request.input hprompt lowered hlowered
  · intro hnone
    change start.2 = 0
    rw [hroot hnone]
  · intro id hid
    obtain ⟨base, hlookup, howner, hrevision, _⟩ := hnext id hid
    exact ⟨base, hlookup, howner, hrevision⟩

structure Invariant (s : State) : Prop where
  sound : Sound s.service
  pending : ∀ options ∈ s.pending, Prepared s.service options

/-- A response that the step commits continues its lineage. -/
def Guarded (s : State) : Action → Prop
  | .complete index id output => ∀ options ∈ s.pending[index]?,
      options.store = true → (completedResponse s.service options id output).isOk = true →
      Continues s.service options.previousResponseId options.input
  | .update owner id request control => (apply s.service owner id request control).isOk = true →
      Continues s.service (some request.baseResponseId) request.items
  | _ => True

instance (items : List ResponseInputItem) : Decidable (Speaks items) :=
  inferInstanceAs (Decidable (∀ item ∈ items, itemRole item = "user" ∨ itemRole item = "assistant"))

instance (items : List ResponseInputItem) : Decidable (Opens items) :=
  inferInstanceAs (Decidable (items ≠ [] ∧ ∀ item ∈ items.tail, itemRole item ≠ "system"))

instance (service : ResponseService) (previous : Option String)
    (items : List ResponseInputItem) : Decidable (Continues service previous items) :=
  match previous with
  | none => inferInstanceAs (Decidable (Opens items))
  | some id => inferInstanceAs (Decidable (Speaks items ∧
      ∀ base ∈ service.stored.lookup id, base.lineageRevision + 1 < lineageLimit))

instance (s : State) (a : Action) : Decidable (Guarded s a) :=
  match a with
  | .complete index id output => inferInstanceAs (Decidable (∀ options ∈ s.pending[index]?,
      options.store = true → (completedResponse s.service options id output).isOk = true →
      Continues s.service options.previousResponseId options.input))
  | .update owner id request control => inferInstanceAs (Decidable
      ((apply s.service owner id request control).isOk = true →
        Continues s.service (some request.baseResponseId) request.items))
  | .respond _ _ => isTrue trivial
  | .abandon _ => isTrue trivial

/-- A call that changes the responses stores one new response with its lineage, or
keeps one that is not stored. -/
inductive Change (service : ResponseService) : ResponseService → Prop
  | same : Change service service
  | stored {resource : ResponseResource} {lineage : List ResponseResource}
      (hfresh : service.fresh resource.id = true)
      (hlineage : Lineage service resource lineage) : Change service (service.put resource)
  | transient {resource : ResponseResource} {kept : List ResponseResource}
      (hfresh : service.fresh resource.id = true) (hstore : resource.store = false)
      (hkept : ∀ r ∈ kept, r ∈ service.transient ∨ r = resource) :
      Change service { service with transient := kept }

theorem Change.kept {service changed : ResponseService} (h : Change service changed) (id : String)
    (r : ResponseResource) (hr : service.stored.lookup id = some r) :
    changed.stored.lookup id = some r := by
  cases h with
  | same => exact hr
  | stored hfresh _ => exact lookup_put_kept hfresh id r hr
  | transient _ _ _ => exact hr

theorem Change.sound {service changed : ResponseService} (h : Change service changed)
    (hsound : Sound service) : Sound changed := by
  cases h with
  | same => exact hsound
  | stored hfresh hlineage => exact hsound.put hfresh hlineage
  | transient hfresh hstore hkept =>
    constructor
    · intro id r hr
      obtain ⟨l, hl⟩ := hsound.lineage id r hr
      exact ⟨l, hl.mono (fun _ _ h => h)⟩
    · intro r hr
      rcases hkept r hr with hr | rfl
      · exact hsound.transient r hr
      · exact ⟨hstore, ((fresh_iff service _).mp hfresh).1⟩

/-- A completed response is kept aside, or stored as a root or after its predecessor. -/
theorem remember_cases (h : service.remember resource = .ok t) :
    (resource.store = false ∧ ∃ kept, t = { service with transient := kept } ∧
        ∀ r ∈ kept, r ∈ service.transient ∨ r = resource) ∨
      (resource.store = true ∧ t = service.put resource) := by
  unfold ResponseService.remember at h
  by_cases hstore : resource.store = true
  · rw [if_pos hstore] at h
    refine Or.inr ⟨hstore, ?_⟩
    cases hprevious : resource.previousResponseId with
    | none =>
      rw [hprevious] at h
      cases h
      rfl
    | some previousId =>
      rw [hprevious] at h
      obtain ⟨_, _, _, rfl⟩ := of_putSuccessor h
      rfl
  · rw [if_neg hstore] at h
    cases h
    refine Or.inl ⟨by simpa using hstore, _, rfl, ?_⟩
    intro r hr
    simpa using List.mem_of_mem_drop hr

/-- The lineage that a completed response will have. -/
theorem Prepared.lineages (h : Prepared service options) (hsound : Sound service) (id : String)
    (output : ResponseOutputItem) :
    (options.previousResponseId = none ∧ Lineage service (completedResource options id output)
        [completedResource options id output]) ∨
      ∃ baseId base lineage, options.previousResponseId = some baseId ∧
        service.stored.lookup baseId = some base ∧ Lineage service base lineage ∧
        Lineage service (completedResource options id output)
          (completedResource options id output :: lineage) := by
  cases hprevious : options.previousResponseId with
  | none => exact Or.inl ⟨rfl, .root hprevious (h.root hprevious)⟩
  | some baseId =>
    obtain ⟨base, hlookup, howner, hrevision⟩ := h.next baseId hprevious
    obtain ⟨lineage, hlineage⟩ := hsound.lineage baseId base hlookup
    exact Or.inr ⟨baseId, base, lineage, rfl, hlookup, hlineage,
      .next hprevious hlookup howner hrevision hlineage⟩

theorem change_of_complete {id : String} {output : ResponseOutputItem}
    (hprepared : Prepared service options) (hsound : Sound service)
    (hfresh : service.fresh id = true) (h : completedResponse service options id output = .ok t) :
    Change service t := by
  rcases remember_cases h with ⟨hstore, kept, rfl, hkept⟩ | ⟨_, rfl⟩
  · exact @Change.transient service (completedResource options id output) kept hfresh hstore hkept
  · rcases hprepared.lineages hsound id output with ⟨_, hlineage⟩ | ⟨_, _, _, _, _, _, hlineage⟩
    · exact .stored hfresh hlineage
    · exact .stored hfresh hlineage

theorem of_apply {owner id : String} {request : ContextUpdateRequest} {control : RequestControl}
    (hsound : Sound service) (h : apply service owner id request control = .ok t) :
    ∃ base lineage, service.stored.lookup request.baseResponseId = some base ∧
      Lineage service base lineage ∧ t = service.put (foldResource request base owner id) ∧
      Lineage service (foldResource request base owner id)
        (foldResource request base owner id :: lineage) := by
  obtain ⟨_, h⟩ := ok_of_ite h
  obtain ⟨_, h⟩ := ok_of_ite h
  obtain ⟨_, h⟩ := ok_of_ite h
  obtain ⟨base, hretrieve, h⟩ := ok_of_bind h
  obtain ⟨hstore, h⟩ := ok_of_ite h
  obtain ⟨_, _, h⟩ := ok_of_bind h
  obtain ⟨_, h⟩ := ok_of_ite h
  obtain ⟨_, _, h⟩ := ok_of_bind h
  obtain ⟨hfound, howner⟩ := of_retrieve hretrieve
  have hlookup : service.stored.lookup request.baseResponseId = some base := by
    refine hfound.resolve_left ?_
    intro hmem
    exact hstore (hsound.transient base hmem).1
  obtain ⟨_, hsame, hrevision, rfl⟩ := of_putSuccessor h
  rw [hlookup] at hsame
  cases hsame
  obtain ⟨lineage, hlineage⟩ := hsound.lineage _ _ hlookup
  refine ⟨base, lineage, hlookup, hlineage, rfl, .next rfl hlookup howner ?_ hlineage⟩
  rw [hrevision]
  rfl

theorem change_of_apply {owner id : String} {request : ContextUpdateRequest}
    {control : RequestControl} (hsound : Sound service) (hfresh : service.fresh id = true)
    (h : apply service owner id request control = .ok t) : Change service t := by
  obtain ⟨base, lineage, _, _, rfl, hlineage⟩ := of_apply hsound h
  exact .stored hfresh hlineage

/-- What a call of the service leaves, whether it is refused or not. -/
theorem change_orSame {result : Except Error ResponseService}
    (h : ∀ t, result = .ok t → Change service t) : Change service (service.orSame result) := by
  cases result with
  | error e => exact .same
  | ok t => exact h t rfl

theorem invariant_initial : Invariant State.initial :=
  ⟨⟨fun _ _ h => (nomatch h), fun _ h => (nomatch h)⟩, fun _ h => (nomatch h)⟩

/-- What a step does. -/
theorem step_cases {ext : Externals} {s s' : State} {a : Action} (h : Step ext s a s') :
    (∃ owner request, a = .respond owner request ∧ s'.service = s.service ∧
      ∀ p ∈ s'.pending, p ∈ s.pending ∨
        responses ext s.service owner "gemma4" request = .ok p) ∨
    (∃ index id output options, a = .complete index id output ∧ s.service.fresh id = true ∧
      s.pending[index]? = some options ∧
      s' = ⟨s.service.orSame (completedResponse s.service options id output),
        s.pending.eraseIdx index⟩) ∨
    (∃ index, a = .abandon index ∧ s' = { s with pending := s.pending.eraseIdx index }) ∨
    (∃ owner id request control, a = .update owner id request control ∧
      s.service.fresh id = true ∧
      s' = { s with service := s.service.orSame (apply s.service owner id request control) }) := by
  unfold Step act at h
  cases a with
  | respond owner request =>
    refine Or.inl ⟨owner, request, rfl, ?_⟩
    cases hresponses : responses ext s.service owner "gemma4" request with
    | error e =>
      simp only [hresponses] at h
      cases h
      exact ⟨rfl, fun p hp => Or.inl hp⟩
    | ok options =>
      simp only [hresponses] at h
      cases h
      refine ⟨rfl, ?_⟩
      intro p hp
      rcases List.mem_append.mp hp with hp | hp
      · exact Or.inl hp
      · rw [List.mem_singleton.mp hp]
        exact Or.inr rfl
  | complete index id output =>
    by_cases hfresh : s.service.fresh id = true
    · simp only [hfresh, if_true] at h
      obtain ⟨options, hoptions, rfl⟩ := Option.map_eq_some_iff.mp h
      exact Or.inr (Or.inl ⟨index, id, output, options, rfl, hfresh, hoptions, rfl⟩)
    · simp [hfresh] at h
  | abandon index =>
    by_cases hindex : index < s.pending.length
    · simp only [hindex, if_true] at h
      cases h
      exact Or.inr (Or.inr (Or.inl ⟨index, rfl, rfl⟩))
    · simp [hindex] at h
  | update owner id request control =>
    by_cases hfresh : s.service.fresh id = true
    · simp only [hfresh, if_true] at h
      cases h
      exact Or.inr (Or.inr (Or.inr ⟨owner, id, request, control, rfl, hfresh, rfl⟩))
    · simp [hfresh] at h

theorem change_of_step {ext : Externals} {s s' : State} {a : Action} (hs : Invariant s)
    (h : Step ext s a s') : Change s.service s'.service := by
  rcases step_cases h with ⟨_, _, _, hservice, _⟩ | ⟨_, _, _, options, _, hfresh, hoptions, rfl⟩ |
    ⟨_, _, rfl⟩ | ⟨_, _, _, _, _, hfresh, rfl⟩
  · rw [hservice]
    exact .same
  · have hprepared := hs.pending options (List.mem_of_getElem? hoptions)
    exact change_orSame (fun t ht => change_of_complete hprepared hs.sound hfresh ht)
  · exact .same
  · exact change_orSame (fun t ht => change_of_apply hs.sound hfresh ht)

theorem prepared_of_step {ext : Externals} {s s' : State} {a : Action} (hs : Invariant s)
    (h : Step ext s a s') : ∀ options ∈ s'.pending, Prepared s.service options := by
  rcases step_cases h with ⟨_, _, _, _, hpending⟩ | ⟨_, _, _, _, _, _, _, rfl⟩ | ⟨_, _, rfl⟩ |
    ⟨_, _, _, _, _, _, rfl⟩
  · intro options hmem
    rcases hpending options hmem with hold | hnew
    · exact hs.pending options hold
    · exact prepared_of_responses hs.sound hnew
  · exact fun options hmem => hs.pending options (List.mem_of_mem_eraseIdx hmem)
  · exact fun options hmem => hs.pending options (List.mem_of_mem_eraseIdx hmem)
  · exact hs.pending

theorem invariant_step (ext : Externals) (s : State) (a : Action) (s' : State) (hs : Invariant s)
    (h : Step ext s a s') : Invariant s' := by
  have hchange := change_of_step hs h
  exact ⟨hchange.sound hs.sound,
    fun options hmem => (prepared_of_step hs h options hmem).mono hchange.kept⟩

theorem complete_iff {ext : Externals} {id : String} {output : ResponseOutputItem}
    (hsound : Sound service) (hgood : AllReplayable ext service)
    (hprepared : Prepared service options) (hfresh : service.fresh id = true)
    (h : completedResponse service options id output = .ok t) :
    AllReplayable ext t ↔
      (options.store = true → Continues service options.previousResponseId options.input) := by
  have hid : service.fresh (completedResource options id output).id = true := hfresh
  have hsound' := (change_of_complete hprepared hsound hfresh h).sound hsound
  rcases remember_cases h with ⟨hstore, kept, rfl, hkept⟩ | ⟨hstore, rfl⟩
  · have hoptions : options.store = false := hstore
    simp only [hoptions, Bool.false_eq_true, false_implies, iff_true]
    intro id' r hr
    obtain ⟨l, hl⟩ := hsound.lineage id' r hr
    have hkeptlineage : Lineage { service with transient := kept } r l :=
      hl.mono (fun _ _ h => h)
    exact (hkeptlineage.replayable_iff hsound' ext).mpr
      ((hl.replayable_iff hsound ext).mp (hgood id' r hr))
  · have hoptions : options.store = true := hstore
    simp only [hoptions, true_implies]
    rcases hprepared.lineages hsound id output with ⟨hprevious, hlineage⟩ |
      ⟨baseId, base, lineage, hprevious, hlookup, hbase, hlineage⟩
    · have hlowered := hprepared.lowered
      rw [hprevious] at hlowered ⊢
      rw [allReplayable_put_iff ext hsound hgood hid hlineage]
      have hroot : Phase.after (lineageRoles [completedResource options id output]) = .dialogue ↔
          Opens options.input := root_dialogue_iff output hlowered rfl
      have hlength : [completedResource options id output].length ≤ lineageLimit :=
        Nat.succ_le_succ (Nat.zero_le _)
      exact ⟨fun hboth => hroot.mp hboth.2, fun hopens => ⟨hlength, hroot.mpr hopens⟩⟩
    · rw [allReplayable_put_iff ext hsound hgood hid hlineage, hprevious,
        next_dialogue_iff ext hsound hbase (hgood baseId base hlookup)]
      simp [Continues, hlookup, completedResource]

theorem apply_iff {ext : Externals} {owner id : String} {request : ContextUpdateRequest}
    {control : RequestControl} (hsound : Sound service) (hgood : AllReplayable ext service)
    (hfresh : service.fresh id = true) (h : apply service owner id request control = .ok t) :
    AllReplayable ext t ↔ Continues service (some request.baseResponseId) request.items := by
  obtain ⟨base, lineage, hlookup, hbase, rfl, hlineage⟩ := of_apply hsound h
  have hid : service.fresh (foldResource request base owner id).id = true := hfresh
  rw [allReplayable_put_iff ext hsound hgood hid hlineage,
    next_dialogue_iff ext hsound hbase (hgood request.baseResponseId base hlookup)]
  simp [Continues, hlookup, foldResource]

theorem orSame_iff {ext : Externals} {result : Except Error ResponseService} {cond : Prop}
    (hgood : AllReplayable ext service) (h : ∀ t, result = .ok t → (AllReplayable ext t ↔ cond)) :
    AllReplayable ext (service.orSame result) ↔ (result.isOk = true → cond) := by
  cases result with
  | error e => simpa [ResponseService.orSame, Except.isOk, Except.toBool] using hgood
  | ok t => simpa [ResponseService.orSame, Except.isOk, Except.toBool] using h t rfl

/-- A step keeps all responses replayable exactly when what it commits continues. -/
theorem allReplayable_step_iff (ext : Externals) (s : State) (a : Action) (s' : State)
    (hs : Invariant s) (hgood : AllReplayable ext s.service) (h : Step ext s a s') :
    AllReplayable ext s'.service ↔ Guarded s a := by
  rcases step_cases h with ⟨owner, request, rfl, hservice, _⟩ |
    ⟨index, id, output, options, rfl, hfresh, hoptions, rfl⟩ | ⟨index, rfl, rfl⟩ |
    ⟨owner, id, request, control, rfl, hfresh, rfl⟩
  · rw [hservice]
    simpa [Guarded] using hgood
  · have hprepared := hs.pending options (List.mem_of_getElem? hoptions)
    have hiff : ∀ t, completedResponse s.service options id output = .ok t →
        (AllReplayable ext t ↔ (options.store = true →
          Continues s.service options.previousResponseId options.input)) :=
      fun t ht => complete_iff hs.sound hgood hprepared hfresh ht
    rw [orSame_iff hgood hiff]
    constructor
    · intro hcond options' hoptions' hstore hok
      rw [hoptions] at hoptions'
      cases hoptions'
      exact hcond hok hstore
    · intro hguard hok hstore
      exact hguard options hoptions hstore hok
  · simpa [Guarded] using hgood
  · exact orSame_iff hgood (fun t ht => apply_iff hs.sound hgood hfresh ht)

/-- The stored responses of a run can all be replayed exactly when every response that
it commits continues its lineage: with a predecessor, only users and assistants speak and
the lineage has room; without one, there is an item, and no system message but the first. -/
theorem replayable_iff_guarded (ext : Externals) (run : List (Action × State))
    (hrun : IsRun (Step ext) State.initial run) :
    (∀ x ∈ run, AllReplayable ext x.2.service) ↔ Meets Guarded State.initial run :=
  along_iff_meets (Step ext) Invariant (fun s => AllReplayable ext s.service) Guarded
    (invariant_step ext) (allReplayable_step_iff ext) State.initial run invariant_initial
    (fun _ _ h => (nomatch h)) hrun

/-- The JSON text of a call whose arguments are JSON already. -/
def jsonCall (name arguments : Content) : Content :=
  "\x7b\"arguments\":".toList ++ arguments ++ ",\"name\":\"".toList ++ name ++ "\"\x7d".toList

def sampleExternals : Externals := ⟨jsonCall, fun _ => .error "image is not a data URI"⟩

/-- A conversation that is summarised by a context update with a message of the given role. -/
def foldedAs (role : String) : List Action :=
  [.respond "owner" ⟨"gemma", .text "Hello".toList, true, none, [], none⟩,
    .complete 0 "resp_0" (.message ["Hi".toList]),
    .update "owner" "resp_1" ⟨"resp_0", 0, none, [.message role "Greeted.".toList]⟩
      ⟨.ok (), .ok ()⟩,
    .respond "owner" ⟨"gemma", .text "Again".toList, true, some "resp_1", [], none⟩,
    .complete 0 "resp_2" (.message ["Hi again".toList])]

theorem replayable_summary :
    ∃ run, IsRun (Step sampleExternals) State.initial run ∧
      ((last State.initial run).service.stored.lookup "resp_2").isSome = true ∧
      ∀ x ∈ run, AllReplayable sampleExternals x.2.service := by
  have hrun : (trace (act sampleExternals "gemma4") State.initial (foldedAs "user")).any
      (fun run => decide (Meets Guarded State.initial run) &&
        ((last State.initial run).service.stored.lookup "resp_2").isSome) = true := by
    decide +kernel
  obtain ⟨run, htrace, hchecks⟩ := (Option.any_eq_true _ _).mp hrun
  rw [Bool.and_eq_true, decide_eq_true_eq] at hchecks
  have hsteps := isRun_of_trace _ _ _ run htrace
  exact ⟨run, hsteps, hchecks.2,
    (replayable_iff_guarded sampleExternals run hsteps).mpr hchecks.1⟩

/-- An update stores the role "developer", which no request may use. -/
theorem summary_not_replayable :
    ¬ ∀ (ext : Externals) (run : List (Action × State)),
      IsRun (Step ext) State.initial run → ∀ x ∈ run, AllReplayable ext x.2.service := by
  intro hall
  have hrun : (trace (act sampleExternals "gemma4") State.initial
      ((foldedAs "developer").take 3)).any (fun run => run.any (fun x =>
        (x.2.service.stored.lookup "resp_1").any (fun resource =>
          !(responseLineagePrompt sampleExternals x.2.service resource resource.owner
            "gemma4").isOk))) = true := by
    decide +kernel
  obtain ⟨run, htrace, hchecks⟩ := (Option.any_eq_true _ _).mp hrun
  obtain ⟨x, hx, hresource⟩ := List.any_eq_true.mp hchecks
  obtain ⟨resource, hlookup, hrefused⟩ := (Option.any_eq_true _ _).mp hresource
  have hreplayable := hall sampleExternals run (isRun_of_trace _ _ _ run htrace) x hx "resp_1"
    resource hlookup
  unfold Replayable at hreplayable
  rw [hreplayable] at hrefused
  cases hrefused

end Cusco.Replay
