import Cusco.EngineSpilling
import Cusco.EnginePublication

/-!
What a session of the mapped engine knows between its calls. Once prepared it owns a context
with its tokens and a branch of the executor's state that holds the tokens evaluated; the
mapping it continues is at most one block behind. What it hands out is the stream that the
backend alone gives for its request.
-/

namespace Cusco.EngineSessions

open Calls LogicalStore Physical Mapped StoreAccounts EngineFrames EngineInvariant EngineOperations
  EnginePublication
open Calls.Call (Moves Triple)

section Streams

variable {Logits Sampler : Type}

/-- The tokens evaluated before the first one is sampled. -/
def promptOf (b : Backend Logits Sampler) (request : EngineRequest) : List Token :=
  request.priorTokens ++ b.tokenize request.prompt

/-- The first tokens sampled for a request, and the sampler after them. -/
def stream (b : Backend Logits Sampler) (request : EngineRequest) : ℕ → List Token × Sampler
  | 0 => ([], b.samplerWithGrammar request.sampling request.grammar)
  | n + 1 =>
    let (tokens, sampler) := stream b request n
    let (sampled, sampler') := b.sample sampler (b.logits (promptOf b request ++ tokens))
    (tokens ++ [sampled], sampler')

/-- The tokens handed out are those of the stream, and the session's tokens end in them. -/
structure Handed (b : Backend Logits Sampler) (session : MappedSession Logits Sampler)
    (emitted : List Token) : Prop where
  tokens : session.tokens = promptOf b session.request ++ emitted
  generated : session.generated = emitted.length
  stream : (stream b session.request emitted.length).1 = emitted

/-- More tokens may follow. -/
structure Continues (b : Backend Logits Sampler) (request : EngineRequest)
    (emitted : List Token) : Prop where
  bounded : emitted.length ≤ request.maxTokens
  unended : ∀ x ∈ emitted, b.tokenIsEog x = false

/-- The last token ends the generation, and none before. -/
structure Ends (b : Backend Logits Sampler) (request : EngineRequest)
    (emitted : List Token) : Prop where
  bounded : emitted.length ≤ request.maxTokens
  before : ∀ x ∈ emitted.dropLast, b.tokenIsEog x = false
  last : emitted.length = request.maxTokens ∨
    ∃ x, emitted.getLast? = some x ∧ b.tokenIsEog x = true

end Streams

section Sessions

variable {Logits Sampler : Type}

structure Fresh (session : MappedSession Logits Sampler) : Prop where
  context : session.logicalContext = none
  branch : session.activeMapping = none
  generated : session.generated = 0
  chunk : session.request.prefillChunkTokens ≠ 0

/-- A chunk of the prompt is nonempty, and its end is representable. -/
structure Chunked (session : MappedSession Logits Sampler) : Prop where
  length : session.tokens.length ≤ u64Max
  chunk : session.request.prefillChunkTokens ≠ 0

/-- The context, the branch and the parent of a session that is prepared. -/
structure Working (e : MappedEngine) (b : Backend Logits Sampler) (s : MappedState Logits)
    (session : MappedSession Logits Sampler) : Prop where
  context : ∃ c, session.logicalContext = some c ∧ Owns c session.tokens s
  branch : ∃ h, session.activeMapping = some h ∧ Unshared s h ∧
    s.executor.tokensOf h = session.tokens.take session.evaluated
  evaluated : session.evaluated ≤ session.tokens.length
  first : session.parent = none → session.evaluated < e.profile.blockSize
  later : ∀ p, session.parent = some p → ∃ entry, s.logical.mappings.lookup p = some entry ∧
    entry.mapping.representedEnd ≤ session.evaluated ∧
    session.evaluated < entry.mapping.representedEnd + e.profile.blockSize
  next : session.next = if session.evaluated = 0 then none
    else some (b.logits (session.tokens.take session.evaluated))

/-- A session between its calls, with the tokens it handed out and whether it was stopped. -/
inductive Attached (e : MappedEngine) (b : Backend Logits Sampler) (s : MappedState Logits)
    (session : MappedSession Logits Sampler) (emitted : List Token) (stopped : Bool) : Prop
  | preparation (hstage : session.stage = .preparation) (hstopped : stopped = false)
      (hfinished : session.finished = none) (hemitted : emitted = []) (hfresh : Fresh session)
  | prefill (hstage : session.stage = .prefill) (hstopped : stopped = false)
      (hfinished : session.finished = none) (hemitted : emitted = [])
      (hworking : Working e b s session) (hhanded : Handed b session emitted)
      (hchunked : Chunked session)
  | decode (hstage : session.stage = .decode) (hstopped : stopped = false)
      (hfinished : session.finished = none) (hworking : Working e b s session)
      (hevaluated : session.evaluated = session.tokens.length)
      (hhanded : Handed b session emitted) (hcontinues : Continues b session.request emitted)
      (hsampler : session.sampler = some (stream b session.request emitted.length).2)
  | publication (hstage : session.stage = .publication) (hstopped : stopped = false)
      (hfinished : session.finished = none) (hhanded : Handed b session emitted)
      (hends : Ends b session.request emitted)
  | finished (output : EngineOutput) (hstage : session.stage = .finished)
      (hfinished : session.finished = some output)
      (houtput : output.successorTokens = session.tokens)
      (hhanded : stopped = false ∨ emitted ≠ [] → Handed b session emitted)
      (hends : stopped = false → Ends b session.request emitted)

end Sessions

section Evolution

variable {Logits Sampler : Type} {sha : List UInt8 → Digest} {e : MappedEngine}
  {b : Backend Logits Sampler} {own : Option LogicalContextId}
  {branch : Option RepresentationHandle} {s t : MappedState Logits}
  {session : MappedSession Logits Sampler}

/-- A context that is stored was issued. -/
theorem issued_of_owns (hs : Sound sha e b s) {c : LogicalContextId} {tokens : List Token}
    (h : Owns c tokens s) : c.value < s.logical.nextContext := by
  obtain ⟨context, hc, _⟩ := h
  exact (hs.accounted.numbered c context hc).2

theorem Working.evolve (h : Working e b s session) (hs : Sound sha e b s)
    (he : Evolves own branch s t)
    (hown : ∀ c, session.logicalContext = some c → own ≠ some c)
    (hbranch : ∀ k, session.activeMapping = some k → branch ≠ some k) :
    Working e b t session where
  context := by
    obtain ⟨c, hc, howns⟩ := h.context
    have hissued := issued_of_owns hs howns
    obtain ⟨context, hstored, htokens, hmodel, hadapter⟩ := howns
    refine ⟨c, hc, context, ?_, htokens, hmodel.trans he.modelEpoch.symm, hadapter⟩
    rw [he.contexts c hissued (hown c hc)]
    exact hstored
  branch := by
    obtain ⟨k, hk, hunshared, htokens⟩ := h.branch
    exact ⟨k, hk, hunshared.evolve he,
      (he.evaluated k hunshared.issued (hbranch k hk)).trans htokens⟩
  evaluated := h.evaluated
  first := h.first
  later := by
    intro p hp
    obtain ⟨entry, hentry, hlater⟩ := h.later p hp
    obtain ⟨entry', hentry', hsame⟩ := he.mappings p entry hentry
    exact ⟨entry', hentry', hsame ▸ hlater⟩
  next := h.next

/-- A session is not disturbed by a call that works elsewhere. -/
theorem Attached.evolve {emitted : List Token} {stopped : Bool}
    (h : Attached e b s session emitted stopped) (hs : Sound sha e b s)
    (he : Evolves own branch s t)
    (hown : ∀ c, session.logicalContext = some c → own ≠ some c)
    (hbranch : ∀ k, session.activeMapping = some k → branch ≠ some k) :
    Attached e b t session emitted stopped := by
  cases h with
  | preparation hstage hstopped hfinished hemitted hfresh =>
    exact .preparation hstage hstopped hfinished hemitted hfresh
  | prefill hstage hstopped hfinished hemitted hworking hhanded hchunked =>
    exact .prefill hstage hstopped hfinished hemitted (hworking.evolve hs he hown hbranch) hhanded
      hchunked
  | decode hstage hstopped hfinished hworking hevaluated hhanded hcontinues hsampler =>
    exact .decode hstage hstopped hfinished (hworking.evolve hs he hown hbranch) hevaluated
      hhanded hcontinues hsampler
  | publication hstage hstopped hfinished hhanded hends =>
    exact .publication hstage hstopped hfinished hhanded hends
  | finished output hstage hfinished houtput hhanded hends =>
    exact .finished output hstage hfinished houtput hhanded hends

end Evolution

section Calls

variable {Logits Sampler : Type} {sha : List UInt8 → Digest} {e : MappedEngine}
  {b : Backend Logits Sampler} {own own' : Option LogicalContextId}
  {branch branch' : Option RepresentationHandle} {s t u : MappedState Logits}

/-- A call that works in fewer places. -/
theorem held_widen (h : Held sha e b own' branch' s t) (hown : own' = none ∨ own' = own)
    (hbranch : branch' = none ∨ branch' = branch) : Held sha e b own branch s t := by
  refine ⟨⟨h.evolves.root, h.evolves.modelEpoch, h.evolves.next, ?_, h.evolves.present,
    h.evolves.created, h.evolves.mappings, h.evolves.identities, ?_, h.evolves.natives⟩, h.sound⟩
  · intro c hc hne
    apply h.evolves.contexts c hc
    rcases hown with rfl | rfl
    · exact fun hnone => nomatch hnone
    · exact hne
  · intro k hk hne
    apply h.evolves.evaluated k hk
    rcases hbranch with rfl | rfl
    · exact fun hnone => nomatch hnone
    · exact hne

theorem held_trans (hst : Held sha e b own branch s t) (htu : Held sha e b own branch t u) :
    Held sha e b own branch s u :=
  ⟨hst.evolves.trans htu.evolves, htu.sound⟩

/-- The contexts change, and everything else of the store stays. -/
theorem held_contexts {l : ContextStore} (hs : Sound sha e b s) (haccounted : Accounted l)
    (hmappings : l.mappings = s.logical.mappings)
    (hnext : s.logical.nextContext ≤ l.nextContext)
    (hcontexts : ∀ c, c.value < s.logical.nextContext → own ≠ some c →
      l.contexts.lookup c = s.logical.contexts.lookup c)
    (hpresent : ∀ c, c.value < s.logical.nextContext →
      (l.contexts.lookup c = none ↔ s.logical.contexts.lookup c = none))
    (hcreated : ∀ c, s.logical.nextContext ≤ c.value → c.value < l.nextContext →
      l.contexts.lookup c ≠ none) :
    Held sha e b own branch s { s with logical := l } := by
  refine ⟨⟨rfl, rfl, hnext, hcontexts, hpresent, hcreated, ?_, le_rfl, fun _ _ _ => rfl,
    fun _ _ hk => Or.inl hk⟩, ⟨haccounted, ?_, ?_, ?_, ?_, hs.spilled, hs.bounded, hs.root_issued,
    hs.root_empty⟩⟩
  · intro m entry hentry
    exact ⟨entry, hmappings ▸ hentry, rfl⟩
  · intro m entry hentry
    exact hs.pinned m entry (hmappings ▸ hentry)
  · intro m entry hentry
    apply (hs.blocks m entry (hmappings ▸ hentry)).keep
    intro k entry' hentry'
    exact ⟨entry', hmappings ▸ hentry', rfl⟩
  · intro m entry hentry
    exact hs.resident m entry (hmappings ▸ hentry)
  · intro m r hr
    obtain ⟨entry, hentry, hf⟩ := hs.faithful m r hr
    exact ⟨entry, hmappings ▸ hentry, hf.either, hf.native, hf.spill, hf.continuation⟩

/-- The context created holds the tokens given, under the engine's epochs. -/
theorem create_held (own : Option LogicalContextId) (branch : Option RepresentationHandle)
    (hs : Sound sha e b s) (tokens : List Token) :
    Triple (fun t => t = s) (onLogical (fun l => l.create tokens s.modelEpoch adapterEpoch))
      (fun c t => Held sha e b own branch s t ∧ Owns c tokens t ∧
        s.logical.nextContext ≤ c.value) (Held sha e b own branch s) := by
  apply Triple.within
  rintro t rfl
  show Call.Lands _ _ (t.logical.create tokens t.modelEpoch adapterEpoch)
  by_cases hmax : t.logical.nextContext = u64Max
  · have hpanics : t.logical.create tokens t.modelEpoch adapterEpoch = .panics := if_pos hmax
    rw [hpanics]
    trivial
  have hlookup : ∀ c, ((t.logical.contexts.insert ⟨t.logical.nextContext⟩
      ⟨⟨t.logical.nextContext⟩, tokens, t.modelEpoch, adapterEpoch, none, 0⟩).lookup c) =
      if c = ⟨t.logical.nextContext⟩ then
        some ⟨⟨t.logical.nextContext⟩, tokens, t.modelEpoch, adapterEpoch, none, 0⟩
      else t.logical.contexts.lookup c :=
    fun c => AList.lookup_insert_ite _ c _ _
  have hother : ∀ c : LogicalContextId, c.value < t.logical.nextContext →
      c ≠ ⟨t.logical.nextContext⟩ := by
    rintro c hc rfl
    exact absurd hc (lt_irrefl _)
  have hcall : t.logical.create tokens t.modelEpoch adapterEpoch =
      .returns (.ok ⟨t.logical.nextContext⟩) { t.logical with
        nextContext := t.logical.nextContext + 1
        contexts := t.logical.contexts.insert ⟨t.logical.nextContext⟩
          ⟨⟨t.logical.nextContext⟩, tokens, t.modelEpoch, adapterEpoch, none, 0⟩ } := if_neg hmax
  rw [hcall]
  refine ⟨held_contexts hs (accounted_create t.logical _ hs.accounted tokens t.modelEpoch
    adapterEpoch _ hcall) rfl (Nat.le_succ _) ?_ ?_ ?_, ⟨_, AList.lookup_insert _, rfl, rfl, rfl⟩,
    le_rfl⟩
  · intro c hc _
    exact (hlookup c).trans (if_neg (hother c hc))
  · intro c hc
    exact ((hlookup c).trans (if_neg (hother c hc))).congr_left
  · intro c hle hlt
    have hc : c = ⟨t.logical.nextContext⟩ := by
      obtain ⟨n⟩ := c
      exact congrArg LogicalContextId.mk (Nat.le_antisymm (Nat.lt_succ_iff.mp hlt) hle)
    exact fun hnone => nomatch ((hlookup c).trans (if_pos hc)).symm.trans hnone

/-- The token appended to the caller's own context. -/
theorem append_held (branch : Option RepresentationHandle) (hs : Sound sha e b s)
    {c : LogicalContextId} {tokens : List Token} (howns : Owns c tokens s) (token : Token) :
    Triple (fun t => t = s) (onLogical (fun l => l.append c [token]))
      (fun _ t => Held sha e b (some c) branch s t ∧ Owns c (tokens ++ [token]) t ∧
        ∃ l, t = { s with logical := l } ∧ l.mappings = s.logical.mappings)
      (Held sha e b (some c) branch s) := by
  obtain ⟨context, hc, rfl, hmodel, hadapter⟩ := howns
  apply Triple.within
  rintro t rfl
  show Call.Lands _ _ (t.logical.append c [token])
  by_cases hmax : context.revision = u64Max
  · simp only [ContextStore.append, hc, if_neg (List.cons_ne_nil token []), if_pos hmax]
    trivial
  have hcall : t.logical.append c [token] = .returns (.ok ()) { t.logical with
      contexts := t.logical.contexts.insert c { context with
        tokens := context.tokens ++ [token]
        revision := context.revision + 1 } } := by
    simp only [ContextStore.append, hc, if_neg (List.cons_ne_nil token []), if_neg hmax]
  rw [hcall]
  refine ⟨held_contexts hs (accounted_append t.logical _ hs.accounted c [token] _ hcall) rfl le_rfl
    ?_ ?_ (fun _ hle hlt => absurd hlt (Nat.not_lt.mpr hle)),
    ⟨_, AList.lookup_insert _, rfl, hmodel, hadapter⟩, _, rfl, rfl⟩
  · intro d _ hown
    exact AList.lookup_insert_ne (fun heq => hown (heq ▸ rfl))
  · intro d _
    show (t.logical.contexts.insert c _).lookup d = none ↔ _
    rw [AList.lookup_insert_ite]
    by_cases hd : d = c
    · rw [if_pos hd, hd, hc]
      exact iff_of_false (fun hnone => nomatch hnone) (fun hnone => nomatch hnone)
    · rw [if_neg hd]

end Calls

section Lifting

variable {Logits Sampler α β : Type} {P : MappedState Logits → Prop}
  {F : Locked Logits Sampler → Prop} {session : MappedSession Logits Sampler}

/-- The state satisfies `P` and the session is this one. -/
def At (P : MappedState Logits → Prop) (session : MappedSession Logits Sampler)
    (l : Locked Logits Sampler) : Prop :=
  P l.state ∧ l.session = session

theorem at_onState {x : Operation Logits α} {Q : α → MappedState Logits → Prop}
    {E : MappedState Logits → Prop} (h : Triple P x Q E) (hfails : ∀ s, E s → F ⟨s, session⟩) :
    Triple (At P session) (onState x) (fun a => At (Q a) session) F := by
  apply Triple.within
  rintro ⟨s, _⟩ ⟨hs, rfl⟩
  have hlands := h s hs
  cases hrun : x.run s with
  | panics => trivial
  | returns r t =>
    rw [hrun] at hlands
    cases r with
    | ok a => exact ⟨hlands, rfl⟩
    | error err => exact hfails t hlands

theorem at_setSession (f : MappedSession Logits Sampler → MappedSession Logits Sampler) :
    Triple (At P session) (setSession f) (fun _ => At P (f session)) F := by
  apply Triple.update
  rintro ⟨s, _⟩ ⟨hs, rfl⟩
  exact ⟨hs, rfl⟩

/-- The state may be named before the call. -/
theorem at_state {x : SessionCall Logits Sampler β} {Q : β → Locked Logits Sampler → Prop}
    (h : ∀ s, P s → Triple (At (fun t => t = s) session) x Q F) : Triple (At P session) x Q F := by
  intro l ⟨hl, hsession⟩
  exact h l.state hl l ⟨rfl, hsession⟩

/-- What is read is a state with `P` and the session. -/
theorem at_read_bind {f : Locked Logits Sampler → SessionCall Logits Sampler β}
    {Q : β → Locked Logits Sampler → Prop}
    (hf : ∀ s, P s → Triple (At (fun t => t = s) session) (f ⟨s, session⟩) Q F) :
    Triple (At P session) (Call.read >>= f) Q F := by
  apply Triple.read_bind
  rintro ⟨s, _⟩ ⟨hs, rfl⟩
  apply (hf s hs).before
  rintro _ rfl
  exact ⟨rfl, rfl⟩

/-- The state read is not needed where only the session is used. -/
theorem at_session_bind {f : Locked Logits Sampler → SessionCall Logits Sampler β}
    {Q : β → Locked Logits Sampler → Prop}
    (hf : ∀ s, Triple (At P session) (f ⟨s, session⟩) Q F) :
    Triple (At P session) (Call.read >>= f) Q F := by
  apply at_read_bind
  intro s hs
  apply (hf s).before
  rintro l ⟨rfl, hl⟩
  exact ⟨hs, hl⟩

theorem at_aside {x : Operation Logits α} (hx : Moves Aside x) (hP : Stable P)
    (hfails : ∀ s, P s → F ⟨s, session⟩) :
    Triple (At P session) (onState x) (fun _ => At P session) F :=
  at_onState (triple_aside hx hP) hfails

end Lifting

end Cusco.EngineSessions
