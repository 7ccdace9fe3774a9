import Cusco.LayerAgreement
import Cusco.SessionFrames

/-!
The layers agree along runs of the mapped engine as long as no session completes a block whose
mapping is resident and spilled. The second of two sessions that publish one block breaks the
agreement when the first copy was spilled in between.
-/

namespace Cusco.AgreementRuns

open Calls LogicalStore Physical Mapped EngineFrames EngineInvariant EngineOperations
open EnginePublication EngineSessions SessionCalls EngineRuns LayerFrames LayerAgreement Runs
open SessionFrames
open PublicationCommit (validatePublication_ok)
open Calls.Call (Moves Triple)

section Definitions

variable {Logits Sampler : Type}

/-- The tokens up to the end of the block that the session's next step publishes. -/
def completedTokens (e : MappedEngine) (b : Backend Logits Sampler)
    (session : MappedSession Logits Sampler) : Option (List Token) :=
  match session.stage with
  | .prefill =>
    if session.evaluated < session.tokens.length ∧
        chunkEnd e session % e.profile.blockSize = 0 then
      some (session.tokens.take (chunkEnd e session))
    else none
  | .decode =>
    (session.sampler.bind (fun sampler => session.next.map (b.sample sampler))).bind
      (fun (sampled, _) =>
        if session.generated < session.request.maxTokens ∧ b.tokenIsEog sampled = false ∧
            session.generated + 1 ≠ session.request.maxTokens ∧
            (session.evaluated + 1) % e.profile.blockSize = 0 then
          some ((session.tokens ++ [sampled]).take (session.evaluated + 1))
        else none)
  | .preparation => none
  | .publication => none
  | .finished => none

/-- The mappings with these tokens have native state if they are resident. -/
def NoneSpilled (s : MappedState Logits) (tokens : List Token) : Prop :=
  ∀ m ∈ s.resident.keys,
    (s.logical.mappings.lookup m).map (fun entry => entry.mapping.sequence) = some tokens →
      (s.nativeOf m).isSome = true

/-- No step publishes a block whose mapping is resident and spilled. -/
def Guarded (e : MappedEngine) (b : Backend Logits Sampler) (w : World Logits Sampler) :
    Action → Prop
  | .step id _ => ∀ tokens ∈ (w.sessions.lookup id).bind
      (fun live => completedTokens e b live.session), NoneSpilled w.state tokens
  | .start _ _ => True
  | .finish _ _ => True
  | .drop _ _ => True
  | .spill _ _ => True

instance (s : MappedState Logits) (tokens : List Token) : Decidable (NoneSpilled s tokens) :=
  inferInstanceAs (Decidable (∀ m ∈ s.resident.keys,
    (s.logical.mappings.lookup m).map (fun entry => entry.mapping.sequence) = some tokens →
      (s.nativeOf m).isSome = true))

instance (e : MappedEngine) (b : Backend Logits Sampler) (w : World Logits Sampler) :
    (a : Action) → Decidable (Guarded e b w a)
  | .step id _ => inferInstanceAs (Decidable (∀ tokens ∈ (w.sessions.lookup id).bind
      (fun live => completedTokens e b live.session), NoneSpilled w.state tokens))
  | .start _ _ => isTrue trivial
  | .finish _ _ => isTrue trivial
  | .drop _ _ => isTrue trivial
  | .spill _ _ => isTrue trivial

end Definitions

variable {Logits Sampler : Type} {sha : List UInt8 → Digest} {e : MappedEngine}
  {b : Backend Logits Sampler} {a : MappedState Logits} {session : MappedSession Logits Sampler}

section Guards

/-- The block of these tokens may be published. -/
theorem unspilled_of_noneSpilled (hs : Sound sha e b a) {context : LogicalContextId}
    {tokens : List Token} (howns : Owns context tokens a) {representedEnd : ℕ}
    (hnone : NoneSpilled a (tokens.take representedEnd)) {parent : Option EvaluatedPrefixId}
    {required complete : ComponentMask} {parameters : Digest} {p : PreparedPublication}
    (hp : a.logical.preparePublication sha context representedEnd parent required complete
      parameters = .ok p)
    (hvalid : a.logical.validatePublication p = .ok ()) : Unspilled a p := by
  obtain ⟨c, hc, rfl, _⟩ := howns
  obtain ⟨_, c', hc', _, _, hmapping⟩ := preparePublication_inv hp
  cases hc.symm.trans hc'
  intro r hr
  obtain ⟨entry, hentry, _⟩ := hs.faithful _ r hr
  obtain ⟨_, hsame, _⟩ := validatePublication_ok _ p hvalid
  have hsequence : entry.mapping.sequence = c.tokens.take representedEnd := by
    rw [hsame entry hentry, hmapping]
  have hmem : p.mapping.id ∈ a.resident.keys :=
    AList.mem_keys.mpr (AList.lookup_isSome.mp (hr ▸ rfl))
  have hnative := hnone p.mapping.id hmem (by rw [hentry, Option.map_some, hsequence])
  unfold MappedState.nativeOf at hnative
  rw [hr, Option.bind_some] at hnative
  exact hnative

end Guards

section Calls

/-- The layers of the engine that the session holds. -/
abbrev Settling (l : Locked Logits Sampler) : Prop := Agreed l.state

theorem onState_agrees {α : Type} {x : Operation Logits α}
    (hx : Triple Agreed x (fun _ => Agreed) Agreed) :
    Triple Settling (onState x : SessionCall Logits Sampler α) (fun _ => Settling) Settling := by
  apply Triple.within
  intro l hl
  have hlands := hx l.state hl
  cases hrun : x.run l.state with
  | panics => trivial
  | returns r t =>
    rw [hrun] at hlands
    cases r with
    | ok _ => exact hlands
    | error err => exact hlands

/-- A call that leaves the layers alone. -/
theorem near_agrees {α : Type} {x : SessionCall Logits Sampler α} (hx : Moves Near x) :
    Triple Settling x (fun _ => Settling) Settling :=
  triple_near_kept (fun _ _ hst hs => hs.keep (.of_beside hst)) hx

/-- The logical store may change. -/
theorem onLogical_agrees {α : Type}
    (f : ContextStore → Outcome ContextStore LogicalStore.Error α) :
    Triple Settling (onState (onLogical f) : SessionCall Logits Sampler α) (fun _ => Settling)
      Settling := by
  have hmoves : Moves (fun s t => ∃ l, t = { s with logical := l })
      (onLogical f : Operation Logits α) := Moves.within (fun l _ => ⟨l, rfl⟩)
  apply onState_agrees
  apply Triple.of_moves hmoves
  rintro s _ ⟨l, rfl⟩ hs
  exact ⟨hs.orderly, hs.native⟩

theorem setSession_agrees (f : MappedSession Logits Sampler → MappedSession Logits Sampler)
    {E : Locked Logits Sampler → Prop} :
    Triple Settling (setSession f) (fun _ => Settling) E :=
  Triple.update (fun _ hl => hl)

theorem read_agrees {E : Locked Logits Sampler → Prop} :
    Triple Settling (Call.read : SessionCall Logits Sampler _) (fun _ => Settling) E :=
  Triple.read.after (fun _ _ hl => hl.2)

theorem prepare_agrees : Triple Settling (prepare e b) (fun _ => Settling) Settling := by
  unfold prepare
  apply Triple.bind (near_agrees (near_attempt _))
  intro _
  apply Triple.bind (near_agrees near_tokenizeRequest)
  intro _
  apply Triple.bind read_agrees
  intro l
  apply Triple.bind (onLogical_agrees _)
  intro context
  apply Triple.bind (onLogical_agrees _)
  intro m
  apply Triple.bind read_agrees
  intro l
  apply Triple.bind (setSession_agrees _)
  intro _
  apply Triple.bind (onState_agrees (fun s hs => branchPrefix_agrees hs context m s rfl))
  intro active
  apply Triple.bind read_agrees
  intro l'
  apply Triple.bind (setSession_agrees _)
  intro _
  exact Triple.pure (fun _ hl => hl)

/-- An operation beside the layers, in a session that is known. -/
theorem at_beside {α : Type} {x : Operation Logits α} (ha : Agreed a) (hx : Moves Beside x) :
    Triple (At (Keeps a) session) (onState x) (fun _ => At (Keeps a) session) Settling :=
  at_onState (triple_keeps (keeps_of_beside hx)) (fun _ hs => ha.keep hs)

theorem completeBlock_agrees (hs : Sound sha e b a) (ha : Agreed a)
    (hunspilled : session.evaluated % e.profile.blockSize = 0 →
      ∀ c, session.logicalContext = some c → ∀ p, a.logical.preparePublication sha c
        session.evaluated session.parent e.profile.requiredMask e.profile.requiredMask
        zeroDigest = .ok p → a.logical.validatePublication p = .ok () → Unspilled a p) :
    Triple (At (Keeps a) session) (completeBlock sha e b) (fun _ => Settling) Settling := by
  unfold completeBlock
  apply at_session_bind
  intro _
  apply Triple.ite
  · intro hend
    apply Triple.unwrap_bind
    intro active _
    apply Triple.bind (at_beside ha (beside_snapshotActiveMapping active))
    intro snapshot
    apply Triple.unwrap_bind
    intro c hc
    apply Triple.unwrap_bind
    intro continuation _
    apply Triple.bind (at_onState (publishBlock_agrees hs ha (hunspilled hend c hc))
      (fun _ ht => ht))
    intro id
    exact (at_setSession _).after (fun _ _ hl => hl.1)
  · intro _
    exact Triple.pure (fun _ hl => ha.keep hl.1)

theorem activateOwned_agrees (ha : Agreed a) :
    Triple (At (Keeps a) session) (activateOwned session) (fun _ => At (Keeps a) session)
      Settling := by
  unfold activateOwned
  apply Triple.unwrap_bind
  intro active _
  exact at_beside ha (beside_activateMapping active)

theorem prefill_agrees (hs : Sound sha e b a) (ha : Agreed a) {c : LogicalContextId}
    (hcontext : session.logicalContext = some c) (howns : Owns c session.tokens a)
    (hnone : session.evaluated < session.tokens.length →
      chunkEnd e session % e.profile.blockSize = 0 →
        NoneSpilled a (session.tokens.take (chunkEnd e session))) :
    Triple (At (Keeps a) session) (prefill sha e b) (fun _ => Settling) Settling := by
  unfold prefill
  apply at_session_bind
  intro _
  apply Triple.ite
  · intro _
    unfold enterDecode
    apply at_session_bind
    intro _
    apply Triple.check_bind (fun _ hl => ha.keep hl.1)
    intro _
    apply Triple.bind (at_beside ha (beside_attempt _))
    intro _
    apply Triple.bind (at_setSession _)
    intro _
    exact Triple.pure (fun _ hl => ha.keep hl.1)
  · intro hmore
    apply Triple.bind (at_beside ha (beside_attempt _))
    intro _
    apply Triple.bind (at_beside ha (beside_attempt _))
    intro _
    apply Triple.bind (activateOwned_agrees ha)
    intro _
    have hdecode : Triple (At (Keeps a) session) (decodeChunk e b)
        (fun _ l => ∃ next, At (Keeps a) { session with
          next := some next
          evaluated := chunkEnd e session } l) Settling := by
      unfold decodeChunk
      apply at_session_bind
      intro _
      apply Triple.bind (at_beside ha (beside_decodeTokens b _))
      intro next
      apply Triple.bind (at_setSession _)
      intro _
      apply Triple.bind (at_beside ha (beside_attempt _))
      intro _
      exact (at_setSession _).after (fun _ _ hl => ⟨next, hl⟩)
    apply Triple.bind hdecode
    intro _
    apply Triple.of_exists
    intro next
    refine Triple.bind (completeBlock_agrees hs ha ?_) (fun _ => Triple.pure (fun _ hl => hl))
    intro hend c' hc' p hp hvalid
    cases hcontext.symm.trans hc'
    exact unspilled_of_noneSpilled hs howns (hnone (Nat.not_le.mp hmore) hend) hp hvalid

/-- The session after the next token was sampled and appended to its context. -/
structure Sampled (b : Backend Logits Sampler) (a : MappedState Logits)
    (session : MappedSession Logits Sampler) (c : LogicalContextId) (sampler : Sampler)
    (next : Logits) (token : Token) (l : Locked Logits Sampler) : Prop where
  drawn : session.sampler = some sampler ∧ session.next = some next
  first : token = (b.sample sampler next).1
  appended : ∃ store, a.logical.append c [token] = .returns (.ok ()) store ∧
    At (Keeps { a with logical := store }) { session with
      sampler := some (b.sample sampler next).2
      tokens := session.tokens ++ [token]
      generated := session.generated + 1 } l

theorem sampleToken_agrees (ha : Agreed a) {c : LogicalContextId}
    (hcontext : session.logicalContext = some c) :
    Triple (At (Keeps a) session) (sampleToken b)
      (fun r l => ∃ sampler next, Sampled b a session c sampler next r.1 l) Settling := by
  apply at_state
  intro s hs
  have hleft : ∀ (store : ContextStore) (t : MappedState Logits),
      Apart { s with logical := store } t → Keeps { a with logical := store } t :=
    fun store t ht => ⟨ht.beside.logical, ht.beside.resident.trans hs.resident,
      ht.beside.physical ▸ hs.physical⟩
  apply (sampleToken_appends (a := s) hcontext).weaken
  · rintro ⟨t, _⟩ ⟨rfl, hsession⟩
    exact ⟨Apart.refl t, hsession⟩
  · intro r l ⟨sampler, next, store, happends⟩
    exact ⟨sampler, next, happends.drawn, happends.first, store, hs.logical ▸ happends.appended,
      hleft store l.state happends.left.1, happends.left.2⟩
  · rintro l ⟨store, _, hapart⟩
    have hagreed : Agreed { a with logical := store } := ⟨ha.orderly, ha.native⟩
    exact hagreed.keep (hleft store l.state hapart)

theorem decode_agrees (hs : Sound sha e b a) (ha : Agreed a) {c : LogicalContextId}
    (hstage : session.stage = .decode) (hcontext : session.logicalContext = some c)
    (howns : Owns c session.tokens a)
    (hguard : ∀ tokens ∈ completedTokens e b session, NoneSpilled a tokens) :
    Triple (At (Keeps a) session) (decode sha e b) (fun _ => Settling) Settling := by
  have hagreed : ∀ l, At (Keeps a) session l → Settling l := fun l hl => ha.keep hl.1
  unfold decode
  apply at_session_bind
  intro _
  apply Triple.ite
  · intro _
    apply Triple.bind (at_setSession _)
    intro _
    apply Triple.bind ((near_agrees near_publish).before (fun l hl => ha.keep hl.1))
    intro output
    exact Triple.pure (fun _ hl => hl)
  intro hmore
  apply Triple.bind (at_beside ha (beside_attempt _))
  intro _
  apply Triple.bind (at_beside ha (beside_attempt _))
  intro _
  apply Triple.bind (activateOwned_agrees ha)
  intro _
  apply Triple.bind (sampleToken_agrees ha hcontext)
  rintro ⟨sampled, piece⟩
  apply Triple.of_exists
  intro sampler
  apply Triple.of_exists
  -- From here on the base is the state whose store has the token.
  intro next l ⟨⟨hsampler, hnext⟩, hfirst, store, hstore, hl⟩
  obtain ⟨hheld, howns', l', hl', hmappings⟩ := (append_held none hs howns sampled).returned rfl
    (show (onLogical (fun l => l.append c [sampled]) : Operation Logits Unit).run a =
      .returns (.ok ()) { a with logical := store } by
        simp only [onLogical, Call.within, hstore])
  have hstored : store.mappings = a.logical.mappings :=
    (congrArg (fun s => s.logical.mappings) hl').trans hmappings
  have ha' : Agreed { a with logical := store } := ⟨ha.orderly, ha.native⟩
  have hpure : ∀ step, Triple Settling (pure step : SessionCall Logits Sampler SessionStep)
      (fun _ => Settling) Settling := fun step => Triple.pure (fun _ hl => hl)
  refine Triple.ite (P := At (Keeps { a with logical := store }) _) ?_ ?_ l hl
  · intro _
    exact Triple.bind ((at_setSession _).after (fun _ _ hl => ha'.keep hl.1)) (fun _ => hpure _)
  intro hlast
  rw [Bool.or_eq_true, not_or, Bool.not_eq_true, decide_eq_true_eq] at hlast
  refine Triple.bind ?_ (fun _ => hpure _)
  unfold decodeSampled
  apply Triple.bind (at_beside ha' (beside_decodeTokens b _))
  intro next'
  apply Triple.bind (at_setSession _)
  intro _
  apply Triple.bind (at_beside ha' (beside_attempt _))
  intro _
  apply Triple.bind (at_setSession _)
  intro _
  apply completeBlock_agrees hheld.sound ha'
  intro hend c' hc' p hp hvalid
  cases hcontext.symm.trans hc'
  refine unspilled_of_noneSpilled hheld.sound howns' ?_ hp hvalid
  have hnone := hguard ((session.tokens ++ [sampled]).take (session.evaluated + 1)) ?_
  · intro m hm htokens
    change (store.mappings.lookup m).map _ = _ at htokens
    rw [hstored] at htokens
    exact hnone m hm htokens
  · unfold completedTokens
    simp only [hstage, hsampler, hnext, Option.bind_some, Option.map_some, ← hfirst]
    rw [if_pos ⟨Nat.not_le.mp hmore, hlast.1, hlast.2, hend⟩]
    rfl

theorem stepSession_agrees (hs : Sound sha e b a) (ha : Agreed a) {emitted : List Token}
    {stopped : Bool} (hattached : Attached e b a session emitted stopped)
    (hguard : ∀ tokens ∈ completedTokens e b session, NoneSpilled a tokens) :
    Triple (At (fun s => s = a) session) (stepSession sha e b) (fun _ => Settling) Settling := by
  have hkept : ∀ l, At (fun s => s = a) session l → At (Keeps a) session l := by
    rintro ⟨s, _⟩ ⟨rfl, hsession⟩
    exact ⟨Keeps.refl _, hsession⟩
  have hagreed : ∀ l, At (fun s => s = a) session l → Settling l :=
    fun l hl => ha.keep (hkept l hl).1
  unfold stepSession
  apply at_session_bind
  intro _
  have hfinish : Triple Settling (do
      let output ← publish
      pure (SessionStep.finished output) : SessionCall Logits Sampler SessionStep)
      (fun _ => Settling) Settling :=
    Triple.bind (near_agrees near_publish) (fun _ => Triple.pure (fun _ hl => hl))
  cases hattached with
  | preparation hstage =>
    simp only [hstage]
    exact prepare_agrees.before hagreed
  | prefill hstage _ _ _ hworking =>
    obtain ⟨c, hc, howns⟩ := hworking.context
    simp only [hstage]
    apply (prefill_agrees hs ha hc howns ?_).before hkept
    intro hmore hend
    apply hguard
    unfold completedTokens
    simp only [hstage]
    rw [if_pos ⟨hmore, hend⟩]
    rfl
  | decode hstage _ _ hworking =>
    obtain ⟨c, hc, howns⟩ := hworking.context
    simp only [hstage]
    exact (decode_agrees hs ha hstage hc howns hguard).before hkept
  | publication hstage =>
    simp only [hstage]
    exact hfinish.before hagreed
  | finished output hstage =>
    simp only [hstage]
    apply Triple.unwrap_bind
    intro output' _
    exact Triple.pure hagreed

end Calls

section Runs

variable {w w' : World Logits Sampler}

theorem agreed_step (hw : WorldSound sha e b w) (ha : Agreed w.state) {action : Action}
    (hguard : Guarded e b w action) (hstep : Step sha e b w action w') : Agreed w'.state := by
  refine kept_of_act (fun s t hst hs => hs.keep (.of_beside hst)) hw ?_
    spillInactiveMappings_agrees ha hstep
  intro id outside live haction hlive hsound hheard hattached
  subst haction
  refine stepSession_agrees hsound hheard hattached ?_
  intro tokens htokens
  have hcompleted : tokens ∈ (w.sessions.lookup id).bind
      (fun live => completedTokens e b live.session) := by
    rw [hlive]
    exact htokens
  exact hguard tokens hcompleted

theorem agreed_opened (capacity : Capacity) (modelEpoch : ModelEpoch) :
    Agreed (MappedState.opened capacity modelEpoch : MappedState Logits) where
  orderly := ⟨PhysicalRuns.owned_new capacity, fun _ _ htable => nomatch htable⟩
  native := fun _ htable => nomatch htable

/-- In every state of a run whose steps publish no spilled block the layers agree. -/
theorem layers_agree_of_guarded (sha : List UInt8 → Digest) (e : MappedEngine)
    (b : Backend Logits Sampler) (capacity : Capacity) (modelEpoch : ModelEpoch)
    (run : List (Action × World Logits Sampler))
    (hrun : IsRun (Step sha e b) (World.opened capacity modelEpoch) run)
    (hguarded : Meets (Guarded e b) (World.opened capacity modelEpoch) run) :
    ∀ x ∈ run, LayersAgree x.2.state := by
  have hall := along_of_meets (Step sha e b) (fun w => WorldSound sha e b w ∧ Agreed w.state)
    (Guarded e b) ?_ _ run
    ⟨worldSound_opened capacity modelEpoch, agreed_opened capacity modelEpoch⟩
    hrun hguarded
  · intro x hx
    obtain ⟨hw, ha⟩ := hall x hx
    exact ha.layersAgree hw.sound
  · intro w action w' ⟨hw, ha⟩ hguard hstep
    exact ⟨worldSound_acts hw (acts_of_step hw hstep), agreed_step hw ha hguard hstep⟩

/-- The mappings resident after one session, in the order of the map. -/
def residentOf (labels : List Action) : List EvaluatedPrefixId :=
  (trace smallAct smallWorld labels).elim []
    (fun run => (last smallWorld run).state.resident.keys)

/-- Two sessions of one prompt are prepared, and the first publishes its first block. -/
def twoPrepared : List Action :=
  [.start 0 smallRequest, .start 1 smallRequest, .step 0 [], .step 1 [], .step 0 []]

/-- The second session publishes the block again. -/
theorem publishedTwice_agrees : ∃ run,
    IsRun (Step Sha256.sha256 smallEngine smallBackend) smallWorld run ∧
      (last smallWorld run).state.physical.blockTables.lookup executionSlot ≠ none ∧
      ∀ x ∈ run, LayersAgree x.2.state := by
  have hrun : (trace smallAct smallWorld (twoPrepared ++ [.step 1 []])).any (fun run =>
      decide ((last smallWorld run).state.physical.blockTables.lookup executionSlot ≠ none ∧
        Meets (Guarded smallEngine smallBackend) smallWorld run)) = true := by
    decide +kernel
  obtain ⟨run, htrace, hchecked⟩ := (Option.any_eq_true _ _).mp hrun
  obtain ⟨htable, hguarded⟩ := of_decide_eq_true hchecked
  have hsteps : IsRun (Step Sha256.sha256 smallEngine smallBackend) smallWorld run :=
    isRun_of_trace _ _ _ run htrace
  exact ⟨run, hsteps, htable, layers_agree_of_guarded Sha256.sha256 smallEngine smallBackend
    smallCapacity ⟨7⟩ run hsteps hguarded⟩

/-- The block is spilled before the second session publishes it again. -/
theorem publishedSpilled_disagrees : ∃ run,
    IsRun (Step Sha256.sha256 smallEngine smallBackend) smallWorld run ∧
      ¬LayersAgree (last smallWorld run).state := by
  have hrun : (trace smallAct smallWorld (twoPrepared ++
      [.spill (residentOf twoPrepared) [], .step 1 []])).any (fun run =>
        ((last smallWorld run).state.physical.blockTables.lookup executionSlot).any (fun table =>
          ((last smallWorld run).state.nativeOf table.mapping).isNone)) = true := by
    decide +kernel
  obtain ⟨run, htrace, hchecked⟩ := (Option.any_eq_true _ _).mp hrun
  obtain ⟨table, htable, hnone⟩ := (Option.any_eq_true _ _).mp hchecked
  refine ⟨run, isRun_of_trace _ _ _ run htrace, ?_⟩
  intro hagree
  obtain ⟨native, hnative, _⟩ := (hagree table htable).native
  rw [hnative] at hnone
  cases hnone

end Runs

end Cusco.AgreementRuns
