import Cusco.LayerFrames

/-!
What a session's calls leave of the layers under the engine. Short of a preparation and of a
publication they leave all of them alone, but for the context, which a sampled token is
appended to.
-/

namespace Cusco.SessionFrames

open Calls LogicalStore Physical Mapped EngineFrames EngineInvariant EngineSessions SessionCalls
open EngineRuns LayerFrames
open Calls.Call (Moves Triple)

variable {Logits Sampler : Type} {e : MappedEngine} {b : Backend Logits Sampler}
  {a : MappedState Logits} {session : MappedSession Logits Sampler}

/-- Whatever became of the session, the engine's layers are the same. -/
def Near (l l' : Locked Logits Sampler) : Prop := Apart l.state l'.state

theorem near_refl (l : Locked Logits Sampler) : Near l l := Apart.refl _

theorem near_bind {α β : Type} {x : SessionCall Logits Sampler α}
    {f : α → SessionCall Logits Sampler β} (hx : Moves Near x) (hf : ∀ r, Moves Near (f r)) :
    Moves Near (x >>= f) :=
  Moves.bind (fun l l' l'' h h' => Apart.trans l.state l'.state l''.state h h') hx hf

theorem near_onState {α : Type} {x : Operation Logits α} (hx : Moves Apart x) :
    Moves Near (onState x : SessionCall Logits Sampler α) :=
  Moves.lift hx (fun _ _ h => h)

theorem near_attempt (err : Mapped.Error) :
    Moves Near (onState (attempt err) : SessionCall Logits Sampler Unit) :=
  near_onState (apart_attempt err)

theorem near_setSession (f : MappedSession Logits Sampler → MappedSession Logits Sampler) :
    Moves Near (setSession f) :=
  Moves.update (fun _ => Apart.refl _)

theorem near_read_bind {β : Type}
    {f : Locked Logits Sampler → SessionCall Logits Sampler β} (hf : ∀ l, Moves Near (f l)) :
    Moves Near (Call.read >>= f) :=
  near_bind (Moves.read near_refl) hf

theorem near_pure {α : Type} (r : α) : Moves Near (pure r : SessionCall Logits Sampler α) :=
  Moves.pure near_refl r

theorem near_tokenizeRequest : Moves Near (tokenizeRequest e b) := by
  unfold tokenizeRequest
  refine near_bind (near_attempt _) (fun _ => near_read_bind (fun l => ?_))
  refine near_bind (near_attempt _) (fun _ => near_bind (near_setSession _) (fun _ => ?_))
  refine near_bind (Moves.require near_refl _ _) (fun total => ?_)
  exact near_bind (Moves.check near_refl _ _) (fun _ => near_setSession _)

theorem near_activateOwned : Moves Near (activateOwned session) :=
  near_bind (Moves.unwrap near_refl _) (fun active => near_onState (apart_activateMapping active))

theorem near_decodeChunk : Moves Near (decodeChunk e b) := by
  unfold decodeChunk
  refine near_read_bind (fun l => near_bind (near_onState (apart_decodeTokens b _)) ?_)
  intro next
  exact near_bind (near_setSession _) (fun _ => near_bind (near_attempt _)
    (fun _ => near_setSession _))

theorem near_enterDecode : Moves Near (enterDecode b) := by
  unfold enterDecode
  refine near_read_bind (fun l => near_bind (Moves.check near_refl _ _) (fun _ => ?_))
  exact near_bind (near_attempt _) (fun _ => near_bind (near_setSession _) (fun _ => near_pure _))

theorem near_leaveBranch : Moves Near (leaveBranch : SessionCall Logits Sampler Unit) := by
  unfold leaveBranch
  apply near_read_bind
  intro l
  cases l.session.activeMapping with
  | none => exact near_pure ()
  | some active =>
    refine near_bind (near_setSession _) (fun _ =>
      near_bind (near_onState apart_activeRepresentation) (fun current => ?_))
    exact Moves.ite (near_onState (apart_activateMapping _)) (near_pure ())

theorem near_publish : Moves Near (publish : SessionCall Logits Sampler EngineOutput) := by
  unfold publish
  apply near_read_bind
  intro l
  cases l.session.finished with
  | some output => exact near_pure output
  | none =>
    refine near_bind (near_attempt _) (fun _ => near_bind (near_setSession _) (fun _ => ?_))
    exact near_bind near_leaveBranch (fun _ => near_bind (near_setSession _)
      (fun _ => near_pure _))

/-- A call that leaves the layers alone, in a session that is known. -/
theorem at_apart {α : Type} {x : Operation Logits α} (hx : Moves Apart x) :
    Triple (At (Apart a) session) (onState x) (fun _ => At (Apart a) session)
      (fun l => Apart a l.state) :=
  at_onState (Triple.of_moves hx (fun s t hst hs => Apart.trans a s t hs hst)) (fun _ hs => hs)

/-- Beside what another triple says of it, a call leaves the layers alone. -/
theorem triple_near {α : Type} {x : SessionCall Logits Sampler α}
    {P F : Locked Logits Sampler → Prop} {Q : α → Locked Logits Sampler → Prop}
    (h : Triple P x Q F) (hx : Moves Near x) :
    Triple (fun l => P l ∧ Apart a l.state) x (fun r l => Q r l ∧ Apart a l.state)
      (fun l => Apart a l.state) := by
  have hnear : Triple (fun l => Apart a l.state) x (fun _ l => Apart a l.state)
      (fun l => Apart a l.state) :=
    Triple.of_moves hx (fun l l' hl hal => Apart.trans a l.state l'.state hal hl)
  exact (h.and hnear).weaken (fun _ hl => hl) (fun _ _ hl => hl) (fun _ hl => hl.2)

/-- The context of a request is created, and nothing else of the layers changes. -/
theorem create_apart (tokens : List Token) (modelEpoch : ModelEpoch)
    {E : MappedState Logits → Prop} :
    Triple (Apart a) (onLogical (fun l => l.create tokens modelEpoch adapterEpoch))
      (fun c s => ∃ store, a.logical.create tokens modelEpoch adapterEpoch =
        .returns (.ok c) store ∧ Apart { a with logical := store } s) E := by
  apply Triple.within
  intro s hs
  show Call.Lands _ _ (s.logical.create tokens modelEpoch adapterEpoch)
  rw [hs.beside.logical]
  unfold ContextStore.create
  by_cases hmax : a.logical.nextContext = u64Max
  · rw [if_pos hmax]
    trivial
  · rw [if_neg hmax]
    exact ⟨_, rfl, ⟨hs.beside.physical, rfl, hs.beside.resident⟩, hs.nextIdentity, hs.modelEpoch⟩

theorem mappings_of_create {l l' : ContextStore} {tokens : List Token} {modelEpoch : ModelEpoch}
    {c : LogicalContextId}
    (h : l.create tokens modelEpoch adapterEpoch = .returns (.ok c) l') :
    l'.mappings = l.mappings := by
  unfold ContextStore.create at h
  split at h
  · cases h
  · cases h
    rfl

/-- The context after a token was appended to it. -/
theorem append_known {l l' : ContextStore} {c : LogicalContextId} {token : Token}
    {r : Except LogicalStore.Error Unit} (h : l.append c [token] = .returns r l') :
    l'.mappings = l.mappings ∧ ∀ u, r = .ok u → ∀ context, l.contexts.lookup c = some context →
      l'.contexts.lookup c = some { context with
        tokens := context.tokens ++ [token]
        revision := context.revision + 1 } := by
  unfold ContextStore.append at h
  cases hc : l.contexts.lookup c with
  | none =>
    simp only [hc] at h
    cases h
    exact ⟨rfl, fun _ hfailed => nomatch hfailed⟩
  | some context =>
    simp only [hc, if_neg (List.cons_ne_nil token [])] at h
    split at h
    · cases h
    · cases h
      refine ⟨rfl, fun _ _ context' hcontext' => ?_⟩
      cases hcontext'
      exact AList.lookup_insert _

/-- The sampler and the logits that the next token was sampled from, and the store after the
token was appended. -/
structure Appends (b : Backend Logits Sampler) (a : MappedState Logits)
    (session : MappedSession Logits Sampler) (c : LogicalContextId) (sampler : Sampler)
    (next : Logits) (store : ContextStore) (token : Token) (l : Locked Logits Sampler) : Prop where
  drawn : session.sampler = some sampler ∧ session.next = some next
  first : token = (b.sample sampler next).1
  appended : a.logical.append c [token] = .returns (.ok ()) store
  left : At (Apart { a with logical := store }) { session with
    sampler := some (b.sample sampler next).2
    tokens := session.tokens ++ [token]
    generated := session.generated + 1 } l

theorem sampleToken_appends {c : LogicalContextId} (hcontext : session.logicalContext = some c) :
    Triple (At (Apart a) session) (sampleToken b)
      (fun r l => ∃ sampler next store, Appends b a session c sampler next store r.1 l)
      (fun l => ∃ store : ContextStore, store.mappings = a.logical.mappings ∧
        Apart { a with logical := store } l.state) := by
  have hfails : ∀ l : Locked Logits Sampler, Apart a l.state →
      ∃ store : ContextStore, store.mappings = a.logical.mappings ∧
        Apart { a with logical := store } l.state := fun l hl => ⟨a.logical, rfl, hl⟩
  have hattempt : ∀ {session : MappedSession Logits Sampler} (err : Mapped.Error),
      Triple (At (Apart a) session) (onState (attempt err)) (fun _ => At (Apart a) session)
        (fun l => ∃ store : ContextStore, store.mappings = a.logical.mappings ∧
          Apart { a with logical := store } l.state) :=
    fun err => (at_apart (apart_attempt err)).weaken (fun _ hl => hl) (fun _ _ hl => hl) hfails
  unfold sampleToken
  apply at_session_bind
  intro _
  apply Triple.unwrap_bind
  intro sampler hsampler
  apply Triple.unwrap_bind
  intro next hnext
  apply Triple.bind (at_setSession _)
  intro _
  apply Triple.bind (hattempt _)
  intro _
  refine Triple.bind (R := fun _ => At (Apart a) { session with
    sampler := some (b.sample sampler next).2 }) ?_ ?_
  · unfold Call.skipIf
    exact Triple.ite (fun _ => Triple.pure (fun _ hl => hl)) (fun _ => hattempt _)
  intro _
  apply Triple.bind (hattempt _)
  intro _
  apply Triple.bind (at_setSession _)
  intro _
  apply Triple.unwrap_bind
  intro c' hc'
  cases hcontext.symm.trans hc'
  have happend : Triple (Apart a)
      (onLogical (fun l => l.append c [(b.sample sampler next).1]) : Operation Logits Unit)
      (fun _ s => ∃ store, a.logical.append c [(b.sample sampler next).1] =
        .returns (.ok ()) store ∧ Apart { a with logical := store } s)
      (fun s => ∃ store : ContextStore, store.mappings = a.logical.mappings ∧
        Apart { a with logical := store } s) := by
    apply Triple.within
    intro s hs
    show Call.Lands _ _ (s.logical.append c [(b.sample sampler next).1])
    rw [hs.beside.logical]
    cases hrun : a.logical.append c [(b.sample sampler next).1] with
    | panics => trivial
    | returns r store =>
      have hleft : Apart { a with logical := store } { s with logical := store } :=
        ⟨⟨hs.beside.physical, rfl, hs.beside.resident⟩, hs.nextIdentity, hs.modelEpoch⟩
      cases r with
      | ok _ => exact ⟨store, rfl, hleft⟩
      | error err => exact ⟨store, (append_known hrun).1, hleft⟩
  apply Triple.bind (at_onState happend (fun _ hs => hs))
  intro _
  apply Triple.bind (at_setSession _)
  intro _
  apply Triple.pure
  rintro ⟨s, _⟩ ⟨⟨store, hstore, hs⟩, rfl⟩
  exact ⟨sampler, next, store, ⟨hsampler, hnext⟩, rfl, hstore, hs, rfl⟩

section Actions

variable {w w' : World Logits Sampler} {P : MappedState Logits → Prop}

theorem triple_near_kept (hP : ∀ s t, Beside s t → P s → P t) {α : Type}
    {x : SessionCall Logits Sampler α} (hx : Moves Near x) :
    Triple (fun l => P l.state) x (fun _ l => P l.state) (fun l => P l.state) :=
  Triple.of_moves hx (fun l l' hl hp => hP l.state l'.state hl.beside hp)

theorem kept_of_call (hP : ∀ s t, Beside s t → P s → P t) {id : ℕ} {outside : List Answer}
    {stops : Bool} {x : SessionCall Logits Sampler SessionStep}
    (hx : ∀ live, w.sessions.lookup id = some live → live.failed = false →
      Triple (At (fun s => s = w.state.hear outside) live.session) x (fun _ l => P l.state)
        (fun l => P l.state))
    (hcall : callSession w id outside stops x = some w') : P w'.state := by
  obtain ⟨live, hlive, hrest⟩ := Option.bind_eq_some_iff.mp hcall
  by_cases hfailed : live.failed = true
  · rw [if_pos hfailed] at hrest
    cases hrest
  · rw [if_neg hfailed] at hrest
    cases hrun : x.run ⟨w.state.hear outside, live.session⟩ with
    | panics =>
      rw [hrun] at hrest
      cases hrest
    | returns r l =>
      rw [hrun] at hrest
      cases hrest
      have hleft : P l.state :=
        (hx live hlive (Bool.eq_false_iff.mpr hfailed)).left ⟨rfl, rfl⟩ hrun
      exact hP l.state _ (beside_hear _ _) hleft

theorem kept_of_stateCall (hP : ∀ s t, Beside s t → P s → P t) {α : Type}
    {x : Operation Logits α} {outside : List Answer} {sessions : Table ℕ (Live Logits Sampler)}
    (hx : Triple P x (fun _ => P) P) (hw : P w.state)
    (hsettle : settleState sessions (x.run (w.state.hear outside)) = some w') : P w'.state := by
  cases hrun : x.run (w.state.hear outside) with
  | panics =>
    rw [hrun] at hsettle
    cases hsettle
  | returns r t =>
    rw [hrun] at hsettle
    cases hsettle
    exact hP t _ (beside_hear _ _) (hx.left (hP w.state _ (beside_hear _ _) hw) hrun)

theorem triple_dropSession (hP : ∀ s t, Beside s t → P s → P t) :
    Triple P (dropSession session) (fun _ => P) P := by
  unfold dropSession
  cases session.activeMapping with
  | none => exact Triple.pure (fun _ hs => hs)
  | some active =>
    apply Triple.read_bind
    intro s hs
    apply Triple.before (P := P)
    · exact Triple.ite (fun _ => Triple.ignore (Triple.of_moves (beside_activateMapping _) hP))
        (fun _ => Triple.pure (fun _ hs => hs))
    · rintro _ rfl
      exact hs

/-- What depends on the layers only is kept by every action if the steps of the sessions and
spilling keep it. -/
theorem kept_of_act {sha : List UInt8 → Digest} (hP : ∀ s t, Beside s t → P s → P t)
    {action : Action} (hw : WorldSound sha e b w)
    (hsteps : ∀ id outside live, action = .step id outside → w.sessions.lookup id = some live →
      Sound sha e b (w.state.hear outside) → P (w.state.hear outside) →
      Attached e b (w.state.hear outside) live.session live.emitted live.stopped →
      Triple (At (fun s => s = w.state.hear outside) live.session) (stepSession sha e b)
        (fun _ l => P l.state) (fun l => P l.state))
    (hspill : ∀ order, Triple P (spillInactiveMappings e b order) (fun _ => P) P)
    (hkept : P w.state) (hstep : Step sha e b w action w') : P w'.state := by
  have hheard : ∀ outside, P (w.state.hear outside) :=
    fun outside => hP w.state _ (beside_hear _ _) hkept
  unfold Step act at hstep
  cases action with
  | start id request =>
    simp only at hstep
    by_cases htaken : (w.sessions.lookup id).isSome = true
    · rw [if_pos htaken] at hstep
      cases hstep
    · rw [if_neg htaken] at hstep
      cases hstart : (startSession e request :
          Except Mapped.Error (MappedSession Logits Sampler)) with
      | error err =>
        simp only [hstart] at hstep
        cases hstep
        exact hkept
      | ok session =>
        simp only [hstart] at hstep
        cases hstep
        exact hkept
  | step id outside =>
    apply kept_of_call hP ?_ hstep
    intro live hlive hok
    have hevolves : Evolves none none w.state (w.state.hear outside) :=
      Evolves.of_aside (aside_hear w.state outside)
    exact hsteps id outside live rfl hlive (hw.sound.of_aside (aside_hear w.state outside))
      (hheard outside) ((hw.attached id live hlive hok).evolve hw.sound hevolves
        (fun _ _ hnone => nomatch hnone) (fun _ _ hnone => nomatch hnone))
  | finish id outside =>
    apply kept_of_call hP ?_ hstep
    intro live _ _
    have hfinish : Moves Near (finishSession : SessionCall Logits Sampler SessionStep) :=
      near_bind near_publish (fun _ => near_pure _)
    apply (triple_near_kept hP hfinish).before
    rintro ⟨s, _⟩ ⟨rfl, _⟩
    exact hheard outside
  | drop id outside =>
    obtain ⟨live, _, hrest⟩ := Option.bind_eq_some_iff.mp hstep
    exact kept_of_stateCall hP (triple_dropSession hP) hkept hrest
  | spill order outside =>
    by_cases horder : order.Perm w.state.resident.keys
    · simp only [if_pos horder] at hstep
      exact kept_of_stateCall hP (hspill order) hkept hstep
    · simp only [if_neg horder] at hstep
      cases hstep

end Actions

end Cusco.SessionFrames
