import Cusco.SessionCalls

/-!
Runs of the mapped engine. Between the calls the engine is sound, every session that has not
failed is attached, and no two sessions share a context or a branch. From this every mapping
stored is resident with native state or a file, the spilled bytes are accounted for, and every
mapping's parent is the one a block shorter.
-/

namespace Cusco.EngineRuns

open Calls LogicalStore Physical Mapped StoreAccounts EngineFrames EngineInvariant
open EngineOperations EngineSpilling EnginePublication EngineSessions SessionCalls Runs
open Calls.Call (Moves Triple)

section Worlds

variable {Logits Sampler : Type}

/-- What every action keeps. -/
structure WorldSound (sha : List UInt8 → Digest) (e : MappedEngine) (b : Backend Logits Sampler)
    (w : World Logits Sampler) : Prop where
  sound : Sound sha e b w.state
  attached : ∀ id live, w.sessions.lookup id = some live → live.failed = false →
    Attached e b w.state live.session live.emitted live.stopped
  contexts : ∀ id live c, w.sessions.lookup id = some live →
    live.session.logicalContext = some c → c.value < w.state.logical.nextContext
  branches : ∀ id live h, w.sessions.lookup id = some live →
    live.session.activeMapping = some h → h.identity < w.state.executor.nextIdentity
  contexts_distinct : ∀ id id' live live' c, w.sessions.lookup id = some live →
    w.sessions.lookup id' = some live' → live.session.logicalContext = some c →
    live'.session.logicalContext = some c → id = id'
  branches_distinct : ∀ id id' live live' h, w.sessions.lookup id = some live →
    w.sessions.lookup id' = some live' → live.session.activeMapping = some h →
    live'.session.activeMapping = some h → id = id'

variable {sha : List UInt8 → Digest} {e : MappedEngine} {b : Backend Logits Sampler}
  {w w' : World Logits Sampler} {s t : MappedState Logits}

theorem aside_hear (s : MappedState Logits) (outside : List Answer) : Aside s (s.hear outside) :=
  ⟨rfl, rfl, rfl, rfl, rfl, rfl, rfl, rfl⟩

theorem sound_opened (capacity : Capacity) (modelEpoch : ModelEpoch) :
    Sound sha e b (MappedState.opened capacity modelEpoch) where
  accounted := accounted_empty
  pinned := by
    intro m entry hentry
    cases (AList.lookup_empty m).symm.trans hentry
  blocks := by
    intro m entry hentry
    cases (AList.lookup_empty m).symm.trans hentry
  resident := by
    intro m entry hentry
    cases (AList.lookup_empty m).symm.trans hentry
  faithful := by
    intro m r hr
    cases (AList.lookup_empty m).symm.trans hr
  spilled := rfl
  bounded := Nat.zero_le _
  root_issued := Nat.zero_lt_succ _
  root_empty := show Executor.opened.tokensOf Executor.opened.active = [] by decide

theorem worldSound_opened (capacity : Capacity) (modelEpoch : ModelEpoch) :
    WorldSound sha e b (World.opened capacity modelEpoch) where
  sound := sound_opened capacity modelEpoch
  attached := by
    intro id live hlive
    cases (AList.lookup_empty id).symm.trans hlive
  contexts := by
    intro id live c hlive
    cases (AList.lookup_empty id).symm.trans hlive
  branches := by
    intro id live h hlive
    cases (AList.lookup_empty id).symm.trans hlive
  contexts_distinct := by
    intro id id' live live' c hlive
    cases (AList.lookup_empty id).symm.trans hlive
  branches_distinct := by
    intro id id' live live' h hlive
    cases (AList.lookup_empty id).symm.trans hlive

/-- A call on the state alone that evolves it, with some sessions gone. -/
theorem worldSound_evolved (h : WorldSound sha e b w) (ht : Held sha e b none none w.state t)
    (hsessions : ∀ id live, w'.sessions.lookup id = some live →
      w.sessions.lookup id = some live) (hstate : w'.state = t) : WorldSound sha e b w' where
  sound := hstate ▸ ht.sound
  attached := by
    intro id live hlive hfailed
    rw [hstate]
    exact (h.attached id live (hsessions id live hlive) hfailed).evolve h.sound ht.evolves
      (fun _ _ hnone => nomatch hnone) (fun _ _ hnone => nomatch hnone)
  contexts := by
    intro id live c hlive hc
    rw [hstate]
    exact (h.contexts id live c (hsessions id live hlive) hc).trans_le ht.evolves.next
  branches := by
    intro id live k hlive hk
    rw [hstate]
    exact (h.branches id live k (hsessions id live hlive) hk).trans_le ht.evolves.identities
  contexts_distinct := by
    intro id id' live live' c hlive hlive'
    exact h.contexts_distinct id id' live live' c (hsessions id live hlive)
      (hsessions id' live' hlive')
  branches_distinct := by
    intro id id' live live' k hlive hlive'
    exact h.branches_distinct id id' live live' k (hsessions id live hlive)
      (hsessions id' live' hlive')

/-- What a call of a session leaves, whether it returned a value or an error. -/
structure Called (sha : List UInt8 → Digest) (e : MappedEngine) (b : Backend Logits Sampler)
    (s : MappedState Logits) (live live' : Live Logits Sampler) (t : MappedState Logits) :
    Prop where
  held : Held sha e b live.session.logicalContext live.session.activeMapping s t
  attached : live'.failed = false → Attached e b t live'.session live'.emitted live'.stopped
  context : live'.session.logicalContext = live.session.logicalContext ∨
    ∃ c, live'.session.logicalContext = some c ∧ s.logical.nextContext ≤ c.value ∧
      c.value < t.logical.nextContext
  branch : live'.session.activeMapping = live.session.activeMapping ∨
    live'.session.activeMapping = none ∨ ∃ h, live'.session.activeMapping = some h ∧
      s.executor.nextIdentity ≤ h.identity ∧ h.identity < t.executor.nextIdentity

theorem worldSound_called (h : WorldSound sha e b w) {id : ℕ} {live live' : Live Logits Sampler}
    (hlive : w.sessions.lookup id = some live) (hcalled : Called sha e b w.state live live' t) :
    WorldSound sha e b ⟨t, w.sessions.insert id live'⟩ := by
  have hlookup : ∀ k, (w.sessions.insert id live').lookup k =
      if k = id then some live' else w.sessions.lookup k :=
    fun k => AList.lookup_insert_ite id k live' w.sessions
  have hfind : ∀ k l, (w.sessions.insert id live').lookup k = some l →
      k = id ∧ l = live' ∨ k ≠ id ∧ w.sessions.lookup k = some l := by
    intro k l hl
    rw [hlookup] at hl
    by_cases hk : k = id
    · rw [if_pos hk] at hl
      exact Or.inl ⟨hk, (Option.some.inj hl).symm⟩
    · rw [if_neg hk] at hl
      exact Or.inr ⟨hk, hl⟩
  have hcontext : ∀ k l c, k ≠ id → w.sessions.lookup k = some l →
      l.session.logicalContext = some c → live'.session.logicalContext ≠ some c := by
    intro k l c hk hl hc hc'
    rcases hcalled.context with hsame | ⟨c', hfresh, hnew, _⟩
    · exact hk (h.contexts_distinct k id l live c hl hlive hc (hsame ▸ hc'))
    · rw [hfresh] at hc'
      cases hc'
      exact absurd (h.contexts k l c hl hc) (Nat.not_lt.mpr hnew)
  have hbranch : ∀ k l m, k ≠ id → w.sessions.lookup k = some l →
      l.session.activeMapping = some m → live'.session.activeMapping ≠ some m := by
    intro k l m hk hl hm hm'
    rcases hcalled.branch with hsame | hnone | ⟨m', hfresh, hnew, _⟩
    · exact hk (h.branches_distinct k id l live m hl hlive hm (hsame ▸ hm'))
    · rw [hnone] at hm'
      cases hm'
    · rw [hfresh] at hm'
      cases hm'
      exact absurd (h.branches k l m hl hm) (Nat.not_lt.mpr hnew)
  have hevolves := hcalled.held.evolves
  refine ⟨hcalled.held.sound, ?_, ?_, ?_, ?_, ?_⟩
  · intro k l hl hfailed
    rcases hfind k l hl with ⟨rfl, rfl⟩ | ⟨hk, hold⟩
    · exact hcalled.attached hfailed
    · exact (h.attached k l hold hfailed).evolve h.sound hevolves
        (fun c hc hown => hk (h.contexts_distinct k id l live c hold hlive hc hown))
        (fun m hm hown => hk (h.branches_distinct k id l live m hold hlive hm hown))
  · intro k l c hl hc
    rcases hfind k l hl with ⟨rfl, rfl⟩ | ⟨hk, hold⟩
    · rcases hcalled.context with hsame | ⟨c', hfresh, _, hissued⟩
      · exact (h.contexts k live c hlive (hsame ▸ hc)).trans_le hevolves.next
      · rw [hfresh] at hc
        cases hc
        exact hissued
    · exact (h.contexts k l c hold hc).trans_le hevolves.next
  · intro k l m hl hm
    rcases hfind k l hl with ⟨rfl, rfl⟩ | ⟨hk, hold⟩
    · rcases hcalled.branch with hsame | hnone | ⟨m', hfresh, _, hissued⟩
      · exact (h.branches k live m hlive (hsame ▸ hm)).trans_le hevolves.identities
      · rw [hnone] at hm
        cases hm
      · rw [hfresh] at hm
        cases hm
        exact hissued
    · exact (h.branches k l m hold hm).trans_le hevolves.identities
  · intro k k' l l' c hl hl' hc hc'
    rcases hfind k l hl with ⟨rfl, rfl⟩ | ⟨hk, hold⟩
    · rcases hfind k' l' hl' with ⟨rfl, _⟩ | ⟨hk', hold'⟩
      · rfl
      · exact absurd hc (hcontext k' l' c hk' hold' hc')
    · rcases hfind k' l' hl' with ⟨rfl, rfl⟩ | ⟨hk', hold'⟩
      · exact absurd hc' (hcontext k l c hk hold hc)
      · exact h.contexts_distinct k k' l l' c hold hold' hc hc'
  · intro k k' l l' m hl hl' hm hm'
    rcases hfind k l hl with ⟨rfl, rfl⟩ | ⟨hk, hold⟩
    · rcases hfind k' l' hl' with ⟨rfl, _⟩ | ⟨hk', hold'⟩
      · rfl
      · exact absurd hm (hbranch k' l' m hk' hold' hm')
    · rcases hfind k' l' hl' with ⟨rfl, rfl⟩ | ⟨hk', hold'⟩
      · exact absurd hm' (hbranch k l m hk hold hm)
      · exact h.branches_distinct k k' l l' m hold hold' hm hm'

/-- How a call of a session shows in the world. -/
theorem called_of_triple {stops : Bool} {x : SessionCall Logits Sampler SessionStep} {id : ℕ}
    {live : Live Logits Sampler} {outside : List Answer} (hs : Sound sha e b w.state)
    (hx : Triple (At (fun s => s = w.state.hear outside) live.session) x
      (fun step l => Settled sha e b live.session.logicalContext live.session.activeMapping
        (w.state.hear outside) (live.emitted ++ emittedBy (.ok step))
        (live.stopped || stops && live.session.finished.isNone) l ∧
          l.session.request = live.session.request)
      (Failed sha e b live.session.logicalContext live.session.activeMapping
        (w.state.hear outside)))
    (hsettle : settle w id live stops (x.run ⟨w.state.hear outside, live.session⟩) = some w') :
    ∃ live' t, w' = ⟨t, w.sessions.insert id live'⟩ ∧ Called sha e b w.state live live' t ∧
      live'.contexts = live.contexts ++ createdSince w.state.logical t.logical ∧
      (live'.failed = false → live'.session.request = live.session.request) := by
  have hheard : ∀ t, Held sha e b live.session.logicalContext live.session.activeMapping
      (w.state.hear outside) t → Held sha e b live.session.logicalContext
        live.session.activeMapping w.state (t.hear []) := by
    intro t ht
    have hrefl : Held sha e b live.session.logicalContext live.session.activeMapping
        w.state w.state := Held.refl hs
    exact (held_trans (hrefl.of_aside (aside_hear w.state outside)) ht).of_aside
      (aside_hear t [])
  cases hrun : x.run ⟨w.state.hear outside, live.session⟩ with
  | panics =>
    rw [hrun] at hsettle
    cases hsettle
  | returns r l =>
    rw [hrun] at hsettle
    cases hsettle
    cases r with
    | ok step =>
      obtain ⟨hsettled, hrequest⟩ := hx.returned ⟨rfl, rfl⟩ hrun
      refine ⟨_, _, rfl, ⟨hheard _ hsettled.held, ?_, hsettled.context, hsettled.branch⟩, rfl,
        fun _ => hrequest⟩
      intro _
      have hevolves : Evolves none none l.state (l.state.hear []) :=
        Evolves.of_aside (aside_hear l.state [])
      exact hsettled.attached.evolve hsettled.held.sound hevolves
        (fun _ _ hnone => nomatch hnone) (fun _ _ hnone => nomatch hnone)
    | error err =>
      have hfails := hx.failed ⟨rfl, rfl⟩ hrun
      refine ⟨_, _, rfl, ⟨hheard _ hfails.held, fun hok => (nomatch hok), Or.inl hfails.context,
        hfails.branch.imp_right Or.inl⟩, rfl, fun hok => (nomatch hok)⟩

/-- The state after a call that leaves the sessions alone. -/
theorem evolved_of_triple {α : Type} {x : Operation Logits α} {outside : List Answer}
    {sessions : Table ℕ (Live Logits Sampler)} (hs : Sound sha e b w.state)
    (hx : Triple (fun s => s = w.state.hear outside) x
      (fun _ => Held sha e b none none (w.state.hear outside))
      (Held sha e b none none (w.state.hear outside)))
    (hstore : Moves SameStore x)
    (hsettle : settleState sessions (x.run (w.state.hear outside)) = some w') :
    w'.sessions = sessions ∧ Held sha e b none none w.state w'.state ∧
      w'.state.logical = w.state.logical := by
  cases hrun : x.run (w.state.hear outside) with
  | panics =>
    rw [hrun] at hsettle
    cases hsettle
  | returns r t =>
    rw [hrun] at hsettle
    cases hsettle
    have hrefl : Held sha e b none none w.state w.state := Held.refl hs
    have hfirst := hrefl.of_aside (aside_hear w.state outside)
    exact ⟨rfl, (held_trans hfirst (hx.left rfl hrun)).of_aside (aside_hear t []),
      hstore (w.state.hear outside) r t hrun⟩

theorem aside_dropSession (session : MappedSession Logits Sampler) :
    Moves Aside (dropSession session : Operation Logits Unit) := by
  unfold dropSession
  cases session.activeMapping with
  | none => exact aside_pure ()
  | some active =>
    apply aside_read_bind
    intro s
    exact Moves.ite (Moves.ignore (aside_activateMapping _)) (aside_pure ())

/-- What one action does to the sessions and to the engine's state. -/
inductive Acts (sha : List UInt8 → Digest) (e : MappedEngine) (b : Backend Logits Sampler)
    (w : World Logits Sampler) : Action → World Logits Sampler → Prop
  | refused (id : ℕ) (request : EngineRequest) : Acts sha e b w (.start id request) w
  | started (id : ℕ) (request : EngineRequest) (session : MappedSession Logits Sampler)
      (hfree : w.sessions.lookup id = none) (hstart : startSession e request = .ok session) :
      Acts sha e b w (.start id request)
        ⟨w.state, w.sessions.insert id ⟨session, false, false, [], []⟩⟩
  | called (a : Action) (id : ℕ) (outside : List Answer) (live live' : Live Logits Sampler)
      (t : MappedState Logits) (ha : a = .step id outside ∨ a = .finish id outside)
      (hlive : w.sessions.lookup id = some live) (hcalled : Called sha e b w.state live live' t)
      (hcontexts : live'.contexts = live.contexts ++ createdSince w.state.logical t.logical)
      (hrequest : live'.failed = false → live'.session.request = live.session.request) :
      Acts sha e b w a ⟨t, w.sessions.insert id live'⟩
  | dropped (id : ℕ) (outside : List Answer) (live : Live Logits Sampler)
      (t : MappedState Logits) (hlive : w.sessions.lookup id = some live)
      (hheld : Held sha e b none none w.state t) (hlogical : t.logical = w.state.logical) :
      Acts sha e b w (.drop id outside) ⟨t, w.sessions.erase id⟩
  | spilled (order : List EvaluatedPrefixId) (outside : List Answer) (t : MappedState Logits)
      (hheld : Held sha e b none none w.state t) (hlogical : t.logical = w.state.logical) :
      Acts sha e b w (.spill order outside) ⟨t, w.sessions⟩

theorem acts_of_call (h : WorldSound sha e b w) {a : Action} {stops : Bool} {id : ℕ}
    {outside : List Answer} (ha : a = .step id outside ∨ a = .finish id outside)
    {x : SessionCall Logits Sampler SessionStep}
    (hx : ∀ live : Live Logits Sampler, Sound sha e b (w.state.hear outside) →
      Attached e b (w.state.hear outside) live.session live.emitted live.stopped →
      Triple (At (fun s => s = w.state.hear outside) live.session) x
        (fun step l => Settled sha e b live.session.logicalContext live.session.activeMapping
          (w.state.hear outside) (live.emitted ++ emittedBy (.ok step))
          (live.stopped || stops && live.session.finished.isNone) l ∧
            l.session.request = live.session.request)
        (Failed sha e b live.session.logicalContext live.session.activeMapping
          (w.state.hear outside)))
    (hcall : callSession w id outside stops x = some w') : Acts sha e b w a w' := by
  obtain ⟨live, hlive, hrest⟩ := Option.bind_eq_some_iff.mp hcall
  by_cases hfailed : live.failed = true
  · rw [if_pos hfailed] at hrest
    cases hrest
  · rw [if_neg hfailed] at hrest
    have hok := Bool.eq_false_iff.mpr hfailed
    have hevolves : Evolves none none w.state (w.state.hear outside) :=
      Evolves.of_aside (aside_hear w.state outside)
    have hattached := (h.attached id live hlive hok).evolve h.sound hevolves
      (fun _ _ hnone => nomatch hnone) (fun _ _ hnone => nomatch hnone)
    obtain ⟨live', t, rfl, hcalled, hcontexts, hrequest⟩ := called_of_triple h.sound
      (hx live (h.sound.of_aside (aside_hear w.state outside)) hattached) hrest
    exact .called a id outside live live' t ha hlive hcalled hcontexts hrequest

theorem acts_of_step (h : WorldSound sha e b w) {a : Action} (hstep : Step sha e b w a w') :
    Acts sha e b w a w' := by
  unfold Step act at hstep
  cases a with
  | start id request =>
    simp only at hstep
    by_cases htaken : (w.sessions.lookup id).isSome = true
    · rw [if_pos htaken] at hstep
      cases hstep
    · rw [if_neg htaken] at hstep
      have hfree := Option.not_isSome_iff_eq_none.mp htaken
      cases hstart : (startSession e request :
          Except Mapped.Error (MappedSession Logits Sampler)) with
      | error err =>
        simp only [hstart] at hstep
        cases hstep
        exact .refused id request
      | ok session =>
        simp only [hstart] at hstep
        cases hstep
        exact .started id request session hfree hstart
  | step id outside =>
    apply acts_of_call h (Or.inl rfl) ?_ hstep
    intro live hs hattached
    rw [Bool.false_and, Bool.or_false]
    exact stepSession_settles hs hattached
  | finish id outside =>
    apply acts_of_call h (Or.inr rfl) ?_ hstep
    intro live hs hattached
    rw [Bool.true_and]
    exact finishSession_settles hs hattached
  | drop id outside =>
    obtain ⟨live, hlive, hrest⟩ := Option.bind_eq_some_iff.mp hstep
    have hs := h.sound.of_aside (aside_hear w.state outside)
    have hdrop : Triple (fun s => s = w.state.hear outside) (dropSession live.session)
        (fun _ => Held sha e b none none (w.state.hear outside))
        (Held sha e b none none (w.state.hear outside)) := by
      apply (triple_aside (aside_dropSession live.session) stable_held).before
      rintro s rfl
      exact Held.refl hs
    obtain ⟨hsessions, hheld, hlogical⟩ := evolved_of_triple h.sound hdrop
      (sameStore_of_aside (aside_dropSession live.session)) hrest
    obtain ⟨t, sessions⟩ := w'
    cases hsessions
    exact .dropped id outside live t hlive hheld hlogical
  | spill order outside =>
    by_cases horder : order.Perm w.state.resident.keys
    · simp only [if_pos horder] at hstep
      have hs := h.sound.of_aside (aside_hear w.state outside)
      have hspill : Triple (fun s => s = w.state.hear outside) (spillInactiveMappings e b order)
          (fun _ => Held sha e b none none (w.state.hear outside))
          (Held sha e b none none (w.state.hear outside)) := by
        apply (spillInactiveMappings_held (horder.nodup_iff.mpr w.state.resident.nodupKeys)).before
        rintro s rfl
        exact Held.refl hs
      obtain ⟨hsessions, hheld, hlogical⟩ := evolved_of_triple h.sound hspill
        (sameStore_spillInactiveMappings order) hstep
      obtain ⟨t, sessions⟩ := w'
      cases hsessions
      exact .spilled order outside t hheld hlogical
    · simp only [if_neg horder] at hstep
      cases hstep

/-- A session just started is fresh. -/
theorem attached_started {request : EngineRequest} {session : MappedSession Logits Sampler}
    (hstart : startSession e request = .ok session) :
    Attached e b s session [] false ∧ session.logicalContext = none ∧
      session.activeMapping = none ∧ session.request = request := by
  unfold startSession at hstart
  by_cases hchunk : request.prefillChunkTokens = 0
  · rw [if_pos hchunk] at hstart
    cases hstart
  · rw [if_neg hchunk] at hstart
    by_cases hpath : request.modelPath ≠ e.modelPath
    · rw [if_pos hpath] at hstart
      cases hstart
    · rw [if_neg hpath] at hstart
      cases hstart
      exact ⟨.preparation rfl rfl rfl rfl ⟨rfl, rfl, rfl, hchunk⟩, rfl, rfl, rfl⟩

theorem worldSound_started (h : WorldSound sha e b w) {id : ℕ}
    {session : MappedSession Logits Sampler}
    (hattached : Attached e b w.state session [] false) (hcontext : session.logicalContext = none)
    (hbranch : session.activeMapping = none) :
    WorldSound sha e b ⟨w.state, w.sessions.insert id ⟨session, false, false, [], []⟩⟩ := by
  have hfind : ∀ k l, (w.sessions.insert id ⟨session, false, false, [], []⟩).lookup k = some l →
      l = ⟨session, false, false, [], []⟩ ∨ w.sessions.lookup k = some l := by
    intro k l hl
    rw [AList.lookup_insert_ite] at hl
    by_cases hk : k = id
    · rw [if_pos hk] at hl
      exact Or.inl (Option.some.inj hl).symm
    · rw [if_neg hk] at hl
      exact Or.inr hl
  have hcontexts : ∀ k l c, (w.sessions.insert id ⟨session, false, false, [], []⟩).lookup k =
      some l → l.session.logicalContext = some c → w.sessions.lookup k = some l := by
    intro k l c hl hc
    rcases hfind k l hl with rfl | hold
    · cases hcontext.symm.trans hc
    · exact hold
  have hbranches : ∀ k l m, (w.sessions.insert id ⟨session, false, false, [], []⟩).lookup k =
      some l → l.session.activeMapping = some m → w.sessions.lookup k = some l := by
    intro k l m hl hm
    rcases hfind k l hl with rfl | hold
    · cases hbranch.symm.trans hm
    · exact hold
  refine ⟨h.sound, ?_, ?_, ?_, ?_, ?_⟩
  · intro k l hl hfailed
    rcases hfind k l hl with rfl | hold
    · exact hattached
    · exact h.attached k l hold hfailed
  · intro k l c hl hc
    exact h.contexts k l c (hcontexts k l c hl hc) hc
  · intro k l m hl hm
    exact h.branches k l m (hbranches k l m hl hm) hm
  · intro k k' l l' c hl hl' hc hc'
    exact h.contexts_distinct k k' l l' c (hcontexts k l c hl hc) (hcontexts k' l' c hl' hc') hc hc'
  · intro k k' l l' m hl hl' hm hm'
    exact h.branches_distinct k k' l l' m (hbranches k l m hl hm) (hbranches k' l' m hl' hm') hm hm'

theorem worldSound_acts (h : WorldSound sha e b w) {a : Action} (hacts : Acts sha e b w a w') :
    WorldSound sha e b w' := by
  cases hacts with
  | refused id request => exact h
  | started id request session hfree hstart =>
    obtain ⟨hattached, hcontext, hbranch, _⟩ := attached_started hstart
    exact worldSound_started h hattached hcontext hbranch
  | called a id outside live live' t ha hlive hcalled hcontexts hrequest =>
    exact worldSound_called h hlive hcalled
  | dropped id outside live t hlive hheld hlogical =>
    refine worldSound_evolved h hheld ?_ rfl
    intro k l hl
    rw [AList.lookup_erase_ite] at hl
    by_cases hk : k = id
    · rw [if_pos hk] at hl
      cases hl
    · rw [if_neg hk] at hl
      exact hl
  | spilled order outside t hheld hlogical =>
    exact worldSound_evolved h hheld (fun _ _ hl => hl) rfl

/-- The engine is sound in every state that its actions reach. -/
theorem worldSound_reached {capacity : Capacity} {modelEpoch : ModelEpoch}
    (h : Reaches (Step sha e b) (World.opened capacity modelEpoch) w) : WorldSound sha e b w :=
  h.invariant (WorldSound sha e b)
    (fun _ _ _ hw hstep => worldSound_acts hw (acts_of_step hw hstep))
    (worldSound_opened capacity modelEpoch)

end Worlds

section SmallEngine

def smallProfile : ExecutionProfile where
  blockSize := 2
  requiredComponents := [.kv, .swa, .recurrent]
  distinct := by decide
  block_pos := by decide
  complete := by
    intro c
    cases c <;> decide

def smallEngine : MappedEngine := ⟨smallProfile, "model", 16, some "spill", 16⟩

/-- Every prompt is the same four tokens, and the token sampled is the number of tokens. -/
def smallBackend : Backend ℕ ℕ where
  tokenize := fun _ => [1, 2, 3, 4]
  logits := List.length
  samplerWithGrammar := fun _ _ => 0
  sample := fun sampler n => (Int32.ofNat n, sampler + 1)
  tokenIsEog := fun _ => false
  renderToken := fun _ => []
  serializedBytes := List.length
  exportedBytes := List.length

def smallRequest : EngineRequest := ⟨"model", "", 1, [], ⟨0, 0, 0⟩, none, 4⟩

def smallCapacity : Capacity := ⟨100, 100, by decide, by decide⟩

def smallWorld : World ℕ ℕ := World.opened smallCapacity ⟨7⟩

def smallAct : World ℕ ℕ → Action → Option (World ℕ ℕ) :=
  act Sha256.sha256 smallEngine smallBackend

/-- One session from its start to its end, with two blocks published. -/
def oneSession (id : ℕ) : List Action :=
  [.start id smallRequest, .step id [], .step id [], .step id [], .step id [], .step id [],
    .step id []]

end SmallEngine

end Cusco.EngineRuns
