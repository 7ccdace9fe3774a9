import Cusco.AgreementRuns
import Cusco.ReleasedPublications

/-!
Runs of the mapped engine after whose steps nothing is left of a preparation. A step that
prepares a session needs room for the prefix it finds beside what is active; one that completes
a block needs another revision of its context and a native identity of 32 bits. Without the
room a transfer finds none, and the abort leaves it incomplete for good.
-/

namespace Cusco.ReleasedRuns

open Calls LogicalStore Physical Mapped EngineFrames EngineInvariant EngineOperations
open EnginePublication EngineSessions SessionCalls EngineRuns LayerFrames Runs AgreementRuns
open SessionFrames ReleasedPreparations ReleasedPublications RestingManagers
open PublicationCommit (validatePublication_ok)
open Calls.Call (Moves Triple)

section Definitions

variable {Logits Sampler : Type}

/-- The resident mapping that a session in preparation starts from. -/
def prefixOf (b : Backend Logits Sampler) (s : MappedState Logits)
    (session : MappedSession Logits Sampler) : Option (ResidentMapping Logits) :=
  match session.stage, s.logical.create (promptOf b session.request) s.modelEpoch adapterEpoch with
  | .preparation, .returns (.ok c) l =>
    (l.longestValidPrefix c).toOption.join.bind (fun m => s.resident.lookup m.id)
  | _, _ => none

/-- The revision of the session's context when its next step publishes a block. -/
def publishedRevision (s : MappedState Logits) (session : MappedSession Logits Sampler) : ℕ :=
  ((session.logicalContext.bind s.logical.contexts.lookup).map LogicalContext.revision).getD 0 +
    if session.stage = .decode then 1 else 0

/-- The native state that a block with these tokens is published with: the one that its mapping
has if it is resident, and a snapshot otherwise. -/
def publishedNative (s : MappedState Logits) (tokens : List Token) : RepresentationHandle :=
  ((s.resident.keys.find? (fun m => (s.logical.mappings.lookup m).map
    (fun entry => entry.mapping.sequence) = some tokens)).bind s.nativeOf).getD
      ⟨s.executor.nextIdentity⟩

/-- The prefix that the session's next step activates fits the device, and the block that it
publishes can be numbered. -/
def StepFits (e : MappedEngine) (b : Backend Logits Sampler) (s : MappedState Logits)
    (session : MappedSession Logits Sampler) : Prop :=
  (∀ r ∈ prefixOf b s session, Transits s r) ∧
    ∀ tokens ∈ completedTokens e b session, publishedRevision s session ≠ u64Max ∧
      (publishedNative s tokens).identity < 2 ^ 32

/-- Every step of a session fits. -/
def Guarded (e : MappedEngine) (b : Backend Logits Sampler) (w : World Logits Sampler) :
    Action → Prop
  | .step id _ => ∀ live ∈ w.sessions.lookup id, StepFits e b w.state live.session
  | .start _ _ => True
  | .finish _ _ => True
  | .drop _ _ => True
  | .spill _ _ => True

instance (s : MappedState Logits) (r : ResidentMapping Logits) : Decidable (Transits s r) :=
  inferInstanceAs (Decidable (_ < _ ∨ _ ≤ _ ∧ _ < _))

instance (e : MappedEngine) (b : Backend Logits Sampler) (s : MappedState Logits)
    (session : MappedSession Logits Sampler) : Decidable (StepFits e b s session) :=
  inferInstanceAs (Decidable ((∀ r ∈ prefixOf b s session, Transits s r) ∧
    ∀ tokens ∈ completedTokens e b session, publishedRevision s session ≠ u64Max ∧
      (publishedNative s tokens).identity < 2 ^ 32))

instance (e : MappedEngine) (b : Backend Logits Sampler) (w : World Logits Sampler) :
    (a : Action) → Decidable (Guarded e b w a)
  | .step id _ =>
    inferInstanceAs (Decidable (∀ live ∈ w.sessions.lookup id, StepFits e b w.state live.session))
  | .start _ _ => isTrue trivial
  | .finish _ _ => isTrue trivial
  | .drop _ _ => isTrue trivial
  | .spill _ _ => isTrue trivial

end Definitions

variable {Logits Sampler : Type} {sha : List UInt8 → Digest} {e : MappedEngine}
  {b : Backend Logits Sampler} {a s t : MappedState Logits}
  {session : MappedSession Logits Sampler}

section Names

/-- A block of a store has the identity that its tokens determine. -/
theorem Block.unique {epoch : ModelEpoch} {l : ContextStore}
    (hblocks : ∀ k entry, l.mappings.lookup k = some entry → Block sha e epoch l entry.mapping)
    (hkeyed : ∀ k entry, l.mappings.lookup k = some entry → entry.mapping.id = k)
    {m m' : EvaluatedPrefix} (hm : Block sha e epoch l m) (hm' : Block sha e epoch l m')
    (hsame : m.sequence = m'.sequence) : m.id = m'.id := by
  -- Along the parents, each of which is a block shorter.
  induction hn : m.representedEnd using Nat.strong_induction_on generalizing m m' with
  | h n ih =>
    subst hn
    have hend : m.representedEnd = m'.representedEnd := by
      rw [← hm.length, ← hm'.length, hsame]
    have hshorter : ∀ {k k' : EvaluatedPrefix} {q : EvaluatedPrefixId}, Block sha e epoch l k →
        Block sha e epoch l k' → k.representedEnd = k'.representedEnd → k.parent = none →
          k'.parent ≠ some q := by
      intro k k' q hk hk' hends hnone hsome
      obtain ⟨entry, hentry, hlonger, _⟩ := hk'.longer q hsome
      have hpositive := (hblocks q entry hentry).positive
      have hfirst := hk.first hnone
      omega
    have hparent : m.parent = m'.parent := by
      cases hp : m.parent with
      | none =>
        cases hp' : m'.parent with
        | none => rfl
        | some q => exact absurd hp' (hshorter hm hm' hend hp)
      | some q =>
        cases hp' : m'.parent with
        | none => exact absurd hp (hshorter hm' hm hend.symm hp')
        | some q' =>
          obtain ⟨entry, hentry, hlonger, hsequence⟩ := hm.longer q hp
          obtain ⟨entry', hentry', hlonger', hsequence'⟩ := hm'.longer q' hp'
          have hends : entry.mapping.representedEnd = entry'.mapping.representedEnd := by omega
          have hid : entry.mapping.id = entry'.mapping.id := by
            refine ih _ ?_ (hblocks q entry hentry) (hblocks q' entry' hentry') ?_ rfl
            · have hpositive := e.profile.block_pos
              omega
            · rw [hsequence, hsequence', hsame, hends]
          rw [← hkeyed q entry hentry, ← hkeyed q' entry' hentry', hid]
    rw [hm.named, hm'.named, hm.lineage, hm'.lineage, hm.model, hm'.model, hm.adapter,
      hm'.adapter, hparent, hsame, hend]

/-- The native state found by the tokens is the one that the mapping has. -/
theorem publishedNative_eq (hs : Sound sha e b a) {q : PreparedPublication}
    (hblock : Block sha e a.modelEpoch a.logical q.mapping)
    (hvalid : a.logical.validatePublication q = .ok ()) :
    publishedNative a q.mapping.sequence =
      ((a.resident.lookup q.mapping.id).bind ResidentMapping.native).getD
        ⟨a.executor.nextIdentity⟩ := by
  have hsequence : ∀ m, (a.logical.mappings.lookup m).map
      (fun entry => entry.mapping.sequence) = some q.mapping.sequence → m = q.mapping.id := by
    intro m hm
    obtain ⟨entry, hentry, hsame⟩ := Option.map_eq_some_iff.mp hm
    rw [← hs.accounted.catalogued.keyed m entry hentry]
    exact Block.unique hs.blocks hs.accounted.catalogued.keyed (hs.blocks m entry hentry) hblock
      hsame
  unfold publishedNative
  congr 1
  cases hfound : a.resident.keys.find? (fun m => decide ((a.logical.mappings.lookup m).map
      (fun entry => entry.mapping.sequence) = some q.mapping.sequence)) with
  | some m =>
    have hmatches := List.find?_some hfound
    obtain rfl := hsequence m (of_decide_eq_true hmatches)
    rfl
  | none =>
    cases hr : a.resident.lookup q.mapping.id with
    | none => rfl
    | some r =>
      obtain ⟨entry, hentry, _⟩ := hs.faithful _ r hr
      obtain ⟨_, hsame, _⟩ := validatePublication_ok _ q hvalid
      have hmem : q.mapping.id ∈ a.resident.keys :=
        AList.mem_keys.mpr (AList.lookup_isSome.mp (hr ▸ rfl))
      have hmissed := List.find?_eq_none.mp hfound _ hmem
      rw [hentry, Option.map_some, hsame entry hentry] at hmissed
      exact absurd (decide_eq_true rfl) hmissed

/-- The native state depends on the resident mappings, the mappings stored and the next
identity only. -/
theorem publishedNative_congr (hresident : t.resident = s.resident)
    (hmappings : t.logical.mappings = s.logical.mappings)
    (hnext : t.executor.nextIdentity = s.executor.nextIdentity) (tokens : List Token) :
    publishedNative t tokens = publishedNative s tokens := by
  unfold publishedNative MappedState.nativeOf
  rw [hresident, hmappings, hnext]

end Names

section Calls

/-- The engine that the session holds is at rest. -/
abbrev Idle (e : MappedEngine) (b : Backend Logits Sampler) (l : Locked Logits Sampler) : Prop :=
  AtRest e.profile b l.state

theorem atRest_apart (ha : AtRest e.profile b a) (has : Apart a s) : AtRest e.profile b s :=
  ha.beside has.beside

/-- The mappings of the store are the same. -/
theorem atRest_store (ha : AtRest e.profile b a) {store : ContextStore}
    (hmappings : store.mappings = a.logical.mappings) :
    AtRest e.profile b { a with logical := store } := by
  refine ha.keep ha.resting (fun _ => rfl) (fun _ => rfl) ?_
  intro m entry hentry
  exact ⟨entry, hmappings ▸ hentry, rfl⟩

theorem idle_at (ha : AtRest e.profile b a) (l : Locked Logits Sampler)
    (hl : At (fun s => s = a) session l) : Idle e b l := by
  obtain ⟨s, _⟩ := l
  obtain ⟨rfl, _⟩ := hl
  exact ha

theorem idle_near {α : Type} {x : SessionCall Logits Sampler α} (hx : Moves Near x) :
    Triple (Idle e b) x (fun _ => Idle e b) (Idle e b) :=
  triple_near_kept (fun _ _ hst ha => ha.beside hst) hx

/-- What another triple says of calls that leave the layers alone. -/
theorem idle_steps (ha : AtRest e.profile b a) {α : Type} {x : SessionCall Logits Sampler α}
    {P F : Locked Logits Sampler → Prop} {Q : α → Locked Logits Sampler → Prop}
    (hx : Triple P x Q F) (hnear : Moves Near x) :
    Triple (fun l => P l ∧ Apart a l.state) x (fun r l => Q r l ∧ Apart a l.state) (Idle e b) :=
  (triple_near hx hnear).weaken (fun _ hl => hl) (fun _ _ hl => hl)
    (fun _ hl => atRest_apart ha hl)

theorem idle_onState {α : Type} {x : Operation Logits α}
    (hx : Triple (fun s => s = a) x (fun _ => AtRest e.profile b) (AtRest e.profile b)) :
    Triple (At (fun s => s = a) session) (onState x) (fun _ => Idle e b) (Idle e b) :=
  (at_onState hx (fun _ hs => hs)).after (fun _ _ hl => hl.1)

theorem prepare_idle (ha : AtRest e.profile b a) (hstage : session.stage = .preparation)
    (hguard : ∀ r ∈ prefixOf b a session, Transits a r) :
    Triple (At (fun s => s = a) session) (prepare e b) (fun _ => Idle e b) (Idle e b) := by
  have hkept : ∀ l : Locked Logits Sampler, Apart a l.state → Idle e b l :=
    fun _ hl => atRest_apart ha hl
  unfold prepare
  apply Triple.before (P := At (Apart a) session)
  swap
  · rintro ⟨s, _⟩ ⟨rfl, hsession⟩
    exact ⟨Apart.refl _, hsession⟩
  apply Triple.bind ((at_apart (apart_attempt _)).weaken (fun _ hl => hl) (fun _ _ hl => hl) hkept)
  intro _
  have htokenize : Triple (At (fun _ => True) session) (tokenizeRequest e b)
      (fun _ l => ∃ n, At (fun _ => True) { session with
        inputTokens := n
        tokens := promptOf b session.request } l ∧
          (promptOf b session.request).length ≤ u64Max) (fun _ => True) :=
    tokenizeRequest_at (fun _ _ _ _ => trivial) (fun _ _ _ => trivial) (fun _ _ => trivial)
  apply Triple.bind ((triple_near htokenize near_tokenizeRequest).weaken
    (fun l hl => ⟨⟨trivial, hl.2⟩, hl.1⟩) (fun _ _ hl => hl) hkept)
  intro _
  apply Triple.before (P := fun l => ∃ n, At (Apart a) { session with
    inputTokens := n
    tokens := promptOf b session.request } l)
  swap
  · rintro l ⟨⟨n, hl, _⟩, hapart⟩
    exact ⟨n, hapart, hl.2⟩
  apply Triple.of_exists
  intro n
  apply at_read_bind
  intro s₁ hs₁
  have hcreate : Triple (fun s => s = s₁)
      (onLogical (fun l => l.create (promptOf b session.request) s₁.modelEpoch adapterEpoch))
      (fun c s => ∃ store, a.logical.create (promptOf b session.request) a.modelEpoch
        adapterEpoch = .returns (.ok c) store ∧ Apart { a with logical := store } s)
      (AtRest e.profile b) := by
    apply (create_apart (a := a) (promptOf b session.request) s₁.modelEpoch).weaken
    · rintro _ rfl
      exact hs₁
    · rw [hs₁.modelEpoch]
      exact fun _ _ hs => hs
    · exact fun _ hs => hs
  apply Triple.bind (at_onState hcreate (fun _ hs => hs))
  intro c
  apply at_state
  intro s₂ ⟨store, hstore, hs₂⟩
  have hrest : AtRest e.profile b s₂ :=
    atRest_apart (atRest_store ha (mappings_of_create hstore)) hs₂
  apply Triple.bind (at_onState (triple_askLogical _) ?_)
  · intro m
    apply at_read_bind
    rintro s ⟨rfl, hlookup⟩
    apply Triple.bind (at_setSession _)
    intro _
    refine Triple.bind (R := fun _ => Idle e b) (idle_onState (branchPrefix_atRest hrest c m ?_)) ?_
    · intro m' hm' r hr
      have hprefix : r ∈ prefixOf b a session := by
        unfold prefixOf
        rw [hs₂.beside.logical] at hlookup
        simp only [hstage, hstore, hlookup]
        rw [hm']
        show a.resident.lookup m'.id = some r
        rw [← hr, hs₂.beside.resident]
      have htransits := hguard r hprefix
      unfold Transits at htransits ⊢
      rw [hs₂.beside.physical, hs₂.nextIdentity]
      exact htransits
    · intro active
      apply idle_near
      exact near_read_bind (fun _ => near_bind (near_setSession _) (fun _ => near_pure _))
  · rintro _ rfl
    exact hrest

variable {c : LogicalContextId} {h : RepresentationHandle}

/-- The snapshot has the next identity and the tokens of the branch. -/
theorem snapshot_next (hs : Sound sha e b s) :
    Triple (fun t => t = s) (snapshotActiveMapping h) (fun k t => (Sound sha e b t ∧
      t.executor.tokensOf k = s.executor.tokensOf h) ∧ Beside s t ∧
        k = ⟨s.executor.nextIdentity⟩) (Beside s) := by
  have hnext : Triple (fun t => t = s) (snapshotActiveMapping h)
      (fun k t => Beside s t ∧ k = ⟨s.executor.nextIdentity⟩) (Beside s) := by
    unfold snapshotActiveMapping
    have hcopied : Moves Apart (prepareMappingFork h : Operation Logits (List Token)) :=
      apart_of_aside (aside_prepareMappingFork h) beside_attempt_read
    apply Triple.bind (R := fun _ => Apart s)
    · refine (Triple.of_moves hcopied (fun t u htu ht => Apart.trans s t u ht htu)).weaken ?_
        (fun _ _ ht => ht) (fun _ ht => ht.beside)
      rintro _ rfl
      exact Apart.refl _
    intro copied
    exact enterRepresentation_next copied
  refine ((snapshot_held none none hs).and hnext).weaken (fun _ ht => ⟨ht, ht⟩) ?_
    (fun _ ht => ht.2)
  intro k t ⟨⟨hheld, _, _, htokens⟩, hbeside, hk⟩
  exact ⟨⟨hheld.sound, htokens⟩, hbeside, hk⟩

theorem completeBlock_idle (hs : Sound sha e b s) (ha : AtRest e.profile b s)
    (hadvanced : Advanced e b c h s session)
    (hguard : session.evaluated % e.profile.blockSize = 0 →
      ∀ context, s.logical.contexts.lookup c = some context → context.revision ≠ u64Max ∧
        (publishedNative s (session.tokens.take session.evaluated)).identity < 2 ^ 32) :
    Triple (At (fun t => t = s) session) (completeBlock sha e b) (fun _ => Idle e b)
      (Idle e b) := by
  unfold completeBlock
  apply at_session_bind
  intro _
  apply Triple.ite
  · intro hend
    have hstart := blockStart_of_advanced hs hadvanced hend
    obtain ⟨context, hc, htokens, hmodel, hadapter⟩ := hadvanced.owns
    obtain ⟨hrevision, hidentity⟩ := hguard hend context hc
    apply Triple.unwrap_bind
    intro h' hh'
    cases hadvanced.branch.symm.trans hh'
    apply Triple.bind (at_onState (snapshot_next hs) (fun t ht => ha.beside ht))
    intro k
    apply Triple.unwrap_bind
    intro c' hc'
    cases hadvanced.context.symm.trans hc'
    apply Triple.unwrap_bind
    intro continuation _
    apply at_state
    rintro t ⟨⟨hsound, hcopied⟩, hbeside, rfl⟩
    refine Triple.bind (R := fun _ => Idle e b) (idle_onState (publishBlock_atRest hsound
      (ha.beside hbeside) (hbeside.logical ▸ hc) hrevision ?_ ?_))
      (fun _ => idle_near (near_setSession _))
    · rw [hcopied, hadvanced.holds, htokens]
    · intro q hq hvalid
      rw [hbeside.logical] at hq hvalid
      obtain ⟨_, hblock, _, hsequence⟩ := block_prepared hadvanced.owns hstart hq
      rw [hbeside.resident, ← publishedNative_eq hs hblock hvalid, hsequence]
      exact hidentity
  · intro _
    exact Triple.pure (idle_at ha)

/-- A step checks its request twice and activates its branch before it does more. -/
theorem idle_activated {Result : Type} {rest : SessionCall Logits Sampler Result}
    (hs : Sound sha e b a) (ha : AtRest e.profile b a)
    (hbranch : session.activeMapping = some h) (hworking : Working e b a session)
    (hrest : Triple (fun l => At (fun s => (Held sha e b (some c) (some h) a s ∧
      Working e b s session) ∧ s.executor.active = h) session l ∧ Apart a l.state) rest
      (fun _ => Idle e b) (Idle e b)) :
    Triple (At (fun s => s = a) session) (do
      onState checkControl
      onState checkControl
      activateOwned session
      rest) (fun _ => Idle e b) (Idle e b) := by
  have hattempt : Triple (At (fun s => Held sha e b (some c) (some h) a s ∧
      Working e b s session) session) (onState (attempt Error.stopped))
      (fun _ => At (fun s => Held sha e b (some c) (some h) a s ∧ Working e b s session) session)
      (fun _ => True) := at_aside (aside_attempt _) stable_working (fun _ _ => trivial)
  apply Triple.before (P := fun l => At (fun s => Held sha e b (some c) (some h) a s ∧
    Working e b s session) session l ∧ Apart a l.state)
  swap
  · rintro ⟨s, _⟩ ⟨rfl, hsession⟩
    exact ⟨⟨⟨Held.refl hs, hworking⟩, hsession⟩, Apart.refl _⟩
  apply Triple.bind (idle_steps ha hattempt (near_attempt _))
  intro _
  apply Triple.bind (idle_steps ha hattempt (near_attempt _))
  intro _
  exact Triple.bind (idle_steps ha (F := fun _ => True) (activateOwned_at hbranch stable_working
    (fun _ _ => trivial)) near_activateOwned) (fun _ => hrest)

theorem prefill_idle (hs : Sound sha e b a) (ha : AtRest e.profile b a)
    (hstage : session.stage = .prefill) (hworking : Working e b a session)
    (hchunked : Chunked session)
    (hguard : ∀ tokens ∈ completedTokens e b session, publishedRevision a session ≠ u64Max ∧
      (publishedNative a tokens).identity < 2 ^ 32) :
    Triple (At (fun s => s = a) session) (prefill sha e b) (fun _ => Idle e b) (Idle e b) := by
  have hkept : ∀ l : Locked Logits Sampler, Apart a l.state → Idle e b l :=
    fun _ hl => atRest_apart ha hl
  obtain ⟨c, hcontext, _⟩ := hworking.context
  obtain ⟨h, hbranch, _⟩ := hworking.branch
  unfold prefill
  apply at_session_bind
  intro _
  apply Triple.ite
  · intro _
    exact (idle_near near_enterDecode).before (idle_at ha)
  intro hmore
  have hlt : session.evaluated < session.tokens.length := Nat.not_le.mp hmore
  refine idle_activated (c := c) hs ha hbranch hworking ?_
  apply Triple.bind (idle_steps ha (decodeChunk_at hcontext hbranch hlt hchunked) near_decodeChunk)
  intro _ l ⟨⟨next, ⟨hheld, hadvanced⟩, hsession⟩, hapart⟩
  refine Triple.bind (completeBlock_idle hheld.sound (hkept l hapart) hadvanced ?_)
    (fun _ => idle_near (near_pure _)) l ⟨rfl, hsession⟩
  intro hend context hc
  have hcompleted : session.tokens.take (chunkEnd e session) ∈ completedTokens e b session := by
    unfold completedTokens
    simp only [hstage]
    rw [if_pos ⟨hlt, hend⟩]
    rfl
  obtain ⟨hrevision, hidentity⟩ := hguard _ hcompleted
  rw [hapart.beside.logical] at hc
  unfold publishedRevision at hrevision
  rw [hcontext, Option.bind_some, hc, hstage] at hrevision
  refine ⟨hrevision, ?_⟩
  rw [publishedNative_congr hapart.beside.resident (by rw [hapart.beside.logical])
    hapart.nextIdentity]
  exact hidentity

/-- The token sampled is evaluated, and the block it completes published. -/
theorem decodeSampled_idle (ha : AtRest e.profile b a) (hcontext : session.logicalContext = some c)
    (hbranch : session.activeMapping = some h) {token : Token} {before : List Token}
    (htokens : session.tokens = before ++ [token]) (hevaluated : session.evaluated = before.length)
    (hguard : (session.evaluated + 1) % e.profile.blockSize = 0 →
      ∀ context, a.logical.contexts.lookup c = some context → context.revision ≠ u64Max ∧
        (publishedNative a (session.tokens.take (session.evaluated + 1))).identity < 2 ^ 32) :
    Triple (fun l => At (fun t => (Held sha e b (some c) (some h) s t ∧ Working e b t session) ∧
        t.executor.active = h) session l ∧ Apart a l.state) (decodeSampled sha e b token)
      (fun _ => Idle e b) (Idle e b) := by
  have hlength : session.tokens.length = session.evaluated + 1 := by
    rw [htokens, List.length_append, List.length_singleton, hevaluated]
  have hmore : [token] = (session.tokens.take (session.evaluated + 1)).drop session.evaluated := by
    rw [← hlength, List.take_length, htokens, hevaluated, List.drop_left]
  unfold decodeSampled
  apply Triple.bind ((idle_steps ha (evaluate_at hcontext hbranch (Nat.lt_succ_self _) hlength.ge
    hmore) (near_onState (apart_decodeTokens b _))).before ?_)
  · intro next
    have hattempt : Triple (At (fun t => Held sha e b (some c) (some h) s t ∧
          Advanced e b c h t { session with
            next := some next
            evaluated := session.evaluated + 1 }) { session with next := some next })
        (onState (attempt Error.stopped))
        (fun _ => At (fun t => Held sha e b (some c) (some h) s t ∧
          Advanced e b c h t { session with
            next := some next
            evaluated := session.evaluated + 1 }) { session with next := some next })
        (fun _ => True) := at_aside (aside_attempt _) stable_advanced (fun _ _ => trivial)
    apply Triple.bind (idle_steps ha (F := fun _ => True) (at_setSession _) (near_setSession _))
    intro _
    apply Triple.bind (idle_steps ha hattempt (near_attempt _))
    intro _
    apply Triple.bind (idle_steps ha (F := fun _ => True) (at_setSession _) (near_setSession _))
    intro _ l ⟨⟨⟨hheld, hadvanced⟩, hsession⟩, hapart⟩
    refine completeBlock_idle hheld.sound (atRest_apart ha hapart) hadvanced ?_ l ⟨rfl, hsession⟩
    rw [hapart.beside.logical, publishedNative_congr hapart.beside.resident
      (by rw [hapart.beside.logical]) hapart.nextIdentity]
    exact hguard
  · rintro ⟨t, _⟩ ⟨⟨⟨⟨hheld, hw⟩, hactive⟩, hsession⟩, hapart⟩
    refine ⟨⟨⟨⟨⟨hheld, hw⟩, hactive⟩, hw.first, ?_⟩, hsession⟩, hapart⟩
    intro q entry hq hentry
    obtain ⟨entry', hentry', _, hlt⟩ := hw.later q hq
    cases hentry.symm.trans hentry'
    exact hlt

theorem decode_idle (hs : Sound sha e b a) (ha : AtRest e.profile b a)
    (hstage : session.stage = .decode) (hworking : Working e b a session)
    (hevaluated : session.evaluated = session.tokens.length) {sampler : Sampler}
    (hsampler : session.sampler = some sampler)
    (hguard : ∀ tokens ∈ completedTokens e b session, publishedRevision a session ≠ u64Max ∧
      (publishedNative a tokens).identity < 2 ^ 32) :
    Triple (At (fun s => s = a) session) (decode sha e b) (fun _ => Idle e b) (Idle e b) := by
  obtain ⟨c, hcontext, context, hc, _⟩ := hworking.context
  obtain ⟨h, hbranch, _⟩ := hworking.branch
  unfold decode
  apply at_session_bind
  intro _
  apply Triple.ite
  · intro _
    refine (idle_near ?_).before (idle_at ha)
    exact near_bind (near_setSession _) (fun _ => near_bind near_publish (fun _ => near_pure _))
  intro hmore
  refine idle_activated (c := c) hs ha hbranch hworking ?_
  apply Triple.bind (((sampleToken_at hcontext hbranch hsampler hevaluated).and
    (sampleToken_appends (a := a) hcontext)).weaken
      (fun l hl => ⟨hl.1, hl.2, hl.1.2⟩) (fun _ _ hl => hl) ?_)
  swap
  · rintro l ⟨_, store, hmappings, hapart⟩
    exact atRest_apart (atRest_store ha hmappings) hapart
  rintro ⟨sampled, piece⟩ l ⟨⟨hat, hsampled⟩, sampler', next, store, happends⟩
  dsimp only at hsampled happends ⊢
  obtain ⟨hmappings, hcontexts⟩ := append_known happends.appended
  have ha' : AtRest e.profile b { a with logical := store } := atRest_store ha hmappings
  rw [← hsampled] at hat
  refine Triple.ite (P := fun l => At _ _ l ∧ Apart { a with logical := store } l.state)
    (fun _ => ?_) (fun hlast => ?_) l ⟨hat, happends.left.1⟩
  · refine Triple.bind ((idle_near (near_setSession _)).before ?_)
      (fun _ => idle_near (near_pure _))
    exact fun _ hl => atRest_apart ha' hl.2
  · rw [Bool.or_eq_true, not_or, Bool.not_eq_true, decide_eq_true_eq] at hlast
    refine Triple.bind (decodeSampled_idle ha' ?_ ?_ rfl hevaluated ?_)
      (fun _ => idle_near (near_pure _))
    · exact hcontext
    · exact hbranch
    · intro hend context' hcontext'
      cases (hcontexts () rfl context hc).symm.trans hcontext'
      have hcompleted : (session.tokens ++ [sampled]).take (session.evaluated + 1) ∈
          completedTokens e b session := by
        unfold completedTokens
        simp only [hstage, happends.drawn.1, happends.drawn.2, Option.bind_some, Option.map_some,
          ← happends.first]
        rw [if_pos ⟨Nat.not_le.mp hmore, hlast.1, hlast.2, hend⟩]
        rfl
      obtain ⟨hrevision, hidentity⟩ := hguard _ hcompleted
      unfold publishedRevision at hrevision
      rw [hcontext, Option.bind_some, hc, hstage] at hrevision
      refine ⟨hrevision, ?_⟩
      have hsame := publishedNative_congr (s := a) (t := { a with logical := store }) rfl
        hmappings rfl ((session.tokens ++ [sampled]).take (session.evaluated + 1))
      rw [← hsame] at hidentity
      exact hidentity

theorem stepSession_idle (hs : Sound sha e b a) (ha : AtRest e.profile b a) {emitted : List Token}
    {stopped : Bool} (hattached : Attached e b a session emitted stopped)
    (hguard : StepFits e b a session) :
    Triple (At (fun s => s = a) session) (stepSession sha e b) (fun _ => Idle e b)
      (Idle e b) := by
  unfold stepSession
  apply at_session_bind
  intro _
  cases hattached with
  | preparation hstage =>
    simp only [hstage]
    exact prepare_idle ha hstage hguard.1
  | prefill hstage _ _ _ hworking _ hchunked =>
    simp only [hstage]
    exact prefill_idle hs ha hstage hworking hchunked hguard.2
  | decode hstage _ _ hworking hevaluated _ _ hsampler =>
    simp only [hstage]
    exact decode_idle hs ha hstage hworking hevaluated hsampler hguard.2
  | publication hstage =>
    simp only [hstage]
    exact (idle_near (near_bind near_publish (fun _ => near_pure _))).before (idle_at ha)
  | finished output hstage =>
    simp only [hstage]
    exact (idle_near (near_bind (Moves.unwrap near_refl _) (fun _ => near_pure _))).before
      (idle_at ha)

end Calls

section Runs

variable {w w' : World Logits Sampler}

theorem atRest_step (hw : WorldSound sha e b w) (ha : AtRest e.profile b w.state)
    {action : Action} (hguard : Guarded e b w action) (hstep : Step sha e b w action w') :
    AtRest e.profile b w'.state := by
  refine kept_of_act (fun s t hst hs => hs.beside hst) hw ?_ spillInactiveMappings_atRest ha hstep
  intro id outside live haction hlive hsound hheard hattached
  subst haction
  exact stepSession_idle hsound hheard hattached (hguard live hlive)

theorem atRest_opened (capacity : Capacity) (modelEpoch : ModelEpoch) :
    AtRest e.profile b (MappedState.opened capacity modelEpoch) where
  resting := resting_new capacity
  listed := fun _ _ _ hk => nomatch hk
  sized := fun _ _ hr => nomatch hr

/-- In every state of a run whose steps fit, nothing is left of a preparation. -/
theorem released_of_guarded (sha : List UInt8 → Digest) (e : MappedEngine)
    (b : Backend Logits Sampler) (capacity : Capacity) (modelEpoch : ModelEpoch)
    (run : List (Action × World Logits Sampler))
    (hrun : IsRun (Step sha e b) (World.opened capacity modelEpoch) run)
    (hguarded : Meets (Guarded e b) (World.opened capacity modelEpoch) run) :
    ∀ x ∈ run, Released x.2.state := by
  have hall := along_of_meets (Step sha e b)
    (fun w => WorldSound sha e b w ∧ AtRest e.profile b w.state) (Guarded e b) ?_ _ run
    ⟨worldSound_opened capacity modelEpoch, atRest_opened capacity modelEpoch⟩ hrun hguarded
  · intro x hx
    exact (hall x hx).2.released
  · intro w action w' ⟨hw, ha⟩ hguard hstep
    exact ⟨worldSound_acts hw (acts_of_step hw hstep), atRest_step hw ha hguard hstep⟩

/-- Blocks of one token. -/
def singleProfile : ExecutionProfile where
  blockSize := 1
  requiredComponents := smallProfile.requiredComponents
  distinct := smallProfile.distinct
  block_pos := Nat.one_pos
  complete := smallProfile.complete

def singleEngine : MappedEngine := ⟨singleProfile, "model", 16, none, 0⟩

/-- A representation takes as many bytes as its tokens say. -/
def sizedBackend : Backend ℕ ℕ := { smallBackend with
  tokenize := fun _ => []
  serializedBytes := fun tokens => (tokens.map Int32.toNatClampNeg).foldr (· + ·) 0 }

def tightCapacity : Capacity := { smallCapacity with
  deviceBytes := 17
  device_le := by decide }

def tightWorld : World ℕ ℕ := World.opened tightCapacity ⟨7⟩

def tightAct : World ℕ ℕ → Action → Option (World ℕ ℕ) :=
  act Sha256.sha256 singleEngine sizedBackend

/-- A request for more tokens than these. -/
def requestAfter (tokens : List Token) : EngineRequest :=
  ⟨"model", "", 1, tokens, ⟨0, 0, 0⟩, none, 4⟩

/-- Blocks of 12, 3 and 6 bytes are published, which the device does not hold all at once. -/
def threePublished : List Action :=
  [.start 0 (requestAfter [12]), .start 1 (requestAfter [3]), .start 2 (requestAfter [6]),
    .step 0 [], .step 0 [], .step 1 [], .step 1 [], .step 2 [], .step 2 []]

/-- The block of 3 bytes has room beside the active one. -/
theorem smallPrefix_released : ∃ run,
    IsRun (Step Sha256.sha256 singleEngine sizedBackend) tightWorld run ∧
      (last tightWorld run).state.physical.representations.keys.length = 9 ∧
      ∀ x ∈ run, Released x.2.state := by
  have hrun : (trace tightAct tightWorld (threePublished ++
      [.start 3 (requestAfter [3]), .step 3 []])).any (fun run =>
        decide ((last tightWorld run).state.physical.representations.keys.length = 9 ∧
          Meets (Guarded singleEngine sizedBackend) tightWorld run)) = true := by
    decide +kernel
  obtain ⟨run, htrace, hchecked⟩ := (Option.any_eq_true _ _).mp hrun
  obtain ⟨hlength, hguarded⟩ := of_decide_eq_true hchecked
  have hsteps : IsRun (Step Sha256.sha256 singleEngine sizedBackend) tightWorld run :=
    isRun_of_trace _ _ _ run htrace
  exact ⟨run, hsteps, hlength, released_of_guarded Sha256.sha256 singleEngine sizedBackend _ _
    run hsteps hguarded⟩

/-- The block of 12 bytes has none beside the 6 active ones: two of its components are on the
device when the transition is planned, and one of them is evicted for the third. -/
theorem evictedPrefix_detached : ∃ run,
    IsRun (Step Sha256.sha256 singleEngine sizedBackend) tightWorld run ∧
      ¬Released (last tightWorld run).state := by
  have hrun : (trace tightAct tightWorld (threePublished ++
      [.start 3 (requestAfter [12]), .step 3 []])).any (fun run =>
        (last tightWorld run).state.physical.transfers.keys.any (fun x =>
          ((last tightWorld run).state.physical.transfers.lookup x).any (fun y =>
            !y.completed && y.detached))) = true := by
    decide +kernel
  obtain ⟨run, htrace, hchecked⟩ := (Option.any_eq_true _ _).mp hrun
  obtain ⟨x, _, hx⟩ := List.any_eq_true.mp hchecked
  obtain ⟨y, hy, hleft⟩ := (Option.any_eq_true _ _).mp hx
  refine ⟨run, isRun_of_trace _ _ _ run htrace, ?_⟩
  intro hreleased
  rw [(hreleased.transfers x y hy).1] at hleft
  cases hleft

end Runs

end Cusco.ReleasedRuns
