import Cusco.EngineSessions
import Cusco.OptimalPrefixes

/-!
The calls of a session keep what the session knows. A call that fails leaves a sound engine and
the session with the context and the branch it had; one that returns leaves the session
attached again, having handed out the next token of its stream or none.
-/

namespace Cusco.SessionCalls

open Calls LogicalStore Physical Mapped StoreAccounts EngineFrames EngineInvariant
open EngineOperations EnginePublication EngineSessions
open Calls.Call (Moves Triple)

variable {Logits Sampler : Type} {sha : List UInt8 → Digest} {e : MappedEngine}
  {b : Backend Logits Sampler} {own : Option LogicalContextId}
  {branch : Option RepresentationHandle} {s₀ s : MappedState Logits}
  {session : MappedSession Logits Sampler} {emitted : List Token} {stopped : Bool}
variable {F : Locked Logits Sampler → Prop}

section Outcomes

/-- A call that returned an error; `own` and `branch` are the session's before it. -/
structure Failed (sha : List UInt8 → Digest) (e : MappedEngine) (b : Backend Logits Sampler)
    (own : Option LogicalContextId) (branch : Option RepresentationHandle)
    (s₀ : MappedState Logits) (l : Locked Logits Sampler) : Prop where
  held : Held sha e b own branch s₀ l.state
  context : l.session.logicalContext = own
  branch : l.session.activeMapping = branch ∨ l.session.activeMapping = none

/-- A call that returned, with the tokens handed out so far. -/
structure Settled (sha : List UInt8 → Digest) (e : MappedEngine) (b : Backend Logits Sampler)
    (own : Option LogicalContextId) (branch : Option RepresentationHandle)
    (s₀ : MappedState Logits) (emitted : List Token) (stopped : Bool)
    (l : Locked Logits Sampler) : Prop where
  held : Held sha e b own branch s₀ l.state
  attached : Attached e b l.state l.session emitted stopped
  context : l.session.logicalContext = own ∨ ∃ c, l.session.logicalContext = some c ∧
    s₀.logical.nextContext ≤ c.value ∧ c.value < l.state.logical.nextContext
  branch : l.session.activeMapping = branch ∨ l.session.activeMapping = none ∨
    ∃ h, l.session.activeMapping = some h ∧ s₀.executor.nextIdentity ≤ h.identity ∧
      h.identity < l.state.executor.nextIdentity

end Outcomes

section Preparation

/-- The tokens of a request that fits the model's context. -/
theorem tokenizeRequest_at {P : MappedState Logits → Prop} (hP : Stable P)
    (hfails : ∀ s n, P s → F ⟨s, { session with inputTokens := n }⟩)
    (hfails' : ∀ s, P s → F ⟨s, session⟩) :
    Triple (At P session) (tokenizeRequest e b)
      (fun _ l => ∃ n, At P { session with
        inputTokens := n
        tokens := promptOf b session.request } l ∧
          (promptOf b session.request).length ≤ u64Max) F := by
  unfold tokenizeRequest
  apply Triple.bind (at_aside (aside_attempt _) hP hfails')
  intro _
  apply at_session_bind
  intro _
  apply Triple.bind (at_aside (aside_attempt _) hP hfails')
  intro _
  apply Triple.bind (at_setSession _)
  intro _
  apply Triple.require_bind
  · rintro ⟨s, _⟩ ⟨hs, rfl⟩
    exact hfails s _ hs
  intro total htotal
  apply Triple.check_bind
  · rintro ⟨s, _⟩ ⟨hs, rfl⟩
    exact hfails s _ hs
  intro _
  have hlength : (promptOf b session.request).length ≤ u64Max := by
    obtain ⟨sum, hsum, _⟩ := Option.bind_eq_some_iff.mp htotal
    unfold checkedAdd at hsum
    by_cases hfits : session.request.priorTokens.length +
        (b.tokenize session.request.prompt).length ≤ u64Max
    · rw [promptOf, List.length_append]
      exact hfits
    · rw [if_neg hfits] at hsum
      cases hsum
  apply (at_setSession _).after
  intro _ l hl
  exact ⟨_, hl, hlength⟩

/-- What the lookup finds for the context just created. -/
structure Prefixed (tokens : List Token) (m : Option EvaluatedPrefix) (s : MappedState Logits) :
    Prop where
  stored : ∀ m', m = some m' →
    ∃ entry, s.logical.mappings.lookup m'.id = some entry ∧ entry.mapping = m'
  inside : ∀ m', m = some m' → m'.representedEnd ≤ tokens.length ∧
    m'.sequence = tokens.take m'.representedEnd

theorem prefixed_of_lookup (hs : Sound sha e b s) {c : LogicalContextId} {tokens : List Token}
    (howns : Owns c tokens s) {m : Option EvaluatedPrefix}
    (hlookup : s.logical.longestValidPrefix c = .ok m) : Prefixed tokens m s := by
  obtain ⟨context, hc, rfl, _⟩ := howns
  obtain ⟨answer, hanswer, hbest, _⟩ :=
    OptimalPrefixes.longestValidPrefix_best hs.accounted.catalogued c hc
  rw [hanswer] at hlookup
  cases hlookup
  refine ⟨?_, ?_⟩
  · intro m' hm'
    obtain ⟨entry, hentry, hsame⟩ := (hbest m' hm').qualifies.stored
    exact ⟨entry, hentry, hsame⟩
  · intro m' hm'
    have hqualifies := (hbest m' hm').qualifies
    exact ⟨hqualifies.inside, hqualifies.tokens.symm⟩

/-- The session once its prefix is adopted and its branch is there. -/
theorem attached_prepared {s₁ t : MappedState Logits} (hs : Sound sha e b s₁)
    (hheld : Held sha e b none none s₁ t) (hfresh : Fresh session)
    (hfinished : session.finished = none) {c : LogicalContextId} {h : RepresentationHandle}
    {m : Option EvaluatedPrefix} {n : ℕ}
    (hlength : (promptOf b session.request).length ≤ u64Max)
    (howns : Owns c (promptOf b session.request) s₁)
    (hprefixed : Prefixed (promptOf b session.request) m s₁) (hunshared : Unshared t h)
    (htokens : t.executor.tokensOf h = (m.map EvaluatedPrefix.sequence).getD []) :
    Attached e b t { adopt (m.bind (fun m => s₁.resident.lookup m.id)) m { session with
        inputTokens := n
        tokens := promptOf b session.request } with
      activeMapping := some h
      logicalContext := some c
      stage := .prefill } [] false := by
  have hissued := issued_of_owns hs howns
  have howns' : Owns c (promptOf b session.request) t := by
    obtain ⟨context, hc, htokens, hmodel, hadapter⟩ := howns
    refine ⟨context, ?_, htokens, hmodel.trans hheld.evolves.modelEpoch.symm, hadapter⟩
    rw [hheld.evolves.contexts c hissued (fun hnone => nomatch hnone)]
    exact hc
  have hhanded : Handed b { session with tokens := promptOf b session.request } [] :=
    ⟨(List.append_nil _).symm, hfresh.generated, rfl⟩
  refine .prefill rfl rfl hfinished rfl ?_ ⟨hhanded.tokens, hhanded.generated, hhanded.stream⟩
    ⟨hlength, hfresh.chunk⟩
  cases m with
  | none =>
    exact ⟨⟨c, rfl, howns'⟩, ⟨h, rfl, hunshared, htokens⟩, Nat.zero_le _,
      fun _ => e.profile.block_pos, fun p hp => (nomatch hp), rfl⟩
  | some m =>
    obtain ⟨entry, hentry, hsame⟩ := hprefixed.stored m rfl
    obtain ⟨hinside, hsequence⟩ := hprefixed.inside m rfl
    have hpositive : m.representedEnd ≠ 0 := by
      have hblock := (hs.blocks m.id entry hentry).positive
      rw [hsame] at hblock
      omega
    obtain ⟨r, hr⟩ := hs.resident m.id entry hentry
    obtain ⟨entry', hentry', hf⟩ := hs.faithful m.id r hr
    rw [hentry] at hentry'
    cases hentry'
    refine ⟨⟨c, rfl, howns'⟩, ⟨h, rfl, hunshared, htokens.trans hsequence⟩, hinside,
      fun hnone => (nomatch hnone), ?_, ?_⟩
    · intro p hp
      cases hp
      obtain ⟨entry'', hentry'', hkept⟩ := hheld.evolves.mappings m.id entry hentry
      refine ⟨entry'', hentry'', ?_⟩
      rw [hkept, hsame]
      exact ⟨le_rfl, Nat.lt_add_of_pos_right e.profile.block_pos⟩
    · show (s₁.resident.lookup m.id).map ResidentMapping.continuation =
        if m.representedEnd = 0 then none
        else some (b.logits ((promptOf b session.request).take m.representedEnd))
      rw [hr, Option.map_some, if_neg hpositive, hf.continuation, hsame, hsequence]

theorem prepare_settles (hs : Sound sha e b s₀) (hfresh : Fresh session)
    (hfinished : session.finished = none) :
    Triple (At (fun s => s = s₀) session) (prepare e b)
      (fun step l => emittedBy (.ok step) = [] ∧ Settled sha e b none none s₀ [] false l ∧
        l.session.request = session.request)
      (Failed sha e b none none s₀) := by
  have hfailed : ∀ s, Held sha e b none none s₀ s →
      Failed sha e b none none s₀ ⟨s, session⟩ :=
    fun s hheld => ⟨hheld, hfresh.context, Or.inl hfresh.branch⟩
  unfold prepare
  apply Triple.before (P := At (Held sha e b none none s₀) session)
  swap
  · rintro ⟨s, _⟩ ⟨rfl, hsession⟩
    exact ⟨Held.refl hs, hsession⟩
  apply Triple.bind (at_aside (aside_attempt _) stable_held hfailed)
  intro _
  apply Triple.bind (tokenizeRequest_at stable_held
    (fun s n hheld => ⟨hheld, hfresh.context, Or.inl hfresh.branch⟩) hfailed)
  intro _
  apply Triple.of_exists
  intro n
  apply Triple.assume
  intro hlength
  have hfails : ∀ s, Held sha e b none none s₀ s → Failed sha e b none none s₀ ⟨s, { session with
      inputTokens := n
      tokens := promptOf b session.request }⟩ :=
    fun s hheld => ⟨hheld, hfresh.context, Or.inl hfresh.branch⟩
  apply at_read_bind
  intro s₁ hs₁
  apply Triple.bind (at_onState (create_held none none hs₁.sound
    (promptOf b session.request)) (fun s hheld => hfails s (held_trans hs₁ hheld)))
  intro c
  have hcreated : Stable (fun t => Held sha e b none none s₁ t ∧
      Owns c (promptOf b session.request) t ∧ s₁.logical.nextContext ≤ c.value) := by
    intro s t ha ⟨hheld, howns, hle⟩
    exact ⟨hheld.of_aside ha, stable_owns c _ s t ha howns, hle⟩
  apply Triple.bind (at_onState (triple_askLogical _)
    (fun s hheld => hfails s (held_trans hs₁ hheld.1)))
  intro m
  apply at_read_bind
  intro s₂ ⟨⟨hs₂, howns, hle⟩, hlookup⟩
  have hprefixed := prefixed_of_lookup hs₂.sound howns hlookup
  apply Triple.bind (at_setSession _)
  intro _
  have hbranch : Triple (fun t => t = s₂) (branchPrefix b c m)
      (fun h t => Held sha e b none none s₂ t ∧ Unshared t h ∧
        s₂.executor.nextIdentity ≤ h.identity ∧
        t.executor.tokensOf h = (m.map EvaluatedPrefix.sequence).getD [])
      (Held sha e b none none s₂) := by
    apply (branchPrefix_held c m).before
    rintro t rfl
    exact ⟨Held.refl hs₂.sound, hprefixed.stored⟩
  apply Triple.bind (at_onState hbranch
    (fun s hheld => ⟨held_trans hs₁ (held_trans hs₂ hheld), hfresh.context,
      Or.inl hfresh.branch⟩))
  intro h
  apply at_read_bind
  intro s₃ ⟨hs₃, hunshared, hnew, htokens⟩
  apply Triple.bind (at_setSession _)
  intro _
  apply Triple.pure
  rintro ⟨t, _⟩ ⟨rfl, rfl⟩
  have hattached := attached_prepared (n := n) hs₂.sound hs₃ hfresh hfinished hlength howns
    hprefixed hunshared htokens
  refine ⟨rfl, ⟨held_trans hs₁ (held_trans hs₂ hs₃), hattached, ?_, ?_⟩, rfl⟩
  · exact Or.inr ⟨c, rfl, hs₁.evolves.next.trans hle,
      (issued_of_owns hs₂.sound howns).trans_le hs₃.evolves.next⟩
  · exact Or.inr (Or.inr ⟨h, rfl, (hs₁.evolves.identities.trans hs₂.evolves.identities).trans hnew,
      hunshared.issued⟩)

end Preparation

section Blocks

/-- A session that has evaluated more tokens, at most up to the end of the block. -/
structure Advanced (e : MappedEngine) (b : Backend Logits Sampler) (c : LogicalContextId)
    (h : RepresentationHandle) (s : MappedState Logits)
    (session : MappedSession Logits Sampler) : Prop where
  context : session.logicalContext = some c
  branch : session.activeMapping = some h
  owns : Owns c session.tokens s
  unshared : Unshared s h
  holds : s.executor.tokensOf h = session.tokens.take session.evaluated
  positive : 0 < session.evaluated
  evaluated : session.evaluated ≤ session.tokens.length
  first : session.parent = none → session.evaluated ≤ e.profile.blockSize
  later : ∀ p, session.parent = some p → ∃ entry, s.logical.mappings.lookup p = some entry ∧
    entry.mapping.representedEnd < session.evaluated ∧
    session.evaluated ≤ entry.mapping.representedEnd + e.profile.blockSize
  next : session.next = some (b.logits (session.tokens.take session.evaluated))

variable {c : LogicalContextId} {h : RepresentationHandle}

/-- Short of the end of a block nothing is published. -/
theorem working_of_advanced (hs : Sound sha e b s) (ha : Advanced e b c h s session)
    (hinside : session.evaluated % e.profile.blockSize ≠ 0) : Working e b s session where
  context := ⟨c, ha.context, ha.owns⟩
  branch := ⟨h, ha.branch, ha.unshared, ha.holds⟩
  evaluated := ha.evaluated
  first := by
    intro hnone
    apply lt_of_le_of_ne (ha.first hnone)
    intro heq
    rw [heq, Nat.mod_self] at hinside
    exact hinside rfl
  later := by
    intro p hp
    obtain ⟨entry, hentry, hlt, hle⟩ := ha.later p hp
    refine ⟨entry, hentry, Nat.le_of_lt hlt, lt_of_le_of_ne hle ?_⟩
    intro heq
    have hdivides := (hs.blocks p entry hentry).divides
    rw [heq] at hinside
    exact hinside (Nat.mod_eq_zero_of_dvd (Nat.dvd_add hdivides (Nat.dvd_refl _)))
  next := by
    rw [ha.next, if_neg (Nat.pos_iff_ne_zero.mp ha.positive)]

/-- At the end of a block the next one starts from the session's parent. -/
theorem blockStart_of_advanced (hs : Sound sha e b s) (ha : Advanced e b c h s session)
    (hend : session.evaluated % e.profile.blockSize = 0) :
    BlockStart e s.logical session.parent session.evaluated where
  positive := ha.positive
  divides := Nat.dvd_of_mod_eq_zero hend
  first := by
    intro hnone
    exact Nat.le_antisymm (ha.first hnone) (Nat.le_of_dvd ha.positive (Nat.dvd_of_mod_eq_zero hend))
  longer := by
    intro p hp
    obtain ⟨entry, hentry, hlt, hle⟩ := ha.later p hp
    refine ⟨entry, hentry, Nat.le_antisymm ?_ hle⟩
    have hdivides := (hs.blocks p entry hentry).divides
    have hgap := Nat.le_of_dvd (by omega) (Nat.dvd_sub (Nat.dvd_of_mod_eq_zero hend) hdivides)
    omega

theorem snapshot_held (own : Option LogicalContextId) (branch : Option RepresentationHandle)
    (hs : Sound sha e b s) :
    Triple (fun t => t = s) (snapshotActiveMapping h) (fun k t => Held sha e b own branch s t ∧
      s.executor.nextIdentity ≤ k.identity ∧ k.identity < t.executor.nextIdentity ∧
      t.executor.tokensOf k = s.executor.tokensOf h) (Held sha e b own branch s) := by
  unfold snapshotActiveMapping
  have hcopied : Stable (fun t => Held sha e b own branch s t ∧
      t.executor.tokensOf h = s.executor.tokensOf h) :=
    stable_held.and (stable_tokens h _)
  have hfork : Triple (fun t => t = s) (prepareMappingFork h)
      (fun copied t => Held sha e b own branch s t ∧ copied = s.executor.tokensOf h)
      (Held sha e b own branch s) := by
    apply (triple_prepareMappingFork h hcopied).weaken
    · rintro t rfl
      exact ⟨Held.refl hs, rfl⟩
    · intro copied t ⟨⟨hheld, hsame⟩, hread⟩
      exact ⟨hheld, hread.trans hsame⟩
    · exact fun _ ht => ht.1
  apply Triple.bind hfork
  intro copied
  apply Triple.assume
  rintro rfl
  apply ((enterRepresentation_held (s.executor.tokensOf h) (P := fun _ => True)
    (fun _ _ _ _ => trivial) (fun _ _ => trivial)).before (fun _ ht => ⟨ht, trivial⟩)).after
  intro k t ⟨⟨hheld, _⟩, hunshared, hnew, htokens⟩
  exact ⟨hheld, hnew, hunshared.issued, htokens⟩

theorem completeBlock_at : Triple (At (fun s => Held sha e b (some c) (some h) s₀ s ∧
      Advanced e b c h s session) session) (completeBlock sha e b)
    (fun _ l => Held sha e b (some c) (some h) s₀ l.state ∧ Working e b l.state l.session ∧
      ∃ p, l.session = { session with parent := p })
    (Failed sha e b (some c) (some h) s₀) := by
  unfold completeBlock
  apply at_read_bind
  intro s ⟨hheld, ha⟩
  have hfails : ∀ {own' branch'} (t : MappedState Logits), Held sha e b own' branch' s t →
      (own' = none ∨ own' = some c) → (branch' = none ∨ branch' = some h) →
      Failed sha e b (some c) (some h) s₀ ⟨t, session⟩ :=
    fun t ht hown hbranch => ⟨held_trans hheld (held_widen ht hown hbranch), ha.context,
      Or.inl ha.branch⟩
  apply Triple.ite
  · intro hend
    have hstart := blockStart_of_advanced hheld.sound ha hend
    apply Triple.unwrap_bind
    intro h' hh'
    rw [ha.branch] at hh'
    cases hh'
    apply Triple.bind (at_onState (snapshot_held none none hheld.sound)
      (fun t ht => hfails t ht (Or.inl rfl) (Or.inl rfl)))
    intro k
    apply Triple.unwrap_bind
    intro c' hc'
    rw [ha.context] at hc'
    cases hc'
    apply Triple.unwrap_bind
    intro continuation hcontinuation
    rw [ha.next] at hcontinuation
    cases hcontinuation
    have hpublish : Triple (fun t => Held sha e b none none s t ∧
          s.executor.nextIdentity ≤ k.identity ∧ k.identity < t.executor.nextIdentity ∧
          t.executor.tokensOf k = s.executor.tokensOf h)
        (publishBlock sha e.profile b c session.evaluated session.parent k
          (b.logits (session.tokens.take session.evaluated)))
        (fun id t => Held sha e b (some c) none s t ∧ Owns c session.tokens t ∧
          Published session.tokens session.evaluated id t)
        (Held sha e b (some c) none s) := by
      apply (publishBlock_held none rfl).before
      intro t ⟨ht, hnew, hissued, htokens⟩
      obtain ⟨context, hc, htokens', hmodel, hadapter⟩ := ha.owns
      refine ⟨held_widen ht (Or.inl rfl) (Or.inl rfl), ⟨context, ?_, htokens',
        hmodel.trans ht.evolves.modelEpoch.symm, hadapter⟩, ?_, hissued, hnew,
        htokens.trans ha.holds, rfl⟩
      · rw [ht.evolves.contexts c (issued_of_owns hheld.sound ha.owns) (fun hnone => nomatch hnone)]
        exact hc
      · refine ⟨hstart.positive, hstart.divides, hstart.first, ?_⟩
        intro p hp
        obtain ⟨entry, hentry, hlonger⟩ := hstart.longer p hp
        obtain ⟨entry', hentry', hsame⟩ := ht.evolves.mappings p entry hentry
        exact ⟨entry', hentry', hsame ▸ hlonger⟩
    apply Triple.bind (at_onState hpublish (fun t ht => hfails t ht (Or.inr rfl) (Or.inl rfl)))
    intro id
    apply (at_setSession _).after
    rintro _ ⟨t, _⟩ ⟨⟨ht, howns, entry, hentry, hlength, hsequence⟩, rfl⟩
    refine ⟨held_trans hheld (held_widen ht (Or.inr rfl) (Or.inl rfl)), ?_, some id, rfl⟩
    refine ⟨⟨c, ha.context, howns⟩, ⟨h, ha.branch, ha.unshared.evolve ht.evolves, ?_⟩,
      ha.evaluated, fun hnone => (nomatch hnone), ?_, ?_⟩
    · exact (ht.evolves.evaluated h ha.unshared.issued (fun hnone => nomatch hnone)).trans ha.holds
    · intro p hp
      cases hp
      exact ⟨entry, hentry, hlength.le, hlength ▸ Nat.lt_add_of_pos_right e.profile.block_pos⟩
    · exact ha.next.trans (if_neg (Nat.pos_iff_ne_zero.mp ha.positive)).symm
  · intro hinside
    apply Triple.pure
    rintro ⟨t, _⟩ ⟨rfl, rfl⟩
    exact ⟨hheld, working_of_advanced hheld.sound ha hinside, _, rfl⟩

theorem stable_working : Stable (fun s => Held sha e b (some c) (some h) s₀ s ∧
    Working e b s session) := by
  intro s t ha ⟨hheld, hw⟩
  have hevolves : Evolves none none s t := Evolves.of_aside ha
  exact ⟨hheld.of_aside ha, hw.evolve hheld.sound hevolves (fun _ _ hnone => nomatch hnone)
    (fun _ _ hnone => nomatch hnone)⟩

theorem stable_advanced : Stable (fun s => Held sha e b (some c) (some h) s₀ s ∧
    Advanced e b c h s session) := by
  intro s t haside ⟨hheld, ha⟩
  refine ⟨hheld.of_aside haside, ha.context, ha.branch, stable_owns c _ s t haside ha.owns,
    ha.unshared.of_aside haside, (haside.tokensOf h).trans ha.holds, ha.positive, ha.evaluated,
    ha.first, ?_, ha.next⟩
  rw [haside.logical]
  exact ha.later

theorem activateOwned_at {P : MappedState Logits → Prop} (hbranch : session.activeMapping = some h)
    (hP : Stable P) (hfails : ∀ s, P s → F ⟨s, session⟩) :
    Triple (At P session) (activateOwned session)
      (fun _ => At (fun s => P s ∧ s.executor.active = h) session) F := by
  unfold activateOwned
  apply Triple.unwrap_bind
  intro h' hh'
  rw [hbranch] at hh'
  cases hh'
  exact at_onState (triple_activateMapping h hP) hfails

/-- How far the session may evaluate: up to the end of the block it is in. -/
def Within (e : MappedEngine) (s : MappedState Logits) (session : MappedSession Logits Sampler)
    (stop : ℕ) : Prop :=
  (session.parent = none → stop ≤ e.profile.blockSize) ∧
    ∀ p entry, session.parent = some p → s.logical.mappings.lookup p = some entry →
      stop ≤ entry.mapping.representedEnd + e.profile.blockSize

/-- The next tokens are evaluated in the session's own branch. -/
theorem evaluate_at (hcontext : session.logicalContext = some c)
    (hbranch : session.activeMapping = some h) {stop : ℕ} (hlt : session.evaluated < stop)
    (hle : stop ≤ session.tokens.length) {more : List Token}
    (hmore : more = (session.tokens.take stop).drop session.evaluated) :
    Triple (At (fun s => ((Held sha e b (some c) (some h) s₀ s ∧ Working e b s session) ∧
        s.executor.active = h) ∧ Within e s session stop) session)
      (onState (decodeTokens b more))
      (fun next => At (fun t => Held sha e b (some c) (some h) s₀ t ∧
        Advanced e b c h t { session with
          next := some next
          evaluated := stop }) session)
      (Failed sha e b (some c) (some h) s₀) := by
  apply at_state
  intro s ⟨⟨⟨hheld, hw⟩, hactive⟩, hfirst, hlater⟩
  obtain ⟨h', hh', hunshared, hholds⟩ := hw.branch
  rw [hbranch] at hh'
  cases hh'
  have hdecode : Triple (fun t => t = s) (decodeTokens b more)
      (fun next t => Held sha e b none (some h) s t ∧ Unshared t h ∧
        t.executor.tokensOf h = s.executor.tokensOf h ++ more ∧
        next = b.logits (s.executor.tokensOf h ++ more)) (Held sha e b none (some h) s) := by
    apply (decodeTokens_held none rfl (s.executor.tokensOf h) more).before
    rintro t rfl
    exact ⟨⟨Held.refl hheld.sound, hunshared, rfl⟩, hactive⟩
  have hall : s.executor.tokensOf h ++ more = session.tokens.take stop := by
    rw [hholds, hmore, ← Nat.min_eq_left hlt.le, ← List.take_take, Nat.min_eq_left hlt.le,
      List.take_append_drop]
  apply (at_onState hdecode ?_).after
  · rintro next ⟨t, _⟩ ⟨⟨ht, hunshared', htokens, rfl⟩, rfl⟩
    obtain ⟨c', hc', howns⟩ := hw.context
    rw [hcontext] at hc'
    cases hc'
    have hissued := issued_of_owns hheld.sound howns
    obtain ⟨context, hc, htokens', hmodel, hadapter⟩ := howns
    refine ⟨⟨held_trans hheld (held_widen ht (Or.inl rfl) (Or.inr rfl)), hcontext, hbranch,
      ⟨context, ?_, htokens', hmodel.trans ht.evolves.modelEpoch.symm, hadapter⟩, hunshared', ?_,
      Nat.zero_lt_of_lt hlt, hle, hfirst, ?_, ?_⟩, rfl⟩
    · rw [ht.evolves.contexts c hissued (fun hnone => nomatch hnone)]
      exact hc
    · exact htokens.trans hall
    · intro p hp
      obtain ⟨entry, hentry, hge, _⟩ := hw.later p hp
      obtain ⟨entry', hentry', hsame⟩ := ht.evolves.mappings p entry hentry
      refine ⟨entry', hentry', ?_⟩
      rw [hsame]
      exact ⟨hge.trans_lt hlt, hlater p entry hp hentry⟩
    · exact congrArg some (congrArg b.logits hall)
  · intro t ht
    exact ⟨held_trans hheld (held_widen ht (Or.inl rfl) (Or.inr rfl)), hcontext, Or.inl hbranch⟩

end Blocks

section Prefill

variable {c : LogicalContextId} {h : RepresentationHandle}

/-- The end of the block that some tokens after a whole number of blocks are in. -/
theorem blockEnd {size start n : ℕ} (hdivides : size ∣ start) (hle : start ≤ n)
    (hlt : n < start + size) : (n / size + 1) * size = start + size := by
  obtain ⟨q, rfl⟩ := hdivides
  have hquotient : n / size = q := by
    apply Nat.div_eq_of_lt_le
    · rw [Nat.mul_comm]
      exact hle
    · rw [Nat.add_mul, Nat.one_mul, Nat.mul_comm]
      exact hlt
  rw [hquotient, Nat.add_mul, Nat.one_mul, Nat.mul_comm]

theorem chunkEnd_bounds (hlt : session.evaluated < session.tokens.length)
    (hchunked : Chunked session) : session.evaluated < chunkEnd e session ∧
      chunkEnd e session ≤ session.tokens.length ∧
      chunkEnd e session ≤ (session.evaluated / e.profile.blockSize + 1) *
        e.profile.blockSize := by
  have hblock : session.evaluated <
      (session.evaluated / e.profile.blockSize + 1) * e.profile.blockSize := by
    rw [Nat.mul_comm]
    exact Nat.lt_mul_div_succ _ e.profile.block_pos
  have hlength := hchunked.length
  have hchunk := hchunked.chunk
  unfold chunkEnd saturatingAdd
  simp only
  refine ⟨?_, ?_, ?_⟩
  · generalize (session.evaluated / e.profile.blockSize + 1) * e.profile.blockSize =
      stop at hblock ⊢
    omega
  · exact (min_le_left _ _).trans (min_le_left _ _)
  · exact ((min_le_left _ _).trans (min_le_right _ _)).trans (min_le_left _ _)

theorem within_chunk (hs : Sound sha e b s) (hw : Working e b s session)
    (hlt : session.evaluated < session.tokens.length) (hchunked : Chunked session) :
    Within e s session (chunkEnd e session) := by
  obtain ⟨_, _, hblock⟩ := chunkEnd_bounds (e := e) hlt hchunked
  refine ⟨?_, ?_⟩
  · intro hnone
    rw [Nat.div_eq_of_lt (hw.first hnone), Nat.zero_add, Nat.one_mul] at hblock
    exact hblock
  · intro p entry hp hentry
    obtain ⟨entry', hentry', hge, hinside⟩ := hw.later p hp
    rw [hentry] at hentry'
    cases hentry'
    rw [blockEnd (hs.blocks p entry hentry).divides hge hinside] at hblock
    exact hblock

theorem decodeChunk_at (hcontext : session.logicalContext = some c)
    (hbranch : session.activeMapping = some h)
    (hlt : session.evaluated < session.tokens.length) (hchunked : Chunked session) :
    Triple (At (fun s => (Held sha e b (some c) (some h) s₀ s ∧ Working e b s session) ∧
        s.executor.active = h) session) (decodeChunk e b)
      (fun _ l => ∃ next, At (fun s => Held sha e b (some c) (some h) s₀ s ∧
        Advanced e b c h s { session with
          next := some next
          evaluated := chunkEnd e session }) { session with
            next := some next
            evaluated := chunkEnd e session } l)
      (Failed sha e b (some c) (some h) s₀) := by
  obtain ⟨hmore, hinside, _⟩ := chunkEnd_bounds (e := e) hlt hchunked
  unfold decodeChunk
  apply at_session_bind
  intro _
  apply Triple.bind ((evaluate_at hcontext hbranch hmore hinside rfl).before ?_)
  · intro next
    apply Triple.bind (at_setSession _)
    intro _
    apply Triple.bind (at_aside (aside_attempt _) stable_advanced
      (fun s hs => ⟨hs.1, hcontext, Or.inl hbranch⟩))
    intro _
    apply (at_setSession _).after
    intro _ l hl
    exact ⟨next, hl⟩
  · rintro ⟨s, _⟩ ⟨⟨⟨hheld, hw⟩, hactive⟩, hsession⟩
    exact ⟨⟨⟨⟨hheld, hw⟩, hactive⟩, within_chunk hheld.sound hw hlt hchunked⟩, hsession⟩

/-- All tokens are evaluated: the session samples from here on. -/
theorem enterDecode_settles (hcontext : session.logicalContext = some c)
    (hbranch : session.activeMapping = some h) (hfinished : session.finished = none)
    (hhanded : Handed b session []) (hdone : session.tokens.length ≤ session.evaluated) :
    Triple (At (fun s => Held sha e b (some c) (some h) s₀ s ∧ Working e b s session) session)
      (enterDecode b)
      (fun step l => emittedBy (.ok step) = [] ∧
        Settled sha e b (some c) (some h) s₀ [] false l ∧ l.session.request = session.request)
      (Failed sha e b (some c) (some h) s₀) := by
  have hfails : ∀ s, Held sha e b (some c) (some h) s₀ s ∧ Working e b s session →
      Failed sha e b (some c) (some h) s₀ ⟨s, session⟩ :=
    fun s hs => ⟨hs.1, hcontext, Or.inl hbranch⟩
  unfold enterDecode
  apply at_session_bind
  intro _
  apply Triple.check_bind
  · rintro ⟨s, _⟩ ⟨hs, rfl⟩
    exact hfails s hs
  intro _
  apply Triple.bind (at_aside (aside_attempt _) stable_working hfails)
  intro _
  apply Triple.bind (at_setSession _)
  intro _
  apply Triple.pure
  rintro ⟨s, _⟩ ⟨⟨hheld, hw⟩, rfl⟩
  refine ⟨rfl, ⟨hheld, ?_, Or.inl hcontext, Or.inl hbranch⟩, rfl⟩
  refine .decode rfl rfl hfinished
    ⟨hw.context, hw.branch, hw.evaluated, hw.first, hw.later, hw.next⟩
    (Nat.le_antisymm hw.evaluated hdone) ⟨hhanded.tokens, hhanded.generated, hhanded.stream⟩
    ⟨Nat.zero_le _, fun x hx => (nomatch hx)⟩ rfl

theorem prefill_settles (hcontext : session.logicalContext = some c)
    (hbranch : session.activeMapping = some h) (hstage : session.stage = .prefill)
    (hfinished : session.finished = none) (hhanded : Handed b session [])
    (hchunked : Chunked session) :
    Triple (At (fun s => Held sha e b (some c) (some h) s₀ s ∧ Working e b s session) session)
      (prefill sha e b)
      (fun step l => emittedBy (.ok step) = [] ∧
        Settled sha e b (some c) (some h) s₀ [] false l ∧ l.session.request = session.request)
      (Failed sha e b (some c) (some h) s₀) := by
  have hfails : ∀ s, Held sha e b (some c) (some h) s₀ s ∧ Working e b s session →
      Failed sha e b (some c) (some h) s₀ ⟨s, session⟩ :=
    fun s hs => ⟨hs.1, hcontext, Or.inl hbranch⟩
  unfold prefill
  apply at_session_bind
  intro _
  apply Triple.ite
  · intro hdone
    exact enterDecode_settles hcontext hbranch hfinished hhanded hdone
  · intro hmore
    have hlt : session.evaluated < session.tokens.length := Nat.not_le.mp hmore
    apply Triple.bind (at_aside (aside_attempt _) stable_working hfails)
    intro _
    apply Triple.bind (at_aside (aside_attempt _) stable_working hfails)
    intro _
    apply Triple.bind (activateOwned_at hbranch stable_working hfails)
    intro _
    apply Triple.bind (decodeChunk_at hcontext hbranch hlt hchunked)
    intro _
    apply Triple.of_exists
    intro next
    apply Triple.bind completeBlock_at
    intro _
    apply Triple.pure
    rintro ⟨s, _⟩ ⟨hheld, hw, p, rfl⟩
    refine ⟨rfl, ⟨hheld, ?_, Or.inl hcontext, Or.inl hbranch⟩, rfl⟩
    exact .prefill hstage rfl hfinished rfl hw ⟨hhanded.tokens, hhanded.generated, hhanded.stream⟩
      ⟨hchunked.length, hchunked.chunk⟩

end Prefill

section Publication

theorem leaveBranch_at {P : MappedState Logits → Prop} (hP : Stable P)
    (hfails : ∀ s, P s → F ⟨s, { session with activeMapping := none }⟩) :
    Triple (At P session) leaveBranch
      (fun _ => At P { session with activeMapping := none }) F := by
  unfold leaveBranch
  apply at_session_bind
  intro s
  cases hactive : session.activeMapping with
  | none =>
    apply Triple.pure
    rintro ⟨t, _⟩ ⟨ht, rfl⟩
    refine ⟨ht, ?_⟩
    rw [← hactive]
  | some active =>
    apply Triple.bind (at_setSession _)
    intro _
    apply Triple.bind (at_aside aside_activeRepresentation hP hfails)
    intro current
    apply Triple.ite
    · intro _
      exact at_aside (aside_activateMapping _) hP hfails
    · intro _
      exact Triple.pure (fun _ hl => hl)

/-- A session that publishes gives its branch up and keeps its output. -/
theorem publish_at {P : MappedState Logits → Prop} (hP : Stable P)
    (hfinished : session.finished = none)
    (hfails : ∀ s session', P s → session'.logicalContext = session.logicalContext →
      session'.activeMapping = session.activeMapping ∨ session'.activeMapping = none →
      F ⟨s, session'⟩) :
    Triple (At P session) publish (fun output l => output = outputOf session ∧ At P { session with
      sampler := none
      activeMapping := none
      finished := some (outputOf session)
      stage := .finished } l) F := by
  unfold publish
  apply at_session_bind
  intro _
  simp only [hfinished]
  apply Triple.bind (at_aside (aside_attempt _) hP (fun s hs => hfails s _ hs rfl (Or.inl rfl)))
  intro _
  apply Triple.bind (at_setSession _)
  intro _
  refine Triple.bind (leaveBranch_at hP ?_) ?_
  · exact fun s hs => hfails s _ hs rfl (Or.inr rfl)
  intro _
  apply Triple.bind (at_setSession _)
  intro _
  exact Triple.pure (fun l hl => ⟨rfl, hl⟩)

/-- Whatever was handed out, a session that is finished stays attached. -/
theorem publish_settles (emitted : List Token) (stopped : Bool)
    (hcontext : session.logicalContext = own)
    (hbranch : session.activeMapping = branch) (hfinished : session.finished = none)
    (hhanded : stopped = false ∨ emitted ≠ [] → Handed b session emitted)
    (hends : stopped = false → Ends b session.request emitted) :
    Triple (At (Held sha e b own branch s₀) session) publish
      (fun _ l => Settled sha e b own branch s₀ emitted stopped l ∧
        l.session.request = session.request)
      (Failed sha e b own branch s₀) := by
  apply (publish_at stable_held hfinished (fun s session' hs hcontext' hbranch' =>
    ⟨hs, hcontext'.trans hcontext, hbranch ▸ hbranch'⟩)).after
  rintro output ⟨s, _⟩ ⟨rfl, hheld, rfl⟩
  refine ⟨⟨hheld, ?_, Or.inl hcontext, Or.inr (Or.inl rfl)⟩, rfl⟩
  refine .finished _ rfl rfl rfl ?_ hends
  intro hkept
  exact ⟨(hhanded hkept).tokens, (hhanded hkept).generated, (hhanded hkept).stream⟩

end Publication

section Decode

variable {c : LogicalContextId} {h : RepresentationHandle}

theorem at_attempt {P : MappedState Logits → Prop} {err : Mapped.Error} (hP : Stable P)
    (hfails : ∀ s, P s → F ⟨s, session⟩) :
    Triple (At (fun s => P s ∧ s.executor.active = h) session) (onState (attempt err))
      (fun _ => At (fun s => P s ∧ s.executor.active = h) session) F :=
  at_onState (active_attempt hP) hfails

/-- A session with one more token that is not evaluated yet. -/
theorem working_appended {t : MappedState Logits} (hw : Working e b s session) {token : Token}
    {sampler : Sampler} (hcontext : session.logicalContext = some c)
    (ht : Held sha e b (some c) none s t) (howns : Owns c (session.tokens ++ [token]) t) :
    Working e b t { session with
      sampler := some sampler
      tokens := session.tokens ++ [token]
      generated := session.generated + 1 } := by
  have htake : (session.tokens ++ [token]).take session.evaluated =
      session.tokens.take session.evaluated := List.take_append_of_le_length hw.evaluated
  obtain ⟨h, hh, hunshared, hholds⟩ := hw.branch
  refine ⟨⟨c, hcontext, howns⟩, ⟨h, hh, hunshared.evolve ht.evolves, ?_⟩, ?_, hw.first, ?_, ?_⟩
  · exact ((ht.evolves.evaluated h hunshared.issued
      (fun hnone => nomatch hnone)).trans hholds).trans htake.symm
  · show session.evaluated ≤ (session.tokens ++ [token]).length
    rw [List.length_append]
    exact hw.evaluated.trans (Nat.le_add_right _ _)
  · intro p hp
    obtain ⟨entry, hentry, hlater⟩ := hw.later p hp
    obtain ⟨entry', hentry', hsame⟩ := ht.evolves.mappings p entry hentry
    exact ⟨entry', hentry', hsame ▸ hlater⟩
  · show session.next = if session.evaluated = 0 then none
      else some (b.logits ((session.tokens ++ [token]).take session.evaluated))
    rw [htake]
    exact hw.next

theorem sampleToken_at (hcontext : session.logicalContext = some c)
    (hbranch : session.activeMapping = some h) {sampler : Sampler}
    (hsampler : session.sampler = some sampler)
    (hevaluated : session.evaluated = session.tokens.length) :
    Triple (At (fun s => (Held sha e b (some c) (some h) s₀ s ∧ Working e b s session) ∧
        s.executor.active = h) session) (sampleToken b)
      (fun r l => At (fun s => (Held sha e b (some c) (some h) s₀ s ∧ Working e b s { session with
            sampler := some (b.sample sampler (b.logits session.tokens)).2
            tokens := session.tokens ++ [(b.sample sampler (b.logits session.tokens)).1]
            generated := session.generated + 1 }) ∧ s.executor.active = h) { session with
          sampler := some (b.sample sampler (b.logits session.tokens)).2
          tokens := session.tokens ++ [(b.sample sampler (b.logits session.tokens)).1]
          generated := session.generated + 1 } l ∧
        r.1 = (b.sample sampler (b.logits session.tokens)).1)
      (Failed sha e b (some c) (some h) s₀) := by
  have hfails : ∀ (s : MappedState Logits) (session' : MappedSession Logits Sampler),
      session'.logicalContext = session.logicalContext →
      session'.activeMapping = session.activeMapping →
      Held sha e b (some c) (some h) s₀ s →
      Failed sha e b (some c) (some h) s₀ ⟨s, session'⟩ :=
    fun s session' hc hb hs => ⟨hs, hc.trans hcontext, Or.inl (hb.trans hbranch)⟩
  unfold sampleToken
  apply at_session_bind
  intro _
  apply Triple.unwrap_bind
  intro sampler' hsampler'
  rw [hsampler] at hsampler'
  cases hsampler'
  apply Triple.unwrap_bind
  intro next hnext
  apply Triple.bind (at_setSession _)
  intro _
  have htry : ∀ err, Triple (At (fun s => (Held sha e b (some c) (some h) s₀ s ∧
        Working e b s session) ∧ s.executor.active = h) { session with
          sampler := some (b.sample sampler next).2 }) (onState (attempt err))
      (fun _ => At (fun s => (Held sha e b (some c) (some h) s₀ s ∧ Working e b s session) ∧
        s.executor.active = h) { session with sampler := some (b.sample sampler next).2 })
      (Failed sha e b (some c) (some h) s₀) :=
    fun err => at_attempt stable_working (fun s hs => hfails s _ rfl rfl hs.1)
  apply Triple.bind (htry _)
  intro _
  have hskip : Triple (At (fun s => (Held sha e b (some c) (some h) s₀ s ∧
        Working e b s session) ∧ s.executor.active = h) { session with
          sampler := some (b.sample sampler next).2 })
      (Call.skipIf (b.tokenIsEog (b.sample sampler next).1) (onState (attempt .executor)))
      (fun _ => At (fun s => (Held sha e b (some c) (some h) s₀ s ∧ Working e b s session) ∧
        s.executor.active = h) { session with sampler := some (b.sample sampler next).2 })
      (Failed sha e b (some c) (some h) s₀) := by
    unfold Call.skipIf
    exact Triple.ite (fun _ => Triple.pure (fun _ hl => hl)) (fun _ => htry _)
  apply Triple.bind hskip
  intro _
  apply Triple.bind (htry _)
  intro _
  apply Triple.bind (at_setSession _)
  intro _
  apply Triple.unwrap_bind
  intro c' hc'
  rw [hcontext] at hc'
  cases hc'
  apply at_state
  intro s ⟨⟨hheld, hw⟩, hactive⟩
  obtain ⟨c', hc', howns⟩ := hw.context
  rw [hcontext] at hc'
  cases hc'
  have hlogits : next = b.logits session.tokens := by
    rw [hw.next, hevaluated, List.take_length] at hnext
    by_cases hzero : session.tokens.length = 0
    · rw [if_pos hzero] at hnext
      cases hnext
    · rw [if_neg hzero] at hnext
      exact (Option.some.inj hnext).symm
  subst hlogits
  refine Triple.bind (at_onState (append_held none hheld.sound howns _) ?_) ?_
  · exact fun t ht => hfails t _ rfl rfl (held_trans hheld (held_widen ht (Or.inr rfl)
      (Or.inl rfl)))
  intro _
  apply Triple.bind (at_setSession _)
  intro _
  apply Triple.pure
  rintro ⟨t, _⟩ ⟨⟨ht, howns', l, hl, _⟩, rfl⟩
  refine ⟨⟨⟨⟨held_trans hheld (held_widen ht (Or.inr rfl) (Or.inl rfl)),
    working_appended hw hcontext ht howns'⟩, ?_⟩, rfl⟩, rfl⟩
  have hexecutor : t.executor = s.executor := by
    rw [show t = { s with logical := l } from hl]
  exact (congrArg Executor.active hexecutor).trans hactive

/-- The next token of the stream. -/
theorem stream_next (hhanded : Handed b session emitted) :
    stream b session.request (emitted.length + 1) =
      (emitted ++ [(b.sample (stream b session.request emitted.length).2
        (b.logits session.tokens)).1],
      (b.sample (stream b session.request emitted.length).2 (b.logits session.tokens)).2) := by
  rw [hhanded.tokens]
  show (_, _) = (_, _)
  rw [hhanded.stream]

theorem handed_next (hhanded : Handed b session emitted) {token : Token} {sampler : Sampler}
    (hsample : b.sample (stream b session.request emitted.length).2 (b.logits session.tokens) =
      (token, sampler)) :
    Handed b { session with
      sampler := some sampler
      tokens := session.tokens ++ [token]
      generated := session.generated + 1 } (emitted ++ [token]) ∧
      (stream b session.request (emitted ++ [token]).length).2 = sampler := by
  have hstream := stream_next hhanded
  rw [hsample] at hstream
  have hlength : (emitted ++ [token]).length = emitted.length + 1 := by
    rw [List.length_append, List.length_singleton]
  refine ⟨⟨?_, ?_, ?_⟩, ?_⟩
  · show session.tokens ++ [token] = promptOf b session.request ++ (emitted ++ [token])
    rw [hhanded.tokens, List.append_assoc]
  · rw [hlength, ← hhanded.generated]
  · rw [hlength, hstream]
  · rw [hlength, hstream]

/-- The token is evaluated, and the block it completes published. -/
theorem decodeSampled_at (hcontext : session.logicalContext = some c)
    (hbranch : session.activeMapping = some h) {token : Token} {before : List Token}
    (htokens : session.tokens = before ++ [token])
    (hevaluated : session.evaluated = before.length) :
    Triple (At (fun s => (Held sha e b (some c) (some h) s₀ s ∧ Working e b s session) ∧
        s.executor.active = h) session) (decodeSampled sha e b token)
      (fun _ l => Held sha e b (some c) (some h) s₀ l.state ∧ Working e b l.state l.session ∧
        ∃ next p, l.session = { session with
          next := some next
          evaluated := session.evaluated + 1
          parent := p })
      (Failed sha e b (some c) (some h) s₀) := by
  have hlength : session.tokens.length = session.evaluated + 1 := by
    rw [htokens, List.length_append, List.length_singleton, hevaluated]
  have hmore : [token] = (session.tokens.take (session.evaluated + 1)).drop session.evaluated := by
    rw [← hlength, List.take_length, htokens, hevaluated, List.drop_left]
  unfold decodeSampled
  apply Triple.bind ((evaluate_at hcontext hbranch (Nat.lt_succ_self _) hlength.ge hmore).before ?_)
  · intro next
    apply Triple.bind (at_setSession _)
    intro _
    apply Triple.bind (at_aside (aside_attempt _) stable_advanced
      (fun s hs => ⟨hs.1, hcontext, Or.inl hbranch⟩))
    intro _
    apply Triple.bind (at_setSession _)
    intro _
    apply completeBlock_at.after
    intro _ l ⟨hheld, hw, p, hl⟩
    exact ⟨hheld, hw, next, p, hl⟩
  · rintro ⟨s, _⟩ ⟨⟨⟨hheld, hw⟩, hactive⟩, hsession⟩
    refine ⟨⟨⟨⟨hheld, hw⟩, hactive⟩, hw.first, ?_⟩, hsession⟩
    intro p entry hp hentry
    obtain ⟨entry', hentry', _, hlt⟩ := hw.later p hp
    rw [hentry] at hentry'
    cases hentry'
    exact hlt

theorem decode_settles (hcontext : session.logicalContext = some c)
    (hbranch : session.activeMapping = some h) (hstage : session.stage = .decode)
    (hfinished : session.finished = none) (hevaluated : session.evaluated = session.tokens.length)
    (hhanded : Handed b session emitted) (hcontinues : Continues b session.request emitted)
    (hsampler : session.sampler = some (stream b session.request emitted.length).2) :
    Triple (At (fun s => Held sha e b (some c) (some h) s₀ s ∧ Working e b s session) session)
      (decode sha e b)
      (fun step l => Settled sha e b (some c) (some h) s₀
        (emitted ++ emittedBy (.ok step)) false l ∧
        l.session.request = session.request)
      (Failed sha e b (some c) (some h) s₀) := by
  have hfails : ∀ s, Held sha e b (some c) (some h) s₀ s ∧ Working e b s session →
      Failed sha e b (some c) (some h) s₀ ⟨s, session⟩ :=
    fun s hs => ⟨hs.1, hcontext, Or.inl hbranch⟩
  unfold decode
  apply at_session_bind
  intro _
  apply Triple.ite
  · intro hall
    have hends : Ends b session.request emitted := by
      refine ⟨hcontinues.bounded, ?_, Or.inl ?_⟩
      · exact fun x hx => hcontinues.unended x ((List.dropLast_sublist _).subset hx)
      · rw [hhanded.generated] at hall
        exact Nat.le_antisymm hcontinues.bounded hall
    apply Triple.bind (at_setSession _)
    intro _
    have hpublish : Triple (At (Held sha e b (some c) (some h) s₀) { session with
          stage := .publication }) publish
        (fun _ l => Settled sha e b (some c) (some h) s₀ emitted false l ∧
          l.session.request = session.request) (Failed sha e b (some c) (some h) s₀) :=
      publish_settles _ _ hcontext hbranch hfinished
        (fun _ => ⟨hhanded.tokens, hhanded.generated, hhanded.stream⟩) (fun _ => hends)
    apply Triple.bind (hpublish.before (fun l hl => ⟨hl.1.1, hl.2⟩))
    intro output
    apply Triple.pure
    intro l hl
    rw [show emitted ++ emittedBy (.ok (.finished output)) = emitted from List.append_nil emitted]
    exact hl
  · intro hmore
    apply Triple.bind (at_aside (aside_attempt _) stable_working hfails)
    intro _
    apply Triple.bind (at_aside (aside_attempt _) stable_working hfails)
    intro _
    apply Triple.bind (activateOwned_at hbranch stable_working hfails)
    intro _
    apply Triple.bind (sampleToken_at hcontext hbranch hsampler hevaluated)
    rintro ⟨sampled, piece⟩
    apply Triple.assume
    rintro rfl
    obtain ⟨hhanded', hsampler'⟩ := handed_next hhanded (Prod.mk.eta (p := b.sample
      (stream b session.request emitted.length).2 (b.logits session.tokens)).symm)
    generalize hsample : b.sample (stream b session.request emitted.length).2
      (b.logits session.tokens) = x at hhanded' hsampler' ⊢
    obtain ⟨sampled, sampler⟩ := x
    dsimp only at hhanded' hsampler' ⊢
    have hlength : (emitted ++ [sampled]).length = session.generated + 1 := by
      rw [List.length_append, List.length_singleton, hhanded.generated]
    have hbounded : (emitted ++ [sampled]).length ≤ session.request.maxTokens := by
      rw [hlength]
      exact Nat.not_le.mp hmore
    apply Triple.ite
    · intro hlast
      apply Triple.bind (at_setSession _)
      intro _
      apply Triple.pure
      rintro ⟨s, _⟩ ⟨⟨⟨hheld, hw⟩, _⟩, rfl⟩
      refine ⟨⟨hheld, ?_, Or.inl hcontext, Or.inl hbranch⟩, rfl⟩
      refine .publication rfl rfl hfinished
        ⟨hhanded'.tokens, hhanded'.generated, hhanded'.stream⟩ ⟨hbounded, ?_, ?_⟩
      · intro x hx
        rw [emittedBy, List.dropLast_concat] at hx
        exact hcontinues.unended x hx
      · rw [Bool.or_eq_true] at hlast
        rcases hlast with heog | hmax
        · exact Or.inr ⟨sampled, List.getLast?_concat, heog⟩
        · exact Or.inl (hlength.trans (of_decide_eq_true hmax))
    · intro hlast
      refine Triple.bind (decodeSampled_at ?_ ?_ rfl hevaluated) ?_
      · exact hcontext
      · exact hbranch
      intro _
      apply Triple.pure
      rintro ⟨s, _⟩ ⟨hheld, hw, next, p, rfl⟩
      refine ⟨⟨hheld, ?_, Or.inl hcontext, Or.inl hbranch⟩, rfl⟩
      refine .decode hstage rfl hfinished hw ?_
        ⟨hhanded'.tokens, hhanded'.generated, hhanded'.stream⟩ ⟨hbounded, ?_⟩
        (congrArg some hsampler'.symm)
      · show session.evaluated + 1 = (session.tokens ++ [sampled]).length
        rw [List.length_append, List.length_singleton, hevaluated]
      · intro x hx
        rcases List.mem_append.mp hx with hold | hnew
        · exact hcontinues.unended x hold
        · rw [emittedBy, List.mem_singleton] at hnew
          subst hnew
          rw [Bool.or_eq_true, not_or] at hlast
          exact Bool.eq_false_iff.mpr hlast.1

end Decode

section Calls

theorem stepSession_settles (hs : Sound sha e b s₀)
    (ha : Attached e b s₀ session emitted stopped) :
    Triple (At (fun s => s = s₀) session) (stepSession sha e b)
      (fun step l => Settled sha e b session.logicalContext session.activeMapping s₀
        (emitted ++ emittedBy (.ok step)) stopped l ∧ l.session.request = session.request)
      (Failed sha e b session.logicalContext session.activeMapping s₀) := by
  have hheld : Held sha e b session.logicalContext session.activeMapping s₀ s₀ := Held.refl hs
  unfold stepSession
  apply at_session_bind
  intro _
  have hsilent : ∀ (step : SessionStep) (l : Locked Logits Sampler), emittedBy (.ok step) = [] ∧
      Settled sha e b session.logicalContext session.activeMapping s₀ emitted stopped l ∧
        l.session.request = session.request →
      Settled sha e b session.logicalContext session.activeMapping s₀
        (emitted ++ emittedBy (.ok step)) stopped l ∧ l.session.request = session.request := by
    intro step l ⟨hnone, hl⟩
    rw [hnone, List.append_nil]
    exact hl
  cases ha with
  | preparation hstage hstopped hfinished hemitted hfresh =>
    simp only [hstage]
    rw [hfresh.context, hfresh.branch, hstopped, hemitted] at hsilent ⊢
    exact (prepare_settles hs hfresh hfinished).after hsilent
  | prefill hstage hstopped hfinished hemitted hworking hhanded hchunked =>
    obtain ⟨c, hc, _⟩ := hworking.context
    obtain ⟨h, hh, _⟩ := hworking.branch
    simp only [hstage]
    rw [hc, hh] at hheld
    rw [hc, hh, hstopped, hemitted] at hsilent ⊢
    apply ((prefill_settles hc hh hstage hfinished (hemitted ▸ hhanded) hchunked).after
      hsilent).before
    rintro l ⟨hl, hsession⟩
    exact ⟨hl.symm ▸ ⟨hheld, hworking⟩, hsession⟩
  | decode hstage hstopped hfinished hworking hevaluated hhanded hcontinues hsampler =>
    obtain ⟨c, hc, _⟩ := hworking.context
    obtain ⟨h, hh, _⟩ := hworking.branch
    simp only [hstage]
    rw [hc, hh] at hheld ⊢
    rw [hstopped]
    apply (decode_settles hc hh hstage hfinished hevaluated hhanded hcontinues hsampler).before
    rintro l ⟨hl, hsession⟩
    exact ⟨hl.symm ▸ ⟨hheld, hworking⟩, hsession⟩
  | publication hstage hstopped hfinished hhanded hends =>
    simp only [hstage]
    apply Triple.bind ((publish_settles emitted stopped rfl rfl hfinished (fun _ => hhanded)
      (fun _ => hends)).before (fun l hl => ⟨hl.1.symm ▸ hheld, hl.2⟩))
    intro output
    exact Triple.pure (fun l hl => hsilent (.finished output) l ⟨rfl, hstopped ▸ hl⟩)
  | finished output hstage hfinished houtput hhanded hends =>
    simp only [hstage]
    apply Triple.unwrap_bind
    intro output' _
    apply Triple.pure
    rintro ⟨s, _⟩ ⟨rfl, rfl⟩
    exact hsilent (.finished output') _ ⟨rfl, ⟨hheld,
      .finished output hstage hfinished houtput hhanded hends, Or.inl rfl, Or.inl rfl⟩, rfl⟩

theorem finishSession_settles (hs : Sound sha e b s₀)
    (ha : Attached e b s₀ session emitted stopped) :
    Triple (At (fun s => s = s₀) session) finishSession
      (fun step l => Settled sha e b session.logicalContext session.activeMapping s₀
        (emitted ++ emittedBy (.ok step)) (stopped || session.finished.isNone) l ∧
          l.session.request = session.request)
      (Failed sha e b session.logicalContext session.activeMapping s₀) := by
  have hheld : Held sha e b session.logicalContext session.activeMapping s₀ s₀ := Held.refl hs
  have hunfinished : session.finished = none → (emitted ≠ [] → Handed b session emitted) →
      Triple (At (fun s => s = s₀) session) finishSession
        (fun step l => Settled sha e b session.logicalContext session.activeMapping s₀
          (emitted ++ emittedBy (.ok step)) (stopped || session.finished.isNone) l ∧
            l.session.request = session.request)
        (Failed sha e b session.logicalContext session.activeMapping s₀) := by
    intro hfinished hhanded
    unfold finishSession
    apply Triple.bind ((publish_settles emitted true rfl rfl hfinished
      (fun hkept => hhanded (hkept.resolve_left (fun hfalse => nomatch hfalse)))
      (fun hfalse => nomatch hfalse)).before (fun l hl => ⟨hl.1.symm ▸ hheld, hl.2⟩))
    intro output
    apply Triple.pure
    intro l hl
    rw [emittedBy, List.append_nil, hfinished, Option.isNone_none, Bool.or_true]
    exact hl
  cases ha with
  | preparation hstage hstopped hfinished hemitted hfresh =>
    exact hunfinished hfinished (fun hne => absurd hemitted hne)
  | prefill hstage hstopped hfinished hemitted hworking hhanded hchunked =>
    exact hunfinished hfinished (fun _ => hhanded)
  | decode hstage hstopped hfinished hworking hevaluated hhanded hcontinues hsampler =>
    exact hunfinished hfinished (fun _ => hhanded)
  | publication hstage hstopped hfinished hhanded hends =>
    exact hunfinished hfinished (fun _ => hhanded)
  | finished output hstage hfinished houtput hhanded hends =>
    have hsame : Triple (At (fun s => s = s₀) session) publish
        (fun _ => At (fun s => s = s₀) session)
        (Failed sha e b session.logicalContext session.activeMapping s₀) := by
      unfold publish
      apply at_session_bind
      intro _
      simp only [hfinished]
      exact Triple.pure (fun _ hl => hl)
    unfold finishSession
    apply Triple.bind hsame
    intro output'
    apply Triple.pure
    rintro ⟨s, _⟩ ⟨rfl, rfl⟩
    rw [emittedBy, List.append_nil, hfinished, Option.isNone_some, Bool.or_false]
    exact ⟨⟨hheld, .finished output hstage hfinished houtput hhanded hends, Or.inl rfl,
      Or.inl rfl⟩, rfl⟩

end Calls

end Cusco.SessionCalls
