import Cusco.EngineRuns

/-!
Contexts of the mapped engine and the sessions they belong to. A session creates at most one
context and nothing ever removes it, not even the drop of the session; so every context of the
store belongs to a live session exactly as long as no session is dropped that created one.
-/

namespace Cusco.ContextLifetimes

open Calls LogicalStore Physical Mapped StoreReferences StoreAccounts EngineInvariant EngineRuns
  Runs

section Contexts

variable {Logits Sampler : Type} {sha : List UInt8 → Digest} {e : MappedEngine}
  {b : Backend Logits Sampler} {w w' : World Logits Sampler}

/-- A session alive created the context. -/
def Owned (w : World Logits Sampler) (c : LogicalContextId) : Prop :=
  ∃ id live, w.sessions.lookup id = some live ∧ c ∈ live.contexts

/-- Every context belongs to a session alive, and without sessions no context is left and no
mapping is referenced by one. -/
structure ContextsOwned (w : World Logits Sampler) : Prop where
  owned : ∀ c context, w.state.logical.contexts.lookup c = some context → Owned w c
  gone : (∀ id, w.sessions.lookup id = none) →
    (∀ c, w.state.logical.contexts.lookup c = none) ∧
      ∀ m entry, w.state.logical.mappings.lookup m = some entry → entry.references.contexts = 0

/-- No session is dropped that created a context. -/
def DropsNone (w : World Logits Sampler) (a : Action) : Prop :=
  ∀ id outside live, a = .drop id outside → w.sessions.lookup id = some live → live.contexts = []

/-- The contexts that sessions created are stored, and each by one session. -/
structure Recorded (w : World Logits Sampler) : Prop where
  stored : ∀ id live c, w.sessions.lookup id = some live → c ∈ live.contexts →
    c.value < w.state.logical.nextContext ∧ w.state.logical.contexts.lookup c ≠ none
  distinct : ∀ id id' live live' c, w.sessions.lookup id = some live →
    w.sessions.lookup id' = some live' → c ∈ live.contexts → c ∈ live'.contexts → id = id'

theorem mem_createdSince {before after : ContextStore} {c : LogicalContextId} :
    c ∈ createdSince before after ↔
      before.nextContext ≤ c.value ∧ c.value < after.nextContext := by
  unfold createdSince
  rw [List.mem_map]
  constructor
  · rintro ⟨n, hn, rfl⟩
    rw [List.mem_range'_1] at hn
    show before.nextContext ≤ n ∧ n < after.nextContext
    omega
  · intro ⟨hle, hlt⟩
    refine ⟨c.value, List.mem_range'_1.mpr ?_, rfl⟩
    omega

/-- Without contexts no mapping is referenced by one. -/
theorem unreferenced_of_none {s : ContextStore} (h : Accounted s)
    (hnone : ∀ c, s.contexts.lookup c = none) {m : EvaluatedPrefixId} {entry : MappingEntry}
    (hentry : s.mappings.lookup m = some entry) : entry.references.contexts = 0 := by
  rw [h.catalogued.contexts_eq m entry hentry]
  apply (AList.total_eq_zero_iff _ s.contexts).mpr
  intro c context hc
  rw [hnone c] at hc
  cases hc

theorem owned_iff (h : WorldSound sha e b w) : ContextsOwned w ↔
    ∀ c context, w.state.logical.contexts.lookup c = some context → Owned w c := by
  refine ⟨ContextsOwned.owned, fun howned => ⟨howned, ?_⟩⟩
  intro hempty
  have hnone : ∀ c, w.state.logical.contexts.lookup c = none := by
    intro c
    cases hc : w.state.logical.contexts.lookup c with
    | none => rfl
    | some context =>
      obtain ⟨id, live, hlive, _⟩ := howned c context hc
      rw [hempty id] at hlive
      cases hlive
  exact ⟨hnone, fun m entry hentry => unreferenced_of_none h.sound.accounted hnone hentry⟩

theorem recorded_acts (hr : Recorded w) {a : Action}
    (hacts : Acts sha e b w a w') : Recorded w' := by
  cases hacts with
  | refused id request => exact hr
  | started id request session hfree hstart =>
    have hfind : ∀ k l c, (w.sessions.insert id ⟨session, false, false, [], []⟩).lookup k = some l →
        c ∈ l.contexts → w.sessions.lookup k = some l := by
      intro k l c hl hc
      rw [AList.lookup_insert_ite] at hl
      by_cases hk : k = id
      · rw [if_pos hk] at hl
        cases hl
        cases hc
      · rw [if_neg hk] at hl
        exact hl
    refine ⟨?_, ?_⟩
    · intro k l c hl hc
      exact hr.stored k l c (hfind k l c hl hc) hc
    · intro k k' l l' c hl hl' hc hc'
      exact hr.distinct k k' l l' c (hfind k l c hl hc) (hfind k' l' c hl' hc') hc hc'
  | called a id outside live live' t ha hlive hcalled hcontexts hrequest =>
    have hevolves := hcalled.held.evolves
    -- A context of the session after the call is an old one of its own, or a new one.
    have hfind : ∀ k l c, (w.sessions.insert id live').lookup k = some l → c ∈ l.contexts →
        (∃ l₀, w.sessions.lookup k = some l₀ ∧ c ∈ l₀.contexts) ∨
          k = id ∧ w.state.logical.nextContext ≤ c.value ∧ c.value < t.logical.nextContext := by
      intro k l c hl hc
      rw [AList.lookup_insert_ite] at hl
      by_cases hk : k = id
      · rw [if_pos hk] at hl
        cases hl
        rw [hcontexts, List.mem_append] at hc
        rcases hc with hold | hnew
        · exact Or.inl ⟨live, hk ▸ hlive, hold⟩
        · exact Or.inr ⟨hk, mem_createdSince.mp hnew⟩
      · rw [if_neg hk] at hl
        exact Or.inl ⟨l, hl, hc⟩
    refine ⟨?_, ?_⟩
    · intro k l c hl hc
      rcases hfind k l c hl hc with ⟨l₀, hl₀, hc₀⟩ | ⟨_, hle, hlt⟩
      · obtain ⟨hissued, hstored⟩ := hr.stored k l₀ c hl₀ hc₀
        exact ⟨hissued.trans_le hevolves.next,
          fun hnone => hstored ((hevolves.present c hissued).mp hnone)⟩
      · exact ⟨hlt, hevolves.created c hle hlt⟩
    · intro k k' l l' c hl hl' hc hc'
      rcases hfind k l c hl hc with ⟨l₀, hl₀, hc₀⟩ | ⟨rfl, hle, _⟩
      · rcases hfind k' l' c hl' hc' with ⟨l₁, hl₁, hc₁⟩ | ⟨_, hle, _⟩
        · exact hr.distinct k k' l₀ l₁ c hl₀ hl₁ hc₀ hc₁
        · exact absurd (hr.stored k l₀ c hl₀ hc₀).1 (Nat.not_lt.mpr hle)
      · rcases hfind k' l' c hl' hc' with ⟨l₁, hl₁, hc₁⟩ | ⟨rfl, _, _⟩
        · exact absurd (hr.stored k' l₁ c hl₁ hc₁).1 (Nat.not_lt.mpr hle)
        · rfl
  | dropped id outside live t hlive hheld hlogical =>
    have hfind : ∀ k l, (w.sessions.erase id).lookup k = some l →
        w.sessions.lookup k = some l := by
      intro k l hl
      rw [AList.lookup_erase_ite] at hl
      by_cases hk : k = id
      · rw [if_pos hk] at hl
        cases hl
      · rw [if_neg hk] at hl
        exact hl
    refine ⟨?_, ?_⟩
    · intro k l c hl hc
      show c.value < t.logical.nextContext ∧ t.logical.contexts.lookup c ≠ none
      rw [hlogical]
      exact hr.stored k l c (hfind k l hl) hc
    · intro k k' l l' c hl hl'
      exact hr.distinct k k' l l' c (hfind k l hl) (hfind k' l' hl')
  | spilled order outside t hheld hlogical =>
    refine ⟨?_, hr.distinct⟩
    intro k l c hl hc
    show c.value < t.logical.nextContext ∧ t.logical.contexts.lookup c ≠ none
    rw [hlogical]
    exact hr.stored k l c hl hc

/-- An action keeps the contexts owned unless it drops a session that created some. -/
theorem owned_acts (hr : Recorded w)
    (howned : ∀ c context, w.state.logical.contexts.lookup c = some context → Owned w c)
    {a : Action} (hacts : Acts sha e b w a w') :
    (∀ c context, w'.state.logical.contexts.lookup c = some context → Owned w' c) ↔
      DropsNone w a := by
  cases hacts with
  | refused id request => exact iff_of_true howned (fun _ _ _ ha _ => nomatch ha)
  | started id request session hfree hstart =>
    refine iff_of_true ?_ (fun _ _ _ ha _ => nomatch ha)
    intro c context hc
    obtain ⟨k, l, hl, hmem⟩ := howned c context hc
    refine ⟨k, l, ?_, hmem⟩
    show (w.sessions.insert id _).lookup k = some l
    rw [AList.lookup_insert_ite, if_neg, hl]
    rintro rfl
    rw [hfree] at hl
    cases hl
  | called a id outside live live' t ha hlive hcalled hcontexts hrequest =>
    have hevolves := hcalled.held.evolves
    refine iff_of_true ?_ ?_
    · intro c context hc
      have hself : (w.sessions.insert id live').lookup id = some live' := AList.lookup_insert _
      by_cases hold : c.value < w.state.logical.nextContext
      · have hpresent : w.state.logical.contexts.lookup c ≠ none :=
          fun hnone => nomatch ((hevolves.present c hold).mpr hnone).symm.trans hc
        obtain ⟨context', hc'⟩ := Option.ne_none_iff_exists'.mp hpresent
        obtain ⟨k, l, hl, hmem⟩ := howned c context' hc'
        by_cases hk : k = id
        · subst hk
          rw [hlive] at hl
          cases hl
          exact ⟨k, live', hself, hcontexts ▸ List.mem_append_left _ hmem⟩
        · exact ⟨k, l, (AList.lookup_insert_ne hk).trans hl, hmem⟩
      · have hissued := (hcalled.held.sound.accounted.numbered c context hc).2
        exact ⟨id, live', hself, hcontexts ▸ List.mem_append_right _
          (mem_createdSince.mpr ⟨Nat.not_lt.mp hold, hissued⟩)⟩
    · rintro id' outside' live'' rfl
      rcases ha with ha | ha <;> cases ha
  | dropped id outside live t hlive hheld hlogical =>
    show (∀ c context, t.logical.contexts.lookup c = some context → _) ↔ _
    rw [hlogical]
    constructor
    · rintro hafter id' outside' live'' ha hlive''
      cases ha
      rw [hlive] at hlive''
      cases hlive''
      refine List.eq_nil_iff_forall_not_mem.mpr ?_
      intro c hmem
      obtain ⟨context, hc⟩ := Option.ne_none_iff_exists'.mp (hr.stored id live c hlive hmem).2
      obtain ⟨k, l, hl, hmem'⟩ := hafter c context hc
      rw [AList.lookup_erase_ite] at hl
      by_cases hk : k = id
      · rw [if_pos hk] at hl
        cases hl
      · rw [if_neg hk] at hl
        exact hk (hr.distinct k id l live c hl hlive hmem' hmem)
    · intro hnone c context hc
      obtain ⟨k, l, hl, hmem⟩ := howned c context hc
      have hk : k ≠ id := by
        rintro rfl
        rw [hlive] at hl
        cases hl
        rw [hnone k outside live rfl hlive] at hmem
        cases hmem
      exact ⟨k, l, (AList.lookup_erase_ne hk).trans hl, hmem⟩
  | spilled order outside t hheld hlogical =>
    refine iff_of_true ?_ (fun _ _ _ ha _ => nomatch ha)
    show ∀ c context, t.logical.contexts.lookup c = some context → _
    rw [hlogical]
    exact howned

theorem recorded_opened (capacity : Capacity) (modelEpoch : ModelEpoch) :
    Recorded (World.opened capacity modelEpoch : World Logits Sampler) where
  stored := by
    intro id live c hlive
    cases (AList.lookup_empty id).symm.trans hlive
  distinct := by
    intro id id' live live' c hlive
    cases (AList.lookup_empty id).symm.trans hlive

/-- In every state of a run the contexts belong to sessions alive exactly if the run drops no
session that created one. -/
theorem contexts_owned_iff (sha : List UInt8 → Digest) (e : MappedEngine)
    (b : Backend Logits Sampler) (capacity : Capacity) (modelEpoch : ModelEpoch)
    (run : List (Action × World Logits Sampler))
    (hrun : IsRun (Step sha e b) (World.opened capacity modelEpoch) run) :
    (∀ x ∈ run, ContextsOwned x.2) ↔ Meets DropsNone (World.opened capacity modelEpoch) run := by
  refine along_iff_meets (Step sha e b) (fun w => WorldSound sha e b w ∧ Recorded w) ContextsOwned
    DropsNone ?_ ?_ _ run ⟨worldSound_opened capacity modelEpoch, recorded_opened _ _⟩ ?_ hrun
  · intro w a w' ⟨hw, hr⟩ hstep
    have hacts := acts_of_step hw hstep
    exact ⟨worldSound_acts hw hacts, recorded_acts hr hacts⟩
  · intro w a w' ⟨hw, hr⟩ howned hstep
    have hacts := acts_of_step hw hstep
    rw [owned_iff (worldSound_acts hw hacts)]
    exact owned_acts hr howned.owned hacts
  · rw [owned_iff (worldSound_opened capacity modelEpoch : WorldSound sha e b _)]
    intro c context hc
    cases (AList.lookup_empty c).symm.trans hc

end Contexts

section Runs

instance (w : World Logits Sampler) (a : Action) : Decidable (DropsNone w a) :=
  match a with
  | .drop id outside => decidable_of_iff
      (∀ live ∈ w.sessions.lookup id, live.contexts = [])
      ⟨fun h _ _ live ha hlive => h live (by cases ha; exact hlive),
        fun h live hlive => h id outside live rfl hlive⟩
  | .start .. | .step .. | .finish .. | .spill .. => isTrue (fun _ _ _ ha _ => nomatch ha)

/-- A session keeps its context owned as long as it is alive; another one is dropped before it
creates any. -/
theorem oneSession_owned : ∃ run,
    IsRun (Step Sha256.sha256 smallEngine smallBackend) smallWorld run ∧
      run.map Prod.fst = oneSession 0 ++ [.start 1 smallRequest, .drop 1 []] ∧
      (last smallWorld run).state.logical.contexts.keys = [⟨0⟩] ∧
      ∀ x ∈ run, ContextsOwned x.2 := by
  have hrun : (trace smallAct smallWorld
      (oneSession 0 ++ [.start 1 smallRequest, .drop 1 []])).any (fun run =>
        decide ((last smallWorld run).state.logical.contexts.keys = [⟨0⟩]) &&
        decide (Meets DropsNone smallWorld run)) = true := by
    decide +kernel
  obtain ⟨run, htrace, hchecked⟩ := (Option.any_eq_true _ _).mp hrun
  rw [Bool.and_eq_true, decide_eq_true_eq, decide_eq_true_eq] at hchecked
  have hsteps : IsRun (Step Sha256.sha256 smallEngine smallBackend) smallWorld run :=
    isRun_of_trace _ _ _ run htrace
  exact ⟨run, hsteps, labels_of_trace _ _ _ run htrace, hchecked.1, (contexts_owned_iff
    Sha256.sha256 smallEngine smallBackend smallCapacity ⟨7⟩ run hsteps).mpr hchecked.2⟩

/-- A session is prepared and dropped: no session is left, and its context stays. -/
theorem droppedSession_leaves : ∃ run,
    IsRun (Step Sha256.sha256 smallEngine smallBackend) smallWorld run ∧
      (last smallWorld run).sessions.keys = [] ∧ ¬ContextsOwned (last smallWorld run) := by
  have hrun : (trace smallAct smallWorld [.start 0 smallRequest, .step 0 [], .drop 0 []]).any
      (fun run => decide ((last smallWorld run).sessions.keys = [] ∧
        ((last smallWorld run).state.logical.contexts.lookup ⟨0⟩).isSome = true)) = true := by
    decide +kernel
  obtain ⟨run, htrace, hchecked⟩ := (Option.any_eq_true _ _).mp hrun
  obtain ⟨hkeys, hcontext⟩ := of_decide_eq_true hchecked
  refine ⟨run, isRun_of_trace _ _ _ run htrace, hkeys, ?_⟩
  intro howned
  obtain ⟨context, hc⟩ := Option.isSome_iff_exists.mp hcontext
  obtain ⟨id, live, hlive, _⟩ := howned.owned ⟨0⟩ context hc
  have hmem : id ∈ (last smallWorld run).sessions.keys :=
    AList.mem_keys.mpr (AList.lookup_isSome.mp (hlive ▸ rfl))
  rw [hkeys] at hmem
  cases hmem

end Runs

end Cusco.ContextLifetimes
