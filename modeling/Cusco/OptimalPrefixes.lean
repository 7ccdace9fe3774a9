import Cusco.PublicationRuns

/-!
The longest valid prefix. The lookup walks the lengths of one epoch key downwards and takes the
least identity of the first bucket that has a valid mapping. Since the index lists every stored
mapping and nothing else, and the walk over the ancestors decides whether the chain is valid,
this is the best of all stored mappings that qualify.
-/

namespace Cusco.OptimalPrefixes

open LogicalStore LogicalStore.ContextStore PrefixIndex StoreReferences StoreAccounts
  PublicationRuns Runs

/-- The parent is shorter, of the same epochs, and has the components it needs. -/
structure Links (parent child : EvaluatedPrefix) : Prop where
  shorter : parent.representedEnd < child.representedEnd
  epochs : parent.epochKey = child.epochKey
  complete : parent.completeComponents.contains parent.requiredComponents = true

/-- Every ancestor is stored and links to its child. -/
inductive Chained (s : ContextStore) : EvaluatedPrefix → Prop
  | root (m : EvaluatedPrefix) (hparent : m.parent = none) : Chained s m
  | child (m : EvaluatedPrefix) (parent : EvaluatedPrefixId) (e : MappingEntry)
      (hparent : m.parent = some parent) (hstored : s.mappings.lookup parent = some e)
      (hlinks : Links e.mapping m) (hchained : Chained s e.mapping) : Chained s m

/-- A stored mapping of the context's epochs with complete components, whose tokens are the
context's first ones and whose ancestors are all there. -/
structure Qualifies (s : ContextStore) (context : LogicalContext) (m : EvaluatedPrefix) :
    Prop where
  stored : ∃ e, s.mappings.lookup m.id = some e ∧ e.mapping = m
  epochs : m.epochKey = context.epochKey
  complete : m.completeComponents.contains m.requiredComponents = true
  inside : m.representedEnd ≤ context.tokens.length
  tokens : context.tokens.take m.representedEnd = m.sequence
  chained : Chained s m

/-- The longest mapping that qualifies, and of the longest the one of the smallest identity. -/
structure Best (s : ContextStore) (context : LogicalContext) (m : EvaluatedPrefix) : Prop where
  qualifies : Qualifies s context m
  longest : ∀ other, Qualifies s context other → other.representedEnd ≤ m.representedEnd
  least : ∀ other, Qualifies s context other → other.representedEnd = m.representedEnd →
    m.id ≤ other.id

section Validity

variable {s : ContextStore} {context : LogicalContext} {m : EvaluatedPrefix}

theorem epochKey_eq_iff (a b : EvaluatedPrefix) :
    a.epochKey = b.epochKey ↔ a.modelEpoch = b.modelEpoch ∧ a.adapterEpoch = b.adapterEpoch := by
  unfold EvaluatedPrefix.epochKey
  rw [MappingEpochKey.mk.injEq]

theorem not_chained_of_missing {parent : EvaluatedPrefixId} (hparent : m.parent = some parent)
    (hmissing : s.mappings.lookup parent = none) : ¬Chained s m := by
  intro hchained
  cases hchained with
  | root _ hroot =>
    rw [hparent] at hroot
    cases hroot
  | child _ parent' e hparent' hstored _ _ =>
    rw [hparent] at hparent'
    cases hparent'
    rw [hmissing] at hstored
    cases hstored

theorem chained_iff {parent : EvaluatedPrefixId} {e : MappingEntry}
    (hparent : m.parent = some parent) (hstored : s.mappings.lookup parent = some e) :
    Chained s m ↔ Links e.mapping m ∧ Chained s e.mapping := by
  constructor
  · intro hchained
    cases hchained with
    | root _ hroot =>
      rw [hparent] at hroot
      cases hroot
    | child _ parent' e' hparent' hstored' hlinks hrest =>
      rw [hparent] at hparent'
      cases hparent'
      rw [hstored] at hstored'
      cases hstored'
      exact ⟨hlinks, hrest⟩
  · intro ⟨hlinks, hrest⟩
    exact .child m parent e hparent hstored hlinks hrest

/-- The walk over the ancestors decides whether the chain is valid. -/
theorem ancestorsValid_iff (fuel : ℕ) (m : EvaluatedPrefix) (hfuel : m.representedEnd < fuel) :
    ancestorsValid s fuel m = true ↔ Chained s m := by
  induction fuel generalizing m with
  | zero => omega
  | succ fuel ih =>
    unfold ancestorsValid
    cases hparent : m.parent with
    | none => exact iff_of_true rfl (.root m hparent)
    | some parent =>
      cases hstored : s.mappings.lookup parent with
      | none =>
        simp only [hstored]
        exact iff_of_false (by simp) (not_chained_of_missing hparent hstored)
      | some e =>
        simp only [hstored]
        rw [chained_iff hparent hstored]
        by_cases hlinks : Links e.mapping m
        · obtain ⟨hshorter, hepochs, hcomplete⟩ := hlinks
          obtain ⟨hmodel, hadapter⟩ := (epochKey_eq_iff e.mapping m).mp hepochs
          rw [if_neg (by simp [hmodel, hadapter, hcomplete, hshorter]), ih e.mapping (by omega)]
          exact ⟨fun hrest => ⟨⟨hshorter, hepochs, hcomplete⟩, hrest⟩, fun hboth => hboth.2⟩
        · rw [if_pos]
          · exact iff_of_false (by simp) (fun hboth => hlinks hboth.1)
          · by_contra hcond
            simp only [not_or, Bool.not_eq_false, ne_eq, not_not] at hcond
            obtain ⟨hshorter, hmodel, hadapter, hcomplete⟩ := hcond
            exact hlinks ⟨by omega, (epochKey_eq_iff _ _).mpr ⟨hmodel, hadapter⟩, hcomplete⟩

/-- What the validity check asks of a mapping. -/
theorem mappingValidForContext_iff : s.mappingValidForContext m context none = true ↔
    m.epochKey = context.epochKey ∧
      m.completeComponents.contains m.requiredComponents = true ∧
      m.representedEnd ≤ context.tokens.length ∧
      context.tokens.take m.representedEnd = m.sequence ∧ Chained s m := by
  have hkeys : m.epochKey = context.epochKey ↔
      m.modelEpoch = context.modelEpoch ∧ m.adapterEpoch = context.adapterEpoch := by
    unfold EvaluatedPrefix.epochKey LogicalContext.epochKey
    rw [MappingEpochKey.mk.injEq]
  unfold mappingValidForContext prefixOf
  rw [← ancestorsValid_iff (m.representedEnd + 1) m (Nat.lt_succ_self _), hkeys]
  by_cases hinside : m.representedEnd ≤ context.tokens.length
  · rw [if_neg (Nat.not_lt.mpr hinside)]
    simp only [Option.any_none, Option.some.injEq, ne_eq]
    split
    · rename_i hcond
      refine iff_of_false (by simp) ?_
      intro ⟨⟨hmodel, hadapter⟩, hcomplete, _, htokens, _⟩
      simp [hmodel, hadapter, hcomplete, htokens] at hcond
      omega
    · rename_i hcond
      simp only [not_or, not_not, Bool.not_eq_false] at hcond
      simp [hcond, hinside]
  · simp [hinside]

end Validity

section Choices

/-- The first of the mappings with the least identity is none only if there are none. -/
theorem minById_none {l : List EvaluatedPrefix} : minById l = none ↔ l = [] := by
  cases l with
  | nil => exact iff_of_true rfl rfl
  | cons m rest =>
    refine iff_of_false ?_ (List.cons_ne_nil m rest)
    unfold minById
    cases minById rest with
    | none => exact Option.some_ne_none m
    | some best =>
      by_cases hlt : best.id < m.id
      · simp [hlt]
      · simp [hlt]

theorem minById_some {l : List EvaluatedPrefix} {m : EvaluatedPrefix} (h : minById l = some m) :
    m ∈ l ∧ ∀ other ∈ l, m.id ≤ other.id := by
  induction l generalizing m with
  | nil => cases h
  | cons first rest ih =>
    unfold minById at h
    cases hrest : minById rest with
    | none =>
      rw [hrest] at h
      cases h
      rw [minById_none.mp hrest]
      refine ⟨List.mem_cons_self .., ?_⟩
      intro other hother
      rw [List.mem_singleton.mp hother]
      exact Vector.le_refl _
    | some best =>
      obtain ⟨hbest, hleast⟩ := ih hrest
      rw [hrest] at h
      simp only at h
      by_cases hlt : best.id < first.id
      · rw [if_pos hlt] at h
        cases h
        refine ⟨List.mem_cons_of_mem _ hbest, ?_⟩
        intro other hother
        rcases List.mem_cons.mp hother with rfl | hother
        · exact Vector.le_of_lt hlt
        · exact hleast other hother
      · rw [if_neg hlt] at h
        cases h
        refine ⟨List.mem_cons_self .., ?_⟩
        intro other hother
        rcases List.mem_cons.mp hother with rfl | hother
        · exact Vector.le_refl _
        · exact Vector.le_trans (Vector.not_lt.mp hlt) (hleast other hother)

/-- Down a decreasing list, the first value found is that of the largest number that has one. -/
theorem findSome?_decreasing {β : Type} {l : List ℕ} {f : ℕ → Option β} {b : β}
    (hsorted : l.Pairwise (fun a b => b ≤ a)) (h : l.findSome? f = some b) :
    ∃ n ∈ l, f n = some b ∧ ∀ k ∈ l, f k ≠ none → k ≤ n := by
  induction l with
  | nil => cases h
  | cons first rest ih =>
    obtain ⟨hfirst, hrest⟩ := List.pairwise_cons.mp hsorted
    rw [List.findSome?_cons] at h
    cases hf : f first with
    | some found =>
      rw [hf] at h
      cases h
      refine ⟨first, List.mem_cons_self .., hf, ?_⟩
      intro k hk _
      rcases List.mem_cons.mp hk with rfl | hk
      · exact le_rfl
      · exact hfirst k hk
    | none =>
      rw [hf] at h
      obtain ⟨n, hn, hfound, hlargest⟩ := ih hrest h
      refine ⟨n, List.mem_cons_of_mem _ hn, hfound, ?_⟩
      intro k hk hvalue
      rcases List.mem_cons.mp hk with rfl | hk
      · exact absurd hf hvalue
      · exact hlargest k hk hvalue

end Choices

section Lookup

variable {s : ContextStore} {bound : EvaluatedPrefixId → ℕ} {context : LogicalContext}
  {lengths : Table ℕ (List EvaluatedPrefixId)}

/-- The valid mappings of a bucket are those of its length that qualify. -/
theorem mem_valid_iff (h : Catalogued s bound none)
    (hlengths : s.prefixIndex.lookup context.epochKey = some lengths) {n : ℕ}
    {ids : List EvaluatedPrefixId} (hids : lengths.lookup n = some ids) (m : EvaluatedPrefix) :
    m ∈ ((ids.filterMap s.mappings.lookup).map MappingEntry.mapping).filter
        (fun m => s.mappingValidForContext m context none) ↔
      Qualifies s context m ∧ m.representedEnd = n := by
  have hbucket : bucket s.prefixIndex context.epochKey n = ids := by
    unfold bucket
    rw [hlengths, Option.bind_some, hids, Option.getD_some]
  rw [List.mem_filter, mappingValidForContext_iff, List.mem_map]
  constructor
  · intro ⟨⟨e, he, hm⟩, hepochs, hcomplete, hinside, htokens, hchained⟩
    obtain ⟨id, hid, hstored⟩ := List.mem_filterMap.mp he
    rw [← hbucket] at hid
    obtain ⟨e', hstored', _, hend⟩ := (h.listed _ _ _).mp hid
    rw [hstored] at hstored'
    cases hstored'
    have hkeyed := h.keyed id e hstored
    rw [hm] at hkeyed hend
    exact ⟨⟨⟨e, hkeyed ▸ hstored, hm⟩, hepochs, hcomplete, hinside, htokens, hchained⟩, hend⟩
  · intro ⟨hqualifies, hend⟩
    obtain ⟨e, hstored, hm⟩ := hqualifies.stored
    refine ⟨⟨e, List.mem_filterMap.mpr ⟨m.id, ?_, hstored⟩, hm⟩, hqualifies.epochs,
      hqualifies.complete, hqualifies.inside, hqualifies.tokens, hqualifies.chained⟩
    rw [← hbucket]
    exact (h.listed _ _ _).mpr ⟨e, hstored, hm ▸ hqualifies.epochs, hm ▸ hend⟩

/-- A mapping that qualifies has its bucket in the index. -/
theorem bucket_of_qualifies (h : Catalogued s bound none) {m : EvaluatedPrefix}
    (hm : Qualifies s context m) : ∃ lengths ids,
      s.prefixIndex.lookup context.epochKey = some lengths ∧
        lengths.lookup m.representedEnd = some ids := by
  obtain ⟨e, hstored, rfl⟩ := hm.stored
  have hlisted := (h.listed context.epochKey _ _).mpr ⟨e, hstored, hm.epochs, rfl⟩
  obtain ⟨lengths, ids, hlengths, hids, _⟩ := lookup_of_mem_bucket _ _ _ _ hlisted
  exact ⟨lengths, ids, hlengths, hids⟩

theorem mem_lengthsDown (lengths : Table ℕ (List EvaluatedPrefixId)) (n k : ℕ) :
    k ∈ lengthsDown lengths n ↔ (∃ ids, lengths.lookup k = some ids) ∧ k ≤ n := by
  unfold lengthsDown
  rw [List.mem_mergeSort, List.mem_filter, decide_eq_true_eq, ← AList.mem_keys,
    ← AList.lookup_isSome, Option.isSome_iff_exists]

theorem lengthsDown_decreasing (lengths : Table ℕ (List EvaluatedPrefixId)) (n : ℕ) :
    (lengthsDown lengths n).Pairwise (fun a b => b ≤ a) := by
  have htrans : ∀ a b c : ℕ, decide (b ≤ a) = true → decide (c ≤ b) = true →
      decide (c ≤ a) = true := by
    intro a b c hab hbc
    rw [decide_eq_true_eq] at *
    omega
  have htotal : ∀ a b : ℕ, (decide (b ≤ a) || decide (a ≤ b)) = true := by
    intro a b
    rw [Bool.or_eq_true, decide_eq_true_eq, decide_eq_true_eq]
    omega
  have hsorted := List.pairwise_mergeSort htrans htotal (lengths.keys.filter (fun k => k ≤ n))
  exact hsorted.imp (fun hle => of_decide_eq_true hle)

/-- A bucket without a valid mapping holds none that qualifies, and otherwise the least
identity of those is taken. -/
theorem validMappingFromIds_none (h : Catalogued s bound none)
    (hlengths : s.prefixIndex.lookup context.epochKey = some lengths) {n : ℕ}
    {ids : List EvaluatedPrefixId} (hids : lengths.lookup n = some ids)
    (hnone : s.validMappingFromIds context ids = none) (m : EvaluatedPrefix)
    (hm : Qualifies s context m) : m.representedEnd ≠ n := by
  intro hend
  have hmem := (mem_valid_iff h hlengths hids m).mpr ⟨hm, hend⟩
  rw [minById_none.mp hnone] at hmem
  cases hmem

theorem validMappingFromIds_some (h : Catalogued s bound none)
    (hlengths : s.prefixIndex.lookup context.epochKey = some lengths) {n : ℕ}
    {ids : List EvaluatedPrefixId} (hids : lengths.lookup n = some ids) {m : EvaluatedPrefix}
    (hsome : s.validMappingFromIds context ids = some m) :
    Qualifies s context m ∧ m.representedEnd = n ∧
      ∀ other, Qualifies s context other → other.representedEnd = n → m.id ≤ other.id := by
  obtain ⟨hmem, hleast⟩ := minById_some hsome
  obtain ⟨hqualifies, hend⟩ := (mem_valid_iff h hlengths hids m).mp hmem
  refine ⟨hqualifies, hend, ?_⟩
  intro other hother hsame
  exact hleast other ((mem_valid_iff h hlengths hids other).mpr ⟨hother, hsame⟩)

theorem best_unique {m m' : EvaluatedPrefix} (h : Best s context m) (h' : Best s context m') :
    m = m' := by
  have hend := le_antisymm (h'.longest m h.qualifies) (h.longest m' h'.qualifies)
  have hid : m.id = m'.id :=
    Vector.le_antisymm (h.least m' h'.qualifies hend.symm) (h'.least m h.qualifies hend)
  obtain ⟨e, hstored, rfl⟩ := h.qualifies.stored
  obtain ⟨e', hstored', rfl⟩ := h'.qualifies.stored
  rw [hid, hstored'] at hstored
  cases hstored
  rfl

/-- What the lookup answers is the best of all stored mappings. -/
theorem longestValidPrefix_best (h : Catalogued s bound none) (id : LogicalContextId)
    (hcontext : s.contexts.lookup id = some context) : ∃ answer,
      s.longestValidPrefix id = .ok answer ∧ (∀ m, answer = some m → Best s context m) ∧
        (answer = none → ∀ m, ¬Qualifies s context m) := by
  unfold longestValidPrefix
  simp only [hcontext]
  cases hlengths : s.prefixIndex.lookup context.epochKey with
  | none =>
    refine ⟨none, rfl, fun m hm => (nomatch hm), ?_⟩
    intro _ m hm
    obtain ⟨lengths, _, hlookup, _⟩ := bucket_of_qualifies h hm
    rw [hlengths] at hlookup
    cases hlookup
  | some lengths =>
    have hlisted : ∀ m, Qualifies s context m → ∃ ids, lengths.lookup m.representedEnd = some ids ∧
        m.representedEnd ∈ lengthsDown lengths context.tokens.length := by
      intro m hm
      obtain ⟨lengths', ids, hlookup, hids⟩ := bucket_of_qualifies h hm
      rw [hlengths] at hlookup
      cases hlookup
      exact ⟨ids, hids, (mem_lengthsDown _ _ _).mpr ⟨⟨ids, hids⟩, hm.inside⟩⟩
    simp only
    refine ⟨_, rfl, ?_, ?_⟩
    · intro m hm
      obtain ⟨n, hn, hfound, hlargest⟩ :=
        findSome?_decreasing (lengthsDown_decreasing lengths _) hm
      obtain ⟨ids, hids, hsome⟩ := Option.bind_eq_some_iff.mp hfound
      obtain ⟨hqualifies, rfl, hleast⟩ := validMappingFromIds_some h hlengths hids hsome
      refine ⟨hqualifies, ?_, hleast⟩
      intro other hother
      obtain ⟨ids', hids', hmem⟩ := hlisted other hother
      apply hlargest _ hmem
      intro hnone
      rw [hids', Option.bind_some] at hnone
      exact validMappingFromIds_none h hlengths hids' hnone other hother rfl
    · intro hnone m hm
      obtain ⟨ids, hids, hmem⟩ := hlisted m hm
      have hempty := List.findSome?_eq_none_iff.mp hnone _ hmem
      rw [hids, Option.bind_some] at hempty
      exact validMappingFromIds_none h hlengths hids hempty m hm rfl

end Lookup

/-- In every store that calls lead to, the lookup finds the best of all mappings that qualify
for a context, and nothing exactly if none does. -/
theorem longest_is_optimal (sha : List UInt8 → Digest) (w : World)
    (hreach : Reaches (World.Step sha) World.empty w) (id : LogicalContextId)
    (context : LogicalContext) (hcontext : w.store.contexts.lookup id = some context) :
    (∀ m, w.store.longestValidPrefix id = .ok (some m) ↔ Best w.store context m) ∧
      (w.store.longestValidPrefix id = .ok none ↔ ∀ m, ¬Qualifies w.store context m) := by
  have h := (accounted_of_reaches sha w hreach).catalogued
  obtain ⟨answer, hanswer, hbest, hnone⟩ := longestValidPrefix_best h id hcontext
  rw [hanswer]
  refine ⟨?_, ?_⟩
  · intro m
    constructor
    · intro hsame
      cases hsame
      exact hbest m rfl
    · intro hm
      cases answer with
      | none => exact absurd hm.qualifies (hnone rfl m)
      | some m' => rw [best_unique (hbest m' rfl) hm]
  · constructor
    · intro hsame
      cases hsame
      exact hnone rfl
    · intro hall
      cases answer with
      | none => rfl
      | some m' => exact absurd (hbest m' rfl).qualifies (hall m')

/-- After two publications the lookup for the context finds one of the two mappings. -/
theorem longerPublished_optimal : ∃ run,
    IsRun (World.Step Sha256.sha256) World.empty run ∧
      ∃ context m, (last World.empty run).store.contexts.lookup ⟨0⟩ = some context ∧
        (last World.empty run).store.longestValidPrefix ⟨0⟩ = .ok (some m) ∧
        Best (last World.empty run).store context m := by
  have hrun : (trace (World.call Sha256.sha256) World.empty longerPublished).any (fun run =>
      ((last World.empty run).store.contexts.lookup ⟨0⟩).any (fun context =>
        ((last World.empty run).store.mappings.lookup (publishedBy longerPublished)).any
          (fun e => decide (e.mapping.id = publishedBy longerPublished) &&
            (last World.empty run).store.mappingValidForContext e.mapping context none))) =
        true := by
    decide +kernel
  obtain ⟨run, htrace, hchecks⟩ := (Option.any_eq_true _ _).mp hrun
  obtain ⟨context, hcontext, hchecks⟩ := (Option.any_eq_true _ _).mp hchecks
  obtain ⟨e, hstored, hchecks⟩ := (Option.any_eq_true _ _).mp hchecks
  rw [Bool.and_eq_true, decide_eq_true_eq, mappingValidForContext_iff] at hchecks
  obtain ⟨hid, hepochs, hcomplete, hinside, htokens, hchained⟩ := hchecks
  have hqualifies : Qualifies (last World.empty run).store context e.mapping :=
    ⟨⟨e, hid ▸ hstored, rfl⟩, hepochs, hcomplete, hinside, htokens, hchained⟩
  have hsteps := isRun_of_trace _ _ _ run htrace
  have hreach : Reaches (World.Step Sha256.sha256) World.empty (last World.empty run) :=
    ⟨run, hsteps, rfl⟩
  obtain ⟨hbest, hnone⟩ := longest_is_optimal Sha256.sha256 _ hreach ⟨0⟩ context hcontext
  obtain ⟨answer, hanswer, -⟩ := longestValidPrefix_best
    (accounted_of_reaches Sha256.sha256 _ hreach).catalogued ⟨0⟩ hcontext
  cases answer with
  | none => exact absurd hqualifies (hnone.mp hanswer e.mapping)
  | some m => exact ⟨run, hsteps, context, m, hcontext, hanswer, (hbest m).mp hanswer⟩

end Cusco.OptimalPrefixes
