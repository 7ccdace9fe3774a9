import Cusco.PublicationRuns

/-!
What one call of the context store can do, said once. A call leaves every context
as it was except the one it names, whose change is one of five; every mapping
stored afterwards was stored before with the same content, unless it is the one
a commit published. Only a preparation adds to the publications outstanding.
-/

namespace Cusco.StoreEffects

open Calls LogicalStore LogicalStore.ContextStore PrefixIndex StoreReferences Reclamation
open PublicationSteps StoreAccounts PublicationCommit PublicationRuns

/-- The publication can be bound to the context: epochs and tokens agree with it. -/
structure Binds (p : PreparedPublication) (context : LogicalContext) : Prop where
  current : context.evaluated = p.expectedCurrent
  revision : context.revision = p.expectedRevision
  epochs : context.epochKey = p.mapping.epochKey
  fits : p.mapping.representedEnd ≤ context.tokens.length
  sequence : context.tokens.take p.mapping.representedEnd = p.mapping.sequence

/-- The change of one context in a store whose next identity is `next`. -/
inductive ContextChange (fresh : Option PreparedPublication) (next : ℕ) (c : LogicalContextId) :
    Option LogicalContext → Option LogicalContext → Prop
  | same (o : Option LogicalContext) : ContextChange fresh next c o o
  | created (context : LogicalContext) (hid : next ≤ c.value)
    (hunbound : context.evaluated = none) :
      ContextChange fresh next c none (some context)
  | removed (context : LogicalContext) : ContextChange fresh next c (some context) none
  | appended (context : LogicalContext) (tokens : List Token) :
      ContextChange fresh next c (some context) (some { context with
        tokens := context.tokens ++ tokens
        revision := context.revision + 1 })
  | rebased (context : LogicalContext) (modelEpoch : ModelEpoch) (adapterEpoch : AdapterEpoch) :
      ContextChange fresh next c (some context) (some { context with
        evaluated := none
        modelEpoch := modelEpoch
        adapterEpoch := adapterEpoch
        revision := context.revision + 1 })
  | bound (context : LogicalContext) (p : PreparedPublication) (hfresh : fresh = some p)
      (hbinds : Binds p context) :
      ContextChange fresh next c (some context) (some (movedTo context p.mapping.id))

/-- The effect of one call, where `fresh` is the publication it commits. -/
structure Effect (s : ContextStore) (fresh : Option PreparedPublication) (s' : ContextStore) :
    Prop where
  next : s.nextContext ≤ s'.nextContext
  contexts : ∀ c, ContextChange fresh s.nextContext c (s.contexts.lookup c) (s'.contexts.lookup c)
  mappings : ∀ m e', s'.mappings.lookup m = some e' →
    (∃ e, s.mappings.lookup m = some e ∧ e'.mapping = e.mapping) ∨
      ∃ p, fresh = some p ∧ s.mappings.lookup m = none ∧ p.mapping.id = m ∧ e'.mapping = p.mapping
  agrees : ∀ p e, fresh = some p → s.mappings.lookup p.mapping.id = some e →
    e.mapping = p.mapping

/-- Calls that store nothing new: contexts change as said and mappings only go. -/
theorem effect_of_kept (s s' : ContextStore) (hnext : s.nextContext ≤ s'.nextContext)
    (hcontexts : ∀ c, ContextChange none s.nextContext c (s.contexts.lookup c)
      (s'.contexts.lookup c))
    (hkept : ∀ m e', s'.mappings.lookup m = some e' → ∃ e, s.mappings.lookup m = some e ∧
      e'.mapping = e.mapping) : Effect s none s' where
  next := hnext
  contexts := hcontexts
  mappings := fun m e' he' => Or.inl (hkept m e' he')
  agrees := fun _ _ h => nomatch h

theorem Effect.refl (s : ContextStore) : Effect s none s :=
  effect_of_kept s s le_rfl (fun _ => ContextChange.same _) (fun _ e h => ⟨e, h, rfl⟩)

/-- Writing one context and then shrinking the mappings. -/
theorem effect_of_shrunk (s s' : ContextStore) (contexts : Contexts)
    (hshrunk : Shrunk { s with contexts := contexts } s')
    (hcontexts : ∀ c, ContextChange none s.nextContext c (s.contexts.lookup c)
      (contexts.lookup c)) : Effect s none s' := by
  refine effect_of_kept s s' (Nat.le_of_eq hshrunk.nextContext.symm) ?_ hshrunk.kept
  rw [hshrunk.contexts]
  exact hcontexts

theorem change_insert (fresh : Option PreparedPublication) (next : ℕ) (contexts : Contexts)
    (id : LogicalContextId) (context' : LogicalContext)
    (hchange : ContextChange fresh next id (contexts.lookup id) (some context'))
    (c : LogicalContextId) :
    ContextChange fresh next c (contexts.lookup c) ((contexts.insert id context').lookup c) := by
  rw [AList.lookup_insert_ite]
  by_cases hc : c = id
  · subst hc
    rw [if_pos rfl]
    exact hchange
  · rw [if_neg hc]
    exact ContextChange.same _

theorem effect_create (s s' : ContextStore) (h : Accounted s) (tokens : PersistentTokenSequence)
    (modelEpoch : ModelEpoch) (adapterEpoch : AdapterEpoch) (r : Except Error LogicalContextId)
    (hcall : s.create tokens modelEpoch adapterEpoch = .returns r s') : Effect s none s' := by
  unfold create at hcall
  split at hcall
  · cases hcall
  · cases hcall
    have hfresh : s.contexts.lookup ⟨s.nextContext⟩ = none := by
      by_contra hne
      obtain ⟨context, hc⟩ := Option.ne_none_iff_exists'.mp hne
      exact absurd (h.numbered _ context hc).2 (lt_irrefl _)
    refine effect_of_kept s _ (Nat.le_succ _) ?_ (fun _ e he => ⟨e, he, rfl⟩)
    apply change_insert
    rw [hfresh]
    exact ContextChange.created _ le_rfl rfl

theorem effect_branch (s s' : ContextStore) (h : Accounted s) (source : LogicalContextId)
    (at' : ℕ) (r : Except Error LogicalContextId)
    (hcall : s.branch source at' = .returns r s') : Effect s none s' := by
  unfold branch at hcall
  split at hcall
  · cases hcall
    exact Effect.refl s
  · split at hcall
    · cases hcall
      exact Effect.refl s
    · exact effect_create s s' h _ _ _ r hcall

theorem effect_append (s s' : ContextStore) (id : LogicalContextId) (tokens : List Token)
    (r : Except Error Unit) (hcall : s.append id tokens = .returns r s') : Effect s none s' := by
  unfold append at hcall
  split at hcall
  · cases hcall
    exact Effect.refl s
  · rename_i context hid
    split at hcall
    · cases hcall
      exact Effect.refl s
    · split at hcall
      · cases hcall
      · cases hcall
        refine effect_of_kept s _ le_rfl ?_ (fun _ e he => ⟨e, he, rfl⟩)
        apply change_insert
        rw [hid]
        exact ContextChange.appended context tokens

theorem effect_removeContext (s s' : ContextStore) (id : LogicalContextId)
    (r : Except Error Unit) (hcall : s.removeContext id = .returns r s') : Effect s none s' := by
  unfold removeContext at hcall
  cases hid : s.contexts.lookup id with
  | none =>
    simp only [hid] at hcall
    cases hcall
    exact Effect.refl s
  | some context =>
    simp only [hid] at hcall
    have hcontexts : ∀ c, ContextChange none s.nextContext c (s.contexts.lookup c)
        ((s.contexts.erase id).lookup c) := by
      intro c
      rw [AList.lookup_erase_ite]
      by_cases hc : c = id
      · rw [if_pos hc, hc, hid]
        exact ContextChange.removed context
      · rw [if_neg hc]
        exact ContextChange.same _
    cases hevaluated : context.evaluated with
    | none =>
      simp only [hevaluated] at hcall
      cases hcall
      exact effect_of_shrunk s _ _ (Shrunk.refl _) hcontexts
    | some old =>
      simp only [hevaluated] at hcall
      cases hcall
      exact effect_of_shrunk s _ _ (shrunk_adjustContextRefs _ old false) hcontexts

theorem effect_setEpochs (s s' : ContextStore) (id : LogicalContextId)
    (modelEpoch : ModelEpoch) (adapterEpoch : AdapterEpoch) (r : Except Error Unit)
    (hcall : s.setEpochs id modelEpoch adapterEpoch = .returns r s') : Effect s none s' := by
  unfold setEpochs at hcall
  cases hid : s.contexts.lookup id with
  | none =>
    simp only [hid] at hcall
    cases hcall
    exact Effect.refl s
  | some context =>
    simp only [hid] at hcall
    split at hcall
    · cases hcall
      exact Effect.refl s
    · split at hcall
      · cases hcall
      · have hcontexts := change_insert none s.nextContext s.contexts id _
          (hid ▸ ContextChange.rebased context modelEpoch adapterEpoch)
        cases hevaluated : context.evaluated with
        | none =>
          simp only [hevaluated] at hcall
          cases hcall
          exact effect_of_shrunk s _ _ (Shrunk.refl _) hcontexts
        | some old =>
          simp only [hevaluated] at hcall
          cases hcall
          exact effect_of_shrunk s _ _ (shrunk_adjustContextRefs _ old false) hcontexts

theorem effect_releaseMapping (s s' : ContextStore) (id : EvaluatedPrefixId)
    (r : Except Error Unit) (hcall : s.releaseMapping id = .returns r s') :
    Effect s none s' := by
  unfold releaseMapping at hcall
  cases hid : s.mappings.lookup id with
  | none =>
    simp only [hid] at hcall
    cases hcall
    exact Effect.refl s
  | some e =>
    simp only [hid] at hcall
    cases hcall
    have hshrunk := (shrunk_setEntry s id e { e with references := e.references.dropCatalog }
      hid rfl).trans (shrunk_reclaim _ id)
    exact effect_of_shrunk s _ s.contexts hshrunk (fun _ => ContextChange.same _)

theorem binds_of_validated (s : ContextStore) (p : PreparedPublication) (context : LogicalContext)
    (hc : s.contexts.lookup p.context = some context) (hv : s.validatePublication p = .ok ()) :
    Binds p context := by
  unfold validatePublication at hv
  simp only [hc] at hv
  split at hv
  · cases hv
  · rename_i hcurrent
    push Not at hcurrent
    split at hv
    · cases hv
    · rename_i hepochs
      push Not at hepochs
      split at hv
      · cases hv
      · rename_i hstarts
        rw [not_not] at hstarts
        unfold prefixOf at hstarts
        split at hstarts
        · cases hstarts
        · rename_i hfits
          exact ⟨hcurrent.1, hcurrent.2, congrArg₂ MappingEpochKey.mk hepochs.1 hepochs.2,
            Nat.le_of_not_lt hfits, Option.some.inj hstarts⟩

/-- Storing leaves every other mapping with its content. -/
theorem stored_content (s stored : ContextStore) (p : PreparedPublication)
    (hv : s.validatePublication p = .ok ())
    (hstored : (if s.mappings.lookup p.mapping.id = none then s.storeMapping p.mapping
      else .ok s) = .ok stored) (m : EvaluatedPrefixId) (e' : MappingEntry)
    (he' : stored.mappings.lookup m = some e') :
    (∃ e, s.mappings.lookup m = some e ∧ e'.mapping = e.mapping) ∨
      (s.mappings.lookup m = none ∧ p.mapping.id = m ∧ e'.mapping = p.mapping) := by
  obtain ⟨_, hsame, hparent⟩ := validatePublication_ok s p hv
  by_cases hnew : s.mappings.lookup p.mapping.id = none
  · rw [if_pos hnew, storeMapping_eq s p.mapping (hparent hnew)] at hstored
    cases hstored
    by_cases hm : m = p.mapping.id
    · subst hm
      rw [lookup_withMapping_id] at he'
      cases he'
      exact Or.inr ⟨hnew, rfl, rfl⟩
    · obtain ⟨e, he, heq, _⟩ := content_of_withMapping s p.mapping m e' hm he'
      exact Or.inl ⟨e, he, heq.symm⟩
  · rw [if_neg hnew] at hstored
    cases hstored
    exact Or.inl ⟨e', he', rfl⟩

/-- What binding does when it returns: the binding stays, or it moves. -/
theorem bindPublished_returns (s s' : ContextStore) (c : LogicalContextId)
    (context : LogicalContext) (hc : s.contexts.lookup c = some context) (id : EvaluatedPrefixId)
    (r : Except Error EvaluatedPrefix)
    (hbind : s.bindPublished c context.evaluated id = .returns r s') :
    s' = s ∨ ∃ t, Shrunk s t ∧
      s' = { t with contexts := s.contexts.insert c (movedTo context id) } := by
  have hpublished : ∀ t t' : ContextStore, t.publishedMapping id = .returns r t' → t' = t := by
    intro t t' ht
    unfold publishedMapping at ht
    split at ht
    · cases ht
    · cases ht
      rfl
  unfold bindPublished at hbind
  split at hbind
  · exact Or.inl (hpublished s s' hbind)
  · rw [rebind_eq s c context hc id] at hbind
    by_cases hrevision : context.revision = u64Max
    · rw [if_pos hrevision] at hbind
      cases hbind
    · rw [if_neg hrevision] at hbind
      exact Or.inr ⟨_, (shrunk_giveUp s context.evaluated).trans
        (shrunk_adjustContextRefs _ id true), hpublished _ s' hbind⟩

theorem effect_commitPublication (s s' : ContextStore) (h : Accounted s)
    (p : PreparedPublication) (r : Except Error EvaluatedPrefix)
    (hcall : s.commitPublication p = .returns r s') :
    Effect s none s' ∨ Effect s (some p) s' := by
  cases hv : s.validatePublication p with
  | error e =>
    rw [commitPublication_error s p e hv] at hcall
    cases hcall
    exact Or.inl (Effect.refl s)
  | ok _ =>
    right
    obtain ⟨⟨context, hc⟩, hsame, -⟩ := validatePublication_ok s p hv
    obtain ⟨stored, hstored, -, hcontexts, hnext, -⟩ := stored_of_validated s p h hv
    have hbinds := binds_of_validated s p context hc hv
    have hagrees : ∀ q e, some p = some q → s.mappings.lookup q.mapping.id = some e →
        e.mapping = q.mapping := by
      intro q e hq
      cases hq
      exact hsame e
    have hmappings : ∀ m e', stored.mappings.lookup m = some e' →
        (∃ e, s.mappings.lookup m = some e ∧ e'.mapping = e.mapping) ∨
          ∃ q, some p = some q ∧ s.mappings.lookup m = none ∧ q.mapping.id = m ∧
            e'.mapping = q.mapping := by
      intro m e' he'
      apply (stored_content s stored p hv hstored m e' he').imp id
      intro hnew
      exact ⟨p, rfl, hnew⟩
    unfold commitPublication at hcall
    simp only [hv, hc, hstored] at hcall
    rcases bindPublished_returns stored s' p.context context (by rw [hcontexts, hc]) p.mapping.id
      r hcall with hstay | ⟨t, hshrunk, hmoved⟩
    · subst hstay
      refine ⟨Nat.le_of_eq hnext.symm, ?_, hmappings, hagrees⟩
      intro c
      rw [hcontexts]
      exact ContextChange.same _
    · subst hmoved
      refine ⟨Nat.le_of_eq (hshrunk.nextContext.trans hnext).symm, ?_, ?_, hagrees⟩
      · rw [hcontexts]
        apply change_insert
        rw [hc]
        exact ContextChange.bound context p rfl hbinds
      · intro m e' he'
        obtain ⟨d, hd, hde⟩ := hshrunk.kept m e' he'
        rcases hmappings m d hd with ⟨e, he, heq⟩ | ⟨q, hq, hnone, hid, heq⟩
        · exact Or.inl ⟨e, he, hde.trans heq⟩
        · exact Or.inr ⟨q, hq, hnone, hid, hde.trans heq⟩

/-- The publication a call prepares. -/
def preparedBy (sha : List UInt8 → Digest) (w : World) : Call → Option PreparedPublication
  | .preparePublication context representedEnd parent required complete parameters =>
    match w.store.preparePublication sha context representedEnd parent required complete
        parameters with
    | .ok p => some p
    | .error _ => none
  | _ => none

/-- Every call has one of the effects above, with a publication prepared earlier if
any; what it leaves prepared was prepared before or by it. -/
theorem effect_call (sha : List UInt8 → Digest) (w : World) (c : Call) (w' : World)
    (h : Accounted w.store) (hcall : World.Step sha w c w') :
    (∃ fresh, Effect w.store fresh w'.store ∧ ∀ p, fresh = some p → p ∈ w.prepared) ∧
      ∀ p, p ∈ w'.prepared → p ∈ w.prepared ∨ preparedBy sha w c = some p := by
  have hplain : ∀ {α : Type} (o : Outcome ContextStore Error α),
      World.settle w.prepared o = some w' →
      (∀ r, o = .returns r w'.store → Effect w.store none w'.store) →
      (∃ fresh, Effect w.store fresh w'.store ∧ ∀ p, fresh = some p → p ∈ w.prepared) ∧
        ∀ p, p ∈ w'.prepared → p ∈ w.prepared ∨ preparedBy sha w c = some p := by
    intro α o ho heffect
    cases o with
    | panics => cases ho
    | returns r store =>
      cases ho
      exact ⟨⟨none, heffect r rfl, fun _ h => nomatch h⟩, fun p hp => Or.inl hp⟩
  cases c with
  | create tokens modelEpoch adapterEpoch =>
    exact hplain _ hcall (fun r => effect_create _ _ h _ _ _ r)
  | branch source at' => exact hplain _ hcall (fun r => effect_branch _ _ h _ _ r)
  | append id tokens => exact hplain _ hcall (fun r => effect_append _ _ _ _ r)
  | removeContext id => exact hplain _ hcall (fun r => effect_removeContext _ _ _ r)
  | setEpochs id modelEpoch adapterEpoch =>
    exact hplain _ hcall (fun r => effect_setEpochs _ _ _ _ _ r)
  | preparePublication context representedEnd parent required complete parameters =>
    simp only [World.Step, World.call] at hcall
    unfold preparedBy
    split at hcall
    · rename_i q hq
      cases hcall
      refine ⟨⟨none, Effect.refl _, fun _ h => nomatch h⟩, ?_⟩
      intro p hp
      rcases List.mem_append.mp hp with hold | hnew
      · exact Or.inl hold
      · right
        simp only [hq]
        rw [List.mem_singleton.mp hnew]
    · cases hcall
      exact ⟨⟨none, Effect.refl _, fun _ h => nomatch h⟩, fun p hp => Or.inl hp⟩
  | commitPublication index =>
    simp only [World.Step, World.call] at hcall
    split at hcall
    · cases hcall
      exact ⟨⟨none, Effect.refl _, fun _ h => nomatch h⟩, fun p hp => Or.inl hp⟩
    · rename_i q hq
      have hmem : q ∈ w.prepared := List.mem_of_getElem? hq
      obtain ⟨r, hr⟩ := World.settle_some _ _ w' hcall
      rw [hr] at hcall
      have hprepared : w'.prepared = w.prepared.eraseIdx index := by
        rw [← Option.some.inj hcall]
      refine ⟨?_, fun p hp => Or.inl (List.mem_of_mem_eraseIdx (hprepared ▸ hp))⟩
      rcases effect_commitPublication _ _ h q r hr with hnone | hsome
      · exact ⟨none, hnone, fun _ h => nomatch h⟩
      · refine ⟨some q, hsome, ?_⟩
        intro p hp
        cases hp
        exact hmem
  | releaseMapping id => exact hplain _ hcall (fun r => effect_releaseMapping _ _ _ r)

end Cusco.StoreEffects
