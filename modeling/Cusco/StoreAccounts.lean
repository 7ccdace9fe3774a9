import Cusco.PublicationSteps

/-!
The accounts of a whole store. The bound counts of the mapping table are those of
its contexts, and context identities are never reused. Every call of the store
except the commit of a publication is shown here to keep them.
-/

namespace Cusco.StoreAccounts

open LogicalStore LogicalStore.ContextStore PrefixIndex StoreReferences Reclamation
open PublicationSteps

abbrev Contexts := Table LogicalContextId LogicalContext

/-- How many contexts are bound to `m`. -/
def boundTo (contexts : Contexts) (m : EvaluatedPrefixId) : ℕ :=
  contexts.total (fun _ c => if c.evaluated = some m then 1 else 0)

/-- The representation invariant of the store. -/
structure Accounted (s : ContextStore) : Prop where
  catalogued : Catalogued s (boundTo s.contexts) none
  numbered : ∀ c context, s.contexts.lookup c = some context →
    context.id = c ∧ c.value < s.nextContext

theorem boundTo_erase (contexts : Contexts) (c : LogicalContextId) (context : LogicalContext)
    (hc : contexts.lookup c = some context) (m : EvaluatedPrefixId) :
    boundTo contexts m =
      (if context.evaluated = some m then 1 else 0) + boundTo (contexts.erase c) m :=
  AList.total_erase _ contexts c context hc

theorem boundTo_insert (contexts : Contexts) (c : LogicalContextId) (context : LogicalContext)
    (m : EvaluatedPrefixId) : boundTo (contexts.insert c context) m =
      (if context.evaluated = some m then 1 else 0) + boundTo (contexts.erase c) m :=
  AList.total_insert _ contexts c context

theorem boundTo_insert_same (contexts : Contexts) (c : LogicalContextId)
    (context context' : LogicalContext) (hc : contexts.lookup c = some context)
    (hevaluated : context'.evaluated = context.evaluated) (m : EvaluatedPrefixId) :
    boundTo (contexts.insert c context') m = boundTo contexts m := by
  rw [boundTo_insert, boundTo_erase contexts c context hc, hevaluated]

theorem boundTo_insert_new (contexts : Contexts) (c : LogicalContextId)
    (context : LogicalContext) (hc : contexts.lookup c = none)
    (hevaluated : context.evaluated = none) (m : EvaluatedPrefixId) :
    boundTo (contexts.insert c context) m = boundTo contexts m := by
  rw [boundTo_insert, AList.erase_of_lookup_none contexts c hc, hevaluated]
  simp

/-- Accounting reads only the mapping table, the index and the bound counts. -/
theorem catalogued_congr {s s' : ContextStore} {bound bound' : EvaluatedPrefixId → ℕ}
    {slack : Option EvaluatedPrefixId} (h : Catalogued s bound slack)
    (hmappings : s'.mappings = s.mappings) (hindex : s'.prefixIndex = s.prefixIndex)
    (hbound : ∀ m, bound' m = bound m) : Catalogued s' bound' slack := by
  obtain rfl : bound' = bound := funext hbound
  obtain ⟨nextContext, contexts, mappings, prefixIndex⟩ := s
  obtain ⟨nextContext', contexts', mappings', prefixIndex'⟩ := s'
  cases hmappings
  cases hindex
  exact ⟨h.keyed, h.contexts_eq, h.dependents_eq, h.used, h.bound_stored, h.parent_stored,
    h.ranked, h.listed, h.nodup, h.tight⟩

theorem accounted_empty : Accounted ContextStore.empty where
  catalogued := by
    have hnone : ∀ m, (∅ : Mappings).lookup m = none := AList.lookup_empty
    have hbucket : ∀ key n, bucket (∅ : PrefixIndex) key n = [] := by
      intro key n
      rw [bucket_eq_getD, AList.lookup_empty, Option.getD_none, AList.lookup_empty]
      rfl
    refine ⟨?_, ?_, ?_, ?_, ?_, ?_, ⟨fun _ => 0, ?_⟩, ?_, ?_, ?_⟩
    · intro m e he
      cases (hnone m).symm.trans he
    · intro m e he
      cases (hnone m).symm.trans he
    · intro m e he
      cases (hnone m).symm.trans he
    · intro m e he
      cases (hnone m).symm.trans he
    · intro m hm
      exact absurd hm (lt_irrefl 0)
    · intro m e p he
      cases (hnone m).symm.trans he
    · intro m e p he
      cases (hnone m).symm.trans he
    · intro key n m
      change m ∈ bucket (∅ : PrefixIndex) key n ↔ _
      rw [hbucket]
      constructor
      · intro hm
        cases hm
      · rintro ⟨e, he, _⟩
        cases (hnone m).symm.trans he
    · intro key n
      change (bucket (∅ : PrefixIndex) key n).Nodup
      rw [hbucket]
      exact List.nodup_nil
    · intro key lengths hlengths
      cases (AList.lookup_empty key).symm.trans hlengths
  numbered := by
    intro c context hc
    cases (AList.lookup_empty c).symm.trans hc

theorem accounted_create (s s' : ContextStore) (h : Accounted s)
    (tokens : PersistentTokenSequence) (modelEpoch : ModelEpoch) (adapterEpoch : AdapterEpoch)
    (r : Except Error LogicalContextId)
    (hcall : s.create tokens modelEpoch adapterEpoch = .returns r s') : Accounted s' := by
  unfold create at hcall
  split at hcall
  · cases hcall
  · cases hcall
    have hfresh : s.contexts.lookup ⟨s.nextContext⟩ = none := by
      by_contra hne
      obtain ⟨context, hc⟩ := Option.ne_none_iff_exists'.mp hne
      exact absurd (h.numbered _ context hc).2 (lt_irrefl _)
    refine ⟨catalogued_congr h.catalogued rfl rfl (boundTo_insert_new _ _ _ hfresh rfl), ?_⟩
    intro c context hc
    rw [AList.lookup_insert_ite] at hc
    by_cases hid : c = ⟨s.nextContext⟩
    · rw [if_pos hid] at hc
      cases hc
      rw [hid]
      exact ⟨rfl, Nat.lt_succ_self _⟩
    · rw [if_neg hid] at hc
      have hold := h.numbered c context hc
      exact ⟨hold.1, Nat.lt_succ_of_lt hold.2⟩

theorem accounted_branch (s s' : ContextStore) (h : Accounted s) (source : LogicalContextId)
    (at' : ℕ) (r : Except Error LogicalContextId)
    (hcall : s.branch source at' = .returns r s') : Accounted s' := by
  unfold branch at hcall
  split at hcall
  · cases hcall
    exact h
  · split at hcall
    · cases hcall
      exact h
    · exact accounted_create s s' h _ _ _ r hcall

/-- Rewriting a context under its own identity keeps the numbering. -/
theorem numbered_insert (s : ContextStore) (h : Accounted s) (id : LogicalContextId)
    (context : LogicalContext) (hid : s.contexts.lookup id = some context)
    (context' : LogicalContext) (hsame : context'.id = context.id) (c : LogicalContextId)
    (d : LogicalContext) (hd : (s.contexts.insert id context').lookup c = some d) :
    d.id = c ∧ c.value < s.nextContext := by
  rw [AList.lookup_insert_ite] at hd
  by_cases hc : c = id
  · rw [if_pos hc] at hd
    cases hd
    rw [hsame, hc]
    exact h.numbered id context hid
  · rw [if_neg hc] at hd
    exact h.numbered c d hd

theorem accounted_append (s s' : ContextStore) (h : Accounted s) (id : LogicalContextId)
    (tokens : List Token) (r : Except Error Unit)
    (hcall : s.append id tokens = .returns r s') : Accounted s' := by
  unfold append at hcall
  split at hcall
  · cases hcall
    exact h
  · rename_i context hid
    split at hcall
    · cases hcall
      exact h
    · split at hcall
      · cases hcall
      · cases hcall
        exact ⟨catalogued_congr h.catalogued rfl rfl (boundTo_insert_same _ _ _ _ hid rfl),
          numbered_insert s h id context hid _ rfl⟩

/-- Replacing the contexts by ones with the binding `old` gone, then giving up
its reference, keeps the accounts. -/
theorem catalogued_unbind (s : ContextStore) (h : Accounted s) (contexts' : Contexts)
    (old : EvaluatedPrefixId) (hbound : ∀ m, boundTo contexts' m +
      (if old = m then 1 else 0) = boundTo s.contexts m) :
    Catalogued (({ s with contexts := contexts' } : ContextStore).adjustContextRefs old false)
      (boundTo contexts') none := by
  have hold := hbound old
  rw [if_pos rfl] at hold
  obtain ⟨e, he⟩ := Option.ne_none_iff_exists'.mp
    (h.catalogued.bound_stored old (hold ▸ Nat.succ_pos _))
  refine catalogued_release { s with contexts := contexts' } (boundTo s.contexts) _
    (catalogued_congr h.catalogued rfl rfl (fun _ => rfl)) old e he hold ?_
  intro k hk
  have := hbound k
  rw [if_neg (fun heq => hk heq.symm)] at this
  exact this

theorem accounted_removeContext (s s' : ContextStore) (h : Accounted s) (id : LogicalContextId)
    (r : Except Error Unit) (hcall : s.removeContext id = .returns r s') : Accounted s' := by
  unfold removeContext at hcall
  cases hid : s.contexts.lookup id with
  | none =>
    simp only [hid] at hcall
    cases hcall
    exact h
  | some context =>
    simp only [hid] at hcall
    have hnumbered : ∀ c d, (s.contexts.erase id).lookup c = some d →
        d.id = c ∧ c.value < s.nextContext := by
      intro c d hd
      rw [AList.lookup_erase_ite] at hd
      split at hd
      · cases hd
      · exact h.numbered c d hd
    have herase := boundTo_erase s.contexts id context hid
    cases hevaluated : context.evaluated with
    | none =>
      simp only [hevaluated] at hcall
      cases hcall
      refine ⟨catalogued_congr h.catalogued rfl rfl ?_, hnumbered⟩
      intro m
      rw [herase m, hevaluated]
      simp
    | some old =>
      simp only [hevaluated] at hcall
      cases hcall
      have hshrunk := shrunk_adjustContextRefs
        { s with contexts := s.contexts.erase id } old false
      constructor
      · rw [hshrunk.contexts]
        refine catalogued_unbind s h _ old ?_
        intro m
        rw [herase m, hevaluated, Nat.add_comm]
        simp
      · rw [hshrunk.contexts, hshrunk.nextContext]
        exact hnumbered

theorem accounted_setEpochs (s s' : ContextStore) (h : Accounted s) (id : LogicalContextId)
    (modelEpoch : ModelEpoch) (adapterEpoch : AdapterEpoch) (r : Except Error Unit)
    (hcall : s.setEpochs id modelEpoch adapterEpoch = .returns r s') : Accounted s' := by
  unfold setEpochs at hcall
  cases hid : s.contexts.lookup id with
  | none =>
    simp only [hid] at hcall
    cases hcall
    exact h
  | some context =>
    simp only [hid] at hcall
    split at hcall
    · cases hcall
      exact h
    · split at hcall
      · cases hcall
      · have herase := boundTo_erase s.contexts id context hid
        have hinsert := boundTo_insert s.contexts id { context with
          evaluated := none
          modelEpoch := modelEpoch
          adapterEpoch := adapterEpoch
          revision := context.revision + 1 }
        have hnumbered := numbered_insert s h id context hid { context with
          evaluated := none
          modelEpoch := modelEpoch
          adapterEpoch := adapterEpoch
          revision := context.revision + 1 } rfl
        cases hevaluated : context.evaluated with
        | none =>
          simp only [hevaluated] at hcall
          cases hcall
          refine ⟨catalogued_congr h.catalogued rfl rfl ?_, hnumbered⟩
          intro m
          rw [hinsert m, herase m, hevaluated]
        | some old =>
          simp only [hevaluated] at hcall
          cases hcall
          have hshrunk := shrunk_adjustContextRefs { s with
            contexts := s.contexts.insert id { context with
              evaluated := none
              modelEpoch := modelEpoch
              adapterEpoch := adapterEpoch
              revision := context.revision + 1 } } old false
          constructor
          · rw [hshrunk.contexts]
            refine catalogued_unbind s h _ old ?_
            intro m
            rw [hinsert m, herase m, hevaluated, Nat.add_comm]
            simp
          · rw [hshrunk.contexts, hshrunk.nextContext]
            exact hnumbered

theorem accounted_releaseMapping (s s' : ContextStore) (h : Accounted s) (id : EvaluatedPrefixId)
    (r : Except Error Unit) (hcall : s.releaseMapping id = .returns r s') : Accounted s' := by
  unfold releaseMapping at hcall
  cases hid : s.mappings.lookup id with
  | none =>
    simp only [hid] at hcall
    cases hcall
    exact h
  | some e =>
    simp only [hid] at hcall
    cases hcall
    have hshrunk := (shrunk_setEntry s id e
      { e with references := e.references.dropCatalog } hid rfl).trans (shrunk_reclaim _ id)
    constructor
    · rw [hshrunk.contexts]
      exact catalogued_reclaim _ _ id (h.catalogued.setEntry id e
        { e with references := e.references.dropCatalog } hid rfl rfl
        (h.catalogued.contexts_eq id e hid) (fun _ _ => rfl))
    · rw [hshrunk.contexts, hshrunk.nextContext]
      exact h.numbered

end Cusco.StoreAccounts
