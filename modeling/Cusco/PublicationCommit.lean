import Cusco.StoreAccounts
import Cusco.Sha256

/-!
The publication contract. A validated publication commits unless giving up the
context's old binding also reclaims the mapping being published, which happens
exactly when the old binding was the only support of that mapping. A run of the
store interleaves its calls with publications prepared and committed later.
-/

namespace Cusco.PublicationCommit

open LogicalStore LogicalStore.ContextStore PrefixIndex StoreReferences Reclamation
open PublicationSteps StoreAccounts Runs

/-- The effect promised of a commit that succeeds. -/
structure Committed (s : ContextStore) (p : PreparedPublication) (s' : ContextStore) : Prop where
  bound : ∃ context, s.contexts.lookup p.context = some context ∧
    s'.contexts.lookup p.context = some { context with
      evaluated := some p.mapping.id
      revision := if context.evaluated = some p.mapping.id then context.revision
        else context.revision + 1 }
  stored : ∃ e, s'.mappings.lookup p.mapping.id = some e ∧ e.mapping = p.mapping
  discoverable : p.mapping.id ∈
    bucket s'.prefixIndex p.mapping.epochKey p.mapping.representedEnd
  others : ∀ c, c ≠ p.context → s'.contexts.lookup c = s.contexts.lookup c

/-- What validation promises about the commit that follows. -/
def PublicationContract (s : ContextStore) (p : PreparedPublication) : Prop :=
  (s.validatePublication p = .ok () →
    ∃ s', s.commitPublication p = .returns (.ok p.mapping) s' ∧ Committed s p s') ∧
  ∀ e s', s.commitPublication p = .returns (.error e) s' → s' = s

/-- If the commit moves the context's binding, its revision is not exhausted and
the old binding is not the only support of the published mapping. -/
def CommitSafe (s : ContextStore) (p : PreparedPublication) : Prop :=
  ∀ context, s.contexts.lookup p.context = some context →
    context.evaluated ≠ some p.mapping.id →
    context.revision ≠ u64Max ∧
      ∀ old, context.evaluated = some old → ¬ HeldOnlyThrough s old p.mapping.id

theorem validatePublication_ok (s : ContextStore) (p : PreparedPublication)
    (hv : s.validatePublication p = .ok ()) :
    (∃ context, s.contexts.lookup p.context = some context) ∧
      (∀ e, s.mappings.lookup p.mapping.id = some e → e.mapping = p.mapping) ∧
      (s.mappings.lookup p.mapping.id = none →
        ∀ parent, p.mapping.parent = some parent → s.mappings.lookup parent ≠ none) := by
  unfold validatePublication at hv
  cases hc : s.contexts.lookup p.context with
  | none => rw [hc] at hv; cases hv
  | some context =>
    simp only [hc] at hv
    split at hv
    · cases hv
    · split at hv
      · cases hv
      · split at hv
        · cases hv
        · refine ⟨⟨context, rfl⟩, ?_, ?_⟩
          · intro e he
            simp only [he] at hv
            by_contra hne
            rw [if_pos hne] at hv
            cases hv
          · intro hnone parent hparent hmissing
            simp only [hnone, hparent, hmissing, if_true] at hv
            cases hv

/-- Storing comes first, and leaves the same mappings held only through others. -/
theorem stored_of_validated (s : ContextStore) (p : PreparedPublication) (h : Accounted s)
    (hv : s.validatePublication p = .ok ()) :
    ∃ stored, (if s.mappings.lookup p.mapping.id = none then s.storeMapping p.mapping
        else .ok s) = .ok stored ∧
      Catalogued stored (boundTo s.contexts) none ∧ stored.contexts = s.contexts ∧
      stored.nextContext = s.nextContext ∧
      (∃ e, stored.mappings.lookup p.mapping.id = some e ∧ e.mapping = p.mapping) ∧
      ∀ old, HeldOnlyThrough stored old p.mapping.id ↔ HeldOnlyThrough s old p.mapping.id := by
  obtain ⟨_, hsame, hparent⟩ := validatePublication_ok s p hv
  by_cases hnew : s.mappings.lookup p.mapping.id = none
  · refine ⟨withMapping s p.mapping, ?_, catalogued_withMapping s _ p.mapping h.catalogued hnew
      (hparent hnew), rfl, rfl, ⟨_, lookup_withMapping_id s p.mapping, rfl⟩, ?_⟩
    · rw [if_pos hnew, storeMapping_eq s p.mapping (hparent hnew)]
    · intro old
      refine iff_of_false ?_ ?_
      · rintro ⟨_, e, he, hcatalog, _⟩
        rw [lookup_withMapping_id] at he
        cases he
        cases hcatalog
      · rintro ⟨_, e, he, _⟩
        rw [hnew] at he
        cases he
  · obtain ⟨e, he⟩ := Option.ne_none_iff_exists'.mp hnew
    exact ⟨s, if_neg hnew, h.catalogued, rfl, rfl, ⟨e, he, hsame e he⟩, fun _ => Iff.rfl⟩

/-- The counts while the context is bound to nothing. -/
theorem catalogued_giveUp (s : ContextStore) (contexts : Contexts)
    (h : Catalogued s (boundTo contexts) none) (c : LogicalContextId) (context : LogicalContext)
    (hc : contexts.lookup c = some context) :
    Catalogued (giveUp s context.evaluated) (boundTo (contexts.erase c)) none := by
  have herase := boundTo_erase contexts c context hc
  cases hcurrent : context.evaluated with
  | none =>
    refine catalogued_congr h rfl rfl ?_
    intro m
    rw [herase m, hcurrent]
    simp
  | some old =>
    have hone := herase old
    rw [hcurrent, if_pos rfl, Nat.add_comm] at hone
    obtain ⟨e, he⟩ := Option.ne_none_iff_exists'.mp
      (h.bound_stored old (hone ▸ Nat.succ_pos _))
    refine catalogued_release s _ _ h old e he hone.symm ?_
    intro k hk
    have hsame := herase k
    rw [hcurrent, if_neg (fun heq => hk (Option.some.inj heq).symm), Nat.zero_add] at hsame
    exact hsame.symm

theorem lookup_giveUp_eq_none (s : ContextStore) (contexts : Contexts)
    (h : Catalogued s (boundTo contexts) none) (c : LogicalContextId) (context : LogicalContext)
    (hc : contexts.lookup c = some context) (k : EvaluatedPrefixId) :
    (giveUp s context.evaluated).mappings.lookup k = none ↔ s.mappings.lookup k = none ∨
      ∃ old, context.evaluated = some old ∧ HeldOnlyThrough s old k := by
  have herase := boundTo_erase contexts c context hc
  cases hcurrent : context.evaluated with
  | none => simp [giveUp]
  | some old =>
    have hone := herase old
    rw [hcurrent, if_pos rfl, Nat.add_comm] at hone
    obtain ⟨e, he⟩ := Option.ne_none_iff_exists'.mp
      (h.bound_stored old (hone ▸ Nat.succ_pos _))
    have hother : ∀ k, k ≠ old → boundTo (contexts.erase c) k = boundTo contexts k := by
      intro k hk
      have hsame := herase k
      rw [hcurrent, if_neg (fun heq => hk (Option.some.inj heq).symm), Nat.zero_add] at hsame
      exact hsame.symm
    have hlookup := lookup_release_eq_none s _ _ h old e he hone.symm hother k
    simp only [Option.some.injEq, exists_eq_left']
    exact hlookup

theorem shrunk_giveUp (s : ContextStore) (current : Option EvaluatedPrefixId) :
    Shrunk s (giveUp s current) := by
  cases current with
  | none => exact Shrunk.refl s
  | some old => exact shrunk_adjustContextRefs s old false

theorem publishedMapping_some (s : ContextStore) (id : EvaluatedPrefixId) (e : MappingEntry)
    (he : s.mappings.lookup id = some e) :
    s.publishedMapping id = .returns (.ok e.mapping) s := by
  unfold publishedMapping
  simp only [he]

theorem publishedMapping_none (s : ContextStore) (id : EvaluatedPrefixId)
    (hid : s.mappings.lookup id = none) : s.publishedMapping id = .panics := by
  unfold publishedMapping
  simp only [hid]

/-- A context with its binding moved to `id`. -/
def movedTo (context : LogicalContext) (id : EvaluatedPrefixId) : LogicalContext :=
  { context with evaluated := some id, revision := context.revision + 1 }

theorem rebind_eq (s : ContextStore) (c : LogicalContextId) (context : LogicalContext)
    (hc : s.contexts.lookup c = some context) (id : EvaluatedPrefixId) :
    s.rebind c context.evaluated id =
      if context.revision = u64Max then none
      else some { (s.giveUp context.evaluated).adjustContextRefs id true with
        contexts := s.contexts.insert c (movedTo context id) } := by
  have hshrunk := (shrunk_giveUp s context.evaluated).trans
    (shrunk_adjustContextRefs (s.giveUp context.evaluated) id true)
  unfold rebind
  simp only [hshrunk.contexts, hc]
  rfl

section Bind

variable (s : ContextStore) (h : Catalogued s (boundTo s.contexts) none) (c : LogicalContextId)
  (context : LogicalContext) (hc : s.contexts.lookup c = some context) (id : EvaluatedPrefixId)
  (hmoves : context.evaluated ≠ some id)

include h hc in
/-- Taking the new reference fits the contexts with the binding moved. -/
theorem catalogued_moved (d : MappingEntry)
    (hd : (s.giveUp context.evaluated).mappings.lookup id = some d) :
    Catalogued ((s.giveUp context.evaluated).adjustContextRefs id true)
      (boundTo (s.contexts.insert c (movedTo context id))) none := by
  refine catalogued_acquire _ _ _ (catalogued_giveUp s s.contexts h c context hc) id d hd ?_ ?_
  · rw [boundTo_insert, movedTo, if_pos rfl, Nat.add_comm]
  · intro k hk
    rw [boundTo_insert, movedTo, if_neg (fun heq => hk (Option.some.inj heq).symm), Nat.zero_add]

include h hc hmoves in
/-- Moving a binding succeeds if the mapping outlives the old binding. -/
theorem bindPublished_ok (hrevision : context.revision ≠ u64Max) (d : MappingEntry)
    (hd : (s.giveUp context.evaluated).mappings.lookup id = some d) :
    ∃ s' e, s.bindPublished c context.evaluated id = .returns (.ok d.mapping) s' ∧
      s'.nextContext = s.nextContext ∧
      s'.contexts = s.contexts.insert c (movedTo context id) ∧
      s'.mappings.lookup id = some e ∧ e.mapping = d.mapping ∧
      Catalogued s' (boundTo s'.contexts) none := by
  have hshrunk := shrunk_adjustContextRefs (s.giveUp context.evaluated) id true
  have hstill : ((s.giveUp context.evaluated).adjustContextRefs id true).mappings.lookup id ≠
      none := by
    rw [Ne, lookup_acquire_eq_none, hd]
    exact Option.some_ne_none d
  obtain ⟨e, he⟩ := Option.ne_none_iff_exists'.mp hstill
  have hcontent : e.mapping = d.mapping := by
    obtain ⟨d', hd', heq⟩ := hshrunk.kept id e he
    rw [hd] at hd'
    cases hd'
    exact heq
  refine ⟨{ (s.giveUp context.evaluated).adjustContextRefs id true with
    contexts := s.contexts.insert c (movedTo context id) }, e, ?_, ?_, rfl, he, hcontent, ?_⟩
  · unfold bindPublished
    rw [if_neg hmoves, rebind_eq s c context hc id, if_neg hrevision, ← hcontent]
    exact publishedMapping_some _ id e he
  · exact hshrunk.nextContext.trans (shrunk_giveUp s context.evaluated).nextContext
  · exact catalogued_congr (catalogued_moved s h c context hc id d hd) rfl rfl (fun _ => rfl)

include hc hmoves in
theorem bindPublished_panics (hgone : context.revision = u64Max ∨
    (s.giveUp context.evaluated).mappings.lookup id = none) :
    s.bindPublished c context.evaluated id = .panics := by
  unfold bindPublished
  rw [if_neg hmoves, rebind_eq s c context hc id]
  by_cases hrevision : context.revision = u64Max
  · rw [if_pos hrevision]
  · rw [if_neg hrevision]
    have hnone := hgone.resolve_left hrevision
    exact publishedMapping_none _ id ((lookup_acquire_eq_none _ id id).mpr hnone)

end Bind

/-- The commit of a validated publication binds in a store that holds the
mapping; the commit is safe exactly when it outlives the old binding. -/
theorem commitPublication_eq (s : ContextStore) (p : PreparedPublication) (h : Accounted s)
    (hv : s.validatePublication p = .ok ()) :
    ∃ context stored, s.contexts.lookup p.context = some context ∧
      s.commitPublication p = stored.bindPublished p.context context.evaluated p.mapping.id ∧
      stored.contexts = s.contexts ∧ stored.nextContext = s.nextContext ∧
      Catalogued stored (boundTo stored.contexts) none ∧
      (∃ e, stored.mappings.lookup p.mapping.id = some e ∧ e.mapping = p.mapping) ∧
      (CommitSafe s p ↔ (context.evaluated ≠ some p.mapping.id → context.revision ≠ u64Max ∧
        (stored.giveUp context.evaluated).mappings.lookup p.mapping.id ≠ none)) := by
  obtain ⟨⟨context, hc⟩, -, -⟩ := validatePublication_ok s p hv
  obtain ⟨stored, hstored, hcat, hcontexts, hnext, ⟨e, he, hmapping⟩, hheld⟩ :=
    stored_of_validated s p h hv
  refine ⟨context, stored, hc, ?_, hcontexts, hnext, by rw [hcontexts]; exact hcat,
    ⟨e, he, hmapping⟩, ?_⟩
  · unfold commitPublication
    simp only [hv, hc, hstored]
  · have hsurvives := lookup_giveUp_eq_none stored s.contexts hcat p.context context hc p.mapping.id
    rw [he] at hsurvives
    have hlost : (stored.giveUp context.evaluated).mappings.lookup p.mapping.id ≠ none ↔
        ∀ old, context.evaluated = some old → ¬ HeldOnlyThrough s old p.mapping.id := by
      rw [Ne, hsurvives]
      simp [hheld]
    constructor
    · intro hsafe hmoves
      obtain ⟨hrevision, hnot⟩ := hsafe context hc hmoves
      exact ⟨hrevision, hlost.mpr hnot⟩
    · intro hsafe context' hc' hmoves
      rw [hc] at hc'
      cases hc'
      exact ⟨(hsafe hmoves).1, hlost.mp (hsafe hmoves).2⟩

theorem commitPublication_ok (s : ContextStore) (p : PreparedPublication) (h : Accounted s)
    (hv : s.validatePublication p = .ok ()) (hsafe : CommitSafe s p) :
    ∃ s', s.commitPublication p = .returns (.ok p.mapping) s' ∧ Committed s p s' ∧
      Accounted s' := by
  obtain ⟨context, stored, hc, hcommit, hcontexts, hnext, hcat, ⟨e, he, hmapping⟩, hiff⟩ :=
    commitPublication_eq s p h hv
  have hc' : stored.contexts.lookup p.context = some context := by rw [hcontexts, hc]
  have hlisted : ∀ (t : ContextStore) (e' : MappingEntry),
      Catalogued t (boundTo t.contexts) none → t.mappings.lookup p.mapping.id = some e' →
      e'.mapping = p.mapping →
      p.mapping.id ∈ bucket t.prefixIndex p.mapping.epochKey p.mapping.representedEnd := by
    intro t e' ht he' heq
    exact (ht.listed _ _ _).mpr ⟨e', he', by rw [heq], by rw [heq]⟩
  rw [hcommit]
  by_cases hmoves : context.evaluated = some p.mapping.id
  · refine ⟨stored, ?_, ⟨⟨context, hc, ?_⟩, ⟨e, he, hmapping⟩,
      hlisted stored e hcat he hmapping, ?_⟩, hcat, ?_⟩
    · unfold bindPublished
      rw [if_pos hmoves, publishedMapping_some stored _ e he, hmapping]
    · rw [hc', if_pos hmoves, ← hmoves]
    · intro c _
      rw [hcontexts]
    · rw [hcontexts, hnext]
      exact h.numbered
  · obtain ⟨hrevision, hstill⟩ := hiff.mp hsafe hmoves
    obtain ⟨d, hd⟩ := Option.ne_none_iff_exists'.mp hstill
    have hdmapping : d.mapping = p.mapping := by
      obtain ⟨e', he', heq⟩ := (shrunk_giveUp stored context.evaluated).kept _ d hd
      rw [he] at he'
      cases he'
      rw [heq, hmapping]
    obtain ⟨s', e', hbind, hnext', hcontexts', he', hmapping', hcat'⟩ :=
      bindPublished_ok stored hcat p.context context hc' p.mapping.id hmoves hrevision d hd
    rw [hdmapping] at hbind hmapping'
    rw [hcontexts] at hcontexts'
    refine ⟨s', hbind, ⟨⟨context, hc, ?_⟩, ⟨e', he', hmapping'⟩,
      hlisted s' e' hcat' he' hmapping', ?_⟩, hcat', ?_⟩
    · rw [hcontexts', AList.lookup_insert, if_neg hmoves]
      rfl
    · intro c hne
      rw [hcontexts']
      exact AList.lookup_insert_ne hne
    · rw [hcontexts', hnext', hnext]
      exact numbered_insert s h p.context context hc (movedTo context p.mapping.id) rfl

theorem commitPublication_panics (s : ContextStore) (p : PreparedPublication) (h : Accounted s)
    (hv : s.validatePublication p = .ok ()) (hlosing : ¬ CommitSafe s p) :
    s.commitPublication p = .panics := by
  obtain ⟨context, stored, hc, hcommit, hcontexts, -, -, -, hiff⟩ := commitPublication_eq s p h hv
  rw [hiff] at hlosing
  push Not at hlosing
  obtain ⟨hmoves, hlost⟩ := hlosing
  rw [hcommit]
  refine bindPublished_panics stored p.context context (by rw [hcontexts, hc]) _ hmoves ?_
  by_cases hrevision : context.revision = u64Max
  · exact Or.inl hrevision
  · exact Or.inr (hlost hrevision)

theorem commitPublication_error (s : ContextStore) (p : PreparedPublication) (e : Error)
    (hv : s.validatePublication p = .error e) :
    s.commitPublication p = .returns (.error e) s := by
  unfold commitPublication
  simp only [hv]

end Cusco.PublicationCommit
