import Cusco.StoreEffects

/-!
A store whose catalog references are never released. Every mapping then keeps its own
reference, so nothing is ever reclaimed: commits only add mappings, a validated commit is
always safe, and every mapping published stays with its content.
-/

namespace Cusco.PinnedCatalogue

open Calls LogicalStore LogicalStore.ContextStore StoreReferences PublicationSteps
open Reclamation StoreAccounts PublicationCommit StoreEffects

variable {s : ContextStore}

/-- Every mapping stored has its catalog reference. -/
def Pinned (s : ContextStore) : Prop :=
  ∀ m e, s.mappings.lookup m = some e → 0 < e.references.catalog

/-- The mappings stored stay, and stay pinned. -/
structure Keeps (s s' : ContextStore) : Prop where
  next : s'.nextContext = s.nextContext
  pinned : Pinned s'
  kept : ∀ m e, s.mappings.lookup m = some e →
    ∃ e', s'.mappings.lookup m = some e' ∧ e'.mapping = e.mapping

theorem Keeps.refl (h : Pinned s) : Keeps s s :=
  ⟨rfl, h, fun _ e he => ⟨e, he, rfl⟩⟩

theorem Keeps.trans {a b c : ContextStore} (hab : Keeps a b) (hbc : Keeps b c) : Keeps a c where
  next := hbc.next.trans hab.next
  pinned := hbc.pinned
  kept := by
    intro m e he
    obtain ⟨e', he', hsame⟩ := hab.kept m e he
    obtain ⟨e'', he'', hsame'⟩ := hbc.kept m e' he'
    exact ⟨e'', he'', hsame'.trans hsame⟩

/-- Only the mapping table and the counter matter. -/
theorem Keeps.of_mappings {s s' : ContextStore} (h : Pinned s) (hsame : s'.mappings = s.mappings)
    (hnext : s'.nextContext = s.nextContext) : Keeps s s' where
  next := hnext
  pinned := by
    intro m e he
    rw [hsame] at he
    exact h m e he
  kept := by
    intro m e he
    exact ⟨e, hsame ▸ he, rfl⟩

theorem reclaim_pinned (h : Pinned s) (m : EvaluatedPrefixId) : s.reclaim m = s := by
  unfold reclaim reclaimLoop
  cases he : s.mappings.lookup m with
  | none => rfl
  | some e =>
    simp only
    rw [if_neg]
    intro hzero
    have hpos := h m e he
    rw [hzero] at hpos
    exact absurd hpos (lt_irrefl 0)

theorem keeps_setEntry (h : Pinned s) {m : EvaluatedPrefixId} {e e' : MappingEntry}
    (he : s.mappings.lookup m = some e) (hsame : e'.mapping = e.mapping)
    (hpos : 0 < e'.references.catalog) : Keeps s (s.setEntry m e') where
  next := rfl
  pinned := by
    intro k d hd
    rw [lookup_setEntry] at hd
    by_cases hk : k = m
    · rw [if_pos hk] at hd
      cases hd
      exact hpos
    · rw [if_neg hk] at hd
      exact h k d hd
  kept := by
    intro k d hd
    rw [lookup_setEntry]
    by_cases hk : k = m
    · subst hk
      rw [he] at hd
      cases hd
      exact ⟨e', if_pos rfl, hsame⟩
    · exact ⟨d, by rw [if_neg hk, hd], rfl⟩

theorem keeps_adjustContextRefs (h : Pinned s) (m : EvaluatedPrefixId) (increment : Bool) :
    Keeps s (s.adjustContextRefs m increment) := by
  unfold adjustContextRefs
  cases he : s.mappings.lookup m with
  | none => exact Keeps.refl h
  | some e =>
    cases increment with
    | true => exact keeps_setEntry h he rfl (h m e he)
    | false =>
      have hset : Keeps s (s.setEntry m { e with references := e.references.dropContext }) :=
        keeps_setEntry h he rfl (h m e he)
      simp only [Bool.false_eq_true, if_false]
      rw [reclaim_pinned hset.pinned]
      exact hset

theorem keeps_giveUp (h : Pinned s) (current : Option EvaluatedPrefixId) :
    Keeps s (s.giveUp current) := by
  cases current with
  | none => exact Keeps.refl h
  | some old => exact keeps_adjustContextRefs h old false

theorem keeps_bindPublished {s s' : ContextStore} (h : Pinned s) {c : LogicalContextId}
    {context : LogicalContext} (hc : s.contexts.lookup c = some context)
    {id : EvaluatedPrefixId} {r : Except Error EvaluatedPrefix}
    (hbind : s.bindPublished c context.evaluated id = .returns r s') : Keeps s s' := by
  have hpublished : ∀ t t' : ContextStore, t.publishedMapping id = .returns r t' → t' = t := by
    intro t t' ht
    unfold publishedMapping at ht
    cases he : t.mappings.lookup id with
    | none =>
      rw [he] at ht
      cases ht
    | some e =>
      rw [he] at ht
      cases ht
      rfl
  unfold bindPublished at hbind
  by_cases hsame : context.evaluated = some id
  · rw [if_pos hsame] at hbind
    rw [hpublished s s' hbind]
    exact Keeps.refl h
  · rw [if_neg hsame, rebind_eq s c context hc id] at hbind
    by_cases hrevision : context.revision = u64Max
    · rw [if_pos hrevision] at hbind
      cases hbind
    · rw [if_neg hrevision] at hbind
      have hgiven := keeps_giveUp h context.evaluated
      have hacquired := hgiven.trans (keeps_adjustContextRefs hgiven.pinned id true)
      rw [hpublished _ s' hbind]
      exact hacquired.trans (Keeps.of_mappings hacquired.pinned rfl rfl)

theorem keeps_withMapping (h : Pinned s) {mapping : EvaluatedPrefix}
    (hnew : s.mappings.lookup mapping.id = none) : Keeps s (withMapping s mapping) where
  next := rfl
  pinned := by
    intro k d hd
    by_cases hk : k = mapping.id
    · subst hk
      rw [lookup_withMapping_id] at hd
      cases hd
      exact Nat.one_pos
    · obtain ⟨e, he, rfl⟩ := entry_of_withMapping s mapping k d hk hd
      by_cases hparent : mapping.parent = some k
      · rw [if_pos hparent]
        exact h k e he
      · rw [if_neg hparent]
        exact h k e he
  kept := by
    intro k e he
    have hk : k ≠ mapping.id := by
      intro hk
      rw [hk, hnew] at he
      cases he
    have hsame := mapping_withMapping s mapping k hk
    rw [he, Option.map_some] at hsame
    obtain ⟨d, hd, hde⟩ := Option.map_eq_some_iff.mp hsame
    exact ⟨d, hd, hde⟩

/-- In a pinned store a validated commit is safe unless the revision is exhausted. -/
theorem commitSafe_of_pinned (h : Pinned s) {p : PreparedPublication} {context : LogicalContext}
    (hc : s.contexts.lookup p.context = some context) (hrevision : context.revision ≠ u64Max) :
    CommitSafe s p := by
  intro context' hc' _
  rw [hc] at hc'
  cases hc'
  refine ⟨hrevision, ?_⟩
  intro old _ hheld
  obtain ⟨_, e, he, hcatalog, _⟩ := hheld
  exact absurd (h _ e he) (by omega)

/-- A commit that returns keeps the mappings stored. -/
theorem keeps_commitPublication {s s' : ContextStore} (h : Pinned s) {p : PreparedPublication}
    {r : Except Error EvaluatedPrefix}
    (hcall : s.commitPublication p = .returns r s') : Keeps s s' := by
  cases hv : s.validatePublication p with
  | error e =>
    rw [commitPublication_error s p e hv] at hcall
    cases hcall
    exact Keeps.refl h
  | ok _ =>
    obtain ⟨⟨context, hc⟩, _, hparent⟩ := validatePublication_ok s p hv
    unfold commitPublication at hcall
    simp only [hv, hc] at hcall
    by_cases hnew : s.mappings.lookup p.mapping.id = none
    · rw [if_pos hnew, storeMapping_eq s p.mapping (hparent hnew)] at hcall
      have hstored := keeps_withMapping h hnew
      exact hstored.trans (keeps_bindPublished hstored.pinned hc hcall)
    · rw [if_neg hnew] at hcall
      exact keeps_bindPublished h hc hcall

/-- What the commit of a validated publication does to a pinned store. -/
structure Adds (s : ContextStore) (p : PreparedPublication) (s' : ContextStore) : Prop where
  committed : Committed s p s'
  accounted : Accounted s'
  keeps : Keeps s s'
  added : ∀ m e', s'.mappings.lookup m = some e' →
    (∃ e, s.mappings.lookup m = some e ∧ e'.mapping = e.mapping) ∨
      p.mapping.id = m ∧ e'.mapping = p.mapping

theorem commitPublication_pinned (haccounted : Accounted s) (h : Pinned s) {p : PreparedPublication}
    (hv : s.validatePublication p = .ok ()) {context : LogicalContext}
    (hc : s.contexts.lookup p.context = some context) (hrevision : context.revision ≠ u64Max) :
    ∃ s', s.commitPublication p = .returns (.ok p.mapping) s' ∧ Adds s p s' := by
  obtain ⟨s', hcommit, hcommitted, haccounted'⟩ :=
    commitPublication_ok s p haccounted hv (commitSafe_of_pinned h hc hrevision)
  have hkeeps := keeps_commitPublication h hcommit
  refine ⟨s', hcommit, ?_⟩
  rcases effect_commitPublication s s' haccounted p _ hcommit with heffect | heffect
  · refine ⟨hcommitted, haccounted', hkeeps, ?_⟩
    intro m e' he'
    rcases heffect.mappings m e' he' with hold | ⟨q, hq, _⟩
    · exact Or.inl hold
    · cases hq
  · refine ⟨hcommitted, haccounted', hkeeps, ?_⟩
    intro m e' he'
    rcases heffect.mappings m e' he' with hold | ⟨q, hq, _, hid, hsame⟩
    · exact Or.inl hold
    · cases hq
      exact Or.inr ⟨hid, hsame⟩

end Cusco.PinnedCatalogue
