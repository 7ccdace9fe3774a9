import Cusco.Reclamation

/-!
The three steps of a commit on the mapping table: storing a new mapping, giving
up the reference of the old binding, and taking the reference of the new one.
Each keeps the references accounted for and says which mappings are stored
afterwards.
-/

namespace Cusco.PublicationSteps

open LogicalStore LogicalStore.ContextStore PrefixIndex StoreReferences Reclamation

def addParentReference (e : MappingEntry) : MappingEntry :=
  { e with references := e.references.addDependent }

/-- The mapping table with one more child counted at the parent. -/
def countChild (mappings : Mappings) (parent : Option EvaluatedPrefixId) : Mappings :=
  match parent with
  | none => mappings
  | some p => mappings.modify p addParentReference

/-- The store with a new mapping under its catalog reference. -/
def withMapping (s : ContextStore) (mapping : EvaluatedPrefix) : ContextStore :=
  { s with
    mappings := (countChild s.mappings mapping.parent).insert mapping.id ⟨mapping, ⟨1, 0, 0⟩⟩
    prefixIndex := pushIndex s.prefixIndex mapping mapping.id }

theorem storeMapping_eq (s : ContextStore) (mapping : EvaluatedPrefix)
    (hparent : ∀ p, mapping.parent = some p → s.mappings.lookup p ≠ none) :
    s.storeMapping mapping = .ok (withMapping s mapping) := by
  unfold storeMapping withMapping countChild
  cases hp : mapping.parent with
  | none => rfl
  | some p =>
    obtain ⟨e, he⟩ := Option.ne_none_iff_exists'.mp (hparent p hp)
    simp only [he, AList.modify]
    rfl

theorem lookup_countChild (mappings : Mappings) (parent : Option EvaluatedPrefixId)
    (k : EvaluatedPrefixId) : (countChild mappings parent).lookup k =
      if parent = some k then (mappings.lookup k).map addParentReference
      else mappings.lookup k := by
  unfold countChild
  cases parent with
  | none => rfl
  | some p =>
    simp only [AList.lookup_modify, Option.some.injEq]
    by_cases hk : k = p
    · rw [if_pos hk, if_pos hk.symm]
    · rw [if_neg hk, if_neg (fun h => hk h.symm)]

theorem lookup_withMapping (s : ContextStore) (mapping : EvaluatedPrefix)
    (k : EvaluatedPrefixId) : (withMapping s mapping).mappings.lookup k =
      if k = mapping.id then some ⟨mapping, ⟨1, 0, 0⟩⟩
      else if mapping.parent = some k then (s.mappings.lookup k).map addParentReference
      else s.mappings.lookup k := by
  unfold withMapping
  rw [AList.lookup_insert_ite, lookup_countChild]

theorem lookup_withMapping_id (s : ContextStore) (mapping : EvaluatedPrefix) :
    (withMapping s mapping).mappings.lookup mapping.id = some ⟨mapping, ⟨1, 0, 0⟩⟩ := by
  rw [lookup_withMapping, if_pos rfl]

theorem mapping_withMapping (s : ContextStore) (mapping : EvaluatedPrefix)
    (k : EvaluatedPrefixId) (hk : k ≠ mapping.id) :
    ((withMapping s mapping).mappings.lookup k).map MappingEntry.mapping =
      (s.mappings.lookup k).map MappingEntry.mapping := by
  rw [lookup_withMapping, if_neg hk]
  split
  · rw [Option.map_map]
    rfl
  · rfl

theorem entry_of_withMapping (s : ContextStore) (mapping : EvaluatedPrefix)
    (k : EvaluatedPrefixId) (d : MappingEntry) (hk : k ≠ mapping.id)
    (hd : (withMapping s mapping).mappings.lookup k = some d) :
    ∃ c, s.mappings.lookup k = some c ∧
      d = if mapping.parent = some k then addParentReference c else c := by
  rw [lookup_withMapping, if_neg hk] at hd
  by_cases hp : mapping.parent = some k
  · rw [if_pos hp] at hd
    obtain ⟨c, hc, hcd⟩ := Option.map_eq_some_iff.mp hd
    exact ⟨c, hc, by rw [if_pos hp, hcd]⟩
  · rw [if_neg hp] at hd
    exact ⟨d, hd, by rw [if_neg hp]⟩

theorem content_of_withMapping (s : ContextStore) (mapping : EvaluatedPrefix)
    (k : EvaluatedPrefixId) (d : MappingEntry) (hk : k ≠ mapping.id)
    (hd : (withMapping s mapping).mappings.lookup k = some d) :
    ∃ c, s.mappings.lookup k = some c ∧ c.mapping = d.mapping ∧
      c.references.contexts = d.references.contexts := by
  obtain ⟨c, hc, hcd⟩ := entry_of_withMapping s mapping k d hk hd
  refine ⟨c, hc, ?_⟩
  rw [hcd]
  split <;> exact ⟨rfl, rfl⟩

theorem lookup_withMapping_eq_none (s : ContextStore) (mapping : EvaluatedPrefix)
    (k : EvaluatedPrefixId) : (withMapping s mapping).mappings.lookup k = none ↔
      k ≠ mapping.id ∧ s.mappings.lookup k = none := by
  rw [lookup_withMapping]
  by_cases hk : k = mapping.id
  · simp [hk]
  · rw [if_neg hk]
    split <;> simp [hk]

theorem childrenOf_withMapping (s : ContextStore) (mapping : EvaluatedPrefix)
    (k : EvaluatedPrefixId) (hnew : s.mappings.lookup mapping.id = none) :
    childrenOf (withMapping s mapping).mappings k =
      (if mapping.parent = some k then 1 else 0) + childrenOf s.mappings k := by
  have hnone : (countChild s.mappings mapping.parent).lookup mapping.id = none := by
    rw [lookup_countChild, hnew]
    split <;> rfl
  have hsame : childrenOf (countChild s.mappings mapping.parent) k = childrenOf s.mappings k := by
    unfold childrenOf countChild
    cases mapping.parent with
    | none => rfl
    | some p => exact total_modify_same _ _ _ _ (fun _ => rfl)
  rw [← hsame]
  exact AList.total_insert_new _ (countChild s.mappings mapping.parent) mapping.id _ hnone

/-- An entry after the mapping is stored is the new one or was there before. -/
theorem withMapping_cases (s : ContextStore) (mapping : EvaluatedPrefix) {k : EvaluatedPrefixId}
    {d : MappingEntry} (hd : (withMapping s mapping).mappings.lookup k = some d) :
    (k = mapping.id ∧ d = ⟨mapping, ⟨1, 0, 0⟩⟩) ∨
      k ≠ mapping.id ∧ ∃ c, s.mappings.lookup k = some c ∧ c.mapping = d.mapping ∧
        c.references.contexts = d.references.contexts := by
  by_cases hk : k = mapping.id
  · subst hk
    rw [lookup_withMapping_id] at hd
    exact Or.inl ⟨rfl, (Option.some.inj hd).symm⟩
  · exact Or.inr ⟨hk, content_of_withMapping s mapping k d hk hd⟩

section Stored

variable {s : ContextStore} {bound : EvaluatedPrefixId → ℕ} {mapping : EvaluatedPrefix}
  (h : Catalogued s bound none) (hnew : s.mappings.lookup mapping.id = none)
  (hparent : ∀ p, mapping.parent = some p → s.mappings.lookup p ≠ none)

include h hnew hparent

theorem dependents_withMapping {k : EvaluatedPrefixId} {d : MappingEntry}
    (hd : (withMapping s mapping).mappings.lookup k = some d) :
    d.references.dependents = childrenOf (withMapping s mapping).mappings k := by
  rw [childrenOf_withMapping s mapping k hnew]
  by_cases hk : k = mapping.id
  · subst hk
    rw [lookup_withMapping_id] at hd
    cases hd
    have hself : mapping.parent ≠ some mapping.id := fun hp => hparent _ hp hnew
    have hnone : childrenOf s.mappings mapping.id = 0 := by
      refine (AList.total_eq_zero_iff _ _).mpr ?_
      intro k c hc
      refine if_neg (fun hp => ?_)
      exact h.parent_stored k c _ hc hp hnew
    rw [if_neg hself, hnone]
  · obtain ⟨c, hc, hcd⟩ := entry_of_withMapping s mapping k d hk hd
    have hold := h.dependents_eq k c hc
    rw [hcd]
    by_cases hp : mapping.parent = some k
    · rw [if_pos hp, if_pos hp]
      change c.references.dependents + 1 = _
      omega
    · rw [if_neg hp, if_neg hp]
      omega

/-- No mapping has the new one as its parent. -/
theorem parent_withMapping {k p : EvaluatedPrefixId} {d : MappingEntry}
    (hd : (withMapping s mapping).mappings.lookup k = some d) (hp : d.mapping.parent = some p) :
    p ≠ mapping.id ∧ s.mappings.lookup p ≠ none := by
  have hstored : s.mappings.lookup p ≠ none := by
    rcases withMapping_cases s mapping hd with ⟨_, rfl⟩ | ⟨_, c, hc, heq, _⟩
    · exact hparent p hp
    · exact h.parent_stored k c p hc (by rw [heq, hp])
  exact ⟨fun hpid => hstored (hpid ▸ hnew), hstored⟩

theorem ranked_withMapping : ∃ rank : EvaluatedPrefixId → ℕ, ∀ k d p,
    (withMapping s mapping).mappings.lookup k = some d → d.mapping.parent = some p →
      rank p < rank k := by
  obtain ⟨rank, hrank⟩ := h.ranked
  -- No stored mapping has the new one as its parent, so only its own rank is free.
  refine ⟨Function.update rank mapping.id ((mapping.parent.elim 0 rank) + 1), ?_⟩
  intro k d p hd hp
  rw [Function.update_of_ne (parent_withMapping h hnew hparent hd hp).1]
  rcases withMapping_cases s mapping hd with ⟨rfl, rfl⟩ | ⟨hk, c, hc, heq, _⟩
  · rw [Function.update_self, hp]
    exact Nat.lt_succ_self _
  · rw [Function.update_of_ne hk]
    exact hrank k c p hc (by rw [heq, hp])

omit hparent

theorem unlisted_new (key : MappingEpochKey) (n : ℕ) :
    mapping.id ∉ bucket s.prefixIndex key n := by
  rw [h.listed]
  rintro ⟨e, he, _⟩
  rw [hnew] at he
  cases he

theorem listed_withMapping (key : MappingEpochKey) (n : ℕ) (k : EvaluatedPrefixId) :
    k ∈ bucket (withMapping s mapping).prefixIndex key n ↔
      Filed (withMapping s mapping) key n k := by
  have hindex : (withMapping s mapping).prefixIndex =
      pushIndex s.prefixIndex mapping mapping.id := rfl
  rw [hindex, bucket_pushIndex]
  by_cases hk : k = mapping.id
  · subst hk
    constructor
    · intro hmem
      split at hmem
      · rename_i hcond
        exact ⟨_, lookup_withMapping_id s mapping, hcond.1.symm, hcond.2.symm⟩
      · exact absurd hmem (unlisted_new h hnew key n)
    · rintro ⟨e, he, hkey, hn⟩
      rw [lookup_withMapping_id] at he
      cases he
      rw [if_pos ⟨hkey.symm, hn.symm⟩]
      simp
  · rw [filed_congr s _ key n k (mapping_withMapping s mapping k hk), ← h.listed]
    split
    · simp [hk]
    · rfl

theorem nodup_withMapping (key : MappingEpochKey) (n : ℕ) :
    (bucket (withMapping s mapping).prefixIndex key n).Nodup := by
  have hindex : (withMapping s mapping).prefixIndex =
      pushIndex s.prefixIndex mapping mapping.id := rfl
  rw [hindex, bucket_pushIndex]
  split
  · refine List.Nodup.append (h.nodup key n) (List.nodup_singleton _) ?_
    intro k hk hk'
    rw [List.mem_singleton] at hk'
    subst hk'
    exact unlisted_new h hnew key n hk
  · exact h.nodup key n

end Stored

theorem catalogued_withMapping (s : ContextStore) (bound : EvaluatedPrefixId → ℕ)
    (mapping : EvaluatedPrefix) (h : Catalogued s bound none)
    (hnew : s.mappings.lookup mapping.id = none)
    (hparent : ∀ p, mapping.parent = some p → s.mappings.lookup p ≠ none) :
    Catalogued (withMapping s mapping) bound none where
  keyed := by
    intro k d hd
    rcases withMapping_cases s mapping hd with ⟨rfl, rfl⟩ | ⟨_, c, hc, heq, _⟩
    · rfl
    · rw [← heq]
      exact h.keyed k c hc
  contexts_eq := by
    intro k d hd
    rcases withMapping_cases s mapping hd with ⟨rfl, rfl⟩ | ⟨_, c, hc, _, heq⟩
    · by_contra hne
      exact h.bound_stored mapping.id (Nat.pos_of_ne_zero (Ne.symm hne)) hnew
    · rw [← heq]
      exact h.contexts_eq k c hc
  dependents_eq := fun _ _ hd => dependents_withMapping h hnew hparent hd
  used := by
    intro k d hd _
    rw [Ne, references_eq_zero_iff]
    by_cases hk : k = mapping.id
    · subst hk
      rw [lookup_withMapping_id] at hd
      cases hd
      simp
    · obtain ⟨c, hc, hcd⟩ := entry_of_withMapping s mapping k d hk hd
      have hold := h.used k c hc (by simp)
      rw [Ne, references_eq_zero_iff] at hold
      rw [hcd]
      split
      · simp [addParentReference, ReferenceCounts.addDependent]
      · exact hold
  bound_stored := by
    intro k hk hnone
    exact h.bound_stored k hk ((lookup_withMapping_eq_none s mapping k).mp hnone).2
  parent_stored := by
    intro k d p hd hp hnone
    exact (parent_withMapping h hnew hparent hd hp).2
      ((lookup_withMapping_eq_none s mapping p).mp hnone).2
  ranked := ranked_withMapping h hnew hparent
  listed := listed_withMapping h hnew
  nodup := nodup_withMapping h hnew
  tight := tight_pushIndex s.prefixIndex mapping mapping.id h.tight

theorem catalogued_acquire (s : ContextStore) (bound bound' : EvaluatedPrefixId → ℕ)
    (h : Catalogued s bound none) (m : EvaluatedPrefixId) (e : MappingEntry)
    (hm : s.mappings.lookup m = some e) (hone : bound' m = bound m + 1)
    (hother : ∀ k, k ≠ m → bound' k = bound k) :
    Catalogued (s.adjustContextRefs m true) bound' none := by
  have hset : s.adjustContextRefs m true =
      s.setEntry m { e with references := e.references.addContext } := by
    unfold adjustContextRefs
    simp only [hm, if_true]
  rw [hset]
  refine (h.setEntry m e { e with references := e.references.addContext } hm rfl rfl ?_
    hother).no_slack ?_
  · change e.references.contexts + 1 = bound' m
    rw [hone, h.contexts_eq m e hm]
  · intro d hd
    rw [lookup_setEntry, if_pos rfl] at hd
    cases hd
    rw [Ne, references_eq_zero_iff]
    simp [ReferenceCounts.addContext]

theorem shrunk_setEntry (s : ContextStore) (m : EvaluatedPrefixId) (e e' : MappingEntry)
    (hm : s.mappings.lookup m = some e) (hmapping : e'.mapping = e.mapping) :
    Shrunk s (s.setEntry m e') where
  nextContext := rfl
  contexts := rfl
  kept := by
    intro k d hd
    obtain ⟨c, hc, heq⟩ := exists_entry_setEntry s m k e e' d hm hmapping hd
    exact ⟨c, hc, heq.symm⟩

theorem shrunk_adjustContextRefs (s : ContextStore) (m : EvaluatedPrefixId) (increment : Bool) :
    Shrunk s (s.adjustContextRefs m increment) := by
  unfold adjustContextRefs
  cases hm : s.mappings.lookup m with
  | none => exact Shrunk.refl s
  | some e =>
    cases increment with
    | true => exact shrunk_setEntry s m e _ hm rfl
    | false =>
      exact (shrunk_setEntry s m e { e with references := e.references.dropContext } hm rfl).trans
        (shrunk_reclaim _ m)

theorem lookup_acquire_eq_none (s : ContextStore) (m k : EvaluatedPrefixId) :
    (s.adjustContextRefs m true).mappings.lookup k = none ↔ s.mappings.lookup k = none := by
  unfold adjustContextRefs
  cases hm : s.mappings.lookup m with
  | none => rfl
  | some e => exact lookup_setEntry_eq_none s m k e _ hm

section Release

variable (s : ContextStore) (bound bound' : EvaluatedPrefixId → ℕ) (h : Catalogued s bound none)
  (m : EvaluatedPrefixId) (e : MappingEntry) (hm : s.mappings.lookup m = some e)
  (hone : bound' m + 1 = bound m) (hother : ∀ k, k ≠ m → bound' k = bound k)

include h hm hone hother

theorem catalogued_dropContext :
    Catalogued (s.setEntry m { e with references := e.references.dropContext }) bound'
      (some m) := by
  refine h.setEntry m e _ hm rfl rfl ?_ hother
  have := h.contexts_eq m e hm
  change e.references.contexts - 1 = bound' m
  omega

theorem catalogued_release : Catalogued (s.adjustContextRefs m false) bound' none := by
  have hrelease : s.adjustContextRefs m false =
      (s.setEntry m { e with references := e.references.dropContext }).reclaim m := by
    unfold adjustContextRefs
    simp only [hm]
    rfl
  rw [hrelease]
  exact catalogued_reclaim _ bound' m
    (catalogued_dropContext s bound bound' h m e hm hone hother)

/-- Giving up a context's reference removes exactly what was held only through it. -/
theorem lookup_release_eq_none (k : EvaluatedPrefixId) :
    (s.adjustContextRefs m false).mappings.lookup k = none ↔
      s.mappings.lookup k = none ∨ HeldOnlyThrough s m k := by
  have hrelease : s.adjustContextRefs m false =
      (s.setEntry m { e with references := e.references.dropContext }).reclaim m := by
    unfold adjustContextRefs
    simp only [hm]
    rfl
  obtain ⟨rank, hrank⟩ := h.ranked
  have hsame : ∀ k, rank k < rank m →
      (s.setEntry m { e with references := e.references.dropContext }).mappings.lookup k =
        s.mappings.lookup k := by
    intro k hk
    rw [lookup_setEntry, if_neg]
    rintro rfl
    exact absurd hk (lt_irrefl _)
  have hcount : e.references.contexts - 1 + e.references.dependents + 1 =
      e.references.contexts + e.references.dependents := by
    have := h.contexts_eq m e hm
    omega
  rw [hrelease, reclaim, lookup_reclaimLoop_eq_none _ _ bound' m k
    (catalogued_dropContext s bound bound' h m e hm hone hother) (Nat.lt_succ_self _),
    lookup_setEntry_eq_none s m k e _ hm,
    given_iff_heldOnlyThrough s _ rank hrank m k hsame e
      { e with references := e.references.dropContext } hm
      (by rw [lookup_setEntry, if_pos rfl]) rfl rfl hcount]

end Release

end Cusco.PublicationSteps
