import Cusco.PrefixIndex
import Mathlib.Logic.Function.Basic

/-!
Reference accounting of the context store. The stored mappings form a forest
under their parent field; each counts the contexts bound to it and its stored
children. `Catalogued` states this against any function saying how many contexts
are bound, so that it also describes the store between the two halves of a
rebinding. Reclaiming restores it after one reference was given up, and the
mappings it removes are exactly those held by nothing else.
-/

namespace Cusco.StoreReferences

open LogicalStore LogicalStore.ContextStore PrefixIndex

abbrev Mappings := Table EvaluatedPrefixId MappingEntry

theorem references_eq_zero_iff (r : ReferenceCounts) :
    r = ⟨0, 0, 0⟩ ↔ r.catalog = 0 ∧ r.contexts = 0 ∧ r.dependents = 0 := by
  cases r
  simp

/-- How many stored mappings have `m` as their parent. -/
def childrenOf (mappings : Mappings) (m : EvaluatedPrefixId) : ℕ :=
  mappings.total (fun _ e => if e.mapping.parent = some m then 1 else 0)

/-- `m` is stored under the epoch key and the represented length. -/
def Filed (s : ContextStore) (key : MappingEpochKey) (n : ℕ) (m : EvaluatedPrefixId) : Prop :=
  ∃ e, s.mappings.lookup m = some e ∧ e.mapping.epochKey = key ∧ e.mapping.representedEnd = n

/-- The mapping table and the index agree with each other and with `bound`, the
number of contexts bound to each mapping. Only `slack` may be without references. -/
structure Catalogued (s : ContextStore) (bound : EvaluatedPrefixId → ℕ)
    (slack : Option EvaluatedPrefixId) : Prop where
  keyed : ∀ m e, s.mappings.lookup m = some e → e.mapping.id = m
  contexts_eq : ∀ m e, s.mappings.lookup m = some e → e.references.contexts = bound m
  dependents_eq : ∀ m e, s.mappings.lookup m = some e →
    e.references.dependents = childrenOf s.mappings m
  used : ∀ m e, s.mappings.lookup m = some e → slack ≠ some m → e.references ≠ ⟨0, 0, 0⟩
  bound_stored : ∀ m, 0 < bound m → s.mappings.lookup m ≠ none
  parent_stored : ∀ m e p, s.mappings.lookup m = some e → e.mapping.parent = some p →
    s.mappings.lookup p ≠ none
  ranked : ∃ rank : EvaluatedPrefixId → ℕ, ∀ m e p, s.mappings.lookup m = some e →
    e.mapping.parent = some p → rank p < rank m
  listed : ∀ key n m, m ∈ bucket s.prefixIndex key n ↔ Filed s key n m
  nodup : ∀ key n, (bucket s.prefixIndex key n).Nodup
  tight : Tight s.prefixIndex

/-- Filing depends on the stored mapping only, not on its counts. -/
theorem filed_congr (s s' : ContextStore) (key : MappingEpochKey) (n : ℕ) (m : EvaluatedPrefixId)
    (h : (s'.mappings.lookup m).map MappingEntry.mapping =
      (s.mappings.lookup m).map MappingEntry.mapping) : Filed s' key n m ↔ Filed s key n m := by
  have hfiled : ∀ t : ContextStore, Filed t key n m ↔
      ∃ x, (t.mappings.lookup m).map MappingEntry.mapping = some x ∧ x.epochKey = key ∧
        x.representedEnd = n := by
    intro t
    constructor
    · rintro ⟨e, he, hrest⟩
      exact ⟨e.mapping, by rw [he, Option.map_some], hrest⟩
    · rintro ⟨x, hx, hrest⟩
      obtain ⟨e, he, rfl⟩ := Option.map_eq_some_iff.mp hx
      exact ⟨e, he, hrest⟩
  rw [hfiled s', hfiled s, h]

theorem Catalogued.no_slack {s : ContextStore} {bound : EvaluatedPrefixId → ℕ}
    {m : EvaluatedPrefixId} (h : Catalogued s bound (some m))
    (hm : ∀ e, s.mappings.lookup m = some e → e.references ≠ ⟨0, 0, 0⟩) :
    Catalogued s bound none where
  keyed := h.keyed
  contexts_eq := h.contexts_eq
  dependents_eq := h.dependents_eq
  used := by
    intro k e hk _
    by_cases hkm : k = m
    · subst hkm
      exact hm e hk
    · exact h.used k e hk (fun heq => hkm (Option.some.inj heq).symm)
  bound_stored := h.bound_stored
  parent_stored := h.parent_stored
  ranked := h.ranked
  listed := h.listed
  nodup := h.nodup
  tight := h.tight

theorem lookup_setEntry (s : ContextStore) (m k : EvaluatedPrefixId) (entry : MappingEntry) :
    (s.setEntry m entry).mappings.lookup k =
      if k = m then some entry else s.mappings.lookup k :=
  AList.lookup_insert_ite m k entry s.mappings

theorem childrenOf_insert_same (mappings : Mappings) (m k : EvaluatedPrefixId)
    (e e' : MappingEntry) (hm : mappings.lookup m = some e) (hmapping : e'.mapping = e.mapping) :
    childrenOf (mappings.insert m e') k = childrenOf mappings k := by
  unfold childrenOf
  rw [AList.total_insert, AList.total_erase _ mappings m e hm, hmapping]

/-- Every stored mapping keeps its content when one entry changes only its counts. -/
theorem mapping_setEntry (s : ContextStore) (m k : EvaluatedPrefixId) (e e' : MappingEntry)
    (hm : s.mappings.lookup m = some e) (hmapping : e'.mapping = e.mapping) :
    ((s.setEntry m e').mappings.lookup k).map MappingEntry.mapping =
      (s.mappings.lookup k).map MappingEntry.mapping := by
  rw [lookup_setEntry]
  by_cases hk : k = m
  · subst hk
    rw [if_pos rfl, hm, Option.map_some, Option.map_some, hmapping]
  · rw [if_neg hk]

theorem exists_entry_setEntry (s : ContextStore) (m k : EvaluatedPrefixId) (e e' d : MappingEntry)
    (hm : s.mappings.lookup m = some e) (hmapping : e'.mapping = e.mapping)
    (hk : (s.setEntry m e').mappings.lookup k = some d) :
    ∃ c, s.mappings.lookup k = some c ∧ c.mapping = d.mapping := by
  have h := mapping_setEntry s m k e e' hm hmapping
  rw [hk, Option.map_some] at h
  cases hc : s.mappings.lookup k with
  | none => rw [hc] at h; cases h
  | some c =>
    rw [hc] at h
    exact ⟨c, rfl, (Option.some.inj h).symm⟩

theorem lookup_setEntry_eq_none (s : ContextStore) (m k : EvaluatedPrefixId) (e e' : MappingEntry)
    (hm : s.mappings.lookup m = some e) :
    (s.setEntry m e').mappings.lookup k = none ↔ s.mappings.lookup k = none := by
  rw [lookup_setEntry]
  by_cases hk : k = m
  · subst hk
    simp [hm]
  · rw [if_neg hk]

/-- Writing new counts for one mapping moves `bound` at that mapping and nothing else. -/
theorem Catalogued.setEntry {s : ContextStore} {bound bound' : EvaluatedPrefixId → ℕ}
    (h : Catalogued s bound none) (m : EvaluatedPrefixId) (e e' : MappingEntry)
    (hm : s.mappings.lookup m = some e) (hmapping : e'.mapping = e.mapping)
    (hdependents : e'.references.dependents = e.references.dependents)
    (hcontexts : e'.references.contexts = bound' m)
    (hother : ∀ k, k ≠ m → bound' k = bound k) :
    Catalogued (s.setEntry m e') bound' (some m) where
  keyed := by
    intro k d hk
    obtain ⟨c, hc, heq⟩ := exists_entry_setEntry s m k e e' d hm hmapping hk
    rw [← heq]
    exact h.keyed k c hc
  contexts_eq := by
    intro k d hk
    rw [lookup_setEntry] at hk
    by_cases hkm : k = m
    · rw [if_pos hkm] at hk
      cases hk
      rw [hkm, hcontexts]
    · rw [if_neg hkm] at hk
      rw [hother k hkm]
      exact h.contexts_eq k d hk
  dependents_eq := by
    intro k d hk
    have hsame := childrenOf_insert_same s.mappings m k e e' hm hmapping
    change d.references.dependents = childrenOf (s.mappings.insert m e') k
    rw [hsame]
    rw [lookup_setEntry] at hk
    by_cases hkm : k = m
    · rw [if_pos hkm] at hk
      cases hk
      rw [hdependents, hkm]
      exact h.dependents_eq m e hm
    · rw [if_neg hkm] at hk
      exact h.dependents_eq k d hk
  used := by
    intro k d hk hslack
    rw [lookup_setEntry] at hk
    have hkm : k ≠ m := fun heq => hslack (congrArg some heq.symm)
    rw [if_neg hkm] at hk
    exact h.used k d hk (by simp)
  bound_stored := by
    intro k hk
    rw [Ne, lookup_setEntry_eq_none s m k e e' hm]
    by_cases hkm : k = m
    · rw [hkm, hm]
      exact Option.some_ne_none e
    · rw [hother k hkm] at hk
      exact h.bound_stored k hk
  parent_stored := by
    intro k d p hk hp
    obtain ⟨c, hc, heq⟩ := exists_entry_setEntry s m k e e' d hm hmapping hk
    rw [Ne, lookup_setEntry_eq_none s m p e e' hm]
    exact h.parent_stored k c p hc (by rw [heq, hp])
  ranked := by
    obtain ⟨rank, hrank⟩ := h.ranked
    refine ⟨rank, ?_⟩
    intro k d p hk hp
    obtain ⟨c, hc, heq⟩ := exists_entry_setEntry s m k e e' d hm hmapping hk
    exact hrank k c p hc (by rw [heq, hp])
  listed := by
    intro key n k
    rw [filed_congr s (s.setEntry m e') key n k (mapping_setEntry s m k e e' hm hmapping)]
    exact h.listed key n k
  nodup := h.nodup
  tight := h.tight

def dropParentReference (e : MappingEntry) : MappingEntry :=
  { e with references := e.references.dropDependent }

theorem lookup_dropMapping (s : ContextStore) (m k : EvaluatedPrefixId) (removed : MappingEntry) :
    (s.dropMapping m removed).mappings.lookup k =
      if k = m then none
      else if removed.mapping.parent = some k then
        (s.mappings.lookup k).map dropParentReference
      else s.mappings.lookup k := by
  unfold dropMapping
  cases hparent : removed.mapping.parent with
  | none =>
    simp only [AList.lookup_erase_ite]
    by_cases hk : k = m
    · rw [if_pos hk, if_pos hk]
    · simp [hk]
  | some p =>
    simp only [AList.lookup_modify, AList.lookup_erase_ite, Option.some.injEq]
    by_cases hk : k = m
    · rw [if_pos hk, if_pos hk]
      split <;> rfl
    · rw [if_neg hk, if_neg hk]
      by_cases hp : p = k
      · rw [if_pos hp, if_pos hp.symm]
        rfl
      · rw [if_neg hp, if_neg (fun h => hp h.symm)]

theorem entry_of_dropMapping (s : ContextStore) (m k : EvaluatedPrefixId)
    (removed d : MappingEntry) (hd : (s.dropMapping m removed).mappings.lookup k = some d) :
    k ≠ m ∧ ∃ c, s.mappings.lookup k = some c ∧
      d = if removed.mapping.parent = some k then dropParentReference c else c := by
  rw [lookup_dropMapping] at hd
  by_cases hk : k = m
  · rw [if_pos hk] at hd
    cases hd
  · rw [if_neg hk] at hd
    refine ⟨hk, ?_⟩
    by_cases hp : removed.mapping.parent = some k
    · rw [if_pos hp] at hd
      obtain ⟨c, hc, hcd⟩ := Option.map_eq_some_iff.mp hd
      exact ⟨c, hc, by rw [if_pos hp, hcd]⟩
    · rw [if_neg hp] at hd
      exact ⟨d, hd, by rw [if_neg hp]⟩

theorem mapping_of_dropMapping (s : ContextStore) (m k : EvaluatedPrefixId)
    (removed d : MappingEntry) (hd : (s.dropMapping m removed).mappings.lookup k = some d) :
    k ≠ m ∧ ∃ c, s.mappings.lookup k = some c ∧ c.mapping = d.mapping ∧
      c.references.contexts = d.references.contexts := by
  obtain ⟨hk, c, hc, hcd⟩ := entry_of_dropMapping s m k removed d hd
  refine ⟨hk, c, hc, ?_⟩
  rw [hcd]
  split <;> exact ⟨rfl, rfl⟩

theorem mapping_dropMapping (s : ContextStore) (m k : EvaluatedPrefixId) (removed : MappingEntry)
    (hk : k ≠ m) : ((s.dropMapping m removed).mappings.lookup k).map MappingEntry.mapping =
      (s.mappings.lookup k).map MappingEntry.mapping := by
  rw [lookup_dropMapping, if_neg hk]
  split
  · rw [Option.map_map]
    rfl
  · rfl

theorem lookup_dropMapping_eq_none (s : ContextStore) (m k : EvaluatedPrefixId)
    (removed : MappingEntry) :
    (s.dropMapping m removed).mappings.lookup k = none ↔ k = m ∨ s.mappings.lookup k = none := by
  rw [lookup_dropMapping]
  by_cases hk : k = m
  · simp [hk]
  · rw [if_neg hk]
    split <;> simp [hk]

theorem total_modify_same {κ ν : Type} [DecidableEq κ] (f : κ → ν → ℕ) (g : ν → ν)
    (t : Table κ ν) (k : κ) (h : ∀ v, f k (g v) = f k v) : (t.modify k g).total f = t.total f := by
  cases hk : t.lookup k with
  | none =>
    unfold AList.modify
    rw [hk]
  | some v =>
    have hmod := AList.total_modify f g t k v hk
    rw [h v] at hmod
    exact Nat.add_right_cancel hmod

theorem childrenOf_dropMapping (s : ContextStore) (m k : EvaluatedPrefixId)
    (removed : MappingEntry) (hm : s.mappings.lookup m = some removed) :
    childrenOf s.mappings k = (if removed.mapping.parent = some k then 1 else 0) +
      childrenOf (s.dropMapping m removed).mappings k := by
  have herase := AList.total_erase
    (fun _ (e : MappingEntry) => if e.mapping.parent = some k then 1 else 0) s.mappings m removed hm
  have hdrop : childrenOf (s.dropMapping m removed).mappings k =
      childrenOf (s.mappings.erase m) k := by
    unfold dropMapping childrenOf
    cases removed.mapping.parent with
    | none => rfl
    | some p => exact total_modify_same _ _ _ _ (fun _ => rfl)
  rw [hdrop]
  exact herase

/-- A mapping without dependents is the parent of no stored mapping. -/
theorem Catalogued.childless {s : ContextStore} {bound : EvaluatedPrefixId → ℕ}
    {slack : Option EvaluatedPrefixId} (h : Catalogued s bound slack) (m : EvaluatedPrefixId)
    (e : MappingEntry) (hm : s.mappings.lookup m = some e) (hzero : e.references.dependents = 0)
    (k : EvaluatedPrefixId) (d : MappingEntry) (hk : s.mappings.lookup k = some d) :
    d.mapping.parent ≠ some m := by
  have hchildren := h.dependents_eq m e hm
  rw [hzero] at hchildren
  intro hparent
  have := (AList.total_eq_zero_iff _ _).mp hchildren.symm k d hk
  simp [hparent] at this

/-- A parent counts at least the child that is about to be removed. -/
theorem Catalogued.dependents_pos {s : ContextStore} {bound : EvaluatedPrefixId → ℕ}
    {slack : Option EvaluatedPrefixId} (h : Catalogued s bound slack) (m p : EvaluatedPrefixId)
    (e d : MappingEntry) (hm : s.mappings.lookup m = some e) (hparent : e.mapping.parent = some p)
    (hp : s.mappings.lookup p = some d) : 0 < d.references.dependents := by
  rw [h.dependents_eq p d hp]
  have hle := AList.le_total
    (fun _ (e : MappingEntry) => if e.mapping.parent = some p then 1 else 0) s.mappings m e hm
  simp only [hparent, if_true] at hle
  exact hle

/-- Removing the slack mapping moves the slack to its parent. -/
theorem Catalogued.dropMapping {s : ContextStore} {bound : EvaluatedPrefixId → ℕ}
    (m : EvaluatedPrefixId) (h : Catalogued s bound (some m)) (removed : MappingEntry)
    (hm : s.mappings.lookup m = some removed) (hzero : removed.references = ⟨0, 0, 0⟩) :
    Catalogued (s.dropMapping m removed) bound removed.mapping.parent where
  keyed := by
    intro k d hd
    obtain ⟨_, c, hc, heq, _⟩ := mapping_of_dropMapping s m k removed d hd
    rw [← heq]
    exact h.keyed k c hc
  contexts_eq := by
    intro k d hd
    obtain ⟨_, c, hc, _, heq⟩ := mapping_of_dropMapping s m k removed d hd
    rw [← heq]
    exact h.contexts_eq k c hc
  dependents_eq := by
    intro k d hd
    obtain ⟨_, c, hc, heq⟩ := entry_of_dropMapping s m k removed d hd
    have hcount := childrenOf_dropMapping s m k removed hm
    have hold := h.dependents_eq k c hc
    rw [heq]
    by_cases hp : removed.mapping.parent = some k
    · rw [if_pos hp] at hcount
      rw [if_pos hp]
      change c.references.dependents - 1 = _
      omega
    · rw [if_neg hp] at hcount
      rw [if_neg hp]
      omega
  used := by
    intro k d hd hslack
    obtain ⟨hk, c, hc, heq⟩ := entry_of_dropMapping s m k removed d hd
    rw [if_neg hslack] at heq
    rw [heq]
    exact h.used k c hc (fun hs => hk (Option.some.inj hs).symm)
  bound_stored := by
    intro k hk
    rw [Ne, lookup_dropMapping_eq_none]
    rintro (rfl | hnone)
    · have := h.contexts_eq k removed hm
      rw [hzero] at this
      simp only at this
      omega
    · exact h.bound_stored k hk hnone
  parent_stored := by
    intro k d p hd hp
    obtain ⟨_, c, hc, heq, _⟩ := mapping_of_dropMapping s m k removed d hd
    rw [← heq] at hp
    rw [Ne, lookup_dropMapping_eq_none]
    rintro (rfl | hnone)
    · exact h.childless p removed hm (by rw [hzero]) k c hc hp
    · exact h.parent_stored k c p hc hp hnone
  ranked := by
    obtain ⟨rank, hrank⟩ := h.ranked
    refine ⟨rank, ?_⟩
    intro k d p hd hp
    obtain ⟨_, c, hc, heq, _⟩ := mapping_of_dropMapping s m k removed d hd
    exact hrank k c p hc (by rw [heq, hp])
  listed := by
    intro key n k
    have hindex : (s.dropMapping m removed).prefixIndex =
        removeFromIndex s.prefixIndex removed.mapping m := rfl
    rw [hindex, bucket_removeFromIndex]
    by_cases hkm : k = m
    · subst hkm
      have hgone : ¬ Filed (s.dropMapping k removed) key n k := by
        rintro ⟨e, he, _⟩
        rw [lookup_dropMapping, if_pos rfl] at he
        cases he
      rw [iff_false_right hgone]
      split
      · simp
      · rename_i hne
        rw [h.listed]
        rintro ⟨c, hc, hkey, hn⟩
        rw [hm] at hc
        cases hc
        exact hne ⟨hkey.symm, hn.symm⟩
    · have hmem : k ∈ (if key = removed.mapping.epochKey ∧ n = removed.mapping.representedEnd then
            (bucket s.prefixIndex key n).filter (fun candidate => candidate ≠ m)
          else bucket s.prefixIndex key n) ↔ k ∈ bucket s.prefixIndex key n := by
        split
        · simp [hkm]
        · rfl
      rw [hmem, h.listed, filed_congr s _ key n k (mapping_dropMapping s m k removed hkm)]
  nodup := by
    intro key n
    have hindex : (s.dropMapping m removed).prefixIndex =
        removeFromIndex s.prefixIndex removed.mapping m := rfl
    rw [hindex, bucket_removeFromIndex]
    split
    · exact (h.nodup key n).filter _
    · exact h.nodup key n
  tight := tight_removeFromIndex s.prefixIndex removed.mapping m h.tight

end Cusco.StoreReferences
