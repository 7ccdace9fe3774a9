import Cusco.LogicalStore

/-!
The two-level prefix index of the context store, read through its buckets. A
bucket is the list of mappings filed under an epoch key and a represented length;
a missing key or length reads as the empty bucket. Pushing and removing change
one bucket, and removal leaves no empty bucket behind.
-/

namespace Cusco.PrefixIndex

open LogicalStore LogicalStore.ContextStore

def bucket (index : PrefixIndex) (key : MappingEpochKey) (n : ℕ) : List EvaluatedPrefixId :=
  ((index.lookup key).bind (fun lengths => lengths.lookup n)).getD []

/-- No epoch key without lengths and no length without mappings. -/
def Tight (index : PrefixIndex) : Prop :=
  ∀ key lengths, index.lookup key = some lengths →
    lengths.entries ≠ [] ∧ ∀ n ids, lengths.lookup n = some ids → ids ≠ []

theorem lookup_of_mem_bucket (index : PrefixIndex) (key : MappingEpochKey) (n : ℕ)
    (m : EvaluatedPrefixId) (h : m ∈ bucket index key n) :
    ∃ lengths ids, index.lookup key = some lengths ∧ lengths.lookup n = some ids ∧ m ∈ ids := by
  unfold bucket at h
  cases hkey : index.lookup key with
  | none => simp [hkey] at h
  | some lengths =>
    cases hn : lengths.lookup n with
    | none => simp [hkey, hn] at h
    | some ids => exact ⟨lengths, ids, rfl, hn, by simpa [hkey, hn] using h⟩

theorem lookup_eq_none_of_entries (lengths : Table ℕ (List EvaluatedPrefixId)) (n : ℕ)
    (h : lengths.entries = []) : lengths.lookup n = none := by
  have hempty : lengths = ∅ := AList.ext h
  rw [hempty]
  exact AList.lookup_empty n

theorem bucket_eq_getD (index : PrefixIndex) (key : MappingEpochKey) (n : ℕ) :
    bucket index key n = (((index.lookup key).getD ∅).lookup n).getD [] := by
  unfold bucket
  cases index.lookup key with
  | none => rw [Option.getD_none, AList.lookup_empty]; rfl
  | some lengths => rfl

theorem bucket_pushIndex (index : PrefixIndex) (mapping : EvaluatedPrefix)
    (id : EvaluatedPrefixId) (key : MappingEpochKey) (n : ℕ) :
    bucket (pushIndex index mapping id) key n =
      if key = mapping.epochKey ∧ n = mapping.representedEnd then bucket index key n ++ [id]
      else bucket index key n := by
  simp only [bucket_eq_getD]
  unfold pushIndex
  rw [AList.lookup_insert_ite]
  by_cases hkey : key = mapping.epochKey
  · subst hkey
    rw [if_pos rfl, Option.getD_some, AList.lookup_insert_ite]
    by_cases hn : n = mapping.representedEnd
    · subst hn
      rw [if_pos rfl, if_pos ⟨rfl, rfl⟩, Option.getD_some]
    · rw [if_neg hn, if_neg (fun h => hn h.2)]
  · rw [if_neg hkey, if_neg (fun h => hkey h.1)]

theorem tight_pushIndex (index : PrefixIndex) (mapping : EvaluatedPrefix)
    (id : EvaluatedPrefixId) (h : Tight index) : Tight (pushIndex index mapping id) := by
  intro key lengths hlookup
  unfold pushIndex at hlookup
  rw [AList.lookup_insert_ite] at hlookup
  by_cases hkey : key = mapping.epochKey
  · rw [if_pos hkey] at hlookup
    cases hlookup
    refine ⟨?_, ?_⟩
    · rw [AList.entries_insert]
      simp
    · intro n ids hn
      rw [AList.lookup_insert_ite] at hn
      by_cases hend : n = mapping.representedEnd
      · rw [if_pos hend] at hn
        cases hn
        simp
      · rw [if_neg hend] at hn
        cases hold : index.lookup mapping.epochKey with
        | none => simp [hold] at hn
        | some old =>
          rw [hold] at hn
          exact (h _ old hold).2 n ids hn
  · rw [if_neg hkey] at hlookup
    exact h key lengths hlookup

theorem lookup_trimLengths (lengths : Table ℕ (List EvaluatedPrefixId)) (n k : ℕ)
    (id : EvaluatedPrefixId) :
    ((trimLengths lengths n id).lookup k).getD [] =
      if k = n then ((lengths.lookup k).getD []).filter (fun candidate => candidate ≠ id)
      else (lengths.lookup k).getD [] := by
  unfold trimLengths
  cases hn : lengths.lookup n with
  | none =>
    by_cases hk : k = n
    · subst k
      simp [hn]
    · simp [hk]
  | some ids =>
    by_cases hk : k = n
    · subst k
      simp only [hn, Option.getD_some, if_true]
      generalize ids.filter (fun candidate => decide (candidate ≠ id)) = kept
      by_cases hnil : kept = []
      · rw [if_pos hnil, hnil, AList.lookup_erase]
        rfl
      · rw [if_neg hnil, AList.lookup_insert]
        rfl
    · simp only [if_neg hk]
      split
      · rw [AList.lookup_erase_ite, if_neg hk]
      · rw [AList.lookup_insert_ite, if_neg hk]

theorem bucket_removeFromIndex (index : PrefixIndex) (mapping : EvaluatedPrefix)
    (id : EvaluatedPrefixId) (key : MappingEpochKey) (n : ℕ) :
    bucket (removeFromIndex index mapping id) key n =
      if key = mapping.epochKey ∧ n = mapping.representedEnd then
        (bucket index key n).filter (fun candidate => candidate ≠ id)
      else bucket index key n := by
  cases hkey : index.lookup mapping.epochKey with
  | none =>
    unfold removeFromIndex bucket
    rw [hkey]
    by_cases h : key = mapping.epochKey ∧ n = mapping.representedEnd
    · rw [if_pos h, h.1, hkey]
      rfl
    · rw [if_neg h]
  | some lengths =>
    have hremove : removeFromIndex index mapping id =
        if (trimLengths lengths mapping.representedEnd id).entries = [] then
          index.erase mapping.epochKey
        else index.insert mapping.epochKey (trimLengths lengths mapping.representedEnd id) := by
      unfold removeFromIndex
      rw [hkey]
    rw [hremove]
    have htrim := lookup_trimLengths lengths mapping.representedEnd n id
    by_cases hk : key = mapping.epochKey
    · subst hk
      have hold : bucket index mapping.epochKey n = (lengths.lookup n).getD [] := by
        simp [bucket, hkey]
      have hnew : bucket (if (trimLengths lengths mapping.representedEnd id).entries = [] then
            index.erase mapping.epochKey
          else index.insert mapping.epochKey (trimLengths lengths mapping.representedEnd id))
          mapping.epochKey n =
          ((trimLengths lengths mapping.representedEnd id).lookup n).getD [] := by
        split
        · rename_i hnil
          rw [lookup_eq_none_of_entries _ n hnil]
          simp [bucket]
        · simp [bucket]
      rw [hnew, hold, htrim]
      simp
    · have hsame : bucket (if (trimLengths lengths mapping.representedEnd id).entries = [] then
            index.erase mapping.epochKey
          else index.insert mapping.epochKey (trimLengths lengths mapping.representedEnd id))
          key n = bucket index key n := by
        split
        · simp [bucket, hk]
        · simp [bucket, hk]
      rw [hsame]
      simp [hk]

theorem tight_removeFromIndex (index : PrefixIndex) (mapping : EvaluatedPrefix)
    (id : EvaluatedPrefixId) (h : Tight index) : Tight (removeFromIndex index mapping id) := by
  cases hkey : index.lookup mapping.epochKey with
  | none =>
    unfold removeFromIndex
    rw [hkey]
    exact h
  | some lengths =>
    have hfull : ∀ n ids, (trimLengths lengths mapping.representedEnd id).lookup n = some ids →
        ids ≠ [] := by
      intro n ids hn
      unfold trimLengths at hn
      cases hend : lengths.lookup mapping.representedEnd with
      | none =>
        rw [hend] at hn
        exact (h _ lengths hkey).2 n ids hn
      | some old =>
        rw [hend] at hn
        simp only at hn
        split at hn
        · rw [AList.lookup_erase_ite] at hn
          split at hn
          · cases hn
          · exact (h _ lengths hkey).2 n ids hn
        · rename_i hne
          rw [AList.lookup_insert_ite] at hn
          split at hn
          · cases hn
            exact hne
          · exact (h _ lengths hkey).2 n ids hn
    intro key lengths' hlookup
    unfold removeFromIndex at hlookup
    simp only [hkey] at hlookup
    split at hlookup
    · rw [AList.lookup_erase_ite] at hlookup
      split at hlookup
      · cases hlookup
      · exact h key lengths' hlookup
    · rename_i hne
      rw [AList.lookup_insert_ite] at hlookup
      split at hlookup
      · cases hlookup
        exact ⟨hne, hfull⟩
      · exact h key lengths' hlookup

end Cusco.PrefixIndex
