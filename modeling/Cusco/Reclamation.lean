import Cusco.StoreReferences

/-!
Reclamation. Giving up one reference leaves at most one mapping without
references; the loop removes it, its parent if that was the last child, and so
on. The removed mappings are those the given reference was the only support of:
each has a single reference left, the one through the mapping removed before it.
-/

namespace Cusco.Reclamation

open LogicalStore LogicalStore.ContextStore PrefixIndex StoreReferences

/-- Mappings may be gone and counts may be lower; contexts and contents are as before. -/
structure Shrunk (s s' : ContextStore) : Prop where
  nextContext : s'.nextContext = s.nextContext
  contexts : s'.contexts = s.contexts
  kept : ∀ m e', s'.mappings.lookup m = some e' → ∃ e, s.mappings.lookup m = some e ∧
    e'.mapping = e.mapping

theorem Shrunk.refl (s : ContextStore) : Shrunk s s :=
  ⟨rfl, rfl, fun _ e' h => ⟨e', h, rfl⟩⟩

theorem Shrunk.trans {a b c : ContextStore} (hab : Shrunk a b) (hbc : Shrunk b c) :
    Shrunk a c where
  nextContext := hbc.nextContext.trans hab.nextContext
  contexts := hbc.contexts.trans hab.contexts
  kept := by
    intro m e' he'
    obtain ⟨e, he, heq⟩ := hbc.kept m e' he'
    obtain ⟨d, hd, hde⟩ := hab.kept m e he
    exact ⟨d, hd, heq.trans hde⟩

theorem shrunk_dropMapping (s : ContextStore) (m : EvaluatedPrefixId) (removed : MappingEntry) :
    Shrunk s (s.dropMapping m removed) where
  nextContext := rfl
  contexts := rfl
  kept := by
    intro k d hd
    obtain ⟨_, c, hc, heq, _⟩ := mapping_of_dropMapping s m k removed d hd
    exact ⟨c, hc, heq.symm⟩

theorem shrunk_reclaimLoop (fuel : ℕ) (s : ContextStore) (candidate : Option EvaluatedPrefixId) :
    Shrunk s (reclaimLoop fuel s candidate) := by
  induction fuel generalizing s candidate with
  | zero => exact Shrunk.refl s
  | succ fuel ih =>
    cases candidate with
    | none => exact Shrunk.refl s
    | some m =>
      simp only [reclaimLoop]
      split
      · exact Shrunk.refl s
      · rename_i entry _
        split
        · exact (shrunk_dropMapping s m entry).trans (ih _ _)
        · exact Shrunk.refl s

theorem shrunk_reclaim (s : ContextStore) (m : EvaluatedPrefixId) : Shrunk s (s.reclaim m) :=
  shrunk_reclaimLoop _ s (some m)

theorem length_dropMapping (s : ContextStore) (m : EvaluatedPrefixId) (removed : MappingEntry)
    (hm : s.mappings.lookup m = some removed) :
    (s.dropMapping m removed).mappings.entries.length + 1 = s.mappings.entries.length := by
  have hlength : ∀ t : Mappings, t.entries.length = t.total (fun _ _ => 1) := by
    intro t
    simp [AList.total]
  have hdrop : (s.dropMapping m removed).mappings.total (fun _ _ => 1) =
      (s.mappings.erase m).total (fun _ _ => 1) := by
    unfold dropMapping
    cases removed.mapping.parent with
    | none => rfl
    | some p => exact total_modify_same _ _ _ _ (fun _ => rfl)
  rw [hlength, hlength, hdrop, AList.total_erase _ s.mappings m removed hm]
  omega

/-- The loop ends with every stored mapping referenced. -/
theorem catalogued_reclaimLoop (fuel : ℕ) (s : ContextStore) (bound : EvaluatedPrefixId → ℕ)
    (candidate : Option EvaluatedPrefixId) (h : Catalogued s bound candidate)
    (hfuel : s.mappings.entries.length < fuel) :
    Catalogued (reclaimLoop fuel s candidate) bound none := by
  induction fuel generalizing s candidate with
  | zero => omega
  | succ fuel ih =>
    cases candidate with
    | none => exact h
    | some m =>
      simp only [reclaimLoop]
      cases hm : s.mappings.lookup m with
      | none =>
        refine h.no_slack ?_
        intro e he
        rw [hm] at he
        cases he
      | some entry =>
        by_cases hzero : entry.references = ⟨0, 0, 0⟩
        · simp only [if_pos hzero]
          refine ih _ _ (h.dropMapping m entry hm hzero) ?_
          have := length_dropMapping s m entry hm
          omega
        · simp only [if_neg hzero]
          refine h.no_slack ?_
          intro e he
          rw [hm] at he
          cases he
          exact hzero

theorem catalogued_reclaim (s : ContextStore) (bound : EvaluatedPrefixId → ℕ)
    (m : EvaluatedPrefixId) (h : Catalogued s bound (some m)) :
    Catalogued (s.reclaim m) bound none :=
  catalogued_reclaimLoop _ s bound (some m) h (Nat.lt_succ_self _)

def SoleReference (s : ContextStore) (m : EvaluatedPrefixId) : Prop :=
  ∃ e, s.mappings.lookup m = some e ∧ e.references.catalog = 0 ∧
    e.references.contexts + e.references.dependents = 1

/-- `a` has a single reference and `b` is its parent. -/
def SoleParent (s : ContextStore) (a b : EvaluatedPrefixId) : Prop :=
  SoleReference s a ∧ ∃ e, s.mappings.lookup a = some e ∧ e.mapping.parent = some b

/-- The single reference of `old` is, through single children, all that holds `m`. -/
def HeldOnlyThrough (s : ContextStore) (old m : EvaluatedPrefixId) : Prop :=
  Relation.ReflTransGen (SoleParent s) old m ∧ SoleReference s m

/-- What the loop removes when it starts at `c`. -/
def Given (s : ContextStore) (c m : EvaluatedPrefixId) : Prop :=
  ∃ e, s.mappings.lookup c = some e ∧ e.references = ⟨0, 0, 0⟩ ∧
    (m = c ∨ ∃ p, e.mapping.parent = some p ∧ HeldOnlyThrough s p m)

theorem soleReference_congr (s s' : ContextStore) (m : EvaluatedPrefixId)
    (h : s'.mappings.lookup m = s.mappings.lookup m) : SoleReference s' m ↔ SoleReference s m := by
  unfold SoleReference
  rw [h]

theorem soleParent_congr (s s' : ContextStore) (a b : EvaluatedPrefixId)
    (h : s'.mappings.lookup a = s.mappings.lookup a) : SoleParent s' a b ↔ SoleParent s a b := by
  unfold SoleParent
  rw [soleReference_congr s s' a h, h]

/-- Chains of sole parents stay below their start, so they cannot see a change
of entries that rank higher. -/
theorem heldOnlyThrough_congr (s s' : ContextStore) (rank : EvaluatedPrefixId → ℕ)
    (hrank : ∀ m e p, s.mappings.lookup m = some e → e.mapping.parent = some p → rank p < rank m)
    (bound : ℕ) (hsame : ∀ m, rank m < bound → s'.mappings.lookup m = s.mappings.lookup m)
    (a m : EvaluatedPrefixId) (ha : rank a < bound) :
    HeldOnlyThrough s' a m ↔ HeldOnlyThrough s a m := by
  induction hn : rank a using Nat.strong_induction_on generalizing a with
  | _ n ih =>
    subst hn
    have hbelow : ∀ b, SoleParent s a b → rank b < rank a := by
      rintro b ⟨_, e, he, hb⟩
      exact hrank a e b he hb
    constructor
    · rintro ⟨hchain, hm⟩
      rcases Relation.ReflTransGen.cases_head hchain with rfl | ⟨b, hab, hbm⟩
      · exact ⟨Relation.ReflTransGen.refl, (soleReference_congr s s' a (hsame a ha)).mp hm⟩
      · have hab' := (soleParent_congr s s' a b (hsame a ha)).mp hab
        have hb := hbelow b hab'
        have hrest := (ih (rank b) hb b (hb.trans ha) rfl).mp ⟨hbm, hm⟩
        exact ⟨Relation.ReflTransGen.head hab' hrest.1, hrest.2⟩
    · rintro ⟨hchain, hm⟩
      rcases Relation.ReflTransGen.cases_head hchain with rfl | ⟨b, hab, hbm⟩
      · exact ⟨Relation.ReflTransGen.refl, (soleReference_congr s s' a (hsame a ha)).mpr hm⟩
      · have hb := hbelow b hab
        have hrest := (ih (rank b) hb b (hb.trans ha) rfl).mpr ⟨hbm, hm⟩
        exact ⟨Relation.ReflTransGen.head
          ((soleParent_congr s s' a b (hsame a ha)).mpr hab) hrest.1, hrest.2⟩

/-- Taking one reference from `x` leaves to be removed what only that reference held. -/
theorem given_iff_heldOnlyThrough (s s' : ContextStore) (rank : EvaluatedPrefixId → ℕ)
    (hrank : ∀ m e p, s.mappings.lookup m = some e → e.mapping.parent = some p → rank p < rank m)
    (x m : EvaluatedPrefixId) (hsame : ∀ k, rank k < rank x →
      s'.mappings.lookup k = s.mappings.lookup k) (e e' : MappingEntry)
    (he : s.mappings.lookup x = some e) (he' : s'.mappings.lookup x = some e')
    (hmapping : e'.mapping = e.mapping) (hcatalog : e'.references.catalog = e.references.catalog)
    (hcount : e'.references.contexts + e'.references.dependents + 1 =
      e.references.contexts + e.references.dependents) :
    Given s' x m ↔ HeldOnlyThrough s x m := by
  have hsole : SoleReference s x ↔ e'.references = ⟨0, 0, 0⟩ := by
    constructor
    · rintro ⟨d, hd, hzero, hone⟩
      rw [he] at hd
      cases hd
      exact (references_eq_zero_iff _).mpr ⟨by omega, by omega, by omega⟩
    · intro hzero
      obtain ⟨hcat, hctx, hdep⟩ := (references_eq_zero_iff _).mp hzero
      exact ⟨e, he, by omega, by omega⟩
  have hparent : ∀ p, e.mapping.parent = some p →
      (HeldOnlyThrough s' p m ↔ HeldOnlyThrough s p m) := by
    intro p hp
    exact heldOnlyThrough_congr s s' rank hrank (rank x) hsame p m (hrank x e p he hp)
  constructor
  · rintro ⟨d, hd, hzero, hrest⟩
    rw [he'] at hd
    cases hd
    have hx := hsole.mpr hzero
    rcases hrest with rfl | ⟨p, hp, hheld⟩
    · exact ⟨Relation.ReflTransGen.refl, hx⟩
    · rw [hmapping] at hp
      have hold := (hparent p hp).mp hheld
      exact ⟨Relation.ReflTransGen.head ⟨hx, e, he, hp⟩ hold.1, hold.2⟩
  · rintro ⟨hchain, hm⟩
    rcases Relation.ReflTransGen.cases_head hchain with rfl | ⟨p, ⟨hx, d, hd, hp⟩, hpm⟩
    · exact ⟨e', he', hsole.mp hm, Or.inl rfl⟩
    · rw [he] at hd
      cases hd
      exact ⟨e', he', hsole.mp hx, Or.inr ⟨p, by rw [hmapping, hp],
        (hparent p hp).mpr ⟨hpm, hm⟩⟩⟩

/-- A mapping is missing after the loop exactly when it was missing before or
the loop was bound to remove it. -/
theorem lookup_reclaimLoop_eq_none (fuel : ℕ) (s : ContextStore)
    (bound : EvaluatedPrefixId → ℕ) (c m : EvaluatedPrefixId)
    (h : Catalogued s bound (some c)) (hfuel : s.mappings.entries.length < fuel) :
    (reclaimLoop fuel s (some c)).mappings.lookup m = none ↔
      s.mappings.lookup m = none ∨ Given s c m := by
  induction fuel generalizing s c with
  | zero => omega
  | succ fuel ih =>
    simp only [reclaimLoop]
    cases hc : s.mappings.lookup c with
    | none =>
      have hnot : ¬ Given s c m := by
        rintro ⟨e, he, _⟩
        rw [hc] at he
        cases he
      simp [hnot]
    | some entry =>
      by_cases hzero : entry.references = ⟨0, 0, 0⟩
      · simp only [if_pos hzero]
        have hnext := h.dropMapping c entry hc hzero
        have hshorter := length_dropMapping s c entry hc
        have hgiven : Given s c m ↔ m = c ∨ ∃ p, entry.mapping.parent = some p ∧
            HeldOnlyThrough s p m := by
          constructor
          · rintro ⟨e, he, _, hrest⟩
            rw [hc] at he
            cases he
            exact hrest
          · intro hrest
            exact ⟨entry, hc, hzero, hrest⟩
        rw [hgiven]
        cases hparent : entry.mapping.parent with
        | none =>
          have hdone : reclaimLoop fuel (s.dropMapping c entry) none = s.dropMapping c entry := by
            cases fuel <;> rfl
          rw [hdone, lookup_dropMapping_eq_none]
          simp [or_comm]
        | some p =>
          rw [hparent] at hnext
          rw [ih (s.dropMapping c entry) p hnext (by omega), lookup_dropMapping_eq_none]
          obtain ⟨rank, hrank⟩ := h.ranked
          obtain ⟨d, hd⟩ := Option.ne_none_iff_exists'.mp (h.parent_stored c entry p hc hparent)
          have hne : p ≠ c := by
            rintro rfl
            exact absurd (hrank p entry p hc hparent) (lt_irrefl _)
          have hpos := h.dependents_pos c p entry d hc hparent hd
          have hdrop : (s.dropMapping c entry).mappings.lookup p =
              some (dropParentReference d) := by
            rw [lookup_dropMapping, if_neg hne, if_pos hparent, hd]
            rfl
          have hsame : ∀ k, rank k < rank p →
              (s.dropMapping c entry).mappings.lookup k = s.mappings.lookup k := by
            intro k hk
            have hkc : k ≠ c := by
              rintro rfl
              exact absurd (hk.trans (hrank k entry p hc hparent)) (lt_irrefl _)
            have hkp : ¬ entry.mapping.parent = some k := by
              rw [hparent]
              intro heq
              cases heq
              exact absurd hk (lt_irrefl _)
            rw [lookup_dropMapping, if_neg hkc, if_neg hkp]
          have hcount : (dropParentReference d).references.contexts +
              (dropParentReference d).references.dependents + 1 =
              d.references.contexts + d.references.dependents := by
            change d.references.contexts + (d.references.dependents - 1) + 1 = _
            omega
          rw [given_iff_heldOnlyThrough s _ rank hrank p m hsame d _ hd hdrop rfl rfl hcount]
          simp only [Option.some.injEq, exists_eq_left']
          rw [or_comm (a := m = c), or_assoc]
      · simp only [if_neg hzero]
        have hnot : ¬ Given s c m := by
          rintro ⟨e, he, hz, _⟩
          rw [hc] at he
          cases he
          exact hzero hz
        simp [hnot]

end Cusco.Reclamation
