import Cusco.MappingViews

/-!
What each call of the mapping layer does to the view and to the invariant. A call that
enters a mapping into the tables needs a number that is not in use.
-/

namespace Cusco.NativeMappings.World

open Sequences

variable {w : World}

/-- A world without the object and the rows of its mapping. -/
structure Reclaimed (w : World) (p : ℕ) (r : Representation) (w' : World) : Prop where
  objects : ∀ c, w'.objects.lookup c = if c = p then none else w.objects.lookup c
  representations : ∀ k, w'.executor.representations.lookup k =
    if k = r.mapping then none else w.executor.representations.lookup k
  publishedMappings : w'.executor.publishedMappings = w.executor.publishedMappings.erase r.mapping
  mockMapping : w'.executor.mockMappings.lookup r.mapping = none
  others : ∀ k, k ≠ r.mapping → w.Agrees w' k
  prepared : w'.prepared = w.prepared
  activeMapping : w'.executor.activeMapping = w.executor.activeMapping
  nextHandle : w'.nextHandle = w.nextHandle

theorem reclaimed_reclaimRepresentation {p : ℕ} {r : Representation}
    (hobject : w.objects.lookup p = some r) : Reclaimed w p r (w.reclaimRepresentation p) := by
  unfold reclaimRepresentation
  rw [hobject]
  exact ⟨fun _ => AList.lookup_erase_ite _ _ _, fun _ => AList.lookup_erase_ite _ _ _, rfl,
    AList.lookup_erase _ _, fun _ hk => ⟨rfl, rfl, rfl, rfl, AList.lookup_erase_ne hk,
    AList.lookup_erase_ne hk⟩, rfl, rfl, rfl⟩

section Reclaimed

variable {w' : World} {p : ℕ} {r : Representation} (h : w.Inv)
  (hobject : w.objects.lookup p = some r) (hreclaimed : Reclaimed w p r w')

include h hobject hreclaimed

theorem Reclaimed.of_object {c : ℕ} {s : Representation} (hc : w'.objects.lookup c = some s) :
    w.objects.lookup c = some s ∧ s.mapping ≠ r.mapping := by
  rw [hreclaimed.objects] at hc
  by_cases hcp : c = p
  · rw [if_pos hcp] at hc
    cases hc
  · rw [if_neg hcp] at hc
    exact ⟨hc, fun hsame => hcp (h.handle hc hobject hsame)⟩

theorem Reclaimed.of_fork {q : ℕ} {f : PreparedMapping} (hf : w'.prepared.lookup q = some f) :
    w.prepared.lookup q = some f ∧ f.mapping ≠ r.mapping := by
  rw [hreclaimed.prepared] at hf
  refine ⟨hf, ?_⟩
  intro hsame
  have hnone := h.fork q f hf
  rw [hsame, (h.object p r hobject).1] at hnone
  cases hnone

theorem Reclaimed.linked (hinactive : r.mapping ≠ w.executor.activeMapping) : w'.Linked := by
  have hrepresentations := hreclaimed.representations
  refine ⟨?_, ?_, ?_, ?_, ?_, ?_, ?_⟩
  · intro c s hc
    obtain ⟨hc, hmapping⟩ := hreclaimed.of_object h hobject hc
    obtain ⟨hrepresentation, hpublished⟩ := h.object c s hc
    rw [hrepresentations, if_neg hmapping, hreclaimed.publishedMappings]
    exact ⟨hrepresentation, Finset.mem_erase.mpr ⟨hmapping, hpublished⟩⟩
  · intro k c hk
    rw [hrepresentations] at hk
    by_cases hsame : k = r.mapping
    · rw [if_pos hsame] at hk
      cases hk
    · rw [if_neg hsame] at hk
      obtain ⟨s, hs, rfl⟩ := h.representation k c hk
      refine ⟨s, ?_, rfl⟩
      rw [hreclaimed.objects, if_neg, hs]
      rintro rfl
      rw [hobject] at hs
      exact hsame (congrArg Representation.mapping (Option.some.inj hs)).symm
  · intro q f hf
    obtain ⟨hf, hmapping⟩ := hreclaimed.of_fork h hobject hf
    rw [hrepresentations, if_neg hmapping]
    exact h.fork q f hf
  · rw [hreclaimed.prepared]
    exact h.distinct
  · obtain ⟨a, ha⟩ := h.active
    refine ⟨a, ?_⟩
    rw [hreclaimed.activeMapping, hrepresentations, if_neg (Ne.symm hinactive)]
    exact ha
  · intro c s hc
    rw [hreclaimed.nextHandle]
    exact h.object_lt c s (hreclaimed.of_object h hobject hc).1
  · rw [hreclaimed.prepared, hreclaimed.nextHandle]
    exact h.fork_lt

theorem Reclaimed.inv (hinactive : r.mapping ≠ w.executor.activeMapping) : w'.Inv := by
  refine ⟨hreclaimed.linked h hobject hinactive, ?_, ?_, ?_⟩
  · intro c s hc
    obtain ⟨hc, hmapping⟩ := hreclaimed.of_object h hobject hc
    rw [(hreclaimed.others s.mapping hmapping).content]
    exact h.stored c s hc
  · intro q f hf
    obtain ⟨hf, hmapping⟩ := hreclaimed.of_fork h hobject hf
    rw [(hreclaimed.others f.mapping hmapping).content]
    exact h.forked q f hf
  · intro k hk
    by_cases hsame : k = r.mapping
    · rw [hsame]
      exact hreclaimed.mockMapping
    · rw [(hreclaimed.others k hsame).position] at hk
      rw [(hreclaimed.others k hsame).mockMapping]
      exact h.unused k hk

theorem Reclaimed.forks : w'.machine.forks = w.machine.forks := by
  unfold machine
  dsimp only
  funext q
  cases hf : w'.prepared.lookup q with
  | none =>
    rw [hreclaimed.prepared] at hf
    rw [hf]
    rfl
  | some f =>
    obtain ⟨hf, hmapping⟩ := hreclaimed.of_fork h hobject hf
    rw [hf]
    exact (hreclaimed.others f.mapping hmapping).content f.state

theorem Reclaimed.published (hlinked : w'.Linked) {c : ℕ} (hc : c ≠ p) :
    w'.machine.published c = w.machine.published c := by
  rw [hlinked.published, h.published, hreclaimed.objects, if_neg hc]
  cases hs : w.objects.lookup c with
  | none => rfl
  | some s =>
    exact (hreclaimed.others s.mapping
      (fun hsame => hc (h.handle hs hobject hsame))).content s.state

end Reclaimed

/-- A representation that is not active leaves the tables. -/
theorem reclaim_spec (h : w.Inv) {p : ℕ} {r : Representation}
    (hobject : w.objects.lookup p = some r) (hinactive : r.mapping ≠ w.executor.activeMapping) :
    (w.reclaimRepresentation p).Inv ∧
      (w.reclaimRepresentation p).machine.active = w.machine.active ∧
      (w.reclaimRepresentation p).machine.forks = w.machine.forks ∧
      (∀ c, c ≠ p →
        (w.reclaimRepresentation p).machine.published c = w.machine.published c ∧
          (w.reclaimRepresentation p).machine.references c = w.machine.references c) ∧
      (w.reclaimRepresentation p).machine.published p = none ∧
      (w.reclaimRepresentation p).machine.references p = 0 := by
  have hreclaimed := reclaimed_reclaimRepresentation hobject
  generalize w.reclaimRepresentation p = w' at hreclaimed ⊢
  have hinv := hreclaimed.inv h hobject hinactive
  refine ⟨hinv, ?_, hreclaimed.forks h hobject, ?_, ?_, ?_⟩
  · unfold machine
    dsimp only
    rw [hreclaimed.activeMapping, hreclaimed.representations, if_neg (Ne.symm hinactive)]
  · intro c hc
    refine ⟨hreclaimed.published h hobject hinv.toLinked hc, ?_⟩
    unfold machine
    dsimp only
    rw [hreclaimed.objects, if_neg hc]
  · rw [hinv.published, hreclaimed.objects, if_pos rfl]
    rfl
  · unfold machine
    dsimp only
    rw [hreclaimed.objects, if_pos rfl]
    rfl

theorem reclaimRepresentation_codec (w : World) (p : ℕ) :
    (w.reclaimRepresentation p).executor.codec = w.executor.codec := by
  unfold reclaimRepresentation
  cases w.objects.lookup p <;> rfl

theorem reclaim_reclaims (h : w.Inv) {p : ℕ} {r : Representation}
    (hobject : w.objects.lookup p = some r) (hinactive : r.mapping ≠ w.executor.activeMapping)
    (hzero : r.references = 0) :
    (w.reclaimRepresentation p).Inv ∧
      w.machine.Reclaims (w.reclaimRepresentation p).machine := by
  obtain ⟨hinv, hactive, hforks, hothers, hpublished, hreferences⟩ :=
    reclaim_spec h hobject hinactive
  have hnext : (w.reclaimRepresentation p).nextHandle = w.nextHandle := by
    unfold reclaimRepresentation
    rw [hobject]
  refine ⟨hinv, hactive, hforks, hnext, ?_⟩
  intro c
  by_cases hc : c = p
  · subst hc
    refine Or.inr ⟨?_, hpublished, hreferences⟩
    rintro (hlive | hlive)
    · exact hinactive ((h.active_iff hobject).mp hlive)
    · apply hlive
      unfold machine
      dsimp only
      rw [hobject]
      exact hzero
  · exact Or.inl (hothers c hc)

/-- Objects that have no reference and are not active. -/
def Reclaimable (w : World) (p : ℕ) : Prop :=
  ∀ r, w.objects.lookup p = some r →
    r.mapping ≠ w.executor.activeMapping ∧ r.references = 0

theorem reclaims_all (handles : List ℕ) (h : w.Inv) (hhandles : ∀ p ∈ handles, w.Reclaimable p) :
    (handles.foldl reclaimRepresentation w).Inv ∧
      w.machine.Reclaims (handles.foldl reclaimRepresentation w).machine ∧
      (handles.foldl reclaimRepresentation w).executor.codec = w.executor.codec := by
  induction handles generalizing w with
  | nil => exact ⟨h, Machine.Reclaims.refl _, rfl⟩
  | cons p rest ih =>
    rw [List.foldl_cons, ← reclaimRepresentation_codec w p]
    have hrest : ∀ q ∈ rest, (w.reclaimRepresentation p).Reclaimable q := by
      intro q hq
      unfold reclaimRepresentation
      cases hobject : w.objects.lookup p with
      | none => exact hhandles q (List.mem_cons_of_mem _ hq)
      | some r =>
        intro s hs
        change (w.objects.erase p).lookup q = some s at hs
        rw [AList.lookup_erase_ite] at hs
        by_cases heq : q = p
        · rw [if_pos heq] at hs
          cases hs
        · rw [if_neg heq] at hs
          exact hhandles q (List.mem_cons_of_mem _ hq) s hs
    cases hobject : w.objects.lookup p with
    | none =>
      have hsame : w.reclaimRepresentation p = w := by
        unfold reclaimRepresentation
        rw [hobject]
      rw [hsame] at hrest ⊢
      exact ih h hrest
    | some r =>
      obtain ⟨hinactive, hzero⟩ := hhandles p (List.mem_cons_self ..) r hobject
      obtain ⟨hinv, hreclaims⟩ := reclaim_reclaims h hobject hinactive hzero
      obtain ⟨hlast, hmore, hcodec⟩ := ih hinv hrest
      exact ⟨hlast, hreclaims.trans hmore, hcodec⟩

theorem reclaimUnreferenced_spec (h : w.Inv) :
    w.reclaimUnreferencedRepresentations.Inv ∧
      w.machine.Reclaims w.reclaimUnreferencedRepresentations.machine ∧
      w.reclaimUnreferencedRepresentations.executor.codec = w.executor.codec := by
  refine reclaims_all w.reclaimable h ?_
  intro p hp r hobject
  obtain ⟨⟨k, q⟩, hmem, rfl⟩ := List.mem_map.mp hp
  obtain ⟨hentry, hcond⟩ := List.mem_filter.mp hmem
  obtain ⟨hinactive, hzero⟩ := of_decide_eq_true hcond
  rw [AList.mem_entries_iff] at hentry
  obtain ⟨s, hs, rfl⟩ := h.representation k q hentry
  rw [hobject] at hs
  obtain rfl := Option.some.inj hs
  rw [hobject] at hzero
  exact ⟨hinactive, by simpa using hzero⟩

/-- A representation or a fork has the mapping. -/
def Used (w : World) (k : UInt32) : Prop :=
  w.executor.representations.lookup k ≠ none ∨
    ∃ q f, w.prepared.lookup q = some f ∧ f.mapping = k

structure SameTables (w w' : World) : Prop where
  objects : w'.objects = w.objects
  prepared : w'.prepared = w.prepared
  nextHandle : w'.nextHandle = w.nextHandle
  representations : w'.executor.representations = w.executor.representations
  publishedMappings : w'.executor.publishedMappings = w.executor.publishedMappings
  activeMapping : w'.executor.activeMapping = w.executor.activeMapping

theorem Linked.of_same {w w' : World} (h : w.Linked) (hsame : SameTables w w') : w'.Linked := by
  refine ⟨?_, ?_, ?_, ?_, ?_, ?_, ?_⟩
  · rw [hsame.objects, hsame.representations, hsame.publishedMappings]
    exact h.object
  · rw [hsame.objects, hsame.representations]
    exact h.representation
  · rw [hsame.prepared, hsame.representations]
    exact h.fork
  · rw [hsame.prepared]
    exact h.distinct
  · rw [hsame.representations, hsame.activeMapping]
    exact h.active
  · rw [hsame.objects, hsame.nextHandle]
    exact h.object_lt
  · rw [hsame.prepared, hsame.nextHandle]
    exact h.fork_lt

theorem Inv.used_object (h : w.Inv) {p : ℕ} {r : Representation}
    (hobject : w.objects.lookup p = some r) : w.Used r.mapping := by
  refine Or.inl ?_
  rw [(h.object p r hobject).1]
  exact Option.some_ne_none p

theorem Inv.unused_of_free (h : w.Inv) {k : UInt32} (hfree : w.executor.positions.lookup k = none) :
    ¬w.Used k := by
  rintro (hk | ⟨q, f, hf, rfl⟩)
  · exact hk (h.representation_none hfree)
  · obtain ⟨c, hc⟩ := h.forked q f hf
    rw [position_of_content hc] at hfree
    cases hfree

theorem Inv.active_used (h : w.Inv) : w.Used w.executor.activeMapping := by
  obtain ⟨p, hp⟩ := h.active
  refine Or.inl ?_
  rw [hp]
  exact Option.some_ne_none p

/-- A call that changes no row that is in use. -/
theorem frame_spec {w w' : World} (h : w.Inv) (hsame : SameTables w w')
    (hagrees : ∀ k, w.Used k → w.Agrees w' k)
    (hunused : ∀ k, w'.executor.positions.lookup k = none →
      w'.executor.mockMappings.lookup k = none) : w'.Inv ∧ w'.machine = w.machine := by
  have hlinked := h.toLinked.of_same hsame
  have hstored : ∀ p r, w.objects.lookup p = some r →
      w'.content r.mapping r.state = w.content r.mapping r.state :=
    fun p r hp => (hagrees r.mapping (h.used_object hp)).content r.state
  have hforked : ∀ q f, w.prepared.lookup q = some f →
      w'.content f.mapping f.state = w.content f.mapping f.state :=
    fun q f hf => (hagrees f.mapping (Or.inr ⟨q, f, hf, rfl⟩)).content f.state
  refine ⟨⟨hlinked, ?_, ?_, hunused⟩, ?_⟩
  · intro p r hp
    rw [hsame.objects] at hp
    rw [hstored p r hp]
    exact h.stored p r hp
  · intro q f hf
    rw [hsame.prepared] at hf
    rw [hforked q f hf]
    exact h.forked q f hf
  · refine Machine.ext ?_ ?_ ?_ ?_ ?_
    · funext p
      rw [hlinked.published, h.published, hsame.objects]
      cases hp : w.objects.lookup p with
      | none => rfl
      | some r => exact hstored p r hp
    · unfold machine
      dsimp only
      rw [hsame.objects]
    · unfold machine
      dsimp only
      rw [hsame.prepared]
      funext q
      cases hf : w.prepared.lookup q with
      | none => rfl
      | some f => exact hforked q f hf
    · unfold machine
      dsimp only
      rw [hsame.representations, hsame.activeMapping]
    · exact hsame.nextHandle

/-- A call that changes counters and flags only. -/
theorem quiet_spec {w w' : World} (h : w.Inv) (hsame : SameTables w w')
    (hagrees : ∀ k, w.Agrees w' k) : w'.Inv ∧ w'.machine = w.machine := by
  refine frame_spec h hsame (fun k _ => hagrees k) ?_
  intro k hk
  rw [(hagrees k).position] at hk
  rw [(hagrees k).mockMapping]
  exact h.unused k hk

theorem lookup_emplace {κ ν : Type} [DecidableEq κ] (t : Table κ ν) (key c : κ) (value : ν)
    (hfree : t.lookup key = none) :
    (emplace key value t).lookup c = if c = key then some value else t.lookup c := by
  unfold emplace
  rw [hfree, if_neg (by simp)]
  exact AList.lookup_insert_ite _ _ _ _

theorem addFork_spec (h : w.Inv) {k : UInt32} {state : List UInt8} {c : Content Token}
    (hunused : ¬w.Used k) (hc : w.content k state = some c) :
    ({ w with
      prepared := w.prepared.insert w.nextHandle ⟨k, state⟩
      nextHandle := w.nextHandle + 1 } : World).Inv ∧
    ({ w with
      prepared := w.prepared.insert w.nextHandle ⟨k, state⟩
      nextHandle := w.nextHandle + 1 } : World).machine =
        { w.machine with
          forks := Function.update w.machine.forks w.nextHandle (some c)
          next := w.nextHandle + 1 } := by
  obtain ⟨hnone, hfork⟩ := not_or.mp hunused
  have hlookup : ∀ q f, (w.prepared.insert w.nextHandle ⟨k, state⟩).lookup q = some f →
      (q = w.nextHandle ∧ f = ⟨k, state⟩) ∨ w.prepared.lookup q = some f := by
    intro q f hf
    rw [AList.lookup_insert_ite] at hf
    by_cases hq : q = w.nextHandle
    · rw [if_pos hq] at hf
      exact Or.inl ⟨hq, (Option.some.inj hf).symm⟩
    · rw [if_neg hq] at hf
      exact Or.inr hf
  refine ⟨⟨⟨h.object, h.representation, ?_, ?_, h.active, ?_, ?_⟩, h.stored, ?_, h.unused⟩, ?_⟩
  · intro q f hf
    rcases hlookup q f hf with ⟨_, rfl⟩ | hf
    · exact not_not.mp hnone
    · exact h.fork q f hf
  · intro q q' f f' hf hf' hmapping
    rcases hlookup q f hf with ⟨rfl, rfl⟩ | hf
    · rcases hlookup q' f' hf' with ⟨rfl, rfl⟩ | hf'
      · rfl
      · exact absurd ⟨q', f', hf', hmapping.symm⟩ hfork
    · rcases hlookup q' f' hf' with ⟨rfl, rfl⟩ | hf'
      · exact absurd ⟨q, f, hf, hmapping⟩ hfork
      · exact h.distinct q q' f f' hf hf' hmapping
  · intro p r hp
    exact Nat.lt_succ_of_lt (h.object_lt p r hp)
  · intro q f hf
    rcases hlookup q f hf with ⟨rfl, _⟩ | hf
    · exact Nat.lt_succ_self _
    · exact Nat.lt_succ_of_lt (h.fork_lt q f hf)
  · intro q f hf
    rcases hlookup q f hf with ⟨_, rfl⟩ | hf
    · exact ⟨c, hc⟩
    · exact h.forked q f hf
  · refine Machine.ext rfl rfl ?_ rfl rfl
    funext q
    unfold machine
    dsimp only
    rw [AList.lookup_insert_ite]
    by_cases hq : q = w.nextHandle
    · subst hq
      rw [if_pos rfl, Function.update_self]
      exact hc
    · rw [if_neg hq, Function.update_of_ne hq]
      rfl

theorem dropFork_spec (h : w.Inv) (q : ℕ) :
    ({ w with prepared := w.prepared.erase q } : World).Inv ∧
      ({ w with prepared := w.prepared.erase q } : World).machine =
        w.machine.withForks (Function.update w.machine.forks q none) := by
  have hlookup : ∀ c f, (w.prepared.erase q).lookup c = some f →
      c ≠ q ∧ w.prepared.lookup c = some f := by
    intro c f hf
    rw [AList.lookup_erase_ite] at hf
    by_cases hc : c = q
    · rw [if_pos hc] at hf
      cases hf
    · rw [if_neg hc] at hf
      exact ⟨hc, hf⟩
  refine ⟨⟨⟨h.object, h.representation, ?_, ?_, h.active, h.object_lt, ?_⟩, h.stored, ?_,
    h.unused⟩, ?_⟩
  · exact fun c f hf => h.fork c f (hlookup c f hf).2
  · exact fun c c' f f' hf hf' => h.distinct c c' f f' (hlookup c f hf).2 (hlookup c' f' hf').2
  · exact fun c f hf => h.fork_lt c f (hlookup c f hf).2
  · exact fun c f hf => h.forked c f (hlookup c f hf).2
  · refine Machine.ext rfl rfl ?_ rfl rfl
    funext c
    unfold machine Machine.withForks
    dsimp only
    rw [AList.lookup_erase_ite]
    by_cases hc : c = q
    · subst hc
      rw [if_pos rfl, Function.update_self]
      rfl
    · rw [if_neg hc, Function.update_of_ne hc]
      rfl

theorem publish_spec (h : w.Inv) {k : UInt32} {state : List UInt8} {c : Content Token}
    (hunused : ¬w.Used k) (hc : w.content k state = some c) :
    (w.publish k state).Inv ∧ (w.publish k state).machine = w.machine.add c := by
  obtain ⟨hnone, hfork⟩ := not_or.mp hunused
  have hnone : w.executor.representations.lookup k = none := not_not.mp hnone
  have hkey : ∀ m p, w.executor.representations.lookup m = some p → m ≠ k := by
    rintro m p hm rfl
    rw [hnone] at hm
    cases hm
  have hcontent : ∀ m s, (w.publish k state).content m s = w.content m s := fun _ _ => rfl
  have hobject : ∀ p r, (w.publish k state).objects.lookup p = some r →
      (p = w.nextHandle ∧ r.mapping = k ∧ r.state = state) ∨ w.objects.lookup p = some r := by
    intro p r hr
    unfold publish at hr
    dsimp only at hr
    rw [AList.lookup_insert_ite] at hr
    by_cases hp : p = w.nextHandle
    · rw [if_pos hp] at hr
      obtain rfl := Option.some.inj hr
      exact Or.inl ⟨hp, rfl, rfl⟩
    · rw [if_neg hp] at hr
      exact Or.inr hr
  have hrepresentation : ∀ m, (w.publish k state).executor.representations.lookup m =
      if m = k then some w.nextHandle else w.executor.representations.lookup m :=
    fun m => lookup_emplace _ k m _ hnone
  have hold : ∀ p r, w.objects.lookup p = some r →
      (w.publish k state).objects.lookup p = some r := by
    intro p r hr
    unfold publish
    dsimp only
    rw [AList.lookup_insert_ite, if_neg (Nat.ne_of_lt (h.object_lt p r hr))]
    exact hr
  have hactive : w.executor.activeMapping ≠ k := by
    obtain ⟨a, ha⟩ := h.active
    exact hkey _ a ha
  have hlinked : (w.publish k state).Linked := by
    refine ⟨?_, ?_, ?_, h.distinct, ?_, ?_, ?_⟩
    · intro p r hr
      rw [hrepresentation]
      rcases hobject p r hr with ⟨rfl, hmapping, _⟩ | hr
      · rw [hmapping, if_pos rfl]
        exact ⟨rfl, Finset.mem_insert_self _ _⟩
      · obtain ⟨hlookup, hpublished⟩ := h.object p r hr
        rw [if_neg (hkey _ p hlookup)]
        exact ⟨hlookup, Finset.mem_insert_of_mem hpublished⟩
    · intro m p hm
      rw [hrepresentation] at hm
      by_cases hmk : m = k
      · rw [if_pos hmk] at hm
        obtain rfl := Option.some.inj hm
        exact ⟨_, AList.lookup_insert _, hmk.symm⟩
      · rw [if_neg hmk] at hm
        obtain ⟨r, hr, hmapping⟩ := h.representation m p hm
        exact ⟨r, hold p r hr, hmapping⟩
    · intro q f hf
      rw [hrepresentation, if_neg (fun heq => hfork ⟨q, f, hf, heq⟩)]
      exact h.fork q f hf
    · obtain ⟨a, ha⟩ := h.active
      refine ⟨a, ?_⟩
      rw [hrepresentation]
      exact (if_neg hactive).trans ha
    · intro p r hr
      rcases hobject p r hr with ⟨rfl, _⟩ | hr
      · exact Nat.lt_succ_self _
      · exact Nat.lt_succ_of_lt (h.object_lt p r hr)
    · exact fun q f hf => Nat.lt_succ_of_lt (h.fork_lt q f hf)
  refine ⟨⟨hlinked, ?_, h.forked, h.unused⟩, ?_⟩
  · intro p r hr
    rw [hcontent]
    rcases hobject p r hr with ⟨_, hmapping, hstate⟩ | hr
    · rw [hmapping, hstate]
      exact ⟨c, hc⟩
    · exact h.stored p r hr
  · refine Machine.ext ?_ ?_ rfl ?_ rfl
    · funext p
      rw [hlinked.published]
      change ((w.objects.insert w.nextHandle _).lookup p).bind _ =
        Function.update w.machine.published w.nextHandle (some c) p
      rw [AList.lookup_insert_ite]
      by_cases hp : p = w.nextHandle
      · subst hp
        rw [if_pos rfl, Function.update_self]
        exact hc
      · rw [if_neg hp, Function.update_of_ne hp, h.published]
        rfl
    · funext p
      change (((w.objects.insert w.nextHandle _).lookup p).map Representation.references).getD 0 =
        Function.update w.machine.references w.nextHandle 1 p
      rw [AList.lookup_insert_ite]
      by_cases hp : p = w.nextHandle
      · subst hp
        rw [if_pos rfl, Function.update_self]
        rfl
      · rw [if_neg hp, Function.update_of_ne hp]
        rfl
    · change ((w.publish k state).executor.representations.lookup w.executor.activeMapping).getD 0 =
        w.machine.active
      rw [hrepresentation, if_neg hactive]
      rfl

/-- Objects change but for their mappings, and each still stands for its list. -/
theorem objects_spec {w w' : World} (h : w.Inv)
    (hobjects : ∀ p r, w.objects.lookup p = some r → ∃ s, w'.objects.lookup p = some s ∧
      s.mapping = r.mapping ∧ w'.content s.mapping s.state = w.content r.mapping r.state)
    (hnone : ∀ p, w.objects.lookup p = none → w'.objects.lookup p = none)
    (hprepared : w'.prepared = w.prepared) (hnext : w'.nextHandle = w.nextHandle)
    (hrepresentations : w'.executor.representations = w.executor.representations)
    (hpublished : w'.executor.publishedMappings = w.executor.publishedMappings)
    (hforks : ∀ q f, w.prepared.lookup q = some f →
      w'.content f.mapping f.state = w.content f.mapping f.state)
    (hactive : ∃ p, w.executor.representations.lookup w'.executor.activeMapping = some p)
    (hunused : ∀ k, w'.executor.positions.lookup k = none →
      w'.executor.mockMappings.lookup k = none) :
    w'.Inv ∧ w'.machine = { w.machine with
      references := w'.machine.references
      active := w'.machine.active } := by
  have hold : ∀ p s, w'.objects.lookup p = some s → ∃ r, w.objects.lookup p = some r ∧
      s.mapping = r.mapping ∧ w'.content s.mapping s.state = w.content r.mapping r.state := by
    intro p s hs
    cases hr : w.objects.lookup p with
    | none =>
      rw [hnone p hr] at hs
      cases hs
    | some r =>
      obtain ⟨s', hs', hmapping, hcontent⟩ := hobjects p r hr
      obtain rfl := Option.some.inj (hs.symm.trans hs')
      exact ⟨r, rfl, hmapping, hcontent⟩
  have hlinked : w'.Linked := by
    refine ⟨?_, ?_, ?_, ?_, ?_, ?_, ?_⟩
    · intro p s hs
      obtain ⟨r, hr, hmapping, _⟩ := hold p s hs
      rw [hmapping, hrepresentations, hpublished]
      exact h.object p r hr
    · intro k p hk
      rw [hrepresentations] at hk
      obtain ⟨r, hr, rfl⟩ := h.representation k p hk
      obtain ⟨s, hs, hmapping, _⟩ := hobjects p r hr
      exact ⟨s, hs, hmapping⟩
    · rw [hprepared, hrepresentations]
      exact h.fork
    · rw [hprepared]
      exact h.distinct
    · rw [hrepresentations]
      exact hactive
    · intro p s hs
      obtain ⟨r, hr, _⟩ := hold p s hs
      rw [hnext]
      exact h.object_lt p r hr
    · rw [hprepared, hnext]
      exact h.fork_lt
  refine ⟨⟨hlinked, ?_, ?_, hunused⟩, ?_⟩
  · intro p s hs
    obtain ⟨r, hr, _, hcontent⟩ := hold p s hs
    rw [hcontent]
    exact h.stored p r hr
  · intro q f hf
    rw [hprepared] at hf
    rw [hforks q f hf]
    exact h.forked q f hf
  · refine Machine.ext ?_ rfl ?_ rfl hnext
    · funext p
      rw [hlinked.published, h.published]
      cases hr : w.objects.lookup p with
      | none =>
        rw [hnone p hr]
        rfl
      | some r =>
        obtain ⟨s, hs, _, hcontent⟩ := hobjects p r hr
        rw [hs]
        exact hcontent
    · unfold machine
      dsimp only
      rw [hprepared]
      funext q
      cases hf : w.prepared.lookup q with
      | none => rfl
      | some f => exact hforks q f hf

/-- The references to an object change. -/
theorem refer_spec (h : w.Inv) (p : ℕ) (change : UInt32) : let w' : World := { w with
      objects := w.objects.modify p (fun r => setReferences (r.references + change) r) }
    w'.Inv ∧ w.machine.Does (.refer p change) w'.machine := by
  intro w'
  have hlookup : ∀ c, w'.objects.lookup c = if c = p then
      (w.objects.lookup c).map (fun r => setReferences (r.references + change) r)
      else w.objects.lookup c := fun c => AList.lookup_modify _ _ _ _
  have hcontent : ∀ k state, w'.content k state = w.content k state := fun _ _ => rfl
  obtain ⟨hinv, hmachine⟩ : w'.Inv ∧ w'.machine = { w.machine with
      references := w'.machine.references
      active := w'.machine.active } := by
    refine objects_spec h ?_ ?_ rfl rfl rfl rfl (fun _ _ _ => rfl) h.active h.unused
    · intro c r hr
      rw [hlookup, hr]
      by_cases hc : c = p
      · rw [if_pos hc]
        exact ⟨_, rfl, rfl, rfl⟩
      · rw [if_neg hc]
        exact ⟨r, rfl, rfl, rfl⟩
    · intro c hc
      rw [hlookup, hc]
      by_cases hcp : c = p
      · rw [if_pos hcp]
        rfl
      · rw [if_neg hcp]
  refine ⟨hinv, ?_⟩
  cases hobject : w.objects.lookup p with
  | none =>
    have hsame : w' = w := by
      change { w with objects := w.objects.modify p _ } = w
      unfold AList.modify
      rw [hobject]
    refine Or.inl ⟨?_, congrArg machine hsame⟩
    rw [h.published, hobject]
    rfl
  | some r =>
    obtain ⟨c, hc⟩ := h.stored p r hobject
    refine Or.inr ⟨⟨c, by rw [h.published, hobject]; exact hc⟩, hmachine.trans ?_⟩
    refine Machine.ext rfl ?_ rfl rfl rfl
    funext q
    change ((w'.objects.lookup q).map Representation.references).getD 0 =
      Function.update w.machine.references p (w.machine.references p + change) q
    rw [hlookup]
    by_cases hq : q = p
    · subst hq
      rw [if_pos rfl, Function.update_self]
      unfold machine
      dsimp only
      rw [hobject]
      rfl
    · rw [if_neg hq, Function.update_of_ne hq]
      rfl

/-- The content of the active mapping, whatever bytes its representation holds. -/
theorem Inv.live (h : w.Inv) :
    ∃ c, w.machine.published w.machine.active = some c ∧
      ∀ state, w.content w.executor.activeMapping state = some c := by
  obtain ⟨p, r, _, hactive, hobject, hmapping⟩ := h.activeObject
  obtain ⟨c, hc⟩ := h.stored p r hobject
  refine ⟨c, ?_, ?_⟩
  · rw [hactive, h.published, hobject]
    exact hc
  · intro state
    rw [← hc, hmapping]
    unfold content World.tokens mockTokens
    cases w.executor.codec with
    | none => rfl
    | some codec =>
      dsimp only
      rw [if_pos rfl, if_pos rfl]

/-- Only the content of the active mapping changes. -/
theorem live_spec (h : w.Inv) (w' : World) (c : Content Token) (hsame : SameTables w w')
    (hothers : ∀ k state, k ≠ w.executor.activeMapping → w'.content k state = w.content k state)
    (hlive : ∀ state, w'.content w.executor.activeMapping state = some c)
    (hunused : ∀ k, w'.executor.positions.lookup k = none →
      w'.executor.mockMappings.lookup k = none) :
    w'.Inv ∧ w'.machine = w.machine.write w.machine.active c := by
  have hlinked := h.toLinked.of_same hsame
  have hforked : ∀ q f, w.prepared.lookup q = some f →
      w'.content f.mapping f.state = w.content f.mapping f.state := by
    intro q f hf
    apply hothers
    intro heq
    obtain ⟨p, hp⟩ := h.active
    have hnone := h.fork q f hf
    rw [heq, hp] at hnone
    cases hnone
  refine ⟨⟨hlinked, ?_, ?_, hunused⟩, ?_⟩
  · intro p r hp
    rw [hsame.objects] at hp
    by_cases hmapping : r.mapping = w.executor.activeMapping
    · rw [hmapping]
      exact ⟨c, hlive r.state⟩
    · rw [hothers r.mapping r.state hmapping]
      exact h.stored p r hp
  · intro q f hf
    rw [hsame.prepared] at hf
    rw [hforked q f hf]
    exact h.forked q f hf
  · refine Machine.ext ?_ ?_ ?_ ?_ hsame.nextHandle
    · funext p
      rw [hlinked.published, hsame.objects]
      change _ = Function.update w.machine.published w.machine.active (some c) p
      by_cases hp : p = w.machine.active
      · obtain ⟨a, r, _, hactive, hobject, hmapping⟩ := h.activeObject
        rw [hp, Function.update_self, hactive, hobject]
        change w'.content r.mapping r.state = some c
        rw [hmapping]
        exact hlive r.state
      · rw [Function.update_of_ne hp, h.published]
        cases hobject : w.objects.lookup p with
        | none => rfl
        | some r => exact hothers r.mapping r.state (fun heq => hp ((h.active_iff hobject).mpr heq))
    · unfold machine Machine.write
      dsimp only
      rw [hsame.objects]
    · unfold machine Machine.write
      dsimp only
      rw [hsame.prepared]
      funext q
      cases hf : w.prepared.lookup q with
      | none => rfl
      | some f => exact hforked q f hf
    · unfold machine Machine.write
      dsimp only
      rw [hsame.representations, hsame.activeMapping]

end Cusco.NativeMappings.World
