import Cusco.OptimalPrefixes
import Cusco.StoreRepresentation

/-!
Shared prefixes. A mapping that was published keeps its catalog reference until it is released,
so nothing that happens in between reclaims it; and whatever mapping is stored qualifies for
every context of its epochs that starts with its tokens, because its ancestors are all stored.
So a published prefix is found from every context that begins with it.
-/

namespace Cusco.SharedPrefixes

open Calls LogicalStore LogicalStore.ContextStore OptimalPrefixes PublicationCommit
  PublicationRuns PublicationSteps Reclamation Runs StoreAccounts StoreReferences
  StoreRepresentation

/-- The mapping is stored under its identity, with its catalog reference. -/
def Catalogs (m : EvaluatedPrefix) (s : ContextStore) : Prop :=
  ∃ e, s.mappings.lookup m.id = some e ∧ e.mapping = m ∧ 0 < e.references.catalog

section Kept

variable {m : EvaluatedPrefix} {s : ContextStore}

/-- Only the table of mappings matters. -/
theorem Catalogs.congr {s' : ContextStore} (h : Catalogs m s)
    (hsame : s'.mappings = s.mappings) : Catalogs m s' := by
  obtain ⟨e, he, hm, hpos⟩ := h
  exact ⟨e, hsame ▸ he, hm, hpos⟩

/-- An entry may be written in its place when its catalog reference stays. -/
theorem catalogs_setEntry (h : Catalogs m s) {k : EvaluatedPrefixId} {e e' : MappingEntry}
    (he : s.mappings.lookup k = some e) (hsame : e'.mapping = e.mapping)
    (hcatalog : k = m.id → e'.references.catalog = e.references.catalog) :
    Catalogs m (s.setEntry k e') := by
  obtain ⟨d, hd, hm, hpos⟩ := h
  by_cases hk : m.id = k
  · subst hk
    rw [hd] at he
    cases he
    refine ⟨e', ?_, hsame.trans hm, ?_⟩
    · rw [lookup_setEntry, if_pos rfl]
    · rw [hcatalog rfl]
      exact hpos
  · refine ⟨d, ?_, hm, hpos⟩
    rw [lookup_setEntry, if_neg hk, hd]

theorem catalogs_dropMapping (h : Catalogs m s) {k : EvaluatedPrefixId} (hk : m.id ≠ k)
    (removed : MappingEntry) : Catalogs m (s.dropMapping k removed) := by
  obtain ⟨d, hd, hm, hpos⟩ := h
  by_cases hparent : removed.mapping.parent = some m.id
  · refine ⟨dropParentReference d, ?_, hm, hpos⟩
    rw [lookup_dropMapping, if_neg hk, if_pos hparent, hd, Option.map_some]
  · refine ⟨d, ?_, hm, hpos⟩
    rw [lookup_dropMapping, if_neg hk, if_neg hparent, hd]

/-- Reclaiming stops at a mapping with a reference left, so it never takes this one. -/
theorem catalogs_reclaimLoop (fuel : ℕ) (candidate : Option EvaluatedPrefixId)
    (h : Catalogs m s) : Catalogs m (reclaimLoop fuel s candidate) := by
  induction fuel generalizing s candidate with
  | zero => exact h
  | succ fuel ih =>
    cases candidate with
    | none => exact h
    | some id =>
      unfold reclaimLoop
      cases he : s.mappings.lookup id with
      | none => exact h
      | some e =>
        simp only
        by_cases hzero : e.references = ⟨0, 0, 0⟩
        · rw [if_pos hzero]
          refine ih e.mapping.parent (catalogs_dropMapping h ?_ e)
          intro hid
          obtain ⟨d, hd, _, hpos⟩ := h
          rw [hid, he] at hd
          cases hd
          rw [hzero] at hpos
          exact absurd hpos (lt_irrefl 0)
        · rw [if_neg hzero]
          exact h

theorem catalogs_reclaim (h : Catalogs m s) (id : EvaluatedPrefixId) :
    Catalogs m (s.reclaim id) :=
  catalogs_reclaimLoop _ _ h

theorem catalogs_adjustContextRefs (h : Catalogs m s) (id : EvaluatedPrefixId)
    (increment : Bool) : Catalogs m (s.adjustContextRefs id increment) := by
  unfold adjustContextRefs
  cases he : s.mappings.lookup id with
  | none => exact h
  | some e =>
    cases increment with
    | true => exact catalogs_setEntry h he rfl (fun _ => rfl)
    | false =>
      have hset : Catalogs m (s.setEntry id { e with references := e.references.dropContext }) :=
        catalogs_setEntry h he rfl (fun _ => rfl)
      exact catalogs_reclaim hset id

theorem catalogs_giveUp (h : Catalogs m s) (current : Option EvaluatedPrefixId) :
    Catalogs m (s.giveUp current) := by
  cases current with
  | none => exact h
  | some old => exact catalogs_adjustContextRefs h old false

theorem catalogs_bindPublished {s' : ContextStore} (h : Catalogs m s) {c : LogicalContextId}
    {context : LogicalContext} (hc : s.contexts.lookup c = some context)
    {id : EvaluatedPrefixId} {r : Except Error EvaluatedPrefix}
    (hbind : s.bindPublished c context.evaluated id = .returns r s') : Catalogs m s' := by
  have hpublished : ∀ t : ContextStore, Catalogs m t → t.publishedMapping id = .returns r s' →
      Catalogs m s' := by
    intro t ht hreturns
    unfold publishedMapping at hreturns
    cases he : t.mappings.lookup id with
    | none =>
      rw [he] at hreturns
      cases hreturns
    | some e =>
      rw [he] at hreturns
      cases hreturns
      exact ht
  unfold bindPublished at hbind
  by_cases hsame : context.evaluated = some id
  · rw [if_pos hsame] at hbind
    exact hpublished s h hbind
  · rw [if_neg hsame, rebind_eq s c context hc id] at hbind
    by_cases hrevision : context.revision = u64Max
    · rw [if_pos hrevision] at hbind
      cases hbind
    · rw [if_neg hrevision] at hbind
      have hacquired := catalogs_adjustContextRefs (catalogs_giveUp h context.evaluated) id true
      refine hpublished _ ?_ hbind
      exact hacquired.congr rfl

theorem catalogs_withMapping (h : Catalogs m s) {mapping : EvaluatedPrefix}
    (hnew : s.mappings.lookup mapping.id = none) : Catalogs m (withMapping s mapping) := by
  obtain ⟨d, hd, hm, hpos⟩ := h
  have hk : m.id ≠ mapping.id := by
    intro hk
    rw [hk, hnew] at hd
    cases hd
  by_cases hparent : mapping.parent = some m.id
  · refine ⟨{ d with references := d.references.addDependent }, ?_, hm, hpos⟩
    rw [lookup_withMapping, if_neg hk, if_pos hparent, hd, Option.map_some]
    rfl
  · refine ⟨d, ?_, hm, hpos⟩
    rw [lookup_withMapping, if_neg hk, if_neg hparent, hd]

theorem catalogs_commitPublication {s' : ContextStore} (h : Catalogs m s)
    {p : PreparedPublication} {r : Except Error EvaluatedPrefix}
    (hcall : s.commitPublication p = .returns r s') : Catalogs m s' := by
  cases hv : s.validatePublication p with
  | error e =>
    rw [commitPublication_error s p e hv] at hcall
    cases hcall
    exact h
  | ok _ =>
    obtain ⟨⟨context, hc⟩, _, hparent⟩ := validatePublication_ok s p hv
    unfold commitPublication at hcall
    simp only [hv, hc] at hcall
    by_cases hnew : s.mappings.lookup p.mapping.id = none
    · rw [if_pos hnew, storeMapping_eq s p.mapping (hparent hnew)] at hcall
      exact catalogs_bindPublished (catalogs_withMapping h hnew) hc hcall
    · rw [if_neg hnew] at hcall
      exact catalogs_bindPublished h hc hcall

/-- A commit that stores a new mapping gives it its catalog reference. -/
theorem catalogs_committed {s' : ContextStore} {p : PreparedPublication}
    (hv : s.validatePublication p = .ok ()) (hnew : s.mappings.lookup p.mapping.id = none)
    {r : Except Error EvaluatedPrefix} (hcall : s.commitPublication p = .returns r s') :
    Catalogs p.mapping s' := by
  obtain ⟨⟨context, hc⟩, _, hparent⟩ := validatePublication_ok s p hv
  unfold commitPublication at hcall
  simp only [hv, hc] at hcall
  rw [if_pos hnew, storeMapping_eq s p.mapping (hparent hnew)] at hcall
  exact catalogs_bindPublished ⟨_, lookup_withMapping_id s p.mapping, rfl, Nat.one_pos⟩ hc hcall

theorem catalogs_create {s' : ContextStore} (h : Catalogs m s) {tokens : PersistentTokenSequence}
    {modelEpoch : ModelEpoch} {adapterEpoch : AdapterEpoch} {r : Except Error LogicalContextId}
    (hcall : s.create tokens modelEpoch adapterEpoch = .returns r s') : Catalogs m s' := by
  unfold create at hcall
  split_ifs at hcall
  cases hcall
  exact h.congr rfl

/-- Every call but the release of the mapping itself keeps it. -/
theorem catalogs_call (sha : List UInt8 → Digest) {w w' : World} {c : Call}
    (h : Catalogs m w.store) (hcall : World.Step sha w c w')
    (hrelease : ∀ id, c = .releaseMapping id → id ≠ m.id) : Catalogs m w'.store := by
  have hplain : ∀ {α : Type} (prepared : List PreparedPublication)
      (o : Outcome ContextStore Error α), World.settle prepared o = some w' →
      (∀ r t, o = .returns r t → Catalogs m t) → Catalogs m w'.store := by
    intro α prepared o ho hkept
    cases o with
    | panics => cases ho
    | returns r store =>
      cases ho
      exact hkept r _ rfl
  cases c with
  | create tokens modelEpoch adapterEpoch =>
    refine hplain _ _ hcall ?_
    intro r t ht
    exact catalogs_create h ht
  | branch source at' =>
    refine hplain _ _ hcall ?_
    intro r t ht
    unfold branch at ht
    split at ht
    · cases ht
      exact h
    · split at ht
      · cases ht
        exact h
      · exact catalogs_create h ht
  | append id tokens =>
    refine hplain _ _ hcall ?_
    intro r t ht
    unfold append at ht
    split at ht
    · cases ht
      exact h
    · split_ifs at ht
      · cases ht
        exact h
      · cases ht
        exact h.congr rfl
  | removeContext id =>
    refine hplain _ _ hcall ?_
    intro r t ht
    unfold removeContext at ht
    split at ht
    · cases ht
      exact h
    · simp only at ht
      split at ht
      · cases ht
        exact h.congr rfl
      · cases ht
        refine catalogs_adjustContextRefs ?_ _ false
        exact h.congr rfl
  | setEpochs id modelEpoch adapterEpoch =>
    refine hplain _ _ hcall ?_
    intro r t ht
    unfold setEpochs at ht
    split at ht
    · cases ht
      exact h
    · split_ifs at ht
      · cases ht
        exact h
      · simp only at ht
        split at ht
        · cases ht
          exact h.congr rfl
        · cases ht
          refine catalogs_adjustContextRefs ?_ _ false
          exact h.congr rfl
  | preparePublication context representedEnd parent required complete parameters =>
    simp only [World.Step, World.call] at hcall
    split at hcall
    · cases hcall
      exact h
    · cases hcall
      exact h
  | commitPublication index =>
    simp only [World.Step, World.call] at hcall
    split at hcall
    · cases hcall
      exact h
    · refine hplain _ _ hcall ?_
      intro r t ht
      exact catalogs_commitPublication h ht
  | releaseMapping id =>
    refine hplain _ _ hcall ?_
    intro r t ht
    unfold releaseMapping at ht
    split at ht
    · cases ht
      exact h
    · next e he =>
      cases ht
      have hset : Catalogs m
          (w.store.setEntry id { e with references := e.references.dropCatalog }) :=
        catalogs_setEntry h he rfl (fun hid => absurd hid (hrelease id rfl))
      exact catalogs_reclaim hset id

theorem catalogs_run (sha : List UInt8 → Digest) (w : World) (run : List (Call × World))
    (h : Catalogs m w.store) (hrun : IsRun (World.Step sha) w run)
    (hrelease : ∀ x ∈ run, x.1 ≠ .releaseMapping m.id) : Catalogs m (last w run).store := by
  induction run generalizing w with
  | nil => exact h
  | cons x rest ih =>
    obtain ⟨c, w'⟩ := x
    obtain ⟨hcall, hrest⟩ := hrun
    refine ih w' (catalogs_call sha h hcall ?_) hrest
      (fun x hx => hrelease x (List.mem_cons_of_mem _ hx))
    intro id hid hsame
    exact hrelease (c, w') (List.mem_cons_self ..) (by rw [hid, hsame])

end Kept

/-- A mapping stored in the world a run ends in qualifies for every context of its epochs that
starts with its tokens. -/
theorem qualifies_of_stored (sha : List UInt8 → Digest) (run : List (Call × World))
    (hrun : IsRun (World.Step sha) World.empty run)
    (hinjective : Set.InjOn sha {b | b ∈ hashedIn sha World.empty run})
    {id : EvaluatedPrefixId} {e : MappingEntry}
    (he : (last World.empty run).store.mappings.lookup id = some e) {context : LogicalContext}
    (hepochs : e.mapping.epochKey = context.epochKey)
    (htokens : e.mapping.sequence <+: context.tokens) :
    Qualifies (last World.empty run).store context e.mapping := by
  have h : Consistent sha (hashedIn sha World.empty run) (last World.empty run) :=
    consistent_run World.empty run consistent_empty hrun (fun _ hb => hb)
  have hparents := parent_of_consistent hinjective (last World.empty run) h
  have hgenuine := (h.stored id e he).genuine
  have hlength := htokens.length_le
  rw [hgenuine.ends] at hlength
  have hkeyed := h.accounted.catalogued.keyed id e he
  have hchained : Chained (last World.empty run).store e.mapping := by
    refine (ancestorsValid_iff (e.mapping.representedEnd + 1) e.mapping (Nat.lt_succ_self _)).mp ?_
    exact ancestorsValid_of_parents _ (fun m e q => hparents m q e)
      (fun m e he => (h.stored m e he).genuine.complete) _ id e he (Nat.lt_succ_self _)
  refine ⟨⟨e, hkeyed ▸ he, rfl⟩, hepochs, hgenuine.complete, hlength, ?_, hchained⟩
  rw [← hgenuine.ends]
  exact (List.prefix_iff_eq_take.mp htokens).symm

/-- The lookup finds at least as much as any mapping that qualifies. -/
theorem longest_covers (sha : List UInt8 → Digest) {w : World}
    (hreach : Reaches (World.Step sha) World.empty w) {c : LogicalContextId}
    {context : LogicalContext} (hc : w.store.contexts.lookup c = some context)
    {m : EvaluatedPrefix} (hm : Qualifies w.store context m) :
    ∃ found, w.store.longestValidPrefix c = .ok (some found) ∧
      m.representedEnd ≤ found.representedEnd ∧ Qualifies w.store context found := by
  obtain ⟨answer, hanswer, hbest, hnone⟩ :=
    longestValidPrefix_best (accounted_of_reaches sha w hreach).catalogued c hc
  cases answer with
  | none => exact absurd hm (hnone rfl m)
  | some found =>
    have hfound := hbest found rfl
    exact ⟨found, hanswer, hfound.longest m hm, hfound.qualifies⟩

/-- Once a commit has stored a mapping, every context of its epochs that starts with its tokens
finds it or a longer one, whatever is called in between, until the mapping is released. -/
theorem published_prefix_found (sha : List UInt8 → Digest) (before after : List (Call × World))
    (index : ℕ) (w : World) (p : PreparedPublication)
    (hrun : IsRun (World.Step sha) World.empty (before ++ (.commitPublication index, w) :: after))
    (hinjective : Set.InjOn sha
      {b | b ∈ hashedIn sha World.empty (before ++ (.commitPublication index, w) :: after)})
    (hprepared : (last World.empty before).prepared[index]? = some p)
    (hvalid : (last World.empty before).store.validatePublication p = .ok ())
    (hnew : (last World.empty before).store.mappings.lookup p.mapping.id = none)
    (hrelease : ∀ x ∈ after, x.1 ≠ .releaseMapping p.mapping.id) :
    ∀ c context, (last w after).store.contexts.lookup c = some context →
      p.mapping.epochKey = context.epochKey → p.mapping.sequence <+: context.tokens →
      ∃ found, (last w after).store.longestValidPrefix c = .ok (some found) ∧
        p.mapping.representedEnd ≤ found.representedEnd ∧
        Qualifies (last w after).store context found := by
  intro c context hc hepochs htokens
  have hlast : last World.empty (before ++ (.commitPublication index, w) :: after) =
      last w after := by
    rw [last_append]
    rfl
  obtain ⟨_, hcall, hafter⟩ := (isRun_append _ _ _ _).mp hrun
  have hcommitted : Catalogs p.mapping w.store := by
    simp only [World.Step, World.call, hprepared] at hcall
    obtain ⟨r, hr⟩ := World.settle_some _ _ w hcall
    exact catalogs_committed hvalid hnew hr
  obtain ⟨e, he, hm, _⟩ := catalogs_run sha w after hcommitted hafter hrelease
  rw [← hlast] at he hc ⊢
  have hqualifies : Qualifies _ context _ := qualifies_of_stored sha _ hrun hinjective he
    (hm ▸ hepochs) (hm ▸ htokens)
  rw [hm] at hqualifies
  exact longest_covers sha ⟨_, hrun, rfl⟩ hc hqualifies

/-- What a run has to meet, with the publication that its commit stores. -/
def meetsAll (before after : List (Call × World)) (w : World) (p : PreparedPublication) : Bool :=
  decide (((hashedIn Sha256.sha256 World.empty
    (before ++ (.commitPublication 0, w) :: after)).map Sha256.sha256).Nodup) &&
  validates (last World.empty before) p &&
  decide ((last World.empty before).store.mappings.lookup p.mapping.id = none) &&
  ((last w after).store.contexts.lookup ⟨1⟩).any (fun context =>
    decide (p.mapping.epochKey = context.epochKey) &&
      decide (p.mapping.sequence <+: context.tokens))

/-- The prefix that one context published is found from its branch. -/
theorem shorterPublished_found : ∃ (w : World) (found : EvaluatedPrefix),
    Reaches (World.Step Sha256.sha256) World.empty w ∧
      w.store.longestValidPrefix ⟨1⟩ = .ok (some found) ∧ 0 < found.representedEnd := by
  have hrun : (trace (World.call Sha256.sha256) World.empty shorterPrepared).any (fun before =>
      ((last World.empty before).call Sha256.sha256 (.commitPublication 0)).any (fun w =>
        (trace (World.call Sha256.sha256) w [.branch ⟨0⟩ 2]).any (fun after =>
          ((last World.empty before).prepared[0]?).any (fun p =>
            meetsAll before after w p && decide (0 < p.mapping.representedEnd))))) = true := by
    decide +kernel
  obtain ⟨before, hbefore, hrun⟩ := (Option.any_eq_true _ _).mp hrun
  obtain ⟨w, hw, hrun⟩ := (Option.any_eq_true _ _).mp hrun
  obtain ⟨after, hafter, hrun⟩ := (Option.any_eq_true _ _).mp hrun
  obtain ⟨p, hp, hchecks⟩ := (Option.any_eq_true _ _).mp hrun
  unfold meetsAll at hchecks
  simp only [Bool.and_eq_true, decide_eq_true_eq] at hchecks
  obtain ⟨⟨⟨⟨hnodup, hvalid⟩, hnew⟩, hcontext⟩, hpos⟩ := hchecks
  obtain ⟨context, hc, hcontext⟩ := (Option.any_eq_true _ _).mp hcontext
  rw [Bool.and_eq_true, decide_eq_true_eq, decide_eq_true_eq] at hcontext
  have hsteps : IsRun (World.Step Sha256.sha256) World.empty
      (before ++ (.commitPublication 0, w) :: after) :=
    (isRun_append _ _ _ _).mpr ⟨isRun_of_trace _ _ _ before hbefore, hw,
      isRun_of_trace _ _ _ after hafter⟩
  have hlabels : ∀ x ∈ after, x.1 ≠ .releaseMapping p.mapping.id := by
    obtain ⟨w', _, hrest⟩ := Option.bind_eq_some_iff.mp hafter
    cases hrest
    intro x hx
    cases List.mem_singleton.mp hx
    intro h
    cases h
  obtain ⟨found, hfound, hlonger, _⟩ := published_prefix_found Sha256.sha256 before after 0 w p
    hsteps (fun a ha b hb => List.inj_on_of_nodup_map hnodup ha hb) hp
    (validatePublication_of_validates _ _ hvalid) hnew hlabels ⟨1⟩ context hc hcontext.1 hcontext.2
  refine ⟨last w after, found, ⟨_, hsteps, ?_⟩, hfound, by omega⟩
  rw [last_append]
  rfl

end Cusco.SharedPrefixes
