import Cusco.StoreIdentities

/-!
The representation of the context store. Every mapping stored or prepared carries
the digests of its own content and names a parent of smaller length, the same
epochs and a prefix of its tokens; every binding fits its context. These facts are
about digests only, and every call keeps them. Where the hash is injective on the
strings of the run, the parent stored under an identity is the one it was given
for, and the whole representation follows.
-/

namespace Cusco.StoreRepresentation

open LogicalStore LogicalStore.ContextStore PrefixIndex StoreReferences StoreAccounts
open PublicationCommit PublicationRuns StoreEffects StoreIdentities Runs

/-- The strings hashed for the branch and the identity of a publication. -/
def hashedFor (p : PreparedPublication) : List (List UInt8) :=
  [branchBytes p.mapping.sequence, mappingBytes p.mapping]

/-- The strings a run hashes for the branches and identities of what it prepares. -/
def hashedIn (sha : List UInt8 → Digest) : World → List (Call × World) → List (List UInt8)
  | _, [] => []
  | w, (c, w') :: rest =>
    ((preparedBy sha w c).map hashedFor).getD [] ++ hashedIn sha w' rest

section Content

variable (sha : List UInt8 → Digest) (inputs : List (List UInt8))

/-- The mapping carries the digests of its own content. -/
structure Genuine (m : EvaluatedPrefix) : Prop where
  identity : m.id = sha (mappingBytes m)
  identity_hashed : mappingBytes m ∈ inputs
  branch : m.branch = sha (branchBytes m.sequence)
  branch_hashed : branchBytes m.sequence ∈ inputs
  ends : m.sequence.length = m.representedEnd
  complete : m.completeComponents.contains m.requiredComponents = true

/-- `d` can be the parent of `m`. -/
structure Precedes (d m : EvaluatedPrefix) : Prop where
  shorter : d.representedEnd < m.representedEnd
  epochs : d.epochKey = m.epochKey
  sequence : d.sequence <+: m.sequence

/-- The mapping is genuine, and its parent names one that precedes it. -/
structure Known (m : EvaluatedPrefix) : Prop where
  genuine : Genuine sha inputs m
  based : ∀ q, m.parent = some q → ∃ d, Genuine sha inputs d ∧ d.id = q ∧ Precedes d m

/-- The binding fits the context. -/
structure Fits (m : EvaluatedPrefix) (context : LogicalContext) : Prop where
  epochs : m.epochKey = context.epochKey
  sequence : m.sequence <+: context.tokens

/-- What every call keeps. -/
structure Consistent (w : World) : Prop where
  accounted : Accounted w.store
  stored : ∀ m e, w.store.mappings.lookup m = some e → Known sha inputs e.mapping
  prepared : ∀ p, p ∈ w.prepared → Known sha inputs p.mapping
  bindings : ∀ c context m e, w.store.contexts.lookup c = some context →
    context.evaluated = some m → w.store.mappings.lookup m = some e → Fits e.mapping context

variable {sha : List UInt8 → Digest} {inputs : List (List UInt8)}

theorem consistent_empty : Consistent sha inputs World.empty where
  accounted := accounted_empty
  stored := by
    intro m e he
    cases (AList.lookup_empty m).symm.trans he
  prepared := fun p hp => (nomatch hp)
  bindings := by
    intro c context m e hc
    cases (AList.lookup_empty c).symm.trans hc

theorem fits_of_valid (s : ContextStore) (m : EvaluatedPrefix) (context : LogicalContext)
    (n : Option ℕ) (h : s.mappingValidForContext m context n = true) :
    Fits m context ∧ context.tokens.take m.representedEnd = m.sequence := by
  unfold mappingValidForContext at h
  split at h
  · cases h
  · rename_i hchecks
    push Not at hchecks
    obtain ⟨hmodel, hadapter, -, hend, -, hstarts⟩ := hchecks
    unfold prefixOf at hstarts
    rw [if_neg (by omega)] at hstarts
    have htake := Option.some.inj hstarts
    refine ⟨⟨congrArg₂ MappingEpochKey.mk hmodel hadapter, ?_⟩, htake⟩
    rw [← htake]
    exact List.take_prefix _ _

/-- A preparation against a consistent store prepares a known mapping. -/
theorem known_of_prepared (s : ContextStore) (hkeyed : ∀ m e, s.mappings.lookup m = some e →
      e.mapping.id = m)
    (hstored : ∀ m e, s.mappings.lookup m = some e → Known sha inputs e.mapping)
    (contextId : LogicalContextId) (representedEnd : ℕ) (parent : Option EvaluatedPrefixId)
    (required complete : ComponentMask) (parameters : Digest) (p : PreparedPublication)
    (h : s.preparePublication sha contextId representedEnd parent required complete parameters =
      .ok p) (hhashed : ∀ b ∈ hashedFor p, b ∈ inputs) : Known sha inputs p.mapping := by
  have hbranch := hhashed _ (List.mem_cons_self ..)
  have hidentity := hhashed _ (List.mem_cons_of_mem _ (List.mem_cons_self ..))
  unfold preparePublication at h
  cases hc : s.contexts.lookup contextId with
  | none => simp [hc] at h
  | some context =>
    simp only [hc] at h
    split at h
    · cases h
    · rename_i hend
      split at h
      · cases h
      · rename_i hcomplete
        split at h
        · cases h
        · rename_i lineage hlineage
          cases h
          refine ⟨⟨rfl, hidentity, rfl, hbranch, ?_, by simpa using hcomplete⟩, ?_⟩
          · show (context.tokens.take representedEnd).length = representedEnd
            rw [List.length_take]
            omega
          · intro q hq
            have hparent : parent = some q := hq
            subst hparent
            cases hd : s.mappings.lookup q with
            | none => simp [hd] at hlineage
            | some d =>
              simp only [hd] at hlineage
              split at hlineage
              · cases hlineage
              · rename_i hvalid
                push Not at hvalid
                obtain ⟨hfits, htake⟩ := fits_of_valid s d.mapping context _
                  (by simpa using hvalid.2)
                refine ⟨d.mapping, (hstored q d hd).genuine, hkeyed q d hd, hvalid.1,
                  hfits.epochs, ?_⟩
                show d.mapping.sequence <+: context.tokens.take representedEnd
                rw [← htake]
                exact List.take_prefix_take_left (Nat.le_of_lt hvalid.1)

theorem known_of_preparedBy (w : World) (h : Consistent sha inputs w) (c : Call)
    (p : PreparedPublication) (hp : preparedBy sha w c = some p)
    (hhashed : ∀ b ∈ hashedFor p, b ∈ inputs) : Known sha inputs p.mapping := by
  cases c with
  | preparePublication context representedEnd parent required complete parameters =>
    simp only [preparedBy] at hp
    cases hq : w.store.preparePublication sha context representedEnd parent required complete
        parameters with
    | error e =>
      rw [hq] at hp
      cases hp
    | ok q =>
      rw [hq] at hp
      cases hp
      exact known_of_prepared w.store h.accounted.catalogued.keyed h.stored _ _ _ _ _ _ p hq
        hhashed
  | create | branch | append | removeContext | setEpochs | commitPublication | releaseMapping =>
    cases hp

/-- A context's binding fits after a change if it fitted before. -/
theorem fits_of_change (fresh : Option PreparedPublication) (next : ℕ) (c : LogicalContextId)
    (o o' : Option LogicalContext) (hchange : ContextChange fresh next c o o')
    (context' : LogicalContext) (hc' : o' = some context') (m : EvaluatedPrefixId)
    (hm : context'.evaluated = some m) (mapping : EvaluatedPrefix)
    (hold : ∀ context, o = some context → context.evaluated = some m → Fits mapping context)
    (hnew : ∀ p, fresh = some p → p.mapping.id = m → mapping = p.mapping) :
    Fits mapping context' := by
  cases hchange with
  | same => exact hold context' hc' hm
  | created context _ hunbound =>
    cases hc'
    rw [hunbound] at hm
    cases hm
  | removed context => cases hc'
  | appended context tokens =>
    cases hc'
    obtain ⟨hepochs, hsequence⟩ := hold context rfl hm
    exact ⟨hepochs, hsequence.trans (List.prefix_append _ _)⟩
  | rebased context modelEpoch adapterEpoch =>
    cases hc'
    cases hm
  | bound context p hfresh hbinds =>
    cases hc'
    rw [hnew p hfresh (Option.some.inj hm)]
    refine ⟨hbinds.epochs.symm, ?_⟩
    rw [← hbinds.sequence]
    exact List.take_prefix _ _

theorem consistent_call (w : World) (c : Call) (w' : World) (h : Consistent sha inputs w)
    (hcall : World.Step sha w c w')
    (hhashed : ∀ p, preparedBy sha w c = some p → ∀ b ∈ hashedFor p, b ∈ inputs) :
    Consistent sha inputs w' := by
  obtain ⟨⟨fresh, heffect, hfresh⟩, hprepared⟩ := effect_call sha w c w' h.accounted hcall
  refine ⟨accounted_call sha w c w' h.accounted hcall, ?_, ?_, ?_⟩
  · intro m e' he'
    rcases heffect.mappings m e' he' with ⟨e, he, heq⟩ | ⟨p, hp, _, _, heq⟩
    · rw [heq]
      exact h.stored m e he
    · rw [heq]
      exact h.prepared p (hfresh p hp)
  · intro p hp
    rcases hprepared p hp with hold | hnew
    · exact h.prepared p hold
    · exact known_of_preparedBy w h c p hnew (hhashed p hnew)
  · intro d context' m e' hd hm he'
    refine fits_of_change fresh _ d _ _ (heffect.contexts d) context' hd m hm e'.mapping ?_ ?_
    · intro context hc hbound
      rcases heffect.mappings m e' he' with ⟨e, he, heq⟩ | ⟨p, _, hnone, _, _⟩
      · rw [heq]
        exact h.bindings d context m e hc hbound he
      · refine absurd hnone (h.accounted.catalogued.bound_stored m ?_)
        have hcount := boundTo_erase w.store.contexts d context hc m
        rw [if_pos hbound] at hcount
        omega
    · intro p hp hid
      rcases heffect.mappings m e' he' with ⟨e, he, heq⟩ | ⟨q, hq, _, _, heq⟩
      · subst hid
        rw [heq, heffect.agrees p e hp he]
      · rw [heq, Option.some.inj (hp.symm.trans hq)]

theorem consistent_run (w : World) (run : List (Call × World)) (h : Consistent sha inputs w)
    (hrun : IsRun (World.Step sha) w run) (hhashed : ∀ b ∈ hashedIn sha w run, b ∈ inputs) :
    Consistent sha inputs (last w run) := by
  induction run generalizing w with
  | nil => exact h
  | cons head rest ih =>
    refine ih head.2 (consistent_call w head.1 head.2 h hrun.1 ?_) hrun.2 ?_
    · intro p hp b hb
      refine hhashed b (List.mem_append_left _ ?_)
      rw [hp]
      exact hb
    · intro b hb
      exact hhashed b (List.mem_append_right _ hb)

/-- Where the hash is injective, an identity has one content. -/
theorem content_of_id (hinjective : Set.InjOn sha {b | b ∈ inputs}) (d m : EvaluatedPrefix)
    (hd : Genuine sha inputs d) (hm : Genuine sha inputs m) (hid : d.id = m.id) :
    d.epochKey = m.epochKey ∧ d.sequence = m.sequence ∧ d.representedEnd = m.representedEnd := by
  have hbytes := hinjective hd.identity_hashed hm.identity_hashed
    (hd.identity.symm.trans (hid.trans hm.identity))
  obtain ⟨hepochs, hbranch⟩ := mappingBytes_determines d m hbytes
  have hsequence := branchBytes_injective _ _ (hinjective hd.branch_hashed hm.branch_hashed
    (hd.branch.symm.trans (hbranch.trans hm.branch)))
  exact ⟨hepochs, hsequence, by rw [← hd.ends, ← hm.ends, hsequence]⟩

theorem parent_of_consistent (hinjective : Set.InjOn sha {b | b ∈ inputs}) (w : World)
    (h : Consistent sha inputs w) (m q : EvaluatedPrefixId) (e : MappingEntry)
    (he : w.store.mappings.lookup m = some e) (hq : e.mapping.parent = some q) :
    ∃ d, w.store.mappings.lookup q = some d ∧ Precedes d.mapping e.mapping := by
  obtain ⟨d, hd⟩ := Option.ne_none_iff_exists'.mp
    (h.accounted.catalogued.parent_stored m e q he hq)
  obtain ⟨ghost, hghost, hid, hprecedes⟩ := (h.stored m e he).based q hq
  obtain ⟨hepochs, hsequence, hend⟩ := content_of_id hinjective d.mapping ghost
    (h.stored q d hd).genuine hghost
    ((h.accounted.catalogued.keyed q d hd).trans hid.symm)
  refine ⟨d, hd, ?_, hepochs.trans hprecedes.epochs, ?_⟩
  · rw [hend]
    exact hprecedes.shorter
  · rw [hsequence]
    exact hprecedes.sequence

end Content

/-- The representation invariant of the store. -/
structure Represented (s : ContextStore) : Prop where
  contexts : ∀ m e, s.mappings.lookup m = some e → e.references.contexts = boundTo s.contexts m
  dependents : ∀ m e, s.mappings.lookup m = some e →
    e.references.dependents = childrenOf s.mappings m
  parents : ∀ m e q, s.mappings.lookup m = some e → e.mapping.parent = some q →
    ∃ d, s.mappings.lookup q = some d ∧ Precedes d.mapping e.mapping
  bindings : ∀ c context m, s.contexts.lookup c = some context → context.evaluated = some m →
    ∃ e, s.mappings.lookup m = some e ∧ Fits e.mapping context ∧
      s.mappingValidForContext e.mapping context none = true
  used : ∀ m e, s.mappings.lookup m = some e → e.references ≠ ⟨0, 0, 0⟩
  listed : ∀ m e, s.mappings.lookup m = some e → ∀ key n,
    (bucket s.prefixIndex key n).count m =
      if key = e.mapping.epochKey ∧ n = e.mapping.representedEnd then 1 else 0
  listed_stored : ∀ key n m, m ∈ bucket s.prefixIndex key n → s.mappings.lookup m ≠ none
  tight : Tight s.prefixIndex

/-- The walk over the ancestors accepts, since every ancestor is stored and precedes. -/
theorem ancestorsValid_of_parents (s : ContextStore)
    (hparents : ∀ m e q, s.mappings.lookup m = some e → e.mapping.parent = some q →
      ∃ d, s.mappings.lookup q = some d ∧ Precedes d.mapping e.mapping)
    (hcomplete : ∀ m e, s.mappings.lookup m = some e →
      e.mapping.completeComponents.contains e.mapping.requiredComponents = true)
    (fuel : ℕ) (m : EvaluatedPrefixId) (e : MappingEntry) (he : s.mappings.lookup m = some e)
    (hfuel : e.mapping.representedEnd < fuel) : ancestorsValid s fuel e.mapping = true := by
  induction fuel generalizing m e with
  | zero => omega
  | succ fuel ih =>
    unfold ancestorsValid
    cases hq : e.mapping.parent with
    | none => rfl
    | some q =>
      obtain ⟨d, hd, hshorter, hepochs, _⟩ := hparents m e q he hq
      have hmodel : d.mapping.modelEpoch = e.mapping.modelEpoch :=
        congrArg MappingEpochKey.modelEpoch hepochs
      have hadapter : d.mapping.adapterEpoch = e.mapping.adapterEpoch :=
        congrArg MappingEpochKey.adapterEpoch hepochs
      simp only [hd]
      rw [if_neg]
      · exact ih q d hd (by omega)
      · rw [hcomplete q d hd]
        simp [hmodel, hadapter, hshorter]

/-- Where the hash is injective on the strings a run hashes, the store the run
ends in is represented. -/
theorem represented_of_run (sha : List UInt8 → Digest) (run : List (Call × World))
    (hrun : IsRun (World.Step sha) World.empty run)
    (hinjective : Set.InjOn sha {b | b ∈ hashedIn sha World.empty run}) :
    Represented (last World.empty run).store := by
  have h : Consistent sha (hashedIn sha World.empty run) (last World.empty run) :=
    consistent_run World.empty run consistent_empty hrun (fun _ hb => hb)
  have hcat := h.accounted.catalogued
  have hparents := parent_of_consistent hinjective (last World.empty run) h
  refine ⟨hcat.contexts_eq, hcat.dependents_eq, fun m e q => hparents m q e, ?_,
    fun m e he => hcat.used m e he (by simp), ?_, ?_, hcat.tight⟩
  · intro c context m hc hm
    have hbound : 0 < boundTo (last World.empty run).store.contexts m := by
      have hcount := boundTo_erase _ c context hc m
      rw [if_pos hm] at hcount
      omega
    obtain ⟨e, he⟩ := Option.ne_none_iff_exists'.mp (hcat.bound_stored m hbound)
    have hfits := h.bindings c context m e hc hm he
    have hgenuine := (h.stored m e he).genuine
    have hlength := hfits.sequence.length_le
    have htake : context.tokens.take e.mapping.representedEnd = e.mapping.sequence := by
      rw [← hgenuine.ends]
      exact (List.prefix_iff_eq_take.mp hfits.sequence).symm
    have hfit : ¬ e.mapping.representedEnd > context.tokens.length := by
      rw [← hgenuine.ends]
      omega
    refine ⟨e, he, hfits, ?_⟩
    unfold mappingValidForContext
    rw [if_neg]
    · exact ancestorsValid_of_parents _ (fun m e q => hparents m q e)
        (fun m e he => (h.stored m e he).genuine.complete) _ m e he (Nat.lt_succ_self _)
    · have hmodel : e.mapping.modelEpoch = context.modelEpoch :=
        congrArg MappingEpochKey.modelEpoch hfits.epochs
      have hadapter : e.mapping.adapterEpoch = context.adapterEpoch :=
        congrArg MappingEpochKey.adapterEpoch hfits.epochs
      simp [hmodel, hadapter, hgenuine.complete, prefixOf, hfit, htake]
  · intro m e he key n
    by_cases hfiled : key = e.mapping.epochKey ∧ n = e.mapping.representedEnd
    · rw [if_pos hfiled]
      exact List.count_eq_one_of_mem (hcat.nodup key n)
        ((hcat.listed key n m).mpr ⟨e, he, hfiled.1.symm, hfiled.2.symm⟩)
    · rw [if_neg hfiled]
      apply List.count_eq_zero_of_not_mem
      intro hmem
      obtain ⟨e', he', hkey, hn⟩ := (hcat.listed key n m).mp hmem
      rw [he] at he'
      cases he'
      exact hfiled ⟨hkey.symm, hn.symm⟩
  · intro key n m hmem hnone
    obtain ⟨e, he, _⟩ := (hcat.listed key n m).mp hmem
    rw [hnone] at he
    cases he

/-- A mapping and one that depends on it are published and then represented. -/
theorem longerPublished_represented :
    ∃ run, IsRun (World.Step Sha256.sha256) World.empty run ∧
      (last World.empty run).store.mappings.entries.length = 2 ∧
      Represented (last World.empty run).store := by
  have hrun : (trace (World.call Sha256.sha256) World.empty longerPublished).any (fun run =>
      decide (((hashedIn Sha256.sha256 World.empty run).map Sha256.sha256).Nodup) &&
      decide ((last World.empty run).store.mappings.entries.length = 2)) = true := by
    decide +kernel
  obtain ⟨run, htrace, hchecks⟩ := (Option.any_eq_true _ _).mp hrun
  rw [Bool.and_eq_true, decide_eq_true_eq, decide_eq_true_eq] at hchecks
  have hsteps := isRun_of_trace _ _ _ run htrace
  refine ⟨run, hsteps, hchecks.2, represented_of_run Sha256.sha256 run hsteps ?_⟩
  exact fun a ha b hb => List.inj_on_of_nodup_map hchecks.1 ha hb

end Cusco.StoreRepresentation
