import Cusco.LayerFrames

/-!
The layers agree: a table published for the execution slot names the slot's binding, a mapping
that is stored, and the native state of its resident entry. A publication onto an entry that is
spilled commits the table of a snapshot that the entry never gets; every other operation keeps
the layers in agreement, whether it returns a value or an error.
-/

namespace Cusco.LayerAgreement

open Calls LogicalStore Physical Physical.PhysicalManager Mapped
open PhysicalOwners PhysicalSteps PhysicalTransitions PhysicalTransfers PhysicalPreparations
open BlockTables
open PinnedCatalogue (commitPublication_pinned)
open EngineFrames EngineInvariant EngineOperations EnginePublication LayerFrames
open Calls.Call (Moves Triple)

variable {Logits Sampler : Type} {sha : List UInt8 → Digest} {e : MappedEngine}
  {b : Backend Logits Sampler} {a : MappedState Logits}

section Definitions

/-- What a table of the execution slot names in each layer. -/
structure Agrees (s : MappedState Logits) (table : DeviceBlockTable) : Prop where
  binding : ∃ bound, s.physical.bindings.lookup executionSlot = some bound ∧
    table.binding = bound.id ∧ table.mapping = bound.mapping
  stored : ∃ entry, s.logical.mappings.lookup table.mapping = some entry
  native : ∃ h, s.nativeOf table.mapping = some h ∧ table.executorMapping = h.identity

def LayersAgree (s : MappedState Logits) : Prop :=
  ∀ table, s.physical.blockTables.lookup executionSlot = some table → Agrees s table

/-- What the operations keep of the agreement; the rest follows from the engine's invariant. -/
structure Agreed (s : MappedState Logits) : Prop where
  orderly : Orderly s.physical
  native : ∀ table, s.physical.blockTables.lookup executionSlot = some table →
    ∃ h, s.nativeOf table.mapping = some h ∧ table.executorMapping = h.identity

theorem Agreed.layersAgree {s : MappedState Logits} (h : Agreed s) (hs : Sound sha e b s) :
    LayersAgree s := by
  intro table htable
  obtain ⟨bound, hbound, hnames⟩ := h.orderly.tabled executionSlot table htable
  obtain ⟨native, hnative, hsame⟩ := h.native table htable
  obtain ⟨r, hr, _⟩ := Option.bind_eq_some_iff.mp hnative
  obtain ⟨entry, hentry, _⟩ := hs.faithful table.mapping r hr
  exact ⟨⟨bound, hbound, hnames.binding, hnames.mapping⟩, ⟨entry, hentry⟩, native, hnative, hsame⟩

theorem Agreed.keep {s t : MappedState Logits} (h : Agreed s) (hk : Keeps s t) : Agreed t := by
  obtain ⟨horderly, htables⟩ := hk.physical h.orderly
  refine ⟨horderly, ?_⟩
  intro table htable
  unfold MappedState.nativeOf
  rw [hk.resident]
  exact h.native table (htables executionSlot table htable)

/-- The table of the slot, if it has one, is of this mapping and this native state. -/
structure Shows (id : EvaluatedPrefixId) (identity : ℕ) (p : PhysicalManager) : Prop where
  orderly : Orderly p
  shown : ∀ table, p.blockTables.lookup executionSlot = some table →
    table.mapping = id ∧ table.executorMapping = identity

theorem agreed_of_shows {s : MappedState Logits} {id : EvaluatedPrefixId}
    {native : RepresentationHandle} (h : Shows id native.identity s.physical)
    (hnative : s.nativeOf id = some native) : Agreed s := by
  refine ⟨h.orderly, ?_⟩
  intro table htable
  obtain ⟨hmapping, hidentity⟩ := h.shown table htable
  exact ⟨native, hmapping ▸ hnative, hidentity⟩

/-- A transition of this name is the slot's, to this mapping. -/
def Leads (i : PreparedTransitionId) (id : EvaluatedPrefixId) (p : PhysicalManager) : Prop :=
  ∀ t, p.transitions.lookup i = some t → t.context = executionSlot ∧ t.mapping = id

end Definitions

section Transitions

/-- An operation that moves the state along `Keeps`. -/
theorem triple_keeps {α : Type} {x : Operation Logits α} (hx : Moves Keeps x) :
    Triple (Keeps a) x (fun _ => Keeps a) (Keeps a) :=
  Triple.of_moves hx (fun s t hst has => Keeps.trans a s t has hst)

theorem triple_beside {α : Type} {x : Operation Logits α} {P : MappedState Logits → Prop}
    (hx : Moves Beside x) (hP : ∀ s t, Beside s t → P s → P t) : Triple P x (fun _ => P) P :=
  Triple.of_moves hx hP

theorem transitions_of_completeTransfer {p q : PhysicalManager} (hp : Owned p) {x : TransferId}
    {success : Bool} {r : Except Physical.Error Unit}
    (h : (completeTransfer x success).run p = .returns r q) : q.transitions = p.transitions := by
  rcases completeTransfer_cases hp h with hquiet | ⟨y, _, _, m, hreceived, hsettled⟩
  · obtain ⟨_, _, rfl⟩ := hquiet.frame
    rfl
  · obtain ⟨_, _, _, rfl⟩ := hsettled.frame
    rcases hreceived with ⟨_, rfl, _⟩ | ⟨_, hlanded⟩
    · rfl
    · obtain ⟨_, _, rfl⟩ := hlanded.frame
      rfl

/-- The state of a transition to a mapping, begun in `a`. -/
structure Leading (a : MappedState Logits) (i : PreparedTransitionId) (id : EvaluatedPrefixId)
    (s : MappedState Logits) : Prop where
  keeps : Keeps a s
  leads : Leads i id s.physical

theorem leading_of_beside {i : PreparedTransitionId} {id : EvaluatedPrefixId}
    (s t : MappedState Logits) (hst : Beside s t) (hs : Leading a i id s) : Leading a i id t :=
  ⟨Keeps.trans a s t hs.keeps (.of_beside hst), hst.physical ▸ hs.leads⟩

theorem prepareTransition_leads (ha : Orderly a.physical) (revision : ℕ) (id : EvaluatedPrefixId)
    (representedEnd : ℕ) (required : ComponentMask) (ids : List PhysicalRepresentationId) :
    Triple (Keeps a) (onPhysical (prepareTransition executionSlot revision id representedEnd
        required ids false))
      (fun r s => Leading a r.1 id s) (Keeps a) := by
  apply Triple.within
  intro s hs
  obtain ⟨horderly, _⟩ := hs.physical ha
  cases hrun : (prepareTransition executionSlot revision id representedEnd required ids
      false).run s.physical with
  | panics => trivial
  | returns r p =>
    have hkeeps : Keeps a { s with physical := p } := Keeps.trans a s _ hs
      ⟨rfl, rfl, settles_prepareTransition _ _ _ _ _ _ s.physical r p hrun⟩
    rcases prepareTransition_cases horderly.owned hrun with
      ⟨_, err, rfl⟩ | ⟨t, hprepared, hcontext, _, hmapping, _, rfl⟩
    · exact hkeeps
    · refine ⟨hkeeps, ?_⟩
      obtain ⟨_, hspaced, hreserved⟩ := hprepared.admitted
      obtain ⟨_, _, rfl⟩ := hspaced.frame
      obtain ⟨_, _, rfl⟩ := hreserved.frame
      intro t' ht'
      cases (AList.lookup_insert _).symm.trans ht'
      exact ⟨hcontext, hmapping⟩

theorem completeTransfers_leads (ha : Orderly a.physical) {i : PreparedTransitionId}
    {id : EvaluatedPrefixId} {cleanup : Operation Logits Unit} (hcleanup : Moves Keeps cleanup)
    (transfers : List TransferId) :
    Triple (Leading a i id) (completeTransfers cleanup transfers) (fun _ => Leading a i id)
      (Keeps a) := by
  induction transfers with
  | nil => exact Triple.pure (fun _ hs => hs)
  | cons x rest ih =>
    refine Triple.bind (R := fun _ => Leading a i id) ?_ (fun _ => ih)
    refine Triple.rescue (R := Keeps a) ?_ (triple_keeps hcleanup)
    apply Triple.within
    intro s hs
    obtain ⟨horderly, _⟩ := hs.keeps.physical ha
    cases hrun : (completeTransfer x true).run s.physical with
    | panics => trivial
    | returns r p =>
      have hkeeps : Keeps a { s with physical := p } := Keeps.trans a s _ hs.keeps
        ⟨rfl, rfl, settles_completeTransfer x true s.physical r p hrun⟩
      have hsame := transitions_of_completeTransfer horderly.owned hrun
      cases r with
      | error err => exact hkeeps
      | ok _ =>
        refine ⟨hkeeps, ?_⟩
        intro t ht
        exact hs.leads t (hsame ▸ ht)

/-- A commit shows the mapping of its transition and the identity given. -/
theorem commitMappedTransition_shows (ha : Orderly a.physical) {i : PreparedTransitionId}
    {id : EvaluatedPrefixId} (revision identity : ℕ) :
    Triple (Leading a i id) (onPhysical (commitMappedTransition i revision identity))
      (fun _ s => (s.logical = a.logical ∧ s.resident = a.resident) ∧ Shows id identity s.physical)
      (Keeps a) := by
  apply Triple.within
  intro s hs
  obtain ⟨horderly, _⟩ := hs.keeps.physical ha
  cases hrun : (commitMappedTransition i revision identity).run s.physical with
  | panics => trivial
  | returns r p =>
    cases r with
    | error err =>
      rcases commitMappedTransition_cases horderly.owned hrun with
        ⟨rfl, _⟩ | ⟨_, _, _, _, _, _, _, _, _, hresult⟩
      · exact hs.keeps
      · cases hresult
    | ok committed =>
      have hstep : PhysicalRuns.Step s.physical (.commitMappedTransition i revision identity) p :=
        congrArg PhysicalRuns.returned hrun
      obtain ⟨t, bound, published, ht, _, hpublished, _, hmapping, _, _, hidentity, hnames⟩ :=
        (publishedFor_commitMapped horderly.owned hrun).2.published
      obtain ⟨hcontext, hleads⟩ := hs.leads t ht
      refine ⟨⟨hs.keeps.logical, hs.keeps.resident⟩, orderly_step horderly hstep, ?_⟩
      intro table htable
      change p.blockTables.lookup executionSlot = some table at htable
      rw [hcontext, htable] at hpublished
      cases hpublished
      exact ⟨hnames.mapping.trans (hmapping.trans hleads), hidentity⟩

end Transitions

section Activation

theorem nativeState_found (resident : ResidentMapping Logits) :
    Triple (Keeps a) (nativeState b resident)
      (fun native s => Keeps a s ∧ ∀ h, resident.native = some h → native = h) (Keeps a) := by
  have hkeeps := triple_keeps (a := a) (keeps_of_beside (beside_nativeState b resident))
  cases hnative : resident.native with
  | none => exact hkeeps.after (fun _ s hs => ⟨hs, fun h hh => nomatch hh⟩)
  | some h =>
    unfold nativeState
    rw [hnative]
    apply Triple.pure
    intro s hs
    refine ⟨hs, ?_⟩
    intro h' hh'
    exact Option.some.inj hh'

theorem nativeIdentity_is {P Q : MappedState Logits → Prop} (native : RepresentationHandle)
    (hfails : ∀ s, P s → Q s) :
    Triple P (nativeIdentity native) (fun identity s => P s ∧ identity = native.identity) Q := by
  intro s hs
  unfold nativeIdentity
  by_cases hlt : native.identity < 2 ^ 32
  · rw [if_pos hlt]
    exact ⟨hs, rfl⟩
  · rw [if_neg hlt]
    exact hfails s hs

theorem nativeOf_setResident (s : MappedState Logits) (id : EvaluatedPrefixId)
    (r : ResidentMapping Logits) : (s.setResident id r).nativeOf id = r.native := by
  unfold MappedState.nativeOf
  rw [lookup_setResident, if_pos rfl, Option.bind_some]

/-- The entry restored gets the native state that the table shows. -/
theorem restore_agrees {id : EvaluatedPrefixId} {native : RepresentationHandle}
    {E : MappedState Logits → Prop} :
    Triple (fun s => Shows id native.identity s.physical) (restore id native)
      (fun _ => Agreed) E := by
  have hshows : ∀ s t : MappedState Logits, t.physical = s.physical →
      Shows id native.identity s.physical → Shows id native.identity t.physical :=
    fun s t hst hs => hst ▸ hs
  unfold restore
  apply Triple.read_bind
  intro s hs
  apply Triple.unwrap_bind
  intro r _
  apply Triple.unwrap_bind
  intro spilled _
  apply Triple.bind (R := fun _ t => Shows id native.identity t.physical)
  · apply Triple.update
    rintro _ rfl
    exact hs
  intro _
  apply Triple.bind (R := fun _ t => Shows id native.identity t.physical)
  · exact Triple.ignore (triple_beside (beside_removeFile spilled.path)
      (fun s t hst hs => hshows s t hst.physical hs))
  intro _
  apply Triple.update
  intro t ht
  have hshown : Shows id native.identity t.physical := ht
  exact agreed_of_shows hshown (nativeOf_setResident t id _)

theorem activatePrefix_agrees (ha : Agreed a) (context : LogicalContextId)
    (m : Option EvaluatedPrefix) :
    Triple (fun s => s = a) (activatePrefix b context m) (fun _ => Agreed) Agreed := by
  have hagreed : ∀ s, Keeps a s → Agreed s := fun s hs => ha.keep hs
  cases m with
  | none =>
    apply Triple.read_bind
    rintro s rfl
    apply (triple_keeps (keeps_of_beside (beside_activateMapping _))).weaken _
      (fun _ => hagreed) hagreed
    rintro _ rfl
    exact Keeps.refl _
  | some m =>
    apply Triple.read_bind
    rintro s rfl
    apply Triple.before (P := Keeps s)
    swap
    · rintro _ rfl
      exact Keeps.refl _
    apply Triple.require_bind hagreed
    intro resident hresident
    apply Triple.bind ((nativeState_found resident).weaken (fun _ hs => hs) (fun _ _ hs => hs)
      hagreed)
    intro native
    apply Triple.assume
    intro hnative
    have hkeeps : ∀ {α : Type} {x : Operation Logits α}, Moves Keeps x →
        Triple (Keeps s) x (fun _ => Keeps s) Agreed :=
      fun hx => (triple_keeps hx).weaken (fun _ hs => hs) (fun _ _ hs => hs) hagreed
    apply Triple.bind (hkeeps (keeps_of_beside (beside_revisionOf context)))
    intro revision
    apply Triple.bind (hkeeps (keeps_of_beside beside_activeRepresentation))
    intro previous
    apply Triple.bind ((prepareTransition_leads ha.orderly revision m.id _ _ _).weaken
      (fun _ hs => hs) (fun _ _ hs => hs) hagreed)
    rintro ⟨prepared, _, transfers⟩
    apply Triple.bind ((completeTransfers_leads ha.orderly (keeps_abortTransition prepared)
      transfers).weaken (fun _ hs => hs) (fun _ _ hs => hs) hagreed)
    intro _
    have hleads : ∀ u t : MappedState Logits, Beside u t → Leading s prepared m.id u →
        Leading s prepared m.id t := leading_of_beside
    have hactivate := triple_beside (beside_activateMapping native) hleads
    apply Triple.bind (R := fun _ => Leading s prepared m.id)
    · exact Triple.rescue (hactivate.weaken (fun _ hs => hs) (fun _ _ hs => hs)
        (fun _ hs => hs.keeps)) (hkeeps (keeps_abortTransition prepared) |>.after
          (fun _ => hagreed))
    intro _
    apply Triple.bind (nativeIdentity_is native (fun _ hs => hagreed _ hs.keeps))
    intro identity
    apply Triple.assume
    rintro rfl
    apply Triple.bind (R := fun _ t => (t.logical = s.logical ∧ t.resident = s.resident) ∧
      Shows m.id native.identity t.physical)
    · exact Triple.rescue (commitMappedTransition_shows ha.orderly revision _)
        ((hkeeps (Moves.ignore (keeps_of_beside (beside_activateMapping previous)))).after
          (fun _ => hagreed))
    intro _
    cases hfound : resident.native with
    | none => exact restore_agrees.before (fun _ ht => ht.2)
    | some h =>
      apply Triple.pure
      intro t ⟨⟨_, hsame⟩, hshows⟩
      obtain rfl := hnative h hfound
      refine agreed_of_shows hshows ?_
      unfold MappedState.nativeOf
      rw [hsame, hresident, Option.bind_some, hfound]

theorem branchPrefix_agrees (ha : Agreed a) (context : LogicalContextId)
    (m : Option EvaluatedPrefix) :
    Triple (fun s => s = a) (branchPrefix b context m) (fun _ => Agreed) Agreed := by
  have hbeside : ∀ s t : MappedState Logits, Beside s t → Agreed s → Agreed t :=
    fun s t hst hs => hs.keep (.of_beside hst)
  unfold branchPrefix
  apply Triple.bind (activatePrefix_agrees ha context m)
  intro _
  apply Triple.bind (triple_beside beside_activeRepresentation hbeside)
  intro source
  exact triple_beside (beside_forkForRequestBranch source) hbeside

end Activation

section Publication

/-- The resident entry of a mapping about to be published is not spilled. -/
def Unspilled (s : MappedState Logits) (p : PreparedPublication) : Prop :=
  ∀ r, s.resident.lookup p.mapping.id = some r → r.native.isSome = true

variable {p : PreparedPublication} {existing : Option (ResidentMapping Logits)}
  {native : RepresentationHandle}

/-- The native state that the entry of the mapping has once it is resident. -/
theorem commitBlock_agrees (hs : Sound sha e b a)
    (hvalid : a.logical.validatePublication p = .ok ())
    {c : LogicalContext} (hc : a.logical.contexts.lookup p.context = some c)
    (hrevision : c.revision ≠ u64Max) (hexisting : existing = a.resident.lookup p.mapping.id)
    (hunspilled : Unspilled a p) (representations : List PhysicalRepresentationId)
    (continuation : Logits) {E : MappedState Logits → Prop} :
    Triple (fun s => (s.logical = a.logical ∧ s.resident = a.resident) ∧
        Shows p.mapping.id ((existing.bind ResidentMapping.native).getD native).identity
          s.physical)
      (commitBlock p existing native representations continuation) (fun _ => Agreed) E := by
  intro s ⟨⟨hlogical, hresident⟩, hshows⟩
  obtain ⟨l, hcommit, _⟩ := commitPublication_pinned hs.accounted hs.pinned hvalid hc hrevision
  have hfirst : (onLogical (fun l => l.commitPublication p) : Operation Logits _).expect.run s =
      .returns (.ok p.mapping) { s with logical := l } := by
    simp only [Call.expect, onLogical, Call.within, hlogical, hcommit]
  suffices hdone : Triple (fun t => t = { s with logical := l })
      (Call.skipIf existing.isSome (Call.update (fun s => s.setResident p.mapping.id
        ⟨some native, none, representations, continuation⟩)) : Operation Logits Unit)
      (fun _ => Agreed) E by
    unfold commitBlock
    rw [Call.run_bind_ok hfirst]
    exact (Triple.bind hdone (f := fun _ => pure p.mapping.id) (Q := fun _ => Agreed)
      (fun _ => Triple.pure (fun _ ht => ht))) _ rfl
  cases hfound : existing with
  | some r =>
    have hr : a.resident.lookup p.mapping.id = some r := hexisting.symm.trans hfound
    obtain ⟨h, hh⟩ := Option.isSome_iff_exists.mp (hunspilled r hr)
    rw [hfound, Option.bind_some, hh, Option.getD_some] at hshows
    apply Triple.pure
    rintro t rfl
    refine agreed_of_shows hshows ?_
    unfold MappedState.nativeOf
    rw [hresident, hr, Option.bind_some, hh]
  | none =>
    rw [hfound, Option.bind_none, Option.getD_none] at hshows
    apply Triple.update
    rintro t rfl
    exact agreed_of_shows hshows (nativeOf_setResident _ _ _)

theorem transitionBlock_agrees (hs : Sound sha e b a) (ha : Agreed a)
    (hvalid : a.logical.validatePublication p = .ok ())
    (hexisting : existing = a.resident.lookup p.mapping.id) (hunspilled : Unspilled a p)
    (representedEnd : ℕ) (rollback : RepresentationHandle)
    (representations : List PhysicalRepresentationId) (continuation : Logits) :
    Triple (Keeps a)
      (transitionBlock e.profile p.context representedEnd native rollback continuation p existing
        representations) (fun _ => Agreed) Agreed := by
  have hagreed : ∀ s, Keeps a s → Agreed s := fun s hs => ha.keep hs
  have hclean : Moves Keeps (rollBack (registeredOf existing representations) rollback :
      Operation Logits Unit) := keeps_rollBack _ _
  have hcleaned : Triple (Keeps a) (rollBack (registeredOf existing representations) rollback)
      (fun _ => Agreed) Agreed :=
    (triple_keeps hclean).weaken (fun _ hs => hs) (fun _ => hagreed) hagreed
  have hrevision : Triple (Keeps a) (revisionOf p.context) (fun revision s => Keeps a s ∧
      ∃ c, a.logical.contexts.lookup p.context = some c ∧ c.revision = revision) Agreed := by
    unfold revisionOf
    apply Triple.read_bind
    intro s hs
    apply Triple.require_bind
    · rintro t rfl
      exact hagreed t hs
    · intro c hc
      apply Triple.pure
      rintro t rfl
      exact ⟨hs, c, hs.logical ▸ hc, rfl⟩
  unfold transitionBlock
  apply Triple.bind hrevision
  intro revision
  apply Triple.assume
  rintro ⟨c, hc, rfl⟩
  apply Triple.require_bind hagreed
  intro expected hexpected
  have hmax : c.revision ≠ u64Max := by
    intro heq
    rw [if_pos heq] at hexpected
    cases hexpected
  apply Triple.bind (R := fun r => Leading a r.1 p.mapping.id)
  · exact Triple.rescue (prepareTransition_leads ha.orderly expected p.mapping.id _ _ _) hcleaned
  rintro ⟨transition, _, transfers⟩
  apply Triple.bind ((completeTransfers_leads ha.orderly (keeps_bind
    (keeps_abortTransition transition) (fun _ => hclean)) transfers).weaken (fun _ hs => hs)
    (fun _ _ hs => hs) hagreed)
  intro _
  apply Triple.bind (nativeIdentity_is _ (fun _ hs => hagreed _ hs.keeps))
  intro identity
  apply Triple.assume
  rintro rfl
  refine Triple.bind (Triple.rescue (commitMappedTransition_shows ha.orderly expected _)
    hcleaned) ?_
  intro _
  exact commitBlock_agrees hs hvalid hc hmax hexisting hunspilled representations continuation

/-- Publishing a block keeps the agreement unless the mapping's entry is spilled. -/
theorem publishBlock_agrees (hs : Sound sha e b a) (ha : Agreed a) {context : LogicalContextId}
    {representedEnd : ℕ} {parent : Option EvaluatedPrefixId} {continuation : Logits}
    (hunspilled : ∀ p, a.logical.preparePublication sha context representedEnd parent
        e.profile.requiredMask e.profile.requiredMask zeroDigest = .ok p →
      a.logical.validatePublication p = .ok () → Unspilled a p) :
    Triple (Keeps a)
      (publishBlock sha e.profile b context representedEnd parent native continuation)
      (fun _ => Agreed) Agreed := by
  have hagreed : ∀ s, Keeps a s → Agreed s := fun s hs => ha.keep hs
  have hkeeps : ∀ {α : Type} {x : Operation Logits α}, Moves Keeps x →
      Triple (Keeps a) x (fun _ => Keeps a) Agreed :=
    fun hx => (triple_keeps hx).weaken (fun _ hs => hs) (fun _ _ hs => hs) hagreed
  have hask : ∀ {α : Type} (f : ContextStore → Except LogicalStore.Error α),
      Triple (Keeps a) (askLogical f) (fun r s => Keeps a s ∧ f a.logical = .ok r) Agreed := by
    intro α f
    refine (triple_askLogical f).weaken (fun _ hs => hs) ?_ hagreed
    intro r s ⟨hs, hr⟩
    exact ⟨hs, hs.logical ▸ hr⟩
  unfold publishBlock
  apply Triple.bind (hkeeps (keeps_of_beside (beside_reserveBlock e.profile b native)))
  intro bytes
  apply Triple.bind (hkeeps (keeps_of_beside beside_activeRepresentation))
  intro active
  apply Triple.read_bind
  intro s hs'
  have hbefore : ∀ t, t = s → Keeps a t := by
    rintro t rfl
    exact hs'
  apply Triple.bind ((hask _).before hbefore)
  intro p
  apply Triple.assume
  intro hp
  obtain ⟨rfl, _⟩ := preparePublication_inv hp
  apply Triple.bind (hask _)
  intro _
  apply Triple.assume
  intro hvalid
  apply Triple.bind (hkeeps (keeps_representationsOf _ _ _ _ _ _))
  intro representations
  exact transitionBlock_agrees hs ha hvalid (hs'.resident ▸ rfl) (hunspilled p hp hvalid) _ _ _ _

end Publication

section Spilling

/-- The manager is in order and the slot has no table. -/
structure Tableless (p : PhysicalManager) : Prop where
  orderly : Orderly p
  tables : p.blockTables.lookup executionSlot = none

theorem Tableless.settle {p q : PhysicalManager} (h : Tableless p) (hpq : Settles p q) :
    Tableless q := by
  obtain ⟨horderly, htables⟩ := hpq h.orderly
  refine ⟨horderly, Option.eq_none_iff_forall_ne_some.mpr ?_⟩
  intro table htable
  cases h.tables.symm.trans (htables executionSlot table htable)

theorem Tableless.agreed {s : MappedState Logits} (h : Tableless s.physical) : Agreed s :=
  ⟨h.orderly, fun _ htable => nomatch h.tables.symm.trans htable⟩

/-- Without a binding the slot has no table, and without the slot's binding there is none. -/
theorem releaseBinding_tableless {E : MappedState Logits → Prop} :
    Triple (fun s => Orderly s.physical)
      (onPhysical (releaseBinding executionSlot) : Operation Logits Unit).ignore
      (fun _ s => Tableless s.physical) E := by
  apply Triple.ignore
  apply Triple.within
  intro s hs
  suffices hreleased : ∀ r p, (releaseBinding executionSlot).run s.physical = .returns r p →
      Tableless p by
    cases hrun : (releaseBinding executionSlot).run s.physical with
    | panics => trivial
    | returns r p =>
      cases r with
      | ok _ => exact hreleased _ p hrun
      | error err => exact hreleased _ p hrun
  intro r p hrun
  have hsettles := settles_releaseBinding executionSlot s.physical r p hrun
  by_cases hbound : s.physical.bindings.lookup executionSlot = none
  · refine Tableless.settle ⟨hs, Option.eq_none_iff_forall_ne_some.mpr ?_⟩ hsettles
    intro table htable
    obtain ⟨bound, hlookup, _⟩ := hs.tabled executionSlot table htable
    cases hbound.symm.trans hlookup
  · exact ⟨(hsettles hs).1, (recedes_unbind hrun).2 hbound⟩

/-- The manager settles, whatever happens to the rest. -/
def Steady (s t : MappedState Logits) : Prop := Settles s.physical t.physical

theorem steady_refl (s : MappedState Logits) : Steady s s := settles_refl _

theorem steady_trans (s t u : MappedState Logits) (hst : Steady s t) (htu : Steady t u) :
    Steady s u :=
  settles_trans _ _ _ hst htu

theorem steady_of_beside {α : Type} {x : Operation Logits α} (hx : Moves Beside x) :
    Moves Steady x :=
  fun s r t hrun => (Keeps.of_beside (hx s r t hrun)).physical

theorem steady_update {f : MappedState Logits → MappedState Logits}
    (hf : ∀ s, (f s).physical = s.physical) :
    Moves Steady (Call.update f : Operation Logits Unit) :=
  Moves.update (fun s => show Settles _ _ by rw [hf s]; exact settles_refl _)

theorem steady_spillOne (id : EvaluatedPrefixId) (native : RepresentationHandle) :
    Moves Steady (spillOne e b id native) := by
  have hread : Moves Steady (Call.read : Operation Logits (MappedState Logits)) :=
    Moves.read steady_refl
  refine Moves.bind steady_trans (steady_of_beside (beside_exportMapping native)) ?_
  intro mapping
  refine Moves.bind steady_trans hread ?_
  intro s
  apply Moves.ite
  · exact Moves.pure steady_refl false
  · refine Moves.bind steady_trans (steady_of_beside (beside_writeFile _ _)) ?_
    intro _
    refine Moves.bind steady_trans hread ?_
    intro s
    refine Moves.bind steady_trans (Moves.unwrap steady_refl _) ?_
    intro r
    refine Moves.bind steady_trans (moves_demoteAll steady_refl steady_trans
      (fun id => Moves.lift (settles_demoteToStorage id) (fun _ _ hp => hp)) _) ?_
    intro _
    refine Moves.bind steady_trans hread ?_
    intro s
    refine Moves.bind steady_trans (Moves.unwrap steady_refl _) ?_
    intro total
    exact Moves.bind steady_trans (steady_update (fun _ => rfl))
      (fun _ => Moves.pure steady_refl true)

theorem steady_spillAll (candidates : List (EvaluatedPrefixId × RepresentationHandle))
    (spilled : ℕ) : Moves Steady (spillAll e b candidates spilled) := by
  induction candidates generalizing spilled with
  | nil => exact Moves.pure steady_refl spilled
  | cons candidate rest ih =>
    exact Moves.bind steady_trans (steady_spillOne candidate.1 candidate.2)
      (fun done => ih (if done then spilled + 1 else spilled))

/-- Nothing is spilled before the slot's table is gone. -/
theorem spillInactiveMappings_agrees (order : List EvaluatedPrefixId) :
    Triple Agreed (spillInactiveMappings e b order) (fun _ => Agreed) Agreed := by
  unfold spillInactiveMappings
  cases e.spillDir with
  | none => exact Triple.pure (fun _ hs => hs)
  | some dir =>
    apply Triple.read_bind
    intro s hs
    apply Triple.ite
    · intro _
      apply Triple.pure
      rintro _ rfl
      exact hs
    · intro _
      apply Triple.bind (R := fun _ t => Tableless t.physical)
      · apply releaseBinding_tableless.before
        rintro _ rfl
        exact hs.orderly
      intro _
      exact (Triple.of_moves (steady_spillAll _ 0) (fun _ _ hst ht => ht.settle hst)).weaken
        (fun _ ht => ht) (fun _ _ ht => ht.agreed) (fun _ ht => ht.agreed)

end Spilling

end Cusco.LayerAgreement
