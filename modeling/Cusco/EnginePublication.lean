import Cusco.EngineOperations
import Cusco.StoreRepresentation

/-!
Publishing a block keeps the engine's invariant. Nothing but the physical manager, the active
representation and the answers changes before the publication is committed; the commit binds
the session's context to a mapping one block longer than the session's parent, which is
resident with native state that holds its tokens.
-/

namespace Cusco.EnginePublication

open Calls LogicalStore Physical Mapped StoreAccounts PinnedCatalogue PublicationCommit
open EngineFrames EngineInvariant EngineOperations
open Calls.Call (Moves Triple)

variable {Logits Sampler : Type} {sha : List UInt8 → Digest} {e : MappedEngine}
  {b : Backend Logits Sampler} {branch : Option RepresentationHandle}
  {s₀ : MappedState Logits} {context : LogicalContextId} {tokens : List Token}

/-- The context holds these tokens under the engine's epochs. -/
def Owns (context : LogicalContextId) (tokens : List Token) (s : MappedState Logits) : Prop :=
  ∃ c, s.logical.contexts.lookup context = some c ∧ c.tokens = tokens ∧
    c.modelEpoch = s.modelEpoch ∧ c.adapterEpoch = adapterEpoch

theorem stable_owns (context : LogicalContextId) (tokens : List Token) :
    Stable (fun s : MappedState Logits => Owns context tokens s) := by
  intro s t ha ⟨c, hc, hrest⟩
  rw [Owns, ha.logical, ha.modelEpoch]
  exact ⟨c, hc, hrest⟩

/-- The mapping that a block of this length follows, or none for the first block. -/
structure BlockStart (e : MappedEngine) (l : ContextStore) (parent : Option EvaluatedPrefixId)
    (representedEnd : ℕ) : Prop where
  positive : 0 < representedEnd
  divides : e.profile.blockSize ∣ representedEnd
  first : parent = none → representedEnd = e.profile.blockSize
  longer : ∀ p, parent = some p → ∃ entry, l.mappings.lookup p = some entry ∧
    entry.mapping.representedEnd + e.profile.blockSize = representedEnd

/-- The mapping with the tokens of a completed block. -/
def Published (tokens : List Token) (representedEnd : ℕ) (id : EvaluatedPrefixId)
    (s : MappedState Logits) : Prop :=
  ∃ entry, s.logical.mappings.lookup id = some entry ∧
    entry.mapping.representedEnd = representedEnd ∧
    entry.mapping.sequence = tokens.take representedEnd

section Preparation

/-- What a preparation that succeeds found and computed. -/
theorem preparePublication_inv {l : ContextStore} {representedEnd : ℕ}
    {parent : Option EvaluatedPrefixId} {required complete : ComponentMask} {parameters : Digest}
    {p : PreparedPublication}
    (h : l.preparePublication sha context representedEnd parent required complete parameters =
      .ok p) :
    p.context = context ∧ ∃ c, l.contexts.lookup context = some c ∧
      representedEnd ≤ c.tokens.length ∧
      (∀ q entry, parent = some q → l.mappings.lookup q = some entry →
        c.tokens.take entry.mapping.representedEnd = entry.mapping.sequence) ∧
      p.mapping = {
        id := mappingId sha c.modelEpoch c.adapterEpoch parent
          (branchId sha (c.tokens.take representedEnd)) representedEnd required parameters
          (dependencyHash sha (parentLineage l parent)
            (branchId sha (c.tokens.take representedEnd)) representedEnd)
        branch := branchId sha (c.tokens.take representedEnd)
        representedEnd := representedEnd
        modelEpoch := c.modelEpoch
        adapterEpoch := c.adapterEpoch
        parent := parent
        lineage := dependencyHash sha (parentLineage l parent)
          (branchId sha (c.tokens.take representedEnd)) representedEnd
        requiredComponents := required
        completeComponents := complete
        evaluationParameters := parameters
        sequence := c.tokens.take representedEnd } := by
  unfold ContextStore.preparePublication at h
  cases hc : l.contexts.lookup context with
  | none => simp [hc] at h
  | some c =>
    simp only [hc] at h
    split at h
    · cases h
    · rename_i hend
      split at h
      · cases h
      · split at h
        · cases h
        · rename_i lineage hlineage
          cases h
          cases parent with
          | none =>
            cases hlineage
            exact ⟨rfl, c, rfl, by omega, (fun q entry hq => nomatch hq), rfl⟩
          | some q =>
            simp only at hlineage
            cases hq : l.mappings.lookup q with
            | none =>
              rw [hq] at hlineage
              cases hlineage
            | some entry =>
              simp only [hq] at hlineage
              split at hlineage
              · cases hlineage
              · rename_i hvalid
                push Not at hvalid
                cases hlineage
                refine ⟨rfl, c, rfl, by omega, ?_, ?_⟩
                · intro q' entry' hq' hentry'
                  cases hq'
                  rw [hq] at hentry'
                  cases hentry'
                  exact (StoreRepresentation.fits_of_valid l _ c _ (by simpa using hvalid.2)).2
                · simp only [parentLineage, Option.bind_some, hq, Option.map_some,
                    Option.getD_some]

/-- The mapping prepared is a block of the store. -/
theorem block_prepared {s : MappedState Logits} {representedEnd : ℕ}
    {parent : Option EvaluatedPrefixId} {p : PreparedPublication}
    (howns : Owns context tokens s) (hstart : BlockStart e s.logical parent representedEnd)
    (h : s.logical.preparePublication sha context representedEnd parent e.profile.requiredMask
      e.profile.requiredMask zeroDigest = .ok p) :
    p.context = context ∧ Block sha e s.modelEpoch s.logical p.mapping ∧
      p.mapping.representedEnd = representedEnd ∧
      p.mapping.sequence = tokens.take representedEnd := by
  obtain ⟨c, hc, rfl, hmodel, hadapter⟩ := howns
  obtain ⟨hcontext, c', hc', hend, hparent, hmapping⟩ := preparePublication_inv h
  rw [hc] at hc'
  cases hc'
  rw [hmapping]
  refine ⟨hcontext, ⟨?_, hstart.positive, hstart.divides, hmodel, hadapter, hstart.first, ?_, rfl,
    rfl⟩, rfl, rfl⟩
  · show (c.tokens.take representedEnd).length = representedEnd
    rw [List.length_take]
    omega
  · intro q hq
    obtain ⟨entry, hentry, hlength⟩ := hstart.longer q hq
    refine ⟨entry, hentry, hlength, ?_⟩
    show entry.mapping.sequence =
      (c.tokens.take representedEnd).take entry.mapping.representedEnd
    rw [← hparent q entry hq hentry, List.take_take, Nat.min_eq_left (by omega)]

end Preparation

section Commit

/-- The native state and the logits of the block about to be published. -/
structure Evaluated (b : Backend Logits Sampler) (s₀ : MappedState Logits) (tokens : List Token)
    (native : RepresentationHandle) (continuation : Logits) (s : MappedState Logits) : Prop where
  issued : native.identity < s.executor.nextIdentity
  fresh : s₀.executor.nextIdentity ≤ native.identity
  holds : s.executor.tokensOf native = tokens
  continuation : continuation = b.logits tokens

theorem stable_evaluated (native : RepresentationHandle) (continuation : Logits) :
    Stable (Evaluated b s₀ tokens native continuation) := by
  intro s t ha hs
  exact ⟨ha.nextIdentity.symm ▸ hs.issued, hs.fresh, (ha.tokensOf native).trans hs.holds,
    hs.continuation⟩

/-- The state after a commit to the store, with the mapping resident. -/
theorem held_committed {s t : MappedState Logits} {p : PreparedPublication} {l : ContextStore}
    {r : ResidentMapping Logits}
    (h : Held sha e b (some p.context) branch s₀ s) (hadds : Adds s.logical p l)
    (hblock : Block sha e s.modelEpoch s.logical p.mapping)
    (hexecutor : t.executor = s.executor) (hroot : t.root = s.root)
    (hmodelEpoch : t.modelEpoch = s.modelEpoch) (hfiles : t.files = s.files)
    (hspillBytes : t.spillBytes = s.spillBytes) (hlogical : t.logical = l)
    (hresident : ∀ k, t.resident.lookup k =
      if k = p.mapping.id then some r else s.resident.lookup k)
    (hfaithful : Faithful b t p.mapping.id r p.mapping)
    (hbytes : t.resident.total (fun _ r => spilledBytes r) =
      s.resident.total (fun _ r => spilledBytes r))
    (hnative : ∀ k, r.native = some k → s.nativeOf p.mapping.id = some k ∨
      s₀.executor.nextIdentity ≤ k.identity) :
    Held sha e b (some p.context) branch s₀ t := by
  obtain ⟨context, hc, hc'⟩ := hadds.committed.bound
  have hblocks : ∀ m, Block sha e s.modelEpoch s.logical m → Block sha e t.modelEpoch t.logical m :=
    fun m hm => hmodelEpoch.symm ▸ hlogical.symm ▸ hm.keep hadds.keeps.kept
  have hpresent : ∀ c, t.logical.contexts.lookup c = none ↔ s.logical.contexts.lookup c = none := by
    intro c
    rw [hlogical]
    by_cases hcontext : c = p.context
    · rw [hcontext, hc, hc']
      exact iff_of_false (fun hnone => nomatch hnone) (fun hnone => nomatch hnone)
    · rw [hadds.committed.others c hcontext]
  refine ⟨⟨?_, ?_, ?_, ?_, ?_, ?_, ?_, ?_, ?_, ?_⟩, ⟨?_, ?_, ?_, ?_, ?_, ?_, ?_, ?_, ?_⟩⟩
  · exact hroot.trans h.evolves.root
  · exact hmodelEpoch.trans h.evolves.modelEpoch
  · rw [hlogical]
    exact h.evolves.next.trans hadds.keeps.next.ge
  · intro c hnext hown
    rw [hlogical, hadds.committed.others c (fun heq => hown (heq ▸ rfl))]
    exact h.evolves.contexts c hnext hown
  · intro c hnext
    exact (hpresent c).trans (h.evolves.present c hnext)
  · intro c hle hlt hnone
    rw [hlogical, hadds.keeps.next] at hlt
    exact h.evolves.created c hle hlt ((hpresent c).mp hnone)
  · intro m entry hentry
    obtain ⟨entry', hentry', hsame⟩ := h.evolves.mappings m entry hentry
    obtain ⟨entry'', hentry'', hsame'⟩ := hadds.keeps.kept m entry' hentry'
    exact ⟨entry'', hlogical ▸ hentry'', hsame'.trans hsame⟩
  · rw [hexecutor]
    exact h.evolves.identities
  · rw [hexecutor]
    exact h.evolves.evaluated
  · intro m k hk
    unfold MappedState.nativeOf at hk
    rw [hresident] at hk
    by_cases hm : m = p.mapping.id
    · rw [if_pos hm, Option.bind_some] at hk
      rcases hnative k hk with hold | hnew
      · exact h.evolves.natives m k (hm ▸ hold)
      · exact Or.inr hnew
    · rw [if_neg hm] at hk
      exact h.evolves.natives m k hk
  · rw [hlogical]
    exact hadds.accounted
  · rw [hlogical]
    exact hadds.keeps.pinned
  · intro m entry hentry
    rw [hlogical] at hentry
    rcases hadds.added m entry hentry with ⟨entry', hentry', hsame⟩ | ⟨_, hsame⟩
    · exact hblocks _ (hsame ▸ h.sound.blocks m entry' hentry')
    · exact hblocks _ (hsame ▸ hblock)
  · intro m entry hentry
    rw [hlogical] at hentry
    rw [hresident]
    by_cases hm : m = p.mapping.id
    · exact ⟨r, if_pos hm⟩
    · rw [if_neg hm]
      rcases hadds.added m entry hentry with ⟨entry', hentry', _⟩ | ⟨hid, _⟩
      · exact h.sound.resident m entry' hentry'
      · exact absurd hid.symm hm
  · intro m r' hr'
    rw [hresident] at hr'
    rw [hlogical]
    by_cases hm : m = p.mapping.id
    · rw [if_pos hm] at hr'
      cases hr'
      obtain ⟨entry, hentry, hsame⟩ := hadds.committed.stored
      exact ⟨entry, hm ▸ hentry, hm ▸ hsame ▸ hfaithful⟩
    · rw [if_neg hm] at hr'
      obtain ⟨entry, hentry, hf⟩ := h.sound.faithful m r' hr'
      obtain ⟨entry', hentry', hsame⟩ := hadds.keeps.kept m entry hentry
      refine ⟨entry', hentry', hsame ▸ ⟨hf.either, ?_, ?_, hf.continuation⟩⟩
      · rw [hexecutor]
        exact hf.native
      · rw [hfiles]
        exact hf.spill
  · rw [hspillBytes, hbytes]
    exact h.sound.spilled
  · rw [hspillBytes]
    exact h.sound.bounded
  · rw [hroot, hexecutor]
    exact h.sound.root_issued
  · rw [hroot, hexecutor]
    exact h.sound.root_empty

/-- A publication that is validated, and what becomes resident with it. -/
structure Validated (sha : List UInt8 → Digest) (e : MappedEngine) (b : Backend Logits Sampler)
    (branch : Option RepresentationHandle) (s₀ : MappedState Logits) (p : PreparedPublication)
    (existing : Option (ResidentMapping Logits)) (native : RepresentationHandle)
    (continuation : Logits) (s : MappedState Logits) : Prop where
  held : Held sha e b (some p.context) branch s₀ s
  valid : s.logical.validatePublication p = .ok ()
  block : Block sha e s.modelEpoch s.logical p.mapping
  evaluated : Evaluated b s₀ p.mapping.sequence native continuation s
  existing : existing = s.resident.lookup p.mapping.id

variable {p : PreparedPublication} {existing : Option (ResidentMapping Logits)}
  {native : RepresentationHandle} {continuation : Logits}

theorem stable_validated :
    Stable (Validated sha e b branch s₀ p existing native continuation) := by
  intro s t ha hs
  refine ⟨hs.held.of_aside ha, ?_, ?_, stable_evaluated native continuation s t ha hs.evaluated,
    ?_⟩
  · rw [ha.logical]
    exact hs.valid
  · rw [ha.logical, ha.modelEpoch]
    exact hs.block
  · rw [ha.resident]
    exact hs.existing

/-- What the caller finds after the commit: its context bound to the mapping stored. -/
def Bound (p : PreparedPublication) (c : LogicalContext) (s : MappedState Logits) : Prop :=
  s.logical.contexts.lookup p.context = some { c with
      evaluated := some p.mapping.id
      revision := if c.evaluated = some p.mapping.id then c.revision else c.revision + 1 } ∧
    ∃ entry, s.logical.mappings.lookup p.mapping.id = some entry ∧ entry.mapping = p.mapping

theorem commitBlock_held {c : LogicalContext} (hrevision : c.revision ≠ u64Max)
    (representations : List PhysicalRepresentationId) :
    Triple (fun s => Validated sha e b branch s₀ p existing native continuation s ∧
        s.logical.contexts.lookup p.context = some c)
      (commitBlock p existing native representations continuation)
      (fun id s => Held sha e b (some p.context) branch s₀ s ∧ id = p.mapping.id ∧ Bound p c s)
      (Held sha e b (some p.context) branch s₀) := by
  rintro s ⟨hs, hc⟩
  obtain ⟨l, hcommit, hadds⟩ := commitPublication_pinned hs.held.sound.accounted
    hs.held.sound.pinned hs.valid hc hrevision
  have hbound : ∀ t : MappedState Logits, t.logical = l → Bound p c t := by
    rintro t rfl
    obtain ⟨c', hc', hbound⟩ := hadds.committed.bound
    rw [hc] at hc'
    cases hc'
    exact ⟨hbound, hadds.committed.stored⟩
  have hfirst : (onLogical (fun l => l.commitPublication p) : Operation Logits _).expect.run s =
      .returns (.ok p.mapping) { s with logical := l } := by
    simp only [Call.expect, onLogical, Call.within, hcommit]
  suffices hdone : Triple (fun t => t = { s with logical := l })
      (Call.skipIf existing.isSome (Call.update (fun s => s.setResident p.mapping.id
        ⟨some native, none, representations, continuation⟩)) : Operation Logits Unit)
      (fun _ t => Held sha e b (some p.context) branch s₀ t ∧ Bound p c t)
      (Held sha e b (some p.context) branch s₀) by
    have hrest := Triple.bind hdone (f := fun _ => pure p.mapping.id)
      (Q := fun id t => Held sha e b (some p.context) branch s₀ t ∧ id = p.mapping.id ∧ Bound p c t)
      (fun _ => Triple.pure (fun t ht => ⟨ht.1, rfl, ht.2⟩))
    unfold commitBlock
    rw [Call.run_bind_ok hfirst]
    exact hrest _ rfl
  cases hexisting : existing with
  | some r =>
    apply Triple.pure
    rintro t rfl
    have hr : s.resident.lookup p.mapping.id = some r := hs.existing.symm.trans hexisting
    obtain ⟨entry, hentry, hf⟩ := hs.held.sound.faithful _ r hr
    obtain ⟨_, hsame, _⟩ := validatePublication_ok s.logical p hs.valid
    rw [hsame entry hentry] at hf
    refine ⟨held_committed hs.held hadds hs.block rfl rfl rfl rfl rfl rfl ?_
      ⟨hf.either, hf.native, hf.spill, hf.continuation⟩ rfl ?_, hbound _ rfl⟩
    · intro k
      by_cases hk : k = p.mapping.id
      · rw [if_pos hk, hk]
        exact hr
      · rw [if_neg hk]
    · intro k hk
      refine Or.inl ?_
      unfold MappedState.nativeOf
      rw [hr, Option.bind_some, hk]
  | none =>
    apply Triple.update
    rintro t rfl
    have hnone : s.resident.lookup p.mapping.id = none := hs.existing.symm.trans hexisting
    refine ⟨held_committed hs.held hadds hs.block rfl rfl rfl rfl rfl rfl
      (fun k => lookup_setResident _ _ k _) ⟨rfl, ?_, ?_, hs.evaluated.continuation⟩ ?_ ?_,
      hbound _ rfl⟩
    · intro k hk
      cases hk
      exact ⟨hs.evaluated.issued, hs.evaluated.holds⟩
    · intro x hx
      cases hx
    · show (s.resident.insert p.mapping.id _).total _ = _
      rw [AList.total_insert_new _ _ _ _ hnone]
      exact Nat.zero_add _
    · intro k hk
      cases hk
      exact Or.inr hs.evaluated.fresh

theorem triple_revisionOf {P : MappedState Logits → Prop} :
    Triple P (revisionOf context) (fun revision s => P s ∧
      ∃ c, s.logical.contexts.lookup context = some c ∧ c.revision = revision) P := by
  unfold revisionOf
  apply Triple.read_bind
  intro a ha
  apply Triple.require_bind
  · rintro s rfl
    exact ha
  · intro c hc
    apply Triple.pure
    rintro s rfl
    exact ⟨ha, c, hc, rfl⟩

theorem transitionBlock_held (representedEnd : ℕ) (rollback : RepresentationHandle)
    (representations : List PhysicalRepresentationId) :
    Triple (fun s => Validated sha e b branch s₀ p existing native continuation s ∧
        Owns p.context tokens s)
      (transitionBlock e.profile p.context representedEnd native rollback continuation p existing
        representations)
      (fun id s => Held sha e b (some p.context) branch s₀ s ∧ Owns p.context tokens s ∧
        ∃ entry, s.logical.mappings.lookup id = some entry ∧ entry.mapping = p.mapping)
      (Held sha e b (some p.context) branch s₀) := by
  let P := fun s => Validated sha e b branch s₀ p existing native continuation s ∧
    Owns p.context tokens s
  have hP : Stable P := stable_validated.and (stable_owns p.context tokens)
  have hheld : ∀ s, P s → Held sha e b (some p.context) branch s₀ s := fun s hs => hs.1.held
  unfold transitionBlock
  apply Triple.bind (triple_revisionOf.weaken (fun _ hs => hs) (fun _ _ hs => hs) hheld)
  intro revision
  apply Triple.require_bind (fun s hs => hheld s hs.1)
  intro expected hexpected
  have hrevision : revision ≠ u64Max := by
    intro heq
    rw [if_pos heq] at hexpected
    cases hexpected
  have hknown : Stable (fun s => P s ∧ ∃ c, s.logical.contexts.lookup p.context = some c ∧
      c.revision = revision) := by
    intro s t ha ⟨hs, c, hc, hsame⟩
    exact ⟨hP s t ha hs, c, by rw [ha.logical, hc], hsame⟩
  have haside : ∀ {α : Type} {x : Operation Logits α}, Moves Aside x →
      Triple (fun s => P s ∧ ∃ c, s.logical.contexts.lookup p.context = some c ∧
          c.revision = revision) x
        (fun _ s => P s ∧ ∃ c, s.logical.contexts.lookup p.context = some c ∧
          c.revision = revision) (Held sha e b (some p.context) branch s₀) :=
    fun hx => (triple_aside hx hknown).weaken (fun _ hs => hs) (fun _ _ hs => hs)
      (fun s hs => hheld s hs.1)
  have hclean : Moves Aside (rollBack (registeredOf existing representations) rollback :
      Operation Logits Unit) := aside_rollBack _ _
  apply Triple.bind (haside (aside_rescue (aside_onPhysical _) hclean))
  rintro ⟨transition, _, transfers⟩
  apply Triple.bind (haside (aside_completeTransfers
    (aside_bind (aside_abortTransition transition) (fun _ => hclean)) transfers))
  intro _
  apply Triple.bind (haside (aside_nativeIdentity _))
  intro identity
  apply Triple.bind (haside (aside_rescue (aside_onPhysical _) hclean))
  intro _ s ⟨⟨hvalidated, howns⟩, c, hc, hsame⟩
  have hcommit : Triple (fun t => t = s)
      (commitBlock p existing native representations continuation)
      (fun id t => Held sha e b (some p.context) branch s₀ t ∧ id = p.mapping.id ∧ Bound p c t)
      (Held sha e b (some p.context) branch s₀) := by
    apply (commitBlock_held (hsame ▸ hrevision) representations).before
    rintro t rfl
    exact ⟨hvalidated, hc⟩
  refine hcommit.after ?_ s rfl
  rintro id t ⟨ht, rfl, hbound, hstored⟩
  obtain ⟨c', hc', htokens, hmodel, hadapter⟩ := howns
  rw [hc] at hc'
  cases hc'
  have hepoch : t.modelEpoch = s.modelEpoch :=
    ht.evolves.modelEpoch.trans hvalidated.held.evolves.modelEpoch.symm
  exact ⟨ht, ⟨_, hbound, htokens, hmodel.trans hepoch.symm, hadapter⟩, hstored⟩

/-- Publishing a block of the context's tokens makes the mapping it names resident. -/
theorem publishBlock_held (branch : Option RepresentationHandle)
    {own : Option LogicalContextId} (hown : own = some context)
    {representedEnd : ℕ} {parent : Option EvaluatedPrefixId} :
    Triple (fun s => Held sha e b own branch s₀ s ∧ Owns context tokens s ∧
        BlockStart e s.logical parent representedEnd ∧
        Evaluated b s₀ (tokens.take representedEnd) native continuation s)
      (publishBlock sha e.profile b context representedEnd parent native continuation)
      (fun id s => Held sha e b own branch s₀ s ∧ Owns context tokens s ∧
        Published tokens representedEnd id s)
      (Held sha e b own branch s₀) := by
  subst hown
  intro a ⟨hheld, howns, hstart, hevaluated⟩
  have hrefl : ∀ s, Aside a s → Held sha e b (some context) branch s₀ s :=
    fun s ha => hheld.of_aside ha
  have haside : ∀ {α : Type} {x : Operation Logits α}, Moves Aside x →
      Triple (Aside a) x (fun _ => Aside a) (Held sha e b (some context) branch s₀) :=
    fun hx => (triple_aside hx (stable_aside a)).weaken (fun _ hs => hs) (fun _ _ hs => hs) hrefl
  have hask : ∀ {α : Type} (f : ContextStore → Except LogicalStore.Error α),
      Triple (Aside a) (askLogical f) (fun r s => Aside a s ∧ f a.logical = .ok r)
        (Held sha e b (some context) branch s₀) := by
    intro α f
    refine (triple_askLogical f).weaken (fun _ hs => hs) ?_ hrefl
    intro r s ⟨ha, hr⟩
    exact ⟨ha, ha.logical ▸ hr⟩
  suffices hpublish : Triple (Aside a) (publishBlock sha e.profile b context representedEnd parent
      native continuation) (fun id s => Held sha e b (some context) branch s₀ s ∧
        Owns context tokens s ∧ Published tokens representedEnd id s)
      (Held sha e b (some context) branch s₀) from hpublish a (Aside.refl a)
  unfold publishBlock
  apply Triple.bind (haside (aside_reserveBlock e.profile b native))
  intro bytes
  apply Triple.bind (haside aside_activeRepresentation)
  intro active
  apply Triple.read_bind
  intro a' ha'
  have hfixed : ∀ s, s = a' → Aside a s := by
    rintro s rfl
    exact ha'
  apply Triple.bind ((hask _).before hfixed)
  intro p
  apply Triple.assume
  intro hp
  obtain ⟨rfl, hblock, hend, hsequence⟩ := block_prepared howns hstart hp
  apply Triple.bind (hask _)
  intro _
  apply Triple.assume
  intro hvalid
  apply Triple.bind (haside (aside_representationsOf _ _ _ _ _ _))
  intro representations
  apply (transitionBlock_held representedEnd _ representations).weaken
  · intro s ha
    refine ⟨⟨hheld.of_aside ha, ?_, ?_, ?_, ?_⟩, stable_owns _ _ a s ha howns⟩
    · rw [ha.logical]
      exact hvalid
    · rw [ha.logical, ha.modelEpoch]
      exact hblock
    · rw [hsequence]
      exact stable_evaluated native continuation a s ha hevaluated
    · rw [ha.resident, ha'.resident]
  · rintro id s ⟨hs, howns', entry, hentry, hsame⟩
    exact ⟨hs, howns', entry, hentry, hsame ▸ hend, hsame ▸ hsequence⟩
  · exact fun _ hs => hs

end Commit

end Cusco.EnginePublication
