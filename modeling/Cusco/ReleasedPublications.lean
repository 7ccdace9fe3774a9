import Cusco.ReleasedPreparations

/-!
What publishing and spilling leave in the physical manager. Components are registered one after
the other beside those of the resident mappings, and released again when the publication fails;
a capacity that was checked for all of them has room for the transition. Spilling demotes the
components of resident mappings and registers none.
-/

namespace Cusco.ReleasedPublications

open Calls LogicalStore Physical Mapped EngineFrames EngineInvariant EngineOperations
open EnginePublication LayerFrames RestingManagers ReleasedPreparations
open PinnedCatalogue (commitPublication_pinned)
open PublicationCommit (validatePublication_ok)
open Calls.Call (Moves Triple)

variable {Logits Sampler : Type} {sha : List UInt8 → Digest} {e : MappedEngine}
  {p : ExecutionProfile} {b : Backend Logits Sampler} {a s t : MappedState Logits}
  {m : EvaluatedPrefixId} {bytes : ℕ} {ids : List PhysicalRepresentationId}

section Registration

/-- Components registered for a mapping that is to be published, which nothing uses yet. -/
structure Loose (a : MappedState Logits) (m : EvaluatedPrefixId) (bytes : ℕ)
    (ids : List PhysicalRepresentationId) (s : MappedState Logits) : Prop where
  paused : Paused a m bytes ids s
  nodup : ids.Nodup
  fresh : ∀ k ∈ ids, Fresh s.physical k
  absent : ∀ k ∈ ids, shareOf a.physical k = none

/-- Registering them pinned no device bytes. -/
structure Registered (a : MappedState Logits) (m : EvaluatedPrefixId) (bytes : ℕ)
    (ids : List PhysicalRepresentationId) (s : MappedState Logits) : Prop where
  loose : Loose a m bytes ids s
  active : s.physical.protectedDeviceBytes = a.physical.protectedDeviceBytes
  capacity : s.physical.capacity = a.physical.capacity

theorem Loose.thin (h : Loose a m bytes ids s) {q : PhysicalManager} (hresting : Resting q)
    (hthinned : Thinned s.physical q) : Loose a m bytes ids { s with physical := q } where
  paused := ⟨h.paused.holds.alike rfl rfl hthinned.alike.shares, hresting⟩
  nodup := h.nodup
  fresh := fun k hk => (h.fresh k hk).thin hthinned
  absent := h.absent

theorem registered_nil (ha : Resting a.physical) (has : Beside a s) :
    Registered a m bytes [] s where
  loose := ⟨⟨(Holds.refl a).beside has, has.physical ▸ ha⟩, List.nodup_nil,
    fun _ hk => (nomatch hk), fun _ hk => (nomatch hk)⟩
  active := by rw [has.physical]
  capacity := by rw [has.physical]

theorem shareOf_of_lookup {q q' : PhysicalManager} {k : PhysicalRepresentationId}
    (h : q'.representations.lookup k = q.representations.lookup k) :
    shareOf q' k = shareOf q k := by
  unfold shareOf
  rw [h]

/-- One more component is registered. -/
theorem Registered.enrol (h : Registered a m bytes ids s) {k : PhysicalRepresentationId}
    {q : PhysicalManager} (hk : Enrolled s.physical k m bytes q) :
    Registered a m bytes (ids ++ [k]) { s with physical := q } := by
  have hnew : k ∉ ids := by
    intro hmem
    obtain ⟨r, hr, _⟩ := h.loose.fresh k hmem
    cases hk.absent.symm.trans hr
  have hother : ∀ j, j ≠ k → shareOf q j = shareOf s.physical j :=
    fun j hj => shareOf_of_lookup (hk.others j hj)
  have hold : ∀ j ∈ ids, j ≠ k := fun j hj heq => hnew (heq ▸ hj)
  have hcases : ∀ j ∈ ids ++ [k], j ∈ ids ∨ j = k := fun j hj =>
    (List.mem_append.mp hj).imp_right List.mem_singleton.mp
  refine ⟨⟨⟨⟨h.loose.paused.holds.logical, h.loose.paused.holds.resident, ?_, ?_⟩, hk.resting⟩,
    List.nodup_append.mpr ⟨h.loose.nodup, List.nodup_singleton k, ?_⟩, ?_, ?_⟩,
    hk.active.trans h.active, hk.capacity.trans h.capacity⟩
  · intro j hj
    rcases hcases j hj with hj | rfl
    · exact (hother j (hold j hj)).trans (h.loose.paused.holds.added j hj)
    · exact hk.share
  · intro j hj
    rw [List.mem_append, not_or, List.mem_singleton] at hj
    exact (hother j hj.2).trans (h.loose.paused.holds.others j hj.1)
  · intro j hj j' hj'
    rw [List.mem_singleton.mp hj']
    exact hold j hj
  · intro j hj
    rcases hcases j hj with hj | rfl
    · obtain ⟨r, hr, hreferences⟩ := h.loose.fresh j hj
      exact ⟨r, (hk.others j (hold j hj)).trans hr, hreferences⟩
    · exact hk.fresh
  · intro j hj
    rcases hcases j hj with hj | rfl
    · exact h.loose.absent j hj
    · rw [← h.loose.paused.holds.others j hnew, shareOf, hk.absent]
      rfl

/-- Releasing the components leaves nothing of them. -/
theorem releaseRepresentations_paused {E : MappedState Logits → Prop}
    (ids : List PhysicalRepresentationId) :
    Triple (Loose a m bytes ids) (releaseRepresentations ids) (fun _ => Paused a m bytes [])
      E := by
  induction ids with
  | nil => exact Triple.pure (fun _ hs => hs.paused)
  | cons k rest ih =>
    refine Triple.bind (R := fun _ => Loose a m bytes rest) ?_ (fun _ => ih)
    apply Triple.ignore
    apply Triple.within
    intro s hs
    obtain ⟨hfirst, hrest⟩ := List.nodup_cons.mp hs.nodup
    cases hrun : (PhysicalManager.releaseLogicalReference k).run s.physical with
    | panics => trivial
    | returns r q =>
      obtain ⟨hresting, hlookup⟩ :=
        hs.paused.resting.release (hs.fresh k List.mem_cons_self) hrun
      have hother : ∀ j, j ≠ k → q.representations.lookup j =
          s.physical.representations.lookup j := by
        intro j hj
        rw [hlookup j, if_neg hj]
      have hkept : ∀ j ∈ rest, j ≠ k := fun j hj heq => hfirst (heq ▸ hj)
      have hholds : Holds a m bytes rest { s with physical := q } := by
        refine ⟨hs.paused.holds.logical, hs.paused.holds.resident, ?_, ?_⟩
        · intro j hj
          exact (shareOf_of_lookup (hother j (hkept j hj))).trans
            (hs.paused.holds.added j (List.mem_cons_of_mem k hj))
        · intro j hj
          by_cases hjk : j = k
          · rw [hjk, hs.absent k List.mem_cons_self, shareOf, hlookup k, if_pos rfl]
            rfl
          · refine (shareOf_of_lookup (hother j hjk)).trans (hs.paused.holds.others j ?_)
            exact fun hmem => (List.mem_cons.mp hmem).elim hjk hj
      have hloose : Loose a m bytes rest { s with physical := q } := by
        refine ⟨⟨hholds, hresting⟩, hrest, ?_, fun j hj => hs.absent j (List.mem_cons_of_mem k hj)⟩
        intro j hj
        obtain ⟨f, hf, hreferences⟩ := hs.fresh j (List.mem_cons_of_mem k hj)
        exact ⟨f, (hother j (hkept j hj)).trans hf, hreferences⟩
      cases r with
      | ok _ => exact hloose
      | error err => exact hloose

theorem rollBack_atRest (ha : AtRest p b a) (rollback : RepresentationHandle)
    {E : MappedState Logits → Prop} :
    Triple (Loose a m bytes ids) (rollBack ids rollback) (fun _ => AtRest p b) E := by
  unfold rollBack
  apply Triple.bind ((releaseRepresentations_paused ids).after
    (fun _ s hs => hs.holds.atRest ha hs.resting))
  intro _
  exact Triple.ignore (Triple.of_moves (beside_activateMapping rollback)
    (fun s t hst hs => hs.beside hst))

/-- The components are registered, or none of them is. -/
theorem registerComponents_registered (ha : AtRest p b a) {representedEnd : ℕ}
    {rollback : RepresentationHandle} (components : List Component)
    (registered : List PhysicalRepresentationId) :
    Triple (Registered a m bytes registered)
      (registerComponents m representedEnd bytes rollback registered components)
      (fun ids s => Registered a m bytes ids s ∧
        ids.length = registered.length + components.length) (AtRest p b) := by
  induction components generalizing registered with
  | nil => exact Triple.pure (fun _ hs => ⟨hs, rfl⟩)
  | cons component rest ih =>
    refine Triple.bind (R := fun k => Registered a m bytes (registered ++ [k])) ?_ ?_
    · refine Triple.rescue (R := Loose a m bytes registered) ?_ (rollBack_atRest ha rollback)
      apply Triple.within
      intro s hs
      cases hrun : (PhysicalManager.register m component representedEnd bytes .host
          representedEnd).run s.physical with
      | panics => trivial
      | returns r q =>
        rcases hs.loose.paused.resting.register hrun with ⟨rfl, err, rfl⟩ | ⟨k, rfl, hk⟩
        · exact hs.loose
        · exact hs.enrol hk
    · intro k
      apply (ih (registered ++ [k])).after
      intro ids s ⟨hs, hlength⟩
      refine ⟨hs, hlength.trans ?_⟩
      rw [List.length_append, List.length_singleton, List.length_cons, Nat.add_assoc,
        Nat.add_comm 1]

/-- The components of a mapping, those that it has already or those just registered. -/
structure Listing (p : ExecutionProfile) (a : MappedState Logits) (m : EvaluatedPrefixId)
    (bytes : ℕ) (existing : Option (ResidentMapping Logits))
    (ids : List PhysicalRepresentationId) : Prop where
  nodup : ids.Nodup
  length : ids.length = p.requiredComponents.length
  old : existing.isSome = true → ∀ k ∈ ids, shareOf a.physical k = some (m, bytes)
  new : existing = none → ∀ k ∈ ids, shareOf a.physical k = none

/-- All components listed are there, sized for the block. -/
theorem Listing.shares {existing : Option (ResidentMapping Logits)}
    (h : Listing p a m bytes existing ids) (hs : Holds a m bytes (registeredOf existing ids) s) :
    ∀ k ∈ ids, shareOf s.physical k = some (m, bytes) := by
  intro k hk
  cases existing with
  | none => exact hs.added k hk
  | some r => exact (hs.others k List.not_mem_nil).trans (h.old rfl k hk)

theorem representationsOf_registered (ha : AtRest p b a) {representedEnd : ℕ}
    {rollback : RepresentationHandle} {existing : Option (ResidentMapping Logits)}
    (hexisting : existing = a.resident.lookup m)
    (hbytes : ∀ r entry, a.resident.lookup m = some r →
      a.logical.mappings.lookup m = some entry →
        componentBytes p b entry.mapping.sequence = some bytes) :
    Triple (Beside a) (representationsOf p m representedEnd bytes rollback existing)
      (fun ids s => Registered a m bytes (registeredOf existing ids) s ∧
        Listing p a m bytes existing ids) (AtRest p b) := by
  cases hfound : existing with
  | some r =>
    have hr : a.resident.lookup m = some r := hexisting.symm.trans hfound
    have hsized := ha.sized m r hr
    obtain ⟨entry, bytes', hentry, hbytes', hshares⟩ := hsized.shares
    cases hbytes'.symm.trans (hbytes r entry hr hentry)
    apply Triple.pure
    intro s hs
    exact ⟨registered_nil ha.resting hs, hsized.nodup, hsized.length, fun _ => hshares,
      fun hnone => nomatch hnone⟩
  | none =>
    apply ((registerComponents_registered ha p.components []).before
      (fun s hs => registered_nil ha.resting hs)).after
    intro ids s ⟨hs, hlength⟩
    refine ⟨hs, hs.loose.nodup, ?_, fun hsome => (nomatch hsome), fun _ => hs.loose.absent⟩
    rw [hlength, List.length_nil, Nat.zero_add]
    exact List.length_map _

end Registration

section Capacity

theorem protectedBytes_le {q : PhysicalManager} (hq : Resting q) :
    q.protectedDeviceBytes ≤ q.capacity.deviceBytes :=
  (DeviceEviction.bytesWhere_mono q _ _
    (fun _ h => ((Bool.and_eq_true _ _).mp h).1)).trans hq.exact.fits.device

/-- At rest only the active bytes are unavailable. -/
theorem unavailableBytes_resting {q : PhysicalManager} (hq : Resting q) :
    unavailableBytes q.metrics = q.protectedDeviceBytes := by
  obtain ⟨hgrowth, htransitions, htransfers⟩ := hq.unavailable
  have hle := (protectedBytes_le hq).trans q.capacity.device_le
  unfold unavailableBytes saturatingAdd
  rw [hq.exact.gauges.deviceActive, hq.exact.gauges.deviceGrowthReserved,
    hq.exact.gauges.deviceTransitionReserved, hq.exact.gauges.deviceDetachedTransferReserved,
    hgrowth, htransitions, htransfers]
  simp only [Nat.add_zero, Nat.min_eq_left hle]

/-- The capacity checked leaves room for all components of the block. -/
theorem reserveBlock_fits (ha : Resting a.physical) (native : RepresentationHandle) :
    Triple (fun s => s = a) (reserveBlock p b native)
      (fun bytes s => Beside a s ∧
        componentBytes p b (a.executor.tokensOf native) = some bytes ∧
          a.physical.protectedDeviceBytes + p.requiredComponents.length * bytes ≤
            a.physical.capacity.deviceBytes) (Beside a) := by
  have hdescribe : Triple (fun s => s = a) (describeRepresentation b native)
      (fun serialized s => Beside a s ∧
        serialized = b.serializedBytes (a.executor.tokensOf native)) (Beside a) := by
    unfold describeRepresentation
    apply Triple.bind (R := fun _ s => Aside a s ∧ Beside a s)
    · refine (Triple.of_moves (R := fun s t => Aside s t ∧ Beside s t) ?_ ?_).weaken
        (P := fun s => Aside a s ∧ Beside a s) ?_ (fun _ _ hs => hs) (fun _ hs => hs.2)
      · exact fun s r t hrun => ⟨aside_attempt _ s r t hrun, beside_attempt _ s r t hrun⟩
      · exact fun s t hst hs => ⟨Aside.trans a s t hs.1 hst.1, Beside.trans a s t hs.2 hst.2⟩
      · rintro _ rfl
        exact ⟨Aside.refl _, Beside.refl _⟩
    intro _
    apply Triple.read_bind
    intro s ⟨haside, hbeside⟩
    apply Triple.pure
    rintro _ rfl
    exact ⟨hbeside, congrArg b.serializedBytes (haside.tokensOf native)⟩
  unfold reserveBlock
  apply Triple.bind hdescribe
  intro serialized
  apply Triple.assume
  rintro rfl
  apply Triple.require_bind (fun _ hs => hs)
  intro bytes hbytes
  apply Triple.require_bind (fun _ hs => hs)
  intro required hrequired
  apply Triple.read_bind
  intro s hs
  apply Triple.check_bind
  · rintro _ rfl
    exact hs
  intro hfits
  apply Triple.pure
  rintro _ rfl
  refine ⟨hs, hbytes, ?_⟩
  have hroom := of_decide_eq_true hfits
  have hle := protectedBytes_le ha
  rw [hs.physical, unavailableBytes_resting ha, ha.exact.total] at hroom
  unfold checkedMul at hrequired
  split at hrequired
  · cases hrequired
    rw [Nat.mul_comm]
    omega
  · cases hrequired

end Capacity

section Transition

variable {q : PreparedPublication} {existing : Option (ResidentMapping Logits)}
  {native : RepresentationHandle}

theorem revisionOf_known {context : LogicalContextId} {c : LogicalContext}
    {P E : MappedState Logits → Prop}
    (hP : ∀ s, P s → s.logical.contexts.lookup context = some c) :
    Triple P (revisionOf context) (fun revision s => P s ∧ revision = c.revision) E := by
  unfold revisionOf
  apply Triple.read_bind
  intro s hs
  apply Triple.require_some_bind (hP s hs)
  apply Triple.pure
  rintro _ rfl
  exact ⟨hs, rfl⟩

/-- The committed mapping is resident with the components listed. -/
theorem commitBlock_atRest (hs : Sound sha e b a) (ha : AtRest p b a)
    (hvalid : a.logical.validatePublication q = .ok ()) {c : LogicalContext}
    (hc : a.logical.contexts.lookup q.context = some c) (hrevision : c.revision ≠ u64Max)
    (hexisting : existing = a.resident.lookup q.mapping.id)
    (hbytes : componentBytes p b q.mapping.sequence = some bytes)
    (hlisting : Listing p a q.mapping.id bytes existing ids) (continuation : Logits)
    {E : MappedState Logits → Prop} :
    Triple (Paused a q.mapping.id bytes (registeredOf existing ids))
      (commitBlock q existing native ids continuation) (fun _ => AtRest p b) E := by
  intro s hpaused
  obtain ⟨l, hcommit, hadds⟩ := commitPublication_pinned hs.accounted hs.pinned hvalid hc hrevision
  have hfirst : (onLogical (fun l => l.commitPublication q) : Operation Logits _).expect.run s =
      .returns (.ok q.mapping) { s with logical := l } := by
    simp only [Call.expect, onLogical, Call.within, hpaused.holds.logical, hcommit]
  have hkept : ∀ m entry, a.logical.mappings.lookup m = some entry →
      ∃ entry', l.mappings.lookup m = some entry' ∧ entry'.mapping = entry.mapping :=
    hadds.keeps.kept
  suffices hdone : Triple (fun t => t = { s with logical := l })
      (Call.skipIf existing.isSome (Call.update (fun s => s.setResident q.mapping.id
        ⟨some native, none, ids, continuation⟩)) : Operation Logits Unit)
      (fun _ => AtRest p b) E by
    unfold commitBlock
    rw [Call.run_bind_ok hfirst]
    exact (Triple.bind hdone (f := fun _ => pure q.mapping.id) (Q := fun _ => AtRest p b)
      (fun _ => Triple.pure (fun _ ht => ht))) _ rfl
  cases hfound : existing with
  | some r =>
    rw [hfound] at hpaused
    apply Triple.pure
    rintro _ rfl
    refine ha.keep hpaused.resting (fun k => hpaused.holds.others k List.not_mem_nil) ?_ hkept
    intro m
    unfold listsOf
    rw [hpaused.holds.resident]
  | none =>
    rw [hfound] at hpaused hlisting
    have hnone : a.resident.lookup q.mapping.id = none := hexisting.symm.trans hfound
    have hother : ∀ m, m ≠ q.mapping.id →
        (s.resident.insert q.mapping.id ⟨some native, none, ids, continuation⟩).lookup m =
          a.resident.lookup m := by
      intro m hm
      rw [AList.lookup_insert_ne hm, hpaused.holds.resident]
    have hheld : ∀ k, (∃ m bytes, shareOf a.physical k = some (m, bytes)) → k ∉ ids := by
      intro k hshared hmem
      obtain ⟨m, bytes, hk⟩ := hshared
      cases hk.symm.trans (hlisting.new rfl k hmem)
    apply Triple.update
    rintro _ rfl
    refine ⟨hpaused.resting, ?_, ?_⟩
    · intro k m bytes' hk
      by_cases hmem : k ∈ ids
      · cases (hpaused.holds.added k hmem).symm.trans hk
        exact ⟨_, AList.lookup_insert _, hmem⟩
      · obtain ⟨r, hr, hlisted⟩ :=
          ha.listed k m bytes' ((hpaused.holds.others k hmem).symm.trans hk)
        refine ⟨r, (hother m ?_).trans hr, hlisted⟩
        rintro rfl
        cases hnone.symm.trans hr
    · intro m r hr
      by_cases hm : m = q.mapping.id
      · subst hm
        cases (AList.lookup_insert _).symm.trans hr
        obtain ⟨entry, hentry, hsame⟩ := hadds.committed.stored
        exact ⟨hlisting.nodup, hlisting.length, entry, bytes, hentry, hsame ▸ hbytes,
          hpaused.holds.added⟩
      · have hsized := ha.sized m r ((hother m hm).symm.trans hr)
        refine hsized.alike ?_ hkept
        intro k hk
        obtain ⟨_, bytes', _, _, hshares⟩ := hsized.shares
        exact hpaused.holds.others k (hheld k ⟨m, bytes', hshares k hk⟩)

theorem transitionBlock_atRest (hs : Sound sha e b a) (ha : AtRest e.profile b a)
    (hvalid : a.logical.validatePublication q = .ok ()) {c : LogicalContext}
    (hc : a.logical.contexts.lookup q.context = some c) (hrevision : c.revision ≠ u64Max)
    (hexisting : existing = a.resident.lookup q.mapping.id)
    (hidentity : ((existing.bind ResidentMapping.native).getD native).identity < 2 ^ 32)
    (hbytes : componentBytes e.profile b q.mapping.sequence = some bytes)
    (hfits : a.physical.protectedDeviceBytes + e.profile.requiredComponents.length * bytes ≤
      a.physical.capacity.deviceBytes)
    (hlisting : Listing e.profile a q.mapping.id bytes existing ids)
    (representedEnd : ℕ) (rollback : RepresentationHandle) (continuation : Logits) :
    Triple (Registered a q.mapping.id bytes (registeredOf existing ids))
      (transitionBlock e.profile q.context representedEnd native rollback continuation q existing
        ids) (fun _ => AtRest e.profile b) (AtRest e.profile b) := by
  have hcleanup : Triple (Loose a q.mapping.id bytes (registeredOf existing ids))
      (rollBack (registeredOf existing ids) rollback) (fun _ => AtRest e.profile b)
      (AtRest e.profile b) := rollBack_atRest ha rollback
  unfold transitionBlock
  apply Triple.bind (revisionOf_known (c := c) ?_)
  swap
  · intro s hs
    rw [hs.loose.paused.holds.logical]
    exact hc
  intro revision
  apply Triple.assume
  rintro rfl
  apply Triple.require_some_bind (if_neg hrevision)
  have hpaused : ∀ s, Registered a q.mapping.id bytes (registeredOf existing ids) s →
      Paused a q.mapping.id bytes (registeredOf existing ids) s := fun s hs => hs.loose.paused
  apply Triple.bind (Triple.rescue (prepare_going hpaused ?_ ?_) hcleanup)
  · rintro ⟨transition, _, transfers⟩
    apply Triple.of_exists
    intro u
    apply Triple.before (P := fun t => Going a q.mapping.id bytes (registeredOf existing ids)
      transition u transfers t ∧ u.revision = c.revision + 1)
    swap
    · exact fun t ht => ⟨ht.1, ht.2.1⟩
    apply Triple.assume
    intro hsame
    apply Triple.bind (completeTransfers_going transfers)
    intro _
    apply Triple.bind (nativeIdentity_of_lt hidentity)
    intro identity
    apply Triple.bind (R := fun _ => Paused a q.mapping.id bytes (registeredOf existing ids))
    · exact Triple.rescue (R := fun _ => False) (commit_paused hsame identity)
        (fun _ ht => ht.elim)
    intro _
    exact commitBlock_atRest hs ha hvalid hc hrevision hexisting hbytes hlisting continuation
  · intro s hs
    have hsizes : ∀ k ∈ ids, ∀ r, s.physical.representations.lookup k = some r →
        r.bytes ≤ bytes := by
      intro k hk r hr
      have hshare := hlisting.shares hs.loose.paused.holds k hk
      unfold shareOf at hshare
      rw [hr] at hshare
      exact (congrArg Prod.snd (Option.some.inj hshare)).le
    have hbound := boundBytes_le s.physical hlisting.nodup hsizes
    rw [hs.active, hlisting.length] at hbound
    rw [hs.capacity]
    exact Or.inr (hbound.trans hfits)
  · intro s r hs hresting hthinned
    exact hs.loose.thin hresting hthinned

/-- A block is published, or what was registered for it is released again. -/
theorem publishBlock_atRest (hs : Sound sha e b a) (ha : AtRest e.profile b a)
    {context : LogicalContextId} {c : LogicalContext} {representedEnd : ℕ}
    {parent : Option EvaluatedPrefixId} {continuation : Logits}
    (hc : a.logical.contexts.lookup context = some c) (hrevision : c.revision ≠ u64Max)
    (htokens : a.executor.tokensOf native = c.tokens.take representedEnd)
    (hidentity : ∀ q, a.logical.preparePublication sha context representedEnd parent
        e.profile.requiredMask e.profile.requiredMask zeroDigest = .ok q →
      a.logical.validatePublication q = .ok () →
      (((a.resident.lookup q.mapping.id).bind ResidentMapping.native).getD native).identity <
        2 ^ 32) :
    Triple (fun s => s = a)
      (publishBlock sha e.profile b context representedEnd parent native continuation)
      (fun _ => AtRest e.profile b) (AtRest e.profile b) := by
  have hkept : ∀ s, Beside a s → AtRest e.profile b s := fun s hs => ha.beside hs
  have hask : ∀ {α : Type} (f : ContextStore → Except LogicalStore.Error α),
      Triple (Beside a) (askLogical f) (fun r s => Beside a s ∧ f a.logical = .ok r)
        (AtRest e.profile b) := by
    intro α f
    refine (triple_askLogical f).weaken (fun _ hs => hs) ?_ hkept
    intro r s ⟨hs, hr⟩
    exact ⟨hs, hs.logical ▸ hr⟩
  unfold publishBlock
  apply Triple.bind ((reserveBlock_fits ha.resting native).weaken (fun _ hs => hs)
    (fun _ _ hs => hs) hkept)
  intro bytes
  apply Triple.assume
  intro ⟨hbytes, hfits⟩
  apply Triple.bind ((Triple.of_moves beside_activeRepresentation
    (fun s t hst hs => Beside.trans a s t hs hst)).weaken (fun _ hs => hs) (fun _ _ hs => hs)
    hkept)
  intro active
  apply Triple.read_bind
  intro s has
  have hthere : ∀ t, t = s → Beside a t := by
    rintro t rfl
    exact has
  apply Triple.bind ((hask _).before hthere)
  intro q
  apply Triple.assume
  intro hq
  obtain ⟨rfl, c', hc', _, _, hmapping⟩ := preparePublication_inv hq
  cases hc.symm.trans hc'
  have hsequence : q.mapping.sequence = c.tokens.take representedEnd := by rw [hmapping]
  apply Triple.bind (hask _)
  intro _
  apply Triple.assume
  intro hvalid
  have hexisting : s.resident.lookup q.mapping.id = a.resident.lookup q.mapping.id :=
    has.resident ▸ rfl
  rw [htokens, ← hsequence] at hbytes
  apply Triple.bind (representationsOf_registered ha hexisting ?_)
  swap
  · intro r entry _ hentry
    obtain ⟨_, hsame, _⟩ := validatePublication_ok _ q hvalid
    rw [hsame entry hentry]
    exact hbytes
  intro ids
  apply Triple.assume
  intro hlisting
  exact transitionBlock_atRest hs ha hvalid hc hrevision hexisting
    (hexisting ▸ hidentity q hq hvalid) hbytes hfits hlisting _ _ _

end Transition

section Spilling

/-- The store and the resident mappings are left alone, and the manager stays at rest with the
shares it holds. -/
structure Rests (s t : MappedState Logits) : Prop where
  logical : t.logical = s.logical
  resident : t.resident = s.resident
  physical : Resting s.physical → Resting t.physical ∧ Alike s.physical t.physical

theorem Rests.refl (s : MappedState Logits) : Rests s s :=
  ⟨rfl, rfl, fun hs => ⟨hs, Alike.refl _⟩⟩

theorem Rests.trans (s t u : MappedState Logits) (hst : Rests s t) (htu : Rests t u) :
    Rests s u := by
  refine ⟨htu.logical.trans hst.logical, htu.resident.trans hst.resident, ?_⟩
  intro hs
  obtain ⟨ht, hsame⟩ := hst.physical hs
  obtain ⟨hu, hsame'⟩ := htu.physical ht
  exact ⟨hu, hsame.trans hsame'⟩

theorem AtRest.rests (h : AtRest p b s) (hst : Rests s t) : AtRest p b t := by
  obtain ⟨hresting, halike⟩ := hst.physical h.resting
  refine h.keep hresting halike.shares ?_ (stores_of_eq hst.logical)
  intro m
  unfold listsOf
  rw [hst.resident]

theorem rests_onPhysical {α : Type} {x : Physical.Operation α}
    (hx : ∀ q r q', Resting q → x.run q = .returns r q' → Resting q' ∧ Alike q q') :
    Moves Rests (onPhysical x : Operation Logits α) :=
  Moves.lift (R := fun q q' => Resting q → Resting q' ∧ Alike q q')
    (fun q r q' hrun hq => hx q r q' hq hrun) (fun _ _ hq => ⟨rfl, rfl, hq⟩)

theorem spillOne_atRest (id : EvaluatedPrefixId) (native : RepresentationHandle) :
    Triple (AtRest p b) (spillOne e b id native) (fun _ => AtRest p b) (AtRest p b) := by
  have hbeside : ∀ s t : MappedState Logits, Beside s t → AtRest p b s → AtRest p b t :=
    fun s t hst hs => hs.beside hst
  unfold spillOne
  apply Triple.bind (Triple.of_moves (beside_exportMapping native) hbeside)
  intro mapping
  apply Triple.read_bind
  intro s hs
  apply Triple.before (P := AtRest p b)
  swap
  · rintro _ rfl
    exact hs
  apply Triple.ite
  · intro _
    exact Triple.pure (fun _ hs => hs)
  intro _
  apply Triple.bind (Triple.of_moves (beside_writeFile id mapping.tokens) hbeside)
  intro _
  apply Triple.read_bind
  intro s hs
  apply Triple.unwrap_bind
  intro r hr
  have hdemoted : Moves Rests (demoteAll r.representations : Operation Logits Unit) :=
    moves_demoteAll Rests.refl Rests.trans
      (fun k => rests_onPhysical (fun q r q' hq hrun => hq.demote hrun)) _
  apply Triple.bind (R := fun _ t => AtRest p b t ∧ t.resident.lookup id = some r)
  · refine (Triple.of_moves hdemoted (P := fun t => AtRest p b t ∧
      t.resident.lookup id = some r) ?_).weaken ?_ (fun _ _ ht => ht) (fun _ ht => ht.1)
    · exact fun t u htu ht => ⟨AtRest.rests ht.1 htu, htu.resident ▸ ht.2⟩
    · rintro _ rfl
      exact ⟨hs, hr⟩
  intro _
  apply Triple.read_bind
  intro t ht
  apply Triple.unwrap_bind
  intro total _
  refine Triple.bind (R := fun _ => AtRest p b) ?_ (fun _ => Triple.pure (fun _ hs => hs))
  have hspilled : AtRest p b (t.setResident id { r with
      native := none
      spill := some ⟨id, b.exportedBytes mapping.tokens, mapping.position⟩ }) :=
    ht.1.keep ht.1.resting (fun _ => rfl) (listsOf_setResident ht.2 rfl) (stores_of_eq rfl)
  apply Triple.update
  rintro _ rfl
  exact hspilled.beside ⟨rfl, rfl, rfl⟩

theorem spillAll_atRest (candidates : List (EvaluatedPrefixId × RepresentationHandle))
    (spilled : ℕ) :
    Triple (AtRest p b) (spillAll e b candidates spilled) (fun _ => AtRest p b)
      (AtRest p b) := by
  induction candidates generalizing spilled with
  | nil => exact Triple.pure (fun _ hs => hs)
  | cons candidate rest ih =>
    exact Triple.bind (spillOne_atRest candidate.1 candidate.2)
      (fun done => ih (if done then spilled + 1 else spilled))

theorem spillInactiveMappings_atRest (order : List EvaluatedPrefixId) :
    Triple (AtRest p b) (spillInactiveMappings e b order) (fun _ => AtRest p b)
      (AtRest p b) := by
  unfold spillInactiveMappings
  cases e.spillDir with
  | none => exact Triple.pure (fun _ hs => hs)
  | some dir =>
    apply Triple.read_bind
    intro s hs
    apply Triple.before (P := AtRest p b)
    swap
    · rintro _ rfl
      exact hs
    apply Triple.ite
    · exact fun _ => Triple.pure (fun _ hs => hs)
    intro _
    have hreleased : Moves Rests
        (onPhysical (PhysicalManager.releaseBinding executionSlot) : Operation Logits Unit) :=
      rests_onPhysical (fun q r q' hq hrun => hq.unbind hrun)
    refine Triple.bind (R := fun _ => AtRest p b) ?_ (fun _ => spillAll_atRest _ 0)
    exact Triple.ignore (Triple.of_moves hreleased (fun s t hst hs => AtRest.rests hs hst))

end Spilling

end Cusco.ReleasedPublications
