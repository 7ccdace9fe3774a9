import Cusco.LayerFrames
import Cusco.RestingManagers

/-!
What the mapped engine's calls leave in the physical manager. Between two calls the manager is
at rest and holds the components of the resident mappings, sized for their tokens. A prefix is
activated, a block published and inactive mappings spilled without leaving more, as long as the
transition fits, its native identity is 32 bits wide and the context has another revision.
-/

namespace Cusco.ReleasedPreparations

open Calls LogicalStore Physical Mapped EngineFrames EngineInvariant EngineOperations
open EnginePublication LayerFrames DeviceEviction PhysicalPreparations RestingManagers
open PinnedCatalogue (commitPublication_pinned)
open PublicationCommit (validatePublication_ok)
open Calls.Call (Moves Triple)

section Definitions

variable {Logits Sampler : Type}

/-- Nothing is prepared or on its way, what the manager holds belongs to the mappings, and
neither device bytes nor a representation are kept for a transition or a transfer. -/
structure Released (s : MappedState Logits) : Prop where
  transitions : ∀ i, s.physical.transitions.lookup i = none
  transfers : ∀ x y, s.physical.transfers.lookup x = some y →
    y.completed = true ∧ y.detached = false
  representations : ∀ k r, s.physical.representations.lookup k = some r →
    ∃ resident, s.resident.lookup r.mapping = some resident ∧ k ∈ resident.representations
  unreserved : s.physical.transitionReservedBytes = 0 ∧
    s.physical.detachedTransferReservedBytes = 0
  unpinned : ∀ k r, s.physical.representations.lookup k = some r →
    r.references.reservations = 0 ∧ r.references.transfers = 0

/-- The bytes of one component of a mapping with these tokens. -/
def componentBytes (p : ExecutionProfile) (b : Backend Logits Sampler) (tokens : List Token) :
    Option ℕ :=
  bytesPerComponent (b.serializedBytes tokens) p.requiredComponents.length

/-- The components of a resident mapping are stored, sized for its tokens. -/
structure Sized (p : ExecutionProfile) (b : Backend Logits Sampler) (s : MappedState Logits)
    (m : EvaluatedPrefixId) (ids : List PhysicalRepresentationId) : Prop where
  nodup : ids.Nodup
  length : ids.length = p.requiredComponents.length
  shares : ∃ entry bytes, s.logical.mappings.lookup m = some entry ∧
    componentBytes p b entry.mapping.sequence = some bytes ∧
    ∀ k ∈ ids, shareOf s.physical k = some (m, bytes)

/-- The engine between two calls. -/
structure AtRest (p : ExecutionProfile) (b : Backend Logits Sampler) (s : MappedState Logits) :
    Prop where
  resting : Resting s.physical
  listed : ∀ k m bytes, shareOf s.physical k = some (m, bytes) →
    ∃ r, s.resident.lookup m = some r ∧ k ∈ r.representations
  sized : ∀ m r, s.resident.lookup m = some r → Sized p b s m r.representations

/-- A transition to a resident mapping is refused, or it finds room and the native identity
that names the mapping is 32 bits wide. -/
def Transits (s : MappedState Logits) (r : ResidentMapping Logits) : Prop :=
  s.physical.capacity.deviceBytes <
      guardedBytes s.physical + missingBytes s.physical r.representations ∨
    boundBytes s.physical r.representations ≤ s.physical.capacity.deviceBytes ∧
      (r.native.getD ⟨s.executor.nextIdentity⟩).identity < 2 ^ 32

end Definitions

variable {Logits Sampler : Type} {sha : List UInt8 → Digest} {e : MappedEngine}
  {p : ExecutionProfile} {b : Backend Logits Sampler} {a s t : MappedState Logits}

section Rest

theorem AtRest.released (h : AtRest p b s) : Released s where
  transitions := h.resting.transitions
  transfers := fun x y hy => nomatch (h.resting.transfers x).symm.trans hy
  representations := by
    intro k r hr
    refine h.listed k r.mapping r.bytes ?_
    unfold shareOf
    rw [hr]
    rfl
  unreserved := h.resting.unavailable.2
  unpinned := fun _ _ hr => h.resting.unpinned hr

theorem Sized.alike {m : EvaluatedPrefixId} {ids : List PhysicalRepresentationId}
    (h : Sized p b s m ids) (hphysical : ∀ k ∈ ids, shareOf t.physical k = shareOf s.physical k)
    (hmappings : ∀ m entry, s.logical.mappings.lookup m = some entry →
      ∃ entry', t.logical.mappings.lookup m = some entry' ∧ entry'.mapping = entry.mapping) :
    Sized p b t m ids := by
  obtain ⟨entry, bytes, hentry, hbytes, hshares⟩ := h.shares
  obtain ⟨entry', hentry', hsame⟩ := hmappings m entry hentry
  refine ⟨h.nodup, h.length, entry', bytes, hentry', hsame ▸ hbytes, ?_⟩
  intro k hk
  exact (hphysical k hk).trans (hshares k hk)

/-- The mappings that were stored still are, whatever else changed in the store. -/
def Stores (s t : MappedState Logits) : Prop :=
  ∀ m entry, s.logical.mappings.lookup m = some entry →
    ∃ entry', t.logical.mappings.lookup m = some entry' ∧ entry'.mapping = entry.mapping

theorem stores_of_eq (h : t.logical = s.logical) : Stores s t :=
  fun _ entry hentry => ⟨entry, h ▸ hentry, rfl⟩

/-- The lists of components of the resident mappings. -/
def listsOf (s : MappedState Logits) (m : EvaluatedPrefixId) :
    Option (List PhysicalRepresentationId) :=
  (s.resident.lookup m).map ResidentMapping.representations

/-- The manager holds the same shares, and the mappings list the same components. -/
theorem AtRest.keep (h : AtRest p b s) (hresting : Resting t.physical)
    (hshares : ∀ k, shareOf t.physical k = shareOf s.physical k)
    (hlists : ∀ m, listsOf t m = listsOf s m) (hstores : Stores s t) : AtRest p b t where
  resting := hresting
  listed := by
    intro k m bytes hk
    obtain ⟨r, hr, hmem⟩ := h.listed k m bytes ((hshares k).symm.trans hk)
    have hlist : listsOf t m = some r.representations := by
      rw [hlists m, listsOf, hr]
      rfl
    obtain ⟨r', hr', hsame⟩ := Option.map_eq_some_iff.mp hlist
    exact ⟨r', hr', hsame ▸ hmem⟩
  sized := by
    intro m r' hr'
    have hlist : listsOf s m = some r'.representations := by
      rw [← hlists m, listsOf, hr']
      rfl
    obtain ⟨r, hr, hsame⟩ := Option.map_eq_some_iff.mp hlist
    exact hsame ▸ (h.sized m r hr).alike (fun k _ => hshares k) hstores

theorem AtRest.beside (h : AtRest p b s) (hst : Beside s t) : AtRest p b t := by
  refine h.keep (hst.physical ▸ h.resting) ?_ ?_ (stores_of_eq hst.logical)
  · intro k
    rw [hst.physical]
  · intro m
    unfold listsOf
    rw [hst.resident]

/-- The entry of a mapping was replaced by one with the same components. -/
theorem listsOf_setResident {id : EvaluatedPrefixId} {r r' : ResidentMapping Logits}
    (hr : s.resident.lookup id = some r) (hsame : r'.representations = r.representations)
    (m : EvaluatedPrefixId) : listsOf (s.setResident id r') m = listsOf s m := by
  unfold listsOf MappedState.setResident
  rw [AList.lookup_insert_ite]
  by_cases hm : m = id
  · rw [if_pos hm, hm, hr]
    exact congrArg some hsame
  · rw [if_neg hm]

end Rest

section Transitions

/-- What the manager holds beside the shares it held in `a`: the components listed, of a
mapping that is to be published. -/
structure Holds (a : MappedState Logits) (m : EvaluatedPrefixId) (bytes : ℕ)
    (ids : List PhysicalRepresentationId) (s : MappedState Logits) : Prop where
  logical : s.logical = a.logical
  resident : s.resident = a.resident
  added : ∀ k ∈ ids, shareOf s.physical k = some (m, bytes)
  others : ∀ k, k ∉ ids → shareOf s.physical k = shareOf a.physical k

variable {m : EvaluatedPrefixId} {bytes : ℕ} {ids : List PhysicalRepresentationId}

theorem Holds.refl (a : MappedState Logits) : Holds a m bytes [] a :=
  ⟨rfl, rfl, fun _ hk => (nomatch hk), fun _ _ => rfl⟩

theorem Holds.alike (h : Holds a m bytes ids s) (hlogical : t.logical = s.logical)
    (hresident : t.resident = s.resident)
    (hshares : ∀ k, shareOf t.physical k = shareOf s.physical k) : Holds a m bytes ids t where
  logical := hlogical.trans h.logical
  resident := hresident.trans h.resident
  added := fun k hk => (hshares k).trans (h.added k hk)
  others := fun k hk => (hshares k).trans (h.others k hk)

theorem Holds.beside (h : Holds a m bytes ids s) (hst : Beside s t) : Holds a m bytes ids t :=
  h.alike hst.logical hst.resident (fun k => by rw [hst.physical])

theorem Holds.atRest (h : Holds a m bytes [] s) (ha : AtRest p b a)
    (hresting : Resting s.physical) : AtRest p b s := by
  refine ha.keep hresting (fun k => h.others k List.not_mem_nil) ?_ (stores_of_eq h.logical)
  intro m'
  unfold listsOf
  rw [h.resident]

/-- A transition begun in such a state, some of whose transfers are still to be completed. -/
structure Going (a : MappedState Logits) (m : EvaluatedPrefixId) (bytes : ℕ)
    (ids : List PhysicalRepresentationId) (i : PreparedTransitionId) (t : PreparedTransition)
    (rest : List TransferId) (s : MappedState Logits) : Prop where
  holds : Holds a m bytes ids s
  underway : Underway s.physical i t rest

theorem Going.beside {i : PreparedTransitionId} {u : PreparedTransition} {rest : List TransferId}
    (h : Going a m bytes ids i u rest s) (hst : Beside s t) : Going a m bytes ids i u rest t :=
  ⟨h.holds.beside hst, hst.physical ▸ h.underway⟩

/-- What is at rest and holds no more than the components listed. -/
structure Paused (a : MappedState Logits) (m : EvaluatedPrefixId) (bytes : ℕ)
    (ids : List PhysicalRepresentationId) (s : MappedState Logits) : Prop where
  holds : Holds a m bytes ids s
  resting : Resting s.physical

/-- A transition that is admitted is under way. One that is refused has only evicted. -/
theorem prepare_going {i : EvaluatedPrefixId} {revision representedEnd : ℕ}
    {required : ComponentMask} {listed : List PhysicalRepresentationId}
    {P E : MappedState Logits → Prop} (hpaused : ∀ s, P s → Paused a m bytes ids s)
    (hfits : ∀ s, P s →
      s.physical.capacity.deviceBytes < guardedBytes s.physical + missingBytes s.physical listed ∨
        boundBytes s.physical listed ≤ s.physical.capacity.deviceBytes)
    (hfails : ∀ s q, P s → Resting q → Thinned s.physical q → E { s with physical := q }) :
    Triple P (onPhysical (PhysicalManager.prepareTransition executionSlot revision i representedEnd
        required listed false))
      (fun r s => ∃ u, Going a m bytes ids r.1 u r.2.2 s ∧ u.revision = revision ∧
        ∃ s₀, P s₀ ∧ guardedBytes s₀.physical + missingBytes s₀.physical listed ≤
          s₀.physical.capacity.deviceBytes) E := by
  apply Triple.within
  intro s hs
  cases hrun : (PhysicalManager.prepareTransition executionSlot revision i representedEnd required
      listed false).run s.physical with
  | panics => trivial
  | returns r q =>
    rcases (hpaused s hs).resting.prepare (hfits s hs) hrun with
      ⟨hresting, hthinned, err, rfl⟩ | ⟨u, hunderway, halike, hrevision, hadmitted, rfl⟩
    · exact hfails s q hs hresting hthinned
    · exact ⟨u, ⟨(hpaused s hs).holds.alike rfl rfl halike.shares, hunderway⟩, hrevision, s, hs,
        hadmitted⟩

theorem completeTransfers_going {i : PreparedTransitionId} {u : PreparedTransition}
    {cleanup : Operation Logits Unit} {E : MappedState Logits → Prop} (rest : List TransferId) :
    Triple (Going a m bytes ids i u rest) (completeTransfers cleanup rest)
      (fun _ => Going a m bytes ids i u []) E := by
  induction rest with
  | nil => exact Triple.pure (fun _ hs => hs)
  | cons x rest ih =>
    refine Triple.bind (R := fun _ => Going a m bytes ids i u rest) ?_ (fun _ => ih)
    refine Triple.rescue (R := fun _ => False) ?_ (fun _ hs => hs.elim)
    apply Triple.within
    intro s hs
    obtain ⟨q, hrun, hunderway, halike⟩ := hs.underway.complete
    rw [hrun]
    exact ⟨hs.holds.alike rfl rfl halike.shares, hunderway⟩

theorem commit_paused {i : PreparedTransitionId} {u : PreparedTransition} {revision : ℕ}
    (hrevision : u.revision = revision) (identity : ℕ) {E : MappedState Logits → Prop} :
    Triple (Going a m bytes ids i u [])
      (onPhysical (PhysicalManager.commitMappedTransition i revision identity))
      (fun _ => Paused a m bytes ids) E := by
  subst hrevision
  apply Triple.within
  intro s hs
  cases hrun : (PhysicalManager.commitMappedTransition i u.revision identity).run s.physical with
  | panics => trivial
  | returns r q =>
    obtain ⟨⟨committed, rfl⟩, hresting, halike⟩ := hs.underway.commit hrun
    exact ⟨hs.holds.alike rfl rfl halike.shares, hresting⟩

theorem abort_paused {i : PreparedTransitionId} {u : PreparedTransition}
    {E : MappedState Logits → Prop} :
    Triple (Going a m bytes ids i u []) (abortTransition i) (fun _ => Paused a m bytes ids) E := by
  apply Triple.ignore
  apply Triple.within
  intro s hs
  cases hrun : (PhysicalManager.abortTransition i).run s.physical with
  | panics => trivial
  | returns r q =>
    obtain ⟨hresting, halike⟩ := hs.underway.abort hrun
    have hpaused : Paused a m bytes ids { s with physical := q } :=
      ⟨hs.holds.alike rfl rfl halike.shares, hresting⟩
    cases r with
    | ok _ => exact hpaused
    | error err => exact hpaused

/-- A native identity that is 32 bits wide is handed over. -/
theorem nativeIdentity_of_lt {h : RepresentationHandle} (hlt : h.identity < 2 ^ 32)
    {P E : MappedState Logits → Prop} : Triple P (nativeIdentity h) (fun _ => P) E := by
  intro s hs
  unfold nativeIdentity
  rw [if_pos hlt]
  exact hs

end Transitions

section Activation

/-- The representation entered has the next identity. -/
theorem enterRepresentation_next (tokens : List Token) :
    Triple (Apart a) (enterRepresentation tokens)
      (fun k s => Beside a s ∧ k = ⟨a.executor.nextIdentity⟩) (Beside a) := by
  unfold enterRepresentation
  apply Triple.bind (R := fun _ => Apart a)
  · exact (Triple.of_moves (apart_attempt _) (fun s t hst hs => Apart.trans a s t hs hst)).weaken
      (fun _ hs => hs) (fun _ _ hs => hs) (fun _ hs => hs.beside)
  intro _
  apply Triple.read_bind
  intro s hs
  apply Triple.bind (R := fun _ => Beside a)
  · apply Triple.update
    rintro _ rfl
    exact ⟨hs.beside.physical, hs.beside.logical, hs.beside.resident⟩
  intro _
  apply Triple.pure
  intro t ht
  exact ⟨ht, congrArg RepresentationHandle.mk hs.nextIdentity⟩

theorem nativeState_native (r : ResidentMapping Logits) :
    Triple (fun s => s = a) (nativeState b r)
      (fun native s => Beside a s ∧ native = r.native.getD ⟨a.executor.nextIdentity⟩)
      (Beside a) := by
  unfold nativeState
  cases r.native with
  | some native =>
    apply Triple.pure
    rintro _ rfl
    exact ⟨Beside.refl _, rfl⟩
  | none =>
    apply Triple.before (P := Apart a)
    swap
    · rintro _ rfl
      exact Apart.refl _
    apply Triple.require_bind (fun _ hs => hs.beside)
    intro spilled _
    have hread : Moves Apart (readFile spilled.path : Operation Logits (List Token)) :=
      apart_of_aside (aside_readFile _) (beside_bind (beside_attempt _)
        (fun _ => beside_read_bind (fun _ => beside_require _ _)))
    apply Triple.bind (R := fun _ => Apart a)
    · exact (Triple.of_moves hread (fun s t hst hs => Apart.trans a s t hs hst)).weaken
        (fun _ hs => hs) (fun _ _ hs => hs) (fun _ hs => hs.beside)
    intro tokens
    apply Triple.check_bind (fun _ hs => hs.beside)
    intro _
    exact enterRepresentation_next tokens

theorem restore_atRest {id : EvaluatedPrefixId} {native : RepresentationHandle}
    {E : MappedState Logits → Prop} :
    Triple (AtRest p b) (restore id native) (fun _ => AtRest p b) E := by
  unfold restore
  apply Triple.read_bind
  intro s hs
  apply Triple.unwrap_bind
  intro r hr
  apply Triple.unwrap_bind
  intro spilled _
  have hset : ∀ (t : MappedState Logits) (r' r'' : ResidentMapping Logits), AtRest p b t →
      t.resident.lookup id = some r' → r''.representations = r'.representations →
      AtRest p b (t.setResident id r'') := by
    intro t r' r'' ht hr' hsame
    exact ht.keep ht.resting (fun _ => rfl) (listsOf_setResident hr' hsame) (stores_of_eq rfl)
  have hentry : ∀ t u : MappedState Logits, Beside t u →
      (AtRest p b t ∧ t.resident.lookup id = some { r with spill := none }) →
      AtRest p b u ∧ u.resident.lookup id = some { r with spill := none } := by
    intro t u htu ⟨ht, hlookup⟩
    exact ⟨ht.beside htu, htu.resident ▸ hlookup⟩
  apply Triple.bind (R := fun _ t => AtRest p b t ∧
    t.resident.lookup id = some { r with spill := none })
  · apply Triple.update
    rintro _ rfl
    exact ⟨hset _ r _ hs hr rfl, AList.lookup_insert _⟩
  intro _
  apply Triple.bind (R := fun _ t => AtRest p b t ∧
    t.resident.lookup id = some { r with spill := none })
  · exact Triple.ignore (Triple.of_moves (beside_removeFile spilled.path) hentry)
  intro _
  apply Triple.update
  intro t ⟨ht, hlookup⟩
  have hdone := hset t _ { r with spill := none, native := some native } ht hlookup rfl
  exact hdone.beside ⟨rfl, rfl, rfl⟩

/-- A prefix is activated, or not, and nothing of the transition is left. -/
theorem activatePrefix_atRest (ha : AtRest p b a) (context : LogicalContextId)
    (m : Option EvaluatedPrefix)
    (hguard : ∀ m' ∈ m, ∀ r, a.resident.lookup m'.id = some r → Transits a r) :
    Triple (fun s => s = a) (activatePrefix b context m) (fun _ => AtRest p b) (AtRest p b) := by
  have hkept : ∀ s, Beside a s → AtRest p b s := fun s hs => ha.beside hs
  have hbeside : ∀ {α : Type} {x : Operation Logits α}, Moves Beside x →
      Triple (Beside a) x (fun _ => Beside a) (AtRest p b) :=
    fun hx => (Triple.of_moves hx (fun s t hst hs => Beside.trans a s t hs hst)).weaken
      (fun _ hs => hs) (fun _ _ hs => hs) hkept
  cases m with
  | none =>
    apply Triple.read_bind
    rintro s rfl
    apply ((hbeside (beside_activateMapping s.root)).after (fun _ => hkept)).before
    rintro _ rfl
    exact Beside.refl _
  | some m =>
    apply Triple.read_bind
    rintro s rfl
    apply Triple.require_bind
    · rintro _ rfl
      exact ha
    intro resident hresident
    have hguard := hguard m rfl resident hresident
    apply Triple.bind ((nativeState_native resident).weaken (fun _ hs => hs) (fun _ _ hs => hs)
      hkept)
    intro native
    apply Triple.assume
    rintro rfl
    apply Triple.bind (hbeside (beside_revisionOf context))
    intro revision
    apply Triple.bind (hbeside beside_activeRepresentation)
    intro previous
    have hfits : s.physical.capacity.deviceBytes <
          guardedBytes s.physical + missingBytes s.physical resident.representations ∨
        boundBytes s.physical resident.representations ≤ s.physical.capacity.deviceBytes :=
      hguard.imp_right And.left
    have hstart : ∀ t, Beside s t → Paused s m.id 0 [] t :=
      fun t ht => ⟨(Holds.refl s).beside ht, ht.physical ▸ ha.resting⟩
    have hrefused : ∀ t q, Beside s t → Resting q → Thinned t.physical q →
        AtRest p b { t with physical := q } := by
      intro t q ht hresting hthinned
      have hholds : Holds s m.id 0 [] { t with physical := q } :=
        (hstart t ht).holds.alike rfl rfl hthinned.alike.shares
      exact hholds.atRest ha hresting
    apply Triple.bind (prepare_going hstart (fun t ht => ht.physical ▸ hfits) hrefused)
    rintro ⟨prepared, _, transfers⟩
    apply Triple.of_exists
    intro u
    apply Triple.before (P := fun t => Going s m.id 0 [] prepared u transfers t ∧
      (u.revision = revision ∧ guardedBytes s.physical +
        missingBytes s.physical resident.representations ≤ s.physical.capacity.deviceBytes))
    swap
    · rintro t ⟨hgoing, hrevision, s₀, hs₀, hadmitted⟩
      exact ⟨hgoing, hrevision, hs₀.physical ▸ hadmitted⟩
    apply Triple.assume
    intro ⟨hrevision, hadmitted⟩
    have hidentity := (hguard.resolve_left (Nat.not_lt.mpr hadmitted)).2
    apply Triple.bind (completeTransfers_going transfers)
    intro _
    have hpaused : ∀ t, Paused s m.id 0 [] t → AtRest p b t :=
      fun t ht => ht.holds.atRest ha ht.resting
    apply Triple.bind (R := fun _ => Going s m.id 0 [] prepared u [])
    · exact Triple.rescue (Triple.of_moves (beside_activateMapping _)
        (fun t t' hst ht => ht.beside hst))
        (abort_paused.weaken (fun _ ht => ht) (fun _ => hpaused) (fun _ ht => ht))
    intro _
    apply Triple.bind (nativeIdentity_of_lt hidentity)
    intro identity
    apply Triple.bind (R := fun _ => AtRest p b)
    · exact Triple.rescue (R := fun _ => False)
        ((commit_paused hrevision identity).after (fun _ => hpaused)) (fun _ ht => ht.elim)
    intro _
    cases resident.native with
    | none => exact restore_atRest
    | some native => exact Triple.pure (fun _ ht => ht)

theorem branchPrefix_atRest (ha : AtRest p b a) (context : LogicalContextId)
    (m : Option EvaluatedPrefix)
    (hguard : ∀ m' ∈ m, ∀ r, a.resident.lookup m'.id = some r → Transits a r) :
    Triple (fun s => s = a) (branchPrefix b context m) (fun _ => AtRest p b) (AtRest p b) := by
  have hbeside : ∀ s t : MappedState Logits, Beside s t → AtRest p b s → AtRest p b t :=
    fun s t hst hs => hs.beside hst
  unfold branchPrefix
  apply Triple.bind (activatePrefix_atRest ha context m hguard)
  intro _
  apply Triple.bind (Triple.of_moves beside_activeRepresentation hbeside)
  intro source
  exact Triple.of_moves (beside_forkForRequestBranch source) hbeside

end Activation

end Cusco.ReleasedPreparations
