import Cusco.EngineFrames

/-!
The invariant of the mapped engine. Every stored mapping is one block longer than its parent
and is resident, with native state or a spill file that holds its tokens; the spilled bytes
are those of the files. It holds before and after every operation on the engine.
-/

namespace Cusco.EngineInvariant

open Calls LogicalStore Physical Mapped StoreAccounts PinnedCatalogue EngineFrames
open Calls.Call (Moves Triple)

section Definitions

variable {Logits Sampler : Type}

/-- The lineage that a publication starts from. -/
def parentLineage (s : ContextStore) (parent : Option EvaluatedPrefixId) : DependencyHash :=
  ((parent.bind s.mappings.lookup).map (fun entry => entry.mapping.lineage)).getD zeroDigest

/-- A whole number of blocks of the engine's epochs, one block longer than its parent. -/
structure Block (sha : List UInt8 → Digest) (e : MappedEngine) (epoch : ModelEpoch)
    (s : ContextStore) (m : EvaluatedPrefix) : Prop where
  length : m.sequence.length = m.representedEnd
  positive : 0 < m.representedEnd
  divides : e.profile.blockSize ∣ m.representedEnd
  model : m.modelEpoch = epoch
  adapter : m.adapterEpoch = adapterEpoch
  first : m.parent = none → m.representedEnd = e.profile.blockSize
  longer : ∀ p, m.parent = some p → ∃ entry, s.mappings.lookup p = some entry ∧
    entry.mapping.representedEnd + e.profile.blockSize = m.representedEnd ∧
      entry.mapping.sequence = m.sequence.take entry.mapping.representedEnd
  lineage : m.lineage = dependencyHash sha (parentLineage s m.parent) (branchId sha m.sequence)
    m.representedEnd
  named : m.id = mappingId sha m.modelEpoch m.adapterEpoch m.parent (branchId sha m.sequence)
    m.representedEnd e.profile.requiredMask zeroDigest m.lineage

def spilledBytes (r : ResidentMapping Logits) : ℕ := (r.spill.map SpilledMapping.bytes).getD 0

/-- A resident mapping has native state or a file, either of which holds the mapping's tokens,
and the logits after them. -/
structure Faithful (b : Backend Logits Sampler) (s : MappedState Logits) (id : EvaluatedPrefixId)
    (r : ResidentMapping Logits) (m : EvaluatedPrefix) : Prop where
  either : r.native.isSome = !r.spill.isSome
  native : ∀ h, r.native = some h → h.identity < s.executor.nextIdentity ∧
    s.executor.tokensOf h = m.sequence
  spill : ∀ x, r.spill = some x → x.path = id ∧ s.files.lookup id = some m.sequence ∧
    x.bytes = b.exportedBytes m.sequence
  continuation : r.continuation = b.logits m.sequence

structure Sound (sha : List UInt8 → Digest) (e : MappedEngine) (b : Backend Logits Sampler)
    (s : MappedState Logits) : Prop where
  accounted : Accounted s.logical
  pinned : Pinned s.logical
  blocks : ∀ m entry, s.logical.mappings.lookup m = some entry →
    Block sha e s.modelEpoch s.logical entry.mapping
  resident : ∀ m entry, s.logical.mappings.lookup m = some entry →
    ∃ r, s.resident.lookup m = some r
  faithful : ∀ m r, s.resident.lookup m = some r →
    ∃ entry, s.logical.mappings.lookup m = some entry ∧ Faithful b s m r entry.mapping
  spilled : s.spillBytes = s.resident.total (fun _ r => spilledBytes r)
  bounded : s.spillBytes ≤ e.spillCapacity
  root_issued : s.root.identity < s.executor.nextIdentity
  root_empty : s.executor.tokensOf s.root = []

/-- The representation is the caller's own: neither the root nor a mapping's native state. -/
structure Unshared (s : MappedState Logits) (h : RepresentationHandle) : Prop where
  issued : h.identity < s.executor.nextIdentity
  root : h ≠ s.root
  native : ∀ m, s.nativeOf m ≠ some h

/-- What a call leaves alone that works in the context `own` and in the representation
`branch`. -/
structure Evolves (own : Option LogicalContextId) (branch : Option RepresentationHandle)
    (s t : MappedState Logits) : Prop where
  root : t.root = s.root
  modelEpoch : t.modelEpoch = s.modelEpoch
  next : s.logical.nextContext ≤ t.logical.nextContext
  contexts : ∀ c, c.value < s.logical.nextContext → own ≠ some c →
    t.logical.contexts.lookup c = s.logical.contexts.lookup c
  present : ∀ c, c.value < s.logical.nextContext →
    (t.logical.contexts.lookup c = none ↔ s.logical.contexts.lookup c = none)
  created : ∀ c, s.logical.nextContext ≤ c.value → c.value < t.logical.nextContext →
    t.logical.contexts.lookup c ≠ none
  mappings : ∀ m entry, s.logical.mappings.lookup m = some entry →
    ∃ entry', t.logical.mappings.lookup m = some entry' ∧ entry'.mapping = entry.mapping
  identities : s.executor.nextIdentity ≤ t.executor.nextIdentity
  evaluated : ∀ k, k.identity < s.executor.nextIdentity → branch ≠ some k →
    t.executor.tokensOf k = s.executor.tokensOf k
  natives : ∀ m k, t.nativeOf m = some k →
    s.nativeOf m = some k ∨ s.executor.nextIdentity ≤ k.identity

end Definitions

section Relations

variable {Logits Sampler : Type} {sha : List UInt8 → Digest} {e : MappedEngine}
  {b : Backend Logits Sampler} {own : Option LogicalContextId}
  {branch : Option RepresentationHandle} {s t u : MappedState Logits}

theorem Evolves.refl (s : MappedState Logits) : Evolves own branch s s where
  root := rfl
  modelEpoch := rfl
  next := le_rfl
  contexts := fun _ _ _ => rfl
  present := fun _ _ => Iff.rfl
  created := fun _ hle hlt => absurd hlt (Nat.not_lt.mpr hle)
  mappings := fun _ entry h => ⟨entry, h, rfl⟩
  identities := le_rfl
  evaluated := fun _ _ _ => rfl
  natives := fun _ _ h => Or.inl h

theorem Evolves.trans (hst : Evolves own branch s t) (htu : Evolves own branch t u) :
    Evolves own branch s u where
  root := htu.root.trans hst.root
  modelEpoch := htu.modelEpoch.trans hst.modelEpoch
  next := hst.next.trans htu.next
  contexts := by
    intro c hc hown
    exact (htu.contexts c (hc.trans_le hst.next) hown).trans (hst.contexts c hc hown)
  present := by
    intro c hc
    exact (htu.present c (hc.trans_le hst.next)).trans (hst.present c hc)
  created := by
    intro c hle hlt
    by_cases hc : c.value < t.logical.nextContext
    · exact fun hnone => hst.created c hle hc ((htu.present c hc).mp hnone)
    · exact htu.created c (Nat.not_lt.mp hc) hlt
  mappings := by
    intro m entry hentry
    obtain ⟨entry', hentry', hsame⟩ := hst.mappings m entry hentry
    obtain ⟨entry'', hentry'', hsame'⟩ := htu.mappings m entry' hentry'
    exact ⟨entry'', hentry'', hsame'.trans hsame⟩
  identities := hst.identities.trans htu.identities
  evaluated := by
    intro k hk hbranch
    exact (htu.evaluated k (hk.trans_le hst.identities) hbranch).trans
      (hst.evaluated k hk hbranch)
  natives := by
    intro m k hk
    rcases htu.natives m k hk with hk | hnew
    · exact hst.natives m k hk
    · exact Or.inr (hst.identities.trans hnew)

theorem Evolves.of_aside (h : Aside s t) : Evolves own branch s t where
  root := h.root
  modelEpoch := h.modelEpoch
  next := by rw [h.logical]
  contexts := by
    intro c _ _
    rw [h.logical]
  present := by
    intro c _
    rw [h.logical]
  created := by
    intro c hle hlt
    rw [h.logical] at hlt
    exact absurd hlt (Nat.not_lt.mpr hle)
  mappings := by
    intro m entry hentry
    rw [h.logical]
    exact ⟨entry, hentry, rfl⟩
  identities := h.nextIdentity.ge
  evaluated := fun k _ _ => h.tokensOf k
  natives := by
    intro m k hk
    rw [h.nativeOf] at hk
    exact Or.inl hk

theorem Unshared.of_aside {h : RepresentationHandle} (hu : Unshared s h) (ha : Aside s t) :
    Unshared t h where
  issued := ha.nextIdentity.symm ▸ hu.issued
  root := by
    rw [ha.root]
    exact hu.root
  native := by
    intro m
    rw [ha.nativeOf]
    exact hu.native m

/-- What a call leaves alone stays unshared. -/
theorem Unshared.evolve {h : RepresentationHandle} (hu : Unshared s h)
    (he : Evolves own branch s t) : Unshared t h where
  issued := hu.issued.trans_le he.identities
  root := by
    rw [he.root]
    exact hu.root
  native := by
    intro m hm
    rcases he.natives m h hm with hold | hnew
    · exact hu.native m hold
    · exact absurd hu.issued (Nat.not_lt.mpr hnew)

theorem Faithful.of_aside {id : EvaluatedPrefixId} {r : ResidentMapping Logits}
    {m : EvaluatedPrefix} (hf : Faithful b s id r m) (ha : Aside s t) : Faithful b t id r m where
  either := hf.either
  native := by
    intro h hh
    rw [ha.nextIdentity, ha.tokensOf]
    exact hf.native h hh
  spill := by
    intro x hx
    rw [ha.files]
    exact hf.spill x hx
  continuation := hf.continuation

theorem Sound.of_aside (hs : Sound sha e b s) (ha : Aside s t) : Sound sha e b t where
  accounted := ha.logical.symm ▸ hs.accounted
  pinned := ha.logical.symm ▸ hs.pinned
  blocks := by
    intro m entry hentry
    rw [ha.logical] at hentry ⊢
    rw [ha.modelEpoch]
    exact hs.blocks m entry hentry
  resident := by
    intro m entry hentry
    rw [ha.logical] at hentry
    rw [ha.resident]
    exact hs.resident m entry hentry
  faithful := by
    intro m r hr
    rw [ha.resident] at hr
    obtain ⟨entry, hentry, hf⟩ := hs.faithful m r hr
    exact ⟨entry, ha.logical.symm ▸ hentry, hf.of_aside ha⟩
  spilled := by
    rw [ha.spillBytes, ha.resident]
    exact hs.spilled
  bounded := ha.spillBytes.symm ▸ hs.bounded
  root_issued := by
    rw [ha.root, ha.nextIdentity]
    exact hs.root_issued
  root_empty := by
    rw [ha.root, ha.tokensOf]
    exact hs.root_empty

/-- The state of a call under way that began in `s`. -/
structure Held (sha : List UInt8 → Digest) (e : MappedEngine) (b : Backend Logits Sampler)
    (own : Option LogicalContextId) (branch : Option RepresentationHandle)
    (s t : MappedState Logits) : Prop where
  evolves : Evolves own branch s t
  sound : Sound sha e b t

theorem Held.of_aside (h : Held sha e b own branch s t) (ha : Aside t u) :
    Held sha e b own branch s u :=
  ⟨h.evolves.trans (Evolves.of_aside ha), h.sound.of_aside ha⟩

theorem Held.refl (h : Sound sha e b s) : Held sha e b own branch s s :=
  ⟨Evolves.refl s, h⟩

/-- A block of a store is one of every store that keeps its mappings. -/
theorem Block.keep {epoch : ModelEpoch} {l l' : ContextStore} {m : EvaluatedPrefix}
    (hb : Block sha e epoch l m) (hkept : ∀ k entry, l.mappings.lookup k = some entry →
      ∃ entry', l'.mappings.lookup k = some entry' ∧ entry'.mapping = entry.mapping) :
    Block sha e epoch l' m where
  length := hb.length
  positive := hb.positive
  divides := hb.divides
  model := hb.model
  adapter := hb.adapter
  first := hb.first
  longer := by
    intro p hp
    obtain ⟨entry, hentry, hlonger⟩ := hb.longer p hp
    obtain ⟨entry', hentry', hsame⟩ := hkept p entry hentry
    exact ⟨entry', hentry', hsame ▸ hlonger⟩
  lineage := by
    rw [hb.lineage]
    congr 1
    cases hp : m.parent with
    | none => rfl
    | some p =>
      obtain ⟨entry, hentry, _⟩ := hb.longer p hp
      obtain ⟨entry', hentry', hsame⟩ := hkept p entry hentry
      simp only [parentLineage, Option.bind_some, hentry, hentry', Option.map_some, hsame]
  named := hb.named

end Relations

end Cusco.EngineInvariant
