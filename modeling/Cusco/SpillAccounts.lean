import Cusco.EngineRuns

/-!
Residency and spilling, accounted for. In every state that the sessions, their drops and the
spills reach, every mapping stored is resident with native state or a file and not with both,
the spilled bytes are the sum over the files, and the mappings form chains of whole blocks in
which a mapping's parent is the one mapping with its tokens less the last block.
-/

namespace Cusco.SpillAccounts

open LogicalStore Physical Mapped EngineInvariant EngineRuns Runs

variable {Logits Sampler : Type} {sha : List UInt8 → Digest} {e : MappedEngine}
  {b : Backend Logits Sampler} {s : MappedState Logits}

/-- Residency, spilled bytes and the chains of blocks. -/
structure MappingsAccounted (e : MappedEngine) (s : MappedState Logits) : Prop where
  resident : ∀ m entry, s.logical.mappings.lookup m = some entry →
    ∃ r, s.resident.lookup m = some r
  either : ∀ m r, s.resident.lookup m = some r →
    r.native.isSome ∧ r.spill = none ∨ r.native = none ∧ r.spill.isSome
  spilled : s.spillBytes = s.resident.total (fun _ r => spilledBytes r)
  bounded : s.spillBytes ≤ e.spillCapacity
  length : ∀ m entry, s.logical.mappings.lookup m = some entry →
    entry.mapping.sequence.length = entry.mapping.representedEnd
  whole : ∀ m entry, s.logical.mappings.lookup m = some entry →
    0 < entry.mapping.representedEnd ∧ e.profile.blockSize ∣ entry.mapping.representedEnd
  first : ∀ m entry, s.logical.mappings.lookup m = some entry →
    (entry.mapping.parent = none ↔ entry.mapping.representedEnd = e.profile.blockSize)
  parent : ∀ m entry p, s.logical.mappings.lookup m = some entry →
    (entry.mapping.parent = some p ↔ ∃ entry', s.logical.mappings.lookup p = some entry' ∧
      entry'.mapping.representedEnd + e.profile.blockSize = entry.mapping.representedEnd ∧
      entry'.mapping.sequence = entry.mapping.sequence.take entry'.mapping.representedEnd)

/-- The first block, and no other, has no parent. -/
theorem first_iff (h : Sound sha e b s) {m : EvaluatedPrefixId} {entry : MappingEntry}
    (hentry : s.logical.mappings.lookup m = some entry) :
    entry.mapping.parent = none ↔ entry.mapping.representedEnd = e.profile.blockSize := by
  have hblock := h.blocks m entry hentry
  constructor
  · exact hblock.first
  · intro hend
    cases hparent : entry.mapping.parent with
    | none => rfl
    | some p =>
      obtain ⟨entry', hentry', hlonger, _⟩ := hblock.longer p hparent
      have hpositive := (h.blocks p entry' hentry').positive
      omega

/-- Two mappings of the same tokens are the same: their chains of parents are. -/
theorem same_of_sequence (h : Sound sha e b s) (n : ℕ) : ∀ m m' entry entry',
    s.logical.mappings.lookup m = some entry → s.logical.mappings.lookup m' = some entry' →
    entry.mapping.sequence = entry'.mapping.sequence → entry.mapping.representedEnd = n →
    m = m' ∧ entry.mapping.lineage = entry'.mapping.lineage := by
  induction n using Nat.strong_induction_on with
  | _ n ih =>
    intro m m' entry entry' hentry hentry' hsequence hn
    have hblock := h.blocks m entry hentry
    have hblock' := h.blocks m' entry' hentry'
    have hend : entry.mapping.representedEnd = entry'.mapping.representedEnd := by
      rw [← hblock.length, ← hblock'.length, hsequence]
    have hparents : entry.mapping.parent = entry'.mapping.parent ∧
        parentLineage s.logical entry.mapping.parent =
          parentLineage s.logical entry'.mapping.parent := by
      cases hparent : entry.mapping.parent with
      | none =>
        have hfirst := (first_iff h hentry').mpr (hend ▸ hblock.first hparent)
        rw [hfirst]
        exact ⟨rfl, rfl⟩
      | some p =>
        obtain ⟨d, hd, hlonger, htake⟩ := hblock.longer p hparent
        cases hparent' : entry'.mapping.parent with
        | none =>
          have hnone := (first_iff h hentry).mpr (hend.trans (hblock'.first hparent'))
          rw [hnone] at hparent
          cases hparent
        | some p' =>
          obtain ⟨d', hd', hlonger', htake'⟩ := hblock'.longer p' hparent'
          have hpositive := e.profile.block_pos
          have hshorter : d.mapping.representedEnd = d'.mapping.representedEnd := by omega
          obtain ⟨rfl, _⟩ := ih d.mapping.representedEnd (by omega) p p' d d' hd hd'
            (by rw [htake, htake', hsequence, hshorter]) rfl
          exact ⟨rfl, rfl⟩
    obtain ⟨hparent, hlineage⟩ := hparents
    have hsame : entry.mapping.lineage = entry'.mapping.lineage := by
      rw [hblock.lineage, hblock'.lineage, hlineage, hsequence, hend]
    refine ⟨?_, hsame⟩
    rw [← h.accounted.catalogued.keyed m entry hentry,
      ← h.accounted.catalogued.keyed m' entry' hentry', hblock.named, hblock'.named, hsame, hparent,
      hsequence, hend, hblock.model, hblock'.model, hblock.adapter, hblock'.adapter]

/-- The parent is the mapping one block shorter of the same tokens. -/
theorem parent_iff (h : Sound sha e b s) {m p : EvaluatedPrefixId} {entry : MappingEntry}
    (hentry : s.logical.mappings.lookup m = some entry) :
    entry.mapping.parent = some p ↔ ∃ entry', s.logical.mappings.lookup p = some entry' ∧
      entry'.mapping.representedEnd + e.profile.blockSize = entry.mapping.representedEnd ∧
      entry'.mapping.sequence = entry.mapping.sequence.take entry'.mapping.representedEnd := by
  have hblock := h.blocks m entry hentry
  constructor
  · exact hblock.longer p
  · intro ⟨entry', hentry', hlonger, htake⟩
    cases hparent : entry.mapping.parent with
    | none =>
      have hend := hblock.first hparent
      have hpositive := (h.blocks p entry' hentry').positive
      omega
    | some q =>
      obtain ⟨d, hd, hlonger', htake'⟩ := hblock.longer q hparent
      have hshorter : d.mapping.representedEnd = entry'.mapping.representedEnd := by omega
      obtain ⟨rfl, _⟩ := same_of_sequence h _ q p d entry' hd hentry'
        (by rw [htake, htake', hshorter]) rfl
      rfl

theorem mappingsAccounted_of_sound (h : Sound sha e b s) : MappingsAccounted e s where
  resident := h.resident
  either := by
    intro m r hr
    obtain ⟨entry, _, hf⟩ := h.faithful m r hr
    have heither := hf.either
    cases hspill : r.spill with
    | none =>
      rw [hspill] at heither
      exact Or.inl ⟨heither, rfl⟩
    | some x =>
      rw [hspill] at heither
      exact Or.inr ⟨Option.not_isSome_iff_eq_none.mp
        (fun hsome => nomatch heither.symm.trans hsome),
        rfl⟩
  spilled := h.spilled
  bounded := h.bounded
  length := fun m entry hentry => (h.blocks m entry hentry).length
  whole := fun m entry hentry =>
    ⟨(h.blocks m entry hentry).positive, (h.blocks m entry hentry).divides⟩
  first := fun _ _ hentry => first_iff h hentry
  parent := fun _ _ _ hentry => parent_iff h hentry

/-- Residency, spilled bytes and chains of blocks are accounted for in every state reached. -/
theorem mappings_stay_accounted {capacity : Capacity} {modelEpoch : ModelEpoch}
    {w : World Logits Sampler}
    (h : Reaches (Step sha e b) (World.opened capacity modelEpoch) w) :
    MappingsAccounted e w.state :=
  mappingsAccounted_of_sound (worldSound_reached h).sound

/-- The mappings resident after one session, in the order of the map. -/
def residentAfterOne : List EvaluatedPrefixId :=
  (trace smallAct smallWorld (oneSession 0)).elim []
    (fun run => (last smallWorld run).state.resident.keys)

/-- Of the two blocks of one session the first is spilled, and both are accounted for. -/
theorem spilledBlock_accounted : ∃ run,
    IsRun (Step Sha256.sha256 smallEngine smallBackend) smallWorld run ∧
      (last smallWorld run).state.spillBytes = 2 ∧
      MappingsAccounted smallEngine (last smallWorld run).state := by
  have hrun : (trace smallAct smallWorld (oneSession 0 ++ [.spill residentAfterOne []])).any
      (fun run => decide ((last smallWorld run).state.spillBytes = 2)) = true := by
    decide +kernel
  obtain ⟨run, htrace, hchecked⟩ := (Option.any_eq_true _ _).mp hrun
  have hsteps : IsRun (Step Sha256.sha256 smallEngine smallBackend) smallWorld run :=
    isRun_of_trace _ _ _ run htrace
  exact ⟨run, hsteps, of_decide_eq_true hchecked, mappings_stay_accounted ⟨run, hsteps, rfl⟩⟩

end Cusco.SpillAccounts
