import Cusco.ErrorAtomicity

/-!
What a call of the physical manager does to the copies on the tiers. Copies of
representations that are not protected may go; a copy appears when a representation is
registered or demoted, and when a transfer or a recomputation brings it to the device.
Nothing else rewrites a tier, a size or a logical count.
-/

namespace Cusco.TierSteps

open Calls Physical Physical.PhysicalManager DeviceEviction PhysicalEffects PhysicalOwners
open PhysicalSteps PhysicalTransitions PhysicalTransfers PhysicalPreparations PhysicalRuns Runs
open ErrorAtomicity

variable {m m' : PhysicalManager} {result : Except Error Unit} {k : PhysicalRepresentationId}

/-- No copy appears, and a protected representation keeps its copies. -/
structure Fades (r r' : PhysicalRepresentation) : Prop where
  bytes : r'.bytes = r.bytes
  logical : r'.references.logical = r.references.logical
  device : r'.device = true → r.device = true
  host : r'.host = true → r.host = true
  storage : r'.storage = true → r.storage = true
  kept : r.references.isProtected = true →
    r'.device = r.device ∧ r'.host = r.host ∧ r'.storage = r.storage

structure SameCopies (r r' : PhysicalRepresentation) : Prop where
  bytes : r'.bytes = r.bytes
  logical : r'.references.logical = r.references.logical
  device : r'.device = r.device
  host : r'.host = r.host
  storage : r'.storage = r.storage

theorem SameCopies.refl (r : PhysicalRepresentation) : SameCopies r r :=
  ⟨rfl, rfl, rfl, rfl, rfl⟩

theorem SameCopies.fades {r r' : PhysicalRepresentation} (h : SameCopies r r') : Fades r r' := by
  refine ⟨h.bytes, h.logical, ?_, ?_, ?_, fun _ => ⟨h.device, h.host, h.storage⟩⟩
  · exact fun hd => h.device ▸ hd
  · exact fun hd => h.host ▸ hd
  · exact fun hd => h.storage ▸ hd

theorem Fades.same {a b c : PhysicalRepresentation} (h : Fades a b) (hbc : SameCopies b c) :
    Fades a c := by
  refine ⟨hbc.bytes.trans h.bytes, hbc.logical.trans h.logical, ?_, ?_, ?_, ?_⟩
  · exact fun hd => h.device (hbc.device ▸ hd)
  · exact fun hd => h.host (hbc.host ▸ hd)
  · exact fun hd => h.storage (hbc.storage ▸ hd)
  · intro hprotected
    obtain ⟨hdevice, hhost, hstorage⟩ := h.kept hprotected
    exact ⟨hbc.device.trans hdevice, hbc.host.trans hhost, hbc.storage.trans hstorage⟩

theorem fades_leaving (gone : PhysicalRepresentation → Bool)
    (hgone : ∀ r, gone r = true → r.references.isProtected = false)
    (r : PhysicalRepresentation) : Fades r (leaving gone r) := by
  unfold leaving
  by_cases hr : gone r = true
  · rw [if_pos hr]
    refine ⟨rfl, rfl, fun hd => (nomatch hd), fun hd => hd, fun hd => hd, ?_⟩
    intro hprotected
    rw [hgone r hr] at hprotected
    cases hprotected
  · rw [if_neg hr]
    exact (SameCopies.refl r).fades

/-- Every stored representation was stored, and faded. -/
def Fading (m m' : PhysicalManager) : Prop :=
  ∀ k r', m'.representations.lookup k = some r' →
    ∃ r, m.representations.lookup k = some r ∧ Fades r r'

def CopiesKept (m m' : PhysicalManager) : Prop :=
  ∀ k r', m'.representations.lookup k = some r' →
    ∃ r, m.representations.lookup k = some r ∧ SameCopies r r'

theorem fading_evicted (h : Evicted m m') : Fading m m' := by
  obtain ⟨representations, metrics, gone, rfl, hrewrites, hgone, _⟩ := h
  intro k r' hk
  obtain ⟨r, hr, rfl⟩ := hrewrites.of_lookup hk
  exact ⟨r, hr, fades_leaving gone hgone r⟩

theorem Fading.refl (m : PhysicalManager) : Fading m m := fading_evicted (Evicted.refl m)

theorem Fading.kept {a b c : PhysicalManager} (h : Fading a b) (hbc : CopiesKept b c) :
    Fading a c := by
  intro k r'' hk
  obtain ⟨r', hr', hsame⟩ := hbc k r'' hk
  obtain ⟨r, hr, hfades⟩ := h k r' hr'
  exact ⟨r, hr, hfades.same hsame⟩

theorem copiesKept_of_eq (h : m'.representations = m.representations) : CopiesKept m m' := by
  intro k r hk
  rw [h] at hk
  exact ⟨r, hk, SameCopies.refl r⟩

theorem copiesKept_of_rewrites
    {g : PhysicalRepresentationId → PhysicalRepresentation → PhysicalRepresentation}
    (h : AList.Rewrites m.representations m'.representations g) (hg : ∀ k r, SameCopies r (g k r)) :
    CopiesKept m m' := by
  intro k r' hk
  obtain ⟨r, hr, rfl⟩ := h.of_lookup hk
  exact ⟨r, hr, hg k r⟩

theorem CopiesKept.fading (h : CopiesKept m m') : Fading m m' :=
  (Fading.refl m).kept h

theorem CopiesKept.trans {a b c : PhysicalManager} (hab : CopiesKept a b)
    (hbc : CopiesKept b c) : CopiesKept a c := by
  intro k r'' hk
  obtain ⟨r', hr', hsame'⟩ := hbc k r'' hk
  obtain ⟨r, hr, hsame⟩ := hab k r' hr'
  exact ⟨r, hr, hsame'.bytes.trans hsame.bytes, hsame'.logical.trans hsame.logical,
    hsame'.device.trans hsame.device, hsame'.host.trans hsame.host,
    hsame'.storage.trans hsame.storage⟩

theorem copiesKept_unbound {c : Context} (h : Unbound m c m') : CopiesKept m m' :=
  copiesKept_of_rewrites h.rewrites (fun _ _ => ⟨rfl, rfl, rfl, rfl, rfl⟩)

theorem copiesKept_committed {i : PreparedTransitionId} {t : PreparedTransition}
    (h : Committed m i t m') : CopiesKept m m' :=
  copiesKept_of_rewrites h.rewrites (fun _ _ => ⟨rfl, rfl, rfl, rfl, rfl⟩)

theorem copiesKept_aborted {i : PreparedTransitionId} {t : PreparedTransition}
    (h : Aborted m i t m') : CopiesKept m m' :=
  copiesKept_of_rewrites h.rewrites (fun _ _ => ⟨rfl, rfl, rfl, rfl, rfl⟩)

theorem copiesKept_published (h : Published m m') : CopiesKept m m' := by
  obtain ⟨_, _, _, rfl⟩ := h.frame
  exact copiesKept_of_eq rfl

theorem copiesKept_settled {x : TransferId} {y : Transfer} {success : Bool}
    (h : Settled m x y success m') : CopiesKept m m' := by
  refine copiesKept_of_rewrites h.rewrites (fun k r => ?_)
  by_cases hk : k = y.representation
  · rw [if_pos hk]
    exact ⟨rfl, rfl, rfl, rfl, rfl⟩
  · rw [if_neg hk]
    exact SameCopies.refl r

theorem copiesKept_reserved {t : PreparedTransition} (h : Reserved m t m') : CopiesKept m m' := by
  refine copiesKept_of_rewrites h.rewrites (fun k r => ?_)
  by_cases hk : k ∈ t.representations
  · rw [if_pos hk]
    exact ⟨rfl, rfl, rfl, rfl, rfl⟩
  · rw [if_neg hk]
    exact SameCopies.refl r

theorem copiesKept_commitEffect {i : PreparedTransitionId} {revision : ℕ}
    (h : CommitEffect m i revision m') : CopiesKept m m' := by
  rcases h with ⟨rfl, _⟩ | ⟨_, m1, m2, _, _, hbefore, hcommitted, hafter⟩
  · exact copiesKept_of_eq rfl
  · exact (copiesKept_published hbefore).trans
      ((copiesKept_committed hcommitted).trans (copiesKept_published hafter))

/-- What a call does to the tiers. -/
inductive TierStep (m : PhysicalManager) : Action → PhysicalManager → Prop
  | fades {a : Action} {m' : PhysicalManager} (h : Fading m m') : TierStep m a m'
  | released {k : PhysicalRepresentationId} {r : PhysicalRepresentation} {m' : PhysicalManager}
      (hr : m.representations.lookup k = some r)
      (h : m'.representations = m.representations.erase k ∨
        ((r.references.logical - 1 ≠ 0 ∨ r.references.isProtected = true) ∧
          m'.representations = m.representations.insert k { r with references :=
            { r.references with logical := r.references.logical - 1 } })) :
      TierStep m (.releaseLogicalReference k) m'
  | registered {mapping : LogicalStore.EvaluatedPrefixId} {component : Component}
      {representedEnd bytes : ℕ} {tier : Tier} {reuseValue : ℕ} {m1 m' : PhysicalManager}
      {r : PhysicalRepresentation} (h1 : Fading m m1) (hcapacity : m1.capacity = m.capacity)
      (hlogical : r.references.logical = 1)
      (hdevice : r.device = true → m1.deviceUsed + r.bytes ≤ m.capacity.deviceBytes)
      (hhost : r.host = true → m1.hostUsed + r.bytes ≤ m.capacity.hostBytes)
      (h : m'.representations = m1.representations.insert ⟨m.nextId⟩ r) :
      TierStep m (.register mapping component representedEnd bytes tier reuseValue) m'
  | demotedToHost {k : PhysicalRepresentationId} {r : PhysicalRepresentation}
      {m' : PhysicalManager} (hr : m.representations.lookup k = some r)
      (hfree : r.references.isProtected = false)
      (hroom : r.host = true ∨ m.hostUsed + r.bytes ≤ m.capacity.hostBytes)
      (h : m'.representations =
        m.representations.insert k { r with host := true, device := false }) :
      TierStep m (.demoteToHost k) m'
  | demotedToStorage {k : PhysicalRepresentationId} {r : PhysicalRepresentation}
      {m' : PhysicalManager} (hr : m.representations.lookup k = some r)
      (hfree : r.references.isProtected = false)
      (h : m'.representations = m.representations.insert k
        { r with storage := true, host := false, device := false }) :
      TierStep m (.demoteToStorage k) m'
  | received {x : TransferId} {y : Transfer} {m1 m' : PhysicalManager}
      (hy : m.transfers.lookup x = some y) (hmoving : y.completed = false)
      (h1 : Landed m y.representation y.bytes m1) (h : CopiesKept m1 m') :
      TierStep m (.completeTransfer x true) m'
  | recomputed {i : PreparedTransitionId} {k : PhysicalRepresentationId}
      {r : PhysicalRepresentation} {m1 m' : PhysicalManager}
      (hr : m.representations.lookup k = some r) (h1 : Landed m k r.bytes m1)
      (h : CopiesKept m1 m') : TierStep m (.completeRecompute i k) m'

/-- Making room for a new representation: it fits beside the copies that are left. -/
theorem ensureTier_evicted {tier : Tier} {bytes : ℕ} (hkeyed : Keyed m)
    (h : (ensureTier tier bytes).run m = .returns result m') :
    Evicted m m' ∧ (result = .ok () →
      (tier = .device → m'.deviceUsed + bytes ≤ m'.capacity.deviceBytes) ∧
        (tier = .host → m'.hostUsed + bytes ≤ m'.capacity.hostBytes)) := by
  cases tier with
  | device =>
    refine ⟨evicted_of_ensureDeviceCapacity hkeyed h, ?_⟩
    rintro rfl
    exact ⟨fun _ => deviceUsed_of_ensureDeviceCapacity h, fun hhost => (nomatch hhost)⟩
  | host =>
    change (ensureHostCapacity bytes).run m = _ at h
    rw [ensureHostCapacity_run] at h
    by_cases hroom : m.hostUsed + bytes ≤ m.capacity.hostBytes
    · rw [if_pos hroom] at h
      cases h
      exact ⟨Evicted.refl m, fun _ => ⟨fun hdevice => (nomatch hdevice), fun _ => hroom⟩⟩
    · rw [if_neg hroom] at h
      cases h
      exact ⟨Evicted.refl m, fun hok => (nomatch hok)⟩
  | storage =>
    cases h
    exact ⟨Evicted.refl m, fun _ =>
      ⟨fun hdevice => (nomatch hdevice), fun hhost => (nomatch hhost)⟩⟩

theorem capacity_of_evicted (h : Evicted m m') :
    m'.capacity = m.capacity ∧ m'.nextId = m.nextId := by
  obtain ⟨_, _, _, rfl, _⟩ := h
  exact ⟨rfl, rfl⟩

theorem register_tiers (hm : Owned m) {mapping : LogicalStore.EvaluatedPrefixId}
    {component : Component} {representedEnd bytes : ℕ} {tier : Tier} {reuseValue : ℕ}
    {result : Except Error PhysicalRepresentationId}
    (h : (register mapping component representedEnd bytes tier reuseValue).run m =
      .returns result m') :
    TierStep m (.register mapping component representedEnd bytes tier reuseValue) m' := by
  unfold register at h
  rcases Call.of_bind h with ⟨e, he, _⟩ | ⟨_, m1, hroom, h⟩
  · exact .fades (fading_evicted (ensureTier_evicted hm.keyed he).1)
  obtain ⟨hevicted, hfits⟩ := ensureTier_evicted hm.keyed hroom
  obtain ⟨hdevice, hhost⟩ := hfits rfl
  obtain ⟨hcapacity, hnext⟩ := capacity_of_evicted hevicted
  rw [hcapacity] at hdevice hhost
  obtain ⟨_, h⟩ := of_identity_bind h
  rcases Call.of_bind h with ⟨e, he, _⟩ | ⟨clock, m2, htick, h⟩
  · unfold tick at he
    simp only at he
    split at he <;> cases he
  unfold tick at htick
  simp only at htick
  split at htick
  · cases htick
  · cases htick
    cases h
    refine .registered (fading_evicted hevicted) hcapacity ?_ ?_ ?_ (by rw [← hnext]; rfl)
    · rfl
    · exact fun hd => hdevice (of_decide_eq_true hd)
    · exact fun hd => hhost (of_decide_eq_true hd)

theorem releaseLogicalReference_tiers (h : (releaseLogicalReference k).run m = .returns result m') :
    TierStep m (.releaseLogicalReference k) m' := by
  unfold releaseLogicalReference at h
  rw [Call.run_read_bind] at h
  rcases Call.of_require_bind h with ⟨_, rfl, _⟩ | ⟨r, hr, h⟩
  · exact .fades (Fading.refl _)
  rw [Call.run_update_bind] at h
  split at h
  · cases h
    exact .released hr (Or.inl rfl)
  · rename_i hkept
    cases h
    refine .released hr (Or.inr ⟨?_, rfl⟩)
    rw [Bool.and_eq_true, decide_eq_true_eq, not_and_or, Bool.not_eq_true, Bool.not_eq_false']
      at hkept
    exact hkept

theorem reserveGrowth_tiers (hm : Owned m) {bytes : ℕ} {result : Except Error GrowthReservationId}
    (h : (reserveGrowth bytes).run m = .returns result m') :
    TierStep m (.reserveGrowth bytes) m' := by
  unfold reserveGrowth at h
  rcases Call.of_bind h with ⟨e, he, _⟩ | ⟨_, m1, hroom, h⟩
  · exact .fades (fading_evicted (evicted_of_ensureDeviceCapacity hm.keyed he))
  obtain ⟨_, h⟩ := of_identity_bind h
  cases h
  exact .fades ((fading_evicted (evicted_of_ensureDeviceCapacity hm.keyed hroom)).kept
    (copiesKept_of_eq rfl))

/-- A demotion to the host, with its checks. -/
theorem demoteToHost_run {m : PhysicalManager} {r : PhysicalRepresentation}
    (hr : m.representations.lookup k = some r) (hfree : r.references.isProtected = false)
    (hroom : r.host = true ∨ m.hostUsed + r.bytes ≤ m.capacity.hostBytes) :
    ∃ m', (demoteToHost k).run m = .returns (.ok ()) m' ∧ m'.representations =
      m.representations.insert k { r with host := true, device := false } := by
  unfold demoteToHost
  rw [Call.run_read_bind, hr, Call.run_require_some_bind, hfree]
  cases hhost : r.host with
  | true => exact ⟨_, rfl, rfl⟩
  | false =>
    have hfits : m.hostUsed + r.bytes ≤ m.capacity.hostBytes := by
      rcases hroom with h | h
      · rw [hhost] at h
        cases h
      · exact h
    have hensured : (ensureHostCapacity r.bytes).run m = .returns (.ok ()) m := by
      rw [ensureHostCapacity_run, if_pos hfits]
    change ∃ m', ((Call.skipIf false (ensureHostCapacity r.bytes) >>= fun _ => _) :
      Operation Unit).run m = _ ∧ _
    rw [Call.run_skipIf_false_bind, Call.run_bind_ok hensured]
    exact ⟨_, rfl, rfl⟩

theorem demoteToHost_tiers (h : (demoteToHost k).run m = .returns result m') :
    TierStep m (.demoteToHost k) m' := by
  have hrun := h
  unfold demoteToHost at h
  rw [Call.run_read_bind] at h
  rcases Call.of_require_bind h with ⟨_, rfl, _⟩ | ⟨r, hr, h⟩
  · exact .fades (Fading.refl _)
  rcases Call.of_check_bind h with ⟨_, rfl, _⟩ | ⟨hfree, h⟩
  · exact .fades (Fading.refl _)
  rw [Bool.not_eq_true'] at hfree
  by_cases hroom : r.host = true ∨ m.hostUsed + r.bytes ≤ m.capacity.hostBytes
  · obtain ⟨m1, hrun1, hrepresentations⟩ := demoteToHost_run hr hfree hroom
    cases hrun.symm.trans hrun1
    exact .demotedToHost hr hfree hroom hrepresentations
  · obtain ⟨hhost, hfull⟩ := not_or.mp hroom
    have hensured : (ensureHostCapacity r.bytes).run m = .returns (.error .hostCapacity) m := by
      rw [ensureHostCapacity_run, if_neg hfull]
    rw [Bool.not_eq_true] at hhost
    rw [hhost, Call.run_skipIf_false_bind, Call.run_bind_error hensured] at h
    cases h
    exact .fades (Fading.refl _)

theorem demoteToStorage_run {m : PhysicalManager} {r : PhysicalRepresentation}
    (hr : m.representations.lookup k = some r) (hfree : r.references.isProtected = false) :
    ∃ m', (demoteToStorage k).run m = .returns (.ok ()) m' ∧ m'.representations =
      m.representations.insert k { r with storage := true, host := false, device := false } := by
  unfold demoteToStorage
  rw [Call.run_read_bind, hr, Call.run_require_some_bind, hfree]
  exact ⟨_, rfl, rfl⟩

theorem demoteToStorage_tiers (h : (demoteToStorage k).run m = .returns result m') :
    TierStep m (.demoteToStorage k) m' := by
  have hrun := h
  unfold demoteToStorage at h
  rw [Call.run_read_bind] at h
  rcases Call.of_require_bind h with ⟨_, rfl, _⟩ | ⟨r, hr, h⟩
  · exact .fades (Fading.refl _)
  rcases Call.of_check_bind h with ⟨_, rfl, _⟩ | ⟨hfree, _⟩
  · exact .fades (Fading.refl _)
  rw [Bool.not_eq_true'] at hfree
  obtain ⟨m1, hrun1, hrepresentations⟩ := demoteToStorage_run hr hfree
  cases hrun.symm.trans hrun1
  exact .demotedToStorage hr hfree hrepresentations

/-- One unprotected representation was rewritten. -/
theorem fading_insert {r r' : PhysicalRepresentation} (hr : m.representations.lookup k = some r)
    (hfades : Fades r r') (h : m'.representations = m.representations.insert k r') :
    Fading m m' := by
  intro j q hj
  rw [h, AList.lookup_insert_ite] at hj
  by_cases hjk : j = k
  · rw [if_pos hjk] at hj
    cases hj
    exact ⟨r, hjk ▸ hr, hfades⟩
  · rw [if_neg hjk] at hj
    exact ⟨q, hj, (SameCopies.refl q).fades⟩

theorem fades_clearTier (r : PhysicalRepresentation) (tier : Tier)
    (hfree : r.references.isProtected = false) : Fades r (clearTier r tier) := by
  have hnot : r.references.isProtected = true → False := by
    rw [hfree]
    exact fun h => nomatch h
  cases tier with
  | device => exact ⟨rfl, rfl, fun h => (nomatch h), fun h => h, fun h => h, fun h => (hnot h).elim⟩
  | host => exact ⟨rfl, rfl, fun h => h, fun h => (nomatch h), fun h => h, fun h => (hnot h).elim⟩
  | storage => exact ⟨rfl, rfl, fun h => h, fun h => h, fun h => (nomatch h), fun h =>
    (hnot h).elim⟩

theorem evict_fading {tier : Tier} (h : (evict k tier).run m = .returns result m') :
    Fading m m' := by
  unfold evict at h
  rw [Call.run_read_bind] at h
  rcases Call.of_require_bind h with ⟨_, rfl, _⟩ | ⟨r, hr, h⟩
  · exact Fading.refl _
  rcases Call.of_check_bind h with ⟨_, rfl, _⟩ | ⟨hfree, h⟩
  · exact Fading.refl _
  rw [Bool.not_eq_true'] at hfree
  by_cases htier : onTier r tier = true
  · rw [if_pos htier] at h
    cases h
    exact fading_insert hr (fades_clearTier r tier hfree) rfl
  · rw [if_neg htier] at h
    cases h
    exact Fading.refl _

theorem fading_of_failed {need : Option ℕ} {e : Error} (hkeyed : Keyed m) (h : Failed m need e m') :
    Fading m m' := by
  cases need with
  | none => exact (copiesKept_of_eq (Unchanged.representations h)).fading
  | some bytes => exact fading_evicted (evicted_of_ensureDeviceSpace hkeyed h)

theorem prepareTransition_fading (hm : Owned m) {context : Context} {revision : ℕ}
    {mapping : LogicalStore.EvaluatedPrefixId} {representedEnd : ℕ}
    {required : LogicalStore.ComponentMask} {ids : List PhysicalRepresentationId}
    {allowRecompute : Bool}
    {result : Except Error (PreparedTransitionId × TransitionClass × List TransferId)}
    (h : (prepareTransition context revision mapping representedEnd required ids
      allowRecompute).run m = .returns result m') : Fading m m' := by
  rcases prepareTransition_cases hm h with ⟨_, e, rfl⟩ | ⟨t, hprepared, _⟩
  · exact fading_of_failed hm.keyed (failed_prepareTransition h)
  · obtain ⟨m1, hspaced, hreserved⟩ := hprepared.admitted
    have hfirst : Fading m m1 := by
      intro k r' hk
      obtain ⟨r, hr, rfl⟩ := hspaced.rewrites.of_lookup hk
      exact ⟨r, hr, fades_leaving _ (isProtected_of_evicts m t.reservedBytes) r⟩
    exact hfirst.kept (copiesKept_reserved hreserved)

theorem completeTransfer_tiers (hm : Owned m) {x : TransferId} {success : Bool}
    (h : (completeTransfer x success).run m = .returns result m') :
    TierStep m (.completeTransfer x success) m' := by
  have hrun := h
  unfold completeTransfer at h
  rw [Call.run_read_bind] at h
  rcases Call.of_require_bind h with ⟨_, rfl, _⟩ | ⟨y, hy, h⟩
  · exact .fades (Fading.refl _)
  by_cases hcompleted : y.completed = true
  · rw [if_pos hcompleted] at h
    cases h
    exact .fades (Fading.refl _)
  rw [Bool.not_eq_true] at hcompleted
  rcases completeTransfer_run hm hy hcompleted success with
    ⟨_, m1, ⟨m2, hreceived, hsettled⟩, hrun1⟩ | ⟨_, m1, hevicted, hrun1⟩
  · cases hrun.symm.trans hrun1
    have hkept := copiesKept_settled hsettled
    rcases hreceived with ⟨_, rfl, _⟩ | ⟨rfl, hlanded⟩
    · exact .fades (Fading.kept (copiesKept_of_eq rfl).fading hkept)
    · exact .received hy hcompleted hlanded hkept
  · cases hrun.symm.trans hrun1
    exact .fades (fading_evicted hevicted)

theorem completeRecompute_tiers (hm : Owned m) {i : PreparedTransitionId}
    (h : (completeRecompute i k).run m = .returns result m') :
    TierStep m (.completeRecompute i k) m' := by
  have hrun := h
  unfold completeRecompute at h
  rw [Call.run_read_bind] at h
  rcases Call.of_require_bind h with ⟨_, rfl, _⟩ | ⟨t, ht, h⟩
  · exact .fades (Fading.refl _)
  rcases Call.of_check_bind h with ⟨_, rfl, _⟩ | ⟨hlisted, h⟩
  · exact .fades (Fading.refl _)
  rw [Bool.and_eq_true, decide_eq_true_eq, decide_eq_true_eq] at hlisted
  obtain ⟨r, hr, _⟩ := of_representation_bind h
  rcases completeRecompute_run hm ht hlisted.1 hlisted.2 hr with
    ⟨_, hrun1⟩ | ⟨_, _, m1, hlanded, hrun1⟩ | ⟨_, _, m1, hevicted, hrun1⟩
  · cases hrun.symm.trans hrun1
    exact .fades (copiesKept_of_eq rfl).fading
  · cases hrun.symm.trans hrun1
    exact .recomputed hr hlanded (copiesKept_of_eq rfl)
  · cases hrun.symm.trans hrun1
    exact .fades (fading_evicted hevicted)

theorem releaseGrowth_fading {id : GrowthReservationId}
    (h : (releaseGrowth id).run m = .returns result m') : Fading m m' := by
  unfold releaseGrowth at h
  rw [Call.run_read_bind] at h
  rcases Call.of_require_bind h with ⟨_, rfl, _⟩ | ⟨_, _, h⟩
  · exact Fading.refl _
  · cases h
    exact (copiesKept_of_eq rfl).fading

theorem unbind_fading (hm : Owned m) {c : Context} (h : (unbind c).run m = .returns result m') :
    Fading m m' := by
  cases hb : m.bindings.lookup c with
  | none =>
    unfold unbind at h
    rw [Call.run_read_bind, hb, Call.run_require_none_bind] at h
    cases h
    exact Fading.refl _
  | some b =>
    obtain ⟨m1, hrun, hunbound⟩ := unbind_run hm hb
    cases hrun.symm.trans h
    exact (copiesKept_unbound hunbound).fading

theorem tierStep_of_step {a : Action} (hm : Owned m) (h : Step m a m') : TierStep m a m' := by
  have heffect := step_effect hm h
  unfold Step at h
  cases a with
  | register mapping component representedEnd bytes tier reuseValue =>
    obtain ⟨_, hrun⟩ := of_returned h
    exact register_tiers hm hrun
  | releaseLogicalReference id =>
    obtain ⟨_, hrun⟩ := of_returned h
    exact releaseLogicalReference_tiers hrun
  | reserveGrowth bytes =>
    obtain ⟨_, hrun⟩ := of_returned h
    exact reserveGrowth_tiers hm hrun
  | releaseGrowth id =>
    obtain ⟨_, hrun⟩ := of_returned h
    exact .fades (releaseGrowth_fading hrun)
  | demoteToHost id =>
    obtain ⟨_, hrun⟩ := of_returned h
    exact demoteToHost_tiers hrun
  | demoteToStorage id =>
    obtain ⟨_, hrun⟩ := of_returned h
    exact demoteToStorage_tiers hrun
  | evict id tier =>
    obtain ⟨_, hrun⟩ := of_returned h
    exact .fades (evict_fading hrun)
  | prepareTransition context revision mapping representedEnd required ids allowRecompute =>
    obtain ⟨_, hrun⟩ := of_returned h
    exact .fades (prepareTransition_fading hm hrun)
  | completeTransfer id success =>
    obtain ⟨_, hrun⟩ := of_returned h
    exact completeTransfer_tiers hm hrun
  | completeRecompute transition id =>
    obtain ⟨_, hrun⟩ := of_returned h
    exact completeRecompute_tiers hm hrun
  | commitTransition id currentRevision => exact .fades (copiesKept_commitEffect heffect).fading
  | commitMappedTransition id currentRevision executorMapping =>
    exact .fades (copiesKept_commitEffect heffect).fading
  | publishDeviceBlockTable context binding executorMapping =>
    exact .fades (copiesKept_published heffect).fading
  | unbind context =>
    obtain ⟨_, hrun⟩ := of_returned h
    exact .fades (unbind_fading hm hrun)
  | releaseBinding context =>
    obtain ⟨_, hrun⟩ := of_returned h
    exact .fades (unbind_fading hm hrun)
  | abortTransition id =>
    rcases heffect with ⟨rfl, _⟩ | ⟨t, _, haborted⟩
    · exact .fades (Fading.refl _)
    · exact .fades (copiesKept_aborted haborted).fading

end Cusco.TierSteps
