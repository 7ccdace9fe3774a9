import Cusco.PhysicalRuns

/-!
The capacity guard. Admission keeps the active device bytes, the growth and
transition reservations and the detached transfers within the device. A commit
makes warm bytes active that no reservation covers, and an abort detaches
transfers whose bytes the reservation may not cover; both go through unchecked.
The guard holds along a run exactly when these two find the room they need.
-/

namespace Cusco.GuardedCapacity

open Calls Physical Physical.PhysicalManager DeviceEviction PhysicalEffects PhysicalOwners
open PhysicalSteps PhysicalTransitions PhysicalTransfers PhysicalPreparations PhysicalRuns Runs

variable {m m' : PhysicalManager} {i : PreparedTransitionId}

/-- The guarded bytes fit on the device and the metrics report them exactly. -/
structure Guard (m : PhysicalManager) : Prop where
  fits : guardedBytes m ≤ m.capacity.deviceBytes
  deviceActive : m.metrics.deviceActive = m.protectedDeviceBytes
  deviceGrowthReserved : m.metrics.deviceGrowthReserved = m.growthReservedBytes
  deviceTransitionReserved : m.metrics.deviceTransitionReserved = m.transitionReservedBytes
  deviceDetachedTransferReserved :
    m.metrics.deviceDetachedTransferReserved = m.detachedTransferReservedBytes

instance (m : PhysicalManager) : Decidable (Guard m) :=
  decidable_of_iff (guardedBytes m ≤ m.capacity.deviceBytes ∧
    m.metrics.deviceActive = m.protectedDeviceBytes ∧
    m.metrics.deviceGrowthReserved = m.growthReservedBytes ∧
    m.metrics.deviceTransitionReserved = m.transitionReservedBytes ∧
    m.metrics.deviceDetachedTransferReserved = m.detachedTransferReservedBytes)
    ⟨fun h => ⟨h.1, h.2.1, h.2.2.1, h.2.2.2.1, h.2.2.2.2⟩,
      fun h => ⟨h.fits, h.deviceActive, h.deviceGrowthReserved, h.deviceTransitionReserved,
        h.deviceDetachedTransferReserved⟩⟩

/-- Bytes that a commit makes active: listed representations without an active owner. -/
def activatedBytes (m : PhysicalManager) (t : PreparedTransition) : ℕ :=
  m.representations.total (fun k r =>
    if k ∈ t.representations ∧ r.references.active = 0 then r.bytes else 0)

/-- Bytes that a commit makes inactive: those only the replaced binding holds. -/
def droppedBytes (m : PhysicalManager) (t : PreparedTransition) : ℕ :=
  m.representations.total (fun k r =>
    if k ∉ t.representations ∧ r.references.active ≠ 0 ∧
      r.references.active = oldUse m t.context k then r.bytes else 0)

/-- Bytes of the transfers that an abort detaches. -/
def detachedBytes (m : PhysicalManager) (t : PreparedTransition) : ℕ :=
  m.transfers.total (fun x y => if x ∈ t.transfers ∧ y.completed = false then y.bytes else 0)

/-- A commit that is ready finds room for what it activates. -/
def RoomToCommit (m : PhysicalManager) (i : PreparedTransitionId) (revision : ℕ) : Prop :=
  ∀ t, m.transitions.lookup i = some t → CommitReady m t revision →
    guardedBytes m + activatedBytes m t ≤
      m.capacity.deviceBytes + t.reservedBytes + droppedBytes m t

/-- An abort finds room for the transfers it detaches. -/
def RoomToAbort (m : PhysicalManager) (i : PreparedTransitionId) : Prop :=
  ∀ t, m.transitions.lookup i = some t →
    guardedBytes m + detachedBytes m t ≤ m.capacity.deviceBytes + t.reservedBytes

/-- Commits and aborts find the room they need; every other action is free. -/
def KeepsGuard (m : PhysicalManager) : Action → Prop
  | .commitTransition i revision => RoomToCommit m i revision
  | .commitMappedTransition i revision _ => RoomToCommit m i revision
  | .abortTransition i => RoomToAbort m i
  | _ => True

theorem guard_iff {m : PhysicalManager} (h : GaugesExact m) :
    Guard m ↔ guardedBytes m ≤ m.capacity.deviceBytes :=
  ⟨fun hguard => hguard.fits, fun hfits => ⟨hfits, h.deviceActive, h.deviceGrowthReserved,
    h.deviceTransitionReserved, h.deviceDetachedTransferReserved⟩⟩

/-- The bytes a representation adds to the active device bytes. -/
def activeBytes (r : PhysicalRepresentation) : ℕ :=
  if r.device = true ∧ r.references.active ≠ 0 then r.bytes else 0

theorem protectedDeviceBytes_eq (m : PhysicalManager) :
    m.protectedDeviceBytes = m.representations.total (fun _ r => activeBytes r) := by
  unfold protectedDeviceBytes bytesWhere
  apply AList.total_congr
  intro k r _
  exact if_congr (by simp) rfl rfl

/-- Rewriting in place keeps the active bytes when activity and residency of
active representations are kept. -/
theorem protectedDeviceBytes_rewrite
    {g : PhysicalRepresentationId → PhysicalRepresentation → PhysicalRepresentation}
    (hrewrites : AList.Rewrites m.representations m'.representations g)
    (hg : ∀ k r, m.representations.lookup k = some r → activeBytes (g k r) = activeBytes r) :
    m'.protectedDeviceBytes = m.protectedDeviceBytes := by
  rw [protectedDeviceBytes_eq, protectedDeviceBytes_eq, hrewrites.total]
  exact AList.total_congr _ _ _ hg

/-- Landing a representation activates nothing, since what is active has landed before. -/
theorem protectedDeviceBytes_landed {k : PhysicalRepresentationId} {bytes : ℕ}
    (hl : Landed m k bytes m') (h : Owned m) :
    m'.protectedDeviceBytes = m.protectedDeviceBytes := by
  refine protectedDeviceBytes_rewrite hl.rewrites ?_
  intro j r hj
  by_cases hjk : j = k
  · obtain ⟨q, hq, habsent⟩ := hl.absent
    subst hjk
    cases hj.symm.trans hq
    have hinactive : r.references.active = 0 := by
      by_contra hactive
      have hdevice := h.device_of_active hj hactive
      rw [habsent] at hdevice
      cases hdevice
    rw [if_pos rfl]
    simp [activeBytes, hinactive]
  · rw [if_neg hjk]
    unfold afterSpace leaving
    split
    · rename_i hevicts
      have hfree := (isProtected_eq_false_iff _).mp (isProtected_of_evicts m bytes r hevicts)
      simp [activeBytes, hfree.1]
    · rfl

theorem guardedBytes_quiet (hq : Quiet m m') : guardedBytes m' = guardedBytes m := by
  obtain ⟨g, hrewrites, hg⟩ := hq.rewrites
  have hprotected : m'.protectedDeviceBytes = m.protectedDeviceBytes := by
    refine protectedDeviceBytes_rewrite hrewrites ?_
    intro k r hk
    obtain ⟨hunnoticed, hback⟩ := hg k r hk
    unfold activeBytes
    rw [hunnoticed.bytes, hunnoticed.active]
    refine if_congr (and_congr_left ?_) rfl rfl
    intro hactive
    exact ⟨hback, hunnoticed.device ((isProtected_iff _).mpr
      (Or.inl (Nat.pos_of_ne_zero hactive)))⟩
  obtain ⟨representations, metrics, rfl⟩ := hq.frame
  unfold guardedBytes
  rw [hprotected]
  rfl

theorem guardedBytes_registered (hr : Registered m m') (h : Owned m) :
    guardedBytes m' = guardedBytes m := by
  obtain ⟨m1, r, hquiet, hid, hreferences, rfl⟩ := hr
  rw [← guardedBytes_quiet hquiet]
  unfold guardedBytes
  congr 1
  rw [protectedDeviceBytes_eq, protectedDeviceBytes_eq]
  refine (AList.total_insert_new _ m1.representations _ r
    (hquiet.owned h).fresh_representation).trans ?_
  have hinactive : activeBytes r = 0 := by
    simp [activeBytes, hreferences]
  rw [hinactive, Nat.zero_add]

theorem guardedBytes_erased {k : PhysicalRepresentationId} (he : Erased m k m') :
    guardedBytes m' = guardedBytes m := by
  have hfree := he.free
  obtain ⟨metrics, rfl⟩ := he.frame
  unfold guardedBytes
  congr 1
  rw [protectedDeviceBytes_eq, protectedDeviceBytes_eq]
  cases hk : m.representations.lookup k with
  | none =>
    rw [AList.erase_of_lookup_none _ k hk]
  | some r =>
    have hinactive : activeBytes r = 0 := by
      simp [activeBytes, ((isProtected_eq_false_iff _).mp (hfree r hk)).1]
    rw [AList.total_erase _ m.representations k r hk, hinactive, Nat.zero_add]

theorem guardedBytes_published (hp : Published m m') : guardedBytes m' = guardedBytes m := by
  obtain ⟨n, tables, metrics, rfl⟩ := hp.frame
  rfl

theorem guardedBytes_recomputed {k : PhysicalRepresentationId} (hr : Recomputed m i k m')
    (h : Owned m) : guardedBytes m' = guardedBytes m := by
  obtain ⟨t, r, m1, _, _, _, _, hlanded, rfl⟩ := hr
  have hprotected := protectedDeviceBytes_landed hlanded h
  obtain ⟨representations, metrics, rfl⟩ := hlanded.frame
  unfold guardedBytes
  rw [← hprotected]
  rfl

theorem guardedBytes_grown {bytes : ℕ} (hg : Grown m bytes m') (h : Owned m) :
    guardedBytes m' = guardedBytes m + bytes := by
  obtain ⟨_, m1, hquiet, rfl⟩ := hg
  rw [← guardedBytes_quiet hquiet]
  have hgrowth : m.growth = m1.growth := by
    obtain ⟨representations, metrics, rfl⟩ := hquiet.frame
    rfl
  have hnew := AList.total_insert_new (fun _ (g : GrowthReservation) => g.bytes) m.growth
    ⟨m.nextId⟩ ⟨bytes⟩ h.fresh_growth
  have hafter : growthReservedBytes (refreshCapacityMetrics { m1 with
      nextId := m1.nextId + 1, growth := m.growth.insert ⟨m.nextId⟩ ⟨bytes⟩ }) =
      bytes + m1.growthReservedBytes := by
    unfold growthReservedBytes
    rw [← hgrowth]
    exact hnew
  unfold guardedBytes
  rw [hafter]
  change m1.protectedDeviceBytes + (bytes + m1.growthReservedBytes + m1.transitionReservedBytes +
    m1.detachedTransferReservedBytes) = _
  omega

theorem guardedBytes_ungrown {id : GrowthReservationId} (hu : Ungrown m id m') :
    guardedBytes m' ≤ guardedBytes m := by
  subst hu
  have hgrowth : (m.growth.erase id).total (fun _ g => g.bytes) ≤ m.growthReservedBytes :=
    AList.total_erase_le _ m.growth id
  change m.protectedDeviceBytes + ((m.growth.erase id).total (fun _ g => g.bytes) +
    m.transitionReservedBytes + m.detachedTransferReservedBytes) ≤ _
  unfold guardedBytes
  omega

theorem guardedBytes_reserved {t : PreparedTransition} (hr : Reserved m t m') (h : Owned m) :
    guardedBytes m' = guardedBytes m + t.reservedBytes := by
  have hprotected : m'.protectedDeviceBytes = m.protectedDeviceBytes := by
    refine protectedDeviceBytes_rewrite hr.rewrites ?_
    intro k r _
    split <;> rfl
  obtain ⟨representations, metrics, rfl⟩ := hr.frame
  have htransitions := AList.total_insert_new
    (fun _ (u : PreparedTransition) => u.reservedBytes) m.transitions ⟨m.nextId⟩ t
    h.fresh_transition
  have hstarted := startTransfers_total (m.nextId + 1)
    (movesOf m.representations t.representations) m.transfers
    (fun x y hy => Nat.lt_succ_of_lt (h.transfers_old x y hy))
    (fun y => if y.detached && !y.completed then y.bytes else 0)
  have hattached : ((movesOf m.representations t.representations).map (fun move =>
      if (started move).detached && !(started move).completed then (started move).bytes
      else 0)).sum = 0 := by
    apply List.sum_eq_zero
    intro n hn
    obtain ⟨move, _, rfl⟩ := List.mem_map.mp hn
    rfl
  rw [hattached, Nat.zero_add] at hstarted
  unfold guardedBytes
  rw [hprotected]
  change _ + (m.growthReservedBytes + (m.transitions.insert ⟨m.nextId⟩ t).total _ +
    (startTransfers _ _ m.transfers).total _) = _
  rw [htransitions, hstarted]
  change _ + (m.growthReservedBytes + (t.reservedBytes + m.transitionReservedBytes) +
    m.detachedTransferReservedBytes) = _
  omega

theorem guardedBytes_prepared {t : PreparedTransition} (hp : Prepared m t m') (h : Owned m) :
    guardedBytes m' = guardedBytes m + t.reservedBytes := by
  obtain ⟨m1, hspaced, hreserved⟩ := hp.admitted
  rw [guardedBytes_reserved hreserved (hspaced.quiet.owned h), guardedBytes_quiet hspaced.quiet]

theorem guardedBytes_received {y : Transfer} {success : Bool} (hr : Received m y success m')
    (h : Owned m) : guardedBytes m' = guardedBytes m := by
  rcases hr with ⟨metrics, rfl, _⟩ | ⟨_, hlanded⟩
  · rfl
  · have hprotected := protectedDeviceBytes_landed hlanded h
    obtain ⟨representations, metrics, rfl⟩ := hlanded.frame
    unfold guardedBytes
    rw [← hprotected]
    rfl

/-- A settled transfer holds no bytes any more. -/
theorem guardedBytes_settled {x : TransferId} {y : Transfer} {success : Bool}
    (hs : Settled m x y success m') : guardedBytes m' ≤ guardedBytes m := by
  have hprotected : m'.protectedDeviceBytes = m.protectedDeviceBytes := by
    refine protectedDeviceBytes_rewrite hs.rewrites ?_
    intro k r _
    split <;> rfl
  have hlookup := hs.transfers
  obtain ⟨representations, transfers, metrics, rfl⟩ := hs.frame
  have hdetached : transfers.total
      (fun _ y => if y.detached && !y.completed then y.bytes else 0) ≤
      m.detachedTransferReservedBytes := by
    unfold detachedTransferReservedBytes
    rw [AList.total_of_lookup_update _ m.transfers transfers x _ hlookup]
    have hzero : (if y.detached then none
        else some { y with completed := true, success := success }).elim 0
        (fun z : Transfer => if z.detached && !z.completed then z.bytes else 0) = 0 := by
      split <;> simp
    rw [hzero, Nat.zero_add]
    exact AList.total_erase_le _ m.transfers x
  unfold guardedBytes
  rw [hprotected]
  change _ + (m.growthReservedBytes + m.transitionReservedBytes + transfers.total _) ≤ _
  omega

theorem guardedBytes_completed {x : TransferId} {y : Transfer} {success : Bool}
    (hc : Completed m x y success m') (h : Owned m) : guardedBytes m' ≤ guardedBytes m := by
  obtain ⟨m1, hreceived, hsettled⟩ := hc
  rw [← guardedBytes_received hreceived h]
  exact guardedBytes_settled hsettled

theorem guardedBytes_unbound {c : Context} (hu : Unbound m c m') :
    guardedBytes m' ≤ guardedBytes m := by
  have hprotected : m'.protectedDeviceBytes ≤ m.protectedDeviceBytes := by
    rw [protectedDeviceBytes_eq, protectedDeviceBytes_eq, hu.rewrites.total]
    apply AList.total_mono
    intro k r _
    unfold activeBytes withoutBinding
    by_cases hactive : r.device = true ∧ r.references.active ≠ 0
    · rw [if_pos hactive]
      split
      · exact le_refl _
      · exact Nat.zero_le _
    · rw [if_neg hactive, if_neg]
      intro hboth
      exact hactive ⟨hboth.1, fun hzero => hboth.2 (by simp [hzero])⟩
  obtain ⟨representations, tables, metrics, rfl⟩ := hu.frame
  unfold guardedBytes
  exact Nat.add_le_add_right hprotected _

/-- What a commit does to the active bytes of one representation. -/
theorem activeBytes_rebound {m : PhysicalManager} (h : Owned m) {t : PreparedTransition}
    {revision : ℕ} (ht : m.transitions.lookup i = some t) (hready : CommitReady m t revision)
    {k : PhysicalRepresentationId} {r : PhysicalRepresentation}
    (hr : m.representations.lookup k = some r) :
    activeBytes (rebound m t k r) + (if k ∉ t.representations ∧ r.references.active ≠ 0 ∧
        r.references.active = oldUse m t.context k then r.bytes else 0) =
      activeBytes r +
        if k ∈ t.representations ∧ r.references.active = 0 then r.bytes else 0 := by
  have hactive := (h.counted k r hr).1
  have hold := activeOwners_erase m t.context k
  have hnodup := (h.prepared i t ht).1
  have hafter : activeBytes (rebound m t k r) = if r.device = true ∧ r.references.active -
      oldUse m t.context k + (if k ∈ t.representations then 1 else 0) ≠ 0 then r.bytes else 0 := by
    unfold activeBytes rebound
    rw [hnodup.count]
  rw [hafter]
  unfold activeBytes
  by_cases hk : k ∈ t.representations
  · have hdevice := hready.device k hk r hr
    by_cases hzero : r.references.active = 0
    · simp [hk, hdevice, hzero]
    · simp [hk, hdevice, hzero]
  · by_cases hzero : r.references.active = 0
    · simp [hk, hzero]
    · have hdevice := h.device_of_active hr hzero
      by_cases hlast : r.references.active = oldUse m t.context k
      · rw [hlast] at hzero
        simp [hk, hdevice, hzero, hlast]
      · have hkept : r.references.active - oldUse m t.context k ≠ 0 := by omega
        simp only [hk, hdevice, hzero, hlast, hkept, if_false, Nat.add_zero, ne_eq,
          not_false_eq_true, and_self, if_true, and_false]

theorem guardedBytes_committed {t : PreparedTransition} {revision : ℕ} (hc : Committed m i t m')
    (h : Owned m) (ht : m.transitions.lookup i = some t) (hready : CommitReady m t revision) :
    guardedBytes m' + t.reservedBytes + droppedBytes m t =
      guardedBytes m + activatedBytes m t := by
  have hprotected : m'.protectedDeviceBytes + droppedBytes m t =
      m.protectedDeviceBytes + activatedBytes m t := by
    rw [protectedDeviceBytes_eq, protectedDeviceBytes_eq, hc.rewrites.total]
    unfold droppedBytes activatedBytes
    rw [← AList.total_add, ← AList.total_add]
    exact AList.total_congr _ _ _ (fun k r hr => activeBytes_rebound h ht hready hr)
  have htransitions := AList.total_erase (fun _ (u : PreparedTransition) => u.reservedBytes)
    m.transitions i t ht
  have htransfers : (m.transfers.eraseAll t.transfers).total
      (fun _ y => if y.detached && !y.completed then y.bytes else 0) =
      m.detachedTransferReservedBytes := by
    refine AList.total_eraseAll _ m.transfers t.transfers ?_
    intro x hx y hy
    rw [(hready.transfers x hx y hy).1]
    simp
  obtain ⟨representations, tables, metrics, rfl⟩ := hc.frame
  unfold guardedBytes
  change _ + (m.growthReservedBytes + (m.transitions.erase i).total _ +
    (m.transfers.eraseAll t.transfers).total _) + _ + _ = _ +
    (m.growthReservedBytes + m.transitions.total (fun _ u => u.reservedBytes) + _) + _
  rw [htransfers, htransitions]
  omega

theorem guardedBytes_aborted {t : PreparedTransition} (ha : Aborted m i t m') (h : Owned m)
    (ht : m.transitions.lookup i = some t) :
    guardedBytes m' + t.reservedBytes = guardedBytes m + detachedBytes m t := by
  have hprotected : m'.protectedDeviceBytes = m.protectedDeviceBytes :=
    protectedDeviceBytes_rewrite ha.rewrites (fun _ _ _ => rfl)
  have htransitions := AList.total_erase (fun _ (u : PreparedTransition) => u.reservedBytes)
    m.transitions i t ht
  have htransfers : m'.detachedTransferReservedBytes =
      m.detachedTransferReservedBytes + detachedBytes m t := by
    unfold detachedTransferReservedBytes detachedBytes
    rw [AList.total_of_lookup_bind _ _ m.transfers m'.transfers ha.transfers,
      ← AList.total_add]
    apply AList.total_congr
    intro x y hy
    by_cases hx : x ∈ t.transfers
    · obtain ⟨z, hz, hattached, _⟩ := (h.linked i t ht).2 x hx
      cases hy.symm.trans hz
      rw [if_pos hx]
      unfold detached
      by_cases hcompleted : y.completed = true
      · simp [hcompleted]
      · rw [Bool.not_eq_true] at hcompleted
        simp [hcompleted, hattached, hx]
    · simp [hx]
  obtain ⟨representations, transfers, metrics, rfl⟩ := ha.frame
  unfold guardedBytes
  rw [hprotected, htransfers]
  change _ + (m.growthReservedBytes + (m.transitions.erase i).total _ + _) + _ = _ +
    (m.growthReservedBytes + m.transitions.total (fun _ u => u.reservedBytes) + _) + _
  omega

theorem fits_commit {revision : ℕ} (hc : CommitEffect m i revision m') (h : Owned m)
    (hfits : guardedBytes m ≤ m.capacity.deviceBytes) :
    guardedBytes m' ≤ m.capacity.deviceBytes ↔ RoomToCommit m i revision := by
  rcases hc with ⟨rfl, hnot⟩ | ⟨t, m1, m2, ht, hready, hbefore, hcommitted, hafter⟩
  · exact iff_of_true hfits (fun t ht hready => absurd hready (hnot t ht))
  · have hbalance := guardedBytes_committed hcommitted (hbefore.owned h)
      (transition_of_published hbefore ht) (commitReady_of_published hbefore hready)
    have hactivated : activatedBytes m1 t = activatedBytes m t := by
      obtain ⟨_, _, _, rfl⟩ := hbefore.frame
      rfl
    have hdropped : droppedBytes m1 t = droppedBytes m t := by
      obtain ⟨_, _, _, rfl⟩ := hbefore.frame
      rfl
    rw [guardedBytes_published hafter]
    rw [guardedBytes_published hbefore, hactivated, hdropped] at hbalance
    constructor
    · intro hroom u hu _
      cases ht.symm.trans hu
      omega
    · intro hroom
      have := hroom t ht hready
      omega

theorem fits_abort (h : Owned m) (hfits : guardedBytes m ≤ m.capacity.deviceBytes)
    (ha : (m' = m ∧ m.transitions.lookup i = none) ∨
      ∃ t, m.transitions.lookup i = some t ∧ Aborted m i t m') :
    guardedBytes m' ≤ m.capacity.deviceBytes ↔ RoomToAbort m i := by
  rcases ha with ⟨rfl, hnone⟩ | ⟨t, ht, haborted⟩
  · refine iff_of_true hfits ?_
    intro t ht
    rw [hnone] at ht
    cases ht
  · have hbalance := guardedBytes_aborted haborted h ht
    constructor
    · intro hroom u hu
      cases ht.symm.trans hu
      omega
    · intro hroom
      have := hroom t ht
      omega

theorem fits_step {a : Action} (h : Owned m) (hfits : guardedBytes m ≤ m.capacity.deviceBytes)
    (he : Effect m m' a) : guardedBytes m' ≤ m.capacity.deviceBytes ↔ KeepsGuard m a := by
  have hquiet : Quiet m m' → guardedBytes m' ≤ m.capacity.deviceBytes := by
    intro hq
    rw [guardedBytes_quiet hq]
    exact hfits
  cases a with
  | register =>
    refine iff_of_true ?_ trivial
    rcases he with hq | hregistered
    · exact hquiet hq
    · rw [guardedBytes_registered hregistered h]
      exact hfits
  | releaseLogicalReference =>
    refine iff_of_true ?_ trivial
    rcases he with hq | herased
    · exact hquiet hq
    · rw [guardedBytes_erased herased]
      exact hfits
  | reserveGrowth =>
    refine iff_of_true ?_ trivial
    rcases he with hq | hgrown
    · exact hquiet hq
    · rw [guardedBytes_grown hgrown h]
      exact hgrown.1
  | releaseGrowth =>
    refine iff_of_true ?_ trivial
    rcases he with hq | hungrown
    · exact hquiet hq
    · exact (guardedBytes_ungrown hungrown).trans hfits
  | demoteToHost => exact iff_of_true (hquiet he) trivial
  | demoteToStorage => exact iff_of_true (hquiet he) trivial
  | evict => exact iff_of_true (hquiet he) trivial
  | prepareTransition =>
    refine iff_of_true ?_ trivial
    rcases he with hq | ⟨t, hprepared⟩
    · exact hquiet hq
    · rw [guardedBytes_prepared hprepared h]
      exact hprepared.guarded
  | completeTransfer =>
    refine iff_of_true ?_ trivial
    rcases he with hq | ⟨y, _, _, hcompleted⟩
    · exact hquiet hq
    · exact (guardedBytes_completed hcompleted h).trans hfits
  | completeRecompute =>
    refine iff_of_true ?_ trivial
    rcases he with hq | hrecomputed
    · exact hquiet hq
    · rw [guardedBytes_recomputed hrecomputed h]
      exact hfits
  | commitTransition => exact fits_commit he h hfits
  | commitMappedTransition => exact fits_commit he h hfits
  | publishDeviceBlockTable =>
    refine iff_of_true ?_ trivial
    rw [guardedBytes_published he]
    exact hfits
  | unbind =>
    refine iff_of_true ?_ trivial
    rcases he with hq | hunbound
    · exact hquiet hq
    · exact (guardedBytes_unbound hunbound).trans hfits
  | releaseBinding =>
    refine iff_of_true ?_ trivial
    rcases he with hq | hunbound
    · exact hquiet hq
    · exact (guardedBytes_unbound hunbound).trans hfits
  | abortTransition => exact fits_abort h hfits he

/-- Along every run the guard holds exactly when each commit and each abort finds
the room it needs. -/
theorem guardedCapacity_iff (capacity : Capacity) (run : List (Action × PhysicalManager))
    (hrun : IsRun Step (new capacity) run) :
    (∀ x ∈ run, Guard x.2) ↔ Meets KeepsGuard (new capacity) run := by
  refine along_iff_meets Step (fun m => Owned m ∧ GaugesExact m) Guard KeepsGuard ?_ ?_
    (new capacity) run ⟨owned_new capacity, gaugesExact_new capacity⟩
    ((guard_iff (gaugesExact_new capacity)).mpr (Nat.zero_le _)) hrun
  · intro m a m' h hstep
    exact ⟨owned_step m a m' h.1 hstep, (step_effect h.1 hstep).gauges h.2⟩
  · intro m a m' h hguard hstep
    have heffect := step_effect h.1 hstep
    rw [guard_iff (heffect.gauges h.2), heffect.later.capacity]
    exact fits_step h.1 hguard.fits heffect

/-- A device of ten bytes with four warm bytes and a growth reservation of six
admits four more warm bytes; binding both representations activates eight. -/
def warmBesideGrowth : List Action := [
  .register somePrefix .globalKv 1 4 .device 0,
  .reserveGrowth 6,
  .register somePrefix .recurrent 1 4 .device 0,
  .prepareTransition ⟨0⟩ 0 somePrefix 1 globalAndRecurrent [⟨1⟩, ⟨3⟩] false,
  .commitTransition ⟨4⟩ 0]

/-- Without the growth reservation the same commit fits. -/
def warmAlone : List Action := [
  .register somePrefix .globalKv 1 4 .device 0,
  .register somePrefix .recurrent 1 4 .device 0,
  .prepareTransition ⟨0⟩ 0 somePrefix 1 globalAndRecurrent [⟨1⟩, ⟨2⟩] false,
  .commitTransition ⟨3⟩ 0]

theorem warm_commit_keeps_guard :
    ∃ run, IsRun Step (new tenBytes) run ∧ run.length = 4 ∧
      Meets KeepsGuard (new tenBytes) run := by
  have hrun : (trace perform (new tenBytes) warmAlone).any (fun run =>
      run.length = 4 && run.all (fun x => decide (Guard x.2))) = true := by
    decide +kernel
  obtain ⟨run, htrace, hchecked⟩ := (Option.any_eq_true _ _).mp hrun
  simp only [Bool.and_eq_true, decide_eq_true_eq, List.all_eq_true] at hchecked
  have hsteps := isRun_of_trace _ _ _ _ htrace
  exact ⟨run, hsteps, hchecked.1, (guardedCapacity_iff tenBytes run hsteps).mp hchecked.2⟩

theorem commit_exceeds_capacity :
    ∃ run, IsRun Step (new tenBytes) run ∧
      ∃ x ∈ run, x.2.capacity.deviceBytes < guardedBytes x.2 := by
  have hrun : (trace perform (new tenBytes) warmBesideGrowth).any (fun run => run.any (fun x =>
      decide (x.2.capacity.deviceBytes < guardedBytes x.2))) = true := by
    decide +kernel
  obtain ⟨run, htrace, hchecked⟩ := (Option.any_eq_true _ _).mp hrun
  obtain ⟨x, hx, hexceeds⟩ := List.any_eq_true.mp hchecked
  exact ⟨run, isRun_of_trace _ _ _ _ htrace, x, hx, of_decide_eq_true hexceeds⟩

end Cusco.GuardedCapacity
