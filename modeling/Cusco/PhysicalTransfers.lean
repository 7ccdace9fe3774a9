import Cusco.PhysicalTransitions

/-!
What completing a transfer or a recomputation and preparing a transition can do.
An arrival on the device needs room beside the protected bytes. A preparation
plans the bytes it misses first, makes room for them, and only then reserves its
representations and starts a transfer for each copy it finds off the device.
-/

namespace Cusco.PhysicalTransfers

open Calls Physical Physical.PhysicalManager DeviceEviction PhysicalEffects PhysicalOwners
open PhysicalSteps PhysicalTransitions

variable {m m' : PhysicalManager}

/-- Space was made and one representation landed on the device. -/
structure Landed (m : PhysicalManager) (k : PhysicalRepresentationId) (bytes : ℕ)
    (m' : PhysicalManager) : Prop where
  frame : ∃ representations metrics,
    m' = { m with representations := representations, metrics := metrics }
  absent : ∃ r, m.representations.lookup k = some r ∧ r.device = false
  room : pinnedBytes m + bytes ≤ m.capacity.deviceBytes
  rewrites : AList.Rewrites m.representations m'.representations
    (fun j r => if j = k then { r with device := true } else afterSpace m bytes r)

theorem afterSpace_absent (m : PhysicalManager) (bytes : ℕ) (r : PhysicalRepresentation)
    (hdevice : r.device = false) : afterSpace m bytes r = r := by
  unfold afterSpace leaving evicts
  rw [hdevice]
  rfl

/-- Making space for a representation and landing it. -/
theorem land_run (m : PhysicalManager) (hkeyed : Keyed m) (k : PhysicalRepresentationId)
    (r : PhysicalRepresentation) (hk : m.representations.lookup k = some r)
    (hdevice : r.device = false) (bytes : ℕ) (f : Metrics → Metrics) :
    (pinnedBytes m + bytes ≤ m.capacity.deviceBytes ∧ ∃ m', Landed m k bytes m' ∧
      (do
        ensureDeviceSpace bytes
        arrive k
        Call.update (setMetrics f) : Operation Unit).run m = .returns (.ok ()) m') ∨
    (¬ pinnedBytes m + bytes ≤ m.capacity.deviceBytes ∧ ∃ m', Evicted m m' ∧
      (do
        ensureDeviceSpace bytes
        arrive k
        Call.update (setMetrics f) : Operation Unit).run m =
          .returns (.error .deviceCapacity) m') := by
  obtain ⟨representations, metrics, hrun, hrewrites, hgauges⟩ :=
    ensureDeviceSpace_spec bytes m hkeyed
  by_cases hroom : pinnedBytes m + bytes ≤ m.capacity.deviceBytes
  · rw [spaceResult, if_pos hroom] at hrun
    have hlookup : representations.lookup k = some r := by
      rw [hrewrites.lookup_some hk, afterSpace_absent m bytes r hdevice]
    refine Or.inl ⟨hroom, setMetrics f (setRepresentation k { r with device := true }
      { m with representations := representations, metrics := metrics }),
      ⟨⟨_, _, rfl⟩, ⟨r, hk, hdevice⟩, hroom, ?_⟩, ?_⟩
    · refine (hrewrites.trans (AList.Rewrites.of_insert representations k r _ hlookup)).congr ?_
      intro j q hj
      by_cases hjk : j = k
      · subst hjk
        rw [hk] at hj
        cases hj
        rw [if_pos rfl]
      · rw [if_neg hjk, if_neg hjk]
    · rw [Call.run_bind_ok hrun]
      unfold arrive
      refine Call.run_bind_ok (a := ()) ?_ _
      rw [run_representation_bind _ k r hlookup]
      rfl
  · rw [spaceResult, if_neg hroom] at hrun
    exact Or.inr ⟨hroom, _, evicted_of_ensureDeviceSpace hkeyed hrun, Call.run_bind_error hrun _⟩

theorem Landed.unnoticed {k : PhysicalRepresentationId} {bytes : ℕ} (_ : Landed m k bytes m')
    (j : PhysicalRepresentationId) (r : PhysicalRepresentation) :
    Unnoticed r (if j = k then { r with device := true } else afterSpace m bytes r) := by
  by_cases hjk : j = k
  · rw [if_pos hjk]
    exact ⟨rfl, rfl, rfl, rfl, rfl, fun _ _ => rfl⟩
  · rw [if_neg hjk]
    exact unnoticed_leaving _ (isProtected_of_evicts m bytes) r

theorem Landed.owned {k : PhysicalRepresentationId} {bytes : ℕ} (hl : Landed m k bytes m')
    (h : Owned m) : Owned m' := by
  have hrewrites := hl.rewrites
  have hunnoticed := hl.unnoticed
  obtain ⟨representations, metrics, rfl⟩ := hl.frame
  exact h.rewrite hrewrites (fun j r _ => hunnoticed j r) (le_refl _) rfl rfl rfl h.growth_old

theorem owned_refresh {m : PhysicalManager} (h : Owned m) : Owned m.refreshCapacityMetrics :=
  owned_growth h m.nextId (le_refl _) m.growth h.growth_old

theorem owned_metrics {m : PhysicalManager} (h : Owned m) (metrics : Metrics) :
    Owned { m with metrics := metrics } :=
  h.rewrite (AList.Rewrites.refl m.representations)
    (fun _ _ _ => ⟨rfl, rfl, rfl, rfl, rfl, fun _ hd => hd⟩) (le_refl _) rfl rfl rfl h.growth_old

/-- The state in which a transfer is settled: either the representation was on
the device or the transfer failed, or it just landed. -/
def Received (m : PhysicalManager) (y : Transfer) (success : Bool) (m' : PhysicalManager) : Prop :=
  (∃ metrics, m' = { m with metrics := metrics } ∧ (success = true →
    ∀ r, m.representations.lookup y.representation = some r → r.device = true)) ∨
  (success = true ∧ Landed m y.representation y.bytes m')

structure Settled (m : PhysicalManager) (x : TransferId) (y : Transfer) (success : Bool)
    (m' : PhysicalManager) : Prop where
  frame : ∃ representations transfers metrics, m' = { m with
    representations := representations, transfers := transfers, metrics := metrics }
  rewrites : AList.Rewrites m.representations m'.representations (fun k r =>
    if k = y.representation then
      { r with references := { r.references with transfers := r.references.transfers - 1 } }
    else r)
  transfers : ∀ z, m'.transfers.lookup z = if z = x then
      (if y.detached then none else some { y with completed := true, success := success })
    else m.transfers.lookup z
  gauges : GaugesExact m'

/-- A transfer under way was completed. -/
def Completed (m : PhysicalManager) (x : TransferId) (y : Transfer) (success : Bool)
    (m' : PhysicalManager) : Prop :=
  ∃ m1, Received m y success m1 ∧ Settled m1 x y success m'

theorem Received.owned {y : Transfer} {success : Bool} (hr : Received m y success m')
    (h : Owned m) : Owned m' := by
  rcases hr with ⟨metrics, rfl, _⟩ | ⟨_, hlanded⟩
  · exact owned_metrics h metrics
  · exact hlanded.owned h

theorem Received.transfers {y : Transfer} {success : Bool} (hr : Received m y success m') :
    m'.transfers = m.transfers := by
  rcases hr with ⟨metrics, rfl, _⟩ | ⟨_, hlanded⟩
  · rfl
  · obtain ⟨representations, metrics, rfl⟩ := hlanded.frame
    rfl

theorem Received.device {y : Transfer} {success : Bool} (hr : Received m y success m')
    (hsuccess : success = true) (r : PhysicalRepresentation)
    (hk : m'.representations.lookup y.representation = some r) : r.device = true := by
  rcases hr with ⟨metrics, rfl, hdevice⟩ | ⟨_, hlanded⟩
  · exact hdevice hsuccess r hk
  · obtain ⟨q, _, rfl⟩ := hlanded.rewrites.of_lookup hk
    rw [if_pos rfl]

/-- Settling the counts and the transfer table after the representation was received. -/
theorem settle_run {m : PhysicalManager} (hm : Owned m) {x : TransferId} {y : Transfer}
    (hy : m.transfers.lookup x = some y) (hmoving : y.completed = false) (success : Bool) :
    ∃ m', Settled m x y success m' ∧
      (do
        Call.update (fun m => { m with
          transfers := m.transfers.insert x { y with completed := true, success := success } })
        adjustReference ReferenceCounts.dropTransfer y.representation
        refresh
        Call.skipIf (!y.detached)
          (Call.update (fun m => { m with transfers := m.transfers.erase x })) :
        Operation Unit).run m = .returns (.ok ()) m' := by
  obtain ⟨r, hr, _⟩ := hm.moving x y hy hmoving
  have hpos := hm.transfers_pos hy hmoving hr
  have hrecount : recount ReferenceCounts.dropTransfer r =
      { r with references := { r.references with transfers := r.references.transfers - 1 } } := by
    unfold recount
    rw [dropTransfer_of_pos _ hpos]
    rfl
  obtain ⟨y', hy'⟩ : ∃ y' : Transfer, y' = { y with completed := true, success := success } :=
    ⟨_, rfl⟩
  rw [← hy']
  have hadjust := adjustReference_run ReferenceCounts.dropTransfer
    { m with transfers := m.transfers.insert x y' } y.representation r hr _
    (dropTransfer_of_pos _ hpos)
  have hrewrites : AList.Rewrites m.representations
      (m.representations.insert y.representation (recount ReferenceCounts.dropTransfer r))
      (fun k r => if k = y.representation then
        { r with references := { r.references with transfers := r.references.transfers - 1 } }
      else r) := by
    refine (AList.Rewrites.of_insert m.representations y.representation r _ hr).congr ?_
    intro k q hk
    by_cases hky : k = y.representation
    · rw [hky, hr] at hk
      cases hk
      rw [if_pos hky, if_pos hky, hrecount]
    · rw [if_neg hky, if_neg hky]
  have hgauges := gaugesExact_refresh (setRepresentation y.representation
    (recount ReferenceCounts.dropTransfer r) { m with transfers := m.transfers.insert x y' })
  rw [Call.run_update_bind, Call.run_bind_ok hadjust]
  by_cases hdetached : y.detached = true
  · refine ⟨_, ⟨⟨_, _, _, rfl⟩, hrewrites, ?_, ?_⟩, by rw [hdetached]; rfl⟩
    · intro z
      change ((m.transfers.insert x y').erase x).lookup z = _
      rw [AList.lookup_erase_ite, AList.lookup_insert_ite]
      by_cases hz : z = x
      · rw [if_pos hz, if_pos hz, if_pos hdetached]
      · rw [if_neg hz, if_neg hz, if_neg hz]
    · -- The erased transfer is complete, so the gauge of detached bytes stays exact.
      refine ⟨hgauges.deviceActive, hgauges.deviceGrowthReserved,
        hgauges.deviceTransitionReserved, ?_, hgauges.deviceWarm, hgauges.hostUsed⟩
      refine hgauges.deviceDetachedTransferReserved.trans ?_
      refine (AList.total_erase _ (m.transfers.insert x y') x y'
        (AList.lookup_insert m.transfers)).trans ?_
      rw [if_neg (by rw [hy']; simp), Nat.zero_add]
      rfl
  · have hattached : y.detached = false := Bool.not_eq_true _ ▸ hdetached
    refine ⟨_, ⟨⟨_, _, _, rfl⟩, hrewrites, ?_, hgauges⟩, by rw [hattached]; rfl⟩
    intro z
    rw [if_neg hdetached, ← hy']
    exact AList.lookup_insert_ite x z y' m.transfers

/-- Whether completing a transfer finds room. -/
def CanLand (m : PhysicalManager) (y : Transfer) (success : Bool) : Prop :=
  success = true → ∀ r, m.representations.lookup y.representation = some r →
    r.device = false → pinnedBytes m + y.bytes ≤ m.capacity.deviceBytes

theorem receive_run {m : PhysicalManager} (hm : Owned m) {x : TransferId} {y : Transfer}
    (hy : m.transfers.lookup x = some y) (hmoving : y.completed = false) (success : Bool) :
    (CanLand m y success ∧ ∃ m', Received m y success m' ∧
      (Call.skipIf (!success) (receive y) : Operation Unit).run m = .returns (.ok ()) m') ∨
    (¬ CanLand m y success ∧ ∃ m', Evicted m m' ∧
      (Call.skipIf (!success) (receive y) : Operation Unit).run m =
        .returns (.error .deviceCapacity) m') := by
  obtain ⟨r, hr, _⟩ := hm.moving x y hy hmoving
  cases success with
  | false =>
    exact Or.inl ⟨fun h => (nomatch h), m, Or.inl ⟨m.metrics, rfl, fun h => (nomatch h)⟩, rfl⟩
  | true =>
    change (_ ∧ ∃ m', _ ∧ (receive y).run m = _) ∨ (_ ∧ ∃ m', _ ∧ (receive y).run m = _)
    unfold receive
    rw [run_representation_bind m y.representation r hr]
    by_cases hdevice : r.device = true
    · refine Or.inl ⟨?_, _, Or.inl ⟨{ m.metrics with
        transferBytes := m.metrics.transferBytes + y.bytes }, rfl, ?_⟩, ?_⟩
      · intro _ q hq habsent
        rw [hr] at hq
        cases hq
        rw [hdevice] at habsent
        cases habsent
      · intro _ q hq
        rw [hr] at hq
        cases hq
        exact hdevice
      · rw [hdevice, Call.run_skipIf_true_bind]
        rfl
    · rw [Bool.not_eq_true] at hdevice
      have hcan : CanLand m y true ↔ pinnedBytes m + y.bytes ≤ m.capacity.deviceBytes := by
        constructor
        · intro h
          exact h rfl r hr hdevice
        · intro h _ _ _ _
          exact h
      rw [hdevice, Call.run_skipIf_false_bind, hcan]
      rcases land_run m hm.keyed y.representation r hr hdevice y.bytes
        (fun y => { y with promotions := y.promotions + 1 }) with
        ⟨hroom, m1, hlanded, hrun⟩ | ⟨hroom, m1, hevicted, hrun⟩
      · refine Or.inl ⟨hroom, setMetrics (fun z => { z with
          transferBytes := z.transferBytes + y.bytes }) m1, Or.inr ⟨rfl, ?_⟩,
          Call.run_bind_ok hrun _⟩
        obtain ⟨representations, metrics, rfl⟩ := hlanded.frame
        exact ⟨⟨_, _, rfl⟩, hlanded.absent, hlanded.room, hlanded.rewrites⟩
      · exact Or.inr ⟨hroom, m1, hevicted, Call.run_bind_error hrun _⟩

/-- Completing a transfer under way. -/
theorem completeTransfer_run {m : PhysicalManager} (hm : Owned m) {x : TransferId} {y : Transfer}
    (hy : m.transfers.lookup x = some y) (hmoving : y.completed = false) (success : Bool) :
    (CanLand m y success ∧ ∃ m', Completed m x y success m' ∧
      (completeTransfer x success).run m = .returns (.ok ()) m') ∨
    (¬ CanLand m y success ∧ ∃ m', Evicted m m' ∧
      (completeTransfer x success).run m = .returns (.error .deviceCapacity) m') := by
  unfold completeTransfer
  rw [Call.run_read_bind, hy, Call.run_require_some_bind, if_neg (by simp [hmoving])]
  rcases receive_run hm hy hmoving success with
    ⟨hcan, m1, hreceived, hrun⟩ | ⟨hcan, m1, hevicted, hrun⟩
  · obtain ⟨m2, hsettled, hrun2⟩ := settle_run (hreceived.owned hm)
      (by rw [hreceived.transfers]; exact hy) hmoving success
    refine Or.inl ⟨hcan, m2, ⟨m1, hreceived, hsettled⟩, ?_⟩
    rw [Call.run_bind_ok hrun]
    exact hrun2
  · exact Or.inr ⟨hcan, m1, hevicted, Call.run_bind_error hrun _⟩

theorem completeTransfer_cases (hm : Owned m) {x : TransferId} {success : Bool}
    {result : Except Error Unit} (h : (completeTransfer x success).run m = .returns result m') :
    Quiet m m' ∨ ∃ y, m.transfers.lookup x = some y ∧ y.completed = false ∧
      Completed m x y success m' := by
  cases hy : m.transfers.lookup x with
  | none =>
    unfold completeTransfer at h
    rw [Call.run_read_bind, hy, Call.run_require_none_bind] at h
    cases h
    exact Or.inl (Quiet.refl _)
  | some y =>
    by_cases hcompleted : y.completed = true
    · unfold completeTransfer at h
      rw [Call.run_read_bind, hy, Call.run_require_some_bind, if_pos hcompleted] at h
      cases h
      exact Or.inl (Quiet.refl _)
    · rw [Bool.not_eq_true] at hcompleted
      rcases completeTransfer_run hm hy hcompleted success with
        ⟨_, m1, hcomplete, hrun⟩ | ⟨_, m1, hevicted, hrun⟩
      · rw [hrun] at h
        cases h
        exact Or.inr ⟨y, rfl, hcompleted, hcomplete⟩
      · rw [hrun] at h
        cases h
        exact Or.inl (quiet_of_evicted hevicted)

/-- A transfer that is not the one settled is as it was. -/
theorem Settled.of_transfer {x : TransferId} {y : Transfer} {success : Bool}
    (hs : Settled m x y success m') {z : TransferId} {w : Transfer}
    (hw : m'.transfers.lookup z = some w) :
    (z = x ∧ w.completed = true) ∨ m.transfers.lookup z = some w := by
  rw [hs.transfers z] at hw
  split at hw
  · rename_i hzx
    split at hw
    · cases hw
    · cases hw
      exact Or.inl ⟨hzx, rfl⟩
  · exact Or.inr hw

/-- The transfers under way after one was settled. -/
theorem transferOwners_settled {x : TransferId} {y : Transfer} {success : Bool}
    (hs : Settled m x y success m') (hy : m.transfers.lookup x = some y)
    (hmoving : y.completed = false) (k : PhysicalRepresentationId) :
    transferOwners m k = (if y.representation = k then 1 else 0) + transferOwners m' k := by
  have herase := AList.total_erase (fun (_ : TransferId) (z : Transfer) =>
    if z.representation = k ∧ z.completed = false then 1 else 0) m.transfers x y hy
  simp only [hmoving, and_true] at herase
  have hafter := AList.total_of_lookup_update (fun (_ : TransferId) (z : Transfer) =>
    if z.representation = k ∧ z.completed = false then 1 else 0) m.transfers m'.transfers x _
    hs.transfers
  have hzero : (if y.detached then none
      else some { y with completed := true, success := success }).elim 0
      (fun z : Transfer => if z.representation = k ∧ z.completed = false then 1 else 0) =
      0 := by
    split <;> simp
  rw [hzero, Nat.zero_add] at hafter
  exact herase.trans (congrArg _ hafter.symm)

theorem recounts_settled (y : Transfer) : Recounts (fun k r => if k = y.representation then
    { r with references := { r.references with transfers := r.references.transfers - 1 } }
    else r) := by
  refine ⟨?_, ?_, ?_⟩ <;> intro k r <;> dsimp only <;> split <;> rfl

theorem Settled.owned {x : TransferId} {y : Transfer} {success : Bool}
    (hs : Settled m x y success m') (h : Owned m) (hy : m.transfers.lookup x = some y)
    (hmoving : y.completed = false)
    (hdevice : success = true → ∀ r,
      m.representations.lookup y.representation = some r → r.device = true) : Owned m' := by
  have hrewrites := hs.rewrites
  have htransfers := hs.transfers
  have hg := recounts_settled y
  have hkeyed := h.keyed_recounted hrewrites hg
  have howners := transferOwners_settled hs hy hmoving
  have hsettled := @Settled.of_transfer m m' x y success hs
  obtain ⟨representations, transfers, metrics, rfl⟩ := hs.frame
  refine ⟨hkeyed, h.old_recounted hrewrites le_rfl, h.transitions_old, ?_, h.growth_old, ?_,
    fun c b hb => h.bound_recounted hrewrites hg hb,
    fun i t ht => h.prepared_recounted hrewrites ht, ?_, h.apart, ?_⟩
  · intro z w hw
    rcases hsettled hw with ⟨rfl, _⟩ | hw
    · exact h.transfers_old _ y hy
    · exact h.transfers_old z w hw
  · intro k r' hk
    obtain ⟨r, hr, rfl⟩ := hrewrites.of_lookup hk
    obtain ⟨hactive, hreservations, hcount⟩ := h.counted k r hr
    have hbefore := howners k
    by_cases hky : k = y.representation
    · rw [if_pos hky]
      rw [if_pos hky.symm] at hbefore
      refine ⟨hactive, hreservations, ?_⟩
      change r.references.transfers - 1 = _
      omega
    · rw [if_neg hky]
      rw [if_neg (fun heq => hky heq.symm)] at hbefore
      refine ⟨hactive, hreservations, ?_⟩
      omega
  · intro i t ht
    obtain ⟨hnodup, hlinked⟩ := h.linked i t ht
    refine ⟨hnodup, ?_⟩
    intro z hz
    obtain ⟨w, hw, hattached, hmem, harrived⟩ := hlinked z hz
    have hz' := htransfers z
    by_cases hzx : z = x
    · subst hzx
      cases hy.symm.trans hw
      rw [if_pos rfl, if_neg (by rw [hattached]; simp)] at hz'
      refine ⟨_, hz', hattached, hmem, ?_⟩
      have hnow : Arrived m { y with completed := true, success := success } :=
        fun _ hsuccess => hdevice hsuccess
      exact hnow.recounted hrewrites hg
    · rw [if_neg hzx, hw] at hz'
      exact ⟨w, hz', hattached, hmem, harrived.recounted hrewrites hg⟩
  · intro z w hw hincomplete
    rcases hsettled hw with ⟨_, hcompleted⟩ | hw
    · rw [hcompleted] at hincomplete
      cases hincomplete
    · exact h.moving_recounted hrewrites hg hw hincomplete

theorem Completed.owned {x : TransferId} {y : Transfer} {success : Bool}
    (hc : Completed m x y success m') (h : Owned m) (hy : m.transfers.lookup x = some y)
    (hmoving : y.completed = false) : Owned m' := by
  obtain ⟨m1, hreceived, hsettled⟩ := hc
  refine hsettled.owned (hreceived.owned h) ?_ hmoving (fun hsuccess => hreceived.device hsuccess)
  rw [hreceived.transfers]
  exact hy

end Cusco.PhysicalTransfers
