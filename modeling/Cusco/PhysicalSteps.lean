import Cusco.PhysicalOwners

/-!
What each operation of the physical manager can do. An operation that returns
leaves a state of one of a few kinds: representations changed without any owner
noticing, a table entry added or removed, a transition prepared, committed or
aborted, a transfer completed. Owners are accounted for after each of them.
-/

namespace Cusco.PhysicalSteps

open Calls Physical Physical.PhysicalManager DeviceEviction PhysicalEffects PhysicalOwners

variable {m m' : PhysicalManager} {result : Except Error Unit}

/-- Representations changed in place, none arriving on the device. -/
structure Quiet (m m' : PhysicalManager) : Prop where
  frame : ∃ representations metrics,
    m' = { m with representations := representations, metrics := metrics }
  rewrites : ∃ g, AList.Rewrites m.representations m'.representations g ∧
    ∀ k r, m.representations.lookup k = some r → Unnoticed r (g k r) ∧
      ((g k r).device = true → r.device = true)
  gauges : GaugesExact m → GaugesExact m'

theorem Quiet.refl (m : PhysicalManager) : Quiet m m :=
  ⟨⟨m.representations, m.metrics, rfl⟩, ⟨_, AList.Rewrites.refl _, fun _ _ _ =>
    ⟨⟨rfl, rfl, rfl, rfl, rfl, fun _ hdevice => hdevice⟩, fun hdevice => hdevice⟩⟩, fun h => h⟩

theorem quiet_of_evicted (h : Evicted m m') : Quiet m m' := by
  obtain ⟨representations, metrics, gone, rfl, hrewrites, hgone, hgauges⟩ := h
  refine ⟨⟨representations, metrics, rfl⟩, ⟨_, hrewrites, ?_⟩, hgauges⟩
  intro k r _
  refine ⟨unnoticed_leaving gone hgone r, ?_⟩
  unfold leaving
  split
  · intro hdevice
    cases hdevice
  · exact fun hdevice => hdevice

theorem Quiet.owned (hq : Quiet m m') (h : Owned m) : Owned m' := by
  obtain ⟨representations, metrics, rfl⟩ := hq.frame
  obtain ⟨g, hrewrites, hg⟩ := hq.rewrites
  exact h.rewrite hrewrites (fun k r hk => (hg k r hk).1) (le_refl _) rfl rfl rfl h.growth_old

/-- One unprotected representation rewritten in place. -/
theorem quiet_setRepresentation (m : PhysicalManager) (k : PhysicalRepresentationId)
    (r r' : PhysicalRepresentation) (hk : m.representations.lookup k = some r)
    (hunnoticed : Unnoticed r r') (hdevice : r'.device = true → r.device = true)
    (f : Metrics → Metrics) :
    Quiet m (refreshCapacityMetrics (setMetrics f (setRepresentation k r' m))) := by
  refine ⟨⟨_, _, rfl⟩, ⟨_, AList.Rewrites.of_insert m.representations k r r' hk, ?_⟩,
    fun _ => gaugesExact_refresh _⟩
  intro j q hj
  by_cases hjk : j = k
  · subst hjk
    rw [hk] at hj
    cases hj
    rw [if_pos rfl]
    exact ⟨hunnoticed, hdevice⟩
  · rw [if_neg hjk]
    exact ⟨⟨rfl, rfl, rfl, rfl, rfl, fun _ hd => hd⟩, fun hd => hd⟩

theorem evict_quiet {k : PhysicalRepresentationId} {tier : Tier}
    (h : (evict k tier).run m = .returns result m') : Quiet m m' := by
  unfold evict at h
  rw [Call.run_read_bind] at h
  rcases Call.of_require_bind h with ⟨_, rfl, _⟩ | ⟨r, hr, h⟩
  · exact Quiet.refl _
  rcases Call.of_check_bind h with ⟨_, rfl, _⟩ | ⟨hfree, h⟩
  · exact Quiet.refl _
  split at h
  · cases h
    refine quiet_setRepresentation m k r (clearTier r tier) hr ?_ ?_ _
    · have hprotected : r.references.isProtected = true → False := by
        intro hp
        rw [hp] at hfree
        cases hfree
      cases tier <;>
        exact ⟨rfl, rfl, rfl, rfl, rfl, fun hp _ => (hprotected hp).elim⟩
    · cases tier with
      | device => exact fun hd => nomatch hd
      | host => exact fun hd => hd
      | storage => exact fun hd => hd
  · cases h
    exact Quiet.refl _

/-- A demotion of an unprotected representation. -/
theorem quiet_demoted (m : PhysicalManager) (k : PhysicalRepresentationId)
    (r r' : PhysicalRepresentation) (hk : m.representations.lookup k = some r)
    (hfree : (!r.references.isProtected) = true) (hid : r'.id = r.id) (hbytes : r'.bytes = r.bytes)
    (hreferences : r'.references = r.references) (hdevice : r'.device = false)
    (f : Metrics → Metrics) :
    Quiet m (refreshCapacityMetrics (setMetrics f (setRepresentation k r' m))) := by
  refine quiet_setRepresentation m k r r' hk ?_ ?_ f
  · refine ⟨hid, hbytes, by rw [hreferences], by rw [hreferences], by rw [hreferences], ?_⟩
    intro hprotected _
    rw [hprotected] at hfree
    cases hfree
  · intro hd
    rw [hdevice] at hd
    cases hd

theorem demoteToHost_quiet {k : PhysicalRepresentationId}
    (h : (demoteToHost k).run m = .returns result m') : Quiet m m' := by
  unfold demoteToHost at h
  rw [Call.run_read_bind] at h
  rcases Call.of_require_bind h with ⟨_, rfl, _⟩ | ⟨r, hr, h⟩
  · exact Quiet.refl _
  rcases Call.of_check_bind h with ⟨_, rfl, _⟩ | ⟨hfree, h⟩
  · exact Quiet.refl _
  have hquiet := quiet_demoted m k r { r with host := true, device := false } hr hfree rfl rfl rfl
    rfl (fun x => { x with demotions := if r.device then x.demotions + 1 else x.demotions })
  by_cases hhost : r.host = true
  · rw [hhost, Call.run_skipIf_true_bind] at h
    cases h
    exact hquiet
  · rw [Bool.not_eq_true] at hhost
    rw [hhost, Call.run_skipIf_false_bind] at h
    rcases Call.of_bind h with ⟨e, he, _⟩ | ⟨_, m1, hok, h⟩
    · rw [ensureHostCapacity_run] at he
      split at he
      · cases he
      · cases he
        exact Quiet.refl _
    · rw [ensureHostCapacity_run] at hok
      split at hok
      · cases hok
        cases h
        exact hquiet
      · cases hok

theorem demoteToStorage_quiet {k : PhysicalRepresentationId}
    (h : (demoteToStorage k).run m = .returns result m') : Quiet m m' := by
  unfold demoteToStorage at h
  rw [Call.run_read_bind] at h
  rcases Call.of_require_bind h with ⟨_, rfl, _⟩ | ⟨r, hr, h⟩
  · exact Quiet.refl _
  rcases Call.of_check_bind h with ⟨_, rfl, _⟩ | ⟨hfree, h⟩
  · exact Quiet.refl _
  cases h
  exact quiet_demoted m k r { r with storage := true, host := false, device := false } hr hfree
    rfl rfl rfl rfl _

/-- An unprotected representation was removed. -/
structure Erased (m : PhysicalManager) (k : PhysicalRepresentationId) (m' : PhysicalManager) :
    Prop where
  frame : ∃ metrics, m' = { m with
    representations := m.representations.erase k, metrics := metrics }
  free : ∀ r, m.representations.lookup k = some r → r.references.isProtected = false
  gauges : GaugesExact m'

theorem releaseLogicalReference_cases {k : PhysicalRepresentationId}
    (h : (releaseLogicalReference k).run m = .returns result m') : Quiet m m' ∨ Erased m k m' := by
  unfold releaseLogicalReference at h
  rw [Call.run_read_bind] at h
  rcases Call.of_require_bind h with ⟨_, rfl, _⟩ | ⟨r, hr, h⟩
  · exact Or.inl (Quiet.refl _)
  rw [Call.run_update_bind] at h
  split at h
  · rename_i hgone
    rw [Bool.and_eq_true, Bool.not_eq_true'] at hgone
    cases h
    refine Or.inr ⟨⟨_, rfl⟩, ?_, gaugesExact_refresh _⟩
    intro q hq
    rw [hr] at hq
    cases hq
    exact hgone.2
  · cases h
    exact Or.inl (quiet_setRepresentation m k r
      { r with references := { r.references with logical := r.references.logical - 1 } } hr
      ⟨rfl, rfl, rfl, rfl, rfl, fun _ hd => hd⟩ (fun hd => hd) id)

theorem Erased.owned {k : PhysicalRepresentationId} (he : Erased m k m') (h : Owned m) :
    Owned m' := by
  obtain ⟨metrics, rfl⟩ := he.frame
  have hlookup : ∀ j r, (m.representations.erase k).lookup j = some r →
      m.representations.lookup j = some r := by
    intro j r hj
    rw [AList.lookup_erase_ite] at hj
    split at hj
    · cases hj
    · exact hj
  -- Nothing names the erased representation, since a name protects it.
  have hkept : ∀ j r, m.representations.lookup j = some r → r.references.isProtected = true →
      (m.representations.erase k).lookup j = some r := by
    intro j r hj hprotected
    rw [AList.lookup_erase_ite, if_neg]
    · exact hj
    · rintro rfl
      rw [he.free r hj] at hprotected
      cases hprotected
  constructor
  · intro j r hj
    exact h.keyed j r (hlookup j r hj)
  · intro j r hj
    exact h.representations_old j r (hlookup j r hj)
  · exact h.transitions_old
  · exact h.transfers_old
  · exact h.growth_old
  · intro j r hj
    exact h.counted j r (hlookup j r hj)
  · intro c b hb
    refine ⟨(h.bound c b hb).1, ?_⟩
    intro j hj
    obtain ⟨r, hr, hdevice⟩ := (h.bound c b hb).2 j hj
    refine ⟨r, hkept j r hr ?_, hdevice⟩
    rw [isProtected_iff]
    exact Or.inl (h.active_pos hb hj hr)
  · intro i t ht
    refine ⟨(h.prepared i t ht).1, ?_⟩
    intro j hj
    obtain ⟨r, hr⟩ := (h.prepared i t ht).2 j hj
    refine ⟨r, hkept j r hr ?_⟩
    rw [isProtected_iff]
    exact Or.inr (Or.inl (h.reservations_pos ht hj hr))
  · intro i t ht
    refine ⟨(h.linked i t ht).1, ?_⟩
    intro x hx
    obtain ⟨y, hy, hattached, hmem, harrived⟩ := (h.linked i t ht).2 x hx
    refine ⟨y, hy, hattached, hmem, ?_⟩
    intro hcompleted hsuccess r hr
    exact harrived hcompleted hsuccess r (hlookup _ r hr)
  · exact h.apart
  · intro x y hy hmoving
    obtain ⟨r, hr, hbytes⟩ := h.moving x y hy hmoving
    refine ⟨r, hkept _ r hr ?_, hbytes⟩
    rw [isProtected_iff]
    exact Or.inr (Or.inr (h.transfers_pos hy hmoving hr))

/-- A representation without owners was added after admission. -/
def Registered (m m' : PhysicalManager) : Prop :=
  ∃ m1 r, Quiet m m1 ∧ r.id = ⟨m1.nextId⟩ ∧ r.references = ⟨1, 0, 0, 0⟩ ∧
    m' = refreshCapacityMetrics (setRepresentation ⟨m1.nextId⟩ r
      { m1 with nextId := m1.nextId + 1, clock := m1.clock + 1 })

theorem ensureTier_quiet {tier : Tier} {bytes : ℕ} (hkeyed : Keyed m)
    (h : (ensureTier tier bytes).run m = .returns result m') : Quiet m m' := by
  cases tier with
  | device => exact quiet_of_evicted (evicted_of_ensureDeviceCapacity hkeyed h)
  | host =>
    change (ensureHostCapacity bytes).run m = _ at h
    rw [ensureHostCapacity_run] at h
    split at h
    · cases h
      exact Quiet.refl _
    · cases h
      exact Quiet.refl _
  | storage =>
    cases h
    exact Quiet.refl _

theorem Quiet.nextId (h : Quiet m m') : m'.nextId = m.nextId := by
  obtain ⟨_, _, rfl⟩ := h.frame
  rfl

theorem register_cases (hm : Owned m) {mapping : LogicalStore.EvaluatedPrefixId}
    {component : Component} {representedEnd bytes : ℕ} {tier : Tier} {reuseValue : ℕ}
    {result : Except Error PhysicalRepresentationId}
    (h : (register mapping component representedEnd bytes tier reuseValue).run m =
      .returns result m') : Quiet m m' ∨ Registered m m' := by
  unfold register at h
  rcases Call.of_bind h with ⟨e, he, _⟩ | ⟨_, m1, hroom, h⟩
  · exact Or.inl (ensureTier_quiet hm.keyed he)
  have hquiet := ensureTier_quiet hm.keyed hroom
  obtain ⟨_, h⟩ := of_identity_bind h
  rcases Call.of_bind h with ⟨e, he, _⟩ | ⟨clock, m2, htick, h⟩
  · unfold tick at he
    simp only at he
    split at he <;> cases he
  unfold tick at htick
  simp only at htick
  split at htick
  · cases htick
  · cases htick
    cases h
    exact Or.inr ⟨m1, _, hquiet, rfl, rfl, rfl⟩

theorem owned_insert {m : PhysicalManager} (h : Owned m) (r : PhysicalRepresentation)
    (hid : r.id = ⟨m.nextId⟩) (hreferences : r.references = ⟨1, 0, 0, 0⟩) :
    Owned (refreshCapacityMetrics (setRepresentation ⟨m.nextId⟩ r
      { m with nextId := m.nextId + 1, clock := m.clock + 1 })) := by
  have hfresh := h.fresh_representation
  have hkept : ∀ k q, m.representations.lookup k = some q →
      (m.representations.insert ⟨m.nextId⟩ r).lookup k = some q := by
    intro k q hk
    rw [AList.lookup_insert_ite, if_neg]
    · exact hk
    · rintro rfl
      rw [hfresh] at hk
      cases hk
  have hcases : ∀ k q, (m.representations.insert ⟨m.nextId⟩ r).lookup k = some q →
      (k = ⟨m.nextId⟩ ∧ q = r) ∨ m.representations.lookup k = some q := by
    intro k q hk
    rw [AList.lookup_insert_ite] at hk
    by_cases hkid : k = ⟨m.nextId⟩
    · rw [if_pos hkid] at hk
      exact Or.inl ⟨hkid, (Option.some.inj hk).symm⟩
    · rw [if_neg hkid] at hk
      exact Or.inr hk
  constructor
  · intro k q hk
    rcases hcases k q hk with ⟨rfl, rfl⟩ | hk
    · exact hid
    · exact h.keyed k q hk
  · intro k q hk
    rcases hcases k q hk with ⟨rfl, rfl⟩ | hk
    · exact Nat.lt_succ_self _
    · exact Nat.lt_succ_of_lt (h.representations_old k q hk)
  · intro k t ht
    exact Nat.lt_succ_of_lt (h.transitions_old k t ht)
  · intro k y hy
    exact Nat.lt_succ_of_lt (h.transfers_old k y hy)
  · intro k g hg
    exact Nat.lt_succ_of_lt (h.growth_old k g hg)
  · intro k q hk
    rcases hcases k q hk with ⟨rfl, rfl⟩ | hk
    · obtain ⟨hactive, hreservations, htransfers⟩ := h.unnamed _ hfresh
      rw [hreferences]
      exact ⟨hactive.symm, hreservations.symm, htransfers.symm⟩
    · exact h.counted k q hk
  · intro c b hb
    refine ⟨(h.bound c b hb).1, ?_⟩
    intro k hk
    obtain ⟨q, hq, hdevice⟩ := (h.bound c b hb).2 k hk
    exact ⟨q, hkept k q hq, hdevice⟩
  · intro i t ht
    refine ⟨(h.prepared i t ht).1, ?_⟩
    intro k hk
    obtain ⟨q, hq⟩ := (h.prepared i t ht).2 k hk
    exact ⟨q, hkept k q hq⟩
  · intro i t ht
    refine ⟨(h.linked i t ht).1, ?_⟩
    intro x hx
    obtain ⟨y, hy, hattached, hmem, harrived⟩ := (h.linked i t ht).2 x hx
    refine ⟨y, hy, hattached, hmem, ?_⟩
    intro hcompleted hsuccess q hq
    obtain ⟨q', hq'⟩ := (h.prepared i t ht).2 _ hmem
    cases hq.symm.trans (hkept _ q' hq')
    exact harrived hcompleted hsuccess q hq'
  · exact h.apart
  · intro x y hy hmoving
    obtain ⟨q, hq, hbytes⟩ := h.moving x y hy hmoving
    exact ⟨q, hkept _ q hq, hbytes⟩

theorem Registered.owned (hr : Registered m m') (h : Owned m) : Owned m' := by
  obtain ⟨m1, r, hquiet, hid, hreferences, rfl⟩ := hr
  exact owned_insert (hquiet.owned h) r hid hreferences

/-- A growth reservation was admitted. -/
def Grown (m : PhysicalManager) (bytes : ℕ) (m' : PhysicalManager) : Prop :=
  guardedBytes m + bytes ≤ m.capacity.deviceBytes ∧
    ∃ m1, Quiet m m1 ∧ m' = refreshCapacityMetrics { m1 with
      nextId := m1.nextId + 1, growth := m.growth.insert ⟨m.nextId⟩ ⟨bytes⟩ }

theorem reserveGrowth_cases (hm : Owned m) {bytes : ℕ} {result : Except Error GrowthReservationId}
    (h : (reserveGrowth bytes).run m = .returns result m') : Quiet m m' ∨ Grown m bytes m' := by
  unfold reserveGrowth at h
  rcases Call.of_bind h with ⟨e, he, _⟩ | ⟨_, m1, hroom, h⟩
  · exact Or.inl (quiet_of_evicted (evicted_of_ensureDeviceCapacity hm.keyed he))
  obtain ⟨hguarded, _, representations, metrics, rfl, _⟩ := ensureDeviceCapacity_ok hm.keyed hroom
  have hquiet := quiet_of_evicted (evicted_of_ensureDeviceCapacity hm.keyed hroom)
  obtain ⟨_, h⟩ := of_identity_bind h
  cases h
  exact Or.inr ⟨hguarded, _, hquiet, rfl⟩

/-- Only the growth reservations changed. -/
theorem owned_growth {m : PhysicalManager} (h : Owned m) (n : ℕ) (hn : m.nextId ≤ n)
    (growth : Table GrowthReservationId GrowthReservation)
    (hgrowth : ∀ k g, growth.lookup k = some g → k.value < n) :
    Owned (refreshCapacityMetrics { m with nextId := n, growth := growth }) :=
  h.rewrite (AList.Rewrites.refl m.representations)
    (fun _ _ _ => ⟨rfl, rfl, rfl, rfl, rfl, fun _ hd => hd⟩) hn rfl rfl rfl hgrowth

theorem Grown.owned {bytes : ℕ} (hg : Grown m bytes m') (h : Owned m) : Owned m' := by
  obtain ⟨_, m1, hquiet, rfl⟩ := hg
  refine owned_growth (hquiet.owned h) _ (Nat.le_succ _) _ ?_
  intro k g hk
  rw [AList.lookup_insert_ite] at hk
  rw [hquiet.nextId]
  by_cases hkid : k = ⟨m.nextId⟩
  · rw [hkid]
    exact Nat.lt_succ_self _
  · rw [if_neg hkid] at hk
    exact Nat.lt_succ_of_lt (h.growth_old k g hk)

/-- A growth reservation was released. -/
def Ungrown (m : PhysicalManager) (id : GrowthReservationId) (m' : PhysicalManager) : Prop :=
  m' = refreshCapacityMetrics { m with growth := m.growth.erase id }

theorem releaseGrowth_cases {id : GrowthReservationId}
    (h : (releaseGrowth id).run m = .returns result m') : Quiet m m' ∨ Ungrown m id m' := by
  unfold releaseGrowth at h
  rw [Call.run_read_bind] at h
  rcases Call.of_require_bind h with ⟨_, rfl, _⟩ | ⟨g, _, h⟩
  · exact Or.inl (Quiet.refl _)
  · cases h
    exact Or.inr rfl

theorem Ungrown.owned {id : GrowthReservationId} (hu : Ungrown m id m') (h : Owned m) :
    Owned m' := by
  subst hu
  refine owned_growth h _ (le_refl _) _ ?_
  intro k g hk
  rw [AList.lookup_erase_ite] at hk
  split at hk
  · cases hk
  · exact h.growth_old k g hk

/-- Identities were drawn, block tables changed and publications counted. -/
structure Published (m m' : PhysicalManager) : Prop where
  frame : ∃ n blockTables metrics, m' =
    { m with nextId := n, blockTables := blockTables, metrics := metrics }
  nextId : m.nextId ≤ m'.nextId
  gauges : GaugesExact m → GaugesExact m'

theorem Published.refl (m : PhysicalManager) : Published m m :=
  ⟨⟨m.nextId, m.blockTables, m.metrics, rfl⟩, le_refl _, fun h => h⟩

theorem Published.trans {a b c : PhysicalManager} (hab : Published a b) (hbc : Published b c) :
    Published a c := by
  obtain ⟨n, tables, metrics, rfl⟩ := hab.frame
  obtain ⟨n', tables', metrics', rfl⟩ := hbc.frame
  exact ⟨⟨n', tables', metrics', rfl⟩, hab.nextId.trans hbc.nextId,
    fun h => hbc.gauges (hab.gauges h)⟩

theorem Published.owned (hp : Published m m') (h : Owned m) : Owned m' := by
  obtain ⟨n, tables, metrics, rfl⟩ := hp.frame
  exact h.rewrite (AList.Rewrites.refl m.representations)
    (fun _ _ _ => ⟨rfl, rfl, rfl, rfl, rfl, fun _ hd => hd⟩) hp.nextId rfl rfl rfl
    (fun k g hk => lt_of_lt_of_le (h.growth_old k g hk) hp.nextId)

theorem published_identity (m : PhysicalManager) :
    Published m { m with nextId := m.nextId + 1 } :=
  ⟨⟨_, _, _, rfl⟩, Nat.le_succ _, fun h =>
    ⟨h.deviceActive, h.deviceGrowthReserved, h.deviceTransitionReserved,
      h.deviceDetachedTransferReserved, h.deviceWarm, h.hostUsed⟩⟩

/-- A block table was stored for a context and its publication counted. -/
def publishTable (c : LogicalStore.LogicalContextId) (table : DeviceBlockTable)
    (m : PhysicalManager) : PhysicalManager :=
  setMetrics (fun x => { x with mappedPublications := x.mappedPublications + 1 })
    { m with blockTables := m.blockTables.insert c table }

theorem published_table (m : PhysicalManager) (c : LogicalStore.LogicalContextId)
    (table : DeviceBlockTable) : Published m (publishTable c table m) :=
  ⟨⟨_, _, _, rfl⟩, le_refl _, fun h =>
    ⟨h.deviceActive, h.deviceGrowthReserved, h.deviceTransitionReserved,
      h.deviceDetachedTransferReserved, h.deviceWarm, h.hostUsed⟩⟩

theorem publishDeviceBlockTable_cases (hm : Owned m) {context : LogicalStore.LogicalContextId}
    {binding : ActiveBindingId} {executorMapping : ℕ} {result : Except Error DeviceBlockTableId}
    (h : (publishDeviceBlockTable context binding executorMapping).run m = .returns result m') :
    (m' = m ∧ ∃ e, result = .error e) ∨
    ∃ active blocks, m.bindings.lookup context = some active ∧ active.id = binding ∧
      (deviceBlocks .invalidComposite active.representations).run m = .returns (.ok blocks) m ∧
      m' = publishTable context ⟨⟨m.nextId⟩, binding, active.mapping, executorMapping, blocks⟩
        { m with nextId := m.nextId + 1 } ∧ result = .ok ⟨m.nextId⟩ := by
  unfold publishDeviceBlockTable at h
  rw [Call.run_read_bind] at h
  rcases Call.of_require_bind h with ⟨_, rfl, rfl⟩ | ⟨active, hactive, h⟩
  · exact Or.inl ⟨rfl, _, rfl⟩
  rcases Call.of_check_bind h with ⟨_, rfl, rfl⟩ | ⟨hbinding, h⟩
  · exact Or.inl ⟨rfl, _, rfl⟩
  have hstored : ∀ k ∈ active.representations, ∃ r, m.representations.lookup k = some r := by
    intro k hk
    obtain ⟨r, hr, _⟩ := (hm.bound context active hactive).2 k hk
    exact ⟨r, hr⟩
  obtain ⟨listed, hblocks, _⟩ := deviceBlocks_run m .invalidComposite active.representations hstored
  rcases Call.of_bind h with ⟨e, he, rfl⟩ | ⟨blocks, m1, hb, h⟩
  · rw [hblocks] at he
    cases he
    exact Or.inl ⟨rfl, _, rfl⟩
  · rw [hblocks] at hb
    cases hb
    obtain ⟨_, h⟩ := of_identity_bind h
    cases h
    exact Or.inr ⟨active, blocks, hactive, of_decide_eq_true hbinding, hblocks, rfl, rfl⟩

theorem publishDeviceBlockTable_published (hm : Owned m) {context : LogicalStore.LogicalContextId}
    {binding : ActiveBindingId} {executorMapping : ℕ} {result : Except Error DeviceBlockTableId}
    (h : (publishDeviceBlockTable context binding executorMapping).run m = .returns result m') :
    Published m m' := by
  rcases publishDeviceBlockTable_cases hm h with ⟨rfl, _⟩ | ⟨active, blocks, _, _, _, rfl, _⟩
  · exact Published.refl _
  · exact (published_identity m).trans (published_table _ context _)

end Cusco.PhysicalSteps
