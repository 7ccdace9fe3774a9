import Cusco.PhysicalRuns

/-!
Honouring prepared reservations. A transfer lands when its bytes fit beside the
protected ones, so the transfers of a transition are safe while the protected
bytes and the bytes they still bring fit together. Admission compares other sums:
a later preparation may protect warm bytes, and another arrival may add protected
ones, that an earlier reservation relied on evicting. Reservations are honoured
along every run in which these steps leave the room that is still promised.
-/

namespace Cusco.HonouredReservations

open Calls Physical Physical.PhysicalManager DeviceEviction PhysicalEffects PhysicalOwners
open PhysicalSteps PhysicalTransitions PhysicalTransfers PhysicalPreparations PhysicalRuns Runs

variable {m m' : PhysicalManager} {t : PreparedTransition} {i : PreparedTransitionId}

/-- A transfer of the transition is bringing the representation to the device. -/
def awaits (m : PhysicalManager) (t : PreparedTransition) (k : PhysicalRepresentationId) : Bool :=
  t.transfers.any (fun x => (m.transfers.lookup x).any (fun y =>
    y.representation = k && !y.completed))

/-- The bytes that the transfers of a transition still bring to the device. -/
def demand (m : PhysicalManager) (t : PreparedTransition) : ℕ :=
  m.representations.total (fun k r =>
    if r.device = false ∧ awaits m t k = true then r.bytes else 0)

/-- The same bytes but for one representation. -/
def demandWithout (m : PhysicalManager) (t : PreparedTransition)
    (k : PhysicalRepresentationId) : ℕ :=
  m.representations.total (fun j r =>
    if j ≠ k ∧ r.device = false ∧ awaits m t j = true then r.bytes else 0)

/-- Complete transfers one after the other. -/
def completeTransfers : List TransferId → Operation Unit
  | [] => pure ()
  | x :: rest => do
    completeTransfer x true
    completeTransfers rest

/-- Completing any of the transfers, in any order, returns without an error. -/
def Honoured (m : PhysicalManager) (t : PreparedTransition) : Prop :=
  ∀ xs, (∀ x ∈ xs, x ∈ t.transfers) → ∃ m', (completeTransfers xs).run m = .returns (.ok ()) m'

/-- The bytes a preparation protects: listed, unprotected and not evicted for it. -/
def newlyPinned (m : PhysicalManager) (ids : List PhysicalRepresentationId) : ℕ :=
  m.representations.total (fun k r => if k ∈ ids ∧ r.references.isProtected = false ∧
    (afterSpace m (missingBytes m ids) r).device = true then r.bytes else 0)

/-- The bytes that the transfers of a preparation are to bring. -/
def newDemand (m : PhysicalManager) (ids : List PhysicalRepresentationId) : ℕ :=
  m.representations.total (fun k r => if k ∈ ids ∧
    promotable (afterSpace m (missingBytes m ids) r) = true then r.bytes else 0)

/-- What a preparation protects leaves the room promised before, and its own. -/
def PrepareFits (m : PhysicalManager) (ids : List PhysicalRepresentationId) : Prop :=
  (∀ j u, m.transitions.lookup j = some u →
    pinnedBytes m + newlyPinned m ids + demand m u ≤ m.capacity.deviceBytes) ∧
  pinnedBytes m + newlyPinned m ids + newDemand m ids ≤ m.capacity.deviceBytes

/-- A representation that lands leaves the room promised to the other arrivals. -/
def LandingFits (m : PhysicalManager) (k : PhysicalRepresentationId)
    (r : PhysicalRepresentation) : Prop :=
  r.device = false → pinnedBytes m + r.bytes ≤ m.capacity.deviceBytes →
    ∀ j u, m.transitions.lookup j = some u →
      pinnedBytes m + r.bytes + demandWithout m u k ≤ m.capacity.deviceBytes

/-- Preparations and arrivals leave the room that is still promised. The arrival of
a representation that nothing protects afterwards takes none. -/
def KeepsReservations (m : PhysicalManager) : Action → Prop
  | .prepareTransition context revision mapping representedEnd required ids allowRecompute =>
    (∃ result m', (prepareTransition context revision mapping representedEnd required ids
      allowRecompute).run m = .returns (.ok result) m') → PrepareFits m ids
  | .completeTransfer x true => ∀ y r, m.transfers.lookup x = some y → y.completed = false →
    m.representations.lookup y.representation = some r →
      (r.references.active ≠ 0 ∨ r.references.reservations ≠ 0 ∨ r.references.transfers ≠ 1) →
        LandingFits m y.representation r
  | .completeRecompute i k => ∀ t r, m.transitions.lookup i = some t →
    t.transitionClass = .recompute → k ∈ t.representations →
      m.representations.lookup k = some r → LandingFits m k r
  | _ => True

/-- The protected bytes and the bytes still to come fit, for every transition. -/
def Promised (m : PhysicalManager) : Prop :=
  ∀ i t, m.transitions.lookup i = some t → pinnedBytes m + demand m t ≤ m.capacity.deviceBytes

theorem awaits_iff (m : PhysicalManager) (t : PreparedTransition)
    (k : PhysicalRepresentationId) : awaits m t k = true ↔ ∃ x ∈ t.transfers, ∃ y,
      m.transfers.lookup x = some y ∧ y.representation = k ∧ y.completed = false := by
  unfold awaits
  simp only [List.any_eq_true, Option.any_eq_true, Bool.and_eq_true, decide_eq_true_eq,
    Bool.not_eq_true']

/-- A representation that is awaited is protected by the transfer. -/
theorem isProtected_of_awaits {m : PhysicalManager} (h : Owned m) {k : PhysicalRepresentationId}
    (hk : awaits m t k = true) {r : PhysicalRepresentation}
    (hr : m.representations.lookup k = some r) : r.references.isProtected = true := by
  obtain ⟨x, _, y, hy, rfl, hmoving⟩ := (awaits_iff m t k).mp hk
  rw [isProtected_iff]
  exact Or.inr (Or.inr (h.transfers_pos hy hmoving hr))

/-- The bytes a representation adds to the protected device bytes. -/
def pinned (r : PhysicalRepresentation) : ℕ :=
  if r.device = true ∧ r.references.isProtected = true then r.bytes else 0

theorem pinnedBytes_eq (m : PhysicalManager) :
    pinnedBytes m = m.representations.total (fun _ r => pinned r) := by
  unfold pinnedBytes bytesWhere
  apply AList.total_congr
  intro k r _
  exact if_congr (by rw [Bool.and_eq_true]) rfl rfl

theorem pinned_mono {r r' : PhysicalRepresentation} (hbytes : r'.bytes = r.bytes)
    (h : r'.device = true → r'.references.isProtected = true →
      r.device = true ∧ r.references.isProtected = true) : pinned r' ≤ pinned r := by
  unfold pinned
  by_cases hpinned : r'.device = true ∧ r'.references.isProtected = true
  · rw [if_pos hpinned, if_pos (h hpinned.1 hpinned.2), hbytes]
  · rw [if_neg hpinned]
    exact Nat.zero_le _

theorem pinnedBytes_mono
    {g : PhysicalRepresentationId → PhysicalRepresentation → PhysicalRepresentation}
    (hrewrites : AList.Rewrites m.representations m'.representations g)
    (hg : ∀ k r, m.representations.lookup k = some r → pinned (g k r) ≤ pinned r) :
    pinnedBytes m' ≤ pinnedBytes m := by
  rw [pinnedBytes_eq, pinnedBytes_eq, hrewrites.total]
  exact AList.total_mono _ _ _ hg

theorem demand_mono {g : PhysicalRepresentationId → PhysicalRepresentation → PhysicalRepresentation}
    (hrewrites : AList.Rewrites m.representations m'.representations g)
    (hawaits : ∀ k, awaits m' t k = true → awaits m t k = true)
    (hg : ∀ k r, m.representations.lookup k = some r → awaits m t k = true →
      (g k r).bytes = r.bytes ∧ ((g k r).device = false → r.device = false)) :
    demand m' t ≤ demand m t := by
  unfold demand
  rw [hrewrites.total]
  apply AList.total_mono
  intro k r hr
  by_cases hk : (g k r).device = false ∧ awaits m' t k = true
  · have hbefore := hawaits k hk.2
    obtain ⟨hbytes, hdevice⟩ := hg k r hr hbefore
    rw [if_pos hk, if_pos ⟨hdevice hk.1, hbefore⟩, hbytes]
  · rw [if_neg hk]
    exact Nat.zero_le _

/-- No more bytes are protected, and none are added to what a transition awaits. -/
structure Eases (m m' : PhysicalManager) (t : PreparedTransition) : Prop where
  pinned : pinnedBytes m' ≤ pinnedBytes m
  demand : demand m' t ≤ demand m t

theorem Eases.trans {a b c : PhysicalManager} (hab : Eases a b t) (hbc : Eases b c t) :
    Eases a c t :=
  ⟨hbc.pinned.trans hab.pinned, hbc.demand.trans hab.demand⟩

theorem eases_quiet (hq : Quiet m m') (h : Owned m) (t : PreparedTransition) : Eases m m' t := by
  obtain ⟨g, hrewrites, hg⟩ := hq.rewrites
  have hpinned : pinnedBytes m' ≤ pinnedBytes m := by
    refine pinnedBytes_mono hrewrites ?_
    intro k r hr
    obtain ⟨hunnoticed, hback⟩ := hg k r hr
    refine pinned_mono hunnoticed.bytes ?_
    intro hdevice hprotected
    refine ⟨hback hdevice, ?_⟩
    rw [isProtected_iff] at hprotected ⊢
    rw [hunnoticed.active, hunnoticed.reservations, hunnoticed.transfers] at hprotected
    exact hprotected
  have hdemand : demand m' t ≤ demand m t := by
    refine demand_mono hrewrites ?_ ?_
    · obtain ⟨representations, metrics, rfl⟩ := hq.frame
      exact fun _ hk => hk
    · intro k r hr hk
      obtain ⟨hunnoticed, _⟩ := hg k r hr
      refine ⟨hunnoticed.bytes, ?_⟩
      intro hgone
      by_contra hdevice
      rw [Bool.not_eq_false] at hdevice
      rw [hunnoticed.device (isProtected_of_awaits h hk hr) hdevice] at hgone
      cases hgone
  exact ⟨hpinned, hdemand⟩

theorem eases_registered (hr : Registered m m') (h : Owned m) (t : PreparedTransition) :
    Eases m m' t := by
  obtain ⟨m1, r, hquiet, hid, hreferences, rfl⟩ := hr
  have howned := hquiet.owned h
  refine (eases_quiet hquiet h t).trans ⟨?_, ?_⟩
  · rw [pinnedBytes_eq, pinnedBytes_eq]
    refine le_of_eq ((AList.total_insert_new _ m1.representations _ r
      howned.fresh_representation).trans ?_)
    have hfree : pinned r = 0 := by
      simp [pinned, hreferences, ReferenceCounts.isProtected]
    rw [hfree, Nat.zero_add]
  · refine le_of_eq ((AList.total_insert_new _ m1.representations _ r
      howned.fresh_representation).trans ?_)
    rw [if_neg, Nat.zero_add]
    · rfl
    · rintro ⟨_, hk⟩
      obtain ⟨x, _, y, hy, hfresh, hmoving⟩ := (awaits_iff _ t _).mp hk
      obtain ⟨q, hq, _⟩ := howned.moving x y hy hmoving
      rw [hfresh, howned.fresh_representation] at hq
      cases hq

theorem eases_erased {k : PhysicalRepresentationId} (he : Erased m k m') (t : PreparedTransition) :
    Eases m m' t := by
  obtain ⟨metrics, rfl⟩ := he.frame
  refine ⟨?_, ?_⟩
  · rw [pinnedBytes_eq, pinnedBytes_eq]
    exact AList.total_erase_le _ m.representations k
  · exact AList.total_erase_le (fun j r =>
      if r.device = false ∧ awaits m t j = true then r.bytes else 0) m.representations k

theorem eases_published (hp : Published m m') (t : PreparedTransition) : Eases m m' t := by
  obtain ⟨n, tables, metrics, rfl⟩ := hp.frame
  exact ⟨le_refl _, le_refl _⟩

theorem eases_grown {bytes : ℕ} (hg : Grown m bytes m') (h : Owned m) (t : PreparedTransition) :
    Eases m m' t := by
  obtain ⟨_, m1, hquiet, rfl⟩ := hg
  have heases := eases_quiet hquiet h t
  exact ⟨heases.pinned, heases.demand⟩

/-- Only counts changed, and none went up. -/
theorem eases_released
    {g : PhysicalRepresentationId → PhysicalRepresentation → PhysicalRepresentation}
    (hrewrites : AList.Rewrites m.representations m'.representations g)
    (hawaits : ∀ k, awaits m' t k = true → awaits m t k = true)
    (hg : ∀ k r, m.representations.lookup k = some r → (g k r).bytes = r.bytes ∧
      (g k r).device = r.device ∧
      ((g k r).references.isProtected = true → r.references.isProtected = true)) :
    Eases m m' t := by
  refine ⟨pinnedBytes_mono hrewrites ?_, demand_mono hrewrites hawaits ?_⟩
  · intro k r hr
    obtain ⟨hbytes, hdevice, hprotected⟩ := hg k r hr
    refine pinned_mono hbytes ?_
    rw [hdevice]
    exact fun hd hp => ⟨hd, hprotected hp⟩
  · intro k r hr _
    obtain ⟨hbytes, hdevice, _⟩ := hg k r hr
    rw [hdevice]
    exact ⟨hbytes, fun hd => hd⟩

theorem eases_unbound {c : Context} (hu : Unbound m c m') (t : PreparedTransition) :
    Eases m m' t := by
  refine eases_released hu.rewrites ?_ ?_
  · obtain ⟨_, _, _, rfl⟩ := hu.frame
    exact fun _ hk => hk
  · intro k r _
    refine ⟨rfl, rfl, ?_⟩
    rw [isProtected_iff, isProtected_iff]
    change 0 < r.references.active - oldUse m c k ∨ _ → _
    rintro (hactive | hrest)
    · exact Or.inl (by omega)
    · exact Or.inr hrest

theorem eases_committed (hc : Committed m i t m') (h : Owned m)
    (ht : m.transitions.lookup i = some t) (u : PreparedTransition) : Eases m m' u := by
  have hrewrites := hc.rewrites
  refine eases_released hrewrites ?_ ?_
  · intro k hk
    obtain ⟨x, hx, y, hy, hsame, hmoving⟩ := (awaits_iff m' u k).mp hk
    obtain ⟨_, _, _, rfl⟩ := hc.frame
    change (m.transfers.eraseAll t.transfers).lookup x = some y at hy
    rw [AList.lookup_eraseAll] at hy
    split at hy
    · cases hy
    · exact (awaits_iff m u k).mpr ⟨x, hx, y, hy, hsame, hmoving⟩
  · intro k r hr
    refine ⟨rfl, rfl, ?_⟩
    rw [isProtected_iff, isProtected_iff]
    change 0 < r.references.active - oldUse m t.context k + t.representations.count k ∨
      0 < r.references.reservations - t.representations.count k ∨ _ → _
    -- A listed representation was reserved before, so it was protected.
    have hreserved := (h.counted k r hr).2.1
    rw [reservationOwners_erase m ht k] at hreserved
    rintro (hactive | hreservations | htransfers)
    · by_cases hk : t.representations.count k = 0
      · exact Or.inl (by omega)
      · exact Or.inr (Or.inl (by omega))
    · exact Or.inr (Or.inl (by omega))
    · exact Or.inr (Or.inr htransfers)

theorem eases_aborted (ha : Aborted m i t m') (u : PreparedTransition) : Eases m m' u := by
  refine eases_released ha.rewrites ?_ ?_
  · intro k hk
    obtain ⟨x, hx, y, hy, hsame, hmoving⟩ := (awaits_iff m' u k).mp hk
    rw [ha.transfers x] at hy
    obtain ⟨z, hz, hbind⟩ := Option.bind_eq_some_iff.mp hy
    refine (awaits_iff m u k).mpr ⟨x, hx, z, hz, ?_⟩
    split at hbind
    · unfold detached at hbind
      split at hbind
      · cases hbind
      · cases hbind
        exact ⟨hsame, hmoving⟩
    · cases hbind
      exact ⟨hsame, hmoving⟩
  · intro k r _
    refine ⟨rfl, rfl, ?_⟩
    rw [isProtected_iff, isProtected_iff]
    change _ ∨ 0 < r.references.reservations - t.representations.count k ∨ _ → _
    rintro (hactive | hreservations | htransfers)
    · exact Or.inl hactive
    · exact Or.inr (Or.inl (by omega))
    · exact Or.inr (Or.inr htransfers)

theorem pinned_afterSpace (m : PhysicalManager) (bytes : ℕ) (r : PhysicalRepresentation) :
    pinned (afterSpace m bytes r) ≤ pinned r := by
  refine pinned_mono (afterSpace_bytes m bytes r) ?_
  intro hdevice hprotected
  refine ⟨((afterSpace_device m bytes r).mp hdevice).1, ?_⟩
  unfold afterSpace leaving at hprotected
  split at hprotected <;> exact hprotected

/-- Making room leaves a protected representation where it is. -/
theorem afterSpace_of_protected (m : PhysicalManager) (bytes : ℕ) {r : PhysicalRepresentation}
    (h : r.references.isProtected = true) : afterSpace m bytes r = r := by
  unfold afterSpace leaving
  rw [if_neg]
  intro hevicts
  rw [isProtected_of_evicts m bytes r hevicts] at h
  cases h

section Landing

variable {k : PhysicalRepresentationId} {bytes : ℕ} (hl : Landed m k bytes m')
  {r : PhysicalRepresentation} (hr : m.representations.lookup k = some r)

include hl

theorem pinnedBytes_landed (hr : m.representations.lookup k = some r) :
    pinnedBytes m' ≤ pinnedBytes m + r.bytes := by
  rw [pinnedBytes_eq, pinnedBytes_eq, hl.rewrites.total,
    ← AList.total_single (fun q : PhysicalRepresentation => q.bytes) m.representations k r hr,
    ← AList.total_add]
  apply AList.total_mono
  intro j q _
  by_cases hjk : j = k
  · rw [if_pos hjk, if_pos hjk]
    refine le_trans ?_ (Nat.le_add_left _ _)
    unfold pinned
    split
    · exact le_refl _
    · exact Nat.zero_le _
  · rw [if_neg hjk, if_neg hjk]
    exact pinned_afterSpace m bytes q

theorem awaits_landed (t : PreparedTransition) (j : PhysicalRepresentationId) :
    awaits m' t j = awaits m t j := by
  obtain ⟨representations, metrics, rfl⟩ := hl.frame
  rfl

theorem demand_landed (h : Owned m) (t : PreparedTransition) :
    demand m' t ≤ demandWithout m t k := by
  unfold demand demandWithout
  rw [hl.rewrites.total]
  apply AList.total_mono
  intro j q hj
  rw [awaits_landed hl t j]
  by_cases hjk : j = k
  · rw [if_pos hjk, if_neg (fun hboth => nomatch hboth.1)]
    exact Nat.zero_le _
  · rw [if_neg hjk]
    by_cases hawaited : awaits m t j = true
    · rw [afterSpace_of_protected m bytes (isProtected_of_awaits h hawaited hj)]
      exact le_of_eq (if_congr (by simp [hjk]) rfl rfl)
    · rw [if_neg (fun hboth => hawaited hboth.2)]
      exact Nat.zero_le _

end Landing

theorem demandWithout_le (m : PhysicalManager) (t : PreparedTransition)
    (k : PhysicalRepresentationId) : demandWithout m t k ≤ demand m t := by
  apply AList.total_mono
  intro j r _
  by_cases hj : j ≠ k ∧ r.device = false ∧ awaits m t j = true
  · rw [if_pos hj, if_pos hj.2]
  · rw [if_neg hj]
    exact Nat.zero_le _

/-- What is awaited and off the device is part of the demand. -/
theorem demand_split {m : PhysicalManager} {k : PhysicalRepresentationId}
    {r : PhysicalRepresentation} (hr : m.representations.lookup k = some r)
    (hdevice : r.device = false) (hawaited : awaits m t k = true) :
    demand m t = demandWithout m t k + r.bytes := by
  unfold demand demandWithout
  rw [← AList.total_single (fun q : PhysicalRepresentation => q.bytes) m.representations k r hr,
    ← AList.total_add]
  apply AList.total_congr
  intro j q hj
  by_cases hjk : j = k
  · subst hjk
    cases hr.symm.trans hj
    simp [hdevice, hawaited]
  · simp [hjk]

theorem eases_settled {x : TransferId} {y : Transfer} {success : Bool}
    (hs : Settled m x y success m') (t : PreparedTransition) : Eases m m' t := by
  refine eases_released hs.rewrites ?_ ?_
  · intro k hk
    obtain ⟨z, hz, w, hw, hsame, hmoving⟩ := (awaits_iff m' t k).mp hk
    rw [hs.transfers z] at hw
    refine (awaits_iff m t k).mpr ⟨z, hz, w, ?_, hsame, hmoving⟩
    split at hw
    · split at hw
      · cases hw
      · cases hw
        cases hmoving
    · exact hw
  · intro k r _
    by_cases hk : k = y.representation
    · rw [if_pos hk]
      refine ⟨rfl, rfl, ?_⟩
      rw [isProtected_iff, isProtected_iff]
      change _ ∨ _ ∨ 0 < r.references.transfers - 1 → _
      rintro (hactive | hreservations | htransfers)
      · exact Or.inl hactive
      · exact Or.inr (Or.inl hreservations)
      · exact Or.inr (Or.inr (by omega))
    · rw [if_neg hk]
      exact ⟨rfl, rfl, fun hprotected => hprotected⟩

/-- A transfer that was the last protection of its representation frees its bytes. -/
theorem pinnedBytes_settled {x : TransferId} {y : Transfer} {success : Bool}
    (hs : Settled m x y success m') {r : PhysicalRepresentation}
    (hr : m.representations.lookup y.representation = some r) (hdevice : r.device = true)
    (hlast : r.references.active = 0 ∧ r.references.reservations = 0 ∧ r.references.transfers = 1) :
    pinnedBytes m' + r.bytes ≤ pinnedBytes m := by
  rw [pinnedBytes_eq, pinnedBytes_eq, hs.rewrites.total,
    ← AList.total_single (fun q : PhysicalRepresentation => q.bytes) m.representations _ r hr,
    ← AList.total_add]
  apply AList.total_mono
  intro k q hk
  by_cases hky : k = y.representation
  · subst hky
    cases hr.symm.trans hk
    rw [if_pos rfl, if_pos rfl]
    have hfree : pinned { r with references :=
        { r.references with transfers := r.references.transfers - 1 } } = 0 := by
      unfold pinned
      rw [if_neg]
      rw [isProtected_iff]
      change ¬ (_ ∧ (0 < r.references.active ∨ 0 < r.references.reservations ∨
        0 < r.references.transfers - 1))
      omega
    have hpinned : pinned r = r.bytes := by
      unfold pinned
      rw [if_pos]
      rw [isProtected_iff]
      exact ⟨hdevice, Or.inr (Or.inr (by omega))⟩
    rw [hfree, hpinned, Nat.zero_add]
  · rw [if_neg hky, if_neg hky, Nat.add_zero]

section Prepared

variable (hp : Prepared m t m')

include hp

theorem pinnedBytes_prepared :
    pinnedBytes m' ≤ pinnedBytes m + newlyPinned m t.representations := by
  obtain ⟨m1, hspaced, hreserved⟩ := hp.admitted
  rw [pinnedBytes_eq, pinnedBytes_eq, (hspaced.rewrites.trans hreserved.rewrites).total]
  unfold newlyPinned
  rw [← hp.missing, ← AList.total_add]
  apply AList.total_mono
  intro k r _
  by_cases hk : k ∈ t.representations
  · rw [if_pos hk]
    have hafter : pinned (reserved (afterSpace m t.reservedBytes r)) ≤
        if (afterSpace m t.reservedBytes r).device = true then r.bytes else 0 := by
      unfold pinned
      split
      · rename_i hboth
        have hdevice : (afterSpace m t.reservedBytes r).device = true := hboth.1
        rw [if_pos hdevice]
        exact le_of_eq (afterSpace_bytes m t.reservedBytes r)
      · exact Nat.zero_le _
    refine hafter.trans ?_
    by_cases hdevice : (afterSpace m t.reservedBytes r).device = true
    · rw [if_pos hdevice]
      by_cases hprotected : r.references.isProtected = true
      · have hpinned : pinned r = r.bytes := by
          unfold pinned
          rw [if_pos ⟨((afterSpace_device m _ r).mp hdevice).1, hprotected⟩]
        rw [hpinned]
        exact Nat.le_add_right _ _
      · rw [Bool.not_eq_true] at hprotected
        rw [if_pos ⟨hk, hprotected, hdevice⟩]
        exact Nat.le_add_left _ _
    · rw [if_neg hdevice]
      exact Nat.zero_le _
  · rw [if_neg hk]
    exact (pinned_afterSpace m t.reservedBytes r).trans (Nat.le_add_right _ _)

/-- What was awaited before is awaited still, and no more is. -/
theorem demand_prepared (h : Owned m) {u : PreparedTransition}
    (hu : m.transitions.lookup i = some u) : demand m' u ≤ demand m u := by
  obtain ⟨m1, hspaced, hreserved⟩ := hp.admitted
  have hlookup : ∀ x y, m.transfers.lookup x = some y → m'.transfers.lookup x = some y := by
    intro x y hy
    have howned := hspaced.quiet.owned h
    obtain ⟨representations, metrics, rfl⟩ := hspaced.frame
    obtain ⟨representations', metrics', rfl⟩ := hreserved.frame
    exact startTransfers_of_lookup howned _ hy
  have hawaits : ∀ k, awaits m' u k = true → awaits m u k = true := by
    intro k hk
    obtain ⟨x, hx, y, hy, hsame, hmoving⟩ := (awaits_iff m' u k).mp hk
    obtain ⟨z, hz, _⟩ := (h.linked i u hu).2 x hx
    cases hy.symm.trans (hlookup x z hz)
    exact (awaits_iff m u k).mpr ⟨x, hx, y, hz, hsame, hmoving⟩
  refine demand_mono (hspaced.rewrites.trans hreserved.rewrites) hawaits ?_
  intro k r hr hk
  rw [afterSpace_of_protected m _ (isProtected_of_awaits h hk hr)]
  split <;> exact ⟨rfl, fun hd => hd⟩

theorem demand_started : demand m' t ≤ newDemand m t.representations := by
  obtain ⟨m1, hspaced, hreserved⟩ := hp.admitted
  unfold demand newDemand
  rw [(hspaced.rewrites.trans hreserved.rewrites).total, ← hp.missing]
  apply AList.total_mono
  intro k r hr
  by_cases hk : awaits m' t k = true
  · obtain ⟨x, hx, y, hy, hsame, hmoving⟩ := (awaits_iff m' t k).mp hk
    have hpromotable := promotable_of_moving hp hr ⟨hx, y, hy, hsame, hmoving⟩
    obtain ⟨j, hj, _, z, hz, hjz, _⟩ := moving_of_mem hp hx
    cases hy.symm.trans hz
    rw [hsame] at hjz
    rw [← hjz] at hj
    rw [if_pos hj, if_pos (c := k ∈ t.representations ∧ _) ⟨hj, hpromotable⟩]
    split
    · exact le_of_eq (afterSpace_bytes m t.reservedBytes r)
    · exact Nat.zero_le _
  · rw [if_neg (fun hboth => hk hboth.2)]
    exact Nat.zero_le _

end Prepared

/-- A transition whose transfers find room. -/
structure Kept (m : PhysicalManager) (i : PreparedTransitionId) (t : PreparedTransition) :
    Prop where
  owned : Owned m
  found : m.transitions.lookup i = some t
  fits : pinnedBytes m + demand m t ≤ m.capacity.deviceBytes

/-- A transfer of the transition is never refused, and leaves room for the others. -/
theorem Kept.complete {m : PhysicalManager} (h : Kept m i t) {x : TransferId}
    (hx : x ∈ t.transfers) :
    ∃ m', (completeTransfer x true).run m = .returns (.ok ()) m' ∧ Kept m' i t := by
  obtain ⟨y, hy, hattached, hmem, _⟩ := (h.owned.linked i t h.found).2 x hx
  by_cases hcompleted : y.completed = true
  · refine ⟨m, ?_, h⟩
    unfold completeTransfer
    rw [Call.run_read_bind, hy, Call.run_require_some_bind, if_pos hcompleted, Call.run_pure]
  · have hmoving : y.completed = false := Bool.not_eq_true _ ▸ hcompleted
    have hawaited : awaits m t y.representation = true :=
      (awaits_iff m t _).mpr ⟨x, hx, y, hy, rfl, hmoving⟩
    have hcan : CanLand m y true := by
      intro _ r hr hdevice
      obtain ⟨q, hq, hbytes⟩ := h.owned.moving x y hy hmoving
      cases hr.symm.trans hq
      have hsplit := demand_split hr hdevice hawaited
      have hfits := h.fits
      omega
    rcases completeTransfer_run h.owned hy hmoving true with ⟨_, m', hdone, hrun⟩ | ⟨hcannot, _⟩
    · refine ⟨m', hrun, hdone.owned h.owned hy hmoving, ?_, ?_⟩
      · obtain ⟨m1, hreceived, hsettled⟩ := hdone
        obtain ⟨_, _, _, rfl⟩ := hsettled.frame
        rcases hreceived with ⟨metrics, rfl, _⟩ | ⟨_, hlanded⟩
        · exact h.found
        · obtain ⟨_, _, rfl⟩ := hlanded.frame
          exact h.found
      · rw [(later_completed hdone).capacity]
        obtain ⟨m1, hreceived, hsettled⟩ := hdone
        have heases := eases_settled hsettled t
        have hfits := h.fits
        rcases hreceived with ⟨metrics, rfl, _⟩ | ⟨_, hlanded⟩
        · exact (Nat.add_le_add heases.pinned heases.demand).trans hfits
        · obtain ⟨r, hr, hdevice⟩ := hlanded.absent
          have hpinned := pinnedBytes_landed hlanded hr
          have hdemand := demand_landed hlanded h.owned t
          have hsplit := demand_split hr hdevice hawaited
          have hpinned' := heases.pinned
          have hdemand' := heases.demand
          omega
    · exact absurd hcan hcannot

theorem Kept.honoured {m : PhysicalManager} (h : Kept m i t) : Honoured m t := by
  intro xs hxs
  induction xs generalizing m with
  | nil => exact ⟨m, rfl⟩
  | cons x rest ih =>
    obtain ⟨m1, hrun, hkept⟩ := h.complete (hxs x List.mem_cons_self)
    obtain ⟨m2, hrun'⟩ := ih hkept (fun z hz => hxs z (List.mem_cons_of_mem x hz))
    refine ⟨m2, ?_⟩
    unfold completeTransfers
    rw [Call.run_bind_ok hrun]
    exact hrun'

theorem promised_of_eases (h : Promised m) (hcapacity : m'.capacity = m.capacity)
    (htransitions : ∀ i t, m'.transitions.lookup i = some t → m.transitions.lookup i = some t)
    (heases : ∀ t, Eases m m' t) : Promised m' := by
  intro i t ht
  rw [hcapacity]
  have hfits := h i t (htransitions i t ht)
  have hpinned := (heases t).pinned
  have hdemand := (heases t).demand
  omega

theorem promised_quiet (h : Promised m) (hm : Owned m) (hq : Quiet m m') : Promised m' := by
  refine promised_of_eases h (later_quiet hq).capacity ?_ (eases_quiet hq hm)
  obtain ⟨_, _, rfl⟩ := hq.frame
  exact fun _ _ ht => ht

/-- A landing that keeps its promise, with every later easing, keeps all of them. -/
theorem promised_landed {m m1 m' : PhysicalManager} (h : Owned m)
    {k : PhysicalRepresentationId} {bytes : ℕ} (hl : Landed m k bytes m1)
    {r : PhysicalRepresentation} (hr : m.representations.lookup k = some r)
    (hbytes : bytes = r.bytes) (hfits : LandingFits m k r) (hcapacity : m'.capacity = m.capacity)
    (htransitions : ∀ i t, m'.transitions.lookup i = some t → m.transitions.lookup i = some t)
    (heases : ∀ t, Eases m1 m' t) : Promised m' := by
  intro i t ht
  obtain ⟨q, hq, hdevice⟩ := hl.absent
  cases hr.symm.trans hq
  have hroom := hl.room
  rw [hbytes] at hroom
  have hpromise := hfits hdevice hroom i t (htransitions i t ht)
  have hpinned := pinnedBytes_landed hl hr
  have hdemand := demand_landed hl h t
  have hpinned' := (heases t).pinned
  have hdemand' := (heases t).demand
  rw [hcapacity]
  omega

theorem promised_completed (h : Promised m) (hm : Owned m) {x : TransferId} {y : Transfer}
    {success : Bool} (hy : m.transfers.lookup x = some y) (hmoving : y.completed = false)
    (hc : Completed m x y success m') (hkeeps : KeepsReservations m (.completeTransfer x success)) :
    Promised m' := by
  have hcapacity := (later_completed hc).capacity
  obtain ⟨r, hr, hbytes⟩ := hm.moving x y hy hmoving
  obtain ⟨m1, hreceived, hsettled⟩ := hc
  have heases := eases_settled hsettled
  have htransitions : ∀ i t, m'.transitions.lookup i = some t →
      m.transitions.lookup i = some t := by
    obtain ⟨_, _, _, rfl⟩ := hsettled.frame
    rcases hreceived with ⟨metrics, rfl, _⟩ | ⟨_, hlanded⟩
    · exact fun _ _ ht => ht
    · obtain ⟨_, _, rfl⟩ := hlanded.frame
      exact fun _ _ ht => ht
  rcases hreceived with ⟨metrics, rfl, _⟩ | ⟨rfl, hlanded⟩
  · exact promised_of_eases h hcapacity htransitions
      (fun t => ⟨(heases t).pinned, (heases t).demand⟩)
  · by_cases hstays : r.references.active ≠ 0 ∨ r.references.reservations ≠ 0 ∨
        r.references.transfers ≠ 1
    · exact promised_landed hm hlanded hr hbytes (hkeeps y r hy hmoving hr hstays) hcapacity
        htransitions heases
    · -- Nothing protects the representation afterwards, so its bytes are free again.
      have hfreed := pinnedBytes_settled hsettled (hlanded.rewrites.lookup_some hr)
        (by rw [if_pos rfl]) (by
          rw [if_pos rfl]
          change r.references.active = 0 ∧ r.references.reservations = 0 ∧
            r.references.transfers = 1
          omega)
      rw [if_pos rfl] at hfreed
      have hfreed' : pinnedBytes m' + r.bytes ≤ pinnedBytes m1 := hfreed
      intro i t ht
      have hfits := h i t (htransitions i t ht)
      have hpinned := pinnedBytes_landed hlanded hr
      have hdemand := demand_landed hlanded hm t
      have hwithout := demandWithout_le m t y.representation
      have hdemand' := (heases t).demand
      rw [hcapacity]
      omega

theorem promised_commit (h : Promised m) (hm : Owned m) {revision : ℕ}
    (hc : CommitEffect m i revision m') : Promised m' := by
  have hcapacity := (later_commit hc).capacity
  rcases hc with ⟨rfl, _⟩ | ⟨t, m1, m2, ht, _, hbefore, hcommitted, hafter⟩
  · exact h
  · refine promised_of_eases h hcapacity ?_ ?_
    · obtain ⟨_, _, _, rfl⟩ := hbefore.frame
      obtain ⟨_, _, _, rfl⟩ := hcommitted.frame
      obtain ⟨_, _, _, rfl⟩ := hafter.frame
      exact fun j u hu => (lookup_erase_transition hu).2
    · intro u
      exact ((eases_published hbefore u).trans (eases_committed hcommitted (hbefore.owned hm)
        (transition_of_published hbefore ht) u)).trans (eases_published hafter u)

theorem promised_prepared (hm : Owned m) (hp : Prepared m t m')
    (hfits : PrepareFits m t.representations) : Promised m' := by
  have hcapacity := (later_prepared hp).capacity
  have hpinned := pinnedBytes_prepared hp
  have hstored : ∀ j u, m'.transitions.lookup j = some u →
      u = t ∨ m.transitions.lookup j = some u := by
    intro j u hu
    obtain ⟨m1, hspaced, hreserved⟩ := hp.admitted
    obtain ⟨_, _, rfl⟩ := hspaced.frame
    obtain ⟨_, _, rfl⟩ := hreserved.frame
    change (m.transitions.insert ⟨m.nextId⟩ t).lookup j = some u at hu
    rw [AList.lookup_insert_ite] at hu
    split at hu
    · exact Or.inl (Option.some.inj hu).symm
    · exact Or.inr hu
  intro j u hu
  rw [hcapacity]
  rcases hstored j u hu with rfl | hu'
  · have hdemand := demand_started hp
    have hroom := hfits.2
    omega
  · have hdemand := demand_prepared hp hm hu'
    have hroom := hfits.1 j u hu'
    omega

theorem promised_step {a : Action} (h : Promised m) (hm : Owned m) (hkeeps : KeepsReservations m a)
    (hstep : Step m a m') : Promised m' := by
  have heffect := step_effect hm hstep
  have hcapacity := heffect.later.capacity
  cases a with
  | register =>
    rcases heffect with hquiet | hregistered
    · exact promised_quiet h hm hquiet
    · refine promised_of_eases h hcapacity ?_ (eases_registered hregistered hm)
      obtain ⟨m1, r, hquiet, _, _, rfl⟩ := hregistered
      obtain ⟨_, _, rfl⟩ := hquiet.frame
      exact fun _ _ ht => ht
  | releaseLogicalReference =>
    rcases heffect with hquiet | herased
    · exact promised_quiet h hm hquiet
    · refine promised_of_eases h hcapacity ?_ (eases_erased herased)
      obtain ⟨_, rfl⟩ := herased.frame
      exact fun _ _ ht => ht
  | reserveGrowth =>
    rcases heffect with hquiet | hgrown
    · exact promised_quiet h hm hquiet
    · refine promised_of_eases h hcapacity ?_ (eases_grown hgrown hm)
      obtain ⟨_, m1, hquiet, rfl⟩ := hgrown
      obtain ⟨_, _, rfl⟩ := hquiet.frame
      exact fun _ _ ht => ht
  | releaseGrowth =>
    rcases heffect with hquiet | rfl
    · exact promised_quiet h hm hquiet
    · exact promised_of_eases h hcapacity (fun _ _ ht => ht) (fun t => ⟨le_refl _, le_refl _⟩)
  | demoteToHost => exact promised_quiet h hm heffect
  | demoteToStorage => exact promised_quiet h hm heffect
  | evict => exact promised_quiet h hm heffect
  | prepareTransition context revision mapping representedEnd required ids allowRecompute =>
    obtain ⟨result, hrun⟩ := of_returned hstep
    rcases prepareTransition_cases hm hrun with ⟨hquiet, _⟩ | ⟨t, hp, _, _, _, rfl, hresult⟩
    · exact promised_quiet h hm hquiet
    · rw [hresult] at hrun
      exact promised_prepared hm hp (hkeeps ⟨_, m', hrun⟩)
  | completeTransfer x success =>
    rcases heffect with hquiet | ⟨y, hy, hmoving, hcompleted⟩
    · exact promised_quiet h hm hquiet
    · exact promised_completed h hm hy hmoving hcompleted hkeeps
  | completeRecompute i k =>
    rcases heffect with hquiet | ⟨t, r, m1, ht, hclass, hk, hr, hlanded, rfl⟩
    · exact promised_quiet h hm hquiet
    · refine promised_landed hm hlanded hr rfl (hkeeps t r ht hclass hk hr) hcapacity ?_
        (fun t => ⟨le_refl _, le_refl _⟩)
      obtain ⟨_, _, rfl⟩ := hlanded.frame
      exact fun _ _ ht => ht
  | commitTransition => exact promised_commit h hm heffect
  | commitMappedTransition => exact promised_commit h hm heffect
  | publishDeviceBlockTable =>
    refine promised_of_eases h hcapacity ?_ (eases_published heffect)
    obtain ⟨_, _, _, rfl⟩ := Published.frame heffect
    exact fun _ _ ht => ht
  | unbind =>
    rcases heffect with hquiet | hunbound
    · exact promised_quiet h hm hquiet
    · refine promised_of_eases h hcapacity ?_ (eases_unbound hunbound)
      obtain ⟨_, _, _, rfl⟩ := hunbound.frame
      exact fun _ _ ht => ht
  | releaseBinding =>
    rcases heffect with hquiet | hunbound
    · exact promised_quiet h hm hquiet
    · refine promised_of_eases h hcapacity ?_ (eases_unbound hunbound)
      obtain ⟨_, _, _, rfl⟩ := hunbound.frame
      exact fun _ _ ht => ht
  | abortTransition =>
    rcases heffect with ⟨rfl, _⟩ | ⟨t, _, haborted⟩
    · exact h
    · refine promised_of_eases h hcapacity ?_ (eases_aborted haborted)
      obtain ⟨_, _, _, rfl⟩ := haborted.frame
      exact fun j u hu => (lookup_erase_transition hu).2

/-- In every state of a run whose steps leave the promised room, the transfers of
every prepared transition are honoured. -/
theorem reservations_honoured (capacity : Capacity) (run : List (Action × PhysicalManager))
    (hrun : IsRun Step (new capacity) run) (hkeeps : Meets KeepsReservations (new capacity) run) :
    ∀ x ∈ run, ∀ i t, x.2.transitions.lookup i = some t → Honoured x.2 t := by
  have hnone : Promised (new capacity) := by
    intro i t ht
    cases ht
  have halong := along_of_meets Step (fun m => Owned m ∧ Promised m) KeepsReservations
    (fun m a m' h hcond hstep => ⟨owned_step m a m' h.1 hstep, promised_step h.2 h.1 hcond hstep⟩)
    (new capacity) run ⟨owned_new capacity, hnone⟩ hrun hkeeps
  intro x hx i t ht
  obtain ⟨howned, hpromised⟩ := halong x hx
  exact Kept.honoured ⟨howned, ht, hpromised i t ht⟩

def registerHost : Action := .register somePrefix .globalKv 1 6 .host 0

def prepareHost (id : PhysicalRepresentationId) : Action :=
  .prepareTransition ⟨0⟩ 0 somePrefix 1 LogicalStore.ComponentMask.globalKv [id] false

/-- Between the preparation of the six bytes and their arrival something is registered and evicted,
another context prepares two warm bytes, and growth is reserved. -/
def hostMeanwhile : List Action := [
  registerHost,
  prepareHost ⟨1⟩,
  .register somePrefix .recurrent 1 3 .device 0,
  .evict ⟨4⟩ .device,
  .register somePrefix .recurrent 1 2 .device 0,
  .prepareTransition ⟨1⟩ 0 somePrefix 1 LogicalStore.ComponentMask.recurrent [⟨5⟩] false,
  .reserveGrowth 2,
  .completeTransfer ⟨3⟩ true]

/-- A sum of the bytes still to come for each transition fits. -/
def promisesFit (m : PhysicalManager) (bytes : PreparedTransition → ℕ) : Bool :=
  m.transitions.entries.all (fun e => pinnedBytes m + bytes e.2 ≤ m.capacity.deviceBytes)

theorem of_promisesFit {m : PhysicalManager} {bytes : PreparedTransition → ℕ}
    (h : promisesFit m bytes = true) {j : PreparedTransitionId} {u : PreparedTransition}
    (hu : m.transitions.lookup j = some u) : pinnedBytes m + bytes u ≤ m.capacity.deviceBytes :=
  of_decide_eq_true (List.all_eq_true.mp h ⟨j, u⟩ ((AList.mem_entries_iff _ _ _).mpr hu))

/-- Whether a step leaves the promised room, checked without asking if it is refused. -/
def leavesRoom (m : PhysicalManager) : Action → Bool
  | .prepareTransition _ _ _ _ _ ids _ =>
    promisesFit m (fun u => newlyPinned m ids + demand m u) &&
      decide (pinnedBytes m + newlyPinned m ids + newDemand m ids ≤ m.capacity.deviceBytes)
  | .completeTransfer x true => (m.transfers.lookup x).all (fun y =>
      (m.representations.lookup y.representation).all (fun r =>
        promisesFit m (fun u => r.bytes + demandWithout m u y.representation)))
  | .completeRecompute _ _ => false
  | _ => true

theorem keeps_of_leavesRoom {m : PhysicalManager} {a : Action} (h : leavesRoom m a = true) :
    KeepsReservations m a := by
  cases a with
  | prepareTransition context revision mapping representedEnd required ids allowRecompute =>
    obtain ⟨hothers, hown⟩ := Bool.and_eq_true_iff.mp h
    intro _
    refine ⟨?_, of_decide_eq_true hown⟩
    intro j u hu
    have hfits := of_promisesFit hothers hu
    omega
  | completeTransfer x success =>
    cases success with
    | false => trivial
    | true =>
      intro y r hy _ hr _ _ _ j u hu
      simp only [leavesRoom, hy, hr, Option.all_some] at h
      have hfits := of_promisesFit h hu
      omega
  | completeRecompute i k => cases h
  | _ => trivial

theorem host_reservation_honoured :
    ∃ run, IsRun Step (new tenBytes) run ∧ run.map Prod.fst = hostMeanwhile ∧
      pinnedBytes (last (new tenBytes) run) = 8 ∧
      ∀ x ∈ run, ∀ i t, x.2.transitions.lookup i = some t → Honoured x.2 t := by
  have hrun : (trace perform (new tenBytes) hostMeanwhile).any (fun run =>
      decide (Meets (fun m a => leavesRoom m a = true) (new tenBytes) run) &&
      decide (pinnedBytes (last (new tenBytes) run) = 8)) = true := by
    decide +kernel
  obtain ⟨run, htrace, hchecked⟩ := (Option.any_eq_true _ _).mp hrun
  simp only [Bool.and_eq_true, decide_eq_true_eq] at hchecked
  have hsteps := isRun_of_trace _ _ _ _ htrace
  exact ⟨run, hsteps, labels_of_trace _ _ _ _ htrace, hchecked.2, reservations_honoured tenBytes run
    hsteps (meets_imp (fun _ _ => keeps_of_leavesRoom) _ run hchecked.1)⟩

/-- Beside four warm bytes; four more are registered, and another context prepares
all eight warm bytes while the six are on their way. -/
def protectWarm : List Action := [
  .register somePrefix .globalKv 1 4 .device 0,
  registerHost,
  prepareHost ⟨2⟩,
  .register somePrefix .recurrent 1 4 .device 0,
  .prepareTransition ⟨1⟩ 0 somePrefix 1 globalAndRecurrent [⟨1⟩, ⟨5⟩] false]

def refusedWith (e : Error) : Outcome PhysicalManager Error Unit → Bool
  | .returns (.error e') _ => e' = e
  | _ => false

theorem reservation_refused :
    ∃ run t x, IsRun Step (new tenBytes) run ∧
      (last (new tenBytes) run).transitions.lookup ⟨3⟩ = some t ∧ x ∈ t.transfers ∧
      refusedWith .deviceCapacity ((completeTransfer x true).run (last (new tenBytes) run)) =
        true ∧
      ¬ Honoured (last (new tenBytes) run) t := by
  have hrun : (trace perform (new tenBytes) protectWarm).any (fun run =>
      ((last (new tenBytes) run).transitions.lookup ⟨3⟩).any (fun t => t.transfers.any (fun x =>
        refusedWith .deviceCapacity
          ((completeTransfer x true).run (last (new tenBytes) run))))) = true := by
    decide +kernel
  obtain ⟨run, htrace, hfound⟩ := (Option.any_eq_true _ _).mp hrun
  obtain ⟨t, ht, hany⟩ := (Option.any_eq_true _ _).mp hfound
  obtain ⟨x, hx, hrefused⟩ := List.any_eq_true.mp hany
  refine ⟨run, t, x, isRun_of_trace _ _ _ _ htrace, ht, hx, hrefused, ?_⟩
  intro hhonoured
  obtain ⟨m', hall⟩ := hhonoured [x] (fun z hz => List.mem_singleton.mp hz ▸ hx)
  obtain ⟨_, m1, hone, _⟩ := Call.of_bind_ok hall
  rw [hone] at hrefused
  cases hrefused

end Cusco.HonouredReservations
