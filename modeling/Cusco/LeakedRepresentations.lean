import Cusco.TierSteps

/-!
Representations that nothing needs. A representation is removed when its last logical
reference is released, unless an owner still protects it. The calls that take an owner away
do not look at the logical references, so a representation whose owner goes last stays
stored. Every state is free of such representations as long as no call takes the last owner
of a representation without logical references.
-/

namespace Cusco.LeakedRepresentations

open Calls Physical Physical.PhysicalManager DeviceEviction PhysicalEffects PhysicalOwners
open PhysicalSteps PhysicalTransitions PhysicalTransfers PhysicalPreparations PhysicalRuns Runs
open TierSteps

variable {m m' : PhysicalManager}

/-- A binding, a prepared transition or an incomplete transfer names the representation. -/
def Held (m : PhysicalManager) (k : PhysicalRepresentationId) : Prop :=
  (∃ c b, m.bindings.lookup c = some b ∧ k ∈ b.representations) ∨
    (∃ i t, m.transitions.lookup i = some t ∧ k ∈ t.representations) ∨
    ∃ x y, m.transfers.lookup x = some y ∧ y.representation = k ∧ y.completed = false

/-- Every stored representation is of use. -/
def NoLeak (m : PhysicalManager) : Prop :=
  ∀ k r, m.representations.lookup k = some r → 0 < r.references.logical ∨ Held m k

def ownersOf (r : PhysicalRepresentation) : ℕ :=
  r.references.active + r.references.reservations + r.references.transfers

/-- Representations without logical references have more owners than a call takes away. -/
def Outlives (m : PhysicalManager) (dropped : PhysicalRepresentationId → ℕ) : Prop :=
  ∀ k r, m.representations.lookup k = some r → r.references.logical = 0 →
    dropped k = 0 ∨ dropped k < ownersOf r

/-- A call leaves an owner to every representation that it takes one from, or a logical
reference. -/
def LeavesOwner (m : PhysicalManager) : Action → Prop
  | .unbind c => Outlives m (oldUse m c)
  | .releaseBinding c => Outlives m (oldUse m c)
  | .commitTransition i revision => ∀ t, m.transitions.lookup i = some t →
      CommitReady m t revision → Outlives m (oldUse m t.context)
  | .commitMappedTransition i revision _ => ∀ t, m.transitions.lookup i = some t →
      CommitReady m t revision → Outlives m (oldUse m t.context)
  | .abortTransition i => ∀ t, m.transitions.lookup i = some t →
      Outlives m (fun k => t.representations.count k)
  | .completeTransfer x success => ∀ y, m.transfers.lookup x = some y → y.completed = false →
      CanLand m y success → Outlives m (fun k => if k = y.representation then 1 else 0)
  | _ => True

theorem isProtected_iff_owners (r : PhysicalRepresentation) :
    r.references.isProtected = true ↔ 0 < ownersOf r := by
  rw [isProtected_iff]
  unfold ownersOf
  omega

theorem held_iff {m : PhysicalManager} (hm : Owned m) {k : PhysicalRepresentationId}
    {r : PhysicalRepresentation} (hr : m.representations.lookup k = some r) :
    Held m k ↔ 0 < ownersOf r := by
  obtain ⟨hactive, hreservations, htransfers⟩ := hm.counted k r hr
  constructor
  · rintro (⟨c, b, hb, hk⟩ | ⟨i, t, ht, hk⟩ | ⟨x, y, hy, rfl, hmoving⟩)
    · have hpos := hm.active_pos hb hk hr
      unfold ownersOf
      omega
    · have hpos := hm.reservations_pos ht hk hr
      unfold ownersOf
      omega
    · have hpos := hm.transfers_pos hy hmoving hr
      unfold ownersOf
      omega
  · intro hpos
    by_contra hnot
    obtain ⟨hbindings, htransitions, hmoving⟩ : _ ∧ _ ∧ _ := by
      simpa only [Held, not_or] using hnot
    have hzeroActive : activeOwners m k = 0 := by
      refine (AList.total_eq_zero_iff _ _).mpr (fun c b hb => ?_)
      rw [List.count_eq_zero]
      exact fun hk => hbindings ⟨c, b, hb, hk⟩
    have hzeroReservations : reservationOwners m k = 0 := by
      refine (AList.total_eq_zero_iff _ _).mpr (fun i t ht => ?_)
      rw [List.count_eq_zero]
      exact fun hk => htransitions ⟨i, t, ht, hk⟩
    have hzeroTransfers : transferOwners m k = 0 := by
      refine (AList.total_eq_zero_iff _ _).mpr (fun x y hy => ?_)
      rw [if_neg]
      rintro ⟨hk, hincomplete⟩
      exact hmoving ⟨x, y, hy, hk, hincomplete⟩
    unfold ownersOf at hpos
    omega

/-- The counts of a useful representation. -/
def Useful (r : PhysicalRepresentation) : Prop := 0 < r.references.logical ∨ 0 < ownersOf r

theorem noLeak_iff {m : PhysicalManager} (hm : Owned m) :
    NoLeak m ↔ ∀ k r, m.representations.lookup k = some r → Useful r := by
  refine forall_congr' (fun k => forall_congr' (fun r => imp_congr_right (fun hr => ?_)))
  unfold Useful
  rw [held_iff hm hr]

def OwnersKept (m m' : PhysicalManager) : Prop :=
  ∀ k r r', m.representations.lookup k = some r → m'.representations.lookup k = some r' →
    ownersOf r ≤ ownersOf r'

/-- Logical references only go where they are released. -/
theorem logical_of_tierStep {a : Action} (h : TierStep m a m') {k : PhysicalRepresentationId}
    {r' : PhysicalRepresentation} (hr' : m'.representations.lookup k = some r') : Useful r' ∨
      ∃ r, m.representations.lookup k = some r ∧
        r'.references.logical = r.references.logical := by
  have hinsert : ∀ {j : PhysicalRepresentationId} {q q' : PhysicalRepresentation},
      m.representations.lookup j = some q →
        (m.representations.insert j q').lookup k = some r' →
          q'.references.logical = q.references.logical →
            ∃ r, m.representations.lookup k = some r ∧
              r'.references.logical = r.references.logical := by
    intro j q q' hq hk hlogical
    rw [AList.lookup_insert_ite] at hk
    by_cases hkj : k = j
    · rw [if_pos hkj] at hk
      cases hk
      exact ⟨q, hkj ▸ hq, hlogical⟩
    · rw [if_neg hkj] at hk
      exact ⟨r', hk, rfl⟩
  cases h with
  | fades hfading =>
    obtain ⟨r, hr, hfades⟩ := hfading k r' hr'
    exact Or.inr ⟨r, hr, hfades.logical⟩
  | @released j q _ hq hreleased =>
    rcases hreleased with herased | ⟨hneeded, hstored⟩
    · rw [herased, AList.lookup_erase_ite] at hr'
      split at hr'
      · cases hr'
      · exact Or.inr ⟨r', hr', rfl⟩
    · rw [hstored, AList.lookup_insert_ite] at hr'
      by_cases hkj : k = j
      · rw [if_pos hkj] at hr'
        cases hr'
        refine Or.inl (hneeded.imp (fun hlogical => ?_) (fun hprotected => ?_))
        · exact Nat.pos_of_ne_zero hlogical
        · exact (isProtected_iff_owners q).mp hprotected
      · rw [if_neg hkj] at hr'
        exact Or.inr ⟨r', hr', rfl⟩
  | registered hfading _ hlogical _ _ hstored =>
    rw [hstored, AList.lookup_insert_ite] at hr'
    by_cases hk : k = ⟨m.nextId⟩
    · rw [if_pos hk] at hr'
      cases hr'
      refine Or.inl (Or.inl ?_)
      omega
    · rw [if_neg hk] at hr'
      obtain ⟨r, hr, hfades⟩ := hfading k r' hr'
      exact Or.inr ⟨r, hr, hfades.logical⟩
  | demotedToHost hq _ _ hstored =>
    rw [hstored] at hr'
    exact Or.inr (hinsert hq hr' rfl)
  | demotedToStorage hq _ hstored =>
    rw [hstored] at hr'
    exact Or.inr (hinsert hq hr' rfl)
  | received _ _ hlanded hkept =>
    obtain ⟨q, hq, hsame⟩ := hkept k r' hr'
    obtain ⟨r, hr, rfl⟩ := hlanded.rewrites.of_lookup hq
    refine Or.inr ⟨r, hr, hsame.logical.trans ?_⟩
    split
    · rfl
    · exact (fades_leaving _ (isProtected_of_evicts m _) r).logical
  | recomputed _ hlanded hkept =>
    obtain ⟨q, hq, hsame⟩ := hkept k r' hr'
    obtain ⟨r, hr, rfl⟩ := hlanded.rewrites.of_lookup hq
    refine Or.inr ⟨r, hr, hsame.logical.trans ?_⟩
    split
    · rfl
    · exact (fades_leaving _ (isProtected_of_evicts m _) r).logical

theorem noLeak_of_ownersKept {a : Action} (hm : Owned m) (hstep : Step m a m') (h : NoLeak m)
    (hkept : OwnersKept m m') : NoLeak m' := by
  rw [noLeak_iff hm] at h
  rw [noLeak_iff (owned_step m a m' hm hstep)]
  intro k r' hr'
  rcases logical_of_tierStep (tierStep_of_step hm hstep) hr' with huseful | ⟨r, hr, hlogical⟩
  · exact huseful
  · rcases h k r hr with hpos | hpos
    · exact Or.inl (hlogical ▸ hpos)
    · exact Or.inr (lt_of_lt_of_le hpos (hkept k r r' hr hr'))

theorem ownersOf_unnoticed {r r' : PhysicalRepresentation} (h : Unnoticed r r') :
    ownersOf r' = ownersOf r := by
  unfold ownersOf
  rw [h.active, h.reservations, h.transfers]

theorem ownersKept_of_rewrites
    {g : PhysicalRepresentationId → PhysicalRepresentation → PhysicalRepresentation}
    (h : AList.Rewrites m.representations m'.representations g)
    (hg : ∀ k r, m.representations.lookup k = some r → ownersOf r ≤ ownersOf (g k r)) :
    OwnersKept m m' := by
  intro k r r' hr hr'
  rw [h.lookup_some hr] at hr'
  cases hr'
  exact hg k r hr

theorem ownersKept_of_eq (h : m'.representations = m.representations) : OwnersKept m m' := by
  intro k r r' hr hr'
  rw [h] at hr'
  cases hr.symm.trans hr'
  exact le_refl _

theorem ownersKept_quiet (h : Quiet m m') : OwnersKept m m' := by
  obtain ⟨g, hrewrites, hg⟩ := h.rewrites
  exact ownersKept_of_rewrites hrewrites
    (fun k r hr => (ownersOf_unnoticed (hg k r hr).1).ge)

theorem ownersKept_registered (hm : Owned m) (h : Registered m m') : OwnersKept m m' := by
  obtain ⟨m1, q, hquiet, _, _, rfl⟩ := h
  intro k r r' hr hr'
  change (m1.representations.insert ⟨m1.nextId⟩ q).lookup k = some r' at hr'
  rw [AList.lookup_insert_ite, if_neg] at hr'
  · exact ownersKept_quiet hquiet k r r' hr hr'
  · rintro rfl
    have hold := hm.representations_old _ r hr
    rw [hquiet.nextId] at hold
    exact lt_irrefl _ hold

theorem ownersKept_erased {j : PhysicalRepresentationId} (h : Erased m j m') : OwnersKept m m' := by
  obtain ⟨_, rfl⟩ := h.frame
  intro k r r' hr hr'
  change (m.representations.erase j).lookup k = some r' at hr'
  rw [AList.lookup_erase_ite] at hr'
  split at hr'
  · cases hr'
  · cases hr.symm.trans hr'
    exact le_refl _

theorem ownersKept_landed {j : PhysicalRepresentationId} {bytes : ℕ} (h : Landed m j bytes m') :
    OwnersKept m m' :=
  ownersKept_of_rewrites h.rewrites (fun k r _ => (ownersOf_unnoticed (h.unnoticed k r)).ge)

theorem ownersKept_prepared {t : PreparedTransition} (h : Prepared m t m') : OwnersKept m m' := by
  obtain ⟨m1, hspaced, hreserved⟩ := h.admitted
  refine ownersKept_of_rewrites (hspaced.rewrites.trans hreserved.rewrites) (fun k r _ => ?_)
  have hsame : ownersOf (afterSpace m t.reservedBytes r) = ownersOf r :=
    ownersOf_unnoticed (unnoticed_leaving _ (isProtected_of_evicts m t.reservedBytes) r)
  by_cases hk : k ∈ t.representations
  · rw [if_pos hk, ← hsame]
    unfold reserved ownersOf
    dsimp only
    omega
  · rw [if_neg hk, hsame]

/-- Every stored representation stays, with as many owners less. -/
structure Drops (m : PhysicalManager) (dropped : PhysicalRepresentationId → ℕ)
    (m' : PhysicalManager) : Prop where
  rewrites : ∃ g, AList.Rewrites m.representations m'.representations g ∧
    ∀ k r, m.representations.lookup k = some r →
      (g k r).references.logical = r.references.logical ∧
        ownersOf (g k r) + dropped k = ownersOf r

theorem noLeak_iff_outlives (hm : Owned m) (hm' : Owned m') {dropped : PhysicalRepresentationId → ℕ}
    (hdrops : Drops m dropped m') (h : NoLeak m) : NoLeak m' ↔ Outlives m dropped := by
  rw [noLeak_iff hm] at h
  rw [noLeak_iff hm']
  obtain ⟨g, hrewrites, hg⟩ := hdrops.rewrites
  constructor
  · intro huseful k r hr hlogical
    obtain ⟨hsame, howners⟩ := hg k r hr
    rcases huseful k (g k r) (hrewrites.lookup_some hr) with hpos | hpos
    · omega
    · right
      omega
  · intro houtlives k r' hr'
    obtain ⟨r, hr, rfl⟩ := hrewrites.of_lookup hr'
    obtain ⟨hsame, howners⟩ := hg k r hr
    unfold Useful
    rcases h k r hr with hpos | hpos
    · left
      omega
    · by_cases hlogical : r.references.logical = 0
      · right
        rcases houtlives k r hr hlogical with hzero | hless
        · omega
        · omega
      · left
        omega

theorem oldUse_le {m : PhysicalManager} (hm : Owned m) (c : Context)
    {k : PhysicalRepresentationId} {r : PhysicalRepresentation}
    (hr : m.representations.lookup k = some r) : oldUse m c k ≤ r.references.active := by
  rw [(hm.counted k r hr).1, activeOwners_erase m c k]
  exact Nat.le_add_right _ _

theorem drops_unbound (hm : Owned m) {c : Context} (h : Unbound m c m') :
    Drops m (oldUse m c) m' := by
  refine ⟨_, h.rewrites, fun k r hr => ⟨rfl, ?_⟩⟩
  have hle := oldUse_le hm c hr
  unfold withoutBinding ownersOf
  dsimp only
  omega

theorem drops_committed (hm : Owned m) {i : PreparedTransitionId} {t : PreparedTransition}
    (ht : m.transitions.lookup i = some t) (h : Committed m i t m') :
    Drops m (oldUse m t.context) m' := by
  refine ⟨_, h.rewrites, fun k r hr => ⟨rfl, ?_⟩⟩
  have hactive := oldUse_le hm t.context hr
  have hreserved : t.representations.count k ≤ r.references.reservations := by
    rw [(hm.counted k r hr).2.1, reservationOwners_erase m ht k]
    exact Nat.le_add_right _ _
  unfold rebound ownersOf
  dsimp only
  omega

theorem drops_aborted (hm : Owned m) {i : PreparedTransitionId} {t : PreparedTransition}
    (ht : m.transitions.lookup i = some t) (h : Aborted m i t m') :
    Drops m (fun k => t.representations.count k) m' := by
  refine ⟨_, h.rewrites, fun k r hr => ⟨rfl, ?_⟩⟩
  have hreserved : t.representations.count k ≤ r.references.reservations := by
    rw [(hm.counted k r hr).2.1, reservationOwners_erase m ht k]
    exact Nat.le_add_right _ _
  unfold ownersOf
  dsimp only
  omega

theorem drops_completed (hm : Owned m) {x : TransferId} {y : Transfer} {success : Bool}
    (hy : m.transfers.lookup x = some y) (hmoving : y.completed = false)
    (h : Completed m x y success m') :
    Drops m (fun k => if k = y.representation then 1 else 0) m' := by
  obtain ⟨m1, hreceived, hsettled⟩ := h
  have hsettle : ∀ k r, m.representations.lookup k = some r → ∀ q, Unnoticed r q →
      q.references.logical = r.references.logical →
        (if k = y.representation then { q with references :=
          { q.references with transfers := q.references.transfers - 1 } }
          else q).references.logical = r.references.logical ∧
        ownersOf (if k = y.representation then { q with references :=
          { q.references with transfers := q.references.transfers - 1 } } else q) +
            (if k = y.representation then 1 else 0) = ownersOf r := by
    intro k r hr q hunnoticed hlogical
    have hsame := ownersOf_unnoticed hunnoticed
    by_cases hk : k = y.representation
    · have hpos := hm.transfers_pos hy hmoving (hk ▸ hr)
      have htransfers := hunnoticed.transfers
      rw [if_pos hk, if_pos hk]
      refine ⟨hlogical, ?_⟩
      unfold ownersOf at hsame ⊢
      dsimp only
      omega
    · rw [if_neg hk, if_neg hk]
      exact ⟨hlogical, hsame⟩
  rcases hreceived with ⟨_, rfl, _⟩ | ⟨_, hlanded⟩
  · refine ⟨_, hsettled.rewrites, fun k r hr => ?_⟩
    exact hsettle k r hr r ⟨rfl, rfl, rfl, rfl, rfl, fun _ hd => hd⟩ rfl
  · refine ⟨_, hlanded.rewrites.trans hsettled.rewrites, fun k r hr => ?_⟩
    refine hsettle k r hr _ (hlanded.unnoticed k r) ?_
    split
    · rfl
    · exact (fades_leaving _ (isProtected_of_evicts m y.bytes) r).logical

theorem noLeak_congr (hm : Owned m) (hm' : Owned m') (h : m'.representations = m.representations) :
    NoLeak m' ↔ NoLeak m := by
  rw [noLeak_iff hm, noLeak_iff hm', h]

theorem outlives_of_zero {m : PhysicalManager} {dropped : PhysicalRepresentationId → ℕ}
    (h : ∀ k, dropped k = 0) : Outlives m dropped :=
  fun k _ _ _ => Or.inl (h k)

theorem noLeak_unbind_iff (hm : Owned m) (hm' : Owned m') (h : NoLeak m) {c : Context}
    {result : Except Error Unit} (hrun : (unbind c).run m = .returns result m') :
    NoLeak m' ↔ Outlives m (oldUse m c) := by
  cases hb : m.bindings.lookup c with
  | none =>
    unfold unbind at hrun
    rw [Call.run_read_bind, hb, Call.run_require_none_bind] at hrun
    cases hrun
    refine iff_of_true h (outlives_of_zero (fun k => ?_))
    unfold oldUse
    rw [hb]
    rfl
  | some b =>
    obtain ⟨m1, hunbind, hunbound⟩ := unbind_run hm hb
    cases hunbind.symm.trans hrun
    exact noLeak_iff_outlives hm hm' (drops_unbound hm hunbound) h

theorem noLeak_commit_iff (hm : Owned m) (hm' : Owned m') (h : NoLeak m) {i : PreparedTransitionId}
    {revision : ℕ} (hc : CommitEffect m i revision m') :
    NoLeak m' ↔ ∀ t, m.transitions.lookup i = some t → CommitReady m t revision →
      Outlives m (oldUse m t.context) := by
  rcases hc with ⟨rfl, hnot⟩ | ⟨t, m1, m2, ht, hready, hbefore, hcommitted, hafter⟩
  · exact iff_of_true h (fun t ht hready => absurd hready (hnot t ht))
  have hm1 := hbefore.owned hm
  have ht1 := transition_of_published hbefore ht
  have hm2 := hcommitted.owned hm1 ht1 (commitReady_of_published hbefore hready)
  obtain ⟨_, _, _, hframe⟩ := hbefore.frame
  obtain ⟨_, _, _, hframe'⟩ := hafter.frame
  have hrepresentations : m1.representations = m.representations := by rw [hframe]
  have hbindings : m1.bindings = m.bindings := by rw [hframe]
  have h1 : NoLeak m1 := (noLeak_congr hm hm1 hrepresentations).mpr h
  rw [noLeak_congr hm2 hm' (by rw [hframe']),
    noLeak_iff_outlives hm1 hm2 (drops_committed hm1 ht1 hcommitted) h1]
  unfold Outlives oldUse
  rw [hrepresentations, hbindings]
  constructor
  · intro houtlives u hu _
    cases ht.symm.trans hu
    exact houtlives
  · intro houtlives
    exact houtlives t ht hready

theorem noLeak_abort_iff (hm : Owned m) (hm' : Owned m') (h : NoLeak m) {i : PreparedTransitionId}
    (he : Effect m m' (.abortTransition i)) : NoLeak m' ↔ LeavesOwner m (.abortTransition i) := by
  rcases he with ⟨rfl, hnone⟩ | ⟨t, ht, haborted⟩
  · refine iff_of_true h (fun t ht => ?_)
    cases hnone.symm.trans ht
  · rw [noLeak_iff_outlives hm hm' (drops_aborted hm ht haborted) h]
    constructor
    · intro houtlives u hu
      cases ht.symm.trans hu
      exact houtlives
    · intro houtlives
      exact houtlives t ht

theorem noLeak_complete_iff (hm : Owned m) (h : NoLeak m) {x : TransferId} {success : Bool}
    (hstep : Step m (.completeTransfer x success) m') :
    NoLeak m' ↔ LeavesOwner m (.completeTransfer x success) := by
  have hm' := owned_step m _ m' hm hstep
  obtain ⟨_, hrun⟩ := of_returned hstep
  by_cases hmoving : ∃ y, m.transfers.lookup x = some y ∧ y.completed = false ∧
      CanLand m y success
  · obtain ⟨y, hy, hincomplete, hcan⟩ := hmoving
    rcases completeTransfer_run hm hy hincomplete success with
      ⟨_, m1, hcompleted, hcomplete⟩ | ⟨hnot, _⟩
    · cases hcomplete.symm.trans hrun
      rw [noLeak_iff_outlives hm hm' (drops_completed hm hy hincomplete hcompleted) h]
      constructor
      · intro houtlives z hz _ _
        cases hy.symm.trans hz
        exact houtlives
      · intro houtlives
        exact houtlives y hy hincomplete hcan
    · exact absurd hcan hnot
  · refine iff_of_true ?_ (fun y hy hincomplete hcan =>
      absurd ⟨y, hy, hincomplete, hcan⟩ hmoving)
    -- The call was refused, so it did nothing but evict.
    rcases completeTransfer_cases hm hrun with hquiet | ⟨y, hy, hincomplete, _⟩
    · exact noLeak_of_ownersKept hm hstep h (ownersKept_quiet hquiet)
    · rcases completeTransfer_run hm hy hincomplete success with
        ⟨hcan, _⟩ | ⟨_, m1, hevicted, hgone⟩
      · exact absurd ⟨y, hy, hincomplete, hcan⟩ hmoving
      · cases hgone.symm.trans hrun
        exact noLeak_of_ownersKept hm hstep h (ownersKept_quiet (quiet_of_evicted hevicted))

/-- A call that takes no owner away. -/
theorem ownersKept_of_effect {a : Action} (hm : Owned m) (he : Effect m m' a)
    (hc : ∀ i revision, a ≠ .commitTransition i revision)
    (hmapped : ∀ i revision mapping, a ≠ .commitMappedTransition i revision mapping)
    (ht : ∀ x success, a ≠ .completeTransfer x success) (hu : ∀ c, a ≠ .unbind c)
    (hr : ∀ c, a ≠ .releaseBinding c) (ha : ∀ i, a ≠ .abortTransition i) : OwnersKept m m' := by
  cases a with
  | register =>
    rcases he with hquiet | hregistered
    · exact ownersKept_quiet hquiet
    · exact ownersKept_registered hm hregistered
  | releaseLogicalReference id =>
    rcases he with hquiet | herased
    · exact ownersKept_quiet hquiet
    · exact ownersKept_erased herased
  | reserveGrowth bytes =>
    rcases he with hquiet | ⟨_, m1, hquiet, rfl⟩
    · exact ownersKept_quiet hquiet
    · exact fun k r r' hr hr' => ownersKept_quiet hquiet k r r' hr hr'
  | releaseGrowth id =>
    rcases he with hquiet | rfl
    · exact ownersKept_quiet hquiet
    · exact ownersKept_of_eq rfl
  | demoteToHost => exact ownersKept_quiet he
  | demoteToStorage => exact ownersKept_quiet he
  | evict => exact ownersKept_quiet he
  | prepareTransition =>
    rcases he with hquiet | ⟨t, hprepared⟩
    · exact ownersKept_quiet hquiet
    · exact ownersKept_prepared hprepared
  | completeTransfer x success => exact absurd rfl (ht x success)
  | completeRecompute i k =>
    rcases he with hquiet | ⟨_, _, m1, _, _, _, _, hlanded, rfl⟩
    · exact ownersKept_quiet hquiet
    · exact fun k r r' hr hr' => ownersKept_landed hlanded k r r' hr hr'
  | commitTransition i revision => exact absurd rfl (hc i revision)
  | commitMappedTransition i revision mapping => exact absurd rfl (hmapped i revision mapping)
  | publishDeviceBlockTable =>
    obtain ⟨_, _, _, rfl⟩ := Published.frame he
    exact ownersKept_of_eq rfl
  | unbind c => exact absurd rfl (hu c)
  | releaseBinding c => exact absurd rfl (hr c)
  | abortTransition i => exact absurd rfl (ha i)

theorem noLeak_step_iff (m : PhysicalManager) (a : Action) (m' : PhysicalManager) (hm : Owned m)
    (h : NoLeak m) (hstep : Step m a m') : NoLeak m' ↔ LeavesOwner m a := by
  have hm' := owned_step m a m' hm hstep
  have he := step_effect hm hstep
  cases a with
  | unbind c =>
    obtain ⟨_, hrun⟩ := of_returned hstep
    exact noLeak_unbind_iff hm hm' h hrun
  | releaseBinding c =>
    obtain ⟨_, hrun⟩ := of_returned hstep
    exact noLeak_unbind_iff hm hm' h hrun
  | commitTransition => exact noLeak_commit_iff hm hm' h he
  | commitMappedTransition => exact noLeak_commit_iff hm hm' h he
  | abortTransition => exact noLeak_abort_iff hm hm' h he
  | completeTransfer => exact noLeak_complete_iff hm h hstep
  | _ =>
    refine iff_of_true (noLeak_of_ownersKept hm hstep h (ownersKept_of_effect hm he ?_ ?_ ?_ ?_
      ?_ ?_)) trivial
    all_goals
      intros
      exact nofun

theorem noLeak_new (capacity : Capacity) : NoLeak (new capacity) :=
  fun _ _ hr => nomatch hr

/-- In a run of the manager every state is free of representations that nothing needs if and
only if every call leaves an owner or a logical reference to what it takes an owner from. -/
theorem no_leak_iff (capacity : Capacity) (run : List (Action × PhysicalManager))
    (hrun : IsRun Step (new capacity) run) :
    (∀ x ∈ run, NoLeak x.2) ↔ Meets LeavesOwner (new capacity) run :=
  along_iff_meets Step Owned NoLeak LeavesOwner owned_step noLeak_step_iff (new capacity) run
    (owned_new capacity) (noLeak_new capacity) hrun

instance (m : PhysicalManager) (dropped : PhysicalRepresentationId → ℕ) :
    Decidable (Outlives m dropped) :=
  decidable_of_iff (∀ e ∈ m.representations.entries, e.2.references.logical = 0 →
      dropped e.1 = 0 ∨ dropped e.1 < ownersOf e.2)
    ⟨fun h k r hr => h ⟨k, r⟩ (AList.mem_lookup_iff.mp hr),
      fun h e he => h e.1 e.2 (AList.mem_lookup_iff.mpr he)⟩

instance (m : PhysicalManager) (t : PreparedTransition) (revision : ℕ) :
    Decidable (CommitReady m t revision) :=
  decidable_of_iff (t.revision = revision ∧
      (∀ x ∈ t.transfers, ∀ y ∈ m.transfers.lookup x, y.completed = true ∧ y.success = true) ∧
      ∀ k ∈ t.representations, ∀ r ∈ m.representations.lookup k, r.device = true)
    ⟨fun h => ⟨h.1, h.2.1, h.2.2⟩, fun h => ⟨h.revision, h.transfers, h.device⟩⟩

instance (m : PhysicalManager) (y : Transfer) (success : Bool) : Decidable (CanLand m y success) :=
  inferInstanceAs (Decidable (success = true → ∀ r ∈ m.representations.lookup y.representation,
    r.device = false → pinnedBytes m + y.bytes ≤ m.capacity.deviceBytes))

instance decidableLeavesOwner (m : PhysicalManager) : ∀ a, Decidable (LeavesOwner m a)
  | .unbind c => inferInstanceAs (Decidable (Outlives m (oldUse m c)))
  | .releaseBinding c => inferInstanceAs (Decidable (Outlives m (oldUse m c)))
  | .commitTransition i revision =>
    inferInstanceAs (Decidable (∀ t ∈ m.transitions.lookup i,
      CommitReady m t revision → Outlives m (oldUse m t.context)))
  | .commitMappedTransition i revision _ =>
    inferInstanceAs (Decidable (∀ t ∈ m.transitions.lookup i,
      CommitReady m t revision → Outlives m (oldUse m t.context)))
  | .abortTransition i =>
    inferInstanceAs (Decidable (∀ t ∈ m.transitions.lookup i,
      Outlives m (fun k => t.representations.count k)))
  | .completeTransfer x success =>
    inferInstanceAs (Decidable (∀ y ∈ m.transfers.lookup x, y.completed = false →
      CanLand m y success → Outlives m (fun k => if k = y.representation then 1 else 0)))
  | .register .. => isTrue trivial
  | .releaseLogicalReference _ => isTrue trivial
  | .reserveGrowth _ => isTrue trivial
  | .releaseGrowth _ => isTrue trivial
  | .demoteToHost _ => isTrue trivial
  | .demoteToStorage _ => isTrue trivial
  | .evict .. => isTrue trivial
  | .prepareTransition .. => isTrue trivial
  | .completeRecompute .. => isTrue trivial
  | .publishDeviceBlockTable .. => isTrue trivial

/-- A representation on the device, bound by context 0. -/
def boundOnce : List Action := [
  .register somePrefix .globalKv 1 6 .device 0,
  .prepareTransition ⟨0⟩ 0 somePrefix 1 LogicalStore.ComponentMask.globalKv [⟨1⟩] false,
  .commitTransition ⟨2⟩ 0]

theorem unbound_first_stays_useful :
    ∃ run, IsRun Step (new tenBytes) run ∧ run.length = 5 ∧ ∀ x ∈ run, NoLeak x.2 := by
  have hrun : (trace perform (new tenBytes) (boundOnce ++
      [.unbind ⟨0⟩, .releaseLogicalReference ⟨1⟩])).any (fun run => run.length = 5 &&
        decide (Meets LeavesOwner (new tenBytes) run)) = true := by
    decide +kernel
  obtain ⟨run, htrace, hchecked⟩ := (Option.any_eq_true _ _).mp hrun
  rw [Bool.and_eq_true, decide_eq_true_eq, decide_eq_true_eq] at hchecked
  obtain ⟨hlength, hmeets⟩ := hchecked
  have hsteps := isRun_of_trace _ _ _ _ htrace
  exact ⟨run, hsteps, hlength, (no_leak_iff tenBytes run hsteps).mpr hmeets⟩

/-- Released while bound, the representation stays when the binding goes. -/
theorem unbound_last_leaks :
    ∃ run, IsRun Step (new tenBytes) run ∧ ¬ ∀ x ∈ run, NoLeak x.2 := by
  have hrun : (trace perform (new tenBytes) (boundOnce ++
      [.releaseLogicalReference ⟨1⟩, .unbind ⟨0⟩])).any (fun run => run.any (fun x =>
        (x.2.representations.lookup ⟨1⟩).any (fun r =>
          r.references.logical = 0 && ownersOf r = 0))) = true := by
    decide +kernel
  obtain ⟨run, htrace, hany⟩ := (Option.any_eq_true _ _).mp hrun
  obtain ⟨x, hx, hstored⟩ := List.any_eq_true.mp hany
  obtain ⟨r, hr, hunused⟩ := (Option.any_eq_true _ _).mp hstored
  rw [Bool.and_eq_true, decide_eq_true_eq, decide_eq_true_eq] at hunused
  have hsteps := isRun_of_trace _ _ _ _ htrace
  refine ⟨run, hsteps, fun hall => ?_⟩
  have howned := (along_states_iff Owned _ run).mp (along_of_invariant Step Owned _
    (fun m a m' hm hstep => ⟨owned_step m a m' hm hstep, owned_step m a m' hm hstep⟩)
    _ run (owned_new tenBytes) hsteps)
  rcases (noLeak_iff (howned x hx)).mp (hall x hx) ⟨1⟩ r hr with hlogical | howners
  · omega
  · omega

end Cusco.LeakedRepresentations
