import Cusco.PhysicalRuns

/-!
Coherence of prepared transitions. A preparation plans the missing bytes before
it makes room for them, and making room may evict what the plan took to be on the
device. The transition returned is coherent exactly when that does not happen:
then every representation is resident, moving or to be recomputed, the reserved
bytes are the missing ones, and completing everything in any order lets the
commit succeed.
-/

namespace Cusco.CoherentTransitions

open Calls Physical Physical.PhysicalManager DeviceEviction PhysicalEffects PhysicalOwners
open PhysicalSteps PhysicalTransitions PhysicalTransfers PhysicalPreparations PhysicalRuns Runs

variable {t : PreparedTransition} {i : PreparedTransitionId}

inductive Completion
  | transfer (id : TransferId)
  | recompute (id : PhysicalRepresentationId)

def complete (i : PreparedTransitionId) : Completion → Operation Unit
  | .transfer x => completeTransfer x true
  | .recompute k => completeRecompute i k

def completeAll (i : PreparedTransitionId) : List Completion → Operation Unit
  | [] => pure ()
  | c :: rest => do
    complete i c
    completeAll i rest

/-- The completions are the transfers of the transition and the listed
representations without a copy, in any order. -/
structure Completes (m : PhysicalManager) (t : PreparedTransition) (transfers : List TransferId)
    (cs : List Completion) : Prop where
  transfers : ∀ x, .transfer x ∈ cs ↔ x ∈ transfers
  recomputes : ∀ k, .recompute k ∈ cs ↔ k ∈ t.representations ∧
    ∃ r, m.representations.lookup k = some r ∧ copyless r = true

/-- The bytes on the device together with the listed bytes that are not there yet. -/
def neededBytes (m : PhysicalManager) (ids : List PhysicalRepresentationId) : ℕ :=
  m.representations.total (fun k r => if r.device = true ∨ k ∈ ids then r.bytes else 0)

/-- A transition whose missing bytes fit beside everything on the device. -/
structure Completing (m : PhysicalManager) (i : PreparedTransitionId) (t : PreparedTransition) :
    Prop where
  owned : Owned m
  found : m.transitions.lookup i = some t
  fits : neededBytes m t.representations ≤ m.capacity.deviceBytes
  succeeded : ∀ x ∈ t.transfers, ∀ y, m.transfers.lookup x = some y → y.completed = true →
    y.success = true

/-- What later completions keep: arrivals and finished transfers. -/
structure Ahead (t : PreparedTransition) (m m' : PhysicalManager) : Prop where
  nextId : m'.nextId = m.nextId
  device : ∀ k ∈ t.representations, ∀ r, m.representations.lookup k = some r →
    r.device = true → ∃ r', m'.representations.lookup k = some r' ∧ r'.device = true
  transfers : ∀ x ∈ t.transfers, ∀ y, m.transfers.lookup x = some y → y.completed = true →
    m'.transfers.lookup x = some y
  moved : ∀ x ∈ t.transfers, ∀ y, m.transfers.lookup x = some y →
    ∃ y', m'.transfers.lookup x = some y' ∧ y'.representation = y.representation

theorem Ahead.refl (t : PreparedTransition) (m : PhysicalManager) : Ahead t m m :=
  ⟨rfl, fun _ _ r hr hdevice => ⟨r, hr, hdevice⟩, fun _ _ _ hy _ => hy,
    fun _ _ y hy => ⟨y, hy, rfl⟩⟩

theorem Ahead.trans {a b c : PhysicalManager} (hab : Ahead t a b) (hbc : Ahead t b c) :
    Ahead t a c := by
  refine ⟨hbc.nextId.trans hab.nextId, ?_, ?_, ?_⟩
  · intro k hk r hr hdevice
    obtain ⟨r', hr', hdevice'⟩ := hab.device k hk r hr hdevice
    exact hbc.device k hk r' hr' hdevice'
  · intro x hx y hy hcompleted
    exact hbc.transfers x hx y (hab.transfers x hx y hy hcompleted) hcompleted
  · intro x hx y hy
    obtain ⟨y', hy', hsame⟩ := hab.moved x hx y hy
    obtain ⟨y'', hy'', hsame'⟩ := hbc.moved x hx y' hy'
    exact ⟨y'', hy'', hsame'.trans hsame⟩

/-- A completion that belongs to the transition. -/
def Allowed (t : PreparedTransition) : Completion → Prop
  | .transfer x => x ∈ t.transfers
  | .recompute k => t.transitionClass = .recompute ∧ k ∈ t.representations

def Done (m : PhysicalManager) : Completion → Prop
  | .transfer x => ∃ y, m.transfers.lookup x = some y ∧ y.completed = true ∧ y.success = true
  | .recompute k => ∃ r, m.representations.lookup k = some r ∧ r.device = true

theorem Ahead.done {m m' : PhysicalManager} (ha : Ahead t m m') {c : Completion} (hc : Allowed t c)
    (hd : Done m c) : Done m' c := by
  cases c with
  | transfer x =>
    obtain ⟨y, hy, hcompleted, hsuccess⟩ := hd
    exact ⟨y, ha.transfers x hc y hy hcompleted, hcompleted, hsuccess⟩
  | recompute k =>
    obtain ⟨r, hr, hdevice⟩ := hd
    exact ha.device k hc.2 r hr hdevice

section Completing

variable {m : PhysicalManager} (h : Completing m i t)

include h

/-- A listed representation that is missing finds room beside the protected bytes. -/
theorem Completing.room {k : PhysicalRepresentationId} (hk : k ∈ t.representations)
    {r : PhysicalRepresentation} (hr : m.representations.lookup k = some r)
    (hdevice : r.device = false) : pinnedBytes m + r.bytes ≤ m.capacity.deviceBytes := by
  refine le_trans ?_ h.fits
  have hown := AList.le_total (fun j (q : PhysicalRepresentation) => if j = k then q.bytes else 0)
    m.representations k r hr
  rw [if_pos rfl] at hown
  have hsum : pinnedBytes m + m.representations.total (fun j q => if j = k then q.bytes else 0) ≤
      neededBytes m t.representations := by
    unfold pinnedBytes bytesWhere neededBytes
    rw [← AList.total_add]
    apply AList.total_mono
    intro j q hj
    by_cases hjk : j = k
    · subst hjk
      cases hr.symm.trans hj
      simp [hdevice, hk]
    · by_cases hq : q.device = true
      · simp only [hjk, hq, Bool.true_and, if_false, Nat.add_zero, true_or, if_true]
        split
        · exact le_refl _
        · exact Nat.zero_le _
      · simp [hjk, hq]
  omega

/-- A listed representation is reserved, so making room leaves it where it is. -/
theorem Completing.afterSpace {k : PhysicalRepresentationId} (hk : k ∈ t.representations)
    {r : PhysicalRepresentation} (hr : m.representations.lookup k = some r) (bytes : ℕ) :
    afterSpace m bytes r = r := by
  have hreserved := h.owned.reservations_pos h.found hk hr
  unfold DeviceEviction.afterSpace leaving
  rw [if_neg]
  intro hevicts
  have hfree := (isProtected_eq_false_iff _).mp (isProtected_of_evicts m bytes r hevicts)
  omega

theorem Completing.landed {k : PhysicalRepresentationId} (hk : k ∈ t.representations)
    {bytes : ℕ} {m' : PhysicalManager} (hl : Landed m k bytes m') :
    Completing m' i t ∧ Ahead t m m' := by
  have howned := hl.owned h.owned
  have hrewrites := hl.rewrites
  have hneeded : neededBytes m' t.representations ≤ neededBytes m t.representations := by
    unfold neededBytes
    rw [hrewrites.total]
    apply AList.total_mono
    intro j r hj
    by_cases hjk : j = k
    · rw [if_pos hjk, if_pos (Or.inr (hjk ▸ hk)), if_pos (Or.inr (hjk ▸ hk))]
    · rw [if_neg hjk]
      by_cases hlisted : j ∈ t.representations
      · rw [h.afterSpace hlisted hj bytes]
      · unfold DeviceEviction.afterSpace leaving
        split
        · rw [if_neg (by simp [hlisted])]
          exact Nat.zero_le _
        · exact le_refl _
  have hdevice : ∀ j ∈ t.representations, ∀ r, m.representations.lookup j = some r →
      r.device = true → ∃ r', m'.representations.lookup j = some r' ∧ r'.device = true := by
    intro j hj r hr hd
    refine ⟨_, hrewrites.lookup_some hr, ?_⟩
    by_cases hjk : j = k
    · rw [if_pos hjk]
    · rw [if_neg hjk, h.afterSpace hj hr bytes]
      exact hd
  obtain ⟨representations, metrics, rfl⟩ := hl.frame
  exact ⟨⟨howned, h.found, hneeded.trans h.fits, h.succeeded⟩, rfl, hdevice,
    fun _ _ _ hy _ => hy, fun _ _ y hy => ⟨y, hy, rfl⟩⟩

end Completing

theorem Completing.received {m m' : PhysicalManager} (h : Completing m i t) {y : Transfer}
    (hy : y.representation ∈ t.representations) (hr : Received m y true m') :
    Completing m' i t ∧ Ahead t m m' := by
  rcases hr with ⟨metrics, rfl, _⟩ | ⟨_, hlanded⟩
  · exact ⟨⟨owned_metrics h.owned metrics, h.found, h.fits, h.succeeded⟩, rfl,
      fun _ _ r hr hdevice => ⟨r, hr, hdevice⟩, fun _ _ _ hy _ => hy,
      fun _ _ y hy => ⟨y, hy, rfl⟩⟩
  · exact h.landed hy hlanded

theorem Completing.settled {m m' : PhysicalManager} (h : Completing m i t) {x : TransferId}
    {y : Transfer} (hx : m.transfers.lookup x = some y) (hmoving : y.completed = false)
    (hattached : y.detached = false) (howned : Owned m') (hs : Settled m x y true m') :
    Completing m' i t ∧ Ahead t m m' ∧ Done m' (.transfer x) := by
  have hrewrites := hs.rewrites
  have htransfers := hs.transfers
  have hneeded : neededBytes m' t.representations = neededBytes m t.representations := by
    unfold neededBytes
    rw [hrewrites.total]
    apply AList.total_congr
    intro k r _
    split <;> rfl
  have hx' : m'.transfers.lookup x = some { y with completed := true, success := true } := by
    rw [htransfers x, if_pos rfl, if_neg (by rw [hattached]; simp)]
  have hother : ∀ z w, m.transfers.lookup z = some w → w.completed = true →
      m'.transfers.lookup z = some w := by
    intro z w hz hcompleted
    have hne : z ≠ x := by
      rintro rfl
      cases hx.symm.trans hz
      rw [hmoving] at hcompleted
      cases hcompleted
    rw [htransfers z, if_neg hne]
    exact hz
  have hdevice : ∀ k ∈ t.representations, ∀ r, m.representations.lookup k = some r →
      r.device = true → ∃ r', m'.representations.lookup k = some r' ∧ r'.device = true := by
    intro k _ r hr hd
    refine ⟨_, hrewrites.lookup_some hr, ?_⟩
    split <;> exact hd
  have hsucceeded : ∀ z ∈ t.transfers, ∀ w, m'.transfers.lookup z = some w →
      w.completed = true → w.success = true := by
    intro z hz w hw hcompleted
    by_cases hzx : z = x
    · rw [hzx, hx'] at hw
      cases hw
      rfl
    · rw [htransfers z, if_neg hzx] at hw
      exact h.succeeded z hz w hw hcompleted
  have hmoved : ∀ z ∈ t.transfers, ∀ w, m.transfers.lookup z = some w →
      ∃ w', m'.transfers.lookup z = some w' ∧ w'.representation = w.representation := by
    intro z _ w hz
    by_cases hzx : z = x
    · subst hzx
      cases hx.symm.trans hz
      exact ⟨_, hx', rfl⟩
    · exact ⟨w, by rw [htransfers z, if_neg hzx]; exact hz, rfl⟩
  obtain ⟨representations, transfers, metrics, rfl⟩ := hs.frame
  exact ⟨⟨howned, h.found, hneeded.trans_le h.fits, hsucceeded⟩,
    ⟨rfl, hdevice, fun z _ w hz hcompleted => hother z w hz hcompleted, hmoved⟩, _, hx', rfl, rfl⟩

theorem Completing.refresh {m : PhysicalManager} (h : Completing m i t) :
    Completing m.refreshCapacityMetrics i t :=
  ⟨owned_refresh h.owned, h.found, h.fits, h.succeeded⟩

theorem ahead_refresh {m m' : PhysicalManager} (ha : Ahead t m m') :
    Ahead t m m'.refreshCapacityMetrics :=
  ⟨ha.nextId, ha.device, ha.transfers, ha.moved⟩

/-- Every completion of the transition returns, and is done afterwards. -/
theorem complete_run {m : PhysicalManager} (h : Completing m i t) {c : Completion}
    (hc : Allowed t c) :
    ∃ m', (complete i c).run m = .returns (.ok ()) m' ∧ Completing m' i t ∧ Ahead t m m' ∧
      Done m' c := by
  cases c with
  | transfer x =>
    obtain ⟨y, hy, hattached, hmem, _⟩ := (h.owned.linked i t h.found).2 x hc
    by_cases hcompleted : y.completed = true
    · refine ⟨m, ?_, h, Ahead.refl t m, y, hy, hcompleted, h.succeeded x hc y hy hcompleted⟩
      change (completeTransfer x true).run m = _
      unfold completeTransfer
      rw [Call.run_read_bind, hy, Call.run_require_some_bind, if_pos hcompleted, Call.run_pure]
    · have hmoving : y.completed = false := Bool.not_eq_true _ ▸ hcompleted
      have hcan : CanLand m y true := by
        intro _ r hr hdevice
        obtain ⟨q, hq, hbytes⟩ := h.owned.moving x y hy hmoving
        cases hr.symm.trans hq
        rw [hbytes]
        exact h.room hmem hr hdevice
      rcases completeTransfer_run h.owned hy hmoving true with
        ⟨_, m', hdone, hrun⟩ | ⟨hcannot, _⟩
      · have howned := hdone.owned h.owned hy hmoving
        obtain ⟨m1, hreceived, hsettled⟩ := hdone
        obtain ⟨hcompleting, hahead⟩ := h.received hmem hreceived
        obtain ⟨hcompleting', hahead', hx⟩ := hcompleting.settled
          (by rw [hreceived.transfers]; exact hy) hmoving hattached howned hsettled
        exact ⟨m', hrun, hcompleting', hahead.trans hahead', hx⟩
      · exact absurd hcan hcannot
  | recompute k =>
    obtain ⟨hclass, hk⟩ := hc
    obtain ⟨r, hr⟩ := (h.owned.prepared i t h.found).2 k hk
    rcases completeRecompute_run h.owned h.found hclass hk hr with
      ⟨hdevice, hrun⟩ | ⟨_, _, m1, hlanded, hrun⟩ | ⟨hdevice, hroom, _⟩
    · exact ⟨_, hrun, h.refresh, ahead_refresh (Ahead.refl t m), r, hr, hdevice⟩
    · obtain ⟨hcompleting, hahead⟩ := h.landed hk hlanded
      refine ⟨_, hrun, hcompleting.refresh, ahead_refresh hahead, _,
        hlanded.rewrites.lookup_some hr, ?_⟩
      rw [if_pos rfl]
    · exact absurd (h.room hk hr hdevice) hroom

theorem completeAll_run {m : PhysicalManager} (h : Completing m i t) (cs : List Completion)
    (hcs : ∀ c ∈ cs, Allowed t c) :
    ∃ m', (completeAll i cs).run m = .returns (.ok ()) m' ∧ Completing m' i t ∧ Ahead t m m' ∧
      ∀ c ∈ cs, Done m' c := by
  induction cs generalizing m with
  | nil => exact ⟨m, rfl, h, Ahead.refl t m, fun _ hc => (nomatch hc)⟩
  | cons c rest ih =>
    obtain ⟨m1, hrun, hcompleting, hahead, hdone⟩ := complete_run h (hcs c List.mem_cons_self)
    obtain ⟨m2, hrun', hcompleting', hahead', hdone'⟩ :=
      ih hcompleting (fun d hd => hcs d (List.mem_cons_of_mem c hd))
    refine ⟨m2, ?_, hcompleting', hahead.trans hahead', ?_⟩
    · unfold completeAll
      rw [Call.run_bind_ok hrun]
      exact hrun'
    · intro d hd
      rcases List.mem_cons.mp hd with rfl | hd
      · exact hahead'.done (hcs d List.mem_cons_self) hdone
      · exact hdone' d hd

/-- A ready commit succeeds unless the identities are used up. -/
theorem commitTransition_ready {m : PhysicalManager} (hm : Owned m)
    (ht : m.transitions.lookup i = some t) (hready : CommitReady m t t.revision) :
    ∃ m', (commitTransition i t.revision).run m =
      if m.nextId = u64Max then .panics else .returns (.ok ⟨m.nextId⟩) m' := by
  obtain ⟨result, hchecked, hiff⟩ := checkCommit_run hm ht t.revision
  obtain ⟨m', _, hrun⟩ := bindTransition_run hm ht
  refine ⟨m', ?_⟩
  unfold commitTransition
  rw [hiff.mpr hready] at hchecked
  rw [Call.run_read_bind, ht, Call.run_require_some_bind, Call.run_bind_ok hchecked, hrun]

structure Coherent (m : PhysicalManager) (i : PreparedTransitionId) (t : PreparedTransition)
    (transitionClass : TransitionClass) (transfers : List TransferId) : Prop where
  stored : m.transitions.lookup i = some t
  covered : ∀ k ∈ t.representations, ∃ r, m.representations.lookup k = some r ∧
    (r.device = true ∨ (∃! x, Moving m transfers k x) ∨
      (transitionClass = .recompute ∧ copyless r = true))
  reservedBytes : t.reservedBytes = missingBytes m t.representations
  referenceOnly : transitionClass = .referenceOnly ↔
    transfers = [] ∧ ¬ SomeCopyless m t.representations
  completes : ∀ cs, Completes m t transfers cs → ∃ b m', (do
    completeAll i cs
    commitTransition i t.revision : Operation ActiveBindingId).run m = .returns (.ok b) m'

/-- How many transfers a preparation starts once room was made. -/
def startedTransfers (m : PhysicalManager) (ids : List PhysicalRepresentationId) : ℕ :=
  ids.countP (fun k => (m.representations.lookup k).any (fun r =>
    promotable (afterSpace m (missingBytes m ids) r)))

/-- Making room for some bytes takes no listed representation off the device, but
for one without bytes that can be brought back. -/
def Kept (m : PhysicalManager) (ids : List PhysicalRepresentationId) (bytes : ℕ) : Prop :=
  ∀ k ∈ ids, ∀ r, m.representations.lookup k = some r → evicts m bytes r = true →
    r.bytes = 0 ∧ ((r.host || r.storage) = true ∨ SomeCopyless m ids)

/-- Making room for the missing bytes leaves the plan as it was: the listed
representations stay, a plan that moves nothing finds all of them on the device,
and an identity is left for the commit. -/
structure PlanHolds (m : PhysicalManager) (ids : List PhysicalRepresentationId) : Prop where
  kept : Kept m ids (missingBytes m ids)
  resident : missingBytes m ids = 0 → ¬ SomeCopyless m ids → ∀ k ∈ ids, ∀ r,
    m.representations.lookup k = some r →
      r.device = true ∧ evicts m (missingBytes m ids) r = false
  identities : m.nextId + 1 + startedTransfers m ids ≠ u64Max

/-- The listed bytes that making room for some bytes takes off the device. -/
def evictedBytes (m : PhysicalManager) (ids : List PhysicalRepresentationId) (bytes : ℕ) : ℕ :=
  m.representations.total (fun k r =>
    if k ∈ ids ∧ evicts m bytes r = true then r.bytes else 0)

section Prepared

variable {m m' : PhysicalManager} (hp : Prepared m t m')

include hp

theorem missingBytes_prepared : missingBytes m' t.representations =
    missingBytes m t.representations + evictedBytes m t.representations t.reservedBytes := by
  obtain ⟨m1, hspaced, hreserved⟩ := hp.admitted
  unfold missingBytes evictedBytes
  rw [(hspaced.rewrites.trans hreserved.rewrites).total, ← AList.total_add]
  apply AList.total_congr
  intro k r _
  by_cases hk : k ∈ t.representations
  · rw [if_pos hk, if_pos hk, if_pos hk]
    refine (absentBytes_afterSpace m t.reservedBytes r).trans ?_
    congr 1
    exact if_congr (by simp [hk]) rfl rfl
  · rw [if_neg hk, if_neg hk, if_neg (fun hboth => hk hboth.1)]

theorem nextId_of_prepared :
    m'.nextId = m.nextId + 1 + startedTransfers m t.representations := by
  obtain ⟨m1, hspaced, hreserved⟩ := hp.admitted
  have hlength : (movesOf m1.representations t.representations).length =
      startedTransfers m t.representations := by
    unfold movesOf startedTransfers
    rw [List.length_filterMap_eq_countP, ← hp.missing]
    apply List.countP_congr
    intro k _
    rw [hspaced.rewrites k]
    cases m.representations.lookup k with
    | none => rfl
    | some r =>
      rw [Option.map_some, Option.bind_some, Option.any_some]
      by_cases hpromotable : promotable (afterSpace m t.reservedBytes r) = true
      · rw [if_pos hpromotable, hpromotable]
        rfl
      · rw [if_neg hpromotable]
        simp [hpromotable]
  rw [← hlength]
  obtain ⟨representations, metrics, rfl⟩ := hspaced.frame
  obtain ⟨representations', metrics', rfl⟩ := hreserved.frame
  rfl

end Prepared

theorem evictedBytes_eq_zero {m : PhysicalManager} {ids : List PhysicalRepresentationId}
    {bytes : ℕ} (h : Kept m ids bytes) : evictedBytes m ids bytes = 0 := by
  refine (AList.total_eq_zero_iff _ _).mpr ?_
  intro k r hr
  split
  · rename_i hboth
    exact (h k hboth.1 r hr hboth.2).1
  · rfl

/-- The completions in the order of the lists. -/
theorem completes_exists (m' : PhysicalManager) (t : PreparedTransition)
    (transfers : List TransferId) : ∃ cs, Completes m' t transfers cs := by
  refine ⟨transfers.map Completion.transfer ++ (t.representations.filter (fun k =>
    (m'.representations.lookup k).any copyless)).map Completion.recompute, ?_, ?_⟩
  · intro x
    simp
  · intro k
    simp [Option.any_eq_true]

section Plan

variable {m m' : PhysicalManager} (hm : Owned m) (hp : Prepared m t m')

include hp

/-- Every listed representation is resident, moving, or to be recomputed. -/
theorem covered_of_prepared (h : Kept m t.representations t.reservedBytes)
    {k : PhysicalRepresentationId}
    (hk : k ∈ t.representations) :
    ∃ r, m'.representations.lookup k = some r ∧ (r.device = true ∨
      (∃! x, Moving m' t.transfers k x) ∨
      (t.transitionClass = .recompute ∧ copyless r = true)) := by
  obtain ⟨r, hr⟩ := stored_of_prepared hp hk
  refine ⟨_, lookup_of_prepared hp hk hr, ?_⟩
  by_cases hdevice : (afterSpace m t.reservedBytes r).device = true
  · exact Or.inl hdevice
  · rw [Bool.not_eq_true] at hdevice
    by_cases hcopies : (r.host || r.storage) = true
    · refine Or.inr (Or.inl (moving_of_promotable hp hk hr ?_))
      obtain ⟨hhost, hstorage⟩ := afterSpace_copies m t.reservedBytes r
      rw [promotable, hdevice, hhost, hstorage, hcopies]
      rfl
    · rw [Bool.not_eq_true] at hcopies
      have hgone : r.device = false ∨ evicts m t.reservedBytes r = true := by
        by_contra hboth
        rw [not_or, Bool.not_eq_false, Bool.not_eq_true] at hboth
        rw [(afterSpace_device m t.reservedBytes r).mpr hboth] at hdevice
        cases hdevice
      refine Or.inr (Or.inr ⟨?_, (copyless_afterSpace m _ r).mpr ⟨hgone, hcopies⟩⟩)
      rw [hp.recompute]
      rcases hgone with habsent | hevicts
      · refine ⟨k, hk, r, hr, ?_⟩
        rw [copyless, habsent, hcopies]
        rfl
      · rcases (h k hk r hr hevicts).2 with hcopy | hsome
        · rw [hcopies] at hcopy
          cases hcopy
        · exact hsome

include hm

theorem completing_of_prepared (h : Kept m t.representations t.reservedBytes) :
    Completing m' ⟨m.nextId⟩ t := by
  have howned := hp.owned hm
  have hneeded : neededBytes m' t.representations ≤ m'.capacity.deviceBytes := by
    have hmissing := missingBytes_prepared hp
    rw [evictedBytes_eq_zero h, Nat.add_zero, ← hp.missing] at hmissing
    have hsplit : neededBytes m' t.representations =
        m'.deviceUsed + missingBytes m' t.representations := by
      unfold neededBytes deviceUsed bytesWhere missingBytes absentBytes
      rw [← AList.total_add]
      apply AList.total_congr
      intro k r _
      by_cases hdevice : r.device = true
      · simp [hdevice]
      · simp [hdevice]
    rw [hsplit, hmissing]
    obtain ⟨m1, hspaced, hreserved⟩ := hp.admitted
    have hused : m'.deviceUsed = m1.deviceUsed := by
      unfold deviceUsed bytesWhere
      rw [hreserved.rewrites.total]
      apply AList.total_congr
      intro k r _
      split <;> rfl
    have hfits := hspaced.fits
    rw [hused]
    obtain ⟨representations, metrics, rfl⟩ := hreserved.frame
    exact hfits
  refine ⟨howned, found_of_prepared hp, hneeded, ?_⟩
  intro x hx y hy hcompleted
  obtain ⟨k, _, _, y', hy', _, hmoving⟩ := moving_of_mem hp hx
  cases hy.symm.trans hy'
  rw [hmoving] at hcompleted
  cases hcompleted

/-- Completing everything returns, and leaves the transition ready to commit. -/
theorem completes_of_prepared (h : Kept m t.representations t.reservedBytes) {cs : List Completion}
    (hcs : Completes m' t t.transfers cs) :
    ∃ m'', (completeAll ⟨m.nextId⟩ cs).run m' = .returns (.ok ()) m'' ∧ Owned m'' ∧
      m''.transitions.lookup ⟨m.nextId⟩ = some t ∧ CommitReady m'' t t.revision ∧
      m''.nextId = m'.nextId := by
  have hallowed : ∀ c ∈ cs, Allowed t c := by
    intro c hc
    cases c with
    | transfer x => exact (hcs.transfers x).mp hc
    | recompute k =>
      obtain ⟨hk, r', hr', hcopyless⟩ := (hcs.recomputes k).mp hc
      refine ⟨?_, hk⟩
      obtain ⟨q, hq, hcovered⟩ := covered_of_prepared hp h hk
      cases hr'.symm.trans hq
      rcases hcovered with hdevice | ⟨x, hx, _⟩ | hrecompute
      · rw [copyless, hdevice] at hcopyless
        cases hcopyless
      · obtain ⟨r, hr⟩ := stored_of_prepared hp hk
        have hpromotable := promotable_of_moving hp hr hx
        cases hr'.symm.trans (lookup_of_prepared hp hk hr)
        change copyless (afterSpace m t.reservedBytes r) = true at hcopyless
        simp only [promotable, copyless, Bool.and_eq_true,
          Bool.not_eq_true'] at hpromotable hcopyless
        rw [hpromotable.2] at hcopyless
        cases hcopyless.2
      · exact hrecompute.1
  obtain ⟨m'', hrun, hcompleting, hahead, hdone⟩ :=
    completeAll_run (completing_of_prepared hm hp h) cs hallowed
  refine ⟨m'', hrun, hcompleting.owned, hcompleting.found, ⟨rfl, ?_, ?_⟩, hahead.nextId⟩
  · intro x hx y hy
    obtain ⟨y', hy', hcompleted, hsuccess⟩ := hdone _ ((hcs.transfers x).mpr hx)
    cases hy.symm.trans hy'
    exact ⟨hcompleted, hsuccess⟩
  · intro k hk r hr
    obtain ⟨q, hq, hcovered⟩ := covered_of_prepared hp h hk
    rcases hcovered with hdevice | ⟨x, ⟨hx, y, hy, hsame, _⟩, _⟩ | ⟨_, hcopyless⟩
    · obtain ⟨r', hr', hdevice'⟩ := hahead.device k hk q hq hdevice
      cases hr.symm.trans hr'
      exact hdevice'
    · obtain ⟨y', hy', hcompleted, hsuccess⟩ := hdone _ ((hcs.transfers x).mpr hx)
      obtain ⟨y'', hy'', hsame'⟩ := hahead.moved x hx y hy
      cases hy'.symm.trans hy''
      obtain ⟨z, hz, _, _, harrived⟩ :=
        (hcompleting.owned.linked _ t hcompleting.found).2 x hx
      cases hy'.symm.trans hz
      refine harrived hcompleted hsuccess r ?_
      rw [hsame', hsame]
      exact hr
    · obtain ⟨r', hr', hdevice'⟩ := hdone _ ((hcs.recomputes k).mpr ⟨hk, q, hq, hcopyless⟩)
      cases hr.symm.trans hr'
      exact hdevice'

theorem planHolds_of_coherent (h : Coherent m' ⟨m.nextId⟩ t t.transitionClass t.transfers) :
    PlanHolds m t.representations := by
  have hevicted : ∀ k ∈ t.representations, ∀ r, m.representations.lookup k = some r →
      evicts m t.reservedBytes r = true → r.bytes = 0 := by
    intro k hk r hr hevicts
    have hmissing := missingBytes_prepared hp
    rw [← h.reservedBytes, hp.missing] at hmissing
    have hle := AList.le_total (fun j (q : PhysicalRepresentation) =>
      if j ∈ t.representations ∧ evicts m t.reservedBytes q = true then q.bytes else 0)
      m.representations k r hr
    rw [if_pos ⟨hk, hevicts⟩] at hle
    unfold evictedBytes at hmissing
    rw [hp.missing] at hle
    omega
  have hkept : Kept m t.representations t.reservedBytes := by
    intro k hk r hr hevicts
    refine ⟨hevicted k hk r hr hevicts, ?_⟩
    obtain ⟨q, hq, hcovered⟩ := h.covered k hk
    cases hq.symm.trans (lookup_of_prepared hp hk hr)
    obtain ⟨hhost, hstorage⟩ := afterSpace_copies m t.reservedBytes r
    rcases hcovered with hdevice | ⟨x, hx, _⟩ | ⟨hclass, _⟩
    · rw [((afterSpace_device m t.reservedBytes r).mp hdevice).2] at hevicts
      cases hevicts
    · have hpromotable := promotable_of_moving hp hr hx
      rw [promotable, hhost, hstorage, Bool.and_eq_true] at hpromotable
      exact Or.inl hpromotable.2
    · exact Or.inr (hp.recompute.mp hclass)
  refine ⟨by rw [← hp.missing]; exact hkept, ?_, ?_⟩
  · intro hzero hnone k hk r hr
    rw [← hp.missing] at hzero ⊢
    obtain ⟨hempty, _⟩ := h.referenceOnly.mp (hp.referenceOnly.mpr ⟨hnone, hzero⟩)
    obtain ⟨q, hq, hcovered⟩ := h.covered k hk
    cases hq.symm.trans (lookup_of_prepared hp hk hr)
    rcases hcovered with hdevice | ⟨x, hx, _⟩ | ⟨hclass, _⟩
    · exact (afterSpace_device m t.reservedBytes r).mp hdevice
    · rw [hempty] at hx
      cases hx.1
    · exact absurd (hp.recompute.mp hclass) hnone
  · intro hmax
    obtain ⟨cs, hcs⟩ := completes_exists m' t t.transfers
    obtain ⟨b, n, hrun⟩ := h.completes cs hcs
    obtain ⟨m'', hall, howned, hfound, hready, hnext⟩ := completes_of_prepared hm hp hkept hcs
    obtain ⟨n', hcommit⟩ := commitTransition_ready howned hfound hready
    rw [Call.run_bind_ok hall, hcommit, hnext, nextId_of_prepared hp, if_pos hmax] at hrun
    cases hrun

theorem coherent_of_planHolds (h : PlanHolds m t.representations) :
    Coherent m' ⟨m.nextId⟩ t t.transitionClass t.transfers := by
  have hkept : Kept m t.representations t.reservedBytes := by
    rw [hp.missing]
    exact h.kept
  refine ⟨found_of_prepared hp, fun k hk => covered_of_prepared hp hkept hk, ?_, ?_, ?_⟩
  · rw [missingBytes_prepared hp, evictedBytes_eq_zero hkept, hp.missing, Nat.add_zero]
  · rw [hp.referenceOnly]
    constructor
    · rintro ⟨hnone, hzero⟩
      rw [hp.missing] at hzero
      have hresident := h.resident hzero hnone
      have hdevice : ∀ k ∈ t.representations, ∀ r, m.representations.lookup k = some r →
          (afterSpace m t.reservedBytes r).device = true := by
        intro k hk r hr
        rw [afterSpace_device, hp.missing]
        exact hresident k hk r hr
      refine ⟨?_, ?_⟩
      · by_contra hne
        obtain ⟨x, hx⟩ := List.exists_mem_of_ne_nil _ hne
        obtain ⟨k, hk, hmoving⟩ := moving_of_mem hp hx
        obtain ⟨r, hr⟩ := stored_of_prepared hp hk
        have hpromotable := promotable_of_moving hp hr hmoving
        rw [promotable, hdevice k hk r hr] at hpromotable
        cases hpromotable
      · rintro ⟨k, hk, q, hq, hcopyless⟩
        obtain ⟨r, hr⟩ := stored_of_prepared hp hk
        cases hq.symm.trans (lookup_of_prepared hp hk hr)
        change copyless (afterSpace m t.reservedBytes r) = true at hcopyless
        rw [copyless, hdevice k hk r hr] at hcopyless
        cases hcopyless
    · rintro ⟨hempty, hnone'⟩
      have hnone : ¬ SomeCopyless m t.representations := by
        rintro ⟨k, hk, r, hr, hcopyless⟩
        rw [copyless, Bool.and_eq_true, Bool.not_eq_true', Bool.not_eq_true'] at hcopyless
        exact hnone' ⟨k, hk, _, lookup_of_prepared hp hk hr,
          (copyless_afterSpace m t.reservedBytes r).mpr ⟨Or.inl hcopyless.1, hcopyless.2⟩⟩
      refine ⟨hnone, ?_⟩
      rw [hp.missing]
      refine (AList.total_eq_zero_iff _ _).mpr ?_
      intro k r hr
      split
      · rename_i hk
        -- An absent representation with a copy would be moving.
        obtain ⟨q, hq, hcovered⟩ := covered_of_prepared hp hkept hk
        cases hq.symm.trans (lookup_of_prepared hp hk hr)
        rcases hcovered with hdevice | ⟨x, hx, _⟩ | ⟨hclass, _⟩
        · rw [absentBytes, if_pos ((afterSpace_device m t.reservedBytes r).mp hdevice).1]
        · rw [hempty] at hx
          cases hx.1
        · exact absurd (hp.recompute.mp hclass) hnone
      · rfl
  · intro cs hcs
    obtain ⟨m'', hall, howned, hfound, hready, hnext⟩ := completes_of_prepared hm hp hkept hcs
    obtain ⟨n, hcommit⟩ := commitTransition_ready howned hfound hready
    refine ⟨⟨m''.nextId⟩, n, ?_⟩
    rw [Call.run_bind_ok hall, hcommit, if_neg]
    rw [hnext, nextId_of_prepared hp]
    exact h.identities

end Plan

/-- A prepared transition is coherent exactly when making room left its plan as it was. -/
theorem coherent_iff {capacity : Capacity} {m m' : PhysicalManager}
    (hreach : Reaches Step (new capacity) m) {context : Context} {revision : ℕ}
    {mapping : LogicalStore.EvaluatedPrefixId} {representedEnd : ℕ}
    {required : LogicalStore.ComponentMask} {ids : List PhysicalRepresentationId}
    {allowRecompute : Bool} {i : PreparedTransitionId} {transitionClass : TransitionClass}
    {transfers : List TransferId}
    (h : (prepareTransition context revision mapping representedEnd required ids
      allowRecompute).run m = .returns (.ok (i, transitionClass, transfers)) m') :
    (∃ t, t.revision = revision ∧ t.representations = ids ∧
      Coherent m' i t transitionClass transfers) ↔ PlanHolds m ids := by
  have hm := owned_of_reaches hreach
  rcases prepareTransition_cases hm h with ⟨_, e, he⟩ | ⟨t, hp, _, hrevision, _, rfl, hresult⟩
  · cases he
  · cases hresult
    constructor
    · rintro ⟨u, _, _, hcoherent⟩
      cases (found_of_prepared hp).symm.trans hcoherent.stored
      exact planHolds_of_coherent hm hp hcoherent
    · intro hplan
      exact ⟨t, hrevision, rfl, coherent_of_planHolds hm hp hplan⟩

/-- A warm representation and one on the host of the given sizes. On a device of ten bytes
making room for eight of the host evicts four warm ones, which have no other copy. -/
def mixed (warm host : ℕ) : List Action := [
  .register somePrefix .globalKv 1 warm .device 0,
  .register somePrefix .recurrent 1 host .host 0]

/-- The state after a list of actions, and the outcome of preparing both representations. -/
def preparedAfter (warm host : ℕ) : Option (PhysicalManager ×
    PreparedTransitionId × TransitionClass × List TransferId × PhysicalManager) :=
  (trace perform (new tenBytes) (mixed warm host)).bind (fun run =>
    match (prepareTransition ⟨0⟩ 0 somePrefix 1 globalAndRecurrent [⟨1⟩, ⟨2⟩] false).run
        (last (new tenBytes) run) with
    | .returns (.ok (i, c, xs)) m' => some (last (new tenBytes) run, i, c, xs, m')
    | _ => none)

theorem reaches_of_preparedAfter {warm host : ℕ} {m m' : PhysicalManager} {c : TransitionClass}
    {xs : List TransferId} (h : preparedAfter warm host = some (m, i, c, xs, m')) :
    Reaches Step (new tenBytes) m ∧
      (prepareTransition ⟨0⟩ 0 somePrefix 1 globalAndRecurrent [⟨1⟩, ⟨2⟩] false).run m =
        .returns (.ok (i, c, xs)) m' := by
  obtain ⟨run, htrace, hrest⟩ := Option.bind_eq_some_iff.mp h
  split at hrest
  · rename_i hrun
    cases hrest
    exact ⟨⟨run, isRun_of_trace _ _ _ _ htrace, rfl⟩, hrun⟩
  · cases hrest

/-- Six host bytes fit beside the four warm ones. -/
theorem fitting_plan_is_coherent :
    ∃ m m' i c xs, Reaches Step (new tenBytes) m ∧
      (prepareTransition ⟨0⟩ 0 somePrefix 1 globalAndRecurrent [⟨1⟩, ⟨2⟩] false).run m =
        .returns (.ok (i, c, xs)) m' ∧
      ∃ t, t.revision = 0 ∧ t.representations = [⟨1⟩, ⟨2⟩] ∧ Coherent m' i t c xs := by
  have hrun : (preparedAfter 4 6).any (fun p => missingBytes p.1 [⟨1⟩, ⟨2⟩] = 6 &&
      [⟨1⟩, ⟨2⟩].all (fun k => (p.1.representations.lookup k).all (fun r =>
        !evicts p.1 6 r)) &&
      p.1.nextId + 1 + startedTransfers p.1 [⟨1⟩, ⟨2⟩] = 5) = true := by
    decide +kernel
  obtain ⟨⟨m, i, c, xs, m'⟩, hprepared, hchecked⟩ := (Option.any_eq_true _ _).mp hrun
  simp only [Bool.and_eq_true, decide_eq_true_eq, List.all_eq_true] at hchecked
  obtain ⟨⟨hmissing, hkept⟩, hidentities⟩ := hchecked
  obtain ⟨hreach, hprepare⟩ := reaches_of_preparedAfter hprepared
  refine ⟨m, m', i, c, xs, hreach, hprepare, (coherent_iff hreach hprepare).mpr ⟨?_, ?_, ?_⟩⟩
  · intro k hk r hr hevicts
    have hstays := hkept k hk
    rw [hr, Option.all_some, ← hmissing, hevicts] at hstays
    cases hstays
  · intro hzero
    rw [hmissing] at hzero
    cases hzero
  · rw [hidentities]
    decide

theorem evicted_plan_is_not_coherent :
    ∃ m m' i c xs, Reaches Step (new tenBytes) m ∧
      (prepareTransition ⟨0⟩ 0 somePrefix 1 globalAndRecurrent [⟨1⟩, ⟨2⟩] false).run m =
        .returns (.ok (i, c, xs)) m' ∧
      (∃ r, m'.representations.lookup ⟨1⟩ = some r ∧ copyless r = true ∧ c ≠ .recompute) ∧
      ∀ t, ¬ Coherent m' i t c xs := by
  have hrun : (preparedAfter 4 8).any (fun p => (p.2.2.2.2.representations.lookup ⟨1⟩).any (fun r =>
        copyless r && p.2.2.1 ≠ .recompute) &&
      (p.2.2.2.2.transitions.lookup p.2.1).all (fun t =>
        t.reservedBytes ≠ missingBytes p.2.2.2.2 t.representations)) = true := by
    decide +kernel
  obtain ⟨⟨m, i, c, xs, m'⟩, hprepared, hchecked⟩ := (Option.any_eq_true _ _).mp hrun
  obtain ⟨hreach, hprepare⟩ := reaches_of_preparedAfter hprepared
  rw [Bool.and_eq_true] at hchecked
  obtain ⟨r, hr, hgone⟩ := (Option.any_eq_true _ _).mp hchecked.1
  rw [Bool.and_eq_true, decide_eq_true_eq] at hgone
  refine ⟨m, m', i, c, xs, hreach, hprepare, ⟨r, hr, hgone.1, hgone.2⟩, ?_⟩
  intro t hcoherent
  have hbytes := hchecked.2
  simp only [hcoherent.stored, Option.all_some, decide_eq_true_eq] at hbytes
  exact hbytes hcoherent.reservedBytes

end Cusco.CoherentTransitions
