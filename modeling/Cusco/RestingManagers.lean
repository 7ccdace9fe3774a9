import Cusco.DeviceTotals
import Cusco.HonouredReservations
import Cusco.TierUsage
import Mathlib.Algebra.Order.BigOperators.Group.List
import Mathlib.Algebra.Order.Ring.Nat

/-!
A manager at rest. Nothing is prepared, moving or grown, and every representation has a copy
off the device. A transition to representations that fit beside the active ones then lands all
its transfers, and neither its commit nor its abort leaves anything of it behind.
-/

namespace Cusco.RestingManagers

open Calls Physical Physical.PhysicalManager DeviceEviction PhysicalEffects PhysicalOwners
open PhysicalSteps PhysicalTransitions PhysicalTransfers PhysicalPreparations PhysicalRuns
open DeviceTotals ErrorAtomicity HonouredReservations
open TierUsage (Fits fits_step)

variable {m m' : PhysicalManager}

/-- Every representation has a copy off the device. -/
def Backed (m : PhysicalManager) : Prop :=
  ∀ k r, m.representations.lookup k = some r → (r.host || r.storage) = true

/-- The mapping and the bytes of a representation that is stored. -/
def shareOf (m : PhysicalManager) (k : PhysicalRepresentationId) :
    Option (LogicalStore.EvaluatedPrefixId × ℕ) :=
  (m.representations.lookup k).map (fun r => (r.mapping, r.bytes))

/-- The same representations are stored, of the same size, and none loses its last copy. -/
structure Alike (m m' : PhysicalManager) : Prop where
  shares : ∀ k, shareOf m' k = shareOf m k
  backed : Backed m → Backed m'

theorem Alike.refl (m : PhysicalManager) : Alike m m := ⟨fun _ => rfl, fun h => h⟩

theorem Alike.trans {a b c : PhysicalManager} (hab : Alike a b) (hbc : Alike b c) : Alike a c :=
  ⟨fun k => (hbc.shares k).trans (hab.shares k), fun h => hbc.backed (hab.backed h)⟩

/-- A change of a representation that keeps its size and its copies off the device. -/
structure Lasting (r r' : PhysicalRepresentation) : Prop where
  mapping : r'.mapping = r.mapping
  bytes : r'.bytes = r.bytes
  copies : (r.host || r.storage) = true → (r'.host || r'.storage) = true

theorem Lasting.refl (r : PhysicalRepresentation) : Lasting r r := ⟨rfl, rfl, fun h => h⟩

theorem alike_of_rewrites
    {g : PhysicalRepresentationId → PhysicalRepresentation → PhysicalRepresentation}
    (hrewrites : AList.Rewrites m.representations m'.representations g)
    (hg : ∀ k r, m.representations.lookup k = some r → Lasting r (g k r)) : Alike m m' := by
  refine ⟨?_, ?_⟩
  · intro k
    unfold shareOf
    rw [hrewrites k]
    cases hk : m.representations.lookup k with
    | none => rfl
    | some r => exact congrArg some (Prod.ext (hg k r hk).mapping (hg k r hk).bytes)
  · intro hbacked k r' hr'
    obtain ⟨r, hr, rfl⟩ := hrewrites.of_lookup hr'
    exact (hg k r hr).copies (hbacked k r hr)

theorem lasting_leaving (gone : PhysicalRepresentation → Bool) (r : PhysicalRepresentation) :
    Lasting r (leaving gone r) := by
  unfold leaving
  by_cases hgone : gone r = true
  · rw [if_pos hgone]
    exact ⟨rfl, rfl, fun h => h⟩
  · rw [if_neg hgone]
    exact Lasting.refl r

theorem alike_of_eq (h : m'.representations = m.representations) : Alike m m' := by
  refine alike_of_rewrites (g := fun _ r => r) ?_ (fun _ r _ => Lasting.refl r)
  rw [h]
  exact AList.Rewrites.refl _

/-- What holds of the manager whether or not a transition is under way. -/
structure Exact (m : PhysicalManager) : Prop where
  owned : Owned m
  gauges : GaugesExact m
  fits : Fits m
  total : m.metrics.deviceTotal = m.capacity.deviceBytes
  backed : Backed m

structure Resting (m : PhysicalManager) : Prop where
  exact : Exact m
  transitions : ∀ i, m.transitions.lookup i = none
  transfers : ∀ x, m.transfers.lookup x = none
  growth : ∀ g, m.growth.lookup g = none

theorem resting_new (capacity : Capacity) : Resting (new capacity) where
  exact := ⟨owned_new capacity, gaugesExact_new capacity, TierUsage.fits_new capacity, rfl,
    fun _ _ h => nomatch h⟩
  transitions := fun _ => rfl
  transfers := fun _ => rfl
  growth := fun _ => rfl

theorem Exact.step {a : Action} (h : Exact m) (hstep : Step m a m') (htotal : SameTotal m m')
    (hbacked : Backed m') : Exact m' where
  owned := owned_step m a m' h.owned hstep
  gauges := (step_effect h.owned hstep).gauges h.gauges
  fits := fits_step h.owned h.fits hstep
  total := by
    rw [(step_effect h.owned hstep).later.capacity]
    exact Eq.trans htotal h.total
  backed := hbacked

section Resting

variable (h : Resting m)

include h

/-- Neither a transition nor a transfer holds a representation. -/
theorem Resting.unpinned {k : PhysicalRepresentationId} {r : PhysicalRepresentation}
    (hr : m.representations.lookup k = some r) :
    r.references.reservations = 0 ∧ r.references.transfers = 0 := by
  obtain ⟨_, hreservations, htransfers⟩ := h.exact.owned.counted k r hr
  have hreserved : reservationOwners m k = 0 :=
    (AList.total_eq_zero_iff _ _).mpr (fun i t ht => nomatch (h.transitions i).symm.trans ht)
  have hmoving : transferOwners m k = 0 :=
    (AList.total_eq_zero_iff _ _).mpr (fun x y hy => nomatch (h.transfers x).symm.trans hy)
  exact ⟨hreservations.trans hreserved, htransfers.trans hmoving⟩

theorem Resting.isProtected_iff {k : PhysicalRepresentationId} {r : PhysicalRepresentation}
    (hr : m.representations.lookup k = some r) :
    r.references.isProtected = true ↔ r.references.active ≠ 0 := by
  obtain ⟨hreservations, htransfers⟩ := h.unpinned hr
  rw [PhysicalOwners.isProtected_iff]
  omega

theorem Resting.unavailable : m.growthReservedBytes = 0 ∧ m.transitionReservedBytes = 0 ∧
    m.detachedTransferReservedBytes = 0 := by
  refine ⟨?_, ?_, ?_⟩
  · exact (AList.total_eq_zero_iff _ _).mpr (fun g b hb => nomatch (h.growth g).symm.trans hb)
  · exact (AList.total_eq_zero_iff _ _).mpr (fun i t ht => nomatch (h.transitions i).symm.trans ht)
  · exact (AList.total_eq_zero_iff _ _).mpr (fun x y hy => nomatch (h.transfers x).symm.trans hy)

/-- Another manager with the same tables of transitions, transfers and growth. -/
theorem Resting.of_tables {m' : PhysicalManager} (hexact : Exact m')
    (htransitions : m'.transitions = m.transitions) (htransfers : m'.transfers = m.transfers)
    (hgrowth : m'.growth = m.growth) : Resting m' where
  exact := hexact
  transitions := htransitions ▸ h.transitions
  transfers := htransfers ▸ h.transfers
  growth := hgrowth ▸ h.growth

end Resting

/-- The device bytes of the active representations and of those listed. -/
def boundBytes (m : PhysicalManager) (ids : List PhysicalRepresentationId) : ℕ :=
  m.representations.total (fun k r =>
    if r.device = true ∧ r.references.active ≠ 0 ∨ k ∈ ids then r.bytes else 0)

/-- What a preparation protects and brings to the device is among these bytes. -/
theorem prepareFits_of_bound {m : PhysicalManager} (h : Resting m)
    {ids : List PhysicalRepresentationId}
    (hbound : boundBytes m ids ≤ m.capacity.deviceBytes) : PrepareFits m ids := by
  refine ⟨fun j u hu => (nomatch (h.transitions j).symm.trans hu), le_trans ?_ hbound⟩
  rw [pinnedBytes_eq]
  unfold newlyPinned newDemand boundBytes
  rw [← AList.total_add, ← AList.total_add]
  apply AList.total_mono
  intro k r hr
  have hprotected := h.isProtected_iff hr
  by_cases hk : k ∈ ids
  · rw [if_pos (c := _ ∨ _) (Or.inr hk)]
    by_cases hpinned : r.references.isProtected = true
    · rw [if_neg (fun hfree => absurd hpinned (Bool.eq_false_iff.mp hfree.2.1)),
        afterSpace_of_protected m _ hpinned]
      unfold pinned promotable
      cases hdevice : r.device with
      | true => simp [hpinned]
      | false =>
        simp only [Bool.false_eq_true, false_and, if_false, Nat.zero_add]
        split
        · exact le_refl _
        · exact Nat.zero_le _
    · have hfree : r.references.isProtected = false := Bool.not_eq_true _ ▸ hpinned
      have hzero : pinned r = 0 := by
        unfold pinned
        rw [if_neg (fun hboth => hpinned hboth.2)]
      rw [hzero, Nat.zero_add]
      cases hdevice : (afterSpace m (missingBytes m ids) r).device with
      | true =>
        rw [if_pos ⟨hk, hfree, rfl⟩, if_neg]
        · exact le_refl _
        · intro hboth
          have hpromotable := hboth.2
          unfold promotable at hpromotable
          rw [hdevice] at hpromotable
          cases hpromotable
      | false =>
        rw [if_neg (fun hboth => nomatch hboth.2.2), Nat.zero_add]
        split
        · exact le_refl _
        · exact Nat.zero_le _
  · rw [if_neg (fun hboth => hk hboth.1), if_neg (fun hboth => hk hboth.1), Nat.add_zero]
    unfold pinned
    by_cases hpinned : r.device = true ∧ r.references.isProtected = true
    · rw [if_pos hpinned, if_pos (Or.inl ⟨hpinned.1, hprotected.mp hpinned.2⟩)]
    · rw [if_neg hpinned]
      exact Nat.zero_le _

/-- Components of a size, beside what is active. -/
theorem boundBytes_le (m : PhysicalManager) {ids : List PhysicalRepresentationId} {bytes : ℕ}
    (hids : ids.Nodup)
    (hbytes : ∀ k ∈ ids, ∀ r, m.representations.lookup k = some r → r.bytes ≤ bytes) :
    boundBytes m ids ≤ m.protectedDeviceBytes + ids.length * bytes := by
  have hlisted : m.representations.total (fun k r => if k ∈ ids then r.bytes else 0) ≤
      ids.length * bytes := by
    have hsum := List.sum_le_card_nsmul (ids.map (fun k =>
      (m.representations.lookup k).elim 0 (fun r => r.bytes))) bytes ?_
    · rw [AList.total_of_nodup (fun _ r => r.bytes) m.representations ids hids,
        List.length_map] at hsum
      exact hsum
    intro n hn
    obtain ⟨k, hk, rfl⟩ := List.mem_map.mp hn
    cases hr : m.representations.lookup k with
    | none => exact Nat.zero_le _
    | some r => exact hbytes k hk r hr
  refine le_trans ?_ (Nat.add_le_add_left hlisted _)
  unfold boundBytes protectedDeviceBytes bytesWhere
  rw [← AList.total_add]
  apply AList.total_mono
  intro k r _
  by_cases hk : k ∈ ids
  · rw [if_pos (Or.inr hk), if_pos hk]
    exact Nat.le_add_left _ _
  · rw [if_neg hk, Nat.add_zero]
    by_cases hactive : r.device = true ∧ r.references.active ≠ 0
    · rw [if_pos (Or.inl hactive), if_pos]
      rw [Bool.and_eq_true, decide_eq_true_eq]
      exact hactive
    · rw [if_neg (fun hor => hor.elim hactive hk)]
      exact Nat.zero_le _

/-- The only transition of the manager, some of whose transfers are still to be completed. -/
structure Underway (m : PhysicalManager) (i : PreparedTransitionId) (t : PreparedTransition)
    (rest : List TransferId) : Prop where
  exact : Exact m
  kept : Kept m i t
  alone : ∀ j, j ≠ i → m.transitions.lookup j = none
  listed : ∀ x y, m.transfers.lookup x = some y → x ∈ t.transfers
  nodup : rest.Nodup
  waiting : ∀ x ∈ rest, x ∈ t.transfers ∧
    ∀ y, m.transfers.lookup x = some y → y.completed = false
  done : ∀ x ∈ t.transfers, x ∉ rest → ∀ y, m.transfers.lookup x = some y →
    y.completed = true ∧ y.success = true
  device : ∀ k ∈ t.representations, ∀ r, m.representations.lookup k = some r →
    r.device = true ∨ ∃ x ∈ rest, ∃ y, m.transfers.lookup x = some y ∧ y.representation = k
  growth : ∀ g, m.growth.lookup g = none

theorem lasting_reserved (r : PhysicalRepresentation) : Lasting r (reserved r) := by
  unfold reserved
  split <;> exact ⟨rfl, rfl, fun h => h⟩

theorem alike_prepared {t : PreparedTransition} (hp : Prepared m t m') : Alike m m' := by
  obtain ⟨m1, hspaced, hreserved⟩ := hp.admitted
  refine (alike_of_rewrites hspaced.rewrites (fun _ r _ => lasting_leaving _ r)).trans
    (alike_of_rewrites hreserved.rewrites (fun k r _ => ?_))
  by_cases hk : k ∈ t.representations
  · rw [if_pos hk]
    exact lasting_reserved r
  · rw [if_neg hk]
    exact Lasting.refl r

theorem underway_prepared (h : Resting m) {t : PreparedTransition} (hp : Prepared m t m')
    (hexact : Exact m') (hbound : boundBytes m t.representations ≤ m.capacity.deviceBytes) :
    Underway m' ⟨m.nextId⟩ t t.transfers := by
  have hfound := found_of_prepared hp
  have hfits := promised_prepared h.exact.owned hp (prepareFits_of_bound h hbound) _ t hfound
  obtain ⟨hnodup, hlinked⟩ := hexact.owned.linked _ t hfound
  refine ⟨hexact, ⟨hexact.owned, hfound, hfits⟩, ?_, ?_, hnodup, ?_, ?_, ?_, ?_⟩
  · intro j hj
    obtain ⟨_, hspaced, hreserved⟩ := hp.admitted
    obtain ⟨_, _, rfl⟩ := hspaced.frame
    obtain ⟨_, _, rfl⟩ := hreserved.frame
    change (m.transitions.insert ⟨m.nextId⟩ t).lookup j = none
    rw [AList.lookup_insert_ite, if_neg hj]
    exact h.transitions j
  · intro x y hy
    obtain ⟨m1, hspaced, hreserved⟩ := hp.admitted
    by_contra hx
    rw [hreserved.transfers] at hx
    have hold := startTransfers_old (m1.nextId + 1)
      (movesOf m1.representations t.representations) m1.transfers x hx
    obtain ⟨_, _, rfl⟩ := hspaced.frame
    obtain ⟨_, _, rfl⟩ := hreserved.frame
    cases (hold.symm.trans hy).symm.trans (h.transfers x)
  · intro x hx
    refine ⟨hx, ?_⟩
    intro y hy
    obtain ⟨_, _, _, z, hz, _, hmoving⟩ := moving_of_mem hp hx
    cases hy.symm.trans hz
    exact hmoving
  · exact fun x hx hrest => absurd hx hrest
  · intro k hk r' hr'
    obtain ⟨r, hr⟩ := stored_of_prepared hp hk
    cases (lookup_of_prepared hp hk hr).symm.trans hr'
    by_cases hdevice : (afterSpace m t.reservedBytes r).device = true
    · exact Or.inl (by unfold reserved; split <;> exact hdevice)
    · have hpromotable : promotable (afterSpace m t.reservedBytes r) = true := by
        obtain ⟨hhost, hstorage⟩ := afterSpace_copies m t.reservedBytes r
        unfold promotable
        rw [Bool.not_eq_true] at hdevice
        rw [hdevice, hhost, hstorage, h.exact.backed k r hr]
        rfl
      obtain ⟨x, ⟨hx, y, hy, hsame, _⟩, _⟩ := moving_of_promotable hp hk hr hpromotable
      exact Or.inr ⟨x, hx, y, hy, hsame⟩
  · intro g
    obtain ⟨_, hspaced, hreserved⟩ := hp.admitted
    obtain ⟨_, _, rfl⟩ := hspaced.frame
    obtain ⟨_, _, rfl⟩ := hreserved.frame
    exact h.growth g

/-- What is received keeps its counts, and protected representations stay where they are. -/
theorem received_rewrites {y : Transfer} (hr : Received m y true m') :
    ∃ g, AList.Rewrites m.representations m'.representations g ∧
      ∀ k r, m.representations.lookup k = some r → Lasting r (g k r) ∧
        (r.references.isProtected = true → r.device = true → (g k r).device = true) := by
  rcases hr with ⟨metrics, rfl, _⟩ | ⟨_, hlanded⟩
  · exact ⟨_, AList.Rewrites.refl _, fun k r _ => ⟨Lasting.refl r, fun _ hd => hd⟩⟩
  · refine ⟨_, hlanded.rewrites, ?_⟩
    intro k r _
    by_cases hk : k = y.representation
    · rw [if_pos hk]
      exact ⟨⟨rfl, rfl, fun h => h⟩, fun _ _ => rfl⟩
    · rw [if_neg hk]
      refine ⟨lasting_leaving _ r, ?_⟩
      intro hprotected hdevice
      rw [afterSpace_of_protected m _ hprotected]
      exact hdevice

/-- Completing the next transfer succeeds, and leaves the others to be completed. -/
theorem Underway.complete {m : PhysicalManager} {i : PreparedTransitionId}
    {t : PreparedTransition} {x : TransferId} {rest : List TransferId}
    (h : Underway m i t (x :: rest)) :
    ∃ m', (completeTransfer x true).run m = .returns (.ok ()) m' ∧ Underway m' i t rest ∧
      Alike m m' := by
  obtain ⟨hx, hincomplete⟩ := h.waiting x List.mem_cons_self
  obtain ⟨hfresh, hnodup⟩ := List.nodup_cons.mp h.nodup
  obtain ⟨y, hy, hattached, _, _⟩ := (h.exact.owned.linked i t h.kept.found).2 x hx
  obtain ⟨m', hrun, hkept⟩ := h.kept.complete hx
  have hstep : Step m (.completeTransfer x true) m' := congrArg returned hrun
  rcases completeTransfer_run h.exact.owned hy (hincomplete y hy) true with
    ⟨_, m₁, hdone, hrun'⟩ | ⟨_, _, _, hrun'⟩
  swap
  · cases hrun.symm.trans hrun'
  cases hrun.symm.trans hrun'
  obtain ⟨m1, hreceived, hsettled⟩ := hdone
  obtain ⟨g, hrewrites, hg⟩ := received_rewrites hreceived
  have halike : Alike m m' := by
    refine (alike_of_rewrites hrewrites (fun k r hr => (hg k r hr).1)).trans
      (alike_of_rewrites hsettled.rewrites (fun k r _ => ?_))
    by_cases hk : k = y.representation
    · rw [if_pos hk]
      exact ⟨rfl, rfl, fun h => h⟩
    · rw [if_neg hk]
      exact Lasting.refl r
  have htables : m'.transitions = m.transitions ∧ m'.growth = m.growth := by
    obtain ⟨_, _, _, rfl⟩ := hsettled.frame
    rcases hreceived with ⟨_, rfl, _⟩ | ⟨_, hlanded⟩
    · exact ⟨rfl, rfl⟩
    · obtain ⟨_, _, rfl⟩ := hlanded.frame
      exact ⟨rfl, rfl⟩
  have htransfers : ∀ z, m'.transfers.lookup z = if z = x then
      some { y with completed := true, success := true } else m.transfers.lookup z := by
    intro z
    rw [hsettled.transfers z, hreceived.transfers, hattached]
    rfl
  have hother : ∀ z, z ≠ x → m'.transfers.lookup z = m.transfers.lookup z := by
    intro z hz
    rw [htransfers z, if_neg hz]
  refine ⟨m', hrun, ⟨?_, hkept, ?_, ?_, hnodup, ?_, ?_, ?_, ?_⟩, halike⟩
  · exact h.exact.step hstep (steady_completeTransfer x true m _ m' hrun)
      (halike.backed h.exact.backed)
  · exact htables.1 ▸ h.alone
  · intro z w hw
    by_cases hz : z = x
    · exact hz ▸ hx
    · exact h.listed z w ((hother z hz) ▸ hw)
  · intro z hz
    obtain ⟨hmem, hwaiting⟩ := h.waiting z (List.mem_cons_of_mem x hz)
    refine ⟨hmem, ?_⟩
    rw [hother z (fun heq => hfresh (heq ▸ hz))]
    exact hwaiting
  · intro z hz hrest w hw
    by_cases hzx : z = x
    · rw [htransfers z, if_pos hzx] at hw
      cases hw
      exact ⟨rfl, rfl⟩
    · rw [hother z hzx] at hw
      exact h.done z hz (fun hmem => (List.mem_cons.mp hmem).elim hzx hrest) w hw
  · intro k hk r'' hr''
    obtain ⟨r', hr', rfl⟩ := hsettled.rewrites.of_lookup hr''
    obtain ⟨r, hr, rfl⟩ := hrewrites.of_lookup hr'
    have hstays : (g k r).device = true → (if k = y.representation then
        { g k r with references := { (g k r).references with
          transfers := (g k r).references.transfers - 1 } } else g k r).device = true := by
      intro hdevice
      split <;> exact hdevice
    rcases h.device k hk r hr with hdevice | ⟨z, hz, w, hw, rfl⟩
    · have hreserved := h.exact.owned.reservations_pos h.kept.found hk hr
      exact Or.inl (hstays ((hg k r hr).2
        ((PhysicalOwners.isProtected_iff _).mpr (Or.inr (Or.inl hreserved))) hdevice))
    · rcases List.mem_cons.mp hz with rfl | hz
      · cases hy.symm.trans hw
        exact Or.inl (hstays (hreceived.device rfl _ hr'))
      · refine Or.inr ⟨z, hz, w, ?_, rfl⟩
        rw [hother z (fun heq => hfresh (heq ▸ hz))]
        exact hw
  · exact htables.2 ▸ h.growth

/-- A transition without transfers still to be completed. -/
theorem Underway.ready {m : PhysicalManager} {i : PreparedTransitionId}
    {t : PreparedTransition} (h : Underway m i t []) : CommitReady m t t.revision where
  revision := rfl
  transfers := fun x hx y hy => h.done x hx List.not_mem_nil y hy
  device := by
    intro k hk r hr
    rcases h.device k hk r hr with hdevice | ⟨x, hx, _⟩
    · exact hdevice
    · cases hx

theorem Underway.commit {i : PreparedTransitionId} {t : PreparedTransition} (h : Underway m i t [])
    {executorMapping : ℕ} {result : Except Error (ActiveBindingId × DeviceBlockTableId)}
    (hrun : (commitMappedTransition i t.revision executorMapping).run m = .returns result m') :
    (∃ committed, result = .ok committed) ∧ Resting m' ∧ Alike m m' := by
  have hstep : Step m (.commitMappedTransition i t.revision executorMapping) m' :=
    congrArg returned hrun
  have htotal := steady_commitMappedTransition i t.revision executorMapping m result m' hrun
  rcases commitMappedTransition_cases h.exact.owned hrun with
    ⟨_, _, hnot⟩ | ⟨u, m2, blocks, hu, _, hcommitted, _, _, rfl, rfl⟩
  · exact absurd h.ready (hnot t h.kept.found)
  cases h.kept.found.symm.trans hu
  have hrewrites : AList.Rewrites m.representations (publishTable t.context
      (mappedTable m t executorMapping blocks) m2).representations _ := hcommitted.rewrites
  have halike := alike_of_rewrites hrewrites (fun _ _ _ => ⟨rfl, rfl, fun h => h⟩)
  have hexact := h.exact.step hstep htotal (halike.backed h.exact.backed)
  obtain ⟨_, _, _, rfl⟩ := hcommitted.frame
  refine ⟨⟨_, rfl⟩, ⟨hexact, ?_, ?_, h.growth⟩, halike⟩
  · intro j
    change (m.transitions.erase i).lookup j = none
    rw [AList.lookup_erase_ite]
    by_cases hj : j = i
    · rw [if_pos hj]
    · rw [if_neg hj]
      exact h.alone j hj
  · intro x
    change (m.transfers.eraseAll t.transfers).lookup x = none
    rw [AList.lookup_eraseAll]
    by_cases hx : x ∈ t.transfers
    · rw [if_pos hx]
    · rw [if_neg hx]
      exact Option.eq_none_iff_forall_ne_some.mpr (fun y hy => hx (h.listed x y hy))

theorem Underway.abort {i : PreparedTransitionId} {t : PreparedTransition} (h : Underway m i t [])
    {result : Except Error Unit} (hrun : (abortTransition i).run m = .returns result m') :
    Resting m' ∧ Alike m m' := by
  have hstep : Step m (.abortTransition i) m' := congrArg returned hrun
  have htotal := steady_abortTransition i m result m' hrun
  rcases abortTransition_cases h.exact.owned hrun with ⟨_, hnone⟩ | ⟨u, hu, haborted⟩
  · cases h.kept.found.symm.trans hnone
  cases h.kept.found.symm.trans hu
  have halike : Alike m m' :=
    alike_of_rewrites haborted.rewrites (fun _ _ _ => ⟨rfl, rfl, fun h => h⟩)
  have hexact := h.exact.step hstep htotal (halike.backed h.exact.backed)
  refine ⟨⟨hexact, ?_, ?_, ?_⟩, halike⟩
  · intro j
    obtain ⟨_, _, _, rfl⟩ := haborted.frame
    change (m.transitions.erase i).lookup j = none
    rw [AList.lookup_erase_ite]
    by_cases hj : j = i
    · rw [if_pos hj]
    · rw [if_neg hj]
      exact h.alone j hj
  · intro x
    rw [haborted.transfers x]
    cases hy : m.transfers.lookup x with
    | none => rfl
    | some y =>
      have hx := h.listed x y hy
      rw [Option.bind_some, if_pos hx]
      unfold detached
      rw [if_pos (h.done x hx List.not_mem_nil y hy).1]
  · obtain ⟨_, _, _, rfl⟩ := haborted.frame
    exact h.growth

/-- Some representations left the device, and nothing else changed of any. -/
def Thinned (m m' : PhysicalManager) : Prop :=
  ∃ gone, AList.Rewrites m.representations m'.representations (fun _ => leaving gone)

theorem Thinned.alike (h : Thinned m m') : Alike m m' := by
  obtain ⟨gone, hrewrites⟩ := h
  exact alike_of_rewrites hrewrites (fun _ r _ => lasting_leaving gone r)

theorem thinned_of_eq (h : m'.representations = m.representations) : Thinned m m' := by
  refine ⟨fun _ => false, ?_⟩
  rw [h]
  exact (AList.Rewrites.refl _).congr (fun _ _ _ => rfl)

/-- A representation that was registered and is not used yet. -/
def Fresh (m : PhysicalManager) (k : PhysicalRepresentationId) : Prop :=
  ∃ r, m.representations.lookup k = some r ∧ r.references = ⟨1, 0, 0, 0⟩

theorem Fresh.thin {k : PhysicalRepresentationId} (h : Fresh m k) (hm : Thinned m m') :
    Fresh m' k := by
  obtain ⟨r, hr, hreferences⟩ := h
  obtain ⟨gone, hrewrites⟩ := hm
  refine ⟨_, hrewrites.lookup_some hr, ?_⟩
  unfold leaving
  split <;> exact hreferences

/-- A representation was registered on the host. -/
structure Enrolled (m : PhysicalManager) (k : PhysicalRepresentationId)
    (mapping : LogicalStore.EvaluatedPrefixId) (bytes : ℕ) (m' : PhysicalManager) : Prop where
  resting : Resting m'
  absent : m.representations.lookup k = none
  fresh : Fresh m' k
  share : shareOf m' k = some (mapping, bytes)
  others : ∀ j, j ≠ k → m'.representations.lookup j = m.representations.lookup j
  active : m'.protectedDeviceBytes = m.protectedDeviceBytes
  capacity : m'.capacity = m.capacity

section Calls

variable (h : Resting m)

include h

theorem Resting.unchanged (hm : Unchanged m m') {a : Action} (hstep : Step m a m')
    (htotal : SameTotal m m') : Resting m' ∧ Alike m m' := by
  have halike := alike_of_eq hm.representations
  exact ⟨h.of_tables (h.exact.step hstep htotal (halike.backed h.exact.backed)) hm.transitions
    hm.transfers hm.growth, halike⟩

/-- A preparation that is refused, or else admitted and of representations that fit. -/
theorem Resting.prepare {context : LogicalStore.LogicalContextId} {revision : ℕ}
    {mapping : LogicalStore.EvaluatedPrefixId} {representedEnd : ℕ}
    {required : LogicalStore.ComponentMask} {ids : List PhysicalRepresentationId}
    {result : Except Error (PreparedTransitionId × TransitionClass × List TransferId)}
    (hfits : m.capacity.deviceBytes < guardedBytes m + missingBytes m ids ∨
      boundBytes m ids ≤ m.capacity.deviceBytes)
    (hrun : (prepareTransition context revision mapping representedEnd required ids false).run m =
      .returns result m') :
    (Resting m' ∧ Thinned m m' ∧ ∃ e, result = .error e) ∨
      ∃ t, Underway m' ⟨m.nextId⟩ t t.transfers ∧ Alike m m' ∧ t.revision = revision ∧
        guardedBytes m + missingBytes m ids ≤ m.capacity.deviceBytes ∧
          result = .ok (⟨m.nextId⟩, t.transitionClass, t.transfers) := by
  have hstep : Step m (.prepareTransition context revision mapping representedEnd required ids
      false) m' := congrArg returned hrun
  have htotal := steady_prepareTransition context revision mapping representedEnd required ids
    false m result m' hrun
  rcases prepareTransition_cases h.exact.owned hrun with
    ⟨hquiet, e, rfl⟩ | ⟨t, hprepared, _, rfl, _, rfl, rfl⟩
  · have hthinned : Thinned m m' := by
      have hfailed := failed_prepareTransition hrun
      cases hneed : (plannedBytes m mapping representedEnd required ids false).bind
          (admitted m) with
      | none =>
        rw [hneed] at hfailed
        exact thinned_of_eq hfailed.representations
      | some bytes =>
        rw [hneed] at hfailed
        obtain ⟨_, _, gone, rfl, hrewrites, _⟩ :=
          evicted_of_ensureDeviceSpace h.exact.owned.keyed hfailed
        exact ⟨gone, hrewrites⟩
    have hexact := h.exact.step hstep htotal (hthinned.alike.backed h.exact.backed)
    obtain ⟨_, _, rfl⟩ := hquiet.frame
    exact Or.inl ⟨h.of_tables hexact rfl rfl rfl, hthinned, e, rfl⟩
  · have halike := alike_prepared hprepared
    have hexact := h.exact.step hstep htotal (halike.backed h.exact.backed)
    have hguarded := hprepared.guarded
    rw [hprepared.missing] at hguarded
    refine Or.inr ⟨t, underway_prepared h hprepared hexact ?_, halike, rfl, hguarded, rfl⟩
    rcases hfits with hrefused | hbound
    · omega
    · exact hbound

/-- A new representation on the host, or nothing. -/
theorem Resting.register {mapping : LogicalStore.EvaluatedPrefixId} {component : Component}
    {representedEnd bytes reuseValue : ℕ} {result : Except Error PhysicalRepresentationId}
    (hrun : (PhysicalManager.register mapping component representedEnd bytes .host
      reuseValue).run m = .returns result m') :
    (m' = m ∧ ∃ e, result = .error e) ∨
      ∃ k, result = .ok k ∧ Enrolled m k mapping bytes m' := by
  have hstep : Step m (.register mapping component representedEnd bytes .host reuseValue) m' :=
    congrArg returned hrun
  have htotal := steady_register mapping component representedEnd bytes .host reuseValue m result
    m' hrun
  have hfresh := h.exact.owned.fresh_representation
  unfold PhysicalManager.register at hrun
  rcases Call.of_bind hrun with ⟨e, he, rfl⟩ | ⟨_, m1, hroom, hrest⟩
  · exact Or.inl ⟨failed_host he, e, rfl⟩
  have hsame : m1 = m := by
    change (ensureHostCapacity bytes).run m = _ at hroom
    rw [ensureHostCapacity_run] at hroom
    split at hroom
    · cases hroom
      rfl
    · cases hroom
  rw [hsame] at hrest
  obtain ⟨_, hrest⟩ := of_identity_bind hrest
  rcases Call.of_bind hrest with ⟨e, he, _⟩ | ⟨clock, m2, htick, hdone⟩
  · exact absurd he (infallible_tick _ _ _)
  unfold tick at htick
  simp only at htick
  split at htick
  · cases htick
  cases htick
  cases hdone
  refine Or.inr ⟨⟨m.nextId⟩, rfl, ?_, hfresh, ?_, ?_, ?_, ?_, rfl⟩
  · refine h.of_tables (h.exact.step hstep htotal ?_) rfl rfl rfl
    intro k r hk
    change (m.representations.insert ⟨m.nextId⟩ _).lookup k = some r at hk
    rw [AList.lookup_insert_ite] at hk
    by_cases hnew : k = ⟨m.nextId⟩
    · rw [if_pos hnew] at hk
      cases hk
      rfl
    · rw [if_neg hnew] at hk
      exact h.exact.backed k r hk
  · exact ⟨_, AList.lookup_insert _, rfl⟩
  · change ((m.representations.insert ⟨m.nextId⟩ _).lookup ⟨m.nextId⟩).map _ = _
    rw [AList.lookup_insert]
    rfl
  · intro j hj
    exact AList.lookup_insert_ne hj
  · have htotal := AList.total_insert_new (fun _ (r : PhysicalRepresentation) =>
      if r.device && r.references.active ≠ 0 then r.bytes else 0) m.representations ⟨m.nextId⟩
      ⟨⟨m.nextId⟩, mapping, component, representedEnd, bytes, false, true, false, ⟨1, 0, 0, 0⟩,
        m.clock + 1, reuseValue⟩ hfresh
    exact htotal.trans (Nat.zero_add _)

/-- Releasing a representation not used yet removes it. -/
theorem Resting.release {k : PhysicalRepresentationId} {result : Except Error Unit}
    (hfresh : Fresh m k) (hrun : (releaseLogicalReference k).run m = .returns result m') :
    Resting m' ∧ ∀ j, m'.representations.lookup j =
      if j = k then none else m.representations.lookup j := by
  have hstep : Step m (.releaseLogicalReference k) m' := congrArg returned hrun
  have htotal := steady_releaseLogicalReference k m result m' hrun
  obtain ⟨r, hr, hreferences⟩ := hfresh
  unfold releaseLogicalReference at hrun
  rw [Call.run_read_bind, hr, Call.run_require_some_bind, Call.run_update_bind, hreferences]
    at hrun
  cases hrun
  have hlookup : ∀ j, (m.representations.erase k).lookup j =
      if j = k then none else m.representations.lookup j :=
    fun j => AList.lookup_erase_ite k j m.representations
  refine ⟨h.of_tables (h.exact.step hstep htotal ?_) rfl rfl rfl, hlookup⟩
  intro j q hq
  have hq' := (hlookup j).symm.trans hq
  split at hq'
  · cases hq'
  · exact h.exact.backed j q hq'

theorem Resting.demote {k : PhysicalRepresentationId} {result : Except Error Unit}
    (hrun : (demoteToStorage k).run m = .returns result m') : Resting m' ∧ Alike m m' := by
  have hstep : Step m (.demoteToStorage k) m' := congrArg returned hrun
  have htotal := steady_demoteToStorage k m result m' hrun
  cases result with
  | error e => exact h.unchanged (failed_demoteToStorage hrun) hstep htotal
  | ok _ =>
    have hquiet := demoteToStorage_quiet hrun
    have hcall := hrun
    unfold demoteToStorage at hcall
    rw [Call.run_read_bind] at hcall
    rcases Call.of_require_bind hcall with ⟨_, _, hfailed⟩ | ⟨r, hr, hcall⟩
    · cases hfailed
    rcases Call.of_check_bind hcall with ⟨_, _, hfailed⟩ | ⟨hfree, _⟩
    · cases hfailed
    obtain ⟨m1, hrun', hrepresentations⟩ :=
      TierSteps.demoteToStorage_run hr ((Bool.not_eq_true' _).mp hfree)
    cases hrun.symm.trans hrun'
    have hrewrites := AList.Rewrites.of_insert m.representations k r
      { r with storage := true, host := false, device := false } hr
    rw [← hrepresentations] at hrewrites
    have halike : Alike m m' := by
      refine alike_of_rewrites hrewrites (fun j q hj => ?_)
      by_cases hjk : j = k
      · rw [if_pos hjk]
        cases hr.symm.trans (hjk ▸ hj)
        exact ⟨rfl, rfl, fun _ => rfl⟩
      · rw [if_neg hjk]
        exact Lasting.refl q
    have hexact := h.exact.step hstep htotal (halike.backed h.exact.backed)
    obtain ⟨_, _, rfl⟩ := hquiet.frame
    exact ⟨h.of_tables hexact rfl rfl rfl, halike⟩

theorem Resting.unbind {c : LogicalStore.LogicalContextId} {result : Except Error Unit}
    (hrun : (releaseBinding c).run m = .returns result m') : Resting m' ∧ Alike m m' := by
  have hstep : Step m (.releaseBinding c) m' := congrArg returned hrun
  have htotal := steady_releaseBinding c m result m' hrun
  cases hbound : m.bindings.lookup c with
  | none =>
    unfold releaseBinding PhysicalManager.unbind at hrun
    rw [Call.run_read_bind, hbound, Call.run_require_none_bind] at hrun
    cases hrun
    exact ⟨h, Alike.refl m⟩
  | some old =>
    obtain ⟨m1, hrun', hunbound⟩ := unbind_run h.exact.owned hbound
    cases hrun.symm.trans hrun'
    have halike := alike_of_rewrites hunbound.rewrites (fun _ _ _ => ⟨rfl, rfl, fun h => h⟩)
    have hexact := h.exact.step hstep htotal (halike.backed h.exact.backed)
    obtain ⟨_, _, _, rfl⟩ := hunbound.frame
    exact ⟨h.of_tables hexact rfl rfl rfl, halike⟩

end Calls

end Cusco.RestingManagers
