import Cusco.PhysicalTransfers

/-!
What preparing a transition can do. The bytes that are missing are planned first,
then room is made for them, and only then are the representations reserved and a
transfer started for each copy found off the device. Recomputing a representation
of a transition lands it on the device as a transfer would.
-/

namespace Cusco.PhysicalPreparations

open Calls Physical Physical.PhysicalManager DeviceEviction PhysicalEffects PhysicalOwners
open PhysicalSteps PhysicalTransitions PhysicalTransfers

variable {ids : List PhysicalRepresentationId} {r : PhysicalRepresentation}
variable {m m' : PhysicalManager} {k : PhysicalRepresentationId}

/-- A representation of a transition was recomputed onto the device. -/
def Recomputed (m : PhysicalManager) (i : PreparedTransitionId) (k : PhysicalRepresentationId)
    (m' : PhysicalManager) : Prop :=
  ∃ t r m1, m.transitions.lookup i = some t ∧ t.transitionClass = .recompute ∧
    k ∈ t.representations ∧ m.representations.lookup k = some r ∧ Landed m k r.bytes m1 ∧
    m' = m1.refreshCapacityMetrics

theorem quiet_refresh (m : PhysicalManager) : Quiet m m.refreshCapacityMetrics :=
  ⟨⟨_, _, rfl⟩, ⟨_, AList.Rewrites.refl _, fun _ _ _ =>
    ⟨⟨rfl, rfl, rfl, rfl, rfl, fun _ hdevice => hdevice⟩, fun hdevice => hdevice⟩⟩,
    fun _ => gaugesExact_refresh m⟩

theorem completeRecompute_run {m : PhysicalManager} (hm : Owned m) {i : PreparedTransitionId}
    {t : PreparedTransition} (ht : m.transitions.lookup i = some t)
    (hclass : t.transitionClass = .recompute) (hk : k ∈ t.representations)
    (hr : m.representations.lookup k = some r) :
    (r.device = true ∧
      (completeRecompute i k).run m = .returns (.ok ()) m.refreshCapacityMetrics) ∨
    (r.device = false ∧ pinnedBytes m + r.bytes ≤ m.capacity.deviceBytes ∧
      ∃ m1, Landed m k r.bytes m1 ∧
        (completeRecompute i k).run m = .returns (.ok ()) m1.refreshCapacityMetrics) ∨
    (r.device = false ∧ ¬ pinnedBytes m + r.bytes ≤ m.capacity.deviceBytes ∧
      ∃ m1, Evicted m m1 ∧
        (completeRecompute i k).run m = .returns (.error .deviceCapacity) m1) := by
  unfold completeRecompute
  have hlisted : (decide (t.transitionClass = .recompute) && decide (k ∈ t.representations)) =
      true := by
    rw [decide_eq_true hclass, decide_eq_true hk]
    rfl
  rw [Call.run_read_bind, ht, Call.run_require_some_bind, hlisted, Call.run_check_true_bind,
    run_representation_bind m k r hr]
  by_cases hdevice : r.device = true
  · refine Or.inl ⟨hdevice, ?_⟩
    rw [hdevice, Call.run_skipIf_true_bind]
    rfl
  · rw [Bool.not_eq_true] at hdevice
    rw [hdevice, Call.run_skipIf_false_bind]
    unfold rebuild
    rcases land_run m hm.keyed k r hr hdevice r.bytes
      (fun x => { x with recomputed := x.recomputed + 1 }) with
      ⟨hroom, m1, hlanded, hrun⟩ | ⟨hroom, m1, hevicted, hrun⟩
    · refine Or.inr (Or.inl ⟨rfl, hroom, m1, hlanded, ?_⟩)
      rw [Call.run_bind_ok hrun]
      rfl
    · exact Or.inr (Or.inr ⟨rfl, hroom, m1, hevicted, Call.run_bind_error hrun _⟩)

theorem completeRecompute_cases (hm : Owned m) {i : PreparedTransitionId}
    {result : Except Error Unit} (h : (completeRecompute i k).run m = .returns result m') :
    Quiet m m' ∨ Recomputed m i k m' := by
  have hopen := h
  unfold completeRecompute at hopen
  rw [Call.run_read_bind] at hopen
  rcases Call.of_require_bind hopen with ⟨_, rfl, _⟩ | ⟨t, ht, hopen⟩
  · exact Or.inl (Quiet.refl _)
  rcases Call.of_check_bind hopen with ⟨_, rfl, _⟩ | ⟨hlisted, hopen⟩
  · exact Or.inl (Quiet.refl _)
  rw [Bool.and_eq_true, decide_eq_true_eq, decide_eq_true_eq] at hlisted
  obtain ⟨r, hr, _⟩ := of_representation_bind hopen
  rcases completeRecompute_run hm ht hlisted.1 hlisted.2 hr with
    ⟨_, hrun⟩ | ⟨_, _, m1, hlanded, hrun⟩ | ⟨_, _, m1, hevicted, hrun⟩
  · rw [hrun] at h
    cases h
    exact Or.inl (quiet_refresh m)
  · rw [hrun] at h
    cases h
    exact Or.inr ⟨t, r, m1, ht, hlisted.1, hlisted.2, hr, hlanded, rfl⟩
  · rw [hrun] at h
    cases h
    exact Or.inl (quiet_of_evicted hevicted)

theorem Recomputed.owned {i : PreparedTransitionId} (hr : Recomputed m i k m') (h : Owned m) :
    Owned m' := by
  obtain ⟨_, _, m1, _, _, _, _, hlanded, rfl⟩ := hr
  exact owned_refresh (hlanded.owned h)

theorem presentComponents_ok {m : PhysicalManager} {mapping : LogicalStore.EvaluatedPrefixId}
    {representedEnd : ℕ} {present found : List Component}
    (h : presentComponents m mapping representedEnd present ids = .ok found) :
    ids.Nodup ∧ ∀ k ∈ ids, ∃ r, m.representations.lookup k = some r ∧ r.component ∉ present := by
  induction ids generalizing present with
  | nil => exact ⟨List.nodup_nil, fun k hk => (nomatch hk)⟩
  | cons id rest ih =>
    unfold presentComponents at h
    split at h
    · cases h
    · rename_i r hr
      split at h
      · cases h
      · rename_i hvalid
        obtain ⟨hnodup, hrest⟩ := ih h
        have hfresh : r.component ∉ present := fun hmem => hvalid (Or.inr (Or.inr hmem))
        refine ⟨List.nodup_cons.mpr ⟨?_, hnodup⟩, ?_⟩
        · intro hmem
          obtain ⟨q, hq, hnew⟩ := hrest id hmem
          cases hr.symm.trans hq
          exact hnew (List.mem_append_right _ (List.mem_singleton_self _))
        · intro k hk
          rcases List.mem_cons.mp hk with rfl | hk
          · exact ⟨r, hr, hfresh⟩
          · obtain ⟨q, hq, hnew⟩ := hrest k hk
            exact ⟨q, hq, fun hmem => hnew (List.mem_append_left _ hmem)⟩

theorem validateComposite_ok {m : PhysicalManager} {mapping : LogicalStore.EvaluatedPrefixId}
    {representedEnd : ℕ} {required : LogicalStore.ComponentMask}
    (h : m.validateComposite mapping representedEnd required ids = .ok ()) :
    ids.Nodup ∧ ∀ k ∈ ids, ∃ r, m.representations.lookup k = some r := by
  unfold validateComposite at h
  split at h
  · cases h
  · rename_i present hpresent
    obtain ⟨hnodup, hstored⟩ := presentComponents_ok hpresent
    refine ⟨hnodup, ?_⟩
    intro k hk
    obtain ⟨r, hr, _⟩ := hstored k hk
    exact ⟨r, hr⟩

/-- The bytes of the listed representations that are off the device. -/
def missingBytes (m : PhysicalManager) (ids : List PhysicalRepresentationId) : ℕ :=
  m.representations.total (fun k r => if k ∈ ids then absentBytes r else 0)

/-- A listed representation has no copy on any tier. -/
def SomeCopyless (m : PhysicalManager) (ids : List PhysicalRepresentationId) : Prop :=
  ∃ k ∈ ids, ∃ r, m.representations.lookup k = some r ∧ copyless r = true

theorem mem_movesOf_iff (representations : Representations) (ids : List PhysicalRepresentationId)
    (k : PhysicalRepresentationId) (bytes : ℕ) :
    (k, bytes) ∈ movesOf representations ids ↔ k ∈ ids ∧
      ∃ r, representations.lookup k = some r ∧ promotable r = true ∧ r.bytes = bytes := by
  unfold movesOf
  rw [List.mem_filterMap]
  constructor
  · rintro ⟨j, hj, hbind⟩
    obtain ⟨r, hr, hmove⟩ := Option.bind_eq_some_iff.mp hbind
    split at hmove
    · rename_i hpromotable
      cases hmove
      exact ⟨hj, r, hr, hpromotable, rfl⟩
    · cases hmove
  · rintro ⟨hk, r, hr, hpromotable, rfl⟩
    refine ⟨k, hk, ?_⟩
    rw [hr, Option.bind_some, if_pos hpromotable]

theorem movesOf_sublist (representations : Representations)
    (ids : List PhysicalRepresentationId) :
    ((movesOf representations ids).map Prod.fst).Sublist ids := by
  unfold movesOf
  induction ids with
  | nil => exact List.Sublist.refl _
  | cons k rest ih =>
    rw [List.filterMap_cons]
    split
    · exact ih.cons k
    · rename_i move hmove
      obtain ⟨r, _, hif⟩ := Option.bind_eq_some_iff.mp hmove
      split at hif
      · cases hif
        rw [List.map_cons]
        exact ih.cons_cons k
      · cases hif

/-- A listed representation is moved once if it has a copy to promote. -/
theorem count_movesOf (representations : Representations) (hnodup : ids.Nodup)
    (hr : representations.lookup k = some r) :
    ((movesOf representations ids).map Prod.fst).count k =
      if k ∈ ids ∧ promotable r = true then 1 else 0 := by
  rw [(hnodup.sublist (movesOf_sublist representations ids)).count]
  apply if_congr _ rfl rfl
  rw [List.mem_map]
  constructor
  · rintro ⟨⟨j, bytes⟩, hmem, rfl⟩
    obtain ⟨hk, q, hq, hpromotable, _⟩ := (mem_movesOf_iff _ _ _ _).mp hmem
    cases hr.symm.trans hq
    exact ⟨hk, hpromotable⟩
  · rintro ⟨hk, hpromotable⟩
    exact ⟨(k, r.bytes), (mem_movesOf_iff _ _ _ _).mpr ⟨hk, r, hr, hpromotable, rfl⟩, rfl⟩

def started (move : PhysicalRepresentationId × ℕ) : Transfer :=
  ⟨move.1, move.2, false, false, false⟩

def transferIds (start : ℕ) (moves : List (PhysicalRepresentationId × ℕ)) : List TransferId :=
  (List.range' start moves.length).map TransferId.mk

theorem mem_transferIds_iff (start : ℕ) (moves : List (PhysicalRepresentationId × ℕ))
    (x : TransferId) :
    x ∈ transferIds start moves ↔ start ≤ x.value ∧ x.value < start + moves.length := by
  unfold transferIds
  rw [List.mem_map]
  constructor
  · rintro ⟨n, hn, rfl⟩
    rw [List.mem_range'_1] at hn
    exact hn
  · intro hx
    exact ⟨x.value, List.mem_range'_1.mpr hx, rfl⟩

theorem transferIds_nodup (start : ℕ) (moves : List (PhysicalRepresentationId × ℕ)) :
    (transferIds start moves).Nodup := by
  unfold transferIds
  refine List.Nodup.map ?_ (List.nodup_range' (h := by decide))
  intro a b hab
  cases hab
  rfl

theorem startTransfers_old (start : ℕ) (moves : List (PhysicalRepresentationId × ℕ))
    (transfers : Table TransferId Transfer) (x : TransferId) (hx : x ∉ transferIds start moves) :
    (startTransfers start moves transfers).lookup x = transfers.lookup x := by
  rw [mem_transferIds_iff] at hx
  induction moves generalizing start transfers with
  | nil => rfl
  | cons move rest ih =>
    rw [List.length_cons] at hx
    unfold startTransfers
    rw [ih (start + 1) _ (by omega), AList.lookup_insert_ne]
    rintro rfl
    simp at hx

/-- The transfers started are those of the moves, in order. -/
theorem startTransfers_lookup (start : ℕ) (moves : List (PhysicalRepresentationId × ℕ))
    (transfers : Table TransferId Transfer) (n : ℕ) (move : PhysicalRepresentationId × ℕ)
    (hmove : moves[n]? = some move) :
    (startTransfers start moves transfers).lookup ⟨start + n⟩ = some (started move) := by
  induction moves generalizing start transfers n with
  | nil => cases hmove
  | cons head rest ih =>
    unfold startTransfers
    cases n with
    | zero =>
      cases hmove
      rw [startTransfers_old]
      · exact AList.lookup_insert transfers
      · rw [mem_transferIds_iff]
        simp
    | succ n =>
      have hnext := ih (start + 1) (transfers.insert ⟨start⟩ (started head)) n hmove
      rw [Nat.add_assoc, Nat.add_comm 1 n] at hnext
      exact hnext

theorem startTransfers_new (start : ℕ) (moves : List (PhysicalRepresentationId × ℕ))
    (transfers : Table TransferId Transfer) (x : TransferId) (hx : x ∈ transferIds start moves) :
    ∃ move ∈ moves, (startTransfers start moves transfers).lookup x = some (started move) := by
  rw [mem_transferIds_iff] at hx
  have hlt : x.value - start < moves.length := by omega
  refine ⟨moves[x.value - start], List.getElem_mem hlt, ?_⟩
  have hlookup := startTransfers_lookup start moves transfers (x.value - start) _
    (List.getElem?_eq_getElem hlt)
  rw [Nat.add_sub_cancel' hx.1] at hlookup
  exact hlookup

/-- Distinct moves are made by distinct transfers. -/
theorem startTransfers_injective (start : ℕ) (moves : List (PhysicalRepresentationId × ℕ))
    (transfers : Table TransferId Transfer) (hnodup : (moves.map Prod.fst).Nodup)
    {x x' : TransferId} (hx : x ∈ transferIds start moves) (hx' : x' ∈ transferIds start moves)
    {y y' : Transfer} (hy : (startTransfers start moves transfers).lookup x = some y)
    (hy' : (startTransfers start moves transfers).lookup x' = some y')
    (hsame : y.representation = y'.representation) : x = x' := by
  rw [mem_transferIds_iff] at hx hx'
  have hn : x.value - start < (moves.map Prod.fst).length := by
    rw [List.length_map]
    omega
  have hn' : x'.value - start < (moves.map Prod.fst).length := by
    rw [List.length_map]
    omega
  have hlookup := startTransfers_lookup start moves transfers (x.value - start) _
    (List.getElem?_eq_getElem (by rw [List.length_map] at hn; exact hn))
  have hlookup' := startTransfers_lookup start moves transfers (x'.value - start) _
    (List.getElem?_eq_getElem (by rw [List.length_map] at hn'; exact hn'))
  rw [Nat.add_sub_cancel' hx.1] at hlookup
  rw [Nat.add_sub_cancel' hx'.1] at hlookup'
  cases hlookup.symm.trans hy
  cases hlookup'.symm.trans hy'
  have helement : (moves.map Prod.fst)[x.value - start] =
      (moves.map Prod.fst)[x'.value - start] := by
    rw [List.getElem_map, List.getElem_map]
    exact hsame
  have hindex := hnodup.getElem_inj_iff.mp helement
  have hvalue : x.value = x'.value := by omega
  cases x
  cases x'
  cases hvalue
  rfl

theorem startTransfers_total (start : ℕ) (moves : List (PhysicalRepresentationId × ℕ))
    (transfers : Table TransferId Transfer)
    (hfresh : ∀ x y, transfers.lookup x = some y → x.value < start) (f : Transfer → ℕ) :
    (startTransfers start moves transfers).total (fun _ y => f y) =
      (moves.map (fun move => f (started move))).sum + transfers.total (fun _ y => f y) := by
  induction moves generalizing start transfers with
  | nil => simp [startTransfers]
  | cons move rest ih =>
    unfold startTransfers
    have hnone : transfers.lookup ⟨start⟩ = none := by
      by_contra hne
      obtain ⟨y, hy⟩ := Option.ne_none_iff_exists'.mp hne
      exact absurd (hfresh _ y hy) (lt_irrefl _)
    rw [ih (start + 1) _ ?_, AList.total_insert_new _ transfers _ _ hnone, List.map_cons,
      List.sum_cons]
    · unfold started
      omega
    · intro x y hy
      rw [AList.lookup_insert_ite] at hy
      by_cases hx : x = ⟨start⟩
      · rw [hx]
        exact Nat.lt_succ_self _
      · rw [if_neg hx] at hy
        exact Nat.lt_succ_of_lt (hfresh x y hy)

/-- Room for some bytes was made. -/
structure Spaced (m : PhysicalManager) (bytes : ℕ) (m' : PhysicalManager) : Prop where
  frame : ∃ representations metrics,
    m' = { m with representations := representations, metrics := metrics }
  room : pinnedBytes m + bytes ≤ m.capacity.deviceBytes
  fits : m'.deviceUsed + bytes ≤ m'.capacity.deviceBytes
  rewrites : AList.Rewrites m.representations m'.representations (fun _ => afterSpace m bytes)
  gauges : GaugesExact m → GaugesExact m'

/-- A transition reserved its representations and started its transfers. -/
structure Reserved (m : PhysicalManager) (t : PreparedTransition) (m' : PhysicalManager) :
    Prop where
  nodup : t.representations.Nodup
  stored : ∀ k ∈ t.representations, ∃ r, m.representations.lookup k = some r
  transfers : t.transfers =
    transferIds (m.nextId + 1) (movesOf m.representations t.representations)
  frame : ∃ representations metrics, m' = { m with
    nextId := m.nextId + 1 + (movesOf m.representations t.representations).length
    representations := representations
    transitions := m.transitions.insert ⟨m.nextId⟩ t
    transfers := startTransfers (m.nextId + 1) (movesOf m.representations t.representations)
      m.transfers
    metrics := metrics }
  rewrites : AList.Rewrites m.representations m'.representations
    (fun k r => if k ∈ t.representations then reserved r else r)
  gauges : GaugesExact m'

/-- A transition was prepared: planned, admitted and then reserved. -/
structure Prepared (m : PhysicalManager) (t : PreparedTransition) (m' : PhysicalManager) :
    Prop where
  missing : t.reservedBytes = missingBytes m t.representations
  recompute : t.transitionClass = .recompute ↔ SomeCopyless m t.representations
  referenceOnly : t.transitionClass = .referenceOnly ↔
    ¬ SomeCopyless m t.representations ∧ t.reservedBytes = 0
  guarded : guardedBytes m + t.reservedBytes ≤ m.capacity.deviceBytes
  admitted : ∃ m1, Spaced m t.reservedBytes m1 ∧ Reserved m1 t m'

theorem Spaced.quiet {bytes : ℕ} (hs : Spaced m bytes m') : Quiet m m' := by
  refine ⟨hs.frame, ⟨_, hs.rewrites, ?_⟩, hs.gauges⟩
  intro k r _
  refine ⟨unnoticed_leaving _ (isProtected_of_evicts m bytes) r, ?_⟩
  unfold afterSpace leaving
  split
  · exact fun hdevice => nomatch hdevice
  · exact fun hdevice => hdevice

theorem chosenClass_iff (recompute bound : Bool) (missing : ℕ) :
    ((if recompute then .recompute else if missing = 0 then .referenceOnly
      else if bound then .nonDestructive else .quiesced : TransitionClass) = .recompute ↔
        recompute = true) ∧
    ((if recompute then .recompute else if missing = 0 then .referenceOnly
      else if bound then .nonDestructive else .quiesced : TransitionClass) = .referenceOnly ↔
        recompute = false ∧ missing = 0) := by
  cases recompute with
  | true => simp
  | false => by_cases hzero : missing = 0 <;> cases bound <;> simp [hzero]

theorem prepareTransition_cases (hm : Owned m) {context : Context} {revision : ℕ}
    {mapping : LogicalStore.EvaluatedPrefixId} {representedEnd : ℕ}
    {required : LogicalStore.ComponentMask} {allowRecompute : Bool}
    {result : Except Error (PreparedTransitionId × TransitionClass × List TransferId)}
    (h : (prepareTransition context revision mapping representedEnd required ids
      allowRecompute).run m = .returns result m') :
    (Quiet m m' ∧ ∃ e, result = .error e) ∨
    ∃ t, Prepared m t m' ∧ t.context = context ∧ t.revision = revision ∧ t.mapping = mapping ∧
      t.representations = ids ∧ result = .ok (⟨m.nextId⟩, t.transitionClass, t.transfers) := by
  unfold prepareTransition at h
  rw [Call.run_read_bind] at h
  cases hvalid : m.validateComposite mapping representedEnd required ids with
  | error e =>
    rw [hvalid, Call.run_bind_error (show (Call.ofExcept (.error e) : Operation Unit).run m =
      .returns (.error e) m from rfl)] at h
    cases h
    exact Or.inl ⟨Quiet.refl _, e, rfl⟩
  | ok _ =>
    obtain ⟨hnodup, hstored⟩ := validateComposite_ok hvalid
    rw [hvalid, Call.run_bind_ok (show (Call.ofExcept (.ok ()) : Operation Unit).run m =
      .returns (.ok ()) m from rfl)] at h
    obtain ⟨planned, hplan, hplanned⟩ := planMissing_run m allowRecompute ids hstored 0 false
    rcases Call.of_bind h with ⟨e, he, rfl⟩ | ⟨⟨missing, recompute⟩, m1, hok, h⟩
    · rw [hplan] at he
      cases he
      exact Or.inl ⟨Quiet.refl _, e, rfl⟩
    rw [hplan] at hok
    cases hok
    obtain ⟨hmissing, hrecompute⟩ := hplanned _ rfl
    simp only [Nat.zero_add, Bool.false_eq_true, false_or] at hmissing hrecompute
    change recompute = true ↔ SomeCopyless m ids at hrecompute
    rcases Call.of_bind h with ⟨e, he, rfl⟩ | ⟨_, m2, hspace, h⟩
    · exact Or.inl ⟨quiet_of_evicted (evicted_of_ensureDeviceCapacity hm.keyed he), e, rfl⟩
    obtain ⟨hguarded, hroom, representations, metrics, rfl, hrewrites, hgauges⟩ :=
      ensureDeviceCapacity_ok hm.keyed hspace
    rw [Call.run_read_bind] at h
    obtain ⟨_, h⟩ := of_identity_bind h
    rcases Call.of_bind h with ⟨e, he, _⟩ | ⟨transfers, m3, hreserve, h⟩
    · obtain ⟨_, hresult, _⟩ := reserveRepresentations_run _ _ ids hnodup _ he
      cases hresult
    obtain ⟨representations', hresult, rfl, hrewrites'⟩ :=
      reserveRepresentations_run _ _ ids hnodup _ hreserve
    cases hresult
    cases h
    obtain ⟨t, ht⟩ : ∃ t : PreparedTransition, t = ⟨context, revision, mapping, ids,
        transferIds (m.nextId + 1) (movesOf representations ids), missing,
        if recompute then .recompute else if missing = 0 then .referenceOnly
        else if (m.bindings.lookup context).isSome then .nonDestructive else .quiesced⟩ :=
      ⟨_, rfl⟩
    have hclass : t.transitionClass = if recompute then .recompute else if missing = 0 then
        .referenceOnly else if (m.bindings.lookup context).isSome then .nonDestructive
        else .quiesced := by rw [ht]
    have hids : t.representations = ids := by rw [ht]
    have hbytes : t.reservedBytes = missing := by rw [ht]
    have hspaced : Spaced m t.reservedBytes
        { m with representations := representations, metrics := metrics } := by
      rw [hbytes]
      exact ⟨⟨_, _, rfl⟩, hroom, deviceUsed_of_ensureDeviceCapacity hspace, hrewrites, hgauges⟩
    refine Or.inr ⟨t, ⟨?_, ?_, ?_, by rw [hbytes]; exact hguarded, _, hspaced, ?_⟩,
      by rw [ht], by rw [ht], by rw [ht], hids, by rw [ht]; rfl⟩
    · rw [hbytes, hids, hmissing]
      exact AList.total_of_nodup (fun _ => absentBytes) m.representations ids hnodup
    · rw [hclass, hids, (chosenClass_iff recompute _ missing).1]
      exact hrecompute
    · rw [hclass, hids, hbytes, (chosenClass_iff recompute _ missing).2, ← hrecompute,
        Bool.not_eq_true]
    · subst ht
      refine ⟨hnodup, ?_, rfl, ⟨_, _, rfl⟩, hrewrites', gaugesExact_refresh _⟩
      intro k hk
      obtain ⟨r, hr⟩ := hstored k hk
      exact ⟨_, hrewrites.lookup_some hr⟩

theorem sum_started (moves : List (PhysicalRepresentationId × ℕ)) (k : PhysicalRepresentationId) :
    (moves.map (fun move => if (started move).representation = k ∧
      (started move).completed = false then 1 else 0)).sum = (moves.map Prod.fst).count k := by
  induction moves with
  | nil => rfl
  | cons move rest ih =>
    rw [List.map_cons, List.sum_cons, ih, List.map_cons, List.count_cons]
    by_cases hk : move.1 = k
    · rw [if_pos ⟨hk, rfl⟩, if_pos (beq_iff_eq.mpr hk), Nat.add_comm]
    · rw [if_neg (fun h => hk h.1), if_neg (fun h => hk (beq_iff_eq.mp h)), Nat.zero_add,
        Nat.add_zero]

/-- The incomplete transfers of a representation after a preparation. -/
theorem transferOwners_startTransfers {m : PhysicalManager} (h : Owned m) (hnodup : ids.Nodup)
    (hr : m.representations.lookup k = some r) :
    (startTransfers (m.nextId + 1) (movesOf m.representations ids) m.transfers).total
      (fun _ y => if y.representation = k ∧ y.completed = false then 1 else 0) =
      transferOwners m k + if k ∈ ids ∧ promotable r = true then 1 else 0 := by
  rw [startTransfers_total _ _ _ (fun x y hy => Nat.lt_succ_of_lt (h.transfers_old x y hy))
    (fun y => if y.representation = k ∧ y.completed = false then 1 else 0), sum_started,
    count_movesOf m.representations hnodup hr, Nat.add_comm]
  rfl

/-- An old transfer keeps its entry when new ones are started. -/
theorem startTransfers_of_lookup {m : PhysicalManager} (h : Owned m)
    (moves : List (PhysicalRepresentationId × ℕ)) {x : TransferId} {y : Transfer}
    (hy : m.transfers.lookup x = some y) :
    (startTransfers (m.nextId + 1) moves m.transfers).lookup x = some y := by
  rw [startTransfers_old, hy]
  rw [mem_transferIds_iff]
  have hold := h.transfers_old x y hy
  omega

theorem recounts_reserved (ids : List PhysicalRepresentationId) :
    Recounts (fun k r => if k ∈ ids then reserved r else r) := by
  refine ⟨?_, ?_, ?_⟩ <;> intro k r <;> split <;> rfl

section Reserved

variable {t : PreparedTransition} (hreserved : Reserved m t m') (h : Owned m)

include hreserved

/-- A transition after the preparation is the new one or was there before. -/
theorem Reserved.of_transition (hold : ∀ i u, m.transitions.lookup i = some u → i.value < m.nextId)
    {i : PreparedTransitionId} {u : PreparedTransition} (hu : m'.transitions.lookup i = some u) :
    (i = ⟨m.nextId⟩ ∧ u = t) ∨ (i.value < m.nextId ∧ m.transitions.lookup i = some u) := by
  obtain ⟨representations, metrics, rfl⟩ := hreserved.frame
  dsimp only at hu
  rw [AList.lookup_insert_ite] at hu
  by_cases hi : i = ⟨m.nextId⟩
  · rw [if_pos hi] at hu
    exact Or.inl ⟨hi, (Option.some.inj hu).symm⟩
  · rw [if_neg hi] at hu
    exact Or.inr ⟨hold i u hu, hu⟩

/-- A transfer of the new transition moves one of its representations. -/
theorem Reserved.new_transfer {x : TransferId} (hx : x ∈ t.transfers) :
    m.nextId < x.value ∧ ∃ k r, m'.transfers.lookup x = some (started (k, r.bytes)) ∧
      k ∈ t.representations ∧ m.representations.lookup k = some r := by
  obtain ⟨representations, metrics, rfl⟩ := hreserved.frame
  rw [hreserved.transfers] at hx
  obtain ⟨⟨k, bytes⟩, hmem, hlookup⟩ := startTransfers_new _ _ m.transfers x hx
  obtain ⟨hk, r, hr, _, rfl⟩ := (mem_movesOf_iff _ _ _ _).mp hmem
  rw [mem_transferIds_iff] at hx
  exact ⟨by omega, k, r, hlookup, hk, hr⟩

/-- A transfer after the preparation belongs to the new transition or was there before. -/
theorem Reserved.of_transfer {x : TransferId} {y : Transfer}
    (hy : m'.transfers.lookup x = some y) :
    (x ∈ t.transfers ∧ x.value < m'.nextId) ∨ m.transfers.lookup x = some y := by
  obtain ⟨representations, metrics, rfl⟩ := hreserved.frame
  rw [hreserved.transfers]
  by_cases hx : x ∈ transferIds (m.nextId + 1) (movesOf m.representations t.representations)
  · refine Or.inl ⟨hx, ?_⟩
    rw [mem_transferIds_iff] at hx
    exact hx.2
  · exact Or.inr ((startTransfers_old _ _ m.transfers x hx).symm.trans hy)

include h

theorem Reserved.counted {r' : PhysicalRepresentation}
    (hk : m'.representations.lookup k = some r') : r'.references.active = activeOwners m' k ∧
      r'.references.reservations = reservationOwners m' k ∧
      r'.references.transfers = transferOwners m' k := by
  have hrewrites := hreserved.rewrites
  obtain ⟨representations, metrics, rfl⟩ := hreserved.frame
  obtain ⟨r, hr, rfl⟩ := hrewrites.of_lookup hk
  obtain ⟨hactive, hreservations, htransfers⟩ := h.counted k r hr
  have hreserve := AList.total_insert_new
    (fun (_ : PreparedTransitionId) (u : PreparedTransition) => u.representations.count k)
    m.transitions ⟨m.nextId⟩ t h.fresh_transition
  have hstart := transferOwners_startTransfers h hreserved.nodup hr
  rw [hreserved.nodup.count] at hreserve
  refine ⟨?_, ?_, ?_⟩
  · split <;> exact hactive
  · change _ = (m.transitions.insert ⟨m.nextId⟩ t).total _
    rw [hreserve]
    change _ = _ + reservationOwners m k
    rw [← hreservations]
    split
    · exact Nat.add_comm _ _
    · exact (Nat.zero_add _).symm
  · change _ = (startTransfers _ _ m.transfers).total _
    rw [hstart, ← htransfers]
    by_cases hlisted : k ∈ t.representations
    · rw [if_pos hlisted]
      change r.references.transfers + _ = _
      congr 1
      exact if_congr (by simp [hlisted]) rfl rfl
    · rw [if_neg hlisted, if_neg (fun hboth => hlisted hboth.1)]
      rfl

theorem Reserved.linked {i : PreparedTransitionId} {u : PreparedTransition}
    (hu : m'.transitions.lookup i = some u) : u.transfers.Nodup ∧
      ∀ x ∈ u.transfers, ∃ y, m'.transfers.lookup x = some y ∧ y.detached = false ∧
        y.representation ∈ u.representations ∧ Arrived m' y := by
  rcases hreserved.of_transition h.transitions_old hu with ⟨_, rfl⟩ | ⟨_, hu⟩
  · refine ⟨by rw [hreserved.transfers]; exact transferIds_nodup _ _, ?_⟩
    intro x hx
    obtain ⟨_, k, r, hlookup, hk, _⟩ := hreserved.new_transfer hx
    exact ⟨_, hlookup, rfl, hk, fun hcompleted => nomatch hcompleted⟩
  · obtain ⟨hnodup, hlinked⟩ := h.linked i u hu
    refine ⟨hnodup, ?_⟩
    intro x hx
    obtain ⟨y, hy, hattached, hmem, harrived⟩ := hlinked x hx
    refine ⟨y, ?_, hattached, hmem,
      harrived.recounted hreserved.rewrites (recounts_reserved t.representations)⟩
    obtain ⟨representations, metrics, rfl⟩ := hreserved.frame
    exact startTransfers_of_lookup h _ hy

/-- The new transition has no transfer of an old one. -/
theorem Reserved.apart {i j : PreparedTransitionId} {u v : PreparedTransition} {x : TransferId}
    (hu : m'.transitions.lookup i = some u) (hv : m'.transitions.lookup j = some v)
    (hxu : x ∈ u.transfers) (hxv : x ∈ v.transfers) : i = j := by
  have hold : ∀ i u, m.transitions.lookup i = some u → x ∈ u.transfers → x.value < m.nextId := by
    intro i u hu hx
    obtain ⟨y, hy, _⟩ := (h.linked i u hu).2 x hx
    exact h.transfers_old x y hy
  rcases hreserved.of_transition h.transitions_old hu with ⟨rfl, rfl⟩ | ⟨_, hu'⟩
  · rcases hreserved.of_transition h.transitions_old hv with ⟨rfl, _⟩ | ⟨_, hv'⟩
    · rfl
    · exact absurd (hreserved.new_transfer hxu).1 (Nat.lt_asymm (hold j v hv' hxv))
  · rcases hreserved.of_transition h.transitions_old hv with ⟨_, rfl⟩ | ⟨_, hv'⟩
    · exact absurd (hreserved.new_transfer hxv).1 (Nat.lt_asymm (hold i u hu' hxu))
    · exact h.apart i u j v x hu' hv' hxu hxv

theorem Reserved.moving {x : TransferId} {y : Transfer} (hy : m'.transfers.lookup x = some y)
    (hmoving : y.completed = false) :
    ∃ r, m'.representations.lookup y.representation = some r ∧ y.bytes = r.bytes := by
  have hg := recounts_reserved t.representations
  rcases hreserved.of_transfer hy with ⟨hx, _⟩ | hy
  · obtain ⟨_, k, r, hlookup, _, hr⟩ := hreserved.new_transfer hx
    cases hlookup.symm.trans hy
    exact ⟨_, hreserved.rewrites.lookup_some hr, (hg.bytes k r).symm⟩
  · exact h.moving_recounted hreserved.rewrites hg hy hmoving

theorem Reserved.owned : Owned m' := by
  have hrewrites := hreserved.rewrites
  have hg := recounts_reserved t.representations
  obtain ⟨hnext, hgrowth, hbindings⟩ : m.nextId < m'.nextId ∧ m'.growth = m.growth ∧
      m'.bindings = m.bindings := by
    obtain ⟨representations, metrics, rfl⟩ := hreserved.frame
    exact ⟨Nat.lt_add_right _ (Nat.lt_succ_self _), rfl, rfl⟩
  refine ⟨h.keyed_recounted hrewrites hg, h.old_recounted hrewrites hnext.le, ?_, ?_, ?_,
    fun k r' hk => hreserved.counted h hk, ?_, ?_, fun i u hu => hreserved.linked h hu,
    fun i u j v x hu hv => hreserved.apart h hu hv,
    fun x y hy hmoving => hreserved.moving h hy hmoving⟩
  · intro i u hu
    rcases hreserved.of_transition h.transitions_old hu with ⟨rfl, _⟩ | ⟨hold, _⟩
    · exact hnext
    · exact Nat.lt_trans hold hnext
  · intro x y hy
    rcases hreserved.of_transfer hy with ⟨_, hx⟩ | hy
    · exact hx
    · exact Nat.lt_trans (h.transfers_old x y hy) hnext
  · intro k g hold
    rw [hgrowth] at hold
    exact Nat.lt_trans (h.growth_old k g hold) hnext
  · intro c b hb
    rw [hbindings] at hb
    exact h.bound_recounted hrewrites hg hb
  · intro i u hu
    rcases hreserved.of_transition h.transitions_old hu with ⟨_, rfl⟩ | ⟨_, hu⟩
    · refine ⟨hreserved.nodup, ?_⟩
      intro k hk
      obtain ⟨r, hr⟩ := hreserved.stored k hk
      exact ⟨_, hrewrites.lookup_some hr⟩
    · exact h.prepared_recounted hrewrites hu

end Reserved

theorem Prepared.owned {t : PreparedTransition} (hp : Prepared m t m') (h : Owned m) :
    Owned m' := by
  obtain ⟨m1, hspaced, hreserved⟩ := hp.admitted
  exact hreserved.owned (hspaced.quiet.owned h)

/-- A transfer of the list is bringing a representation to the device. -/
def Moving (m : PhysicalManager) (transfers : List TransferId) (k : PhysicalRepresentationId)
    (x : TransferId) : Prop :=
  x ∈ transfers ∧ ∃ y, m.transfers.lookup x = some y ∧ y.representation = k ∧ y.completed = false

/-- A representation after room was made, by whether it was evicted. -/
theorem afterSpace_device (m : PhysicalManager) (bytes : ℕ) (r : PhysicalRepresentation) :
    (afterSpace m bytes r).device = true ↔ r.device = true ∧ evicts m bytes r = false := by
  unfold afterSpace leaving
  by_cases hevicts : evicts m bytes r = true
  · rw [if_pos hevicts]
    simp [hevicts]
  · rw [if_neg hevicts]
    simp [hevicts]

theorem afterSpace_bytes (m : PhysicalManager) (bytes : ℕ) (r : PhysicalRepresentation) :
    (afterSpace m bytes r).bytes = r.bytes := by
  unfold afterSpace leaving
  split <;> rfl

theorem afterSpace_copies (m : PhysicalManager) (bytes : ℕ) (r : PhysicalRepresentation) :
    (afterSpace m bytes r).host = r.host ∧ (afterSpace m bytes r).storage = r.storage := by
  unfold afterSpace leaving
  split <;> exact ⟨rfl, rfl⟩

theorem absentBytes_afterSpace (m : PhysicalManager) (bytes : ℕ) (r : PhysicalRepresentation) :
    absentBytes (afterSpace m bytes r) =
      absentBytes r + if evicts m bytes r = true then r.bytes else 0 := by
  have hdevice := afterSpace_device m bytes r
  unfold absentBytes
  rw [afterSpace_bytes]
  by_cases hevicts : evicts m bytes r = true
  · have hresident : r.device = true := by
      simp only [evicts, Bool.and_eq_true] at hevicts
      exact hevicts.1.1
    simp [hdevice, hevicts, hresident]
  · simp [hdevice, hevicts]

/-- A representation has no copy once room was made if it had none before, or was
evicted without one. -/
theorem copyless_afterSpace (m : PhysicalManager) (bytes : ℕ) (r : PhysicalRepresentation) :
    copyless (afterSpace m bytes r) = true ↔
      (r.device = false ∨ evicts m bytes r = true) ∧ (r.host || r.storage) = false := by
  have hdevice := afterSpace_device m bytes r
  obtain ⟨hhost, hstorage⟩ := afterSpace_copies m bytes r
  unfold copyless
  rw [hhost, hstorage, Bool.and_eq_true, Bool.not_eq_true', Bool.not_eq_true',
    ← Bool.not_eq_true (afterSpace m bytes r).device, hdevice, not_and_or, Bool.not_eq_true,
    Bool.not_eq_false]

section Prepared

variable {t : PreparedTransition} (hp : Prepared m t m')

include hp

/-- A listed representation once the transition is prepared. -/
theorem lookup_of_prepared (hk : k ∈ t.representations) (hr : m.representations.lookup k = some r) :
    m'.representations.lookup k =
      some (reserved (afterSpace m t.reservedBytes r)) := by
  obtain ⟨m1, hspaced, hreserved⟩ := hp.admitted
  have hlookup := hreserved.rewrites.lookup_some (hspaced.rewrites.lookup_some hr)
  rw [if_pos hk] at hlookup
  exact hlookup

theorem stored_of_prepared (hk : k ∈ t.representations) :
    ∃ r, m.representations.lookup k = some r := by
  obtain ⟨m1, hspaced, hreserved⟩ := hp.admitted
  obtain ⟨r1, hr1⟩ := hreserved.stored k hk
  obtain ⟨r, hr, _⟩ := hspaced.rewrites.of_lookup hr1
  exact ⟨r, hr⟩

/-- The transfer started for a representation that was promotable once room was made. -/
theorem moving_of_promotable (hk : k ∈ t.representations) (hr : m.representations.lookup k = some r)
    (hpromotable : promotable (afterSpace m t.reservedBytes r) = true) :
    ∃! x, Moving m' t.transfers k x := by
  obtain ⟨m1, hspaced, hreserved⟩ := hp.admitted
  have hids := hreserved.transfers
  have hnodup := hreserved.nodup.sublist
    (movesOf_sublist m1.representations t.representations)
  have hmove := (mem_movesOf_iff m1.representations t.representations k _).mpr
    ⟨hk, _, hspaced.rewrites.lookup_some hr, hpromotable, rfl⟩
  obtain ⟨n, hn, hget⟩ := List.getElem_of_mem hmove
  have hlookup := startTransfers_lookup (m1.nextId + 1) _ m1.transfers n _
    (List.getElem?_eq_getElem hn)
  rw [hget] at hlookup
  obtain ⟨representations, metrics, rfl⟩ := hreserved.frame
  refine ⟨⟨m1.nextId + 1 + n⟩, ⟨?_, _, hlookup, rfl, rfl⟩, ?_⟩
  · rw [hids, mem_transferIds_iff]
    exact ⟨Nat.le_add_right _ _, Nat.add_lt_add_left hn _⟩
  · rintro x ⟨hx, y, hy, hsame, _⟩
    rw [hids] at hx
    refine startTransfers_injective _ _ m1.transfers hnodup hx ?_ hy hlookup hsame
    rw [mem_transferIds_iff]
    exact ⟨Nat.le_add_right _ _, Nat.add_lt_add_left hn _⟩

theorem promotable_of_moving (hr : m.representations.lookup k = some r) {x : TransferId}
    (hx : Moving m' t.transfers k x) : promotable (afterSpace m t.reservedBytes r) = true := by
  obtain ⟨m1, hspaced, hreserved⟩ := hp.admitted
  obtain ⟨hmem, y, hy, hsame, _⟩ := hx
  rw [hreserved.transfers] at hmem
  obtain ⟨⟨j, bytes⟩, hmove, hstarted⟩ := startTransfers_new _ _ m1.transfers x hmem
  obtain ⟨representations, metrics, rfl⟩ := hreserved.frame
  cases hstarted.symm.trans hy
  obtain ⟨_, q, hq, hpromotable, _⟩ := (mem_movesOf_iff _ _ _ _).mp hmove
  change j = k at hsame
  rw [hsame] at hq
  cases (hspaced.rewrites.lookup_some hr).symm.trans hq
  exact hpromotable

/-- A transfer of the transition just prepared is under way to a listed representation. -/
theorem moving_of_mem {x : TransferId} (hx : x ∈ t.transfers) :
    ∃ k ∈ t.representations, Moving m' t.transfers k x := by
  obtain ⟨m1, hspaced, hreserved⟩ := hp.admitted
  have hmem := hx
  rw [hreserved.transfers] at hmem
  obtain ⟨⟨j, bytes⟩, hmove, hstarted⟩ := startTransfers_new _ _ m1.transfers x hmem
  obtain ⟨representations, metrics, rfl⟩ := hreserved.frame
  exact ⟨j, ((mem_movesOf_iff _ _ _ _).mp hmove).1, hx, _, hstarted, rfl, rfl⟩

theorem found_of_prepared : m'.transitions.lookup ⟨m.nextId⟩ = some t := by
  obtain ⟨m1, hspaced, hreserved⟩ := hp.admitted
  obtain ⟨representations, metrics, rfl⟩ := hspaced.frame
  obtain ⟨representations', metrics', rfl⟩ := hreserved.frame
  exact AList.lookup_insert m.transitions

end Prepared

end Cusco.PhysicalPreparations
