import Cusco.PhysicalSteps

/-!
What the operations on bindings, transitions and transfers can do. A commit moves
a transition's reservations over to a binding and drops the context's old one; an
abort gives the reservations back and detaches the transfers still under way; a
completed transfer gives up its own reference and may land its representation on
the device. Owners are accounted for after each of them.
-/

namespace Cusco.PhysicalTransitions

open Calls Physical Physical.PhysicalManager DeviceEviction PhysicalEffects PhysicalOwners
open PhysicalSteps

variable {m m' : PhysicalManager} {i : PreparedTransitionId} {t : PreparedTransition}

abbrev Context := LogicalStore.LogicalContextId

theorem dropActive_of_pos (r : ReferenceCounts) (h : 0 < r.active) :
    r.dropActive = some { r with active := r.active - 1 } := by
  unfold ReferenceCounts.dropActive
  rw [if_neg (by omega)]

theorem dropReservation_of_pos (r : ReferenceCounts) (h : 0 < r.reservations) :
    r.dropReservation = some { r with reservations := r.reservations - 1 } := by
  unfold ReferenceCounts.dropReservation
  rw [if_neg (by omega)]

theorem dropTransfer_of_pos (r : ReferenceCounts) (h : 0 < r.transfers) :
    r.dropTransfer = some { r with transfers := r.transfers - 1 } := by
  unfold ReferenceCounts.dropTransfer
  rw [if_neg (by omega)]

theorem recount_dropActive (r : PhysicalRepresentation) :
    recount ReferenceCounts.dropActive r =
      { r with references := { r.references with active := r.references.active - 1 } } := by
  unfold recount ReferenceCounts.dropActive
  by_cases hzero : r.references.active = 0
  · rw [if_pos hzero, Option.getD_none]
    cases r with
    | mk id mapping component representedEnd bytes device host storage references =>
      cases references
      simp only at hzero
      subst hzero
      rfl
  · rw [if_neg hzero, Option.getD_some]

theorem recount_dropReservation (r : PhysicalRepresentation) :
    recount ReferenceCounts.dropReservation r =
      { r with references := { r.references with
        reservations := r.references.reservations - 1 } } := by
  unfold recount ReferenceCounts.dropReservation
  by_cases hzero : r.references.reservations = 0
  · rw [if_pos hzero, Option.getD_none]
    cases r with
    | mk id mapping component representedEnd bytes device host storage references =>
      cases references
      simp only at hzero
      subst hzero
      rfl
  · rw [if_neg hzero, Option.getD_some]

/-- How often the binding of a context names a representation. -/
def oldUse (m : PhysicalManager) (c : Context) (k : PhysicalRepresentationId) : ℕ :=
  (m.bindings.lookup c).elim 0 (fun b => b.representations.count k)

def withoutBinding (m : PhysicalManager) (c : Context) (k : PhysicalRepresentationId)
    (r : PhysicalRepresentation) : PhysicalRepresentation :=
  { r with references := { r.references with active := r.references.active - oldUse m c k } }

theorem activeOwners_erase (m : PhysicalManager) (c : Context) (k : PhysicalRepresentationId) :
    activeOwners m k = oldUse m c k +
      (m.bindings.erase c).total (fun _ b => b.representations.count k) := by
  unfold activeOwners oldUse
  cases hc : m.bindings.lookup c with
  | none => rw [AList.erase_of_lookup_none m.bindings c hc, Option.elim_none, Nat.zero_add]
  | some b => exact AList.total_erase _ m.bindings c b hc

theorem dropBinding_run (m : PhysicalManager) (c : Context)
    (hbound : ∀ b, m.bindings.lookup c = some b → b.representations.Nodup ∧
      ∀ k ∈ b.representations, ∃ r, m.representations.lookup k = some r ∧
        0 < r.references.active) :
    ∃ representations, (dropBinding c).run m = .returns (.ok ())
        { m with representations := representations, bindings := m.bindings.erase c } ∧
      AList.Rewrites m.representations representations (withoutBinding m c) := by
  unfold dropBinding
  rw [Call.run_read_bind]
  cases hc : m.bindings.lookup c with
  | none =>
    refine ⟨m.representations, ?_, (AList.Rewrites.refl _).congr ?_⟩
    · rw [AList.erase_of_lookup_none m.bindings c hc]
      rfl
    · intro k r _
      simp [withoutBinding, oldUse, hc]
  | some b =>
    obtain ⟨hnodup, hstored⟩ := hbound b hc
    obtain ⟨representations, hrun, hrewrites⟩ := adjustReferences_run ReferenceCounts.dropActive
      { m with bindings := m.bindings.erase c } b.representations hnodup (by
        intro k hk
        obtain ⟨r, hr, hactive⟩ := hstored k hk
        exact ⟨r, _, hr, dropActive_of_pos _ hactive⟩)
    refine ⟨representations, ?_, hrewrites.congr ?_⟩
    · simp only [Call.run_update_bind]
      exact hrun
    · intro k r _
      unfold withoutBinding oldUse
      rw [hc, Option.elim_some, hnodup.count]
      by_cases hk : k ∈ b.representations
      · rw [if_pos hk, if_pos hk, recount_dropActive]
      · rw [if_neg hk, if_neg hk]
        rfl

/-- The binding of a context was removed. -/
structure Unbound (m : PhysicalManager) (c : Context) (m' : PhysicalManager) : Prop where
  frame : ∃ representations blockTables metrics, m' = { m with
    representations := representations
    bindings := m.bindings.erase c
    blockTables := blockTables
    metrics := metrics }
  rewrites : AList.Rewrites m.representations m'.representations (withoutBinding m c)
  gauges : GaugesExact m'

theorem unbind_run (hm : Owned m) {c : Context} {b : ActiveBinding}
    (hb : m.bindings.lookup c = some b) :
    ∃ m', (unbind c).run m = .returns (.ok ()) m' ∧ Unbound m c m' := by
  obtain ⟨representations, hrun, hrewrites⟩ := dropBinding_run (eraseBlockTable c m) c (by
    intro b' hb'
    refine ⟨(hm.bound c b' hb').1, ?_⟩
    intro k hk
    obtain ⟨r, hr, _⟩ := (hm.bound c b' hb').2 k hk
    exact ⟨r, hr, hm.active_pos hb' hk hr⟩)
  unfold unbind
  rw [Call.run_read_bind, hb, Call.run_require_some_bind, Call.run_update_bind,
    Call.run_bind_ok hrun]
  exact ⟨_, rfl, ⟨_, _, _, rfl⟩, hrewrites, gaugesExact_refresh _⟩

theorem unbind_cases (hm : Owned m) {c : Context} {result : Except Error Unit}
    (h : (unbind c).run m = .returns result m') : Quiet m m' ∨ Unbound m c m' := by
  cases hb : m.bindings.lookup c with
  | none =>
    unfold unbind at h
    rw [Call.run_read_bind, hb, Call.run_require_none_bind] at h
    cases h
    exact Or.inl (Quiet.refl _)
  | some b =>
    obtain ⟨m1, hrun, hunbound⟩ := unbind_run hm hb
    cases hrun.symm.trans h
    exact Or.inr hunbound

theorem recounts_withoutBinding (m : PhysicalManager) (c : Context) :
    Recounts (withoutBinding m c) :=
  ⟨fun _ _ => rfl, fun _ _ => rfl, fun _ _ => rfl⟩

theorem Unbound.owned {c : Context} (hu : Unbound m c m') (h : Owned m) : Owned m' := by
  have hrewrites := hu.rewrites
  have hg := recounts_withoutBinding m c
  have hkeyed := h.keyed_recounted hrewrites hg
  obtain ⟨representations, blockTables, metrics, rfl⟩ := hu.frame
  refine ⟨hkeyed, h.old_recounted hrewrites le_rfl, h.transitions_old, h.transfers_old,
    h.growth_old, ?_, ?_, fun i t ht => h.prepared_recounted hrewrites ht, ?_, h.apart,
    fun x y hy hmoving => h.moving_recounted hrewrites hg hy hmoving⟩
  · intro k r' hk
    obtain ⟨r, hr, rfl⟩ := hrewrites.of_lookup hk
    obtain ⟨hactive, hrest⟩ := h.counted k r hr
    refine ⟨?_, hrest⟩
    rw [activeOwners_erase m c k] at hactive
    change r.references.active - oldUse m c k = _
    rw [hactive, Nat.add_sub_cancel_left]
    rfl
  · intro c' b hb
    change (m.bindings.erase c).lookup c' = some b at hb
    rw [AList.lookup_erase_ite] at hb
    split at hb
    · cases hb
    · exact h.bound_recounted hrewrites hg hb
  · intro i t ht
    obtain ⟨hnodup, hlinked⟩ := h.linked i t ht
    refine ⟨hnodup, ?_⟩
    intro x hx
    obtain ⟨y, hy, hattached, hmem, harrived⟩ := hlinked x hx
    exact ⟨y, hy, hattached, hmem, harrived.recounted hrewrites hg⟩

/-- The checks of a commit pass: every transfer succeeded and every
representation is on the device. -/
structure CommitReady (m : PhysicalManager) (t : PreparedTransition) (revision : ℕ) : Prop where
  revision : t.revision = revision
  transfers : ∀ x ∈ t.transfers, ∀ y, m.transfers.lookup x = some y →
    y.completed = true ∧ y.success = true
  device : ∀ k ∈ t.representations, ∀ r, m.representations.lookup k = some r → r.device = true

/-- A representation after a commit. -/
def rebound (m : PhysicalManager) (t : PreparedTransition) (k : PhysicalRepresentationId)
    (r : PhysicalRepresentation) : PhysicalRepresentation :=
  { r with
    references := { r.references with
      active := r.references.active - oldUse m t.context k + t.representations.count k
      reservations := r.references.reservations - t.representations.count k }
    lastUsed := if k ∈ t.representations then m.clock else r.lastUsed }

structure Committed (m : PhysicalManager) (i : PreparedTransitionId) (t : PreparedTransition)
    (m' : PhysicalManager) : Prop where
  frame : ∃ representations blockTables metrics, m' = { m with
    nextId := m.nextId + 1
    representations := representations
    bindings := (m.bindings.erase t.context).insert t.context
      ⟨⟨m.nextId⟩, t.mapping, t.representations⟩
    transitions := m.transitions.erase i
    transfers := m.transfers.eraseAll t.transfers
    blockTables := blockTables
    metrics := metrics }
  rewrites : AList.Rewrites m.representations m'.representations (rebound m t)
  gauges : GaugesExact m'

theorem checkCommit_run (hm : Owned m) (ht : m.transitions.lookup i = some t) (revision : ℕ) :
    ∃ result, (checkCommit t revision).run m = .returns result m ∧
      (result = .ok () ↔ CommitReady m t revision) := by
  have htransfers : ∀ x ∈ t.transfers, ∃ y, m.transfers.lookup x = some y := by
    intro x hx
    obtain ⟨y, hy, _⟩ := (hm.linked i t ht).2 x hx
    exact ⟨y, hy⟩
  obtain ⟨checked, hchecked, hcheckediff⟩ := checkTransfers_run m t.transfers htransfers
  obtain ⟨blocks, hblocks, hblocksiff⟩ :=
    deviceBlocks_run m .transferPending t.representations (hm.prepared i t ht).2
  unfold checkCommit
  by_cases hrevision : t.revision = revision
  · rw [decide_eq_true hrevision, Call.run_check_true_bind]
    cases checked with
    | error e =>
      refine ⟨.error e, Call.run_bind_error hchecked _, ?_⟩
      constructor
      · intro h
        cases h
      · intro h
        cases hcheckediff.mpr h.transfers
    | ok _ =>
      rw [Call.run_bind_ok hchecked]
      cases blocks with
      | error e =>
        refine ⟨.error e, Call.run_bind_error hblocks _, ?_⟩
        constructor
        · intro h
          cases h
        · intro h
          obtain ⟨b, hb⟩ := hblocksiff.mpr h.device
          cases hb
      | ok b =>
        refine ⟨.ok (), Call.run_bind_ok hblocks _, ?_⟩
        refine iff_of_true rfl ⟨hrevision, hcheckediff.mp rfl, hblocksiff.mp ⟨b, rfl⟩⟩
  · rw [decide_eq_false hrevision, Call.run_check_false_bind]
    refine ⟨.error .staleRevision, rfl, ?_⟩
    constructor
    · intro h
      cases h
    · intro h
      exact absurd h.revision hrevision

/-- The commit after its checks, up to drawing the binding's identity. -/
theorem bindTransition_run (hm : Owned m) (ht : m.transitions.lookup i = some t) :
    ∃ m', Committed m i t m' ∧ (bindTransition i t).run m =
      if m.nextId = u64Max then .panics
      else .returns (.ok ⟨m.nextId⟩) m' := by
  obtain ⟨hnodup, hstored⟩ := hm.prepared i t ht
  obtain ⟨reps1, hrun1, hrewrites1⟩ := adjustReferences_run ReferenceCounts.dropReservation
    { m with transitions := m.transitions.erase i } t.representations hnodup (by
      intro k hk
      obtain ⟨r, hr⟩ := hstored k hk
      have hpos := hm.reservations_pos ht hk hr
      exact ⟨r, _, hr, dropReservation_of_pos _ hpos⟩)
  let switches (x : Metrics) : Metrics := { x with referenceSwitches :=
    if t.transitionClass = .referenceOnly && (m.bindings.lookup t.context).isSome then
      x.referenceSwitches + 1
    else x.referenceSwitches }
  let m2 : PhysicalManager := setMetrics switches (eraseBlockTable t.context
    { m with transitions := m.transitions.erase i, representations := reps1 })
  obtain ⟨reps3, hrun3, hrewrites3⟩ := dropBinding_run m2 t.context (by
    intro b hb
    refine ⟨(hm.bound t.context b hb).1, ?_⟩
    intro k hk
    obtain ⟨r, hr, _⟩ := (hm.bound t.context b hb).2 k hk
    have hpos := hm.active_pos hb hk hr
    refine ⟨_, hrewrites1.lookup_some hr, ?_⟩
    split
    · rw [recount_dropReservation]
      exact hpos
    · exact hpos)
  let m3 : PhysicalManager :=
    { m2 with representations := reps3, bindings := m2.bindings.erase t.context }
  obtain ⟨reps4, hrun4, hrewrites4⟩ := activate_run m3 t.representations hnodup (by
    intro k hk
    obtain ⟨r, hr⟩ := hstored k hk
    exact ⟨_, hrewrites3.lookup_some (hrewrites1.lookup_some hr)⟩)
  let m4 : PhysicalManager := { m3 with representations := reps4 }
  let counted (x : Metrics) : Metrics := { x with committed := x.committed + 1 }
  refine ⟨refreshCapacityMetrics (setMetrics counted { m4 with
    nextId := m4.nextId + 1
    bindings := m4.bindings.insert t.context ⟨⟨m4.nextId⟩, t.mapping, t.representations⟩
    transfers := m4.transfers.eraseAll t.transfers }), ⟨⟨_, _, _, rfl⟩, ?_,
    gaugesExact_refresh _⟩, ?_⟩
  · refine ((hrewrites1.trans hrewrites3).trans hrewrites4).congr ?_
    intro k r _
    have huse : oldUse m2 t.context k = oldUse m t.context k := rfl
    have hclock : m3.clock = m.clock := rfl
    unfold rebound withoutBinding
    rw [huse, hclock, hnodup.count]
    by_cases hk : k ∈ t.representations
    · simp only [if_pos hk, recount_dropReservation]
      rfl
    · simp only [if_neg hk]
      rfl
  · unfold bindTransition releaseTransitionRefs
    rw [Call.run_update_bind, Call.run_bind_ok hrun1, Call.run_update_bind, Call.run_read_bind,
      Call.run_update_bind]
    change (dropBinding t.context >>= _ : Operation ActiveBindingId).run m2 = _
    rw [Call.run_bind_ok hrun3]
    change (activate t.representations >>= _ : Operation ActiveBindingId).run m3 = _
    rw [Call.run_bind_ok hrun4]
    change (identity >>= _ : Operation ActiveBindingId).run m4 = _
    by_cases hmax : m.nextId = u64Max
    · have hpanic : identity.run m4 = .panics := by
        unfold identity
        simp only [m4, m3, m2, setMetrics, eraseBlockTable, if_pos hmax]
      rw [Call.run_bind, hpanic, if_pos hmax]
    · rw [Call.run_bind_ok (identity_run m4 hmax), if_neg hmax]
      rfl

theorem commitTransition_cases (hm : Owned m) {revision : ℕ} {result : Except Error ActiveBindingId}
    (h : (commitTransition i revision).run m = .returns result m') :
    (m' = m ∧ (∃ e, result = .error e) ∧
      ∀ t, m.transitions.lookup i = some t → ¬ CommitReady m t revision) ∨
    ∃ t, m.transitions.lookup i = some t ∧ CommitReady m t revision ∧ Committed m i t m' ∧
      result = .ok ⟨m.nextId⟩ := by
  unfold commitTransition at h
  rw [Call.run_read_bind] at h
  rcases Call.of_require_bind h with ⟨hnone, rfl, rfl⟩ | ⟨t, ht, h⟩
  · refine Or.inl ⟨rfl, ⟨_, rfl⟩, ?_⟩
    intro t ht
    rw [hnone] at ht
    cases ht
  obtain ⟨checked, hchecked, hiff⟩ := checkCommit_run hm ht revision
  rcases Call.of_bind h with ⟨e, he, rfl⟩ | ⟨_, m1, hok, h⟩
  · rw [hchecked] at he
    cases he
    refine Or.inl ⟨rfl, ⟨e, rfl⟩, ?_⟩
    intro u hu hready
    rw [ht] at hu
    cases hu
    cases hiff.mpr hready
  · rw [hchecked] at hok
    cases hok
    obtain ⟨m2, hcommitted, hrun⟩ := bindTransition_run hm ht
    rw [hrun] at h
    split at h
    · cases h
    · cases h
      exact Or.inr ⟨t, ht, hiff.mp rfl, hcommitted, rfl⟩

theorem reservationOwners_erase (m : PhysicalManager) (ht : m.transitions.lookup i = some t)
    (k : PhysicalRepresentationId) : reservationOwners m k = t.representations.count k +
      (m.transitions.erase i).total (fun _ u => u.representations.count k) :=
  AList.total_erase _ m.transitions i t ht

/-- A prepared transition other than `i`, after `i` was removed. -/
theorem lookup_erase_transition {i j : PreparedTransitionId} {u : PreparedTransition}
    (hu : (m.transitions.erase i).lookup j = some u) : j ≠ i ∧ m.transitions.lookup j = some u := by
  rw [AList.lookup_erase_ite] at hu
  split at hu
  · cases hu
  · rename_i hne
    exact ⟨hne, hu⟩

theorem recounts_rebound (m : PhysicalManager) (t : PreparedTransition) : Recounts (rebound m t) :=
  ⟨fun _ _ => rfl, fun _ _ => rfl, fun _ _ => rfl⟩

/-- The bindings after a commit count what the rewritten representations say. -/
theorem active_rebound (h : Owned m) (id : ActiveBindingId) {k : PhysicalRepresentationId}
    {r : PhysicalRepresentation} (hr : m.representations.lookup k = some r) :
    (rebound m t k r).references.active =
      ((m.bindings.erase t.context).insert t.context ⟨id, t.mapping, t.representations⟩).total
        (fun _ b => b.representations.count k) := by
  have hnone : (m.bindings.erase t.context).lookup t.context = none := AList.lookup_erase _ _
  have hold := activeOwners_erase m t.context k
  rw [AList.total_insert_new _ _ _ _ hnone, Nat.add_comm]
  change r.references.active - oldUse m t.context k + t.representations.count k = _
  rw [(h.counted k r hr).1, hold, Nat.add_sub_cancel_left]

/-- No other transition has a transfer of one that is finished. -/
theorem transfer_apart (h : Owned m) {i j : PreparedTransitionId} {t u : PreparedTransition}
    (ht : m.transitions.lookup i = some t) (hu : (m.transitions.erase i).lookup j = some u)
    {x : TransferId} (hx : x ∈ u.transfers) : x ∉ t.transfers := by
  obtain ⟨hne, hu⟩ := lookup_erase_transition hu
  exact fun hxt => hne (h.apart j u i t x hu ht hx hxt)

theorem Committed.owned {revision : ℕ} (hc : Committed m i t m') (h : Owned m)
    (ht : m.transitions.lookup i = some t) (hready : CommitReady m t revision) : Owned m' := by
  have hrewrites := hc.rewrites
  have hg := recounts_rebound m t
  have hkeyed := h.keyed_recounted hrewrites hg
  obtain ⟨representations, blockTables, metrics, rfl⟩ := hc.frame
  have htransfers : ∀ x y, (m.transfers.eraseAll t.transfers).lookup x = some y →
      m.transfers.lookup x = some y := by
    intro x y hy
    rw [AList.lookup_eraseAll] at hy
    split at hy
    · cases hy
    · exact hy
  refine ⟨hkeyed, h.old_recounted hrewrites (Nat.le_succ _),
    fun k u hu => Nat.lt_succ_of_lt (h.transitions_old k u (lookup_erase_transition hu).2),
    fun k y hy => Nat.lt_succ_of_lt (h.transfers_old k y (htransfers k y hy)),
    fun k g hg => Nat.lt_succ_of_lt (h.growth_old k g hg), ?_, ?_,
    fun j u hu => h.prepared_recounted hrewrites (lookup_erase_transition hu).2, ?_,
    fun j u j' u' x hu hu' => h.apart j u j' u' x (lookup_erase_transition hu).2
      (lookup_erase_transition hu').2,
    fun x y hy hmoving => h.moving_recounted hrewrites hg (htransfers x y hy) hmoving⟩
  · intro k r' hk
    obtain ⟨r, hr, rfl⟩ := hrewrites.of_lookup hk
    obtain ⟨_, hreservations, hmoving⟩ := h.counted k r hr
    have hreserved := reservationOwners_erase m ht k
    refine ⟨active_rebound h _ hr, ?_, ?_⟩
    · change r.references.reservations - t.representations.count k =
        (m.transitions.erase i).total _
      omega
    · change r.references.transfers = (m.transfers.eraseAll t.transfers).total _
      rw [hmoving, AList.total_eraseAll]
      · rfl
      · intro x hx y hy
        rw [if_neg]
        rintro ⟨_, hincomplete⟩
        rw [(hready.transfers x hx y hy).1] at hincomplete
        cases hincomplete
  · intro c b hb
    change ((m.bindings.erase t.context).insert t.context _).lookup c = some b at hb
    rw [AList.lookup_insert_ite] at hb
    by_cases hcontext : c = t.context
    · rw [if_pos hcontext] at hb
      cases hb
      obtain ⟨hnodup, hstored⟩ := h.prepared i t ht
      refine ⟨hnodup, ?_⟩
      intro k hk
      obtain ⟨r, hr⟩ := hstored k hk
      exact ⟨_, hrewrites.lookup_some hr, hready.device k hk r hr⟩
    · rw [if_neg hcontext, AList.lookup_erase_ite, if_neg hcontext] at hb
      exact h.bound_recounted hrewrites hg hb
  · intro j u hu
    obtain ⟨hnodup, hlinked⟩ := h.linked j u (lookup_erase_transition hu).2
    refine ⟨hnodup, ?_⟩
    intro x hx
    obtain ⟨y, hy, hattached, hmem, harrived⟩ := hlinked x hx
    refine ⟨y, ?_, hattached, hmem, harrived.recounted hrewrites hg⟩
    change (m.transfers.eraseAll t.transfers).lookup x = some y
    rw [AList.lookup_eraseAll, if_neg (transfer_apart h ht hu hx)]
    exact hy

/-- The block table that a mapped commit publishes. -/
def mappedTable (m : PhysicalManager) (t : PreparedTransition) (executorMapping : ℕ)
    (blocks : List DeviceBlock) : DeviceBlockTable :=
  ⟨⟨m.nextId⟩, ⟨m.nextId + 1⟩, t.mapping, executorMapping, blocks⟩

theorem commitMappedTransition_cases (hm : Owned m) {revision executorMapping : ℕ}
    {result : Except Error (ActiveBindingId × DeviceBlockTableId)}
    (h : (commitMappedTransition i revision executorMapping).run m = .returns result m') :
    (m' = m ∧ (∃ e, result = .error e) ∧
      ∀ t, m.transitions.lookup i = some t → ¬ CommitReady m t revision) ∨
    ∃ t m2 blocks, m.transitions.lookup i = some t ∧ CommitReady m t revision ∧
      Committed { m with nextId := m.nextId + 1 } i t m2 ∧
      (commitTransition i revision).run { m with nextId := m.nextId + 1 } =
        .returns (.ok ⟨m.nextId + 1⟩) m2 ∧
      (deviceBlocks .transferPending t.representations).run m = .returns (.ok blocks) m ∧
      (m' = publishTable t.context (mappedTable m t executorMapping blocks) m2 ∧
        result = .ok (⟨m.nextId + 1⟩, ⟨m.nextId⟩)) := by
  unfold commitMappedTransition at h
  rw [Call.run_read_bind] at h
  rcases Call.of_require_bind h with ⟨hnone, rfl, rfl⟩ | ⟨t, ht, h⟩
  · refine Or.inl ⟨rfl, ⟨_, rfl⟩, ?_⟩
    intro t ht
    rw [hnone] at ht
    cases ht
  have hfound : ∀ u, m.transitions.lookup i = some u → u = t := by
    intro u hu
    rw [ht] at hu
    exact (Option.some.inj hu).symm
  rcases Call.of_check_bind h with ⟨hstale, rfl, rfl⟩ | ⟨hrevision, h⟩
  · refine Or.inl ⟨rfl, ⟨_, rfl⟩, ?_⟩
    intro u hu hready
    rw [hfound u hu] at hready
    exact of_decide_eq_false hstale hready.revision
  obtain ⟨checked, hchecked, hcheckediff⟩ := checkTransfers_run m t.transfers (by
    intro x hx
    obtain ⟨y, hy, _⟩ := (hm.linked i t ht).2 x hx
    exact ⟨y, hy⟩)
  rcases Call.of_bind h with ⟨e, he, rfl⟩ | ⟨_, m1, hok, h⟩
  · rw [hchecked] at he
    cases he
    refine Or.inl ⟨rfl, ⟨_, rfl⟩, ?_⟩
    intro u hu hready
    rw [hfound u hu] at hready
    cases hcheckediff.mpr hready.transfers
  rw [hchecked] at hok
  cases hok
  obtain ⟨blocks, hblocks, hblocksiff⟩ :=
    deviceBlocks_run m .transferPending t.representations (hm.prepared i t ht).2
  rcases Call.of_bind h with ⟨e, he, rfl⟩ | ⟨b, m1, hok, h⟩
  · rw [hblocks] at he
    cases he
    refine Or.inl ⟨rfl, ⟨_, rfl⟩, ?_⟩
    intro u hu hready
    rw [hfound u hu] at hready
    obtain ⟨b, hb⟩ := hblocksiff.mpr hready.device
    cases hb
  rw [hblocks] at hok
  cases hok
  obtain ⟨_, h⟩ := of_identity_bind h
  have hnext := (published_identity m).owned hm
  have hready' : ∀ u, m.transitions.lookup i = some u →
      CommitReady { m with nextId := m.nextId + 1 } u revision → CommitReady m u revision :=
    fun u _ hr => ⟨hr.revision, hr.transfers, hr.device⟩
  rcases Call.of_bind h with ⟨e, he, _⟩ | ⟨binding, m2, hcommit, h⟩
  · rcases commitTransition_cases hnext he with ⟨_, _, hnot⟩ | ⟨_, _, _, _, hresult⟩
    · -- The checks just passed in the same tables, so they pass again.
      exfalso
      exact hnot t ht ⟨of_decide_eq_true hrevision, hcheckediff.mp rfl, hblocksiff.mp ⟨b, rfl⟩⟩
    · cases hresult
  · rcases commitTransition_cases hnext hcommit with ⟨_, ⟨e, he⟩, _⟩ | ⟨u, hu, hready, hc, hid⟩
    · cases he
    · cases hfound u hu
      cases hid
      cases h
      exact Or.inr ⟨t, m2, b, ht, hready' t ht hready, hc, hcommit, hblocks, rfl, rfl⟩

structure Aborted (m : PhysicalManager) (i : PreparedTransitionId) (t : PreparedTransition)
    (m' : PhysicalManager) : Prop where
  frame : ∃ representations transfers metrics, m' = { m with
    representations := representations
    transitions := m.transitions.erase i
    transfers := transfers
    metrics := metrics }
  rewrites : AList.Rewrites m.representations m'.representations (fun k r => { r with
    references := { r.references with
      reservations := r.references.reservations - t.representations.count k } })
  transfers : ∀ x, m'.transfers.lookup x =
    (m.transfers.lookup x).bind (fun y => if x ∈ t.transfers then detached y else some y)
  gauges : GaugesExact m'

theorem abortTransition_run (hm : Owned m) (ht : m.transitions.lookup i = some t) :
    ∃ m', (abortTransition i).run m = .returns (.ok ()) m' ∧ Aborted m i t m' := by
  obtain ⟨hlinkednodup, hlinked⟩ := hm.linked i t ht
  obtain ⟨hnodup, hstored⟩ := hm.prepared i t ht
  obtain ⟨transfers, hrun1, hlookup⟩ := detachTransfers_run
    { m with transitions := m.transitions.erase i } t.transfers hlinkednodup (by
      intro x hx
      obtain ⟨y, hy, _⟩ := hlinked x hx
      exact ⟨y, hy⟩)
  obtain ⟨representations, hrun2, hrewrites⟩ := adjustReferences_run
    ReferenceCounts.dropReservation
    { m with transitions := m.transitions.erase i, transfers := transfers }
    t.representations hnodup (by
      intro k hk
      obtain ⟨r, hr⟩ := hstored k hk
      exact ⟨r, _, hr, dropReservation_of_pos _ (hm.reservations_pos ht hk hr)⟩)
  unfold abortTransition releaseTransitionRefs
  rw [Call.run_read_bind, ht, Call.run_require_some_bind, Call.run_update_bind,
    Call.run_bind_ok hrun1, Call.run_bind_ok hrun2]
  refine ⟨_, rfl, ⟨_, _, _, rfl⟩, hrewrites.congr ?_, hlookup, gaugesExact_refresh _⟩
  intro k r _
  rw [hnodup.count]
  by_cases hk : k ∈ t.representations
  · rw [if_pos hk, if_pos hk, recount_dropReservation]
  · rw [if_neg hk, if_neg hk]
    rfl

theorem abortTransition_cases (hm : Owned m) {result : Except Error Unit}
    (h : (abortTransition i).run m = .returns result m') :
    (m' = m ∧ m.transitions.lookup i = none) ∨
      ∃ t, m.transitions.lookup i = some t ∧ Aborted m i t m' := by
  cases ht : m.transitions.lookup i with
  | none =>
    unfold abortTransition at h
    rw [Call.run_read_bind, ht, Call.run_require_none_bind] at h
    cases h
    exact Or.inl ⟨rfl, rfl⟩
  | some t =>
    obtain ⟨m1, hrun, haborted⟩ := abortTransition_run hm ht
    cases hrun.symm.trans h
    exact Or.inr ⟨t, rfl, haborted⟩

/-- Detaching a transfer or forgetting it changes no count. -/
theorem moves_detached (k : PhysicalRepresentationId) (y : Transfer) :
    (detached y).elim 0 (fun z => if z.representation = k ∧ z.completed = false then 1 else 0) =
      if y.representation = k ∧ y.completed = false then 1 else 0 := by
  unfold detached
  by_cases hcompleted : y.completed = true
  · rw [if_pos hcompleted, Option.elim_none, if_neg]
    rintro ⟨_, hincomplete⟩
    rw [hcompleted] at hincomplete
    cases hincomplete
  · rw [if_neg hcompleted]
    rfl

/-- A transfer after an abort is one from before it, but for its detachment. -/
theorem Aborted.of_transfer (ha : Aborted m i t m') {x : TransferId} {y' : Transfer}
    (hy' : m'.transfers.lookup x = some y') : ∃ y, m.transfers.lookup x = some y ∧
      y'.representation = y.representation ∧ y'.bytes = y.bytes ∧ y'.completed = y.completed := by
  rw [ha.transfers x] at hy'
  obtain ⟨y, hy, hbind⟩ := Option.bind_eq_some_iff.mp hy'
  refine ⟨y, hy, ?_⟩
  split at hbind
  · unfold detached at hbind
    split at hbind
    · cases hbind
    · cases hbind
      exact ⟨rfl, rfl, rfl⟩
  · cases hbind
    exact ⟨rfl, rfl, rfl⟩

theorem Aborted.owned (ha : Aborted m i t m') (h : Owned m) (ht : m.transitions.lookup i = some t) :
    Owned m' := by
  have hkept := @Aborted.of_transfer m m' i t ha
  have htransfers := ha.transfers
  have hrewrites := ha.rewrites
  have hg : Recounts (fun k r => { r with references := { r.references with
      reservations := r.references.reservations - t.representations.count k } }) :=
    ⟨fun _ _ => rfl, fun _ _ => rfl, fun _ _ => rfl⟩
  have hkeyed := h.keyed_recounted hrewrites hg
  obtain ⟨representations, transfers, metrics, rfl⟩ := ha.frame
  refine ⟨hkeyed, h.old_recounted hrewrites le_rfl,
    fun k u hu => h.transitions_old k u (lookup_erase_transition hu).2, ?_, h.growth_old, ?_,
    fun c b hb => h.bound_recounted hrewrites hg hb,
    fun j u hu => h.prepared_recounted hrewrites (lookup_erase_transition hu).2, ?_,
    fun j u j' u' x hu hu' => h.apart j u j' u' x (lookup_erase_transition hu).2
      (lookup_erase_transition hu').2, ?_⟩
  · intro x y' hy'
    obtain ⟨y, hy, _⟩ := hkept hy'
    exact h.transfers_old x y hy
  · intro k r' hk
    obtain ⟨r, hr, rfl⟩ := hrewrites.of_lookup hk
    obtain ⟨hactive, hreservations, hmoving⟩ := h.counted k r hr
    have hreserved := reservationOwners_erase m ht k
    refine ⟨hactive, ?_, ?_⟩
    · change r.references.reservations - t.representations.count k =
        (m.transitions.erase i).total _
      omega
    · change r.references.transfers = transfers.total _
      rw [hmoving, AList.total_of_lookup_bind _ _ m.transfers transfers htransfers]
      apply AList.total_congr
      intro x y _
      by_cases hx : x ∈ t.transfers
      · rw [if_pos hx, moves_detached]
      · rw [if_neg hx]
        rfl
  · intro j u hu
    obtain ⟨hnodup, hlinked⟩ := h.linked j u (lookup_erase_transition hu).2
    refine ⟨hnodup, ?_⟩
    intro x hx
    obtain ⟨y, hy, hattached, hmem, harrived⟩ := hlinked x hx
    refine ⟨y, ?_, hattached, hmem, harrived.recounted hrewrites hg⟩
    change transfers.lookup x = some y
    have hlookup := htransfers x
    rw [hy, Option.bind_some, if_neg (transfer_apart h ht hu hx)] at hlookup
    exact hlookup
  · intro x y' hy' hmoving
    obtain ⟨y, hy, hrepresentation, hbytes, hcompleted⟩ := hkept hy'
    rw [hrepresentation, hbytes]
    exact h.moving_recounted hrewrites hg hy (hcompleted.symm.trans hmoving)

end Cusco.PhysicalTransitions
