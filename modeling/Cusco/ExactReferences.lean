import Cusco.TransferSteps

/-!
The reference counts of the physical manager. In every reachable state they are the numbers
of bindings, transitions and incomplete transfers that name a representation, and everything
that one table names is in the other. So no call indexes past a table or takes a count below
zero: it returns as long as the counters of identities and of time have room.
-/

namespace Cusco.ExactReferences

open Calls Physical Physical.PhysicalManager DeviceEviction PhysicalEffects PhysicalOwners
open PhysicalSteps PhysicalTransitions PhysicalTransfers PhysicalPreparations PhysicalRuns Runs
open TransferSteps

variable {m : PhysicalManager}

/-- The number of bindings that name a representation. -/
def bindingsNaming (m : PhysicalManager) (k : PhysicalRepresentationId) : ℕ :=
  m.bindings.entries.countP (fun e => k ∈ e.2.representations)

def transitionsNaming (m : PhysicalManager) (k : PhysicalRepresentationId) : ℕ :=
  m.transitions.entries.countP (fun e => k ∈ e.2.representations)

/-- The number of incomplete transfers of a representation, attached or detached. -/
def transfersNaming (m : PhysicalManager) (k : PhysicalRepresentationId) : ℕ :=
  m.transfers.entries.countP (fun e => e.2.representation = k && !e.2.completed)

theorem activeOwners_eq (hm : Owned m) (k : PhysicalRepresentationId) :
    activeOwners m k = bindingsNaming m k := by
  unfold bindingsNaming
  rw [AList.countP_entries]
  refine AList.total_congr _ _ _ (fun c b hb => ?_)
  rw [(hm.bound c b hb).1.count]
  simp only [decide_eq_true_eq]

theorem reservationOwners_eq (hm : Owned m) (k : PhysicalRepresentationId) :
    reservationOwners m k = transitionsNaming m k := by
  unfold transitionsNaming
  rw [AList.countP_entries]
  refine AList.total_congr _ _ _ (fun i t ht => ?_)
  rw [(hm.prepared i t ht).1.count]
  simp only [decide_eq_true_eq]

theorem transferOwners_eq (m : PhysicalManager) (k : PhysicalRepresentationId) :
    transferOwners m k = transfersNaming m k := by
  unfold transfersNaming
  rw [AList.countP_entries]
  refine AList.total_congr _ _ _ (fun x y _ => ?_)
  simp only [Bool.and_eq_true, decide_eq_true_eq, Bool.not_eq_true']

/-- A transfer is attached to a transition, or detached and under way. -/
def Attached (m : PhysicalManager) : Prop :=
  ∀ x y, m.transfers.lookup x = some y →
    (y.detached = true ∧ y.completed = false) ∨
      ∃ i t, m.transitions.lookup i = some t ∧ x ∈ t.transfers

theorem attached_step {m m' : PhysicalManager} {a : Action} (hm : Owned m) (h : Attached m)
    (hstep : Step m a m') : Attached m' := by
  intro x y' hy'
  cases transferChange_of_step hm hstep hy' with
  | same hy hkept =>
    rcases h x y' hy with hloose | ⟨i, t, ht, hx⟩
    · exact Or.inl hloose
    · exact Or.inr ⟨i, t, hkept i t ht hx, hx⟩
  | started t r ht hx _ _ _ => exact Or.inr ⟨_, t, ht, hx⟩
  | settled y success hy hattached _ hkept =>
    rcases h x y hy with ⟨hdetached, _⟩ | ⟨i, t, ht, hx⟩
    · rw [hattached] at hdetached
      cases hdetached
    · exact Or.inr ⟨i, t, hkept ▸ ht, hx⟩
  | detached y _ hmoving heq =>
    rw [heq]
    exact Or.inl ⟨rfl, hmoving⟩

/-- The counts of the stored representations, and the names that the tables hold. -/
structure Exact (m : PhysicalManager) : Prop where
  active : ∀ k r, m.representations.lookup k = some r → r.references.active = bindingsNaming m k
  reservations : ∀ k r, m.representations.lookup k = some r →
    r.references.reservations = transitionsNaming m k
  transfers : ∀ k r, m.representations.lookup k = some r →
    r.references.transfers = transfersNaming m k
  bound : ∀ c b, m.bindings.lookup c = some b →
    ∀ k ∈ b.representations, ∃ r, m.representations.lookup k = some r
  prepared : ∀ i t, m.transitions.lookup i = some t →
    ∀ k ∈ t.representations, ∃ r, m.representations.lookup k = some r
  moved : ∀ x y, m.transfers.lookup x = some y →
    ∃ r, m.representations.lookup y.representation = some r
  linked : ∀ i t, m.transitions.lookup i = some t →
    ∀ x ∈ t.transfers, ∃ y, m.transfers.lookup x = some y

theorem exact_of_owned (hm : Owned m) (h : Attached m) : Exact m := by
  constructor
  · intro k r hr
    rw [← activeOwners_eq hm]
    exact (hm.counted k r hr).1
  · intro k r hr
    rw [← reservationOwners_eq hm]
    exact (hm.counted k r hr).2.1
  · intro k r hr
    rw [← transferOwners_eq]
    exact (hm.counted k r hr).2.2
  · intro c b hb k hk
    obtain ⟨r, hr, _⟩ := (hm.bound c b hb).2 k hk
    exact ⟨r, hr⟩
  · intro i t ht
    exact (hm.prepared i t ht).2
  · intro x y hy
    rcases h x y hy with ⟨_, hmoving⟩ | ⟨i, t, ht, hx⟩
    · obtain ⟨r, hr, _⟩ := hm.moving x y hy hmoving
      exact ⟨r, hr⟩
    · obtain ⟨z, hz, _, hmem, _⟩ := (hm.linked i t ht).2 x hx
      cases hy.symm.trans hz
      exact (hm.prepared i t ht).2 _ hmem
  · intro i t ht x hx
    obtain ⟨y, hy, _⟩ := (hm.linked i t ht).2 x hx
    exact ⟨y, hy⟩

/-- The identities that a call may draw. -/
def drawn : Action → ℕ
  | .register .. => 1
  | .reserveGrowth _ => 1
  | .prepareTransition _ _ _ _ _ ids _ => 1 + ids.length
  | .commitTransition .. => 1
  | .commitMappedTransition .. => 2
  | .publishDeviceBlockTable .. => 1
  | _ => 0

/-- The ticks of the clock. -/
def ticks : Action → ℕ
  | .register .. => 1
  | _ => 0

/-- The counters do not run out during a call. -/
structure HasRoom (m : PhysicalManager) (a : Action) : Prop where
  identities : 0 < drawn a → m.nextId + drawn a ≤ u64Max
  clock : 0 < ticks a → m.clock + ticks a ≤ u64Max

theorem returns_identity_bind {β : Type} {f : ℕ → Operation β} (hroom : m.nextId < u64Max)
    (h : Call.Returns (f m.nextId) { m with nextId := m.nextId + 1 }) :
    Call.Returns (identity >>= f) m := by
  refine Call.Returns.bind ⟨_, _, identity_run m hroom.ne⟩ (fun n m' hrun => ?_)
  cases (identity_run m hroom.ne).symm.trans hrun
  exact h

theorem returns_tick_bind {β : Type} {f : ℕ → Operation β} (hroom : m.clock < u64Max)
    (h : Call.Returns (f (m.clock + 1)) { m with clock := m.clock + 1 }) :
    Call.Returns (tick >>= f) m := by
  have htick : tick.run m = .returns (.ok (m.clock + 1)) { m with clock := m.clock + 1 } := by
    unfold tick
    simp only [if_neg hroom.ne]
  refine Call.Returns.bind ⟨_, _, htick⟩ (fun n m' hrun => ?_)
  cases htick.symm.trans hrun
  exact h

theorem returns_ensureDeviceCapacity (hm : Owned m) (additional : ℕ) :
    Call.Returns (ensureDeviceCapacity additional) m := by
  unfold Call.Returns
  rw [ensureDeviceCapacity_run]
  by_cases hroom : guardedBytes m + additional ≤ m.capacity.deviceBytes
  · rw [if_pos hroom]
    obtain ⟨_, _, hrun, _⟩ := ensureDeviceSpace_spec additional m hm.keyed
    exact ⟨_, _, hrun⟩
  · rw [if_neg hroom]
    exact ⟨_, _, rfl⟩

theorem returns_ensureHostCapacity (m : PhysicalManager) (additional : ℕ) :
    Call.Returns (ensureHostCapacity additional) m := by
  unfold Call.Returns
  rw [ensureHostCapacity_run]
  split
  · exact ⟨_, _, rfl⟩
  · exact ⟨_, _, rfl⟩

theorem returns_ensureTier (hm : Owned m) (tier : Tier) (bytes : ℕ) :
    Call.Returns (ensureTier tier bytes) m := by
  cases tier with
  | device => exact returns_ensureDeviceCapacity hm bytes
  | host => exact returns_ensureHostCapacity m bytes
  | storage => exact ⟨_, _, rfl⟩

theorem returns_register (hm : Owned m) (mapping : LogicalStore.EvaluatedPrefixId)
    (component : Component) (representedEnd bytes : ℕ) (tier : Tier) (reuseValue : ℕ)
    (hidentities : m.nextId < u64Max) (hclock : m.clock < u64Max) :
    Call.Returns (register mapping component representedEnd bytes tier reuseValue) m := by
  unfold register
  refine (returns_ensureTier hm tier bytes).bind (fun _ m1 hrun => ?_)
  obtain ⟨_, _, rfl⟩ := (ensureTier_quiet hm.keyed hrun).frame
  refine returns_identity_bind hidentities ?_
  refine returns_tick_bind hclock ?_
  exact ⟨_, _, rfl⟩

theorem returns_reserveGrowth (hm : Owned m) (bytes : ℕ) (hidentities : m.nextId < u64Max) :
    Call.Returns (reserveGrowth bytes) m := by
  unfold reserveGrowth
  refine (returns_ensureDeviceCapacity hm bytes).bind (fun _ m1 hrun => ?_)
  obtain ⟨_, _, rfl⟩ := (quiet_of_evicted (evicted_of_ensureDeviceCapacity hm.keyed hrun)).frame
  exact returns_identity_bind hidentities ⟨_, _, rfl⟩

theorem returns_releaseLogicalReference (m : PhysicalManager) (k : PhysicalRepresentationId) :
    Call.Returns (releaseLogicalReference k) m := by
  unfold releaseLogicalReference
  exact Call.Returns.read_bind (Call.Returns.require_bind (fun r _ => ⟨_, _, rfl⟩))

theorem returns_releaseGrowth (m : PhysicalManager) (g : GrowthReservationId) :
    Call.Returns (releaseGrowth g) m := by
  unfold releaseGrowth
  exact Call.Returns.read_bind (Call.Returns.require_bind (fun r _ => ⟨_, _, rfl⟩))

theorem returns_demoteToHost (m : PhysicalManager) (k : PhysicalRepresentationId) :
    Call.Returns (demoteToHost k) m := by
  unfold demoteToHost
  refine Call.Returns.read_bind (Call.Returns.require_bind (fun r _ => ?_))
  refine Call.Returns.check_bind (fun _ => ?_)
  refine Call.Returns.bind (Call.Returns.skipIf (fun _ => returns_ensureHostCapacity m r.bytes))
    (fun _ m1 _ => ?_)
  exact ⟨_, _, rfl⟩

theorem returns_demoteToStorage (m : PhysicalManager) (k : PhysicalRepresentationId) :
    Call.Returns (demoteToStorage k) m := by
  unfold demoteToStorage
  refine Call.Returns.read_bind (Call.Returns.require_bind (fun r _ => ?_))
  exact Call.Returns.check_bind (fun _ => ⟨_, _, rfl⟩)

theorem returns_evict (m : PhysicalManager) (k : PhysicalRepresentationId) (tier : Tier) :
    Call.Returns (evict k tier) m := by
  unfold evict
  refine Call.Returns.read_bind (Call.Returns.require_bind (fun r _ => ?_))
  refine Call.Returns.check_bind (fun _ => ?_)
  split
  · exact ⟨_, _, rfl⟩
  · exact ⟨_, _, rfl⟩

/-- One identity for each listed representation is enough. -/
theorem returns_reserveRepresentations (m : PhysicalManager)
    (ids : List PhysicalRepresentationId)
    (hids : ∀ k ∈ ids, ∃ r, m.representations.lookup k = some r)
    (hroom : m.nextId + ids.length ≤ u64Max) :
    Call.Returns (reserveRepresentations ids) m := by
  induction ids generalizing m with
  | nil => exact ⟨_, _, rfl⟩
  | cons id rest ih =>
    obtain ⟨r, hr⟩ := hids id List.mem_cons_self
    rw [List.length_cons] at hroom
    have hkept : ∀ q, ∀ k ∈ rest, ∃ r, (m.representations.insert id q).lookup k = some r := by
      intro q k hk
      rw [AList.lookup_insert_ite]
      split
      · exact ⟨q, rfl⟩
      · exact hids k (List.mem_cons_of_mem _ hk)
    have hadd := adjustReference_run ReferenceCounts.addReservation m id r hr _ rfl
    unfold reserveRepresentations Call.Returns
    rw [run_representation_bind m id r hr, Call.run_bind_ok hadd]
    split
    · refine returns_identity_bind (show m.nextId < u64Max by omega) ?_
      have hreserved : ({ setRepresentation id (recount ReferenceCounts.addReservation r) m with
          nextId := m.nextId + 1 } : PhysicalManager).representations.lookup id =
            some (recount ReferenceCounts.addReservation r) := AList.lookup_insert _
      refine Call.Returns.bind ⟨_, _, adjustReference_run ReferenceCounts.addTransfer _ id _
        hreserved _ rfl⟩ (fun _ m1 hrun => ?_)
      cases (adjustReference_run ReferenceCounts.addTransfer _ id _ hreserved _ rfl).symm.trans
        hrun
      refine Call.Returns.update_bind (Call.Returns.bind (ih _ ?_ ?_) (fun _ _ _ => ⟨_, _, rfl⟩))
      · intro k hk
        obtain ⟨q, hq⟩ := hkept (recount ReferenceCounts.addReservation r) k hk
        change ∃ r, ((m.representations.insert id _).insert id _).lookup k = some r
        rw [AList.lookup_insert_ite]
        split
        · exact ⟨_, rfl⟩
        · exact ⟨q, hq⟩
      · change m.nextId + 1 + rest.length ≤ u64Max
        omega
    · refine ih _ (hkept _) ?_
      change m.nextId + rest.length ≤ u64Max
      omega

theorem returns_prepareTransition (hm : Owned m) (context : Context) (revision : ℕ)
    (mapping : LogicalStore.EvaluatedPrefixId) (representedEnd : ℕ)
    (required : LogicalStore.ComponentMask) (ids : List PhysicalRepresentationId)
    (allowRecompute : Bool) (hroom : m.nextId + (1 + ids.length) ≤ u64Max) :
    Call.Returns (prepareTransition context revision mapping representedEnd required ids
      allowRecompute) m := by
  unfold prepareTransition
  refine Call.Returns.read_bind ?_
  refine Call.Returns.bind ⟨_, _, rfl⟩ (fun _ m1 hvalidated => ?_)
  obtain ⟨hvalid, hsame⟩ := Outcome.returns.inj hvalidated
  subst hsame
  obtain ⟨_, hstored⟩ := validateComposite_ok hvalid
  obtain ⟨planned, hplan, _⟩ := planMissing_run m allowRecompute ids hstored 0 false
  refine Call.Returns.bind ⟨_, _, hplan⟩ (fun p m1 hplanned => ?_)
  cases hplan.symm.trans hplanned
  refine (returns_ensureDeviceCapacity hm p.1).bind (fun _ m2 hspace => ?_)
  have hevicted := evicted_of_ensureDeviceCapacity hm.keyed hspace
  obtain ⟨g, hrewrites, _⟩ := (quiet_of_evicted hevicted).rewrites
  obtain ⟨_, _, rfl⟩ := (quiet_of_evicted hevicted).frame
  refine Call.Returns.read_bind ?_
  refine returns_identity_bind (show m.nextId < u64Max by omega) ?_
  refine Call.Returns.bind (returns_reserveRepresentations _ ids ?_ ?_)
    (fun _ _ _ => ⟨_, _, rfl⟩)
  · intro k hk
    obtain ⟨r, hr⟩ := hstored k hk
    exact ⟨_, hrewrites.lookup_some hr⟩
  · change m.nextId + 1 + ids.length ≤ u64Max
    omega

theorem returns_completeTransfer (hm : Owned m) (x : TransferId) (success : Bool) :
    Call.Returns (completeTransfer x success) m := by
  cases hy : m.transfers.lookup x with
  | none =>
    unfold completeTransfer
    refine Call.Returns.read_bind ?_
    rw [hy]
    exact ⟨_, _, rfl⟩
  | some y =>
    by_cases hcompleted : y.completed = true
    · unfold completeTransfer
      refine Call.Returns.read_bind ?_
      rw [hy]
      unfold Call.Returns
      rw [Call.run_require_some_bind, if_pos hcompleted]
      exact ⟨_, _, rfl⟩
    · rw [Bool.not_eq_true] at hcompleted
      rcases completeTransfer_run hm hy hcompleted success with
        ⟨_, m1, _, hrun⟩ | ⟨_, m1, _, hrun⟩
      · exact ⟨_, _, hrun⟩
      · exact ⟨_, _, hrun⟩

theorem returns_completeRecompute (hm : Owned m) (i : PreparedTransitionId)
    (k : PhysicalRepresentationId) : Call.Returns (completeRecompute i k) m := by
  by_cases hlisted : ∃ t, m.transitions.lookup i = some t ∧ t.transitionClass = .recompute ∧
      k ∈ t.representations
  · obtain ⟨t, ht, hclass, hk⟩ := hlisted
    obtain ⟨r, hr⟩ := (hm.prepared i t ht).2 k hk
    rcases completeRecompute_run hm ht hclass hk hr with
      ⟨_, hrun⟩ | ⟨_, _, m1, _, hrun⟩ | ⟨_, _, m1, _, hrun⟩
    · exact ⟨_, _, hrun⟩
    · exact ⟨_, _, hrun⟩
    · exact ⟨_, _, hrun⟩
  · unfold completeRecompute
    refine Call.Returns.read_bind (Call.Returns.require_bind (fun t ht => ?_))
    refine Call.Returns.check_bind (fun hcheck => ?_)
    rw [Bool.and_eq_true, decide_eq_true_eq, decide_eq_true_eq] at hcheck
    exact absurd ⟨t, ht, hcheck⟩ hlisted

theorem returns_commitTransition (hm : Owned m) (i : PreparedTransitionId) (revision : ℕ)
    (hroom : m.nextId < u64Max) : Call.Returns (commitTransition i revision) m := by
  unfold commitTransition
  refine Call.Returns.read_bind (Call.Returns.require_bind (fun t ht => ?_))
  obtain ⟨result, hchecked, _⟩ := checkCommit_run hm ht revision
  refine Call.Returns.bind ⟨_, _, hchecked⟩ (fun _ m1 hrun => ?_)
  cases hchecked.symm.trans hrun
  obtain ⟨m2, _, hbound⟩ := bindTransition_run hm ht
  rw [if_neg hroom.ne] at hbound
  exact ⟨_, _, hbound⟩

theorem returns_commitMappedTransition (hm : Owned m) (i : PreparedTransitionId)
    (revision executorMapping : ℕ) (hroom : m.nextId + 2 ≤ u64Max) :
    Call.Returns (commitMappedTransition i revision executorMapping) m := by
  unfold commitMappedTransition
  refine Call.Returns.read_bind (Call.Returns.require_bind (fun t ht => ?_))
  refine Call.Returns.check_bind (fun _ => ?_)
  have hlinked : ∀ x ∈ t.transfers, ∃ y, m.transfers.lookup x = some y := by
    intro x hx
    obtain ⟨y, hy, _⟩ := (hm.linked i t ht).2 x hx
    exact ⟨y, hy⟩
  obtain ⟨_, hchecked, _⟩ := checkTransfers_run m t.transfers hlinked
  refine Call.Returns.bind ⟨_, _, hchecked⟩ (fun _ m1 hrun => ?_)
  cases hchecked.symm.trans hrun
  obtain ⟨_, hblocks, _⟩ :=
    deviceBlocks_run m .transferPending t.representations (hm.prepared i t ht).2
  refine Call.Returns.bind ⟨_, _, hblocks⟩ (fun _ m1 hrun => ?_)
  cases hblocks.symm.trans hrun
  refine returns_identity_bind (show m.nextId < u64Max by omega) ?_
  have hnext := (published_identity m).owned hm
  refine Call.Returns.bind (returns_commitTransition hnext i revision ?_)
    (fun _ _ _ => ⟨_, _, rfl⟩)
  change m.nextId + 1 < u64Max
  omega

theorem returns_publishDeviceBlockTable (hm : Owned m) (c : Context) (binding : ActiveBindingId)
    (executorMapping : ℕ) (hroom : m.nextId < u64Max) :
    Call.Returns (publishDeviceBlockTable c binding executorMapping) m := by
  unfold publishDeviceBlockTable
  refine Call.Returns.read_bind (Call.Returns.require_bind (fun b hb => ?_))
  refine Call.Returns.check_bind (fun _ => ?_)
  have hstored : ∀ k ∈ b.representations, ∃ r, m.representations.lookup k = some r := by
    intro k hk
    obtain ⟨r, hr, _⟩ := (hm.bound c b hb).2 k hk
    exact ⟨r, hr⟩
  obtain ⟨_, hblocks, _⟩ := deviceBlocks_run m .invalidComposite b.representations hstored
  refine Call.Returns.bind ⟨_, _, hblocks⟩ (fun _ m1 hrun => ?_)
  cases hblocks.symm.trans hrun
  exact returns_identity_bind hroom ⟨_, _, rfl⟩

theorem returns_unbind (hm : Owned m) (c : Context) : Call.Returns (unbind c) m := by
  cases hb : m.bindings.lookup c with
  | none =>
    unfold unbind
    refine Call.Returns.read_bind ?_
    rw [hb]
    exact ⟨_, _, rfl⟩
  | some b =>
    obtain ⟨m1, hrun, _⟩ := unbind_run hm hb
    exact ⟨_, _, hrun⟩

theorem returns_abortTransition (hm : Owned m) (i : PreparedTransitionId) :
    Call.Returns (abortTransition i) m := by
  cases ht : m.transitions.lookup i with
  | none =>
    unfold abortTransition
    refine Call.Returns.read_bind ?_
    rw [ht]
    exact ⟨_, _, rfl⟩
  | some t =>
    obtain ⟨m1, hrun, _⟩ := abortTransition_run hm ht
    exact ⟨_, _, hrun⟩

theorem step_of_returns {α : Type} {x : Operation α} (h : Call.Returns x m) :
    ∃ m', returned (x.run m) = some m' := by
  obtain ⟨_, m', hrun⟩ := h
  exact ⟨m', by rw [hrun]; rfl⟩

theorem step_of_hasRoom (hm : Owned m) {a : Action} (h : HasRoom m a) : ∃ m', Step m a m' := by
  obtain ⟨hidentities, hclock⟩ := h
  cases a with
  | register mapping component representedEnd bytes tier reuseValue =>
    exact step_of_returns (returns_register hm mapping component representedEnd bytes tier
      reuseValue (hidentities Nat.one_pos) (hclock Nat.one_pos))
  | releaseLogicalReference k => exact step_of_returns (returns_releaseLogicalReference m k)
  | reserveGrowth bytes =>
    exact step_of_returns (returns_reserveGrowth hm bytes (hidentities Nat.one_pos))
  | releaseGrowth g => exact step_of_returns (returns_releaseGrowth m g)
  | demoteToHost k => exact step_of_returns (returns_demoteToHost m k)
  | demoteToStorage k => exact step_of_returns (returns_demoteToStorage m k)
  | evict k tier => exact step_of_returns (returns_evict m k tier)
  | prepareTransition context revision mapping representedEnd required ids allowRecompute =>
    exact step_of_returns (returns_prepareTransition hm context revision mapping representedEnd
      required ids allowRecompute (hidentities (Nat.add_pos_left Nat.one_pos _)))
  | completeTransfer x success => exact step_of_returns (returns_completeTransfer hm x success)
  | completeRecompute i k => exact step_of_returns (returns_completeRecompute hm i k)
  | commitTransition i revision =>
    exact step_of_returns (returns_commitTransition hm i revision (hidentities Nat.one_pos))
  | commitMappedTransition i revision executorMapping =>
    exact step_of_returns (returns_commitMappedTransition hm i revision executorMapping
      (hidentities Nat.two_pos))
  | publishDeviceBlockTable c binding executorMapping =>
    exact step_of_returns (returns_publishDeviceBlockTable hm c binding executorMapping
      (hidentities Nat.one_pos))
  | unbind c => exact step_of_returns (returns_unbind hm c)
  | releaseBinding c => exact step_of_returns (returns_unbind hm c)
  | abortTransition i => exact step_of_returns (returns_abortTransition hm i)

theorem attached_of_reaches {capacity : Capacity} (h : Reaches Step (new capacity) m) :
    Attached m := by
  refine (h.invariant (fun m => Owned m ∧ Attached m) (fun m a m' hm hstep => ?_) ?_).2
  · exact ⟨owned_step m a m' hm.1 hstep, attached_step hm.1 hm.2 hstep⟩
  · exact ⟨owned_new capacity, fun _ _ hy => nomatch hy⟩

/-- In every reachable state the counts are exact and every name is stored, and every call
returns if the counters have room. -/
theorem counts_exact_and_calls_return (capacity : Capacity) (m : PhysicalManager)
    (h : Reaches Step (new capacity) m) :
    Exact m ∧ ∀ a, HasRoom m a → ∃ m', Step m a m' :=
  ⟨exact_of_owned (owned_of_reaches h) (attached_of_reaches h),
    fun _ hroom => step_of_hasRoom (owned_of_reaches h) hroom⟩

/-- A transfer of a host copy is under way. -/
def preparedOnce : List Action := [
  .register somePrefix .globalKv 1 6 .host 0,
  .prepareTransition ⟨0⟩ 0 somePrefix 1 LogicalStore.ComponentMask.globalKv [⟨1⟩] false]

theorem prepared_counts_exact :
    ∃ m, Reaches Step (new tenBytes) m ∧ m.transfers.entries.length = 1 ∧
      Exact m ∧ ∀ a, HasRoom m a → ∃ m', Step m a m' := by
  have hrun : (trace perform (new tenBytes) preparedOnce).any (fun run =>
      (last (new tenBytes) run).transfers.entries.length = 1) = true := by
    decide +kernel
  obtain ⟨run, htrace, hlength⟩ := (Option.any_eq_true _ _).mp hrun
  have hreaches : Reaches Step (new tenBytes) (last (new tenBytes) run) :=
    ⟨run, isRun_of_trace _ _ _ _ htrace, rfl⟩
  exact ⟨_, hreaches, of_decide_eq_true hlength,
    counts_exact_and_calls_return tenBytes _ hreaches⟩

end Cusco.ExactReferences
