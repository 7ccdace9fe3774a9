import Cusco.PhysicalRuns

/-!
What a failed call of the physical manager leaves. Every check precedes the first change
but one: room on the device is made by evicting representations one after the other, and
the loop may run out of candidates. A failed call leaves everything as it was exactly when
it does not evict in vain, that is, when it asks for no room, or nothing can be evicted.
-/

namespace Cusco.ErrorAtomicity

open Calls Physical Physical.PhysicalManager DeviceEviction PhysicalEffects PhysicalOwners
open PhysicalSteps PhysicalTransitions PhysicalTransfers PhysicalPreparations PhysicalRuns Runs

variable {m m' : PhysicalManager} {e : Error} {k : PhysicalRepresentationId}

/-- The reserved bytes, which admission adds up without a check, fit a `usize`. -/
def SumsFit (m : PhysicalManager) : Prop :=
  m.growthReservedBytes + m.transitionReservedBytes + m.detachedTransferReservedBytes ≤ u64Max

instance (m : PhysicalManager) : Decidable (SumsFit m) :=
  inferInstanceAs (Decidable (_ ≤ _))

/-- A step that leaves sums which the machine adds as they are. -/
def MachineStep (m : PhysicalManager) (a : Action) (m' : PhysicalManager) : Prop :=
  Step m a m' ∧ SumsFit m'

theorem isRun_machine (m : PhysicalManager) (run : List (Action × PhysicalManager))
    (hrun : IsRun Step m run) (hfit : ∀ x ∈ run, SumsFit x.2) : IsRun MachineStep m run := by
  induction run generalizing m with
  | nil => trivial
  | cons head rest ih =>
    exact ⟨⟨hrun.1, hfit head List.mem_cons_self⟩,
      ih head.2 hrun.2 (fun x hx => hfit x (List.mem_cons_of_mem _ hx))⟩

/-- The result of a call without its value, and the state it leaves. -/
def outcome {α : Type} : Outcome PhysicalManager Error α →
    Option (Except Error Unit × PhysicalManager)
  | .returns (.ok _) m => some (.ok (), m)
  | .returns (.error e) m => some (.error e, m)
  | .panics => none

def call (m : PhysicalManager) : Action → Option (Except Error Unit × PhysicalManager)
  | .register mapping component representedEnd bytes tier reuseValue =>
    outcome ((register mapping component representedEnd bytes tier reuseValue).run m)
  | .releaseLogicalReference id => outcome ((releaseLogicalReference id).run m)
  | .reserveGrowth bytes => outcome ((reserveGrowth bytes).run m)
  | .releaseGrowth id => outcome ((releaseGrowth id).run m)
  | .demoteToHost id => outcome ((demoteToHost id).run m)
  | .demoteToStorage id => outcome ((demoteToStorage id).run m)
  | .evict id tier => outcome ((evict id tier).run m)
  | .prepareTransition context revision mapping representedEnd required representations
      allowRecompute =>
    outcome ((prepareTransition context revision mapping representedEnd required
      representations allowRecompute).run m)
  | .completeTransfer id success => outcome ((completeTransfer id success).run m)
  | .completeRecompute transition id => outcome ((completeRecompute transition id).run m)
  | .commitTransition id currentRevision => outcome ((commitTransition id currentRevision).run m)
  | .commitMappedTransition id currentRevision executorMapping =>
    outcome ((commitMappedTransition id currentRevision executorMapping).run m)
  | .publishDeviceBlockTable context binding executorMapping =>
    outcome ((publishDeviceBlockTable context binding executorMapping).run m)
  | .unbind context => outcome ((unbind context).run m)
  | .releaseBinding context => outcome ((releaseBinding context).run m)
  | .abortTransition id => outcome ((abortTransition id).run m)

theorem of_outcome {α : Type} {o : Outcome PhysicalManager Error α} {m : PhysicalManager}
    (h : outcome o = some (.error e, m)) : o = .returns (.error e) m := by
  cases o with
  | panics => cases h
  | returns result m' =>
    cases result with
    | ok _ => cases h
    | error e' =>
      cases h
      rfl

/-- The capacity gauges of the metrics. -/
def gauges (x : Metrics) : List ℕ :=
  [x.deviceTotal, x.deviceActive, x.deviceGrowthReserved, x.deviceTransitionReserved,
    x.deviceDetachedTransferReserved, x.deviceWarm, x.hostTotal, x.hostUsed]

structure Unchanged (m m' : PhysicalManager) : Prop where
  representations : m'.representations = m.representations
  bindings : m'.bindings = m.bindings
  transitions : m'.transitions = m.transitions
  transfers : m'.transfers = m.transfers
  growth : m'.growth = m.growth
  blockTables : m'.blockTables = m.blockTables
  gauges : gauges m'.metrics = gauges m.metrics

theorem Unchanged.refl (m : PhysicalManager) : Unchanged m m :=
  ⟨rfl, rfl, rfl, rfl, rfl, rfl, rfl⟩

/-- Some representation on the device is not protected. -/
def Evictable (m : PhysicalManager) : Prop :=
  ∃ k r, m.representations.lookup k = some r ∧ r.device = true ∧
    r.references.isProtected = false

/-- What admission lets through. -/
def admitted (m : PhysicalManager) (bytes : ℕ) : Option ℕ :=
  if guardedBytes m + bytes ≤ m.capacity.deviceBytes then some bytes else none

/-- Everything listed is on the device, can be promoted to it or may be recomputed. -/
def supplied (m : PhysicalManager) (allowRecompute : Bool)
    (ids : List PhysicalRepresentationId) : Bool :=
  ids.all (fun k => (m.representations.lookup k).all (fun r =>
    r.device || (r.host || r.storage || allowRecompute)))

/-- The listed bytes that are off the device. -/
def absentSum (m : PhysicalManager) (ids : List PhysicalRepresentationId) : ℕ :=
  (ids.map (fun k => (m.representations.lookup k).elim 0 absentBytes)).sum

/-- The bytes that a transition misses, if its representations can be had. -/
def plannedBytes (m : PhysicalManager) (mapping : LogicalStore.EvaluatedPrefixId)
    (representedEnd : ℕ) (required : LogicalStore.ComponentMask)
    (ids : List PhysicalRepresentationId) (allowRecompute : Bool) : Option ℕ :=
  match m.validateComposite mapping representedEnd required ids with
  | .error _ => none
  | .ok _ =>
    if supplied m allowRecompute ids = true ∧ absentSum m ids ≤ u64Max then
      some (absentSum m ids)
    else none

/-- The bytes of a representation that is not on the device yet. -/
def landing (m : PhysicalManager) (k : PhysicalRepresentationId) (bytes : ℕ) : Option ℕ :=
  (m.representations.lookup k).bind (fun r => if r.device then none else some bytes)

/-- The room that a call makes on the device, if it comes to that. -/
def roomFor (m : PhysicalManager) : Action → Option ℕ
  | .register _ _ _ bytes .device _ => admitted m bytes
  | .reserveGrowth bytes => admitted m bytes
  | .prepareTransition _ _ mapping representedEnd required ids allowRecompute =>
    (plannedBytes m mapping representedEnd required ids allowRecompute).bind (admitted m)
  | .completeTransfer x true => (m.transfers.lookup x).bind (fun y =>
      if y.completed then none else landing m y.representation y.bytes)
  | .completeRecompute i k => (m.transitions.lookup i).bind (fun t =>
      if t.transitionClass = .recompute ∧ k ∈ t.representations then
        (m.representations.lookup k).bind (fun r => landing m k r.bytes)
      else none)
  | _ => none

/-- The call asks for room that the protected representations do not leave, and evicts
before it finds out. -/
def EvictsInVain (m : PhysicalManager) (a : Action) : Prop :=
  ∃ bytes ∈ roomFor m a, m.capacity.deviceBytes < pinnedBytes m + bytes ∧ Evictable m

/-- A failed call changed nothing, or is a failed attempt to make room. -/
def Failed (m : PhysicalManager) (need : Option ℕ) (e : Error) (m' : PhysicalManager) : Prop :=
  match need with
  | none => Unchanged m m'
  | some bytes => (ensureDeviceSpace bytes).run m = .returns (.error e) m'

theorem evictionCandidate_eq_none {m : PhysicalManager} (h : ¬Evictable m) :
    m.evictionCandidate = none := by
  have hfilter : m.representations.values.filter
      (fun r => r.device && !r.references.isProtected) = [] := by
    rw [List.filter_eq_nil_iff]
    intro r hr hcandidate
    rw [Bool.and_eq_true, Bool.not_eq_true'] at hcandidate
    obtain ⟨k, hk⟩ := (AList.mem_values_iff m.representations r).mp hr
    exact h ⟨k, r, hk, hcandidate.1, hcandidate.2⟩
  unfold PhysicalManager.evictionCandidate
  rw [hfilter]
  rfl

/-- A failed attempt to make room takes every candidate off the device. -/
theorem space_error {bytes : ℕ} (hkeyed : Keyed m)
    (h : (ensureDeviceSpace bytes).run m = .returns (.error e) m') :
    m.capacity.deviceBytes < pinnedBytes m + bytes ∧
      (Unchanged m m' ↔ ¬Evictable m) := by
  obtain ⟨representations, metrics, hrun, hrewrites, _⟩ := ensureDeviceSpace_spec bytes m hkeyed
  have hfull : m.capacity.deviceBytes < pinnedBytes m + bytes := by
    by_contra hroom
    rw [hrun, spaceResult, if_pos (by omega)] at h
    cases h
  refine ⟨hfull, ?_, ?_⟩
  · intro hsame hevictable
    obtain ⟨k, r, hk, hdevice, hfree⟩ := hevictable
    rw [hrun, spaceResult, if_neg (by omega)] at h
    cases h
    have hafter := hrewrites.lookup_some hk
    have hevicts : evicts m bytes r = true := by
      have hle : pinnedBytes m ≤ bytesFrom m r := by
        apply bytesWhere_mono
        intro q hq
        rw [Bool.and_eq_true] at hq
        simp [hq.1, hq.2]
      simp only [evicts, hdevice, hfree, Bool.not_false, Bool.and_self, Bool.true_and,
        decide_eq_true_eq]
      omega
    have hsame' : representations = m.representations := hsame.representations
    rw [hsame', hk, Option.some.injEq] at hafter
    have hgone : r.device = false := by
      rw [hafter, afterSpace, leaving, if_pos hevicts]
    rw [hgone] at hdevice
    cases hdevice
  · intro hnone
    have hroom : fitsWithin m.deviceUsed bytes m.capacity.deviceBytes = false := by
      rw [Bool.eq_false_iff]
      intro hfits
      have hused := (fitsWithin_iff _ _ _ m.capacity.device_le).mp hfits
      have hpinned := pinnedBytes_le_deviceUsed m
      omega
    unfold ensureDeviceSpace at h
    rw [Call.run_read_bind, evictUntilFits_stuck bytes _ m hroom
      (evictionCandidate_eq_none hnone)] at h
    cases h
    exact Unchanged.refl m

theorem failed_capacity {bytes : ℕ}
    (h : (ensureDeviceCapacity bytes).run m = .returns (.error e) m') :
    Failed m (admitted m bytes) e m' := by
  rw [ensureDeviceCapacity_run] at h
  unfold admitted
  by_cases hguarded : guardedBytes m + bytes ≤ m.capacity.deviceBytes
  · rw [if_pos hguarded] at h ⊢
    exact h
  · rw [if_neg hguarded] at h ⊢
    cases h
    exact Unchanged.refl m

theorem failed_host {bytes : ℕ} (h : (ensureHostCapacity bytes).run m = .returns (.error e) m') :
    m' = m := by
  rw [ensureHostCapacity_run] at h
  by_cases hroom : m.hostUsed + bytes ≤ m.capacity.hostBytes
  · rw [if_pos hroom] at h
    cases h
  · rw [if_neg hroom] at h
    cases h
    rfl

theorem failed_register {mapping : LogicalStore.EvaluatedPrefixId} {component : Component}
    {representedEnd bytes : ℕ} {tier : Tier} {reuseValue : ℕ}
    (h : (register mapping component representedEnd bytes tier reuseValue).run m =
      .returns (.error e) m') :
    Failed m (roomFor m (.register mapping component representedEnd bytes tier reuseValue)) e
      m' := by
  have hadmission := Call.error_of_bind (fun _ => infallible_identity.bind (fun _ =>
    infallible_tick.bind (fun _ => (Call.Infallible.update _).bind (fun _ =>
      (Call.Infallible.update _).bind (fun _ => Call.Infallible.pure _))))) h
  cases tier with
  | device => exact failed_capacity hadmission
  | host =>
    rw [failed_host hadmission]
    exact Unchanged.refl _
  | storage => cases hadmission

theorem failed_releaseLogicalReference
    (h : (releaseLogicalReference k).run m = .returns (.error e) m') : Unchanged m m' := by
  unfold releaseLogicalReference at h
  rw [Call.run_read_bind] at h
  rcases Call.of_require_bind h with ⟨_, rfl, _⟩ | ⟨r, _, h⟩
  · exact Unchanged.refl _
  · cases h

theorem failed_reserveGrowth {bytes : ℕ}
    (h : (reserveGrowth bytes).run m = .returns (.error e) m') : Failed m (admitted m bytes) e m' :=
  failed_capacity (Call.error_of_bind (fun _ => infallible_identity.bind (fun _ =>
    (Call.Infallible.update _).bind (fun _ => (Call.Infallible.update _).bind (fun _ =>
      Call.Infallible.pure _)))) h)

theorem failed_releaseGrowth {g : GrowthReservationId}
    (h : (releaseGrowth g).run m = .returns (.error e) m') : Unchanged m m' := by
  unfold releaseGrowth at h
  rw [Call.run_read_bind] at h
  rcases Call.of_require_bind h with ⟨_, rfl, _⟩ | ⟨g, _, h⟩
  · exact Unchanged.refl _
  · cases h

theorem failed_demoteToHost (h : (demoteToHost k).run m = .returns (.error e) m') :
    Unchanged m m' := by
  unfold demoteToHost at h
  rw [Call.run_read_bind] at h
  rcases Call.of_require_bind h with ⟨_, rfl, _⟩ | ⟨r, _, h⟩
  · exact Unchanged.refl _
  rcases Call.of_check_bind h with ⟨_, rfl, _⟩ | ⟨_, h⟩
  · exact Unchanged.refl _
  have hcopy := Call.error_of_bind (fun _ => (Call.Infallible.update _).bind (fun _ =>
    (Call.Infallible.update _).bind (fun _ => Call.Infallible.update _))) h
  cases hhost : r.host with
  | true =>
    rw [hhost] at hcopy
    cases hcopy
  | false =>
    rw [hhost] at hcopy
    rw [failed_host hcopy]
    exact Unchanged.refl _

theorem failed_demoteToStorage (h : (demoteToStorage k).run m = .returns (.error e) m') :
    Unchanged m m' := by
  unfold demoteToStorage at h
  rw [Call.run_read_bind] at h
  rcases Call.of_require_bind h with ⟨_, rfl, _⟩ | ⟨r, _, h⟩
  · exact Unchanged.refl _
  rcases Call.of_check_bind h with ⟨_, rfl, _⟩ | ⟨_, h⟩
  · exact Unchanged.refl _
  · cases h

theorem failed_evict {tier : Tier} (h : (evict k tier).run m = .returns (.error e) m') :
    Unchanged m m' := by
  unfold evict at h
  rw [Call.run_read_bind] at h
  rcases Call.of_require_bind h with ⟨_, rfl, _⟩ | ⟨r, _, h⟩
  · exact Unchanged.refl _
  rcases Call.of_check_bind h with ⟨_, rfl, _⟩ | ⟨_, h⟩
  · exact Unchanged.refl _
  · exact absurd h (Call.Infallible.ite ((Call.Infallible.update _).bind (fun _ =>
      (Call.Infallible.update _).bind (fun _ => Call.Infallible.update _)))
        (Call.Infallible.pure ()) m m' e)

theorem planMissing_ok_iff (m : PhysicalManager) (allowRecompute : Bool)
    (ids : List PhysicalRepresentationId)
    (hids : ∀ k ∈ ids, ∃ r, m.representations.lookup k = some r) (missing : ℕ)
    (recompute : Bool) (hmissing : missing ≤ u64Max) :
    (∃ p, (planMissing allowRecompute ids missing recompute).run m = .returns (.ok p) m) ↔
      supplied m allowRecompute ids = true ∧ missing + absentSum m ids ≤ u64Max := by
  induction ids generalizing missing recompute with
  | nil => exact iff_of_true ⟨_, rfl⟩ ⟨rfl, hmissing⟩
  | cons k rest ih =>
    obtain ⟨r, hr⟩ := hids k List.mem_cons_self
    have hrest : ∀ j ∈ rest, ∃ q, m.representations.lookup j = some q :=
      fun j hj => hids j (List.mem_cons_of_mem _ hj)
    have hsupplied : supplied m allowRecompute (k :: rest) =
        ((r.device || (r.host || r.storage || allowRecompute)) &&
          supplied m allowRecompute rest) := by
      simp only [supplied, List.all_cons, hr, Option.all_some]
    have hsum : absentSum m (k :: rest) = absentBytes r + absentSum m rest := by
      simp only [absentSum, List.map_cons, List.sum_cons, hr, Option.elim_some]
    unfold planMissing
    rw [run_representation_bind m k r hr, hsupplied, hsum]
    cases hdevice : r.device with
    | true =>
      have hpresent : absentBytes r = 0 := by rw [absentBytes, if_pos hdevice]
      rw [if_pos rfl, ih hrest missing recompute hmissing, hpresent, Nat.zero_add, Bool.true_or,
        Bool.true_and]
    | false =>
      have habsent : absentBytes r = r.bytes := by
        rw [absentBytes, hdevice, if_neg Bool.false_ne_true]
      rw [if_neg Bool.false_ne_true, habsent, Bool.false_or]
      cases hsource : (r.host || r.storage || allowRecompute) with
      | false =>
        refine iff_of_false ?_ (fun h => Bool.false_ne_true h.1)
        rintro ⟨p, hp⟩
        cases hp
      | true =>
        rw [Call.run_check_true_bind, Bool.true_and]
        unfold checkedAdd
        by_cases hfits : missing + r.bytes ≤ u64Max
        · rw [if_pos hfits, Call.run_require_some_bind, ih hrest _ _ hfits, Nat.add_assoc]
        · rw [if_neg hfits, Call.run_require_none_bind]
          refine iff_of_false ?_ (fun h => ?_)
          · rintro ⟨p, hp⟩
            cases hp
          · omega

theorem failed_prepareTransition {context : Context} {revision : ℕ}
    {mapping : LogicalStore.EvaluatedPrefixId} {representedEnd : ℕ}
    {required : LogicalStore.ComponentMask} {ids : List PhysicalRepresentationId}
    {allowRecompute : Bool}
    (h : (prepareTransition context revision mapping representedEnd required ids
      allowRecompute).run m = .returns (.error e) m') :
    Failed m ((plannedBytes m mapping representedEnd required ids allowRecompute).bind
      (admitted m)) e m' := by
  unfold prepareTransition at h
  rw [Call.run_read_bind] at h
  unfold plannedBytes
  rcases Call.of_ofExcept_bind h with ⟨e', hinvalid, rfl, _⟩ | ⟨_, hvalid, h⟩
  · rw [hinvalid]
    exact Unchanged.refl _
  rw [hvalid]
  have hstored := (validateComposite_ok hvalid).2
  have hiff := planMissing_ok_iff m allowRecompute ids hstored 0 false (Nat.zero_le _)
  rw [Nat.zero_add] at hiff
  obtain ⟨planned, hplan, hplanned⟩ := planMissing_run m allowRecompute ids hstored 0 false
  rcases Call.of_bind h with ⟨e', he, _⟩ | ⟨⟨missing, recompute⟩, m1, hok, h⟩
  · rw [hplan] at he
    cases he
    simp only
    rw [if_neg]
    · exact Unchanged.refl _
    · intro hpossible
      obtain ⟨p, hp⟩ := hiff.mpr hpossible
      rw [hplan] at hp
      cases hp
  · rw [hplan] at hok
    cases hok
    have hmissing : missing = absentSum m ids := (hplanned _ rfl).1.trans (Nat.zero_add _)
    simp only
    rw [if_pos (hiff.mp ⟨_, hplan⟩), Option.bind_some, ← hmissing]
    refine failed_capacity (Call.error_of_bind (fun _ => ?_) h)
    refine Call.Infallible.read.bind (fun m => infallible_identity.bind (fun transition => ?_))
    refine (infallible_reserveRepresentations ids).bind (fun transfers => ?_)
    exact (Call.Infallible.update _).bind (fun _ => (Call.Infallible.update _).bind (fun _ =>
      (Call.Infallible.update _).bind (fun _ => Call.Infallible.pure _)))

/-- Room is the only thing that a representation on its way to the device may miss. -/
theorem failed_landing {r : PhysicalRepresentation} {bytes : ℕ} {f : Metrics → Metrics}
    (hr : m.representations.lookup k = some r)
    (h : (Call.skipIf r.device (do
        ensureDeviceSpace bytes
        arrive k
        Call.update (setMetrics f)) : Operation Unit).run m = .returns (.error e) m') :
    Failed m (landing m k bytes) e m' := by
  unfold landing
  rw [hr, Option.bind_some]
  cases hdevice : r.device with
  | true =>
    rw [hdevice] at h
    cases h
  | false =>
    rw [hdevice] at h
    exact Call.error_of_bind (fun _ => (infallible_arrive k).bind (fun _ =>
      Call.Infallible.update _)) h

theorem failed_completeTransfer {x : TransferId} {success : Bool}
    (h : (completeTransfer x success).run m = .returns (.error e) m') :
    Failed m (roomFor m (.completeTransfer x success)) e m' := by
  unfold completeTransfer at h
  rw [Call.run_read_bind] at h
  rcases Call.of_require_bind h with ⟨hnone, rfl, _⟩ | ⟨y, hy, h⟩
  · cases success with
    | false => exact Unchanged.refl _
    | true =>
      simp only [roomFor, hnone]
      exact Unchanged.refl _
  by_cases hcompleted : y.completed = true
  · rw [if_pos hcompleted] at h
    cases h
  rw [if_neg hcompleted] at h
  have hreceive := Call.error_of_bind (fun _ => (Call.Infallible.update _).bind (fun _ =>
    (infallible_adjustReference _ _).bind (fun _ => (Call.Infallible.update _).bind (fun _ =>
      Call.Infallible.skipIf _ (Call.Infallible.update _))))) h
  cases success with
  | false => cases hreceive
  | true =>
    obtain ⟨r, hr, hpromote⟩ := of_representation_bind hreceive
    simp only [roomFor, hy, Option.bind_some, if_neg hcompleted]
    exact failed_landing hr (Call.error_of_bind (fun _ => Call.Infallible.update _) hpromote)

theorem failed_completeRecompute {i : PreparedTransitionId}
    (h : (completeRecompute i k).run m = .returns (.error e) m') :
    Failed m (roomFor m (.completeRecompute i k)) e m' := by
  unfold completeRecompute at h
  rw [Call.run_read_bind] at h
  simp only [roomFor]
  rcases Call.of_require_bind h with ⟨hnone, rfl, _⟩ | ⟨t, ht, h⟩
  · rw [hnone]
    exact Unchanged.refl _
  rw [ht, Option.bind_some]
  rcases Call.of_check_bind h with ⟨hlisted, rfl, _⟩ | ⟨hlisted, h⟩
  · rw [Bool.and_eq_false_iff, decide_eq_false_iff_not, decide_eq_false_iff_not] at hlisted
    rw [if_neg (fun hboth => hlisted.elim (fun hnot => hnot hboth.1) (fun hnot => hnot hboth.2))]
    exact Unchanged.refl _
  rw [Bool.and_eq_true, decide_eq_true_eq, decide_eq_true_eq] at hlisted
  obtain ⟨r, hr, hrebuild⟩ := of_representation_bind h
  rw [if_pos hlisted, hr, Option.bind_some]
  exact failed_landing hr (Call.error_of_bind (fun _ => Call.Infallible.update _) hrebuild)

theorem failed_unbind {c : Context} (h : (unbind c).run m = .returns (.error e) m') :
    Unchanged m m' := by
  unfold unbind at h
  rw [Call.run_read_bind] at h
  rcases Call.of_require_bind h with ⟨_, rfl, _⟩ | ⟨b, _, h⟩
  · exact Unchanged.refl _
  · exact absurd h ((Call.Infallible.update _).bind (fun _ => (infallible_dropBinding c).bind
      (fun _ => Call.Infallible.update _)) m m' e)

theorem failed_abortTransition {i : PreparedTransitionId}
    (h : (abortTransition i).run m = .returns (.error e) m') : Unchanged m m' := by
  unfold abortTransition at h
  rw [Call.run_read_bind] at h
  rcases Call.of_require_bind h with ⟨_, rfl, _⟩ | ⟨t, _, h⟩
  · exact Unchanged.refl _
  · exact absurd h ((Call.Infallible.update _).bind (fun _ =>
      (infallible_detachTransfers _).bind (fun _ => (infallible_adjustReferences _ _).bind
        (fun _ => (Call.Infallible.update _).bind (fun _ => Call.Infallible.update _)))) m m' e)

theorem failed_call (hm : Owned m) {a : Action} (h : call m a = some (.error e, m')) :
    Failed m (roomFor m a) e m' := by
  cases a with
  | register mapping component representedEnd bytes tier reuseValue =>
    exact failed_register (of_outcome h)
  | releaseLogicalReference id => exact failed_releaseLogicalReference (of_outcome h)
  | reserveGrowth bytes => exact failed_reserveGrowth (of_outcome h)
  | releaseGrowth id => exact failed_releaseGrowth (of_outcome h)
  | demoteToHost id => exact failed_demoteToHost (of_outcome h)
  | demoteToStorage id => exact failed_demoteToStorage (of_outcome h)
  | evict id tier => exact failed_evict (of_outcome h)
  | prepareTransition context revision mapping representedEnd required ids allowRecompute =>
    exact failed_prepareTransition (of_outcome h)
  | completeTransfer id success => exact failed_completeTransfer (of_outcome h)
  | completeRecompute transition id => exact failed_completeRecompute (of_outcome h)
  | commitTransition id currentRevision =>
    rcases commitTransition_cases hm (of_outcome h) with ⟨rfl, _⟩ | ⟨_, _, _, _, hok⟩
    · exact Unchanged.refl _
    · cases hok
  | commitMappedTransition id currentRevision executorMapping =>
    rcases commitMappedTransition_cases hm (of_outcome h) with
      ⟨rfl, _⟩ | ⟨_, _, _, _, _, _, _, _, _, hok⟩
    · exact Unchanged.refl _
    · cases hok
  | publishDeviceBlockTable context binding executorMapping =>
    rcases publishDeviceBlockTable_cases hm (of_outcome h) with
      ⟨rfl, _⟩ | ⟨_, _, _, _, _, _, hok⟩
    · exact Unchanged.refl _
    · cases hok
  | unbind context => exact failed_unbind (of_outcome h)
  | releaseBinding context => exact failed_unbind (of_outcome h)
  | abortTransition id => exact failed_abortTransition (of_outcome h)

/-- In every state that a run reaches in which the reserved bytes fit, a failed call changed
nothing but when it evicted in vain. -/
theorem failed_unchanged_iff {capacity : Capacity} {m m' : PhysicalManager} {a : Action}
    {e : Error} (hm : Reaches MachineStep (new capacity) m)
    (h : call m a = some (.error e, m')) : Unchanged m m' ↔ ¬EvictsInVain m a := by
  have howned : Owned m :=
    hm.invariant Owned (fun m a m' hm hstep => owned_step m a m' hm hstep.1) (owned_new capacity)
  have hfailed := failed_call howned h
  unfold EvictsInVain
  cases hroom : roomFor m a with
  | none =>
    rw [hroom] at hfailed
    refine iff_of_true hfailed ?_
    rintro ⟨bytes, hbytes, _⟩
    cases hbytes
  | some bytes =>
    rw [hroom] at hfailed
    obtain ⟨hfull, hunchanged⟩ := space_error howned.keyed hfailed
    rw [hunchanged, not_iff_not]
    constructor
    · intro hevictable
      exact ⟨bytes, rfl, hfull, hevictable⟩
    · rintro ⟨_, _, _, hevictable⟩
      exact hevictable

/-- On a device of ten bytes, six reserved by a transition are guarded by no count of
active or missing bytes; a growth of eight passes the guard, takes three warm bytes off
the device and then fails. -/
def warmBesideReserved : List Action := [
  .register somePrefix .globalKv 1 6 .device 0,
  .prepareTransition ⟨0⟩ 0 somePrefix 1 LogicalStore.ComponentMask.globalKv [⟨1⟩] false,
  .register somePrefix .recurrent 1 3 .device 0]

/-- A growth of more than the whole device is refused by the guard. -/
theorem refused_growth_unchanged :
    ∃ run e m', IsRun MachineStep (new tenBytes) run ∧ run.length = 3 ∧
      call (last (new tenBytes) run) (.reserveGrowth 11) = some (.error e, m') ∧
      Unchanged (last (new tenBytes) run) m' := by
  have hrun : (trace perform (new tenBytes) warmBesideReserved).any (fun run => run.length = 3 &&
      run.all (fun x => SumsFit x.2) &&
      roomFor (last (new tenBytes) run) (.reserveGrowth 11) = none &&
      (call (last (new tenBytes) run) (.reserveGrowth 11)).any (fun x =>
        match x.1 with
        | .error _ => true
        | .ok _ => false)) = true := by
    decide +kernel
  obtain ⟨run, htrace, hchecked⟩ := (Option.any_eq_true _ _).mp hrun
  simp only [Bool.and_eq_true, decide_eq_true_eq] at hchecked
  obtain ⟨⟨⟨hlength, hfit⟩, hroom⟩, hfails⟩ := hchecked
  obtain ⟨⟨result, m'⟩, hcall, herror⟩ := (Option.any_eq_true _ _).mp hfails
  cases result with
  | ok _ => cases herror
  | error e =>
    have hsteps := isRun_machine _ _ (isRun_of_trace _ _ _ _ htrace)
      (fun x hx => of_decide_eq_true (List.all_eq_true.mp hfit x hx))
    refine ⟨run, e, m', hsteps, hlength, hcall, ?_⟩
    refine (failed_unchanged_iff ⟨run, hsteps, rfl⟩ hcall).mpr ?_
    rintro ⟨bytes, hbytes, _⟩
    rw [hroom] at hbytes
    cases hbytes

def onDevice (m : PhysicalManager) (k : PhysicalRepresentationId) : Bool :=
  (m.representations.lookup k).any (fun r => r.device)

theorem failed_growth_evicts :
    ∃ run e m', IsRun MachineStep (new tenBytes) run ∧
      call (last (new tenBytes) run) (.reserveGrowth 8) = some (.error e, m') ∧
      ¬Unchanged (last (new tenBytes) run) m' := by
  have hrun : (trace perform (new tenBytes) warmBesideReserved).any (fun run =>
      run.all (fun x => SumsFit x.2) &&
      (call (last (new tenBytes) run) (.reserveGrowth 8)).any (fun x =>
        match x.1 with
        | .error _ => onDevice (last (new tenBytes) run) ⟨3⟩ && !onDevice x.2 ⟨3⟩
        | .ok _ => false)) = true := by
    decide +kernel
  obtain ⟨run, htrace, hchecked⟩ := (Option.any_eq_true _ _).mp hrun
  rw [Bool.and_eq_true] at hchecked
  obtain ⟨⟨result, m'⟩, hcall, herror⟩ := (Option.any_eq_true _ _).mp hchecked.2
  have hsteps := isRun_machine _ _ (isRun_of_trace _ _ _ _ htrace)
    (fun x hx => of_decide_eq_true (List.all_eq_true.mp hchecked.1 x hx))
  cases result with
  | ok _ => cases herror
  | error e =>
    refine ⟨run, e, m', hsteps, hcall, ?_⟩
    intro hsame
    simp only [onDevice, hsame.representations, Bool.and_not_self] at herror
    cases herror

end Cusco.ErrorAtomicity
