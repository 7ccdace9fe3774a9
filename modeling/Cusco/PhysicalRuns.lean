import Cusco.PhysicalPreparations

/-!
Runs of the physical manager. An action is a call of one operation with its
arguments; it steps to the state the call returns in, whether with a value or
with an error, and a panic has no step. Owners are accounted for in every state
that a run from a new manager reaches.
-/

namespace Cusco.PhysicalRuns

open Calls Physical Physical.PhysicalManager DeviceEviction PhysicalEffects PhysicalOwners
open PhysicalSteps PhysicalTransitions PhysicalTransfers PhysicalPreparations Runs

variable {m m' : PhysicalManager}

inductive Action
  | register (mapping : LogicalStore.EvaluatedPrefixId) (component : Component)
      (representedEnd bytes : ℕ) (tier : Tier) (reuseValue : ℕ)
  | releaseLogicalReference (id : PhysicalRepresentationId)
  | reserveGrowth (bytes : ℕ)
  | releaseGrowth (id : GrowthReservationId)
  | demoteToHost (id : PhysicalRepresentationId)
  | demoteToStorage (id : PhysicalRepresentationId)
  | evict (id : PhysicalRepresentationId) (tier : Tier)
  | prepareTransition (context : Context) (revision : ℕ)
      (mapping : LogicalStore.EvaluatedPrefixId) (representedEnd : ℕ)
      (required : LogicalStore.ComponentMask) (representations : List PhysicalRepresentationId)
      (allowRecompute : Bool)
  | completeTransfer (id : TransferId) (success : Bool)
  | completeRecompute (transition : PreparedTransitionId) (id : PhysicalRepresentationId)
  | commitTransition (id : PreparedTransitionId) (currentRevision : ℕ)
  | commitMappedTransition (id : PreparedTransitionId) (currentRevision executorMapping : ℕ)
  | publishDeviceBlockTable (context : Context) (binding : ActiveBindingId)
      (executorMapping : ℕ)
  | unbind (context : Context)
  | releaseBinding (context : Context)
  | abortTransition (id : PreparedTransitionId)
  deriving DecidableEq

/-- The state a call returns in. -/
def returned {α : Type} : Outcome PhysicalManager Error α → Option PhysicalManager
  | .returns _ m => some m
  | .panics => none

def perform (m : PhysicalManager) : Action → Option PhysicalManager
  | .register mapping component representedEnd bytes tier reuseValue =>
    returned ((register mapping component representedEnd bytes tier reuseValue).run m)
  | .releaseLogicalReference id => returned ((releaseLogicalReference id).run m)
  | .reserveGrowth bytes => returned ((reserveGrowth bytes).run m)
  | .releaseGrowth id => returned ((releaseGrowth id).run m)
  | .demoteToHost id => returned ((demoteToHost id).run m)
  | .demoteToStorage id => returned ((demoteToStorage id).run m)
  | .evict id tier => returned ((evict id tier).run m)
  | .prepareTransition context revision mapping representedEnd required representations
      allowRecompute =>
    returned ((prepareTransition context revision mapping representedEnd required
      representations allowRecompute).run m)
  | .completeTransfer id success => returned ((completeTransfer id success).run m)
  | .completeRecompute transition id => returned ((completeRecompute transition id).run m)
  | .commitTransition id currentRevision => returned ((commitTransition id currentRevision).run m)
  | .commitMappedTransition id currentRevision executorMapping =>
    returned ((commitMappedTransition id currentRevision executorMapping).run m)
  | .publishDeviceBlockTable context binding executorMapping =>
    returned ((publishDeviceBlockTable context binding executorMapping).run m)
  | .unbind context => returned ((unbind context).run m)
  | .releaseBinding context => returned ((releaseBinding context).run m)
  | .abortTransition id => returned ((abortTransition id).run m)

def Step (m : PhysicalManager) (a : Action) (m' : PhysicalManager) : Prop :=
  perform m a = some m'

theorem of_returned {α : Type} {o : Outcome PhysicalManager Error α} {m : PhysicalManager}
    (h : returned o = some m) : ∃ result, o = .returns result m := by
  cases o with
  | returns result m' =>
    cases h
    exact ⟨result, rfl⟩
  | panics => cases h

/-- A commit that was refused, or one that bound a ready transition from a state
that differs in identities only. -/
def CommitEffect (m : PhysicalManager) (i : PreparedTransitionId) (revision : ℕ)
    (m' : PhysicalManager) : Prop :=
  (m' = m ∧ ∀ t, m.transitions.lookup i = some t → ¬ CommitReady m t revision) ∨
    ∃ t m1 m2, m.transitions.lookup i = some t ∧ CommitReady m t revision ∧
      Published m m1 ∧ Committed m1 i t m2 ∧ Published m2 m'

def Effect (m m' : PhysicalManager) : Action → Prop
  | .register .. => Quiet m m' ∨ Registered m m'
  | .releaseLogicalReference id => Quiet m m' ∨ Erased m id m'
  | .reserveGrowth bytes => Quiet m m' ∨ Grown m bytes m'
  | .releaseGrowth id => Quiet m m' ∨ Ungrown m id m'
  | .demoteToHost _ => Quiet m m'
  | .demoteToStorage _ => Quiet m m'
  | .evict _ _ => Quiet m m'
  | .prepareTransition .. => Quiet m m' ∨ ∃ t, Prepared m t m'
  | .completeTransfer x success => Quiet m m' ∨ ∃ y, m.transfers.lookup x = some y ∧
      y.completed = false ∧ Completed m x y success m'
  | .completeRecompute i k => Quiet m m' ∨ Recomputed m i k m'
  | .commitTransition i revision => CommitEffect m i revision m'
  | .commitMappedTransition i revision _ => CommitEffect m i revision m'
  | .publishDeviceBlockTable .. => Published m m'
  | .unbind c => Quiet m m' ∨ Unbound m c m'
  | .releaseBinding c => Quiet m m' ∨ Unbound m c m'
  | .abortTransition i => (m' = m ∧ m.transitions.lookup i = none) ∨
      ∃ t, m.transitions.lookup i = some t ∧ Aborted m i t m'

theorem step_effect {a : Action} (hm : Owned m) (h : Step m a m') : Effect m m' a := by
  unfold Step at h
  cases a with
  | register mapping component representedEnd bytes tier reuseValue =>
    obtain ⟨_, hrun⟩ := of_returned h
    exact register_cases hm hrun
  | releaseLogicalReference id =>
    obtain ⟨_, hrun⟩ := of_returned h
    exact releaseLogicalReference_cases hrun
  | reserveGrowth bytes =>
    obtain ⟨_, hrun⟩ := of_returned h
    exact reserveGrowth_cases hm hrun
  | releaseGrowth id =>
    obtain ⟨_, hrun⟩ := of_returned h
    exact releaseGrowth_cases hrun
  | demoteToHost id =>
    obtain ⟨_, hrun⟩ := of_returned h
    exact demoteToHost_quiet hrun
  | demoteToStorage id =>
    obtain ⟨_, hrun⟩ := of_returned h
    exact demoteToStorage_quiet hrun
  | evict id tier =>
    obtain ⟨_, hrun⟩ := of_returned h
    exact evict_quiet hrun
  | prepareTransition context revision mapping representedEnd required ids allowRecompute =>
    obtain ⟨_, hrun⟩ := of_returned h
    rcases prepareTransition_cases hm hrun with ⟨hquiet, _⟩ | ⟨t, hprepared, _⟩
    · exact Or.inl hquiet
    · exact Or.inr ⟨t, hprepared⟩
  | completeTransfer id success =>
    obtain ⟨_, hrun⟩ := of_returned h
    exact completeTransfer_cases hm hrun
  | completeRecompute transition id =>
    obtain ⟨_, hrun⟩ := of_returned h
    exact completeRecompute_cases hm hrun
  | commitTransition id currentRevision =>
    obtain ⟨_, hrun⟩ := of_returned h
    rcases commitTransition_cases hm hrun with ⟨hsame, _, hnot⟩ | ⟨t, ht, hready, hc, _⟩
    · exact Or.inl ⟨hsame, hnot⟩
    · exact Or.inr ⟨t, m, m', ht, hready, Published.refl m, hc, Published.refl m'⟩
  | commitMappedTransition id currentRevision executorMapping =>
    obtain ⟨_, hrun⟩ := of_returned h
    rcases commitMappedTransition_cases hm hrun with
      ⟨hsame, _, hnot⟩ | ⟨t, m2, blocks, ht, hready, hc, _, _, rfl, _⟩
    · exact Or.inl ⟨hsame, hnot⟩
    · exact Or.inr ⟨t, _, m2, ht, hready, published_identity m, hc, published_table m2 _ _⟩
  | publishDeviceBlockTable context binding executorMapping =>
    obtain ⟨_, hrun⟩ := of_returned h
    exact publishDeviceBlockTable_published hm hrun
  | unbind context =>
    obtain ⟨_, hrun⟩ := of_returned h
    exact unbind_cases hm hrun
  | releaseBinding context =>
    obtain ⟨_, hrun⟩ := of_returned h
    exact unbind_cases hm hrun
  | abortTransition id =>
    obtain ⟨_, hrun⟩ := of_returned h
    exact abortTransition_cases hm hrun

theorem commitReady_of_published (hp : Published m m') {t : PreparedTransition} {revision : ℕ}
    (hready : CommitReady m t revision) : CommitReady m' t revision := by
  obtain ⟨n, tables, metrics, rfl⟩ := hp.frame
  exact ⟨hready.revision, hready.transfers, hready.device⟩

theorem transition_of_published (hp : Published m m') {i : PreparedTransitionId}
    {t : PreparedTransition} (ht : m.transitions.lookup i = some t) :
    m'.transitions.lookup i = some t := by
  obtain ⟨n, tables, metrics, rfl⟩ := hp.frame
  exact ht

theorem CommitEffect.owned {i : PreparedTransitionId} {revision : ℕ}
    (hc : CommitEffect m i revision m') (h : Owned m) : Owned m' := by
  rcases hc with ⟨rfl, _⟩ | ⟨t, m1, m2, ht, hready, hbefore, hcommitted, hafter⟩
  · exact h
  · exact hafter.owned (hcommitted.owned (hbefore.owned h) (transition_of_published hbefore ht)
      (commitReady_of_published hbefore hready))

theorem Effect.owned {a : Action} (he : Effect m m' a) (h : Owned m) : Owned m' := by
  cases a with
  | register =>
    rcases he with hquiet | hregistered
    · exact hquiet.owned h
    · exact hregistered.owned h
  | releaseLogicalReference =>
    rcases he with hquiet | herased
    · exact hquiet.owned h
    · exact herased.owned h
  | reserveGrowth =>
    rcases he with hquiet | hgrown
    · exact hquiet.owned h
    · exact hgrown.owned h
  | releaseGrowth =>
    rcases he with hquiet | hungrown
    · exact hquiet.owned h
    · exact hungrown.owned h
  | demoteToHost => exact Quiet.owned he h
  | demoteToStorage => exact Quiet.owned he h
  | evict => exact Quiet.owned he h
  | prepareTransition =>
    rcases he with hquiet | ⟨t, hprepared⟩
    · exact hquiet.owned h
    · exact hprepared.owned h
  | completeTransfer =>
    rcases he with hquiet | ⟨y, hy, hmoving, hcompleted⟩
    · exact hquiet.owned h
    · exact hcompleted.owned h hy hmoving
  | completeRecompute =>
    rcases he with hquiet | hrecomputed
    · exact hquiet.owned h
    · exact hrecomputed.owned h
  | commitTransition => exact CommitEffect.owned he h
  | commitMappedTransition => exact CommitEffect.owned he h
  | publishDeviceBlockTable => exact Published.owned he h
  | unbind =>
    rcases he with hquiet | hunbound
    · exact hquiet.owned h
    · exact hunbound.owned h
  | releaseBinding =>
    rcases he with hquiet | hunbound
    · exact hquiet.owned h
    · exact hunbound.owned h
  | abortTransition =>
    rcases he with ⟨rfl, _⟩ | ⟨t, ht, haborted⟩
    · exact h
    · exact haborted.owned h ht

theorem owned_step (m : PhysicalManager) (a : Action) (m' : PhysicalManager) (h : Owned m)
    (hstep : Step m a m') : Owned m' :=
  (step_effect h hstep).owned h

theorem owned_new (capacity : Capacity) : Owned (new capacity) := by
  constructor <;> intros <;> simp_all [new, Keyed]

theorem owned_of_reaches {capacity : Capacity} {m : PhysicalManager}
    (h : Reaches Step (new capacity) m) : Owned m :=
  h.invariant Owned owned_step (owned_new capacity)

/-- The capacity stays and identities are only drawn. -/
structure Later (m m' : PhysicalManager) : Prop where
  capacity : m'.capacity = m.capacity
  nextId : m.nextId ≤ m'.nextId

theorem later_quiet (hq : Quiet m m') : Later m m' := by
  obtain ⟨representations, metrics, rfl⟩ := hq.frame
  exact ⟨rfl, le_refl _⟩

theorem later_landed {k : PhysicalRepresentationId} {bytes : ℕ} (hl : Landed m k bytes m') :
    Later m m' := by
  obtain ⟨representations, metrics, rfl⟩ := hl.frame
  exact ⟨rfl, le_refl _⟩

theorem later_completed {x : TransferId} {y : Transfer} {success : Bool}
    (hc : Completed m x y success m') : Later m m' := by
  obtain ⟨m1, hreceived, hsettled⟩ := hc
  obtain ⟨representations, transfers, metrics, rfl⟩ := hsettled.frame
  rcases hreceived with ⟨metrics, rfl, _⟩ | ⟨_, hlanded⟩
  · exact ⟨rfl, le_refl _⟩
  · have hlater := later_landed hlanded
    exact ⟨hlater.capacity, hlater.nextId⟩

theorem later_prepared {t : PreparedTransition} (hp : Prepared m t m') : Later m m' := by
  obtain ⟨m1, hspaced, hreserved⟩ := hp.admitted
  obtain ⟨representations, metrics, rfl⟩ := hspaced.frame
  obtain ⟨representations', metrics', rfl⟩ := hreserved.frame
  exact ⟨rfl, (Nat.le_succ _).trans (Nat.le_add_right _ _)⟩

theorem later_commit {i : PreparedTransitionId} {revision : ℕ} (hc : CommitEffect m i revision m') :
    Later m m' := by
  rcases hc with ⟨rfl, _⟩ | ⟨t, m1, m2, _, _, hbefore, hcommitted, hafter⟩
  · exact ⟨rfl, le_refl _⟩
  · have hfirst := hbefore.nextId
    have hlast := hafter.nextId
    obtain ⟨_, _, _, rfl⟩ := hbefore.frame
    obtain ⟨_, _, _, rfl⟩ := hcommitted.frame
    obtain ⟨_, _, _, rfl⟩ := hafter.frame
    exact ⟨rfl, hfirst.trans ((Nat.le_succ _).trans hlast)⟩

theorem Effect.later {a : Action} (he : Effect m m' a) : Later m m' := by
  cases a with
  | register =>
    rcases he with hquiet | ⟨m1, r, hquiet, _, _, rfl⟩
    · exact later_quiet hquiet
    · have hlater := later_quiet hquiet
      exact ⟨hlater.capacity, hlater.nextId.trans (Nat.le_succ _)⟩
  | releaseLogicalReference =>
    rcases he with hquiet | herased
    · exact later_quiet hquiet
    · obtain ⟨metrics, rfl⟩ := herased.frame
      exact ⟨rfl, le_refl _⟩
  | reserveGrowth =>
    rcases he with hquiet | ⟨_, m1, hquiet, rfl⟩
    · exact later_quiet hquiet
    · have hlater := later_quiet hquiet
      exact ⟨hlater.capacity, hlater.nextId.trans (Nat.le_succ _)⟩
  | releaseGrowth =>
    rcases he with hquiet | rfl
    · exact later_quiet hquiet
    · exact ⟨rfl, le_refl _⟩
  | demoteToHost => exact later_quiet he
  | demoteToStorage => exact later_quiet he
  | evict => exact later_quiet he
  | prepareTransition =>
    rcases he with hquiet | ⟨t, hprepared⟩
    · exact later_quiet hquiet
    · exact later_prepared hprepared
  | completeTransfer =>
    rcases he with hquiet | ⟨y, _, _, hcompleted⟩
    · exact later_quiet hquiet
    · exact later_completed hcompleted
  | completeRecompute =>
    rcases he with hquiet | ⟨t, r, m1, _, _, _, _, hlanded, rfl⟩
    · exact later_quiet hquiet
    · have hlater := later_landed hlanded
      exact ⟨hlater.capacity, hlater.nextId⟩
  | commitTransition => exact later_commit he
  | commitMappedTransition => exact later_commit he
  | publishDeviceBlockTable =>
    have hnext := Published.nextId he
    obtain ⟨n, tables, metrics, rfl⟩ := Published.frame he
    exact ⟨rfl, hnext⟩
  | unbind =>
    rcases he with hquiet | hunbound
    · exact later_quiet hquiet
    · obtain ⟨_, _, _, rfl⟩ := hunbound.frame
      exact ⟨rfl, le_refl _⟩
  | releaseBinding =>
    rcases he with hquiet | hunbound
    · exact later_quiet hquiet
    · obtain ⟨_, _, _, rfl⟩ := hunbound.frame
      exact ⟨rfl, le_refl _⟩
  | abortTransition =>
    rcases he with ⟨rfl, _⟩ | ⟨t, _, haborted⟩
    · exact ⟨rfl, le_refl _⟩
    · obtain ⟨_, _, _, rfl⟩ := haborted.frame
      exact ⟨rfl, le_refl _⟩

theorem CommitEffect.gauges {i : PreparedTransitionId} {revision : ℕ}
    (hc : CommitEffect m i revision m') (h : GaugesExact m) : GaugesExact m' := by
  rcases hc with ⟨rfl, _⟩ | ⟨t, m1, m2, _, _, _, hcommitted, hafter⟩
  · exact h
  · exact hafter.gauges hcommitted.gauges

theorem Effect.gauges {a : Action} (he : Effect m m' a) (h : GaugesExact m) : GaugesExact m' := by
  cases a with
  | register =>
    rcases he with hquiet | ⟨m1, r, _, _, _, rfl⟩
    · exact hquiet.gauges h
    · exact gaugesExact_refresh _
  | releaseLogicalReference =>
    rcases he with hquiet | herased
    · exact hquiet.gauges h
    · exact herased.gauges
  | reserveGrowth =>
    rcases he with hquiet | ⟨_, m1, _, rfl⟩
    · exact hquiet.gauges h
    · exact gaugesExact_refresh _
  | releaseGrowth =>
    rcases he with hquiet | rfl
    · exact hquiet.gauges h
    · exact gaugesExact_refresh _
  | demoteToHost => exact Quiet.gauges he h
  | demoteToStorage => exact Quiet.gauges he h
  | evict => exact Quiet.gauges he h
  | prepareTransition =>
    rcases he with hquiet | ⟨t, hprepared⟩
    · exact hquiet.gauges h
    · obtain ⟨m1, _, hreserved⟩ := hprepared.admitted
      exact hreserved.gauges
  | completeTransfer =>
    rcases he with hquiet | ⟨y, _, _, m1, _, hsettled⟩
    · exact hquiet.gauges h
    · exact hsettled.gauges
  | completeRecompute =>
    rcases he with hquiet | ⟨t, r, m1, _, _, _, _, _, rfl⟩
    · exact hquiet.gauges h
    · exact gaugesExact_refresh _
  | commitTransition => exact CommitEffect.gauges he h
  | commitMappedTransition => exact CommitEffect.gauges he h
  | publishDeviceBlockTable => exact Published.gauges he h
  | unbind =>
    rcases he with hquiet | hunbound
    · exact hquiet.gauges h
    · exact hunbound.gauges
  | releaseBinding =>
    rcases he with hquiet | hunbound
    · exact hquiet.gauges h
    · exact hunbound.gauges
  | abortTransition =>
    rcases he with ⟨rfl, _⟩ | ⟨t, _, haborted⟩
    · exact h
    · exact haborted.gauges

theorem gaugesExact_new (capacity : Capacity) : GaugesExact (new capacity) :=
  ⟨rfl, rfl, rfl, rfl, rfl, rfl⟩

theorem ten_le_u64Max : 10 ≤ u64Max := by decide

def tenBytes : Capacity := ⟨10, 10, ten_le_u64Max, ten_le_u64Max⟩

def somePrefix : LogicalStore.EvaluatedPrefixId := LogicalStore.zeroDigest

def globalAndRecurrent : LogicalStore.ComponentMask :=
  LogicalStore.ComponentMask.globalKv.union LogicalStore.ComponentMask.recurrent

end Cusco.PhysicalRuns
