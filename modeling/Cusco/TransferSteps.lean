import Cusco.PhysicalRuns

/-!
What a call of the physical manager does to the transfers. A transfer is started with the
transition that waits for it, settled once, detached when its transition is aborted, and
goes when a detached one is settled or its transition is committed.
-/

namespace Cusco.TransferSteps

open Calls Physical Physical.PhysicalManager DeviceEviction PhysicalEffects PhysicalOwners
open PhysicalSteps PhysicalTransitions PhysicalTransfers PhysicalPreparations PhysicalRuns Runs

variable {m m' : PhysicalManager}

/-- How a transfer in the table after a call came there. -/
inductive TransferChange (m : PhysicalManager) (a : Action) (m' : PhysicalManager)
    (x : TransferId) (y' : Transfer) : Prop
  | same (hy : m.transfers.lookup x = some y')
      (hkept : ∀ i t, m.transitions.lookup i = some t → x ∈ t.transfers →
        m'.transitions.lookup i = some t)
  | started (t : PreparedTransition) (r : PhysicalRepresentation)
      (ht : m'.transitions.lookup ⟨m.nextId⟩ = some t) (hx : x ∈ t.transfers)
      (hattached : y'.detached = false)
      (hr : m'.representations.lookup y'.representation = some r)
      (hsource : r.host = true ∨ r.storage = true)
  | settled (y : Transfer) (success : Bool) (hy : m.transfers.lookup x = some y)
      (hattached : y.detached = false)
      (hy' : y' = { y with completed := true, success := success })
      (hkept : m'.transitions = m.transitions)
  | detached (y : Transfer) (hy : m.transfers.lookup x = some y) (hmoving : y.completed = false)
      (hy' : y' = { y with detached := true })

/-- The tables of transitions and transfers are left alone. -/
theorem TransferChange.of_eq {a : Action} {x : TransferId} {y' : Transfer}
    (htransfers : m'.transfers = m.transfers) (htransitions : m'.transitions = m.transitions)
    (hy' : m'.transfers.lookup x = some y') : TransferChange m a m' x y' := by
  rw [htransfers] at hy'
  refine .same hy' (fun i t ht _ => ?_)
  rw [htransitions]
  exact ht

theorem transferChange_quiet {a : Action} {x : TransferId} {y' : Transfer} (h : Quiet m m')
    (hy' : m'.transfers.lookup x = some y') : TransferChange m a m' x y' := by
  obtain ⟨_, _, rfl⟩ := h.frame
  exact .of_eq rfl rfl hy'

theorem transferChange_prepared {a : Action} {t : PreparedTransition} (hm : Owned m)
    (h : Prepared m t m') {x : TransferId} {y' : Transfer} (hy' : m'.transfers.lookup x = some y') :
    TransferChange m a m' x y' := by
  have hfound := found_of_prepared h
  obtain ⟨m1, hspaced, hreserved⟩ := h.admitted
  obtain ⟨_, _, rfl⟩ := hspaced.frame
  have hids := hreserved.transfers
  have hrewrites := hreserved.rewrites
  obtain ⟨_, _, rfl⟩ := hreserved.frame
  by_cases hx : x ∈ t.transfers
  · have hmem := hx
    rw [hids] at hmem
    obtain ⟨⟨k, bytes⟩, hmove, hstarted⟩ := startTransfers_new _ _ m.transfers x hmem
    cases hstarted.symm.trans hy'
    obtain ⟨hk, r, hr, hpromotable, _⟩ := (mem_movesOf_iff _ _ _ _).mp hmove
    have hlisted := hrewrites.lookup_some hr
    rw [if_pos hk] at hlisted
    refine .started t (reserved r) hfound hx rfl hlisted ?_
    unfold promotable at hpromotable
    rw [Bool.and_eq_true, Bool.or_eq_true] at hpromotable
    exact hpromotable.2
  · change (startTransfers _ _ m.transfers).lookup x = some y' at hy'
    rw [hids] at hx
    rw [startTransfers_old _ _ _ _ hx] at hy'
    refine .same hy' (fun i u hu _ => ?_)
    change (m.transitions.insert ⟨m.nextId⟩ t).lookup i = some u
    rw [AList.lookup_insert_ite, if_neg]
    · exact hu
    · rintro rfl
      rw [hm.fresh_transition] at hu
      cases hu

theorem transferChange_completed {a : Action} {z : TransferId} {y : Transfer} {success : Bool}
    (hy : m.transfers.lookup z = some y) (h : Completed m z y success m') {x : TransferId}
    {y' : Transfer} (hy' : m'.transfers.lookup x = some y') : TransferChange m a m' x y' := by
  obtain ⟨m1, hreceived, hsettled⟩ := h
  have hsame : m1.transfers = m.transfers ∧ m1.transitions = m.transitions := by
    rcases hreceived with ⟨_, rfl, _⟩ | ⟨_, hlanded⟩
    · exact ⟨rfl, rfl⟩
    · obtain ⟨_, _, rfl⟩ := hlanded.frame
      exact ⟨rfl, rfl⟩
  have htransitions : m'.transitions = m.transitions := by
    obtain ⟨_, _, _, rfl⟩ := hsettled.frame
    exact hsame.2
  have hlookup := hsettled.transfers x
  rw [hy', hsame.1] at hlookup
  by_cases hxz : x = z
  · rw [if_pos hxz] at hlookup
    by_cases hdetached : y.detached = true
    · rw [if_pos hdetached] at hlookup
      cases hlookup
    · rw [if_neg hdetached] at hlookup
      rw [Bool.not_eq_true] at hdetached
      exact .settled y success (hxz ▸ hy) hdetached (Option.some.inj hlookup) htransitions
  · rw [if_neg hxz] at hlookup
    refine .same hlookup.symm (fun i t ht _ => ?_)
    rw [htransitions]
    exact ht

theorem transferChange_commit {a : Action} {i : PreparedTransitionId} {revision : ℕ}
    (h : CommitEffect m i revision m') {x : TransferId} {y' : Transfer}
    (hy' : m'.transfers.lookup x = some y') : TransferChange m a m' x y' := by
  rcases h with ⟨rfl, _⟩ | ⟨t, m1, m2, ht, _, hbefore, hcommitted, hafter⟩
  · exact .of_eq rfl rfl hy'
  obtain ⟨_, _, _, rfl⟩ := hafter.frame
  obtain ⟨_, _, _, rfl⟩ := hcommitted.frame
  obtain ⟨_, _, _, rfl⟩ := hbefore.frame
  change (m.transfers.eraseAll t.transfers).lookup x = some y' at hy'
  rw [AList.lookup_eraseAll] at hy'
  by_cases hx : x ∈ t.transfers
  · rw [if_pos hx] at hy'
    cases hy'
  · rw [if_neg hx] at hy'
    refine .same hy' (fun j u hu hmem => ?_)
    change (m.transitions.erase i).lookup j = some u
    rw [AList.lookup_erase_ite, if_neg]
    · exact hu
    · rintro rfl
      cases ht.symm.trans hu
      exact hx hmem

theorem transferChange_aborted {a : Action} {i : PreparedTransitionId} {t : PreparedTransition}
    (ht : m.transitions.lookup i = some t) (h : Aborted m i t m') {x : TransferId} {y' : Transfer}
    (hy' : m'.transfers.lookup x = some y') : TransferChange m a m' x y' := by
  have hlookup := h.transfers x
  rw [hy'] at hlookup
  obtain ⟨_, _, _, rfl⟩ := h.frame
  obtain ⟨y, hy, hchanged⟩ := Option.bind_eq_some_iff.mp hlookup.symm
  by_cases hx : x ∈ t.transfers
  · rw [if_pos hx] at hchanged
    unfold PhysicalEffects.detached at hchanged
    by_cases hcompleted : y.completed = true
    · rw [if_pos hcompleted] at hchanged
      cases hchanged
    · rw [if_neg hcompleted] at hchanged
      rw [Bool.not_eq_true] at hcompleted
      exact .detached y hy hcompleted (Option.some.inj hchanged).symm
  · rw [if_neg hx] at hchanged
    cases hchanged
    refine .same hy (fun j u hu hmem => ?_)
    change (m.transitions.erase i).lookup j = some u
    rw [AList.lookup_erase_ite, if_neg]
    · exact hu
    · rintro rfl
      cases ht.symm.trans hu
      exact hx hmem

theorem transferChange_of_step {a : Action} (hm : Owned m) (hstep : Step m a m') {x : TransferId}
    {y' : Transfer} (hy' : m'.transfers.lookup x = some y') : TransferChange m a m' x y' := by
  have heffect := step_effect hm hstep
  cases a with
  | register =>
    rcases heffect with hquiet | ⟨m1, r, hquiet, _, _, rfl⟩
    · exact transferChange_quiet hquiet hy'
    · obtain ⟨_, _, rfl⟩ := hquiet.frame
      exact .of_eq rfl rfl hy'
  | releaseLogicalReference =>
    rcases heffect with hquiet | herased
    · exact transferChange_quiet hquiet hy'
    · obtain ⟨_, rfl⟩ := herased.frame
      exact .of_eq rfl rfl hy'
  | reserveGrowth =>
    rcases heffect with hquiet | ⟨_, m1, hquiet, rfl⟩
    · exact transferChange_quiet hquiet hy'
    · obtain ⟨_, _, rfl⟩ := hquiet.frame
      exact .of_eq rfl rfl hy'
  | releaseGrowth =>
    rcases heffect with hquiet | rfl
    · exact transferChange_quiet hquiet hy'
    · exact .of_eq rfl rfl hy'
  | demoteToHost => exact transferChange_quiet heffect hy'
  | demoteToStorage => exact transferChange_quiet heffect hy'
  | evict => exact transferChange_quiet heffect hy'
  | prepareTransition =>
    rcases heffect with hquiet | ⟨t, hprepared⟩
    · exact transferChange_quiet hquiet hy'
    · exact transferChange_prepared hm hprepared hy'
  | completeTransfer =>
    rcases heffect with hquiet | ⟨y, hy, _, hcompleted⟩
    · exact transferChange_quiet hquiet hy'
    · exact transferChange_completed hy hcompleted hy'
  | completeRecompute =>
    rcases heffect with hquiet | ⟨t, r, m1, _, _, _, _, hlanded, rfl⟩
    · exact transferChange_quiet hquiet hy'
    · obtain ⟨_, _, rfl⟩ := hlanded.frame
      exact .of_eq rfl rfl hy'
  | commitTransition => exact transferChange_commit heffect hy'
  | commitMappedTransition => exact transferChange_commit heffect hy'
  | publishDeviceBlockTable =>
    obtain ⟨_, _, _, rfl⟩ := Published.frame heffect
    exact .of_eq rfl rfl hy'
  | unbind =>
    rcases heffect with hquiet | hunbound
    · exact transferChange_quiet hquiet hy'
    · obtain ⟨_, _, _, rfl⟩ := hunbound.frame
      exact .of_eq rfl rfl hy'
  | releaseBinding =>
    rcases heffect with hquiet | hunbound
    · exact transferChange_quiet hquiet hy'
    · obtain ⟨_, _, _, rfl⟩ := hunbound.frame
      exact .of_eq rfl rfl hy'
  | abortTransition =>
    rcases heffect with ⟨rfl, _⟩ | ⟨t, ht, haborted⟩
    · exact .of_eq rfl rfl hy'
    · exact transferChange_aborted ht haborted hy'

end Cusco.TransferSteps
