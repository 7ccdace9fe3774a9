import Cusco.TierUsage
import Cusco.TransferSteps

/-!
Where copies come from. A transfer under way protects its representation, so its source is
still there when it completes. A demotion does not look for one: it marks the lower tier of
a representation that may have lost its last copy, and from then on the representation seems
resident. Every other copy is made from one on another tier or recomputed.
-/

namespace Cusco.CopyProvenance

open Calls Physical Physical.PhysicalManager DeviceEviction PhysicalEffects PhysicalOwners
open PhysicalSteps PhysicalTransitions PhysicalTransfers PhysicalPreparations PhysicalRuns Runs
open TierSteps TransferSteps

/-- Some tier holds a copy. -/
def resident (r : PhysicalRepresentation) : Bool := r.device || r.host || r.storage

/-- A flag is only set when another tier holds a copy, or by a recomputation. -/
def CopiesFrom (m : PhysicalManager) (a : Action) (m' : PhysicalManager) : Prop :=
  ∀ k r r', m.representations.lookup k = some r → m'.representations.lookup k = some r' →
    (r.device = false → r'.device = true →
      r.host = true ∨ r.storage = true ∨ ∃ i, a = .completeRecompute i k) ∧
    (r.host = false → r'.host = true → r.device = true ∨ r.storage = true) ∧
    (r.storage = false → r'.storage = true → r.device = true ∨ r.host = true)

/-- Without a recomputation a representation that has lost its last copy stays without. -/
def LostStaysLost (start : PhysicalManager) (run : List (Action × PhysicalManager)) : Prop :=
  ∀ before between after, run = before ++ (between ++ after) → ∀ k r r',
    (last start before).representations.lookup k = some r → resident r = false →
      (∀ x ∈ between, ∀ i, x.1 ≠ .completeRecompute i k) →
        (last (last start before) between).representations.lookup k = some r' →
          resident r' = false

/-- A demotion that is carried out has a copy to demote. -/
def HasSource (m : PhysicalManager) : Action → Prop
  | .demoteToHost k => ∀ r, m.representations.lookup k = some r →
      r.references.isProtected = false → m.hostUsed + r.bytes ≤ m.capacity.hostBytes →
        resident r = true
  | .demoteToStorage k => ∀ r, m.representations.lookup k = some r →
      r.references.isProtected = false → resident r = true
  | _ => True

/-- The same as a check. -/
def sourceCheck (m : PhysicalManager) : Action → Bool
  | .demoteToHost k => (m.representations.lookup k).all (fun r =>
      r.references.isProtected || m.capacity.hostBytes < m.hostUsed + r.bytes || resident r)
  | .demoteToStorage k => (m.representations.lookup k).all (fun r =>
      r.references.isProtected || resident r)
  | _ => true

theorem sourceCheck_iff (m : PhysicalManager) (a : Action) :
    sourceCheck m a = true ↔ HasSource m a := by
  cases a with
  | demoteToHost k =>
    unfold sourceCheck HasSource
    rw [Option.all_eq_true]
    refine forall_congr' (fun r => imp_congr_right (fun _ => ?_))
    rw [Bool.or_eq_true, Bool.or_eq_true, decide_eq_true_eq, ← Nat.not_le, ← Bool.not_eq_true]
    tauto
  | demoteToStorage k =>
    unfold sourceCheck HasSource
    rw [Option.all_eq_true]
    refine forall_congr' (fun r => imp_congr_right (fun _ => ?_))
    rw [Bool.or_eq_true, ← Bool.not_eq_true]
    tauto
  | _ => exact iff_of_true rfl trivial

instance (m : PhysicalManager) (a : Action) : Decidable (HasSource m a) :=
  decidable_of_iff _ (sourceCheck_iff m a)

theorem resident_iff (r : PhysicalRepresentation) :
    resident r = true ↔ r.device = true ∨ r.host = true ∨ r.storage = true := by
  simp only [resident, Bool.or_eq_true, or_assoc]

/-- Copies only go, and only where nothing protects them. -/
structure Dims (r r' : PhysicalRepresentation) : Prop where
  device : r'.device = true → r.device = true
  host : r'.host = true → r.host = true
  storage : r'.storage = true → r.storage = true
  kept : r.references.isProtected = true →
    r'.device = r.device ∧ r'.host = r.host ∧ r'.storage = r.storage

theorem Dims.refl (r : PhysicalRepresentation) : Dims r r :=
  ⟨fun h => h, fun h => h, fun h => h, fun _ => ⟨rfl, rfl, rfl⟩⟩

theorem dims_of_fades {r r' : PhysicalRepresentation} (h : Fades r r') : Dims r r' :=
  ⟨h.device, h.host, h.storage, h.kept⟩

/-- What a call does to the copies of one representation. -/
inductive CopyChange (m : PhysicalManager) (a : Action) (k : PhysicalRepresentationId)
    (r r' : PhysicalRepresentation) : Prop
  | dims (h : Dims r r')
  | toHost (ha : a = .demoteToHost k) (hfree : r.references.isProtected = false)
      (hroom : r.host = true ∨ m.hostUsed + r.bytes ≤ m.capacity.hostBytes)
      (hdevice : r'.device = false) (hhost : r'.host = true) (hstorage : r'.storage = r.storage)
  | toStorage (ha : a = .demoteToStorage k) (hfree : r.references.isProtected = false)
      (hdevice : r'.device = false) (hhost : r'.host = false) (hstorage : r'.storage = true)
  | received (x : TransferId) (y : Transfer) (ha : a = .completeTransfer x true)
      (hy : m.transfers.lookup x = some y) (hmoving : y.completed = false)
      (hk : y.representation = k) (hdevice : r'.device = true) (hhost : r'.host = r.host)
      (hstorage : r'.storage = r.storage)
  | recomputed (i : PreparedTransitionId) (ha : a = .completeRecompute i k)
      (hdevice : r'.device = true) (hhost : r'.host = r.host) (hstorage : r'.storage = r.storage)

/-- A landing is noticed by the representation that lands alone. -/
theorem landed_kept {m m1 m' : PhysicalManager} {j k : PhysicalRepresentationId} {bytes : ℕ}
    {r' : PhysicalRepresentation} (h : Landed m j bytes m1) (hkept : CopiesKept m1 m')
    (hr' : m'.representations.lookup k = some r') :
    ∃ r, m.representations.lookup k = some r ∧ (Dims r r' ∨
      k = j ∧ r'.device = true ∧ r'.host = r.host ∧ r'.storage = r.storage) := by
  obtain ⟨q, hq, hsame⟩ := hkept k r' hr'
  obtain ⟨r, hr, rfl⟩ := h.rewrites.of_lookup hq
  refine ⟨r, hr, ?_⟩
  by_cases hkj : k = j
  · rw [if_pos hkj] at hsame
    exact Or.inr ⟨hkj, hsame.device, hsame.host, hsame.storage⟩
  · rw [if_neg hkj] at hsame
    exact Or.inl (dims_of_fades
      ((fades_leaving _ (isProtected_of_evicts m bytes) r).same hsame))

/-- A representation that was written back, or another one. -/
theorem of_insert {m m' : PhysicalManager} {j k : PhysicalRepresentationId}
    {q q' r' : PhysicalRepresentation} (hq : m.representations.lookup j = some q)
    (h : m'.representations = m.representations.insert j q')
    (hr' : m'.representations.lookup k = some r') :
    ∃ r, m.representations.lookup k = some r ∧ (r' = r ∨ (k = j ∧ r = q ∧ r' = q')) := by
  rw [h, AList.lookup_insert_ite] at hr'
  by_cases hkj : k = j
  · rw [if_pos hkj] at hr'
    cases hr'
    exact ⟨q, hkj ▸ hq, Or.inr ⟨hkj, rfl, rfl⟩⟩
  · rw [if_neg hkj] at hr'
    exact ⟨r', hr', Or.inl rfl⟩

/-- Every stored representation is new, or changed in one of these ways. -/
theorem copyChange_of_step {m m' : PhysicalManager} {a : Action} (hm : Owned m)
    (hstep : Step m a m') {k : PhysicalRepresentationId} {r' : PhysicalRepresentation}
    (hr' : m'.representations.lookup k = some r') :
    k.value = m.nextId ∨ ∃ r, m.representations.lookup k = some r ∧ CopyChange m a k r r' := by
  cases tierStep_of_step hm hstep with
  | fades hfading =>
    obtain ⟨r, hr, hfades⟩ := hfading k r' hr'
    exact Or.inr ⟨r, hr, .dims (dims_of_fades hfades)⟩
  | released hq hreleased =>
    rcases hreleased with herased | ⟨_, hstored⟩
    · rw [herased, AList.lookup_erase_ite] at hr'
      split at hr'
      · cases hr'
      · exact Or.inr ⟨r', hr', .dims (Dims.refl r')⟩
    · obtain ⟨r, hr, rfl | ⟨_, rfl, rfl⟩⟩ := of_insert hq hstored hr'
      · exact Or.inr ⟨r', hr, .dims (Dims.refl r')⟩
      · exact Or.inr ⟨r, hr, .dims ⟨fun h => h, fun h => h, fun h => h, fun _ => ⟨rfl, rfl, rfl⟩⟩⟩
  | registered hfading _ _ _ _ hstored =>
    rw [hstored, AList.lookup_insert_ite] at hr'
    by_cases hk : k = ⟨m.nextId⟩
    · exact Or.inl (congrArg PhysicalRepresentationId.value hk)
    · rw [if_neg hk] at hr'
      obtain ⟨r, hr, hfades⟩ := hfading k r' hr'
      exact Or.inr ⟨r, hr, .dims (dims_of_fades hfades)⟩
  | demotedToHost hq hfree hroom hstored =>
    obtain ⟨r, hr, rfl | ⟨rfl, rfl, rfl⟩⟩ := of_insert hq hstored hr'
    · exact Or.inr ⟨r', hr, .dims (Dims.refl r')⟩
    · exact Or.inr ⟨r, hr, .toHost rfl hfree hroom rfl rfl rfl⟩
  | demotedToStorage hq hfree hstored =>
    obtain ⟨r, hr, rfl | ⟨rfl, rfl, rfl⟩⟩ := of_insert hq hstored hr'
    · exact Or.inr ⟨r', hr, .dims (Dims.refl r')⟩
    · exact Or.inr ⟨r, hr, .toStorage rfl hfree rfl rfl rfl⟩
  | received hy hmoving hlanded hkept =>
    obtain ⟨r, hr, hdims | ⟨hk, hdevice, hhost, hstorage⟩⟩ := landed_kept hlanded hkept hr'
    · exact Or.inr ⟨r, hr, .dims hdims⟩
    · exact Or.inr ⟨r, hr, .received _ _ rfl hy hmoving hk.symm hdevice hhost hstorage⟩
  | recomputed hq hlanded hkept =>
    obtain ⟨r, hr, hdims | ⟨rfl, hdevice, hhost, hstorage⟩⟩ := landed_kept hlanded hkept hr'
    · exact Or.inr ⟨r, hr, .dims hdims⟩
    · exact Or.inr ⟨r, hr, .recomputed _ rfl hdevice hhost hstorage⟩

def Sourced (m : PhysicalManager) : Prop :=
  ∀ x y, m.transfers.lookup x = some y → y.completed = false →
    ∀ r, m.representations.lookup y.representation = some r → resident r = true

/-- A protected representation keeps a copy. -/
theorem resident_of_change {m : PhysicalManager} {a : Action} {k : PhysicalRepresentationId}
    {r r' : PhysicalRepresentation} (h : CopyChange m a k r r')
    (hprotected : r.references.isProtected = true) (hr : resident r = true) :
    resident r' = true := by
  rw [resident_iff] at hr ⊢
  cases h with
  | dims hdims =>
    obtain ⟨hdevice, hhost, hstorage⟩ := hdims.kept hprotected
    rw [hdevice, hhost, hstorage]
    exact hr
  | toHost _ _ _ _ hhost => exact Or.inr (Or.inl hhost)
  | toStorage _ _ _ _ hstorage => exact Or.inr (Or.inr hstorage)
  | received _ _ _ _ _ _ hdevice => exact Or.inl hdevice
  | recomputed _ _ hdevice => exact Or.inl hdevice

theorem sourced_step {m m' : PhysicalManager} {a : Action} (hm : Owned m) (h : Sourced m)
    (hstep : Step m a m') : Sourced m' := by
  have hold : ∀ x y, m.transfers.lookup x = some y → y.completed = false → ∀ r',
      m'.representations.lookup y.representation = some r' → resident r' = true := by
    intro x y hy hmoving r' hr'
    obtain ⟨q, hq, _⟩ := hm.moving x y hy hmoving
    rcases copyChange_of_step hm hstep hr' with hnew | ⟨r, hr, hchange⟩
    · have hlt := hm.representations_old _ q hq
      omega
    · have hprotected : r.references.isProtected = true :=
        (isProtected_iff _).mpr (Or.inr (Or.inr (hm.transfers_pos hy hmoving hr)))
      exact resident_of_change hchange hprotected (h x y hy hmoving r hr)
  intro x y' hy' hmoving r' hr'
  cases transferChange_of_step hm hstep hy' with
  | same hy => exact hold x y' hy hmoving r' hr'
  | started t r _ _ _ hr hsource =>
    cases hr.symm.trans hr'
    exact (resident_iff _).mpr (Or.inr hsource)
  | settled y success _ _ heq =>
    rw [heq] at hmoving
    cases hmoving
  | detached y hy hincomplete heq =>
    rw [heq] at hr'
    exact hold x y hy hincomplete r' hr'

theorem copiesFrom_of_change {m : PhysicalManager} {a : Action} {k : PhysicalRepresentationId}
    {r r' : PhysicalRepresentation} (hsourced : Sourced m)
    (hr : m.representations.lookup k = some r) (hsource : HasSource m a)
    (h : CopyChange m a k r r') :
    (r.device = false → r'.device = true →
      r.host = true ∨ r.storage = true ∨ ∃ i, a = .completeRecompute i k) ∧
    (r.host = false → r'.host = true → r.device = true ∨ r.storage = true) ∧
    (r.storage = false → r'.storage = true → r.device = true ∨ r.host = true) := by
  have hnever : ∀ {b : Bool}, b = false → b = true → False := by
    intro b hfalse htrue
    rw [hfalse] at htrue
    cases htrue
  cases h with
  | dims hdims =>
    refine ⟨fun hnot hnow => ?_, fun hnot hnow => ?_, fun hnot hnow => ?_⟩
    · exact (hnever hnot (hdims.device hnow)).elim
    · exact (hnever hnot (hdims.host hnow)).elim
    · exact (hnever hnot (hdims.storage hnow)).elim
  | toHost ha hfree hroom hdevice hhost hstorage =>
    refine ⟨fun _ hnow => (hnever hdevice hnow).elim, fun hnot _ => ?_, fun hnot hnow => ?_⟩
    · subst ha
      have hfits := hroom.resolve_left (hnever hnot)
      rcases (resident_iff r).mp (hsource r hr hfree hfits) with hd | hh | hs
      · exact Or.inl hd
      · exact (hnever hnot hh).elim
      · exact Or.inr hs
    · rw [hstorage] at hnow
      exact (hnever hnot hnow).elim
  | toStorage ha hfree hdevice hhost hstorage =>
    refine ⟨fun _ hnow => (hnever hdevice hnow).elim, fun _ hnow => (hnever hhost hnow).elim,
      fun hnot _ => ?_⟩
    subst ha
    rcases (resident_iff r).mp (hsource r hr hfree) with hd | hh | hs
    · exact Or.inl hd
    · exact Or.inr hh
    · exact (hnever hnot hs).elim
  | received x y ha hy hmoving hk hdevice hhost hstorage =>
    subst hk
    refine ⟨fun hnot _ => ?_, fun hnot hnow => ?_, fun hnot hnow => ?_⟩
    · rcases (resident_iff r).mp (hsourced x y hy hmoving r hr) with hd | hh | hs
      · exact (hnever hnot hd).elim
      · exact Or.inl hh
      · exact Or.inr (Or.inl hs)
    · rw [hhost] at hnow
      exact (hnever hnot hnow).elim
    · rw [hstorage] at hnow
      exact (hnever hnot hnow).elim
  | recomputed i ha hdevice hhost hstorage =>
    refine ⟨fun _ _ => Or.inr (Or.inr ⟨i, ha⟩), fun hnot hnow => ?_, fun hnot hnow => ?_⟩
    · rw [hhost] at hnow
      exact (hnever hnot hnow).elim
    · rw [hstorage] at hnow
      exact (hnever hnot hnow).elim

/-- A demotion that is carried out without a copy breaks the provenance. -/
theorem hasSource_of_copiesFrom {m m' : PhysicalManager} {a : Action} (hstep : Step m a m')
    (h : CopiesFrom m a m') : HasSource m a := by
  cases a with
  | demoteToHost k =>
    intro r hr hfree hroom
    by_contra hlost
    rw [resident_iff, not_or, not_or, Bool.not_eq_true, Bool.not_eq_true, Bool.not_eq_true]
      at hlost
    obtain ⟨hdevice, hhost, hstorage⟩ := hlost
    obtain ⟨m1, hrun, hstored⟩ := demoteToHost_run hr hfree (Or.inr hroom)
    obtain ⟨_, hrun'⟩ := of_returned hstep
    cases hrun.symm.trans hrun'
    have hnow : m'.representations.lookup k = some { r with host := true, device := false } := by
      rw [hstored]
      exact AList.lookup_insert _
    rcases (h k r _ hr hnow).2.1 hhost rfl with hd | hs
    · rw [hdevice] at hd
      cases hd
    · rw [hstorage] at hs
      cases hs
  | demoteToStorage k =>
    intro r hr hfree
    by_contra hlost
    rw [resident_iff, not_or, not_or, Bool.not_eq_true, Bool.not_eq_true, Bool.not_eq_true]
      at hlost
    obtain ⟨hdevice, hhost, hstorage⟩ := hlost
    obtain ⟨m1, hrun, hstored⟩ := demoteToStorage_run hr hfree
    obtain ⟨_, hrun'⟩ := of_returned hstep
    cases hrun.symm.trans hrun'
    have hnow : m'.representations.lookup k =
        some { r with storage := true, host := false, device := false } := by
      rw [hstored]
      exact AList.lookup_insert _
    rcases (h k r _ hr hnow).2.2 hstorage rfl with hd | hh
    · rw [hdevice] at hd
      cases hd
    · rw [hhost] at hh
      cases hh
  | _ => trivial

theorem copiesFrom_iff {m m' : PhysicalManager} {a : Action} (hm : Owned m ∧ Sourced m)
    (hstep : Step m a m') : CopiesFrom m a m' ↔ HasSource m a := by
  refine ⟨hasSource_of_copiesFrom hstep, fun hsource k r r' hr hr' => ?_⟩
  rcases copyChange_of_step hm.1 hstep hr' with hnew | ⟨q, hq, hchange⟩
  · have hlt := hm.1.representations_old k r hr
    omega
  · cases hr.symm.trans hq
    exact copiesFrom_of_change hm.2 hr hsource hchange

/-- What was stored under an old identity, if it still is, has no copy. -/
structure Lost (m : PhysicalManager) (k : PhysicalRepresentationId) : Prop where
  old : k.value < m.nextId
  copyless : ∀ r, m.representations.lookup k = some r → resident r = false

theorem lost_step {m m' : PhysicalManager} {a : Action} {k : PhysicalRepresentationId}
    (hm : Owned m) (hstep : Step m a m') (hfrom : CopiesFrom m a m') (h : Lost m k)
    (ha : ∀ i, a ≠ .completeRecompute i k) : Lost m' k := by
  have hnext := (step_effect hm hstep).later.nextId
  refine ⟨lt_of_lt_of_le h.old hnext, fun r' hr' => ?_⟩
  rcases copyChange_of_step hm hstep hr' with hnew | ⟨r, hr, _⟩
  · have hold := h.old
    omega
  have hbefore := h.copyless r hr
  rw [← Bool.not_eq_true, resident_iff, not_or, not_or] at hbefore
  obtain ⟨hdevice, hhost, hstorage⟩ := hbefore
  obtain ⟨hfromDevice, hfromHost, hfromStorage⟩ := hfrom k r r' hr hr'
  rw [← Bool.not_eq_true, resident_iff]
  rintro (hd | hh | hs)
  · rcases hfromDevice (Bool.not_eq_true _ ▸ hdevice) hd with h' | h' | ⟨i, h'⟩
    · exact hhost h'
    · exact hstorage h'
    · exact ha i h'
  · rcases hfromHost (Bool.not_eq_true _ ▸ hhost) hh with h' | h'
    · exact hdevice h'
    · exact hstorage h'
  · rcases hfromStorage (Bool.not_eq_true _ ▸ hstorage) hs with h' | h'
    · exact hdevice h'
    · exact hhost h'

theorem lost_run {m : PhysicalManager} {k : PhysicalRepresentationId}
    (run : List (Action × PhysicalManager)) (hm : Owned m) (hrun : IsRun Step m run)
    (hfrom : Along CopiesFrom m run) (h : Lost m k)
    (ha : ∀ x ∈ run, ∀ i, x.1 ≠ .completeRecompute i k) : Lost (last m run) k := by
  induction run generalizing m with
  | nil => exact h
  | cons head rest ih =>
    have hnext := lost_step hm hrun.1 hfrom.1 h (ha head List.mem_cons_self)
    exact ih (owned_step m head.1 head.2 hm hrun.1) hrun.2 hfrom.2 hnext
      (fun x hx => ha x (List.mem_cons_of_mem _ hx))

theorem lostStaysLost_of_along {m : PhysicalManager} {run : List (Action × PhysicalManager)}
    (hm : Owned m) (hrun : IsRun Step m run) (hfrom : Along CopiesFrom m run) :
    LostStaysLost m run := by
  rintro before between after rfl k r r' hr hlost ha hr'
  obtain ⟨hbefore, hrest⟩ := (isRun_append Step m before _).mp hrun
  obtain ⟨hbetween, _⟩ := (isRun_append Step _ between after).mp hrest
  obtain ⟨_, hfromRest⟩ := (along_append CopiesFrom m before _).mp hfrom
  obtain ⟨hfromBetween, _⟩ := (along_append CopiesFrom _ between after).mp hfromRest
  have howned := invariant_of_run Step Owned owned_step m before hm hbefore
  have hstart : Lost (last m before) k := by
    refine ⟨howned.representations_old k r hr, fun q hq => ?_⟩
    cases hr.symm.trans hq
    exact hlost
  exact (lost_run between howned hbetween hfromBetween hstart ha).copyless r' hr'

/-- In a run of the manager every copy has a source, and lost representations stay lost, if
and only if no demotion that is carried out lacks a copy. -/
theorem copies_have_sources_iff (capacity : Capacity) (run : List (Action × PhysicalManager))
    (hrun : IsRun Step (new capacity) run) :
    Along CopiesFrom (new capacity) run ∧ LostStaysLost (new capacity) run ↔
      Meets HasSource (new capacity) run := by
  have hsourced : Sourced (new capacity) := fun _ _ hy => nomatch hy
  have hiff := along_steps_iff_meets Step (fun m => Owned m ∧ Sourced m) CopiesFrom HasSource
    (fun _ _ _ hinv hstep => copiesFrom_iff hinv hstep)
    (fun m a m' hinv hstep _ => ⟨owned_step m a m' hinv.1 hstep, sourced_step hinv.1 hinv.2 hstep⟩)
    (new capacity) run ⟨owned_new capacity, hsourced⟩ hrun
  constructor
  · intro h
    exact hiff.mp h.1
  · intro h
    have hfrom := hiff.mpr h
    exact ⟨hfrom, lostStaysLost_of_along (owned_new capacity) hrun hfrom⟩

/-- A copy on the device goes to the host and from there to storage. -/
def demotedTwice : List Action := [
  .register somePrefix .globalKv 1 6 .device 0,
  .demoteToHost ⟨1⟩,
  .demoteToStorage ⟨1⟩]

theorem demoted_copies_have_sources :
    ∃ run, IsRun Step (new tenBytes) run ∧ run.length = 3 ∧
      Along CopiesFrom (new tenBytes) run ∧ LostStaysLost (new tenBytes) run := by
  have hrun : (trace perform (new tenBytes) demotedTwice).any (fun run => run.length = 3 &&
      decide (Meets HasSource (new tenBytes) run)) = true := by
    decide +kernel
  obtain ⟨run, htrace, hchecked⟩ := (Option.any_eq_true _ _).mp hrun
  rw [Bool.and_eq_true, decide_eq_true_eq, decide_eq_true_eq] at hchecked
  obtain ⟨hlength, hmeets⟩ := hchecked
  have hsteps := isRun_of_trace _ _ _ _ htrace
  exact ⟨run, hsteps, hlength, (copies_have_sources_iff tenBytes run hsteps).mpr hmeets⟩

/-- The only copy is evicted before it is demoted. -/
def evictedOnly : List Action := [
  .register somePrefix .globalKv 1 6 .device 0,
  .evict ⟨1⟩ .device]

/-- The demotion makes the lost representation seem resident on the host. -/
theorem demotion_without_source :
    ∃ run, IsRun Step (new tenBytes) run ∧
      ¬(Along CopiesFrom (new tenBytes) run ∧ LostStaysLost (new tenBytes) run) := by
  have hrun : (trace perform (new tenBytes) evictedOnly).any (fun run =>
      !decide (HasSource (last (new tenBytes) run) (.demoteToHost ⟨1⟩)) &&
        (perform (last (new tenBytes) run) (.demoteToHost ⟨1⟩)).isSome) = true := by
    decide +kernel
  obtain ⟨run, htrace, hchecked⟩ := (Option.any_eq_true _ _).mp hrun
  rw [Bool.and_eq_true, Bool.not_eq_true', decide_eq_false_iff_not] at hchecked
  obtain ⟨hlost, hperformed⟩ := hchecked
  obtain ⟨m', hperform⟩ := Option.isSome_iff_exists.mp hperformed
  have hstep : Step (last (new tenBytes) run) (.demoteToHost ⟨1⟩) m' := hperform
  have hsteps := isRun_of_trace _ _ _ _ htrace
  refine ⟨run ++ [(.demoteToHost ⟨1⟩, m')],
    (isRun_append Step _ run _).mpr ⟨hsteps, hstep, trivial⟩, ?_⟩
  rintro ⟨hfrom, _⟩
  obtain ⟨_, hdemoted, _⟩ := (along_append CopiesFrom _ run _).mp hfrom
  exact hlost (hasSource_of_copiesFrom hstep hdemoted)

end Cusco.CopyProvenance
