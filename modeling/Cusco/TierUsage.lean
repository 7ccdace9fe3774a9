import Cusco.TierSteps

/-!
The bytes on the device and on the host never exceed their capacities. Every gain passes a
check that counts what is resident at that moment, and everything else only fades. The
eviction loop ends, since each round takes an unprotected representation off the device.
-/

namespace Cusco.TierUsage

open Calls Physical Physical.PhysicalManager DeviceEviction PhysicalEffects PhysicalOwners
open PhysicalSteps PhysicalTransitions PhysicalTransfers PhysicalPreparations PhysicalRuns Runs
open TierSteps

variable {m m' : PhysicalManager} {k : PhysicalRepresentationId}

theorem bytesWhere_fading (p : PhysicalRepresentation → Bool)
    (hp : ∀ r r', Fades r r' → p r' = true → p r = true) (h : Fading m m') :
    m'.bytesWhere p ≤ m.bytesWhere p := by
  unfold bytesWhere
  apply AList.total_le_of_keys
  intro k r' hk
  obtain ⟨r, hr, hfades⟩ := h k r' hk
  refine ⟨r, hr, ?_⟩
  rw [hfades.bytes]
  by_cases hcounted : p r' = true
  · rw [if_pos hcounted, if_pos (hp r r' hfades hcounted)]
  · rw [if_neg hcounted]
    exact Nat.zero_le _

theorem deviceUsed_fading (h : Fading m m') : m'.deviceUsed ≤ m.deviceUsed :=
  bytesWhere_fading _ (fun _ _ hfades => hfades.device) h

theorem hostUsed_fading (h : Fading m m') : m'.hostUsed ≤ m.hostUsed :=
  bytesWhere_fading _ (fun _ _ hfades => hfades.host) h

/-- Storing a representation counts its bytes and no others that were not there. -/
theorem bytesWhere_insert {r : PhysicalRepresentation} (p : PhysicalRepresentation → Bool)
    (h : m'.representations = m.representations.insert k r) :
    m'.bytesWhere p ≤ (if p r then r.bytes else 0) + m.bytesWhere p := by
  unfold bytesWhere
  rw [h, AList.total_insert]
  have herase := AList.total_erase_le
    (fun _ (r : PhysicalRepresentation) => if p r then r.bytes else 0) m.representations k
  omega

/-- A stored representation that is written back without a copy is not counted. -/
theorem bytesWhere_rewrite {r r' : PhysicalRepresentation} (p : PhysicalRepresentation → Bool)
    (hr : m.representations.lookup k = some r) (hbytes : r'.bytes = r.bytes)
    (h : m'.representations = m.representations.insert k r') :
    m'.bytesWhere p + (if p r then r.bytes else 0) =
      m.bytesWhere p + (if p r' then r.bytes else 0) := by
  have hinsert := AList.total_insert
    (fun _ (r : PhysicalRepresentation) => if p r then r.bytes else 0) m.representations k r'
  have herase := AList.total_erase
    (fun _ (r : PhysicalRepresentation) => if p r then r.bytes else 0) m.representations k r hr
  unfold bytesWhere
  rw [h, hinsert, herase, hbytes]
  omega

/-- What landed on the device fits beside the copies that were left there. -/
theorem deviceUsed_landed (hkeyed : Keyed m) {r : PhysicalRepresentation} {bytes : ℕ}
    (hr : m.representations.lookup k = some r) (hbytes : r.bytes = bytes)
    (h : Landed m k bytes m') :
    m'.deviceUsed ≤ m.capacity.deviceBytes := by
  obtain ⟨representations, metrics, hrun, hrewrites, _⟩ := ensureDeviceSpace_spec bytes m hkeyed
  rw [spaceResult, if_pos h.room] at hrun
  have hspace := deviceUsed_of_evictUntilFits bytes (m.representations.entries.length + 1) m _ hrun
  have habsent : r.device = false := by
    obtain ⟨q, hq, hdevice⟩ := h.absent
    cases hr.symm.trans hq
    exact hdevice
  have hlookup : representations.lookup k = some r := by
    rw [hrewrites.lookup_some hr, afterSpace_absent m bytes r habsent]
  let counted : PhysicalRepresentationId → PhysicalRepresentation → ℕ :=
    fun _ r => if r.device then r.bytes else 0
  have hle : m'.deviceUsed ≤
      (representations.insert k { r with device := true }).total counted := by
    unfold deviceUsed bytesWhere
    apply AList.total_le_of_keys
    intro j q' hj
    obtain ⟨q, hq, rfl⟩ := h.rewrites.of_lookup hj
    rw [AList.lookup_insert_ite]
    by_cases hjk : j = k
    · subst hjk
      cases hr.symm.trans hq
      refine ⟨_, if_pos rfl, ?_⟩
      rw [if_pos rfl]
    · refine ⟨afterSpace m bytes q, ?_, ?_⟩
      · rw [if_neg hjk, hrewrites.lookup_some hq]
      · rw [if_neg hjk]
  have hbefore : representations.total counted + bytes ≤ m.capacity.deviceBytes := hspace
  have herase := AList.total_erase counted representations k r hlookup
  have hnew : counted k { r with device := true } = r.bytes := if_pos rfl
  rw [AList.total_insert, hnew] at hle
  omega

theorem hostUsed_landed {bytes : ℕ} (h : Landed m k bytes m') : m'.hostUsed = m.hostUsed := by
  unfold hostUsed bytesWhere
  rw [h.rewrites.total]
  apply AList.total_congr
  intro j r _
  by_cases hjk : j = k
  · rw [if_pos hjk]
  · rw [if_neg hjk]
    unfold afterSpace leaving
    by_cases hgone : evicts m bytes r = true
    · rw [if_pos hgone]
    · rw [if_neg hgone]

/-- What is on the device and on the host fits their capacities. -/
structure Fits (m : PhysicalManager) : Prop where
  device : m.deviceUsed ≤ m.capacity.deviceBytes
  host : m.hostUsed ≤ m.capacity.hostBytes

theorem fits_fading (h : Fits m) (hfading : Fading m m') (hcapacity : m'.capacity = m.capacity) :
    Fits m' := by
  refine ⟨?_, ?_⟩
  · rw [hcapacity]
    exact (deviceUsed_fading hfading).trans h.device
  · rw [hcapacity]
    exact (hostUsed_fading hfading).trans h.host

/-- One stored representation was written back with fewer copies on the device. -/
theorem fits_rewrite {r r' : PhysicalRepresentation} (h : Fits m)
    (hr : m.representations.lookup k = some r)
    (hstored : m'.representations = m.representations.insert k r') (hbytes : r'.bytes = r.bytes)
    (hdevice : r'.device = true → r.device = true)
    (hhost : r'.host = true → r.host = true ∨ m.hostUsed + r.bytes ≤ m.capacity.hostBytes)
    (hcapacity : m'.capacity = m.capacity) : Fits m' := by
  have hdeviceUsed := bytesWhere_rewrite (fun r => r.device) hr hbytes hstored
  have hhostUsed := bytesWhere_rewrite (fun r => r.host) hr hbytes hstored
  change m'.deviceUsed + _ = m.deviceUsed + _ at hdeviceUsed
  change m'.hostUsed + _ = m.hostUsed + _ at hhostUsed
  have hdeviceBefore := h.device
  have hhostBefore := h.host
  refine ⟨?_, ?_⟩
  · rw [hcapacity]
    by_cases hnew : r'.device = true
    · rw [if_pos hnew, if_pos (hdevice hnew)] at hdeviceUsed
      omega
    · rw [if_neg hnew] at hdeviceUsed
      omega
  · rw [hcapacity]
    by_cases hnew : r'.host = true
    · rw [if_pos hnew] at hhostUsed
      rcases hhost hnew with hold | hroom
      · rw [if_pos hold] at hhostUsed
        omega
      · omega
    · rw [if_neg hnew] at hhostUsed
      omega

theorem fits_inserted {m m1 m' : PhysicalManager} {r : PhysicalRepresentation} (h : Fits m)
    (hfading : Fading m m1)
    (hdevice : r.device = true → m1.deviceUsed + r.bytes ≤ m.capacity.deviceBytes)
    (hhost : r.host = true → m1.hostUsed + r.bytes ≤ m.capacity.hostBytes)
    (hcapacity : m'.capacity = m.capacity)
    (hstored : m'.representations = m1.representations.insert k r) : Fits m' := by
  have hdeviceUsed := bytesWhere_insert (fun r => r.device) hstored
  have hhostUsed := bytesWhere_insert (fun r => r.host) hstored
  change m'.deviceUsed ≤ _ + m1.deviceUsed at hdeviceUsed
  change m'.hostUsed ≤ _ + m1.hostUsed at hhostUsed
  have hdeviceBefore := (deviceUsed_fading hfading).trans h.device
  have hhostBefore := (hostUsed_fading hfading).trans h.host
  refine ⟨?_, ?_⟩
  · rw [hcapacity]
    by_cases hnew : r.device = true
    · have hroom := hdevice hnew
      rw [if_pos hnew] at hdeviceUsed
      omega
    · rw [if_neg hnew] at hdeviceUsed
      omega
  · rw [hcapacity]
    by_cases hnew : r.host = true
    · have hroom := hhost hnew
      rw [if_pos hnew] at hhostUsed
      omega
    · rw [if_neg hnew] at hhostUsed
      omega

theorem fits_landed {m m1 m' : PhysicalManager} (hkeyed : Keyed m) (h : Fits m)
    {r : PhysicalRepresentation} {bytes : ℕ} (hr : m.representations.lookup k = some r)
    (hbytes : r.bytes = bytes) (hlanded : Landed m k bytes m1) (hkept : CopiesKept m1 m')
    (hcapacity : m'.capacity = m.capacity) : Fits m' := by
  refine ⟨?_, ?_⟩
  · rw [hcapacity]
    exact (deviceUsed_fading hkept.fading).trans (deviceUsed_landed hkeyed hr hbytes hlanded)
  · rw [hcapacity]
    have hsame := hostUsed_landed hlanded
    have hbefore := h.host
    have hafter := hostUsed_fading hkept.fading
    omega

theorem fits_step {a : Action} (hm : Owned m) (h : Fits m) (hstep : Step m a m') : Fits m' := by
  have hcapacity : m'.capacity = m.capacity := (step_effect hm hstep).later.capacity
  cases tierStep_of_step hm hstep with
  | fades hfading => exact fits_fading h hfading hcapacity
  | released hr hreleased =>
    rcases hreleased with herased | ⟨_, hstored⟩
    · refine fits_fading h ?_ hcapacity
      intro k r hk
      rw [herased, AList.lookup_erase_ite] at hk
      split at hk
      · cases hk
      · exact ⟨r, hk, (SameCopies.refl r).fades⟩
    · exact fits_rewrite h hr hstored rfl (fun hd => hd) (fun hh => Or.inl hh) hcapacity
  | registered hfading _ _ hdevice hhost hstored =>
    exact fits_inserted h hfading hdevice hhost hcapacity hstored
  | demotedToHost hr _ hroom hstored =>
    exact fits_rewrite h hr hstored rfl (fun hd => (nomatch hd)) (fun _ => hroom) hcapacity
  | demotedToStorage hr _ hstored =>
    exact fits_rewrite h hr hstored rfl (fun hd => (nomatch hd)) (fun hh => (nomatch hh)) hcapacity
  | received hy hmoving hlanded hkept =>
    obtain ⟨r, hr, hbytes⟩ := hm.moving _ _ hy hmoving
    exact fits_landed hm.keyed h hr hbytes.symm hlanded hkept hcapacity
  | recomputed hr hlanded hkept => exact fits_landed hm.keyed h hr rfl hlanded hkept hcapacity

/-- One round of the loop: the least candidate leaves the device. -/
def EvictionRound (additional : ℕ) (m : PhysicalManager) (c : PhysicalRepresentation)
    (m' : PhysicalManager) : Prop :=
  fitsWithin m.deviceUsed additional m.capacity.deviceBytes = false ∧
    m.evictionCandidate = some c ∧ (evict c.id .device).run m = .returns (.ok ()) m'

/-- No further round is made. -/
def LoopEnds (additional : ℕ) (m : PhysicalManager) (result : Except Error Unit) : Prop :=
  (fitsWithin m.deviceUsed additional m.capacity.deviceBytes = true ∧ result = .ok ()) ∨
    (fitsWithin m.deviceUsed additional m.capacity.deviceBytes = false ∧
      m.evictionCandidate = none ∧ result = .error .deviceCapacity)

theorem round_of_candidate {additional : ℕ} {m : PhysicalManager} (hkeyed : Keyed m)
    (hfull : fitsWithin m.deviceUsed additional m.capacity.deviceBytes = false)
    {c : PhysicalRepresentation} (hc : m.evictionCandidate = some c) :
    EvictionRound additional m c (withoutDevice m c.id c) ∧
      residents (withoutDevice m c.id c) < residents m := by
  obtain ⟨hlookup, hdevice, hfree, _⟩ := evictionCandidate_spec m hkeyed c hc
  have hresidents := residents_withoutDevice m c.id c hlookup hdevice
  exact ⟨⟨hfull, hc, evict_device m c.id c hlookup hdevice hfree⟩, by omega⟩

/-- The loop with enough fuel is a run of rounds that ends by itself. -/
theorem loop_run (additional fuel : ℕ) (m : PhysicalManager) (hkeyed : Keyed m)
    (hfuel : residents m < fuel) : ∃ run result, IsRun (EvictionRound additional) m run ∧
      LoopEnds additional (last m run) result ∧
      (evictUntilFits additional fuel).run m = .returns result (last m run) := by
  induction fuel generalizing m with
  | zero => omega
  | succ fuel ih =>
    cases hfits : fitsWithin m.deviceUsed additional m.capacity.deviceBytes with
    | true => exact ⟨[], .ok (), trivial, Or.inl ⟨hfits, rfl⟩,
      evictUntilFits_fits additional fuel m hfits⟩
    | false =>
      cases hc : m.evictionCandidate with
      | none =>
        exact ⟨[], .error .deviceCapacity, trivial, Or.inr ⟨hfits, hc, rfl⟩,
          evictUntilFits_stuck additional fuel m hfits hc⟩
      | some c =>
        obtain ⟨hround, hfewer⟩ := round_of_candidate hkeyed hfits hc
        obtain ⟨run, result, hrun, hends, hrest⟩ :=
          ih (withoutDevice m c.id c) (keyed_withoutDevice m hkeyed c) (by omega)
        refine ⟨(c, withoutDevice m c.id c) :: run, result, ⟨hround, hrun⟩, hends, ?_⟩
        rw [evictUntilFits_next additional fuel m hfits c hc _ hround.2.2, hrest]
        rfl

/-- What a round evicts has no owner, and the sums do not grow. -/
structure FreeRound (m : PhysicalManager) (c : PhysicalRepresentation) (m' : PhysicalManager) :
    Prop where
  stored : m.representations.lookup c.id = some c
  unowned : c.references.active = 0 ∧ c.references.reservations = 0 ∧ c.references.transfers = 0
  device : m'.deviceUsed ≤ m'.capacity.deviceBytes
  host : m'.hostUsed ≤ m'.capacity.hostBytes

theorem freeRound_of_round {additional : ℕ} {c : PhysicalRepresentation} (h : Keyed m ∧ Fits m)
    (hround : EvictionRound additional m c m') : (Keyed m' ∧ Fits m') ∧ FreeRound m c m' := by
  obtain ⟨_, hc, hevict⟩ := hround
  obtain ⟨hlookup, hdevice, hfree, _⟩ := evictionCandidate_spec m h.1 c hc
  have hrun := evict_device m c.id c hlookup hdevice hfree
  cases hevict.symm.trans hrun
  have hfits : Fits (withoutDevice m c.id c) := fits_fading h.2 (evict_fading hrun) rfl
  exact ⟨⟨keyed_withoutDevice m h.1 c, hfits⟩, hlookup,
    (isProtected_eq_false_iff _).mp hfree, hfits.device, hfits.host⟩

theorem fits_new (capacity : Capacity) : Fits (new capacity) :=
  ⟨Nat.zero_le _, Nat.zero_le _⟩

/-- Usage stays within the capacities in every reachable state, and every eviction loop that
starts there is a finite run of rounds over representations without owners. -/
theorem usage_within_capacity {capacity : Capacity} {m : PhysicalManager}
    (h : Reaches Step (new capacity) m) :
    m.deviceUsed ≤ capacity.deviceBytes ∧ m.hostUsed ≤ capacity.hostBytes ∧
      m.deviceUsed ≤ u64Max ∧ m.hostUsed ≤ u64Max ∧
      ∀ additional, ∃ run result, IsRun (EvictionRound additional) m run ∧
        LoopEnds additional (last m run) result ∧ Along FreeRound m run ∧
        (ensureDeviceSpace additional).run m = .returns result (last m run) := by
  obtain ⟨⟨hm, hfits⟩, hcapacity⟩ : (Owned m ∧ Fits m) ∧ m.capacity = capacity := by
    refine h.invariant (fun m => (Owned m ∧ Fits m) ∧ m.capacity = capacity) ?_
      ⟨⟨owned_new capacity, fits_new capacity⟩, rfl⟩
    rintro m a m' ⟨⟨hm, hfits⟩, hcapacity⟩ hstep
    exact ⟨⟨owned_step m a m' hm hstep, fits_step hm hfits hstep⟩,
      (step_effect hm hstep).later.capacity.trans hcapacity⟩
  have hdevice := hfits.device
  have hhost := hfits.host
  rw [hcapacity] at hdevice hhost
  refine ⟨hdevice, hhost, hdevice.trans capacity.device_le, hhost.trans capacity.host_le,
    fun additional => ?_⟩
  obtain ⟨run, result, hrun, hends, hloop⟩ := loop_run additional
    (m.representations.entries.length + 1) m hm.keyed (Nat.lt_succ_of_le (residents_le m))
  refine ⟨run, result, hrun, hends, ?_, hloop⟩
  exact along_of_invariant _ (fun m => Keyed m ∧ Fits m) _
    (fun _ _ _ hinv hround => freeRound_of_round hinv hround) m run ⟨hm.keyed, hfits⟩ hrun

/-- Six and three warm bytes on a device of ten; eight more are only admitted without them. -/
def warmResidents : List Action := [
  .register somePrefix .globalKv 1 6 .device 0,
  .register somePrefix .recurrent 1 3 .device 0]

theorem warm_residents_fit :
    ∃ run, IsRun Step (new tenBytes) run ∧ (last (new tenBytes) run).deviceUsed = 9 ∧
      (last (new tenBytes) run).deviceUsed ≤ 10 ∧
      ∃ rounds result, IsRun (EvictionRound 8) (last (new tenBytes) run) rounds ∧
        LoopEnds 8 (last (last (new tenBytes) run) rounds) result ∧
        Along FreeRound (last (new tenBytes) run) rounds := by
  have hrun : (trace perform (new tenBytes) warmResidents).any (fun run =>
      (last (new tenBytes) run).deviceUsed = 9) = true := by
    decide +kernel
  obtain ⟨run, htrace, hused⟩ := (Option.any_eq_true _ _).mp hrun
  have hsteps := isRun_of_trace _ _ _ _ htrace
  obtain ⟨hdevice, _, _, _, hloops⟩ := usage_within_capacity ⟨run, hsteps, rfl⟩
  obtain ⟨rounds, result, hrounds, hends, hfree, _⟩ := hloops 8
  exact ⟨run, hsteps, of_decide_eq_true hused, hdevice, rounds, result, hrounds, hends, hfree⟩

end Cusco.TierUsage
