import Cusco.Physical

/-!
Making space on the device. The loop evicts unprotected representations in the
order of reuse value, last use and identity until the request fits. Which ones
it takes is known beforehand: those whose turn comes while the bytes that would
still be resident leave too little room. It fails exactly when the protected
bytes alone leave too little room.
-/

namespace Cusco.DeviceEviction

open Calls Physical Physical.PhysicalManager

/-- Device bytes that no eviction can free. -/
def pinnedBytes (m : PhysicalManager) : ℕ :=
  m.bytesWhere (fun r => r.device && r.references.isProtected)

/-- Device bytes still resident when the eviction order reaches `r`. -/
def bytesFrom (m : PhysicalManager) (r : PhysicalRepresentation) : ℕ :=
  m.bytesWhere (fun q => q.device && (q.references.isProtected || !keyLt q r))

/-- Whether making space for `additional` bytes evicts `r`. -/
def evicts (m : PhysicalManager) (additional : ℕ) (r : PhysicalRepresentation) : Bool :=
  r.device && !r.references.isProtected &&
    decide (m.capacity.deviceBytes < bytesFrom m r + additional)

/-- A representation after those in `gone` left the device. -/
def leaving (gone : PhysicalRepresentation → Bool) (r : PhysicalRepresentation) :
    PhysicalRepresentation :=
  if gone r then { r with device := false } else r

def afterSpace (m : PhysicalManager) (additional : ℕ) (r : PhysicalRepresentation) :
    PhysicalRepresentation :=
  leaving (evicts m additional) r

/-- The gauges of the metrics are the sums they name. -/
structure GaugesExact (m : PhysicalManager) : Prop where
  deviceActive : m.metrics.deviceActive = m.protectedDeviceBytes
  deviceGrowthReserved : m.metrics.deviceGrowthReserved = m.growthReservedBytes
  deviceTransitionReserved : m.metrics.deviceTransitionReserved = m.transitionReservedBytes
  deviceDetachedTransferReserved :
    m.metrics.deviceDetachedTransferReserved = m.detachedTransferReservedBytes
  deviceWarm : m.metrics.deviceWarm = m.deviceWarmBytes
  hostUsed : m.metrics.hostUsed = m.hostUsed

theorem gaugesExact_refresh (m : PhysicalManager) : GaugesExact m.refreshCapacityMetrics :=
  ⟨rfl, rfl, rfl, rfl, rfl, rfl⟩

theorem bytesWhere_mono (m : PhysicalManager) (p q : PhysicalRepresentation → Bool)
    (h : ∀ r, p r = true → q r = true) : m.bytesWhere p ≤ m.bytesWhere q := by
  apply AList.total_mono
  intro k r _
  by_cases hp : p r = true
  · rw [if_pos hp, if_pos (h r hp)]
  · rw [if_neg hp]
    exact Nat.zero_le _

theorem bytesWhere_congr (m : PhysicalManager) (p q : PhysicalRepresentation → Bool)
    (h : ∀ k r, m.representations.lookup k = some r → p r = q r) :
    m.bytesWhere p = m.bytesWhere q := by
  apply AList.total_congr
  intro k r hk
  rw [h k r hk]

theorem pinnedBytes_le_deviceUsed (m : PhysicalManager) : pinnedBytes m ≤ m.deviceUsed :=
  bytesWhere_mono m _ _ (fun r h => by simp at h; exact h.1)

theorem bytesFrom_le_deviceUsed (m : PhysicalManager) (r : PhysicalRepresentation) :
    bytesFrom m r ≤ m.deviceUsed :=
  bytesWhere_mono m _ _ (fun q h => by simp at h; exact h.1)

theorem fitsWithin_iff (used additional limit : ℕ) (h : limit ≤ u64Max) :
    fitsWithin used additional limit = true ↔ used + additional ≤ limit := by
  unfold fitsWithin checkedAdd
  split
  · simp
  · simp only [Option.any_none, Bool.false_eq_true, false_iff]
    omega

theorem keyLt_irrefl (a : PhysicalRepresentation) : keyLt a a = false := by
  simp [keyLt]

theorem keyLt_trans (a b c : PhysicalRepresentation) (hab : keyLt a b = true)
    (hbc : keyLt b c = true) : keyLt a c = true := by
  simp only [keyLt, Bool.or_eq_true, Bool.and_eq_true, decide_eq_true_eq] at *
  omega

theorem keyLt_total (a b : PhysicalRepresentation) (hne : a.id ≠ b.id)
    (h : keyLt a b = false) : keyLt b a = true := by
  have hvalue : a.id.value ≠ b.id.value := by
    intro heq
    exact hne (by cases ha : a.id; cases hb : b.id; simp_all)
  simp only [keyLt, Bool.or_eq_false_iff, Bool.and_eq_false_iff, decide_eq_false_iff_not,
    Bool.or_eq_true, Bool.and_eq_true, decide_eq_true_eq] at *
  omega

theorem minByKey_spec (l : List PhysicalRepresentation) (c : PhysicalRepresentation)
    (h : minByKey l = some c) : c ∈ l ∧ ∀ r ∈ l, keyLt r c = false := by
  induction l generalizing c with
  | nil => cases h
  | cons head rest ih =>
    unfold minByKey at h
    cases hbest : minByKey rest with
    | none =>
      rw [hbest] at h
      cases h
      have hnil : rest = [] := by
        cases rest with
        | nil => rfl
        | cons x xs =>
          unfold minByKey at hbest
          split at hbest
          · cases hbest
          · split at hbest <;> cases hbest
      subst hnil
      refine ⟨List.mem_singleton_self _, ?_⟩
      intro r hr
      rw [List.mem_singleton] at hr
      rw [hr]
      exact keyLt_irrefl _
    | some best =>
      obtain ⟨hmem, hleast⟩ := ih best hbest
      rw [hbest] at h
      simp only at h
      by_cases hlt : keyLt best head = true
      · rw [if_pos hlt] at h
        cases h
        refine ⟨List.mem_cons_of_mem _ hmem, ?_⟩
        intro r hr
        rcases List.mem_cons.mp hr with rfl | hr
        · by_contra hrc
          have := keyLt_trans _ _ _ hlt (by simpa using hrc)
          rw [keyLt_irrefl] at this
          cases this
        · exact hleast r hr
      · rw [if_neg hlt] at h
        cases h
        refine ⟨List.mem_cons_self, ?_⟩
        intro r hr
        rcases List.mem_cons.mp hr with rfl | hr
        · exact keyLt_irrefl _
        · by_contra hrc
          have hbh : keyLt best head = false := by simpa using hlt
          by_cases hid : best.id = head.id
          · have hrb := hleast r hr
            simp only [keyLt, Bool.or_eq_false_iff, Bool.and_eq_false_iff,
              decide_eq_false_iff_not, Bool.or_eq_true, Bool.and_eq_true, decide_eq_true_eq,
                hid] at *
            omega
          · have hhb := keyLt_total best head hid hbh
            have := keyLt_trans r head best (by simpa using hrc) hhb
            rw [hleast r hr] at this
            cases this

theorem minByKey_eq_none (l : List PhysicalRepresentation) (h : minByKey l = none) : l = [] := by
  cases l with
  | nil => rfl
  | cons head rest =>
    unfold minByKey at h
    split at h
    · cases h
    · split at h <;> cases h

def Keyed (m : PhysicalManager) : Prop :=
  ∀ k r, m.representations.lookup k = some r → r.id = k

/-- The state after the device copy of `k` is evicted. -/
def withoutDevice (m : PhysicalManager) (k : PhysicalRepresentationId)
    (r : PhysicalRepresentation) : PhysicalManager :=
  refreshCapacityMetrics (setMetrics (fun x => { x with evictions := x.evictions + 1 })
    (setRepresentation k { r with device := false } m))

theorem evict_device (m : PhysicalManager) (k : PhysicalRepresentationId)
    (r : PhysicalRepresentation) (hk : m.representations.lookup k = some r)
    (hdevice : r.device = true) (hfree : r.references.isProtected = false) :
    (evict k .device).run m = .returns (.ok ()) (withoutDevice m k r) := by
  unfold evict
  simp only [Call.run_read_bind, hk, Call.run_require_some_bind, hfree, Bool.not_false,
    Call.run_check_true_bind, onTier, hdevice, if_true, Call.run_update_bind]
  rfl

theorem lookup_withoutDevice (m : PhysicalManager) (k j : PhysicalRepresentationId)
    (r : PhysicalRepresentation) : (withoutDevice m k r).representations.lookup j =
      if j = k then some { r with device := false } else m.representations.lookup j :=
  AList.lookup_insert_ite k j _ m.representations

theorem rewrites_withoutDevice (m : PhysicalManager) (k : PhysicalRepresentationId)
    (r : PhysicalRepresentation) (hk : m.representations.lookup k = some r) :
    AList.Rewrites m.representations (withoutDevice m k r).representations
      (fun j q => if j = k then { r with device := false } else q) :=
  AList.Rewrites.of_insert m.representations k r _ hk

theorem evictionCandidate_spec (m : PhysicalManager) (hkeyed : Keyed m)
    (c : PhysicalRepresentation) (h : m.evictionCandidate = some c) :
    m.representations.lookup c.id = some c ∧ c.device = true ∧
      c.references.isProtected = false ∧
      ∀ k r, m.representations.lookup k = some r → r.device = true →
        r.references.isProtected = false → keyLt r c = false := by
  obtain ⟨hmem, hleast⟩ := minByKey_spec _ c h
  rw [List.mem_filter, AList.mem_values_iff] at hmem
  obtain ⟨⟨k, hk⟩, hcand⟩ := hmem
  simp only [Bool.and_eq_true, Bool.not_eq_true'] at hcand
  have hid := hkeyed k c hk
  refine ⟨by rw [hid]; exact hk, hcand.1, hcand.2, ?_⟩
  intro j r hj hdevice hfree
  apply hleast
  rw [List.mem_filter, AList.mem_values_iff]
  exact ⟨⟨j, hj⟩, by simp [hdevice, hfree]⟩

theorem evictionCandidate_none (m : PhysicalManager) (h : m.evictionCandidate = none)
    (k : PhysicalRepresentationId) (r : PhysicalRepresentation)
    (hk : m.representations.lookup k = some r) (hdevice : r.device = true) :
    r.references.isProtected = true := by
  by_contra hfree
  have hmem : r ∈ m.representations.values.filter
      (fun r => r.device && !r.references.isProtected) := by
    rw [List.mem_filter, AList.mem_values_iff]
    exact ⟨⟨k, hk⟩, by simp [hdevice, hfree]⟩
  rw [minByKey_eq_none _ h] at hmem
  cases hmem

section Round

variable (m : PhysicalManager) (hkeyed : Keyed m) (c : PhysicalRepresentation)
  (hc : m.evictionCandidate = some c)

include hkeyed hc

/-- The other bytes of the eviction order do not change with the first eviction. -/
theorem bytesFrom_withoutDevice (k : PhysicalRepresentationId) (r : PhysicalRepresentation)
    (hk : m.representations.lookup k = some r) (hne : k ≠ c.id) (hdevice : r.device = true)
    (hfree : r.references.isProtected = false) :
    bytesFrom (withoutDevice m c.id c) r = bytesFrom m r := by
  obtain ⟨hlookup, _, hcfree, hleast⟩ := evictionCandidate_spec m hkeyed c hc
  have hfirst : keyLt c r = true := by
    have hid := hkeyed k r hk
    exact keyLt_total r c (by rw [hid]; exact hne) (hleast k r hk hdevice hfree)
  unfold bytesFrom bytesWhere
  rw [(rewrites_withoutDevice m c.id c hlookup).total]
  apply AList.total_congr
  intro j q hj
  by_cases hjc : j = c.id
  · rw [hjc, hlookup] at hj
    cases hj
    simp [hjc, hcfree, hfirst]
  · simp [hjc]

/-- The first eviction leaves the rest of the plan as it was. -/
theorem afterSpace_withoutDevice (additional : ℕ) (k : PhysicalRepresentationId)
    (r : PhysicalRepresentation) (hk : m.representations.lookup k = some r) (hne : k ≠ c.id) :
    afterSpace (withoutDevice m c.id c) additional r = afterSpace m additional r := by
  have hsame : evicts (withoutDevice m c.id c) additional r = evicts m additional r := by
    unfold evicts
    by_cases hcand : r.device = true ∧ r.references.isProtected = false
    · rw [bytesFrom_withoutDevice m hkeyed c hc k r hk hne hcand.1 hcand.2]
      rfl
    · cases hdevice : r.device with
      | false => simp
      | true =>
        cases hfree : r.references.isProtected with
        | true => simp
        | false => exact absurd ⟨hdevice, hfree⟩ hcand
  unfold afterSpace leaving
  rw [hsame]

theorem bytesFrom_candidate : bytesFrom m c = m.deviceUsed := by
  obtain ⟨_, _, _, hleast⟩ := evictionCandidate_spec m hkeyed c hc
  refine bytesWhere_congr m _ _ ?_
  intro k r hk
  cases hdevice : r.device with
  | false => simp
  | true =>
    cases hfree : r.references.isProtected with
    | true => simp
    | false => simp [hleast k r hk hdevice hfree]

theorem pinnedBytes_withoutDevice : pinnedBytes (withoutDevice m c.id c) = pinnedBytes m := by
  obtain ⟨hlookup, _, hcfree, _⟩ := evictionCandidate_spec m hkeyed c hc
  unfold pinnedBytes bytesWhere
  rw [(rewrites_withoutDevice m c.id c hlookup).total]
  apply AList.total_congr
  intro j q hj
  by_cases hjc : j = c.id
  · rw [hjc, hlookup] at hj
    cases hj
    simp [hjc, hcfree]
  · simp [hjc]

end Round

/-- How many representations are on the device. -/
def residents (m : PhysicalManager) : ℕ :=
  m.representations.total (fun _ r => if r.device then 1 else 0)

theorem residents_le (m : PhysicalManager) :
    residents m ≤ m.representations.entries.length := by
  have hlength : m.representations.entries.length = m.representations.total (fun _ _ => 1) := by
    simp [AList.total]
  rw [hlength]
  apply AList.total_mono
  intro k r _
  split <;> omega

theorem residents_withoutDevice (m : PhysicalManager) (k : PhysicalRepresentationId)
    (r : PhysicalRepresentation) (hk : m.representations.lookup k = some r)
    (hdevice : r.device = true) : residents (withoutDevice m k r) + 1 = residents m := by
  have hinsert : residents (withoutDevice m k r) = _ :=
    AList.total_insert (fun _ (r : PhysicalRepresentation) => if r.device then 1 else 0)
      m.representations k { r with device := false }
  have herase := AList.total_erase (fun _ (r : PhysicalRepresentation) => if r.device then 1 else 0)
    m.representations k r hk
  unfold residents at *
  simp only [hdevice, if_true, Bool.false_eq_true, if_false] at hinsert herase
  omega

/-- The outcome of making space. -/
def spaceResult (m : PhysicalManager) (additional : ℕ) : Except Error Unit :=
  if pinnedBytes m + additional ≤ m.capacity.deviceBytes then .ok () else .error .deviceCapacity

theorem keyed_withoutDevice (m : PhysicalManager) (hkeyed : Keyed m)
    (c : PhysicalRepresentation) : Keyed (withoutDevice m c.id c) := by
  intro k r hk
  rw [lookup_withoutDevice] at hk
  by_cases hkc : k = c.id
  · rw [if_pos hkc] at hk
    cases hk
    exact hkc.symm
  · rw [if_neg hkc] at hk
    exact hkeyed k r hk

theorem evictUntilFits_fits (additional fuel : ℕ) (m : PhysicalManager)
    (hfits : fitsWithin m.deviceUsed additional m.capacity.deviceBytes = true) :
    (evictUntilFits additional (fuel + 1)).run m = .returns (.ok ()) m := by
  unfold evictUntilFits
  rw [Call.run_read_bind, if_pos hfits, Call.run_pure]

theorem evictUntilFits_stuck (additional fuel : ℕ) (m : PhysicalManager)
    (hfull : fitsWithin m.deviceUsed additional m.capacity.deviceBytes = false)
    (hnone : m.evictionCandidate = none) :
    (evictUntilFits additional (fuel + 1)).run m = .returns (.error .deviceCapacity) m := by
  unfold evictUntilFits
  rw [Call.run_read_bind, if_neg (by simp [hfull]), hnone, Call.run_require_none_bind]

theorem evictUntilFits_next (additional fuel : ℕ) (m : PhysicalManager)
    (hfull : fitsWithin m.deviceUsed additional m.capacity.deviceBytes = false)
    (c : PhysicalRepresentation) (hc : m.evictionCandidate = some c) (m' : PhysicalManager)
    (hevict : (evict c.id .device).run m = .returns (.ok ()) m') :
    (evictUntilFits additional (fuel + 1)).run m = (evictUntilFits additional fuel).run m' := by
  rw [evictUntilFits]
  rw [Call.run_read_bind, if_neg (by simp [hfull]), hc, Call.run_require_some_bind,
    Call.run_bind_ok hevict]

theorem evictUntilFits_spec (additional fuel : ℕ) (m : PhysicalManager) (hkeyed : Keyed m)
    (hfuel : residents m < fuel) :
    ∃ representations metrics, (evictUntilFits additional fuel).run m =
        .returns (spaceResult m additional)
          { m with representations := representations, metrics := metrics } ∧
      AList.Rewrites m.representations representations (fun _ => afterSpace m additional) ∧
      (GaugesExact m →
        GaugesExact { m with representations := representations, metrics := metrics }) := by
  induction fuel generalizing m with
  | zero => omega
  | succ fuel ih =>
    have hstay : (∀ k r, m.representations.lookup k = some r → evicts m additional r = false) →
        AList.Rewrites m.representations m.representations (fun _ => afterSpace m additional) := by
      intro h
      refine (AList.Rewrites.refl m.representations).congr ?_
      intro k r hk
      rw [afterSpace, leaving, h k r hk, if_neg (by simp)]
    have hfits := fitsWithin_iff m.deviceUsed additional m.capacity.deviceBytes m.capacity.device_le
    by_cases hroom : m.deviceUsed + additional ≤ m.capacity.deviceBytes
    · have hpinned := pinnedBytes_le_deviceUsed m
      refine ⟨m.representations, m.metrics, ?_, hstay ?_, fun h => h⟩
      · rw [evictUntilFits_fits additional fuel m (hfits.mpr hroom), spaceResult,
          if_pos (by omega)]
      · intro k r _
        have := bytesFrom_le_deviceUsed m r
        simp only [evicts, Bool.and_eq_false_iff, decide_eq_false_iff_not]
        right
        omega
    · have hfull : fitsWithin m.deviceUsed additional m.capacity.deviceBytes = false := by
        rw [Bool.eq_false_iff]
        exact fun h => hroom (hfits.mp h)
      cases hcandidate : m.evictionCandidate with
      | none =>
        have hprotected := evictionCandidate_none m hcandidate
        have hpinned : pinnedBytes m = m.deviceUsed := by
          refine bytesWhere_congr m _ _ ?_
          intro k r hk
          cases hdevice : r.device with
          | false => rfl
          | true => simp [hprotected k r hk hdevice]
        refine ⟨m.representations, m.metrics, ?_, hstay ?_, fun h => h⟩
        · rw [evictUntilFits_stuck additional fuel m hfull hcandidate, spaceResult,
            if_neg (by omega)]
        · intro k r hk
          cases hdevice : r.device with
          | false => simp [evicts, hdevice]
          | true => simp [evicts, hprotected k r hk hdevice]
      | some c =>
        obtain ⟨hlookup, hdevice, hfree, _⟩ := evictionCandidate_spec m hkeyed c hcandidate
        have hresidents := residents_withoutDevice m c.id c hlookup hdevice
        obtain ⟨representations, metrics, hrun, hafter, hgauges⟩ :=
          ih (withoutDevice m c.id c) (keyed_withoutDevice m hkeyed c) (by omega)
        have hpinned := pinnedBytes_withoutDevice m hkeyed c hcandidate
        refine ⟨representations, metrics, ?_, ?_, ?_⟩
        · rw [evictUntilFits_next additional fuel m hfull c hcandidate _
            (evict_device m c.id c hlookup hdevice hfree), hrun, spaceResult, hpinned]
          rfl
        · refine ((rewrites_withoutDevice m c.id c hlookup).trans hafter).congr ?_
          intro k r hk
          by_cases hkc : k = c.id
          · have hevicted : evicts m additional c = true := by
              simp only [evicts, hdevice, hfree, Bool.not_false, Bool.and_self, Bool.true_and,
                decide_eq_true_eq]
              rw [bytesFrom_candidate m hkeyed c hcandidate]
              omega
            rw [hkc, hlookup] at hk
            cases hk
            rw [if_pos hkc]
            unfold afterSpace leaving
            rw [if_pos hevicted, if_neg (by simp [evicts])]
          · rw [if_neg hkc]
            exact afterSpace_withoutDevice m hkeyed c hcandidate additional k r hk hkc
        · intro _
          exact hgauges (gaugesExact_refresh _)

theorem ensureDeviceSpace_spec (additional : ℕ) (m : PhysicalManager) (hkeyed : Keyed m) :
    ∃ representations metrics, (ensureDeviceSpace additional).run m =
        .returns (spaceResult m additional)
          { m with representations := representations, metrics := metrics } ∧
      AList.Rewrites m.representations representations (fun _ => afterSpace m additional) ∧
      (GaugesExact m →
        GaugesExact { m with representations := representations, metrics := metrics }) :=
  evictUntilFits_spec additional _ m hkeyed (Nat.lt_succ_of_le (residents_le m))

/-- The loop ends with room for the request beside everything on the device. -/
theorem deviceUsed_of_evictUntilFits (additional fuel : ℕ) (m m' : PhysicalManager)
    (h : (evictUntilFits additional fuel).run m = .returns (.ok ()) m') :
    m'.deviceUsed + additional ≤ m'.capacity.deviceBytes := by
  induction fuel generalizing m with
  | zero => cases h
  | succ fuel ih =>
    unfold evictUntilFits at h
    rw [Call.run_read_bind] at h
    split at h
    · rename_i hfits
      cases h
      exact (fitsWithin_iff _ _ _ m'.capacity.device_le).mp hfits
    · obtain ⟨c, _, _, h⟩ := Call.of_bind_ok h
      obtain ⟨_, m1, _, h⟩ := Call.of_bind_ok h
      exact ih m1 h

/-- The bytes that admission counts against the device. -/
def guardedBytes (m : PhysicalManager) : ℕ :=
  m.protectedDeviceBytes + (m.growthReservedBytes + m.transitionReservedBytes +
    m.detachedTransferReservedBytes)

theorem ensureDeviceCapacity_run (additional : ℕ) (m : PhysicalManager) :
    (ensureDeviceCapacity additional).run m =
      if guardedBytes m + additional ≤ m.capacity.deviceBytes then
        (ensureDeviceSpace additional).run m
      else .returns (.error .deviceCapacity) m := by
  have hle := m.capacity.device_le
  unfold ensureDeviceCapacity guardedBytes
  rw [Call.run_read_bind]
  generalize m.growthReservedBytes + m.transitionReservedBytes +
    m.detachedTransferReservedBytes = reservations
  unfold checkedAdd
  by_cases hfirst : m.protectedDeviceBytes + reservations ≤ u64Max
  · simp only [if_pos hfirst, Option.bind_some]
    by_cases hsecond : m.protectedDeviceBytes + reservations + additional ≤ u64Max
    · rw [if_pos hsecond, Call.run_require_some_bind]
      by_cases hcap : m.protectedDeviceBytes + reservations + additional ≤ m.capacity.deviceBytes
      · rw [decide_eq_true hcap, Call.run_check_true_bind, if_pos hcap]
      · rw [decide_eq_false hcap, Call.run_check_false_bind, if_neg hcap]
    · rw [if_neg hsecond, Call.run_require_none_bind, if_neg (by omega)]
  · simp only [if_neg hfirst, Option.bind_none]
    rw [Call.run_require_none_bind, if_neg (by omega)]

theorem ensureHostCapacity_run (additional : ℕ) (m : PhysicalManager) :
    (ensureHostCapacity additional).run m =
      if m.hostUsed + additional ≤ m.capacity.hostBytes then .returns (.ok ()) m
      else .returns (.error .hostCapacity) m := by
  have hfits := fitsWithin_iff m.hostUsed additional m.capacity.hostBytes m.capacity.host_le
  unfold ensureHostCapacity
  rw [Call.run_read_bind]
  unfold Call.check
  by_cases hroom : m.hostUsed + additional ≤ m.capacity.hostBytes
  · simp only [if_pos (hfits.mpr hroom), if_pos hroom]
  · simp only [if_neg (fun h => hroom (hfits.mp h)), if_neg hroom]

/-- Only unprotected representations left the device. -/
def Evicted (m m' : PhysicalManager) : Prop :=
  ∃ representations metrics gone,
    m' = { m with representations := representations, metrics := metrics } ∧
    AList.Rewrites m.representations representations (fun _ => leaving gone) ∧
    (∀ r, gone r = true → r.references.isProtected = false) ∧
    (GaugesExact m → GaugesExact m')

theorem Evicted.refl (m : PhysicalManager) : Evicted m m :=
  ⟨m.representations, m.metrics, fun _ => false, rfl,
    (AList.Rewrites.refl _).congr (fun _ _ _ => rfl), fun _ h => (nomatch h), fun h => h⟩

theorem isProtected_of_evicts (m : PhysicalManager) (additional : ℕ)
    (r : PhysicalRepresentation) (h : evicts m additional r = true) :
    r.references.isProtected = false := by
  simp only [evicts, Bool.and_eq_true, Bool.not_eq_true'] at h
  exact h.1.2

theorem evicted_of_ensureDeviceSpace {additional : ℕ} {m m' : PhysicalManager}
    {r : Except Error Unit} (hkeyed : Keyed m)
    (h : (ensureDeviceSpace additional).run m = .returns r m') : Evicted m m' := by
  obtain ⟨representations, metrics, hrun, hrewrites, hgauges⟩ :=
    ensureDeviceSpace_spec additional m hkeyed
  rw [hrun] at h
  cases h
  exact ⟨representations, metrics, evicts m additional, rfl, hrewrites,
    isProtected_of_evicts m additional, hgauges⟩

theorem evicted_of_ensureDeviceCapacity {additional : ℕ} {m m' : PhysicalManager}
    {r : Except Error Unit} (hkeyed : Keyed m)
    (h : (ensureDeviceCapacity additional).run m = .returns r m') : Evicted m m' := by
  rw [ensureDeviceCapacity_run] at h
  split at h
  · exact evicted_of_ensureDeviceSpace hkeyed h
  · cases h
    exact Evicted.refl m

theorem deviceUsed_of_ensureDeviceCapacity {additional : ℕ} {m m' : PhysicalManager}
    (h : (ensureDeviceCapacity additional).run m = .returns (.ok ()) m') :
    m'.deviceUsed + additional ≤ m'.capacity.deviceBytes := by
  rw [ensureDeviceCapacity_run] at h
  split at h
  · exact deviceUsed_of_evictUntilFits additional (m.representations.entries.length + 1) m m' h
  · cases h

/-- An admitted request fits beside the guarded bytes and beside the protected ones. -/
theorem ensureDeviceCapacity_ok {additional : ℕ} {m m' : PhysicalManager} (hkeyed : Keyed m)
    (h : (ensureDeviceCapacity additional).run m = .returns (.ok ()) m') :
    guardedBytes m + additional ≤ m.capacity.deviceBytes ∧
      pinnedBytes m + additional ≤ m.capacity.deviceBytes ∧
      ∃ representations metrics,
        m' = { m with representations := representations, metrics := metrics } ∧
        AList.Rewrites m.representations representations (fun _ => afterSpace m additional) ∧
        (GaugesExact m → GaugesExact m') := by
  rw [ensureDeviceCapacity_run] at h
  split at h
  · rename_i hguarded
    obtain ⟨representations, metrics, hrun, hrewrites, hgauges⟩ :=
      ensureDeviceSpace_spec additional m hkeyed
    rw [hrun] at h
    have hpinned : pinnedBytes m + additional ≤ m.capacity.deviceBytes := by
      by_contra hno
      rw [spaceResult, if_neg hno] at h
      cases h
    rw [spaceResult, if_pos hpinned] at h
    cases h
    exact ⟨hguarded, hpinned, representations, metrics, rfl, hrewrites, hgauges⟩
  · cases h

end Cusco.DeviceEviction
