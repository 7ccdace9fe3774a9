import Cusco.PhysicalEffects

/-!
Ownership in the physical manager. The counts of a representation are the
bindings, prepared transitions and incomplete transfers that name it; everything
named is stored, and what a binding names is on the device. Each kind of change
an operation makes to the tables is shown to keep this.
-/

namespace Cusco.PhysicalOwners

open Calls Physical Physical.PhysicalManager DeviceEviction PhysicalEffects

def activeOwners (m : PhysicalManager) (k : PhysicalRepresentationId) : ℕ :=
  m.bindings.total (fun _ b => b.representations.count k)

def reservationOwners (m : PhysicalManager) (k : PhysicalRepresentationId) : ℕ :=
  m.transitions.total (fun _ t => t.representations.count k)

def transferOwners (m : PhysicalManager) (k : PhysicalRepresentationId) : ℕ :=
  m.transfers.total (fun _ y => if y.representation = k ∧ y.completed = false then 1 else 0)

/-- A completed transfer that succeeded has its representation on the device. -/
def Arrived (m : PhysicalManager) (y : Transfer) : Prop :=
  y.completed = true → y.success = true → ∀ r,
    m.representations.lookup y.representation = some r → r.device = true

structure Owned (m : PhysicalManager) : Prop where
  keyed : Keyed m
  representations_old : ∀ k r, m.representations.lookup k = some r → k.value < m.nextId
  transitions_old : ∀ k t, m.transitions.lookup k = some t → k.value < m.nextId
  transfers_old : ∀ k y, m.transfers.lookup k = some y → k.value < m.nextId
  growth_old : ∀ k g, m.growth.lookup k = some g → k.value < m.nextId
  counted : ∀ k r, m.representations.lookup k = some r →
    r.references.active = activeOwners m k ∧
    r.references.reservations = reservationOwners m k ∧
    r.references.transfers = transferOwners m k
  bound : ∀ c b, m.bindings.lookup c = some b → b.representations.Nodup ∧
    ∀ k ∈ b.representations, ∃ r, m.representations.lookup k = some r ∧ r.device = true
  prepared : ∀ i t, m.transitions.lookup i = some t → t.representations.Nodup ∧
    ∀ k ∈ t.representations, ∃ r, m.representations.lookup k = some r
  linked : ∀ i t, m.transitions.lookup i = some t → t.transfers.Nodup ∧
    ∀ x ∈ t.transfers, ∃ y, m.transfers.lookup x = some y ∧ y.detached = false ∧
      y.representation ∈ t.representations ∧ Arrived m y
  apart : ∀ i t j u x, m.transitions.lookup i = some t → m.transitions.lookup j = some u →
    x ∈ t.transfers → x ∈ u.transfers → i = j
  moving : ∀ x y, m.transfers.lookup x = some y → y.completed = false →
    ∃ r, m.representations.lookup y.representation = some r ∧ y.bytes = r.bytes

theorem isProtected_iff (r : ReferenceCounts) : r.isProtected = true ↔
    0 < r.active ∨ 0 < r.reservations ∨ 0 < r.transfers := by
  simp only [ReferenceCounts.isProtected, Bool.or_eq_true, decide_eq_true_eq]
  omega

theorem isProtected_eq_false_iff (r : ReferenceCounts) : r.isProtected = false ↔
    r.active = 0 ∧ r.reservations = 0 ∧ r.transfers = 0 := by
  rw [← Bool.not_eq_true, isProtected_iff]
  omega

section Owned

variable {m : PhysicalManager} (h : Owned m)

include h

theorem Owned.active_pos {c : LogicalStore.LogicalContextId} {b : ActiveBinding}
    (hb : m.bindings.lookup c = some b) {k : PhysicalRepresentationId}
    (hk : k ∈ b.representations) {r : PhysicalRepresentation}
    (hr : m.representations.lookup k = some r) : 0 < r.references.active := by
  rw [(h.counted k r hr).1]
  have hle := AList.le_total (fun _ (b : ActiveBinding) => b.representations.count k)
    m.bindings c b hb
  exact lt_of_lt_of_le (List.count_pos_iff.mpr hk) hle

theorem Owned.reservations_pos {i : PreparedTransitionId} {t : PreparedTransition}
    (ht : m.transitions.lookup i = some t) {k : PhysicalRepresentationId}
    (hk : k ∈ t.representations) {r : PhysicalRepresentation}
    (hr : m.representations.lookup k = some r) : 0 < r.references.reservations := by
  rw [(h.counted k r hr).2.1]
  have hle := AList.le_total (fun _ (t : PreparedTransition) => t.representations.count k)
    m.transitions i t ht
  exact lt_of_lt_of_le (List.count_pos_iff.mpr hk) hle

theorem Owned.transfers_pos {x : TransferId} {y : Transfer} (hy : m.transfers.lookup x = some y)
    (hmoving : y.completed = false) {r : PhysicalRepresentation}
    (hr : m.representations.lookup y.representation = some r) : 0 < r.references.transfers := by
  rw [(h.counted _ r hr).2.2]
  have hle := AList.le_total (fun _ (z : Transfer) =>
    if z.representation = y.representation ∧ z.completed = false then 1 else 0) m.transfers x y hy
  rw [if_pos ⟨rfl, hmoving⟩] at hle
  exact hle

/-- An active representation is on the device. -/
theorem Owned.device_of_active {k : PhysicalRepresentationId} {r : PhysicalRepresentation}
    (hr : m.representations.lookup k = some r) (hactive : r.references.active ≠ 0) :
    r.device = true := by
  rw [(h.counted k r hr).1] at hactive
  by_contra hdevice
  apply hactive
  refine (AList.total_eq_zero_iff _ _).mpr ?_
  intro c b hb
  rw [List.count_eq_zero]
  intro hk
  obtain ⟨q, hq, hqdevice⟩ := (h.bound c b hb).2 k hk
  rw [hr] at hq
  cases hq
  exact hdevice hqdevice

theorem Owned.fresh_representation :
    m.representations.lookup ⟨m.nextId⟩ = none := by
  by_contra hne
  obtain ⟨r, hr⟩ := Option.ne_none_iff_exists'.mp hne
  exact absurd (h.representations_old _ r hr) (lt_irrefl _)

theorem Owned.fresh_transition : m.transitions.lookup ⟨m.nextId⟩ = none := by
  by_contra hne
  obtain ⟨t, ht⟩ := Option.ne_none_iff_exists'.mp hne
  exact absurd (h.transitions_old _ t ht) (lt_irrefl _)

theorem Owned.fresh_growth : m.growth.lookup ⟨m.nextId⟩ = none := by
  by_contra hne
  obtain ⟨g, hg⟩ := Option.ne_none_iff_exists'.mp hne
  exact absurd (h.growth_old _ g hg) (lt_irrefl _)

/-- Nothing names a representation that is not stored. -/
theorem Owned.unnamed (k : PhysicalRepresentationId)
    (hk : m.representations.lookup k = none) :
    activeOwners m k = 0 ∧ reservationOwners m k = 0 ∧ transferOwners m k = 0 := by
  refine ⟨?_, ?_, ?_⟩
  · refine (AList.total_eq_zero_iff _ _).mpr ?_
    intro c b hb
    rw [List.count_eq_zero]
    intro hmem
    obtain ⟨r, hr, _⟩ := (h.bound c b hb).2 k hmem
    rw [hk] at hr
    cases hr
  · refine (AList.total_eq_zero_iff _ _).mpr ?_
    intro i t ht
    rw [List.count_eq_zero]
    intro hmem
    obtain ⟨r, hr⟩ := (h.prepared i t ht).2 k hmem
    rw [hk] at hr
    cases hr
  · refine (AList.total_eq_zero_iff _ _).mpr ?_
    intro x y hy
    rw [if_neg]
    rintro ⟨hmem, hmoving⟩
    obtain ⟨r, hr, _⟩ := h.moving x y hy hmoving
    rw [hmem, hk] at hr
    cases hr

end Owned

/-- A change of a representation that no owner can notice. -/
structure Unnoticed (r r' : PhysicalRepresentation) : Prop where
  id : r'.id = r.id
  bytes : r'.bytes = r.bytes
  active : r'.references.active = r.references.active
  reservations : r'.references.reservations = r.references.reservations
  transfers : r'.references.transfers = r.references.transfers
  device : r.references.isProtected = true → r.device = true → r'.device = true

theorem Owned.rewrite {m m' : PhysicalManager} (h : Owned m)
    {g : PhysicalRepresentationId → PhysicalRepresentation → PhysicalRepresentation}
    (hrewrites : AList.Rewrites m.representations m'.representations g)
    (hg : ∀ k r, m.representations.lookup k = some r → Unnoticed r (g k r))
    (hnext : m.nextId ≤ m'.nextId) (hbindings : m'.bindings = m.bindings)
    (htransitions : m'.transitions = m.transitions) (htransfers : m'.transfers = m.transfers)
    (hgrowth : ∀ k e, m'.growth.lookup k = some e → k.value < m'.nextId) : Owned m' where
  keyed := by
    intro k r' hk
    obtain ⟨r, hr, rfl⟩ := hrewrites.of_lookup hk
    rw [(hg k r hr).id]
    exact h.keyed k r hr
  representations_old := by
    intro k r' hk
    obtain ⟨r, hr, _⟩ := hrewrites.of_lookup hk
    exact lt_of_lt_of_le (h.representations_old k r hr) hnext
  transitions_old := by
    intro k t ht
    rw [htransitions] at ht
    exact lt_of_lt_of_le (h.transitions_old k t ht) hnext
  transfers_old := by
    intro k y hy
    rw [htransfers] at hy
    exact lt_of_lt_of_le (h.transfers_old k y hy) hnext
  growth_old := hgrowth
  counted := by
    intro k r' hk
    obtain ⟨r, hr, rfl⟩ := hrewrites.of_lookup hk
    have hold := h.counted k r hr
    unfold activeOwners reservationOwners transferOwners
    rw [hbindings, htransitions, htransfers, (hg k r hr).active, (hg k r hr).reservations,
      (hg k r hr).transfers]
    exact hold
  bound := by
    intro c b hb
    rw [hbindings] at hb
    obtain ⟨hnodup, hstored⟩ := h.bound c b hb
    refine ⟨hnodup, ?_⟩
    intro k hk
    obtain ⟨r, hr, hdevice⟩ := hstored k hk
    have hactive := h.active_pos hb hk hr
    refine ⟨g k r, hrewrites.lookup_some hr, (hg k r hr).device ?_ hdevice⟩
    rw [isProtected_iff]
    exact Or.inl hactive
  prepared := by
    intro i t ht
    rw [htransitions] at ht
    obtain ⟨hnodup, hstored⟩ := h.prepared i t ht
    refine ⟨hnodup, ?_⟩
    intro k hk
    obtain ⟨r, hr⟩ := hstored k hk
    exact ⟨g k r, hrewrites.lookup_some hr⟩
  linked := by
    intro i t ht
    rw [htransitions] at ht
    obtain ⟨hnodup, hlinked⟩ := h.linked i t ht
    refine ⟨hnodup, ?_⟩
    intro x hx
    obtain ⟨y, hy, hattached, hmem, harrived⟩ := hlinked x hx
    refine ⟨y, by rw [htransfers, hy], hattached, hmem, ?_⟩
    intro hcompleted hsuccess r' hr'
    obtain ⟨r, hr, rfl⟩ := hrewrites.of_lookup hr'
    refine (hg _ r hr).device ?_ (harrived hcompleted hsuccess r hr)
    rw [isProtected_iff]
    exact Or.inr (Or.inl (h.reservations_pos ht hmem hr))
  apart := by
    rw [htransitions]
    exact h.apart
  moving := by
    intro x y hy hmoving
    rw [htransfers] at hy
    obtain ⟨r, hr, hbytes⟩ := h.moving x y hy hmoving
    exact ⟨g _ r, hrewrites.lookup_some hr, by rw [(hg _ r hr).bytes, hbytes]⟩

/-- Rewriting what is counted about representations leaves the rest of them alone. -/
structure Recounts
    (g : PhysicalRepresentationId → PhysicalRepresentation → PhysicalRepresentation) : Prop where
  id : ∀ k r, (g k r).id = r.id
  bytes : ∀ k r, (g k r).bytes = r.bytes
  device : ∀ k r, (g k r).device = r.device

section Recounted

variable {m m' : PhysicalManager}
  {g : PhysicalRepresentationId → PhysicalRepresentation → PhysicalRepresentation}
  (h : Owned m) (hrewrites : AList.Rewrites m.representations m'.representations g)
  (hg : Recounts g)

include h hrewrites

theorem Owned.old_recounted (hnext : m.nextId ≤ m'.nextId) (k : PhysicalRepresentationId)
    (r' : PhysicalRepresentation) (hk : m'.representations.lookup k = some r') :
    k.value < m'.nextId := by
  obtain ⟨r, hr, _⟩ := hrewrites.of_lookup hk
  exact lt_of_lt_of_le (h.representations_old k r hr) hnext

theorem Owned.prepared_recounted {i : PreparedTransitionId} {t : PreparedTransition}
    (ht : m.transitions.lookup i = some t) : t.representations.Nodup ∧
      ∀ k ∈ t.representations, ∃ r, m'.representations.lookup k = some r := by
  obtain ⟨hnodup, hstored⟩ := h.prepared i t ht
  refine ⟨hnodup, ?_⟩
  intro k hk
  obtain ⟨r, hr⟩ := hstored k hk
  exact ⟨_, hrewrites.lookup_some hr⟩

include hg

theorem Owned.keyed_recounted : Keyed m' := by
  intro k r' hk
  obtain ⟨r, hr, rfl⟩ := hrewrites.of_lookup hk
  exact (hg.id k r).trans (h.keyed k r hr)

theorem Owned.bound_recounted {c : LogicalStore.LogicalContextId} {b : ActiveBinding}
    (hb : m.bindings.lookup c = some b) : b.representations.Nodup ∧
      ∀ k ∈ b.representations, ∃ r, m'.representations.lookup k = some r ∧ r.device = true := by
  obtain ⟨hnodup, hstored⟩ := h.bound c b hb
  refine ⟨hnodup, ?_⟩
  intro k hk
  obtain ⟨r, hr, hdevice⟩ := hstored k hk
  exact ⟨_, hrewrites.lookup_some hr, (hg.device k r).trans hdevice⟩

theorem Owned.moving_recounted {x : TransferId} {y : Transfer}
    (hy : m.transfers.lookup x = some y) (hmoving : y.completed = false) :
    ∃ r, m'.representations.lookup y.representation = some r ∧ y.bytes = r.bytes := by
  obtain ⟨r, hr, hbytes⟩ := h.moving x y hy hmoving
  exact ⟨_, hrewrites.lookup_some hr, hbytes.trans (hg.bytes _ r).symm⟩

omit h

theorem Arrived.recounted {y : Transfer} (harrived : Arrived m y) : Arrived m' y := by
  intro hcompleted hsuccess r' hr'
  obtain ⟨r, hr, rfl⟩ := hrewrites.of_lookup hr'
  exact (hg.device _ r).trans (harrived hcompleted hsuccess r hr)

end Recounted

theorem unnoticed_leaving (gone : PhysicalRepresentation → Bool)
    (hgone : ∀ r, gone r = true → r.references.isProtected = false)
    (r : PhysicalRepresentation) : Unnoticed r (leaving gone r) := by
  unfold leaving
  by_cases hr : gone r = true
  · rw [if_pos hr]
    refine ⟨rfl, rfl, rfl, rfl, rfl, ?_⟩
    intro hprotected _
    rw [hgone r hr] at hprotected
    cases hprotected
  · rw [if_neg hr]
    exact ⟨rfl, rfl, rfl, rfl, rfl, fun _ hdevice => hdevice⟩

end Cusco.PhysicalOwners
