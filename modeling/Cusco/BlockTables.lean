import Cusco.PhysicalRuns

/-!
Bindings and the block tables published for them. Only a publication stores a table, and
it lists the representations of the binding as they are; a binding goes together with
its table, and what it names keeps its component and its bytes. Every other call only
recedes: it stores no table, and changes no component and no size.
-/

namespace Cusco.BlockTables

open Calls Physical Physical.PhysicalManager DeviceEviction PhysicalEffects PhysicalOwners
open PhysicalSteps PhysicalTransitions PhysicalTransfers PhysicalPreparations PhysicalRuns Runs

variable {k : PhysicalRepresentationId}
variable {m m' : PhysicalManager} {result : Except Error Unit} {i : PreparedTransitionId}

/-- The block that a table lists for a representation. -/
def blockOf (m : PhysicalManager) (k : PhysicalRepresentationId) : Option DeviceBlock :=
  (m.representations.lookup k).map (fun r => ⟨k, r.component, r.bytes⟩)

/-- The blocks are those of the representations, in the same order. -/
def Lists (m : PhysicalManager) (ids : List PhysicalRepresentationId)
    (blocks : List DeviceBlock) : Prop :=
  blocks.map some = ids.map (blockOf m)

structure Names (m : PhysicalManager) (table : DeviceBlockTable) (b : ActiveBinding) : Prop where
  binding : table.binding = b.id
  mapping : table.mapping = b.mapping
  blocks : Lists m b.representations table.blocks

/-- Every block table names the binding of its context. -/
def Tabled (m : PhysicalManager) : Prop :=
  ∀ c table, m.blockTables.lookup c = some table →
    ∃ b, m.bindings.lookup c = some b ∧ Names m table b

/-- The representations of every binding are stored and on the device. -/
def Resident (m : PhysicalManager) : Prop :=
  ∀ c b, m.bindings.lookup c = some b →
    ∀ k ∈ b.representations, ∃ r, m.representations.lookup k = some r ∧ r.device = true

/-- No table is new, and stored representations keep their component and bytes. -/
structure Recedes (m m' : PhysicalManager) : Prop where
  tables : ∀ c table, m'.blockTables.lookup c = some table →
    m.blockTables.lookup c = some table
  nextId : m.nextId ≤ m'.nextId
  kept : ∀ k r', m'.representations.lookup k = some r' → m.nextId ≤ k.value ∨
    ∃ r, m.representations.lookup k = some r ∧ r'.component = r.component ∧ r'.bytes = r.bytes

theorem Recedes.refl (m : PhysicalManager) : Recedes m m :=
  ⟨fun _ _ h => h, le_refl _, fun _ r h => Or.inr ⟨r, h, rfl, rfl⟩⟩

theorem Recedes.trans {a b c : PhysicalManager} (hab : Recedes a b) (hbc : Recedes b c) :
    Recedes a c := by
  refine ⟨fun k table h => hab.tables k table (hbc.tables k table h),
    hab.nextId.trans hbc.nextId, ?_⟩
  intro k r hk
  rcases hbc.kept k r hk with hnew | ⟨q, hq, hcomponent, hbytes⟩
  · exact Or.inl (hab.nextId.trans hnew)
  rcases hab.kept k q hq with hnew | ⟨p, hp, hcomponent', hbytes'⟩
  · exact Or.inl hnew
  · exact Or.inr ⟨p, hp, hcomponent.trans hcomponent', hbytes.trans hbytes'⟩

/-- A call that stores no table and changes no component and no size. -/
abbrev Receding {α : Type} (x : Operation α) : Prop := Call.Moves Recedes x

theorem Receding.bind {α β : Type} {x : Operation α} {f : α → Operation β} (hx : Receding x)
    (hf : ∀ a, Receding (f a)) : Receding (x >>= f) :=
  Call.Moves.bind (fun _ _ _ hab hbc => hab.trans hbc) hx hf

theorem receding_pure {α : Type} (a : α) : Receding (pure a) := Call.Moves.pure Recedes.refl a

theorem receding_read : Receding Call.read := Call.Moves.read Recedes.refl

theorem receding_require {α : Type} (o : Option α) (e : Error) : Receding (Call.require o e) :=
  Call.Moves.require Recedes.refl o e

theorem receding_unwrap {α : Type} (o : Option α) : Receding (Call.unwrap o) :=
  Call.Moves.unwrap Recedes.refl o

theorem receding_skipIf {x : Operation Unit} (skip : Bool) (hx : Receding x) :
    Receding (Call.skipIf skip x) :=
  Call.Moves.skipIf Recedes.refl skip hx

/-- The tables and the representations are left alone. -/
theorem recedes_same (htables : m'.blockTables = m.blockTables)
    (hrepresentations : m'.representations = m.representations) (hnext : m.nextId ≤ m'.nextId) :
    Recedes m m' := by
  refine ⟨fun c table h => htables ▸ h, hnext, ?_⟩
  intro k r hk
  rw [hrepresentations] at hk
  exact Or.inr ⟨r, hk, rfl, rfl⟩

theorem recedes_setRepresentation {r r' : PhysicalRepresentation}
    (hr : m.representations.lookup k = some r) (hcomponent : r'.component = r.component)
    (hbytes : r'.bytes = r.bytes) : Recedes m (setRepresentation k r' m) := by
  refine ⟨fun _ _ h => h, le_refl _, ?_⟩
  intro j q hq
  change (m.representations.insert k r').lookup j = some q at hq
  rw [AList.lookup_insert_ite] at hq
  by_cases hjk : j = k
  · rw [if_pos hjk] at hq
    cases hq
    exact Or.inr ⟨r, hjk ▸ hr, hcomponent, hbytes⟩
  · rw [if_neg hjk] at hq
    exact Or.inr ⟨q, hq, rfl, rfl⟩

theorem recedes_refresh (m : PhysicalManager) : Recedes m (refreshCapacityMetrics m) :=
  recedes_same rfl rfl (le_refl _)

theorem recedes_eraseBlockTable (c : Context) (m : PhysicalManager) :
    Recedes m (eraseBlockTable c m) := by
  refine ⟨?_, le_refl _, fun _ r h => Or.inr ⟨r, h, rfl, rfl⟩⟩
  intro c' table h
  change (m.blockTables.erase c).lookup c' = some table at h
  rw [AList.lookup_erase_ite] at h
  by_cases hc : c' = c
  · rw [if_pos hc] at h
    cases h
  · rw [if_neg hc] at h
    exact h

theorem receding_update {g : PhysicalManager → PhysicalManager}
    (htables : ∀ m, (g m).blockTables = m.blockTables)
    (hrepresentations : ∀ m, (g m).representations = m.representations)
    (hnext : ∀ m, (g m).nextId = m.nextId) : Receding (Call.update g) :=
  Call.Moves.update (fun m => recedes_same (htables m) (hrepresentations m) (hnext m).ge)

theorem receding_metrics (f : Metrics → Metrics) : Receding (Call.update (setMetrics f)) :=
  receding_update (fun _ => rfl) (fun _ => rfl) (fun _ => rfl)

theorem receding_refresh : Receding refresh := Call.Moves.update recedes_refresh

theorem receding_identity : Receding identity := by
  intro m result m' h
  unfold identity at h
  simp only at h
  by_cases hmax : m.nextId = u64Max
  · rw [if_pos hmax] at h
    cases h
  · rw [if_neg hmax] at h
    cases h
    exact recedes_same rfl rfl (Nat.le_succ _)

/-- A representation is read and written back with the same component and bytes. -/
theorem receding_rewrite {β : Type} (k : PhysicalRepresentationId)
    {f : PhysicalRepresentation → Operation β}
    (hf : ∀ m r, m.representations.lookup k = some r → ∀ result m',
      (f r).run m = .returns result m' → Recedes m m') :
    Receding (representation k >>= f) := by
  intro m result m' h
  obtain ⟨r, hr, hrest⟩ := of_representation_bind h
  exact hf m r hr result m' hrest

theorem receding_adjustReference (f : ReferenceCounts → Option ReferenceCounts)
    (k : PhysicalRepresentationId) : Receding (adjustReference f k) := by
  refine receding_rewrite k (fun m r hr result m' h => ?_)
  obtain ⟨references, _, h⟩ := Call.of_unwrap_bind h
  cases h
  exact recedes_setRepresentation hr rfl rfl

theorem receding_adjustReferences (f : ReferenceCounts → Option ReferenceCounts)
    (ids : List PhysicalRepresentationId) : Receding (adjustReferences f ids) := by
  induction ids with
  | nil => exact receding_pure ()
  | cons k rest ih => exact (receding_adjustReference f k).bind (fun _ => ih)

theorem receding_activate (ids : List PhysicalRepresentationId) : Receding (activate ids) := by
  induction ids with
  | nil => exact receding_pure ()
  | cons k rest ih =>
    refine (receding_adjustReference _ k).bind (fun _ => ?_)
    refine receding_rewrite k (fun m r hr result m' h => ?_)
    rw [Call.run_update_bind] at h
    have hused : Recedes m (setRepresentation k { r with lastUsed := m.clock } m) :=
      recedes_setRepresentation hr rfl rfl
    exact hused.trans (ih _ result m' h)

theorem receding_dropBinding (c : Context) : Receding (dropBinding c) := by
  refine receding_read.bind (fun m => ?_)
  cases m.bindings.lookup c with
  | none => exact receding_pure ()
  | some old =>
    exact Receding.bind (receding_update (fun _ => rfl) (fun _ => rfl) (fun _ => rfl))
      (fun _ => receding_adjustReferences _ _)

theorem receding_detachTransfers (ids : List TransferId) : Receding (detachTransfers ids) := by
  induction ids with
  | nil => exact receding_pure ()
  | cons x rest ih =>
    refine Receding.bind ?_ (fun _ => ih)
    refine receding_read.bind (fun m => ?_)
    refine (receding_unwrap _).bind (fun y => ?_)
    exact Call.Moves.ite (receding_update (fun _ => rfl) (fun _ => rfl) (fun _ => rfl))
      (receding_update (fun _ => rfl) (fun _ => rfl) (fun _ => rfl))

theorem receding_reserveRepresentations (ids : List PhysicalRepresentationId) :
    Receding (reserveRepresentations ids) := by
  induction ids with
  | nil => exact receding_pure []
  | cons k rest ih =>
    have hread : Receding (representation k) :=
      receding_read.bind (fun _ => receding_unwrap _)
    refine hread.bind (fun r => (receding_adjustReference _ k).bind (fun _ => ?_))
    refine Call.Moves.ite ?_ ih
    refine receding_identity.bind (fun transfer => ?_)
    refine (receding_adjustReference _ k).bind (fun _ => ?_)
    refine Receding.bind (receding_update (fun _ => rfl) (fun _ => rfl) (fun _ => rfl))
      (fun _ => ?_)
    exact ih.bind (fun _ => receding_pure _)

theorem recedes_evicted (h : Evicted m m') : Recedes m m' := by
  obtain ⟨representations, metrics, gone, rfl, hrewrites, _⟩ := h
  refine ⟨fun _ _ h => h, le_refl _, ?_⟩
  intro k r' hk
  obtain ⟨r, hr, rfl⟩ := hrewrites.of_lookup hk
  refine Or.inr ⟨r, hr, ?_⟩
  unfold leaving
  by_cases hgone : gone r = true
  · rw [if_pos hgone]
    exact ⟨rfl, rfl⟩
  · rw [if_neg hgone]
    exact ⟨rfl, rfl⟩

theorem recedes_ensureTier {tier : Tier} {bytes : ℕ} (hkeyed : Keyed m)
    (h : (ensureTier tier bytes).run m = .returns result m') : Recedes m m' := by
  cases tier with
  | device => exact recedes_evicted (evicted_of_ensureDeviceCapacity hkeyed h)
  | host =>
    change (ensureHostCapacity bytes).run m = _ at h
    rw [ensureHostCapacity_run] at h
    by_cases hroom : m.hostUsed + bytes ≤ m.capacity.hostBytes
    · rw [if_pos hroom] at h
      cases h
      exact Recedes.refl _
    · rw [if_neg hroom] at h
      cases h
      exact Recedes.refl _
  | storage =>
    cases h
    exact Recedes.refl _

theorem recedes_landed {bytes : ℕ} (h : Landed m k bytes m') : Recedes m m' := by
  obtain ⟨representations, metrics, rfl⟩ := h.frame
  refine ⟨fun _ _ h => h, le_refl _, ?_⟩
  intro j r' hj
  obtain ⟨r, hr, rfl⟩ := h.rewrites.of_lookup hj
  refine Or.inr ⟨r, hr, ?_⟩
  unfold afterSpace leaving
  by_cases hjk : j = k
  · rw [if_pos hjk]
    exact ⟨rfl, rfl⟩
  · rw [if_neg hjk]
    by_cases hgone : evicts m bytes r = true
    · rw [if_pos hgone]
      exact ⟨rfl, rfl⟩
    · rw [if_neg hgone]
      exact ⟨rfl, rfl⟩

theorem recedes_register (hm : Owned m) {mapping : LogicalStore.EvaluatedPrefixId}
    {component : Component} {representedEnd bytes : ℕ} {tier : Tier} {reuseValue : ℕ}
    {result : Except Error PhysicalRepresentationId}
    (h : (register mapping component representedEnd bytes tier reuseValue).run m =
      .returns result m') : Recedes m m' := by
  unfold register at h
  rcases Call.of_bind h with ⟨e, he, _⟩ | ⟨_, m1, hroom, h⟩
  · exact recedes_ensureTier hm.keyed he
  refine (recedes_ensureTier hm.keyed hroom).trans ?_
  obtain ⟨_, h⟩ := of_identity_bind h
  rcases Call.of_bind h with ⟨e, he, _⟩ | ⟨clock, m2, htick, h⟩
  · exact absurd he (infallible_tick _ _ _)
  unfold tick at htick
  simp only at htick
  by_cases hmax : m1.clock = u64Max
  · rw [if_pos hmax] at htick
    cases htick
  rw [if_neg hmax] at htick
  cases htick
  cases h
  refine ⟨fun _ _ h => h, Nat.le_succ _, ?_⟩
  intro k r hk
  change (m1.representations.insert ⟨m1.nextId⟩ _).lookup k = some r at hk
  rw [AList.lookup_insert_ite] at hk
  by_cases hnew : k = ⟨m1.nextId⟩
  · rw [hnew]
    exact Or.inl (le_refl _)
  · rw [if_neg hnew] at hk
    exact Or.inr ⟨r, hk, rfl, rfl⟩

theorem recedes_releaseLogicalReference
    (h : (releaseLogicalReference k).run m = .returns result m') : Recedes m m' := by
  unfold releaseLogicalReference at h
  rw [Call.run_read_bind] at h
  rcases Call.of_require_bind h with ⟨_, rfl, _⟩ | ⟨r, hr, h⟩
  · exact Recedes.refl _
  rw [Call.run_update_bind] at h
  refine Recedes.trans ?_ (receding_refresh _ _ _ h)
  simp only
  split
  · refine ⟨fun _ _ h => h, le_refl _, ?_⟩
    intro j q hq
    change (m.representations.erase k).lookup j = some q at hq
    rw [AList.lookup_erase_ite] at hq
    by_cases hjk : j = k
    · rw [if_pos hjk] at hq
      cases hq
    · rw [if_neg hjk] at hq
      exact Or.inr ⟨q, hq, rfl, rfl⟩
  · exact recedes_setRepresentation hr rfl rfl

theorem recedes_reserveGrowth (hm : Owned m) {bytes : ℕ} {result : Except Error GrowthReservationId}
    (h : (reserveGrowth bytes).run m = .returns result m') : Recedes m m' := by
  unfold reserveGrowth at h
  rcases Call.of_bind h with ⟨e, he, _⟩ | ⟨_, m1, hroom, h⟩
  · exact recedes_evicted (evicted_of_ensureDeviceCapacity hm.keyed he)
  refine (recedes_evicted (evicted_of_ensureDeviceCapacity hm.keyed hroom)).trans ?_
  refine (receding_identity.bind (fun _ => ?_)) _ _ _ h
  refine Receding.bind (receding_update (fun _ => rfl) (fun _ => rfl) (fun _ => rfl)) (fun _ => ?_)
  exact receding_refresh.bind (fun _ => receding_pure _)

theorem receding_releaseGrowth (id : GrowthReservationId) : Receding (releaseGrowth id) := by
  refine receding_read.bind (fun m => ?_)
  refine (receding_require _ _).bind (fun _ => ?_)
  exact Receding.bind (receding_update (fun _ => rfl) (fun _ => rfl) (fun _ => rfl))
    (fun _ => receding_refresh)

/-- A stored representation is written back after some checks, and the metrics change. -/
theorem recedes_rewritten {r r' : PhysicalRepresentation} (hr : m.representations.lookup k = some r)
    (hcomponent : r'.component = r.component) (hbytes : r'.bytes = r.bytes)
    (f : Metrics → Metrics) :
    Recedes m (refreshCapacityMetrics (setMetrics f (setRepresentation k r' m))) := by
  have hset : Recedes m (setRepresentation k r' m) :=
    recedes_setRepresentation hr hcomponent hbytes
  exact hset.trans (recedes_same rfl rfl (le_refl _))

theorem recedes_demoteToHost (h : (demoteToHost k).run m = .returns result m') : Recedes m m' := by
  unfold demoteToHost at h
  rw [Call.run_read_bind] at h
  rcases Call.of_require_bind h with ⟨_, rfl, _⟩ | ⟨r, hr, h⟩
  · exact Recedes.refl _
  rcases Call.of_check_bind h with ⟨_, rfl, _⟩ | ⟨_, h⟩
  · exact Recedes.refl _
  have hhost : ∀ result' m1, (Call.skipIf r.host (ensureHostCapacity r.bytes)).run m =
      .returns result' m1 → m1 = m := by
    intro result' m1 hrun
    unfold Call.skipIf at hrun
    by_cases hcopy : r.host = true
    · rw [if_pos hcopy] at hrun
      cases hrun
      rfl
    · rw [if_neg hcopy, ensureHostCapacity_run] at hrun
      by_cases hroom : m.hostUsed + r.bytes ≤ m.capacity.hostBytes
      · rw [if_pos hroom] at hrun
        cases hrun
        rfl
      · rw [if_neg hroom] at hrun
        cases hrun
        rfl
  rcases Call.of_bind h with ⟨e, he, _⟩ | ⟨_, m1, hok, h⟩
  · rw [hhost _ _ he]
    exact Recedes.refl _
  · rw [hhost _ _ hok] at h
    cases h
    refine recedes_rewritten hr ?_ ?_ _
    · rfl
    · rfl

theorem recedes_demoteToStorage (h : (demoteToStorage k).run m = .returns result m') :
    Recedes m m' := by
  unfold demoteToStorage at h
  rw [Call.run_read_bind] at h
  rcases Call.of_require_bind h with ⟨_, rfl, _⟩ | ⟨r, hr, h⟩
  · exact Recedes.refl _
  rcases Call.of_check_bind h with ⟨_, rfl, _⟩ | ⟨_, h⟩
  · exact Recedes.refl _
  cases h
  refine recedes_rewritten hr ?_ ?_ _
  · rfl
  · rfl

theorem recedes_evict {tier : Tier} (h : (evict k tier).run m = .returns result m') :
    Recedes m m' := by
  unfold evict at h
  rw [Call.run_read_bind] at h
  rcases Call.of_require_bind h with ⟨_, rfl, _⟩ | ⟨r, hr, h⟩
  · exact Recedes.refl _
  rcases Call.of_check_bind h with ⟨_, rfl, _⟩ | ⟨_, h⟩
  · exact Recedes.refl _
  by_cases htier : onTier r tier = true
  · rw [if_pos htier] at h
    cases h
    refine recedes_rewritten hr ?_ ?_ _
    · cases tier <;> rfl
    · cases tier <;> rfl
  · rw [if_neg htier] at h
    cases h
    exact Recedes.refl _

theorem recedes_prepareTransition (hm : Owned m) {c : Context} {revision : ℕ}
    {mapping : LogicalStore.EvaluatedPrefixId} {representedEnd : ℕ}
    {required : LogicalStore.ComponentMask} {ids : List PhysicalRepresentationId}
    {allowRecompute : Bool}
    {result : Except Error (PreparedTransitionId × TransitionClass × List TransferId)}
    (h : (prepareTransition c revision mapping representedEnd required ids
      allowRecompute).run m = .returns result m') : Recedes m m' := by
  unfold prepareTransition at h
  rw [Call.run_read_bind] at h
  rcases Call.of_ofExcept_bind h with ⟨_, _, rfl, _⟩ | ⟨_, hvalid, h⟩
  · exact Recedes.refl _
  obtain ⟨planned, hplan, _⟩ :=
    planMissing_run m allowRecompute ids (validateComposite_ok hvalid).2 0 false
  rcases Call.of_bind h with ⟨e, he, _⟩ | ⟨⟨missing, recompute⟩, m1, hok, h⟩
  · rw [hplan] at he
    cases he
    exact Recedes.refl _
  rw [hplan] at hok
  cases hok
  rcases Call.of_bind h with ⟨e, he, _⟩ | ⟨_, m2, hspace, h⟩
  · exact recedes_evicted (evicted_of_ensureDeviceCapacity hm.keyed he)
  refine (recedes_evicted (evicted_of_ensureDeviceCapacity hm.keyed hspace)).trans ?_
  refine (receding_read.bind (fun _ => receding_identity.bind (fun transition => ?_))) _ _ _ h
  refine (receding_reserveRepresentations ids).bind (fun transfers => ?_)
  refine Receding.bind (receding_update (fun _ => rfl) (fun _ => rfl) (fun _ => rfl)) (fun _ => ?_)
  exact (receding_metrics _).bind (fun _ => receding_refresh.bind (fun _ => receding_pure _))

theorem recedes_completeTransfer (hm : Owned m) {x : TransferId} {success : Bool}
    (h : (completeTransfer x success).run m = .returns result m') : Recedes m m' := by
  unfold completeTransfer at h
  rw [Call.run_read_bind] at h
  rcases Call.of_require_bind h with ⟨_, rfl, _⟩ | ⟨y, hy, h⟩
  · exact Recedes.refl _
  by_cases hcompleted : y.completed = true
  · rw [if_pos hcompleted] at h
    cases h
    exact Recedes.refl _
  rw [if_neg hcompleted] at h
  have hreceived : ∀ result' m1, (Call.skipIf (!success) (receive y)).run m =
      .returns result' m1 → Recedes m m1 := by
    intro result' m1 hrun
    rcases receive_run hm hy (Bool.not_eq_true _ ▸ hcompleted) success with
      ⟨_, m2, hreceived, hrun'⟩ | ⟨_, m2, hevicted, hrun'⟩
    · rw [hrun'] at hrun
      cases hrun
      rcases hreceived with ⟨metrics, rfl, _⟩ | ⟨_, hlanded⟩
      · exact recedes_same rfl rfl (le_refl _)
      · exact recedes_landed hlanded
    · rw [hrun'] at hrun
      cases hrun
      exact recedes_evicted hevicted
  rcases Call.of_bind h with ⟨e, he, _⟩ | ⟨_, m1, hok, h⟩
  · exact hreceived _ _ he
  refine (hreceived _ _ hok).trans (Receding.bind ?_ (fun _ => ?_) _ _ _ h)
  · exact receding_update (fun _ => rfl) (fun _ => rfl) (fun _ => rfl)
  refine (receding_adjustReference _ _).bind (fun _ => receding_refresh.bind (fun _ => ?_))
  exact receding_skipIf _ (receding_update (fun _ => rfl) (fun _ => rfl) (fun _ => rfl))

theorem recedes_completeRecompute (hm : Owned m)
    (h : (completeRecompute i k).run m = .returns result m') : Recedes m m' := by
  unfold completeRecompute at h
  rw [Call.run_read_bind] at h
  rcases Call.of_require_bind h with ⟨_, rfl, _⟩ | ⟨t, _, h⟩
  · exact Recedes.refl _
  rcases Call.of_check_bind h with ⟨_, rfl, _⟩ | ⟨_, h⟩
  · exact Recedes.refl _
  obtain ⟨r, hr, h⟩ := of_representation_bind h
  have hrebuilt : ∀ result' m1, (Call.skipIf r.device (rebuild k r.bytes)).run m =
      .returns result' m1 → Recedes m m1 := by
    intro result' m1 hrun
    cases hdevice : r.device with
    | true =>
      rw [hdevice] at hrun
      cases hrun
      exact Recedes.refl _
    | false =>
      rw [hdevice] at hrun
      rcases land_run m hm.keyed k r hr hdevice r.bytes
        (fun x => { x with recomputed := x.recomputed + 1 }) with
        ⟨_, m2, hlanded, hrun'⟩ | ⟨_, m2, hevicted, hrun'⟩
      · cases hrun'.symm.trans hrun
        exact recedes_landed hlanded
      · cases hrun'.symm.trans hrun
        exact recedes_evicted hevicted
  rcases Call.of_bind h with ⟨e, he, _⟩ | ⟨_, m1, hok, h⟩
  · exact hrebuilt _ _ he
  · exact (hrebuilt _ _ hok).trans (receding_refresh _ _ _ h)

theorem receding_abortTransition (i : PreparedTransitionId) : Receding (abortTransition i) := by
  refine receding_read.bind (fun _ => (receding_require _ _).bind (fun t => ?_))
  refine Receding.bind (receding_update (fun _ => rfl) (fun _ => rfl) (fun _ => rfl)) (fun _ => ?_)
  refine (receding_detachTransfers _).bind (fun _ => ?_)
  refine (receding_adjustReferences _ _).bind (fun _ => ?_)
  exact (receding_metrics _).bind (fun _ => receding_refresh)

theorem recedes_dropped {m1 m' : PhysicalManager} {c : Context}
    (hdropped : m1.blockTables.lookup c = none) (h : Recedes m1 m') :
    m'.blockTables.lookup c = none := by
  by_contra hne
  obtain ⟨table, htable⟩ := Option.ne_none_iff_exists'.mp hne
  rw [h.tables c table htable] at hdropped
  cases hdropped

theorem lookup_eraseBlockTable (c : Context) (m : PhysicalManager) :
    (eraseBlockTable c m).blockTables.lookup c = none :=
  AList.lookup_erase _ _

theorem recedes_unbind {c : Context} (h : (unbind c).run m = .returns result m') :
    Recedes m m' ∧ (m.bindings.lookup c ≠ none → m'.blockTables.lookup c = none) := by
  unfold unbind at h
  rw [Call.run_read_bind] at h
  rcases Call.of_require_bind h with ⟨hnone, rfl, _⟩ | ⟨b, _, h⟩
  · exact ⟨Recedes.refl _, fun hne => absurd hnone hne⟩
  rw [Call.run_update_bind] at h
  have hrest := ((receding_dropBinding c).bind (fun _ => receding_refresh)) _ _ _ h
  refine ⟨(recedes_eraseBlockTable c _).trans hrest, ?_⟩
  intro _
  exact recedes_dropped (lookup_eraseBlockTable c _) hrest

theorem recedes_bindTransition {t : PreparedTransition} {result : Except Error ActiveBindingId}
    (h : (bindTransition i t).run m = .returns result m') :
    Recedes m m' ∧ m'.blockTables.lookup t.context = none := by
  unfold bindTransition at h
  rw [Call.run_update_bind] at h
  unfold releaseTransitionRefs at h
  rcases Call.of_bind h with ⟨e, he, _⟩ | ⟨_, m1, hreleased, h⟩
  · exact absurd he (infallible_adjustReferences _ _ _ _ _)
  have herased : Recedes m { m with transitions := m.transitions.erase i } :=
    recedes_same rfl rfl (le_refl _)
  have hfirst := herased.trans (receding_adjustReferences _ _ _ _ _ hreleased)
  rw [Call.run_update_bind] at h
  have hrest : Recedes (eraseBlockTable t.context m1) m' := by
    refine (receding_read.bind (fun _ => (receding_metrics _).bind (fun _ => ?_))) _ _ _ h
    refine (receding_dropBinding _).bind (fun _ => ?_)
    refine (receding_activate _).bind (fun _ => receding_identity.bind (fun binding => ?_))
    refine Receding.bind (receding_update (fun _ => rfl) (fun _ => rfl) (fun _ => rfl))
      (fun _ => ?_)
    exact (receding_metrics _).bind (fun _ => receding_refresh.bind (fun _ => receding_pure _))
  exact ⟨hfirst.trans ((recedes_eraseBlockTable _ m1).trans hrest),
    recedes_dropped (lookup_eraseBlockTable _ m1) hrest⟩

theorem recedes_commitTransition (hm : Owned m) {revision : ℕ} {t : PreparedTransition}
    (ht : m.transitions.lookup i = some t) {result : Except Error ActiveBindingId}
    (h : (commitTransition i revision).run m = .returns result m') :
    Recedes m m' ∧ ((∃ b, result = .ok b) → m'.blockTables.lookup t.context = none) := by
  unfold commitTransition at h
  rw [Call.run_read_bind, ht, Call.run_require_some_bind] at h
  obtain ⟨checked, hchecked, _⟩ := checkCommit_run hm ht revision
  rcases Call.of_bind h with ⟨e, he, rfl⟩ | ⟨_, m1, hok, h⟩
  · rw [hchecked] at he
    cases he
    refine ⟨Recedes.refl _, ?_⟩
    rintro ⟨b, hb⟩
    cases hb
  · rw [hchecked] at hok
    cases hok
    obtain ⟨hrecedes, hdropped⟩ := recedes_bindTransition h
    exact ⟨hrecedes, fun _ => hdropped⟩

/-- The representations of a binding are listed the same after a call. -/
theorem lists_of_recedes (hm : Owned m) (h : Recedes m m') {ids : List PhysicalRepresentationId}
    (hold : ∀ k ∈ ids, ∃ r, m.representations.lookup k = some r)
    (hnew : ∀ k ∈ ids, ∃ r, m'.representations.lookup k = some r) {blocks : List DeviceBlock}
    (hlists : Lists m ids blocks) : Lists m' ids blocks := by
  refine hlists.trans (List.map_congr_left (fun k hk => ?_))
  obtain ⟨r, hr⟩ := hold k hk
  obtain ⟨r', hr'⟩ := hnew k hk
  unfold blockOf
  rcases h.kept k r' hr' with hfresh | ⟨q, hq, hcomponent, hbytes⟩
  · have := hm.representations_old k r hr
    omega
  · rw [hq] at hr
    cases hr
    rw [hq, hr', Option.map_some, Option.map_some, hcomponent, hbytes]

theorem stored_of_bound (hm : Owned m) {c : Context} {b : ActiveBinding}
    (hb : m.bindings.lookup c = some b) :
    ∀ k ∈ b.representations, ∃ r, m.representations.lookup k = some r := by
  intro k hk
  obtain ⟨r, hr, _⟩ := (hm.bound c b hb).2 k hk
  exact ⟨r, hr⟩

/-- A call that recedes keeps tables and bindings together where the binding stays
wherever a table is left. -/
theorem Tabled.recedes (htabled : Tabled m) (hm : Owned m) (hm' : Owned m') (h : Recedes m m')
    (hbindings : ∀ c, m'.blockTables.lookup c ≠ none → m'.bindings.lookup c = m.bindings.lookup c) :
    Tabled m' := by
  intro c table htable
  obtain ⟨b, hb, hnames⟩ := htabled c table (h.tables c table htable)
  have hb' : m'.bindings.lookup c = some b := by
    rw [hbindings c (by rw [htable]; exact Option.some_ne_none _), hb]
  refine ⟨b, hb', hnames.binding, hnames.mapping, ?_⟩
  exact lists_of_recedes hm h (stored_of_bound hm hb) (stored_of_bound hm' hb') hnames.blocks

theorem deviceBlocks_lists {e : Error} {ids : List PhysicalRepresentationId}
    {blocks : List DeviceBlock} (h : (deviceBlocks e ids).run m = .returns (.ok blocks) m') :
    Lists m ids blocks := by
  induction ids generalizing blocks m' with
  | nil =>
    cases h
    rfl
  | cons k rest ih =>
    unfold deviceBlocks at h
    obtain ⟨r, hr, h⟩ := of_representation_bind h
    rcases Call.of_check_bind h with ⟨_, _, hfails⟩ | ⟨_, h⟩
    · cases hfails
    obtain ⟨listed, m1, hrest, h⟩ := Call.of_bind_ok h
    cases h
    have hlists := ih hrest
    unfold Lists at hlists ⊢
    rw [List.map_cons, List.map_cons, hlists, blockOf, hr]
    rfl

/-- A table stored for a context whose binding it names. -/
theorem Tabled.publish (htabled : Tabled m) {c : Context} {b : ActiveBinding}
    (hb : m.bindings.lookup c = some b) {table : DeviceBlockTable} (hnames : Names m table b) :
    Tabled (publishTable c table m) := by
  intro c' table' htable
  change (m.blockTables.insert c table).lookup c' = some table' at htable
  rw [AList.lookup_insert_ite] at htable
  by_cases hc : c' = c
  · rw [if_pos hc] at htable
    cases htable
    exact ⟨b, hc ▸ hb, hnames.binding, hnames.mapping, hnames.blocks⟩
  · rw [if_neg hc] at htable
    obtain ⟨b', hb', hnames'⟩ := htabled c' table' htable
    exact ⟨b', hb', hnames'.binding, hnames'.mapping, hnames'.blocks⟩

theorem tabled_identity (h : Tabled m) : Tabled { m with nextId := m.nextId + 1 } := by
  intro c table htable
  obtain ⟨b, hb, hnames⟩ := h c table htable
  exact ⟨b, hb, hnames.binding, hnames.mapping, hnames.blocks⟩

/-- A commit leaves a binding and no table for its context, and the others alone. -/
theorem Tabled.commit (htabled : Tabled m) (hm : Owned m) {t : PreparedTransition} {revision : ℕ}
    (ht : m.transitions.lookup i = some t) (hready : CommitReady m t revision)
    (hcommitted : Committed m i t m') (h : Recedes m m')
    (hdropped : m'.blockTables.lookup t.context = none) : Tabled m' := by
  refine htabled.recedes hm (hcommitted.owned hm ht hready) h ?_
  intro c hc
  have hne : c ≠ t.context := by
    rintro rfl
    exact hc hdropped
  obtain ⟨representations, blockTables, metrics, rfl⟩ := hcommitted.frame
  change ((m.bindings.erase t.context).insert t.context _).lookup c = _
  rw [AList.lookup_insert_ite, if_neg hne, AList.lookup_erase_ite, if_neg hne]

/-- The calls that neither bind nor publish leave the bindings alone. -/
theorem bindings_of_quiet (h : Quiet m m') : m'.bindings = m.bindings := by
  obtain ⟨_, _, rfl⟩ := h.frame
  rfl

theorem bindings_of_completed {x : TransferId} {y : Transfer} {success : Bool}
    (h : Completed m x y success m') : m'.bindings = m.bindings := by
  obtain ⟨m1, hreceived, hsettled⟩ := h
  obtain ⟨_, _, _, rfl⟩ := hsettled.frame
  rcases hreceived with ⟨_, rfl, _⟩ | ⟨_, hlanded⟩
  · rfl
  · obtain ⟨_, _, rfl⟩ := hlanded.frame
    rfl

theorem bindings_of_prepared {t : PreparedTransition} (h : Prepared m t m') :
    m'.bindings = m.bindings := by
  obtain ⟨m1, hspaced, hreserved⟩ := h.admitted
  obtain ⟨_, _, rfl⟩ := hspaced.frame
  obtain ⟨_, _, rfl⟩ := hreserved.frame
  rfl

theorem bindings_of_unbound {c c' : Context} (h : Unbound m c m') (hne : c' ≠ c) :
    m'.bindings.lookup c' = m.bindings.lookup c' := by
  obtain ⟨_, _, _, rfl⟩ := h.frame
  change (m.bindings.erase c).lookup c' = _
  rw [AList.lookup_erase_ite, if_neg hne]

theorem Tabled.unbind (htabled : Tabled m) (hm : Owned m) {c : Context}
    (h : (unbind c).run m = .returns result m') : Tabled m' := by
  obtain ⟨hrecedes, hdropped⟩ := recedes_unbind h
  rcases unbind_cases hm h with hquiet | hunbound
  · refine htabled.recedes hm (hquiet.owned hm) hrecedes ?_
    intro c' _
    rw [bindings_of_quiet hquiet]
  · refine htabled.recedes hm (hunbound.owned hm) hrecedes ?_
    intro c' htable
    by_cases hc : c' = c
    · subst hc
      by_cases hbound : m.bindings.lookup c' = none
      · obtain ⟨_, _, _, rfl⟩ := hunbound.frame
        rw [hbound]
        exact AList.lookup_erase _ _
      · exact absurd (hdropped hbound) htable
    · exact bindings_of_unbound hunbound hc

theorem Tabled.commitTransition (htabled : Tabled m) (hm : Owned m) {revision : ℕ}
    {result : Except Error ActiveBindingId}
    (h : (commitTransition i revision).run m = .returns result m') : Tabled m' := by
  rcases commitTransition_cases hm h with ⟨rfl, _⟩ | ⟨t, ht, hready, hcommitted, hresult⟩
  · exact htabled
  · obtain ⟨hrecedes, hdropped⟩ := recedes_commitTransition hm ht h
    exact htabled.commit hm ht hready hcommitted hrecedes (hdropped ⟨_, hresult⟩)

/-- What a mapped commit leaves for its context. -/
structure PublishedFor (m m' : PhysicalManager) (i : PreparedTransitionId) (executorMapping : ℕ)
    (binding : ActiveBindingId) (table : DeviceBlockTableId) : Prop where
  published : ∃ t b published, m.transitions.lookup i = some t ∧
    m'.bindings.lookup t.context = some b ∧ m'.blockTables.lookup t.context = some published ∧
    b.id = binding ∧ b.mapping = t.mapping ∧ b.representations = t.representations ∧
    published.id = table ∧ published.executorMapping = executorMapping ∧ Names m' published b

theorem publishedFor_commitMapped (hm : Owned m) {revision executorMapping : ℕ}
    {binding : ActiveBindingId} {table : DeviceBlockTableId}
    (h : (commitMappedTransition i revision executorMapping).run m =
      .returns (.ok (binding, table)) m') :
    (Tabled m → Tabled m') ∧ PublishedFor m m' i executorMapping binding table := by
  rcases commitMappedTransition_cases hm h with
    ⟨_, ⟨_, he⟩, _⟩ | ⟨t, m2, blocks, ht, hready, hcommitted, hrun, hblocks, hm', hresult⟩
  · cases he
  cases hresult
  have hnext := (published_identity m).owned hm
  have hready' : CommitReady { m with nextId := m.nextId + 1 } t revision :=
    ⟨hready.revision, hready.transfers, hready.device⟩
  have hm2 : Owned m2 := hcommitted.owned hnext ht hready'
  obtain ⟨hrecedes, hdropped⟩ := recedes_commitTransition hnext ht hrun
  have hb : m2.bindings.lookup t.context = some ⟨⟨m.nextId + 1⟩, t.mapping, t.representations⟩ := by
    obtain ⟨_, _, _, hframe⟩ := hcommitted.frame
    rw [hframe]
    exact AList.lookup_insert _
  have hlists : Lists m2 t.representations blocks :=
    have hread : Lists m t.representations blocks := deviceBlocks_lists hblocks
    lists_of_recedes hnext hrecedes (hm.prepared i t ht).2 (stored_of_bound hm2 hb) hread
  have hnames : Names m2 (mappedTable m t executorMapping blocks)
      ⟨⟨m.nextId + 1⟩, t.mapping, t.representations⟩ := ⟨rfl, rfl, hlists⟩
  subst hm'
  refine ⟨?_, ⟨t, _, mappedTable m t executorMapping blocks, ht, hb, AList.lookup_insert _, rfl,
    rfl, rfl, rfl, rfl, ⟨rfl, rfl, hlists⟩⟩⟩
  intro htabled
  exact ((tabled_identity htabled).commit hnext ht hready' hcommitted hrecedes
    (hdropped ⟨_, rfl⟩)).publish hb hnames

theorem Tabled.commitMapped (htabled : Tabled m) (hm : Owned m) {revision executorMapping : ℕ}
    {result : Except Error (ActiveBindingId × DeviceBlockTableId)}
    (h : (commitMappedTransition i revision executorMapping).run m = .returns result m') :
    Tabled m' := by
  cases result with
  | ok published => exact (publishedFor_commitMapped hm h).1 htabled
  | error e =>
    rcases commitMappedTransition_cases hm h with
      ⟨rfl, _⟩ | ⟨_, _, _, _, _, _, _, _, _, hresult⟩
    · exact htabled
    · cases hresult

theorem Tabled.publishDeviceBlockTable (htabled : Tabled m) (hm : Owned m) {c : Context}
    {binding : ActiveBindingId} {executorMapping : ℕ} {result : Except Error DeviceBlockTableId}
    (h : (publishDeviceBlockTable c binding executorMapping).run m = .returns result m') :
    Tabled m' := by
  rcases publishDeviceBlockTable_cases hm h with
    ⟨rfl, _⟩ | ⟨b, blocks, hb, hid, hblocks, rfl, _⟩
  · exact htabled
  · have hread : Lists m b.representations blocks := deviceBlocks_lists hblocks
    exact (tabled_identity htabled).publish hb ⟨hid.symm, rfl, hread⟩

/-- A call that recedes and leaves the bindings alone. -/
theorem Tabled.still (htabled : Tabled m) (hm : Owned m) (hm' : Owned m') (h : Recedes m m')
    (hbindings : m'.bindings = m.bindings) : Tabled m' :=
  htabled.recedes hm hm' h (fun c _ => by rw [hbindings])

theorem tabled_step {a : Action} (hm : Owned m) (htabled : Tabled m) (h : Step m a m') :
    Tabled m' := by
  have heffect := step_effect hm h
  have hm' := heffect.owned hm
  unfold Step at h
  cases a with
  | register mapping component representedEnd bytes tier reuseValue =>
    obtain ⟨_, hrun⟩ := of_returned h
    refine htabled.still hm hm' (recedes_register hm hrun) ?_
    rcases heffect with hquiet | ⟨m1, r, hquiet, _, _, rfl⟩
    · exact bindings_of_quiet hquiet
    · have hsame := bindings_of_quiet hquiet
      exact hsame
  | releaseLogicalReference id =>
    obtain ⟨_, hrun⟩ := of_returned h
    refine htabled.still hm hm' (recedes_releaseLogicalReference hrun) ?_
    rcases heffect with hquiet | herased
    · exact bindings_of_quiet hquiet
    · obtain ⟨_, rfl⟩ := herased.frame
      rfl
  | reserveGrowth bytes =>
    obtain ⟨_, hrun⟩ := of_returned h
    refine htabled.still hm hm' (recedes_reserveGrowth hm hrun) ?_
    rcases heffect with hquiet | ⟨_, m1, hquiet, rfl⟩
    · exact bindings_of_quiet hquiet
    · have hsame := bindings_of_quiet hquiet
      exact hsame
  | releaseGrowth id =>
    obtain ⟨_, hrun⟩ := of_returned h
    refine htabled.still hm hm' (receding_releaseGrowth id _ _ _ hrun) ?_
    rcases heffect with hquiet | rfl
    · exact bindings_of_quiet hquiet
    · rfl
  | demoteToHost id =>
    obtain ⟨_, hrun⟩ := of_returned h
    exact htabled.still hm hm' (recedes_demoteToHost hrun) (bindings_of_quiet heffect)
  | demoteToStorage id =>
    obtain ⟨_, hrun⟩ := of_returned h
    exact htabled.still hm hm' (recedes_demoteToStorage hrun) (bindings_of_quiet heffect)
  | evict id tier =>
    obtain ⟨_, hrun⟩ := of_returned h
    exact htabled.still hm hm' (recedes_evict hrun) (bindings_of_quiet heffect)
  | prepareTransition context revision mapping representedEnd required ids allowRecompute =>
    obtain ⟨_, hrun⟩ := of_returned h
    refine htabled.still hm hm' (recedes_prepareTransition hm hrun) ?_
    rcases heffect with hquiet | ⟨t, hprepared⟩
    · exact bindings_of_quiet hquiet
    · exact bindings_of_prepared hprepared
  | completeTransfer id success =>
    obtain ⟨_, hrun⟩ := of_returned h
    refine htabled.still hm hm' (recedes_completeTransfer hm hrun) ?_
    rcases heffect with hquiet | ⟨y, _, _, hcompleted⟩
    · exact bindings_of_quiet hquiet
    · exact bindings_of_completed hcompleted
  | completeRecompute transition id =>
    obtain ⟨_, hrun⟩ := of_returned h
    refine htabled.still hm hm' (recedes_completeRecompute hm hrun) ?_
    rcases heffect with hquiet | ⟨t, r, m1, _, _, _, _, hlanded, rfl⟩
    · exact bindings_of_quiet hquiet
    · obtain ⟨_, _, rfl⟩ := hlanded.frame
      rfl
  | commitTransition id currentRevision =>
    obtain ⟨_, hrun⟩ := of_returned h
    exact htabled.commitTransition hm hrun
  | commitMappedTransition id currentRevision executorMapping =>
    obtain ⟨_, hrun⟩ := of_returned h
    exact htabled.commitMapped hm hrun
  | publishDeviceBlockTable context binding executorMapping =>
    obtain ⟨_, hrun⟩ := of_returned h
    exact htabled.publishDeviceBlockTable hm hrun
  | unbind context =>
    obtain ⟨_, hrun⟩ := of_returned h
    exact htabled.unbind hm hrun
  | releaseBinding context =>
    obtain ⟨_, hrun⟩ := of_returned h
    exact htabled.unbind hm hrun
  | abortTransition id =>
    obtain ⟨_, hrun⟩ := of_returned h
    refine htabled.still hm hm' (receding_abortTransition id _ _ _ hrun) ?_
    rcases heffect with ⟨rfl, _⟩ | ⟨t, _, haborted⟩
    · rfl
    · obtain ⟨_, _, _, rfl⟩ := haborted.frame
      rfl

theorem tabled_of_reaches {capacity : Capacity} (h : Reaches Step (new capacity) m) : Tabled m := by
  have hboth := h.invariant (fun m => Owned m ∧ Tabled m) ?_ ⟨owned_new capacity, ?_⟩
  · exact hboth.2
  · intro m a m' hm hstep
    exact ⟨owned_step m a m' hm.1 hstep, tabled_step hm.1 hm.2 hstep⟩
  · intro c table htable
    cases htable

theorem resident_of_owned (h : Owned m) : Resident m :=
  fun c b hb => (h.bound c b hb).2

/-- In every reachable state tables name the bindings of their contexts and bindings are
on the device; a refused commit leaves both alone, and a mapped commit publishes both. -/
theorem published_together {capacity : Capacity} {m : PhysicalManager}
    (h : Reaches Step (new capacity) m) :
    Tabled m ∧ Resident m ∧
    (∀ i revision e m', (commitTransition i revision).run m = .returns (.error e) m' →
      m'.bindings = m.bindings ∧ m'.blockTables = m.blockTables) ∧
    (∀ i revision executorMapping e m',
      (commitMappedTransition i revision executorMapping).run m = .returns (.error e) m' →
      m'.bindings = m.bindings ∧ m'.blockTables = m.blockTables) ∧
    (∀ i revision executorMapping binding table m',
      (commitMappedTransition i revision executorMapping).run m =
        .returns (.ok (binding, table)) m' →
      PublishedFor m m' i executorMapping binding table) := by
  have howned := owned_of_reaches h
  refine ⟨tabled_of_reaches h, resident_of_owned howned, ?_, ?_, ?_⟩
  · intro i revision e m' hrun
    rcases commitTransition_cases howned hrun with ⟨rfl, _⟩ | ⟨_, _, _, _, hresult⟩
    · exact ⟨rfl, rfl⟩
    · cases hresult
  · intro i revision executorMapping e m' hrun
    rcases commitMappedTransition_cases howned hrun with
      ⟨rfl, _⟩ | ⟨_, _, _, _, _, _, _, _, _, hresult⟩
    · exact ⟨rfl, rfl⟩
    · cases hresult
  · intro i revision executorMapping binding table m' hrun
    exact (publishedFor_commitMapped howned hrun).2

/-- Six bytes are registered on the device and prepared for a context. -/
def preparedOnDevice : List Action := [
  .register somePrefix .globalKv 1 6 .device 0,
  .prepareTransition ⟨0⟩ 0 somePrefix 1 LogicalStore.ComponentMask.globalKv [⟨1⟩] false]

theorem mapped_commit_publishes :
    ∃ run m' binding table, IsRun Step (new tenBytes) run ∧ run.length = 2 ∧
      (commitMappedTransition ⟨2⟩ 0 7).run (last (new tenBytes) run) =
        .returns (.ok (binding, table)) m' ∧
      PublishedFor (last (new tenBytes) run) m' ⟨2⟩ 7 binding table := by
  have hrun : (trace perform (new tenBytes) preparedOnDevice).any (fun run => run.length = 2 &&
      ((commitMappedTransition ⟨2⟩ 0 7).run (last (new tenBytes) run)).isOk) = true := by
    decide +kernel
  obtain ⟨run, htrace, hchecked⟩ := (Option.any_eq_true _ _).mp hrun
  rw [Bool.and_eq_true, decide_eq_true_eq] at hchecked
  obtain ⟨hlength, hok⟩ := hchecked
  have hsteps := isRun_of_trace _ _ _ _ htrace
  cases hcommit : (commitMappedTransition ⟨2⟩ 0 7).run (last (new tenBytes) run) with
  | panics =>
    rw [hcommit] at hok
    cases hok
  | returns result m' =>
    cases result with
    | error e =>
      rw [hcommit] at hok
      cases hok
    | ok published =>
      obtain ⟨_, _, _, _, hpublished⟩ := published_together ⟨run, hsteps, rfl⟩
      exact ⟨run, m', published.1, published.2, hsteps, hlength, hcommit.symm ▸ rfl,
        hpublished _ _ _ _ _ _ hcommit⟩

end Cusco.BlockTables
