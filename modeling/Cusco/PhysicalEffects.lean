import Cusco.DeviceEviction

/-!
What the loops inside the operations of the physical manager do: rewriting the
counts of a list of representations, starting transfers for a list, checking and
detaching the transfers of a transition, and collecting device blocks. Each loop
that returns leaves the manager as it was but for the tables it names.
-/

namespace Cusco.PhysicalEffects

open Calls Physical Physical.PhysicalManager DeviceEviction

theorem run_representation_bind {β : Type} (m : PhysicalManager) (k : PhysicalRepresentationId)
    (r : PhysicalRepresentation) (hk : m.representations.lookup k = some r)
    (f : PhysicalRepresentation → Operation β) :
    (representation k >>= f).run m = (f r).run m := by
  refine Call.run_bind_ok ?_ f
  unfold representation
  rw [Call.run_read_bind, hk]
  rfl

theorem of_representation_bind {β : Type} {m m' : PhysicalManager}
    {k : PhysicalRepresentationId} {f : PhysicalRepresentation → Operation β}
    {result : Except Error β} (h : (representation k >>= f).run m = .returns result m') :
    ∃ r, m.representations.lookup k = some r ∧ (f r).run m = .returns result m' := by
  cases hk : m.representations.lookup k with
  | some r =>
    rw [run_representation_bind m k r hk] at h
    exact ⟨r, rfl, h⟩
  | none =>
    have hpanic : (representation k).run m = .panics := by
      unfold representation
      rw [Call.run_read_bind, hk]
      rfl
    rw [Call.run_bind, hpanic] at h
    cases h

theorem identity_run (m : PhysicalManager) (h : m.nextId ≠ u64Max) :
    identity.run m = .returns (.ok m.nextId) { m with nextId := m.nextId + 1 } := by
  unfold identity
  simp only [if_neg h]

theorem of_identity_bind {β : Type} {m m' : PhysicalManager} {f : ℕ → Operation β}
    {result : Except Error β} (h : (identity >>= f).run m = .returns result m') :
    m.nextId ≠ u64Max ∧
      (f m.nextId).run { m with nextId := m.nextId + 1 } = .returns result m' := by
  by_cases hmax : m.nextId = u64Max
  · have hpanic : identity.run m = .panics := by
      unfold identity
      simp only [if_pos hmax]
    rw [Call.run_bind, hpanic] at h
    cases h
  · rw [Call.run_bind_ok (identity_run m hmax)] at h
    exact ⟨hmax, h⟩

/-- A representation with its counts rewritten. -/
def recount (f : ReferenceCounts → Option ReferenceCounts) (r : PhysicalRepresentation) :
    PhysicalRepresentation :=
  { r with references := (f r.references).getD r.references }

theorem adjustReference_run (f : ReferenceCounts → Option ReferenceCounts)
    (m : PhysicalManager) (k : PhysicalRepresentationId) (r : PhysicalRepresentation)
    (hk : m.representations.lookup k = some r) (c : ReferenceCounts)
    (hf : f r.references = some c) :
    (adjustReference f k).run m = .returns (.ok ()) (setRepresentation k (recount f r) m) := by
  unfold adjustReference
  rw [run_representation_bind m k r hk, hf, Call.run_unwrap_some_bind]
  unfold recount
  rw [hf]
  rfl

theorem adjustReferences_run (f : ReferenceCounts → Option ReferenceCounts)
    (m : PhysicalManager) (ids : List PhysicalRepresentationId) (hnodup : ids.Nodup)
    (hf : ∀ k ∈ ids, ∃ r c, m.representations.lookup k = some r ∧ f r.references = some c) :
    ∃ representations, (adjustReferences f ids).run m =
        .returns (.ok ()) { m with representations := representations } ∧
      AList.Rewrites m.representations representations
        (fun k r => if k ∈ ids then recount f r else r) := by
  induction ids generalizing m with
  | nil =>
    refine ⟨m.representations, rfl, (AList.Rewrites.refl _).congr ?_⟩
    intro k r _
    rw [if_neg List.not_mem_nil]
  | cons id rest ih =>
    obtain ⟨hid, hrest⟩ := List.nodup_cons.mp hnodup
    obtain ⟨r, c, hk, hc⟩ := hf id List.mem_cons_self
    have hhead := AList.Rewrites.of_insert m.representations id r (recount f r) hk
    obtain ⟨representations, hrun, hrewrites⟩ :=
      ih (setRepresentation id (recount f r) m) hrest (by
        intro k hmem
        obtain ⟨q, d, hq, hd⟩ := hf k (List.mem_cons_of_mem id hmem)
        have hne : k ≠ id := fun heq => hid (heq ▸ hmem)
        exact ⟨q, d, (AList.lookup_insert_ne hne).trans hq, hd⟩)
    refine ⟨representations, ?_, ?_⟩
    · unfold adjustReferences
      rw [Call.run_bind_ok (adjustReference_run f m id r hk c hc), hrun]
      rfl
    · refine (hhead.trans hrewrites).congr ?_
      intro k q hq
      by_cases hkid : k = id
      · subst hkid
        rw [hk] at hq
        cases hq
        simp [hid]
      · simp [hkid]

/-- Taking one reference back off a list of representations that hold it. -/
theorem activate_run (m : PhysicalManager) (ids : List PhysicalRepresentationId)
    (hnodup : ids.Nodup) (hids : ∀ k ∈ ids, ∃ r, m.representations.lookup k = some r) :
    ∃ representations, (activate ids).run m =
        .returns (.ok ()) { m with representations := representations } ∧
      AList.Rewrites m.representations representations (fun k r =>
        if k ∈ ids then
          { recount ReferenceCounts.addActive r with lastUsed := m.clock } else r) := by
  induction ids generalizing m with
  | nil =>
    refine ⟨m.representations, rfl, (AList.Rewrites.refl _).congr ?_⟩
    intro k r _
    rw [if_neg List.not_mem_nil]
  | cons id rest ih =>
    obtain ⟨hid, hrest⟩ := List.nodup_cons.mp hnodup
    obtain ⟨r, hk⟩ := hids id List.mem_cons_self
    let r' := { recount ReferenceCounts.addActive r with lastUsed := m.clock }
    let m' := setRepresentation id r' (setRepresentation id (recount ReferenceCounts.addActive r) m)
    have hlookup : ∀ k, m'.representations.lookup k =
        if k = id then some r' else m.representations.lookup k := by
      intro k
      change ((m.representations.insert id _).insert id r').lookup k = _
      rw [AList.lookup_insert_ite, AList.lookup_insert_ite]
      split <;> rfl
    have hhead : AList.Rewrites m.representations m'.representations
        (fun k q => if k = id then r' else q) := by
      intro k
      rw [hlookup]
      by_cases hkid : k = id
      · subst hkid
        simp [hk]
      · simp [hkid]
    obtain ⟨representations, hrun, hrewrites⟩ := ih m' hrest (by
      intro k hmem
      obtain ⟨q, hq⟩ := hids k (List.mem_cons_of_mem id hmem)
      have hne : k ≠ id := fun heq => hid (heq ▸ hmem)
      exact ⟨q, by rw [hlookup, if_neg hne, hq]⟩)
    refine ⟨representations, ?_, ?_⟩
    · unfold activate
      rw [Call.run_bind_ok (adjustReference_run ReferenceCounts.addActive m id r hk _ rfl),
        run_representation_bind _ id (recount ReferenceCounts.addActive r)
          (AList.lookup_insert m.representations), Call.run_update_bind]
      exact hrun
    · refine (hhead.trans hrewrites).congr ?_
      intro k q hq
      by_cases hkid : k = id
      · subst hkid
        rw [hk] at hq
        cases hq
        simp [hid, r']
      · have hclock : m'.clock = m.clock := rfl
        simp [hkid, hclock]

theorem checkTransfers_run (m : PhysicalManager) (ids : List TransferId)
    (hids : ∀ x ∈ ids, ∃ y, m.transfers.lookup x = some y) :
    ∃ result, (checkTransfers ids).run m = .returns result m ∧
      (result = .ok () ↔ ∀ x ∈ ids, ∀ y, m.transfers.lookup x = some y →
        y.completed = true ∧ y.success = true) := by
  induction ids with
  | nil => exact ⟨.ok (), rfl, by simp⟩
  | cons x rest ih =>
    obtain ⟨y, hy⟩ := hids x List.mem_cons_self
    obtain ⟨result, hrun, hiff⟩ := ih (fun x hx => hids x (List.mem_cons_of_mem _ hx))
    unfold checkTransfers
    rw [Call.run_read_bind, hy, Call.run_unwrap_some_bind]
    cases hcompleted : y.completed with
    | false =>
      refine ⟨.error .transferPending, rfl, ?_⟩
      constructor
      · intro h
        cases h
      · intro h
        have := (h x List.mem_cons_self y hy).1
        rw [hcompleted] at this
        cases this
    | true =>
      rw [Call.run_check_true_bind]
      cases hsuccess : y.success with
      | false =>
        refine ⟨.error .transferFailed, rfl, ?_⟩
        constructor
        · intro h
          cases h
        · intro h
          have := (h x List.mem_cons_self y hy).2
          rw [hsuccess] at this
          cases this
      | true =>
        rw [Call.run_check_true_bind, hrun]
        refine ⟨result, rfl, hiff.trans ?_⟩
        constructor
        · intro h z hz w hw
          rcases List.mem_cons.mp hz with rfl | hz
          · rw [hy] at hw
            cases hw
            exact ⟨hcompleted, hsuccess⟩
          · exact h z hz w hw
        · intro h z hz
          exact h z (List.mem_cons_of_mem _ hz)

theorem deviceBlocks_run (m : PhysicalManager) (e : Error) (ids : List PhysicalRepresentationId)
    (hids : ∀ k ∈ ids, ∃ r, m.representations.lookup k = some r) :
    ∃ result, (deviceBlocks e ids).run m = .returns result m ∧
      ((∃ blocks, result = .ok blocks) ↔ ∀ k ∈ ids, ∀ r, m.representations.lookup k = some r →
        r.device = true) := by
  induction ids with
  | nil => exact ⟨.ok [], rfl, by simp⟩
  | cons k rest ih =>
    obtain ⟨r, hk⟩ := hids k List.mem_cons_self
    obtain ⟨result, hrun, hiff⟩ := ih (fun k hk => hids k (List.mem_cons_of_mem _ hk))
    unfold deviceBlocks
    rw [run_representation_bind m k r hk]
    cases hdevice : r.device with
    | false =>
      refine ⟨.error e, rfl, ?_⟩
      constructor
      · rintro ⟨blocks, hblocks⟩
        cases hblocks
      · intro h
        have := h k List.mem_cons_self r hk
        rw [hdevice] at this
        cases this
    | true =>
      rw [Call.run_check_true_bind]
      have hall : (∀ j ∈ k :: rest, ∀ q, m.representations.lookup j = some q → q.device = true) ↔
          ∀ j ∈ rest, ∀ q, m.representations.lookup j = some q → q.device = true := by
        constructor
        · intro h j hj
          exact h j (List.mem_cons_of_mem _ hj)
        · intro h j hj q hq
          rcases List.mem_cons.mp hj with rfl | hj
          · rw [hk] at hq
            cases hq
            exact hdevice
          · exact h j hj q hq
      cases result with
      | error e' =>
        refine ⟨.error e', Call.run_bind_error hrun _, ?_⟩
        rw [hall, ← hiff]
      | ok blocks =>
        refine ⟨.ok (⟨k, r.component, r.bytes⟩ :: blocks), Call.run_bind_ok hrun _, ?_⟩
        rw [hall, ← hiff]
        exact iff_of_true ⟨_, rfl⟩ ⟨_, rfl⟩

/-- Off the device with a copy to promote. -/
def promotable (r : PhysicalRepresentation) : Bool := !r.device && (r.host || r.storage)

/-- Without a copy on any tier. -/
def copyless (r : PhysicalRepresentation) : Bool := !r.device && !(r.host || r.storage)

/-- The bytes of a representation that is off the device. -/
def absentBytes (r : PhysicalRepresentation) : ℕ := if r.device then 0 else r.bytes

theorem planMissing_run (m : PhysicalManager) (allowRecompute : Bool)
    (ids : List PhysicalRepresentationId)
    (hids : ∀ k ∈ ids, ∃ r, m.representations.lookup k = some r) (missing : ℕ)
    (recompute : Bool) :
    ∃ result, (planMissing allowRecompute ids missing recompute).run m = .returns result m ∧
      ∀ p, result = .ok p →
        p.1 = missing +
          (ids.map (fun k => (m.representations.lookup k).elim 0 absentBytes)).sum ∧
        (p.2 = true ↔ recompute = true ∨
          ∃ k ∈ ids, ∃ r, m.representations.lookup k = some r ∧ copyless r = true) := by
  induction ids generalizing missing recompute with
  | nil =>
    refine ⟨.ok (missing, recompute), rfl, ?_⟩
    intro p hp
    cases hp
    simp
  | cons k rest ih =>
    obtain ⟨r, hk⟩ := hids k List.mem_cons_self
    have hrest : ∀ j ∈ rest, ∃ q, m.representations.lookup j = some q :=
      fun j hj => hids j (List.mem_cons_of_mem _ hj)
    have hexists : (∃ j ∈ k :: rest, ∃ q, m.representations.lookup j = some q ∧
        copyless q = true) ↔ copyless r = true ∨
        ∃ j ∈ rest, ∃ q, m.representations.lookup j = some q ∧ copyless q = true := by
      constructor
      · rintro ⟨j, hj, q, hq, hcopyless⟩
        rcases List.mem_cons.mp hj with rfl | hj
        · rw [hk] at hq
          cases hq
          exact Or.inl hcopyless
        · exact Or.inr ⟨j, hj, q, hq, hcopyless⟩
      · rintro (hcopyless | ⟨j, hj, q, hq, hcopyless⟩)
        · exact ⟨k, List.mem_cons_self, r, hk, hcopyless⟩
        · exact ⟨j, List.mem_cons_of_mem _ hj, q, hq, hcopyless⟩
    unfold planMissing
    rw [run_representation_bind m k r hk]
    cases hdevice : r.device with
    | true =>
      obtain ⟨result, hrun, hresult⟩ := ih hrest missing recompute
      refine ⟨result, by rw [if_pos rfl]; exact hrun, ?_⟩
      intro p hp
      obtain ⟨hsum, hany⟩ := hresult p hp
      have hnot : copyless r = false := by simp [copyless, hdevice]
      refine ⟨?_, ?_⟩
      · rw [hsum, List.map_cons, List.sum_cons, hk, Option.elim_some, absentBytes, if_pos hdevice,
          Nat.zero_add]
      · rw [hany, hexists, hnot]
        simp
    | false =>
      rw [if_neg (by simp)]
      cases hsource : (r.host || r.storage || allowRecompute) with
      | false =>
        refine ⟨.error .noPromotionSource, by rw [Call.run_check_false_bind], ?_⟩
        intro p hp
        cases hp
      | true =>
        rw [Call.run_check_true_bind]
        unfold checkedAdd
        by_cases hfits : missing + r.bytes ≤ u64Max
        · rw [if_pos hfits, Call.run_require_some_bind]
          obtain ⟨result, hrun, hresult⟩ :=
            ih hrest (missing + r.bytes) (recompute || !(r.host || r.storage))
          refine ⟨result, hrun, ?_⟩
          intro p hp
          obtain ⟨hsum, hany⟩ := hresult p hp
          refine ⟨?_, ?_⟩
          · rw [hsum, List.map_cons, List.sum_cons, hk, Option.elim_some, absentBytes,
              if_neg (by simp [hdevice]), Nat.add_assoc]
          · rw [hany, hexists, Bool.or_eq_true, or_assoc]
            simp [copyless, hdevice]
        · rw [if_neg hfits, Call.run_require_none_bind]
          refine ⟨.error .deviceCapacity, rfl, ?_⟩
          intro p hp
          cases hp

/-- The representations to promote, with their bytes, in the order given. -/
def movesOf (representations : Representations) (ids : List PhysicalRepresentationId) :
    List (PhysicalRepresentationId × ℕ) :=
  ids.filterMap (fun k => (representations.lookup k).bind (fun r =>
    if promotable r then some (k, r.bytes) else none))

/-- The transfer table with one transfer started for each move. -/
def startTransfers (start : ℕ) : List (PhysicalRepresentationId × ℕ) →
    Table TransferId Transfer → Table TransferId Transfer
  | [], transfers => transfers
  | (k, bytes) :: rest, transfers =>
    startTransfers (start + 1) rest (transfers.insert ⟨start⟩ ⟨k, bytes, false, false, false⟩)

/-- A representation with one more reservation, and one more transfer if it is promoted. -/
def reserved (r : PhysicalRepresentation) : PhysicalRepresentation :=
  { r with references := { r.references with
    reservations := r.references.reservations + 1
    transfers := r.references.transfers + if promotable r then 1 else 0 } }

theorem movesOf_insert (representations : Representations) (k : PhysicalRepresentationId)
    (r : PhysicalRepresentation) (ids : List PhysicalRepresentationId) (hk : k ∉ ids) :
    movesOf (representations.insert k r) ids = movesOf representations ids := by
  unfold movesOf
  apply List.filterMap_congr
  intro j hj
  have hne : j ≠ k := fun heq => hk (heq ▸ hj)
  rw [AList.lookup_insert_ne hne]

theorem reserveRepresentations_run (m m' : PhysicalManager)
    (ids : List PhysicalRepresentationId) (hnodup : ids.Nodup)
    (result : Except Error (List TransferId))
    (h : (reserveRepresentations ids).run m = .returns result m') :
    ∃ representations,
      result = .ok ((List.range' m.nextId (movesOf m.representations ids).length).map
        TransferId.mk) ∧
      m' = { m with
        representations := representations
        nextId := m.nextId + (movesOf m.representations ids).length
        transfers := startTransfers m.nextId (movesOf m.representations ids) m.transfers } ∧
      AList.Rewrites m.representations representations
        (fun k r => if k ∈ ids then reserved r else r) := by
  induction ids generalizing m m' result with
  | nil =>
    cases h
    refine ⟨m.representations, rfl, rfl, (AList.Rewrites.refl _).congr ?_⟩
    intro k r _
    rw [if_neg List.not_mem_nil]
  | cons id rest ih =>
    obtain ⟨hid, hrest⟩ := List.nodup_cons.mp hnodup
    unfold reserveRepresentations at h
    obtain ⟨r, hk, h⟩ := of_representation_bind h
    rw [Call.run_bind_ok (adjustReference_run ReferenceCounts.addReservation m id r hk _ rfl)] at h
    change ((if promotable r = true then _ else _ : Operation (List TransferId))).run _ = _ at h
    cases hpromotable : promotable r with
    | false =>
      rw [hpromotable, if_neg (by simp)] at h
      obtain ⟨representations, hresult, hstate, hrewrites⟩ := ih _ _ hrest _ h
      have hmoves : movesOf m.representations (id :: rest) = movesOf m.representations rest := by
        unfold movesOf
        rw [List.filterMap_cons, hk, Option.bind_some, hpromotable, if_neg (by simp)]
      have hsame := movesOf_insert m.representations id
        (recount ReferenceCounts.addReservation r) rest hid
      refine ⟨representations, ?_, ?_, ?_⟩
      · rw [hresult, hmoves, ← hsame]
        rfl
      · rw [hstate, hmoves, ← hsame]
        rfl
      · refine ((AList.Rewrites.of_insert m.representations id r _ hk).trans hrewrites).congr ?_
        intro k q hq
        by_cases hkid : k = id
        · subst hkid
          rw [hk] at hq
          cases hq
          simp [hid, reserved, hpromotable, recount, ReferenceCounts.addReservation]
        · simp [hkid]
    | true =>
      rw [hpromotable, if_pos rfl] at h
      obtain ⟨_, h⟩ := of_identity_bind h
      have hk1 : (setRepresentation id (recount ReferenceCounts.addReservation r)
          m).representations.lookup id = some (recount ReferenceCounts.addReservation r) :=
        AList.lookup_insert m.representations
      have hadd := adjustReference_run ReferenceCounts.addTransfer
        { setRepresentation id (recount ReferenceCounts.addReservation r) m with
          nextId := (setRepresentation id (recount ReferenceCounts.addReservation r) m).nextId + 1 }
        id _ hk1 _ rfl
      rw [Call.run_bind_ok hadd, Call.run_update_bind] at h
      rcases Call.of_bind h with ⟨e, he, hr⟩ | ⟨transfers, m2, htransfers, h⟩
      · obtain ⟨_, hresult, _⟩ := ih _ _ hrest _ he
        cases hresult
      · cases h
        obtain ⟨representations, hresult, hstate, hrewrites⟩ := ih _ _ hrest _ htransfers
        have hmoves : movesOf m.representations (id :: rest) =
            (id, r.bytes) :: movesOf m.representations rest := by
          unfold movesOf
          rw [List.filterMap_cons, hk, Option.bind_some, hpromotable, if_pos rfl]
        have hsame : movesOf ((m.representations.insert id
            (recount ReferenceCounts.addReservation r)).insert id
            (recount ReferenceCounts.addTransfer (recount ReferenceCounts.addReservation r))) rest =
            movesOf m.representations rest := by
          rw [movesOf_insert _ _ _ _ hid, movesOf_insert _ _ _ _ hid]
        refine ⟨representations, ?_, ?_, ?_⟩
        · cases hresult
          rw [hmoves, ← hsame]
          simp only [List.length_cons, List.range'_succ, List.map_cons]
          rfl
        · rw [hstate, hmoves, List.length_cons,
            Nat.add_comm (movesOf m.representations rest).length 1, ← Nat.add_assoc, ← hsame]
          rfl
        · refine (((AList.Rewrites.of_insert m.representations id r _ hk).trans
            (AList.Rewrites.of_insert _ id _ (recount ReferenceCounts.addTransfer
              (recount ReferenceCounts.addReservation r)) hk1)).trans hrewrites).congr ?_
          intro k q hq
          by_cases hkid : k = id
          · subst hkid
            rw [hk] at hq
            cases hq
            simp [hid, reserved, hpromotable, recount, ReferenceCounts.addReservation,
              ReferenceCounts.addTransfer]
          · simp [hkid]

/-- What becomes of a transfer of an aborted transition. -/
def detached (y : Transfer) : Option Transfer :=
  if y.completed then none else some { y with detached := true }

theorem detachTransfers_run (m : PhysicalManager) (ids : List TransferId) (hnodup : ids.Nodup)
    (hids : ∀ x ∈ ids, ∃ y, m.transfers.lookup x = some y) :
    ∃ transfers, (detachTransfers ids).run m =
        .returns (.ok ()) { m with transfers := transfers } ∧
      ∀ x, transfers.lookup x =
        (m.transfers.lookup x).bind (fun y => if x ∈ ids then detached y else some y) := by
  induction ids generalizing m with
  | nil =>
    refine ⟨m.transfers, rfl, ?_⟩
    intro x
    cases m.transfers.lookup x <;> simp
  | cons id rest ih =>
    obtain ⟨hid, hrest⟩ := List.nodup_cons.mp hnodup
    obtain ⟨y, hy⟩ := hids id List.mem_cons_self
    have hstep : ∃ transfers, (detachTransfer id).run m =
          .returns (.ok ()) { m with transfers := transfers } ∧
        ∀ x, transfers.lookup x = if x = id then detached y else m.transfers.lookup x := by
      unfold detachTransfer
      rw [Call.run_read_bind, hy, Call.run_unwrap_some_bind]
      by_cases hcompleted : y.completed = true
      · refine ⟨m.transfers.erase id, by rw [if_pos hcompleted]; rfl, ?_⟩
        intro x
        rw [AList.lookup_erase_ite, detached, if_pos hcompleted]
      · refine ⟨m.transfers.insert id { y with detached := true },
          by rw [if_neg hcompleted]; rfl, ?_⟩
        intro x
        rw [AList.lookup_insert_ite, detached, if_neg hcompleted]
    obtain ⟨transfers, hrun, hlookup⟩ := hstep
    obtain ⟨transfers', hrun', hlookup'⟩ := ih { m with transfers := transfers } hrest (by
      intro x hx
      obtain ⟨w, hw⟩ := hids x (List.mem_cons_of_mem _ hx)
      have hne : x ≠ id := fun heq => hid (heq ▸ hx)
      exact ⟨w, by rw [hlookup, if_neg hne, hw]⟩)
    refine ⟨transfers', ?_, ?_⟩
    · unfold detachTransfers
      rw [Call.run_bind_ok hrun, hrun']
    · intro x
      rw [hlookup', hlookup]
      by_cases hx : x = id
      · subst hx
        rw [if_pos rfl, hy, Option.bind_some, if_pos List.mem_cons_self]
        cases detached y with
        | none => rfl
        | some w => rw [Option.bind_some, if_neg hid]
      · rw [if_neg hx]
        simp [hx]

theorem infallible_identity : Call.Infallible identity := by
  intro s t e h
  unfold identity at h
  simp only at h
  by_cases hmax : s.nextId = u64Max
  · rw [if_pos hmax] at h
    cases h
  · rw [if_neg hmax] at h
    cases h

theorem infallible_tick : Call.Infallible tick := by
  intro s t e h
  unfold tick at h
  simp only at h
  by_cases hmax : s.clock = u64Max
  · rw [if_pos hmax] at h
    cases h
  · rw [if_neg hmax] at h
    cases h

theorem infallible_representation (k : PhysicalRepresentationId) :
    Call.Infallible (representation k) :=
  Call.Infallible.read.bind (fun _ => Call.Infallible.unwrap _)

theorem infallible_adjustReference (f : ReferenceCounts → Option ReferenceCounts)
    (k : PhysicalRepresentationId) : Call.Infallible (adjustReference f k) := by
  refine (infallible_representation k).bind (fun r => ?_)
  exact (Call.Infallible.unwrap _).bind (fun _ => Call.Infallible.update _)

theorem infallible_adjustReferences (f : ReferenceCounts → Option ReferenceCounts)
    (ids : List PhysicalRepresentationId) : Call.Infallible (adjustReferences f ids) := by
  induction ids with
  | nil => exact Call.Infallible.pure ()
  | cons k rest ih => exact (infallible_adjustReference f k).bind (fun _ => ih)

theorem infallible_reserveRepresentations (ids : List PhysicalRepresentationId) :
    Call.Infallible (reserveRepresentations ids) := by
  induction ids with
  | nil => exact Call.Infallible.pure []
  | cons k rest ih =>
    refine (infallible_representation k).bind (fun r => ?_)
    refine (infallible_adjustReference _ k).bind (fun _ => ?_)
    refine Call.Infallible.ite ?_ ih
    refine infallible_identity.bind (fun transfer => ?_)
    refine (infallible_adjustReference _ k).bind (fun _ => ?_)
    exact (Call.Infallible.update _).bind (fun _ =>
      ih.bind (fun transfers => Call.Infallible.pure _))

theorem infallible_dropBinding (c : LogicalStore.LogicalContextId) :
    Call.Infallible (dropBinding c) := by
  refine Call.Infallible.read.bind (fun m => ?_)
  cases m.bindings.lookup c with
  | none => exact Call.Infallible.pure ()
  | some old =>
    exact (Call.Infallible.update _).bind (fun _ => infallible_adjustReferences _ _)

theorem infallible_detachTransfers (ids : List TransferId) :
    Call.Infallible (detachTransfers ids) := by
  induction ids with
  | nil => exact Call.Infallible.pure ()
  | cons x rest ih =>
    refine Call.Infallible.bind ?_ (fun _ => ih)
    refine Call.Infallible.read.bind (fun m => (Call.Infallible.unwrap _).bind (fun y => ?_))
    exact Call.Infallible.ite (Call.Infallible.update _) (Call.Infallible.update _)

theorem infallible_arrive (k : PhysicalRepresentationId) : Call.Infallible (arrive k) :=
  (infallible_representation k).bind (fun _ => Call.Infallible.update _)

end Cusco.PhysicalEffects
