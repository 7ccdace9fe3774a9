import Cusco.Admission
import Cusco.Runs

/-!
The account of admissions. The active count of the server is compared with the
guards that are active and the waiters that were promoted. Every section keeps
the two equal, except the drop of a guard whose ticket left the queue without a
message: the guard then gives back an admission that it never had.
-/

namespace Cusco.AdmissionAccounts

open Grants Admission Server Runs

variable {s : Server} {g : AdmissionGuard}

/-- An active guard has a grant and no ticket, a waiting one has a ticket, and one
that lost its ticket without becoming active has no grant. -/
structure Fit (g : AdmissionGuard) : Prop where
  active : g.active = true → g.grant.isSome ∧ g.ticket = none
  waiting : g.receiver = true → g.active = false ∧ g.ticket.isSome
  released : g.ticket = none → g.active = false → g.grant = none

/-- Every queue entry belongs to a guard without a message, and tickets belong to one
guard each. -/
structure Sound (queue : List QueueEntry) (nextTicket : ℕ)
    (guards : Table GuardId AdmissionGuard) (nextGuard : GuardId) : Prop where
  queued : ∀ e ∈ queue, ∃ g, guards.lookup e.ready = some g ∧ g.ticket = some e.ticket ∧
    g.grant = none
  nodup : (queue.map QueueEntry.ready).Nodup
  tickets : ∀ k k' g g' t, guards.lookup k = some g → guards.lookup k' = some g' →
    g.ticket = some t → g'.ticket = some t → k = k'
  ticket_lt : ∀ k g t, guards.lookup k = some g → g.ticket = some t → t < nextTicket
  guard_lt : ∀ k g, guards.lookup k = some g → k < nextGuard
  fit : ∀ k g, guards.lookup k = some g → Fit g

def SoundServer (s : Server) : Prop :=
  Sound s.inner.queue s.inner.nextTicket s.guards s.nextGuard

section Sound

variable {queue : List QueueEntry} {nextTicket : ℕ} {guards : Table GuardId AdmissionGuard}
  {nextGuard : GuardId}

theorem Sound.sublist (h : Sound queue nextTicket guards nextGuard) {rest : List QueueEntry}
    (hrest : rest.Sublist queue) : Sound rest nextTicket guards nextGuard :=
  ⟨fun e he => h.queued e (hrest.subset he), h.nodup.sublist (hrest.map _), h.tickets,
    h.ticket_lt, h.guard_lt, h.fit⟩

/-- A guard changes: it may lose its ticket, and its grant only while no entry waits with it. -/
theorem Sound.update (h : Sound queue nextTicket guards nextGuard) {k : GuardId}
    {g g' : AdmissionGuard} (hk : guards.lookup k = some g)
    (hticket : g'.ticket = g.ticket ∨ g'.ticket = none)
    (hqueue : (∀ e ∈ queue, e.ready ≠ k) ∨ (g'.ticket = g.ticket ∧ g'.grant = g.grant))
    (hfit : Fit g') : Sound queue nextTicket (guards.insert k g') nextGuard := by
  have hcases : ∀ c x, (guards.insert k g').lookup c = some x →
      (c = k ∧ x = g') ∨ guards.lookup c = some x := by
    intro c x hc
    rw [AList.lookup_insert_ite] at hc
    split at hc
    · rename_i heq
      exact Or.inl ⟨heq, (Option.some.inj hc).symm⟩
    · exact Or.inr hc
  have hold : ∀ c x t, (guards.insert k g').lookup c = some x → x.ticket = some t →
      ∃ y, guards.lookup c = some y ∧ y.ticket = some t := by
    intro c x t hc ht
    rcases hcases c x hc with ⟨rfl, rfl⟩ | hc
    · rcases hticket with heq | hnone
      · exact ⟨g, hk, heq ▸ ht⟩
      · rw [hnone] at ht
        cases ht
    · exact ⟨x, hc, ht⟩
  refine ⟨?_, h.nodup, ?_, ?_, ?_, ?_⟩
  · intro e he
    obtain ⟨x, hx, hxt, hxg⟩ := h.queued e he
    rw [AList.lookup_insert_ite]
    by_cases heq : e.ready = k
    · rcases hqueue with hfree | ⟨hsame, hgrant⟩
      · exact absurd heq (hfree e he)
      · rw [heq, hk] at hx
        cases hx
        exact ⟨g', if_pos heq, hsame ▸ hxt, hgrant ▸ hxg⟩
    · exact ⟨x, (if_neg heq).trans hx, hxt, hxg⟩
  · intro c c' x x' t hc hc' ht ht'
    obtain ⟨y, hy, hyt⟩ := hold c x t hc ht
    obtain ⟨y', hy', hyt'⟩ := hold c' x' t hc' ht'
    exact h.tickets c c' y y' t hy hy' hyt hyt'
  · intro c x t hc ht
    obtain ⟨y, hy, hyt⟩ := hold c x t hc ht
    exact h.ticket_lt c y t hy hyt
  · intro c x hc
    rcases hcases c x hc with ⟨rfl, _⟩ | hc
    · exact h.guard_lt c g hk
    · exact h.guard_lt c x hc
  · intro c x hc
    rcases hcases c x hc with ⟨_, rfl⟩ | hc
    · exact hfit
    · exact h.fit c x hc

theorem Sound.erase (h : Sound queue nextTicket guards nextGuard) {k : GuardId}
    (hfree : ∀ e ∈ queue, e.ready ≠ k) :
    Sound queue nextTicket (guards.erase k) nextGuard := by
  have hsub : ∀ c x, (guards.erase k).lookup c = some x → guards.lookup c = some x := by
    intro c x hc
    rw [AList.lookup_erase_ite] at hc
    split at hc
    · cases hc
    · exact hc
  refine ⟨?_, h.nodup, ?_, ?_, ?_, ?_⟩
  · intro e he
    obtain ⟨x, hx, hrest⟩ := h.queued e he
    refine ⟨x, ?_, hrest⟩
    rw [AList.lookup_erase_ite, if_neg (hfree e he), hx]
  · intro c c' x x' t hc hc'
    exact h.tickets c c' x x' t (hsub c x hc) (hsub c' x' hc')
  · intro c x t hc
    exact h.ticket_lt c x t (hsub c x hc)
  · intro c x hc
    exact h.guard_lt c x (hsub c x hc)
  · intro c x hc
    exact h.fit c x (hsub c x hc)

theorem Sound.fresh (h : Sound queue nextTicket guards nextGuard) :
    guards.lookup nextGuard = none := by
  cases hk : guards.lookup nextGuard with
  | none => rfl
  | some g =>
    exact absurd (h.guard_lt nextGuard g hk) (Nat.lt_irrefl nextGuard)

/-- A new guard, with the next ticket or with none. -/
theorem Sound.insert (h : Sound queue nextTicket guards nextGuard) {next : ℕ}
    (hnext : nextTicket ≤ next) (hticket : ∀ t, g.ticket = some t → t = nextTicket ∧ t < next)
    (hfit : Fit g) : Sound queue next (guards.insert nextGuard g) (nextGuard + 1) := by
  have hcases : ∀ c x, (guards.insert nextGuard g).lookup c = some x →
      (c = nextGuard ∧ x = g) ∨ guards.lookup c = some x := by
    intro c x hc
    rw [AList.lookup_insert_ite] at hc
    split at hc
    · rename_i heq
      exact Or.inl ⟨heq, (Option.some.inj hc).symm⟩
    · exact Or.inr hc
  refine ⟨?_, h.nodup, ?_, ?_, ?_, ?_⟩
  · intro e he
    obtain ⟨x, hx, hrest⟩ := h.queued e he
    refine ⟨x, ?_, hrest⟩
    have hne : e.ready ≠ nextGuard := Nat.ne_of_lt (h.guard_lt e.ready x hx)
    rw [AList.lookup_insert_ite, if_neg hne, hx]
  · intro c c' x x' t hc hc' ht ht'
    rcases hcases c x hc with ⟨hnew, rfl⟩ | hold
    · rcases hcases c' x' hc' with ⟨hnew', _⟩ | hold'
      · exact hnew.trans hnew'.symm
      · have heq := (hticket t ht).1
        have hlt := h.ticket_lt c' x' t hold' ht'
        omega
    · rcases hcases c' x' hc' with ⟨_, rfl⟩ | hold'
      · have heq := (hticket t ht').1
        have hlt := h.ticket_lt c x t hold ht
        omega
      · exact h.tickets c c' x x' t hold hold' ht ht'
  · intro c x t hc ht
    rcases hcases c x hc with ⟨_, rfl⟩ | hc
    · exact (hticket t ht).2
    · have := h.ticket_lt c x t hc ht
      omega
  · intro c x hc
    rcases hcases c x hc with ⟨rfl, _⟩ | hc
    · exact Nat.lt_succ_self _
    · exact Nat.lt_succ_of_lt (h.guard_lt c x hc)
  · intro c x hc
    rcases hcases c x hc with ⟨_, rfl⟩ | hc
    · exact hfit
    · exact h.fit c x hc

/-- A guard whose ticket is not queued has no entry, and neither has one without a ticket. -/
theorem Sound.not_queued (h : Sound queue nextTicket guards nextGuard) {k : GuardId}
    (hk : guards.lookup k = some g) (hticket : ∀ e ∈ queue, g.ticket ≠ some e.ticket) :
    ∀ e ∈ queue, e.ready ≠ k := by
  intro e he heq
  obtain ⟨x, hx, hxt, _⟩ := h.queued e he
  rw [heq, hk] at hx
  cases hx
  exact hticket e he hxt

theorem Sound.push (h : Sound queue nextTicket guards nextGuard) {e : QueueEntry}
    (hk : guards.lookup e.ready = some g) (hticket : g.ticket = some e.ticket)
    (hgrant : g.grant = none) (hnew : ∀ x ∈ queue, x.ready ≠ e.ready) :
    Sound (queue ++ [e]) nextTicket guards nextGuard := by
  refine ⟨?_, ?_, h.tickets, h.ticket_lt, h.guard_lt, h.fit⟩
  · intro x hx
    rcases List.mem_append.mp hx with hx | hx
    · exact h.queued x hx
    · rw [List.mem_singleton.mp hx]
      exact ⟨g, hk, hticket, hgrant⟩
  · rw [List.map_append, List.map_singleton, List.nodup_append]
    refine ⟨h.nodup, List.nodup_singleton _, ?_⟩
    intro a ha b hb heq
    obtain ⟨x, hx, rfl⟩ := List.mem_map.mp ha
    exact hnew x hx (heq.trans (List.mem_singleton.mp hb))

end Sound

/-- The guards that are active. -/
def executing (s : Server) : ℕ := s.guards.total (fun _ g => if g.active then 1 else 0)

/-- The promotions whose message was sent and whose guard is neither active nor dropped. -/
def promoted (s : Server) : ℕ :=
  s.guards.total (fun _ g => if !g.active && g.grant.isSome then 1 else 0)

/-- The count of active requests is the number of admissions granted and not released. -/
def Accounted (s : Server) : Prop := s.inner.active = executing s + promoted s

/-- No more requests execute than the limit in force when one of them was granted. -/
def WithinLimit (s : Server) : Prop :=
  executing s = 0 ∨ ∃ k g r, s.guards.lookup k = some g ∧ g.active = true ∧ g.grant = some r ∧
    executing s ≤ r.limit

abbrev granted (s : Server) : ℕ := held AdmissionGuard.grant s.guards

abbrev BoundedServer (s : Server) : Prop := Bounded AdmissionGuard.grant s.guards s.clock

theorem granted_eq (hs : SoundServer s) : executing s + promoted s = granted s := by
  unfold executing promoted granted held
  rw [← AList.total_add]
  apply AList.total_congr
  intro k g hk
  cases hactive : g.active with
  | false => simp
  | true => simp [((hs.fit k g hk).active hactive).1]

theorem withinLimit_of_bounded (hs : SoundServer s) (h : BoundedServer s) : WithinLimit s :=
  h.peak AdmissionGuard.active (fun k g hk hactive => ((hs.fit k g hk).active hactive).1)

/-- A section that changes the count by the grants it gives, each below the limit. -/
structure Carries (s t : Server) : Prop where
  sound : SoundServer t
  balance : t.inner.active + granted s = s.inner.active + granted t
  bounded : s.inner.active = granted s → BoundedServer s → BoundedServer t

theorem Carries.trans {s t u : Server} (hst : Carries s t) (htu : Carries t u) : Carries s u := by
  have hfirst := hst.balance
  have hsecond := htu.balance
  refine ⟨htu.sound, by omega, fun hactive hb => htu.bounded (by omega) (hst.bounded hactive hb)⟩

/-- A section that leaves the guards alone and at most shortens the queue. -/
theorem carries_of_same {s t : Server} (hs : SoundServer s)
    (hqueue : t.inner.queue.Sublist s.inner.queue)
    (hticket : t.inner.nextTicket = s.inner.nextTicket)
    (hguards : t.guards = s.guards) (hnext : s.nextGuard ≤ t.nextGuard) (hclock : t.clock = s.clock)
    (hactive : t.inner.active = s.inner.active) : Carries s t := by
  have hsound := hs.sublist hqueue
  refine ⟨?_, by rw [granted, granted, hguards, hactive], fun _ hb => ?_⟩
  · show Sound t.inner.queue t.inner.nextTicket t.guards t.nextGuard
    rw [hticket, hguards]
    exact ⟨hsound.queued, hsound.nodup, hsound.tickets, hsound.ticket_lt,
      fun k g hk => Nat.lt_of_lt_of_le (hsound.guard_lt k g hk) hnext, hsound.fit⟩
  · show Bounded AdmissionGuard.grant t.guards t.clock
    rw [hguards, hclock]
    exact hb

theorem Carries.refl (hs : SoundServer s) : Carries s s :=
  carries_of_same hs (List.Sublist.refl _) rfl rfl (Nat.le_refl _) rfl rfl

theorem carries_send {s t : Server} {k : GuardId} (hs : SoundServer s)
    (hfree : ∀ e ∈ s.inner.queue, e.ready ≠ k) (hlimit : s.inner.active < s.inner.admissionLimit)
    (hnone : ∀ g, s.guards.lookup k = some g → g.grant = none) (hsend : send k s = some t) :
    Carries s (addActive t) := by
  unfold send at hsend
  cases hk : s.guards.lookup k with
  | none =>
    rw [hk] at hsend
    cases hsend
  | some g =>
    rw [hk] at hsend
    dsimp only at hsend
    split at hsend
    · rename_i hreceiver
      cases hsend
      obtain ⟨hinactive, hticket⟩ := (hs.fit k g hk).waiting hreceiver
      have hheld : held AdmissionGuard.grant (s.guards.insert k
          { g with grant := some ⟨s.clock, s.inner.admissionLimit⟩ }) =
          held AdmissionGuard.grant s.guards + 1 := held_insert_grant hnone rfl
      have hfit : Fit { g with grant := some ⟨s.clock, s.inner.admissionLimit⟩ } := by
        constructor
        · intro h
          exact absurd (show g.active = true from h) (by simp [hinactive])
        · intro _
          exact ⟨hinactive, hticket⟩
        · intro h _
          exact absurd (show g.ticket = none from h) (Option.isSome_iff_ne_none.mp hticket)
      refine ⟨?_, ?_, ?_⟩
      · exact Sound.update hs hk (Or.inl rfl) (Or.inl hfree) hfit
      · exact (Nat.add_right_comm _ _ _).trans (congrArg (s.inner.active + ·) hheld).symm
      · intro hactive hb
        exact hb.insert_grant hnone rfl (lt_of_eq_of_lt hactive.symm hlimit)
    · cases hsend

theorem carries_promoteEntries (entries : List QueueEntry) (s : Server) (hs : SoundServer s)
    (hqueue : s.inner.queue = entries) : Carries s (promoteEntries entries s) := by
  induction entries generalizing s with
  | nil => exact Carries.refl hs
  | cons e rest ih =>
    unfold promoteEntries
    split
    · rename_i hlimit
      have hsublist : rest.Sublist s.inner.queue := hqueue ▸ List.sublist_cons_self e rest
      have hpop : Carries s (popFront e rest s) :=
        carries_of_same hs hsublist rfl rfl (Nat.le_refl _) rfl rfl
      have hmem : e ∈ s.inner.queue := hqueue ▸ List.mem_cons_self
      cases hsend : send e.ready (popFront e rest s) with
      | none => exact hpop.trans (ih _ hpop.sound rfl)
      | some t =>
        have hfree : ∀ x ∈ rest, x.ready ≠ e.ready := by
          have hnodup := hs.nodup
          rw [hqueue, List.map_cons, List.nodup_cons] at hnodup
          intro x hx heq
          exact hnodup.1 (heq ▸ List.mem_map_of_mem hx)
        have hnone : ∀ g, s.guards.lookup e.ready = some g → g.grant = none := by
          intro g hg
          obtain ⟨x, hx, _, hxg⟩ := hs.queued e hmem
          rw [hg] at hx
          cases hx
          exact hxg
        have hcarries := carries_send hpop.sound hfree hlimit hnone hsend
        have hrest : t.inner.queue = rest := by
          unfold send at hsend
          split at hsend
          · split at hsend
            · cases hsend
              rfl
            · cases hsend
          · cases hsend
        exact (hpop.trans hcarries).trans (ih _ hcarries.sound hrest)
    · exact Carries.refl hs

theorem carries_promoteQueued (hs : SoundServer s) : Carries s (promoteQueued s) :=
  carries_promoteEntries s.inner.queue s hs rfl

theorem carries_grantNow (hs : SoundServer s) (requestId : String)
    (hlimit : s.inner.active < s.inner.admissionLimit) : Carries s (grantNow requestId s) := by
  have hnew := hs.fresh
  have hnone : ∀ g, s.guards.lookup s.nextGuard = some g → g.grant = none := by
    intro g hg
    rw [hnew] at hg
    cases hg
  have hheld : held AdmissionGuard.grant (s.guards.insert s.nextGuard
      ⟨none, requestId, true, false, some ⟨s.clock, s.inner.admissionLimit⟩⟩) =
      held AdmissionGuard.grant s.guards + 1 := held_insert_grant hnone rfl
  have hfit : Fit ⟨none, requestId, true, false, some ⟨s.clock, s.inner.admissionLimit⟩⟩ :=
    ⟨fun _ => ⟨rfl, rfl⟩, fun h => (nomatch h), fun _ h => (nomatch h)⟩
  refine ⟨?_, ?_, ?_⟩
  · exact Sound.insert hs (Nat.le_refl _) (fun _ h => (nomatch h)) hfit
  · exact (Nat.add_right_comm _ _ _).trans (congrArg (s.inner.active + ·) hheld).symm
  · intro hactive hb
    exact hb.insert_grant hnone rfl (lt_of_eq_of_lt hactive.symm hlimit)

theorem carries_enqueue (hs : SoundServer s) (requestId : String) (bytes : ℕ) :
    Carries s (enqueue requestId bytes s) := by
  have hnew := hs.fresh
  have hfit : Fit ⟨some s.inner.nextTicket, requestId, false, true, none⟩ :=
    ⟨fun h => (nomatch h), fun _ => ⟨rfl, rfl⟩, fun h => (nomatch h)⟩
  have hheld : held AdmissionGuard.grant (s.guards.insert s.nextGuard
      ⟨some s.inner.nextTicket, requestId, false, true, none⟩) = granted s :=
    held_insert_none hnew rfl
  refine ⟨?_, ?_, ?_⟩
  · have hsound : Sound s.inner.queue (s.inner.nextTicket + 1) (s.guards.insert s.nextGuard
        ⟨some s.inner.nextTicket, requestId, false, true, none⟩) (s.nextGuard + 1) := by
      apply Sound.insert hs (Nat.le_succ _) _ hfit
      intro t ht
      cases ht
      exact ⟨rfl, Nat.lt_succ_self _⟩
    apply hsound.push (AList.lookup_insert _) rfl rfl
    intro x hx heq
    obtain ⟨g, hg, _⟩ := hs.queued x hx
    rw [heq, hnew] at hg
    cases hg
  · exact (congrArg (s.inner.active + ·) hheld).symm
  · intro _ hb
    exact hb.insert_none hnew rfl

theorem carries_insertControl (hs : SoundServer s) (requestId : String) :
    Carries s (insertControl requestId s) :=
  carries_of_same hs (List.Sublist.refl _) rfl rfl (Nat.le_refl _) rfl rfl

theorem carries_reserveAdmission (hs : SoundServer s) (requestId : String) (bytes : ℕ) :
    Carries s (s.reserveAdmission requestId bytes).2 := by
  have hinsert := carries_insertControl hs requestId
  unfold reserveAdmission
  split
  · exact carries_of_same hs (List.Sublist.refl _) rfl rfl (Nat.le_refl _) rfl rfl
  split
  · exact Carries.refl hs
  split
  · exact Carries.refl hs
  dsimp only
  split
  · rename_i hgrant
    exact hinsert.trans (carries_grantNow hinsert.sound requestId hgrant.1)
  split
  · exact carries_of_same hs (List.Sublist.refl _) rfl rfl (Nat.le_refl _) rfl rfl
  split
  · exact carries_of_same hs (List.Sublist.refl _) rfl rfl (Nat.le_succ _) rfl rfl
  · exact hinsert.trans (carries_enqueue hinsert.sound requestId bytes)

theorem carries_tryAdmit (hs : SoundServer s) (requestId : String) :
    Carries s (s.tryAdmit requestId).2 := by
  have hinsert := carries_insertControl hs requestId
  unfold tryAdmit
  split
  · exact carries_of_same hs (List.Sublist.refl _) rfl rfl (Nat.le_refl _) rfl rfl
  split
  · exact Carries.refl hs
  split
  · exact Carries.refl hs
  · rename_i hbusy
    have hlimit : s.inner.active < s.inner.admissionLimit := by omega
    exact hinsert.trans (carries_grantNow hinsert.sound requestId hlimit)

theorem carries_dequeue {s t : Server} (hs : SoundServer s) {p : QueueEntry → Bool}
    (h : dequeue p s = some t) : Carries s t := by
  unfold dequeue at h
  split at h
  · cases h
    exact carries_of_same hs List.eraseP_sublist rfl rfl (Nat.le_refl _) rfl rfl
  · cases h

theorem carries_cancelControl (hs : SoundServer s) (request : String) :
    Carries s (cancelControl request s) := by
  unfold cancelControl
  split
  · exact carries_of_same hs (List.Sublist.refl _) rfl rfl (Nat.le_refl _) rfl rfl
  · exact carries_of_same hs (List.Sublist.refl _) rfl rfl (Nat.le_refl _) rfl rfl

theorem carries_cancel (hs : SoundServer s) (request : String) : Carries s (s.cancel request) := by
  have hcontrol := carries_cancelControl hs request
  unfold Server.cancel
  dsimp only
  cases hdequeue : dequeue (fun entry => entry.requestId = request) (cancelControl request s) with
  | none => exact hcontrol.trans (carries_promoteQueued hcontrol.sound)
  | some t =>
    have hfirst := hcontrol.trans (carries_dequeue hcontrol.sound hdequeue)
    exact hfirst.trans (carries_promoteQueued hfirst.sound)

theorem carries_setAdmissionLimit (hs : SoundServer s) (limit : ℕ) :
    Carries s (s.setAdmissionLimit limit) := by
  have hlimit : Carries s { s with inner := { s.inner with
      admissionLimit := limit
      config := { s.inner.config with activeRequests := limit } } } :=
    carries_of_same hs (List.Sublist.refl _) rfl rfl (Nat.le_refl _) rfl rfl
  exact hlimit.trans (carries_promoteQueued hlimit.sound)

theorem carries_configure (hs : SoundServer s) (config : ServerConfig) :
    Carries s (s.configure config).2 := by
  unfold configure
  split
  · exact Carries.refl hs
  · have hconfig : Carries s { s with inner := { s.inner with
        admissionLimit := config.activeRequests
        config := config } } :=
      carries_of_same hs (List.Sublist.refl _) rfl rfl (Nat.le_refl _) rfl rfl
    exact hconfig.trans (carries_promoteQueued hconfig.sound)

theorem exists_controls_foldl (controls : List GuardId) (s : Server) :
    ∃ c, controls.foldl (fun t control => updateControl ControlState.cancel control t) s =
      { s with controls := c } := by
  induction controls generalizing s with
  | nil => exact ⟨s.controls, rfl⟩
  | cons head rest ih =>
    obtain ⟨c, hc⟩ := ih (updateControl ControlState.cancel head s)
    exact ⟨c, hc⟩

theorem carries_cancelRemaining (hs : SoundServer s) : Carries s s.cancelRemaining := by
  obtain ⟨c, hc⟩ := exists_controls_foldl s.inner.controls.values s
  unfold cancelRemaining
  rw [hc]
  exact carries_of_same hs (List.nil_sublist _) rfl rfl (Nat.le_refl _) rfl rfl

/-- A guard changes without its grant. -/
theorem carries_setGuard (hs : SoundServer s) {k : GuardId} {g g' : AdmissionGuard}
    (hk : s.guards.lookup k = some g) (hgrant : g'.grant = g.grant)
    (hticket : g'.ticket = g.ticket ∨ (g'.ticket = none ∧ ∀ e ∈ s.inner.queue, e.ready ≠ k))
    (hfit : Fit g') : Carries s (setGuard k g' s) := by
  refine ⟨?_, ?_, ?_⟩
  · rcases hticket with hsame | ⟨hnone, hfree⟩
    · exact Sound.update hs hk (Or.inl hsame) (Or.inr ⟨hsame, hgrant⟩) hfit
    · exact Sound.update hs hk (Or.inr hnone) (Or.inl hfree) hfit
  · exact (congrArg (s.inner.active + ·) (held_insert_same hk hgrant)).symm
  · intro _ hb
    exact hb.insert_same hk hgrant

theorem Fit.close (h : Fit g) : Fit { g with receiver := false } :=
  ⟨h.active, fun h => (nomatch h), h.released⟩

theorem carries_closeReceiver (hs : SoundServer s) (k : GuardId) :
    Carries s (s.closeReceiver k) := by
  unfold closeReceiver
  split
  · rename_i g hk
    split
    · exact carries_setGuard hs hk rfl (Or.inl rfl) (hs.fit k g hk).close
    · exact Carries.refl hs
  · exact Carries.refl hs

theorem carries_updateControl (hs : SoundServer s) (f : ControlState → ControlState) (k : GuardId) :
    Carries s (updateControl f k s) :=
  carries_of_same hs (List.Sublist.refl _) rfl rfl (Nat.le_refl _) rfl rfl

theorem carries_timeOut (hs : SoundServer s) (k : GuardId) : Carries s (s.timeOut k) := by
  have hclose := carries_closeReceiver hs k
  unfold timeOut
  split
  · split
    · exact hclose.trans (carries_updateControl hclose.sound _ k)
    · exact Carries.refl hs
  · exact Carries.refl hs

theorem carries_resume (hs : SoundServer s) (k : GuardId) : Carries s (s.resume k) := by
  unfold resume
  split
  swap
  · exact Carries.refl hs
  rename_i g hk
  split
  swap
  · exact Carries.refl hs
  rename_i hreceiver
  obtain ⟨hinactive, hticket⟩ := (hs.fit k g hk).waiting hreceiver
  split
  · rename_i hgrant
    have hfree : ∀ e ∈ s.inner.queue, e.ready ≠ k := by
      intro e he heq
      obtain ⟨x, hx, _, hxg⟩ := hs.queued e he
      rw [heq, hk] at hx
      cases hx
      rw [hxg] at hgrant
      cases hgrant
    split
    · refine carries_setGuard hs hk ?_ (Or.inr ⟨?_, hfree⟩) ?_
      · rfl
      · rfl
      · exact ⟨fun _ => ⟨hgrant, rfl⟩, fun h => (nomatch h), fun _ h => (nomatch h)⟩
    · exact carries_setGuard hs hk rfl (Or.inl rfl) (hs.fit k g hk).close
  · rename_i hgrant
    split
    · rename_i hdropped
      have hfree : ∀ e ∈ s.inner.queue, e.ready ≠ k := by
        intro e he
        simpa using List.all_eq_true.mp hdropped e he
      refine carries_setGuard hs hk ?_ (Or.inr ⟨?_, hfree⟩) ?_
      · rfl
      · rfl
      · refine ⟨fun h => ?_, fun h => (nomatch h), fun _ _ => by simpa using hgrant⟩
        exact absurd (show g.active = true from h) (by simp [hinactive])
    · exact Carries.refl hs

/-- When the drop of a guard settles the account: its ticket, if it waits with one, is
queued or was promoted, or there is no count to take from. -/
def Settles (s : Server) (k : GuardId) : Prop :=
  ∀ g t, s.guards.lookup k = some g → g.receiver = false → g.active = false →
    g.ticket = some t → (∃ e ∈ s.inner.queue, e.ticket = t) ∨ g.grant.isSome ∨ s.inner.active = 0

theorem removeControl_eq (requestId : String) (s : Server) :
    ∃ c m, removeControl requestId s =
      { s with inner := { s.inner with controls := m }, controls := c } := by
  unfold removeControl
  split
  · exact ⟨_, _, rfl⟩
  · exact ⟨s.controls, s.inner.controls, rfl⟩

theorem granted_erase {k : GuardId} (hk : s.guards.lookup k = some g) :
    granted s = (if g.grant.isSome then 1 else 0) + held AdmissionGuard.grant (s.guards.erase k) :=
  AList.total_erase _ s.guards k g hk

/-- What dropping a guard leaves before the queue is promoted. -/
structure Dropped (s : Server) (k : GuardId) (g : AdmissionGuard) (u : Server) : Prop where
  sound : SoundServer u
  guards : u.guards = s.guards.erase k
  clock : u.clock = s.clock

section Queue

variable {k : GuardId} {t : ℕ}

/-- The entry with a guard's ticket is the guard's own. -/
theorem ready_of_ticket (hs : SoundServer s) (hk : s.guards.lookup k = some g)
    (hticket : g.ticket = some t) {e : QueueEntry} (he : e ∈ s.inner.queue) (hte : e.ticket = t) :
    e.ready = k := by
  obtain ⟨x, hx, hxt, _⟩ := hs.queued e he
  exact hs.tickets e.ready k x g t hx hk (hte ▸ hxt) hticket

theorem found_entry (hs : SoundServer s) (hk : s.guards.lookup k = some g)
    (hticket : g.ticket = some t) {e : QueueEntry}
    (hfind : s.inner.queue.find? (fun entry => entry.ticket = t) = some e) :
    e ∈ s.inner.queue ∧ e.ticket = t ∧ e.ready = k := by
  have hmem := List.mem_of_find?_eq_some hfind
  have hte : e.ticket = t := by simpa using List.find?_some hfind
  exact ⟨hmem, hte, ready_of_ticket hs hk hticket hmem hte⟩

theorem free_of_eraseP (hs : SoundServer s) (hk : s.guards.lookup k = some g)
    (hticket : g.ticket = some t) :
    ∀ e ∈ s.inner.queue.eraseP (fun entry => entry.ticket = t), e.ready ≠ k := by
  by_cases hany : ∃ a ∈ s.inner.queue, a.ticket = t
  · obtain ⟨a, ha, hta⟩ := hany
    obtain ⟨b, front, back, _, hb, hsplit, herase⟩ :=
      List.exists_of_eraseP (p := fun entry : QueueEntry => decide (entry.ticket = t)) ha (by simpa)
    have hbk : b.ready = k := by
      apply ready_of_ticket hs hk hticket _ (by simpa using hb)
      rw [hsplit]
      simp
    have hnodup := hs.nodup
    rw [hsplit, List.map_append, List.map_cons, List.nodup_middle, List.nodup_cons] at hnodup
    intro e he heq
    rw [herase] at he
    apply hnodup.1
    rw [← List.map_append, hbk, ← heq]
    exact List.mem_map_of_mem he
  · intro e he
    have hmem := List.eraseP_subset he
    apply hs.not_queued hk _ e hmem
    intro x hx heq
    rw [hticket] at heq
    exact hany ⟨x, hx, (Option.some.inj heq).symm⟩

theorem settle_found {e : QueueEntry}
    (hfind : s.inner.queue.find? (fun entry => entry.ticket = t) = some e) :
    settle (some t) false s = { s with inner := { s.inner with
      queue := s.inner.queue.eraseP (fun entry => entry.ticket = t)
      queuedBytes := s.inner.queuedBytes - e.bytes } } := by
  simp [settle, dequeue, hfind]

theorem settle_missing
    (hfind : s.inner.queue.find? (fun entry => entry.ticket = t) = none) :
    settle (some t) false s = subActive s := by
  simp [settle, dequeue, hfind]

end Queue

/-- The section of a drop before the queue is promoted. -/
def released (s : Server) (k : GuardId) (g : AdmissionGuard) : Server :=
  settle g.ticket g.active (removeControl g.requestId { s with guards := s.guards.erase k })

theorem dropGuard_eq {k : GuardId} (hk : s.guards.lookup k = some g)
    (hreceiver : g.receiver = false) : s.dropGuard k = promoteQueued (released s k g) := by
  unfold dropGuard
  rw [hk]
  dsimp only
  rw [if_neg (by simp [hreceiver])]
  rfl

/-- The account after a drop balances exactly when the drop settles. -/
theorem released_cases (hs : SoundServer s) {k : GuardId} (hk : s.guards.lookup k = some g)
    (hreceiver : g.receiver = false) :
    Dropped s k g (released s k g) ∧
      (s.inner.active = granted s →
        ((released s k g).inner.active = granted (released s k g) ↔ Settles s k)) := by
  obtain ⟨c, m, hremove⟩ := removeControl_eq g.requestId { s with guards := s.guards.erase k }
  unfold released
  rw [hremove]
  have hfit := hs.fit k g hk
  have hgranted := granted_erase hk
  have hsettles : ∀ t, g.active = false → g.ticket = some t → (Settles s k ↔
      (∃ e ∈ s.inner.queue, e.ticket = t) ∨ g.grant.isSome ∨ s.inner.active = 0) := by
    intro t hactive hticket
    constructor
    · intro h
      exact h g t hk hreceiver hactive hticket
    · intro h g' t' hk' _ _ hticket'
      rw [hk] at hk'
      cases hk'
      rw [hticket] at hticket'
      cases hticket'
      exact h
  cases hactive : g.active with
  | true =>
    obtain ⟨hgrant, hticket⟩ := hfit.active hactive
    have hfree := hs.not_queued hk (by simp [hticket])
    refine ⟨⟨?_, rfl, rfl⟩, fun hcount => ?_⟩
    · exact Sound.erase hs hfree
    · show s.inner.active - 1 = held _ (s.guards.erase k) ↔ _
      rw [if_pos hgrant] at hgranted
      constructor
      · intro _ g' t hk' _ hactive' _
        rw [hk] at hk'
        cases hk'
        rw [hactive] at hactive'
        cases hactive'
      · intro _
        omega
  | false =>
    cases hticket : g.ticket with
    | none =>
      have hgrant := hfit.released hticket hactive
      have hfree := hs.not_queued hk (by simp [hticket])
      refine ⟨⟨?_, rfl, rfl⟩, fun hcount => ?_⟩
      · exact Sound.erase hs hfree
      · show s.inner.active = held _ (s.guards.erase k) ↔ _
        rw [hgrant] at hgranted
        constructor
        · intro _ g' t hk' _ _ hticket'
          rw [hk] at hk'
          cases hk'
          rw [hticket] at hticket'
          cases hticket'
        · intro _
          simpa using hcount.trans hgranted
    | some t =>
      rw [hsettles t hactive hticket]
      cases hfind : s.inner.queue.find? (fun entry => entry.ticket = t) with
      | some e =>
        obtain ⟨hmem, hte, hready⟩ := found_entry hs hk hticket hfind
        have hgrant : g.grant = none := by
          obtain ⟨x, hx, _, hxg⟩ := hs.queued e hmem
          rw [hready, hk] at hx
          cases hx
          exact hxg
        rw [settle_found (e := e) (by exact hfind)]
        refine ⟨⟨?_, rfl, rfl⟩, fun hcount => ?_⟩
        · exact Sound.erase (hs.sublist List.eraseP_sublist) (free_of_eraseP hs hk hticket)
        · show s.inner.active = held _ (s.guards.erase k) ↔ _
          rw [hgrant] at hgranted
          exact ⟨fun _ => Or.inl ⟨e, hmem, hte⟩, fun _ => by simpa using hcount.trans hgranted⟩
      | none =>
        have hnone : ∀ e ∈ s.inner.queue, e.ticket ≠ t := by
          intro e he
          simpa using List.find?_eq_none.mp hfind e he
        have hfree : ∀ e ∈ s.inner.queue, e.ready ≠ k := by
          apply hs.not_queued hk
          intro e he heq
          rw [hticket] at heq
          exact hnone e he (Option.some.inj heq).symm
        rw [settle_missing (by exact hfind)]
        refine ⟨⟨Sound.erase hs hfree, rfl, rfl⟩, fun hcount => ?_⟩
        show s.inner.active - 1 = held _ (s.guards.erase k) ↔ _
        cases hgrant : g.grant with
        | some r =>
          rw [hgrant, Option.isSome_some, if_pos rfl] at hgranted
          exact ⟨fun _ => Or.inr (Or.inl rfl), fun _ => by omega⟩
        | none =>
          rw [hgrant] at hgranted
          have hsame : s.inner.active = held AdmissionGuard.grant (s.guards.erase k) := by
            simpa using hcount.trans hgranted
          constructor
          · intro h
            exact Or.inr (Or.inr (by omega))
          · intro h
            rcases h with ⟨e, he, hte⟩ | h | h
            · exact absurd hte (hnone e he)
            · cases h
            · omega

/-- What a drop of a guard leaves before the queue is promoted. -/
theorem dropGuard_cases (hs : SoundServer s) {k : GuardId} (hk : s.guards.lookup k = some g)
    (hreceiver : g.receiver = false) :
    ∃ u, s.dropGuard k = promoteQueued u ∧ Dropped s k g u ∧
      (s.inner.active = granted s → (u.inner.active = granted u ↔ Settles s k)) :=
  ⟨released s k g, dropGuard_eq hk hreceiver, released_cases hs hk hreceiver⟩

structure Balanced (s : Server) : Prop where
  sound : SoundServer s
  count : s.inner.active = granted s
  bounded : BoundedServer s

theorem Balanced.carry {s t : Server} (hs : Balanced s) (h : Carries s t) : Balanced t := by
  have hbalance := h.balance
  have hcount := hs.count
  exact ⟨h.sound, by omega, h.bounded hs.count hs.bounded⟩

theorem accounted_iff (hs : SoundServer s) : Accounted s ↔ s.inner.active = granted s := by
  unfold Accounted
  rw [granted_eq hs]

/-- The drops of a run settle the account. -/
def SettlesDrops (s : Server) : Action → Prop
  | .dropGuard k => Settles s k
  | _ => True

theorem balanced_new (config : ServerConfig) : Balanced (Server.new config) := by
  have hempty : ∀ (k : GuardId) (g : AdmissionGuard),
      (∅ : Table GuardId AdmissionGuard).lookup k ≠ some g := fun _ _ h => (nomatch h)
  refine ⟨⟨fun _ h => (nomatch h), List.nodup_nil, ?_, ?_, ?_, ?_⟩, rfl, Bounded.empty 0⟩
  · intro k _ g _ _ hk
    exact absurd hk (hempty k g)
  · intro k g _ hk
    exact absurd hk (hempty k g)
  · intro k g hk
    exact absurd hk (hempty k g)
  · intro k g hk
    exact absurd hk (hempty k g)

theorem carries_of_step (hs : SoundServer s) (a : Action) (ha : ∀ k, a ≠ .dropGuard k) :
    Carries s (perform s a) := by
  cases a with
  | reserveAdmission requestId bytes => exact carries_reserveAdmission hs requestId bytes
  | tryAdmit requestId => exact carries_tryAdmit hs requestId
  | cancel request => exact carries_cancel hs request
  | setAdmissionLimit limit => exact carries_setAdmissionLimit hs limit
  | configure config => exact carries_configure hs config
  | beginShutdown =>
    exact carries_of_same hs (List.Sublist.refl _) rfl rfl (Nat.le_refl _) rfl rfl
  | cancelRemaining => exact carries_cancelRemaining hs
  | resume k => exact carries_resume hs k
  | timeOut k => exact carries_timeOut hs k
  | dropFuture k => exact carries_closeReceiver hs k
  | dropGuard k => exact absurd rfl (ha k)
  | cancelControl k => exact carries_updateControl hs _ k
  | expireControl k => exact carries_updateControl hs _ k

/-- Without a guard, or while a future waits with it, there is nothing to drop. -/
theorem dropGuard_cases_idle (s : Server) (k : GuardId) :
    (s.dropGuard k = s ∧ Settles s k) ∨
      ∃ g, s.guards.lookup k = some g ∧ g.receiver = false := by
  cases hk : s.guards.lookup k with
  | none =>
    refine Or.inl ⟨by unfold dropGuard; rw [hk], ?_⟩
    intro g _ hg
    rw [hk] at hg
    cases hg
  | some g =>
    cases hreceiver : g.receiver with
    | false => exact Or.inr ⟨g, rfl, hreceiver⟩
    | true =>
      refine Or.inl ⟨?_, ?_⟩
      · unfold dropGuard
        rw [hk]
        exact if_pos hreceiver
      · intro x _ hx hr
        rw [hk] at hx
        cases hx
        rw [hreceiver] at hr
        cases hr

/-- A drop keeps the account exactly when it settles. -/
theorem drop_iff (hs : Balanced s) (k : GuardId) :
    (s.dropGuard k).inner.active = granted (s.dropGuard k) ↔ Settles s k := by
  rcases dropGuard_cases_idle s k with ⟨hsame, hsettles⟩ | ⟨g, hk, hreceiver⟩
  · rw [hsame]
    exact ⟨fun _ => hsettles, fun _ => hs.count⟩
  · obtain ⟨u, hdrop, hdropped, hiff⟩ := dropGuard_cases hs.sound hk hreceiver
    have hbalance := (carries_promoteQueued hdropped.sound).balance
    rw [hdrop, ← hiff hs.count]
    constructor
    · intro h
      omega
    · intro h
      omega

theorem sound_dropGuard (hs : SoundServer s) (k : GuardId) : SoundServer (s.dropGuard k) := by
  rcases dropGuard_cases_idle s k with ⟨hsame, _⟩ | ⟨g, hk, hreceiver⟩
  · rw [hsame]
    exact hs
  · obtain ⟨u, hdrop, hdropped, _⟩ := dropGuard_cases hs hk hreceiver
    rw [hdrop]
    exact (carries_promoteQueued hdropped.sound).sound

theorem soundServer_step {s t : Server} {a : Action} (hs : SoundServer s) (hstep : Step s a t) :
    SoundServer t := by
  subst hstep
  by_cases ha : ∃ k, a = .dropGuard k
  · obtain ⟨k, rfl⟩ := ha
    exact sound_dropGuard hs k
  · exact (carries_of_step hs a (fun k h => ha ⟨k, h⟩)).sound

theorem balanced_dropGuard (hs : Balanced s) (k : GuardId) (hsettles : Settles s k) :
    Balanced (s.dropGuard k) := by
  refine ⟨sound_dropGuard hs.sound k, (drop_iff hs k).mpr hsettles, ?_⟩
  rcases dropGuard_cases_idle s k with ⟨hsame, _⟩ | ⟨g, hk, hreceiver⟩
  · rw [hsame]
    exact hs.bounded
  · obtain ⟨u, hdrop, hdropped, hiff⟩ := dropGuard_cases hs.sound hk hreceiver
    rw [hdrop]
    apply (carries_promoteQueued hdropped.sound).bounded ((hiff hs.count).mpr hsettles)
    show Bounded AdmissionGuard.grant u.guards u.clock
    rw [hdropped.guards, hdropped.clock]
    exact hs.bounded.erase k

theorem step_iff {s t : Server} {a : Action} (hs : Balanced s) (hstep : Step s a t) :
    (Accounted t ∧ WithinLimit t) ↔ SettlesDrops s a := by
  subst hstep
  have hcarried : Balanced (perform s a) →
      (Accounted (perform s a) ∧ WithinLimit (perform s a)) := fun h =>
    ⟨(accounted_iff h.sound).mpr h.count, withinLimit_of_bounded h.sound h.bounded⟩
  by_cases ha : ∃ k, a = .dropGuard k
  · obtain ⟨k, rfl⟩ := ha
    constructor
    · intro h
      exact (drop_iff hs k).mp ((accounted_iff (sound_dropGuard hs.sound k)).mp h.1)
    · intro h
      exact hcarried (balanced_dropGuard hs k h)
  · have hother : ∀ k, a ≠ .dropGuard k := fun k h => ha ⟨k, h⟩
    have hcarries := carries_of_step hs.sound a hother
    refine ⟨fun _ => ?_, fun _ => hcarried (hs.carry hcarries)⟩
    cases a with
    | dropGuard k => exact absurd rfl (hother k)
    | _ => trivial

theorem balanced_of_step {s t : Server} {a : Action} (hs : Balanced s) (hstep : Step s a t)
    (hsettles : SettlesDrops s a) : Balanced t := by
  subst hstep
  by_cases ha : ∃ k, a = .dropGuard k
  · obtain ⟨k, rfl⟩ := ha
    exact balanced_dropGuard hs k hsettles
  · exact hs.carry (carries_of_step hs.sound a fun k h => ha ⟨k, h⟩)

/-- In every interleaving from a new server, the active count is the number of
admissions granted and not released, and no more requests execute than a limit in
force when one of them was granted, exactly when every drop of a guard settles. -/
theorem accounting_iff (config : ServerConfig) (run : List (Action × Server))
    (hrun : IsRun Step (Server.new config) run) :
    (∀ x ∈ run, Accounted x.2 ∧ WithinLimit x.2) ↔
      Meets SettlesDrops (Server.new config) run := by
  rw [← along_states_iff (fun t => Accounted t ∧ WithinLimit t) (Server.new config) run]
  exact along_steps_iff_meets Step Balanced (fun _ _ t => Accounted t ∧ WithinLimit t) SettlesDrops
    (fun _ _ _ => step_iff) (fun _ _ _ => balanced_of_step) (Server.new config) run
    (balanced_new config) hrun

def oneAtATime : ServerConfig :=
  ⟨1, 32, 1024, 1024, 16, 256, 1024, 1000, 1000, 1000, 8, 1000, true, 1, 1, 1, 1⟩

/-- A waiter is promoted when the request before it ends, and executes. -/
def promotedWaiter : List (Action × Server) :=
  follow perform (Server.new oneAtATime) [.reserveAdmission "a" 1, .reserveAdmission "b" 1,
    .dropGuard 0, .resume 1, .dropGuard 1]

theorem promotion_is_accounted :
    IsRun Step (Server.new oneAtATime) promotedWaiter ∧
      ∀ x ∈ promotedWaiter, Accounted x.2 ∧ WithinLimit x.2 := by
  refine ⟨isRun_follow _ _ _, (accounting_iff oneAtATime _ (isRun_follow _ _ _)).mpr ?_⟩
  refine ⟨trivial, trivial, ?_, trivial, ?_, trivial⟩
  · intro g t hk _ hactive
    cases hk
    cases hactive
  · intro g t hk _ hactive
    cases hk
    cases hactive

/-- A queued request is cancelled, and its waiting future is dropped before it resumes. -/
def cancelledWaiter : List (Action × Server) :=
  follow perform (Server.new oneAtATime)
    [.reserveAdmission "a" 1, .reserveAdmission "b" 1, .cancel "b",
    .dropFuture 1, .dropGuard 1, .tryAdmit "c"]

/-- The dropped guard gives back the admission of the request that executes, so that
the next one is granted beyond the limit. -/
theorem cancelled_waiter_frees_a_slot :
    IsRun Step (Server.new oneAtATime) cancelledWaiter ∧
      ¬ (∀ x ∈ cancelledWaiter, Accounted x.2 ∧ WithinLimit x.2) ∧
      (last (Server.new oneAtATime) cancelledWaiter).inner.active = 1 ∧
      executing (last (Server.new oneAtATime) cancelledWaiter) = 2 := by
  refine ⟨isRun_follow _ _ _, ?_, by decide, by decide⟩
  intro h
  have hlast := (h _ (List.mem_of_getLast? (show cancelledWaiter.getLast? = some _ from rfl))).1
  exact absurd hlast (by unfold Accounted; decide)

end Cusco.AdmissionAccounts
