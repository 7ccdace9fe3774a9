import Cusco.AdmissionAccounts

/-!
The queue of admissions. Entries are pushed behind the others and promoted from the front,
taken from the middle by a cancellation or a dropped guard, and every section that frees
capacity ends with the promotions it allows. So tickets stay in order, promotions follow
them, nobody overtakes the queue, no capacity stays idle while somebody waits, and the
bytes of the queue are exact.
-/

namespace Cusco.AdmissionQueue

open Grants Admission Server AdmissionAccounts Runs

variable {s : Server}

def bytesOf (queue : List QueueEntry) : ℕ := (queue.map QueueEntry.bytes).sum

/-- What holds of the queue between the sections. -/
structure Disciplined (s : Server) : Prop where
  bytes : s.inner.queuedBytes = bytesOf s.inner.queue
  busy : s.inner.queue ≠ [] → s.inner.admissionLimit ≤ s.inner.active
  ordered : s.inner.queue.Pairwise (fun e x => e.ticket < x.ticket)

/-- The guard got its grant in a step. -/
def Granted (s : Server) (k : GuardId) (r : Grant) (t : Server) : Prop :=
  (∃ g, t.guards.lookup k = some g ∧ g.grant = some r) ∧
    ∀ g, s.guards.lookup k = some g → g.grant = none

/-- An entry of the queue was promoted in a step. -/
def Promoted (s : Server) (e : QueueEntry) (r : Grant) (t : Server) : Prop :=
  e ∈ s.inner.queue ∧ Granted s e.ready r t

/-- A step serves the queue in its order. -/
structure Fifo (s t : Server) : Prop where
  newcomers : s.inner.queue ≠ [] → ∀ k r, s.guards.lookup k = none → ¬Granted s k r t
  inOrder : ∀ e r, Promoted s e r t → ∀ x ∈ t.inner.queue, e.ticket < x.ticket
  stamps : ∀ e e' r r', Promoted s e r t → Promoted s e' r' t → e.ticket < e'.ticket →
    r.stamp < r'.stamp
  arrivals : ∀ x ∈ t.inner.queue, x ∉ s.inner.queue →
    s.inner.nextTicket ≤ x.ticket ∧ ∀ e ∈ s.inner.queue, e.ticket < x.ticket
  tickets : s.inner.nextTicket ≤ t.inner.nextTicket

/-- Entries were taken from the front, and granted as long as their receivers were there. -/
structure Promotes (s : Server) (popped : List QueueEntry) (t : Server) : Prop where
  queue : s.inner.queue = popped ++ t.inner.queue
  nextTicket : t.inner.nextTicket = s.inner.nextTicket
  busy : t.inner.queue ≠ [] → t.inner.admissionLimit ≤ t.inner.active
  bytes : s.inner.queuedBytes = bytesOf s.inner.queue →
    t.inner.queuedBytes = bytesOf t.inner.queue
  frame : ∀ k, (∀ e ∈ popped, e.ready ≠ k) → t.guards.lookup k = s.guards.lookup k
  later : ∀ e ∈ popped, ∀ g r, t.guards.lookup e.ready = some g → g.grant = some r →
    s.clock ≤ r.stamp
  stamps : ∀ e ∈ popped, ∀ e' ∈ popped, e.ticket < e'.ticket → ∀ g g' r r',
    t.guards.lookup e.ready = some g → g.grant = some r →
      t.guards.lookup e'.ready = some g' → g'.grant = some r' → r.stamp < r'.stamp

theorem promotes_idle (h : s.inner.queue ≠ [] → s.inner.admissionLimit ≤ s.inner.active) :
    Promotes s [] s :=
  ⟨rfl, rfl, h, fun hbytes => hbytes, fun _ _ => rfl, nofun, nofun⟩

theorem bytes_popFront {e : QueueEntry} {rest : List QueueEntry}
    (hqueue : s.inner.queue = e :: rest) (h : s.inner.queuedBytes = bytesOf s.inner.queue) :
    (popFront e rest s).inner.queuedBytes = bytesOf (popFront e rest s).inner.queue := by
  change s.inner.queuedBytes - e.bytes = bytesOf rest
  rw [h, hqueue]
  unfold bytesOf
  rw [List.map_cons, List.sum_cons]
  omega

/-- What sending the message does to a queued guard. -/
theorem send_effect {s t : Server} {k : GuardId} (h : send k s = some t) :
    t.inner = s.inner ∧ t.clock = s.clock + 1 ∧ ∃ g, s.guards.lookup k = some g ∧
      t.guards = s.guards.insert k { g with grant := some ⟨s.clock, s.inner.admissionLimit⟩ } := by
  unfold send at h
  split at h
  · rename_i g hk
    split at h
    · cases h
      exact ⟨rfl, rfl, g, hk, rfl⟩
    · cases h
  · cases h

/-- One entry popped before others: its guard is not touched again. -/
theorem promotes_cons {s u t : Server} {e : QueueEntry} {rest popped : List QueueEntry}
    (hqueue : s.inner.queue = e :: rest) (hurest : u.inner.queue = rest)
    (hticket : u.inner.nextTicket = s.inner.nextTicket)
    (hbytes : u.inner.queuedBytes = (popFront e rest s).inner.queuedBytes)
    (hordered : s.inner.queue.Pairwise (fun e x => e.ticket < x.ticket))
    (hnodup : (s.inner.queue.map QueueEntry.ready).Nodup)
    (hframe : ∀ k, k ≠ e.ready → u.guards.lookup k = s.guards.lookup k)
    (hgrant : ∀ g r, u.guards.lookup e.ready = some g → g.grant = some r →
      r.stamp = s.clock ∧ s.clock < u.clock)
    (hclock : s.clock ≤ u.clock) (h : Promotes u popped t) : Promotes s (e :: popped) t := by
  have hsplit : rest = popped ++ t.inner.queue := hurest.symm.trans h.queue
  rw [hqueue, List.map_cons, List.nodup_cons] at hnodup
  rw [hqueue, List.pairwise_cons] at hordered
  have hother : ∀ x ∈ popped, x.ready ≠ e.ready := by
    intro x hx heq
    apply hnodup.1
    rw [← heq, hsplit]
    exact List.mem_map_of_mem (List.mem_append_left _ hx)
  have hlast : t.guards.lookup e.ready = u.guards.lookup e.ready := h.frame e.ready hother
  have hbehind : ∀ x ∈ popped, e.ticket < x.ticket := by
    intro x hx
    apply hordered.1
    rw [hsplit]
    exact List.mem_append_left _ hx
  refine ⟨by rw [hqueue, hsplit]; rfl, h.nextTicket.trans hticket, h.busy,
    fun hs => h.bytes ?_, fun k hk => ?_, ?_, ?_⟩
  · rw [hbytes, hurest]
    exact bytes_popFront hqueue hs
  · rw [h.frame k (fun x hx => hk x (List.mem_cons_of_mem _ hx)),
      hframe k (hk e List.mem_cons_self).symm]
  · intro x hx g r hg hr
    rcases List.mem_cons.mp hx with rfl | hx
    · rw [hlast] at hg
      exact (hgrant g r hg hr).1.ge
    · exact hclock.trans (h.later x hx g r hg hr)
  · intro x hx x' hx' hlt g g' r r' hg hr hg' hr'
    rcases List.mem_cons.mp hx with rfl | hfirst
    · rcases List.mem_cons.mp hx' with rfl | hsecond
      · exact absurd hlt (Nat.lt_irrefl _)
      · rw [hlast] at hg
        obtain ⟨hstamp, hticked⟩ := hgrant g r hg hr
        have hlater := h.later x' hsecond g' r' hg' hr'
        omega
    · rcases List.mem_cons.mp hx' with rfl | hsecond
      · have hlater := hbehind x hfirst
        omega
      · exact h.stamps x hfirst x' hsecond hlt g g' r r' hg hr hg' hr'

theorem promotes_promoteEntries (entries : List QueueEntry) (s : Server) (hs : SoundServer s)
    (hordered : s.inner.queue.Pairwise (fun e x => e.ticket < x.ticket))
    (hqueue : s.inner.queue = entries) :
    ∃ popped, Promotes s popped (promoteEntries entries s) := by
  induction entries generalizing s with
  | nil => exact ⟨[], promotes_idle (fun h => absurd hqueue h)⟩
  | cons e rest ih =>
    unfold promoteEntries
    by_cases hlimit : s.inner.active < s.inner.admissionLimit
    · rw [if_pos hlimit]
      have hsublist : rest.Sublist s.inner.queue := hqueue ▸ List.sublist_cons_self e rest
      have hpop : SoundServer (popFront e rest s) := hs.sublist hsublist
      have hrest : rest.Pairwise (fun e x => e.ticket < x.ticket) := hordered.sublist hsublist
      obtain ⟨g0, hg0, _, hnone⟩ := hs.queued e (hqueue ▸ List.mem_cons_self)
      cases hsend : send e.ready (popFront e rest s) with
      | none =>
        obtain ⟨popped, hpromotes⟩ := ih (popFront e rest s) hpop hrest rfl
        refine ⟨e :: popped, promotes_cons (u := popFront e rest s) hqueue rfl rfl rfl hordered
          hs.nodup (fun _ _ => rfl) ?_ (Nat.le_refl _) hpromotes⟩
        intro g r hg hr
        cases hg0.symm.trans hg
        rw [hnone] at hr
        cases hr
      | some sent =>
        obtain ⟨hinner, hclock, g, hg, hguards⟩ := send_effect hsend
        have hfree : ∀ x ∈ rest, x.ready ≠ e.ready := by
          have hnodup := hs.nodup
          rw [hqueue, List.map_cons, List.nodup_cons] at hnodup
          intro x hx heq
          exact hnodup.1 (heq ▸ List.mem_map_of_mem hx)
        have hgrantless : ∀ x, (popFront e rest s).guards.lookup e.ready = some x →
            x.grant = none := by
          intro x hx
          cases hg0.symm.trans hx
          exact hnone
        have hsound := (carries_send hpop hfree hlimit hgrantless hsend).sound
        have hqueued : (addActive sent).inner.queue = rest := by
          change sent.inner.queue = rest
          rw [hinner]
          rfl
        obtain ⟨popped, hpromotes⟩ := ih (addActive sent) hsound (hqueued.symm ▸ hrest) hqueued
        refine ⟨e :: popped, promotes_cons hqueue hqueued ?_ ?_ hordered hs.nodup ?_ ?_ ?_
          hpromotes⟩
        · change sent.inner.nextTicket = _
          rw [hinner]
          rfl
        · change sent.inner.queuedBytes = _
          rw [hinner]
        · intro k hk
          change sent.guards.lookup k = _
          rw [hguards, AList.lookup_insert_ne hk]
          rfl
        · intro x r hx hr
          change sent.guards.lookup e.ready = some x at hx
          rw [hguards, AList.lookup_insert] at hx
          cases hx
          cases hr
          refine ⟨rfl, ?_⟩
          change s.clock < sent.clock
          rw [hclock]
          exact Nat.lt_succ_self _
        · change s.clock ≤ sent.clock
          rw [hclock]
          exact Nat.le_succ _
    · rw [if_neg hlimit]
      exact ⟨[], promotes_idle (fun _ => not_lt.mp hlimit)⟩

/-- The queue got shorter, and no guard got a grant. -/
structure Quieter (s u : Server) : Prop where
  queue : u.inner.queue.Sublist s.inner.queue
  nextTicket : u.inner.nextTicket = s.inner.nextTicket
  guards : ∀ k g, u.guards.lookup k = some g →
    ∃ x, s.guards.lookup k = some x ∧ g.grant = x.grant
  bytes : s.inner.queuedBytes = bytesOf s.inner.queue →
    u.inner.queuedBytes = bytesOf u.inner.queue

theorem quieter_of_eq {s u : Server} (hqueue : u.inner.queue = s.inner.queue)
    (hticket : u.inner.nextTicket = s.inner.nextTicket)
    (hbytes : u.inner.queuedBytes = s.inner.queuedBytes) (hguards : u.guards = s.guards) :
    Quieter s u := by
  refine ⟨hqueue ▸ List.Sublist.refl _, hticket, fun k g hk => ⟨g, hguards ▸ hk, rfl⟩, fun h => ?_⟩
  rw [hbytes, hqueue]
  exact h

theorem Quieter.refl (s : Server) : Quieter s s := quieter_of_eq rfl rfl rfl rfl

theorem Quieter.trans {s t u : Server} (hst : Quieter s t) (htu : Quieter t u) :
    Quieter s u := by
  refine ⟨htu.queue.trans hst.queue, htu.nextTicket.trans hst.nextTicket, fun k g hk => ?_,
    fun h => htu.bytes (hst.bytes h)⟩
  obtain ⟨x, hx, hgrant⟩ := htu.guards k g hk
  obtain ⟨y, hy, hgrant'⟩ := hst.guards k x hx
  exact ⟨y, hy, hgrant.trans hgrant'⟩

theorem quieter_setGuard {k : GuardId} {g g' : AdmissionGuard} (hk : s.guards.lookup k = some g)
    (hgrant : g'.grant = g.grant) : Quieter s (setGuard k g' s) := by
  refine ⟨List.Sublist.refl _, rfl, fun j x hx => ?_, fun h => h⟩
  change (s.guards.insert k g').lookup j = some x at hx
  rw [AList.lookup_insert_ite] at hx
  by_cases hj : j = k
  · rw [if_pos hj] at hx
    cases hx
    exact ⟨g, hj ▸ hk, hgrant⟩
  · rw [if_neg hj] at hx
    exact ⟨x, hx, rfl⟩

theorem bytesOf_eraseP {p : QueueEntry → Bool} {e : QueueEntry} (queue : List QueueEntry)
    (h : queue.find? p = some e) : bytesOf (queue.eraseP p) + e.bytes = bytesOf queue := by
  induction queue with
  | nil => cases h
  | cons x rest ih =>
    unfold bytesOf
    cases hp : p x with
    | true =>
      rw [List.find?_cons_of_pos hp] at h
      cases h
      rw [List.eraseP_cons_of_pos hp, List.map_cons, List.sum_cons, Nat.add_comm]
    | false =>
      rw [List.find?_cons_of_neg (by simp [hp])] at h
      have hrest := ih h
      unfold bytesOf at hrest
      rw [List.eraseP_cons_of_neg (by simp [hp]), List.map_cons, List.map_cons, List.sum_cons,
        List.sum_cons]
      omega

theorem quieter_dequeue {s u : Server} {p : QueueEntry → Bool} (h : dequeue p s = some u) :
    Quieter s u := by
  unfold dequeue at h
  split at h
  · rename_i e hfind
    cases h
    refine ⟨List.eraseP_sublist, rfl, fun k g hk => ⟨g, hk, rfl⟩, fun hbytes => ?_⟩
    have hsum := bytesOf_eraseP s.inner.queue hfind
    dsimp only
    omega
  · cases h

theorem quieter_released (s : Server) (k : GuardId) (g : AdmissionGuard) :
    Quieter s (released s k g) := by
  obtain ⟨c, m, hremove⟩ := removeControl_eq g.requestId { s with guards := s.guards.erase k }
  have hremoved : Quieter s (removeControl g.requestId { s with guards := s.guards.erase k }) := by
    rw [hremove]
    refine ⟨List.Sublist.refl _, rfl, fun j x hx => ?_, fun h => h⟩
    change (s.guards.erase k).lookup j = some x at hx
    rw [AList.lookup_erase_ite] at hx
    split at hx
    · cases hx
    · exact ⟨x, hx, rfl⟩
  refine hremoved.trans ?_
  unfold released settle
  split
  · exact quieter_of_eq rfl rfl rfl rfl
  · split
    · rename_i t _
      cases hdequeue : dequeue (fun entry => entry.ticket = t)
          (removeControl g.requestId { s with guards := s.guards.erase k }) with
      | none => exact quieter_of_eq rfl rfl rfl rfl
      | some u => exact quieter_dequeue hdequeue
    · exact Quieter.refl _

/-- A step that grants nothing serves the queue in its order. -/
theorem fifo_of_quieter {s t : Server} (h : Quieter s t) : Fifo s t := by
  have hnone : ∀ k r, ¬Granted s k r t := by
    rintro k r ⟨⟨g, hk, hr⟩, hbefore⟩
    obtain ⟨x, hx, hgrant⟩ := h.guards k g hk
    rw [hgrant, hbefore x hx] at hr
    cases hr
  refine ⟨fun _ k r _ => hnone k r, ?_, ?_, ?_, h.nextTicket.ge⟩
  · rintro e r ⟨_, hgranted⟩
    exact absurd hgranted (hnone e.ready r)
  · rintro e e' r r' ⟨_, hgranted⟩
    exact absurd hgranted (hnone e.ready r)
  · intro x hx hnew
    exact absurd (h.queue.subset hx) hnew

theorem disciplined_of_quieter {s t : Server} (hs : Disciplined s) (h : Quieter s t)
    (hbusy : t.inner.queue ≠ [] → t.inner.admissionLimit ≤ t.inner.active) : Disciplined t :=
  ⟨h.bytes hs.bytes, hbusy, hs.ordered.sublist h.queue⟩

/-- A section that ends with promotions. -/
theorem served_of_promoteQueued {s u : Server} (hs : Disciplined s) (hsound : SoundServer s)
    (hu : SoundServer u) (h : Quieter s u) :
    Disciplined (promoteQueued u) ∧ Fifo s (promoteQueued u) := by
  have hordered := hs.ordered.sublist h.queue
  obtain ⟨popped, hp⟩ := promotes_promoteEntries u.inner.queue u hu hordered rfl
  change Promotes u popped (promoteQueued u) at hp
  have hkept : (promoteQueued u).inner.queue.Sublist u.inner.queue := by
    rw [hp.queue]
    exact List.sublist_append_right _ _
  -- A grant of the section is that of a popped entry.
  have hpopped : ∀ k r, Granted s k r (promoteQueued u) →
      ∃ e ∈ popped, e.ready = k ∧ e ∈ s.inner.queue := by
    rintro k r ⟨⟨g, hk, hr⟩, hbefore⟩
    by_contra hnot
    have hout : ∀ e ∈ popped, e.ready ≠ k := by
      intro e he heq
      refine hnot ⟨e, he, heq, h.queue.subset ?_⟩
      rw [hp.queue]
      exact List.mem_append_left _ he
    rw [hp.frame k hout] at hk
    obtain ⟨x, hx, hgrant⟩ := h.guards k g hk
    rw [hgrant, hbefore x hx] at hr
    cases hr
  have hself : ∀ e r, Promoted s e r (promoteQueued u) → e ∈ popped := by
    rintro e r ⟨he, hgranted⟩
    obtain ⟨x, hx, hready, hmem⟩ := hpopped e.ready r hgranted
    have hsame := List.inj_on_of_nodup_map hsound.nodup hmem he hready
    exact hsame ▸ hx
  rw [hp.queue] at hordered
  refine ⟨⟨hp.bytes (h.bytes hs.bytes), hp.busy, (List.pairwise_append.mp hordered).2.1⟩,
    ?_, ?_, ?_, ?_, (hp.nextTicket.trans h.nextTicket).ge⟩
  · intro _ k r hnew hgranted
    obtain ⟨e, _, rfl, hmem⟩ := hpopped k r hgranted
    obtain ⟨x, hx, _⟩ := hsound.queued e hmem
    rw [hnew] at hx
    cases hx
  · intro e r hpromoted x hx
    exact (List.pairwise_append.mp hordered).2.2 e (hself e r hpromoted) x hx
  · intro e e' r r' hpromoted hpromoted' hlt
    obtain ⟨⟨g, hg, hr⟩, _⟩ := hpromoted.2
    obtain ⟨⟨g', hg', hr'⟩, _⟩ := hpromoted'.2
    exact hp.stamps e (hself e r hpromoted) e' (hself e' r' hpromoted') hlt g g' r r' hg hr hg' hr'
  · intro x hx hnew
    exact absurd (h.queue.subset (hkept.subset hx)) hnew

/-- A step that keeps the queue, its bytes and the count. -/
theorem served_of_same {s t : Server} (hs : Disciplined s) (h : Quieter s t)
    (hqueue : t.inner.queue = s.inner.queue) (hactive : t.inner.active = s.inner.active)
    (hlimit : t.inner.admissionLimit = s.inner.admissionLimit) :
    Disciplined t ∧ Fifo s t := by
  refine ⟨disciplined_of_quieter hs h (fun hne => ?_), fifo_of_quieter h⟩
  rw [hactive, hlimit]
  exact hs.busy (hqueue ▸ hne)

/-- An admission at once finds the queue empty. -/
theorem served_grantNow (hs : Disciplined s) (requestId : String) (hqueue : s.inner.queue = []) :
    Disciplined (grantNow requestId (insertControl requestId s)) ∧
      Fifo s (grantNow requestId (insertControl requestId s)) := by
  have hempty : (grantNow requestId (insertControl requestId s)).inner.queue = [] := hqueue
  refine ⟨⟨hs.bytes, fun hne => absurd hempty hne, hs.ordered⟩, ?_, ?_, ?_, ?_, Nat.le_refl _⟩
  · intro hne
    exact absurd hqueue hne
  · rintro e r ⟨he, _⟩
    rw [hqueue] at he
    cases he
  · rintro e e' r r' ⟨he, _⟩
    rw [hqueue] at he
    cases he
  · intro x hx
    rw [hempty] at hx
    cases hx

theorem served_enqueue (hs : Disciplined s) (hsound : SoundServer s) (requestId : String)
    (bytes : ℕ) (hbusy : ¬(s.inner.active < s.inner.admissionLimit ∧ s.inner.queue = [])) :
    Disciplined (enqueue requestId bytes (insertControl requestId s)) ∧
      Fifo s (enqueue requestId bytes (insertControl requestId s)) := by
  have hless : ∀ e ∈ s.inner.queue, e.ticket < s.inner.nextTicket := by
    intro e he
    obtain ⟨g, hg, hticket, _⟩ := hsound.queued e he
    exact hsound.ticket_lt e.ready g e.ticket hg hticket
  have hnone : ∀ k r, ¬Granted s k r (enqueue requestId bytes (insertControl requestId s)) := by
    rintro k r ⟨⟨g, hk, hr⟩, hbefore⟩
    change (s.guards.insert s.nextGuard _).lookup k = some g at hk
    rw [AList.lookup_insert_ite] at hk
    split at hk
    · cases hk
      cases hr
    · rw [hbefore g hk] at hr
      cases hr
  refine ⟨⟨?_, fun _ => ?_, ?_⟩, fun _ k r _ => hnone k r, ?_, ?_, ?_, Nat.le_succ _⟩
  · change s.inner.queuedBytes + bytes = ((s.inner.queue ++ [_]).map QueueEntry.bytes).sum
    rw [List.map_append, List.sum_append, hs.bytes]
    rfl
  · change s.inner.admissionLimit ≤ s.inner.active
    by_cases hqueue : s.inner.queue = []
    · exact not_lt.mp (fun hlt => hbusy ⟨hlt, hqueue⟩)
    · exact hs.busy hqueue
  · change (s.inner.queue ++ [_]).Pairwise _
    refine List.pairwise_append.mpr ⟨hs.ordered, List.pairwise_singleton _ _, ?_⟩
    intro e he x hx
    cases List.mem_singleton.mp hx
    exact hless e he
  · rintro e r ⟨_, hgranted⟩
    exact absurd hgranted (hnone e.ready r)
  · rintro e e' r r' ⟨_, hgranted⟩
    exact absurd hgranted (hnone e.ready r)
  · intro x hx hnew
    change x ∈ s.inner.queue ++ [_] at hx
    rcases List.mem_append.mp hx with hold | hlast
    · exact absurd hold hnew
    · cases List.mem_singleton.mp hlast
      exact ⟨Nat.le_refl _, hless⟩

theorem served_reserveAdmission (hs : Disciplined s) (hsound : SoundServer s) (requestId : String)
    (bytes : ℕ) :
    Disciplined (s.reserveAdmission requestId bytes).2 ∧
      Fifo s (s.reserveAdmission requestId bytes).2 := by
  unfold reserveAdmission
  split
  · exact served_of_same hs (quieter_of_eq rfl rfl rfl rfl) rfl rfl rfl
  split
  · exact served_of_same hs (Quieter.refl s) rfl rfl rfl
  split
  · exact served_of_same hs (Quieter.refl s) rfl rfl rfl
  dsimp only
  split
  · rename_i hnow
    exact served_grantNow hs requestId hnow.2
  rename_i hbusy
  split
  · exact served_of_same hs (quieter_of_eq rfl rfl rfl rfl) rfl rfl rfl
  split
  · exact served_of_same hs (quieter_of_eq rfl rfl rfl rfl) rfl rfl rfl
  · exact served_enqueue hs hsound requestId bytes hbusy

theorem served_tryAdmit (hs : Disciplined s) (requestId : String) :
    Disciplined (s.tryAdmit requestId).2 ∧ Fifo s (s.tryAdmit requestId).2 := by
  unfold tryAdmit
  split
  · exact served_of_same hs (quieter_of_eq rfl rfl rfl rfl) rfl rfl rfl
  split
  · exact served_of_same hs (Quieter.refl s) rfl rfl rfl
  split
  · exact served_of_same hs (Quieter.refl s) rfl rfl rfl
  · rename_i hbusy
    rw [not_or, not_not] at hbusy
    exact served_grantNow hs requestId hbusy.2

theorem served_cancel (hs : Disciplined s) (hsound : SoundServer s) (request : String) :
    Disciplined (s.cancel request) ∧ Fifo s (s.cancel request) := by
  have hcontrol : Quieter s (cancelControl request s) := by
    unfold cancelControl
    split
    · exact quieter_of_eq rfl rfl rfl rfl
    · exact quieter_of_eq rfl rfl rfl rfl
  have hcarried := (carries_cancelControl hsound request).sound
  unfold Server.cancel
  dsimp only
  cases hdequeue : dequeue (fun entry => entry.requestId = request)
      (cancelControl request s) with
  | none => exact served_of_promoteQueued hs hsound hcarried hcontrol
  | some u =>
    exact served_of_promoteQueued hs hsound (carries_dequeue hcarried hdequeue).sound
      (hcontrol.trans (quieter_dequeue hdequeue))

theorem served_dropGuard (hs : Disciplined s) (hsound : SoundServer s) (k : GuardId) :
    Disciplined (s.dropGuard k) ∧ Fifo s (s.dropGuard k) := by
  rcases dropGuard_cases_idle s k with ⟨hsame, _⟩ | ⟨g, hk, hreceiver⟩
  · rw [hsame]
    exact served_of_same hs (Quieter.refl s) rfl rfl rfl
  · rw [dropGuard_eq hk hreceiver]
    exact served_of_promoteQueued hs hsound (released_cases hsound hk hreceiver).1.sound
      (quieter_released s k g)

theorem served_configure (hs : Disciplined s) (hsound : SoundServer s) (config : ServerConfig) :
    Disciplined (s.configure config).2 ∧ Fifo s (s.configure config).2 := by
  unfold configure
  split
  · exact served_of_same hs (Quieter.refl s) rfl rfl rfl
  · exact served_of_promoteQueued hs hsound hsound (quieter_of_eq rfl rfl rfl rfl)

theorem served_cancelRemaining (hs : Disciplined s) :
    Disciplined s.cancelRemaining ∧ Fifo s s.cancelRemaining := by
  obtain ⟨c, hc⟩ := exists_controls_foldl s.inner.controls.values s
  have hquieter : Quieter s s.cancelRemaining := by
    unfold cancelRemaining
    rw [hc]
    exact ⟨List.nil_sublist _, rfl, fun k g hk => ⟨g, hk, rfl⟩, fun _ => rfl⟩
  refine ⟨disciplined_of_quieter hs hquieter (fun hne => ?_), fifo_of_quieter hquieter⟩
  exact absurd rfl hne

theorem served_closeReceiver (k : GuardId) :
    Quieter s (s.closeReceiver k) ∧ (s.closeReceiver k).inner = s.inner := by
  unfold closeReceiver
  split
  · rename_i g hk
    split
    · exact ⟨quieter_setGuard hk rfl, rfl⟩
    · exact ⟨Quieter.refl s, rfl⟩
  · exact ⟨Quieter.refl s, rfl⟩

theorem served_timeOut (k : GuardId) : Quieter s (s.timeOut k) ∧ (s.timeOut k).inner = s.inner := by
  obtain ⟨hclosed, hinner⟩ := served_closeReceiver (s := s) k
  unfold timeOut
  split
  · split
    · exact ⟨hclosed.trans (quieter_of_eq rfl rfl rfl rfl), hinner⟩
    · exact ⟨Quieter.refl s, rfl⟩
  · exact ⟨Quieter.refl s, rfl⟩

theorem served_resume (k : GuardId) : Quieter s (s.resume k) ∧ (s.resume k).inner = s.inner := by
  unfold resume
  split
  swap
  · exact ⟨Quieter.refl s, rfl⟩
  rename_i g hk
  split
  swap
  · exact ⟨Quieter.refl s, rfl⟩
  split
  · split
    · exact ⟨quieter_setGuard hk rfl, rfl⟩
    · exact ⟨quieter_setGuard hk rfl, rfl⟩
  · split
    · exact ⟨quieter_setGuard hk rfl, rfl⟩
    · exact ⟨Quieter.refl s, rfl⟩

theorem served_step {s t : Server} {a : Action} (hs : Disciplined s) (hsound : SoundServer s)
    (hstep : Step s a t) : Disciplined t ∧ Fifo s t := by
  subst hstep
  have hinner : ∀ u : Server, Quieter s u ∧ u.inner = s.inner → Disciplined u ∧ Fifo s u := by
    rintro u ⟨hquieter, heq⟩
    exact served_of_same hs hquieter (by rw [heq]) (by rw [heq]) (by rw [heq])
  cases a with
  | reserveAdmission requestId bytes => exact served_reserveAdmission hs hsound requestId bytes
  | tryAdmit requestId => exact served_tryAdmit hs requestId
  | cancel request => exact served_cancel hs hsound request
  | setAdmissionLimit limit =>
    exact served_of_promoteQueued hs hsound hsound (quieter_of_eq rfl rfl rfl rfl)
  | configure config => exact served_configure hs hsound config
  | beginShutdown => exact served_of_same hs (quieter_of_eq rfl rfl rfl rfl) rfl rfl rfl
  | cancelRemaining => exact served_cancelRemaining hs
  | resume k => exact hinner _ (served_resume k)
  | timeOut k => exact hinner _ (served_timeOut k)
  | dropFuture k => exact hinner _ (served_closeReceiver k)
  | dropGuard k => exact served_dropGuard hs hsound k
  | cancelControl k => exact served_of_same hs (quieter_of_eq rfl rfl rfl rfl) rfl rfl rfl
  | expireControl k => exact served_of_same hs (quieter_of_eq rfl rfl rfl rfl) rfl rfl rfl

/-- Along a run the promotions follow the tickets, which follow the arrivals. -/
def PromotedInOrder (start : Server) (run : List (Action × Server)) : Prop :=
  ∀ before a t between b u after, run = before ++ ((a, t) :: (between ++ ((b, u) :: after))) →
    ∀ e r e' r', Promoted (last start before) e r t → Promoted (last t between) e' r' u →
      e.ticket < e'.ticket

/-- Everything that waits, or comes to wait, is behind a ticket. -/
structure Behind (n : ℕ) (s : Server) : Prop where
  next : n < s.inner.nextTicket
  queue : ∀ x ∈ s.inner.queue, n < x.ticket

theorem behind_step {n : ℕ} {s t : Server} (h : Behind n s) (hfifo : Fifo s t) : Behind n t := by
  refine ⟨lt_of_lt_of_le h.next hfifo.tickets, fun x hx => ?_⟩
  by_cases hold : x ∈ s.inner.queue
  · exact h.queue x hold
  · exact lt_of_lt_of_le h.next (hfifo.arrivals x hx hold).1

structure Queued (s : Server) : Prop where
  sound : SoundServer s
  disciplined : Disciplined s

theorem queued_step (s : Server) (a : Action) (t : Server) (hs : Queued s)
    (hstep : Step s a t) : Queued t ∧ Disciplined t ∧ Fifo s t := by
  obtain ⟨hdisciplined, hfifo⟩ := served_step hs.disciplined hs.sound hstep
  exact ⟨⟨soundServer_step hs.sound hstep, hdisciplined⟩, hdisciplined, hfifo⟩

theorem queued_new (config : ServerConfig) : Queued (Server.new config) :=
  ⟨(balanced_new config).sound, rfl, fun hne => absurd rfl hne, List.Pairwise.nil⟩

theorem promotedInOrder_of_queued {start : Server} (hs : Queued start)
    (run : List (Action × Server)) (hrun : IsRun Step start run) : PromotedInOrder start run := by
  rintro before a t between b u after rfl e r e' r' hpromoted hpromoted'
  obtain ⟨hbefore, hstep, hrest⟩ := (isRun_append Step start before _).mp hrun
  obtain ⟨hbetween, _⟩ := (isRun_append Step t between _).mp hrest
  have hqueued := invariant_of_run Step Queued (fun s a t h hstep => (queued_step s a t h hstep).1)
    start before hs hbefore
  obtain ⟨hnext, _, hfifo⟩ := queued_step _ a t hqueued hstep
  have hbehind : Behind e.ticket t := by
    refine ⟨?_, hfifo.inOrder e r hpromoted⟩
    obtain ⟨g, hg, hticket, _⟩ := hqueued.sound.queued e hpromoted.1
    exact lt_of_lt_of_le (hqueued.sound.ticket_lt e.ready g e.ticket hg hticket) hfifo.tickets
  have hlater := invariant_of_run Step (fun s => Queued s ∧ Behind e.ticket s)
    (fun s a t h hstep => ⟨(queued_step s a t h.1 hstep).1,
      behind_step h.2 (queued_step s a t h.1 hstep).2.2⟩)
    t between ⟨hnext, hbehind⟩ hbetween
  exact hlater.2.queue e' hpromoted'.1

/-- In every interleaving from a new server, the queue is disciplined after every step, every
step serves it in its order, and so the promotions of the whole run follow the arrivals. -/
theorem queue_discipline (config : ServerConfig) (run : List (Action × Server))
    (hrun : IsRun Step (Server.new config) run) :
    Along (fun s _ t => Disciplined t ∧ Fifo s t) (Server.new config) run ∧
      PromotedInOrder (Server.new config) run :=
  ⟨along_of_invariant Step Queued _ queued_step (Server.new config) run (queued_new config) hrun,
    promotedInOrder_of_queued (queued_new config) run hrun⟩

/-- Two requests wait behind a third, which ends after one of them was cancelled. -/
def cancelledInTheMiddle : List (Action × Server) :=
  follow perform (Server.new oneAtATime) [.reserveAdmission "a" 1,
    .reserveAdmission "b" 2, .reserveAdmission "c" 3, .cancel "b", .dropGuard 0, .resume 2]

theorem waiting_requests_are_served_in_order :
    IsRun Step (Server.new oneAtATime) cancelledInTheMiddle ∧
      Along (fun s _ t => Disciplined t ∧ Fifo s t) (Server.new oneAtATime)
        cancelledInTheMiddle ∧
      PromotedInOrder (Server.new oneAtATime) cancelledInTheMiddle :=
  ⟨isRun_follow _ _ _, queue_discipline oneAtATime _ (isRun_follow _ _ _)⟩

end Cusco.AdmissionQueue
