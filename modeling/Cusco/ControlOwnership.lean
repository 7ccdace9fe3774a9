import Cusco.AdmissionAccounts

/-!
Who owns a control in the map of the server. The map is keyed by request ids. An admission
stores its control under the id whatever is there, and a release removes what is there. As
long as no request is admitted or rejected under the id of a live one, every live request
owns the control under its id, releases spare the others and a cancellation reaches it.
-/

namespace Cusco.ControlOwnership

open Admission Server AdmissionAccounts Runs

/-- A guard of the request has not been dropped. -/
def Live (s : Server) (k : GuardId) (requestId : String) : Prop :=
  ∃ g, s.guards.lookup k = some g ∧ g.requestId = requestId

/-- The map holds the own control of every live request under its id. -/
def OwnsControls (s : Server) : Prop :=
  ∀ k requestId, Live s k requestId → s.inner.controls.lookup requestId = some k

/-- The action admits, rejects or releases a request other than that of the guard. -/
def ByAnother : Action → GuardId → Prop
  | .reserveAdmission .., _ => True
  | .tryAdmit _, _ => True
  | .dropGuard j, k => j ≠ k
  | _, _ => False

/-- The control of another live request is neither completed nor cancelled nor removed. -/
def SparesOthers (s : Server) (a : Action) (t : Server) : Prop :=
  ∀ k requestId, Live s k requestId → ByAnother a k →
    t.controls.lookup k = s.controls.lookup k ∧
      (s.inner.controls.lookup requestId = some k → t.inner.controls.lookup requestId = some k)

/-- A cancellation cancels the control of every live request with the id. -/
def CancelReaches (s : Server) (a : Action) (t : Server) : Prop :=
  ∀ k requestId, Live s k requestId → a = .cancel requestId →
    t.controls.lookup k = (s.controls.lookup k).map ControlState.cancel

def OwnControl (s : Server) (a : Action) (t : Server) : Prop :=
  OwnsControls t ∧ SparesOthers s a t ∧ CancelReaches s a t

def Unused (s : Server) (requestId : String) : Prop := ∀ k, ¬Live s k requestId

/-- A request that comes to store its control has an id that no live request has. -/
def FreshId (s : Server) : Action → Prop
  | .reserveAdmission requestId bytes => requestId ∉ s.inner.pendingCancelled →
      s.inner.shuttingDown = false → bytes ≤ s.inner.config.requestBytes → Unused s requestId
  | .tryAdmit requestId => requestId ∉ s.inner.pendingCancelled →
      s.inner.shuttingDown = false → s.inner.active < s.inner.admissionLimit →
        s.inner.queue = [] → Unused s requestId
  | _ => True

structure SameNames (s t : Server) : Prop where
  named : t.inner.controls = s.inner.controls
  live : ∀ k requestId, Live t k requestId ↔ Live s k requestId

theorem SameNames.refl (s : Server) : SameNames s s := ⟨rfl, fun _ _ => Iff.rfl⟩

theorem SameNames.trans {s t u : Server} (hst : SameNames s t) (htu : SameNames t u) :
    SameNames s u :=
  ⟨htu.named.trans hst.named, fun k requestId => (htu.live k requestId).trans
    (hst.live k requestId)⟩

theorem sameNames_of_eq {s t : Server} (hnamed : t.inner.controls = s.inner.controls)
    (hguards : t.guards = s.guards) : SameNames s t := by
  refine ⟨hnamed, fun k requestId => ?_⟩
  unfold Live
  rw [hguards]

theorem OwnsControls.same {s t : Server} (h : OwnsControls s) (hst : SameNames s t) :
    OwnsControls t := by
  intro k requestId hlive
  rw [hst.named]
  exact h k requestId ((hst.live k requestId).mp hlive)

/-- A guard changes, but not its id. -/
theorem sameNames_setGuard {s t : Server} {k : GuardId} {g g' : AdmissionGuard}
    (hk : s.guards.lookup k = some g) (hguards : t.guards = s.guards.insert k g')
    (hnamed : t.inner.controls = s.inner.controls) (hid : g'.requestId = g.requestId) :
    SameNames s t := by
  refine ⟨hnamed, fun j requestId => ?_⟩
  unfold Live
  rw [hguards, AList.lookup_insert_ite]
  by_cases hj : j = k
  · rw [if_pos hj, hj, hk]
    simp only [Option.some.injEq, exists_eq_left', hid]
  · rw [if_neg hj]

theorem sameNames_promoteEntries (entries : List QueueEntry) (s : Server) :
    SameNames s (promoteEntries entries s) ∧ (promoteEntries entries s).controls = s.controls := by
  induction entries generalizing s with
  | nil => exact ⟨SameNames.refl s, rfl⟩
  | cons e rest ih =>
    unfold promoteEntries
    split
    · have hpop : SameNames s (popFront e rest s) := sameNames_of_eq rfl rfl
      cases hsend : send e.ready (popFront e rest s) with
      | none =>
        obtain ⟨hsame, hcontrols⟩ := ih (popFront e rest s)
        exact ⟨hpop.trans hsame, hcontrols⟩
      | some sent =>
        obtain ⟨hsame, hcontrols⟩ := ih (addActive sent)
        obtain ⟨g, g', hk, hid, hnamed, hguards, hkept⟩ : ∃ g g',
            s.guards.lookup e.ready = some g ∧ g'.requestId = g.requestId ∧
              sent.inner.controls = s.inner.controls ∧
                sent.guards = s.guards.insert e.ready g' ∧ sent.controls = s.controls := by
          unfold send at hsend
          split at hsend
          · rename_i g hk
            split at hsend
            · cases hsend
              exact ⟨g, { g with grant := some ⟨s.clock, s.inner.admissionLimit⟩ }, hk, rfl, rfl,
                rfl, rfl⟩
            · cases hsend
          · cases hsend
        have hadded : SameNames s (addActive sent) := sameNames_setGuard hk hguards hnamed hid
        exact ⟨hadded.trans hsame, hcontrols.trans hkept⟩
    · exact ⟨SameNames.refl s, rfl⟩

theorem sameNames_promoteQueued (s : Server) : SameNames s (promoteQueued s) :=
  (sameNames_promoteEntries s.inner.queue s).1

theorem controls_promoteQueued (s : Server) : (promoteQueued s).controls = s.controls :=
  (sameNames_promoteEntries s.inner.queue s).2

theorem sameNames_dequeue {s t : Server} {p : QueueEntry → Bool} (h : dequeue p s = some t) :
    SameNames s t ∧ t.controls = s.controls := by
  unfold dequeue at h
  split at h
  · cases h
    exact ⟨sameNames_of_eq rfl rfl, rfl⟩
  · cases h

theorem sameNames_settle (ticket : Option ℕ) (active : Bool) (s : Server) :
    SameNames s (settle ticket active s) ∧ (settle ticket active s).controls = s.controls := by
  unfold settle
  split
  · exact ⟨sameNames_of_eq rfl rfl, rfl⟩
  · split
    · rename_i t
      cases hdequeue : dequeue (fun entry => entry.ticket = t) s with
      | none => exact ⟨sameNames_of_eq rfl rfl, rfl⟩
      | some u => exact sameNames_dequeue hdequeue
    · exact ⟨SameNames.refl s, rfl⟩

/-- A control was stored under the id of a new guard, and the others stay. -/
structure Stored (s : Server) (requestId : String) (t : Server) : Prop where
  named : ∀ id, t.inner.controls.lookup id =
    if id = requestId then some s.nextGuard else s.inner.controls.lookup id
  live : ∀ k id, Live t k id ↔ (k = s.nextGuard ∧ id = requestId) ∨ Live s k id
  controls : ∀ k, k ≠ s.nextGuard → t.controls.lookup k = s.controls.lookup k

/-- A control was stored under the id of a request that is then refused. -/
structure Refused (s : Server) (requestId : String) (t : Server) : Prop where
  named : ∀ id, id ≠ requestId → t.inner.controls.lookup id = s.inner.controls.lookup id
  lost : ∀ k, Live s k requestId → t.inner.controls.lookup requestId ≠ some k
  guards : t.guards = s.guards
  controls : ∀ k, k ≠ s.nextGuard → t.controls.lookup k = s.controls.lookup k

theorem live_ne {s : Server} (hs : SoundServer s) {k : GuardId} {id : String}
    (h : Live s k id) : k ≠ s.nextGuard := by
  obtain ⟨g, hk, _⟩ := h
  exact (hs.guard_lt k g hk).ne

theorem stored_insert {s t : Server} (hs : SoundServer s) {requestId : String}
    {g : AdmissionGuard} (hid : g.requestId = requestId)
    (hnamed : t.inner.controls = s.inner.controls.insert requestId s.nextGuard)
    (hguards : t.guards = s.guards.insert s.nextGuard g)
    (hcontrols : t.controls = s.controls.insert s.nextGuard .running) :
    Stored s requestId t := by
  refine ⟨fun id => ?_, fun k id => ?_, fun k hk => ?_⟩
  · rw [hnamed, AList.lookup_insert_ite]
  · unfold Live
    rw [hguards, AList.lookup_insert_ite]
    by_cases hk : k = s.nextGuard
    · rw [if_pos hk]
      constructor
      · rintro ⟨x, hx, hxid⟩
        cases hx
        exact Or.inl ⟨hk, hxid.symm.trans hid⟩
      · rintro (⟨_, rfl⟩ | hlive)
        · exact ⟨g, rfl, hid⟩
        · exact absurd hk (live_ne hs hlive)
    · rw [if_neg hk]
      constructor
      · exact Or.inr
      · rintro (⟨heq, _⟩ | hlive)
        · exact absurd heq hk
        · exact hlive
  · rw [hcontrols, AList.lookup_insert_ne hk]

theorem reserveAdmission_effect {s : Server} (hs : SoundServer s) (requestId : String)
    (bytes : ℕ) (hpending : requestId ∉ s.inner.pendingCancelled)
    (hopen : s.inner.shuttingDown = false) (hbytes : bytes ≤ s.inner.config.requestBytes) :
    Stored s requestId (s.reserveAdmission requestId bytes).2 ∨
      Refused s requestId (s.reserveAdmission requestId bytes).2 := by
  unfold reserveAdmission
  rw [if_neg hpending, if_neg (by simp [hopen]), if_neg (by omega)]
  dsimp only
  split
  · exact Or.inl (stored_insert hs rfl rfl rfl rfl)
  split
  · refine Or.inr ⟨fun id hid => ?_, fun k _ => ?_, rfl, fun _ _ => rfl⟩
    · change ((s.inner.controls.insert requestId s.nextGuard).erase requestId).lookup id = _
      rw [AList.lookup_erase_ite, if_neg hid, AList.lookup_insert_ne hid]
    · change ((s.inner.controls.insert requestId s.nextGuard).erase requestId).lookup requestId ≠ _
      rw [AList.lookup_erase_ite, if_pos rfl]
      exact nofun
  split
  · refine Or.inr ⟨fun id hid => ?_, fun k hlive => ?_, rfl, fun k hk => ?_⟩
    · exact AList.lookup_insert_ne hid
    · change (s.inner.controls.insert requestId s.nextGuard).lookup requestId ≠ _
      rw [AList.lookup_insert]
      exact fun heq => live_ne hs hlive (Option.some.inj heq).symm
    · exact AList.lookup_insert_ne hk
  · exact Or.inl (stored_insert hs rfl rfl rfl rfl)

theorem tryAdmit_effect {s : Server} (hs : SoundServer s) (requestId : String)
    (hpending : requestId ∉ s.inner.pendingCancelled) (hopen : s.inner.shuttingDown = false)
    (hactive : s.inner.active < s.inner.admissionLimit) (hqueue : s.inner.queue = []) :
    Stored s requestId (s.tryAdmit requestId).2 := by
  unfold tryAdmit
  rw [if_neg hpending, if_neg (by simp [hopen]), if_neg (by simp [hqueue]; omega)]
  exact stored_insert hs rfl rfl rfl rfl

/-- A refusal before the control is stored. -/
theorem reserveAdmission_early {s : Server} {requestId : String} {bytes : ℕ}
    (h : ¬(requestId ∉ s.inner.pendingCancelled ∧ s.inner.shuttingDown = false ∧
      bytes ≤ s.inner.config.requestBytes)) :
    SameNames s (s.reserveAdmission requestId bytes).2 ∧
      (s.reserveAdmission requestId bytes).2.controls = s.controls := by
  unfold reserveAdmission
  split
  · exact ⟨sameNames_of_eq rfl rfl, rfl⟩
  split
  · exact ⟨SameNames.refl s, rfl⟩
  split
  · exact ⟨SameNames.refl s, rfl⟩
  · rename_i hpending hopen hbytes
    exact absurd ⟨hpending, Bool.not_eq_true _ ▸ hopen, not_lt.mp hbytes⟩ h

theorem tryAdmit_early {s : Server} {requestId : String}
    (h : ¬(requestId ∉ s.inner.pendingCancelled ∧ s.inner.shuttingDown = false ∧
      s.inner.active < s.inner.admissionLimit ∧ s.inner.queue = [])) :
    SameNames s (s.tryAdmit requestId).2 ∧
      (s.tryAdmit requestId).2.controls = s.controls := by
  unfold tryAdmit
  split
  · exact ⟨sameNames_of_eq rfl rfl, rfl⟩
  split
  · exact ⟨SameNames.refl s, rfl⟩
  split
  · exact ⟨SameNames.refl s, rfl⟩
  · rename_i hpending hopen hbusy
    rw [not_or, not_not, not_le] at hbusy
    exact absurd ⟨hpending, Bool.not_eq_true _ ▸ hopen, hbusy.1, hbusy.2⟩ h

theorem stored_iff {s t : Server} {a : Action} (hs : SoundServer s) (h : OwnsControls s)
    {requestId : String} (hstored : Stored s requestId t)
    (hcancel : ∀ id, a ≠ .cancel id) : OwnControl s a t ↔ Unused s requestId := by
  constructor
  · rintro ⟨howns, _⟩ k hlive
    have hheld := howns k requestId ((hstored.live k requestId).mpr (Or.inr hlive))
    rw [hstored.named, if_pos rfl] at hheld
    exact live_ne hs hlive (Option.some.inj hheld).symm
  · intro hunused
    refine ⟨fun k id hlive => ?_, fun k id hlive _ => ⟨?_, fun hheld => ?_⟩,
      fun k id _ heq => absurd heq (hcancel id)⟩
    · rw [hstored.named]
      rcases (hstored.live k id).mp hlive with ⟨rfl, rfl⟩ | hold
      · exact if_pos rfl
      · rw [if_neg]
        · exact h k id hold
        · rintro rfl
          exact hunused k hold
    · exact hstored.controls k (live_ne hs hlive)
    · rw [hstored.named, if_neg]
      · exact hheld
      · rintro rfl
        exact hunused k hlive

theorem refused_iff {s t : Server} {a : Action} (hs : SoundServer s) (h : OwnsControls s)
    {requestId : String} (hrefused : Refused s requestId t)
    (hcancel : ∀ id, a ≠ .cancel id) : OwnControl s a t ↔ Unused s requestId := by
  have hsame : ∀ k id, Live t k id ↔ Live s k id := by
    intro k id
    unfold Live
    rw [hrefused.guards]
  constructor
  · rintro ⟨howns, _⟩ k hlive
    exact hrefused.lost k hlive (howns k requestId ((hsame k requestId).mpr hlive))
  · intro hunused
    have hne : ∀ k id, Live s k id → id ≠ requestId := by
      rintro k id hlive rfl
      exact hunused k hlive
    refine ⟨fun k id hlive => ?_, fun k id hlive _ => ⟨?_, fun hheld => ?_⟩,
      fun k id _ heq => absurd heq (hcancel id)⟩
    · have hold := (hsame k id).mp hlive
      rw [hrefused.named id (hne k id hold)]
      exact h k id hold
    · exact hrefused.controls k (live_ne hs hlive)
    · rw [hrefused.named id (hne k id hlive)]
      exact hheld

theorem ownControl_of_same {s t : Server} {a : Action} (h : OwnsControls s)
    (hsame : SameNames s t) (hcontrols : (∃ k, ByAnother a k) → t.controls = s.controls)
    (hcancel : ∀ id, a ≠ .cancel id) : OwnControl s a t := by
  refine ⟨h.same hsame, fun k id _ ha => ⟨?_, fun hheld => ?_⟩, fun k id _ heq => ?_⟩
  · rw [hcontrols ⟨k, ha⟩]
  · rw [hsame.named]
    exact hheld
  · exact absurd heq (hcancel id)

theorem ownControl_cancel {s : Server} (h : OwnsControls s) (requestId : String) :
    OwnControl s (.cancel requestId) (s.cancel requestId) := by
  have hcontrol : SameNames s (cancelControl requestId s) := by
    unfold cancelControl
    split
    · exact sameNames_of_eq rfl rfl
    · exact sameNames_of_eq rfl rfl
  obtain ⟨u, hu, hsame, hkept⟩ : ∃ u, s.cancel requestId = promoteQueued u ∧ SameNames s u ∧
      u.controls = (cancelControl requestId s).controls := by
    unfold Server.cancel
    dsimp only
    cases hdequeue : dequeue (fun entry => entry.requestId = requestId)
        (cancelControl requestId s) with
    | none => exact ⟨_, rfl, hcontrol, rfl⟩
    | some u =>
      obtain ⟨hsame, hcontrols⟩ := sameNames_dequeue hdequeue
      exact ⟨u, rfl, hcontrol.trans hsame, hcontrols⟩
  rw [hu]
  refine ⟨h.same (hsame.trans (sameNames_promoteQueued u)), fun k id _ ha => ha.elim,
    fun k id hlive heq => ?_⟩
  cases heq
  rw [controls_promoteQueued, hkept]
  unfold cancelControl
  rw [h k requestId hlive]
  change (s.controls.modify k ControlState.cancel).lookup k = _
  rw [AList.lookup_modify, if_pos rfl]

theorem ownControl_dropGuard {s : Server} (h : OwnsControls s) (j : GuardId) :
    OwnControl s (.dropGuard j) (s.dropGuard j) := by
  rcases dropGuard_cases_idle s j with ⟨hsame, _⟩ | ⟨g, hj, hreceiver⟩
  · rw [hsame]
    exact ownControl_of_same h (SameNames.refl s) (fun _ => rfl) nofun
  have hown := h j g.requestId ⟨g, hj, rfl⟩
  obtain ⟨u, hdrop, hnamed, hguards, hcontrols⟩ : ∃ u, s.dropGuard j = promoteQueued u ∧
      u.inner.controls = s.inner.controls.erase g.requestId ∧
        (∀ k id, Live u k id ↔ k ≠ j ∧ Live s k id) ∧
          u.controls = s.controls.modify j ControlState.finish := by
    have hremove : removeControl g.requestId { s with guards := s.guards.erase j } =
        { s with
          inner := { s.inner with controls := s.inner.controls.erase g.requestId }
          guards := s.guards.erase j
          controls := s.controls.modify j ControlState.finish } := by
      unfold removeControl
      dsimp only
      rw [hown]
      rfl
    obtain ⟨hsame, hkept⟩ := sameNames_settle g.ticket g.active
      (removeControl g.requestId { s with guards := s.guards.erase j })
    refine ⟨released s j g, dropGuard_eq hj hreceiver, ?_, ?_, ?_⟩
    · refine hsame.named.trans ?_
      rw [hremove]
    · intro k id
      refine (hsame.live k id).trans ?_
      rw [hremove]
      unfold Live
      dsimp only
      rw [AList.lookup_erase_ite]
      by_cases hk : k = j
      · rw [if_pos hk]
        constructor
        · rintro ⟨_, hx, _⟩
          cases hx
        · rintro ⟨hne, _⟩
          exact absurd hk hne
      · rw [if_neg hk]
        exact ⟨fun hlive => ⟨hk, hlive⟩, fun hlive => hlive.2⟩
    · refine hkept.trans ?_
      rw [hremove]
  have hother : ∀ k id, Live s k id → k ≠ j → id ≠ g.requestId := by
    rintro k id hlive hk rfl
    exact hk (Option.some.inj ((h k _ hlive).symm.trans hown))
  have hpromoted := sameNames_promoteQueued u
  rw [hdrop]
  refine ⟨fun k id hlive => ?_, fun k id hlive hk => ⟨?_, fun hheld => ?_⟩,
    fun k id _ heq => nomatch heq⟩
  · obtain ⟨hk, hold⟩ := (hguards k id).mp ((hpromoted.live k id).mp hlive)
    rw [hpromoted.named, hnamed, AList.lookup_erase_ite, if_neg (hother k id hold hk)]
    exact h k id hold
  · rw [controls_promoteQueued, hcontrols, AList.lookup_modify, if_neg (Ne.symm hk)]
  · rw [hpromoted.named, hnamed, AList.lookup_erase_ite, if_neg (hother k id hlive (Ne.symm hk))]
    exact hheld

theorem sameNames_closeReceiver (s : Server) (k : GuardId) :
    SameNames s (s.closeReceiver k) := by
  unfold closeReceiver
  split
  · rename_i g hk
    split
    · exact sameNames_setGuard hk rfl rfl rfl
    · exact SameNames.refl s
  · exact SameNames.refl s

theorem sameNames_timeOut (s : Server) (k : GuardId) : SameNames s (s.timeOut k) := by
  unfold timeOut
  split
  · split
    · exact (sameNames_closeReceiver s k).trans (sameNames_of_eq rfl rfl)
    · exact SameNames.refl s
  · exact SameNames.refl s

theorem sameNames_resume (s : Server) (k : GuardId) : SameNames s (s.resume k) := by
  unfold resume
  split
  swap
  · exact SameNames.refl s
  rename_i g hk
  split
  swap
  · exact SameNames.refl s
  split
  · split
    · exact sameNames_setGuard hk rfl rfl rfl
    · exact sameNames_setGuard hk rfl rfl rfl
  · split
    · exact sameNames_setGuard hk rfl rfl rfl
    · exact SameNames.refl s

theorem sameNames_configure (s : Server) (config : ServerConfig) :
    SameNames s (s.configure config).2 := by
  unfold configure
  split
  · exact SameNames.refl s
  · exact (sameNames_of_eq (by rfl) (by rfl)).trans (sameNames_promoteQueued _)

theorem sameNames_cancelRemaining (s : Server) : SameNames s s.cancelRemaining := by
  obtain ⟨c, hc⟩ := exists_controls_foldl s.inner.controls.values s
  unfold cancelRemaining
  rw [hc]
  exact sameNames_of_eq rfl rfl

theorem ownControl_iff {s t : Server} {a : Action} (hs : SoundServer s ∧ OwnsControls s)
    (hstep : Step s a t) : OwnControl s a t ↔ FreshId s a := by
  subst hstep
  obtain ⟨hsound, howns⟩ := hs
  cases a with
  | reserveAdmission requestId bytes =>
    by_cases hstores : requestId ∉ s.inner.pendingCancelled ∧ s.inner.shuttingDown = false ∧
        bytes ≤ s.inner.config.requestBytes
    · obtain ⟨hpending, hopen, hbytes⟩ := hstores
      have hiff : OwnControl s (.reserveAdmission requestId bytes)
          (s.reserveAdmission requestId bytes).2 ↔ Unused s requestId := by
        rcases reserveAdmission_effect hsound requestId bytes hpending hopen hbytes with
          hstored | hrefused
        · exact stored_iff hsound howns hstored nofun
        · exact refused_iff hsound howns hrefused nofun
      exact hiff.trans ⟨fun h _ _ _ => h, fun h => h hpending hopen hbytes⟩
    · obtain ⟨hsame, hcontrols⟩ := reserveAdmission_early hstores
      refine iff_of_true (ownControl_of_same howns hsame (fun _ => hcontrols) nofun) ?_
      intro hpending hopen hbytes
      exact absurd ⟨hpending, hopen, hbytes⟩ hstores
  | tryAdmit requestId =>
    by_cases hstores : requestId ∉ s.inner.pendingCancelled ∧ s.inner.shuttingDown = false ∧
        s.inner.active < s.inner.admissionLimit ∧ s.inner.queue = []
    · obtain ⟨hpending, hopen, hactive, hqueue⟩ := hstores
      have hstored := tryAdmit_effect hsound requestId hpending hopen hactive hqueue
      have hiff : OwnControl s (.tryAdmit requestId) (s.tryAdmit requestId).2 ↔
          Unused s requestId := stored_iff hsound howns hstored nofun
      exact hiff.trans ⟨fun h _ _ _ _ => h, fun h => h hpending hopen hactive hqueue⟩
    · obtain ⟨hsame, hcontrols⟩ := tryAdmit_early hstores
      refine iff_of_true (ownControl_of_same howns hsame (fun _ => hcontrols) nofun) ?_
      intro hpending hopen hactive hqueue
      exact absurd ⟨hpending, hopen, hactive, hqueue⟩ hstores
  | cancel requestId => exact iff_of_true (ownControl_cancel howns requestId) trivial
  | dropGuard j => exact iff_of_true (ownControl_dropGuard howns j) trivial
  | setAdmissionLimit limit =>
    refine iff_of_true (ownControl_of_same howns ?_ (fun ⟨_, ha⟩ => nomatch ha) nofun) trivial
    exact (sameNames_of_eq (by rfl) (by rfl)).trans (sameNames_promoteQueued _)
  | configure config =>
    exact iff_of_true (ownControl_of_same howns (sameNames_configure s config)
      (fun ⟨_, ha⟩ => nomatch ha) nofun) trivial
  | beginShutdown =>
    exact iff_of_true (ownControl_of_same howns (sameNames_of_eq rfl rfl)
      (fun ⟨_, ha⟩ => nomatch ha) nofun) trivial
  | cancelRemaining =>
    exact iff_of_true (ownControl_of_same howns (sameNames_cancelRemaining s)
      (fun ⟨_, ha⟩ => nomatch ha) nofun) trivial
  | resume k =>
    exact iff_of_true (ownControl_of_same howns (sameNames_resume s k)
      (fun ⟨_, ha⟩ => nomatch ha) nofun) trivial
  | timeOut k =>
    exact iff_of_true (ownControl_of_same howns (sameNames_timeOut s k)
      (fun ⟨_, ha⟩ => nomatch ha) nofun) trivial
  | dropFuture k =>
    exact iff_of_true (ownControl_of_same howns (sameNames_closeReceiver s k)
      (fun ⟨_, ha⟩ => nomatch ha) nofun) trivial
  | cancelControl k =>
    exact iff_of_true (ownControl_of_same howns (sameNames_of_eq rfl rfl)
      (fun ⟨_, ha⟩ => nomatch ha) nofun) trivial
  | expireControl k =>
    exact iff_of_true (ownControl_of_same howns (sameNames_of_eq rfl rfl)
      (fun ⟨_, ha⟩ => nomatch ha) nofun) trivial

theorem ownsControls_new (config : ServerConfig) : OwnsControls (Server.new config) := by
  rintro k id ⟨g, hk, _⟩
  cases hk

/-- In every interleaving from a new server the live requests own their controls, releases
spare the others and cancellations reach them, if and only if no request comes to store its
control under the id of a live one. -/
theorem control_ownership_iff (config : ServerConfig) (run : List (Action × Server))
    (hrun : IsRun Step (Server.new config) run) :
    Along OwnControl (Server.new config) run ↔ Meets FreshId (Server.new config) run :=
  along_steps_iff_meets Step (fun s => SoundServer s ∧ OwnsControls s) OwnControl FreshId
    (fun _ _ _ => ownControl_iff)
    (fun _ _ _ hs hstep hfresh =>
      ⟨soundServer_step hs.1 hstep, ((ownControl_iff hs hstep).mpr hfresh).1⟩)
    (Server.new config) run ⟨(balanced_new config).sound, ownsControls_new config⟩ hrun

/-- Two context updates, one after the other. -/
def oneAfterAnother : List (Action × Server) :=
  follow perform (Server.new oneAtATime) [.tryAdmit "op", .dropGuard 0, .tryAdmit "op",
    .cancel "op", .dropGuard 1]

theorem reused_id_is_owned :
    IsRun Step (Server.new oneAtATime) oneAfterAnother ∧
      Along OwnControl (Server.new oneAtATime) oneAfterAnother := by
  have hunused : ∀ s : Server, s.guards = ∅ → Unused s "op" := by
    rintro s hs k ⟨g, hk, _⟩
    rw [hs] at hk
    cases hk
  refine ⟨isRun_follow _ _ _, (control_ownership_iff oneAtATime _ (isRun_follow _ _ _)).mpr ?_⟩
  refine ⟨fun _ _ _ _ => hunused _ rfl, trivial, fun _ _ _ _ => hunused _ ?_, trivial, trivial,
    trivial⟩
  exact AList.ext (by decide)

def twoAtATime : ServerConfig :=
  ⟨2, 32, 1024, 1024, 16, 256, 1024, 1000, 1000, 1000, 8, 1000, true, 1, 1, 1, 1⟩

/-- A context update is sent again with the same operation id while the first one runs. -/
def sentAgain : List (Action × Server) :=
  follow perform (Server.new twoAtATime) [.tryAdmit "op", .tryAdmit "op", .dropGuard 0]

/-- The first release completes the control of the second request and takes it from the map. -/
theorem colliding_id_loses_control :
    IsRun Step (Server.new twoAtATime) sentAgain ∧
      ¬Along OwnControl (Server.new twoAtATime) sentAgain ∧
      (last (Server.new twoAtATime) sentAgain).controls.lookup 1 = some .complete ∧
      (last (Server.new twoAtATime) sentAgain).inner.controls.lookup "op" = none := by
  refine ⟨isRun_follow _ _ _, ?_, by decide, by decide⟩
  rintro ⟨_, ⟨howns, _⟩, _⟩
  have hheld := howns 0 "op" ⟨_, rfl, rfl⟩
  exact absurd hheld (by decide)

end Cusco.ControlOwnership
