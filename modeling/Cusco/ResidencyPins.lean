import Cusco.ResidencyBudgets

/-!
Pinning of resident models. Leases and sessions are counted by what the agents hold, so
a model in use is one that some call or session still refers to. A removal examines
one model and removes whatever its key holds; it spares models in use exactly when the
entry found there is unused too.
-/

namespace Cusco.Residency

open Admission (ControlState Error)
open Runs

variable {config : Config}

/-- Entries in use stay where they are. -/
def KeepsUsed (s t : State) : Prop :=
  ∀ k m, s.entries.lookup k = some m → ¬s.unused m → t.entries.lookup k = some m

/-- No session was told that its model disappeared. -/
def NoneDisappeared (s : State) : Prop :=
  ∀ a ∈ s.agents, ∀ m, a.stage ≠ .suspended m (some .disappeared)

/-- The entry under the key of a model is not in use. -/
def EntryUnused (s : State) (m : ModelRef) : Prop :=
  ∀ n ∈ s.entries.lookup (s.key m), s.unused n

instance (s : State) (m : ModelRef) : Decidable (EntryUnused s m) :=
  inferInstanceAs (Decidable (∀ n ∈ _, _))

/-- The condition on a step: a removal finds an entry that nothing uses. -/
def Guarded (config : Config) (s : State) : Action → Prop
  | .publish i profile =>
    ∀ a ∈ s.agents[i]?, ∀ p ∈ a.stage.publication,
      s.entries.lookup a.record.key = none → s.fitsRetained config p.1 p.2 = true →
        profile = none → ∀ v ∈ p.2, (s.model v).active = 0 → EntryUnused s v
  | .release i | .leave i =>
    ∀ m ∈ (s.stage i).bind Stage.settles,
      (s.model m).retiring = true → s.unused m → EntryUnused s m
  | _ => True

instance (config : Config) (s : State) (action : Action) : Decidable (Guarded config s action) :=
  match action with
  | .publish _ _ =>
    inferInstanceAs (Decidable (∀ a ∈ _, ∀ p ∈ _, _ → _ → _ → ∀ v ∈ _, _ → EntryUnused _ _))
  | .release _ | .leave _ => inferInstanceAs (Decidable (∀ m ∈ _, _ → _ → EntryUnused _ _))
  | .prepare _ | .start _ | .find _ _ | .estimate _ _ _ | .plan _ _ _ | .load _ _ _
  | .acquire _ _ _ | .begin _ _ | .giveBack _ | .drop _ | .commit _ | .retire _ _ => isTrue trivial

/-- Both counters of every model count the agents that hold it. -/
structure Counted (s : State) : Prop where
  active : ∀ m, (s.model m).active = s.agents.countP (fun a => decide (a.stage.leases = some m))
  sessions : ∀ m,
    (s.model m).sessions = s.agents.countP (fun a => decide (a.stage.session = some m))

/-- What a move changes about a counter is what it changes about its agent. -/
def Balances (held held' : Option ModelRef) (count count' : ModelRef → ℕ) : Prop :=
  ∀ m, count' m + (if held = some m then 1 else 0) = count m + (if held' = some m then 1 else 0)

theorem Balances.of_eq {held held' : Option ModelRef} (count count' : ModelRef → ℕ)
    (hheld : held' = held) (h : ∀ m, count' m = count m) : Balances held held' count count' := by
  intro m
  rw [hheld, h m]

theorem Balances.take (n : ModelRef) (count count' : ModelRef → ℕ)
    (h : ∀ m, count' m = if m = n then count m + 1 else count m) :
    Balances none (some n) count count' := by
  intro m
  rw [h m]
  by_cases hm : m = n
  · simp [hm]
  · simp [hm, Ne.symm hm]

theorem Balances.give (n : ModelRef) (count count' : ModelRef → ℕ) (hpos : 0 < count n)
    (h : ∀ m, count' m = if m = n then count m - 1 else count m) :
    Balances (some n) none count count' := by
  intro m
  rw [h m]
  by_cases hm : m = n
  · subst hm
    simp
    omega
  · simp [hm, Ne.symm hm]

theorem countP_set_add {α : Type} (p : α → Bool) (l : List α) (i : ℕ) (a b : α)
    (h : l[i]? = some a) :
    (l.set i b).countP p + (if p a then 1 else 0) = l.countP p + (if p b then 1 else 0) := by
  induction l generalizing i with
  | nil => simp at h
  | cons x rest ih =>
    cases i with
    | zero =>
      simp only [List.getElem?_cons_zero, Option.some.injEq] at h
      subst h
      simp only [List.set_cons_zero, List.countP_cons]
      omega
    | succ i =>
      have hrest := ih i (by simpa using h)
      simp only [List.set_cons_succ, List.countP_cons]
      omega

theorem Counted.goto {s s' : State} {i : ℕ} {a : Agent} {stage : Stage} (h : Counted s)
    (ha : s.agents[i]? = some a) (hagents : s'.agents = s.agents)
    (hactive : Balances a.stage.leases stage.leases (fun m => (s.model m).active)
      (fun m => (s'.model m).active))
    (hsessions : Balances a.stage.session stage.session (fun m => (s.model m).sessions)
      (fun m => (s'.model m).sessions)) : Counted (s'.goto i a stage) where
  active := by
    intro m
    have hset := countP_set_add (fun b : Agent => decide (b.stage.leases = some m)) s.agents i a
      { a with stage := stage } ha
    have hm := hactive m
    have hold := h.active m
    simp only [decide_eq_true_eq] at hset hm
    rw [State.goto_agents, State.goto_model, hagents]
    omega
  sessions := by
    intro m
    have hset := countP_set_add (fun b : Agent => decide (b.stage.session = some m)) s.agents i a
      { a with stage := stage } ha
    have hm := hsessions m
    have hold := h.sessions m
    simp only [decide_eq_true_eq] at hset hm
    rw [State.goto_agents, State.goto_model, hagents]
    omega

theorem Counted.active_pos {s : State} (h : Counted s) (a : Agent) (ha : a ∈ s.agents)
    (m : ModelRef) (hlease : a.stage.leases = some m) : 0 < (s.model m).active := by
  rw [h.active m]
  exact List.countP_pos_iff.mpr ⟨a, ha, by simpa using hlease⟩

theorem Counted.sessions_pos {s : State} (h : Counted s) (a : Agent) (ha : a ∈ s.agents)
    (m : ModelRef) (hsession : a.stage.session = some m) : 0 < (s.model m).sessions := by
  rw [h.sessions m]
  exact List.countP_pos_iff.mpr ⟨a, ha, by simpa using hsession⟩

/-- Neither counter of any model has changed. -/
def SameCounts (s s' : State) : Prop :=
  ∀ m, (s'.model m).active = (s.model m).active ∧ (s'.model m).sessions = (s.model m).sessions

theorem SameCounts.refl (s : State) : SameCounts s s := fun _ => ⟨rfl, rfl⟩

theorem SameCounts.trans {s t u : State} (h : SameCounts s t) (h' : SameCounts t u) :
    SameCounts s u :=
  fun m => ⟨(h' m).1.trans (h m).1, (h' m).2.trans (h m).2⟩

theorem SameCounts.modify (s : State) (m : ModelRef) (f : ResidentModel → ResidentModel)
    (hf : ∀ r, (f r).active = r.active ∧ (f r).sessions = r.sessions) :
    SameCounts s (s.modify m f) := by
  intro n
  rw [State.modify_model]
  split
  · exact hf _
  · exact ⟨rfl, rfl⟩

theorem SameCounts.touch (s : State) (m : ModelRef) : SameCounts s (s.touch m) :=
  SameCounts.modify s m (fun r => { r with lastUsed := s.tick }) (fun _ => ⟨rfl, rfl⟩)

theorem SameCounts.spillAll (s : State) (ms : List ModelRef) : SameCounts s (s.spillAll ms) := by
  intro m
  rw [spillAll_model]
  split <;> exact ⟨rfl, rfl⟩

theorem SameCounts.reload (s : State) (m : ModelRef) : SameCounts s (s.reload m) :=
  SameCounts.modify s m (fun r => { r with contextResident := true }) (fun _ => ⟨rfl, rfl⟩)

theorem SameCounts.settle (s : State) (m : ModelRef) : SameCounts s (s.settle m) := by
  unfold State.settle
  split <;> exact fun _ => ⟨rfl, rfl⟩

theorem SameCounts.retireEntry (s : State) (e : Sigma fun _ : Key => ModelRef) :
    SameCounts s (s.retireEntry e) := by
  have hretired := SameCounts.modify s e.2 (fun r => { r with retiring := true })
    (fun _ => ⟨rfl, rfl⟩)
  simp only [State.retireEntry]
  split
  · exact hretired.trans (fun _ => ⟨rfl, rfl⟩)
  · exact hretired

theorem SameCounts.retireEntries (s : State) (es : List (Sigma fun _ : Key => ModelRef)) :
    SameCounts s (es.foldl State.retireEntry s) := by
  induction es generalizing s with
  | nil => exact SameCounts.refl s
  | cons e rest ih => exact (SameCounts.retireEntry s e).trans (ih _)

theorem SameCounts.retireModel (s : State) (id : String) (epoch : ℕ) :
    SameCounts s (s.retireModel id epoch) := by
  unfold State.retireModel
  split
  · exact SameCounts.retireEntry s _
  · exact SameCounts.refl s

/-- Nothing counts on a reference that has not been used. -/
theorem Counted.fresh {s : State} (h : Counted s) (hregistered : Registered s) :
    (s.model s.fresh).active = 0 ∧ (s.model s.fresh).sessions = 0 := by
  rw [h.active, h.sessions]
  constructor
  · refine List.countP_eq_zero.mpr ?_
    intro a ha hlease
    exact Nat.lt_irrefl _ (hregistered.held a ha s.fresh (.inl (by simpa using hlease)))
  · refine List.countP_eq_zero.mpr ?_
    intro a ha hsession
    exact Nat.lt_irrefl _ (hregistered.held a ha s.fresh (.inr (by simpa using hsession)))

theorem SameCounts.insertLoaded {s : State} (h : Counted s) (hregistered : Registered s)
    (record : Record) (point : Point) (victims : List ModelRef) :
    SameCounts s (s.insertLoaded record point victims) := by
  intro m
  by_cases hm : m = s.fresh
  · subst hm
    obtain ⟨hactive, hsessions⟩ := h.fresh hregistered
    rw [hactive, hsessions]
    simp [State.insertLoaded]
  · rw [insertLoaded_model s record point victims m hm]
    exact ⟨rfl, rfl⟩

theorem lease_counts (s : State) (target m : ModelRef) :
    ((s.lease target).model m).active =
        (if m = target then (s.model m).active + 1 else (s.model m).active) ∧
      ((s.lease target).model m).sessions = (s.model m).sessions := by
  obtain ⟨hactive, hsessions⟩ := SameCounts.touch
    (s.modify target (fun r => { r with active := r.active + 1 })) target m
  unfold State.lease
  rw [hactive, hsessions, State.modify_model]
  split <;> exact ⟨rfl, rfl⟩

/-- A successful acquisition takes a lease on its target, and others change no count. -/
theorem acquire_counts (config : Config) (target : ModelRef) (idle : List ModelRef)
    (demote : ModelRef → Demotion) (s : State) (hidle : idle.Nodup) :
    ((s.acquireEntry config target idle demote).1 = .ok true ∧ s.resident target ∧
      ∃ u, SameCounts s u ∧ (s.acquireEntry config target idle demote).2 = u.lease target) ∨
    ((s.acquireEntry config target idle demote).1 ≠ .ok true ∧
      ((s.acquireEntry config target idle demote).1 = .ok false → ¬s.resident target) ∧
      SameCounts s (s.acquireEntry config target idle demote).2) := by
  rcases acquire_cases config target idle demote s hidle with
    ⟨hgone, heq⟩ | ⟨hresident, _, heq⟩ | ⟨hresident, _, ms, _, _, ⟨_, heq⟩ | ⟨_, failure, _, heq⟩⟩
  · rw [heq]
    exact .inr ⟨by simp, fun _ => hgone, SameCounts.refl s⟩
  · rw [heq]
    exact .inl ⟨rfl, hresident, s, SameCounts.refl s, rfl⟩
  · rw [heq]
    exact .inl ⟨rfl, hresident, _,
      (SameCounts.spillAll s ms).trans (SameCounts.reload _ target), rfl⟩
  · rw [heq]
    exact .inr ⟨by simp, by simp, SameCounts.spillAll s ms⟩

/-- The counters change by what an agent takes or gives back on its way to the second stage. -/
def Balanced (s s' : State) (stage stage' : Stage) : Prop :=
  Balances stage.leases stage'.leases (fun m => (s.model m).active)
      (fun m => (s'.model m).active) ∧
    Balances stage.session stage'.session (fun m => (s.model m).sessions)
      (fun m => (s'.model m).sessions)

section Balanced

variable {s s' : State} {stage stage' : Stage}

theorem Balanced.of_same (h : SameCounts s s') (hlease : stage'.leases = stage.leases)
    (hsession : stage'.session = stage.session) : Balanced s s' stage stage' :=
  ⟨.of_eq _ _ hlease (fun m => (h m).1), .of_eq _ _ hsession (fun m => (h m).2)⟩

theorem Balanced.of_lease (n : ModelRef) (h : SameCounts s s') (hlease : stage.leases = none)
    (hlease' : stage'.leases = some n) (hsession : stage'.session = stage.session) :
    Balanced s (s'.lease n) stage stage' := by
  refine ⟨?_, .of_eq _ _ hsession ?_⟩
  · rw [hlease, hlease']
    apply Balances.take
    intro m
    rw [(lease_counts s' n m).1, (h m).1]
  · intro m
    rw [(lease_counts s' n m).2, (h m).2]

theorem loadedStage_free (a : Agent) (n : ModelRef) :
    (loadedStage a n).leases = none ∧ (loadedStage a n).session = none := by
  unfold loadedStage
  split <;> exact ⟨rfl, rfl⟩

theorem SameCounts.plan {estimate : Point} {idle : List ModelRef} {demote : ModelRef → Demotion}
    (hidle : idle.Nodup) : SameCounts s (s.plan config estimate idle demote).2 := by
  obtain ⟨ms, hms⟩ := spillIdle_spec (State.fitsAll config estimate) demote s idle hidle
  rw [plan_state, hms.state]
  exact SameCounts.spillAll s ms

theorem SameCounts.publish {record : Record} {point : Point} {victims : List ModelRef}
    {profile : Option Error} (h : Registered s) (hcounted : Counted s) :
    SameCounts s (s.publish config record point victims profile).2 := by
  rcases publish_cases config record point victims profile s with ⟨heq, _⟩ | ⟨_, _, rfl, heq⟩
  · rw [heq]
    exact SameCounts.refl s
  · rw [heq]
    exact SameCounts.insertLoaded hcounted h record point victims

/-- An acquisition takes a lease exactly when it succeeds. -/
theorem Balanced.acquire {n : ModelRef} {idle : List ModelRef} {demote : ModelRef → Demotion}
    (hidle : idle.Nodup) (next : Except Failure Bool → Stage) (hlease : stage.leases = none)
    (htaken : (next (.ok true)).leases = some n)
    (hother : ∀ r, r ≠ .ok true → (next r).leases = none)
    (hsession : ∀ r, (next r).session = stage.session) :
    Balanced s (s.acquireEntry config n idle demote).2 stage
      (next (s.acquireEntry config n idle demote).1) := by
  rcases acquire_counts config n idle demote s hidle with
    ⟨hok, _, u, hu, heq⟩ | ⟨hok, _, hstate⟩
  · rw [hok, heq]
    exact .of_lease n hu hlease htaken (hsession _)
  · exact .of_same hstate ((hother _ hok).trans hlease.symm) (hsession _)

end Balanced

/-- Every move changes the counters by what its agent takes or gives back. -/
theorem Move.balances {s s' : State} {a : Agent} {action : Action} {stage : Stage}
    (hmove : Move config s a action s' stage) (h : Registered s) (hcounted : Counted s)
    (ha : a ∈ s.agents) : Balanced s s' a.stage stage := by
  cases hmove with
  | walk action stage hwalks hlease hsession hlease' hsession' =>
    exact .of_same (SameCounts.refl s) (hlease'.trans hlease.symm) (hsession'.trans hsession.symm)
  | hit i control n hstage hentry =>
    rw [hstage]
    exact .of_same (SameCounts.touch s n) (loadedStage_free a n).1 (loadedStage_free a n).2
  | plan i idle demote estimate hstage hidle =>
    refine .of_same (SameCounts.plan (h.idle_nodup _ idle hidle)) ?_ ?_
    all_goals
      rw [hstage]
      cases (s.plan config estimate idle demote).1 <;> rfl
  | publish i profile point victims hstage =>
    refine .of_same (SameCounts.publish h hcounted) ?_ ?_
    · rw [hstage]
      cases (s.publish config a.record point victims profile).1 with
      | ok n => exact (loadedStage_free a n).1
      | error failure => rfl
    · rw [hstage]
      cases (s.publish config a.record point victims profile).1 with
      | ok n => exact (loadedStage_free a n).2
      | error failure => rfl
  | start i idle demote n hstage hidle =>
    rw [hstage]
    refine .acquire (h.idle_nodup _ idle hidle) (startedStage n) rfl rfl ?_ ?_
    · rintro (failure | _ | _) hok
      · rfl
      · rfl
      · exact absurd rfl hok
    · rintro (failure | _ | _) <;> rfl
  | resume i idle demote n last hstage hidle =>
    rw [hstage]
    refine .acquire (h.idle_nodup _ idle hidle) (resumedStage n) rfl rfl ?_ ?_
    · rintro (failure | _ | _) hok
      · rfl
      · rfl
      · exact absurd rfl hok
    · rintro (failure | _ | _) <;> rfl
  | refuse i n error hstage =>
    rw [hstage]
    exact .of_same (SameCounts.refl s) rfl rfl
  | begin i n hstage =>
    rw [hstage]
    refine ⟨.of_eq _ _ rfl ?_, .take n _ _ ?_⟩
    · intro m
      rw [State.countSession, State.modify_model]
      split <;> rfl
    · intro m
      rw [State.countSession, State.modify_model]
      split <;> rfl
  | giveBack i n stage hlease hlease' hsession hlast =>
    have hpos := hcounted.active_pos a ha n hlease
    refine ⟨?_, .of_eq _ _ hsession ?_⟩
    · rw [hlease, hlease']
      refine .give n _ _ hpos ?_
      intro m
      rw [State.giveBack, State.modify_model]
      split <;> rfl
    · intro m
      rw [State.giveBack, State.modify_model]
      split <;> rfl
  | settle action n stage haction hsettles hlease hsession hlast =>
    refine .of_same (SameCounts.settle s n) ?_ hsession
    revert hsettles
    rw [hlease]
    cases a.stage <;> simp [Stage.settles, Stage.leases]
  | drop i n last hstage =>
    have hpos := hcounted.sessions_pos a ha n (by rw [hstage]; rfl)
    rw [hstage]
    refine ⟨.of_eq _ _ rfl ?_, .give n _ _ hpos ?_⟩
    · intro m
      rw [State.dropSession, State.modify_model]
      split <;> rfl
    · intro m
      rw [State.dropSession, State.modify_model]
      split <;> rfl

theorem Counted.of_same {s s' : State} (h : Counted s) (hsame : SameCounts s s')
    (hagents : s'.agents = s.agents) : Counted s' where
  active := fun m => by rw [(hsame m).1, hagents, h.active m]
  sessions := fun m => by rw [(hsame m).2, hagents, h.sessions m]

theorem Counted.initial : Counted State.initial := ⟨fun _ => rfl, fun _ => rfl⟩

theorem Counted.step {s t : State} {action : Action} (hcounted : Counted s) (h : Registered s)
    (hstep : Step config s action t) : Counted t := by
  rcases step_cases config s t action hstep with
    ⟨_, ⟨record, starts, rfl⟩ | ⟨record, rfl⟩ | ⟨id, epoch, rfl⟩⟩ |
      ⟨i, a, s', stage, _, ha, hmove, rfl⟩
  · refine ⟨fun m => ?_, fun m => ?_⟩
    · simpa [State.enter, Stage.leases] using hcounted.active m
    · simpa [State.enter, Stage.session] using hcounted.sessions m
  · exact hcounted.of_same (SameCounts.retireEntries s _) (retireOtherEpochs_agents s record)
  · exact hcounted.of_same (SameCounts.retireModel s id epoch) (retireModel_agents s id epoch)
  · obtain ⟨hactive, hsessions⟩ := hmove.balances h hcounted (List.mem_of_getElem? ha)
    exact hcounted.goto ha (hmove.agents h) hactive hsessions

theorem SameCounts.unused {s s' : State} (h : SameCounts s s') (m : ModelRef) :
    s'.unused m ↔ s.unused m := by
  unfold State.unused
  rw [(h m).1, (h m).2]

theorem KeepsUsed.of_entries {s t : State} (h : t.entries = s.entries) : KeepsUsed s t := by
  intro k m hm _
  rw [h]
  exact hm

/-- An entry retires by itself, so one in use stays. -/
theorem retireEntry_keeps (s : State) (e : Sigma fun _ : Key => ModelRef) (k : Key) (m : ModelRef)
    (he : e.1 = k → e.2 = m) (hm : s.entries.lookup k = some m) (hused : ¬s.unused m) :
    (s.retireEntry e).entries.lookup k = some m := by
  simp only [State.retireEntry]
  split
  · rename_i hunused
    have hne : k ≠ e.1 := by
      intro hk
      rw [he hk.symm] at hunused
      exact hused hunused
    rw [AList.lookup_erase_ite, if_neg hne]
    exact hm
  · exact hm

theorem retireEntries_keeps (s : State) (es : List (Sigma fun _ : Key => ModelRef)) (k : Key)
    (m : ModelRef) (hes : ∀ e ∈ es, e.1 = k → e.2 = m) (hm : s.entries.lookup k = some m)
    (hused : ¬s.unused m) : (es.foldl State.retireEntry s).entries.lookup k = some m := by
  induction es generalizing s with
  | nil => exact hm
  | cons e rest ih =>
    apply ih (s.retireEntry e) (fun e' he' => hes e' (List.mem_cons_of_mem _ he'))
    · exact retireEntry_keeps s e k m (hes e List.mem_cons_self) hm hused
    · rw [(SameCounts.retireEntry s e).unused m]
      exact hused

theorem retireOtherEpochs_keeps (s : State) (record : Record) :
    KeepsUsed s (s.retireOtherEpochs record) := by
  intro k m hm hused
  refine retireEntries_keeps s _ k m ?_ hm hused
  intro e he hk
  have hentry := (AList.mem_entries_iff s.entries e.1 e.2).mp (List.mem_filter.mp he).1
  rw [hk, hm] at hentry
  exact (Option.some.inj hentry).symm

theorem retireModel_keeps (s : State) (id : String) (epoch : ℕ) :
    KeepsUsed s (s.retireModel id epoch) := by
  intro k m hm hused
  unfold State.retireModel
  split
  · rename_i n hn
    refine retireEntry_keeps s _ k m ?_ hm hused
    intro hk
    rw [← hk, hn] at hm
    exact Option.some.inj hm
  · exact hm

/-- What the section after an atomic decrement removes is in use exactly when the entry
it finds there is. -/
theorem settle_keeps_iff (s : State) (m : ModelRef) :
    KeepsUsed s (s.settle m) ↔ ((s.model m).retiring = true → s.unused m → EntryUnused s m) := by
  unfold State.settle
  by_cases hremoves : (s.model m).retiring = true ∧ s.unused m
  · rw [if_pos hremoves]
    constructor
    · intro hkeeps _ _ n hn
      by_contra hused
      have hkept := hkeeps (s.key m) n hn hused
      rw [AList.lookup_erase_ite, if_pos rfl] at hkept
      cases hkept
    · intro hguard k n hn hused
      have hne : k ≠ s.key m := by
        intro hk
        rw [hk] at hn
        exact hused (hguard hremoves.1 hremoves.2 n hn)
      rw [AList.lookup_erase_ite, if_neg hne]
      exact hn
  · rw [if_neg hremoves]
    exact ⟨fun _ hretiring hunused => absurd ⟨hretiring, hunused⟩ hremoves,
      fun _ => KeepsUsed.of_entries rfl⟩

theorem insertLoaded_keeps_iff (s : State) (record : Record) (point : Point)
    (victims : List ModelRef) (hlookup : s.entries.lookup record.key = none) :
    KeepsUsed s (s.insertLoaded record point victims) ↔
      ∀ v ∈ victims, (s.model v).active = 0 → EntryUnused s v := by
  have hafter : ∀ k, k ≠ record.key → (s.insertLoaded record point victims).entries.lookup k =
      if k ∈ s.gone victims then none else s.entries.lookup k := by
    intro k hk
    simp only [State.insertLoaded]
    rw [AList.lookup_insert_ite, if_neg hk, AList.lookup_eraseAll]
    congr
  have hother : ∀ k m, s.entries.lookup k = some m → k ≠ record.key := by
    intro k m hm hk
    rw [hk, hlookup] at hm
    cases hm
  constructor
  · intro hkeeps v hv hactive n hn
    by_contra hused
    have hkept := hkeeps (s.key v) n hn hused
    have hgone : s.key v ∈ s.gone victims :=
      List.mem_map.mpr ⟨v, List.mem_filter.mpr ⟨hv, by simpa using hactive⟩, rfl⟩
    rw [hafter _ (hother _ n hn), if_pos hgone] at hkept
    cases hkept
  · intro hguard k n hn hused
    rw [hafter k (hother k n hn), if_neg]
    · exact hn
    · intro hgone
      obtain ⟨v, hv, rfl⟩ := List.mem_map.mp hgone
      obtain ⟨hv, hactive⟩ := List.mem_filter.mp hv
      exact hused (hguard v hv (by simpa using hactive) n hn)

/-- A move keeps the entries in use exactly when it meets the condition. -/
theorem Move.keeps_iff {s s' : State} {a : Agent} {action : Action} {stage : Stage}
    (hmove : Move config s a action s' stage) (i : ℕ) (ha : s.agents[i]? = some a)
    (hi : action.agent = some i) (h : Registered s) : KeepsUsed s s' ↔ Guarded config s action := by
  have hquiet : s'.entries = s.entries → Guarded config s action →
      (KeepsUsed s s' ↔ Guarded config s action) :=
    fun hentries hguarded => iff_of_true (KeepsUsed.of_entries hentries) hguarded
  have hstageAt : s.stage i = some a.stage := by
    rw [State.stage, ha]
    rfl
  cases hmove with
  | walk action stage hwalks hlease hsession hlease' hsession' =>
    refine hquiet rfl ?_
    cases action <;> trivial
  | hit j control n hstage hentry => exact hquiet rfl trivial
  | plan j idle demote estimate hstage hidle =>
    refine hquiet ?_ trivial
    obtain ⟨ms, hms⟩ := spillIdle_spec (State.fitsAll config estimate) demote s idle
      (h.idle_nodup _ idle hidle)
    rw [plan_state, hms.state, spillAll_entries]
  | publish j profile point victims hstage =>
    cases hi
    have hguarded : Guarded config s (.publish i profile) ↔
        (s.entries.lookup a.record.key = none → s.fitsRetained config point victims = true →
          profile = none → ∀ v ∈ victims, (s.model v).active = 0 → EntryUnused s v) := by
      simp only [Guarded, ha, hstage, Stage.publication, Option.mem_def, Option.some.injEq,
        forall_eq']
    rw [hguarded]
    rcases publish_cases config a.record point victims profile s with
      ⟨heq, hreason⟩ | ⟨hlookup, hfits, rfl, heq⟩
    · rw [heq]
      refine iff_of_true (KeepsUsed.of_entries rfl) ?_
      exact fun hlookup hfits hprofile => absurd ⟨hlookup, hfits, hprofile⟩ hreason
    · rw [heq, insertLoaded_keeps_iff s a.record point victims hlookup]
      simp [hlookup, hfits]
  | start j idle demote n hstage hidle =>
    exact hquiet (acquire_entries config n idle demote s (h.idle_nodup _ idle hidle)) trivial
  | resume j idle demote n last hstage hidle =>
    exact hquiet (acquire_entries config n idle demote s (h.idle_nodup _ idle hidle)) trivial
  | refuse j n error hstage => exact hquiet rfl trivial
  | begin j n hstage => exact hquiet rfl trivial
  | giveBack j n stage hlease hlease' hsession hlast => exact hquiet rfl trivial
  | settle action n stage haction hsettles hlease hsession hlast =>
    rw [settle_keeps_iff]
    obtain ⟨j, rfl | rfl⟩ := haction
    all_goals
      cases hi
      simp only [Guarded, hstageAt, Option.bind_some, hsettles, Option.mem_def, Option.some.injEq,
        forall_eq']
  | drop j n last hstage => exact hquiet rfl trivial

theorem keeps_iff_guarded (config : Config) (s t : State) (action : Action) (h : Registered s)
    (hstep : Step config s action t) : KeepsUsed s t ↔ Guarded config s action := by
  rcases step_cases config s t action hstep with
    ⟨hnone, hcall⟩ | ⟨i, a, s', stage, hi, ha, hmove, rfl⟩
  · have hguarded : Guarded config s action := by
      cases action <;> trivial
    refine iff_of_true ?_ hguarded
    rcases hcall with ⟨record, starts, rfl⟩ | ⟨record, rfl⟩ | ⟨id, epoch, rfl⟩
    · exact KeepsUsed.of_entries rfl
    · exact retireOtherEpochs_keeps s record
    · exact retireModel_keeps s id epoch
  · exact hmove.keeps_iff i ha hi h

/-- Whatever an agent holds is still the entry under its key. -/
structure Pinned (s : State) : Prop where
  resident : ∀ a ∈ s.agents, ∀ m, a.stage.leases = some m ∨ a.stage.session = some m →
    s.resident m
  none_disappeared : NoneDisappeared s

theorem Pinned.initial : Pinned State.initial :=
  ⟨fun _ ha => (nomatch ha), fun _ ha => (nomatch ha)⟩

theorem Counted.used {s : State} (h : Counted s) (a : Agent) (ha : a ∈ s.agents) (m : ModelRef)
    (hheld : a.stage.leases = some m ∨ a.stage.session = some m) : ¬s.unused m := by
  intro hunused
  rcases hheld with hlease | hsession
  · have := h.active_pos a ha m hlease
    rw [hunused.1] at this
    exact Nat.lt_irrefl 0 this
  · have := h.sessions_pos a ha m hsession
    rw [hunused.2] at this
    exact Nat.lt_irrefl 0 this

/-- What was resident and in use stays resident. -/
theorem KeepsUsed.resident {s t : State} (h : KeepsUsed s t) (m : ModelRef)
    (hrecord : (t.model m).record = (s.model m).record) (hresident : s.resident m)
    (hused : ¬s.unused m) : t.resident m := by
  have hkept := h (s.key m) m hresident hused
  have hkey : t.key m = s.key m := by
    unfold State.key
    rw [hrecord]
  unfold State.resident
  rw [hkey]
  exact hkept

theorem step_record {s t : State} {action : Action} (h : Registered s)
    (hstep : Step config s action t) (m : ModelRef) (hm : m < s.fresh) :
    (t.model m).record = (s.model m).record := by
  rcases step_cases config s t action hstep with
    ⟨_, ⟨record, starts, rfl⟩ | ⟨record, rfl⟩ | ⟨id, epoch, rfl⟩⟩ |
      ⟨i, a, s', stage, _, ha, hmove, rfl⟩
  · rfl
  · exact (Frame.retireEntries s _).record m
  · exact (Frame.retireModel s id epoch).record m
  · rcases hmove.frame h with hframe | ⟨_, point, victims, _, _, _, _, rfl, _⟩
    · exact hframe.record m
    · rw [State.goto_model, insertLoaded_model s a.record point victims m (Nat.ne_of_lt hm)]

/-- A move never tells a session with a resident model that it disappeared. -/
theorem Move.not_disappeared {s s' : State} {a : Agent} {action : Action} {stage : Stage}
    (hmove : Move config s a action s' stage) (h : Registered s)
    (hpinned : ∀ m, a.stage.session = some m → s.resident m) (m : ModelRef) :
    stage ≠ .suspended m (some .disappeared) := by
  intro heq
  have hsession : stage.session = some m := by
    rw [heq]
    rfl
  cases hmove with
  | walk action stage hwalks hlease hsession₀ hlease' hsession' =>
    rw [hsession'] at hsession
    cases hsession
  | hit i control n hstage hentry =>
    unfold loadedStage at heq
    split at heq <;> cases heq
  | plan i idle demote estimate hstage hidle =>
    cases hresult : (s.plan config estimate idle demote).1 <;>
      simp [hresult, plannedStage] at heq
  | publish i profile point victims hstage =>
    cases hresult : (s.publish config a.record point victims profile).1 with
    | ok n =>
      simp only [hresult, publishedStage, loadedStage] at heq
      split at heq <;> cases heq
    | error failure => simp [hresult, publishedStage] at heq
  | start i idle demote n hstage hidle =>
    cases hresult : (s.acquireEntry config n idle demote).1 with
    | ok acquired => cases acquired <;> simp [hresult, startedStage] at heq
    | error failure => simp [hresult, startedStage] at heq
  | resume i idle demote n last hstage hidle =>
    have hresident := hpinned n (by rw [hstage]; rfl)
    rcases acquire_cases config n idle demote s (h.idle_nodup _ idle hidle) with
      ⟨hgone, _⟩ | ⟨_, _, hresult⟩ | ⟨_, _, ms, _, _, ⟨_, hresult⟩ | ⟨_, failure, hne, hresult⟩⟩
    · exact hgone hresident
    · simp [hresult, resumedStage] at heq
    · simp [hresult, resumedStage] at heq
    · simp [hresult, resumedStage, hne] at heq
  | refuse i n error hstage => cases heq
  | begin i n hstage => cases heq
  | giveBack i n stage hlease hlease' hsession' hlast => exact hlast m heq
  | settle action n stage haction hsettles hlease hsession' hlast => exact hlast m heq
  | drop i n last hstage => cases heq

/-- What holds in every state of a run that spares the entries in use. -/
structure PinInvariant (s : State) : Prop where
  registered : Registered s
  counted : Counted s
  pinned : Pinned s

theorem PinInvariant.initial : PinInvariant State.initial :=
  ⟨Registered.initial, Counted.initial, Pinned.initial⟩

/-- A step that spares the entries in use keeps every session's model resident. -/
theorem PinInvariant.step {s t : State} {action : Action} (h : PinInvariant s)
    (hstep : Step config s action t) (hkeeps : KeepsUsed s t) : PinInvariant t := by
  refine ⟨h.registered.step hstep, h.counted.step h.registered hstep, ?_⟩
  have hstays : ∀ a ∈ s.agents, ∀ m, a.stage.leases = some m ∨ a.stage.session = some m →
      t.resident m := by
    intro a ha m hheld
    have hm := h.registered.held a ha m hheld
    exact hkeeps.resident m (step_record h.registered hstep m hm)
      (h.pinned.resident a ha m hheld) (h.counted.used a ha m hheld)
  rcases step_cases config s t action hstep with
    ⟨_, hcall⟩ | ⟨i, a, s', stage, _, ha, hmove, rfl⟩
  · have hagents : ∀ a ∈ t.agents, a ∈ s.agents ∨ a.stage = .lookup := by
      rcases hcall with ⟨record, starts, rfl⟩ | ⟨record, rfl⟩ | ⟨id, epoch, rfl⟩
      · intro a ha
        rcases List.mem_append.mp ha with ha | ha
        · exact .inl ha
        · exact .inr (by rw [List.mem_singleton.mp ha])
      · intro a ha
        rw [retireOtherEpochs_agents] at ha
        exact .inl ha
      · intro a ha
        rw [retireModel_agents] at ha
        exact .inl ha
    constructor
    · intro a ha m hheld
      rcases hagents a ha with hold | hlookup
      · exact hstays a hold m hheld
      · simp [hlookup, Stage.leases, Stage.session] at hheld
    · intro a ha m
      rcases hagents a ha with hold | hlookup
      · exact h.pinned.none_disappeared a hold m
      · simp [hlookup]
  · have hmem : a ∈ s.agents := List.mem_of_getElem? ha
    have hset : ∀ b ∈ (s'.goto i a stage).agents, b ∈ s.agents ∨ b = { a with stage := stage } := by
      intro b hb
      rw [State.goto_agents, hmove.agents h.registered] at hb
      exact List.mem_or_eq_of_mem_set hb
    constructor
    · intro b hb m hheld
      rcases hset b hb with hold | rfl
      · exact hstays b hold m hheld
      · rcases hmove.held h.registered m hheld with hlease | hsession | ⟨hresident, hentries⟩
        · exact hstays a hmem m (.inl hlease)
        · exact hstays a hmem m (.inr hsession)
        · have hrecord := step_record h.registered hstep m (h.registered.fresh _ m hresident)
          unfold State.resident State.key
          rw [hrecord, State.goto_entries, hentries]
          exact hresident
    · intro b hb m
      rcases hset b hb with hold | rfl
      · exact h.pinned.none_disappeared b hold m
      · exact hmove.not_disappeared h.registered
          (fun n hn => h.pinned.resident a hmem n (.inr hn)) m

/-- A step spares the entries in use and disappoints no session. -/
def KeepsPinned (s : State) (_ : Action) (t : State) : Prop := KeepsUsed s t ∧ NoneDisappeared t

theorem keepsPinned_iff_guarded (config : Config) (s : State) (action : Action) (t : State)
    (h : PinInvariant s) (hstep : Step config s action t) :
    KeepsPinned s action t ↔ Guarded config s action := by
  have hiff := keeps_iff_guarded config s t action h.registered hstep
  constructor
  · exact fun hkeeps => hiff.mp hkeeps.1
  · intro hguarded
    have hkeeps := hiff.mpr hguarded
    exact ⟨hkeeps, (h.step hstep hkeeps).pinned.none_disappeared⟩

/-- In every run, entries in use are never removed and no session's model disappears
exactly when every removal finds an entry that nothing uses. -/
theorem pinned_iff_guarded (config : Config) (run : List (Action × State))
    (hrun : IsRun (Step config) State.initial run) :
    Along KeepsPinned State.initial run ↔ Meets (Guarded config) State.initial run :=
  along_steps_iff_meets (Step config) PinInvariant KeepsPinned (Guarded config)
    (keepsPinned_iff_guarded config)
    (fun s action t h hstep hguarded =>
      h.step hstep ((keeps_iff_guarded config s t action h.registered hstep).mpr hguarded))
    State.initial run PinInvariant.initial hrun

/-- The session of a retired model goes on until it is dropped. -/
def retiredInUse : List Action :=
  [.prepare firstModel] ++ planned 0 [] ++ published 0 ⟨60, 50, 110, 0, true⟩ ++
    [.start firstModel, .find 1 .running, .acquire 1 [] (fun _ => .count 1), .begin 1 none,
      .giveBack 1, .release 1, .retire "first" 1, .acquire 1 [] (fun _ => .count 1),
      .giveBack 1, .release 1, .drop 1, .leave 1]

theorem pinned_retired :
    ∃ run, IsRun (Step (twoModels 200)) State.initial run ∧
      (last State.initial run).entries.lookup firstModel.key = none ∧
      Along KeepsPinned State.initial run := by
  have hrun : (trace (act (twoModels 200)) State.initial retiredInUse).any (fun run =>
      decide (Meets (Guarded (twoModels 200)) State.initial run) &&
      decide ((last State.initial run).entries.lookup firstModel.key = none)) = true := by
    decide +kernel
  obtain ⟨run, htrace, hchecks⟩ := (Option.any_eq_true _ _).mp hrun
  rw [Bool.and_eq_true, decide_eq_true_eq, decide_eq_true_eq] at hchecks
  have hsteps := isRun_of_trace _ _ _ run htrace
  exact ⟨run, hsteps, hchecks.2, (pinned_iff_guarded (twoModels 200) run hsteps).mpr hchecks.1⟩

/-- A session starts on the victim of a load while its native load runs; the load then
removes the victim, and the session's next step fails. -/
def victimInUse : List Action :=
  [.prepare firstModel] ++ planned 0 [] ++ published 0 ⟨60, 50, 110, 0, true⟩ ++
    [.prepare secondModel] ++ planned 1 [0] ++
    [.start firstModel, .find 2 .running, .acquire 2 [] (fun _ => .count 1), .begin 2 none,
      .giveBack 2, .release 2] ++ published 1 ⟨50, 50, 100, 0, true⟩ ++
    [.acquire 2 [1] (fun _ => .count 1)]

theorem victim_disappears :
    ¬ ∀ (config : Config) (run : List (Action × State)),
      IsRun (Step config) State.initial run → Along KeepsPinned State.initial run := by
  intro hall
  have hrun : (trace (act (twoModels 100)) State.initial victimInUse).any (fun run =>
      decide (∃ x ∈ run, x.2.stage 2 = some (.suspended 0 (some .disappeared)))) = true := by
    decide +kernel
  obtain ⟨run, htrace, hchecks⟩ := (Option.any_eq_true _ _).mp hrun
  obtain ⟨x, hx, hstage⟩ := of_decide_eq_true hchecks
  obtain ⟨_, _, hnone⟩ := along_mem _ _ run
    (hall (twoModels 100) run (isRun_of_trace _ _ _ run htrace)) x hx
  obtain ⟨a, ha, hlast⟩ := Option.map_eq_some_iff.mp hstage
  exact hnone a (List.mem_of_getElem? ha) 0 hlast

end Cusco.Residency
