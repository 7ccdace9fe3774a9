import Cusco.Residency

/-!
What a step of the residency can do. An agent's step is one of a few moves, each with
its effect on the shared state and on what the agent holds. Entries and records are
kept together: the model under a key has that key, and references are never reused.
-/

namespace Cusco.Residency

open Admission (ControlState Error)
open Runs

namespace Stage

/-- The model on which a stage holds a lease. -/
def leases : Stage → Option ModelRef
  | starting m | counted m | refused m _ | stepping m => some m
  | _ => none

/-- The model on which a stage is counted as a session. -/
def session : Stage → Option ModelRef
  | counted m | suspended m _ | stepping m | returning m => some m
  | _ => none

/-- The model whose count was given back before the section that is to come. -/
def settles : Stage → Option ModelRef
  | returning m | failing m _ | dropping m => some m
  | _ => none

end Stage

namespace State

@[simp] theorem goto_entries (s : State) (i : ℕ) (a : Agent) (stage : Stage) :
    (s.goto i a stage).entries = s.entries := rfl

@[simp] theorem goto_model (s : State) (i : ℕ) (a : Agent) (stage : Stage) :
    (s.goto i a stage).model = s.model := rfl

@[simp] theorem goto_agents (s : State) (i : ℕ) (a : Agent) (stage : Stage) :
    (s.goto i a stage).agents = s.agents.set i { a with stage := stage } := rfl

theorem modify_model (s : State) (m n : ModelRef) (f : ResidentModel → ResidentModel) :
    (s.modify m f).model n = if n = m then f (s.model n) else s.model n := by
  simp only [modify, Function.update_apply]
  split
  · rename_i h
    rw [h]
  · rfl

/-- Whether the entry under its key is this very model. -/
def resident (s : State) (m : ModelRef) : Prop := s.entries.lookup (s.key m) = some m

end State

/-- A step outside the lock, or a lookup, that leaves the shared state alone. -/
def Action.walks : Action → Bool
  | find _ _ | estimate _ _ _ | load _ _ _ => true
  | _ => false

/-- What an agent's step does: the shared state after it and the agent's next stage. -/
inductive Move (config : Config) (s : State) (a : Agent) : Action → State → Stage → Prop
  | walk (action : Action) (stage : Stage) (hwalks : action.walks = true)
      (hlease : a.stage.leases = none)
      (hsession : a.stage.session = none) (hlease' : stage.leases = none)
      (hsession' : stage.session = none) : Move config s a action s stage
  | hit (i : ℕ) (control : ControlState) (m : ModelRef) (hstage : a.stage = .lookup)
      (hentry : s.entries.lookup a.record.key = some m) :
      Move config s a (.find i control) (s.touch m) (loadedStage a m)
  | plan (i : ℕ) (idle : List ModelRef) (demote : ModelRef → Demotion) (estimate : Point)
      (hstage : a.stage = .planning estimate) (hidle : s.SortedIdle (idleFor s a.record) idle) :
      Move config s a (.plan i idle demote) (s.plan config estimate idle demote).2
        (plannedStage estimate (s.plan config estimate idle demote).1)
  | publish (i : ℕ) (profile : Option Error) (point : Point) (victims : List ModelRef)
      (hstage : a.stage = .publishing point victims) :
      Move config s a (.publish i profile) (s.publish config a.record point victims profile).2
        (publishedStage a (s.publish config a.record point victims profile).1)
  | start (i : ℕ) (idle : List ModelRef) (demote : ModelRef → Demotion) (m : ModelRef)
      (hstage : a.stage = .loaded m) (hidle : s.SortedIdle (idleBeside s m) idle) :
      Move config s a (.acquire i idle demote) (s.acquireEntry config m idle demote).2
        (startedStage m (s.acquireEntry config m idle demote).1)
  | resume (i : ℕ) (idle : List ModelRef) (demote : ModelRef → Demotion) (m : ModelRef)
      (last : Option Failure) (hstage : a.stage = .suspended m last)
      (hidle : s.SortedIdle (idleBeside s m) idle) :
      Move config s a (.acquire i idle demote) (s.acquireEntry config m idle demote).2
        (resumedStage m (s.acquireEntry config m idle demote).1)
  | refuse (i : ℕ) (m : ModelRef) (error : Error) (hstage : a.stage = .starting m) :
      Move config s a (.begin i (some error)) s (.refused m error)
  | begin (i : ℕ) (m : ModelRef) (hstage : a.stage = .starting m) :
      Move config s a (.begin i none) (s.countSession m) (.counted m)
  | giveBack (i : ℕ) (m : ModelRef) (stage : Stage) (hlease : a.stage.leases = some m)
      (hlease' : stage.leases = none) (hsession : stage.session = a.stage.session)
      (hlast : ∀ n, stage ≠ .suspended n (some .disappeared)) :
      Move config s a (.giveBack i) (s.giveBack m) stage
  | settle (action : Action) (m : ModelRef) (stage : Stage)
      (haction : ∃ i, action = .release i ∨ action = .leave i)
      (hsettles : a.stage.settles = some m) (hlease : stage.leases = none)
      (hsession : stage.session = a.stage.session)
      (hlast : ∀ n, stage ≠ .suspended n (some .disappeared)) :
      Move config s a action (s.settle m) stage
  | drop (i : ℕ) (m : ModelRef) (last : Option Failure) (hstage : a.stage = .suspended m last) :
      Move config s a (.drop i) (s.dropSession m) (.dropping m)

theorem find_move (config : Config) (s t : State) (i j : ℕ) (a : Agent) (control : ControlState)
    (h : agentStep config s i a (.find j control) = some t) :
    ∃ s' stage, Move config s a (.find j control) s' stage ∧ t = s'.goto i a stage := by
  simp only [agentStep] at h
  split at h
  · rename_i hstage
    have hfree : a.stage.leases = none ∧ a.stage.session = none := by
      rw [hstage]
      exact ⟨rfl, rfl⟩
    split at h
    · exact ⟨s, _, .walk _ _ rfl hfree.1 hfree.2 rfl rfl, (Option.some.inj h).symm⟩
    · refine ⟨_, _, ?_, (Option.some.inj h).symm⟩
      unfold State.find
      cases hentry : s.entries.lookup a.record.key with
      | none => exact .walk _ _ rfl hfree.1 hfree.2 rfl rfl
      | some m => exact .hit j control m hstage hentry
  · cases h

/-- Every step of an agent is a move, and the agent goes to its next stage. -/
theorem agentStep_move (config : Config) (s t : State) (i : ℕ) (a : Agent) (action : Action)
    (h : agentStep config s i a action = some t) :
    ∃ s' stage, Move config s a action s' stage ∧ t = s'.goto i a stage := by
  cases action with
  | find j control => exact find_move config s t i j a control h
  | estimate j profile file =>
    simp only [agentStep] at h
    split at h
    · rename_i hstage
      split at h
      all_goals
        exact ⟨s, _, .walk _ _ rfl (by rw [hstage]; rfl) (by rw [hstage]; rfl) rfl rfl,
          (Option.some.inj h).symm⟩
    · cases h
  | plan j idle demote =>
    simp only [agentStep] at h
    split at h
    · rename_i estimate hstage
      obtain ⟨hidle, ht⟩ := Option.ite_none_right_eq_some.mp h
      exact ⟨_, _, .plan j idle demote estimate hstage hidle, (Option.some.inj ht).symm⟩
    · cases h
  | load j loaded control =>
    simp only [agentStep] at h
    split at h
    · rename_i hstage
      split at h
      all_goals
        exact ⟨s, _, .walk _ _ rfl (by rw [hstage]; rfl) (by rw [hstage]; rfl) rfl rfl,
          (Option.some.inj h).symm⟩
    · cases h
  | publish j profile =>
    simp only [agentStep] at h
    split at h
    · rename_i point victims hstage
      exact ⟨_, _, .publish j profile point victims hstage, (Option.some.inj h).symm⟩
    · cases h
  | acquire j idle demote =>
    simp only [agentStep] at h
    split at h
    · rename_i m hstage
      obtain ⟨hidle, ht⟩ := Option.ite_none_right_eq_some.mp h
      exact ⟨_, _, .start j idle demote m hstage hidle, (Option.some.inj ht).symm⟩
    · rename_i m last hstage
      obtain ⟨hidle, ht⟩ := Option.ite_none_right_eq_some.mp h
      exact ⟨_, _, .resume j idle demote m last hstage hidle, (Option.some.inj ht).symm⟩
    · cases h
  | begin j engine =>
    simp only [agentStep] at h
    split at h
    · rename_i m hstage
      cases engine with
      | none => exact ⟨_, _, .begin j m hstage, (Option.some.inj h).symm⟩
      | some error => exact ⟨_, _, .refuse j m error hstage, (Option.some.inj h).symm⟩
    · cases h
  | giveBack j =>
    simp only [agentStep] at h
    split at h
    · rename_i m hstage
      exact ⟨_, _, .giveBack j m _ (by rw [hstage]; rfl) rfl (by rw [hstage]; rfl) (by simp),
        (Option.some.inj h).symm⟩
    · rename_i m hstage
      exact ⟨_, _, .giveBack j m _ (by rw [hstage]; rfl) rfl (by rw [hstage]; rfl) (by simp),
        (Option.some.inj h).symm⟩
    · rename_i m error hstage
      exact ⟨_, _, .giveBack j m _ (by rw [hstage]; rfl) rfl (by rw [hstage]; rfl) (by simp),
        (Option.some.inj h).symm⟩
    · cases h
  | release j =>
    simp only [agentStep] at h
    split at h
    · rename_i m hstage
      exact ⟨_, _, .settle _ m _ ⟨j, .inl rfl⟩ (by rw [hstage]; rfl) rfl (by rw [hstage]; rfl)
        (by simp), (Option.some.inj h).symm⟩
    · rename_i m error hstage
      exact ⟨_, _, .settle _ m _ ⟨j, .inl rfl⟩ (by rw [hstage]; rfl) rfl (by rw [hstage]; rfl)
        (by simp), (Option.some.inj h).symm⟩
    · cases h
  | drop j =>
    simp only [agentStep] at h
    split at h
    · rename_i m last hstage
      exact ⟨_, _, .drop j m last hstage, (Option.some.inj h).symm⟩
    · cases h
  | leave j =>
    simp only [agentStep] at h
    split at h
    · rename_i m hstage
      exact ⟨_, _, .settle _ m _ ⟨j, .inr rfl⟩ (by rw [hstage]; rfl) rfl (by rw [hstage]; rfl)
        (by simp), (Option.some.inj h).symm⟩
    · cases h
  | prepare record => cases h
  | start record => cases h
  | commit record => cases h
  | retire id epoch => cases h

/-- A step starts a call, retires models, or is a move of the agent it belongs to. -/
theorem step_cases (config : Config) (s t : State) (action : Action)
    (h : Step config s action t) :
    (action.agent = none ∧ ((∃ record starts, t = s.enter record starts) ∨
      (∃ record, t = s.retireOtherEpochs record) ∨
      ∃ id epoch, t = s.retireModel id epoch)) ∨
    ∃ i a s' stage, action.agent = some i ∧ s.agents[i]? = some a ∧
      Move config s a action s' stage ∧ t = s'.goto i a stage := by
  have hagent : ∀ i, action.agent = some i →
      (s.agents[i]?.bind (fun a => agentStep config s i a action)) = some t →
      ∃ i a s' stage, action.agent = some i ∧ s.agents[i]? = some a ∧
        Move config s a action s' stage ∧ t = s'.goto i a stage := by
    intro i hi hstep
    obtain ⟨a, ha, hmove⟩ := Option.bind_eq_some_iff.mp hstep
    obtain ⟨s', stage, hmoves, ht⟩ := agentStep_move config s t i a action hmove
    exact ⟨i, a, s', stage, hi, ha, hmoves, ht⟩
  cases action with
  | prepare record => exact .inl ⟨rfl, .inl ⟨record, false, (Option.some.inj h).symm⟩⟩
  | start record => exact .inl ⟨rfl, .inl ⟨record, true, (Option.some.inj h).symm⟩⟩
  | commit record => exact .inl ⟨rfl, .inr (.inl ⟨record, (Option.some.inj h).symm⟩)⟩
  | retire id epoch => exact .inl ⟨rfl, .inr (.inr ⟨id, epoch, (Option.some.inj h).symm⟩)⟩
  | _ => exact .inr (hagent _ rfl h)

/-- The contexts of `ms` moved to storage. -/
def State.spillAll (s : State) (ms : List ModelRef) : State := ms.foldl State.spill s

/-- Whether a demotion lets the spill loop go on. -/
def Demotion.succeeds : Demotion → Bool
  | failed _ => false
  | count n => decide (n ≠ 0)

/-- The idle entries with a resident context, in order. -/
def State.candidates (s : State) (idle : List ModelRef) : List ModelRef :=
  idle.filter (fun m => (s.model m).contextResident)

theorem candidates_cons (s : State) (m : ModelRef) (idle : List ModelRef) :
    s.candidates (m :: idle) =
      if (s.model m).contextResident then m :: s.candidates idle else s.candidates idle :=
  List.filter_cons

theorem candidates_spill (s : State) (m : ModelRef) (idle : List ModelRef) (hm : m ∉ idle) :
    (s.spill m).candidates idle = s.candidates idle := by
  unfold State.candidates
  apply List.filter_congr
  intro n hn
  have hne : n ≠ m := fun h => hm (h ▸ hn)
  simp [State.spill, State.modify_model, hne]

/-- What the loop leaves behind: some candidates are spilled in order, it could not stop
before the last of them, and it ends well exactly when the check passes. -/
structure SpillResult (fits : State → Bool) (demote : ModelRef → Demotion) (s : State)
    (idle ms : List ModelRef) (result : SpillExit × State) : Prop where
  candidates : ms <+: s.candidates idle
  demoted : ∀ m ∈ ms, (demote m).succeeds
  needed : ∀ l, l <+: ms → l ≠ ms → fits (s.spillAll l) = false
  state : result.2 = s.spillAll ms
  exit : result.1 = .fits ↔ fits (s.spillAll ms) = true

theorem SpillResult.stop (fits : State → Bool) (demote : ModelRef → Demotion) (s : State)
    (idle : List ModelRef) (e : SpillExit) (he : e = .fits ↔ fits s = true) :
    SpillResult fits demote s idle [] (e, s) where
  candidates := List.nil_prefix
  demoted := by simp
  needed := fun l hl hne => absurd (List.prefix_nil.mp hl) hne
  state := rfl
  exit := he

theorem SpillResult.next (fits : State → Bool) (demote : ModelRef → Demotion) (s : State)
    (m : ModelRef) (rest ms : List ModelRef) (result : SpillExit × State) (hm : m ∉ rest)
    (hfits : fits s = false) (hresident : (s.model m).contextResident = true)
    (hdemote : (demote m).succeeds = true)
    (h : SpillResult fits demote (s.spill m) rest ms result) :
    SpillResult fits demote s (m :: rest) (m :: ms) result where
  candidates := by
    have hrest := h.candidates
    rw [candidates_spill s m rest hm] at hrest
    rw [candidates_cons, if_pos hresident]
    exact (List.prefix_cons_inj m).mpr hrest
  demoted := by
    intro n hn
    rcases List.mem_cons.mp hn with rfl | hn
    · exact hdemote
    · exact h.demoted n hn
  needed := by
    intro l hl hne
    cases l with
    | nil => exact hfits
    | cons n l =>
      obtain ⟨rfl, hrest⟩ := List.cons_prefix_cons.mp hl
      exact h.needed l hrest (fun heq => hne (by rw [heq]))
  state := h.state
  exit := h.exit

theorem spillIdle_spec (fits : State → Bool) (demote : ModelRef → Demotion) (s : State)
    (idle : List ModelRef) (hidle : idle.Nodup) :
    ∃ ms, SpillResult fits demote s idle ms (spillIdle fits demote s idle) := by
  induction idle generalizing s with
  | nil =>
    refine ⟨[], ?_⟩
    unfold spillIdle
    split
    · rename_i hfits
      exact .stop fits demote s [] _ (by simp [hfits])
    · rename_i hfits
      exact .stop fits demote s [] _ (by simp [hfits])
  | cons m rest ih =>
    obtain ⟨hm, hrest⟩ := List.nodup_cons.mp hidle
    unfold spillIdle
    split
    · rename_i hfits
      exact ⟨[], .stop fits demote s _ _ (by simp [hfits])⟩
    · rename_i hfits
      have hfalse : fits s = false := by simpa using hfits
      split
      · rename_i hresident
        cases hdemote : demote m with
        | failed error => exact ⟨[], .stop fits demote s _ _ (by simp [hfalse])⟩
        | count n =>
          cases n with
          | zero => exact ⟨[], .stop fits demote s _ _ (by simp [hfalse])⟩
          | succ n =>
            obtain ⟨ms, hms⟩ := ih (s.spill m) hrest
            exact ⟨m :: ms, .next fits demote s m rest ms _ hm hfalse hresident
              (by simp [hdemote, Demotion.succeeds]) hms⟩
      · rename_i hresident
        obtain ⟨ms, hms⟩ := ih s hrest
        refine ⟨ms, ⟨?_, hms.demoted, hms.needed, hms.state, hms.exit⟩⟩
        rw [candidates_cons, if_neg hresident]
        exact hms.candidates

@[simp] theorem spillAll_entries (s : State) (ms : List ModelRef) :
    (s.spillAll ms).entries = s.entries := by
  induction ms generalizing s with
  | nil => rfl
  | cons m rest ih => exact ih (s.spill m)

@[simp] theorem spillAll_fresh (s : State) (ms : List ModelRef) :
    (s.spillAll ms).fresh = s.fresh := by
  induction ms generalizing s with
  | nil => rfl
  | cons m rest ih => exact ih (s.spill m)

@[simp] theorem spillAll_agents (s : State) (ms : List ModelRef) :
    (s.spillAll ms).agents = s.agents := by
  induction ms generalizing s with
  | nil => rfl
  | cons m rest ih => exact ih (s.spill m)

theorem spillAll_model (s : State) (ms : List ModelRef) (n : ModelRef) :
    (s.spillAll ms).model n = if n ∈ ms then { s.model n with contextResident := false }
      else s.model n := by
  induction ms generalizing s with
  | nil => rfl
  | cons m rest ih =>
    change ((s.spill m).spillAll rest).model n = _
    rw [ih, State.spill, State.modify_model]
    by_cases hm : n = m
    · subst hm
      simp
    · simp [hm]

/-- Entries may have been removed; records and references are those from before. -/
structure Frame (s s' : State) : Prop where
  entries : ∀ k m, s'.entries.lookup k = some m → s.entries.lookup k = some m
  record : ∀ m, (s'.model m).record = (s.model m).record
  fresh : s'.fresh = s.fresh

theorem Frame.refl (s : State) : Frame s s := ⟨fun _ _ h => h, fun _ => rfl, rfl⟩

theorem Frame.trans {s t u : State} (h : Frame s t) (h' : Frame t u) : Frame s u where
  entries := fun k m hm => h.entries k m (h'.entries k m hm)
  record := fun m => (h'.record m).trans (h.record m)
  fresh := h'.fresh.trans h.fresh

theorem Frame.modify (s : State) (m : ModelRef) (f : ResidentModel → ResidentModel)
    (hrecord : ∀ r, (f r).record = r.record) : Frame s (s.modify m f) where
  entries := fun _ _ h => h
  record := by
    intro n
    rw [State.modify_model]
    split
    · exact hrecord _
    · rfl
  fresh := rfl

theorem Frame.erase (s : State) (k : Key) :
    Frame s { s with entries := s.entries.erase k } where
  entries := by
    intro c m h
    rw [AList.lookup_erase_ite] at h
    split at h
    · cases h
    · exact h
  record := fun _ => rfl
  fresh := rfl

theorem Frame.touch (s : State) (m : ModelRef) : Frame s (s.touch m) :=
  (Frame.modify s m (fun r => { r with lastUsed := s.tick }) (fun _ => rfl)).trans
    ⟨fun _ _ h => h, fun _ => rfl, rfl⟩

theorem Frame.lease (s : State) (m : ModelRef) : Frame s (s.lease m) :=
  (Frame.modify s m (fun r => { r with active := r.active + 1 }) (fun _ => rfl)).trans
    (Frame.touch _ m)

theorem Frame.spillAll (s : State) (ms : List ModelRef) : Frame s (s.spillAll ms) where
  entries := by simp
  record := by
    intro m
    rw [spillAll_model]
    split <;> rfl
  fresh := by simp

theorem Frame.settle (s : State) (m : ModelRef) : Frame s (s.settle m) := by
  unfold State.settle
  split
  · exact Frame.erase s _
  · exact Frame.refl s

theorem Frame.retireEntry (s : State) (e : Sigma fun _ : Key => ModelRef) :
    Frame s (s.retireEntry e) := by
  have hretired := Frame.modify s e.2 (fun r => { r with retiring := true }) (fun _ => rfl)
  simp only [State.retireEntry]
  split
  · exact hretired.trans (Frame.erase _ e.1)
  · exact hretired

theorem Frame.retireEntries (s : State) (es : List (Sigma fun _ : Key => ModelRef)) :
    Frame s (es.foldl State.retireEntry s) := by
  induction es generalizing s with
  | nil => exact Frame.refl s
  | cons e rest ih => exact (Frame.retireEntry s e).trans (ih _)

theorem Frame.retireModel (s : State) (id : String) (epoch : ℕ) :
    Frame s (s.retireModel id epoch) := by
  unfold State.retireModel
  split
  · exact Frame.retireEntry s _
  · exact Frame.refl s

theorem plan_state (config : Config) (estimate : Point) (idle : List ModelRef)
    (demote : ModelRef → Demotion) (s : State) :
    (s.plan config estimate idle demote).2 =
      (spillIdle (State.fitsAll config estimate) demote s idle).2 := by
  unfold State.plan
  split
  · rename_i heq
    rw [heq]
  · rename_i heq
    rw [heq]
    split <;> rfl

/-- The publication inserts the loaded model, or finds a reason not to. -/
theorem publish_cases (config : Config) (record : Record) (point : Point)
    (victims : List ModelRef) (profile : Option Error) (s : State) :
    ((s.publish config record point victims profile).2 = s ∧
      ¬(s.entries.lookup record.key = none ∧ s.fitsRetained config point victims = true ∧
        profile = none)) ∨
    s.entries.lookup record.key = none ∧ s.fitsRetained config point victims = true ∧
      profile = none ∧ s.publish config record point victims profile =
        (.ok s.fresh, s.insertLoaded record point victims) := by
  unfold State.publish
  split
  · rename_i hlookup
    exact .inl ⟨rfl, by simp [hlookup]⟩
  · rename_i hlookup
    split
    · rename_i hfits
      exact .inl ⟨rfl, by simp_all⟩
    · rename_i hfits
      cases profile with
      | some error => exact .inl ⟨rfl, by simp⟩
      | none => exact .inr ⟨hlookup, by simpa using hfits, rfl, rfl⟩

/-- An acquisition finds another entry or none, leases a resident context, reloads
the context after some spills, or gives up after some spills. -/
theorem acquire_cases (config : Config) (target : ModelRef) (idle : List ModelRef)
    (demote : ModelRef → Demotion) (s : State) (hidle : idle.Nodup) :
    (¬s.resident target ∧ s.acquireEntry config target idle demote = (.ok false, s)) ∨
    (s.resident target ∧ (s.model target).contextResident = true ∧
      s.acquireEntry config target idle demote = (.ok true, s.lease target)) ∨
    (s.resident target ∧ (s.model target).contextResident = false ∧
      ∃ ms result, SpillResult (State.fitsTarget config target) demote s idle ms result ∧
        ((result.1 = .fits ∧ s.acquireEntry config target idle demote =
            (.ok true, ((s.spillAll ms).reload target).lease target)) ∨
          (result.1 ≠ .fits ∧ ∃ failure, failure ≠ .disappeared ∧
            s.acquireEntry config target idle demote = (.error failure, s.spillAll ms)))) := by
  unfold State.acquireEntry
  by_cases hresident : s.resident target
  · have hlookup : ¬s.entries.lookup (s.key target) ≠ some target := not_not.mpr hresident
    rw [if_neg hlookup]
    cases hcontext : (s.model target).contextResident with
    | true => exact .inr (.inl ⟨hresident, rfl, rfl⟩)
    | false =>
      obtain ⟨ms, hms⟩ := spillIdle_spec (State.fitsTarget config target) demote s idle hidle
      refine .inr (.inr ⟨hresident, rfl, ms, _, hms, ?_⟩)
      have hstate := hms.state
      generalize spillIdle (State.fitsTarget config target) demote s idle = result at hstate ⊢
      obtain ⟨e, s'⟩ := result
      cases hstate
      cases e with
      | fits => exact .inl ⟨rfl, rfl⟩
      | failed error => exact .inr ⟨by simp, _, by simp, rfl⟩
      | exhausted => exact .inr ⟨by simp, _, by simp, rfl⟩
      | refused => exact .inr ⟨by simp, _, by simp, rfl⟩
  · exact .inl ⟨hresident, if_pos hresident⟩

/-- The model under a key has this key, and no reference is used again. -/
structure Registered (s : State) : Prop where
  key : ∀ k m, s.entries.lookup k = some m → s.key m = k
  fresh : ∀ k m, s.entries.lookup k = some m → m < s.fresh
  held : ∀ a ∈ s.agents, ∀ m, a.stage.leases = some m ∨ a.stage.session = some m → m < s.fresh

theorem Registered.initial : Registered State.initial where
  key := fun k m h => by
    rw [State.initial, AList.lookup_empty] at h
    cases h
  fresh := fun k m h => by
    rw [State.initial, AList.lookup_empty] at h
    cases h
  held := fun a ha => by cases ha

/-- A key names one model, so no model is listed twice. -/
theorem Registered.values_nodup {s : State} (h : Registered s) : s.entries.values.Nodup := by
  unfold AList.values
  apply List.Nodup.map_on
  · intro e he e' he' heq
    obtain ⟨k, m⟩ := e
    obtain ⟨k', m'⟩ := e'
    cases heq
    have hk := h.key k m ((AList.mem_entries_iff _ k m).mp he)
    have hk' := h.key k' m ((AList.mem_entries_iff _ k' m).mp he')
    rw [← hk, ← hk']
  · exact List.NodupKeys.nodup s.entries.nodupKeys

theorem Registered.idle_nodup {s : State} (h : Registered s) (keep : ModelRef → Prop)
    [DecidablePred keep] (idle : List ModelRef) (hidle : s.SortedIdle keep idle) : idle.Nodup :=
  hidle.1.nodup_iff.mpr (h.values_nodup.filter _)

theorem Registered.of_frame {s s' : State} (h : Registered s) (hframe : Frame s s')
    (hagents : ∀ a ∈ s'.agents, ∀ m, a.stage.leases = some m ∨ a.stage.session = some m →
      m < s.fresh) : Registered s' where
  key := by
    intro k m hm
    have hkey := h.key k m (hframe.entries k m hm)
    unfold State.key at hkey ⊢
    rw [hframe.record m]
    exact hkey
  fresh := by
    intro k m hm
    rw [hframe.fresh]
    exact h.fresh k m (hframe.entries k m hm)
  held := by
    rw [hframe.fresh]
    exact hagents

/-- An entry after the publication is the loaded model or was there before, and is not
one of those removed. -/
theorem insertLoaded_lookup (s : State) (record : Record) (point : Point)
    (victims : List ModelRef) (k : Key) (m : ModelRef)
    (h : (s.insertLoaded record point victims).entries.lookup k = some m) :
    (k = record.key ∧ m = s.fresh) ∨
      (k ≠ record.key ∧ k ∉ s.gone victims ∧ s.entries.lookup k = some m) := by
  simp only [State.insertLoaded] at h
  rw [AList.lookup_insert_ite, AList.lookup_eraseAll] at h
  split at h
  · rename_i hk
    exact .inl ⟨hk, (Option.some.inj h).symm⟩
  · rename_i hk
    split at h
    · cases h
    · rename_i hgone
      exact .inr ⟨hk, hgone, h⟩

theorem insertLoaded_model (s : State) (record : Record) (point : Point)
    (victims : List ModelRef) (m : ModelRef) (hm : m ≠ s.fresh) :
    (s.insertLoaded record point victims).model m = s.model m :=
  Function.update_of_ne hm _ _

theorem Registered.insertLoaded {s : State} (h : Registered s) (record : Record) (point : Point)
    (victims : List ModelRef) : Registered (s.insertLoaded record point victims) where
  key := by
    intro k m hm
    rcases insertLoaded_lookup s record point victims k m hm with ⟨rfl, rfl⟩ | ⟨_, _, hold⟩
    · simp [State.key, State.insertLoaded]
    · have hne : m ≠ s.fresh := Nat.ne_of_lt (h.fresh k m hold)
      unfold State.key
      rw [insertLoaded_model s record point victims m hne]
      exact h.key k m hold
  fresh := by
    intro k m hm
    change m < s.fresh + 1
    rcases insertLoaded_lookup s record point victims k m hm with ⟨_, rfl⟩ | ⟨_, _, hold⟩
    · exact Nat.lt_succ_self _
    · exact Nat.lt_succ_of_lt (h.fresh k m hold)
  held := fun a ha m hm => Nat.lt_succ_of_lt (h.held a ha m hm)

/-- A section frames the shared state, except a publication that inserts. -/
theorem Move.frame {config : Config} {s s' : State} {a : Agent} {action : Action} {stage : Stage}
    (hmove : Move config s a action s' stage) (h : Registered s) :
    Frame s s' ∨ ∃ i point victims, action = .publish i none ∧
      a.stage = .publishing point victims ∧ s.entries.lookup a.record.key = none ∧
      s.fitsRetained config point victims = true ∧ s' = s.insertLoaded a.record point victims ∧
      stage = loadedStage a s.fresh := by
  have hacquire : ∀ target idle demote, s.SortedIdle (idleBeside s target) idle →
      Frame s (s.acquireEntry config target idle demote).2 := by
    intro target idle demote hidle
    rcases acquire_cases config target idle demote s (h.idle_nodup _ idle hidle) with
      ⟨_, heq⟩ | ⟨_, _, heq⟩ | ⟨_, _, ms, _, _, ⟨_, heq⟩ | ⟨_, _, _, heq⟩⟩
    · rw [heq]
      exact Frame.refl s
    · rw [heq]
      exact Frame.lease s target
    · rw [heq]
      have hreload : Frame (s.spillAll ms) ((s.spillAll ms).reload target) :=
        Frame.modify _ target (fun r => { r with contextResident := true }) (fun _ => rfl)
      exact ((Frame.spillAll s ms).trans hreload).trans (Frame.lease _ target)
    · rw [heq]
      exact Frame.spillAll s ms
  cases hmove with
  | walk action stage hwalks hlease hsession hlease' hsession' => exact .inl (Frame.refl s)
  | hit i control m hstage hentry => exact .inl (Frame.touch s m)
  | plan i idle demote estimate hstage hidle =>
    obtain ⟨ms, hms⟩ := spillIdle_spec (State.fitsAll config estimate) demote s idle
      (h.idle_nodup _ idle hidle)
    rw [plan_state, hms.state]
    exact .inl (Frame.spillAll s ms)
  | publish i profile point victims hstage =>
    rcases publish_cases config a.record point victims profile s with
      ⟨heq, _⟩ | ⟨hlookup, hfits, rfl, heq⟩
    · rw [heq]
      exact .inl (Frame.refl s)
    · refine .inr ⟨i, point, victims, rfl, hstage, hlookup, hfits, ?_, ?_⟩
      · rw [heq]
      · rw [heq]
        rfl
  | start i idle demote m hstage hidle => exact .inl (hacquire m idle demote hidle)
  | resume i idle demote m last hstage hidle => exact .inl (hacquire m idle demote hidle)
  | refuse i m error hstage => exact .inl (Frame.refl s)
  | begin i m hstage => exact .inl (Frame.modify s m _ (fun _ => rfl))
  | giveBack i m stage hlease hlease' hsession hlast =>
    exact .inl (Frame.modify s m _ (fun _ => rfl))
  | settle action m stage haction hsettles hlease hsession hlast => exact .inl (Frame.settle s m)
  | drop i m last hstage => exact .inl (Frame.modify s m _ (fun _ => rfl))

theorem acquire_entries (config : Config) (target : ModelRef) (idle : List ModelRef)
    (demote : ModelRef → Demotion) (s : State) (hidle : idle.Nodup) :
    (s.acquireEntry config target idle demote).2.entries = s.entries := by
  rcases acquire_cases config target idle demote s hidle with
    ⟨_, heq⟩ | ⟨_, _, heq⟩ | ⟨_, _, ms, _, _, ⟨_, heq⟩ | ⟨_, _, _, heq⟩⟩
  · rw [heq]
  · rw [heq]
    rfl
  · rw [heq]
    exact spillAll_entries s ms
  · rw [heq]
    exact spillAll_entries s ms

theorem acquire_agents (config : Config) (target : ModelRef) (idle : List ModelRef)
    (demote : ModelRef → Demotion) (s : State) (hidle : idle.Nodup) :
    (s.acquireEntry config target idle demote).2.agents = s.agents := by
  rcases acquire_cases config target idle demote s hidle with
    ⟨_, heq⟩ | ⟨_, _, heq⟩ | ⟨_, _, ms, _, _, ⟨_, heq⟩ | ⟨_, _, _, heq⟩⟩
  · rw [heq]
  · rw [heq]
    rfl
  · rw [heq]
    exact spillAll_agents s ms
  · rw [heq]
    exact spillAll_agents s ms

theorem settle_agents (s : State) (m : ModelRef) : (s.settle m).agents = s.agents := by
  unfold State.settle
  split <;> rfl

theorem retireEntry_agents (s : State) (e : Sigma fun _ : Key => ModelRef) :
    (s.retireEntry e).agents = s.agents := by
  simp only [State.retireEntry]
  split <;> rfl

theorem retireOtherEpochs_agents (s : State) (record : Record) :
    (s.retireOtherEpochs record).agents = s.agents := by
  unfold State.retireOtherEpochs
  generalize s.entries.entries.filter _ = es
  induction es generalizing s with
  | nil => rfl
  | cons e rest ih => exact (ih (s.retireEntry e)).trans (retireEntry_agents s e)

theorem retireModel_agents (s : State) (id : String) (epoch : ℕ) :
    (s.retireModel id epoch).agents = s.agents := by
  unfold State.retireModel
  split
  · exact retireEntry_agents s _
  · rfl

theorem Move.agents {config : Config} {s s' : State} {a : Agent} {action : Action} {stage : Stage}
    (hmove : Move config s a action s' stage) (h : Registered s) : s'.agents = s.agents := by
  cases hmove with
  | plan i idle demote estimate hstage hidle =>
    obtain ⟨ms, hms⟩ := spillIdle_spec (State.fitsAll config estimate) demote s idle
      (h.idle_nodup _ idle hidle)
    rw [plan_state, hms.state, spillAll_agents]
  | publish i profile point victims hstage =>
    rcases publish_cases config a.record point victims profile s with ⟨heq, _⟩ | ⟨_, _, rfl, heq⟩
    · rw [heq]
    · rw [heq]
      rfl
  | start i idle demote m hstage hidle =>
    exact acquire_agents config m idle demote s (h.idle_nodup _ idle hidle)
  | resume i idle demote m last hstage hidle =>
    exact acquire_agents config m idle demote s (h.idle_nodup _ idle hidle)
  | settle action m stage haction hsettles hlease hsession hlast => exact settle_agents s m
  | _ => rfl

/-- What an agent holds after a move it held before, or it has just acquired it. -/
theorem Move.held {config : Config} {s s' : State} {a : Agent} {action : Action} {stage : Stage}
    (hmove : Move config s a action s' stage) (h : Registered s) (m : ModelRef)
    (hheld : stage.leases = some m ∨ stage.session = some m) :
    a.stage.leases = some m ∨ a.stage.session = some m ∨
      (s.resident m ∧ s'.entries = s.entries) := by
  have hloaded : ∀ n : ModelRef, (loadedStage a n).leases = none ∧
      (loadedStage a n).session = none := by
    intro n
    unfold loadedStage
    split <;> exact ⟨rfl, rfl⟩
  cases hmove with
  | walk action stage hwalks hlease hsession hlease' hsession' => simp [hlease', hsession'] at hheld
  | hit i control n hstage hentry => simp [hloaded] at hheld
  | plan i idle demote estimate hstage hidle =>
    cases hresult : (s.plan config estimate idle demote).1 with
    | ok victims => simp [hresult, plannedStage, Stage.leases, Stage.session] at hheld
    | error failure => simp [hresult, plannedStage, Stage.leases, Stage.session] at hheld
  | publish i profile point victims hstage =>
    cases hresult : (s.publish config a.record point victims profile).1 with
    | ok n => simp [hresult, publishedStage, hloaded] at hheld
    | error failure => simp [hresult, publishedStage, Stage.leases, Stage.session] at hheld
  | start i idle demote n hstage hidle =>
    have hentries := acquire_entries config n idle demote s (h.idle_nodup _ idle hidle)
    rcases acquire_cases config n idle demote s (h.idle_nodup _ idle hidle) with
      ⟨_, heq⟩ | ⟨hresident, _, heq⟩ | ⟨hresident, _, ms, _, _, ⟨_, heq⟩ | ⟨_, failure, _, heq⟩⟩
    · simp [heq, startedStage, Stage.leases, Stage.session] at hheld
    · simp [heq, startedStage, Stage.leases, Stage.session] at hheld
      exact .inr (.inr ⟨hheld ▸ hresident, hentries⟩)
    · simp [heq, startedStage, Stage.leases, Stage.session] at hheld
      exact .inr (.inr ⟨hheld ▸ hresident, hentries⟩)
    · simp [heq, startedStage, Stage.leases, Stage.session] at hheld
  | resume i idle demote n last hstage hidle =>
    have hsession : a.stage.session = some n := by
      rw [hstage]
      rfl
    refine .inr (.inl ?_)
    rw [hsession]
    cases hresult : (s.acquireEntry config n idle demote).1 with
    | ok acquired =>
      cases acquired <;> simpa [hresult, resumedStage, Stage.leases, Stage.session] using hheld
    | error failure => simpa [hresult, resumedStage, Stage.leases, Stage.session] using hheld
  | refuse i n error hstage =>
    rw [hstage]
    exact .inl (by simpa [Stage.leases, Stage.session] using hheld)
  | begin i n hstage =>
    rw [hstage]
    exact .inl (by simpa [Stage.leases, Stage.session] using hheld)
  | giveBack i n stage hlease hlease' hsession hlast =>
    rw [hlease', hsession] at hheld
    exact .inr (.inl (by simpa using hheld))
  | settle action n stage haction hsettles hlease hsession hlast =>
    rw [hlease, hsession] at hheld
    exact .inr (.inl (by simpa using hheld))
  | drop i n last hstage => simp [Stage.leases, Stage.session] at hheld

theorem Registered.step {config : Config} {s t : State} {action : Action} (h : Registered s)
    (hstep : Step config s action t) : Registered t := by
  rcases step_cases config s t action hstep with
    ⟨_, ⟨record, starts, rfl⟩ | ⟨record, rfl⟩ | ⟨id, epoch, rfl⟩⟩ |
      ⟨i, a, s', stage, _, ha, hmove, rfl⟩
  · refine ⟨h.key, h.fresh, ?_⟩
    intro b hb m hm
    rcases List.mem_append.mp hb with hb | hb
    · exact h.held b hb m hm
    · rw [List.mem_singleton.mp hb] at hm
      simp [Stage.leases, Stage.session] at hm
  · refine h.of_frame (Frame.retireEntries s _) ?_
    rw [retireOtherEpochs_agents]
    exact h.held
  · refine h.of_frame (Frame.retireModel s id epoch) ?_
    rw [retireModel_agents]
    exact h.held
  · have hmem : a ∈ s.agents := List.mem_of_getElem? ha
    have hheld : ∀ b ∈ (s'.goto i a stage).agents, ∀ m,
        b.stage.leases = some m ∨ b.stage.session = some m → m < s.fresh := by
      intro b hb m hm
      rw [State.goto_agents, hmove.agents h] at hb
      rcases List.mem_or_eq_of_mem_set hb with hb | rfl
      · exact h.held b hb m hm
      · rcases hmove.held h m hm with hlease | hsession | ⟨hresident, _⟩
        · exact h.held a hmem m (.inl hlease)
        · exact h.held a hmem m (.inr hsession)
        · exact h.fresh _ m hresident
    rcases hmove.frame h with hframe | ⟨_, point, victims, _, _, _, _, rfl, _⟩
    · exact h.of_frame ⟨hframe.entries, hframe.record, hframe.fresh⟩ hheld
    · have hinsert := h.insertLoaded a.record point victims
      exact ⟨hinsert.key, hinsert.fresh, fun b hb m hm => Nat.lt_succ_of_lt (hheld b hb m hm)⟩

end Cusco.Residency
