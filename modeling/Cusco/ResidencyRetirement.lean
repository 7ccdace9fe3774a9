import Cusco.ResidencyPins

/-!
Retired epochs. A retirement marks the entry that it finds, and a marked entry leaves with
its last lease or session. A load that is under way, or starts later with an old record,
inserts a new entry without a mark. As long as no load inserts an entry of a retired epoch,
retired epochs are resident only while a session of them remains.
-/

namespace Cusco.Residency

open Admission (ControlState Error)
open Runs

/-- An agent that leases a model, is a session of it, or has just given it back. -/
def Stage.holds (stage : Stage) (m : ModelRef) : Prop :=
  stage.leases = some m ∨ stage.session = some m ∨ stage.settles = some m

/-- Some call or session has the model in use. -/
def Held (s : State) (m : ModelRef) : Prop := ∃ a ∈ s.agents, a.stage.holds m

/-- A state with the keys that were retired since they were last prepared. -/
structure World where
  state : State
  retired : List Key

/-- An action, and for `commit_model` the epoch that it is told it replaces. -/
structure Issued where
  action : Action
  replaced : Option ℕ

def World.initial : World := ⟨State.initial, []⟩

def World.retiredAfter (w : World) (x : Issued) : List Key :=
  match x.action, x.replaced with
  | .prepare record, _ => w.retired.filter (fun k => k ≠ record.key)
  | .retire id epoch, _ => (id, epoch) :: w.retired
  | .commit record, some epoch =>
    if epoch = record.epoch then w.retired else (record.id, epoch) :: w.retired
  | _, _ => w.retired

def issue (config : Config) (w : World) (x : Issued) : Option World :=
  (act config w.state x.action).map (fun s => ⟨s, w.retiredAfter x⟩)

def Issues (config : Config) (w : World) (x : Issued) (w' : World) : Prop :=
  issue config w x = some w'

/-- A retired epoch of which no session remains is not resident. -/
def StaysRetired (w : World) : Prop :=
  ∀ k ∈ w.retired, (∀ m, Held w.state m → w.state.key m ≠ k) → w.state.entries.lookup k = none

/-- A load does not insert an entry of a retired epoch. -/
def LoadsCurrent (config : Config) (w : World) (x : Issued) : Prop :=
  match x.action with
  | .publish i profile =>
    ∀ a ∈ w.state.agents[i]?, ∀ p ∈ a.stage.publication,
      w.state.entries.lookup a.record.key = none →
        w.state.fitsRetained config p.1 p.2 = true → profile = none → a.record.key ∉ w.retired
  | _ => True

instance (config : Config) (w : World) (x : Issued) : Decidable (LoadsCurrent config w x) := by
  unfold LoadsCurrent
  cases x.action with
  | publish i profile =>
    exact @Option.decidableForallMem _ _ (fun a => @Option.decidableForallMem _ _ (fun _ =>
      @instDecidableForall _ _ inferInstance (@instDecidableForall _ _ inferInstance
        (@instDecidableForall _ _ inferInstance
          (decidable_of_iff (∀ k ∈ w.retired, k ≠ a.record.key)
            ⟨fun h hk => h _ hk rfl, fun h _ hk heq => h (heq ▸ hk)⟩)))) _) _
  | _ => infer_instance

/-- A resident model is marked, and in use. -/
def Retiring (s : State) (k : Key) : Prop :=
  ∀ m, s.entries.lookup k = some m → (s.model m).retiring = true ∧ Held s m

/-- No mark of a retiring model is lost. -/
def Marks (s s' : State) : Prop :=
  ∀ m, (s.model m).retiring = true → (s'.model m).retiring = true

theorem Marks.refl (s : State) : Marks s s := fun _ h => h

theorem Marks.trans {s t u : State} (h : Marks s t) (h' : Marks t u) : Marks s u :=
  fun m hm => h' m (h m hm)

theorem Marks.modify (s : State) (m : ModelRef) (f : ResidentModel → ResidentModel)
    (h : ∀ r, r.retiring = true → (f r).retiring = true) : Marks s (s.modify m f) := by
  intro n hn
  rw [State.modify_model]
  by_cases hnm : n = m
  · rw [if_pos hnm]
    exact h _ hn
  · rw [if_neg hnm]
    exact hn

theorem Marks.touch (s : State) (m : ModelRef) : Marks s (s.touch m) :=
  Marks.modify s m (fun r => { r with lastUsed := s.tick }) (fun _ h => h)

theorem Marks.lease (s : State) (m : ModelRef) : Marks s (s.lease m) :=
  (Marks.modify s m (fun r => { r with active := r.active + 1 }) (fun _ h => h)).trans
    (Marks.touch _ m)

theorem Marks.spillAll (s : State) (ms : List ModelRef) : Marks s (s.spillAll ms) := by
  intro m hm
  rw [spillAll_model]
  by_cases hspilled : m ∈ ms
  · rw [if_pos hspilled]
    exact hm
  · rw [if_neg hspilled]
    exact hm

theorem Marks.settle (s : State) (m : ModelRef) : Marks s (s.settle m) := by
  intro n hn
  unfold State.settle
  by_cases hleaves : (s.model m).retiring = true ∧ s.unused m
  · rw [if_pos hleaves]
    exact hn
  · rw [if_neg hleaves]
    exact hn

theorem Marks.retireEntry (s : State) (e : Sigma fun _ : Key => ModelRef) :
    Marks s (s.retireEntry e) := by
  have hmarked := Marks.modify s e.2 (fun r => { r with retiring := true }) (fun _ _ => rfl)
  unfold State.retireEntry
  by_cases hunused : s.unused e.2
  · rw [if_pos hunused]
    exact hmarked
  · rw [if_neg hunused]
    exact hmarked

theorem Marks.retireEntries (s : State) (es : List (Sigma fun _ : Key => ModelRef)) :
    Marks s (es.foldl State.retireEntry s) := by
  induction es generalizing s with
  | nil => exact Marks.refl s
  | cons e rest ih => exact (Marks.retireEntry s e).trans (ih _)

theorem Marks.retireModel (s : State) (id : String) (epoch : ℕ) :
    Marks s (s.retireModel id epoch) := by
  unfold State.retireModel
  cases s.entries.lookup (id, epoch) with
  | none => exact Marks.refl s
  | some m => exact Marks.retireEntry s _

theorem Marks.acquire (config : Config) (target : ModelRef) (idle : List ModelRef)
    (demote : ModelRef → Demotion) (s : State) (hidle : idle.Nodup) :
    Marks s (s.acquireEntry config target idle demote).2 := by
  rcases acquire_cases config target idle demote s hidle with
    ⟨_, heq⟩ | ⟨_, _, heq⟩ | ⟨_, _, ms, _, _, ⟨_, heq⟩ | ⟨_, _, _, heq⟩⟩
  · rw [heq]
    exact Marks.refl s
  · rw [heq]
    exact Marks.lease s target
  · rw [heq]
    have hreload : Marks (s.spillAll ms) ((s.spillAll ms).reload target) :=
      Marks.modify _ target (fun r => { r with contextResident := true }) (fun _ h => h)
    exact ((Marks.spillAll s ms).trans hreload).trans (Marks.lease _ target)
  · rw [heq]
    exact Marks.spillAll s ms

/-- No section loses a mark, except that the model of a new entry has none. -/
theorem Move.marks {config : Config} {s s' : State} {a : Agent} {action : Action} {stage : Stage}
    (hmove : Move config s a action s' stage) (h : Registered s) (m : ModelRef)
    (hm : m ≠ s.fresh) (hmarked : (s.model m).retiring = true) :
    (s'.model m).retiring = true := by
  cases hmove with
  | walk action stage hwalks hlease hsession hlease' hsession' => exact hmarked
  | hit i control n hstage hentry => exact Marks.touch s n m hmarked
  | plan i idle demote estimate hstage hidle =>
    obtain ⟨ms, hms⟩ := spillIdle_spec (State.fitsAll config estimate) demote s idle
      (h.idle_nodup _ idle hidle)
    rw [plan_state, hms.state]
    exact Marks.spillAll s ms m hmarked
  | publish i profile point victims hstage =>
    rcases publish_cases config a.record point victims profile s with ⟨heq, _⟩ | ⟨_, _, rfl, heq⟩
    · rw [heq]
      exact hmarked
    · rw [heq, insertLoaded_model s a.record point victims m hm]
      exact hmarked
  | start i idle demote n hstage hidle =>
    exact Marks.acquire config n idle demote s (h.idle_nodup _ idle hidle) m hmarked
  | resume i idle demote n last hstage hidle =>
    exact Marks.acquire config n idle demote s (h.idle_nodup _ idle hidle) m hmarked
  | refuse i n error hstage => exact hmarked
  | begin i n hstage =>
    exact Marks.modify s n (fun r => { r with sessions := r.sessions + 1 }) (fun _ h => h) m hmarked
  | giveBack i n stage hlease hlease' hsession hlast =>
    exact Marks.modify s n (fun r => { r with active := r.active - 1 }) (fun _ h => h) m hmarked
  | settle action n stage haction hsettles hlease hsession hlast =>
    exact Marks.settle s n m hmarked
  | drop i n last hstage =>
    exact Marks.modify s n (fun r => { r with sessions := r.sessions - 1 }) (fun _ h => h) m hmarked

/-- An entry that is still there after it retired is marked and in use. -/
theorem retireEntry_marked (s : State) (e : Sigma fun _ : Key => ModelRef)
    (h : (s.retireEntry e).entries.lookup e.1 = some e.2) :
    ((s.retireEntry e).model e.2).retiring = true ∧ ¬s.unused e.2 := by
  unfold State.retireEntry at h ⊢
  by_cases hunused : s.unused e.2
  · rw [if_pos hunused] at h
    dsimp only at h
    rw [AList.lookup_erase_ite, if_pos rfl] at h
    cases h
  · rw [if_neg hunused]
    refine ⟨?_, hunused⟩
    rw [State.modify_model, if_pos rfl]

theorem retireEntries_marked (s : State) (es : List (Sigma fun _ : Key => ModelRef))
    (e : Sigma fun _ : Key => ModelRef) (he : e ∈ es)
    (h : (es.foldl State.retireEntry s).entries.lookup e.1 = some e.2) :
    ((es.foldl State.retireEntry s).model e.2).retiring = true ∧ ¬s.unused e.2 := by
  induction es generalizing s with
  | nil => cases he
  | cons first rest ih =>
    rcases List.mem_cons.mp he with rfl | he
    · obtain ⟨hmarked, hused⟩ := retireEntry_marked s e
        ((Frame.retireEntries (s.retireEntry e) rest).entries e.1 e.2 h)
      exact ⟨Marks.retireEntries _ rest e.2 hmarked, hused⟩
    · obtain ⟨hmarked, hused⟩ := ih (s.retireEntry first) he h
      rw [(SameCounts.retireEntry s first).unused] at hused
      exact ⟨hmarked, hused⟩

/-- A model in use is held by an agent. -/
theorem Counted.held {s : State} (h : Counted s) (m : ModelRef) (hused : ¬s.unused m) :
    Held s m := by
  by_cases hactive : (s.model m).active = 0
  · have hsessions : 0 < (s.model m).sessions := by
      by_contra hnone
      exact hused ⟨hactive, by omega⟩
    rw [h.sessions m] at hsessions
    obtain ⟨a, ha, hsession⟩ := List.countP_pos_iff.mp hsessions
    exact ⟨a, ha, Or.inr (Or.inl (of_decide_eq_true hsession))⟩
  · have hpos : 0 < (s.model m).active := by omega
    rw [h.active m] at hpos
    obtain ⟨a, ha, hlease⟩ := List.countP_pos_iff.mp hpos
    exact ⟨a, ha, Or.inl (of_decide_eq_true hlease)⟩

theorem Held.of_agents {s t : State} {m : ModelRef} (h : Held s m) (hagents : t.agents = s.agents) :
    Held t m := by
  obtain ⟨a, ha, hholds⟩ := h
  exact ⟨a, by rw [hagents]; exact ha, hholds⟩

theorem Retiring.of_frame {s t : State} {k : Key} (h : Retiring s k) (hframe : Frame s t)
    (hmarks : Marks s t) (hagents : t.agents = s.agents) : Retiring t k := by
  intro m hm
  obtain ⟨hmarked, hheld⟩ := h m (hframe.entries k m hm)
  exact ⟨hmarks m hmarked, hheld.of_agents hagents⟩

theorem retiring_retireModel {s : State} (h : Counted s) (id : String) (epoch : ℕ) :
    Retiring (s.retireModel id epoch) (id, epoch) := by
  intro m hm
  have hold := (Frame.retireModel s id epoch).entries _ m hm
  unfold State.retireModel at hm ⊢
  rw [hold] at hm ⊢
  obtain ⟨hmarked, hused⟩ := retireEntry_marked s ⟨(id, epoch), m⟩ hm
  exact ⟨hmarked, (h.held m hused).of_agents (retireEntry_agents s _)⟩

theorem retiring_retireOtherEpochs {s : State} (h : Counted s) (record : Record) {epoch : ℕ}
    (hepoch : epoch ≠ record.epoch) :
    Retiring (s.retireOtherEpochs record) (record.id, epoch) := by
  intro m hm
  have hold := (Frame.retireEntries s _).entries _ m hm
  have hmem : (⟨(record.id, epoch), m⟩ : Sigma fun _ : Key => ModelRef) ∈
      s.entries.entries.filter (fun e => e.1.1 = record.id ∧ e.1.2 ≠ record.epoch) :=
    List.mem_filter.mpr ⟨(AList.mem_entries_iff s.entries _ m).mpr hold,
      decide_eq_true ⟨rfl, hepoch⟩⟩
  obtain ⟨hmarked, hused⟩ := retireEntries_marked s _ _ hmem hm
  exact ⟨hmarked, (h.held m hused).of_agents (retireOtherEpochs_agents s record)⟩

theorem held_goto (s : State) {i : ℕ} (a : Agent) {stage : Stage} {m : ModelRef}
    (hi : i < s.agents.length) (h : stage.holds m) : Held (s.goto i a stage) m := by
  refine ⟨{ a with stage := stage }, ?_, h⟩
  rw [State.goto_agents]
  exact List.mem_set hi _

/-- What another agent holds it goes on holding. -/
theorem held_elsewhere {s s' : State} {i : ℕ} {a : Agent} (ha : s.agents[i]? = some a)
    (hagents : s'.agents = s.agents) (stage : Stage) {m : ModelRef} (h : Held s m) :
    Held (s'.goto i a stage) m ∨ a.stage.holds m := by
  obtain ⟨b, hb, hholds⟩ := h
  obtain ⟨j, hj⟩ := List.mem_iff_getElem?.mp hb
  by_cases hij : i = j
  · right
    rw [← hij, ha] at hj
    cases hj
    exact hholds
  · left
    refine ⟨b, ?_, hholds⟩
    rw [State.goto_agents, hagents]
    refine List.mem_iff_getElem?.mpr ⟨j, ?_⟩
    rw [List.getElem?_set_ne hij]
    exact hj

theorem resumedStage_holds (m : ModelRef) (result : Except Failure Bool) :
    (resumedStage m result).holds m := by
  cases result with
  | error failure => exact Or.inr (Or.inl rfl)
  | ok acquired =>
    cases acquired with
    | false => exact Or.inr (Or.inl rfl)
    | true => exact Or.inl rfl

/-- An agent that goes on, but for the sections that settle, holds what it held. -/
theorem agentStep_stage {config : Config} {s t : State} {i : ℕ} {a : Agent} {action : Action}
    (h : agentStep config s i a action = some t)
    (hsettles : ∀ j, action ≠ .release j ∧ action ≠ .leave j) :
    ∃ (s' : State) (stage : Stage), t = s'.goto i a stage ∧
      ∀ m, a.stage.holds m → stage.holds m := by
  obtain ⟨s', stage, _, ht⟩ := agentStep_move config s t i a action h
  cases hstage : a.stage with
  | suspended n last =>
    cases action with
    | acquire j idle demote =>
      simp only [agentStep, hstage] at h
      obtain ⟨_, h⟩ := Option.ite_none_right_eq_some.mp h
      refine ⟨_, _, (Option.some.inj h).symm, ?_⟩
      rintro m (hm | hm | hm)
      · cases hm
      · cases hm
        exact resumedStage_holds n _
      · cases hm
    | drop j =>
      simp only [agentStep, hstage] at h
      refine ⟨_, _, (Option.some.inj h).symm, ?_⟩
      rintro m (hm | hm | hm)
      · cases hm
      · cases hm
        exact Or.inr (Or.inr rfl)
      · cases hm
    | _ => simp [agentStep, hstage] at h
  | starting n =>
    cases action with
    | begin j engine =>
      cases engine with
      | none =>
        simp only [agentStep, hstage] at h
        exact ⟨_, _, (Option.some.inj h).symm, fun m hm => by
          rcases hm with hm | hm | hm
          · exact Or.inl hm
          · cases hm
          · cases hm⟩
      | some error =>
        simp only [agentStep, hstage] at h
        exact ⟨_, _, (Option.some.inj h).symm, fun m hm => by
          rcases hm with hm | hm | hm
          · exact Or.inl hm
          · cases hm
          · cases hm⟩
    | _ => simp [agentStep, hstage] at h
  | counted n =>
    cases action with
    | giveBack j =>
      simp only [agentStep, hstage] at h
      exact ⟨_, _, (Option.some.inj h).symm, fun m hm => by
        rcases hm with hm | hm | hm
        · exact Or.inr (Or.inl hm)
        · exact Or.inr (Or.inl hm)
        · cases hm⟩
    | _ => simp [agentStep, hstage] at h
  | stepping n =>
    cases action with
    | giveBack j =>
      simp only [agentStep, hstage] at h
      exact ⟨_, _, (Option.some.inj h).symm, fun m hm => by
        rcases hm with hm | hm | hm
        · exact Or.inr (Or.inl hm)
        · exact Or.inr (Or.inl hm)
        · cases hm⟩
    | _ => simp [agentStep, hstage] at h
  | refused n error =>
    cases action with
    | giveBack j =>
      simp only [agentStep, hstage] at h
      exact ⟨_, _, (Option.some.inj h).symm, fun m hm => by
        rcases hm with hm | hm | hm
        · exact Or.inr (Or.inr hm)
        · cases hm
        · cases hm⟩
    | _ => simp [agentStep, hstage] at h
  | returning n =>
    cases action with
    | release j => exact absurd rfl (hsettles j).1
    | _ => simp [agentStep, hstage] at h
  | failing n error =>
    cases action with
    | release j => exact absurd rfl (hsettles j).1
    | _ => simp [agentStep, hstage] at h
  | dropping n =>
    cases action with
    | leave j => exact absurd rfl (hsettles j).2
    | _ => simp [agentStep, hstage] at h
  | _ =>
    refine ⟨s', stage, ht, ?_⟩
    rintro m (hm | hm | hm)
    · cases hm
    · cases hm
    · cases hm

theorem step_agent {config : Config} {s t : State} {action : Action} {i : ℕ} {a : Agent}
    (h : Step config s action t) (hagent : action.agent = some i) (ha : s.agents[i]? = some a) :
    agentStep config s i a action = some t := by
  have hact : act config s action =
      action.agent.bind (fun i => s.agents[i]?.bind (fun a => agentStep config s i a action)) := by
    cases action with
    | prepare record => cases hagent
    | start record => cases hagent
    | commit record => cases hagent
    | retire id epoch => cases hagent
    | _ => rfl
  unfold Step at h
  rw [hact, hagent, Option.bind_some, ha, Option.bind_some] at h
  exact h

/-- A stage that is to settle a model holds no other. -/
theorem Stage.holds_of_settles {stage : Stage} {n m : ModelRef} (hsettles : stage.settles = some n)
    (hholds : stage.holds m) : m = n := by
  cases stage with
  | returning p =>
    cases hsettles
    rcases hholds with hm | hm | hm
    · cases hm
    · cases hm
      rfl
    · cases hm
      rfl
  | failing p error =>
    cases hsettles
    rcases hholds with hm | hm | hm
    · cases hm
    · cases hm
    · cases hm
      rfl
  | dropping p =>
    cases hsettles
    rcases hholds with hm | hm | hm
    · cases hm
    · cases hm
    · cases hm
      rfl
  | _ => cases hsettles

theorem settle_removes {s : State} {m : ModelRef} (hretiring : (s.model m).retiring = true)
    (hunused : s.unused m) : (s.settle m).entries.lookup (s.key m) = none := by
  unfold State.settle
  rw [if_pos ⟨hretiring, hunused⟩]
  dsimp only
  rw [AList.lookup_erase_ite, if_pos rfl]

/-- A model that is still resident and marked after its user went on is in use. -/
theorem held_move {config : Config} {s s' : State} {i : ℕ} {a : Agent} {action : Action}
    {stage : Stage} (hmove : Move config s a action s' stage) (hr : Registered s)
    (hcounted : Counted (s'.goto i a stage))
    (hstep : agentStep config s i a action = some (s'.goto i a stage))
    (ha : s.agents[i]? = some a) {m : ModelRef}
    (hstays : s'.entries.lookup (s.key m) = some m) (hmarked : (s.model m).retiring = true)
    (hholds : a.stage.holds m) : Held (s'.goto i a stage) m := by
  have hi : i < (s'.goto i a stage).agents.length := by
    rw [State.goto_agents, List.length_set, hmove.agents hr]
    exact (List.getElem?_eq_some_iff.mp ha).1
  by_cases hsettles : ∀ j, action ≠ .release j ∧ action ≠ .leave j
  · obtain ⟨s'', stage', heq, hgoes⟩ := agentStep_stage hstep hsettles
    rw [heq] at hi ⊢
    rw [State.goto_agents, List.length_set] at hi
    exact held_goto s'' a hi (hgoes m hholds)
  · cases hmove with
    | settle action n stage haction hn hlease hsession hlast =>
      have hmn : m = n := Stage.holds_of_settles hn hholds
      subst hmn
      refine hcounted.held m ?_
      intro hunused
      have hbefore : s.unused m := ((SameCounts.settle s m).unused m).mp hunused
      rw [settle_removes hmarked hbefore] at hstays
      cases hstays
    | walk action stage hwalks hlease hsession hlease' hsession' =>
      exact absurd (fun j => ⟨fun h => by simp [h, Action.walks] at hwalks,
        fun h => by simp [h, Action.walks] at hwalks⟩) hsettles
    | _ => exact absurd (fun j => ⟨nofun, nofun⟩) hsettles

theorem retiring_move {config : Config} {s s' : State} {i : ℕ} {a : Agent} {action : Action}
    {stage : Stage} (hmove : Move config s a action s' stage) (hr : Registered s)
    (hcounted : Counted (s'.goto i a stage))
    (hstep : agentStep config s i a action = some (s'.goto i a stage))
    (ha : s.agents[i]? = some a) {k : Key} (h : Retiring s k)
    (hload : ∀ i point victims, action = .publish i none → a.stage = .publishing point victims →
      s.entries.lookup a.record.key = none → s.fitsRetained config point victims = true →
        k ≠ a.record.key) : Retiring (s'.goto i a stage) k := by
  intro m hm
  rw [State.goto_entries] at hm
  have hold : s.entries.lookup k = some m := by
    rcases hmove.frame hr with hframe | ⟨j, point, victims, haction, hstage, hnone, hfits, rfl, _⟩
    · exact hframe.entries k m hm
    · rcases insertLoaded_lookup s a.record point victims k m hm with ⟨hk, _⟩ | ⟨_, _, hold⟩
      · exact absurd hk (hload j point victims haction hstage hnone hfits)
      · exact hold
  obtain ⟨hmarked, hheld⟩ := h m hold
  have hkey : s.key m = k := hr.key k m hold
  refine ⟨hmove.marks hr m (Nat.ne_of_lt (hr.fresh k m hold)) hmarked, ?_⟩
  rcases held_elsewhere ha (hmove.agents hr) stage hheld with hother | hholds
  · exact hother
  · subst hkey
    exact held_move hmove hr hcounted hstep ha hm hmarked hholds

structure RetirementInvariant (w : World) : Prop where
  registered : Registered w.state
  counted : Counted w.state
  retired : ∀ k ∈ w.retired, Retiring w.state k

theorem RetirementInvariant.initial : RetirementInvariant World.initial :=
  ⟨Registered.initial, Counted.initial, fun _ hk => nomatch hk⟩

theorem RetirementInvariant.stays {w : World} (h : RetirementInvariant w) : StaysRetired w := by
  intro k hk hunheld
  by_contra hresident
  obtain ⟨m, hm⟩ := Option.ne_none_iff_exists'.mp hresident
  exact hunheld m (h.retired k hk m hm).2 (h.registered.key k m hm)

theorem mem_retiredAfter {w : World} {x : Issued} {k : Key} (h : k ∈ w.retiredAfter x) :
    k ∈ w.retired ∨ x.action = .retire k.1 k.2 ∨
      ∃ record epoch, x.action = .commit record ∧ epoch ≠ record.epoch ∧
        k = (record.id, epoch) := by
  obtain ⟨action, replaced⟩ := x
  cases action with
  | prepare record => exact Or.inl (List.mem_filter.mp h).1
  | retire id epoch =>
    rcases List.mem_cons.mp h with rfl | h
    · exact Or.inr (Or.inl rfl)
    · exact Or.inl h
  | commit record =>
    cases replaced with
    | none => exact Or.inl h
    | some epoch =>
      unfold World.retiredAfter at h
      dsimp only at h
      by_cases hepoch : epoch = record.epoch
      · rw [if_pos hepoch] at h
        exact Or.inl h
      · rw [if_neg hepoch] at h
        rcases List.mem_cons.mp h with rfl | h
        · exact Or.inr (Or.inr ⟨record, epoch, rfl, hepoch, rfl⟩)
        · exact Or.inl h
  | _ => exact Or.inl h

/-- A step keeps the resident models of a retired epoch marked and in use. -/
theorem retiring_step {config : Config} {w : World} {x : Issued} {t : State}
    (h : RetirementInvariant w) (hload : LoadsCurrent config w x)
    (hstep : Step config w.state x.action t) {k : Key} (hk : k ∈ w.retired) : Retiring t k := by
  have hretiring := h.retired k hk
  have hcounted := h.counted.step h.registered hstep
  rcases step_cases config w.state t x.action hstep with
    ⟨_, ⟨record, starts, rfl⟩ | ⟨record, rfl⟩ | ⟨id, epoch, rfl⟩⟩ |
      ⟨i, a, s', stage, hagent, ha, hmove, rfl⟩
  · intro m hm
    obtain ⟨hmarked, b, hb, hholds⟩ := hretiring m hm
    exact ⟨hmarked, b, List.mem_append_left _ hb, hholds⟩
  · exact hretiring.of_frame (Frame.retireEntries w.state _) (Marks.retireEntries w.state _)
      (retireOtherEpochs_agents w.state record)
  · exact hretiring.of_frame (Frame.retireModel w.state id epoch)
      (Marks.retireModel w.state id epoch) (retireModel_agents w.state id epoch)
  · refine retiring_move hmove h.registered hcounted (step_agent hstep hagent ha) ha hretiring ?_
    intro j point victims haction hstage hnone hfits heq
    unfold LoadsCurrent at hload
    rw [haction] at hload hagent
    cases hagent
    refine hload a ha (point, victims) ?_ hnone hfits rfl (heq ▸ hk)
    rw [hstage]
    rfl

theorem RetirementInvariant.step {config : Config} {w w' : World} {x : Issued}
    (h : RetirementInvariant w) (hload : LoadsCurrent config w x) (hstep : Issues config w x w') :
    RetirementInvariant w' := by
  obtain ⟨t, hact, rfl⟩ := Option.map_eq_some_iff.mp hstep
  have hcounted : Counted t := h.counted.step h.registered hact
  refine ⟨h.registered.step hact, hcounted, ?_⟩
  intro k hk
  rcases mem_retiredAfter hk with hold | hretire | ⟨record, epoch, hcommit, hepoch, rfl⟩
  · exact retiring_step h hload hact hold
  · rw [hretire] at hact
    cases hact
    exact retiring_retireModel h.counted k.1 k.2
  · rw [hcommit] at hact
    cases hact
    exact retiring_retireOtherEpochs h.counted record hepoch

/-- In a run whose loads insert no entry of a retired epoch, retired epochs are resident
only while a session of them remains. -/
theorem retired_stay_away (config : Config) (run : List (Issued × World))
    (hrun : IsRun (Issues config) World.initial run)
    (hloads : Meets (LoadsCurrent config) World.initial run) :
    ∀ x ∈ run, StaysRetired x.2 := by
  intro x hx
  exact (along_of_meets (Issues config) RetirementInvariant (LoadsCurrent config)
    (fun _ _ _ h hload hstep => h.step hload hstep) World.initial run
    RetirementInvariant.initial hrun hloads x hx).stays

/-- Actions other than a commit replace nothing. -/
def issued (actions : List Action) : List Issued := actions.map (fun action => ⟨action, none⟩)

theorem retired_stay_away_in_use :
    ∃ run, IsRun (Issues (twoModels 200)) World.initial run ∧
      (last World.initial run).retired = [firstModel.key] ∧ ∀ x ∈ run, StaysRetired x.2 := by
  have hrun : (trace (issue (twoModels 200)) World.initial (issued retiredInUse)).any (fun run =>
      decide (Meets (LoadsCurrent (twoModels 200)) World.initial run) &&
      decide ((last World.initial run).retired = [firstModel.key])) = true := by
    decide +kernel
  obtain ⟨run, htrace, hchecks⟩ := (Option.any_eq_true _ _).mp hrun
  rw [Bool.and_eq_true, decide_eq_true_eq, decide_eq_true_eq] at hchecks
  have hsteps := isRun_of_trace _ _ _ run htrace
  exact ⟨run, hsteps, hchecks.2, retired_stay_away (twoModels 200) run hsteps hchecks.1⟩

/-- The epoch retires while its native load runs; the load inserts a new entry, and the
session that it was for starts and ends. -/
def retiredWhileLoading : List Action :=
  [.start firstModel] ++ planned 0 [] ++
    [.load 0 (.ok ⟨60, 50, 110, 0, true⟩) .running, .retire "first" 1, .publish 0 none,
      .acquire 0 [] (fun _ => .count 1), .begin 0 none, .giveBack 0, .release 0, .drop 0, .leave 0]

theorem retired_epoch_returns :
    ¬ ∀ (config : Config) (run : List (Issued × World)),
      IsRun (Issues config) World.initial run → ∀ x ∈ run, StaysRetired x.2 := by
  intro hall
  have hrun : (trace (issue (twoModels 200)) World.initial (issued retiredWhileLoading)).any
      (fun run => decide (∃ x ∈ run, firstModel.key ∈ x.2.retired ∧
        (x.2.state.entries.lookup firstModel.key).isSome = true ∧
        ∀ a ∈ x.2.state.agents, a.stage = .done)) = true := by
    decide +kernel
  obtain ⟨run, htrace, hchecks⟩ := (Option.any_eq_true _ _).mp hrun
  obtain ⟨x, hx, hretired, hresident, hdone⟩ := of_decide_eq_true hchecks
  have hnone := hall (twoModels 200) run (isRun_of_trace _ _ _ run htrace) x hx firstModel.key
    hretired ?_
  · rw [hnone] at hresident
    cases hresident
  · rintro m ⟨a, ha, hholds⟩ _
    rw [hdone a ha] at hholds
    rcases hholds with hm | hm | hm
    · cases hm
    · cases hm
    · cases hm

end Cusco.Residency
