import Cusco.ResidencySteps

/-!
The residency budgets. The three totals over the entries stay within the configured
bytes as long as contexts are only spilled while storage has room for them: the spill
loops test whether a model fits, not whether storage can take what they move there.
-/

namespace Cusco.Residency

open Admission (ControlState Error)
open Runs

inductive Resource
  | device
  | host
  | storage
  deriving DecidableEq

def Point.bytes (p : Point) : Resource → ℕ
  | .device => p.deviceBytes
  | .host => p.hostBytes
  | .storage => p.modelBytes

def Config.budget (config : Config) : Resource → ℕ
  | .device => config.deviceBytes
  | .host => config.hostBytes
  | .storage => config.storageBytes

instance (p : Resource → Prop) [DecidablePred p] : Decidable (∀ r, p r) :=
  decidable_of_iff (p .device ∧ p .host ∧ p .storage)
    ⟨fun h r => by cases r; exacts [h.1, h.2.1, h.2.2], fun h => ⟨h _, h _, h _⟩⟩

/-- What the entries use of a resource. -/
def State.usage (s : State) (r : Resource) : ℕ :=
  s.entries.total (fun _ m => (s.point m).bytes r)

def WithinBudgets (config : Config) (s : State) : Prop := ∀ r, s.usage r ≤ config.budget r

/-- A check of the sums that passes is not the effect of a sum that saturated. -/
def Unsaturated (config : Config) (point : Point) (retained : List Point) : Prop :=
  fitsWith config point retained = true →
    ∀ r, point.bytes r + (retained.map (fun p => p.bytes r)).sum ≤ u64Max

instance (config : Config) (point : Point) (retained : List Point) :
    Decidable (Unsaturated config point retained) :=
  inferInstanceAs (Decidable (_ → _))

/-- The first candidates `ms` demote, and the check fails as long as not all are spilled. -/
def Spillable (fits : State → Bool) (demote : ModelRef → Demotion) (s : State)
    (ms : List ModelRef) : Prop :=
  (∀ m ∈ ms, (demote m).succeeds) ∧ ∀ l ∈ ms.inits, l ≠ ms → fits (s.spillAll l) = false

instance (fits : State → Bool) (demote : ModelRef → Demotion) (s : State)
    (ms : List ModelRef) : Decidable (Spillable fits demote s ms) :=
  inferInstanceAs (Decidable (_ ∧ _))

/-- Storage has room for what a spill loop may move there: in `load` for every such
spill, in `acquire_entry` for those that do not make room for the target. -/
def RoomToPlan (config : Config) (estimate : Point) (idle : List ModelRef)
    (demote : ModelRef → Demotion) (s : State) : Prop :=
  ∀ ms ∈ (s.candidates idle).inits, Spillable (State.fitsAll config estimate) demote s ms →
    (s.spillAll ms).usage .storage ≤ config.storageBytes

def RoomToAcquire (config : Config) (target : ModelRef) (idle : List ModelRef)
    (demote : ModelRef → Demotion) (s : State) : Prop :=
  s.resident target → (s.model target).contextResident = false →
    ∀ ms ∈ (s.candidates idle).inits, Spillable (State.fitsTarget config target) demote s ms →
      (State.fitsTarget config target (s.spillAll ms) = false →
        (s.spillAll ms).usage .storage ≤ config.storageBytes) ∧
      Unsaturated config (s.model target).point
        (((s.entries.values.filter (· ≠ target))).map (s.spillAll ms).point)

/-- A victim that is in use again still counts: so does the entry under its key. -/
def RoomToPublish (config : Config) (record : Record) (point : Point) (victims : List ModelRef)
    (s : State) : Prop :=
  s.entries.lookup record.key = none →
    Unsaturated config point ((s.retained victims).map (fun e => s.point e.2)) ∧
      ∀ v ∈ victims, (s.model v).active ≠ 0 → ∀ m ∈ s.entries.lookup (s.key v),
        (s.model m).active ≠ 0

instance (config : Config) (estimate : Point) (idle : List ModelRef)
    (demote : ModelRef → Demotion) (s : State) :
    Decidable (RoomToPlan config estimate idle demote s) :=
  inferInstanceAs (Decidable (∀ ms ∈ _, _ → _))

instance (s : State) (m : ModelRef) : Decidable (s.resident m) :=
  inferInstanceAs (Decidable (_ = _))

instance (config : Config) (target : ModelRef) (idle : List ModelRef)
    (demote : ModelRef → Demotion) (s : State) :
    Decidable (RoomToAcquire config target idle demote s) :=
  inferInstanceAs (Decidable (_ → _ → ∀ ms ∈ _, _ → _ ∧ _))

instance (config : Config) (record : Record) (point : Point) (victims : List ModelRef)
    (s : State) : Decidable (RoomToPublish config record point victims s) :=
  inferInstanceAs (Decidable (_ → _ ∧ ∀ v ∈ _, _ → ∀ m ∈ _, _))

def State.stage (s : State) (i : ℕ) : Option Stage := s.agents[i]?.map Agent.stage

namespace Stage

/-- The estimate a call of `load` plans for. -/
def estimate : Stage → Option Point
  | planning estimate => some estimate
  | _ => none

/-- The model that is to be acquired. -/
def target : Stage → Option ModelRef
  | loaded m | suspended m _ => some m
  | _ => none

/-- The point and the victims of a call that is to publish. -/
def publication : Stage → Option (Point × List ModelRef)
  | publishing point victims => some (point, victims)
  | _ => none

end Stage

/-- The condition on a step: the sections that move bytes find room for them. -/
def Roomy (config : Config) (s : State) : Action → Prop
  | .plan i idle demote =>
    ∀ estimate ∈ (s.stage i).bind Stage.estimate, RoomToPlan config estimate idle demote s
  | .acquire i idle demote =>
    ∀ m ∈ (s.stage i).bind Stage.target, RoomToAcquire config m idle demote s
  | .publish i profile =>
    ∀ a ∈ s.agents[i]?, ∀ p ∈ a.stage.publication,
      profile = none → RoomToPublish config a.record p.1 p.2 s
  | _ => True

instance (config : Config) (s : State) (action : Action) : Decidable (Roomy config s action) :=
  match action with
  | .plan _ _ _ => inferInstanceAs (Decidable (∀ estimate ∈ _, RoomToPlan _ _ _ _ _))
  | .acquire _ _ _ => inferInstanceAs (Decidable (∀ m ∈ _, RoomToAcquire _ _ _ _ _))
  | .publish _ _ =>
    inferInstanceAs (Decidable (∀ a ∈ _, ∀ p ∈ _, _ → RoomToPublish _ _ _ _ _))
  | .prepare _ | .start _ | .find _ _ | .estimate _ _ _ | .load _ _ _ | .begin _ _ | .giveBack _
  | .release _ | .drop _ | .leave _ | .commit _ | .retire _ _ => isTrue trivial

theorem foldl_saturatingAdd_le {α : Type} (f : α → ℕ) (xs : List α) (a budget : ℕ)
    (h : xs.foldl (fun sum x => saturatingAdd sum (f x)) a ≤ budget)
    (hexact : a + (xs.map f).sum ≤ u64Max) : a + (xs.map f).sum ≤ budget := by
  induction xs generalizing a with
  | nil => simpa using h
  | cons x rest ih =>
    simp only [List.map_cons, List.sum_cons, List.foldl_cons] at h hexact ⊢
    have hsum : saturatingAdd a (f x) = a + f x := by
      unfold saturatingAdd
      omega
    rw [hsum] at h
    have := ih (a + f x) h (by omega)
    omega

/-- A check that passes without saturation bounds every sum by its budget. -/
theorem within_of_fits (config : Config) (point : Point) (retained : List Point)
    (h : fitsWith config point retained = true) (hexact : Unsaturated config point retained)
    (r : Resource) :
    point.bytes r + (retained.map (fun p => p.bytes r)).sum ≤ config.budget r := by
  have hsum := hexact h
  unfold fitsWith at h
  simp only [Bool.and_eq_true, decide_eq_true_eq] at h
  obtain ⟨⟨hdevice, hhost⟩, hstorage⟩ := h
  cases r with
  | device => exact foldl_saturatingAdd_le Point.deviceBytes _ _ _ hdevice (hsum .device)
  | host => exact foldl_saturatingAdd_le Point.hostBytes _ _ _ hhost (hsum .host)
  | storage => exact foldl_saturatingAdd_le Point.modelBytes _ _ _ hstorage (hsum .storage)

theorem sum_map_filter {α : Type} (p : α → Bool) (f : α → ℕ) (xs : List α) :
    ((xs.filter p).map f).sum = (xs.map (fun x => if p x then f x else 0)).sum := by
  induction xs with
  | nil => rfl
  | cons x rest ih =>
    rw [List.filter_cons]
    split
    · rename_i hx
      simp [ih, hx]
    · rename_i hx
      simp [ih, hx]

/-- The sum over the values that a filter keeps. -/
theorem sum_values (s : State) (p : ModelRef → Bool) (g : ModelRef → Point) (r : Resource) :
    (((s.entries.values.filter p).map g).map (fun q => q.bytes r)).sum =
      s.entries.total (fun _ m => if p m then (g m).bytes r else 0) := by
  rw [List.map_map, sum_map_filter, AList.values, List.map_map]
  rfl

/-- Entries may be removed, and the points of the others stay as they are. -/
def Shrinks (s s' : State) : Prop :=
  ∀ k m, s'.entries.lookup k = some m → s.entries.lookup k = some m ∧ s'.point m = s.point m

theorem Shrinks.refl (s : State) : Shrinks s s := fun _ _ h => ⟨h, rfl⟩

theorem Shrinks.trans {s t u : State} (h : Shrinks s t) (h' : Shrinks t u) : Shrinks s u := by
  intro k m hm
  obtain ⟨ht, hpoint⟩ := h' k m hm
  obtain ⟨hs, hpoint'⟩ := h k m ht
  exact ⟨hs, hpoint.trans hpoint'⟩

theorem Shrinks.usage {s s' : State} (h : Shrinks s s') (r : Resource) :
    s'.usage r ≤ s.usage r := by
  apply AList.total_le_of_lookup
  intro k m hm
  obtain ⟨hold, hpoint⟩ := h k m hm
  rw [hpoint]
  exact ⟨hold, Nat.le_refl _⟩

theorem Shrinks.within {config : Config} {s s' : State} (h : Shrinks s s')
    (hs : WithinBudgets config s) : WithinBudgets config s' :=
  fun r => (h.usage r).trans (hs r)

/-- A change that keeps the point and the residency of the context. -/
theorem Shrinks.modify (s : State) (m : ModelRef) (f : ResidentModel → ResidentModel)
    (hpoint : ∀ r, effectivePoint (f r) = effectivePoint r) : Shrinks s (s.modify m f) := by
  intro k n hn
  refine ⟨hn, ?_⟩
  unfold State.point
  rw [State.modify_model]
  split
  · exact hpoint _
  · rfl

theorem Shrinks.erase (s : State) (k : Key) :
    Shrinks s { s with entries := s.entries.erase k } :=
  fun c m hm => ⟨(Frame.erase s k).entries c m hm, rfl⟩

theorem Shrinks.touch (s : State) (m : ModelRef) : Shrinks s (s.touch m) :=
  Shrinks.modify s m (fun r => { r with lastUsed := s.tick }) (fun _ => rfl)

theorem Shrinks.lease (s : State) (m : ModelRef) : Shrinks s (s.lease m) :=
  (Shrinks.modify s m (fun r => { r with active := r.active + 1 }) (fun _ => rfl)).trans
    (Shrinks.touch _ m)

theorem Shrinks.settle (s : State) (m : ModelRef) : Shrinks s (s.settle m) := by
  unfold State.settle
  split
  · exact Shrinks.erase s _
  · exact Shrinks.refl s

theorem Shrinks.retireEntry (s : State) (e : Sigma fun _ : Key => ModelRef) :
    Shrinks s (s.retireEntry e) := by
  have hretired := Shrinks.modify s e.2 (fun r => { r with retiring := true }) (fun _ => rfl)
  simp only [State.retireEntry]
  split
  · exact hretired.trans (Shrinks.erase _ e.1)
  · exact hretired

theorem Shrinks.retireEntries (s : State) (es : List (Sigma fun _ : Key => ModelRef)) :
    Shrinks s (es.foldl State.retireEntry s) := by
  induction es generalizing s with
  | nil => exact Shrinks.refl s
  | cons e rest ih => exact (Shrinks.retireEntry s e).trans (ih _)

theorem Shrinks.retireModel (s : State) (id : String) (epoch : ℕ) :
    Shrinks s (s.retireModel id epoch) := by
  unfold State.retireModel
  split
  · exact Shrinks.retireEntry s _
  · exact Shrinks.refl s

/-- A spill frees device or host bytes, and only storage can grow. -/
theorem spilled_bytes_le (m : ResidentModel) (r : Resource) (hr : r ≠ .storage) :
    (effectivePoint { m with contextResident := false }).bytes r ≤ (effectivePoint m).bytes r := by
  cases r with
  | storage => exact absurd rfl hr
  | device => grind [effectivePoint, Point.bytes]
  | host => grind [effectivePoint, Point.bytes]

theorem usage_spillAll_le (s : State) (ms : List ModelRef) (r : Resource) (hr : r ≠ .storage) :
    (s.spillAll ms).usage r ≤ s.usage r := by
  unfold State.usage
  rw [spillAll_entries]
  apply AList.total_mono
  intro k m _
  unfold State.point
  rw [spillAll_model]
  split
  · exact spilled_bytes_le _ r hr
  · exact Nat.le_refl _

/-- Spilled contexts stay within the budgets as soon as storage has room for them. -/
theorem within_spillAll (config : Config) (s : State) (ms : List ModelRef)
    (hs : WithinBudgets config s) (h : (s.spillAll ms).usage .storage ≤ config.storageBytes) :
    WithinBudgets config (s.spillAll ms) := by
  intro r
  by_cases hr : r = .storage
  · rw [hr]
    exact h
  · exact (usage_spillAll_le s ms r hr).trans (hs r)

theorem SpillResult.spillable {fits : State → Bool} {demote : ModelRef → Demotion} {s : State}
    {idle ms : List ModelRef} {result : SpillExit × State}
    (h : SpillResult fits demote s idle ms result) :
    ms ∈ (s.candidates idle).inits ∧ Spillable fits demote s ms :=
  ⟨List.mem_inits _ _ |>.mpr h.candidates, h.demoted,
    fun l hl hne => h.needed l ((List.mem_inits _ _).mp hl) hne⟩

theorem within_plan (config : Config) (estimate : Point) (idle : List ModelRef)
    (demote : ModelRef → Demotion) (s : State) (hidle : idle.Nodup)
    (hs : WithinBudgets config s) (hroom : RoomToPlan config estimate idle demote s) :
    WithinBudgets config (s.plan config estimate idle demote).2 := by
  obtain ⟨ms, hms⟩ := spillIdle_spec (State.fitsAll config estimate) demote s idle hidle
  rw [plan_state, hms.state]
  exact within_spillAll config s ms hs (hroom ms hms.spillable.1 hms.spillable.2)

/-- A reloaded target fits with the others, as the check before it found. -/
theorem within_reload (config : Config) (target : ModelRef) (s : State) (k : Key)
    (h : Registered s) (htarget : s.entries.lookup k = some target)
    (hfits : State.fitsTarget config target s = true)
    (hexact : Unsaturated config (s.model target).point
      ((s.entries.values.filter (· ≠ target)).map s.point)) :
    WithinBudgets config (s.reload target) := by
  intro r
  have hbound := within_of_fits config _ _ hfits hexact r
  rw [sum_values] at hbound
  refine Nat.le_trans (Nat.le_of_eq ?_) hbound
  change s.entries.total (fun _ m => ((s.reload target).point m).bytes r) = _
  have hsplit := AList.total_erase
    (fun _ m => if decide (m ≠ target) = true then (s.point m).bytes r else 0) s.entries k target
    htarget
  rw [AList.total_erase _ _ k target htarget, hsplit]
  have hreloaded : (s.reload target).point target = (s.model target).point := by
    simp [State.point, State.reload, State.modify_model, effectivePoint]
  rw [hreloaded]
  simp only [ne_eq, not_true_eq_false, decide_false, Bool.false_eq_true, if_false, Nat.zero_add]
  congr 1
  apply AList.total_congr
  intro c m hm
  have hne : m ≠ target := by
    intro heq
    rw [AList.lookup_erase_ite] at hm
    split at hm
    · cases hm
    · rename_i hc
      rw [heq] at hm
      exact hc ((h.key c target hm).symm.trans (h.key k target htarget))
  simp [hne, State.point, State.reload, State.modify_model]

/-- An acquisition keeps the budgets: its spills find room, and so does the reload. -/
theorem within_acquire (config : Config) (target : ModelRef) (idle : List ModelRef)
    (demote : ModelRef → Demotion) (s : State) (h : Registered s) (hidle : idle.Nodup)
    (hs : WithinBudgets config s) (hroom : RoomToAcquire config target idle demote s) :
    WithinBudgets config (s.acquireEntry config target idle demote).2 := by
  rcases acquire_cases config target idle demote s hidle with
    ⟨_, heq⟩ | ⟨_, _, heq⟩ |
    ⟨hresident, hcontext, ms, result, hms, ⟨hexit, heq⟩ | ⟨hexit, _, _, heq⟩⟩
  · rw [heq]
    exact hs
  · rw [heq]
    exact (Shrinks.lease s target).within hs
  · rw [heq]
    apply (Shrinks.lease _ target).within
    obtain ⟨_, hexact⟩ := hroom hresident hcontext ms hms.spillable.1 hms.spillable.2
    have hregistered : Registered (s.spillAll ms) := by
      refine h.of_frame (Frame.spillAll s ms) ?_
      rw [spillAll_agents]
      exact h.held
    have hpoint : ((s.spillAll ms).model target).point = (s.model target).point := by
      rw [spillAll_model]
      split <;> rfl
    refine within_reload config target (s.spillAll ms) (s.key target) hregistered ?_
      (hms.exit.mp hexit) ?_
    · rw [spillAll_entries]
      exact hresident
    · rw [hpoint, spillAll_entries]
      exact hexact
  · rw [heq]
    obtain ⟨hfull, _⟩ := hroom hresident hcontext ms hms.spillable.1 hms.spillable.2
    have hfails : State.fitsTarget config target (s.spillAll ms) = false := by
      rw [← Bool.not_eq_true]
      exact fun hfits => hexit (hms.exit.mpr hfits)
    exact within_spillAll config s ms hs (hfull hfails)

/-- The loaded model fits with the entries that the check counted, and every entry
that stays was counted. -/
theorem within_insertLoaded (config : Config) (record : Record) (point : Point)
    (victims : List ModelRef) (s : State) (h : Registered s)
    (hlookup : s.entries.lookup record.key = none)
    (hfits : s.fitsRetained config point victims = true)
    (hroom : RoomToPublish config record point victims s) :
    WithinBudgets config (s.insertLoaded record point victims) := by
  intro r
  obtain ⟨hexact, hcounted⟩ := hroom hlookup
  have hbound := within_of_fits config point _ hfits hexact r
  have hsum : (((s.retained victims).map (fun e => s.point e.2)).map (fun p => p.bytes r)).sum =
      s.entries.total (fun k m =>
        if decide (k ∉ victims.map s.key ∨ (s.model m).active ≠ 0) = true
          then (s.point m).bytes r else 0) := by
    rw [List.map_map, State.retained, sum_map_filter]
    rfl
  rw [hsum] at hbound
  refine Nat.le_trans ?_ hbound
  have hnew : ((s.insertLoaded record point victims).point s.fresh) = point := by
    simp [State.point, State.insertLoaded, effectivePoint]
  have hentries : (s.insertLoaded record point victims).entries =
      (s.entries.eraseAll (s.gone victims)).insert record.key s.fresh := rfl
  unfold State.usage
  rw [hentries, AList.total_insert, hnew]
  apply Nat.add_le_add_left
  apply AList.total_le_of_lookup
  intro k m hm
  rw [AList.lookup_erase_ite, AList.lookup_eraseAll] at hm
  split at hm
  · cases hm
  · split at hm
    · cases hm
    · rename_i hgone
      refine ⟨hm, ?_⟩
      have hne : m ≠ s.fresh := Nat.ne_of_lt (h.fresh k m hm)
      have hpoint : (s.insertLoaded record point victims).point m = s.point m := by
        unfold State.point
        rw [insertLoaded_model s record point victims m hne]
      have hkept : k ∉ victims.map s.key ∨ (s.model m).active ≠ 0 := by
        by_cases hk : k ∈ victims.map s.key
        · obtain ⟨v, hv, rfl⟩ := List.mem_map.mp hk
          refine .inr (hcounted v hv ?_ m hm)
          intro hidle
          exact hgone (List.mem_map.mpr ⟨v, List.mem_filter.mpr ⟨hv, by simpa using hidle⟩, rfl⟩)
        · exact .inl hk
      rw [hpoint, if_pos (by simpa using hkept)]

/-- A move that meets the condition keeps the budgets. -/
theorem Move.within {config : Config} {s s' : State} {a : Agent} {action : Action} {stage : Stage}
    (hmove : Move config s a action s' stage) (i : ℕ) (ha : s.agents[i]? = some a)
    (hi : action.agent = some i) (h : Registered s) (hs : WithinBudgets config s)
    (hroomy : Roomy config s action) : WithinBudgets config s' := by
  have hstageAt : s.stage i = some a.stage := by
    rw [State.stage, ha]
    rfl
  cases hmove with
  | walk action stage hwalks hlease hsession hlease' hsession' => exact hs
  | hit j control m hstage hentry => exact (Shrinks.touch s m).within hs
  | plan j idle demote estimate hstage hidle =>
    cases hi
    have hroom := hroomy estimate (by rw [hstageAt, hstage]; rfl)
    exact within_plan config estimate idle demote s (h.idle_nodup _ idle hidle) hs hroom
  | publish j profile point victims hstage =>
    cases hi
    rcases publish_cases config a.record point victims profile s with
      ⟨heq, _⟩ | ⟨hlookup, hfits, rfl, heq⟩
    · rw [heq]
      exact hs
    · rw [heq]
      have hroom := hroomy a ha (point, victims) (by rw [hstage]; rfl) rfl
      exact within_insertLoaded config a.record point victims s h hlookup hfits hroom
  | start j idle demote m hstage hidle =>
    cases hi
    have hroom := hroomy m (by rw [hstageAt, hstage]; rfl)
    exact within_acquire config m idle demote s h (h.idle_nodup _ idle hidle) hs hroom
  | resume j idle demote m last hstage hidle =>
    cases hi
    have hroom := hroomy m (by rw [hstageAt, hstage]; rfl)
    exact within_acquire config m idle demote s h (h.idle_nodup _ idle hidle) hs hroom
  | refuse j m error hstage => exact hs
  | begin j m hstage =>
    exact (Shrinks.modify s m (fun r => { r with sessions := r.sessions + 1 })
      (fun _ => rfl)).within hs
  | giveBack j m stage hlease hlease' hsession hlast =>
    exact (Shrinks.modify s m (fun r => { r with active := r.active - 1 }) (fun _ => rfl)).within
      hs
  | settle action m stage haction hsettles hlease hsession hlast =>
    exact (Shrinks.settle s m).within hs
  | drop j m last hstage =>
    exact (Shrinks.modify s m (fun r => { r with sessions := r.sessions - 1 })
      (fun _ => rfl)).within hs

theorem within_step (config : Config) (s t : State) (action : Action)
    (h : Registered s ∧ WithinBudgets config s) (hroomy : Roomy config s action)
    (hstep : Step config s action t) : Registered t ∧ WithinBudgets config t := by
  refine ⟨h.1.step hstep, ?_⟩
  rcases step_cases config s t action hstep with
    ⟨_, ⟨record, starts, rfl⟩ | ⟨record, rfl⟩ | ⟨id, epoch, rfl⟩⟩ |
      ⟨i, a, s', stage, hi, ha, hmove, rfl⟩
  · exact h.2
  · exact (Shrinks.retireEntries s _).within h.2
  · exact (Shrinks.retireModel s id epoch).within h.2
  · exact hmove.within i ha hi h.1 h.2 hroomy

theorem WithinBudgets.initial (config : Config) : WithinBudgets config State.initial := by
  intro r
  unfold State.usage
  rw [State.initial, AList.total_empty]
  exact Nat.zero_le _

/-- In every run whose steps find room for what they move, every state is within the
budgets. -/
theorem budgets_hold (config : Config) (run : List (Action × State))
    (hrun : IsRun (Step config) State.initial run)
    (hroomy : Meets (Roomy config) State.initial run) :
    ∀ x ∈ run, WithinBudgets config x.2 := by
  have hall := along_of_meets (Step config) (fun s => Registered s ∧ WithinBudgets config s)
    (Roomy config) (fun s action t h hcond hstep => within_step config s t action h hcond hstep)
    State.initial run ⟨Registered.initial, WithinBudgets.initial config⟩ hrun hroomy
  exact fun x hx => (hall x hx).2

def twoModels (storageBytes : ℕ) : Config where
  deviceBytes := 200
  hostBytes := 100
  storageBytes := storageBytes
  contextReserveBytes := 50
  gpuLayers := 1
  requireCompetent := true

def firstModel : Record := ⟨"first", 1, 60⟩

def secondModel : Record := ⟨"second", 1, 50⟩

/-- A call of `load` that misses, up to its native load. -/
def planned (i : ℕ) (idle : List ModelRef) : List Action :=
  [.find i .running, .estimate i (.ok none) (.ok 0), .plan i idle (fun _ => .count 1)]

def published (i : ℕ) (point : Point) : List Action :=
  [.load i (.ok point) .running, .publish i none]

/-- The second load spills the first context, and the next session on the first model
spills the second context and reloads the first. -/
def spillAndReload : List Action :=
  [.prepare firstModel] ++ planned 0 [] ++ published 0 ⟨60, 50, 110, 0, true⟩ ++
    [.prepare secondModel] ++ planned 1 [0] ++ published 1 ⟨50, 50, 100, 0, true⟩ ++
    [.start firstModel, .find 2 .running, .acquire 2 [1] (fun _ => .count 1), .begin 2 none,
      .giveBack 2, .release 2]

theorem budgets_hold_reload :
    ∃ run, IsRun (Step (twoModels 200)) State.initial run ∧
      ((last State.initial run).model 0).contextResident = true ∧
      ((last State.initial run).model 1).contextResident = false ∧
      ∀ x ∈ run, WithinBudgets (twoModels 200) x.2 := by
  have hrun : (trace (act (twoModels 200)) State.initial spillAndReload).any (fun run =>
      decide (Meets (Roomy (twoModels 200)) State.initial run) &&
      decide (((last State.initial run).model 0).contextResident = true ∧
        ((last State.initial run).model 1).contextResident = false)) = true := by
    decide +kernel
  obtain ⟨run, htrace, hchecks⟩ := (Option.any_eq_true _ _).mp hrun
  rw [Bool.and_eq_true, decide_eq_true_eq, decide_eq_true_eq] at hchecks
  have hsteps := isRun_of_trace _ _ _ run htrace
  exact ⟨run, hsteps, hchecks.2.1, hchecks.2.2, budgets_hold (twoModels 200) run hsteps hchecks.1⟩

/-- With 100 bytes of storage the spill for the second load takes 110, and this stays so
when the native load fails. -/
theorem failed_load_exceeds_storage :
    ¬ ∀ (config : Config) (run : List (Action × State)),
      IsRun (Step config) State.initial run → ∀ x ∈ run, WithinBudgets config x.2 := by
  intro hall
  have hrun : (trace (act (twoModels 100)) State.initial ([.prepare firstModel] ++ planned 0 [] ++
      published 0 ⟨60, 50, 110, 0, true⟩ ++ [.prepare secondModel] ++ planned 1 [0] ++
      [.load 1 (.error (.state "load failure")) .running])).any (fun run =>
      decide (∃ x ∈ run, 100 < x.2.usage .storage)) = true := by
    decide +kernel
  obtain ⟨run, htrace, hchecks⟩ := (Option.any_eq_true _ _).mp hrun
  obtain ⟨x, hx, hover⟩ := of_decide_eq_true hchecks
  have hwithin := hall (twoModels 100) run (isRun_of_trace _ _ _ run htrace) x hx .storage
  change x.2.usage .storage ≤ 100 at hwithin
  omega

end Cusco.Residency
