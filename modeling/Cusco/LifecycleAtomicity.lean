import Cusco.LifecycleEffects

/-!
Registrations as a whole. A call of the lifecycle service that is refused leaves the map
and the next epoch as they were, and no epoch committed that it prepared; a registration
gets an epoch above all earlier ones; and the map holds the records that were prepared and
published last. This is so along exactly the runs in which no registration is published
at the last epoch.
-/

namespace Cusco.LifecycleAtomicity

open Calls Runs ModelLifecycle LifecycleEffects

variable {known : String → Option ModelRecord}

/-- A record apart from its aliases, which other records may take. -/
def core (r : ModelRecord) : ModelRecord := { r with aliases := [] }

/-- A call that was not refused as a whole. -/
structure Sound (s : Service) (a : Action) (s' : Service) : Prop where
  refused : ∀ e, (perform a).run s = .returns (.error e) s' →
    s'.models = s.models ∧ s'.nextEpoch = s.nextEpoch ∧
      ∃ calls, s'.engine = s.engine ++ calls ∧ Retired calls
  succeeded : ∀ size prepare publish model r, a = .register size prepare publish model →
    (perform a).run s = .returns (.ok (some r)) s' →
    prepare = none ∧ (s.models.lookup r.id = some r ∨ ((∃ rows, publish r s.rows = .ok rows) ∧
      ∀ id epoch replaced, EngineCall.commit id epoch replaced ∈ s.engine → epoch < r.epoch))

/-- A registration that is published leaves an epoch for the next one. -/
def KeepsEpochs (s : Service) : Action → Prop
  | .register size prepare publish model => ∀ r rows,
      Publishes s size prepare publish model r rows → s.nextEpoch < u64Max
  | _ => True

structure Consistent (s : Service) : Prop where
  keyed : ∀ id r, s.models.lookup id = some r → r.id = id
  issued : ∀ id epoch replaced, EngineCall.commit id epoch replaced ∈ s.engine →
    epoch < s.nextEpoch ∨ s.nextEpoch = u64Max
  bounded : s.nextEpoch ≤ u64Max

theorem consistent_new (attached : Bool) (rows : Models) :
    Consistent (Service.new attached rows) := by
  have hfirst : 1 ≤ u64Max := by decide
  refine ⟨?_, ?_, hfirst⟩
  · intro id r h
    cases h
  · intro id epoch replaced h
    cases h

theorem keyed_enter {models : Models} (h : ∀ id r, models.lookup id = some r → r.id = id)
    (model : ModelRecord) : ∀ id r, (enter model models).lookup id = some r → r.id = id := by
  intro id r hr
  rw [lookup_enter] at hr
  by_cases hid : id = model.id
  · rw [if_pos hid] at hr
    cases hr
    exact hid.symm
  · rw [if_neg hid] at hr
    obtain ⟨q, hq, rfl⟩ := Option.map_eq_some_iff.mp hr
    exact h id q hq

theorem keyed_aliased {models : Models} (h : ∀ id r, models.lookup id = some r → r.id = id)
    (i name : String) : ∀ id r, (aliased i name models).lookup id = some r → r.id = id := by
  intro id r hr
  rw [lookup_aliased] at hr
  by_cases hid : id = i
  · rw [if_pos hid] at hr
    obtain ⟨q, hq, rfl⟩ := Option.map_eq_some_iff.mp hr
    exact h id q hq
  · rw [if_neg hid] at hr
    obtain ⟨q, hq, rfl⟩ := Option.map_eq_some_iff.mp hr
    exact h id q hq

/-- Calls that commit nothing keep the epochs issued. -/
theorem issued_retired {s : Service} (h : Consistent s) {calls : List EngineCall}
    (hcalls : Retired calls) : ∀ id epoch replaced,
    EngineCall.commit id epoch replaced ∈ (logged s calls).engine →
      epoch < s.nextEpoch ∨ s.nextEpoch = u64Max := by
  intro id epoch replaced hmem
  rcases List.mem_append.mp hmem with hold | hnew
  · exact h.issued id epoch replaced hold
  · exact absurd hnew (hcalls.uncommitted id epoch replaced)

theorem consistent_logged {s : Service} (h : Consistent s) {calls : List EngineCall}
    (hcalls : Retired calls) : Consistent (logged s calls) :=
  ⟨h.keyed, issued_retired h hcalls, h.bounded⟩

theorem mem_committed {id id' : String} {epoch epoch' : ℕ} {replaced replaced' : Option ℕ}
    {ok : Bool} (h : EngineCall.commit id epoch replaced ∈
      [EngineCall.prepare id' epoch' ok, .commit id' epoch' replaced']) : epoch = epoch' := by
  simp only [List.mem_cons, EngineCall.commit.injEq, List.not_mem_nil, reduceCtorEq, or_false,
    false_or] at h
  exact h.2.1

theorem consistent_register {s s' : Service} (hs : Consistent s) {size : Except String ℕ}
    {prepare : Option Error} {publish : Publication} {model : ModelRecord}
    {result : Except Error ModelRecord}
    (h : (register size prepare publish model).run s = .returns result s') : Consistent s' := by
  rcases register_cases h with ⟨calls, e, hcalls, _, rfl, _⟩ |
    ⟨existing, _, _, _, rfl, _⟩ | ⟨r, rows, hpublishes, ⟨hlast, _, rfl⟩ | ⟨_, _, rfl⟩⟩
  · exact consistent_logged hs hcalls
  · refine ⟨hs.keyed, ?_, hs.bounded⟩
    intro id epoch replaced hmem
    rcases List.mem_append.mp hmem with hold | hnew
    · exact hs.issued id epoch replaced hold
    · simp at hnew
  · refine ⟨keyed_enter hs.keyed r, ?_, hlast⟩
    intro id epoch replaced hmem
    left
    change epoch < s.nextEpoch + 1
    rcases List.mem_append.mp hmem with hold | hnew
    · rcases hs.issued id epoch replaced hold with hless | hmax
      · omega
      · omega
    · have hepoch := hpublishes.epoch
      rw [mem_committed hnew]
      omega
  · refine ⟨keyed_enter hs.keyed r, ?_, hs.bounded⟩
    intro id epoch replaced hmem
    rcases List.mem_append.mp hmem with hold | hnew
    · exact hs.issued id epoch replaced hold
    · simp at hnew

theorem consistent_registerFromCatalog {s s' : Service} (hs : Consistent s)
    {prepare : Option Error} {model : ModelRecord} {result : Except Error ModelRecord}
    (h : (registerFromCatalog prepare model).run s = .returns result s') : Consistent s' := by
  rcases registerFromCatalog_cases h with ⟨calls, e, hcalls, _, rfl, _⟩ | ⟨_, _, _, rfl⟩
  · exact consistent_logged hs hcalls
  have hbounded := hs.bounded
  refine ⟨keyed_enter hs.keyed model, ?_, ?_⟩
  · intro id epoch replaced hmem
    change epoch < max s.nextEpoch (min (model.epoch + 1) u64Max) ∨
      max s.nextEpoch (min (model.epoch + 1) u64Max) = u64Max
    rcases List.mem_append.mp hmem with hold | hnew
    · rcases hs.issued id epoch replaced hold with hless | hmax
      · omega
      · omega
    · have hepoch := mem_committed hnew
      omega
  · change max s.nextEpoch (min (model.epoch + 1) u64Max) ≤ u64Max
    omega

theorem consistent_step {s s' : Service} {a : Action} (hs : Consistent s) (h : Step s a s') :
    Consistent s' := by
  obtain ⟨result, h⟩ := result_of_step h
  cases a with
  | register size prepare publish model =>
    obtain ⟨result', hrun, _⟩ := Call.of_bind_pure h
    exact consistent_register hs hrun
  | registerFromCatalog prepare model =>
    obtain ⟨result', hrun, _⟩ := Call.of_bind_pure h
    exact consistent_registerFromCatalog hs hrun
  | aliasModel fault id name =>
    obtain ⟨result', hrun, _⟩ := Call.of_bind_pure h
    rcases aliasModel_cases hrun with ⟨rfl, _⟩ | ⟨m, rows, _, _, _, rfl⟩
    · exact hs
    · exact ⟨keyed_aliased hs.keyed id name, hs.issued, hs.bounded⟩
  | remove fault id =>
    obtain ⟨result', hrun, _⟩ := Call.of_bind_pure h
    rcases remove_cases hrun with ⟨rfl, _⟩ | ⟨m, rows, _, _, _, rfl⟩
    · exact hs
    · refine ⟨?_, ?_, hs.bounded⟩
      · intro j r hr
        change (s.models.erase id).lookup j = some r at hr
        rw [AList.lookup_erase_ite] at hr
        by_cases hj : j = id
        · rw [if_pos hj] at hr
          cases hr
        · rw [if_neg hj] at hr
          exact hs.keyed j r hr
      · intro j epoch replaced hmem
        rcases List.mem_append.mp hmem with hold | hnew
        · exact hs.issued j epoch replaced hold
        · simp at hnew

/-- The record published differs from the one it replaces. -/
theorem publishes_changes {s : Service} {size : Except String ℕ} {prepare : Option Error}
    {publish : Publication} {model r : ModelRecord} {rows : Models}
    (h : Publishes s size prepare publish model r rows) : enter r s.models ≠ s.models := by
  intro hsame
  obtain ⟨m, _, hnone, rfl⟩ := h.record
  have hlookup : s.models.lookup m.id = some { m with epoch := s.nextEpoch } := by
    rw [← hsame, lookup_enter, if_pos rfl]
  unfold registeredSame at hnone
  rw [hlookup, Option.filter_some, if_pos (by simp [sameContent])] at hnone
  cases hnone

theorem sound_register_iff {s s' : Service} (hs : Consistent s) {size : Except String ℕ}
    {prepare : Option Error} {publish : Publication} {model : ModelRecord}
    (h : Step s (.register size prepare publish model) s') :
    Sound s (.register size prepare publish model) s' ↔
      KeepsEpochs s (.register size prepare publish model) := by
  obtain ⟨result, h⟩ := result_of_step h
  obtain ⟨result', hrun, rfl⟩ := Call.of_bind_pure h
  rcases register_cases hrun with ⟨calls, e, hcalls, rfl, rfl, hnot⟩ |
    ⟨existing, hexisting, hprepare, rfl, rfl, hnot⟩ |
    ⟨r, rows, hpublishes, ⟨hlast, rfl, rfl⟩ | ⟨hlast, ⟨e, rfl⟩, rfl⟩⟩
  · refine iff_of_true ⟨?_, ?_⟩ (fun r rows hpublishes => absurd hpublishes (hnot r rows))
    · intro _ _
      exact ⟨rfl, rfl, calls, rfl, hcalls⟩
    · intro _ _ _ _ r _ hok
      cases h.symm.trans hok
  · refine iff_of_true ⟨?_, ?_⟩ (fun r rows hpublishes => absurd hpublishes (hnot r rows))
    · intro e herror
      cases h.symm.trans herror
    · intro _ _ _ _ r ha hok
      cases ha
      cases h.symm.trans hok
      rw [hs.keyed _ _ hexisting]
      exact ⟨hprepare, Or.inl hexisting⟩
  · refine iff_of_true ⟨?_, ?_⟩ (fun _ _ _ => hlast)
    · intro e herror
      cases h.symm.trans herror
    · intro _ _ _ _ q ha hok
      cases ha
      cases h.symm.trans hok
      refine ⟨hpublishes.prepared, Or.inr ⟨⟨rows, hpublishes.published⟩, ?_⟩⟩
      intro id epoch replaced hmem
      rw [hpublishes.epoch]
      rcases hs.issued id epoch replaced hmem with hless | hmax
      · exact hless
      · omega
  · refine iff_of_false ?_ (fun hkeeps => hlast (hkeeps r rows hpublishes))
    intro hsound
    exact publishes_changes hpublishes (hsound.refused e h).1

theorem sound_step_iff {s s' : Service} {a : Action} (hs : Consistent s) (h : Step s a s') :
    Sound s a s' ↔ KeepsEpochs s a := by
  cases a with
  | register size prepare publish model => exact sound_register_iff hs h
  | registerFromCatalog prepare model =>
    obtain ⟨result, h⟩ := result_of_step h
    obtain ⟨result', hrun, rfl⟩ := Call.of_bind_pure h
    refine iff_of_true ⟨?_, fun _ _ _ _ _ ha => nomatch ha⟩ trivial
    intro e herror
    rcases registerFromCatalog_cases hrun with ⟨calls, _, hcalls, _, rfl, _⟩ | ⟨_, _, rfl, _⟩
    · exact ⟨rfl, rfl, calls, rfl, hcalls⟩
    · cases h.symm.trans herror
  | aliasModel fault id name =>
    obtain ⟨result, h⟩ := result_of_step h
    obtain ⟨result', hrun, rfl⟩ := Call.of_bind_pure h
    refine iff_of_true ⟨?_, fun _ _ _ _ _ ha => nomatch ha⟩ trivial
    intro e herror
    rcases aliasModel_cases hrun with ⟨rfl, _⟩ | ⟨_, _, _, _, rfl, _⟩
    · exact ⟨rfl, rfl, [], (List.append_nil _).symm, retired_nil⟩
    · cases h.symm.trans herror
  | remove fault id =>
    obtain ⟨result, h⟩ := result_of_step h
    obtain ⟨result', hrun, rfl⟩ := Call.of_bind_pure h
    refine iff_of_true ⟨?_, fun _ _ _ _ _ ha => nomatch ha⟩ trivial
    intro e herror
    rcases remove_cases hrun with ⟨rfl, _⟩ | ⟨_, _, _, _, rfl, _⟩
    · exact ⟨rfl, rfl, [], (List.append_nil _).symm, retired_nil⟩
    · cases h.symm.trans herror

/-- The model that a call settles, if it succeeds: the record it prepared and published or
loaded, or none for a model it removed. -/
def settles (s : Service) (a : Action) : Option (String × Option ModelRecord) :=
  match (perform a).run s, a with
  | .returns (.ok (some r)) _, .register .. => some (r.id, some r)
  | .returns (.ok (some r)) _, .registerFromCatalog .. => some (r.id, some r)
  | .returns (.ok _) _, .remove _ id => some (id, none)
  | _, _ => none

def noted (known : String → Option ModelRecord) :
    Option (String × Option ModelRecord) → String → Option ModelRecord
  | none => known
  | some (id, r) => Function.update known id r

/-- The record of each model that a run settled last. -/
def latest (s : Service) (known : String → Option ModelRecord) :
    List (Action × Service) → String → Option ModelRecord
  | [] => known
  | (a, s') :: rest => latest s' (noted known (settles s a)) rest

/-- The map holds some records, up to their aliases. -/
def Holds (models : Models) (known : String → Option ModelRecord) : Prop :=
  ∀ id, (models.lookup id).map core = (known id).map core

theorem holds_enter {models : Models} (h : Holds models known) (r : ModelRecord) :
    Holds (enter r models) (Function.update known r.id (some r)) := by
  intro id
  rw [lookup_enter, Function.update_apply]
  by_cases hid : id = r.id
  · rw [if_pos hid, if_pos hid]
  · rw [if_neg hid, if_neg hid, ← h id, Option.map_map]
    rfl

theorem holds_noted {models : Models} (h : Holds models known) {r : ModelRecord}
    (hr : models.lookup r.id = some r) : Holds models (Function.update known r.id (some r)) := by
  intro id
  rw [Function.update_apply]
  by_cases hid : id = r.id
  · rw [if_pos hid, hid, hr]
  · rw [if_neg hid, h id]

theorem holds_aliased {models : Models} (h : Holds models known) (i name : String) :
    Holds (aliased i name models) known := by
  intro id
  rw [lookup_aliased, ← h id]
  by_cases hid : id = i
  · rw [if_pos hid, Option.map_map]
    rfl
  · rw [if_neg hid, Option.map_map]
    rfl

theorem holds_erase {models : Models} (h : Holds models known) (i : String) :
    Holds (models.erase i) (Function.update known i none) := by
  intro id
  rw [AList.lookup_erase_ite, Function.update_apply]
  by_cases hid : id = i
  · rw [if_pos hid, if_pos hid]
  · rw [if_neg hid, if_neg hid, h id]

theorem holds_step {s s' : Service} {a : Action} (hs : Consistent s) (hkeeps : KeepsEpochs s a)
    (h : Step s a s') (hholds : Holds s.models known) :
    Holds s'.models (noted known (settles s a)) := by
  obtain ⟨result, h⟩ := result_of_step h
  unfold settles
  rw [h]
  cases a with
  | register size prepare publish model =>
    obtain ⟨result', hrun, rfl⟩ := Call.of_bind_pure h
    rcases register_cases hrun with ⟨calls, e, _, rfl, rfl, _⟩ |
      ⟨existing, hexisting, _, rfl, rfl, _⟩ |
      ⟨r, rows, hpublishes, ⟨_, rfl, rfl⟩ | ⟨hlast, _, _⟩⟩
    · exact hholds
    · refine holds_noted hholds ?_
      rw [hs.keyed _ _ hexisting, hexisting]
    · exact holds_enter hholds r
    · exact absurd (hkeeps r rows hpublishes) hlast
  | registerFromCatalog prepare model =>
    obtain ⟨result', hrun, rfl⟩ := Call.of_bind_pure h
    rcases registerFromCatalog_cases hrun with ⟨calls, e, _, rfl, rfl, _⟩ | ⟨_, _, rfl, rfl⟩
    · exact hholds
    · exact holds_enter hholds model
  | aliasModel fault id name =>
    obtain ⟨result', hrun, rfl⟩ := Call.of_bind_pure h
    rcases aliasModel_cases hrun with ⟨rfl, ⟨e, rfl⟩, _⟩ | ⟨m, rows, _, _, rfl, rfl⟩
    · exact hholds
    · exact holds_aliased hholds id name
  | remove fault id =>
    obtain ⟨result', hrun, rfl⟩ := Call.of_bind_pure h
    rcases remove_cases hrun with ⟨rfl, ⟨e, rfl⟩, _⟩ | ⟨m, rows, _, _, rfl, rfl⟩
    · exact hholds
    · exact holds_erase hholds id

theorem holds_run {s : Service} {run : List (Action × Service)} (hs : Consistent s)
    (hholds : Holds s.models known) (hrun : IsRun Step s run) (hmeets : Meets KeepsEpochs s run) :
    Holds (last s run).models (latest s known run) := by
  induction run generalizing s known with
  | nil => exact hholds
  | cons head rest ih =>
    obtain ⟨a, s'⟩ := head
    obtain ⟨hstep, hrest⟩ := hrun
    obtain ⟨hkeeps, hmeets⟩ := hmeets
    exact ih (consistent_step hs hstep) (holds_step hs hkeeps hstep hholds) hrest hmeets

/-- Every call of a run is refused or succeeds as a whole, and the map holds what the run
settled last, exactly when no registration is published at the last epoch. -/
theorem lifecycle_sound_iff (attached : Bool) (rows : Models) (run : List (Action × Service))
    (hrun : IsRun Step (Service.new attached rows) run) :
    (Along Sound (Service.new attached rows) run ∧
      Holds (last (Service.new attached rows) run).models
        (latest (Service.new attached rows) (fun _ => none) run)) ↔
      Meets KeepsEpochs (Service.new attached rows) run := by
  have hnew := consistent_new attached rows
  have hiff := along_steps_iff_meets Step Consistent Sound KeepsEpochs
    (fun _ _ _ hs h => sound_step_iff hs h) (fun _ _ _ hs h _ => consistent_step hs h)
    (Service.new attached rows) run hnew hrun
  constructor
  · intro h
    exact hiff.mp h.1
  · intro hmeets
    exact ⟨hiff.mpr hmeets, holds_run hnew (fun _ => rfl) hrun hmeets⟩

theorem registered_and_removed_sound :
    ∃ s1 s2, IsRun Step (Service.new true ∅)
        [(publishing "m" ["latest"], s1), (.remove none "m", s2)] ∧
      Along Sound (Service.new true ∅)
        [(publishing "m" ["latest"], s1), (.remove none "m", s2)] := by
  have hrun : (act (Service.new true ∅) (publishing "m" ["latest"])).any (fun s1 =>
      (act s1 (.remove none "m")).isSome) = true := by
    decide +kernel
  obtain ⟨s1, hfirst, hchecked⟩ := (Option.any_eq_true _ _).mp hrun
  obtain ⟨s2, hsecond⟩ := Option.isSome_iff_exists.mp hchecked
  have hsteps : IsRun Step (Service.new true ∅)
      [(publishing "m" ["latest"], s1), (.remove none "m", s2)] := ⟨hfirst, hsecond, trivial⟩
  have hepoch : 1 < u64Max := by decide
  exact ⟨s1, s2, hsteps, ((lifecycle_sound_iff true ∅ _ hsteps).mpr
    ⟨fun _ _ _ => hepoch, trivial, trivial⟩).1⟩

/-- A registration without a publication of its own, as `Server::register_model` makes it. -/
def unpublished (id : String) : Action :=
  .register (.ok 1) none (fun _ rows => .ok rows) (smallModel id [])

theorem last_epoch_enters_map :
    ∃ run e s', IsRun Step (Service.new false ∅) run ∧
      (perform (unpublished "m")).run (last (Service.new false ∅) run) =
        .returns (.error e) s' ∧
      s'.models ≠ (last (Service.new false ∅) run).models := by
  have hrun : (trace act (Service.new false ∅)
      [.registerFromCatalog none { smallModel "z" [] with epoch := u64Max }]).any (fun run =>
        match (perform (unpublished "m")).run (last (Service.new false ∅) run) with
        | .returns (.error _) s' => (s'.models.lookup "m").isSome &&
            ((last (Service.new false ∅) run).models.lookup "m").isNone
        | _ => false) = true := by
    decide +kernel
  obtain ⟨run, htrace, hchecked⟩ := (Option.any_eq_true _ _).mp hrun
  cases hcall : (perform (unpublished "m")).run (last (Service.new false ∅) run) with
  | panics =>
    rw [hcall] at hchecked
    cases hchecked
  | returns result s' =>
    rw [hcall] at hchecked
    cases result with
    | ok _ => cases hchecked
    | error e =>
      refine ⟨run, e, s', isRun_of_trace _ _ _ _ htrace, hcall, ?_⟩
      intro hsame
      simp only [hsame, Bool.and_eq_true, Option.isSome_iff_ne_none, ne_eq,
        Option.isNone_iff_eq_none] at hchecked
      exact hchecked.1 hchecked.2

end Cusco.LifecycleAtomicity
