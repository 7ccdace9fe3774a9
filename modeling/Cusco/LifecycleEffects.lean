import Cusco.ModelLifecycle

/-!
What each call of the model lifecycle service can do. A refused call changed nothing but
the engine's log, save for one: a registration that takes the last epoch has entered the
map before it finds no epoch to follow.
-/

namespace Cusco.LifecycleEffects

open Calls ModelLifecycle

/-- Only engine calls were made. -/
def logged (s : Service) (calls : List EngineCall) : Service :=
  { s with engine := s.engine ++ calls }

/-- No epoch was committed, and what was prepared was retired. -/
structure Retired (calls : List EngineCall) : Prop where
  uncommitted : ∀ id epoch replaced, EngineCall.commit id epoch replaced ∉ calls
  retired : ∀ id epoch, EngineCall.prepare id epoch true ∈ calls →
    EngineCall.retire id epoch ∈ calls

theorem retired_nil : Retired [] :=
  ⟨fun _ _ _ h => (nomatch h), fun _ _ h => (nomatch h)⟩

theorem retired_unprepared (id : String) (epoch : ℕ) : Retired [.prepare id epoch false] := by
  constructor
  · intro _ _ _ h
    simp at h
  · intro _ _ h
    simp at h

theorem retired_withdrawn (id : String) (epoch : ℕ) (ok : Bool) :
    Retired [.prepare id epoch ok, .retire id epoch] := by
  constructor
  · intro _ _ _ h
    simp at h
  · intro id' epoch' h
    simp only [List.mem_cons, EngineCall.prepare.injEq, List.not_mem_nil, reduceCtorEq,
      or_false] at h
    obtain ⟨rfl, rfl, _⟩ := h
    simp

theorem prepareModel_none (s : Service) (model : ModelRecord) :
    (prepareModel none model).run s =
      .returns (.ok ()) (logged s [.prepare model.id model.epoch true]) := rfl

theorem prepareModel_some (s : Service) (e : Error) (model : ModelRecord) :
    (prepareModel (some e) model).run s =
      .returns (.error e) (logged s [.prepare model.id model.epoch false]) := rfl

/-- The registration gets as far as a publication, and the publication succeeds. -/
structure Publishes (s : Service) (size : Except String ℕ) (prepare : Option Error)
    (publish : Publication) (model r : ModelRecord) (rows : Models) : Prop where
  record : ∃ m, completed size model = .ok m ∧ registeredSame s.models m = none ∧
    r = { m with epoch := s.nextEpoch }
  prepared : prepare = none
  published : publish r s.rows = .ok rows

theorem Publishes.epoch {s : Service} {size : Except String ℕ} {prepare : Option Error}
    {publish : Publication} {model r : ModelRecord} {rows : Models}
    (h : Publishes s size prepare publish model r rows) : r.epoch = s.nextEpoch := by
  obtain ⟨m, _, _, rfl⟩ := h.record
  rfl

def epochOf (models : Models) (id : String) : Option ℕ :=
  (models.lookup id).map (fun record => record.epoch)

/-- The map and the rows after a publication. -/
def entered (s : Service) (r : ModelRecord) (rows : Models) : Service :=
  { logged s [.prepare r.id r.epoch true] with models := enter r s.models, rows := rows }

/-- After a registration. -/
def registered (s : Service) (r : ModelRecord) (rows : Models) : Service :=
  { logged s [.prepare r.id r.epoch true, .commit r.id r.epoch (epochOf s.models r.id)] with
    models := enter r s.models
    rows := rows
    nextEpoch := s.nextEpoch + 1 }

theorem registerNew_run (s : Service) (publish : Publication) (m r : ModelRecord)
    (hr : r = { m with epoch := s.nextEpoch }) :
    (registerNew (alone none publish) m).run s =
      match publish r s.rows with
      | .error e => .returns (.error e)
          (logged s [.prepare r.id r.epoch true, .retire r.id r.epoch])
      | .ok rows =>
        if s.nextEpoch < u64Max then .returns (.ok r) (registered s r rows)
        else .returns (.error (.state "model epoch space exhausted")) (entered s r rows) := by
  subst hr
  unfold registerNew
  rw [Call.run_read_bind]
  simp only [alone]
  rw [Call.run_bind_ok (prepareModel_none s _), Call.run_read_bind]
  simp only [logged]
  cases publish { m with epoch := s.nextEpoch } s.rows with
  | error e =>
    simp only [Except.map, Call.run_update_bind, Call.run_fail, List.append_assoc]
    rfl
  | ok rows =>
    simp only [Except.map, Call.run_update_bind]
    unfold enterAndCommit
    by_cases hlast : s.nextEpoch < u64Max
    · rw [if_pos hlast, if_pos hlast, Call.run_update_bind, Call.run_require_some_bind,
        Call.run_update_bind]
      simp only [log, Call.run_update_bind, Call.run_pure, logged, registered, epochOf,
        List.append_assoc]
      rfl
    · rw [if_neg hlast, if_neg hlast, Call.run_update_bind, Call.run_require_none_bind]
      rfl

theorem registerNew_unprepared (s : Service) (e : Error) (publish : Publication)
    (m : ModelRecord) : (registerNew (alone (some e) publish) m).run s =
      .returns (.error e) (logged s [.prepare m.id s.nextEpoch false]) :=
  rfl

theorem register_cases {s s' : Service} {size : Except String ℕ} {prepare : Option Error}
    {publish : Publication} {model : ModelRecord} {result : Except Error ModelRecord}
    (h : (register size prepare publish model).run s = .returns result s') :
    (∃ calls e, Retired calls ∧ result = .error e ∧ s' = logged s calls ∧
      ∀ r rows, ¬ Publishes s size prepare publish model r rows) ∨
    (∃ existing, s.models.lookup model.id = some existing ∧ prepare = none ∧
      result = .ok existing ∧ s' = logged s [.prepare existing.id existing.epoch true] ∧
      ∀ r rows, ¬ Publishes s size prepare publish model r rows) ∨
    ∃ r rows, Publishes s size prepare publish model r rows ∧
      ((s.nextEpoch < u64Max ∧ result = .ok r ∧ s' = registered s r rows) ∨
        (¬ s.nextEpoch < u64Max ∧ (∃ e, result = .error e) ∧ s' = entered s r rows)) := by
  unfold register at h
  rcases Call.of_ofExcept_bind h with ⟨e, he, rfl, rfl⟩ | ⟨m, hm, h⟩
  · refine Or.inl ⟨[], e, retired_nil, rfl, ?_, ?_⟩
    · simp [logged]
    · rintro r rows ⟨⟨m, hm, _⟩, _, _⟩
      rw [he] at hm
      cases hm
  have hid : m.id = model.id := by
    unfold completed at hm
    by_cases hzero : model.sizeBytes = 0
    · simp only [if_pos hzero] at hm
      cases size with
      | error text => cases hm
      | ok bytes =>
        cases hm
        rfl
    · simp only [if_neg hzero] at hm
      cases hm
      rfl
  have hrecord : ∀ {r rows}, Publishes s size prepare publish model r rows →
      registeredSame s.models m = none ∧ r = { m with epoch := s.nextEpoch } := by
    rintro r rows ⟨⟨m', hm', hnone, hr⟩, _, _⟩
    rw [hm] at hm'
    cases hm'
    exact ⟨hnone, hr⟩
  rw [registerCompleted_run, service_alone, prepare_alone] at h
  cases hsame : registeredSame s.models m with
  | some existing =>
    have hnot : ∀ r rows, ¬ Publishes s size prepare publish model r rows := by
      intro r rows hpublishes
      rw [hsame] at hrecord
      cases (hrecord hpublishes).1
    have hlookup : s.models.lookup model.id = some existing := by
      rw [← hid]
      exact (Option.filter_eq_some_iff.mp hsame).1
    rw [hsame] at h
    simp only at h
    cases prepare with
    | some e =>
      rw [Call.run_bind_error (prepareModel_some s e existing)] at h
      cases h
      exact Or.inl ⟨_, e, retired_unprepared _ _, rfl, rfl, hnot⟩
    | none =>
      rw [Call.run_bind_ok (prepareModel_none s existing)] at h
      cases h
      exact Or.inr (Or.inl ⟨existing, hlookup, rfl, rfl, rfl, hnot⟩)
  | none =>
    rw [hsame] at h
    simp only at h
    obtain ⟨r, hr⟩ : ∃ r : ModelRecord, r = { m with epoch := s.nextEpoch } := ⟨_, rfl⟩
    cases prepare with
    | some e =>
      rw [registerNew_unprepared] at h
      cases h
      refine Or.inl ⟨_, e, retired_unprepared _ _, rfl, rfl, ?_⟩
      intro r rows hpublishes
      cases hpublishes.prepared
    | none =>
      rw [registerNew_run s publish m r hr] at h
      cases hpublish : publish r s.rows with
      | error e =>
        rw [hpublish] at h
        cases h
        refine Or.inl ⟨_, e, retired_withdrawn _ _ _, rfl, rfl, ?_⟩
        intro r' rows hpublishes
        have hpublished := hpublishes.published
        rw [(hrecord hpublishes).2, ← hr, hpublish] at hpublished
        cases hpublished
      | ok rows =>
        rw [hpublish] at h
        simp only at h
        refine Or.inr (Or.inr ⟨r, rows, ⟨⟨m, hm, hsame, hr⟩, rfl, hpublish⟩, ?_⟩)
        by_cases hlast : s.nextEpoch < u64Max
        · rw [if_pos hlast] at h
          cases h
          exact Or.inl ⟨hlast, rfl, rfl⟩
        · rw [if_neg hlast] at h
          cases h
          exact Or.inr ⟨hlast, ⟨_, rfl⟩, rfl⟩

/-- After a record of the catalog was loaded. -/
def loaded (s : Service) (model : ModelRecord) : Service :=
  { logged s [.prepare model.id model.epoch true,
      .commit model.id model.epoch (epochOf s.models model.id)] with
    models := enter model s.models
    nextEpoch := max s.nextEpoch (min (model.epoch + 1) u64Max) }

theorem registerFromCatalog_cases {s s' : Service} {prepare : Option Error}
    {model : ModelRecord} {result : Except Error ModelRecord}
    (h : (registerFromCatalog prepare model).run s = .returns result s') :
    (∃ calls e, Retired calls ∧ result = .error e ∧ s' = logged s calls ∧
      (model.epoch = 0 ∨ prepare ≠ none)) ∨
    (model.epoch ≠ 0 ∧ prepare = none ∧ result = .ok model ∧ s' = loaded s model) := by
  unfold registerFromCatalog at h
  rcases Call.of_check_bind h with ⟨hzero, rfl, rfl⟩ | ⟨hepoch, h⟩
  · have hzero' : model.epoch = 0 := by simpa using hzero
    exact Or.inl ⟨[], _, retired_nil, rfl, by simp [logged], Or.inl hzero'⟩
  have hepoch' : model.epoch ≠ 0 := of_decide_eq_true hepoch
  cases prepare with
  | some e =>
    rw [Call.run_bind_error (prepareModel_some s e model)] at h
    cases h
    exact Or.inl ⟨_, e, retired_unprepared _ _, rfl, rfl, Or.inr (Option.some_ne_none e)⟩
  | none =>
    rw [Call.run_bind_ok (prepareModel_none s model), Call.run_read_bind,
      Call.run_update_bind] at h
    simp only [log, Call.run_update_bind, Call.run_pure, logged, List.append_assoc] at h
    cases h
    exact Or.inr ⟨hepoch', rfl, rfl, rfl⟩

/-- What `written` leaves in the catalog. -/
def Writes (s : Service) (write : Models → Except Error Models) (rows : Models) : Prop :=
  if s.attached then write s.rows = .ok rows else rows = s.rows

theorem written_cases {s s' : Service} {write : Models → Except Error Models}
    {result : Except Error Unit} (h : (written write).run s = .returns result s') :
    (s' = s ∧ (∃ e, result = .error e) ∧ ∀ rows, ¬ Writes s write rows) ∨
    ∃ rows, Writes s write rows ∧ result = .ok () ∧ s' = { s with rows := rows } := by
  unfold written at h
  rw [Call.run_read_bind] at h
  unfold Writes
  by_cases hattached : s.attached = true
  · rw [if_pos hattached] at h
    simp only [if_pos hattached]
    rcases Call.of_ofExcept_bind h with ⟨e, he, rfl, rfl⟩ | ⟨rows, hrows, h⟩
    · refine Or.inl ⟨rfl, ⟨e, rfl⟩, ?_⟩
      intro rows hrows
      rw [he] at hrows
      cases hrows
    · cases h
      exact Or.inr ⟨rows, hrows, rfl, rfl⟩
  · rw [if_neg hattached] at h
    simp only [if_neg hattached]
    cases h
    exact Or.inr ⟨s.rows, rfl, rfl, rfl⟩

/-- The record that an alias is given to. -/
def renamed (name : String) (m : ModelRecord) : ModelRecord :=
  { m with aliases := normalizeAliases (m.aliases.filter (fun a => a ∉ [name]) ++ [name]) }

theorem lookup_retainAliases (taken : List String) (models : Models) (id : String) :
    (retainAliases taken models).lookup id = (models.lookup id).map (fun m =>
      { m with aliases := m.aliases.filter (fun a => a ∉ taken) }) :=
  AList.lookup_mapValues _ id models

theorem lookup_enter (model : ModelRecord) (models : Models) (id : String) :
    (enter model models).lookup id = if id = model.id then some model else
      (models.lookup id).map (fun m =>
        { m with aliases := m.aliases.filter (fun a => a ∉ model.aliases) }) := by
  unfold enter
  rw [AList.lookup_insert_ite, lookup_retainAliases]

theorem lookup_aliased (id name : String) (models : Models) (j : String) :
    (aliased id name models).lookup j = if j = id then (models.lookup j).map (renamed name) else
      (models.lookup j).map (fun m =>
        { m with aliases := m.aliases.filter (fun a => a ∉ [name]) }) := by
  unfold aliased
  rw [AList.lookup_modify, lookup_retainAliases]
  by_cases hj : j = id
  · rw [if_pos hj, if_pos hj, Option.map_map]
    rfl
  · rw [if_neg hj, if_neg hj]

theorem aliasModel_cases {s s' : Service} {fault : Option String} {id name : String}
    {result : Except Error ModelRecord}
    (h : (aliasModel fault id name).run s = .returns result s') :
    (s' = s ∧ (∃ e, result = .error e) ∧ ∀ m rows, s.models.lookup id = some m →
      ¬ Writes s (catalogPublish fault (renamed name m)) rows) ∨
    ∃ m rows, s.models.lookup id = some m ∧
      Writes s (catalogPublish fault (renamed name m)) rows ∧ result = .ok (renamed name m) ∧
      s' = { s with models := aliased id name s.models, rows := rows } := by
  unfold aliasModel at h
  rw [Call.run_read_bind] at h
  cases hm : s.models.lookup id with
  | none =>
    rw [hm] at h
    cases h
    exact Or.inl ⟨rfl, ⟨_, rfl⟩, fun m rows hsome => nomatch hsome⟩
  | some m =>
    have hout : (aliased id name s.models).lookup id = some (renamed name m) := by
      rw [lookup_aliased, if_pos rfl, hm, Option.map_some]
    rw [hm, Option.isSome_some, Call.run_check_true_bind] at h
    simp only [hout, Call.run_unwrap_some_bind] at h
    rcases Call.of_bind h with ⟨e, he, rfl⟩ | ⟨_, s1, hok, h⟩
    · rcases written_cases he with ⟨rfl, _, hnot⟩ | ⟨_, _, hresult, _⟩
      · refine Or.inl ⟨rfl, ⟨e, rfl⟩, ?_⟩
        intro m' rows hm'
        cases hm'
        exact hnot rows
      · cases hresult
    · rcases written_cases hok with ⟨_, ⟨e, he⟩, _⟩ | ⟨rows, hwrites, _, rfl⟩
      · cases he
      · cases h
        exact Or.inr ⟨m, rows, rfl, hwrites, rfl, rfl⟩

theorem remove_cases {s s' : Service} {fault : Option String} {id : String}
    {result : Except Error Unit} (h : (remove fault id).run s = .returns result s') :
    (s' = s ∧ (∃ e, result = .error e) ∧ ∀ m rows, s.models.lookup id = some m →
      ¬ Writes s (catalogRemove fault id) rows) ∨
    ∃ m rows, s.models.lookup id = some m ∧ Writes s (catalogRemove fault id) rows ∧
      result = .ok () ∧ s' = { logged s [.retire m.id m.epoch] with
        models := s.models.erase id, rows := rows } := by
  unfold remove at h
  rw [Call.run_read_bind] at h
  rcases Call.of_require_bind h with ⟨hnone, rfl, rfl⟩ | ⟨m, hm, h⟩
  · refine Or.inl ⟨rfl, ⟨_, rfl⟩, ?_⟩
    intro m rows hm
    rw [hnone] at hm
    cases hm
  rcases Call.of_bind h with ⟨e, he, rfl⟩ | ⟨_, s1, hok, h⟩
  · rcases written_cases he with ⟨rfl, _, hnot⟩ | ⟨_, _, hresult, _⟩
    · exact Or.inl ⟨rfl, ⟨e, rfl⟩, fun m rows _ => hnot rows⟩
    · cases hresult
  · rcases written_cases hok with ⟨_, ⟨e, he⟩, _⟩ | ⟨rows, hwrites, _, rfl⟩
    · cases he
    · simp only [log, Call.run_update_bind] at h
      cases h
      exact Or.inr ⟨m, rows, hm, hwrites, rfl, rfl⟩

end Cusco.LifecycleEffects
