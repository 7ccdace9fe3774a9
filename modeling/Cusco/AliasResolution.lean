import Cusco.AliasPersistence

/-!
What a name stands for after a call. A registration that enters a record, and an alias,
take the names they ask for from every other model, so that each name has one owner. Two
things keep a requested name from its model: the name may be the id of another model, which
is looked up first, and a registration of content that is already there leaves the stored
record, with its aliases, as it is.
-/

namespace Cusco.AliasResolution

open Calls Runs ModelLifecycle LifecycleEffects LifecycleAtomicity AliasPersistence

/-- The aliases that a call asks for, with the id they are asked for. -/
def requested : Action → Option (String × List String)
  | .register _ _ _ model => some (model.id, model.aliases)
  | .registerFromCatalog _ model => some (model.id, model.aliases)
  | .aliasModel _ id name => some (id, [name])
  | .remove _ _ => none

/-- The record that a call returns, with the state that it leaves. -/
def returned (s : Service) (a : Action) : Option (ModelRecord × Service) :=
  match (perform a).run s with
  | .returns (.ok (some r)) s' => some (r, s')
  | _ => none

def Succeeds (s : Service) (a : Action) (s' : Service) : Prop :=
  ∃ r, returned s a = some (r, s')

/-- Every name asked for stands for the id, every id for its own record, and no alias is
listed twice. -/
structure Resolves (s : Service) (id : String) (names : List String) : Prop where
  names : ∀ name ∈ names, resolved s name = some id
  ids : ∀ j m, s.models.lookup j = some m → s.model j = some m ∧ m.id = j
  owner : ∀ i j name, Has s.models i name → Has s.models j name → i = j

/-- The stored record that a registration of the same content leaves in place. -/
def kept (models : Models) : Action → Option ModelRecord
  | .register size _ _ model => (completed size model).toOption.bind (registeredSame models)
  | _ => none

/-- The name is the id itself, or else no stored id, and listed by the record that stays. -/
def Available (s : Service) (a : Action) (id name : String) : Prop :=
  name = id ∨ (s.models.lookup name = none ∧ ∀ m, kept s.models a = some m → name ∈ m.aliases)

theorem run_of_returned {s s' : Service} {a : Action} {r : ModelRecord}
    (h : returned s a = some (r, s')) : (perform a).run s = .returns (.ok (some r)) s' := by
  unfold returned at h
  split at h
  · next q t hrun =>
    cases h
    exact hrun
  · cases h

theorem exclusive_aliased {models : Models} (h : Exclusive models) {id : String}
    {m : ModelRecord} (hm : models.lookup id = some m) (name : String) :
    Exclusive (aliased id name models) := by
  refine ⟨keyed_aliased h.keyed id name, ?_⟩
  intro i j a hi hj
  rw [has_aliased hm] at hi hj
  rcases hi with ⟨ha, hi⟩ | ⟨ha, hi⟩
  · rcases hj with ⟨_, hj⟩ | ⟨hne, _⟩
    · exact hi.trans hj.symm
    · exact absurd ha hne
  · rcases hj with ⟨heq, _⟩ | ⟨_, hj⟩
    · exact absurd heq ha
    · exact h.owner i j a hi hj

theorem exclusive_erase {models : Models} (h : Exclusive models) (id : String) :
    Exclusive (models.erase id) := by
  constructor
  · intro j m hm
    rw [AList.lookup_erase_ite] at hm
    by_cases hj : j = id
    · rw [if_pos hj] at hm
      cases hm
    · rw [if_neg hj] at hm
      exact h.keyed j m hm
  · intro i j name hi hj
    rw [has_erase] at hi hj
    exact h.owner i j name hi.2 hj.2

theorem exclusive_step {s s' : Service} {a : Action} (hs : Exclusive s.models)
    (h : Step s a s') : Exclusive s'.models := by
  obtain ⟨result, h⟩ := result_of_step h
  cases a with
  | register size prepare publish model =>
    obtain ⟨_, hrun, _⟩ := Call.of_bind_pure h
    rcases register_cases hrun with ⟨_, _, _, _, rfl, _⟩ | ⟨_, _, _, _, rfl, _⟩ |
      ⟨r, rows, _, ⟨_, _, rfl⟩ | ⟨_, _, rfl⟩⟩
    · exact hs
    · exact hs
    · exact exclusive_enter hs r
    · exact exclusive_enter hs r
  | registerFromCatalog prepare model =>
    obtain ⟨_, hrun, _⟩ := Call.of_bind_pure h
    rcases registerFromCatalog_cases hrun with ⟨_, _, _, _, rfl, _⟩ | ⟨_, _, _, rfl⟩
    · exact hs
    · exact exclusive_enter hs model
  | aliasModel fault id name =>
    obtain ⟨_, hrun, _⟩ := Call.of_bind_pure h
    rcases aliasModel_cases hrun with ⟨rfl, _⟩ | ⟨m, rows, hm, _, _, rfl⟩
    · exact hs
    · exact exclusive_aliased hs hm name
  | remove fault id =>
    obtain ⟨_, hrun, _⟩ := Call.of_bind_pure h
    rcases remove_cases hrun with ⟨rfl, _⟩ | ⟨m, rows, _, _, _, rfl⟩
    · exact hs
    · exact exclusive_erase hs id

theorem exclusive_of_reaches {attached : Bool} {rows : Models} {s : Service}
    (h : Reaches Step (Service.new attached rows) s) : Exclusive s.models :=
  h.invariant (fun t => Exclusive t.models) (fun _ _ _ ht hstep => exclusive_step ht hstep)
    exclusive_empty

/-- A name of a model is found unless it is the id of another. -/
theorem resolved_owned_iff {s : Service} (h : Exclusive s.models) {id name : String}
    (hhas : Has s.models id name) :
    resolved s name = some id ↔ name = id ∨ s.models.lookup name = none := by
  cases hlookup : s.models.lookup name with
  | none => exact ⟨fun _ => Or.inr rfl, fun _ => (resolved_unbound h hlookup id).mpr hhas⟩
  | some m =>
    rw [resolved_bound h hlookup, Option.some.injEq]
    simp only [reduceCtorEq, or_false]

theorem resolves_iff {s : Service} (h : Exclusive s.models) (id : String)
    (names : List String) :
    Resolves s id names ↔ ∀ name ∈ names, resolved s name = some id := by
  constructor
  · exact Resolves.names
  · intro hnames
    refine ⟨hnames, ?_, h.owner⟩
    intro j m hm
    refine ⟨?_, h.keyed j m hm⟩
    unfold Service.model
    rw [hm, Option.some_or]

theorem completed_fields {size : Except String ℕ} {model m : ModelRecord}
    (h : completed size model = .ok m) :
    m.id = model.id ∧ m.aliases = normalizeAliases model.aliases := by
  unfold completed at h
  by_cases hzero : model.sizeBytes = 0
  · simp only [if_pos hzero] at h
    cases size with
    | error text => cases h
    | ok bytes =>
      cases h
      exact ⟨rfl, rfl⟩
  · simp only [if_neg hzero] at h
    cases h
    exact ⟨rfl, rfl⟩

theorem mem_normalizeAliases (aliases : List String) (name : String) :
    name ∈ normalizeAliases aliases ↔ name ∈ aliases := by
  unfold normalizeAliases
  rw [List.mem_dedup, List.mem_insertionSort]

/-- A registration that finds its content leaves the map as it is; any other enters a record
with the aliases asked for. -/
theorem register_left {s s' : Service} {size : Except String ℕ} {prepare : Option Error}
    {publish : Publication} {model r : ModelRecord}
    (h : (register size prepare publish model).run s = .returns (.ok r) s') :
    (∃ m, kept s.models (.register size prepare publish model) = some m ∧
      s.models.lookup model.id = some m ∧ s'.models = s.models) ∨
    (kept s.models (.register size prepare publish model) = none ∧ ∃ q : ModelRecord,
      q.id = model.id ∧ (∀ name, name ∈ q.aliases ↔ name ∈ model.aliases) ∧
      s'.models = enter q s.models) := by
  unfold register at h
  rcases Call.of_ofExcept_bind h with ⟨e, _, _, herror⟩ | ⟨m, hm, h⟩
  · cases herror
  obtain ⟨hid, haliases⟩ := completed_fields hm
  have hkept : kept s.models (.register size prepare publish model) =
      registeredSame s.models m := by
    simp only [kept, hm, Except.toOption, Option.bind_some]
  rw [registerCompleted_run, service_alone, prepare_alone] at h
  cases hsame : registeredSame s.models m with
  | some existing =>
    have hlookup : s.models.lookup model.id = some existing := by
      rw [← hid]
      exact (Option.filter_eq_some_iff.mp hsame).1
    rw [hsame] at h
    obtain ⟨_, s1, hprepared, h⟩ := Call.of_bind_ok h
    cases prepare with
    | some e => cases hprepared
    | none =>
      cases hprepared
      cases h
      exact Or.inl ⟨r, hkept.trans hsame, hlookup, rfl⟩
  | none =>
    rw [hsame] at h
    simp only at h
    cases prepare with
    | some e =>
      rw [registerNew_unprepared] at h
      cases h
    | none =>
      rw [registerNew_run s publish m _ rfl] at h
      cases hpublish : publish { m with epoch := s.nextEpoch } s.rows with
      | error e =>
        rw [hpublish] at h
        cases h
      | ok rows =>
        rw [hpublish] at h
        simp only at h
        by_cases hlast : s.nextEpoch < u64Max
        · rw [if_pos hlast] at h
          cases h
          refine Or.inr ⟨hkept.trans hsame, { m with epoch := s.nextEpoch }, hid, ?_, rfl⟩
          intro name
          change name ∈ m.aliases ↔ name ∈ model.aliases
          rw [haliases, mem_normalizeAliases]
        · rw [if_neg hlast] at h
          cases h

/-- A model entered with some names has each of them that is no other model's id. -/
theorem names_entered {s' : Service} {models : Models} (h : Exclusive models)
    {q : ModelRecord} {names : List String} (hmem : ∀ name, name ∈ q.aliases ↔ name ∈ names)
    (hs' : s'.models = enter q models) :
    Resolves s' q.id names ↔
      ∀ name ∈ names, name = q.id ∨ models.lookup name = none := by
  have hexclusive : Exclusive s'.models := by
    rw [hs']
    exact exclusive_enter h q
  rw [resolves_iff hexclusive]
  have heach : ∀ name ∈ names, (resolved s' name = some q.id ↔
      name = q.id ∨ models.lookup name = none) := by
    intro name hname
    have hhas : Has s'.models q.id name := by
      rw [hs', has_enter]
      exact Or.inl ⟨rfl, (hmem name).mpr hname⟩
    rw [resolved_owned_iff hexclusive hhas, hs', lookup_enter]
    by_cases hid : name = q.id
    · simp only [hid, true_or]
    · rw [if_neg hid, Option.map_eq_none_iff]
  exact forall₂_congr heach

theorem names_aliased {s' : Service} {models : Models} (h : Exclusive models) {id name : String}
    {m : ModelRecord} (hm : models.lookup id = some m) (hs' : s'.models = aliased id name models) :
    Resolves s' id [name] ↔ (name = id ∨ models.lookup name = none) := by
  have hexclusive : Exclusive s'.models := by
    rw [hs']
    exact exclusive_aliased h hm name
  have hhas : Has s'.models id name := by
    rw [hs', has_aliased hm]
    exact Or.inl ⟨rfl, rfl⟩
  rw [resolves_iff hexclusive, List.forall_mem_singleton, resolved_owned_iff hexclusive hhas, hs',
    lookup_aliased_none]

/-- A record that stays keeps only the names it lists. -/
theorem names_kept {s : Service} (h : Exclusive s.models) {id : String} {m : ModelRecord}
    (hm : s.models.lookup id = some m) (names : List String) :
    Resolves s id names ↔ ∀ name ∈ names,
      name = id ∨ (s.models.lookup name = none ∧ name ∈ m.aliases) := by
  rw [resolves_iff h]
  have hlists : ∀ name, Has s.models id name ↔ name ∈ m.aliases := by
    intro name
    unfold Has
    simp only [hm, Option.some.injEq, exists_eq_left']
  have heach : ∀ name ∈ names, (resolved s name = some id ↔
      name = id ∨ (s.models.lookup name = none ∧ name ∈ m.aliases)) := by
    intro name _
    rw [← hlists name]
    cases hlookup : s.models.lookup name with
    | none =>
      rw [resolved_unbound h hlookup]
      constructor
      · intro hhas
        exact Or.inr ⟨rfl, hhas⟩
      · intro havailable
        rcases havailable with hid | ⟨_, hhas⟩
        · rw [hid, hm] at hlookup
          cases hlookup
        · exact hhas
    | some q =>
      rw [resolved_bound h hlookup, Option.some.injEq]
      simp only [reduceCtorEq, false_and, or_false]
  exact forall₂_congr heach

/-- A call that succeeds gives its names to its model exactly when each is the model's id,
or is no stored id and listed by the record that a registration of the same content leaves. -/
theorem names_resolve_iff {attached : Bool} {rows : Models} {s s' : Service} {a : Action}
    {id : String} {names : List String} (hreach : Reaches Step (Service.new attached rows) s)
    (hrequested : requested a = some (id, names)) (h : Succeeds s a s') :
    Resolves s' id names ↔ ∀ name ∈ names, Available s a id name := by
  have hs := exclusive_of_reaches hreach
  obtain ⟨out, h⟩ := h
  replace h := run_of_returned h
  unfold Available
  cases a with
  | register size prepare publish model =>
    obtain ⟨result, hrun, hresult⟩ := Call.of_bind_pure h
    cases hrequested
    cases result with
    | error e => cases hresult
    | ok r =>
      rcases register_left hrun with ⟨m, hkept, hm, hs'⟩ | ⟨hkept, q, hid, hmem, hs'⟩
      · have hexclusive : Exclusive s'.models := by
          rw [hs']
          exact hs
        have hm' : s'.models.lookup model.id = some m := by
          rw [hs']
          exact hm
        rw [names_kept hexclusive hm', hs', hkept]
        simp only [Option.some.injEq, forall_eq']
      · rw [← hid, names_entered hs hmem hs', hkept]
        simp only [reduceCtorEq, false_implies, implies_true, and_true]
  | registerFromCatalog prepare model =>
    obtain ⟨result, hrun, hresult⟩ := Call.of_bind_pure h
    cases hrequested
    rcases registerFromCatalog_cases hrun with ⟨_, e, _, he, _⟩ | ⟨_, _, _, hs'⟩
    · rw [he] at hresult
      cases hresult
    · rw [names_entered hs (fun _ => Iff.rfl) (congrArg Service.models hs')]
      simp only [kept, reduceCtorEq, false_implies, implies_true, and_true]
  | aliasModel fault id name =>
    obtain ⟨result, hrun, hresult⟩ := Call.of_bind_pure h
    cases hrequested
    rcases aliasModel_cases hrun with ⟨_, ⟨e, he⟩, _⟩ | ⟨m, rows, hm, _, _, hs'⟩
    · rw [he] at hresult
      cases hresult
    · rw [names_aliased hs hm (congrArg Service.models hs'), List.forall_mem_singleton]
      simp only [kept, reduceCtorEq, false_implies, implies_true, and_true]
  | remove fault id => cases hrequested

theorem second_alias_resolves : ∃ s s', Reaches Step (Service.new true ∅) s ∧
    Succeeds s (.aliasModel none "m" "stable") s' ∧ Resolves s' "m" ["stable"] := by
  have hrun : (act (Service.new true ∅) (publishing "m" ["latest"])).any (fun s =>
      s.models.lookup "stable" = none &&
        (returned s (.aliasModel none "m" "stable")).isSome) = true := by
    decide +kernel
  obtain ⟨s, hfirst, hchecked⟩ := (Option.any_eq_true _ _).mp hrun
  obtain ⟨hfree, hreturned⟩ := Bool.and_eq_true_iff.mp hchecked
  obtain ⟨⟨r, s'⟩, hcall⟩ := Option.isSome_iff_exists.mp hreturned
  have hreach : Reaches Step (Service.new true ∅) s := (Reaches.refl Step _).step hfirst
  refine ⟨s, s', hreach, ⟨r, hcall⟩, ?_⟩
  refine (names_resolve_iff hreach rfl ⟨r, hcall⟩).mpr ?_
  intro name hname
  rw [List.mem_singleton.mp hname]
  refine Or.inr ⟨of_decide_eq_true hfree, ?_⟩
  intro m hm
  cases hm

/-- A model registered again with an alias does not get it, and an alias that is the id of
another model stands for that other model. -/
theorem requested_alias_lost :
    (∃ s s', Reaches Step (Service.new true ∅) s ∧ Succeeds s (publishing "m" ["a"]) s' ∧
      requested (publishing "m" ["a"]) = some ("m", ["a"]) ∧ resolved s' "a" = none ∧
      ¬ Resolves s' "m" ["a"]) ∧
    ∃ s s', Reaches Step (Service.new true ∅) s ∧ Succeeds s (publishing "m" ["a"]) s' ∧
      requested (publishing "m" ["a"]) = some ("m", ["a"]) ∧ resolved s' "a" = some "a" ∧
      ¬ Resolves s' "m" ["a"] := by
  have hagain : (act (Service.new true ∅) (publishing "m" [])).any (fun s =>
      (returned s (publishing "m" ["a"])).any (fun out => resolved out.2 "a" = none)) = true := by
    decide +kernel
  have hother : (act (Service.new true ∅) (publishing "a" [])).any (fun s =>
      (returned s (publishing "m" ["a"])).any (fun out =>
        resolved out.2 "a" = some "a")) = true := by
    decide +kernel
  obtain ⟨s, hfirst, hchecked⟩ := (Option.any_eq_true _ _).mp hagain
  obtain ⟨⟨r, s'⟩, hcall, hlost⟩ := (Option.any_eq_true _ _).mp hchecked
  obtain ⟨t, hfirst', hchecked'⟩ := (Option.any_eq_true _ _).mp hother
  obtain ⟨⟨q, t'⟩, hcall', hlost'⟩ := (Option.any_eq_true _ _).mp hchecked'
  simp only [decide_eq_true_eq] at hlost hlost'
  constructor
  · refine ⟨s, s', (Reaches.refl Step _).step hfirst, ⟨r, hcall⟩, rfl, hlost, ?_⟩
    intro h
    have hname := h.names "a" List.mem_cons_self
    rw [hlost] at hname
    cases hname
  · refine ⟨t, t', (Reaches.refl Step _).step hfirst', ⟨q, hcall'⟩, rfl, hlost', ?_⟩
    intro h
    have hname := h.names "a" List.mem_cons_self
    rw [hlost'] at hname
    exact absurd hname (by decide)

end Cusco.AliasResolution
