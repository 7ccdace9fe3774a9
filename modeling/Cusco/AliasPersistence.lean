import Cusco.LifecycleAtomicity
import Mathlib.Data.List.Dedup
import Mathlib.Data.List.Induction

/-!
Names across a restart. A restart enters the rows of the catalog by ascending id, each
taking its aliases from the earlier ones, so that an alias goes to the last row that lists
it. In memory it belongs to the model it was given to last. The two agree as long as no
row is left listing an alias that a smaller id, or nobody, has in memory.
-/

namespace Cusco.AliasPersistence

open Calls Runs ModelLifecycle LifecycleEffects LifecycleAtomicity

variable {rows : Models}

/-- Enter the records one after the other, with what the engine answers to each. -/
def reload (prepare : ModelRecord → Option Error) (s : Service) :
    List ModelRecord → Option Service
  | [] => some s
  | model :: rest =>
    match (registerFromCatalog (prepare model) model).run s with
    | .returns (.ok _) s' => reload prepare s' rest
    | _ => none

/-- The service after a restart with the rows of the catalog, if each can be entered. -/
def restart (prepare : ModelRecord → Option Error) (rows : Models) : Option Service :=
  reload prepare (Service.new true rows) (catalogModels rows)

/-- The id of the model that a name stands for. -/
def resolved (s : Service) (name : String) : Option String :=
  (s.model name).map (fun m => m.id)

/-- After a restart every name stands for the same model as before. -/
def Agrees (s : Service) : Prop :=
  ∀ prepare s', restart prepare s.rows = some s' → ∀ name, resolved s' name = resolved s name

def Has (models : Models) (id name : String) : Prop :=
  ∃ m, models.lookup id = some m ∧ name ∈ m.aliases

structure Exclusive (models : Models) : Prop where
  keyed : ∀ id m, models.lookup id = some m → m.id = id
  owner : ∀ i j name, Has models i name → Has models j name → i = j

theorem resolved_bound {s : Service} (h : Exclusive s.models) {name : String} {m : ModelRecord}
    (hm : s.models.lookup name = some m) : resolved s name = some name := by
  unfold resolved Service.model
  rw [hm, Option.some_or, Option.map_some, h.keyed name m hm]

theorem resolved_unbound {s : Service} (h : Exclusive s.models) {name : String}
    (hnone : s.models.lookup name = none) (i : String) :
    resolved s name = some i ↔ Has s.models i name := by
  unfold resolved Service.model
  rw [hnone, Option.none_or]
  constructor
  · intro hi
    obtain ⟨m, hfind, rfl⟩ := Option.map_eq_some_iff.mp hi
    obtain ⟨k, hk⟩ := (AList.mem_values_iff s.models m).mp (List.mem_of_find?_eq_some hfind)
    have hname := List.find?_some hfind
    rw [h.keyed k m hk]
    exact ⟨m, hk, of_decide_eq_true hname⟩
  · rintro ⟨m, hm, hname⟩
    have hmem := (AList.mem_values_iff s.models m).mpr ⟨i, hm⟩
    cases hfind : s.models.values.find? (fun m => name ∈ m.aliases) with
    | none =>
      have hnot := List.find?_eq_none.mp hfind m hmem
      exact absurd (decide_eq_true hname) hnot
    | some q =>
      obtain ⟨k, hk⟩ := (AList.mem_values_iff s.models q).mp (List.mem_of_find?_eq_some hfind)
      have hqname := List.find?_some hfind
      simp only [decide_eq_true_eq] at hqname
      rw [Option.map_some, h.keyed k q hk, h.owner k i name ⟨q, hk, hqname⟩ ⟨m, hm, hname⟩]

theorem has_enter (r : ModelRecord) (models : Models) (i name : String) :
    Has (enter r models) i name ↔
      (i = r.id ∧ name ∈ r.aliases) ∨ (i ≠ r.id ∧ Has models i name ∧ name ∉ r.aliases) := by
  unfold Has
  rw [lookup_enter]
  by_cases hi : i = r.id
  · rw [if_pos hi]
    simp [hi]
  · rw [if_neg hi]
    constructor
    · rintro ⟨m, hm, hname⟩
      obtain ⟨q, hq, rfl⟩ := Option.map_eq_some_iff.mp hm
      have hkept := List.mem_filter.mp hname
      exact Or.inr ⟨hi, ⟨q, hq, hkept.1⟩, of_decide_eq_true hkept.2⟩
    · rintro (⟨hid, _⟩ | ⟨_, ⟨q, hq, hname⟩, hfree⟩)
      · exact absurd hid hi
      · exact ⟨_, Option.map_eq_some_iff.mpr ⟨q, hq, rfl⟩,
          List.mem_filter.mpr ⟨hname, decide_eq_true hfree⟩⟩

theorem exclusive_enter {models : Models} (h : Exclusive models) (r : ModelRecord) :
    Exclusive (enter r models) := by
  refine ⟨keyed_enter h.keyed r, ?_⟩
  intro i j name hi hj
  rw [has_enter] at hi hj
  rcases hi with ⟨rfl, hname⟩ | ⟨_, hi, hfree⟩
  · rcases hj with ⟨rfl, _⟩ | ⟨_, _, hfree⟩
    · rfl
    · exact absurd hname hfree
  · rcases hj with ⟨_, hname⟩ | ⟨_, hj, _⟩
    · exact absurd hname hfree
    · exact h.owner i j name hi hj

theorem exclusive_empty : Exclusive ∅ := by
  constructor
  · intro id m h
    cases h
  · rintro i j name ⟨m, hm, _⟩
    cases hm

def enterAll (models : Models) (records : List ModelRecord) : Models :=
  records.foldl (fun models r => enter r models) models

theorem reload_models {prepare : ModelRecord → Option Error} {s s' : Service}
    {records : List ModelRecord} (h : reload prepare s records = some s') :
    s'.models = enterAll s.models records ∧ s'.rows = s.rows ∧ s'.attached = s.attached ∧
      ∀ r ∈ records, r.epoch ≠ 0 := by
  induction records generalizing s with
  | nil =>
    cases h
    exact ⟨rfl, rfl, rfl, fun r hr => nomatch hr⟩
  | cons r rest ih =>
    unfold reload at h
    cases hrun : (registerFromCatalog (prepare r) r).run s with
    | panics =>
      rw [hrun] at h
      cases h
    | returns result s1 =>
      rw [hrun] at h
      cases result with
      | error e => cases h
      | ok _ =>
        rcases registerFromCatalog_cases hrun with ⟨_, _, _, hresult, _, _⟩ | ⟨hepoch, _, _, rfl⟩
        · cases hresult
        · obtain ⟨hmodels, hrows, hattached, hepochs⟩ := ih h
          refine ⟨hmodels, hrows, hattached, ?_⟩
          intro q hq
          rcases List.mem_cons.mp hq with rfl | hq
          · exact hepoch
          · exact hepochs q hq

/-- Records with an epoch can be entered by an engine that prepares each. -/
theorem reload_prepared (s : Service) (records : List ModelRecord)
    (hepochs : ∀ r ∈ records, r.epoch ≠ 0) :
    ∃ s', reload (fun _ => none) s records = some s' := by
  induction records generalizing s with
  | nil => exact ⟨s, rfl⟩
  | cons r rest ih =>
    have hepoch := hepochs r List.mem_cons_self
    unfold reload registerFromCatalog
    rw [decide_eq_true hepoch, Call.run_check_true_bind, Call.run_bind_ok (prepareModel_none s r),
      Call.run_read_bind, Call.run_update_bind]
    exact ih _ (fun q hq => hepochs q (List.mem_cons_of_mem _ hq))

theorem lookup_enterAll (records : List ModelRecord) (i : String) :
    (enterAll ∅ records).lookup i = none ↔ ∀ r ∈ records, r.id ≠ i := by
  induction records using List.reverseRecOn with
  | nil => exact iff_of_true rfl (fun r hr => nomatch hr)
  | append_singleton records r ih =>
    unfold enterAll at ih ⊢
    rw [List.foldl_append, List.foldl_cons, List.foldl_nil, lookup_enter]
    by_cases hi : i = r.id
    · rw [if_pos hi]
      refine iff_of_false (Option.some_ne_none r) ?_
      intro hall
      exact hall r (by simp) hi.symm
    · rw [if_neg hi, Option.map_eq_none_iff, ih]
      constructor
      · intro hall q hq
        rcases List.mem_append.mp hq with hq | hq
        · exact hall q hq
        · rw [List.mem_singleton.mp hq]
          exact Ne.symm hi
      · intro hall q hq
        exact hall q (List.mem_append_left _ hq)

theorem exclusive_enterAll (records : List ModelRecord) : Exclusive (enterAll ∅ records) := by
  induction records using List.reverseRecOn with
  | nil => exact exclusive_empty
  | append_singleton records r ih =>
    unfold enterAll at ih ⊢
    rw [List.foldl_append]
    exact exclusive_enter ih r

/-- Of records by ascending id, the last that lists a name has it after they are entered. -/
theorem has_enterAll (records : List ModelRecord)
    (hsorted : records.Pairwise (fun a b => a.id < b.id)) (i name : String) :
    Has (enterAll ∅ records) i name ↔ ∃ r ∈ records, r.id = i ∧ name ∈ r.aliases ∧
      ∀ q ∈ records, name ∈ q.aliases → q.id ≤ i := by
  induction records using List.reverseRecOn generalizing i with
  | nil =>
    constructor
    · rintro ⟨m, hm, _⟩
      cases hm
    · rintro ⟨r, hr, _⟩
      cases hr
  | append_singleton records r ih =>
    obtain ⟨hbefore, _, hlast⟩ := List.pairwise_append.mp hsorted
    have hless : ∀ q ∈ records, q.id < r.id := fun q hq => hlast q hq r (List.mem_singleton_self r)
    have hfold : enterAll ∅ (records ++ [r]) = enter r (enterAll ∅ records) := by
      unfold enterAll
      rw [List.foldl_append]
      rfl
    rw [hfold, has_enter, ih hbefore]
    constructor
    · rintro (⟨rfl, hname⟩ | ⟨_, ⟨q, hq, hid, hname, hgreatest⟩, hfree⟩)
      · refine ⟨r, by simp, rfl, hname, ?_⟩
        intro q hq _
        rcases List.mem_append.mp hq with hq | hq
        · exact (hless q hq).le
        · rw [List.mem_singleton.mp hq]
      · refine ⟨q, List.mem_append_left _ hq, hid, hname, ?_⟩
        intro p hp hpname
        rcases List.mem_append.mp hp with hp | hp
        · exact hgreatest p hp hpname
        · rw [List.mem_singleton.mp hp] at hpname
          exact absurd hpname hfree
    · rintro ⟨q, hq, hid, hname, hgreatest⟩
      rcases List.mem_append.mp hq with hq | hq
      · have hqr := hless q hq
        refine Or.inr ⟨by rw [← hid]; exact hqr.ne, ⟨q, hq, hid, hname, ?_⟩, ?_⟩
        · intro p hp
          exact hgreatest p (List.mem_append_left _ hp)
        · intro hr
          have hle := hgreatest r (by simp) hr
          rw [← hid] at hle
          exact absurd hqr (not_lt.mpr hle)
      · rw [List.mem_singleton.mp hq] at hid hname
        exact Or.inl ⟨hid.symm, hname⟩

/-- A listed name belongs to somebody. -/
theorem has_of_listed (records : List ModelRecord)
    (hsorted : records.Pairwise (fun a b => a.id < b.id)) {r : ModelRecord} (hr : r ∈ records)
    {name : String} (hname : name ∈ r.aliases) : ∃ i, Has (enterAll ∅ records) i name := by
  induction records using List.reverseRecOn with
  | nil => cases hr
  | append_singleton records q ih =>
    obtain ⟨hbefore, _, hlast⟩ := List.pairwise_append.mp hsorted
    have hfold : enterAll ∅ (records ++ [q]) = enter q (enterAll ∅ records) := by
      unfold enterAll
      rw [List.foldl_append]
      rfl
    rw [hfold]
    by_cases hq : name ∈ q.aliases
    · exact ⟨q.id, (has_enter q _ _ _).mpr (Or.inl ⟨rfl, hq⟩)⟩
    · rcases List.mem_append.mp hr with hr | hr
      · obtain ⟨i, hi⟩ := ih hbefore hr
        obtain ⟨p, hp, rfl, _⟩ := (has_enterAll records hbefore i name).mp hi
        have hless := hlast p hp q (List.mem_singleton_self q)
        exact ⟨p.id, (has_enter q _ _ _).mpr (Or.inr ⟨hless.ne, hi, hq⟩)⟩
      · rw [List.mem_singleton.mp hr] at hname
        exact absurd hname hq

/-- Every row is found under its id. -/
def Keyed (rows : Models) : Prop := ∀ id r, rows.lookup id = some r → r.id = id

theorem mem_catalogModels (h : Keyed rows) (r : ModelRecord) :
    r ∈ catalogModels rows ↔ rows.lookup r.id = some r := by
  unfold catalogModels
  rw [List.mem_insertionSort, AList.mem_values_iff]
  constructor
  · rintro ⟨k, hk⟩
    rw [h k r hk]
    exact hk
  · intro hr
    exact ⟨r.id, hr⟩

theorem catalogModels_sorted (h : Keyed rows) :
    (catalogModels rows).Pairwise (fun a b => a.id < b.id) := by
  have hids : rows.values.map (fun r => r.id) = rows.keys := by
    unfold AList.values AList.keys List.keys
    rw [List.map_map]
    refine List.map_congr_left ?_
    rintro ⟨k, r⟩ hmem
    exact h k r ((AList.mem_entries_iff rows k r).mp hmem)
  have hnodup : ((catalogModels rows).map (fun r => r.id)).Nodup := by
    have hperm : ((catalogModels rows).map (fun r => r.id)).Perm
        (rows.values.map (fun r => r.id)) :=
      (List.perm_insertionSort _ rows.values).map _
    rw [hperm.nodup_iff, hids]
    exact rows.keys_nodup
  have hle : (catalogModels rows).Pairwise (fun a b => a.id ≤ b.id) :=
    List.pairwise_insertionSort _ rows.values
  have hne : (catalogModels rows).Pairwise (fun a b => a.id ≠ b.id) := by
    rw [List.Nodup, List.pairwise_map] at hnodup
    exact hnodup
  exact (hle.and hne).imp (fun hboth => lt_of_le_of_ne hboth.1 hboth.2)

/-- The map in memory and the rows of the catalog name the same models, and the rows list
at least the aliases in memory. -/
structure Mirrors (models rows : Models) : Prop where
  exclusive : Exclusive models
  keyed : Keyed rows
  epochs : ∀ id r, rows.lookup id = some r → r.epoch ≠ 0
  bound : ∀ id, models.lookup id = none ↔ rows.lookup id = none
  listed : ∀ id name, Has models id name → Has rows id name

/-- No row lists a name that is no id and that a smaller id, or nobody, has in memory. -/
def Settled (models rows : Models) : Prop :=
  ∀ name, models.lookup name = none → ∀ j, Has rows j name → ∃ i, Has models i name ∧ j ≤ i

theorem restart_models {prepare : ModelRecord → Option Error} {s' : Service}
    (h : restart prepare rows = some s') : s'.models = enterAll ∅ (catalogModels rows) :=
  (reload_models h).1

theorem restart_prepared {models rows : Models} (h : Mirrors models rows) :
    ∃ s', restart (fun _ => none) rows = some s' := by
  refine reload_prepared _ _ ?_
  intro r hr
  exact h.epochs r.id r ((mem_catalogModels h.keyed r).mp hr)

theorem restart_bound (h : Keyed rows) (id : String) :
    (enterAll ∅ (catalogModels rows)).lookup id = none ↔ rows.lookup id = none := by
  rw [lookup_enterAll]
  constructor
  · intro hall
    by_contra hne
    obtain ⟨r, hr⟩ := Option.ne_none_iff_exists'.mp hne
    have hid := h id r hr
    exact hall r ((mem_catalogModels h r).mpr (by rw [hid]; exact hr)) hid
  · rintro hnone r hr rfl
    rw [(mem_catalogModels h r).mp hr] at hnone
    cases hnone

/-- After a restart a name belongs to the greatest id whose row lists it. -/
theorem restart_has (h : Keyed rows) (i name : String) :
    Has (enterAll ∅ (catalogModels rows)) i name ↔
      Has rows i name ∧ ∀ j, Has rows j name → j ≤ i := by
  rw [has_enterAll _ (catalogModels_sorted h)]
  constructor
  · rintro ⟨r, hr, rfl, hname, hgreatest⟩
    refine ⟨⟨r, (mem_catalogModels h r).mp hr, hname⟩, ?_⟩
    rintro j ⟨q, hq, hqname⟩
    have hid := h j q hq
    rw [← hid]
    exact hgreatest q ((mem_catalogModels h q).mpr (by rw [hid]; exact hq)) hqname
  · rintro ⟨⟨r, hr, hname⟩, hgreatest⟩
    have hid := h i r hr
    refine ⟨r, (mem_catalogModels h r).mpr (by rw [hid]; exact hr), hid, hname, ?_⟩
    intro q hq hqname
    exact hgreatest q.id ⟨q, (mem_catalogModels h q).mp hq, hqname⟩

theorem restart_owned (h : Keyed rows) {j name : String} (hj : Has rows j name) :
    ∃ i, Has (enterAll ∅ (catalogModels rows)) i name := by
  obtain ⟨r, hr, hname⟩ := hj
  have hid := h j r hr
  exact has_of_listed _ (catalogModels_sorted h)
    ((mem_catalogModels h r).mpr (by rw [hid]; exact hr)) hname

theorem agrees_iff_settled {s : Service} (h : Mirrors s.models s.rows) :
    Agrees s ↔ Settled s.models s.rows := by
  constructor
  · intro hagrees name hnone j hj
    obtain ⟨s', hrestart⟩ := restart_prepared h
    have hmodels := restart_models hrestart
    have hnone' : s'.models.lookup name = none := by
      rw [hmodels, restart_bound h.keyed, ← h.bound]
      exact hnone
    obtain ⟨i, hi⟩ := restart_owned h.keyed hj
    have hexclusive : Exclusive s'.models := by
      rw [hmodels]
      exact exclusive_enterAll _
    have hresolved : resolved s' name = some i := by
      rw [resolved_unbound hexclusive hnone', hmodels]
      exact hi
    rw [hagrees _ s' hrestart name, resolved_unbound h.exclusive hnone] at hresolved
    exact ⟨i, hresolved, ((restart_has h.keyed i name).mp hi).2 j hj⟩
  · intro hsettled prepare s' hrestart name
    have hmodels := restart_models hrestart
    have hexclusive : Exclusive s'.models := by
      rw [hmodels]
      exact exclusive_enterAll _
    have hbound : s'.models.lookup name = none ↔ s.models.lookup name = none := by
      rw [hmodels, restart_bound h.keyed, h.bound]
    by_cases hnone : s.models.lookup name = none
    · -- The owner in memory is the greatest row that lists the name.
      have howner : ∀ i, Has s'.models i name ↔ Has s.models i name := by
        intro i
        rw [hmodels, restart_has h.keyed]
        constructor
        · rintro ⟨hi, hgreatest⟩
          obtain ⟨k, hk, hle⟩ := hsettled name hnone i hi
          rw [le_antisymm hle (hgreatest k (h.listed k name hk))]
          exact hk
        · intro hi
          refine ⟨h.listed i name hi, ?_⟩
          intro j hj
          obtain ⟨k, hk, hle⟩ := hsettled name hnone j hj
          rw [h.exclusive.owner i k name hi hk]
          exact hle
      ext i
      rw [resolved_unbound hexclusive (hbound.mpr hnone), resolved_unbound h.exclusive hnone]
      exact howner i
    · have hnone' : s'.models.lookup name ≠ none := fun hnot => hnone (hbound.mp hnot)
      obtain ⟨m, hm⟩ := Option.ne_none_iff_exists'.mp hnone
      obtain ⟨m', hm'⟩ := Option.ne_none_iff_exists'.mp hnone'
      rw [resolved_bound hexclusive hm', resolved_bound h.exclusive hm]

theorem catalogPublish_ok {fault : Option String} {model : ModelRecord} {rows rows' : Models}
    (h : catalogPublish fault model rows = .ok rows') :
    model.epoch ≠ 0 ∧ model.epoch ≤ i64Max ∧ rows' = rows.insert model.id model := by
  unfold catalogPublish at h
  obtain ⟨hzero, h⟩ := ok_of_ite h
  obtain ⟨_, h⟩ := ok_of_ite h
  obtain ⟨hmax, h⟩ := ok_of_ite h
  cases fault with
  | some text => cases h
  | none =>
    obtain ⟨_, h⟩ := ok_of_ite h
    cases h
    exact ⟨hzero, not_lt.mp hmax, rfl⟩

theorem has_insert (r : ModelRecord) (rows : Models) (j name : String) :
    Has (rows.insert r.id r) j name ↔
      (j = r.id ∧ name ∈ r.aliases) ∨ (j ≠ r.id ∧ Has rows j name) := by
  unfold Has
  rw [AList.lookup_insert_ite]
  by_cases hj : j = r.id
  · rw [if_pos hj]
    simp [hj]
  · rw [if_neg hj]
    simp [hj]

theorem has_erase (id : String) (rows : Models) (j name : String) :
    Has (rows.erase id) j name ↔ j ≠ id ∧ Has rows j name := by
  unfold Has
  rw [AList.lookup_erase_ite]
  by_cases hj : j = id
  · rw [if_pos hj]
    simp [hj]
  · rw [if_neg hj]
    simp [hj]

theorem keyed_insert (h : Keyed rows) (r : ModelRecord) : Keyed (rows.insert r.id r) := by
  intro id q hq
  rw [AList.lookup_insert_ite] at hq
  by_cases hid : id = r.id
  · rw [if_pos hid] at hq
    cases hq
    exact hid.symm
  · rw [if_neg hid] at hq
    exact h id q hq

theorem epochs_insert (h : ∀ id q, rows.lookup id = some q → q.epoch ≠ 0) {r : ModelRecord}
    (hr : r.epoch ≠ 0) : ∀ id q, (rows.insert r.id r).lookup id = some q → q.epoch ≠ 0 := by
  intro id q hq
  rw [AList.lookup_insert_ite] at hq
  by_cases hid : id = r.id
  · rw [if_pos hid] at hq
    cases hq
    exact hr
  · rw [if_neg hid] at hq
    exact h id q hq

theorem mem_renamed (m : ModelRecord) (name a : String) :
    a ∈ (renamed name m).aliases ↔ a = name ∨ a ∈ m.aliases := by
  unfold renamed normalizeAliases
  simp only [List.mem_dedup, List.mem_insertionSort, List.mem_append, List.mem_filter,
    List.mem_singleton, decide_eq_true_eq]
  tauto

/-- An alias goes to the model it was given to; all others stay. -/
theorem has_aliased {models : Models} {id : String} {m : ModelRecord}
    (hm : models.lookup id = some m) (name i a : String) :
    Has (aliased id name models) i a ↔ (a = name ∧ i = id) ∨ (a ≠ name ∧ Has models i a) := by
  unfold Has
  rw [lookup_aliased]
  by_cases hi : i = id
  · rw [if_pos hi, hi, hm, Option.map_some]
    simp only [Option.some.injEq, exists_eq_left', mem_renamed]
    tauto
  · rw [if_neg hi]
    constructor
    · rintro ⟨q, hq, ha⟩
      obtain ⟨p, hp, rfl⟩ := Option.map_eq_some_iff.mp hq
      have hkept := List.mem_filter.mp ha
      simp only [List.mem_singleton, decide_eq_true_eq] at hkept
      exact Or.inr ⟨hkept.2, p, hp, hkept.1⟩
    · rintro (⟨_, hid⟩ | ⟨hne, p, hp, ha⟩)
      · exact absurd hid hi
      · refine ⟨_, Option.map_eq_some_iff.mpr ⟨p, hp, rfl⟩, List.mem_filter.mpr ⟨ha, ?_⟩⟩
        simp only [List.mem_singleton, decide_eq_true_eq]
        exact hne

theorem lookup_aliased_none (id name : String) (models : Models) (j : String) :
    (aliased id name models).lookup j = none ↔ models.lookup j = none := by
  rw [lookup_aliased]
  by_cases hj : j = id
  · rw [if_pos hj, Option.map_eq_none_iff]
  · rw [if_neg hj, Option.map_eq_none_iff]

section Calls

variable {models : Models} (h : Mirrors models rows)

include h

theorem mirrors_enter {r : ModelRecord} (hepoch : r.epoch ≠ 0) :
    Mirrors (enter r models) (rows.insert r.id r) := by
  refine ⟨exclusive_enter h.exclusive r, keyed_insert h.keyed r, epochs_insert h.epochs hepoch,
    ?_, ?_⟩
  · intro id
    rw [lookup_enter, AList.lookup_insert_ite]
    by_cases hid : id = r.id
    · rw [if_pos hid, if_pos hid]
    · rw [if_neg hid, if_neg hid, Option.map_eq_none_iff, h.bound]
  · intro id name hname
    rw [has_enter] at hname
    rw [has_insert]
    rcases hname with hown | ⟨hid, hname, _⟩
    · exact Or.inl hown
    · exact Or.inr ⟨hid, h.listed id name hname⟩

/-- A registration keeps names settled exactly when the other rows that list one of its
aliases come before it, and none lists a name that it gives up. -/
theorem settled_enter_iff (hsettled : Settled models rows) (r : ModelRecord) :
    Settled (enter r models) (rows.insert r.id r) ↔
      ∀ name j, models.lookup name = none → name ≠ r.id → j ≠ r.id → Has rows j name →
        (name ∈ r.aliases → j < r.id) ∧ (Has models r.id name → name ∈ r.aliases) := by
  have hunbound : ∀ name, (enter r models).lookup name = none ↔
      name ≠ r.id ∧ models.lookup name = none := by
    intro name
    rw [lookup_enter]
    by_cases hname : name = r.id
    · simp [hname]
    · simp [hname]
  constructor
  · intro hafter name j hnone hname hj hlists
    obtain ⟨i, hi, hle⟩ := hafter name ((hunbound name).mpr ⟨hname, hnone⟩) j
      ((has_insert r rows j name).mpr (Or.inr ⟨hj, hlists⟩))
    rcases (has_enter r models i name).mp hi with ⟨rfl, halias⟩ | ⟨hne, hi, hfree⟩
    · exact ⟨fun _ => lt_of_le_of_ne hle hj, fun _ => halias⟩
    · refine ⟨fun halias => absurd halias hfree, ?_⟩
      intro hold
      exact absurd (h.exclusive.owner i r.id name hi hold) hne
  · intro hkeeps name hnone j hj
    obtain ⟨hname, hnone⟩ := (hunbound name).mp hnone
    rcases (has_insert r rows j name).mp hj with ⟨rfl, halias⟩ | ⟨hne, hlists⟩
    · exact ⟨r.id, (has_enter r models _ name).mpr (Or.inl ⟨rfl, halias⟩), le_refl _⟩
    · obtain ⟨hbefore, hgiven⟩ := hkeeps name j hnone hname hne hlists
      by_cases halias : name ∈ r.aliases
      · exact ⟨r.id, (has_enter r models _ name).mpr (Or.inl ⟨rfl, halias⟩),
          (hbefore halias).le⟩
      · obtain ⟨i, hi, hle⟩ := hsettled name hnone j hlists
        have hid : i ≠ r.id := by
          rintro rfl
          exact halias (hgiven hi)
        exact ⟨i, (has_enter r models i name).mpr (Or.inr ⟨hid, hi, halias⟩), hle⟩

theorem has_renamed_row {id : String} {m : ModelRecord} (hm : models.lookup id = some m)
    (name j a : String) : Has (rows.insert id (renamed name m)) j a ↔
      (j = id ∧ (a = name ∨ a ∈ m.aliases)) ∨ (j ≠ id ∧ Has rows j a) := by
  have hid : (renamed name m).id = id := h.exclusive.keyed id m hm
  have hrow := has_insert (renamed name m) rows j a
  rw [hid, mem_renamed] at hrow
  exact hrow

theorem mirrors_aliased {id : String} {m : ModelRecord} (hm : models.lookup id = some m)
    (name : String) (hepoch : (renamed name m).epoch ≠ 0) :
    Mirrors (aliased id name models) (rows.insert id (renamed name m)) := by
  have hid : (renamed name m).id = id := h.exclusive.keyed id m hm
  refine ⟨⟨keyed_aliased h.exclusive.keyed id name, ?_⟩, ?_, ?_, ?_, ?_⟩
  · intro i j a hi hj
    rw [has_aliased hm] at hi hj
    rcases hi with ⟨ha, rfl⟩ | ⟨ha, hi⟩
    · rcases hj with ⟨_, rfl⟩ | ⟨hne, _⟩
      · rfl
      · exact absurd ha hne
    · rcases hj with ⟨heq, _⟩ | ⟨_, hj⟩
      · exact absurd heq ha
      · exact h.exclusive.owner i j a hi hj
  · have hkeyed := keyed_insert h.keyed (renamed name m)
    rw [hid] at hkeyed
    exact hkeyed
  · have hepochs := epochs_insert h.epochs hepoch
    rw [hid] at hepochs
    exact hepochs
  · intro j
    rw [lookup_aliased_none, AList.lookup_insert_ite, h.bound]
    by_cases hj : j = id
    · rw [if_pos hj]
      refine iff_of_false ?_ (Option.some_ne_none _)
      rw [hj, ← h.bound, hm]
      exact Option.some_ne_none m
    · rw [if_neg hj]
  · intro i a ha
    rw [has_renamed_row h hm]
    rcases (has_aliased hm name i a).mp ha with ⟨hname, hi⟩ | ⟨_, ha⟩
    · exact Or.inl ⟨hi, Or.inl hname⟩
    · by_cases hi : i = id
      · obtain ⟨q, hq, hmem⟩ := ha
        rw [hi, hm] at hq
        cases hq
        exact Or.inl ⟨hi, Or.inr hmem⟩
      · exact Or.inr ⟨hi, h.listed i a ha⟩

/-- An alias keeps names settled exactly when it is an id, or every other row that lists it
comes before its new owner. -/
theorem settled_aliased_iff (hsettled : Settled models rows) {id : String} {m : ModelRecord}
    (hm : models.lookup id = some m) (name : String) :
    Settled (aliased id name models) (rows.insert id (renamed name m)) ↔
      (models.lookup name = none → ∀ j, j ≠ id → Has rows j name → j < id) := by
  constructor
  · intro hafter hnone j hj hlists
    obtain ⟨i, hi, hle⟩ := hafter name ((lookup_aliased_none id name models name).mpr hnone) j
      ((has_renamed_row h hm name j name).mpr (Or.inr ⟨hj, hlists⟩))
    rcases (has_aliased hm name i name).mp hi with ⟨_, rfl⟩ | ⟨hne, _⟩
    · exact lt_of_le_of_ne hle hj
    · exact absurd rfl hne
  · intro hkeeps a hnone j hj
    rw [lookup_aliased_none] at hnone
    rcases (has_renamed_row h hm name j a).mp hj with ⟨rfl, rfl | ha⟩ | ⟨hne, hlists⟩
    · exact ⟨j, (has_aliased hm a j a).mpr (Or.inl ⟨rfl, rfl⟩), le_refl _⟩
    · by_cases hname : a = name
      · exact ⟨j, (has_aliased hm name j a).mpr (Or.inl ⟨hname, rfl⟩), le_refl _⟩
      · exact ⟨j, (has_aliased hm name j a).mpr (Or.inr ⟨hname, m, hm, ha⟩), le_refl _⟩
    · by_cases hname : a = name
      · subst hname
        exact ⟨id, (has_aliased hm a id a).mpr (Or.inl ⟨rfl, rfl⟩),
          (hkeeps hnone j hne hlists).le⟩
      · obtain ⟨i, hi, hle⟩ := hsettled a hnone j hlists
        exact ⟨i, (has_aliased hm name i a).mpr (Or.inr ⟨hname, hi⟩), hle⟩

theorem mirrors_erase (id : String) : Mirrors (models.erase id) (rows.erase id) := by
  have hlookup : ∀ (table : Models) i r, (table.erase id).lookup i = some r →
      table.lookup i = some r := by
    intro table i r hr
    rw [AList.lookup_erase_ite] at hr
    by_cases hi : i = id
    · rw [if_pos hi] at hr
      cases hr
    · rw [if_neg hi] at hr
      exact hr
  refine ⟨⟨?_, ?_⟩, ?_, ?_, ?_, ?_⟩
  · intro i r hr
    exact h.exclusive.keyed i r (hlookup models i r hr)
  · intro i j name hi hj
    rw [has_erase] at hi hj
    exact h.exclusive.owner i j name hi.2 hj.2
  · intro i r hr
    exact h.keyed i r (hlookup rows i r hr)
  · intro i r hr
    exact h.epochs i r (hlookup rows i r hr)
  · intro i
    rw [AList.lookup_erase_ite, AList.lookup_erase_ite]
    by_cases hi : i = id
    · rw [if_pos hi, if_pos hi]
    · rw [if_neg hi, if_neg hi, h.bound]
  · intro i name hname
    rw [has_erase] at hname ⊢
    exact ⟨hname.1, h.listed i name hname.2⟩

/-- A removal keeps names settled exactly when no other row lists a name of the model, and
its id, where other rows list it, is the alias of a model that comes after them. -/
theorem settled_erase_iff (hsettled : Settled models rows) (id : String) :
    Settled (models.erase id) (rows.erase id) ↔
      ∀ name j, j ≠ id → Has rows j name →
        (models.lookup name = none → ¬Has models id name) ∧
        (name = id → ∃ i, i ≠ id ∧ Has models i name ∧ j ≤ i) := by
  have hunbound : ∀ name, (models.erase id).lookup name = none ↔
      name = id ∨ models.lookup name = none := by
    intro name
    rw [AList.lookup_erase_ite]
    by_cases hname : name = id
    · simp [hname]
    · simp [hname]
  constructor
  · intro hafter name j hj hlists
    have howner := fun hnone => hafter name ((hunbound name).mpr hnone) j
      ((has_erase id rows j name).mpr ⟨hj, hlists⟩)
    constructor
    · intro hnone hold
      obtain ⟨i, hi, _⟩ := howner (Or.inr hnone)
      obtain ⟨hne, hi⟩ := (has_erase id models i name).mp hi
      exact hne (h.exclusive.owner i id name hi hold)
    · intro hname
      obtain ⟨i, hi, hle⟩ := howner (Or.inl hname)
      obtain ⟨hne, hi⟩ := (has_erase id models i name).mp hi
      exact ⟨i, hne, hi, hle⟩
  · intro hkeeps name hnone j hj
    obtain ⟨hne, hlists⟩ := (has_erase id rows j name).mp hj
    obtain ⟨hlost, hshadowed⟩ := hkeeps name j hne hlists
    by_cases hname : name = id
    · obtain ⟨i, hi, hhas, hle⟩ := hshadowed hname
      exact ⟨i, (has_erase id models i name).mpr ⟨hi, hhas⟩, hle⟩
    · have hnone' := ((hunbound name).mp hnone).resolve_left hname
      obtain ⟨i, hi, hle⟩ := hsettled name hnone' j hlists
      have hid : i ≠ id := by
        rintro rfl
        exact hlost hnone' hi
      exact ⟨i, (has_erase id models i name).mpr ⟨hid, hi⟩, hle⟩

end Calls

/-- A registration whose publication, if it succeeds, wrote the record's row; an alias; or a
removal. -/
def Published : Action → Prop
  | .register _ _ publish _ => ∀ r rows rows', publish r rows = .ok rows' →
      ∃ fault, catalogPublish fault r rows = .ok rows'
  | .registerFromCatalog .. => False
  | _ => True

def PublishedStep (s : Service) (a : Action) (s' : Service) : Prop := Step s a s' ∧ Published a

/-- The call leaves no row listing a name that is no id and that a smaller id, or nobody,
has in memory. -/
def KeepsNames (s : Service) : Action → Prop
  | .register size prepare publish model => ∀ r rows,
      Publishes s size prepare publish model r rows →
      ∀ name j, s.models.lookup name = none → name ≠ r.id → j ≠ r.id → Has s.rows j name →
        (name ∈ r.aliases → j < r.id) ∧ (Has s.models r.id name → name ∈ r.aliases)
  | .registerFromCatalog .. => True
  | .aliasModel fault id name => ∀ m rows, s.models.lookup id = some m →
      Writes s (catalogPublish fault (renamed name m)) rows →
      s.models.lookup name = none → ∀ j, j ≠ id → Has s.rows j name → j < id
  | .remove fault id => ∀ m rows, s.models.lookup id = some m →
      Writes s (catalogRemove fault id) rows →
      ∀ name j, j ≠ id → Has s.rows j name →
        (s.models.lookup name = none → ¬Has s.models id name) ∧
        (name = id → ∃ i, i ≠ id ∧ Has s.models i name ∧ j ≤ i)

structure Backed (s : Service) : Prop where
  attached : s.attached = true
  mirrors : Mirrors s.models s.rows

theorem writes_of_attached {s : Service} (h : s.attached = true)
    {write : Models → Except Error Models} (hwrites : Writes s write rows) :
    write s.rows = .ok rows := by
  unfold Writes at hwrites
  rw [if_pos h] at hwrites
  exact hwrites

theorem keeps_register {s s' : Service} (hs : Backed s) {size : Except String ℕ}
    {prepare : Option Error} {publish : Publication}
    {model : ModelRecord} {result : Except Error ModelRecord}
    (hpublished : Published (.register size prepare publish model))
    (h : (register size prepare publish model).run s = .returns result s') :
    Backed s' ∧ (Settled s.models s.rows → (Settled s'.models s'.rows ↔
      KeepsNames s (.register size prepare publish model))) := by
  rcases register_cases h with ⟨calls, e, _, _, rfl, hnot⟩ | ⟨existing, _, _, _, rfl, hnot⟩ |
    ⟨r, rows, hpublishes, hafter⟩
  · exact ⟨⟨hs.attached, hs.mirrors⟩, fun hsettled =>
      iff_of_true hsettled (fun r rows hpublishes => absurd hpublishes (hnot r rows))⟩
  · exact ⟨⟨hs.attached, hs.mirrors⟩, fun hsettled =>
      iff_of_true hsettled (fun r rows hpublishes => absurd hpublishes (hnot r rows))⟩
  obtain ⟨fault, hwritten⟩ := hpublished r s.rows rows hpublishes.published
  obtain ⟨hepoch, hmax, rfl⟩ := catalogPublish_ok hwritten
  rcases hafter with ⟨_, _, rfl⟩ | ⟨hlast, _, _⟩
  · refine ⟨⟨hs.attached, mirrors_enter hs.mirrors hepoch⟩, ?_⟩
    intro hsettled
    refine (settled_enter_iff hs.mirrors hsettled r).trans ?_
    constructor
    · intro hkeeps r' rows' hpublishes'
      obtain ⟨m, hm, _, rfl⟩ := hpublishes.record
      obtain ⟨m', hm', _, rfl⟩ := hpublishes'.record
      rw [hm] at hm'
      cases hm'
      exact hkeeps
    · intro hkeeps
      exact hkeeps r _ hpublishes
  · have hless : i64Max < u64Max := by decide
    rw [hpublishes.epoch] at hmax
    omega

theorem keeps_step {s s' : Service} {a : Action} (hs : Backed s) (hpublished : Published a)
    (h : Step s a s') :
    Backed s' ∧ (Settled s.models s.rows → (Settled s'.models s'.rows ↔ KeepsNames s a)) := by
  obtain ⟨result, h⟩ := result_of_step h
  cases a with
  | register size prepare publish model =>
    obtain ⟨result', hrun, _⟩ := Call.of_bind_pure h
    exact keeps_register hs hpublished hrun
  | registerFromCatalog prepare model => exact hpublished.elim
  | aliasModel fault id name =>
    obtain ⟨result', hrun, _⟩ := Call.of_bind_pure h
    rcases aliasModel_cases hrun with ⟨rfl, _, hnot⟩ | ⟨m, rows, hm, hwrites, _, rfl⟩
    · exact ⟨hs, fun hsettled =>
        iff_of_true hsettled (fun m rows hm hwrites => absurd hwrites (hnot m rows hm))⟩
    · obtain ⟨hepoch, _, hrows⟩ := catalogPublish_ok (writes_of_attached hs.attached hwrites)
      have hid : (renamed name m).id = id := hs.mirrors.exclusive.keyed id m hm
      rw [hid] at hrows
      subst hrows
      refine ⟨⟨hs.attached, mirrors_aliased hs.mirrors hm name hepoch⟩, ?_⟩
      intro hsettled
      refine (settled_aliased_iff hs.mirrors hsettled hm name).trans ?_
      constructor
      · intro hkeeps _ _ _ _
        exact hkeeps
      · intro hkeeps
        exact hkeeps m _ hm hwrites
  | remove fault id =>
    obtain ⟨result', hrun, _⟩ := Call.of_bind_pure h
    rcases remove_cases hrun with ⟨rfl, _, hnot⟩ | ⟨m, rows, hm, hwrites, _, rfl⟩
    · exact ⟨hs, fun hsettled =>
        iff_of_true hsettled (fun m rows hm hwrites => absurd hwrites (hnot m rows hm))⟩
    · have hrows : rows = s.rows.erase id := by
        have hremoved := writes_of_attached hs.attached hwrites
        unfold catalogRemove at hremoved
        cases fault with
        | some text => cases hremoved
        | none =>
          cases hremoved
          rfl
      subst hrows
      refine ⟨⟨hs.attached, mirrors_erase hs.mirrors id⟩, ?_⟩
      intro hsettled
      refine (settled_erase_iff hs.mirrors hsettled id).trans ?_
      constructor
      · intro hkeeps _ _ _ _
        exact hkeeps
      · intro hkeeps
        exact hkeeps m _ hm hwrites

theorem resolved_of_models {s s' : Service} (h : s'.models = s.models) (name : String) :
    resolved s' name = resolved s name := by
  unfold resolved Service.model
  rw [h]

/-- A service that has just been restarted mirrors its catalog, and a restart changes no
name of it. -/
theorem restarted {prepare : ModelRecord → Option Error} (hkeyed : Keyed rows) {s : Service}
    (h : restart prepare rows = some s) : Backed s ∧ Agrees s := by
  obtain ⟨hmodels, hrows, hattached, hepochs⟩ := reload_models h
  change s.models = enterAll ∅ (catalogModels rows) at hmodels
  change s.rows = rows at hrows
  refine ⟨⟨hattached, ?_⟩, ?_⟩
  · rw [hmodels, hrows]
    refine ⟨exclusive_enterAll _, hkeyed, ?_, restart_bound hkeyed, ?_⟩
    · intro id r hr
      have hid := hkeyed id r hr
      exact hepochs r ((mem_catalogModels hkeyed r).mpr (by rw [hid]; exact hr))
    · intro id name hname
      exact ((restart_has hkeyed id name).mp hname).1
  · intro prepare' s' hrestart name
    rw [hrows] at hrestart
    exact resolved_of_models ((restart_models hrestart).trans hmodels.symm) name

/-- From a restarted service on, every name survives a restart in every state of a run
exactly when every call keeps the names. -/
theorem names_persist_iff {prepare : ModelRecord → Option Error} {rows : Models}
    (hkeyed : Keyed rows) {s : Service} (hstart : restart prepare rows = some s)
    (run : List (Action × Service)) (hrun : IsRun PublishedStep s run) :
    (∀ x ∈ run, Agrees x.2) ↔ Meets KeepsNames s run := by
  obtain ⟨hbacked, hagrees⟩ := restarted hkeyed hstart
  refine along_iff_meets PublishedStep Backed Agrees KeepsNames ?_ ?_ s run hbacked hagrees hrun
  · intro t a t' ht hstep
    exact (keeps_step ht hstep.2 hstep.1).1
  · intro t a t' ht hgood hstep
    have hsettled := (agrees_iff_settled ht.mirrors).mp hgood
    obtain ⟨ht', hiff⟩ := keeps_step ht hstep.2 hstep.1
    rw [agrees_iff_settled ht'.mirrors]
    exact hiff hsettled

theorem isRun_published {s : Service} {run : List (Action × Service)} (h : IsRun Step s run)
    (hpublished : ∀ x ∈ run, Published x.1) : IsRun PublishedStep s run := by
  induction run generalizing s with
  | nil => trivial
  | cons head rest ih =>
    exact ⟨⟨h.1, hpublished head List.mem_cons_self⟩,
      ih h.2 (fun x hx => hpublished x (List.mem_cons_of_mem head hx))⟩

theorem published_publishing (id : String) (aliases : List String) :
    Published (publishing id aliases) := fun _ _ _ h => ⟨none, h⟩

theorem second_name_persists : ∃ s1 s2, IsRun PublishedStep (Service.new true ∅)
      [(publishing "m" ["latest"], s1), (.aliasModel none "m" "stable", s2)] ∧
    Agrees s1 ∧ Agrees s2 ∧ resolved s2 "stable" = some "m" := by
  have hrun : (act (Service.new true ∅) (publishing "m" ["latest"])).any (fun s1 =>
      s1.rows.keys = ["m"] && (act s1 (.aliasModel none "m" "stable")).any (fun s2 =>
        resolved s2 "stable" = some "m")) = true := by
    decide +kernel
  obtain ⟨s1, hfirst, hchecked⟩ := (Option.any_eq_true _ _).mp hrun
  obtain ⟨hkeys, hchecked⟩ := Bool.and_eq_true_iff.mp hchecked
  obtain ⟨s2, hsecond, hname⟩ := (Option.any_eq_true _ _).mp hchecked
  have hsteps : IsRun PublishedStep (Service.new true ∅)
      [(publishing "m" ["latest"], s1), (.aliasModel none "m" "stable", s2)] :=
    ⟨⟨hfirst, published_publishing _ _⟩, ⟨hsecond, trivial⟩, trivial⟩
  have hempty : ∀ name j, ¬Has (∅ : Models) j name := by
    rintro name j ⟨r, hr, _⟩
    cases hr
  have halone : ∀ j name, Has s1.rows j name → j = "m" := by
    rintro j name ⟨r, hr, _⟩
    have hmem : j ∈ s1.rows.keys := by
      rw [← AList.mem_keys, ← AList.lookup_isSome, hr]
      rfl
    rw [of_decide_eq_true hkeys] at hmem
    exact List.mem_singleton.mp hmem
  have hmeets : Meets KeepsNames (Service.new true ∅)
      [(publishing "m" ["latest"], s1), (.aliasModel none "m" "stable", s2)] := by
    refine ⟨?_, ?_, trivial⟩
    · intro r rows _ name j _ _ _ hlists
      exact absurd hlists (hempty name j)
    · intro m rows _ _ _ j hj hlists
      exact absurd (halone j "stable" hlists) hj
  have hstart : restart (fun _ => none) ∅ = some (Service.new true ∅) := rfl
  have hkeyed : Keyed ∅ := by
    intro id r hr
    cases hr
  have hall := (names_persist_iff hkeyed hstart _ hsteps).mpr hmeets
  exact ⟨s1, s2, hsteps, hall _ List.mem_cons_self,
    hall _ (List.mem_cons_of_mem _ List.mem_cons_self), of_decide_eq_true hname⟩

/-- An alias that moved from a greater to a smaller id moves back on a restart. -/
theorem moved_alias_returns : ∃ run s', IsRun PublishedStep (Service.new true ∅) run ∧
    restart (fun _ => none) (last (Service.new true ∅) run).rows = some s' ∧
    resolved (last (Service.new true ∅) run) "a" = some "m" ∧
    resolved s' "a" = some "z" := by
  have hrun : (trace act (Service.new true ∅)
      [publishing "m" [], publishing "z" ["a"], .aliasModel none "m" "a"]).any (fun run =>
        (restart (fun _ => none) (last (Service.new true ∅) run).rows).any (fun s' =>
          resolved (last (Service.new true ∅) run) "a" = some "m" &&
            resolved s' "a" = some "z")) = true := by
    decide +kernel
  obtain ⟨run, htrace, hchecked⟩ := (Option.any_eq_true _ _).mp hrun
  obtain ⟨s', hrestart, hchecked⟩ := (Option.any_eq_true _ _).mp hchecked
  obtain ⟨hbefore, hafter⟩ := Bool.and_eq_true_iff.mp hchecked
  refine ⟨run, s', isRun_published (isRun_of_trace _ _ _ _ htrace) ?_, hrestart,
    of_decide_eq_true hbefore, of_decide_eq_true hafter⟩
  intro x hx
  have hlabel := List.mem_map_of_mem (f := Prod.fst) hx
  rw [labels_of_trace _ _ _ _ htrace] at hlabel
  rcases List.mem_cons.mp hlabel with hx | hlabel
  · rw [hx]
    exact published_publishing _ _
  rcases List.mem_cons.mp hlabel with hx | hlabel
  · rw [hx]
    exact published_publishing _ _
  · rw [List.mem_singleton.mp hlabel]
    trivial

end Cusco.AliasPersistence
