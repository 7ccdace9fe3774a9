import Cusco.ResponseEffects

/-!
Recovery of the response store. A directory opens when every file in it can be
read and is named after its resource; the store then holds the resources that
have not expired, and the expired files are removed. An opened store agrees with
its directory.
-/

namespace Cusco.ResponseRecovery

open Calls ResponseStore FileResponseResourceStore ResponseEffects

variable {β : Type} {format : FileFormat β} {s : FileResponseResourceStore β}

/-- The resource that a recovery keeps of a file. -/
def kept (format : FileFormat β) (env : Recovery) (id : String) (bytes : β) :
    Option ResponseResource :=
  match format.fromSlice bytes with
  | .ok r => if expired r (env.clock id) then none else some r
  | .error _ => none

/-- A file that can be read and is named after its resource. -/
def Sound (format : FileFormat β) (id : String) (bytes : β) : Prop :=
  ∃ r, format.fromSlice bytes = .ok r ∧ r.id = id

theorem fileName_injective {a b : String} (h : fileName a = fileName b) : a = b :=
  (String.append_left_inj ".json").mp h

/-- What reading one file successfully does. -/
structure Recovered (format : FileFormat β) (env : Recovery) (id : String) (bytes : β)
    (s t : FileResponseResourceStore β) : Prop where
  sound : Sound format id bytes
  file : readBack format t id = (kept format env id bytes).map Except.ok
  entry : s.recovered.lookup id = none → t.recovered.lookup id = kept format env id bytes
  otherFiles : ∀ k, k ≠ id → t.resources.lookup (.entry k) = s.resources.lookup (.entry k)
  otherEntries : ∀ k, k ≠ id → t.recovered.lookup k = s.recovered.lookup k

theorem kept_of_ok {env : Recovery} {id : String} {bytes : β} {r : ResponseResource}
    (hr : format.fromSlice bytes = .ok r) :
    kept format env id bytes = if expired r (env.clock id) then none else some r := by
  unfold kept
  rw [hr]

theorem recovered_of_expired {env : Recovery} {id : String} {bytes : β} {r : ResponseResource}
    (hr : format.fromSlice bytes = .ok r) (hid : r.id = id)
    (hexpired : expired r (env.clock id) = true) (s : FileResponseResourceStore β) :
    Recovered format env id bytes s (withoutFile s (.entry id)) := by
  have hkept : kept format env id bytes = none := by rw [kept_of_ok hr, if_pos hexpired]
  have hfile : ∀ k, (withoutFile s (.entry id)).resources.lookup (.entry k) = _ :=
    fun k => AList.lookup_erase_ite (.entry id) (.entry k) s.resources
  refine ⟨⟨r, hr, hid⟩, ?_, ?_, ?_, fun k _ => rfl⟩
  · unfold readBack
    rw [hkept, hfile, if_pos rfl]
    rfl
  · intro hnone
    rw [hkept]
    exact hnone
  · intro k hk
    rw [hfile, if_neg (by simpa using hk)]

theorem recovered_of_unexpired {env : Recovery} {id : String} {bytes : β} {r : ResponseResource}
    (hr : format.fromSlice bytes = .ok r) (hid : r.id = id)
    (hexpired : expired r (env.clock id) = false)
    (hfile : s.resources.lookup (.entry id) = some bytes) :
    Recovered format env id bytes s { s with recovered := s.recovered.insert r.id r } := by
  have hkept : kept format env id bytes = some r := by rw [kept_of_ok hr, hexpired]; rfl
  refine ⟨⟨r, hr, hid⟩, ?_, ?_, fun k _ => rfl, ?_⟩
  · unfold readBack
    rw [hkept, hfile, Option.map_some, hr]
    rfl
  · intro _
    rw [hkept, ← hid]
    exact AList.lookup_insert _
  · intro k hk
    subst hid
    exact AList.lookup_insert_ne hk

/-- A read file is either refused with an error or recovered. -/
theorem recoverEntry_run (format : FileFormat β) (stateRoot : String) (env : Recovery) (id : String)
    (bytes : β) (hfile : s.resources.lookup (.entry id) = some bytes) :
    (∃ e, (recoverEntry format stateRoot env id bytes).run s = .returns (.error e) s ∧
        ((∀ step, env.fails step = false) → ¬ Sound format id bytes)) ∨
      ∃ t, (recoverEntry format stateRoot env id bytes).run s = .returns (.ok ()) t ∧
        Recovered format env id bytes s t := by
  unfold recoverEntry
  cases hread : env.fails (.readFile id) with
  | true =>
    exact Or.inl ⟨_, attempt_fail hread _ _, fun h => by simp [h] at hread⟩
  | false =>
  rw [attempt_pass hread]
  cases hr : format.fromSlice bytes with
  | error message =>
    refine Or.inl ⟨_, rfl, fun _ h => ?_⟩
    obtain ⟨r, hok, _⟩ := h
    cases hr.symm.trans hok
  | ok r =>
  have hparsed : ∀ (e : String → StoreError) (f : ResponseResource → StoreCall β Unit),
      (Call.ofExcept ((Except.ok r : Except String ResponseResource).mapError e) >>= f).run s =
        (f r).run s := fun e f => rfl
  rw [hparsed]
  by_cases hname : fileName id = fileName r.id
  · rw [decide_eq_true hname, Call.run_check_true_bind]
    have hid : r.id = id := (fileName_injective hname).symm
    cases hexpired : expired r (env.clock id) with
    | false => exact Or.inr ⟨_, rfl, recovered_of_unexpired hr hid hexpired hfile⟩
    | true =>
      rw [if_pos rfl]
      cases hremove : env.fails (.removeExpired id) with
      | true =>
        exact Or.inl ⟨_, removeFile_fail hremove s, fun h => by simp [h] at hremove⟩
      | false =>
        have hsome : (s.resources.lookup (.entry id)).isSome := by rw [hfile]; rfl
        exact Or.inr ⟨_, removeFile_pass hremove hsome, recovered_of_expired hr hid hexpired s⟩
  · rw [decide_eq_false hname]
    refine Or.inl ⟨_, Call.run_check_false_bind _ _ _, fun _ h => ?_⟩
    obtain ⟨v, hv, hid⟩ := h
    cases hr.symm.trans hv
    exact hname (by rw [hid])

/-- What reading a list of files successfully does. -/
structure RecoveredAll (format : FileFormat β) (env : Recovery) (files : List (String × β))
    (s t : FileResponseResourceStore β) : Prop where
  sound : ∀ f ∈ files, Sound format f.1 f.2
  file : ∀ f ∈ files, readBack format t f.1 = (kept format env f.1 f.2).map Except.ok
  entry : ∀ f ∈ files, s.recovered.lookup f.1 = none →
    t.recovered.lookup f.1 = kept format env f.1 f.2
  otherFiles : ∀ k, k ∉ files.map Prod.fst →
    t.resources.lookup (.entry k) = s.resources.lookup (.entry k)
  otherEntries : ∀ k, k ∉ files.map Prod.fst → t.recovered.lookup k = s.recovered.lookup k

theorem RecoveredAll.cons {env : Recovery} {f : String × β} {rest : List (String × β)}
    {s t u : FileResponseResourceStore β} (hhead : Recovered format env f.1 f.2 s t)
    (hrest : RecoveredAll format env rest t u) (hnew : f.1 ∉ rest.map Prod.fst) :
    RecoveredAll format env (f :: rest) s u := by
  have hne : ∀ g ∈ rest, g.1 ≠ f.1 := by
    intro g hg heq
    exact hnew (heq ▸ List.mem_map_of_mem hg)
  refine ⟨?_, ?_, ?_, ?_, ?_⟩
  · intro g hg
    rcases List.mem_cons.mp hg with rfl | hg
    · exact hhead.sound
    · exact hrest.sound g hg
  · intro g hg
    rcases List.mem_cons.mp hg with rfl | hg
    · rw [← hhead.file]
      unfold readBack
      rw [hrest.otherFiles _ hnew]
    · exact hrest.file g hg
  · intro g hg hnone
    rcases List.mem_cons.mp hg with rfl | hg
    · rw [hrest.otherEntries _ hnew, hhead.entry hnone]
    · apply hrest.entry g hg
      rw [hhead.otherEntries g.1 (hne g hg), hnone]
  · intro k hk
    rw [List.map_cons, List.mem_cons, not_or] at hk
    rw [hrest.otherFiles k hk.2, hhead.otherFiles k hk.1]
  · intro k hk
    rw [List.map_cons, List.mem_cons, not_or] at hk
    rw [hrest.otherEntries k hk.2, hhead.otherEntries k hk.1]

theorem recoverEntries_run (format : FileFormat β) (stateRoot : String) (env : Recovery)
    (files : List (String × β)) (s : FileResponseResourceStore β)
    (hkeys : (files.map Prod.fst).Nodup)
    (hfiles : ∀ f ∈ files, s.resources.lookup (.entry f.1) = some f.2) :
    (∃ e t, (recoverEntries format stateRoot env files).run s = .returns (.error e) t ∧
        ((∀ step, env.fails step = false) → ∃ f ∈ files, ¬ Sound format f.1 f.2)) ∨
      ∃ t, (recoverEntries format stateRoot env files).run s = .returns (.ok ()) t ∧
        RecoveredAll format env files s t := by
  induction files generalizing s with
  | nil =>
    refine Or.inr ⟨s, rfl, ?_⟩
    exact ⟨by simp, by simp, by simp, fun _ _ => rfl, fun _ _ => rfl⟩
  | cons f rest ih =>
    obtain ⟨hnew, hrest⟩ := List.nodup_cons.mp hkeys
    rcases recoverEntry_run format stateRoot env f.1 f.2 (hfiles f List.mem_cons_self) with
      ⟨e, hrun, hsound⟩ | ⟨t, hrun, hhead⟩
    · refine Or.inl ⟨e, s, Call.run_bind_error hrun _, fun h => ?_⟩
      exact ⟨f, List.mem_cons_self, hsound h⟩
    · have hleft : ∀ g ∈ rest, t.resources.lookup (.entry g.1) = some g.2 := by
        intro g hg
        have hne : g.1 ≠ f.1 := fun heq => hnew (heq ▸ List.mem_map_of_mem hg)
        rw [hhead.otherFiles g.1 hne]
        exact hfiles g (List.mem_cons_of_mem f hg)
      rcases ih t hrest hleft with ⟨e, u, hrun', hsound⟩ | ⟨u, hrun', hall⟩
      · refine Or.inl ⟨e, u, ?_, fun h => ?_⟩
        · rw [← hrun']
          exact Call.run_bind_ok hrun _
        · obtain ⟨g, hg, hbad⟩ := hsound h
          exact ⟨g, List.mem_cons_of_mem f hg, hbad⟩
      · refine Or.inr ⟨u, ?_, RecoveredAll.cons hhead hall hnew⟩
        rw [← hrun']
        exact Call.run_bind_ok hrun _

theorem mem_sortedEntries {directory : Directory β} (id : String) (bytes : β) :
    (id, bytes) ∈ sortedEntries directory ↔ directory.lookup (.entry id) = some bytes := by
  unfold sortedEntries
  rw [List.mem_insertionSort, List.mem_filterMap, ← AList.mem_entries_iff]
  constructor
  · rintro ⟨⟨file, content⟩, hmem, hcommitted⟩
    cases file with
    | entry k =>
      cases hcommitted
      exact hmem
    | outside path => cases hcommitted
  · intro hmem
    exact ⟨_, hmem, rfl⟩

theorem nodup_sortedEntries (directory : Directory β) :
    ((sortedEntries directory).map Prod.fst).Nodup := by
  have hperm : ((sortedEntries directory).map Prod.fst).Perm
      ((directory.entries.filterMap committed).map Prod.fst) :=
    (List.perm_insertionSort _ _).map Prod.fst
  rw [hperm.nodup_iff, List.map_filterMap]
  have hkeys : directory.entries.Pairwise (fun a b => a.1 ≠ b.1) :=
    List.pairwise_map.mp directory.nodupKeys
  refine hkeys.filterMap _ ?_
  rintro ⟨file, bytes⟩ ⟨file', bytes'⟩ hne id hid id' hid' rfl
  cases file with
  | outside path => cases hid
  | entry k =>
    cases file' with
    | outside path => cases hid'
    | entry k' =>
      cases hid
      cases hid'
      exact hne rfl

/-- What an opened store holds. -/
structure Opened (format : FileFormat β) (env : Recovery) (directory : Directory β)
    (s : FileResponseResourceStore β) : Prop where
  sound : ∀ id bytes, directory.lookup (.entry id) = some bytes → Sound format id bytes
  recovered : ∀ id, s.recovered.lookup id =
    (directory.lookup (.entry id)).bind (kept format env id)
  files : ∀ id, readBack format s id =
    ((directory.lookup (.entry id)).bind (kept format env id)).map Except.ok

theorem openStore_run (format : FileFormat β) (stateRoot : String) (env : Recovery)
    (directory : Directory β) :
    (∃ e t, openStore format stateRoot env directory = .returns (.error e) t ∧
        ((∀ step, env.fails step = false) →
          ∃ id bytes, directory.lookup (.entry id) = some bytes ∧ ¬ Sound format id bytes)) ∨
      ∃ s, openStore format stateRoot env directory = .returns (.ok ()) s ∧
        Opened format env directory s := by
  unfold openStore
  cases hresources : env.fails .createResources with
  | true => exact Or.inl ⟨_, _, attempt_fail hresources _ _, fun h => by simp [h] at hresources⟩
  | false =>
  rw [attempt_pass hresources]
  cases htemporary : env.fails .createTemporary with
  | true => exact Or.inl ⟨_, _, attempt_fail htemporary _ _, fun h => by simp [h] at htemporary⟩
  | false =>
  rw [attempt_pass htemporary]
  cases hread : env.fails .readDirectory with
  | true => exact Or.inl ⟨_, _, attempt_fail hread _ _, fun h => by simp [h] at hread⟩
  | false =>
  rw [attempt_pass hread]
  have hfiles : ∀ f ∈ sortedEntries directory,
      (⟨directory, ∅⟩ : FileResponseResourceStore β).resources.lookup (.entry f.1) = some f.2 :=
    fun f hf => (mem_sortedEntries f.1 f.2).mp hf
  rcases recoverEntries_run format stateRoot env (sortedEntries directory) ⟨directory, ∅⟩
    (nodup_sortedEntries directory) hfiles with ⟨e, t, hrun, hsound⟩ | ⟨s, hrun, hall⟩
  · refine Or.inl ⟨e, t, hrun, fun h => ?_⟩
    obtain ⟨f, hf, hbad⟩ := hsound h
    exact ⟨f.1, f.2, hfiles f hf, hbad⟩
  · refine Or.inr ⟨s, hrun, ?_, ?_, ?_⟩
    · intro id content hlookup
      exact hall.sound _ ((mem_sortedEntries id content).mpr hlookup)
    · intro id
      cases hlookup : directory.lookup (.entry id) with
      | some content => exact hall.entry _ ((mem_sortedEntries id content).mpr hlookup) rfl
      | none =>
        have hkeys : id ∉ (sortedEntries directory).map Prod.fst := by
          intro hid
          obtain ⟨⟨k, bytes⟩, hmem, rfl⟩ := List.mem_map.mp hid
          rw [(mem_sortedEntries k bytes).mp hmem] at hlookup
          cases hlookup
        exact hall.otherEntries id hkeys
    · intro id
      cases hlookup : directory.lookup (.entry id) with
      | some content => exact hall.file _ ((mem_sortedEntries id content).mpr hlookup)
      | none =>
        have hkeys : id ∉ (sortedEntries directory).map Prod.fst := by
          intro hid
          obtain ⟨⟨k, bytes⟩, hmem, rfl⟩ := List.mem_map.mp hid
          rw [(mem_sortedEntries k bytes).mp hmem] at hlookup
          cases hlookup
        unfold readBack
        rw [hall.otherFiles id hkeys]
        exact congrArg (Option.map format.fromSlice) hlookup

theorem opened_of_openStore {stateRoot : String} {env : Recovery} {directory : Directory β}
    (h : openStore format stateRoot env directory = .returns (.ok ()) s) :
    Opened format env directory s := by
  rcases openStore_run format stateRoot env directory with ⟨e, t, hrun, _⟩ | ⟨t, hrun, hopened⟩
  · rw [h] at hrun
    cases hrun
  · rw [h] at hrun
    cases hrun
    exact hopened

/-- The path joined from the name of a committed file is that file. -/
def Plain (format : FileFormat β) (directory : Directory β) : Prop :=
  ∀ id bytes, directory.lookup (.entry id) = some bytes → format.resourcePath id = .entry id

theorem Opened.agrees {env : Recovery} {directory : Directory β} (h : Opened format env directory s)
    (hplain : Plain format directory) : Agrees format s := by
  refine ⟨?_, ?_, ?_⟩
  · intro id
    rw [h.files id, h.recovered id]
  · intro id r hr
    rw [h.recovered id] at hr
    obtain ⟨bytes, hlookup, hkept⟩ := Option.bind_eq_some_iff.mp hr
    obtain ⟨v, hv, hid⟩ := h.sound id bytes hlookup
    rw [kept_of_ok hv] at hkept
    split at hkept
    · cases hkept
    · cases hkept
      exact hid
  · intro id r hr
    rw [h.recovered id] at hr
    obtain ⟨bytes, hlookup, _⟩ := Option.bind_eq_some_iff.mp hr
    exact hplain id bytes hlookup

/-- Opening the directory of a store that agrees with it recovers the map without
the expired resources. -/
theorem Opened.recovered_of_agrees {env : Recovery} {s t : FileResponseResourceStore β}
    (hs : Agrees format s) (h : Opened format env s.resources t) (id : String) :
    t.recovered.lookup id =
      (s.recovered.lookup id).filter (fun r => !expired r (env.clock id)) := by
  have hsame := hs.same id
  unfold readBack at hsame
  rw [h.recovered id]
  cases hfile : s.resources.lookup (.entry id) with
  | none =>
    rw [hfile] at hsame
    rw [Option.map_eq_none_iff.mp hsame.symm]
    rfl
  | some bytes =>
    rw [hfile] at hsame
    obtain ⟨r, hr, hok⟩ := Option.map_eq_some_iff.mp hsame.symm
    rw [hr, Option.bind_some, kept_of_ok hok.symm]
    cases hexpired : expired r (env.clock id) <;> simp [hexpired, Option.filter]

/-- The directory of a store that agrees with it opens when no step fails. -/
theorem openStore_of_agrees (hs : Agrees format s) (stateRoot : String) (env : Recovery)
    (hfails : ∀ step, env.fails step = false) :
    ∃ t, openStore format stateRoot env s.resources = .returns (.ok ()) t ∧
      Opened format env s.resources t := by
  rcases openStore_run format stateRoot env s.resources with ⟨e, t, _, hsound⟩ | hopened
  · obtain ⟨id, bytes, hlookup, hbad⟩ := hsound hfails
    have hsame := hs.same id
    unfold readBack at hsame
    rw [hlookup] at hsame
    obtain ⟨r, hr, hok⟩ := Option.map_eq_some_iff.mp hsame.symm
    exact absurd ⟨r, hok.symm, hs.named id r hr⟩ hbad
  · exact hopened

end Cusco.ResponseRecovery
