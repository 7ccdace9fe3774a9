import Cusco.ResponseStore

/-!
What the operations of the response store do. Each returns with one of a few
effects on the map and the directory, determined by the state before it and by
the filesystem steps that fail. The effects assume that the two agree, since the
removal of a missing file fails.
-/

namespace Cusco.ResponseEffects

open Calls ResponseStore FileResponseResourceStore

variable {β : Type} {format : FileFormat β} {s : FileResponseResourceStore β}

/-- What a recovery reads of the committed file of an id. -/
def readBack (format : FileFormat β) (s : FileResponseResourceStore β) (id : String) :
    Option (Except String ResponseResource) :=
  (s.resources.lookup (.entry id)).map format.fromSlice

/-- The map and the committed files describe the same resources. -/
def SameResources (format : FileFormat β) (s : FileResponseResourceStore β) : Prop :=
  ∀ id, readBack format s id = (s.recovered.lookup id).map Except.ok

structure Agrees (format : FileFormat β) (s : FileResponseResourceStore β) : Prop where
  same : SameResources format s
  named : ∀ id r, s.recovered.lookup id = some r → r.id = id
  plain : ∀ id r, s.recovered.lookup id = some r → format.resourcePath id = .entry id

/-- A resource reads back from its bytes as itself, in the file named after it. -/
structure ReadsBack (format : FileFormat β) (r : ResponseResource) (bytes : β) : Prop where
  plain : format.resourcePath r.id = .entry r.id
  read : format.fromSlice bytes = .ok r

/-- A recovery reads in a file nothing but what the map already holds. -/
def Known (format : FileFormat β) (s : FileResponseResourceStore β) (file : Location)
    (bytes : β) : Prop :=
  ∀ id, file = .entry id → ∃ r, s.recovered.lookup id = some r ∧ format.fromSlice bytes = .ok r

def without (s : FileResponseResourceStore β) (ids : List String) : FileResponseResourceStore β :=
  ⟨s.resources.eraseAll (ids.map Location.entry), s.recovered.eraseAll ids⟩

def withoutFile (s : FileResponseResourceStore β) (file : Location) :
    FileResponseResourceStore β :=
  { s with resources := s.resources.erase file }

def withFile (s : FileResponseResourceStore β) (file : Location) (bytes : β) :
    FileResponseResourceStore β :=
  { s with resources := s.resources.insert file bytes }

def withResource (s : FileResponseResourceStore β) (file : Location) (bytes : β)
    (r : ResponseResource) : FileResponseResourceStore β :=
  ⟨s.resources.insert file bytes, s.recovered.insert r.id r⟩

theorem lookup_without (s : FileResponseResourceStore β) (ids : List String) (id : String) :
    (without s ids).recovered.lookup id = if id ∈ ids then none else s.recovered.lookup id :=
  AList.lookup_eraseAll s.recovered ids id

theorem file_without (s : FileResponseResourceStore β) (ids : List String) (id : String) :
    (without s ids).resources.lookup (.entry id) =
      if id ∈ ids then none else s.resources.lookup (.entry id) := by
  have hfile : (without s ids).resources.lookup (.entry id) = _ :=
    AList.lookup_eraseAll s.resources (ids.map Location.entry) (.entry id)
  rw [hfile]
  simp only [List.mem_map, Location.entry.injEq, exists_eq_right]

theorem lookup_withResource (s : FileResponseResourceStore β) (file : Location) (bytes : β)
    (r : ResponseResource) (id : String) : (withResource s file bytes r).recovered.lookup id =
      if id = r.id then some r else s.recovered.lookup id :=
  AList.lookup_insert_ite r.id id r s.recovered

theorem readBack_insert (format : FileFormat β) {s t : FileResponseResourceStore β}
    {file : Location} {bytes : β} (h : t.resources = s.resources.insert file bytes) (id : String) :
    readBack format t id = if Location.entry id = file then some (format.fromSlice bytes)
      else readBack format s id := by
  unfold readBack
  rw [h, AList.lookup_insert_ite]
  split <;> rfl

theorem Agrees.without (hs : Agrees format s) (ids : List String) :
    Agrees format (without s ids) := by
  have hkept : ∀ id r, (ResponseEffects.without s ids).recovered.lookup id = some r →
      s.recovered.lookup id = some r := by
    intro id r hr
    rw [lookup_without] at hr
    split at hr
    · cases hr
    · exact hr
  refine ⟨?_, fun id r hr => hs.named id r (hkept id r hr),
    fun id r hr => hs.plain id r (hkept id r hr)⟩
  intro id
  unfold readBack
  rw [file_without, lookup_without]
  by_cases hid : id ∈ ids
  · simp [hid]
  · simp only [hid, if_false]
    exact hs.same id

/-- A stored resource keeps the agreement exactly when it reads back as itself. -/
theorem agrees_withResource_iff (hs : Agrees format s) (r : ResponseResource) (bytes : β) :
    Agrees format (withResource s (format.resourcePath r.id) bytes r) ↔
      ReadsBack format r bytes := by
  have hread := readBack_insert format (s := s)
    (t := withResource s (format.resourcePath r.id) bytes r) rfl
  constructor
  · intro h
    have hplain := h.plain r.id r (AList.lookup_insert _)
    have hsame := h.same r.id
    rw [hread, if_pos hplain.symm, lookup_withResource, if_pos rfl] at hsame
    exact ⟨hplain, Option.some.inj hsame⟩
  · intro h
    refine ⟨?_, ?_, ?_⟩
    · intro id
      rw [hread, lookup_withResource, h.plain]
      by_cases hid : id = r.id
      · simp [hid, h.read]
      · simp only [Location.entry.injEq, hid, if_false]
        exact hs.same id
    · intro id v hv
      rw [lookup_withResource] at hv
      split at hv
      · rename_i hid
        cases hv
        exact hid.symm
      · exact hs.named id v hv
    · intro id v hv
      rw [lookup_withResource] at hv
      split at hv
      · rename_i hid
        rw [hid]
        exact h.plain
      · exact hs.plain id v hv

/-- A file without its entry in the map keeps the agreement only when a recovery reads
nothing new in it. -/
theorem agrees_withFile_iff (hs : Agrees format s) (file : Location) (bytes : β) :
    Agrees format (withFile s file bytes) ↔ Known format s file bytes := by
  have hread := readBack_insert format (s := s) (t := withFile s file bytes) rfl
  constructor
  · rintro h id rfl
    have hsame : _ = (s.recovered.lookup id).map Except.ok := h.same id
    rw [hread, if_pos rfl] at hsame
    obtain ⟨v, hv, heq⟩ := Option.map_eq_some_iff.mp hsame.symm
    exact ⟨v, hv, heq.symm⟩
  · intro h
    refine ⟨?_, hs.named, hs.plain⟩
    intro id
    show _ = (s.recovered.lookup id).map Except.ok
    rw [hread]
    by_cases hid : Location.entry id = file
    · obtain ⟨r, hr, heq⟩ := h id hid.symm
      rw [if_pos hid, hr, heq]
      rfl
    · rw [if_neg hid]
      exact hs.same id

theorem not_same_withoutFile {id : String} (h : (s.recovered.lookup id).isSome) :
    ¬ SameResources format (withoutFile s (.entry id)) := by
  intro hsame
  have hid := hsame id
  obtain ⟨v, hv⟩ := Option.isSome_iff_exists.mp h
  unfold readBack withoutFile at hid
  rw [AList.lookup_erase_ite, if_pos rfl, hv] at hid
  cases hid

/-- The file of a resource in the map. -/
theorem Agrees.file (hs : Agrees format s) {id : String} (h : (s.recovered.lookup id).isSome) :
    (s.resources.lookup (.entry id)).isSome := by
  obtain ⟨v, hv⟩ := Option.isSome_iff_exists.mp h
  have hsame := hs.same id
  rw [hv] at hsame
  obtain ⟨bytes, hbytes, _⟩ := Option.map_eq_some_iff.mp hsame
  rw [hbytes]
  rfl

theorem attempt_pass {fails : FsStep → Bool} {step : FsStep} (h : fails step = false)
    (f : Unit → StoreCall β Unit) (s : FileResponseResourceStore β) :
    (attempt fails step >>= f).run s = (f ()).run s := by
  simp [attempt, h]

theorem attempt_fail {fails : FsStep → Bool} {step : FsStep} (h : fails step = true)
    (f : Unit → StoreCall β Unit) (s : FileResponseResourceStore β) :
    (attempt fails step >>= f).run s = .returns (.error (.io step)) s := by
  simp [attempt, h]

theorem attempt_run (fails : FsStep → Bool) (step : FsStep) (s : FileResponseResourceStore β) :
    (attempt fails step).run s =
      .returns (if fails step = false then .ok () else .error (.io step)) s := by
  cases h : fails step <;> simp [attempt, Call.check, h]

theorem removeFile_pass {fails : FsStep → Bool} {step : FsStep} {file : Location}
    (hstep : fails step = false) (hfile : (s.resources.lookup file).isSome) :
    (removeFile fails step file).run s = .returns (.ok ()) (withoutFile s file) := by
  unfold removeFile
  rw [attempt_pass hstep, Call.run_read_bind, hfile]
  rfl

theorem removeFile_fail {fails : FsStep → Bool} {step : FsStep} {file : Location}
    (hstep : fails step = true) (s : FileResponseResourceStore β) :
    (removeFile fails step file).run s = .returns (.error (.io step)) s :=
  attempt_fail hstep _ s

theorem mem_expiredIds (hs : Agrees format s) (env : Surroundings) (id : String) :
    id ∈ expiredIds env s ↔
      ∃ r, s.recovered.lookup id = some r ∧ expired r env.timestamp = true := by
  unfold expiredIds
  rw [(env.order_perm _).mem_iff, List.mem_map]
  constructor
  · intro h
    obtain ⟨r, hr, rfl⟩ := h
    obtain ⟨hmem, hexp⟩ := List.mem_filter.mp hr
    obtain ⟨k, hk⟩ := (AList.mem_values_iff _ r).mp hmem
    rw [hs.named k r hk]
    exact ⟨r, hk, hexp⟩
  · intro h
    obtain ⟨r, hr, hexp⟩ := h
    refine ⟨r, List.mem_filter.mpr ⟨(AList.mem_values_iff _ r).mpr ⟨id, hr⟩, hexp⟩, ?_⟩
    exact hs.named id r hr

theorem nodup_expiredIds (hs : Agrees format s) (env : Surroundings) :
    (expiredIds env s).Nodup := by
  have hkeys : s.recovered.values.map (fun r => r.id) = s.recovered.keys := by
    unfold AList.values AList.keys List.keys
    rw [List.map_map]
    apply List.map_congr_left
    intro e he
    exact hs.named e.1 e.2 ((AList.mem_entries_iff s.recovered e.1 e.2).mp he)
  have hnodup : (s.recovered.values.map (fun r => r.id)).Nodup := by
    rw [hkeys]
    exact s.recovered.nodupKeys
  unfold expiredIds
  rw [(env.order_perm _).nodup_iff]
  exact hnodup.sublist (List.filter_sublist.map _)

/-- The expired resources that a pruning gets to remove. -/
def removedIds (env : Surroundings) (s : FileResponseResourceStore β) : List String :=
  (expiredIds env s).takeWhile (fun id => !env.fails (.removeExpired id))

def pruned (env : Surroundings) (s : FileResponseResourceStore β) : FileResponseResourceStore β :=
  without s (removedIds env s)

structure PruneSucceeds (env : Surroundings) (s : FileResponseResourceStore β) : Prop where
  removes : ∀ id ∈ expiredIds env s, env.fails (.removeExpired id) = false
  syncs : expiredIds env s = [] ∨
    (env.fails .openPruned = false ∧ env.fails .syncPruned = false)

theorem Agrees.pruned (hs : Agrees format s) (env : Surroundings) : Agrees format (pruned env s) :=
  hs.without _

theorem without_cons (s : FileResponseResourceStore β) (id : String) (rest : List String) :
    without s (id :: rest) = without (without s [id]) rest := rfl

theorem isSome_without {id head : String} (hne : id ≠ head)
    (h : (s.resources.lookup (.entry id)).isSome) :
    ((without s [head]).resources.lookup (.entry id)).isSome := by
  rw [file_without, if_neg (by simpa using hne)]
  exact h

theorem removeExpired_run (env : Surroundings) (ids : List String)
    (s : FileResponseResourceStore β) (hnodup : ids.Nodup)
    (hplain : ∀ id ∈ ids, format.resourcePath id = .entry id)
    (hfiles : ∀ id ∈ ids, (s.resources.lookup (.entry id)).isSome) :
    ∃ result, (removeExpired format env ids).run s = .returns result
        (without s (ids.takeWhile (fun id => !env.fails (.removeExpired id)))) ∧
      (result = .ok () ↔ ∀ id ∈ ids, env.fails (.removeExpired id) = false) := by
  induction ids generalizing s with
  | nil => exact ⟨.ok (), rfl, by simp⟩
  | cons head rest ih =>
    obtain ⟨hhead, hrest⟩ := List.nodup_cons.mp hnodup
    cases hfail : env.fails (.removeExpired head) with
    | true =>
      refine ⟨.error (.io (.removeExpired head)), ?_, by simp [hfail]⟩
      rw [List.takeWhile_cons_of_neg (by simp [hfail])]
      exact Call.run_bind_error (removeFile_fail hfail s) _
    | false =>
      have hremove := removeFile_pass hfail (hfiles head List.mem_cons_self)
      rw [← hplain head List.mem_cons_self] at hremove
      have hleft : ∀ id ∈ rest, ((without s [head]).resources.lookup (.entry id)).isSome := by
        intro id hid
        have hne : id ≠ head := fun h => hhead (h ▸ hid)
        exact isSome_without hne (hfiles id (List.mem_cons_of_mem head hid))
      obtain ⟨result, hrun, hiff⟩ := ih (without s [head]) hrest
        (fun id hid => hplain id (List.mem_cons_of_mem head hid)) hleft
      refine ⟨result, ?_, by simp [hfail, hiff]⟩
      rw [List.takeWhile_cons_of_pos (by simp [hfail]), without_cons, ← hrun]
      refine (Call.run_bind_ok hremove _).trans ?_
      rw [hplain head List.mem_cons_self]
      rfl

theorem pruneExpired_run (hs : Agrees format s) (env : Surroundings) : ∃ result,
      (pruneExpired format env).run s = .returns result (pruned env s) ∧
      (result = .ok () ↔ PruneSucceeds env s) := by
  have hfiles : ∀ id ∈ expiredIds env s, (s.resources.lookup (.entry id)).isSome := by
    intro id hid
    obtain ⟨r, hr, _⟩ := (mem_expiredIds hs env id).mp hid
    exact hs.file (by rw [hr]; rfl)
  have hplain : ∀ id ∈ expiredIds env s, format.resourcePath id = .entry id := by
    intro id hid
    obtain ⟨r, hr, _⟩ := (mem_expiredIds hs env id).mp hid
    exact hs.plain id r hr
  obtain ⟨removal, hrun, hremoval⟩ :=
    removeExpired_run env (expiredIds env s) s (nodup_expiredIds hs env) hplain hfiles
  unfold pruneExpired
  rw [Call.run_read_bind]
  cases removal with
  | error e =>
    refine ⟨.error e, Call.run_bind_error hrun _, ?_⟩
    constructor
    · intro h
      cases h
    · intro h
      exact hremoval.mpr h.removes
  | ok u =>
    have hremoves := hremoval.mp rfl
    rw [Call.run_bind_ok hrun]
    by_cases hnone : expiredIds env s = []
    · have hskip : (expiredIds env s).isEmpty = true := by simpa using hnone
      rw [hskip]
      exact ⟨.ok (), rfl, fun _ => ⟨hremoves, Or.inl hnone⟩, fun _ => rfl⟩
    · have hskip : (expiredIds env s).isEmpty = false := by simpa using hnone
      rw [hskip]
      have hsyncs : PruneSucceeds env s ↔
          env.fails .openPruned = false ∧ env.fails .syncPruned = false :=
        ⟨fun h => h.syncs.resolve_left hnone, fun h => ⟨hremoves, Or.inr h⟩⟩
      rw [hsyncs]
      show ∃ result, (attempt env.fails .openPruned >>= fun _ =>
        attempt env.fails .syncPruned).run (pruned env s) = _ ∧ _
      cases hopen : env.fails .openPruned with
      | true => exact ⟨_, attempt_fail hopen _ _, by simp⟩
      | false =>
        rw [attempt_pass hopen, attempt_run]
        exact ⟨_, rfl, by cases env.fails .syncPruned <;> simp⟩

/-- The steps up to the rename all happen. -/
structure Renamed (env : Surroundings) : Prop where
  creates : env.fails .createFile = false
  writes : env.fails .writeFile = false
  syncs : env.fails .syncFile = false
  renames : env.fails .renameFile = false

/-- The directory is opened and synced. -/
structure Synced (env : Surroundings) : Prop where
  opens : env.fails .openResources = false
  syncs : env.fails .syncResources = false

/-- The bytes of the resource are written and renamed. -/
structure Written (format : FileFormat β) (env : Surroundings) (r : ResponseResource) (bytes : β) :
    Prop where
  bytes_eq : format.toVecPretty r = .ok bytes
  renamed : Renamed env

inductive Published (format : FileFormat β) (env : Surroundings) (r : ResponseResource)
    (s : FileResponseResourceStore β) :
    Except StoreError Unit → FileResponseResourceStore β → Prop
  | refused (e : StoreError) (hwritten : ∀ bytes, ¬ Written format env r bytes) :
      Published format env r s (.error e) s
  | unsynced (e : StoreError) (bytes : β) (hwritten : Written format env r bytes)
      (hsync : ¬ Synced env) :
      Published format env r s (.error e) (withFile s (format.resourcePath r.id) bytes)
  | stored (bytes : β) (hwritten : Written format env r bytes) (hsync : Synced env) :
      Published format env r s (.ok ()) (withResource s (format.resourcePath r.id) bytes r)

theorem sync_run (env : Surroundings) (s : FileResponseResourceStore β) :
    ∃ result, (attempt env.fails .openResources >>= fun _ =>
        attempt env.fails .syncResources).run s = .returns result s ∧
      (result = .ok () ↔ Synced env) := by
  cases hopen : env.fails .openResources with
  | true =>
    refine ⟨_, attempt_fail hopen _ _, ?_⟩
    constructor
    · intro h
      cases h
    · intro h
      rw [h.opens] at hopen
      cases hopen
  | false =>
    rw [attempt_pass hopen, attempt_run]
    refine ⟨_, rfl, ?_⟩
    cases hsync : env.fails .syncResources with
    | true =>
      constructor
      · intro h
        cases h
      · intro h
        rw [h.syncs] at hsync
        cases hsync
    | false => exact ⟨fun _ => ⟨hopen, hsync⟩, fun _ => rfl⟩

theorem writeResource_run (format : FileFormat β) (env : Surroundings) (r : ResponseResource)
    (s : FileResponseResourceStore β) :
    ((∀ bytes, ¬ Written format env r bytes) ∧
        ∃ e, (writeResource format env r).run s = .returns (.error e) s) ∨
      ∃ bytes result, Written format env r bytes ∧ (writeResource format env r).run s =
        .returns result (withFile s (format.resourcePath r.id) bytes) ∧
        (result = .ok () ↔ Synced env) := by
  unfold writeResource
  cases hbytes : format.toVecPretty r with
  | error message =>
    refine Or.inl ⟨fun bytes h => ?_, _, rfl⟩
    rw [h.bytes_eq] at hbytes
    cases hbytes
  | ok bytes =>
  change _ ∨ ∃ bytes' result, _ ∧ (attempt env.fails .createFile >>= _).run s = _ ∧ _
  have hstart : ∀ f : β → StoreCall β Unit, (Call.ofExcept
      ((Except.ok bytes : Except String β).mapError StoreError.malformed) >>= f).run s =
        (f bytes).run s := fun f => rfl
  rw [hstart]
  cases hcreate : env.fails .createFile with
  | true =>
    exact Or.inl ⟨fun _ h => by simp [h.renamed.creates] at hcreate, _, attempt_fail hcreate _ _⟩
  | false =>
  rw [attempt_pass hcreate]
  cases hwrite : env.fails .writeFile with
  | true =>
    exact Or.inl ⟨fun _ h => by simp [h.renamed.writes] at hwrite, _, attempt_fail hwrite _ _⟩
  | false =>
  rw [attempt_pass hwrite]
  cases hsync : env.fails .syncFile with
  | true =>
    exact Or.inl ⟨fun _ h => by simp [h.renamed.syncs] at hsync, _, attempt_fail hsync _ _⟩
  | false =>
  rw [attempt_pass hsync]
  cases hrename : env.fails .renameFile with
  | true =>
    exact Or.inl ⟨fun _ h => by simp [h.renamed.renames] at hrename, _, attempt_fail hrename _ _⟩
  | false =>
  rw [attempt_pass hrename, Call.run_update_bind]
  obtain ⟨result, hrun, hsynced⟩ := sync_run env (withFile s (format.resourcePath r.id) bytes)
  exact Or.inr ⟨bytes, result, ⟨hbytes, ⟨hcreate, hwrite, hsync, hrename⟩⟩, hrun, hsynced⟩

theorem publish_run (format : FileFormat β) (env : Surroundings) (r : ResponseResource)
    (s : FileResponseResourceStore β) : ∃ result t,
      (writeResource format env r >>= fun _ => insertRecovered r).run s = .returns result t ∧
      Published format env r s result t := by
  rcases writeResource_run format env r s with
    ⟨hwritten, e, hrun⟩ | ⟨bytes, result, hwritten, hrun, hsync⟩
  · exact ⟨_, _, Call.run_bind_error hrun _, .refused e hwritten⟩
  · cases result with
    | error e =>
      have hunsynced : ¬ Synced env := fun h => by cases hsync.mpr h
      exact ⟨_, _, Call.run_bind_error hrun _, .unsynced e bytes hwritten hunsynced⟩
    | ok u => exact ⟨_, _, Call.run_bind_ok hrun _, .stored bytes hwritten (hsync.mp rfl)⟩

inductive PutEffect (format : FileFormat β) (env : Surroundings) (r : ResponseResource)
    (s : FileResponseResourceStore β) :
    Except StoreError Unit → FileResponseResourceStore β → Prop
  | unpruned (e : StoreError) (hprune : ¬ PruneSucceeds env s) :
      PutEffect format env r s (.error e) (pruned env s)
  | published {result : Except StoreError Unit} {t : FileResponseResourceStore β}
      (hprune : PruneSucceeds env s) (hpublish : Published format env r (pruned env s) result t) :
      PutEffect format env r s result t

theorem put_run (hs : Agrees format s) (env : Surroundings) (r : ResponseResource) :
    ∃ result t, (put format env r).run s = .returns result t ∧
      PutEffect format env r s result t := by
  obtain ⟨pruning, hrun, hprune⟩ := pruneExpired_run hs env
  cases pruning with
  | error e =>
    have hfails : ¬ PruneSucceeds env s := fun h => by cases hprune.mpr h
    exact ⟨_, _, Call.run_bind_error hrun _, .unpruned e hfails⟩
  | ok u =>
    obtain ⟨result, t, hpublish, heffect⟩ := publish_run format env r (pruned env s)
    refine ⟨result, t, ?_, .published (hprune.mp rfl) heffect⟩
    rw [← hpublish]
    exact Call.run_bind_ok hrun _

/-- A successor of the base may be stored. -/
structure Extensible (s : FileResponseResourceStore β) (baseId : String) (expectedRevision : ℕ) :
    Prop where
  based : ∃ base, s.recovered.lookup baseId = some base ∧ base.lineageRevision = expectedRevision
  unextended : s.hasSuccessor baseId = false

inductive SuccessorEffect (format : FileFormat β) (env : Surroundings) (baseId : String)
    (expectedRevision : ℕ) (r : ResponseResource) (s : FileResponseResourceStore β) :
    Except StoreError Unit → FileResponseResourceStore β → Prop
  | unpruned (e : StoreError) (hprune : ¬ PruneSucceeds env s) :
      SuccessorEffect format env baseId expectedRevision r s (.error e) (pruned env s)
  | refused (e : StoreError) (hbase : ¬ Extensible (pruned env s) baseId expectedRevision) :
      SuccessorEffect format env baseId expectedRevision r s (.error e) (pruned env s)
  | published {result : Except StoreError Unit} {t : FileResponseResourceStore β}
      (hprune : PruneSucceeds env s) (hbase : Extensible (pruned env s) baseId expectedRevision)
      (hpublish : Published format env r (pruned env s) result t) :
      SuccessorEffect format env baseId expectedRevision r s result t

theorem putSuccessor_run (hs : Agrees format s) (env : Surroundings) (baseId : String)
    (expectedRevision : ℕ) (r : ResponseResource) :
    ∃ result t, (putSuccessor format env baseId expectedRevision r).run s = .returns result t ∧
      SuccessorEffect format env baseId expectedRevision r s result t := by
  obtain ⟨pruning, hrun, hprune⟩ := pruneExpired_run hs env
  cases pruning with
  | error e =>
    have hfails : ¬ PruneSucceeds env s := fun h => by cases hprune.mpr h
    exact ⟨_, _, Call.run_bind_error hrun _, .unpruned e hfails⟩
  | ok u =>
  unfold putSuccessor
  rw [Call.run_bind_ok hrun, Call.run_read_bind]
  cases hlookup : (pruned env s).recovered.lookup baseId with
  | none =>
    refine ⟨_, _, Call.run_require_none_bind _ _ _, .refused _ fun h => ?_⟩
    obtain ⟨base, hbase, _⟩ := h.based
    rw [hlookup] at hbase
    cases hbase
  | some base =>
  rw [Call.run_require_some_bind]
  by_cases hrevision : base.lineageRevision = expectedRevision
  · rw [decide_eq_true hrevision, Call.run_check_true_bind]
    cases hsuccessor : (pruned env s).hasSuccessor baseId with
    | true =>
      refine ⟨_, _, Call.run_check_false_bind _ _ _, .refused _ fun h => ?_⟩
      rw [h.unextended] at hsuccessor
      cases hsuccessor
    | false =>
      rw [Bool.not_false, Call.run_check_true_bind]
      obtain ⟨result, t, hpublish, heffect⟩ := publish_run format env r (pruned env s)
      exact ⟨result, t, hpublish,
        .published (hprune.mp rfl) ⟨⟨base, hlookup, hrevision⟩, hsuccessor⟩ heffect⟩
  · rw [decide_eq_false hrevision]
    refine ⟨_, _, Call.run_check_false_bind _ _ _, .refused _ fun h => ?_⟩
    obtain ⟨v, hv, heq⟩ := h.based
    rw [hlookup] at hv
    cases hv
    exact hrevision heq

/-- The resource is stored and has no stored successor. -/
structure Deletable (s : FileResponseResourceStore β) (id : String) : Prop where
  present : (s.recovered.lookup id).isSome
  unextended : s.hasSuccessor id = false

inductive DeleteEffect (env : Surroundings) (id : String) (s : FileResponseResourceStore β) :
    Except StoreError Unit → FileResponseResourceStore β → Prop
  | refused (e : StoreError) (hdelete : ¬ (Deletable s id ∧ env.fails .removeFile = false)) :
      DeleteEffect env id s (.error e) s
  | unsynced (e : StoreError) (hdelete : Deletable s id) (hremove : env.fails .removeFile = false)
      (hsync : ¬ Synced env) : DeleteEffect env id s (.error e) (withoutFile s (.entry id))
  | deleted (hdelete : Deletable s id) (hremove : env.fails .removeFile = false)
      (hsync : Synced env) : DeleteEffect env id s (.ok ()) (without s [id])

theorem delete_run (hs : Agrees format s) (env : Surroundings) (id : String) :
    ∃ result t, (delete format env id).run s = .returns result t ∧
      DeleteEffect env id s result t := by
  unfold delete
  rw [Call.run_read_bind]
  cases hlookup : s.recovered.lookup id with
  | none =>
    refine ⟨_, _, Call.run_check_false_bind _ _ _, .refused _ fun h => ?_⟩
    have hpresent := h.1.present
    rw [hlookup] at hpresent
    cases hpresent
  | some r =>
  rw [Option.isSome_some, Call.run_check_true_bind]
  cases hsuccessor : s.hasSuccessor id with
  | true =>
    refine ⟨_, _, Call.run_check_false_bind _ _ _, .refused _ fun h => ?_⟩
    rw [h.1.unextended] at hsuccessor
    cases hsuccessor
  | false =>
  rw [Bool.not_false, Call.run_check_true_bind]
  have hdelete : Deletable s id := ⟨by rw [hlookup]; rfl, hsuccessor⟩
  cases hremove : env.fails .removeFile with
  | true =>
    refine ⟨_, _, Call.run_bind_error (removeFile_fail hremove s) _, .refused _ fun h => ?_⟩
    rw [h.2] at hremove
    cases hremove
  | false =>
  have hfile : (s.resources.lookup (.entry id)).isSome := hs.file (by rw [hlookup]; rfl)
  rw [hs.plain id r hlookup, Call.run_bind_ok (removeFile_pass hremove hfile)]
  cases hopen : env.fails .openResources with
  | true =>
    have hsync : ¬ Synced env := fun h => by simp [h.opens] at hopen
    exact ⟨_, _, attempt_fail hopen _ _, .unsynced _ hdelete hremove hsync⟩
  | false =>
  rw [attempt_pass hopen]
  cases hsynced : env.fails .syncResources with
  | true =>
    have hsync : ¬ Synced env := fun h => by simp [h.syncs] at hsynced
    exact ⟨_, _, attempt_fail hsynced _ _, .unsynced _ hdelete hremove hsync⟩
  | false =>
  rw [attempt_pass hsynced]
  exact ⟨_, _, rfl, .deleted hdelete hremove ⟨hopen, hsynced⟩⟩

end Cusco.ResponseEffects
