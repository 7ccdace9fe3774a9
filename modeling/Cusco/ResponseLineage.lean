import Cusco.Lineages
import Cusco.ResponseAgreement
import Cusco.Responses

/-!
Lineages of stored responses. Storing a successor and deleting check the links
of a lineage; expiry removes resources by their age alone, when the store is
pruned and when it is recovered. A lineage stays whole exactly when expiry never
takes a resource whose stored successor it leaves.
-/

namespace Cusco.ResponseLineage

open Calls ResponseStore FileResponseResourceStore ResponseEffects ResponseRecovery
open ResponseAgreement Responses Lineages Runs

variable {s t : FileResponseResourceStore FileContent}
variable {env : Surroundings} {result : Except StoreError Unit}

inductive Action
  | remember (env : Surroundings) (resource : ResponseResource)
  | commitSuccessor (env : Surroundings) (baseId : String) (expectedRevision : ℕ)
      (resource : ResponseResource)
  | delete (env : Surroundings) (id owner : String)
  | reopen (stateRoot : String) (env : Recovery)

/-- A new response has an id of its own. -/
structure Fresh (s : ResponseService) (r : ResponseResource) : Prop where
  notStored : s.store.recovered.lookup r.id = none
  notTransient : s.transient.resources.lookup r.id = none

/-- A request continues only a response that its principal could retrieve. -/
def Continues (s : ResponseService) (baseId : String) (r : ResponseResource) : Prop :=
  ∀ base, s.store.recovered.lookup baseId = some base → base.owner = r.owner

/-- What the request handlers see to when they call the service. -/
def Promised (s : ResponseService) : Action → Prop
  | .remember _ r => Fresh s r ∧
      ∀ baseId, r.previousResponseId = some baseId → 1 ≤ r.lineageRevision ∧ Continues s baseId r
  | .commitSuccessor _ baseId expectedRevision r => Fresh s r ∧
      r.previousResponseId = some baseId ∧
      r.lineageRevision = saturatingIncrement expectedRevision ∧ Continues s baseId r
  | .delete .. => True
  | .reopen .. => True

/-- The state an action returns in; a restart is over when a directory opens. -/
def Returns (s : ResponseService) (t : ResponseService) : Action → Prop
  | .remember env r => ∃ result, (ResponseService.remember env r).run s = .returns result t
  | .commitSuccessor env baseId expectedRevision r => ∃ result,
      (ResponseService.commitSuccessor env baseId expectedRevision r).run s = .returns result t
  | .delete env id owner => ∃ result, (ResponseService.delete env id owner).run s =
      .returns result t
  | .reopen stateRoot env => ∃ store,
      openStore exactFiles stateRoot env s.store.resources = .returns (.ok ()) store ∧
        t = ResponseService.new store

def Step (s : ResponseService) (a : Action) (t : ResponseService) : Prop :=
  Promised s a ∧ Returns s t a

/-- A resource follows another of the same owner with the revision before its own. -/
def Follows (base r : ResponseResource) : Prop :=
  base.lineageRevision + 1 = r.lineageRevision ∧ base.owner = r.owner

def stored (s : FileResponseResourceStore FileContent) (id : String) : Option ResponseResource :=
  s.recovered.lookup id

/-- Every stored resource has at most one stored successor, and the resource that it
names as the previous one is stored with a revision exactly one less. -/
def Lineage (s : FileResponseResourceStore FileContent) : Prop :=
  Linked ResponseResource.previousResponseId Follows (stored s)

/-- The response that an owner retrieves under an id. -/
def retrieved (s : ResponseService) (owner id : String) : Option ResponseResource :=
  match s.retrieve id owner with
  | .ok r => some r
  | .error _ => none

structure Intact (s : ResponseService) : Prop where
  linked : Lineage s.store
  whole : ∀ id r, stored s.store id = some r →
    Whole ResponseResource.previousResponseId (retrieved s r.owner) id

/-- A context update is stored. -/
structure Commits (env : Surroundings) (s : FileResponseResourceStore FileContent) (baseId : String)
    (expectedRevision : ℕ) : Prop where
  prunes : PruneSucceeds env s
  extendsBase : Extensible (unexpired env s) baseId expectedRevision
  renames : Renamed env
  syncs : Synced env

/-- Pruning takes no resource whose stored successor it leaves. -/
def PruningSpares (env : Surroundings) (s : FileResponseResourceStore FileContent) : Prop :=
  Closed ResponseResource.previousResponseId (stored s) (fun id => id ∈ removedIds env s)

/-- Recovery takes no resource whose stored successor it leaves. -/
def RecoverySpares (env : Recovery) (s : FileResponseResourceStore FileContent) : Prop :=
  Closed ResponseResource.previousResponseId (stored s)
    (fun id => ∃ r, stored s id = some r ∧ expired r (env.clock id) = true)

def Spares (s : ResponseService) : Action → Prop
  | .remember env r => r.store = true → PruningSpares env s.store
  | .commitSuccessor env baseId expectedRevision _ => PruningSpares env s.store ∧
      (Commits env s.store baseId expectedRevision → expectedRevision < u64Max)
  | .delete .. => True
  | .reopen _ env => RecoverySpares env s.store

/-- The operation of the store that an action comes to. -/
def storeOperation (s : ResponseService) : Action → Option (Operation × Surroundings)
  | .remember env r =>
    if r.store then
      match r.previousResponseId with
      | some baseId => some (.putSuccessor baseId (r.lineageRevision - 1) r, env)
      | none => some (.put r, env)
    else
      none
  | .commitSuccessor env baseId expectedRevision r =>
    some (.putSuccessor baseId expectedRevision r, env)
  | .delete env id _ =>
    if (s.transient.resources.lookup id).isSome then none else some (.delete id, env)
  | .reopen .. => none

/-- No failure of the filesystem leaves the store apart from its directory. -/
def Undamaged (s : ResponseService) (a : Action) : Prop :=
  ∀ op, storeOperation s a = some op → SyncedAfterCommit exactFiles s.store op

theorem unextended_iff (s : FileResponseResourceStore FileContent) (baseId : String) :
    s.hasSuccessor baseId = false ↔
      ∀ id r, stored s id = some r → r.previousResponseId ≠ some baseId := by
  unfold FileResponseResourceStore.hasSuccessor
  rw [List.any_eq_false]
  constructor
  · intro h id r hr
    have hmem := (AList.mem_values_iff s.recovered r).mpr ⟨id, hr⟩
    simpa using h r hmem
  · intro h r hmem
    obtain ⟨id, hr⟩ := (AList.mem_values_iff s.recovered r).mp hmem
    simpa using h id r hr

theorem lineage_pruned_iff (hs : Lineage s) (env : Surroundings) :
    Lineage (pruned env s) ↔ PruningSpares env s := by
  apply hs.removal_iff (fun id => id ∈ removedIds env s)
  · intro id hid
    exact (lookup_without s (removedIds env s) id).trans (if_neg hid)
  · intro id hid
    exact (lookup_without s (removedIds env s) id).trans (if_pos hid)

theorem stored_pruned {id : String} {r : ResponseResource} (h : stored (pruned env s) id = some r) :
    stored s id = some r := by
  have hlookup := lookup_without s (removedIds env s) id
  unfold stored pruned at h
  rw [hlookup] at h
  split at h
  · cases h
  · exact h

theorem not_stored_pruned {id : String} (h : stored s id = none) (env : Surroundings) :
    stored (pruned env s) id = none := by
  cases hp : stored (pruned env s) id with
  | none => rfl
  | some v =>
    rw [stored_pruned hp] at h
    cases h

/-- Nothing in a linked store names a resource that is not stored. -/
theorem unnamed_of_not_stored (hs : Lineage s) {id : String} (h : stored s id = none) (k : String)
    (v : ResponseResource) (hv : stored s k = some v) : v.previousResponseId ≠ some id := by
  intro hname
  obtain ⟨w, hw, _⟩ := hs.based k v id hv hname
  rw [h] at hw
  cases hw

theorem stored_withResource (s : FileResponseResourceStore FileContent) (file : Location)
    (bytes : FileContent) (r : ResponseResource) :
    stored (withResource s file bytes r) r.id = some r :=
  AList.lookup_insert _

theorem stored_withResource_ne (s : FileResponseResourceStore FileContent) (file : Location)
    (bytes : FileContent) (r : ResponseResource) (id : String) (h : id ≠ r.id) :
    stored (withResource s file bytes r) id = stored s id :=
  AList.lookup_insert_ne h

/-- Storing a new resource undoes no damage that pruning did. -/
theorem lineage_of_withResource (hs : Lineage s) {file : Location} {bytes : FileContent}
    {r : ResponseResource} (hnew : stored s r.id = none)
    (h : Lineage (withResource (pruned env s) file bytes r)) : Lineage (pruned env s) := by
  apply Linked.of_insert h (not_stored_pruned hnew env)
  · intro k v hv
    exact unnamed_of_not_stored hs hnew k v (stored_pruned hv)
  · exact stored_withResource_ne _ _ _ r

theorem lineage_put_iff {r : ResponseResource} (hs : Lineage s) (hnew : stored s r.id = none)
    (hroot : r.previousResponseId = none) (h : PutEffect exactFiles env r s result t) :
    Lineage t ↔ PruningSpares env s := by
  rw [← lineage_pruned_iff hs env]
  cases h with
  | unpruned e hprune => exact Iff.rfl
  | published hprune hpublish =>
    cases hpublish with
    | refused e hwritten => exact Iff.rfl
    | unsynced e bytes hwritten hsync => exact Iff.rfl
    | stored bytes hwritten hsync =>
      constructor
      · exact lineage_of_withResource hs hnew
      · intro hpruned
        exact hpruned.insert_root (not_stored_pruned hnew env) hroot
          (stored_withResource _ _ _ r) (stored_withResource_ne _ _ _ r)

theorem lineage_successor_iff {baseId : String} {expectedRevision : ℕ} {r : ResponseResource}
    (hs : Lineage s) (hnew : stored s r.id = none) (hparent : r.previousResponseId = some baseId)
    (howner : ∀ base, stored s baseId = some base → base.owner = r.owner)
    (h : SuccessorEffect exactFiles env baseId expectedRevision r s result t) :
    Lineage t ↔ PruningSpares env s ∧
      (Commits env s baseId expectedRevision → expectedRevision + 1 = r.lineageRevision) := by
  rw [← lineage_pruned_iff hs env]
  have hunchanged : ¬ Commits env s baseId expectedRevision → (Lineage (pruned env s) ↔
      Lineage (pruned env s) ∧
        (Commits env s baseId expectedRevision → expectedRevision + 1 = r.lineageRevision)) :=
    fun hnot => ⟨fun h => ⟨h, fun hcommits => absurd hcommits hnot⟩, fun h => h.1⟩
  cases h with
  | unpruned e hprune => exact hunchanged fun h => hprune h.prunes
  | refused e hbase =>
    apply hunchanged
    intro h
    rw [pruned_of_succeeds h.prunes] at hbase
    exact hbase h.extendsBase
  | published hprune hbase hpublish =>
    cases hpublish with
    | refused e hwritten => exact hunchanged fun h => hwritten _ ⟨rfl, h.renames⟩
    | unsynced e bytes hwritten hsync => exact hunchanged fun h => hsync h.syncs
    | stored bytes hwritten hsync =>
      obtain ⟨base, hlookup, hrevision⟩ := hbase.based
      have hcommits : Commits env s baseId expectedRevision :=
        ⟨hprune, pruned_of_succeeds hprune ▸ hbase, hwritten.renamed, hsync⟩
      have hnone := not_stored_pruned hnew env
      have hne : baseId ≠ r.id := by
        intro heq
        have hsome : stored (pruned env s) r.id = some base := heq ▸ hlookup
        rw [hnone] at hsome
        cases hsome
      constructor
      · intro ht
        refine ⟨lineage_of_withResource hs hnew ht, fun _ => ?_⟩
        obtain ⟨w, hw, hfollows⟩ := ht.based r.id r baseId (stored_withResource _ _ _ r) hparent
        rw [stored_withResource_ne _ _ _ r baseId hne] at hw
        have hsame : w = base := Option.some.inj (hw.symm.trans hlookup)
        rw [← hrevision, ← hsame]
        exact hfollows.1
      · intro ht
        have hfollows : Follows base r :=
          ⟨hrevision ▸ ht.2 hcommits, howner base (stored_pruned hlookup)⟩
        exact ht.1.insert_next hnone hparent hlookup hfollows
          ((unextended_iff _ baseId).mp hbase.unextended) (stored_withResource _ _ _ r)
          (stored_withResource_ne _ _ _ r)

theorem lineage_of_delete {id : String} (hs : Lineage s) (h : DeleteEffect env id s result t) :
    Lineage t := by
  cases h with
  | refused e hdelete => exact hs
  | unsynced e hdelete hremove hsync => exact hs
  | deleted hdelete hremove hsync =>
    have hiff : Lineage (without s [id]) ↔ _ := hs.removal_iff (fun k => k ∈ [id])
      (fun k hk => (lookup_without s [id] k).trans (if_neg hk))
      (fun k hk => (lookup_without s [id] k).trans (if_pos hk))
    apply hiff.mpr
    intro k v base hv hbase hgone
    rw [List.mem_singleton.mp hgone] at hbase
    exact absurd hbase ((unextended_iff s id).mp hdelete.unextended k v hv)

theorem lineage_reopened_iff {env : Recovery} (hagrees : Agrees exactFiles s) (hs : Lineage s)
    (h : Opened exactFiles env s.resources t) : Lineage t ↔ RecoverySpares env s := by
  have hlookup : ∀ id, stored t id =
      (stored s id).filter (fun r => !expired r (env.clock id)) :=
    h.recovered_of_agrees hagrees
  apply hs.removal_iff
  · intro id hkept
    rw [hlookup]
    cases hid : stored s id with
    | none => rfl
    | some r =>
      have hexpired : expired r (env.clock id) = false :=
        Bool.eq_false_iff.mpr fun he => hkept ⟨r, hid, he⟩
      simp [Option.filter, hexpired]
  · intro id hgone
    obtain ⟨r, hid, hexpired⟩ := hgone
    rw [hlookup, hid]
    simp [Option.filter, hexpired]

/-- What carries a run: the store agrees with its directory, and no id is both
stored and transient. -/
structure Kept (s : ResponseService) : Prop where
  agrees : Agrees exactFiles s.store
  separate : ∀ id r, s.transient.resources.lookup id = some r → stored s.store id = none

/-- A step does nothing to the store, is an operation of the store, or a restart. -/
theorem step_cases {s t : ResponseService} {a : Action} (hstep : Step s a t) :
    (t.store = s.store) ∨
      (∃ op, storeOperation s a = some op ∧ ResponseAgreement.Step exactFiles s.store op t.store ∧
        t.transient = s.transient) ∨
      ∃ stateRoot env, a = .reopen stateRoot env ∧ Opened exactFiles env s.store.resources t.store ∧
        t.transient.resources = ∅ := by
  cases a with
  | remember env r =>
    obtain ⟨_, result, hrun⟩ := hstep
    unfold ResponseService.remember at hrun
    cases hstore : r.store with
    | false =>
      rw [hstore] at hrun
      cases hrun
      exact Or.inl rfl
    | true =>
      rw [hstore, if_pos rfl] at hrun
      cases hprevious : r.previousResponseId with
      | none =>
        rw [hprevious] at hrun
        obtain ⟨u, hu, rfl⟩ := of_onStore hrun
        exact Or.inr (Or.inl ⟨(.put r, env), by simp [storeOperation, hstore, hprevious],
          ⟨result, hu⟩, rfl⟩)
      | some baseId =>
        rw [hprevious] at hrun
        obtain ⟨u, hu, rfl⟩ := of_onStore hrun
        exact Or.inr (Or.inl ⟨(.putSuccessor baseId (r.lineageRevision - 1) r, env),
          by simp [storeOperation, hstore, hprevious], ⟨result, hu⟩, rfl⟩)
  | commitSuccessor env baseId expectedRevision r =>
    obtain ⟨_, result, hrun⟩ := hstep
    obtain ⟨u, hu, rfl⟩ := of_onStore hrun
    exact Or.inr (Or.inl ⟨_, rfl, ⟨result, hu⟩, rfl⟩)
  | delete env id owner =>
    obtain ⟨_, result, hrun⟩ := hstep
    rcases delete_cases hrun with rfl | ⟨hstore, _⟩ | ⟨hnone, u, hu, rfl⟩
    · exact Or.inl rfl
    · exact Or.inl hstore
    · exact Or.inr (Or.inl ⟨(.delete id, env), by simp [storeOperation, hnone],
        ⟨result, hu⟩, rfl⟩)
  | reopen stateRoot env =>
    obtain ⟨_, store, hopen, rfl⟩ := hstep
    exact Or.inr (Or.inr ⟨stateRoot, env, rfl, opened_of_openStore hopen, rfl⟩)

theorem plain_exactFiles (directory : Directory FileContent) : Plain exactFiles directory :=
  fun _ _ _ => rfl

theorem readsBack_exactFiles {r : ResponseResource} {bytes : FileContent}
    (h : Written exactFiles env r bytes) : ReadsBack exactFiles r bytes := by
  refine ⟨rfl, ?_⟩
  cases Except.ok.inj h.bytes_eq
  rfl

theorem agrees_of_step {s t : ResponseService} {a : Action} (hs : Agrees exactFiles s.store)
    (hstep : Step s a t) (hundamaged : Undamaged s a) : Agrees exactFiles t.store := by
  rcases step_cases hstep with hstore | ⟨op, hop, hrun, _⟩ | ⟨_, env, _, hopened, _⟩
  · rw [hstore]
    exact hs
  · exact (agrees_iff hs hrun).mpr (hundamaged op hop)
  · exact hopened.agrees (plain_exactFiles _)

theorem stored_of_published {r v : ResponseResource} {id : String}
    (h : Published exactFiles env r (pruned env s) result t) (hv : stored t id = some v) :
    id = r.id ∨ stored s id = some v := by
  cases h with
  | refused e hwritten => exact Or.inr (stored_pruned hv)
  | unsynced e bytes hwritten hsync => exact Or.inr (stored_pruned hv)
  | stored bytes hwritten hsync =>
    by_cases hid : id = r.id
    · exact Or.inl hid
    · rw [stored_withResource_ne _ _ _ r id hid] at hv
      exact Or.inr (stored_pruned hv)

theorem stored_of_put {r v : ResponseResource} {id : String}
    (h : PutEffect exactFiles env r s result t) (hv : stored t id = some v) :
    id = r.id ∨ stored s id = some v := by
  cases h with
  | unpruned e hprune => exact Or.inr (stored_pruned hv)
  | published hprune hpublish => exact stored_of_published hpublish hv

theorem stored_of_successor {baseId : String} {expectedRevision : ℕ} {r v : ResponseResource}
    {id : String} (h : SuccessorEffect exactFiles env baseId expectedRevision r s result t)
    (hv : stored t id = some v) : id = r.id ∨ stored s id = some v := by
  cases h with
  | unpruned e hprune => exact Or.inr (stored_pruned hv)
  | refused e hbase => exact Or.inr (stored_pruned hv)
  | published hprune hbase hpublish => exact stored_of_published hpublish hv

theorem stored_of_delete {key id : String} {v : ResponseResource}
    (h : DeleteEffect env key s result t) (hv : stored t id = some v) : stored s id = some v := by
  cases h with
  | refused e hdelete => exact hv
  | unsynced e hdelete hremove hsync => exact hv
  | deleted hdelete hremove hsync =>
    have hlookup : stored (without s [key]) id = _ := lookup_without s [key] id
    rw [hlookup] at hv
    split at hv
    · cases hv
    · exact hv

/-- The store of a step holds at most one new resource, under an id that is not transient. -/
theorem separate_of_step {s t : ResponseService} {a : Action} (hs : Kept s)
    (hstep : Step s a t) (id : String) (r : ResponseResource)
    (h : t.transient.resources.lookup id = some r) : stored t.store id = none := by
  cases hv : stored t.store id with
  | none => rfl
  | some v =>
    have hcontra : ∀ {w x}, s.transient.resources.lookup id = some w →
        stored s.store id = some x → False := by
      intro w x hw hx
      rw [hs.separate id w hw] at hx
      cases hx
    have hfresh : ∀ {z w}, Fresh s z → s.transient.resources.lookup id = some w →
        id = z.id ∨ stored s.store id = some v → False := by
      intro z w hz hw hcases
      rcases hcases with rfl | hx
      · rw [hz.notTransient] at hw
        cases hw
      · exact hcontra hw hx
    exfalso
    cases a with
    | remember env z =>
      obtain ⟨⟨hnew, _⟩, result, hrun⟩ := hstep
      unfold ResponseService.remember at hrun
      cases hstore : z.store with
      | false =>
        rw [hstore] at hrun
        cases hrun
        rcases lookup_rememberTransient h with rfl | hold
        · rw [show stored s.store z.id = none from hnew.notStored] at hv
          cases hv
        · exact hcontra hold hv
      | true =>
        rw [hstore, if_pos rfl] at hrun
        cases hprevious : z.previousResponseId with
        | none =>
          rw [hprevious] at hrun
          obtain ⟨u, hu, rfl⟩ := of_onStore hrun
          exact hfresh hnew h (stored_of_put (of_run (put_run hs.agrees env z) hu) hv)
        | some baseId =>
          rw [hprevious] at hrun
          obtain ⟨u, hu, rfl⟩ := of_onStore hrun
          exact hfresh hnew h
            (stored_of_successor (of_run (putSuccessor_run hs.agrees env baseId _ z) hu) hv)
    | commitSuccessor env baseId expectedRevision z =>
      obtain ⟨⟨hnew, _⟩, result, hrun⟩ := hstep
      obtain ⟨u, hu, rfl⟩ := of_onStore hrun
      exact hfresh hnew h
        (stored_of_successor (of_run (putSuccessor_run hs.agrees env baseId _ z) hu) hv)
    | delete env key owner =>
      obtain ⟨_, result, hrun⟩ := hstep
      rcases delete_cases hrun with rfl | ⟨hstore, htransient⟩ | ⟨_, u, hu, rfl⟩
      · exact hcontra h hv
      · rw [htransient, AList.lookup_erase_ite] at h
        rw [hstore] at hv
        split at h
        · cases h
        · exact hcontra h hv
      · exact hcontra h (stored_of_delete (of_run (delete_run hs.agrees env key) hu) hv)
    | reopen stateRoot env =>
      obtain ⟨_, store, _, rfl⟩ := hstep
      cases h

theorem kept_of_step {s t : ResponseService} {a : Action} (hs : Kept s) (hstep : Step s a t)
    (hundamaged : Undamaged s a) : Kept t :=
  ⟨agrees_of_step hs.agrees hstep hundamaged, separate_of_step hs hstep⟩

/-- A step keeps the lineages exactly when expiry spares them. -/
theorem lineage_step_iff {s t : ResponseService} {a : Action} (hs : Kept s)
    (hl : Lineage s.store) (hstep : Step s a t) : Lineage t.store ↔ Spares s a := by
  cases a with
  | remember env r =>
    obtain ⟨⟨hnew, hcontinues⟩, result, hrun⟩ := hstep
    show Lineage t.store ↔ (r.store = true → PruningSpares env s.store)
    unfold ResponseService.remember at hrun
    cases hstore : r.store with
    | false =>
      rw [hstore] at hrun
      cases hrun
      exact ⟨fun _ h => (nomatch h), fun _ => hl⟩
    | true =>
      rw [hstore, if_pos rfl] at hrun
      rw [forall_prop_of_true rfl]
      cases hprevious : r.previousResponseId with
      | none =>
        rw [hprevious] at hrun
        obtain ⟨u, hu, rfl⟩ := of_onStore hrun
        exact lineage_put_iff hl hnew.notStored hprevious (of_run (put_run hs.agrees env r) hu)
      | some baseId =>
        rw [hprevious] at hrun
        obtain ⟨u, hu, rfl⟩ := of_onStore hrun
        obtain ⟨hrevision, howner⟩ := hcontinues baseId hprevious
        have hiff := lineage_successor_iff hl hnew.notStored hprevious howner
          (of_run (putSuccessor_run hs.agrees env baseId _ r) hu)
        rw [hiff]
        exact ⟨fun h => h.1, fun h => ⟨h, fun _ => by omega⟩⟩
  | commitSuccessor env baseId expectedRevision r =>
    obtain ⟨⟨hnew, hprevious, hrevision, howner⟩, result, hrun⟩ := hstep
    obtain ⟨u, hu, rfl⟩ := of_onStore hrun
    have hiff := lineage_successor_iff hl hnew.notStored hprevious howner
      (of_run (putSuccessor_run hs.agrees env baseId _ r) hu)
    have hnext : expectedRevision + 1 = r.lineageRevision ↔ expectedRevision < u64Max := by
      rw [hrevision, saturatingIncrement]
      omega
    show Lineage u ↔ PruningSpares env s.store ∧
      (Commits env s.store baseId expectedRevision → expectedRevision < u64Max)
    rw [hiff, hnext]
  | delete env id owner =>
    obtain ⟨_, result, hrun⟩ := hstep
    refine ⟨fun _ => trivial, fun _ => ?_⟩
    rcases delete_cases hrun with rfl | ⟨hstore, _⟩ | ⟨_, u, hu, rfl⟩
    · exact hl
    · rw [hstore]
      exact hl
    · exact lineage_of_delete hl (of_run (delete_run hs.agrees env id) hu)
  | reopen stateRoot env =>
    obtain ⟨_, store, hopen, rfl⟩ := hstep
    exact lineage_reopened_iff hs.agrees hl (opened_of_openStore hopen)

theorem intact_iff {s : ResponseService} (hs : Kept s) : Intact s ↔ Lineage s.store := by
  refine ⟨fun h => h.linked, fun h => ⟨h, ?_⟩⟩
  intro id r hr
  apply h.whole ResponseResource.lineageRevision _ (fun v => v.owner = r.owner) _ _ id r hr rfl
  · intro w v hfollows
    have hrevision := hfollows.1
    omega
  · intro w v hfollows howner
    exact hfollows.2.trans howner
  · intro k v hv howner
    have hnone : s.transient.resources.lookup k = none := by
      cases hk : s.transient.resources.lookup k with
      | none => rfl
      | some w =>
        rw [hs.separate k w hk] at hv
        cases hv
    have hget : s.store.get k = .ok v := by
      unfold FileResponseResourceStore.get
      rw [show s.store.recovered.lookup k = some v from hv]
    have hretrieve : s.retrieve k r.owner = .ok v := by
      unfold ResponseService.retrieve
      rw [hnone, hget]
      exact if_pos howner
    unfold retrieved
    rw [hretrieve]

theorem kept_new (hs : Agrees exactFiles s) : Kept (ResponseService.new s) :=
  ⟨hs, fun _ _ h => (nomatch h)⟩

/-- From any directory that opens with whole lineages, and in every run of the
service in which no failure leaves the store apart from its directory, the lineages
stay whole exactly when expiry spares every resource whose stored successor it
leaves and no context update is stored on the last revision. -/
theorem lineage_iff (stateRoot : String) (env : Recovery) (directory : Directory FileContent)
    (store : FileResponseResourceStore FileContent)
    (hopen : openStore exactFiles stateRoot env directory = .returns (.ok ()) store)
    (hlineage : Lineage store) (run : List (Action × ResponseService))
    (hrun : IsRun Step (ResponseService.new store) run)
    (hundamaged : Meets Undamaged (ResponseService.new store) run) :
    (Intact (ResponseService.new store) ∧ ∀ x ∈ run, Intact x.2) ↔
      Meets Spares (ResponseService.new store) run := by
  have hkept := kept_new ((opened_of_openStore hopen).agrees (plain_exactFiles _))
  have hstart : Intact (ResponseService.new store) := (intact_iff hkept).mpr hlineage
  have hiff := along_iff_meets (fun s a t => Step s a t ∧ Undamaged s a) Kept Intact Spares
    (fun _ _ _ hs h => kept_of_step hs h.1 h.2)
    (fun _ _ _ hs hi h => by
      rw [intact_iff (kept_of_step hs h.1 h.2)]
      exact lineage_step_iff hs hi.linked h.1)
    (ResponseService.new store) run hkept hstart (isRun_of_meets _ _ _ run hrun hundamaged)
  exact ⟨fun h => hiff.mp h.2, fun h => ⟨hstart, hiff.mpr h⟩⟩

def endState (s : ResponseService) : Outcome ResponseService StoreError Unit → ResponseService
  | .returns _ t => t
  | .panics => s

def afterAction (s : ResponseService) : Action → ResponseService
  | .remember env r => endState s ((ResponseService.remember env r).run s)
  | .commitSuccessor env baseId expectedRevision r =>
    endState s ((ResponseService.commitSuccessor env baseId expectedRevision r).run s)
  | .delete env id owner => endState s ((ResponseService.delete env id owner).run s)
  | .reopen stateRoot env =>
    match openStore exactFiles stateRoot env s.store.resources with
    | .returns _ store => ResponseService.new store
    | .panics => s

def freshService : ResponseService := ResponseService.new fresh

def successorSample : ResponseResource := ⟨"b", "owner", 100, true, some "a", 1, ""⟩

theorem lineage_fresh : Lineage fresh := Linked.empty

/-- A base and its successor are stored, and both are gone after a restart. -/
def expiredTogether : List (Action × ResponseService) :=
  follow afterAction freshService [.remember (failing 0 []) (sample "a"),
    .commitSuccessor (failing 100 []) "a" 0 successorSample,
    .reopen "root" ⟨fun _ => responseRetentionSeconds + 100, fun _ => false⟩]

theorem isRun_expiredTogether : IsRun Step freshService expiredTogether := by
  refine ⟨⟨⟨⟨rfl, rfl⟩, fun _ h => (nomatch h)⟩, _, rfl⟩, ⟨⟨⟨by decide, rfl⟩, rfl, by decide, ?_⟩,
    _, rfl⟩, ⟨trivial, _, rfl, rfl⟩, trivial⟩
  intro base h
  cases h
  rfl

theorem whole_lineage_expires : Intact freshService ∧ ∀ x ∈ expiredTogether, Intact x.2 := by
  apply (lineage_iff "root" healthy ∅ fresh rfl lineage_fresh expiredTogether
    isRun_expiredTogether ?_).mpr
  · refine ⟨?_, ⟨?_, ?_⟩, ?_, trivial⟩
    · intro _ _ _ _ h
      cases h
    · intro _ _ _ _ _ hgone
      exact absurd hgone List.not_mem_nil
    · intro _
      decide
    · intro id r _ hr _ _
      have hall : ∀ v ∈ (afterAction (afterAction freshService (.remember (failing 0 [])
          (sample "a"))) (.commitSuccessor (failing 100 []) "a" 0
            successorSample)).store.recovered.values,
          expired v (responseRetentionSeconds + 100) = true := by decide
      exact ⟨r, hr, hall r ((AList.mem_values_iff _ r).mpr ⟨id, hr⟩)⟩
  · refine ⟨?_, ?_, ?_, trivial⟩
    · intro op hop
      cases hop
      exact fun _ _ h => Or.inl ⟨⟨rfl, rfl⟩, readsBack_exactFiles h⟩
    · intro op hop
      cases hop
      exact fun _ _ _ h => Or.inl ⟨⟨rfl, rfl⟩, readsBack_exactFiles h⟩
    · intro op hop
      cases hop

/-- A later request prunes an expired base and leaves its successor. -/
def baseExpires : List (Action × ResponseService) :=
  follow afterAction freshService [.remember (failing 0 []) (sample "a"),
    .remember (failing 100 []) successorSample,
    .remember (failing responseRetentionSeconds []) (sample "c")]

theorem base_expires_before_successor : IsRun Step freshService baseExpires ∧
    ¬ ∀ x ∈ baseExpires, Intact x.2 := by
  constructor
  · refine ⟨⟨⟨⟨rfl, rfl⟩, fun _ h => (nomatch h)⟩, _, rfl⟩, ⟨⟨⟨by decide, rfl⟩, ?_⟩, _, rfl⟩,
      ⟨⟨⟨by decide, rfl⟩, fun _ h => (nomatch h)⟩, _, rfl⟩, trivial⟩
    intro baseId h
    cases h
    refine ⟨by decide, fun base hbase => ?_⟩
    cases hbase
    rfl
  · intro h
    have hlast := h (_, _) (List.mem_cons_of_mem _ (List.mem_cons_of_mem _ List.mem_cons_self))
    obtain ⟨w, hw, _⟩ := hlast.linked.based "b" successorSample "a" rfl rfl
    cases hw

end Cusco.ResponseLineage
