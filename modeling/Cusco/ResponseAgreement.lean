import Mathlib.Data.List.TakeWhile
import Cusco.ResponseRecovery
import Cusco.Runs

/-!
Agreement of the response store with its directory under failing filesystem
steps. A failed step is harmless unless it comes after the rename or the removal
that commits an operation: the directory is then synced before the map changes,
and an error in between leaves the two apart.
-/

namespace Cusco.ResponseAgreement

open Calls ResponseStore FileResponseResourceStore ResponseEffects ResponseRecovery Runs

variable {β : Type} {format : FileFormat β} {s t : FileResponseResourceStore β}

inductive Operation
  | put (resource : ResponseResource)
  | putSuccessor (baseId : String) (expectedRevision : ℕ) (resource : ResponseResource)
  | delete (id : String)

def perform (format : FileFormat β) (env : Surroundings) : Operation → StoreCall β Unit
  | .put resource => put format env resource
  | .putSuccessor baseId expectedRevision resource =>
    putSuccessor format env baseId expectedRevision resource
  | .delete id => delete format env id

def Step (format : FileFormat β) (s : FileResponseResourceStore β) (a : Operation × Surroundings)
    (t : FileResponseResourceStore β) : Prop :=
  ∃ result, (perform format a.2 a.1).run s = .returns result t

/-- The map and the directory hold the resource, which a recovery reads as itself. -/
def Holds (format : FileFormat β) (t : FileResponseResourceStore β) (r : ResponseResource) : Prop :=
  t.recovered.lookup r.id = some r ∧ readBack format t r.id = some (.ok r)

/-- The operation has changed both the map and the directory. -/
def Updated (format : FileFormat β) (t : FileResponseResourceStore β) : Operation → Prop
  | .put r => Holds format t r
  | .putSuccessor _ _ r => Holds format t r
  | .delete id => t.recovered.lookup id = none ∧ readBack format t id = none

/-- Reopening the directory recovers the unexpired part of the map, and a put
succeeds when its own filesystem steps do. -/
structure Consistent (format : FileFormat β) (s : FileResponseResourceStore β) : Prop where
  reopens : ∀ (stateRoot : String) (env : Recovery), (∀ step, env.fails step = false) →
    ∃ t, openStore format stateRoot env s.resources = .returns (.ok ()) t ∧
      ∀ id, t.recovered.lookup id =
        (s.recovered.lookup id).filter (fun r => !expired r (env.clock id))
  accepts : ∀ (env : Surroundings) (r : ResponseResource) (bytes : β),
    (∀ step, env.fails step = false) → format.toVecPretty r = .ok bytes →
    ∃ t, (put format env r).run s = .returns (.ok ()) t

structure Contract (format : FileFormat β) (s : FileResponseResourceStore β)
    (a : Operation × Surroundings) (t : FileResponseResourceStore β) : Prop where
  errAgrees : ∀ e, (perform format a.2 a.1).run s = .returns (.error e) t →
    SameResources format t
  okUpdates : (perform format a.2 a.1).run s = .returns (.ok ()) t → Updated format t a.1
  consistent : Consistent format t

def unexpired (env : Surroundings) (s : FileResponseResourceStore β) :
    FileResponseResourceStore β :=
  without s (expiredIds env s)

/-- A rename that happens is followed by a sync of the directory, and the resource reads back
as itself in a file named after it; or the sync fails, and the file tells a recovery nothing
that the map does not hold. -/
def WriteSynced (format : FileFormat β) (env : Surroundings) (r : ResponseResource)
    (s : FileResponseResourceStore β) : Prop :=
  ∀ bytes, Written format env r bytes → (Synced env ∧ ReadsBack format r bytes) ∨
    (¬ Synced env ∧ Known format (unexpired env s) (format.resourcePath r.id) bytes)

/-- No failure comes between the commit of an operation and its update of the map, and what
is stored reads back. -/
def SyncedAfterCommit (format : FileFormat β) (s : FileResponseResourceStore β)
    (a : Operation × Surroundings) : Prop :=
  match a.1 with
  | .put r => PruneSucceeds a.2 s → WriteSynced format a.2 r s
  | .putSuccessor baseId expectedRevision r =>
    PruneSucceeds a.2 s → Extensible (unexpired a.2 s) baseId expectedRevision →
      WriteSynced format a.2 r s
  | .delete id => Deletable s id → a.2.fails .removeFile = false → Synced a.2

theorem pruned_of_succeeds {env : Surroundings} {s : FileResponseResourceStore β}
    (h : PruneSucceeds env s) : pruned env s = unexpired env s := by
  have hall : removedIds env s = expiredIds env s := by
    apply List.takeWhile_eq_self_iff.mpr
    intro id hid
    simp [h.removes id hid]
  unfold pruned unexpired
  rw [hall]

theorem of_run {x : StoreCall β Unit} {r : Except StoreError Unit}
    {P : Except StoreError Unit → FileResponseResourceStore β → Prop}
    (hx : ∃ result u, x.run s = .returns result u ∧ P result u) (h : x.run s = .returns r t) :
    P r t := by
  obtain ⟨result, u, hrun, hp⟩ := hx
  rw [h] at hrun
  cases hrun
  exact hp

theorem consistent_of_agrees {s : FileResponseResourceStore β} (hs : Agrees format s) :
    Consistent format s := by
  constructor
  · intro stateRoot env hfails
    obtain ⟨t, hrun, hopened⟩ := openStore_of_agrees hs stateRoot env hfails
    exact ⟨t, hrun, hopened.recovered_of_agrees hs⟩
  · intro env r bytes hfails hbytes
    obtain ⟨result, t, hrun, heffect⟩ := put_run hs env r
    have hprune : PruneSucceeds env s :=
      ⟨fun id _ => hfails _, Or.inr ⟨hfails _, hfails _⟩⟩
    have hwritten : Written format env r bytes :=
      ⟨hbytes, hfails _, hfails _, hfails _, hfails _⟩
    have hsync : Synced env := ⟨hfails _, hfails _⟩
    cases heffect with
    | unpruned e h => exact absurd hprune h
    | published _ hpublish =>
      cases hpublish with
      | refused e h => exact absurd hwritten (h bytes)
      | unsynced e _ _ h => exact absurd hsync h
      | stored _ _ _ => exact ⟨_, hrun⟩

/-- The state a write leaves agrees with its directory exactly when the write is synced. -/
theorem agrees_published_iff {env : Surroundings} {r : ResponseResource}
    {result : Except StoreError Unit} (hs : Agrees format s) (hprune : PruneSucceeds env s)
    (h : Published format env r (pruned env s) result t) :
    Agrees format t ↔ WriteSynced format env r s := by
  have hpruned := hs.pruned env
  have hone : ∀ {bytes bytes'}, Written format env r bytes → Written format env r bytes' →
      bytes = bytes' := by
    intro bytes bytes' h h'
    exact Except.ok.inj (h.bytes_eq.symm.trans h'.bytes_eq)
  cases h with
  | refused e hwritten => exact ⟨fun _ bytes hr => absurd hr (hwritten bytes), fun _ => hpruned⟩
  | unsynced e bytes hwritten hsync =>
    rw [agrees_withFile_iff hpruned, pruned_of_succeeds hprune]
    constructor
    · intro hknown bytes' hwritten'
      rw [← hone hwritten hwritten']
      exact Or.inr ⟨hsync, hknown⟩
    · intro h
      rcases h bytes hwritten with ⟨hsynced, _⟩ | ⟨_, hknown⟩
      · exact absurd hsynced hsync
      · exact hknown
  | stored bytes hwritten hsync =>
    rw [agrees_withResource_iff hpruned]
    constructor
    · intro hreads bytes' hwritten'
      rw [← hone hwritten hwritten']
      exact Or.inl ⟨hsync, hreads⟩
    · intro h
      rcases h bytes hwritten with ⟨_, hreads⟩ | ⟨hunsynced, _⟩
      · exact hreads
      · exact absurd hsync hunsynced

/-- A step leaves a store that agrees with its directory exactly when no failure
comes between its commit and its update of the map and what it stores reads back. -/
theorem agrees_iff {a : Operation × Surroundings} (hs : Agrees format s)
    (hstep : Step format s a t) :
    Agrees format t ↔ SyncedAfterCommit format s a := by
  obtain ⟨op, env⟩ := a
  obtain ⟨result, hrun⟩ := hstep
  cases op with
  | put r =>
    show Agrees format t ↔ (PruneSucceeds env s → WriteSynced format env r s)
    have heffect := of_run (put_run hs env r) hrun
    cases heffect with
    | unpruned e hprune => exact ⟨fun _ h => absurd h hprune, fun _ => hs.pruned env⟩
    | published hprune hpublish =>
      rw [agrees_published_iff hs hprune hpublish]
      exact ⟨fun h _ => h, fun h => h hprune⟩
  | putSuccessor baseId expectedRevision r =>
    show Agrees format t ↔ (PruneSucceeds env s →
      Extensible (unexpired env s) baseId expectedRevision → WriteSynced format env r s)
    have heffect := of_run (putSuccessor_run hs env baseId expectedRevision r) hrun
    cases heffect with
    | unpruned e hprune => exact ⟨fun _ h => absurd h hprune, fun _ => hs.pruned env⟩
    | refused e hbase =>
      refine ⟨fun _ hprune h => ?_, fun _ => hs.pruned env⟩
      rw [← pruned_of_succeeds hprune] at h
      exact absurd h hbase
    | published hprune hbase hpublish =>
      rw [agrees_published_iff hs hprune hpublish]
      rw [pruned_of_succeeds hprune] at hbase
      exact ⟨fun h _ _ => h, fun h => h hprune hbase⟩
  | delete id =>
    show Agrees format t ↔ (Deletable s id → env.fails .removeFile = false → Synced env)
    have heffect := of_run (delete_run hs env id) hrun
    cases heffect with
    | refused e hdelete => exact ⟨fun _ h hr => absurd ⟨h, hr⟩ hdelete, fun _ => hs⟩
    | unsynced e hdelete hremove hsync =>
      constructor
      · intro h
        exact absurd h.same (not_same_withoutFile hdelete.present)
      · intro h
        exact absurd (h hdelete hremove) hsync
    | deleted hdelete hremove hsync => exact ⟨fun _ _ _ => hsync, fun _ => hs.without [id]⟩

/-- What a failed step leaves in the map was there before. -/
theorem recovered_of_error {op : Operation} {env : Surroundings} {e : StoreError}
    (hs : Agrees format s) (hrun : (perform format env op).run s = .returns (.error e) t)
    {id : String} {r : ResponseResource} (hr : t.recovered.lookup id = some r) :
    s.recovered.lookup id = some r := by
  have hpruned : (pruned env s).recovered.lookup id = some r →
      s.recovered.lookup id = some r := by
    intro h
    unfold pruned at h
    rw [lookup_without] at h
    split at h
    · cases h
    · exact h
  have hpublished : ∀ {v}, Published format env v (pruned env s) (.error e) t →
      s.recovered.lookup id = some r := by
    intro v h
    cases h with
    | refused _ hwritten => exact hpruned hr
    | unsynced _ bytes hwritten hsync => exact hpruned hr
  cases op with
  | put v =>
    have heffect := of_run (put_run hs env v) hrun
    cases heffect with
    | unpruned _ hprune => exact hpruned hr
    | published hprune hpublish => exact hpublished hpublish
  | putSuccessor baseId expectedRevision v =>
    have heffect := of_run (putSuccessor_run hs env baseId expectedRevision v) hrun
    cases heffect with
    | unpruned _ hprune => exact hpruned hr
    | refused _ hbase => exact hpruned hr
    | published hprune hbase hpublish => exact hpublished hpublish
  | delete key =>
    have heffect := of_run (delete_run hs env key) hrun
    cases heffect with
    | refused _ hdelete => exact hr
    | unsynced _ hdelete hremove hsync => exact hr

/-- A resource that is held after it was stored reads back. -/
theorem readsBack_of_holds {s : FileResponseResourceStore β} (hs : Agrees format s)
    {r : ResponseResource} {bytes : β}
    (h : Holds format (withResource s (format.resourcePath r.id) bytes r) r) :
    ReadsBack format r bytes := by
  have hread := h.2
  rw [readBack_insert format (s := s) rfl] at hread
  by_cases hplain : Location.entry r.id = format.resourcePath r.id
  · rw [if_pos hplain] at hread
    exact ⟨hplain.symm, Option.some.inj hread⟩
  · -- the entry of the id was there before, so the id is the name of a file
    rw [if_neg hplain, hs.same r.id] at hread
    obtain ⟨v, hv, _⟩ := Option.map_eq_some_iff.mp hread
    exact absurd (hs.plain r.id v hv).symm hplain

theorem holds_of_readsBack {s : FileResponseResourceStore β} {r : ResponseResource} {bytes : β}
    (h : ReadsBack format r bytes) :
    Holds format (withResource s (format.resourcePath r.id) bytes r) r := by
  refine ⟨AList.lookup_insert _, ?_⟩
  rw [readBack_insert format (s := s) rfl, if_pos h.plain.symm, h.read]

/-- A successful step has changed both the map and the directory exactly when they agree. -/
theorem agrees_iff_updated {op : Operation} {env : Surroundings} (hs : Agrees format s)
    (hrun : (perform format env op).run s = .returns (.ok ()) t) :
    Agrees format t ↔ Updated format t op := by
  have hstored : ∀ r bytes, Agrees format
      (withResource (pruned env s) (format.resourcePath r.id) bytes r) ↔
        Holds format (withResource (pruned env s) (format.resourcePath r.id) bytes r) r := by
    intro r bytes
    rw [agrees_withResource_iff (hs.pruned env)]
    exact ⟨holds_of_readsBack, readsBack_of_holds (hs.pruned env)⟩
  cases op with
  | put r =>
    have heffect := of_run (put_run hs env r) hrun
    cases heffect with
    | published hprune hpublish =>
      cases hpublish with
      | stored bytes hwritten hsync => exact hstored r bytes
  | putSuccessor baseId expectedRevision r =>
    have heffect := of_run (putSuccessor_run hs env baseId expectedRevision r) hrun
    cases heffect with
    | published hprune hbase hpublish =>
      cases hpublish with
      | stored bytes hwritten hsync => exact hstored r bytes
  | delete id =>
    have heffect := of_run (delete_run hs env id) hrun
    cases heffect with
    | deleted hdelete hremove hsync =>
      refine ⟨fun _ => ⟨?_, ?_⟩, fun _ => hs.without [id]⟩
      · rw [lookup_without, if_pos (List.mem_singleton_self id)]
      · unfold readBack
        rw [file_without, if_pos (List.mem_singleton_self id)]
        rfl

theorem contract_iff {a : Operation × Surroundings} (hs : Agrees format s)
    (hstep : Step format s a t) : Contract format s a t ↔ SyncedAfterCommit format s a := by
  rw [← agrees_iff hs hstep]
  constructor
  · intro h
    obtain ⟨result, hrun⟩ := hstep
    cases result with
    | ok u => exact (agrees_iff_updated hs hrun).mpr (h.okUpdates hrun)
    | error e =>
      have hkept := @recovered_of_error _ _ _ _ _ _ _ hs hrun
      exact ⟨h.errAgrees e hrun, fun id r hr => hs.named id r (hkept hr),
        fun id r hr => hs.plain id r (hkept hr)⟩
  · intro h
    exact ⟨fun _ _ => h.same, fun hrun => (agrees_iff_updated hs hrun).mp h,
      consistent_of_agrees h⟩

/-- From any directory that opens, and in every run of puts, successor puts and
deletes under failing filesystem steps, each operation keeps the agreement of the
map with the directory exactly when no failure comes between the commit of an
operation and its update of the map and what is stored reads back as itself. -/
theorem agreement_iff (format : FileFormat β) (stateRoot : String) (env : Recovery)
    (directory : Directory β) (hplain : Plain format directory)
    (s : FileResponseResourceStore β)
    (hopen : openStore format stateRoot env directory = .returns (.ok ()) s)
    (run : List ((Operation × Surroundings) × FileResponseResourceStore β))
    (hrun : IsRun (Step format) s run) :
    (Consistent format s ∧ Along (Contract format) s run) ↔
      Meets (SyncedAfterCommit format) s run := by
  have hs := (opened_of_openStore hopen).agrees hplain
  have hiff := along_steps_iff_meets (Step format) (Agrees format) (Contract format)
    (SyncedAfterCommit format) (fun _ _ _ => contract_iff)
    (fun _ _ _ h hstep => (agrees_iff h hstep).mpr) s run hs hrun
  exact ⟨fun h => hiff.mp h.2, fun h => ⟨consistent_of_agrees hs, hiff.mpr h⟩⟩

/-- Surroundings at a time in which the given steps fail. -/
def failing (timestamp : ℕ) (steps : List FsStep) : Surroundings where
  timestamp := timestamp
  order := fun ids => ids
  order_perm := fun _ => List.Perm.refl _
  fails := fun step => decide (step ∈ steps)

def healthy : Recovery := ⟨fun _ => 0, fun _ => false⟩

def fresh : FileResponseResourceStore β := ⟨∅, ∅⟩

def sample (id : String) : ResponseResource :=
  ⟨id, "owner", 0, true, none, 0, ""⟩

def after (format : FileFormat β) (s : FileResponseResourceStore β)
    (a : Operation × Surroundings) : FileResponseResourceStore β :=
  match (perform format a.2 a.1).run s with
  | .returns _ t => t
  | .panics => s

/-- The text of a sample; the payload stands for the fields that its other lines hold. -/
@[irreducible] def sampleText (id : String) : String :=
  "\x7b\n  \"schema_version\": 1,\n  \"id\": \"" ++ id ++ "\",\n  \"owner\": \"owner\",\n" ++
  "  \"model\": \"m\",\n  \"created_at\": 0,\n  \"status\": \"completed\",\n" ++
  "  \"store\": true,\n  \"previous_response_id\": null,\n  \"input\": [],\n" ++
  "  \"output\": [],\n  \"tools\": [],\n  \"tool_choice\": \"auto\",\n" ++
  "  \"finish_reason\": null,\n  \"usage\": null,\n  \"metadata\": \x7b\n" ++
  "    \"correlation_id\": \"\",\n    \"inference_id\": \"\",\n" ++
  "    \"execution_session_id\": \"\"\n  \x7d,\n  \"lineage_revision\": 0\n\x7d"

/-- The files of samples. An id that contains a separator leads out of the directory, and a
file without a stem has no extension. -/
def sampleFiles : FileFormat String where
  toVecPretty resource :=
    if resource = sample resource.id then .ok (sampleText resource.id) else .error "not a sample"
  fromSlice text :=
    (["a", "b"].find? (fun id => text = sampleText id)).elim
      (.error "expected value at line 1 column 1") (fun id => .ok (sample id))
  resourcePath id :=
    if id = "" ∨ '/' ∈ id.toList then .outside (fileName id) else .entry id

theorem readsBack_sample : ReadsBack sampleFiles (sample "a") (sampleText "a") := by
  have hfound : ["a", "b"].find? (fun id => sampleText "a" = sampleText id) = some "a" :=
    List.find?_cons_of_pos (by simp only [decide_true])
  constructor
  · simp only [sampleFiles, sample]
    exact if_neg (by decide)
  · simp only [sampleFiles, hfound, Option.elim_some]

/-- A write that fails before the rename and a removal that fails are harmless. -/
theorem early_failures_keep_agreement :
    Consistent sampleFiles fresh ∧
      Along (Contract sampleFiles) fresh (follow (after sampleFiles) fresh
      [(.put (sample "a"), failing 0 [.writeFile]), (.put (sample "a"), failing 1 []),
        (.delete "a", failing 2 [.removeFile])]) := by
  have hrun : IsRun (Step sampleFiles) fresh (follow (after sampleFiles) fresh
      [(.put (sample "a"), failing 0 [.writeFile]), (.put (sample "a"), failing 1 []),
        (.delete "a", failing 2 [.removeFile])]) :=
    ⟨⟨_, rfl⟩, ⟨_, rfl⟩, ⟨_, rfl⟩, trivial⟩
  apply (agreement_iff sampleFiles "root" healthy ∅ (fun _ _ h => nomatch h) fresh rfl _ hrun).mpr
  refine ⟨?_, ?_, ?_, trivial⟩
  · intro _ bytes h
    exact absurd h.renamed.writes (by decide)
  · intro _ bytes h
    have hbytes : Except.ok (sampleText "a") = Except.ok bytes := h.bytes_eq
    cases hbytes
    exact Or.inl ⟨⟨rfl, rfl⟩, readsBack_sample⟩
  · intro _ h
    exact absurd h (by decide)

/-- A deletion whose removal happens and whose sync fails. -/
def unsyncedDelete : List ((Operation × Surroundings) × FileResponseResourceStore String) :=
  follow (after sampleFiles) fresh
    [(.put (sample "a"), failing 0 []), (.delete "a", failing 1 [.syncResources])]

/-- The deletion returns an error and leaves the entry in the map without its file.
Once it has expired no put succeeds, although no step of the put fails by itself. -/
theorem unsynced_delete_breaks_agreement :
    IsRun (Step sampleFiles) fresh unsyncedDelete ∧
      ¬ Along (Contract sampleFiles) fresh unsyncedDelete ∧
      (put sampleFiles (failing responseRetentionSeconds []) (sample "b")).run
          (last fresh unsyncedDelete) =
        .returns (.error (.io (.removeExpired "a"))) (last fresh unsyncedDelete) := by
  refine ⟨⟨⟨_, rfl⟩, ⟨_, rfl⟩, trivial⟩, ?_, rfl⟩
  intro h
  have hsame := h.2.1.errAgrees _ rfl "a"
  cases hsame

end Cusco.ResponseAgreement
