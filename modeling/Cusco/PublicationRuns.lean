import Cusco.PublicationCommit

/-!
Runs of the context store. A world is the store together with the publications
prepared from it and not yet consumed; any calls may stand between a preparation
and its commit. In every world reached, a prepared publication keeps the
publication contract exactly when a validated commit of it is safe.
-/

namespace Cusco.PublicationRuns

open Calls LogicalStore LogicalStore.ContextStore Reclamation StoreAccounts PublicationCommit Runs

structure World where
  store : ContextStore
  prepared : List PreparedPublication
  deriving DecidableEq

/-- A call of the store; `commit` names a publication by its place in the list. -/
inductive Call
  | create (tokens : List Token) (modelEpoch : ModelEpoch) (adapterEpoch : AdapterEpoch)
  | branch (source : LogicalContextId) (at' : ℕ)
  | append (id : LogicalContextId) (tokens : List Token)
  | removeContext (id : LogicalContextId)
  | setEpochs (id : LogicalContextId) (modelEpoch : ModelEpoch) (adapterEpoch : AdapterEpoch)
  | preparePublication (context : LogicalContextId) (representedEnd : ℕ)
      (parent : Option EvaluatedPrefixId) (requiredComponents completeComponents : ComponentMask)
      (evaluationParameters : Digest)
  | commitPublication (index : ℕ)
  | releaseMapping (id : EvaluatedPrefixId)

namespace World

def empty : World := ⟨ContextStore.empty, []⟩

/-- The world after a call returned; a panic leaves none. -/
def settle {α : Type} (prepared : List PreparedPublication) :
    Outcome ContextStore Error α → Option World
  | .returns _ store => some ⟨store, prepared⟩
  | .panics => none

def call (sha : List UInt8 → Digest) (w : World) : Call → Option World
  | .create tokens modelEpoch adapterEpoch =>
    settle w.prepared (w.store.create tokens modelEpoch adapterEpoch)
  | .branch source at' => settle w.prepared (w.store.branch source at')
  | .append id tokens => settle w.prepared (w.store.append id tokens)
  | .removeContext id => settle w.prepared (w.store.removeContext id)
  | .setEpochs id modelEpoch adapterEpoch =>
    settle w.prepared (w.store.setEpochs id modelEpoch adapterEpoch)
  | .preparePublication context representedEnd parent required complete parameters =>
    match w.store.preparePublication sha context representedEnd parent required complete
        parameters with
    | .ok p => some ⟨w.store, w.prepared ++ [p]⟩
    | .error _ => some w
  | .commitPublication index =>
    match w.prepared[index]? with
    | none => some w
    | some p => settle (w.prepared.eraseIdx index) (w.store.commitPublication p)
  | .releaseMapping id => settle w.prepared (w.store.releaseMapping id)

def Step (sha : List UInt8 → Digest) (w : World) (c : Call) (w' : World) : Prop :=
  w.call sha c = some w'

def calls (sha : List UInt8 → Digest) (w : World) : List Call → Option World
  | [] => some w
  | c :: rest => (w.call sha c).bind (fun w' => w'.calls sha rest)

theorem reaches_calls (sha : List UInt8 → Digest) (w w' : World) (cs : List Call)
    (h : w.calls sha cs = some w') : Reaches (Step sha) w w' := by
  induction cs generalizing w with
  | nil =>
    cases h
    exact Reaches.refl _ _
  | cons c rest ih =>
    obtain ⟨v, hv, hrest⟩ := Option.bind_eq_some_iff.mp h
    obtain ⟨run, hrun, hlast⟩ := ih v hrest
    exact ⟨(c, v) :: run, ⟨hv, hrun⟩, hlast⟩

theorem settle_some {α : Type} (prepared : List PreparedPublication)
    (o : Outcome ContextStore Error α) (w : World) (h : settle prepared o = some w) :
    ∃ r, o = .returns r w.store := by
  cases o with
  | returns r store =>
    cases h
    exact ⟨r, rfl⟩
  | panics => cases h

end World

theorem accounted_commitPublication (s s' : ContextStore) (h : Accounted s)
    (p : PreparedPublication) (r : Except Error EvaluatedPrefix)
    (hcall : s.commitPublication p = .returns r s') : Accounted s' := by
  cases hv : s.validatePublication p with
  | error e =>
    rw [commitPublication_error s p e hv] at hcall
    cases hcall
    exact h
  | ok _ =>
    by_cases hsafe : CommitSafe s p
    · obtain ⟨t, hcommit, -, ht⟩ := commitPublication_ok s p h hv hsafe
      rw [hcommit] at hcall
      cases hcall
      exact ht
    · rw [commitPublication_panics s p h hv hsafe] at hcall
      cases hcall

/-- Every call that returns keeps the accounts. -/
theorem accounted_call (sha : List UInt8 → Digest) (w : World) (c : Call) (w' : World)
    (h : Accounted w.store) (hcall : World.Step sha w c w') : Accounted w'.store := by
  cases c with
  | create tokens modelEpoch adapterEpoch =>
    obtain ⟨r, hr⟩ := World.settle_some _ _ w' hcall
    exact accounted_create _ _ h _ _ _ r hr
  | branch source at' =>
    obtain ⟨r, hr⟩ := World.settle_some _ _ w' hcall
    exact accounted_branch _ _ h _ _ r hr
  | append id tokens =>
    obtain ⟨r, hr⟩ := World.settle_some _ _ w' hcall
    exact accounted_append _ _ h _ _ r hr
  | removeContext id =>
    obtain ⟨r, hr⟩ := World.settle_some _ _ w' hcall
    exact accounted_removeContext _ _ h _ r hr
  | setEpochs id modelEpoch adapterEpoch =>
    obtain ⟨r, hr⟩ := World.settle_some _ _ w' hcall
    exact accounted_setEpochs _ _ h _ _ _ r hr
  | preparePublication context representedEnd parent required complete parameters =>
    simp only [World.Step, World.call] at hcall
    split at hcall
    · cases hcall
      exact h
    · cases hcall
      exact h
  | commitPublication index =>
    simp only [World.Step, World.call] at hcall
    split at hcall
    · cases hcall
      exact h
    · obtain ⟨r, hr⟩ := World.settle_some _ _ w' hcall
      exact accounted_commitPublication _ _ h _ r hr
  | releaseMapping id =>
    obtain ⟨r, hr⟩ := World.settle_some _ _ w' hcall
    exact accounted_releaseMapping _ _ h _ r hr

theorem accounted_of_reaches (sha : List UInt8 → Digest) (w : World)
    (h : Reaches (World.Step sha) World.empty w) : Accounted w.store :=
  h.invariant (fun v => Accounted v.store) (accounted_call sha) accounted_empty

/-- A publication prepared earlier keeps the contract exactly when its commit,
if validated, is safe. -/
theorem publicationContract_iff (sha : List UInt8 → Digest) (w : World)
    (hreach : Reaches (World.Step sha) World.empty w) (p : PreparedPublication)
    (_ : p ∈ w.prepared) :
    PublicationContract w.store p ↔
      (w.store.validatePublication p = .ok () → CommitSafe w.store p) := by
  have h := accounted_of_reaches sha w hreach
  constructor
  · intro hcontract hv
    by_contra hlosing
    obtain ⟨s', hcommit, -⟩ := hcontract.1 hv
    rw [commitPublication_panics w.store p h hv hlosing] at hcommit
    cases hcommit
  · intro hsafe
    refine ⟨?_, ?_⟩
    · intro hv
      obtain ⟨s', hcommit, heffect, -⟩ := commitPublication_ok w.store p h hv (hsafe hv)
      exact ⟨s', hcommit, heffect⟩
    · intro e s' hcommit
      cases hv : w.store.validatePublication p with
      | error e' =>
        rw [commitPublication_error w.store p e' hv] at hcommit
        cases hcommit
        rfl
      | ok _ =>
        obtain ⟨t, ht, -⟩ := commitPublication_ok w.store p h hv (hsafe hv)
        rw [ht] at hcommit
        cases hcommit

def allComponents : ComponentMask :=
  ComponentMask.globalKv.union (ComponentMask.swa.union ComponentMask.recurrent)

def prepareAt (n : ℕ) (parent : Option EvaluatedPrefixId) : Call :=
  .preparePublication ⟨0⟩ n parent allComponents allComponents zeroDigest

def shorterPrepared : List Call := [.create [1, 2] ⟨1⟩ ⟨0⟩, prepareAt 1 none]

/-- The identity of the mapping last published by a list of calls. -/
def publishedBy (cs : List Call) : EvaluatedPrefixId :=
  ((World.empty.calls Sha256.sha256 cs).bind (fun w =>
    (w.store.contexts.lookup ⟨0⟩).bind LogicalContext.evaluated)).getD zeroDigest

def shorterPublished : List Call := shorterPrepared ++ [.commitPublication 0]

/-- A context of two tokens with one mapping for each prefix, the longer depending on the
shorter. -/
def longerPublished : List Call :=
  shorterPublished ++ [prepareAt 2 (some (publishedBy shorterPublished)), .commitPublication 0]

/-- The shorter prefix is prepared again while only the longer one holds it. -/
def shorterPreparedAgain : List Call :=
  longerPublished ++ [.releaseMapping (publishedBy shorterPublished),
    .releaseMapping (publishedBy longerPublished), prepareAt 1 none]

def validates (w : World) (p : PreparedPublication) : Bool :=
  match w.store.validatePublication p with
  | .ok () => true
  | .error _ => false

def commitPanics (w : World) (p : PreparedPublication) : Bool :=
  match w.store.commitPublication p with
  | .panics => true
  | .returns _ _ => false

theorem validatePublication_of_validates (w : World) (p : PreparedPublication)
    (h : validates w p = true) : w.store.validatePublication p = .ok () := by
  unfold validates at h
  split at h
  · assumption
  · cases h

theorem commitPublication_of_commitPanics (w : World) (p : PreparedPublication)
    (h : commitPanics w p = true) : w.store.commitPublication p = .panics := by
  unfold commitPanics at h
  split at h
  · assumption
  · cases h

/-- The longer prefix is published while the context is bound to the shorter one. -/
theorem longer_publication_contract :
    ∃ (w : World) (p : PreparedPublication) (context : LogicalContext), p ∈ w.prepared ∧
      w.store.contexts.lookup p.context = some context ∧
      context.evaluated = some (publishedBy shorterPublished) ∧
      w.store.validatePublication p = .ok () ∧ PublicationContract w.store p := by
  have hrun : (World.empty.calls Sha256.sha256
      (shorterPublished ++ [prepareAt 2 (some (publishedBy shorterPublished))])).any (fun w =>
      w.prepared.any (fun p => validates w p && w.store.mappings.lookup p.mapping.id = none &&
        (w.store.contexts.lookup p.context).any (fun c =>
          c.evaluated = some (publishedBy shorterPublished) && c.revision = 1))) = true := by
    decide +kernel
  obtain ⟨w, hw, hp⟩ := (Option.any_eq_true _ _).mp hrun
  obtain ⟨p, hmem, hp⟩ := List.any_eq_true.mp hp
  simp only [Bool.and_eq_true, decide_eq_true_eq] at hp
  obtain ⟨⟨hvalidates, hnew⟩, hcontext⟩ := hp
  obtain ⟨context, hlookup, hbound⟩ := (Option.any_eq_true _ _).mp hcontext
  simp only [Bool.and_eq_true, decide_eq_true_eq] at hbound
  refine ⟨w, p, context, hmem, hlookup, hbound.1, validatePublication_of_validates w p hvalidates,
    (publicationContract_iff Sha256.sha256 w (World.reaches_calls _ _ _ _ hw) p hmem).mpr ?_⟩
  intro _ other hother _
  cases hlookup.symm.trans hother
  refine ⟨by rw [hbound.2]; decide, ?_⟩
  rintro old _ ⟨_, e, he, _⟩
  rw [hnew] at he
  cases he

/-- The validated commit of a prefix held only through the context's own binding
panics. -/
theorem commit_panics_on_reclaimed_ancestor :
    ∃ (w : World) (p : PreparedPublication),
      Reaches (World.Step Sha256.sha256) World.empty w ∧ p ∈ w.prepared ∧
      w.store.validatePublication p = .ok () ∧ w.store.commitPublication p = .panics ∧
      ¬ PublicationContract w.store p := by
  have hrun : (World.empty.calls Sha256.sha256 shorterPreparedAgain).any (fun w =>
      w.prepared.any (fun p => validates w p && commitPanics w p)) = true := by
    decide +kernel
  obtain ⟨w, hw, hp⟩ := (Option.any_eq_true _ _).mp hrun
  obtain ⟨p, hmem, hp⟩ := List.any_eq_true.mp hp
  rw [Bool.and_eq_true] at hp
  have hv := validatePublication_of_validates w p hp.1
  have hpanics := commitPublication_of_commitPanics w p hp.2
  refine ⟨w, p, World.reaches_calls _ _ _ _ hw, hmem, hv, hpanics, ?_⟩
  intro hcontract
  obtain ⟨s', hcommit, -⟩ := hcontract.1 hv
  rw [hpanics] at hcommit
  cases hcommit

end Cusco.PublicationRuns
