import Cusco.StoreEffects

/-!
Optimistic publication. Every change of a context raises its revision, and the
identity of a removed context is never given out again. A commit checks the
revision seen at preparation, so it succeeds only on a context that nothing has
touched since, whatever calls stood in between.
-/

namespace Cusco.PublicationIsolation

open Calls LogicalStore LogicalStore.ContextStore StoreAccounts PublicationCommit
open PublicationRuns StoreEffects Runs

/-- A context is untouched, gone for good, or at a higher revision. -/
def Later (o o' : Option LogicalContext) : Prop :=
  o' = o ∨ o' = none ∨ ∃ a b, o = some a ∧ o' = some b ∧ a.revision < b.revision

theorem later_refl (o : Option LogicalContext) : Later o o := Or.inl rfl

theorem later_trans (o o' o'' : Option LogicalContext) (h : Later o o') (h' : Later o' o'') :
    Later o o'' := by
  rcases h' with rfl | rfl | ⟨b, c, hb, hc, hbc⟩
  · exact h
  · exact Or.inr (Or.inl rfl)
  · rcases h with rfl | hnone | ⟨a, b', ha, hb', hab⟩
    · exact Or.inr (Or.inr ⟨b, c, hb, hc, hbc⟩)
    · rw [hnone] at hb
      cases hb
    · rw [hb] at hb'
      cases hb'
      exact Or.inr (Or.inr ⟨a, c, ha, hc, Nat.lt_trans hab hbc⟩)

/-- A context seen at the same revision at both ends was not touched in between. -/
theorem eq_of_later (o m o' : Option LogicalContext) (h : Later o m) (h' : Later m o')
    (a b : LogicalContext) (ha : o = some a) (hb : o' = some b) (hab : a.revision = b.revision) :
    m = o ∧ o' = o := by
  subst ha hb
  rcases h with rfl | rfl | ⟨_, d, ha', rfl, had⟩
  · rcases h' with h' | h' | ⟨_, _, ha', hb', hlt⟩
    · exact ⟨rfl, h'⟩
    · cases h'
    · cases ha'
      cases hb'
      omega
  · rcases h' with h' | h' | ⟨_, _, hd', _⟩
    · cases h'
    · cases h'
    · cases hd'
  · cases ha'
    rcases h' with h' | h' | ⟨_, _, hd', hb', hlt⟩
    · cases h'
      omega
    · cases h'
    · cases hd'
      cases hb'
      omega

/-- How the store moves on, as far as one context is concerned. -/
def Advanced (c : LogicalContextId) (s s' : ContextStore) : Prop :=
  s.nextContext ≤ s'.nextContext ∧
    (c.value < s.nextContext → Later (s.contexts.lookup c) (s'.contexts.lookup c))

theorem advanced_refl (c : LogicalContextId) (s : ContextStore) : Advanced c s s :=
  ⟨le_rfl, fun _ => later_refl _⟩

theorem advanced_trans (c : LogicalContextId) (s t u : ContextStore) (hst : Advanced c s t)
    (htu : Advanced c t u) : Advanced c s u := by
  refine ⟨Nat.le_trans hst.1 htu.1, ?_⟩
  intro hc
  exact later_trans _ _ _ (hst.2 hc) (htu.2 (Nat.lt_of_lt_of_le hc hst.1))

theorem later_of_change (fresh : Option PreparedPublication) (next : ℕ) (c : LogicalContextId)
    (hc : c.value < next) (o o' : Option LogicalContext) (h : ContextChange fresh next c o o') :
    Later o o' := by
  cases h with
  | same => exact later_refl o
  | created context hid => omega
  | removed context => exact Or.inr (Or.inl rfl)
  | appended context tokens => exact Or.inr (Or.inr ⟨context, _, rfl, rfl, Nat.lt_succ_self _⟩)
  | rebased context modelEpoch adapterEpoch =>
    exact Or.inr (Or.inr ⟨context, _, rfl, rfl, Nat.lt_succ_self _⟩)
  | bound context p hfresh hbinds =>
    exact Or.inr (Or.inr ⟨context, _, rfl, rfl, Nat.lt_succ_self _⟩)

theorem advanced_call (sha : List UInt8 → Digest) (c : LogicalContextId) (w : World) (a : Call)
    (w' : World) (h : Accounted w.store) (hcall : World.Step sha w a w') :
    Advanced c w.store w'.store := by
  obtain ⟨⟨fresh, heffect, -⟩, -⟩ := effect_call sha w a w' h hcall
  exact ⟨heffect.next, fun hc => later_of_change fresh _ c hc _ _ (heffect.contexts c)⟩

/-- What a preparation records of its context. -/
theorem preparePublication_ok (sha : List UInt8 → Digest) (s : ContextStore)
    (contextId : LogicalContextId) (representedEnd : ℕ) (parent : Option EvaluatedPrefixId)
    (required complete : ComponentMask) (parameters : Digest) (p : PreparedPublication)
    (h : s.preparePublication sha contextId representedEnd parent required complete parameters =
      .ok p) : p.context = contextId ∧ ∃ context, s.contexts.lookup contextId = some context ∧
        p.expectedRevision = context.revision := by
  unfold preparePublication at h
  cases hc : s.contexts.lookup contextId with
  | none => simp [hc] at h
  | some context =>
    simp only [hc] at h
    split at h
    · cases h
    · split at h
      · cases h
      · split at h
        · cases h
        · cases h
          exact ⟨rfl, context, rfl, rfl⟩

/-- A commit that succeeds was validated. -/
theorem validated_of_committed (s s' : ContextStore) (p : PreparedPublication)
    (mapping : EvaluatedPrefix) (h : s.commitPublication p = .returns (.ok mapping) s') :
    s.validatePublication p = .ok () := by
  cases hv : s.validatePublication p with
  | error e =>
    rw [commitPublication_error s p e hv] at h
    cases h
  | ok _ => rfl

/-- However many calls stand between a preparation and its commit, the commit
succeeds only if the context is then, and was all along, what it was at the
preparation. -/
theorem commit_of_untouched_context (sha : List UInt8 → Digest) (w : World)
    (hreach : Reaches (World.Step sha) World.empty w) (contextId : LogicalContextId)
    (representedEnd : ℕ) (parent : Option EvaluatedPrefixId) (required complete : ComponentMask)
    (parameters : Digest) (p : PreparedPublication)
    (hprepare : w.store.preparePublication sha contextId representedEnd parent required complete
      parameters = .ok p) (run : List (Call × World)) (hrun : IsRun (World.Step sha) w run)
    (mapping : EvaluatedPrefix) (s' : ContextStore)
    (hcommit : (last w run).store.commitPublication p = .returns (.ok mapping) s') :
    ∃ context, w.store.contexts.lookup contextId = some context ∧
      (last w run).store.contexts.lookup contextId = some context ∧
      ∀ x ∈ run, x.2.store.contexts.lookup contextId = some context := by
  have haccounted := accounted_of_reaches sha w hreach
  obtain ⟨rfl, context, hc, hrevision⟩ := preparePublication_ok sha w.store _ _ _ _ _ _ p hprepare
  have hused := (haccounted.numbered _ context hc).2
  have hv := validated_of_committed _ s' p mapping hcommit
  obtain ⟨⟨context', hc'⟩, -, -⟩ := validatePublication_ok _ p hv
  have hsame : context.revision = context'.revision :=
    hrevision.symm.trans (binds_of_validated _ p context' hc' hv).revision.symm
  have hmids := relation_of_mem (World.Step sha) (fun v => Accounted v.store)
    (fun v v' => Advanced p.context v.store v'.store) (accounted_call sha)
    (fun v => advanced_refl _ v.store) (fun _ _ _ => advanced_trans _ _ _ _)
    (fun v a v' => advanced_call sha p.context v a v') w run haccounted hrun
  have hend : Advanced p.context w.store (last w run).store :=
    Reaches.relation ⟨run, hrun, rfl⟩ (fun v => Accounted v.store)
      (fun v v' => Advanced p.context v.store v'.store) (accounted_call sha)
      (fun v => advanced_refl _ v.store) (fun _ _ _ => advanced_trans _ _ _ _)
      (fun v a v' => advanced_call sha p.context v a v') haccounted
  refine ⟨context, hc, ?_, ?_⟩
  · rw [← hc]
    exact (eq_of_later _ _ _ (later_refl _) (hend.2 hused) context context' hc hc' hsame).2
  · intro x hx
    obtain ⟨hbefore, hafter⟩ := hmids x hx
    rw [← hc]
    exact (eq_of_later _ _ _ (hbefore.2 hused)
      (hafter.2 (Nat.lt_of_lt_of_le hused hbefore.1)) context context' hc hc' hsame).1

/-- The commit succeeds. -/
def commits (w : World) (p : PreparedPublication) : Bool :=
  match w.store.commitPublication p with
  | .returns (.ok _) _ => true
  | _ => false

theorem commitPublication_of_commits (w : World) (p : PreparedPublication)
    (h : commits w p = true) :
    ∃ mapping s', w.store.commitPublication p = .returns (.ok mapping) s' := by
  unfold commits at h
  split at h
  · rename_i mapping s' hcommit
    exact ⟨mapping, s', hcommit⟩
  · cases h

theorem commit_after_calls_elsewhere :
    ∃ (w w' : World) (p : PreparedPublication) (context : LogicalContext),
      w.store.preparePublication Sha256.sha256 ⟨0⟩ 1 none allComponents allComponents zeroDigest =
        .ok p ∧ Reaches (World.Step Sha256.sha256) w w' ∧ w'.store ≠ w.store ∧
      w.store.contexts.lookup ⟨0⟩ = some context ∧ w'.store.contexts.lookup ⟨0⟩ = some context := by
  have hrun : (World.empty.calls Sha256.sha256 [.create [1, 2] ⟨1⟩ ⟨0⟩]).any (fun w =>
      (w.store.preparePublication Sha256.sha256 ⟨0⟩ 1 none allComponents allComponents
        zeroDigest).toOption.any (fun p =>
        (w.calls Sha256.sha256 [.create [1] ⟨2⟩ ⟨0⟩, .append ⟨1⟩ [3]]).any (fun w' =>
          commits w' p && decide (w'.store ≠ w.store)))) = true := by
    decide +kernel
  obtain ⟨w, hw, hp⟩ := (Option.any_eq_true _ _).mp hrun
  obtain ⟨p, hp, hw'⟩ := (Option.any_eq_true _ _).mp hp
  obtain ⟨w', hw', hcommits⟩ := (Option.any_eq_true _ _).mp hw'
  rw [Bool.and_eq_true, decide_eq_true_eq] at hcommits
  have hprepare : w.store.preparePublication Sha256.sha256 ⟨0⟩ 1 none allComponents allComponents
      zeroDigest = .ok p := by
    cases hresult : w.store.preparePublication Sha256.sha256 ⟨0⟩ 1 none allComponents
        allComponents zeroDigest with
    | ok q =>
      rw [hresult] at hp
      cases hp
      rfl
    | error e =>
      rw [hresult] at hp
      cases hp
  obtain ⟨run, hsteps, rfl⟩ := World.reaches_calls _ w w' _ hw'
  obtain ⟨mapping, s', hcommit⟩ := commitPublication_of_commits _ p hcommits.1
  obtain ⟨context, hc, hc', -⟩ := commit_of_untouched_context Sha256.sha256 w
    (World.reaches_calls _ _ _ _ hw) ⟨0⟩ 1 none allComponents allComponents zeroDigest p hprepare
    run hsteps mapping s' hcommit
  exact ⟨w, _, p, context, hprepare, ⟨run, hsteps, rfl⟩, hcommits.2, hc, hc'⟩

end Cusco.PublicationIsolation
