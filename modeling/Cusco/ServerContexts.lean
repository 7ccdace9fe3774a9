import Cusco.InferCommits

/-!
The contexts of a server under all operations on them. Contexts are created, imported, branched
and deleted beside any number of infer calls; a branch copies its source in one section and
stores the copy in another. Identifiers are drawn anew and never repeat. What every context held
last, deleted or not, is a table of its own in the proofs: over it the infer calls behave as if
nothing were deleted.
-/

namespace Cusco.ServerContexts

open ContextStrategy Generation Infer Runs Utf8

abbrev Contexts := Table ContextId ContextRecord

structure World where
  server : State
  /-- The copies that branches have made and not stored yet. -/
  copies : List ContextRecord
  /-- The identifiers drawn so far. -/
  drawn : List ContextId

def World.new : World := ⟨State.initial ∅, [], []⟩

inductive Operation
  | infer (action : Action)
  | createContext (fresh : ContextId)
  | importContext (fresh : ContextId) (tokens : List Token)
  | copyContext (source : ContextId)
  | storeCopy (i : ℕ) (fresh : ContextId)
  | deleteContext (id : ContextId)

def insertRecord (s : State) (record : ContextRecord) : State :=
  { s with contexts := s.contexts.insert record.id record }

def createContext (s : State) (fresh : ContextId) : ContextRecord × State :=
  let record : ContextRecord := ⟨fresh, 0, [], []⟩
  (record, insertRecord s record)

def importContext (s : State) (fresh : ContextId) (tokens : List Token) : ContextRecord × State :=
  let record : ContextRecord := ⟨fresh, 0, tokens, []⟩
  (record, insertRecord s record)

/-- `Server::context`, and the first section of `branch_context`. -/
def context (s : State) (id : ContextId) : Except Error ContextRecord :=
  match s.contexts.lookup id with
  | none => .error .contextNotFound
  | some record => .ok record

/-- The second section of `branch_context`. -/
def branchContext (s : State) (copy : ContextRecord) (fresh : ContextId) :
    ContextRecord × State :=
  let record : ContextRecord := { copy with id := fresh, revision := 0 }
  (record, insertRecord s record)

def deleteContext (s : State) (id : ContextId) : Except Error Unit × State :=
  match s.contexts.lookup id with
  | none => (.error .contextNotFound, s)
  | some _ => (.ok (), { s with contexts := s.contexts.erase id })

/-- The identifier that an operation draws. -/
def Operation.fresh : Operation → Option ContextId
  | .infer (.enter _ fresh _) => some fresh
  | .createContext fresh => some fresh
  | .importContext fresh _ => some fresh
  | .storeCopy _ fresh => some fresh
  | _ => none

namespace World

def apply (w : World) : Operation → Option World
  | .infer action => (act w.server action).map (fun server => { w with server := server })
  | .createContext fresh => some { w with server := (createContext w.server fresh).2 }
  | .importContext fresh tokens =>
    some { w with server := (importContext w.server fresh tokens).2 }
  | .copyContext source =>
    some { w with copies := w.copies ++ (context w.server source).toOption.toList }
  | .storeCopy i fresh => w.copies[i]?.map (fun copy =>
      { w with
        server := (branchContext w.server copy fresh).2
        copies := w.copies.eraseIdx i })
  | .deleteContext id => some { w with server := (deleteContext w.server id).2 }

/-- An operation, unless it draws an identifier that was drawn before. -/
def operate (w : World) (operation : Operation) : Option World :=
  if operation.fresh.any (fun id => decide (id ∈ w.drawn)) then none
  else (w.apply operation).map (fun w' =>
    { w' with drawn := operation.fresh.toList ++ w.drawn })

end World

def Step (w : World) (operation : Operation) (w' : World) : Prop :=
  w.operate operation = some w'

/-- What a step does to the contexts: it is a step of an infer call, or it adds a record of
revision 0 under an identifier never drawn before, or deletes one, or leaves them all. -/
def Changes (w : World) (operation : Operation) (w' : World) : Prop :=
  (∃ action, operation = .infer action ∧ Atomic w.server action w'.server) ∨
  (∃ record, operation.fresh = some record.id ∧ record.revision = 0 ∧ record.id ∉ w.drawn ∧
    w.server.contexts.lookup record.id = none ∧
    w'.server.contexts = w.server.contexts.insert record.id record) ∨
  (∃ id, operation = .deleteContext id ∧ w'.server.contexts = w.server.contexts.erase id) ∨
  w'.server = w.server

/-- `all` has the last record of every context there has been, and the infer calls are
consistent over it. -/
structure Shadowed (w : World) (all : Contexts) : Prop where
  consistent : Consistent ⟨all, w.server.calls⟩
  kept : ∀ k r, w.server.contexts.lookup k = some r → all.lookup k = some r
  drawn : ∀ k, all.lookup k ≠ none → k ∈ w.drawn
  successors : ∀ c ∈ w.server.calls, c.request.contextId = none → c.successorId ∈ w.drawn

/-- What a step keeps: records are only replaced by later ones, and what is deleted stays so. -/
structure Grows (w w' : World) (all all' : Contexts) : Prop where
  advances : Advances all all'
  gone : ∀ k, all.lookup k ≠ none → w.server.contexts.lookup k = none →
    w'.server.contexts.lookup k = none

theorem shadowed_new : Shadowed World.new ∅ where
  consistent := Consistent.initial ∅ (fun k r hr => by cases (AList.lookup_empty k).symm.trans hr)
  kept := by
    intro k r hr
    cases (AList.lookup_empty k).symm.trans hr
  drawn := fun k hk => absurd (AList.lookup_empty k) hk
  successors := fun c hc => by cases hc

theorem advances_trans {a b c : Contexts} (hab : Advances a b) (hbc : Advances b c) :
    Advances a c := by
  intro k r hr
  obtain ⟨r', hr', hnewer⟩ := hab k r hr
  obtain ⟨r'', hr'', hnewest⟩ := hbc k r' hr'
  refine ⟨r'', hr'', ?_⟩
  rcases hnewer with rfl | hlt
  · exact hnewest
  · rcases hnewest with rfl | hlt'
    · exact Or.inr hlt
    · exact Or.inr (hlt.trans hlt')

theorem present_of_advances {a b : Contexts} (h : Advances a b) {k : ContextId}
    (hk : a.lookup k ≠ none) : b.lookup k ≠ none := by
  obtain ⟨r, hr⟩ := Option.ne_none_iff_exists'.mp hk
  obtain ⟨r', hr', _⟩ := h k r hr
  rw [hr']
  exact Option.some_ne_none r'

section Records

variable {w : World} {all : Contexts}

/-- A record under an identifier never drawn. -/
theorem shadowed_insert (h : Shadowed w all) (record : ContextRecord)
    (hfresh : record.id ∉ w.drawn) (copies : List ContextRecord) :
    Shadowed ⟨insertRecord w.server record, copies, record.id :: w.drawn⟩
      (all.insert record.id record) ∧
    Grows w ⟨insertRecord w.server record, copies, record.id :: w.drawn⟩ all
      (all.insert record.id record) := by
  have hnone : all.lookup record.id = none := by
    by_contra hsome
    exact hfresh (h.drawn _ hsome)
  have hadvances : Advances all (all.insert record.id record) := by
    refine insert_advances all record.id record ?_
    intro old hold
    rw [hnone] at hold
    cases hold
  constructor
  · constructor
    · refine ⟨?_, ?_, ?_, h.consistent.distinct, h.consistent.once⟩
      · intro k r hr
        rw [AList.lookup_insert_ite] at hr
        split_ifs at hr with hk
        · cases hr
          exact hk.symm
        · exact h.consistent.keyed k r hr
      · exact fun c hc => (h.consistent.ok c hc).advance hadvances
      · intro c hc hnamed hrunning
        have hother : c.successorId ≠ record.id := by
          intro hsame
          exact hfresh (hsame ▸ h.successors c hc hnamed)
        change (all.insert record.id record).lookup c.successorId = none
        rw [AList.lookup_insert_ite, if_neg hother]
        exact h.consistent.unissued c hc hnamed hrunning
    · intro k r hr
      change (w.server.contexts.insert record.id record).lookup k = some r at hr
      rw [AList.lookup_insert_ite] at hr ⊢
      split_ifs at hr ⊢ with hk
      · exact hr
      · exact h.kept k r hr
    · intro k hk
      rw [AList.lookup_insert_ite] at hk
      split_ifs at hk with hsame
      · exact hsame ▸ List.mem_cons_self ..
      · exact List.mem_cons_of_mem _ (h.drawn k hk)
    · exact fun c hc hnamed => List.mem_cons_of_mem _ (h.successors c hc hnamed)
  · refine ⟨hadvances, ?_⟩
    intro k hk hgone
    have hother : k ≠ record.id := by
      intro hsame
      exact hk (hsame ▸ hnone)
    change (w.server.contexts.insert record.id record).lookup k = none
    rw [AList.lookup_insert_ite, if_neg hother]
    exact hgone

/-- What deletes contexts, or leaves them, needs no other last records. -/
theorem shadowed_erase (h : Shadowed w all) (contexts : Contexts) (copies : List ContextRecord)
    (hsub : ∀ k r, contexts.lookup k = some r → w.server.contexts.lookup k = some r) :
    Shadowed ⟨{ w.server with contexts := contexts }, copies, w.drawn⟩ all ∧
    Grows w ⟨{ w.server with contexts := contexts }, copies, w.drawn⟩ all all := by
  refine ⟨⟨h.consistent, fun k r hr => h.kept k r (hsub k r hr), h.drawn, h.successors⟩,
    Advances.refl all, ?_⟩
  intro k _ hgone
  change contexts.lookup k = none
  by_contra hsome
  obtain ⟨r, hr⟩ := Option.ne_none_iff_exists'.mp hsome
  rw [hsub k r hr] at hgone
  cases hgone

end Records

section Calls

variable {w : World} {all : Contexts}

/-- A call that does not fail takes the step that it would take over the last records. -/
theorem nextStage_shadow (h : Shadowed w all) {c : Call} {action : Action} {stage : Stage}
    (hnext : nextStage w.server c action = some stage) :
    (∃ error, stage = .failed error) ∨
      nextStage ⟨all, w.server.calls⟩ c action = some stage := by
  cases action with
  | read i =>
    simp only [nextStage] at hnext ⊢
    split at hnext
    · next frontier compaction _ =>
      cases hnext
      unfold State.readContext
      cases hnamed : c.request.contextId with
      | none => exact Or.inr rfl
      | some id =>
        simp only
        cases hread : w.server.contexts.lookup id with
        | none => exact Or.inl ⟨_, rfl⟩
        | some record =>
          rw [h.kept id record hread]
          exact Or.inr rfl
    · cases hnext
  | _ => exact Or.inr hnext

/-- A call that enters draws an identifier that no call and no context has. -/
theorem shadowed_enter (h : Shadowed w all) (request : InferRequest) (fresh : ContextId)
    (stops : Except Error (List Text)) (hfresh : fresh ∉ w.drawn) :
    Shadowed ⟨w.server.enter request fresh stops, w.copies, fresh :: w.drawn⟩ all ∧
    Grows w ⟨w.server.enter request fresh stops, w.copies, fresh :: w.drawn⟩ all all := by
  have hunissued : State.Unissued ⟨all, w.server.calls⟩ fresh := by
    constructor
    · by_contra hsome
      exact hfresh (h.drawn fresh hsome)
    · intro c hc hnamed hsame
      exact hfresh (hsame ▸ h.successors c hc hnamed)
  refine ⟨⟨h.consistent.enter request fresh stops hunissued, h.kept,
    fun k hk => List.mem_cons_of_mem _ (h.drawn k hk), ?_⟩, Advances.refl all, fun _ _ hk => hk⟩
  intro c hc hnamed
  rcases List.mem_append.mp hc with hold | hnew
  · exact List.mem_cons_of_mem _ (h.successors c hold hnamed)
  · rw [List.mem_singleton.mp hnew] at hnamed ⊢
    change request.contextId = none at hnamed
    change request.contextId.getD fresh ∈ _
    rw [hnamed]
    exact List.mem_cons_self ..

theorem shadowed_goto (h : Shadowed w all) {i : ℕ} {c : Call} {stage : Stage} {action : Action}
    (hc : w.server.calls[i]? = some c) (hrunning : c.stage.isCommitted = false)
    (hnext : (∃ error, stage = .failed error) ∨ nextStage w.server c action = some stage) :
    Shadowed { w with server := w.server.goto i c stage } all ∧ stage.isCommitted = false := by
  have hmem := List.mem_of_getElem? hc
  have hstage : CallOk all { c with stage := stage } ∧ stage.isCommitted = false := by
    have hshadow : (∃ error, stage = .failed error) ∨
        nextStage ⟨all, w.server.calls⟩ c action = some stage := by
      rcases hnext with hfailed | hnext
      · exact Or.inl hfailed
      · exact nextStage_shadow h hnext
    rcases hshadow with ⟨error, rfl⟩ | hshadow
    · exact ⟨trivial, rfl⟩
    · exact CallOk.next (s := ⟨all, w.server.calls⟩) (h.consistent.ok c hmem)
        h.consistent.keyed hshadow
  refine ⟨⟨h.consistent.move i c stage hc hrunning hstage.1 hstage.2, h.kept, h.drawn, ?_⟩,
    hstage.2⟩
  intro d hd hnamed
  rcases List.mem_or_eq_of_mem_set hd with hd | rfl
  · exact h.successors d hd hnamed
  · exact h.successors c hmem hnamed

/-- The server after a commit. -/
def committed (s : State) (contexts : Contexts) (i : ℕ) (c : Call) (p : Progress)
    (answer : InferResponse) : State :=
  State.goto { s with contexts := contexts } i c (.committed p answer)

/-- A commit that succeeds writes one record, whatever else the table holds. -/
theorem commit_writes {contexts contexts' : Contexts} {c : Call} {p : Progress}
    {output : EngineOutput} {shown : FrontierResult} {id : ContextId}
    (hcommit : commit contexts c p output shown = .ok (id, contexts')) :
    ∃ k r, contexts' = contexts.insert k r ∧
      (∀ base, p.context = some base → k = base.id ∧ contexts.lookup k ≠ none) ∧
      (p.context = none → k = c.successorId) ∧
      ∀ all : Contexts, (∀ k r, contexts.lookup k = some r → all.lookup k = some r) →
        commit all c p output shown = .ok (id, all.insert k r) := by
  unfold commit at hcommit ⊢
  cases hcontext : p.context with
  | none =>
    rw [hcontext] at hcommit
    cases hcommit
    refine ⟨_, _, rfl, ?_, fun _ => rfl, fun all hkept => rfl⟩
    intro base hbase
    cases hbase
  | some base =>
    simp only [hcontext] at hcommit
    cases hstored : contexts.lookup base.id with
    | none =>
      rw [hstored] at hcommit
      cases hcommit
    | some stored =>
      simp only [hstored] at hcommit
      split_ifs at hcommit with hrevision
      cases hcommit
      refine ⟨base.id, _, rfl, ?_, ?_, ?_⟩
      · intro base' hbase
        cases hbase
        refine ⟨rfl, ?_⟩
        rw [hstored]
        exact Option.some_ne_none stored
      · intro hnone
        cases hnone
      · intro all hkept
        simp only [hkept base.id stored hstored]
        rw [if_neg hrevision]

/-- A commit finds its context there, and replaces the last record of it. -/
theorem shadowed_commit (h : Shadowed w all) {i : ℕ} {c : Call} {p : Progress}
    {output : EngineOutput} {shown : FrontierResult} {id : ContextId} {contexts : Contexts}
    (hc : w.server.calls[i]? = some c) (hstage : c.stage = .committing p output shown)
    (hcommit : commit w.server.contexts c p output shown = .ok (id, contexts))
    (answer : InferResponse) :
    Replaces w.server (committed w.server contexts i c p answer) c p output shown ∧
    Continues p ∧ p.compaction.isSome = c.request.compaction.isSome ∧
    ∃ all', Shadowed { w with server := committed w.server contexts i c p answer } all' ∧
      Grows w { w with server := committed w.server contexts i c p answer } all all' := by
  have hmem := List.mem_of_getElem? hc
  have hrunning : c.stage.isCommitted = false := by
    rw [hstage]
    rfl
  have hok := h.consistent.ok c hmem
  unfold CallOk at hok
  rw [hstage] at hok
  obtain ⟨hsource, hcontinues⟩ := hok
  have hunissued : c.request.contextId = none → all.lookup c.successorId = none :=
    fun hnamed => h.consistent.unissued c hmem hnamed hrunning
  obtain ⟨k, r, rfl, hbase, hnone, hall⟩ := commit_writes hcommit
  have hreplaces : Replaces ⟨all, w.server.calls⟩
      (committed ⟨all, w.server.calls⟩ (all.insert k r) i c p answer) c p output shown :=
    commit_replaces _ _ c p output shown id _ hsource hcontinues hunissued (hall all h.kept) rfl
  -- the record that was read is still there, since the commit found its identifier
  have hthere : Source w.server.contexts c.request p := by
    refine ⟨hsource.asked, hsource.named, ?_⟩
    intro base hcontext
    obtain ⟨hk, hsome⟩ := hbase base hcontext
    obtain ⟨stored, hstored⟩ := Option.ne_none_iff_exists'.mp hsome
    obtain ⟨last, hlast, hnewer⟩ := hsource.base base hcontext
    rw [← hk, h.kept k stored hstored] at hlast
    cases hlast
    exact ⟨stored, hk ▸ hstored, hnewer⟩
  have hnew : c.request.contextId = none → w.server.contexts.lookup c.successorId = none := by
    intro hnamed
    by_contra hsome
    obtain ⟨old, hold⟩ := Option.ne_none_iff_exists'.mp hsome
    rw [h.kept _ old hold] at hunissued
    cases hunissued hnamed
  have hadvances : Advances all (all.insert k r) := by
    obtain ⟨k', r', hsame, _, hnewer, _⟩ := hreplaces.insert
    change all.insert k r = all.insert k' r' at hsame
    rw [hsame]
    exact insert_advances all k' r' hnewer
  have hunnamed : p.context = none → c.request.contextId = none := by
    intro hcontext
    rw [hsource.named, hcontext]
    rfl
  refine ⟨commit_replaces _ _ c p output shown id _ hthere hcontinues hnew hcommit rfl,
    hcontinues, hsource.asked, all.insert k r, ⟨?_, ?_, ?_, ?_⟩, hadvances, ?_⟩
  · exact h.consistent.commit i c p output shown (all.insert k r) answer hc hreplaces
  · intro j record hrecord
    change (w.server.contexts.insert k r).lookup j = some record at hrecord
    rw [AList.lookup_insert_ite] at hrecord ⊢
    split_ifs at hrecord ⊢ with hj
    · exact hrecord
    · exact h.kept j record hrecord
  · intro j hj
    rw [AList.lookup_insert_ite] at hj
    split_ifs at hj with hk
    · subst hk
      cases hcontext : p.context with
      | none =>
        rw [hnone hcontext]
        exact h.successors c hmem (hunnamed hcontext)
      | some base =>
        obtain ⟨stored, hstored⟩ := Option.ne_none_iff_exists'.mp (hbase base hcontext).2
        refine h.drawn j ?_
        rw [h.kept j stored hstored]
        exact Option.some_ne_none stored
    · exact h.drawn j hj
  · intro d hd hnamed
    rcases List.mem_or_eq_of_mem_set hd with hd | rfl
    · exact h.successors d hd hnamed
    · exact h.successors c hmem hnamed
  · intro j hj hgone
    have hother : j ≠ k := by
      intro hsame
      subst hsame
      cases hcontext : p.context with
      | none => exact hj (hnone hcontext ▸ hunissued (hunnamed hcontext))
      | some base => exact (hbase base hcontext).2 hgone
    change (w.server.contexts.insert k r).lookup j = none
    rw [AList.lookup_insert_ite, if_neg hother]
    exact hgone

theorem shadowed_infer (h : Shadowed w all) {action : Action} {server : State}
    (hact : Infer.Step w.server action server)
    (hfresh : ∀ id, (Operation.infer action).fresh = some id → id ∉ w.drawn) :
    Atomic w.server action server ∧ ∃ all',
      Shadowed ⟨server, w.copies, (Operation.infer action).fresh.toList ++ w.drawn⟩ all' ∧
      Grows w ⟨server, w.copies, (Operation.infer action).fresh.toList ++ w.drawn⟩ all all' := by
  by_cases hcall : action.call = none
  · cases action with
    | enter request fresh stops =>
      obtain ⟨_, hserver⟩ := Option.ite_none_right_eq_some.mp hact
      cases hserver
      exact ⟨Or.inl rfl, all, shadowed_enter h request fresh stops (hfresh fresh rfl)⟩
    | _ => cases hcall
  · have hnothing : (Operation.infer action).fresh = none := by
      cases action with
      | enter request fresh stops => exact absurd rfl hcall
      | _ => rfl
    rw [hnothing]
    rcases step_cases w.server server action hact with
      ⟨hnone, _⟩ | ⟨i, c, stage, _, hc, hrunning, rfl, hnext⟩ |
        ⟨i, c, p, output, shown, id, contexts, rfl, hc, hstage, hcommit, rfl⟩
    · exact absurd hnone hcall
    · exact ⟨Or.inl rfl, all, (shadowed_goto h hc hrunning hnext).1, Advances.refl all,
        fun _ _ hk => hk⟩
    · obtain ⟨hreplaces, hcontinues, hasked, hshadowed⟩ :=
        shadowed_commit h hc hstage hcommit (response p output shown id)
      exact ⟨Or.inr ⟨i, c, p, output, shown, _, rfl, hc, hstage,
        goto_self { w.server with contexts := contexts } i c c _ hc, hasked, hcontinues,
        hreplaces⟩, hshadowed⟩

/-- One step of the server. -/
theorem shadowed_step (h : Shadowed w all) {operation : Operation} {w' : World}
    (hstep : Step w operation w') :
    Changes w operation w' ∧ ∃ all', Shadowed w' all' ∧ Grows w w' all all' := by
  unfold Step World.operate at hstep
  split_ifs at hstep with hdrawn
  obtain ⟨v, hv, hw'⟩ := Option.map_eq_some_iff.mp hstep
  subst hw'
  have hfresh : ∀ id, operation.fresh = some id → id ∉ w.drawn := by
    intro id hid hmem
    rw [hid, Option.any_some, decide_eq_true_eq] at hdrawn
    exact hdrawn hmem
  have hinsert : ∀ (record : ContextRecord) (copies : List ContextRecord),
      operation.fresh = some record.id → record.revision = 0 →
      Changes w operation ⟨insertRecord w.server record, copies, record.id :: w.drawn⟩ ∧
        ∃ all', Shadowed ⟨insertRecord w.server record, copies, record.id :: w.drawn⟩ all' ∧
          Grows w ⟨insertRecord w.server record, copies, record.id :: w.drawn⟩ all all' := by
    intro record copies hrecord hrevision
    have hnew := hfresh record.id hrecord
    refine ⟨Or.inr (Or.inl ⟨record, hrecord, hrevision, hnew, ?_, rfl⟩), _,
      shadowed_insert h record hnew copies⟩
    by_contra hsome
    obtain ⟨old, hold⟩ := Option.ne_none_iff_exists'.mp hsome
    refine hnew (h.drawn _ ?_)
    rw [h.kept _ old hold]
    exact Option.some_ne_none old
  cases operation with
  | infer action =>
    obtain ⟨server, hact, hv⟩ := Option.map_eq_some_iff.mp hv
    subst hv
    obtain ⟨hatomic, hshadowed⟩ := shadowed_infer h hact hfresh
    exact ⟨Or.inl ⟨action, rfl, hatomic⟩, hshadowed⟩
  | createContext fresh =>
    cases hv
    exact hinsert ⟨fresh, 0, [], []⟩ w.copies rfl rfl
  | importContext fresh tokens =>
    cases hv
    exact hinsert ⟨fresh, 0, tokens, []⟩ w.copies rfl rfl
  | copyContext source =>
    cases hv
    exact ⟨Or.inr (Or.inr (Or.inr rfl)), all,
      shadowed_erase h w.server.contexts _ (fun _ _ hr => hr)⟩
  | storeCopy i fresh =>
    obtain ⟨copy, _, hv⟩ := Option.map_eq_some_iff.mp hv
    subst hv
    exact hinsert { copy with id := fresh, revision := 0 } _ rfl rfl
  | deleteContext id =>
    cases hv
    simp only [deleteContext]
    cases hfound : w.server.contexts.lookup id with
    | none =>
      exact ⟨Or.inr (Or.inr (Or.inr rfl)), all,
        shadowed_erase h w.server.contexts _ (fun _ _ hr => hr)⟩
    | some record =>
      refine ⟨Or.inr (Or.inr (Or.inl ⟨id, rfl, rfl⟩)), all, shadowed_erase h _ _ ?_⟩
      intro k r hr
      rw [AList.lookup_erase_ite] at hr
      split_ifs at hr
      exact hr

end Calls

/-- What a run keeps: the last records advance, and what was deleted is never back. -/
theorem shadowed_run {w w' : World} (hreach : Reaches Step w w') {all : Contexts}
    (h : Shadowed w all) : ∃ all', Shadowed w' all' ∧ Grows w w' all all' := by
  obtain ⟨run, hrun, hlast⟩ := hreach
  induction run generalizing w all with
  | nil =>
    cases hlast
    exact ⟨all, h, Advances.refl all, fun _ _ hk => hk⟩
  | cons x rest ih =>
    obtain ⟨operation, v⟩ := x
    obtain ⟨hstep, hrest⟩ := hrun
    obtain ⟨_, all₁, h₁, hgrows₁⟩ := shadowed_step h hstep
    obtain ⟨all₂, h₂, hgrows₂⟩ := ih h₁ hrest hlast
    refine ⟨all₂, h₂, advances_trans hgrows₁.advances hgrows₂.advances, ?_⟩
    intro k hk hgone
    exact hgrows₂.gone k (present_of_advances hgrows₁.advances hk) (hgrows₁.gone k hk hgone)

/-- Only infer calls change the list of calls. -/
theorem calls_step {w w' : World} {operation : Operation} (hstep : Step w operation w') :
    w'.server.calls = w.server.calls ∨
      ∃ action, operation = .infer action ∧ Infer.Step w.server action w'.server := by
  unfold Step World.operate at hstep
  split_ifs at hstep
  obtain ⟨v, hv, hw'⟩ := Option.map_eq_some_iff.mp hstep
  subst hw'
  cases operation with
  | infer action =>
    obtain ⟨server, hact, hv⟩ := Option.map_eq_some_iff.mp hv
    subst hv
    exact Or.inr ⟨action, rfl, hact⟩
  | storeCopy i fresh =>
    obtain ⟨copy, _, hv⟩ := Option.map_eq_some_iff.mp hv
    subst hv
    exact Or.inl rfl
  | deleteContext id =>
    cases hv
    unfold deleteContext
    split <;> exact Or.inl rfl
  | _ =>
    cases hv
    exact Or.inl rfl

/-- A call that names a context and has not committed. -/
def Open (i : ℕ) (k : ContextId) (w : World) : Prop :=
  ∃ c, w.server.calls[i]? = some c ∧ c.request.contextId = some k ∧
    c.stage.isCommitted = false

/-- A call whose context was deleted does not commit. -/
theorem open_step {w w' : World} {all : Contexts} {operation : Operation} (h : Shadowed w all)
    (hstep : Step w operation w') {i : ℕ} {k : ContextId}
    (hgone : w.server.contexts.lookup k = none) (hopen : Open i k w) : Open i k w' := by
  obtain ⟨c, hc, hnamed, hrunning⟩ := hopen
  rcases calls_step hstep with hsame | ⟨action, rfl, hact⟩
  · exact ⟨c, hsame ▸ hc, hnamed, hrunning⟩
  · rcases step_cases w.server w'.server action hact with
      ⟨_, request, fresh, stops, _, hserver⟩ | ⟨j, d, stage, _, hd, hdrunning, hserver, hnext⟩ |
        ⟨j, d, p, output, shown, id, contexts, _, hd, hstage, hcommit, hserver⟩
    · refine ⟨c, ?_, hnamed, hrunning⟩
      obtain ⟨hlength, _⟩ := List.getElem?_eq_some_iff.mp hc
      rw [hserver]
      simp only [State.enter]
      rw [List.getElem?_append_left hlength]
      exact hc
    · by_cases hij : j = i
      · subst hij
        have hstill := (shadowed_goto h hd hdrunning hnext).2
        rw [hc] at hd
        cases hd
        refine ⟨{ c with stage := stage }, ?_, hnamed, hstill⟩
        rw [hserver]
        exact goto_self w.server j c c stage hc
      · refine ⟨c, ?_, hnamed, hrunning⟩
        rw [hserver]
        simp only [State.goto, List.getElem?_set, if_neg hij]
        exact hc
    · by_cases hij : j = i
      · subst hij
        rw [hc] at hd
        cases hd
        have hok := h.consistent.ok c (List.mem_of_getElem? hc)
        unfold CallOk at hok
        rw [hstage] at hok
        have hbase := hok.1.named
        rw [hnamed] at hbase
        obtain ⟨base, hcontext, hid⟩ := Option.map_eq_some_iff.mp hbase.symm
        obtain ⟨key, r, _, hfound, _⟩ := commit_writes hcommit
        obtain ⟨hkey, hsome⟩ := hfound base hcontext
        rw [hkey, hid] at hsome
        exact absurd hgone hsome
      · refine ⟨c, ?_, hnamed, hrunning⟩
        rw [hserver]
        simp only [State.goto, List.getElem?_set, if_neg hij]
        exact hc

theorem open_run {w w' : World} (hreach : Reaches Step w w') {all : Contexts}
    (h : Shadowed w all) {i : ℕ} {k : ContextId} (hpresent : all.lookup k ≠ none)
    (hgone : w.server.contexts.lookup k = none) (hopen : Open i k w) : Open i k w' := by
  obtain ⟨run, hrun, hlast⟩ := hreach
  induction run generalizing w all with
  | nil =>
    cases hlast
    exact hopen
  | cons x rest ih =>
    obtain ⟨operation, v⟩ := x
    obtain ⟨hstep, hrest⟩ := hrun
    obtain ⟨_, all₁, h₁, hgrows⟩ := shadowed_step h hstep
    exact ih h₁ (present_of_advances hgrows.advances hpresent) (hgrows.gone k hpresent hgone)
      (open_step h hstep hgone hopen) hrest hlast

/-- Whatever operations and infer calls interleave: a step changes the contexts by one commit, one
creation or one deletion; a context's record is only replaced by later ones; a context deleted is
never back, and no call over it commits; and no two calls commit over one revision. -/
theorem contexts_history {w₁ w₂ w₃ : World} (h₁ : Reaches Step World.new w₁)
    (h₂ : Reaches Step w₁ w₂) (h₃ : Reaches Step w₂ w₃) :
    (∀ operation w, Step w₃ operation w → Changes w₃ operation w) ∧
    (∀ k r r', w₁.server.contexts.lookup k = some r → w₂.server.contexts.lookup k = some r' →
      r' = r ∨ r.revision < r'.revision) ∧
    (∀ k, w₁.server.contexts.lookup k ≠ none → w₂.server.contexts.lookup k = none →
      w₃.server.contexts.lookup k = none ∧ ∀ i, Open i k w₂ → Open i k w₃) ∧
    ∀ (i j : ℕ) (c d : Call), w₃.server.calls[i]? = some c → w₃.server.calls[j]? = some d →
      SameBase c d → i = j := by
  obtain ⟨all₁, hs₁, _⟩ := shadowed_run h₁ shadowed_new
  obtain ⟨all₂, hs₂, hgrows₂⟩ := shadowed_run h₂ hs₁
  obtain ⟨all₃, hs₃, hgrows₃⟩ := shadowed_run h₃ hs₂
  refine ⟨fun operation w hstep => (shadowed_step hs₃ hstep).1, ?_, ?_, hs₃.consistent.once⟩
  · intro k r r' hr hr'
    obtain ⟨last, hlast, hnewer⟩ := hgrows₂.advances k r (hs₁.kept k r hr)
    rw [hs₂.kept k r' hr'] at hlast
    cases hlast
    exact hnewer
  · intro k hk hgone
    obtain ⟨r, hr⟩ := Option.ne_none_iff_exists'.mp hk
    have hpresent : all₁.lookup k ≠ none := by
      rw [hs₁.kept k r hr]
      exact Option.some_ne_none r
    have hpresent₂ := present_of_advances hgrows₂.advances hpresent
    exact ⟨hgrows₃.gone k hpresent₂ hgone,
      fun i hopen => open_run h₃ hs₂ hpresent₂ hgone hopen⟩

/-- One call over a context, up to its commit. -/
def readThenDeleted : List Operation :=
  [.infer (.enter askHi "fresh" (.ok [])),
    .infer (.prepare 0 (.error .forbidden) (some .running) (.ok ())), .infer (.read 0),
    .deleteContext "context"]

def finishes : List Operation := (generates 0 ++ [Action.commit 0]).map .infer

theorem deleted_under_call : ∃ w : World, Reaches Step World.new w ∧
    w.server.contexts.lookup "context" = none ∧ Open 0 "context" w := by
  have hrun : (trace World.operate World.new [.createContext "context"]).any (fun created =>
      (trace World.operate (last World.new created) readThenDeleted).any (fun deleted =>
        (trace World.operate (last (last World.new created) deleted) finishes).any (fun _ =>
          decide ((last World.new created).server.contexts.lookup "context" ≠ none ∧
            (last (last World.new created) deleted).server.contexts.lookup "context" = none) &&
          (last (last World.new created) deleted).server.calls[0]?.any (fun c =>
            decide (c.request.contextId = some "context" ∧ c.stage.isCommitted = false))))) =
        true := by
    decide +kernel
  obtain ⟨created, hcreated, hrun⟩ := (Option.any_eq_true _ _).mp hrun
  obtain ⟨deleted, hdeleted, hrun⟩ := (Option.any_eq_true _ _).mp hrun
  obtain ⟨finished, hfinished, hchecks⟩ := (Option.any_eq_true _ _).mp hrun
  rw [Bool.and_eq_true, decide_eq_true_eq] at hchecks
  obtain ⟨⟨hpresent, hgone⟩, hcall⟩ := hchecks
  obtain ⟨c, hc, hopen⟩ := (Option.any_eq_true _ _).mp hcall
  obtain ⟨hnamed, hrunning⟩ := of_decide_eq_true hopen
  have hrun₁ : IsRun Step World.new created := isRun_of_trace _ _ _ created hcreated
  have hrun₂ : IsRun Step (last World.new created) deleted :=
    isRun_of_trace _ _ _ deleted hdeleted
  have hrun₃ : IsRun Step (last (last World.new created) deleted) finished :=
    isRun_of_trace _ _ _ finished hfinished
  obtain ⟨_, _, hdeletion, _⟩ :=
    contexts_history ⟨created, hrun₁, rfl⟩ ⟨deleted, hrun₂, rfl⟩ ⟨finished, hrun₃, rfl⟩
  obtain ⟨hlost, hstays⟩ := hdeletion "context" hpresent hgone
  refine ⟨_, ⟨created ++ (deleted ++ finished), ?_, ?_⟩, hlost,
    hstays 0 ⟨c, hc, hnamed, hrunning⟩⟩
  · exact (isRun_append _ _ _ _).mpr ⟨hrun₁, (isRun_append _ _ _ _).mpr ⟨hrun₂, hrun₃⟩⟩
  · rw [last_append, last_append]

end Cusco.ServerContexts
