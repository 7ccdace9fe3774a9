import Cusco.Infer

/-!
Commits of infer calls. Revisions only grow, so the record a call finds under the revision
it read is the record it read; the commit is then computed from what it replaces, and a
second call that read the same revision fails. Every other step, and every error, leaves
the contexts alone.
-/

namespace Cusco.Infer

open Admission (ControlState)
open ContextStrategy Generation Runs Utf8

/-- The tokens of a context after the compaction that was asked for. -/
def compactedTokens (compaction : Option CompactionRequest) (tokens : List Token) : List Token :=
  match compaction with
  | none => tokens
  | some compaction =>
    match selectStrategy compaction.strategyPreferences with
    | none => tokens
    | some selected =>
      match applyWindowTailStrategy tokens (compaction.targetTokens.getD 3072) [selected] with
      | .ok proposal => proposal.resultingTokens
      | .error _ => tokens

/-- The record that a successful call puts in the place of the one it read. -/
def successor (request : InferRequest) (compaction : Option CompactionRequest)
    (base : ContextRecord) (shown : FrontierResult) (output : EngineOutput) : ContextRecord where
  id := base.id
  revision := base.revision + 1
  tokens := compactedTokens compaction base.tokens ++ splitWhitespace request.prompt.bytes ++
    splitWhitespace shown.text
  nativeTokens := output.successorTokens

/-- The record of a call without a context is the successor of an empty one. -/
def emptyRecord (id : ContextId) : ContextRecord := ⟨id, 0, [], []⟩

/-- A commit replaces the very record that the call has read, or makes a new one. -/
def Replaces (s t : State) (c : Call) (p : Progress) (output : EngineOutput)
    (shown : FrontierResult) : Prop :=
  match p.context with
  | some base =>
    c.request.contextId = some base.id ∧ s.contexts.lookup base.id = some base ∧
      t.contexts = s.contexts.insert base.id
        (successor c.request p.compaction base shown output)
  | none =>
    c.request.contextId = none ∧ s.contexts.lookup c.successorId = none ∧
      t.contexts = s.contexts.insert c.successorId
        (successor c.request p.compaction (emptyRecord c.successorId) shown output)

/-- The tokens the engine went on from: those of the context, or of the compacted prompt. -/
def Continues (p : Progress) : Prop :=
  p.tokens = compactedTokens p.compaction (p.context.elim [] ContextRecord.tokens) ∧
    (p.tokens = p.context.elim [] ContextRecord.tokens →
      p.priorTokens = p.context.elim [] ContextRecord.nativeTokens)

/-- A step leaves the contexts as they are, or is the commit with which one call succeeds. -/
def Atomic (s : State) (action : Action) (t : State) : Prop :=
  t.contexts = s.contexts ∨
    ∃ i c p output shown response, action = .commit i ∧ s.calls[i]? = some c ∧
      c.stage = .committing p output shown ∧
      t.calls[i]? = some { c with stage := .committed p response } ∧
      p.compaction.isSome = c.request.compaction.isSome ∧ Continues p ∧
      Replaces s t c p output shown

/-- Records are replaced only by records of later revisions. -/
def Advances (contexts contexts' : Table ContextId ContextRecord) : Prop :=
  ∀ k r, contexts.lookup k = some r →
    ∃ r', contexts'.lookup k = some r' ∧ (r' = r ∨ r.revision < r'.revision)

theorem Advances.refl (contexts : Table ContextId ContextRecord) : Advances contexts contexts :=
  fun _ r h => ⟨r, h, .inl rfl⟩

/-- What a call has read is still there, or is replaced by a later revision. -/
structure Source (contexts : Table ContextId ContextRecord) (request : InferRequest)
    (p : Progress) : Prop where
  asked : p.compaction.isSome = request.compaction.isSome
  named : request.contextId = p.context.map ContextRecord.id
  base : ∀ base, p.context = some base →
    ∃ r, contexts.lookup base.id = some r ∧ (r = base ∨ base.revision < r.revision)

def Raw (p : Progress) : Prop :=
  p.tokens = p.context.elim [] ContextRecord.tokens ∧
    p.priorTokens = p.context.elim [] ContextRecord.nativeTokens

/-- The context that a call replaced has moved on. -/
def Replaced (contexts : Table ContextId ContextRecord) (p : Progress) : Prop :=
  ∀ base, p.context = some base →
    ∃ r, contexts.lookup base.id = some r ∧ base.revision < r.revision

/-- The invariant of one call at its stage. -/
def CallOk (contexts : Table ContextId ContextRecord) (c : Call) : Prop :=
  match c.stage with
  | .entered _ => True
  | .prepared _ compaction => compaction.isSome = c.request.compaction.isSome
  | .loaded p => Source contexts c.request p ∧ Raw p
  | .compacting p proposal =>
    Source contexts c.request p ∧ Raw p ∧ proposal.resultingTokens ≠ p.tokens ∧
      proposal.resultingTokens = compactedTokens p.compaction p.tokens
  | .generating p => Source contexts c.request p ∧ Continues p
  | .committing p _ _ => Source contexts c.request p ∧ Continues p
  | .committed p _ => Replaced contexts p
  | .failed _ => True

def Stage.isCommitted : Stage → Bool
  | .committed _ _ => true
  | _ => false

/-- Two calls that committed over one revision of one context. -/
def SameBase (c d : Call) : Prop :=
  ∃ p r q r' base base', c.stage = .committed p r ∧ d.stage = .committed q r' ∧
    p.context = some base ∧ q.context = some base' ∧ base.id = base'.id ∧
    base.revision = base'.revision

structure Consistent (s : State) : Prop where
  keyed : ∀ k r, s.contexts.lookup k = some r → r.id = k
  ok : ∀ c ∈ s.calls, CallOk s.contexts c
  unissued : ∀ c ∈ s.calls, c.request.contextId = none → c.stage.isCommitted = false →
    s.contexts.lookup c.successorId = none
  distinct : ∀ (i j : ℕ) (c d : Call), s.calls[i]? = some c → s.calls[j]? = some d → i ≠ j →
    c.request.contextId = none → d.request.contextId = none → c.successorId ≠ d.successorId
  once : ∀ (i j : ℕ) (c d : Call), s.calls[i]? = some c → s.calls[j]? = some d → SameBase c d →
    i = j

theorem Consistent.initial (contexts : Table ContextId ContextRecord)
    (hkeyed : ∀ k r, contexts.lookup k = some r → r.id = k) :
    Consistent (State.initial contexts) where
  keyed := hkeyed
  ok := fun c hc => by cases hc
  unissued := fun c hc => by cases hc
  distinct := fun i j c d hc => by simp [State.initial] at hc
  once := fun i j c d hc => by simp [State.initial] at hc

theorem Source.advance {contexts contexts' : Table ContextId ContextRecord}
    {request : InferRequest} {p : Progress} (h : Source contexts request p)
    (hadvances : Advances contexts contexts') : Source contexts' request p where
  asked := h.asked
  named := h.named
  base := by
    intro base hbase
    obtain ⟨r, hr, hrev⟩ := h.base base hbase
    obtain ⟨r', hr', hrev'⟩ := hadvances base.id r hr
    refine ⟨r', hr', ?_⟩
    rcases hrev' with rfl | hlt
    · exact hrev
    · rcases hrev with rfl | hlt'
      · exact .inr hlt
      · exact .inr (hlt'.trans hlt)

theorem CallOk.advance {contexts contexts' : Table ContextId ContextRecord} {c : Call}
    (h : CallOk contexts c) (hadvances : Advances contexts contexts') : CallOk contexts' c := by
  unfold CallOk at h ⊢
  cases hstage : c.stage with
  | entered frontier => trivial
  | failed error => trivial
  | prepared frontier compaction => simpa [hstage] using h
  | loaded p =>
    simp only [hstage] at h
    exact ⟨h.1.advance hadvances, h.2⟩
  | compacting p proposal =>
    simp only [hstage] at h
    exact ⟨h.1.advance hadvances, h.2⟩
  | generating p =>
    simp only [hstage] at h
    exact ⟨h.1.advance hadvances, h.2⟩
  | committing p output shown =>
    simp only [hstage] at h
    exact ⟨h.1.advance hadvances, h.2⟩
  | committed p response =>
    simp only [hstage] at h
    intro base hbase
    obtain ⟨r, hr, hrev⟩ := h base hbase
    obtain ⟨r', hr', rfl | hlt⟩ := hadvances base.id r hr
    · exact ⟨r', hr', hrev⟩
    · exact ⟨r', hr', hrev.trans hlt⟩

theorem resolveCompaction_asked (request : InferRequest)
    (declaration : Except Error CompactionDeclaration) (compaction : Option CompactionRequest)
    (h : resolveCompaction request declaration = .ok compaction) :
    compaction.isSome = request.compaction.isSome := by
  unfold resolveCompaction at h
  cases hcompaction : request.compaction with
  | none =>
    simp only [hcompaction] at h
    cases h
    rfl
  | some asked =>
    simp only [hcompaction] at h
    cases hid : asked.declarationId with
    | none =>
      simp only [hid] at h
      cases h
      rfl
    | some id =>
      simp only [hid] at h
      cases declaration with
      | error error => cases h
      | ok declared =>
        cases hcontext : request.contextId with
        | none =>
          rw [hcontext] at h
          cases h
        | some contextId =>
          simp only [hcontext, bind, Except.bind, pure, Except.pure] at h
          split at h
          · cases h
          · cases h
            rfl

theorem prepare_asked (request : InferRequest)
    (declaration : Except Error CompactionDeclaration) (control : Option ControlState)
    (model : Except Error Unit) (compaction : Option CompactionRequest)
    (h : prepare request declaration control model = .ok compaction) :
    compaction.isSome = request.compaction.isSome := by
  unfold prepare at h
  cases hresolve : resolveCompaction request declaration with
  | error error =>
    rw [hresolve] at h
    cases h
  | ok resolved =>
    have hasked := resolveCompaction_asked request declaration resolved hresolve
    simp only [hresolve, bind, Except.bind, pure, Except.pure] at h
    split at h
    · cases h
    · split at h
      · cases h
      · split at h
        · cases h
        · split at h
          · cases h
          · cases h
            exact hasked

/-- Two progresses that differ in their frontier or their reported result only. -/
structure Alike (p q : Progress) : Prop where
  compaction : q.compaction = p.compaction
  context : q.context = p.context
  tokens : q.tokens = p.tokens
  priorTokens : q.priorTokens = p.priorTokens

theorem Source.alike {contexts : Table ContextId ContextRecord} {request : InferRequest}
    {p q : Progress} (h : Source contexts request p) (halike : Alike p q) :
    Source contexts request q where
  asked := by rw [halike.compaction, h.asked]
  named := by rw [halike.context, h.named]
  base := by
    intro base hbase
    rw [halike.context] at hbase
    exact h.base base hbase

theorem Raw.alike {p q : Progress} (h : Raw p) (halike : Alike p q) : Raw q := by
  unfold Raw
  rw [halike.context, halike.tokens, halike.priorTokens]
  exact h

theorem Continues.alike {p q : Progress} (h : Continues p) (halike : Alike p q) :
    Continues q := by
  unfold Continues
  rw [halike.context, halike.tokens, halike.priorTokens, halike.compaction]
  exact h

/-- A progress whose tokens the compaction leaves as they are goes on from them. -/
theorem Raw.continues {p : Progress} (h : Raw p)
    (hsame : p.tokens = compactedTokens p.compaction p.tokens) : Continues p := by
  refine ⟨?_, fun _ => h.2⟩
  rw [← h.1]
  exact hsame

/-- A compaction that needs no engine leaves the tokens; another one is a proposal. -/
theorem compact_ok (p : Progress) (control : ControlState) (stage : Stage)
    (h : compact p control = .ok stage) :
    ∃ q, Alike p q ∧
      ((stage = .generating q ∧ p.tokens = compactedTokens p.compaction p.tokens) ∨
        ∃ proposal, stage = .compacting q proposal ∧ proposal.resultingTokens ≠ p.tokens ∧
          proposal.resultingTokens = compactedTokens p.compaction p.tokens) := by
  obtain ⟨frontier, compaction, context, tokens, priorTokens, result⟩ := p
  have halike : ∀ reported, Alike ⟨frontier, compaction, context, tokens, priorTokens, result⟩
      ⟨frontier, compaction, context, tokens, priorTokens, reported⟩ :=
    fun _ => ⟨rfl, rfl, rfl, rfl⟩
  cases compaction with
  | none =>
    cases h
    exact ⟨_, halike result, .inl ⟨rfl, rfl⟩⟩
  | some compaction =>
    cases context with
    | none => cases h
    | some source =>
      simp only [compact, compactedTokens] at h ⊢
      cases hselect : selectStrategy compaction.strategyPreferences with
      | none =>
        simp only [hselect] at h ⊢
        by_cases hreject : compaction.fallbackWhenNoMatch = .reject
        · rw [if_pos hreject] at h
          cases h
        · rw [if_neg hreject] at h
          cases h
          exact ⟨_, halike _, .inl ⟨rfl, trivial⟩⟩
      | some selected =>
        cases selectStrategy_known _ _ hselect
        obtain ⟨proposal, hproposal⟩ := applyWindowTailStrategy_ok tokens
          (compaction.targetTokens.getD 3072) [windowTailStrategyId]
        simp only [hselect, hproposal] at h ⊢
        rw [if_neg (by decide), if_neg (by simp)] at h
        cases hcheck : check control with
        | error error =>
          simp only [hcheck] at h
          cases h
        | ok _ =>
          simp only [hcheck] at h
          by_cases hsame : proposal.resultingTokens = tokens
          · rw [if_neg (not_not.mpr hsame)] at h
            cases h
            exact ⟨_, halike _, .inl ⟨rfl, hsame.symm⟩⟩
          · rw [if_pos hsame] at h
            cases h
            exact ⟨_, halike _, .inr ⟨proposal, rfl, hsame, rfl⟩⟩

theorem takeProposal_ok (p q : Progress) (proposal : CompactionProposal)
    (output : Except Error EngineOutput) (control : ControlState)
    (h : takeProposal p proposal output control = .ok q) :
    q.compaction = p.compaction ∧ q.context = p.context ∧ q.tokens = proposal.resultingTokens := by
  unfold takeProposal at h
  cases output with
  | error error => cases h
  | ok prepared =>
    simp only [bind, Except.bind, pure, Except.pure] at h
    split at h
    · cases h
    · cases h
      exact ⟨rfl, rfl, rfl⟩

theorem takePiece_ok (request : InferRequest) (p q : Progress) (piece : List UInt8)
    (terminalOrControl late : Bool) (control : ControlState)
    (emit : List UInt8 → Except Error Unit)
    (h : takePiece request p piece terminalOrControl late control emit = .ok q) : Alike p q := by
  unfold takePiece at h
  split at h
  · cases h
  · split at h
    · cases h
    · cases h
      exact ⟨rfl, rfl, rfl, rfl⟩

theorem readContext_ok (s : State) (request : InferRequest) (context : Option ContextRecord)
    (hkeyed : ∀ k r, s.contexts.lookup k = some r → r.id = k)
    (h : s.readContext request = .ok context) :
    request.contextId = context.map ContextRecord.id ∧
      ∀ base, context = some base → s.contexts.lookup base.id = some base := by
  unfold State.readContext at h
  split at h
  · rename_i hnone
    cases h
    exact ⟨hnone, fun base hbase => by cases hbase⟩
  · rename_i id hid
    split at h
    · cases h
    · rename_i record hrecord
      cases h
      have hkey := hkeyed id record hrecord
      refine ⟨by rw [hid, Option.map_some, hkey], ?_⟩
      intro base hbase
      cases hbase
      rw [hkey]
      exact hrecord

/-- A part of a call ends in an error or in a stage that its success sets. -/
theorem after_ok {α : Type} (contexts : Table ContextId ContextRecord) (c : Call)
    (next : α → Stage) (e : Except Error α)
    (h : ∀ a, e = .ok a →
      CallOk contexts { c with stage := next a } ∧ (next a).isCommitted = false) :
    CallOk contexts { c with stage := .after next e } ∧
      (Stage.after next e).isCommitted = false := by
  cases e with
  | ok a => exact h a rfl
  | error error => exact ⟨trivial, rfl⟩

/-- A step of a call other than a commit keeps the invariant of the call. -/
theorem CallOk.next {s : State} {c : Call} {action : Action} {stage : Stage}
    (h : CallOk s.contexts c) (hkeyed : ∀ k r, s.contexts.lookup k = some r → r.id = k)
    (hnext : nextStage s c action = some stage) :
    CallOk s.contexts { c with stage := stage } ∧ stage.isCommitted = false := by
  obtain ⟨request, successorId, before⟩ := c
  cases action with
  | enter request fresh stops => cases hnext
  | commit i => cases hnext
  | prepare i declaration control model =>
    simp only [nextStage] at hnext
    split at hnext <;> cases hnext
    apply after_ok
    intro compaction hok
    exact ⟨prepare_asked request declaration control model compaction hok, rfl⟩
  | read i =>
    simp only [nextStage] at hnext
    split at hnext <;> cases hnext
    rename_i frontier compaction
    apply after_ok
    intro context hok
    obtain ⟨hnamed, hread⟩ := readContext_ok s request context hkeyed hok
    exact ⟨⟨⟨h, hnamed, fun base hbase => ⟨base, hread base hbase, .inl rfl⟩⟩, rfl, rfl⟩, rfl⟩
  | compact i control =>
    simp only [nextStage] at hnext
    split at hnext <;> cases hnext
    rename_i p
    apply after_ok
    intro stage hok
    obtain ⟨hsource, hraw⟩ := h
    obtain ⟨q, halike, ⟨rfl, hsame⟩ | ⟨proposal, rfl, hne, heq⟩⟩ := compact_ok p control stage hok
    · exact ⟨⟨hsource.alike halike, (hraw.continues hsame).alike halike⟩, rfl⟩
    · refine ⟨⟨hsource.alike halike, hraw.alike halike, ?_, ?_⟩, rfl⟩
      · rw [halike.tokens]
        exact hne
      · rw [halike.tokens, halike.compaction]
        exact heq
  | prepared i output control =>
    simp only [nextStage] at hnext
    split at hnext <;> cases hnext
    rename_i p proposal
    apply after_ok
    intro q hok
    obtain ⟨hsource, hraw, hne, heq⟩ := h
    obtain ⟨hcompaction, hcontext, htokens⟩ := takeProposal_ok p q proposal output control hok
    refine ⟨⟨⟨?_, ?_, ?_⟩, ?_, ?_⟩, rfl⟩
    · rw [hcompaction]
      exact hsource.asked
    · rw [hcontext]
      exact hsource.named
    · rw [hcontext]
      exact hsource.base
    · rw [htokens, hcompaction, hcontext, ← hraw.1]
      exact heq
    · intro hsame
      rw [htokens, hcontext, ← hraw.1] at hsame
      exact absurd hsame hne
  | piece i piece terminalOrControl late control emit =>
    simp only [nextStage] at hnext
    split at hnext <;> cases hnext
    rename_i p
    apply after_ok
    intro q hok
    have halike := takePiece_ok request p q piece terminalOrControl late control emit hok
    exact ⟨⟨h.1.alike halike, h.2.alike halike⟩, rfl⟩
  | generated i output emit control late =>
    simp only [nextStage] at hnext
    split at hnext <;> cases hnext
    rename_i p
    apply after_ok
    intro r _
    exact ⟨⟨⟨h.1.asked, h.1.named, h.1.base⟩, h.2⟩, rfl⟩

/-- A call that still takes steps has not committed. -/
theorem nextStage_running {s : State} {c : Call} {action : Action} {stage : Stage}
    (hnext : nextStage s c action = some stage) : c.stage.isCommitted = false := by
  cases hstage : c.stage <;> first
    | rfl
    | (cases action <;> simp [nextStage, hstage] at hnext)

/-- A section that commits finds the record that was read, or none under a new
identifier. -/
theorem commit_replaces (s t : State) (c : Call) (p : Progress) (output : EngineOutput)
    (shown : FrontierResult) (id : ContextId) (contexts : Table ContextId ContextRecord)
    (hsource : Source s.contexts c.request p) (hcontinues : Continues p)
    (hunissued : c.request.contextId = none → s.contexts.lookup c.successorId = none)
    (h : commit s.contexts c p output shown = .ok (id, contexts)) (ht : t.contexts = contexts) :
    Replaces s t c p output shown := by
  subst ht
  unfold commit at h
  unfold Replaces
  cases hcontext : p.context with
  | some base =>
    obtain ⟨r, hr, hrev⟩ := hsource.base base hcontext
    simp only [hcontext, hr] at h
    split at h
    · cases h
    · rename_i hsame
      have hbase : r = base := by
        rcases hrev with heq | hlt
        · exact heq
        · exact absurd (not_not.mp hsame) (Nat.ne_of_gt hlt)
      subst hbase
      injection h with h
      obtain ⟨_, hcontexts⟩ := Prod.mk.inj h
      have htokens : logicalContextTokens c.request p shown =
          (successor c.request p.compaction r shown output).tokens := by
        unfold logicalContextTokens successor
        rw [hcontinues.1, hcontext]
        rfl
      refine ⟨by rw [hsource.named, hcontext, Option.map_some], hr, ?_⟩
      rw [← hcontexts, htokens]
      rfl
  | none =>
    have hnamed : c.request.contextId = none := by
      rw [hsource.named, hcontext, Option.map_none]
    simp only [hcontext] at h
    injection h with h
    obtain ⟨_, hcontexts⟩ := Prod.mk.inj h
    have htokens : logicalContextTokens c.request p shown =
        (successor c.request p.compaction (emptyRecord c.successorId) shown output).tokens := by
      unfold logicalContextTokens successor
      rw [hcontinues.1, hcontext]
      rfl
    refine ⟨hnamed, hunissued hnamed, ?_⟩
    rw [← hcontexts, htokens]
    rfl

theorem insert_advances (contexts : Table ContextId ContextRecord) (k : ContextId)
    (r : ContextRecord) (h : ∀ old, contexts.lookup k = some old → old.revision < r.revision) :
    Advances contexts (contexts.insert k r) := by
  intro j old hold
  rw [AList.lookup_insert_ite]
  by_cases hj : j = k
  · subst hj
    exact ⟨r, if_pos rfl, .inr (h old hold)⟩
  · exact ⟨old, by rw [if_neg hj]; exact hold, .inl rfl⟩

/-- What a commit puts in, at which key, and that it is newer than what was there. -/
theorem Replaces.insert {s t : State} {c : Call} {p : Progress} {output : EngineOutput}
    {shown : FrontierResult} (h : Replaces s t c p output shown) :
    ∃ k r, t.contexts = s.contexts.insert k r ∧ r.id = k ∧
      (∀ old, s.contexts.lookup k = some old → old.revision < r.revision) ∧
      (∀ base, p.context = some base → base.id = k ∧ base.revision < r.revision ∧
        s.contexts.lookup k = some base) ∧
      (p.context = none → c.request.contextId = none ∧ c.successorId = k) ∧
      (p.context.isSome → s.contexts.lookup k ≠ none) := by
  unfold Replaces at h
  cases hcontext : p.context with
  | some base =>
    rw [hcontext] at h
    obtain ⟨_, hlookup, hcontexts⟩ := h
    refine ⟨base.id, _, hcontexts, rfl, ?_, ?_, by simp, ?_⟩
    · intro old hold
      rw [hlookup] at hold
      cases hold
      exact Nat.lt_succ_self _
    · intro base' hbase
      cases hbase
      exact ⟨rfl, Nat.lt_succ_self _, hlookup⟩
    · rw [hlookup]
      simp
  | none =>
    rw [hcontext] at h
    obtain ⟨hnamed, hlookup, hcontexts⟩ := h
    refine ⟨c.successorId, _, hcontexts, rfl, ?_, by simp, fun _ => ⟨hnamed, rfl⟩, by simp⟩
    intro old hold
    rw [hlookup] at hold
    cases hold

/-- A call enters, takes a step that leaves the contexts alone, or commits. -/
theorem step_cases (s t : State) (action : Action) (h : Step s action t) :
    (action.call = none ∧ ∃ request fresh stops, s.Unissued fresh ∧
      t = s.enter request fresh stops) ∨
    (∃ i c stage, action.call = some i ∧ s.calls[i]? = some c ∧
      c.stage.isCommitted = false ∧ t = s.goto i c stage ∧
      ((∃ error, stage = .failed error) ∨ nextStage s c action = some stage)) ∨
    ∃ i c p output shown id contexts, action = .commit i ∧ s.calls[i]? = some c ∧
      c.stage = .committing p output shown ∧
        commit s.contexts c p output shown = .ok (id, contexts) ∧
      t = { s with contexts := contexts }.goto i c
        (.committed p (response p output shown id)) := by
  have hother : ∀ i, action.call = some i →
      (s.calls[i]?.bind (fun c => (nextStage s c action).map (s.goto i c))) = some t →
      ∃ i c stage, action.call = some i ∧ s.calls[i]? = some c ∧
        c.stage.isCommitted = false ∧ t = s.goto i c stage ∧
        ((∃ error, stage = .failed error) ∨ nextStage s c action = some stage) := by
    intro i hi hstep
    obtain ⟨c, hc, hmap⟩ := Option.bind_eq_some_iff.mp hstep
    obtain ⟨stage, hstage, ht⟩ := Option.map_eq_some_iff.mp hmap
    exact ⟨i, c, stage, hi, hc, nextStage_running hstage, ht.symm, .inr hstage⟩
  cases action with
  | enter request fresh stops =>
    obtain ⟨hfresh, ht⟩ := Option.ite_none_right_eq_some.mp h
    exact .inl ⟨rfl, request, fresh, stops, hfresh, (Option.some.inj ht).symm⟩
  | commit i =>
    obtain ⟨c, hc, hcommit⟩ := Option.bind_eq_some_iff.mp h
    split at hcommit
    · rename_i p output shown hstage
      split at hcommit
      · rename_i error _
        exact .inr (.inl ⟨i, c, _, rfl, hc, by rw [hstage]; rfl, (Option.some.inj hcommit).symm,
          .inl ⟨error, rfl⟩⟩)
      · rename_i id contexts hok
        exact .inr (.inr ⟨i, c, p, output, shown, id, contexts, rfl, hc, hstage, hok,
          (Option.some.inj hcommit).symm⟩)
    · cases hcommit
  | _ => exact .inr (.inl (hother _ rfl h))

theorem goto_call (s : State) (i j : ℕ) (c d : Call) (stage : Stage)
    (h : (s.goto i c stage).calls[j]? = some d) :
    (j = i ∧ d = { c with stage := stage }) ∨ (j ≠ i ∧ s.calls[j]? = some d) := by
  simp only [State.goto, List.getElem?_set] at h
  by_cases hij : i = j
  · rw [if_pos hij] at h
    split at h
    · exact .inl ⟨hij.symm, (Option.some.inj h).symm⟩
    · cases h
  · rw [if_neg hij] at h
    exact .inr ⟨Ne.symm hij, h⟩

theorem goto_self (s : State) (i : ℕ) (c d : Call) (stage : Stage) (h : s.calls[i]? = some c) :
    (s.goto i d stage).calls[i]? = some { d with stage := stage } := by
  obtain ⟨hi, _⟩ := List.getElem?_eq_some_iff.mp h
  simp [State.goto, hi]

/-- The call that enters has not read anything, and has its own identifier. -/
theorem Consistent.enter {s : State} (h : Consistent s) (request : InferRequest)
    (fresh : ContextId) (stops : Except Error (List Text)) (hfresh : s.Unissued fresh) :
    Consistent (s.enter request fresh stops) := by
  obtain ⟨new, hcalls, hrequest, hid, hok, hrunning⟩ : ∃ new : Call,
      (s.enter request fresh stops).calls = s.calls ++ [new] ∧ new.request = request ∧
      new.successorId = request.contextId.getD fresh ∧ CallOk s.contexts new ∧
      new.stage.isCommitted = false := by
    refine ⟨_, rfl, rfl, rfl, ?_, ?_⟩
    · cases stops with
      | error error => trivial
      | ok stops =>
        simp only
        cases GenerationFrontier.newEffective stops request.rawContinuation <;> trivial
    · cases stops with
      | error error => rfl
      | ok stops =>
        simp only
        cases GenerationFrontier.newEffective stops request.rawContinuation <;> rfl
  have hmem : ∀ c ∈ (s.enter request fresh stops).calls, c ∈ s.calls ∨ c = new := by
    intro c hc
    rw [hcalls] at hc
    simpa using hc
  have hget : ∀ (i : ℕ) (c : Call), (s.enter request fresh stops).calls[i]? = some c →
      s.calls[i]? = some c ∨ (i = s.calls.length ∧ c = new) := by
    intro i c hc
    rw [hcalls] at hc
    rcases Nat.lt_or_ge i s.calls.length with hlt | hge
    · rw [List.getElem?_append_left hlt] at hc
      exact .inl hc
    · rw [List.getElem?_append_right hge] at hc
      have hlast : i - s.calls.length = 0 := by
        obtain ⟨hlt, _⟩ := List.getElem?_eq_some_iff.mp hc
        simpa using hlt
      rw [hlast] at hc
      exact .inr ⟨by omega, (Option.some.inj hc).symm⟩
  have hnew : new.request.contextId = none → new.successorId = fresh := by
    intro hnone
    rw [hrequest] at hnone
    rw [hid, hnone]
    rfl
  refine ⟨h.keyed, ?_, ?_, ?_, ?_⟩
  · intro c hc
    rcases hmem c hc with hc | rfl
    · exact h.ok c hc
    · exact hok
  · intro c hc hnone hcommitted
    rcases hmem c hc with hc | rfl
    · exact h.unissued c hc hnone hcommitted
    · rw [hnew hnone]
      exact hfresh.1
  · intro i j c d hc hd hij hcnone hdnone
    rcases hget i c hc with hc | ⟨hi, rfl⟩
    · rcases hget j d hd with hd | ⟨hj, rfl⟩
      · exact h.distinct i j c d hc hd hij hcnone hdnone
      · rw [hnew hdnone]
        exact hfresh.2 c (List.mem_of_getElem? hc) hcnone
    · rcases hget j d hd with hd | ⟨hj, rfl⟩
      · rw [hnew hcnone]
        exact (hfresh.2 d (List.mem_of_getElem? hd) hdnone).symm
      · exact absurd (hi.trans hj.symm) hij
  · intro i j c d hc hd hsame
    obtain ⟨p, r, q, r', base, base', hcstage, hdstage, hrest⟩ := hsame
    have hold : ∀ (k : ℕ) (e : Call) (p : Progress) (r : InferResponse),
        (s.enter request fresh stops).calls[k]? = some e → e.stage = .committed p r →
        s.calls[k]? = some e := by
      intro k e p r he hstage
      rcases hget k e he with he | ⟨_, rfl⟩
      · exact he
      · rw [hstage] at hrunning
        cases hrunning
    exact h.once i j c d (hold i c p r hc hcstage) (hold j d q r' hd hdstage)
      ⟨p, r, q, r', base, base', hcstage, hdstage, hrest⟩

/-- A call that goes on without a commit. -/
theorem Consistent.move {s : State} (h : Consistent s) (i : ℕ) (c : Call) (stage : Stage)
    (hc : s.calls[i]? = some c) (hrunning : c.stage.isCommitted = false)
    (hok : CallOk s.contexts { c with stage := stage }) (hstage : stage.isCommitted = false) :
    Consistent (s.goto i c stage) := by
  have hmem := List.mem_of_getElem? hc
  have hset : ∀ d ∈ (s.goto i c stage).calls, d ∈ s.calls ∨ d = { c with stage := stage } :=
    fun d hd => List.mem_or_eq_of_mem_set hd
  refine ⟨h.keyed, ?_, ?_, ?_, ?_⟩
  · intro d hd
    rcases hset d hd with hd | rfl
    · exact h.ok d hd
    · exact hok
  · intro d hd hnone hcommitted
    rcases hset d hd with hd | rfl
    · exact h.unissued d hd hnone hcommitted
    · exact h.unissued c hmem hnone hrunning
  · intro j k d e hd he hjk hdnone henone
    rcases goto_call s i j c d stage hd with ⟨rfl, rfl⟩ | ⟨_, hd⟩
    · rcases goto_call s j k c e stage he with ⟨rfl, rfl⟩ | ⟨_, he⟩
      · exact absurd rfl hjk
      · exact h.distinct j k c e hc he hjk hdnone henone
    · rcases goto_call s i k c e stage he with ⟨hk, rfl⟩ | ⟨_, he⟩
      · rw [hk] at hjk
        exact h.distinct j i d c hd hc hjk hdnone henone
      · exact h.distinct j k d e hd he hjk hdnone henone
  · intro j k d e hd he hsame
    obtain ⟨p, r, q, r', base, base', hdstage, hestage, hrest⟩ := hsame
    have hold : ∀ (k : ℕ) (e : Call) (p : Progress) (r : InferResponse),
        (s.goto i c stage).calls[k]? = some e → e.stage = .committed p r →
        s.calls[k]? = some e := by
      intro k e p r he hcommitted
      rcases goto_call s i k c e stage he with ⟨_, rfl⟩ | ⟨_, he⟩
      · rw [show stage = .committed p r from hcommitted] at hstage
        cases hstage
      · exact he
    exact h.once j k d e (hold j d p r hd hdstage) (hold k e q r' he hestage)
      ⟨p, r, q, r', base, base', hdstage, hestage, hrest⟩

/-- A commit moves one context on, and its call is the only one over that revision. -/
theorem Consistent.commit {s : State} (h : Consistent s) (i : ℕ) (c : Call) (p : Progress)
    (output : EngineOutput) (shown : FrontierResult) (contexts : Table ContextId ContextRecord)
    (answer : InferResponse) (hc : s.calls[i]? = some c)
    (hreplaces : Replaces s ({ s with contexts := contexts }.goto i c (.committed p answer)) c p
      output shown) :
    Consistent ({ s with contexts := contexts }.goto i c (.committed p answer)) := by
  obtain ⟨k, r, hcontexts, hkey, hnewer, hbase, hnone, hsome⟩ := hreplaces.insert
  change contexts = s.contexts.insert k r at hcontexts
  have hadvances : Advances s.contexts contexts := by
    rw [hcontexts]
    exact insert_advances s.contexts k r hnewer
  have hlookup : ∀ j, contexts.lookup j = if j = k then some r else s.contexts.lookup j := by
    intro j
    rw [hcontexts, AList.lookup_insert_ite]
  have hcases := fun (j : ℕ) (d : Call) =>
    goto_call { s with contexts := contexts } i j c d (.committed p answer)
  have hset : ∀ d ∈ ({ s with contexts := contexts }.goto i c (.committed p answer)).calls,
      d ∈ s.calls ∨ d = { c with stage := .committed p answer } :=
    fun d hd => List.mem_or_eq_of_mem_set hd
  refine ⟨?_, ?_, ?_, ?_, ?_⟩
  · intro j record hrecord
    change contexts.lookup j = some record at hrecord
    rw [hlookup] at hrecord
    split at hrecord
    · rename_i hj
      cases hrecord
      rw [hj, hkey]
    · exact h.keyed j record hrecord
  · intro d hd
    rcases hset d hd with hd | rfl
    · exact (h.ok d hd).advance hadvances
    · intro base hcontext
      obtain ⟨hid, hrev, _⟩ := hbase base hcontext
      exact ⟨r, by rw [State.goto, hlookup, if_pos hid], hrev⟩
  · intro d hd hdnone hcommitted
    obtain ⟨j, hj⟩ := List.getElem?_of_mem hd
    rcases hcases j d hj with ⟨_, rfl⟩ | ⟨hji, hj⟩
    · cases hcommitted
    · have hunissued := h.unissued d (List.mem_of_getElem? hj) hdnone hcommitted
      have hne : d.successorId ≠ k := by
        intro heq
        cases hcontext : p.context with
        | some base =>
          rw [heq] at hunissued
          exact hsome (by rw [hcontext]; rfl) hunissued
        | none =>
          obtain ⟨hcnone, hid⟩ := hnone hcontext
          exact h.distinct j i d c hj hc hji hdnone hcnone (heq.trans hid.symm)
      change contexts.lookup d.successorId = none
      rw [hlookup, if_neg hne]
      exact hunissued
  · intro j l d e hd he hjl hdnone henone
    rcases hcases j d hd with ⟨hj, rfl⟩ | ⟨_, hd⟩
    · rcases hcases l e he with ⟨hl, rfl⟩ | ⟨_, he⟩
      · exact absurd (hj.trans hl.symm) hjl
      · rw [hj] at hjl
        exact h.distinct i l c e hc he hjl hdnone henone
    · rcases hcases l e he with ⟨hl, rfl⟩ | ⟨_, he⟩
      · rw [hl] at hjl
        exact h.distinct j i d c hd hc hjl hdnone henone
      · exact h.distinct j l d e hd he hjl hdnone henone
  · have hearlier : ∀ d ∈ s.calls, ∀ q r', d.stage = .committed q r' → ∀ base base',
        p.context = some base → q.context = some base' → base.id = base'.id →
        base.revision ≠ base'.revision := by
      intro d hd q r' hstage base base' hp hq hid hrev
      have hok := h.ok d hd
      unfold CallOk at hok
      rw [hstage] at hok
      obtain ⟨current, hcurrent, hlt⟩ := hok base' hq
      obtain ⟨hidk, _, hread⟩ := hbase base hp
      rw [← hid, hidk, hread] at hcurrent
      cases hcurrent
      exact Nat.lt_irrefl _ (hrev ▸ hlt)
    intro j l d e hd he hsame
    obtain ⟨q, r₁, q', r₂, base, base', hdstage, hestage, hq, hq', hid, hrev⟩ := hsame
    rcases hcases j d hd with ⟨hj, rfl⟩ | ⟨_, hd⟩
    · rcases hcases l e he with ⟨hl, rfl⟩ | ⟨_, he⟩
      · exact hj.trans hl.symm
      · cases hdstage
        exact absurd hrev
          (hearlier e (List.mem_of_getElem? he) q' r₂ hestage base base' hq hq' hid)
    · rcases hcases l e he with ⟨hl, rfl⟩ | ⟨_, he⟩
      · cases hestage
        exact absurd hrev.symm
          (hearlier d (List.mem_of_getElem? hd) q r₁ hdstage base' base hq' hq hid.symm)
      · exact h.once j l d e hd he
          ⟨q, r₁, q', r₂, base, base', hdstage, hestage, hq, hq', hid, hrev⟩

/-- The invariant of one step, and what the step does to the contexts. -/
theorem consistent_step (s t : State) (action : Action) (h : Consistent s)
    (hstep : Step s action t) : Consistent t ∧ Atomic s action t := by
  rcases step_cases s t action hstep with
    ⟨_, request, fresh, stops, hfresh, rfl⟩ | ⟨i, c, stage, _, hc, hrunning, rfl, hnext⟩ |
      ⟨i, c, p, output, shown, id, contexts, rfl, hc, hstage, hcommit, rfl⟩
  · exact ⟨h.enter request fresh stops hfresh, .inl rfl⟩
  · refine ⟨?_, .inl rfl⟩
    rcases hnext with ⟨error, rfl⟩ | hnext
    · exact h.move i c _ hc hrunning trivial rfl
    · obtain ⟨hok, hopen⟩ := (h.ok c (List.mem_of_getElem? hc)).next h.keyed hnext
      exact h.move i c stage hc hrunning hok hopen
  · have hmem := List.mem_of_getElem? hc
    have hrunning : c.stage.isCommitted = false := by
      rw [hstage]
      rfl
    have hok := h.ok c hmem
    unfold CallOk at hok
    rw [hstage] at hok
    obtain ⟨hsource, hcontinues⟩ := hok
    have hreplaces := commit_replaces s
      ({ s with contexts := contexts }.goto i c (.committed p (response p output shown id))) c p
      output shown id contexts hsource hcontinues
      (fun hnone => h.unissued c hmem hnone hrunning) hcommit rfl
    refine ⟨h.commit i c p output shown contexts _ hc hreplaces, .inr ?_⟩
    exact ⟨i, c, p, output, shown, _, rfl, hc, hstage,
      goto_self { s with contexts := contexts } i c c _ hc, hsource.asked, hcontinues, hreplaces⟩

/-- A call that has committed. -/
def Committed (i : ℕ) (s : State) : Prop :=
  ∃ c, s.calls[i]? = some c ∧ c.stage.isCommitted = true

theorem step_commits (i : ℕ) (s : State) (action : Action) (t : State)
    (hstep : Step s action t) :
    (action.call = some i → t.contexts = s.contexts) ∨ Committed i t := by
  rcases step_cases s t action hstep with
    ⟨_, request, fresh, stops, _, rfl⟩ | ⟨j, c, stage, _, _, _, rfl, _⟩ |
      ⟨j, c, p, output, shown, id, contexts, rfl, hc, _, _, rfl⟩
  · exact .inl (fun _ => rfl)
  · exact .inl (fun _ => rfl)
  · by_cases hij : j = i
    · subst hij
      exact .inr ⟨_, goto_self { s with contexts := contexts } j c c _ hc, rfl⟩
    · exact .inl (fun hcall => absurd (Option.some.inj hcall) hij)

theorem committed_stays (i : ℕ) (s : State) (action : Action) (t : State)
    (hstep : Step s action t) (h : Committed i s) : Committed i t := by
  obtain ⟨d, hd, hcommitted⟩ := h
  have hother : ∀ (contexts : Table ContextId ContextRecord) (j : ℕ) (c : Call) (stage : Stage),
      s.calls[j]? = some c → c.stage.isCommitted = false →
      Committed i ({ s with contexts := contexts }.goto j c stage) := by
    intro contexts j c stage hc hrunning
    have hij : j ≠ i := by
      rintro rfl
      rw [hc] at hd
      cases hd
      rw [hrunning] at hcommitted
      cases hcommitted
    refine ⟨d, ?_, hcommitted⟩
    simp only [State.goto, List.getElem?_set, if_neg hij]
    exact hd
  rcases step_cases s t action hstep with
    ⟨_, request, fresh, stops, _, rfl⟩ | ⟨j, c, stage, _, hc, hrunning, rfl, _⟩ |
      ⟨j, c, p, output, shown, id, contexts, rfl, hc, hstage, _, rfl⟩
  · obtain ⟨hi, _⟩ := List.getElem?_eq_some_iff.mp hd
    refine ⟨d, ?_, hcommitted⟩
    simp only [State.enter]
    rw [List.getElem?_append_left hi]
    exact hd
  · exact hother s.contexts j c stage hc hrunning
  · exact hother contexts j c _ hc (by rw [hstage]; rfl)

/-- In every run, a context changes only by the commit of one successful call over the
record it read; a call that failed changed nothing; and no two calls have committed
over one revision. -/
theorem infer_atomic (contexts : Table ContextId ContextRecord)
    (hkeyed : ∀ k r, contexts.lookup k = some r → r.id = k) (run : List (Action × State))
    (hrun : IsRun Step (State.initial contexts) run) :
    Along Atomic (State.initial contexts) run ∧
    (∀ (i : ℕ) (c : Call) (error : Error), (last (State.initial contexts) run).calls[i]? = some c →
      c.stage = .failed error →
      Along (fun s action t => action.call = some i → t.contexts = s.contexts)
        (State.initial contexts) run) ∧
    ∀ (i j : ℕ) (c d : Call), (last (State.initial contexts) run).calls[i]? = some c →
      (last (State.initial contexts) run).calls[j]? = some d → SameBase c d → i = j := by
  have hconsistent := Consistent.initial contexts hkeyed
  refine ⟨?_, ?_, ?_⟩
  · exact along_of_invariant Step Consistent Atomic
      (fun s action t h hstep => consistent_step s t action h hstep) _ run hconsistent hrun
  · intro i c error hc hfailed
    refine along_of_last Step _ (Committed i) (step_commits i) (committed_stays i) _ run hrun ?_
    rintro ⟨d, hd, hcommitted⟩
    rw [hc] at hd
    cases hd
    rw [hfailed] at hcommitted
    cases hcommitted
  · exact (invariant_of_run Step Consistent
      (fun s action t h hstep => (consistent_step s t action h hstep).1) _ run hconsistent
      hrun).once

def hi : Text := ⟨[0x68, 0x69], [[0x68], [0x69]], by decide, rfl⟩

def askHi : InferRequest where
  prompt := hi
  maxTokens := 1
  contextId := some "context"
  deadlineMs := none
  stop := []
  rawContinuation := false
  compaction := none

/-- One context of one word. -/
def oneContext : Table ContextId ContextRecord :=
  (∅ : Table ContextId ContextRecord).insert "context" ⟨"context", 3, [[0x6F]], [7]⟩

def accepts (_ : List UInt8) : Except Error Unit := .ok ()

/-- The steps of a call up to its commit; it generates one word. -/
def generates (i : ℕ) : List Action :=
  [.compact i .running, .piece i [0x79, 0x6F] false false .running accepts,
    .generated i (.ok ⟨[7, 8], 1, 0, 1⟩) accepts .running false]

/-- Both calls read before either commits. -/
def bothRead : List Action :=
  [.enter askHi "fresh" (.ok []), .enter askHi "other" (.ok []),
    .prepare 0 (.error .forbidden) (some .running) (.ok ()),
    .prepare 1 (.error .forbidden) (some .running) (.ok ()), .read 0, .read 1] ++
    generates 0 ++ generates 1 ++ [.commit 1, .commit 0]

theorem infer_atomic_second :
    ∃ run, IsRun Step (State.initial oneContext) run ∧
      (last (State.initial oneContext) run).contexts.lookup "context" =
        some ⟨"context", 4, [[0x6F], [0x68, 0x69], [0x79, 0x6F]], [7, 8]⟩ ∧
      Along Atomic (State.initial oneContext) run ∧
      Along (fun s action t => action.call = some 0 → t.contexts = s.contexts)
        (State.initial oneContext) run := by
  have hkeyed : ∀ k r, oneContext.lookup k = some r → r.id = k := by
    intro k r hr
    rw [oneContext, AList.lookup_insert_ite] at hr
    split at hr
    · rename_i hk
      cases hr
      exact hk.symm
    · cases hr
  have hrun : (trace act (State.initial oneContext) bothRead).any (fun run =>
      decide ((last (State.initial oneContext) run).contexts.lookup "context" =
        some ⟨"context", 4, [[0x6F], [0x68, 0x69], [0x79, 0x6F]], [7, 8]⟩ ∧
      (last (State.initial oneContext) run).calls[0]?.map Call.stage =
        some (.failed (state "context changed during compaction")))) = true := by
    decide +kernel
  obtain ⟨run, htrace, hchecks⟩ := (Option.any_eq_true _ _).mp hrun
  obtain ⟨hcontext, hfailed⟩ := of_decide_eq_true hchecks
  have hsteps := isRun_of_trace _ _ _ run htrace
  obtain ⟨c, hc, hstage⟩ := Option.map_eq_some_iff.mp hfailed
  have hatomic := infer_atomic oneContext hkeyed run hsteps
  exact ⟨run, hsteps, hcontext, hatomic.1, hatomic.2.1 0 c _ hc hstage⟩

end Cusco.Infer
