import Cusco.EngineInvariant
import Cusco.MappedSessions

/-!
The operations of the mapped engine keep its invariant. An operation begun in a sound state
leaves a sound state that evolved from it, whether it returns a value or an error; what it
returns is said in the triples.
-/

namespace Cusco.EngineOperations

open Calls LogicalStore Physical Mapped StoreAccounts PinnedCatalogue EngineFrames EngineInvariant
open Calls.Call (Moves Triple)

variable {Logits Sampler : Type} {sha : List UInt8 → Digest} {e : MappedEngine}
  {b : Backend Logits Sampler} {own : Option LogicalContextId}
  {branch : Option RepresentationHandle} {s₀ : MappedState Logits}

section Executor

variable {P : MappedState Logits → Prop}

/-- A predicate on what an operation aside leaves alone. -/
def Stable (P : MappedState Logits → Prop) : Prop := ∀ s t, Aside s t → P s → P t

theorem Stable.and {Q : MappedState Logits → Prop} (hP : Stable P) (hQ : Stable Q) :
    Stable (fun s => P s ∧ Q s) :=
  fun s t ha h => ⟨hP s t ha h.1, hQ s t ha h.2⟩

theorem stable_aside (a : MappedState Logits) : Stable (Aside a) :=
  fun s t hst has => Aside.trans a s t has hst

theorem stable_held : Stable (Held sha e b own branch s₀) :=
  fun _ _ ha h => h.of_aside ha

theorem stable_tokens (h : RepresentationHandle) (tokens : List Token) :
    Stable (fun s : MappedState Logits => s.executor.tokensOf h = tokens) := by
  intro s t ha hs
  exact (ha.tokensOf h).trans hs

/-- The state that is read stays as it was but for what operations aside change. -/
theorem triple_read_aside {β : Type} {f : MappedState Logits → Operation Logits β}
    {Q : β → MappedState Logits → Prop} {E : MappedState Logits → Prop}
    (hf : ∀ a, P a → Triple (fun s => Aside a s ∧ P s) (f a) Q E) :
    Triple P (Call.read >>= f) Q E := by
  apply Triple.read_bind
  intro a ha
  apply (hf a ha).before
  rintro s rfl
  exact ⟨Aside.refl s, ha⟩

theorem triple_askLogical {α : Type} (f : ContextStore → Except LogicalStore.Error α) :
    Triple P (askLogical f) (fun a s => P s ∧ f s.logical = .ok a) P := by
  apply Triple.of_run
  intro s hs
  unfold askLogical onLogical Call.within
  cases hf : f s.logical with
  | ok a =>
    simp only [hf]
    refine ⟨?_, fun err t hrun => (nomatch hrun)⟩
    intro a' t hrun
    cases hrun
    exact ⟨hs, hf⟩
  | error err =>
    simp only [hf]
    refine ⟨fun a t hrun => (nomatch hrun), ?_⟩
    intro err' t hrun
    cases hrun
    exact hs

theorem triple_onPhysical {α : Type} (x : Physical.Operation α)
    (hP : ∀ s p, P s → P { s with physical := p }) :
    Triple P (onPhysical x) (fun _ => P) P := by
  apply Triple.of_moves (R := fun s t => ∃ p, t = { s with physical := p })
  · exact Moves.within (fun p s => ⟨p, rfl⟩)
  · rintro s t ⟨p, rfl⟩ hs
    exact hP s p hs

theorem triple_activateMapping (h : RepresentationHandle) (hP : Stable P) :
    Triple P (activateMapping h) (fun _ s => P s ∧ s.executor.active = h) P := by
  unfold activateMapping
  apply Triple.bind (R := fun _ => P) (triple_aside (aside_attempt _) hP)
  intro _
  apply Triple.update
  intro s hs
  exact ⟨hP s _ ⟨rfl, rfl, rfl, rfl, rfl, rfl, rfl, rfl⟩ hs, rfl⟩

theorem held_entered {s : MappedState Logits} (h : Held sha e b own branch s₀ s)
    (tokens : List Token) :
    Held sha e b own branch s₀ { s with executor := s.executor.enter tokens } := by
  have hold : ∀ k : RepresentationHandle, k.identity < s.executor.nextIdentity →
      (s.executor.enter tokens).tokensOf k = s.executor.tokensOf k := by
    intro k hk
    have hne : k ≠ ⟨s.executor.nextIdentity⟩ := by
      intro heq
      rw [heq] at hk
      exact absurd hk (lt_irrefl _)
    unfold Executor.tokensOf Executor.enter
    rw [AList.lookup_insert_ne hne]
  refine ⟨⟨h.evolves.root, h.evolves.modelEpoch, h.evolves.next, h.evolves.contexts,
    h.evolves.present, h.evolves.created, h.evolves.mappings,
    h.evolves.identities.trans (Nat.le_succ _), ?_, h.evolves.natives⟩,
    ⟨h.sound.accounted, h.sound.pinned, h.sound.blocks, h.sound.resident, ?_, h.sound.spilled,
    h.sound.bounded, h.sound.root_issued.trans (Nat.lt_succ_self _), ?_⟩⟩
  · intro k hk hbranch
    exact (hold k (hk.trans_le h.evolves.identities)).trans (h.evolves.evaluated k hk hbranch)
  · intro m r hr
    obtain ⟨entry, hentry, hf⟩ := h.sound.faithful m r hr
    refine ⟨entry, hentry, hf.either, ?_, hf.spill, hf.continuation⟩
    intro k hk
    obtain ⟨hissued, htokens⟩ := hf.native k hk
    exact ⟨hissued.trans (Nat.lt_succ_self _), (hold k hissued).trans htokens⟩
  · exact (hold _ h.sound.root_issued).trans h.sound.root_empty

theorem native_issued {s : MappedState Logits} (h : Sound sha e b s) {m : EvaluatedPrefixId}
    {k : RepresentationHandle} (hk : s.nativeOf m = some k) :
    k.identity < s.executor.nextIdentity := by
  obtain ⟨r, hr, hnative⟩ := Option.bind_eq_some_iff.mp hk
  obtain ⟨entry, _, hf⟩ := h.faithful m r hr
  exact (hf.native k hnative).1

/-- A representation just entered is unshared. -/
theorem fresh_entered {s : MappedState Logits} (h : Held sha e b own branch s₀ s)
    (tokens : List Token) :
    Unshared { s with executor := s.executor.enter tokens } ⟨s.executor.nextIdentity⟩ where
  issued := Nat.lt_succ_self _
  root := by
    intro heq
    have hissued := h.sound.root_issued
    rw [show s.root = ⟨s.executor.nextIdentity⟩ from heq.symm] at hissued
    exact absurd hissued (lt_irrefl _)
  native := by
    intro m hm
    exact absurd (native_issued h.sound hm) (lt_irrefl _)

/-- The tokens of a representation just entered. -/
theorem tokensOf_enter (x : Executor) (tokens : List Token) :
    (x.enter tokens).tokensOf ⟨x.nextIdentity⟩ = tokens := by
  unfold Executor.tokensOf Executor.enter
  rw [AList.lookup_insert]
  rfl

theorem enterRepresentation_held (tokens : List Token) (hP : Stable P)
    (henter : ∀ s, P s → P { s with executor := s.executor.enter tokens }) :
    Triple (fun s => Held sha e b own branch s₀ s ∧ P s) (enterRepresentation tokens)
      (fun h s => (Held sha e b own branch s₀ s ∧ P s) ∧ Unshared s h ∧
        s₀.executor.nextIdentity ≤ h.identity ∧ s.executor.tokensOf h = tokens)
      (Held sha e b own branch s₀) := by
  unfold enterRepresentation
  apply Triple.bind (R := fun _ s => Held sha e b own branch s₀ s ∧ P s)
  · exact (triple_aside (aside_attempt _) (stable_held.and hP)).weaken (fun _ h => h)
      (fun _ _ h => h) (fun _ h => h.1)
  · intro _
    apply Triple.read_bind
    intro a ⟨hheld, hp⟩
    apply Triple.bind (R := fun _ s => s = { a with executor := a.executor.enter tokens })
    · apply Triple.update
      rintro s rfl
      rfl
    · intro _
      apply Triple.pure
      rintro s rfl
      exact ⟨⟨held_entered hheld tokens, henter a hp⟩, fresh_entered hheld tokens,
        hheld.evolves.identities,
        tokensOf_enter a.executor tokens⟩

theorem triple_prepareMappingFork (source : RepresentationHandle) (hP : Stable P) :
    Triple P (prepareMappingFork source)
      (fun tokens s => P s ∧ tokens = s.executor.tokensOf source) P := by
  unfold prepareMappingFork
  apply Triple.bind (R := fun _ => P) (triple_aside (aside_attempt _) hP)
  intro _
  apply Triple.read_bind
  intro a ha
  apply Triple.pure
  rintro s rfl
  exact ⟨ha, rfl⟩

theorem active_attempt {err : Mapped.Error} {h : RepresentationHandle} (hP : Stable P) :
    Triple (fun s => P s ∧ s.executor.active = h) (attempt err)
      (fun _ s => P s ∧ s.executor.active = h) P := by
  apply Triple.of_run
  intro s ⟨hs, hsame⟩
  refine ⟨?_, fun _ t hrun => hP s t (aside_attempt _ s _ t hrun) hs⟩
  intro a t hrun
  refine ⟨hP s t (aside_attempt _ s (.ok a) t hrun) hs, ?_⟩
  unfold attempt at hrun
  rcases hout : s.outside with _ | ⟨_ | _, rest⟩
  · simp only [hout] at hrun
    cases hrun
    exact hsame
  · simp only [hout] at hrun
    cases hrun
    exact hsame
  · simp only [hout] at hrun
    cases hrun

/-- What is said of the active representation is said of the one returned. -/
theorem triple_activeRepresentation {P : RepresentationHandle → MappedState Logits → Prop}
    (hP : ∀ h, Stable (P h)) :
    Triple (fun s => P s.executor.active s) activeRepresentation P (fun s => ∃ h, P h s) := by
  intro s hs
  have hfixed : Triple (fun t => P s.executor.active t ∧ t.executor.active = s.executor.active)
      activeRepresentation P (fun t => ∃ h, P h t) := by
    unfold activeRepresentation
    apply Triple.bind ((active_attempt (hP _)).weaken (fun _ h => h) (fun _ _ h => h)
      (fun _ h => ⟨_, h⟩))
    intro _
    apply Triple.read_bind
    intro a ⟨ha, hsame⟩
    apply Triple.pure
    rintro t rfl
    rw [hsame]
    exact ha
  exact hfixed s ⟨hs, rfl⟩

/-- A decode in the caller's own representation. -/
theorem decodeTokens_held (own : Option LogicalContextId) {h : RepresentationHandle}
    (hbranch : branch = some h) (before tokens : List Token) :
    Triple (fun s => (Held sha e b own branch s₀ s ∧ Unshared s h ∧
        s.executor.tokensOf h = before) ∧ s.executor.active = h) (decodeTokens b tokens)
      (fun next s => Held sha e b own branch s₀ s ∧ Unshared s h ∧
        s.executor.tokensOf h = before ++ tokens ∧ next = b.logits (before ++ tokens))
      (Held sha e b own branch s₀) := by
  have hwritten : ∀ (s : MappedState Logits) (tokens' : List Token) (outside : List Answer),
      Held sha e b own branch s₀ s → Unshared s h → s.executor.active = h →
      Held sha e b own branch s₀
          { s with executor := s.executor.write tokens', outside := outside } ∧
        Unshared { s with executor := s.executor.write tokens', outside := outside } h ∧
        (s.executor.write tokens').tokensOf h = tokens' := by
    intro s tokens' outside hheld hown hactive
    have hothers : ∀ k, k ≠ h → (s.executor.write tokens').tokensOf k =
        s.executor.tokensOf k := by
      intro k hk
      unfold Executor.tokensOf Executor.write
      rw [AList.lookup_insert_ne (hactive ▸ hk)]
    refine ⟨⟨⟨hheld.evolves.root, hheld.evolves.modelEpoch, hheld.evolves.next,
      hheld.evolves.contexts, hheld.evolves.present, hheld.evolves.created, hheld.evolves.mappings,
      hheld.evolves.identities, ?_, hheld.evolves.natives⟩, ⟨hheld.sound.accounted,
      hheld.sound.pinned, hheld.sound.blocks, hheld.sound.resident, ?_, hheld.sound.spilled,
      hheld.sound.bounded, hheld.sound.root_issued, ?_⟩⟩,
      ⟨hown.issued, hown.root, hown.native⟩, ?_⟩
    · intro k hk hne
      rw [← hheld.evolves.evaluated k hk hne]
      apply hothers
      intro heq
      exact hne (heq ▸ hbranch)
    · intro m r hr
      obtain ⟨entry, hentry, hf⟩ := hheld.sound.faithful m r hr
      refine ⟨entry, hentry, hf.either, ?_, hf.spill, hf.continuation⟩
      intro k hk
      obtain ⟨hissued, htokens⟩ := hf.native k hk
      refine ⟨hissued, (hothers k ?_).trans htokens⟩
      rintro rfl
      apply hown.native m
      unfold MappedState.nativeOf
      rw [hr, Option.bind_some, hk]
    · exact (hothers _ hown.root.symm).trans hheld.sound.root_empty
    · unfold Executor.tokensOf Executor.write
      rw [hactive, AList.lookup_insert]
      rfl
  apply Triple.of_run
  intro s ⟨⟨hheld, hown, hbefore⟩, hactive⟩
  have hall : s.executor.tokensOf s.executor.active ++ tokens = before ++ tokens := by
    rw [hactive, hbefore]
  refine ⟨?_, ?_⟩
  · intro next t hrun
    unfold decodeTokens at hrun
    simp only [hall] at hrun
    rcases hout : s.outside with _ | ⟨_ | left, rest⟩
    · simp only [hout] at hrun
      cases hrun
      obtain ⟨hheld', hown', htokens⟩ := hwritten s (before ++ tokens) [] hheld hown hactive
      exact ⟨hheld', hown', htokens, rfl⟩
    · simp only [hout] at hrun
      cases hrun
      obtain ⟨hheld', hown', htokens⟩ := hwritten s (before ++ tokens) rest hheld hown hactive
      exact ⟨hheld', hown', htokens, rfl⟩
    · simp only [hout] at hrun
      cases hrun
  · intro err t hrun
    unfold decodeTokens at hrun
    rcases hout : s.outside with _ | ⟨_ | left, rest⟩
    · simp only [hout] at hrun
      cases hrun
    · simp only [hout] at hrun
      cases hrun
    · simp only [hout] at hrun
      cases hrun
      exact (hwritten s left rest hheld hown hactive).1

end Executor

section Replacing

/-- One resident mapping is replaced, and the file of that mapping may change. -/
structure Replaced (s t : MappedState Logits) (id : EvaluatedPrefixId)
    (r : ResidentMapping Logits) : Prop where
  nextIdentity : t.executor.nextIdentity = s.executor.nextIdentity
  evaluated : t.executor.evaluated = s.executor.evaluated
  root : t.root = s.root
  logical : t.logical = s.logical
  modelEpoch : t.modelEpoch = s.modelEpoch
  resident : ∀ k, t.resident.lookup k = if k = id then some r else s.resident.lookup k
  files : ∀ k, k ≠ id → t.files.lookup k = s.files.lookup k

theorem held_replaced {s t : MappedState Logits} {id : EvaluatedPrefixId}
    {r r' : ResidentMapping Logits} {entry : MappingEntry}
    (h : Held sha e b own branch s₀ s) (hreplaced : Replaced s t id r')
    (hr : s.resident.lookup id = some r) (hentry : s.logical.mappings.lookup id = some entry)
    (hfaithful : Faithful b t id r' entry.mapping)
    (hnative : ∀ k, r'.native = some k →
      r.native = some k ∨ s₀.executor.nextIdentity ≤ k.identity)
    (hbytes : t.spillBytes + spilledBytes r = s.spillBytes + spilledBytes r')
    (hbounded : t.spillBytes ≤ e.spillCapacity) : Held sha e b own branch s₀ t := by
  have htokens : ∀ k, t.executor.tokensOf k = s.executor.tokensOf k := by
    intro k
    unfold Executor.tokensOf
    rw [hreplaced.evaluated]
  have htotal := AList.total_of_lookup_update (fun _ r => spilledBytes r) s.resident t.resident
    id (some r') hreplaced.resident
  have herase := AList.total_erase (fun _ r => spilledBytes r) s.resident id r hr
  have hspilled := h.sound.spilled
  rw [Option.elim_some] at htotal
  refine ⟨⟨hreplaced.root.trans h.evolves.root, hreplaced.modelEpoch.trans h.evolves.modelEpoch,
    ?_, ?_, ?_, ?_, ?_, ?_, ?_, ?_⟩, ⟨?_, ?_, ?_, ?_, ?_, ?_, hbounded, ?_, ?_⟩⟩
  · rw [hreplaced.logical]
    exact h.evolves.next
  · rw [hreplaced.logical]
    exact h.evolves.contexts
  · rw [hreplaced.logical]
    exact h.evolves.present
  · rw [hreplaced.logical]
    exact h.evolves.created
  · rw [hreplaced.logical]
    exact h.evolves.mappings
  · rw [hreplaced.nextIdentity]
    exact h.evolves.identities
  · intro k hk hne
    rw [htokens]
    exact h.evolves.evaluated k hk hne
  · intro m k hk
    unfold MappedState.nativeOf at hk
    rw [hreplaced.resident] at hk
    by_cases hm : m = id
    · rw [if_pos hm, Option.bind_some] at hk
      rcases hnative k hk with hold | hnew
      · apply h.evolves.natives m k
        unfold MappedState.nativeOf
        rw [hm, hr, Option.bind_some, hold]
      · exact Or.inr hnew
    · rw [if_neg hm] at hk
      exact h.evolves.natives m k hk
  · rw [hreplaced.logical]
    exact h.sound.accounted
  · rw [hreplaced.logical]
    exact h.sound.pinned
  · rw [hreplaced.logical, hreplaced.modelEpoch]
    exact h.sound.blocks
  · rw [hreplaced.logical]
    intro m entry' hentry'
    rw [hreplaced.resident]
    by_cases hm : m = id
    · exact ⟨r', if_pos hm⟩
    · obtain ⟨r'', hr''⟩ := h.sound.resident m entry' hentry'
      exact ⟨r'', by rw [if_neg hm, hr'']⟩
  · rw [hreplaced.logical]
    intro m r'' hr''
    rw [hreplaced.resident] at hr''
    by_cases hm : m = id
    · rw [if_pos hm] at hr''
      cases hr''
      exact ⟨entry, hm ▸ hentry, hm ▸ hfaithful⟩
    · rw [if_neg hm] at hr''
      obtain ⟨entry', hentry', hf⟩ := h.sound.faithful m r'' hr''
      refine ⟨entry', hentry', hf.either, ?_, ?_, hf.continuation⟩
      · intro k hk
        rw [hreplaced.nextIdentity, htokens]
        exact hf.native k hk
      · intro x hx
        rw [hreplaced.files m hm]
        exact hf.spill x hx
  · omega
  · rw [hreplaced.root, hreplaced.nextIdentity]
    exact h.sound.root_issued
  · rw [hreplaced.root, htokens]
    exact h.sound.root_empty

theorem lookup_setResident (s : MappedState Logits) (id k : EvaluatedPrefixId)
    (r : ResidentMapping Logits) :
    (s.setResident id r).resident.lookup k = if k = id then some r else s.resident.lookup k :=
  AList.lookup_insert_ite id k r s.resident

/-- What removing a file leaves, done or not. -/
theorem removeFile_run (path : EvaluatedPrefixId) (s : MappedState Logits) :
    ∃ files outside, (removeFile path).ignore.run s =
        .returns (.ok ()) { s with files := files, outside := outside } ∧
      ∀ k, k ≠ path → files.lookup k = s.files.lookup k := by
  have hother : ∀ k, k ≠ path → (s.files.erase path).lookup k = s.files.lookup k :=
    fun k hk => AList.lookup_erase_ne hk
  rcases hout : s.outside with _ | ⟨_ | left, rest⟩
  · refine ⟨s.files.erase path, [], ?_, hother⟩
    simp only [Call.ignore, removeFile, attempt, Call.run_bind, hout, Call.update]
  · refine ⟨s.files.erase path, rest, ?_, hother⟩
    simp only [Call.ignore, removeFile, attempt, Call.run_bind, hout, Call.update]
  · refine ⟨s.files, rest, ?_, fun _ _ => rfl⟩
    simp only [Call.ignore, removeFile, attempt, Call.run_bind, hout]

/-- After an activation the active representation holds the tokens of the prefix. -/
structure Activated (tokens : List Token) (s : MappedState Logits) : Prop where
  issued : s.executor.active.identity < s.executor.nextIdentity
  tokens : s.executor.tokensOf s.executor.active = tokens

/-- A spilled mapping whose native state was imported becomes native again. -/
theorem restore_held {id : EvaluatedPrefixId} {r : ResidentMapping Logits} {entry : MappingEntry}
    {native : RepresentationHandle} :
    Triple (fun s => Held sha e b own branch s₀ s ∧ s.resident.lookup id = some r ∧
        s.logical.mappings.lookup id = some entry ∧ r.native = none ∧
        native.identity < s.executor.nextIdentity ∧
        s.executor.tokensOf native = entry.mapping.sequence ∧
        s₀.executor.nextIdentity ≤ native.identity ∧ s.executor.active = native)
      (restore id native)
      (fun _ s => Held sha e b own branch s₀ s ∧ Activated entry.mapping.sequence s)
      (Held sha e b own branch s₀) := by
  unfold restore
  apply Triple.read_bind
  intro s ⟨hheld, hr, hentry, hnone, hissued, htokens, hnew, hactive⟩
  apply Triple.unwrap_bind
  intro r' hr'
  rw [hr] at hr'
  cases hr'
  apply Triple.unwrap_bind
  intro x hx
  obtain ⟨entry', hentry', hf⟩ := hheld.sound.faithful id r hr
  rw [hentry] at hentry'
  cases hentry'
  obtain ⟨hpath, _, _⟩ := hf.spill x hx
  apply Triple.of_run
  rintro t rfl
  obtain ⟨files, outside, hrun, hfiles⟩ :=
    removeFile_run x.path (t.setResident id { r with spill := none })
  rw [Call.run_update_bind, Call.run_bind_ok hrun]
  refine ⟨?_, fun err u h => (nomatch h)⟩
  intro _ u h
  cases h
  have hbytes : spilledBytes r = x.bytes := by
    unfold spilledBytes
    rw [hx]
    rfl
  have hle := AList.le_total (fun _ r => spilledBytes r) t.resident id r hr
  have hsum := hheld.sound.spilled
  have hreplaced : ∀ u : MappedState Logits,
      Replaced t u id { r with native := some native, spill := none } →
        u.spillBytes = t.spillBytes - x.bytes → Held sha e b own branch s₀ u := by
    intro u hu hspill
    refine held_replaced hheld hu hr hentry ⟨rfl, ?_, fun y hy => (nomatch hy),
      hf.continuation⟩ ?_ ?_ ?_
    · intro k hk
      cases hk
      refine ⟨hu.nextIdentity ▸ hissued, ?_⟩
      unfold Executor.tokensOf
      rw [hu.evaluated]
      exact htokens
    · intro k hk
      cases hk
      exact Or.inr hnew
    · show u.spillBytes + spilledBytes r = t.spillBytes + 0
      omega
    · rw [hspill]
      exact (Nat.sub_le _ _).trans hheld.sound.bounded
  refine ⟨hreplaced _ ⟨rfl, rfl, rfl, rfl, rfl, ?_, ?_⟩ rfl, hactive.symm ▸ hissued,
    hactive.symm ▸ htokens⟩
  · intro k
    refine (lookup_setResident _ id k _).trans ?_
    by_cases hk : k = id
    · rw [if_pos hk, if_pos hk]
    · rw [if_neg hk, if_neg hk]
      exact (lookup_setResident t id k _).trans (if_neg hk)
  · intro k hk
    exact hfiles k (hpath ▸ hk)

end Replacing

section Activation

/-- The native state that an activation finds or imports. -/
structure Found (s₀ : MappedState Logits) (r : ResidentMapping Logits) (tokens : List Token)
    (h : RepresentationHandle) (s : MappedState Logits) : Prop where
  issued : h.identity < s.executor.nextIdentity
  tokens : s.executor.tokensOf h = tokens
  source : r.native = some h ∨ r.native = none ∧ s₀.executor.nextIdentity ≤ h.identity

theorem stable_found (r : ResidentMapping Logits) (tokens : List Token)
    (h : RepresentationHandle) : Stable (Found s₀ r tokens h) := by
  intro s t ha hf
  refine ⟨?_, ?_, hf.source⟩
  · rw [ha.nextIdentity]
    exact hf.issued
  · rw [ha.tokensOf]
    exact hf.tokens

/-- The resident mapping and the stored one behind an activation. -/
structure Backs (id : EvaluatedPrefixId) (r : ResidentMapping Logits) (entry : MappingEntry)
    (s : MappedState Logits) : Prop where
  resident : s.resident.lookup id = some r
  stored : s.logical.mappings.lookup id = some entry

theorem stable_backs (id : EvaluatedPrefixId) (r : ResidentMapping Logits)
    (entry : MappingEntry) : Stable (Backs id r entry) := by
  intro s t ha hs
  refine ⟨?_, ?_⟩
  · rw [ha.resident]
    exact hs.resident
  · rw [ha.logical]
    exact hs.stored

theorem nativeState_held {id : EvaluatedPrefixId} {r : ResidentMapping Logits}
    {entry : MappingEntry} :
    Triple (fun s => Held sha e b own branch s₀ s ∧ Backs id r entry s) (nativeState b r)
      (fun h s => (Held sha e b own branch s₀ s ∧ Backs id r entry s) ∧
        Found s₀ r entry.mapping.sequence h s) (Held sha e b own branch s₀) := by
  have hfaithful : ∀ s, Held sha e b own branch s₀ s ∧ Backs id r entry s →
      Faithful b s id r entry.mapping := by
    intro s ⟨hheld, hbacks⟩
    obtain ⟨entry', hentry', hf⟩ := hheld.sound.faithful id r hbacks.resident
    rw [hbacks.stored] at hentry'
    cases hentry'
    exact hf
  unfold nativeState
  cases hnative : r.native with
  | some native =>
    apply Triple.pure
    intro s hs
    obtain ⟨hissued, htokens⟩ := (hfaithful s hs).native native hnative
    exact ⟨hs, hissued, htokens, Or.inl hnative⟩
  | none =>
    simp only
    apply Triple.require_bind (fun s hs => hs.1)
    intro x hx
    apply Triple.bind (R := fun tokens s => (Held sha e b own branch s₀ s ∧ Backs id r entry s) ∧
      tokens = entry.mapping.sequence)
    · apply Triple.of_run
      intro s hs
      refine ⟨?_, ?_⟩
      · intro tokens t hrun
        have haside := aside_readFile x.path s (.ok tokens) t hrun
        refine ⟨(stable_held.and (stable_backs id r entry)) s t haside hs, ?_⟩
        obtain ⟨_, s', hattempt, hrest⟩ := Call.of_bind_ok hrun
        have hfiles := (aside_attempt _ s _ s' hattempt).files
        rw [Call.run_read_bind] at hrest
        obtain ⟨hpath, hfile, _⟩ := (hfaithful s hs).spill x hx
        unfold Call.require at hrest
        rw [hfiles, hpath, hfile] at hrest
        cases hrest
        rfl
      · intro err t hrun
        exact stable_held s t (aside_readFile x.path s (.error err) t hrun) hs.1
    · intro tokens
      apply Triple.assume
      rintro rfl
      apply Triple.check_bind (fun s hs => hs.1)
      intro _
      apply (enterRepresentation_held entry.mapping.sequence (stable_backs id r entry)
        (fun s hs => ⟨hs.resident, hs.stored⟩)).after
      intro h s ⟨hs, hunshared, hnew, htokens⟩
      exact ⟨hs, hunshared.issued, htokens, Or.inr ⟨hnative, hnew⟩⟩

theorem physical_aside (s : MappedState Logits) (p : PhysicalManager) :
    Aside s { s with physical := p } :=
  ⟨rfl, rfl, rfl, rfl, rfl, rfl, rfl, rfl⟩

/-- The mapping is backed, and the native state of its tokens found. -/
def Recovered (sha : List UInt8 → Digest) (e : MappedEngine) (b : Backend Logits Sampler)
    (own : Option LogicalContextId) (branch : Option RepresentationHandle)
    (s₀ : MappedState Logits) (id : EvaluatedPrefixId) (r : ResidentMapping Logits)
    (entry : MappingEntry) (native : RepresentationHandle) (s : MappedState Logits) : Prop :=
  (Held sha e b own branch s₀ s ∧ Backs id r entry s) ∧ Found s₀ r entry.mapping.sequence native s

section Recovered

variable {id : EvaluatedPrefixId} {r : ResidentMapping Logits} {entry : MappingEntry}
  {native : RepresentationHandle}

theorem stable_recovered : Stable (Recovered sha e b own branch s₀ id r entry native) :=
  (stable_held.and (stable_backs id r entry)).and (stable_found r _ native)

theorem Recovered.held {s : MappedState Logits}
    (h : Recovered sha e b own branch s₀ id r entry native s) : Held sha e b own branch s₀ s :=
  h.1.1

theorem recovered_aside {α : Type} {x : Operation Logits α} (hx : Moves Aside x) :
    Triple (Recovered sha e b own branch s₀ id r entry native) x
      (fun _ => Recovered sha e b own branch s₀ id r entry native) (Held sha e b own branch s₀) :=
  (triple_aside hx stable_recovered).weaken (fun _ hs => hs) (fun _ _ hs => hs)
    (fun _ hs => hs.held)

/-- The switch to the native state, after which it is the active representation. -/
theorem switch_held (prepared : PreparedTransitionId) :
    Triple (Recovered sha e b own branch s₀ id r entry native)
      ((activateMapping native).rescue (abortTransition prepared))
      (fun _ s => Recovered sha e b own branch s₀ id r entry native s ∧
        s.executor.active = native) (Held sha e b own branch s₀) := by
  apply Triple.rescue (triple_activateMapping native stable_recovered)
  exact (triple_aside (aside_abortTransition prepared) stable_recovered).weaken
    (fun _ hs => hs) (fun _ s hs => hs.held) (fun _ hs => hs.held)

/-- The commit of the transition, and the restoration of a mapping that was spilled. -/
theorem commitSwitch_held (previous : RepresentationHandle) (prepared : PreparedTransitionId)
    (revision : ℕ) :
    Triple (fun s => Recovered sha e b own branch s₀ id r entry native s ∧
        s.executor.active = native) (do
      let identity ← nativeIdentity native
      let _ ← (onPhysical (PhysicalManager.commitMappedTransition prepared revision
        identity)).rescue (activateMapping previous).ignore
      Call.skipIf r.native.isSome (restore id native))
      (fun _ s => Held sha e b own branch s₀ s ∧ Activated entry.mapping.sequence s)
      (Held sha e b own branch s₀) := by
  apply Triple.bind (R := fun _ s => Recovered sha e b own branch s₀ id r entry native s ∧
    s.executor.active = native)
  · unfold nativeIdentity
    intro s hs
    by_cases hlt : native.identity < 2 ^ 32
    · rw [if_pos hlt]
      exact hs
    · rw [if_neg hlt]
      exact hs.1.held
  intro identity
  apply Triple.bind (R := fun _ s => Recovered sha e b own branch s₀ id r entry native s ∧
    s.executor.active = native)
  · apply Triple.rescue
    · exact triple_onPhysical _
        (fun s p hs => ⟨stable_recovered s _ (physical_aside s p) hs.1, hs.2⟩)
    · exact (triple_aside (Moves.ignore (aside_activateMapping previous))
        stable_recovered).weaken (fun _ hs => hs.1) (fun _ s hs => hs.held) (fun _ hs => hs.held)
  intro _
  cases hnative : r.native with
  | some h =>
    apply Triple.pure
    intro s ⟨⟨⟨hs, _⟩, hfound⟩, hactive⟩
    refine ⟨hs, ?_, ?_⟩
    · rw [hactive]
      exact hfound.issued
    · rw [hactive]
      exact hfound.tokens
  | none =>
    apply restore_held.before
    intro s ⟨⟨⟨hs, hbacks⟩, hfound⟩, hactive⟩
    refine ⟨hs, hbacks.resident, hbacks.stored, hnative, hfound.issued, hfound.tokens, ?_,
      hactive⟩
    rcases hfound.source with hsome | ⟨_, hnew⟩
    · rw [hnative] at hsome
      cases hsome
    · exact hnew

end Recovered

theorem activatePrefix_held (context : LogicalContextId) (m : Option EvaluatedPrefix) :
    Triple (fun s => Held sha e b own branch s₀ s ∧ ∀ m', m = some m' →
        ∃ entry, s.logical.mappings.lookup m'.id = some entry ∧ entry.mapping = m')
      (activatePrefix b context m)
      (fun _ s => Held sha e b own branch s₀ s ∧
        Activated ((m.map EvaluatedPrefix.sequence).getD []) s)
      (Held sha e b own branch s₀) := by
  cases m with
  | none =>
    apply triple_read_aside
    intro a ⟨ha, _⟩
    apply ((triple_activateMapping a.root ((stable_aside a).and stable_held)).before
      (fun s hs => ⟨hs.1, hs.2.1⟩) |>.weaken (fun s hs => hs) ?_ (fun s hs => hs.2))
    intro _ s ⟨⟨haside, hheld⟩, hactive⟩
    refine ⟨hheld, ?_, ?_⟩
    · rw [hactive, ← haside.root]
      exact hheld.sound.root_issued
    · rw [hactive, ← haside.root]
      exact hheld.sound.root_empty
  | some m =>
    apply triple_read_aside
    intro a ⟨ha, hstored⟩
    obtain ⟨entry, hentry, rfl⟩ := hstored m rfl
    apply Triple.require_bind (fun s hs => hs.2.1)
    intro r hr
    apply Triple.bind (R := fun native =>
      Recovered sha e b own branch s₀ entry.mapping.id r entry native)
    · apply nativeState_held.before
      intro s ⟨haside, hheld, _⟩
      refine ⟨hheld, ?_, ?_⟩
      · rw [haside.resident]
        exact hr
      · rw [haside.logical]
        exact hentry
    intro native
    apply Triple.bind (recovered_aside (aside_revisionOf context))
    intro revision
    apply Triple.bind (recovered_aside aside_activeRepresentation)
    intro previous
    apply Triple.bind (recovered_aside (aside_onPhysical _))
    rintro ⟨prepared, _, transfers⟩
    apply Triple.bind (recovered_aside
      (aside_completeTransfers (aside_abortTransition prepared) transfers))
    intro _
    exact Triple.bind (switch_held prepared)
      (fun _ => commitSwitch_held previous prepared revision)

/-- A session's branch of a prefix is a representation of its own with the prefix's tokens. -/
theorem branchPrefix_held (context : LogicalContextId) (m : Option EvaluatedPrefix) :
    Triple (fun s => Held sha e b own branch s₀ s ∧ ∀ m', m = some m' →
        ∃ entry, s.logical.mappings.lookup m'.id = some entry ∧ entry.mapping = m')
      (branchPrefix b context m)
      (fun h s => Held sha e b own branch s₀ s ∧ Unshared s h ∧
        s₀.executor.nextIdentity ≤ h.identity ∧
        s.executor.tokensOf h = (m.map EvaluatedPrefix.sequence).getD [])
      (Held sha e b own branch s₀) := by
  let tokens := (m.map EvaluatedPrefix.sequence).getD []
  have hissued : ∀ h : RepresentationHandle, Stable (fun s => Held sha e b own branch s₀ s ∧
      h.identity < s.executor.nextIdentity ∧ s.executor.tokensOf h = tokens) := by
    intro h s t ha ⟨hheld, hlt, htokens⟩
    exact ⟨hheld.of_aside ha, ha.nextIdentity.symm ▸ hlt, (ha.tokensOf h).trans htokens⟩
  unfold branchPrefix
  apply Triple.bind ((activatePrefix_held context m).after
    (fun _ s hs => (⟨hs.1, hs.2.issued, hs.2.tokens⟩ : Held sha e b own branch s₀ s ∧
      s.executor.active.identity < s.executor.nextIdentity ∧
        s.executor.tokensOf s.executor.active = tokens)))
  intro _
  apply Triple.bind ((triple_activeRepresentation hissued).weaken (fun _ hs => hs)
    (fun _ _ hs => hs) (fun _ ⟨_, hs⟩ => hs.1))
  intro source
  unfold forkForRequestBranch
  apply Triple.bind ((triple_prepareMappingFork source (hissued source)).weaken (fun _ hs => hs)
    (fun copied s hs => (⟨hs.1.1, hs.2.trans hs.1.2.2⟩ : Held sha e b own branch s₀ s ∧
      copied = tokens)) (fun _ hs => hs.1))
  intro copied
  apply Triple.assume
  rintro rfl
  apply Triple.bind ((enterRepresentation_held tokens (P := fun _ => True)
    (fun _ _ _ _ => trivial) (fun _ _ => trivial)).before (fun _ hs => ⟨hs, trivial⟩))
  intro h
  have hfresh : Stable (fun s => (Held sha e b own branch s₀ s ∧ True) ∧ Unshared s h ∧
      s₀.executor.nextIdentity ≤ h.identity ∧ s.executor.tokensOf h = tokens) := by
    intro s t ha ⟨⟨hheld, _⟩, hown, hnew, htokens⟩
    exact ⟨⟨hheld.of_aside ha, trivial⟩, hown.of_aside ha, hnew, (ha.tokensOf h).trans htokens⟩
  apply Triple.bind ((triple_activateMapping h hfresh).weaken (fun _ hs => hs)
    (fun _ _ hs => hs.1) (fun _ hs => hs.1.1))
  intro _
  apply Triple.pure
  intro s ⟨⟨hheld, _⟩, hown⟩
  exact ⟨hheld, hown⟩

end Activation

end Cusco.EngineOperations
