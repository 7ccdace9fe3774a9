import Cusco.EngineOperations

/-!
Spilling keeps the engine's invariant. A mapping whose native state is exported, written and
demoted gives the native state up for the file in one update at the end, together with the
byte counter; a failure before leaves at most a file that no mapping names.
-/

namespace Cusco.EngineSpilling

open Calls LogicalStore Physical Mapped EngineFrames EngineInvariant EngineOperations
open Calls.Call (Moves Triple)

variable {Logits Sampler : Type} {sha : List UInt8 → Digest} {e : MappedEngine}
  {b : Backend Logits Sampler} {own : Option LogicalContextId}
  {branch : Option RepresentationHandle} {s₀ : MappedState Logits}

/-- What the rounds before the last update leave as they found it. -/
structure Writing (a s : MappedState Logits) : Prop where
  resident : s.resident = a.resident
  spillBytes : s.spillBytes = a.spillBytes
  logical : s.logical = a.logical

theorem stable_writing (a : MappedState Logits) : Stable (Writing a) := by
  intro s t ha hs
  exact ⟨ha.resident.trans hs.resident, ha.spillBytes.trans hs.spillBytes,
    ha.logical.trans hs.logical⟩

theorem stable_file (id : EvaluatedPrefixId) (tokens : List Token) :
    Stable (fun s : MappedState Logits => s.files.lookup id = some tokens) := by
  intro s t ha hs
  rw [ha.files]
  exact hs

theorem triple_exportMapping {P : MappedState Logits → Prop} (hP : Stable P)
    (h : RepresentationHandle) :
    Triple P (exportMapping h) (fun mapping s => P s ∧
      mapping = ⟨s.executor.tokensOf h, (s.executor.tokensOf h).length⟩) P := by
  unfold exportMapping
  apply Triple.bind (R := fun _ => P) (triple_aside (aside_attempt _) hP)
  intro _
  apply Triple.read_bind
  intro a ha
  apply Triple.pure
  rintro s rfl
  exact ⟨ha, rfl⟩

/-- A file of a mapping that is not spilled may be written. -/
theorem writeFile_held {a : MappedState Logits} {id : EvaluatedPrefixId}
    {r : ResidentMapping Logits} (hr : a.resident.lookup id = some r) (hnone : r.spill = none)
    (tokens : List Token) :
    Triple (fun s => Held sha e b own branch s₀ s ∧ Writing a s) (writeFile id tokens)
      (fun _ s => (Held sha e b own branch s₀ s ∧ Writing a s) ∧
        s.files.lookup id = some tokens) (Held sha e b own branch s₀) := by
  have hstable : Stable (fun s => Held sha e b own branch s₀ s ∧ Writing a s) :=
    stable_held.and (stable_writing a)
  have htry : Triple (fun s => Held sha e b own branch s₀ s ∧ Writing a s) (attempt .file)
      (fun _ s => Held sha e b own branch s₀ s ∧ Writing a s) (Held sha e b own branch s₀) :=
    (triple_aside (aside_attempt _) hstable).weaken (fun _ hs => hs) (fun _ _ hs => hs)
      (fun _ hs => hs.1)
  unfold writeFile
  apply Triple.bind htry
  intro _
  apply Triple.bind htry
  intro _
  apply Triple.update
  intro s ⟨hheld, hwriting⟩
  have hrs : s.resident.lookup id = some r := by
    rw [hwriting.resident]
    exact hr
  obtain ⟨entry, hentry, hf⟩ := hheld.sound.faithful id r hrs
  refine ⟨⟨?_, hwriting.resident, hwriting.spillBytes, hwriting.logical⟩,
    AList.lookup_insert _⟩
  refine held_replaced hheld ⟨rfl, rfl, rfl, rfl, rfl, ?_, ?_⟩ hrs hentry
    ⟨hf.either, hf.native, ?_, hf.continuation⟩ (fun k hk => Or.inl hk) rfl hheld.sound.bounded
  · intro k
    by_cases hk : k = id
    · rw [if_pos hk, hk]
      exact hrs
    · rw [if_neg hk]
  · intro k hk
    exact AList.lookup_insert_ne hk
  · intro x hx
    rw [hnone] at hx
    cases hx

/-- The capacity check and the sum that does not overflow bound the new total. -/
theorem total_le_capacity {spilled bytes capacity total : ℕ}
    (hfits : ¬saturatingAdd spilled bytes > capacity)
    (htotal : checkedAdd spilled bytes = some total) :
    total = spilled + bytes ∧ total ≤ capacity := by
  unfold checkedAdd at htotal
  unfold saturatingAdd at hfits
  by_cases hmax : spilled + bytes ≤ u64Max
  · rw [if_pos hmax] at htotal
    cases htotal
    exact ⟨rfl, by omega⟩
  · rw [if_neg hmax] at htotal
    cases htotal

theorem spillOne_held {id : EvaluatedPrefixId} {native : RepresentationHandle}
    (others : EvaluatedPrefixId → Option RepresentationHandle) :
    Triple (fun s => Held sha e b own branch s₀ s ∧ s.nativeOf id = some native ∧
        ∀ k, k ≠ id → s.nativeOf k = others k)
      (spillOne e b id native)
      (fun _ s => Held sha e b own branch s₀ s ∧ ∀ k, k ≠ id → s.nativeOf k = others k)
      (Held sha e b own branch s₀) := by
  have hstable : Stable (fun s => Held sha e b own branch s₀ s ∧ s.nativeOf id = some native ∧
      ∀ k, k ≠ id → s.nativeOf k = others k) := by
    intro s t ha ⟨hheld, hnative, hothers⟩
    exact ⟨hheld.of_aside ha, (ha.nativeOf id).trans hnative,
      fun k hk => (ha.nativeOf k).trans (hothers k hk)⟩
  unfold spillOne
  apply Triple.bind ((triple_exportMapping hstable native).weaken (fun _ hs => hs)
    (fun _ _ hs => hs) (fun _ hs => hs.1))
  intro mapping
  apply Triple.read_bind
  intro a ⟨⟨hheld, hnative, hothers⟩, hmapping⟩
  obtain ⟨r, hr, hrnative⟩ := Option.bind_eq_some_iff.mp hnative
  obtain ⟨entry, hentry, hf⟩ := hheld.sound.faithful id r hr
  have hnone : r.spill = none := by
    have heither := hf.either
    rw [hrnative] at heither
    cases hspill : r.spill with
    | none => rfl
    | some x =>
      rw [hspill] at heither
      cases heither
  have htokens : mapping.tokens = entry.mapping.sequence := by
    rw [hmapping]
    exact (hf.native native hrnative).2
  apply Triple.ite
  · intro _
    apply Triple.pure
    rintro s rfl
    exact ⟨hheld, hothers⟩
  · intro hfits
    have hdone : Triple (fun s => s = a) (writeFile id mapping.tokens)
        (fun _ s => (Held sha e b own branch s₀ s ∧ Writing a s) ∧
          s.files.lookup id = some mapping.tokens) (Held sha e b own branch s₀) := by
      apply (writeFile_held hr hnone mapping.tokens).before
      rintro s rfl
      exact ⟨hheld, rfl, rfl, rfl⟩
    apply Triple.bind hdone
    intro _
    apply triple_read_aside
    intro a' ⟨⟨_, hwriting'⟩, _⟩
    apply Triple.unwrap_bind
    intro r' hr'
    rw [hwriting'.resident, hr] at hr'
    cases hr'
    have hwritten : Stable (fun s => (Held sha e b own branch s₀ s ∧ Writing a s) ∧
        s.files.lookup id = some mapping.tokens) :=
      (stable_held.and (stable_writing a)).and (stable_file id mapping.tokens)
    apply Triple.bind ((triple_aside (aside_demoteAll r.representations) hwritten).weaken
      (fun _ hs => hs.2) (fun _ _ hs => hs) (fun _ hs => hs.1.1))
    intro _
    apply Triple.read_bind
    intro t ⟨⟨hheld', hwriting⟩, hfile⟩
    apply Triple.unwrap_bind
    intro total htotal
    rw [hwriting.spillBytes] at htotal
    obtain ⟨hsum, hbounded⟩ := total_le_capacity hfits htotal
    have hrt : t.resident.lookup id = some r := by
      rw [hwriting.resident]
      exact hr
    apply Triple.bind (R := fun _ s => Held sha e b own branch s₀ s ∧
      ∀ k, k ≠ id → s.nativeOf k = others k)
    · apply Triple.update
      rintro s rfl
      refine ⟨held_replaced (t := spilledTo id r _ mapping.position total s) hheld'
        ⟨rfl, rfl, rfl, rfl, rfl, fun k => lookup_setResident s id k _,
          fun _ _ => rfl⟩ hrt
        (hwriting.logical ▸ hentry) ⟨rfl, fun k hk => (nomatch hk), ?_, hf.continuation⟩
        (fun k hk => (nomatch hk)) ?_ hbounded, ?_⟩
      · intro x hx
        cases hx
        exact ⟨rfl, htokens ▸ hfile, by rw [htokens]⟩
      · have hzero : spilledBytes r = 0 := by
          unfold spilledBytes
          rw [hnone]
          rfl
        have hbytes := hwriting.spillBytes
        show total + spilledBytes r = s.spillBytes + b.exportedBytes mapping.tokens
        omega
      · intro k hk
        rw [← hothers k hk]
        unfold MappedState.nativeOf
        have hother := (lookup_setResident s id k { r with
          native := none
          spill := some ⟨id, b.exportedBytes mapping.tokens, mapping.position⟩ }).trans (if_neg hk)
        rw [hwriting.resident] at hother
        exact congrArg (fun o => o.bind ResidentMapping.native) hother
    · intro _
      exact Triple.pure (fun _ hs => hs)

theorem spillAll_held (candidates : List (EvaluatedPrefixId × RepresentationHandle))
    (hnodup : (candidates.map Prod.fst).Nodup) (spilled : ℕ) :
    Triple (fun s => Held sha e b own branch s₀ s ∧ ∀ p ∈ candidates, s.nativeOf p.1 = some p.2)
      (spillAll e b candidates spilled) (fun _ => Held sha e b own branch s₀)
      (Held sha e b own branch s₀) := by
  induction candidates generalizing spilled with
  | nil => exact Triple.pure (fun _ hs => hs.1)
  | cons candidate rest ih =>
    obtain ⟨id, native⟩ := candidate
    rw [List.map_cons, List.nodup_cons] at hnodup
    obtain ⟨hfirst, hrest⟩ := hnodup
    intro s ⟨hheld, hnatives⟩
    have hstep : Triple (fun t => t = s) (spillOne e b id native)
        (fun _ t => Held sha e b own branch s₀ t ∧ ∀ p ∈ rest, t.nativeOf p.1 = some p.2)
        (Held sha e b own branch s₀) := by
      apply (spillOne_held s.nativeOf).weaken
      · rintro t rfl
        exact ⟨hheld, hnatives (id, native) List.mem_cons_self, fun _ _ => rfl⟩
      · intro _ t ⟨hheld', hothers⟩
        refine ⟨hheld', ?_⟩
        intro p hp
        rw [hothers p.1 (fun heq => hfirst (heq ▸ List.mem_map.mpr ⟨p, hp, rfl⟩))]
        exact hnatives p (List.mem_cons_of_mem _ hp)
      · exact fun _ hs => hs
    exact (Triple.bind hstep (fun done => ih hrest (if done then spilled + 1 else spilled))) s rfl

theorem nativeOf_of_mem_candidates {s : MappedState Logits} {order : List EvaluatedPrefixId}
    {p : EvaluatedPrefixId × RepresentationHandle} (hp : p ∈ spillCandidates s order) :
    s.nativeOf p.1 = some p.2 := by
  obtain ⟨id, _, hid⟩ := List.mem_filterMap.mp hp
  obtain ⟨native, hnative, hinactive⟩ := Option.bind_eq_some_iff.mp hid
  by_cases hsame : native.identity ≠ s.executor.active.identity
  · rw [if_pos hsame] at hinactive
    cases hinactive
    exact hnative
  · rw [if_neg hsame] at hinactive
    cases hinactive

theorem candidates_nodup {s : MappedState Logits} {order : List EvaluatedPrefixId}
    (horder : order.Nodup) : ((spillCandidates s order).map Prod.fst).Nodup := by
  have hsub : ((spillCandidates s order).map Prod.fst).Sublist order := by
    unfold spillCandidates
    induction order with
    | nil => exact List.Sublist.refl _
    | cons id rest ih =>
      rw [List.nodup_cons] at horder
      have htail := ih horder.2
      rw [List.filterMap_cons]
      cases hid : (s.nativeOf id).bind (fun native =>
          if native.identity ≠ s.executor.active.identity then some (id, native) else none) with
      | none => exact htail.cons id
      | some p =>
        obtain ⟨native, _, hinactive⟩ := Option.bind_eq_some_iff.mp hid
        have hp : p.1 = id := by
          by_cases hsame : native.identity ≠ s.executor.active.identity
          · rw [if_pos hsame] at hinactive
            cases hinactive
            rfl
          · rw [if_neg hsame] at hinactive
            cases hinactive
        rw [List.map_cons, hp]
        exact htail.cons_cons id
  exact hsub.nodup horder

theorem spillInactiveMappings_held {order : List EvaluatedPrefixId} (horder : order.Nodup) :
    Triple (Held sha e b own branch s₀) (spillInactiveMappings e b order)
      (fun _ => Held sha e b own branch s₀) (Held sha e b own branch s₀) := by
  unfold spillInactiveMappings
  cases e.spillDir with
  | none => exact Triple.pure (fun _ hs => hs)
  | some dir =>
    apply triple_read_aside
    intro a _
    apply Triple.ite
    · intro _
      exact Triple.pure (fun _ hs => hs.2)
    · intro _
      apply Triple.bind ((triple_aside (Moves.ignore (aside_onPhysical _))
        ((stable_aside a).and stable_held)).weaken (fun _ hs => hs) (fun _ _ hs => hs)
        (fun _ hs => hs.2))
      intro _
      apply (spillAll_held (spillCandidates a order) (candidates_nodup horder) 0).before
      intro s ⟨haside, hheld⟩
      refine ⟨hheld, ?_⟩
      intro p hp
      exact (haside.nativeOf p.1).trans (nativeOf_of_mem_candidates hp)

section Store

/-- Spilling leaves the logical store alone. -/
def SameStore (s t : MappedState Logits) : Prop := t.logical = s.logical

theorem sameStore_refl (s : MappedState Logits) : SameStore s s := rfl

theorem sameStore_trans (s t u : MappedState Logits) (hst : SameStore s t) (htu : SameStore t u) :
    SameStore s u := htu.trans hst

theorem sameStore_of_aside {α : Type} {x : Operation Logits α} (hx : Moves Aside x) :
    Moves SameStore x :=
  fun s r t hrun => (hx s r t hrun).logical

theorem sameStore_spillOne (id : EvaluatedPrefixId) (native : RepresentationHandle) :
    Moves SameStore (spillOne e b id native) := by
  have hread : Moves SameStore (Call.read : Operation Logits (MappedState Logits)) :=
    Moves.read sameStore_refl
  have hattempt : Moves SameStore (attempt .file : Operation Logits Unit) :=
    sameStore_of_aside (aside_attempt .file)
  refine Moves.bind sameStore_trans (sameStore_of_aside (aside_exportMapping native)) ?_
  intro mapping
  refine Moves.bind sameStore_trans hread ?_
  intro s
  apply Moves.ite
  · exact Moves.pure sameStore_refl false
  · refine Moves.bind sameStore_trans (Moves.bind sameStore_trans hattempt (fun _ => Moves.bind
      sameStore_trans hattempt (fun _ => Moves.update (fun _ => rfl)))) ?_
    intro _
    refine Moves.bind sameStore_trans hread ?_
    intro s
    refine Moves.bind sameStore_trans (Moves.unwrap sameStore_refl _) ?_
    intro r
    refine Moves.bind sameStore_trans (sameStore_of_aside (aside_demoteAll _)) ?_
    intro _
    refine Moves.bind sameStore_trans hread ?_
    intro s
    refine Moves.bind sameStore_trans (Moves.unwrap sameStore_refl _) ?_
    intro total
    exact Moves.bind sameStore_trans (Moves.update (fun _ => rfl))
      (fun _ => Moves.pure sameStore_refl true)

theorem sameStore_spillAll (candidates : List (EvaluatedPrefixId × RepresentationHandle))
    (spilled : ℕ) : Moves SameStore (spillAll e b candidates spilled) := by
  induction candidates generalizing spilled with
  | nil => exact Moves.pure sameStore_refl spilled
  | cons candidate rest ih =>
    exact Moves.bind sameStore_trans (sameStore_spillOne candidate.1 candidate.2)
      (fun done => ih (if done then spilled + 1 else spilled))

theorem sameStore_spillInactiveMappings (order : List EvaluatedPrefixId) :
    Moves SameStore (spillInactiveMappings e b order) := by
  unfold spillInactiveMappings
  cases e.spillDir with
  | none => exact Moves.pure sameStore_refl 0
  | some dir =>
    refine Moves.bind sameStore_trans (Moves.read sameStore_refl) ?_
    intro s
    apply Moves.ite
    · exact Moves.pure sameStore_refl 0
    · exact Moves.bind sameStore_trans (sameStore_of_aside (Moves.ignore (aside_onPhysical _)))
        (fun _ => sameStore_spillAll _ 0)

end Store

end Cusco.EngineSpilling
