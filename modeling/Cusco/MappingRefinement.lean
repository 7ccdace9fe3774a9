import Cusco.MappingSteps

/-!
The mapping layer refines the machine of token lists. As long as every number that is drawn
for a mapping is free, each call does to the lists what its status says; the numbers have 32
bits and are not checked when they wrap around.
-/

namespace Cusco.NativeMappings

open Runs Sequences World

variable {w : World} {codec : StateCodec} {tokens : List Token}

/-- The position after the tokens have been decoded. -/
def advanced (codec : Option StateCodec) (tokens : List Token) (c : Content Token) : UInt64 :=
  match codec with
  | none => UInt64.ofNat (c.tokens ++ tokens).length
  | some _ => c.position + UInt64.ofNat tokens.length

/-- The event that a call with its answer stands for. -/
def Matches (codec : Option StateCodec) (x : Returned) (e : Event Token) : Prop :=
  match x.action with
  | .prepareMappingFork source _ =>
    (∃ q, x.answer = answeredHandle q ∧ e = .fork source q) ∨ (x.answer.status ≠ .ok ∧ e = .idle)
  | .commitMapping fork =>
    (∃ p, x.answer = answeredHandle p ∧ e = .commit fork p) ∨ (x.answer.status ≠ .ok ∧ e = .idle)
  | .preparedMappingFree fork => e = .abort fork
  | .activateMapping target _ _ _ =>
    (x.answer.status = .ok ∧ e = .activate target) ∨
      (x.answer.status = .rollbackFailed ∧ ∃ tokens, e = .lose tokens) ∨
        (x.answer.status ≠ .ok ∧ x.answer.status ≠ .rollbackFailed ∧ e = .idle)
  | .decode tokens _ =>
    (x.answer.status = .ok ∧ e = .append tokens (advanced codec tokens)) ∨
      (x.answer.status ≠ .ok ∧ ∃ n, e = .append (tokens.take n) Content.position)
  | .exportMapping source _ _ =>
    (x.answer.status = .ok ∧ ∃ tokens, Represents codec x.answer.bytes tokens ∧
      e = .read source ⟨tokens, x.answer.position⟩) ∨ (x.answer.status ≠ .ok ∧ e = .idle)
  | .importMapping bytes position _ _ _ =>
    (∃ p tokens, x.answer = answeredHandle p ∧ Represents codec bytes tokens ∧
      e = .publish p ⟨tokens, position⟩) ∨
      (x.answer.status = .rollbackFailed ∧ ∃ tokens, e = .lose tokens) ∨
        (x.answer.status ≠ .ok ∧ x.answer.status ≠ .rollbackFailed ∧ e = .idle)
  | .activeRepresentation => ∃ p, x.answer = answeredHandle p ∧ e = .refer p 1
  | .representationRetain handle => e = .refer handle 1
  | .representationRelease handle => e = .refer handle (-1)
  | .cancel => e = .idle
  | .resetCancel => e = .idle

/-- A call that matches what happens to the lists, and keeps the invariant. -/
structure Done (w : World) (a : Action) (out : Answer × World) (e : Event Token) : Prop where
  inv : out.2.Inv
  codec : out.2.executor.codec = w.executor.codec
  answer : Matches w.executor.codec ⟨a, out.1⟩ e
  does : w.machine.Does e out.2.machine

/-- The numbers that are drawn for mappings are free. -/
def DrawsFree (w : World) (x : Returned) : Prop :=
  let reclaimed := w.reclaimUnreferencedRepresentations
  match x.action with
  | .prepareMappingFork source _ => (reclaimed.validRepresentation source).isSome →
      reclaimed.executor.positions.lookup reclaimed.executor.nextMapping = none
  | .importMapping _ _ _ _ _ =>
      reclaimed.executor.positions.lookup reclaimed.executor.nextMapping = none
  | _ => True

theorem snapshot_restores {copied : Bool} {state : List UInt8}
    (h : snapshotActiveSequence codec w copied = some state) :
    restored codec state = some w.executor.sequence := by
  unfold snapshotActiveSequence at h
  dsimp only at h
  by_cases hempty : codec.encode w.executor.sequence = []
  · rw [if_pos hempty] at h
    cases h
    rw [codec.nothing _ hempty]
    rfl
  · rw [if_neg hempty] at h
    by_cases hcopied : copied = true
    · rw [if_pos hcopied] at h
      cases h
      exact restored_encode codec _
    · rw [if_neg hcopied] at h
      cases h

/-- The state of a fork stands for the tokens of its source. -/
theorem forkState_spec {w w' : World} {r : Representation} {k : UInt32} {copied : Bool}
    {state : List UInt8} (hk : k ≠ w.executor.activeMapping)
    (hfree : w.executor.mockMappings.lookup k = none)
    (htokens : w.tokens r.mapping r.state = some tokens)
    (h : w.forkState r k copied = some (state, w')) :
    SameTables w w' ∧ w'.executor.positions = w.executor.positions ∧
      (∀ m, m ≠ k → w.Agrees w' m) ∧ w'.executor.codec = w.executor.codec ∧
        w'.tokens k state = some tokens := by
  unfold forkState at h
  unfold World.tokens at htokens
  cases hcodec : w.executor.codec with
  | none =>
    rw [hcodec] at h htokens
    dsimp only at h htokens
    rw [htokens] at h
    cases h
    refine ⟨⟨rfl, rfl, rfl, rfl, rfl, rfl⟩, rfl, ?_, hcodec, ?_⟩
    · intro m hm
      refine ⟨rfl, rfl, rfl, rfl, ?_, rfl⟩
      exact (lookup_emplace _ _ _ _ hfree).trans (if_neg hm)
    · unfold World.tokens
      dsimp only
      rw [hcodec]
      unfold mockTokens
      rw [if_neg hk]
      exact (lookup_emplace _ _ _ _ hfree).trans (if_pos rfl)
  | some codec =>
    rw [hcodec] at h htokens
    dsimp only at h htokens
    obtain ⟨saved, hsaved, hstate⟩ := Option.map_eq_some_iff.mp h
    cases hstate
    refine ⟨⟨rfl, rfl, rfl, rfl, rfl, rfl⟩, rfl, fun m _ => ⟨rfl, rfl, rfl, rfl, rfl, rfl⟩, hcodec,
      ?_⟩
    unfold World.tokens
    dsimp only
    rw [hcodec]
    dsimp only
    rw [if_neg hk]
    by_cases hactive : r.mapping = w.executor.activeMapping
    · rw [if_pos hactive] at hsaved htokens
      rw [← htokens]
      exact snapshot_restores hsaved
    · rw [if_neg hactive] at hsaved htokens
      obtain rfl := Option.some.inj hsaved
      exact htokens

theorem discard_spec (h : w.Inv) {k : UInt32} (hunused : ¬w.Used k) :
    (w.discardMapping k).Inv ∧ (w.discardMapping k).machine = w.machine := by
  refine frame_spec h ⟨rfl, rfl, rfl, rfl, rfl, rfl⟩ ?_ ?_
  · intro m hm
    have hne : m ≠ k := by
      rintro rfl
      exact hunused hm
    exact ⟨rfl, rfl, rfl, rfl, AList.lookup_erase_ne hne, AList.lookup_erase_ne hne⟩
  · intro m hm
    change (w.executor.positions.erase k).lookup m = none at hm
    change (w.executor.mockMappings.erase k).lookup m = none
    rw [AList.lookup_erase_ite] at hm ⊢
    by_cases hmk : m = k
    · rw [if_pos hmk]
    · rw [if_neg hmk] at hm ⊢
      exact h.unused m hm

/-- A row is entered under a number that is free. -/
theorem enter_spec {w w' : World} (h : w.Inv) {k : UInt32} {state : List UInt8}
    (hfree : w.executor.positions.lookup k = none) (hsame : SameTables w w')
    (hpositions : w'.executor.positions = w.executor.positions)
    (hagrees : ∀ m, m ≠ k → w.Agrees w' m) (htokens : w'.tokens k state = some tokens)
    (position : UInt64) (blockTable : Table UInt32 ℕ) (copied : UInt64) :
    let entered : World := { w' with executor := { w'.executor with
      blockTable := blockTable
      positions := emplace k position w'.executor.positions
      mappingImportBytesCopied := copied } }
    entered.Inv ∧ entered.machine = w.machine ∧ ¬entered.Used k ∧
      entered.content k state = some ⟨tokens, position⟩ := by
  have hlookup : ∀ m, (emplace k position w'.executor.positions).lookup m =
      if m = k then some position else w.executor.positions.lookup m := by
    intro m
    rw [hpositions]
    exact lookup_emplace _ _ _ _ hfree
  have hunused := h.unused_of_free hfree
  intro entered
  have hspec : entered.Inv ∧ entered.machine = w.machine := by
    refine frame_spec h ⟨hsame.objects, hsame.prepared, hsame.nextHandle, hsame.representations,
      hsame.publishedMappings, hsame.activeMapping⟩ ?_ ?_
    · intro m hm
      have hne : m ≠ k := by
        rintro rfl
        exact hunused hm
      obtain ⟨hcodec, hactive, hsequence, hmock, hrow, _⟩ := hagrees m hne
      exact ⟨hcodec, hactive, hsequence, hmock, hrow, (hlookup m).trans (if_neg hne)⟩
    · intro m hm
      have hm' := (hlookup m).symm.trans hm
      by_cases hmk : m = k
      · rw [if_pos hmk] at hm'
        cases hm'
      · rw [if_neg hmk] at hm'
        exact (hagrees m hmk).mockMapping.trans (h.unused m hm')
  refine ⟨hspec.1, hspec.2, ?_, content_of htokens ((hlookup k).trans (if_pos rfl))⟩
  rintro (hused | ⟨q, f, hf, hmapping⟩)
  · exact hunused (Or.inl (by rw [← hsame.representations]; exact hused))
  · exact hunused (Or.inr ⟨q, f, by rw [← hsame.prepared]; exact hf, hmapping⟩)

theorem drawMapping_spec (h : w.Inv) : w.drawMapping.Inv ∧ w.drawMapping.machine = w.machine :=
  quiet_spec h ⟨rfl, rfl, rfl, rfl, rfl, rfl⟩ (fun _ => ⟨rfl, rfl, rfl, rfl, rfl, rfl⟩)

theorem World.Inv.free_ne_active (h : w.Inv) {k : UInt32}
    (hfree : w.executor.positions.lookup k = none) : k ≠ w.executor.activeMapping := by
  rintro rfl
  exact h.unused_of_free hfree h.active_used

theorem prepareFork_spec (h : w.Inv) {source : ℕ} {r : Representation} {k : UInt32} (copied : Bool)
    (hobject : w.objects.lookup source = some r) (hfree : w.executor.positions.lookup k = none) :
    ∃ e, Done w (.prepareMappingFork source copied) (w.prepareFork r k copied) e := by
  obtain ⟨c, hc⟩ := h.stored source r hobject
  unfold prepareFork
  cases hfork : w.forkState r k copied with
  | none =>
    obtain ⟨hinv, hsame⟩ := discard_spec h (h.unused_of_free hfree)
    exact ⟨.idle, hinv, rfl, Or.inr ⟨nofun, rfl⟩, hsame⟩
  | some found =>
    obtain ⟨state, forked⟩ := found
    obtain ⟨htables, hpositions, hagrees, hcodec, htokens⟩ := forkState_spec
      (h.free_ne_active hfree) (h.unused _ hfree) (tokens_of_content hc) hfork
    have hposition : forked.executor.positions.lookup r.mapping = some c.position := by
      rw [hpositions]
      exact position_of_content hc
    dsimp only
    rw [hposition]
    obtain ⟨hentered, hview, hfresh, hcontent⟩ := enter_spec h hfree htables hpositions hagrees
      htokens c.position (emplace k 0 forked.executor.blockTable)
      forked.executor.mappingImportBytesCopied
    obtain ⟨hinv, hadd⟩ := addFork_spec hentered hfresh hcontent
    have hpublished : w.machine.published source = some c := by
      rw [h.published, hobject]
      exact hc
    rw [hview] at hadd
    refine ⟨.fork source forked.nextHandle, hinv, hcodec, Or.inl ⟨_, rfl, rfl⟩,
      htables.nextHandle, c, hpublished, hadd.trans ?_⟩
    dsimp only
    rw [htables.nextHandle]
    rfl

/-- The mapping of a fork is not used any more when the fork is gone. -/
theorem dropped_unused (h : w.Inv) {fork : ℕ} {f : PreparedMapping}
    (hfork : w.prepared.lookup fork = some f) :
    ¬({ w with prepared := w.prepared.erase fork } : World).Used f.mapping := by
  rintro (hrepresentation | ⟨q, g, hg, hmapping⟩)
  · exact hrepresentation (h.fork fork f hfork)
  · change (w.prepared.erase fork).lookup q = some g at hg
    rw [AList.lookup_erase_ite] at hg
    by_cases hq : q = fork
    · rw [if_pos hq] at hg
      cases hg
    · rw [if_neg hq] at hg
      exact hq (h.distinct q fork g f hg hfork hmapping)

theorem commitMapping_spec (h : w.Inv) (fork : ℕ) :
    ∃ e, Done w (.commitMapping fork) (w.commitMapping fork) e := by
  unfold commitMapping
  cases hfork : w.prepared.lookup fork with
  | none => exact ⟨.idle, h, rfl, Or.inr ⟨nofun, rfl⟩, rfl⟩
  | some f =>
    obtain ⟨c, hc⟩ := h.forked fork f hfork
    obtain ⟨hdropped, hmachine⟩ := dropFork_spec h fork
    have hunused := dropped_unused h hfork
    have hcontent : ({ w with prepared := w.prepared.erase fork } : World).content f.mapping
        f.state = some c := hc
    obtain ⟨hinv, hadd⟩ := publish_spec hdropped hunused hcontent
    rw [hmachine] at hadd
    have hforks : w.machine.forks fork = some c := by
      unfold machine
      dsimp only
      rw [hfork]
      exact hc
    exact ⟨.commit fork w.nextHandle, hinv, rfl, Or.inl ⟨_, rfl, rfl⟩, rfl, c, hforks, hadd⟩

theorem preparedMappingFree_spec (h : w.Inv) (fork : ℕ) :
    ∃ e, Done w (.preparedMappingFree fork) (w.preparedMappingFree fork) e := by
  unfold preparedMappingFree
  cases hfork : w.prepared.lookup fork with
  | none =>
    refine ⟨.abort fork, h, rfl, rfl, ?_⟩
    have hnone : w.machine.forks fork = none := by
      unfold machine
      dsimp only
      rw [hfork]
      rfl
    change w.machine = w.machine.withForks (Function.update w.machine.forks fork none)
    rw [← hnone, Function.update_eq_self]
    rfl
  | some f =>
    obtain ⟨hdropped, hmachine⟩ := dropFork_spec h fork
    have hunused := dropped_unused h hfork
    obtain ⟨hinv, hsame⟩ := discard_spec hdropped hunused
    exact ⟨.abort fork, hinv, rfl, rfl, hsame.trans hmachine⟩

theorem activeRepresentation_spec (h : w.Inv) :
    ∃ e, Done w .activeRepresentation w.activeRepresentation e := by
  obtain ⟨p, hp⟩ := h.active
  obtain ⟨hinv, hdoes⟩ := refer_spec h p 1
  unfold activeRepresentation
  rw [hp]
  exact ⟨.refer p 1, hinv, rfl, ⟨p, rfl, rfl⟩, hdoes⟩

theorem representationRetain_spec (h : w.Inv) (p : ℕ) :
    ∃ e, Done w (.representationRetain p) (w.representationRetain p) e := by
  obtain ⟨hinv, hdoes⟩ := refer_spec h p 1
  exact ⟨.refer p 1, hinv, rfl, rfl, hdoes⟩

theorem representationRelease_spec (h : w.Inv) (p : ℕ) :
    ∃ e, Done w (.representationRelease p) (w.representationRelease p) e := by
  obtain ⟨hinv, hdoes⟩ := refer_spec h p (-1)
  have hsame : (w.representationRelease p).2 = { w with
      objects := w.objects.modify p (fun r => setReferences (r.references + -1) r) } := by
    unfold representationRelease
    simp only [UInt32.sub_eq_add_neg]
  refine ⟨.refer p (-1), ?_, rfl, rfl, ?_⟩
  · rw [hsame]
    exact hinv
  · rw [hsame]
    exact hdoes

/-- A decoding that fails before any token is processed. -/
theorem undecoded {w w' : World} (h : w.Inv) (hmachine : w'.machine = w.machine)
    (tokens : List Token) :
    w.machine.Does (.append (tokens.take 0) Content.position) w'.machine := by
  obtain ⟨c, hpublished, _⟩ := h.live
  refine ⟨c, hpublished, ?_⟩
  rw [hmachine, List.take_zero, List.append_nil]
  unfold Machine.write
  rw [← hpublished, Function.update_eq_self]

theorem decodeMock_spec (h : w.Inv) (hcodec : w.executor.codec = none) (tokens : List Token) :
    (w.decodeMock tokens).2.Inv ∧
      w.machine.Does (.append tokens (advanced none tokens)) (w.decodeMock tokens).2.machine := by
  obtain ⟨c, hpublished, hlive⟩ := h.live
  have hstate : c.tokens = w.executor.mockState := by
    have htokens := tokens_of_content (hlive [])
    rw [tokens_mock hcodec] at htokens
    exact (Option.some.inj htokens).symm
  suffices hwrite : (w.decodeMock tokens).2.Inv ∧ (w.decodeMock tokens).2.machine =
      w.machine.write w.machine.active
        ⟨c.tokens ++ tokens, UInt64.ofNat (c.tokens ++ tokens).length⟩ from
    ⟨hwrite.1, c, hpublished, hwrite.2⟩
  refine live_spec h (w.decodeMock tokens).2 _ ⟨rfl, rfl, rfl, rfl, rfl, rfl⟩ ?_ ?_ ?_
  · intro k state hk
    have hk' : k ≠ (w.decodeMock tokens).2.executor.activeMapping := hk
    exact content_inactive hk hk' rfl (AList.lookup_insert_ne hk) (AList.lookup_insert_ne hk) state
  · intro state
    rw [hstate]
    have hlast : (w.decodeMock tokens).2.executor.codec = none := hcodec
    exact content_of (tokens_mock hlast state) (AList.lookup_insert _)
  · intro k hk
    have hne : k ≠ w.executor.activeMapping := by
      rintro rfl
      change (w.executor.positions.insert _ _).lookup _ = none at hk
      rw [AList.lookup_insert] at hk
      cases hk
    change (w.executor.positions.insert _ _).lookup _ = none at hk
    change (w.executor.mockMappings.insert _ _).lookup _ = none
    rw [AList.lookup_insert_ne hne] at hk ⊢
    exact h.unused k hk

/-- The live sequence and the position of the active mapping change. -/
theorem sequence_spec (h : w.Inv) (hcodec : w.executor.codec = some codec) (w' : World)
    (position : UInt64) (hcodec' : w'.executor.codec = w.executor.codec) (hsame : SameTables w w')
    (hrows : w'.executor.mockMappings = w.executor.mockMappings)
    (hposition : w'.executor.positions.lookup w.executor.activeMapping = some position)
    (hpositions : ∀ k, k ≠ w.executor.activeMapping →
      w'.executor.positions.lookup k = w.executor.positions.lookup k) :
    w'.Inv ∧ w'.machine = w.machine.write w.machine.active ⟨w'.executor.sequence, position⟩ := by
  refine live_spec h w' _ hsame ?_ ?_ ?_
  · intro k state hk
    refine content_inactive hk ?_ hcodec' (by rw [hrows]) (hpositions k hk) state
    rw [hsame.activeMapping]
    exact hk
  · intro state
    rw [← hsame.activeMapping] at hposition ⊢
    exact content_of (tokens_sequence (hcodec'.trans hcodec) state) hposition
  · intro k hk
    have hne : k ≠ w.executor.activeMapping := by
      rintro rfl
      rw [hposition] at hk
      cases hk
    rw [hpositions k hne] at hk
    rw [hrows]
    exact h.unused k hk

theorem World.Inv.sequence (h : w.Inv) (hcodec : w.executor.codec = some codec) : ∃ position,
      w.executor.positions.lookup w.executor.activeMapping = some position ∧
        w.machine.published w.machine.active = some ⟨w.executor.sequence, position⟩ := by
  obtain ⟨c, hpublished, hlive⟩ := h.live
  have htokens := tokens_of_content (hlive [])
  rw [tokens_sequence hcodec] at htokens
  refine ⟨c.position, position_of_content (hlive []), ?_⟩
  rw [hpublished, Option.some.inj htokens]

theorem decodeSequence_spec (h : w.Inv) (hcodec : w.executor.codec = some codec)
    (tokens : List Token) (answer : DecodeAnswer) :
    (w.decodeSequence tokens answer).2.Inv ∧
      (w.decodeSequence tokens answer).2.executor.codec = w.executor.codec ∧
      (((w.decodeSequence tokens answer).1.status = .ok ∧ w.machine.Does
          (.append tokens (advanced (some codec) tokens))
          (w.decodeSequence tokens answer).2.machine) ∨
        ((w.decodeSequence tokens answer).1.status ≠ .ok ∧ ∃ n, w.machine.Does
          (.append (tokens.take n) Content.position)
          (w.decodeSequence tokens answer).2.machine)) := by
  obtain ⟨position, hposition, hpublished⟩ := h.sequence hcodec
  unfold decodeSequence
  cases hblock : w.executor.blockTable.lookup w.executor.activeMapping with
  | none => exact ⟨h, rfl, Or.inr ⟨nofun, 0, undecoded h rfl tokens⟩⟩
  | some sequence =>
    rw [hposition]
    dsimp only
    by_cases hresult : answer.result = 0
    · rw [if_pos hresult]
      obtain ⟨hinv, hmachine⟩ := sequence_spec h hcodec { w with executor := { w.executor with
          sequence := w.executor.sequence ++ tokens
          positions := w.executor.positions.insert w.executor.activeMapping
            (position + UInt64.ofNat tokens.length) } } (position + UInt64.ofNat tokens.length) rfl
        ⟨rfl, rfl, rfl, rfl, rfl, rfl⟩ rfl (AList.lookup_insert _)
        (fun k hk => AList.lookup_insert_ne hk)
      exact ⟨hinv, rfl, Or.inl ⟨rfl, _, hpublished, hmachine⟩⟩
    · rw [if_neg hresult]
      obtain ⟨hinv, hmachine⟩ := sequence_spec h hcodec
        (w.withSequence (w.executor.sequence ++ tokens.take answer.processed)) position rfl
        ⟨rfl, rfl, rfl, rfl, rfl, rfl⟩ rfl hposition (fun _ _ => rfl)
      refine ⟨hinv, rfl, Or.inr ⟨?_, answer.processed, _, hpublished, hmachine⟩⟩
      by_cases hcancelled : answer.result = 2
      · rw [if_pos hcancelled]
        exact nofun
      · rw [if_neg hcancelled]
        exact nofun

theorem decode_spec (h : w.Inv) (tokens : List Token) (answer : DecodeAnswer) :
    ∃ e, Done w (.decode tokens answer) (w.decode tokens answer) e := by
  unfold decode
  by_cases hempty : tokens = []
  · rw [if_pos hempty]
    exact ⟨_, h, rfl, Or.inr ⟨nofun, 0, rfl⟩, undecoded h rfl tokens⟩
  · rw [if_neg hempty]
    obtain ⟨htaken, hmachine⟩ : (w.withCancel false).Inv ∧
        (w.withCancel false).machine = w.machine :=
      quiet_spec h ⟨rfl, rfl, rfl, rfl, rfl, rfl⟩ (fun _ => ⟨rfl, rfl, rfl, rfl, rfl, rfl⟩)
    change ∃ e, Done w (.decode tokens answer) (if w.executor.cancel = true then
      (answered .cancelled, w.withCancel false) else _) e
    by_cases hcancel : w.executor.cancel = true
    · rw [if_pos hcancel]
      exact ⟨_, htaken, rfl, Or.inr ⟨nofun, 0, rfl⟩, undecoded h hmachine tokens⟩
    · rw [if_neg hcancel]
      change ∃ e, Done w (.decode tokens answer) (match w.executor.codec with
        | none => (w.withCancel false).decodeMock tokens
        | some _ => (w.withCancel false).decodeSequence tokens answer) e
      cases hcodec : w.executor.codec with
      | none =>
        obtain ⟨hinv, hdoes⟩ := decodeMock_spec htaken hcodec tokens
        rw [hmachine] at hdoes
        refine ⟨_, hinv, rfl, Or.inl ⟨rfl, ?_⟩, hdoes⟩
        rw [hcodec]
      | some codec =>
        obtain ⟨hinv, hsame, ⟨hok, hdoes⟩ | ⟨hfailed, n, hdoes⟩⟩ :=
          decodeSequence_spec htaken hcodec tokens answer
        · rw [hmachine] at hdoes
          refine ⟨_, hinv, hsame, Or.inl ⟨hok, ?_⟩, hdoes⟩
          rw [hcodec]
        · rw [hmachine] at hdoes
          exact ⟨_, hinv, hsame, Or.inr ⟨hfailed, n, rfl⟩, hdoes⟩

/-- The bytes of a representation stand for its tokens. -/
theorem exportedBytes_spec {r : Representation} (h : w.tokens r.mapping r.state = some tokens) :
    ∃ bytes, w.exportedBytes r = some bytes ∧ Represents w.executor.codec bytes tokens := by
  unfold World.tokens at h
  unfold exportedBytes Represents
  cases hcodec : w.executor.codec with
  | none =>
    rw [hcodec] at h
    dsimp only at h ⊢
    rw [h]
    exact ⟨_, rfl, tokensOf_bytesOf tokens⟩
  | some codec =>
    rw [hcodec] at h
    dsimp only at h ⊢
    refine ⟨_, rfl, ?_⟩
    by_cases hactive : r.mapping = w.executor.activeMapping
    · rw [if_pos hactive] at h ⊢
      rw [← Option.some.inj h]
      exact restored_encode codec _
    · rw [if_neg hactive] at h ⊢
      exact h

theorem exportMapping_spec (h : w.Inv) (source capacity : ℕ) (copied : Bool) :
    ∃ e, Done w (.exportMapping source capacity copied) (w.exportMapping source capacity copied)
      e := by
  unfold exportMapping
  rw [h.valid]
  cases hobject : w.objects.lookup source with
  | none => exact ⟨.idle, h, rfl, Or.inr ⟨nofun, rfl⟩, rfl⟩
  | some r =>
    obtain ⟨c, hc⟩ := h.stored source r hobject
    obtain ⟨bytes, hbytes, hrepresents⟩ := exportedBytes_spec (tokens_of_content hc)
    dsimp only
    rw [hbytes, position_of_content hc]
    dsimp only
    by_cases hcapacity : capacity < bytes.length
    · rw [if_pos hcapacity]
      exact ⟨.idle, h, rfl, Or.inr ⟨nofun, rfl⟩, rfl⟩
    · rw [if_neg hcapacity]
      by_cases hfailed : (w.copiesSequence r && bytes ≠ [] && !copied) = true
      · rw [if_pos hfailed]
        exact ⟨.idle, h, rfl, Or.inr ⟨nofun, rfl⟩, rfl⟩
      · rw [if_neg hfailed]
        obtain ⟨hinv, hmachine⟩ : ({ w with executor := { w.executor with
            mappingExportBytesCopied :=
              w.executor.mappingExportBytesCopied + UInt64.ofNat bytes.length } } : World).Inv ∧
            ({ w with executor := { w.executor with
              mappingExportBytesCopied := w.executor.mappingExportBytesCopied +
                UInt64.ofNat bytes.length } } : World).machine = w.machine :=
          quiet_spec h ⟨rfl, rfl, rfl, rfl, rfl, rfl⟩ (fun _ => ⟨rfl, rfl, rfl, rfl, rfl, rfl⟩)
        have hpublished : w.machine.published source = some c := by
          rw [h.published, hobject]
          exact hc
        exact ⟨_, hinv, rfl, Or.inl ⟨rfl, c.tokens, hrepresents, rfl⟩, hpublished, hmachine⟩

/-- The last part of an import, after the row of the mock backend. -/
theorem enterImport_spec (h : w.Inv) (w' : World) {k : UInt32} {state : List UInt8}
    (hfree : w.executor.positions.lookup k = none) (hsame : SameTables w w')
    (hpositions : w'.executor.positions = w.executor.positions)
    (hagrees : ∀ m, m ≠ k → w.Agrees w' m) (htokens : w'.tokens k state = some tokens)
    (position : UInt64) (copied : ℕ) :
    (w'.enterImport k state position copied).2.Inv ∧
      (w'.enterImport k state position copied).1 = answeredHandle w.nextHandle ∧
      w.machine.Does (.publish w.nextHandle ⟨tokens, position⟩)
        (w'.enterImport k state position copied).2.machine := by
  obtain ⟨hentered, hview, hfresh, hcontent⟩ := enter_spec h hfree hsame hpositions hagrees htokens
    position (emplace k 0 w'.executor.blockTable)
    (w'.executor.mappingImportBytesCopied + UInt64.ofNat copied)
  obtain ⟨hinv, hadd⟩ := publish_spec hentered hfresh hcontent
  rw [hview] at hadd
  refine ⟨hinv, ?_, rfl, hadd⟩
  rw [← hsame.nextHandle]
  rfl

theorem parse_of_setData {bytes : List UInt8} {answer : SetAnswer}
    (h : (setData codec bytes answer).1 = true) :
    codec.parse bytes = some (setData codec bytes answer).2 := by
  unfold setData at h ⊢
  cases hsucceeds : answer.succeeds with
  | false => simp [hsucceeds] at h
  | true =>
    cases hparse : codec.parse bytes with
    | none => simp [hsucceeds, hparse] at h
    | some tokens => rfl

/-- A saved sequence is restored as it was, or the rollback fails. -/
theorem rollback_cases {prior : List UInt8} (h : restored codec prior = some tokens)
    (rollback : SetAnswer) :
    (if prior = [] then (true, []) else setData codec prior rollback) = (true, tokens) ∨
      ∃ left, (if prior = [] then (true, []) else setData codec prior rollback) =
        (false, left) := by
  unfold restored at h
  by_cases hempty : prior = []
  · rw [if_pos hempty] at h ⊢
    rw [← Option.some.inj h]
    exact Or.inl rfl
  · rw [if_neg hempty] at h ⊢
    cases hset : (setData codec prior rollback).1 with
    | false => exact Or.inr ⟨_, Prod.ext hset rfl⟩
    | true =>
      have hparse := parse_of_setData hset
      rw [h] at hparse
      exact Or.inl (Prod.ext hset (Option.some.inj hparse).symm)

/-- A live sequence that could not be restored. -/
theorem lose_spec (h : w.Inv) (hcodec : w.executor.codec = some codec) (left : List Token) :
    (w.withSequence left).Inv ∧ w.machine.Does (.lose left) (w.withSequence left).machine := by
  obtain ⟨position, hposition, hpublished⟩ := h.sequence hcodec
  obtain ⟨hinv, hmachine⟩ := sequence_spec h hcodec (w.withSequence left) position rfl
    ⟨rfl, rfl, rfl, rfl, rfl, rfl⟩ rfl hposition (fun _ _ => rfl)
  exact ⟨hinv, _, hpublished, hmachine⟩

theorem importSequence_spec (h : w.Inv) (hcodec : w.executor.codec = some codec) {k : UInt32}
    (hfree : w.executor.positions.lookup k = none) {bytes : List UInt8} (hbytes : bytes ≠ [])
    (position : UInt64) (copied : Bool) (set rollback : SetAnswer) :
    ∃ e, Done w (.importMapping bytes position copied set rollback)
      (importSequence codec w k bytes position copied set rollback) e := by
  have hne := h.free_ne_active hfree
  unfold importSequence
  cases hsnapshot : snapshotActiveSequence codec w copied with
  | none => exact ⟨.idle, h, rfl, Or.inr (Or.inr ⟨nofun, nofun, rfl⟩), rfl⟩
  | some prior =>
    dsimp only
    rcases rollback_cases (snapshot_restores hsnapshot) rollback with hback | ⟨left, hback⟩
    · rw [hback]
      dsimp only
      cases hconsumed : (setData codec bytes set).1 with
      | false => exact ⟨.idle, h, rfl, Or.inr (Or.inr ⟨nofun, nofun, rfl⟩), rfl⟩
      | true =>
        have hrestored : restored codec bytes = some (setData codec bytes set).2 := by
          unfold restored
          rw [if_neg hbytes]
          exact parse_of_setData hconsumed
        have htokens : w.tokens k bytes = some (setData codec bytes set).2 := by
          rw [tokens_restored hcodec hne]
          exact hrestored
        obtain ⟨hinv, hanswer, hdoes⟩ := enterImport_spec h w hfree
          ⟨rfl, rfl, rfl, rfl, rfl, rfl⟩ rfl (fun _ _ => ⟨rfl, rfl, rfl, rfl, rfl, rfl⟩) htokens
          position (2 * bytes.length + 2 * prior.length)
        refine ⟨_, hinv, rfl, Or.inl ⟨_, _, hanswer, ?_, rfl⟩, hdoes⟩
        rw [hcodec]
        exact hrestored
    · rw [hback]
      obtain ⟨hinv, hdoes⟩ := lose_spec h hcodec left
      exact ⟨_, hinv, rfl, Or.inr (Or.inl ⟨rfl, left, rfl⟩), hdoes⟩

theorem importInto_spec (h : w.Inv) {k : UInt32} (hfree : w.executor.positions.lookup k = none)
    (bytes : List UInt8) (position : UInt64) (copied : Bool) (set rollback : SetAnswer) :
    ∃ e, Done w (.importMapping bytes position copied set rollback)
      (w.importInto k bytes position copied set rollback) e := by
  have hne := h.free_ne_active hfree
  unfold importInto
  cases hcodec : w.executor.codec with
  | none =>
    dsimp only
    by_cases hlength : bytes.length % 4 ≠ 0
    · rw [if_pos hlength]
      exact ⟨.idle, h, rfl, Or.inr (Or.inr ⟨nofun, nofun, rfl⟩), rfl⟩
    · rw [if_neg hlength]
      have hrow : ∀ m, (emplace k (tokensOf bytes) w.executor.mockMappings).lookup m =
          if m = k then some (tokensOf bytes) else w.executor.mockMappings.lookup m :=
        fun m => lookup_emplace _ _ _ _ (h.unused k hfree)
      have htokens : ({ w with executor := { w.executor with
          mockMappings := emplace k (tokensOf bytes) w.executor.mockMappings } } : World).tokens k
            [] = some (tokensOf bytes) := by
        unfold World.tokens
        dsimp only
        rw [hcodec]
        exact (if_neg hne).trans ((hrow k).trans (if_pos rfl))
      obtain ⟨hinv, hanswer, hdoes⟩ := enterImport_spec h { w with executor := { w.executor with
          mockMappings := emplace k (tokensOf bytes) w.executor.mockMappings } } hfree
        ⟨rfl, rfl, rfl, rfl, rfl, rfl⟩ rfl
        (fun m hm => ⟨rfl, rfl, rfl, rfl, (hrow m).trans (if_neg hm), rfl⟩) htokens position
        bytes.length
      refine ⟨_, hinv, rfl, Or.inl ⟨_, _, hanswer, ?_, rfl⟩, hdoes⟩
      rw [hcodec]
      rfl
  | some codec =>
    dsimp only
    by_cases hempty : bytes = []
    · rw [if_pos hempty]
      have htokens : w.tokens k [] = some [] := tokens_restored hcodec hne []
      obtain ⟨hinv, hanswer, hdoes⟩ := enterImport_spec h w hfree
        ⟨rfl, rfl, rfl, rfl, rfl, rfl⟩ rfl (fun _ _ => ⟨rfl, rfl, rfl, rfl, rfl, rfl⟩) htokens
        position 0
      refine ⟨_, hinv, rfl, Or.inl ⟨_, _, hanswer, ?_, rfl⟩, hdoes⟩
      rw [hcodec, hempty]
      rfl
    · rw [if_neg hempty]
      exact importSequence_spec h hcodec hfree hempty position copied set rollback

/-- The lists of all objects and forks are in place for the mapping to become active. -/
structure Placed (w w' : World) (mapping : UInt32) : Prop where
  codec : w'.executor.codec = w.executor.codec
  objects : ∀ p a, w.objects.lookup p = some a → ∃ b, w'.objects.lookup p = some b ∧
    b.mapping = a.mapping ∧ b.references = a.references ∧
      (w'.withActive mapping).content b.mapping b.state = w.content a.mapping a.state
  missing : ∀ p, w.objects.lookup p = none → w'.objects.lookup p = none
  prepared : w'.prepared = w.prepared
  nextHandle : w'.nextHandle = w.nextHandle
  representations : w'.executor.representations = w.executor.representations
  publishedMappings : w'.executor.publishedMappings = w.executor.publishedMappings
  forks : ∀ q f, w.prepared.lookup q = some f →
    (w'.withActive mapping).content f.mapping f.state = w.content f.mapping f.state
  unused : ∀ k, w'.executor.positions.lookup k = none → w'.executor.mockMappings.lookup k = none

theorem Placed.withActive {w' : World} {target : ℕ} {r : Representation}
    (hplaced : Placed w w' r.mapping) (h : w.Inv) (htarget : w.objects.lookup target = some r) :
    (w'.withActive r.mapping).Inv ∧
      (w'.withActive r.mapping).machine = { w.machine with active := target } := by
  have hlookup := (h.object target r htarget).1
  obtain ⟨hinv, hmachine⟩ : (w'.withActive r.mapping).Inv ∧
      (w'.withActive r.mapping).machine = { w.machine with
        references := (w'.withActive r.mapping).machine.references
        active := (w'.withActive r.mapping).machine.active } := by
    refine objects_spec h ?_ hplaced.missing hplaced.prepared hplaced.nextHandle
      hplaced.representations hplaced.publishedMappings hplaced.forks ⟨target, hlookup⟩
      hplaced.unused
    intro p a ha
    obtain ⟨b, hb, hmapping, _, hcontent⟩ := hplaced.objects p a ha
    exact ⟨b, hb, hmapping, hcontent⟩
  refine ⟨hinv, hmachine.trans ?_⟩
  refine Machine.ext rfl ?_ rfl ?_ rfl
  · funext p
    change ((w'.objects.lookup p).map Representation.references).getD 0 =
      ((w.objects.lookup p).map Representation.references).getD 0
    cases ha : w.objects.lookup p with
    | none => rw [hplaced.missing p ha]
    | some a =>
      obtain ⟨b, hb, _, hreferences, _⟩ := hplaced.objects p a ha
      rw [hb]
      exact hreferences
  · change (w'.executor.representations.lookup r.mapping).getD 0 = target
    rw [hplaced.representations, hlookup]
    rfl

/-- The switch itself, once every list is in its place. -/
theorem Placed.switched {w' : World} {target previousHandle : ℕ} {r : Representation}
    (hplaced : Placed w w' r.mapping) (h : w.Inv) (htarget : w.objects.lookup target = some r)
    (hinactive : r.mapping ≠ w.executor.activeMapping)
    (hprevious : w.executor.representations.lookup w.executor.activeMapping =
      some previousHandle) :
    (w'.switched r.mapping w.executor.activeMapping previousHandle).Inv ∧
      (w'.switched r.mapping w.executor.activeMapping previousHandle).executor.codec =
        w.executor.codec ∧
      w.machine.Step (.activate target)
        (w'.switched r.mapping w.executor.activeMapping previousHandle).machine := by
  obtain ⟨hinv, hmachine⟩ := hplaced.withActive h htarget
  obtain ⟨c, hc⟩ := h.stored target r htarget
  have hpublished : w.machine.published target = some c := by
    rw [h.published, htarget]
    exact hc
  have hdoes : w.machine.Does (.activate target) (w'.withActive r.mapping).machine :=
    ⟨⟨c, hpublished⟩, hmachine⟩
  obtain ⟨t, ht, hmapping⟩ := h.representation _ _ hprevious
  obtain ⟨s, hs, hsame, _⟩ := hplaced.objects previousHandle t ht
  by_cases hreclaim : w.executor.activeMapping ≠ 0 ∧ (w'.objects.lookup previousHandle).any
      (fun r => r.references = 0) = true
  · have hswitched : w'.switched r.mapping w.executor.activeMapping previousHandle =
        (w'.withActive r.mapping).reclaimRepresentation previousHandle := if_pos hreclaim
    have hzero : s.references = 0 := by simpa [hs] using hreclaim.2
    have hother : s.mapping ≠ r.mapping := by
      rw [hsame, hmapping]
      exact Ne.symm hinactive
    obtain ⟨hlast, hreclaims⟩ := reclaim_reclaims hinv hs hother hzero
    rw [hswitched]
    exact ⟨hlast, (reclaimRepresentation_codec _ _).trans hplaced.codec,
      Or.inr ⟨target, _, rfl, hdoes, hreclaims⟩⟩
  · have hswitched : w'.switched r.mapping w.executor.activeMapping previousHandle =
        w'.withActive r.mapping := if_neg hreclaim
    rw [hswitched]
    exact ⟨hinv, hplaced.codec, Or.inr ⟨target, _, rfl, hdoes, Machine.Reclaims.refl _⟩⟩

theorem tokens_mockMapping (hcodec : w.executor.codec = none) {k : UInt32}
    (hk : k ≠ w.executor.activeMapping) (state : List UInt8) :
    w.tokens k state = w.executor.mockMappings.lookup k := by
  unfold World.tokens mockTokens
  rw [hcodec]
  exact if_neg hk

/-- The mock backend with the tokens of the mapping as its state. -/
def mockPlaced (w : World) (mapping : UInt32) (tokens : List Token) : World :=
  { w with executor := { w.executor with
    mockMappings := (w.executor.mockMappings.insert w.executor.activeMapping
      w.executor.mockState).erase mapping
    mockState := tokens } }

theorem lookup_mockPlaced {mapping k : UInt32} (tokens : List Token) (hk : k ≠ mapping) :
    (mockPlaced w mapping tokens).executor.mockMappings.lookup k =
      if k = w.executor.activeMapping then some w.executor.mockState
      else w.executor.mockMappings.lookup k := by
  change ((w.executor.mockMappings.insert _ _).erase mapping).lookup k = _
  rw [AList.lookup_erase_ne hk]
  exact AList.lookup_insert_ite _ _ _ _

theorem content_mockPlaced (hcodec : w.executor.codec = none) {mapping : UInt32}
    (hinactive : mapping ≠ w.executor.activeMapping)
    (htokens : w.executor.mockMappings.lookup mapping = some tokens) (k : UInt32)
    (state : List UInt8) :
    ((mockPlaced w mapping tokens).withActive mapping).content k state = w.content k state := by
  have hcodec' : ((mockPlaced w mapping tokens).withActive mapping).executor.codec = none := hcodec
  have htokens' : ((mockPlaced w mapping tokens).withActive mapping).tokens k state =
      w.tokens k state := by
    by_cases htarget : k = mapping
    · subst htarget
      rw [tokens_mockMapping hcodec hinactive, htokens]
      exact tokens_mock hcodec' state
    · rw [tokens_mockMapping hcodec' htarget]
      refine (lookup_mockPlaced tokens htarget).trans ?_
      by_cases hactive : k = w.executor.activeMapping
      · rw [if_pos hactive, hactive]
        exact (tokens_mock hcodec state).symm
      · rw [if_neg hactive]
        exact (tokens_mockMapping hcodec hactive state).symm
  unfold content
  rw [htokens']
  rfl

theorem placed_mock (h : w.Inv) (hcodec : w.executor.codec = none) {mapping : UInt32}
    (hinactive : mapping ≠ w.executor.activeMapping)
    (htokens : w.executor.mockMappings.lookup mapping = some tokens) :
    Placed w (mockPlaced w mapping tokens) mapping where
  codec := rfl
  objects p a ha := ⟨a, ha, rfl, rfl, content_mockPlaced hcodec hinactive htokens _ _⟩
  missing _ hp := hp
  prepared := rfl
  nextHandle := rfl
  representations := rfl
  publishedMappings := rfl
  forks _ _ _ := content_mockPlaced hcodec hinactive htokens _ _
  unused k hfree := by
    by_cases htarget : k = mapping
    · rw [htarget]
      exact AList.lookup_erase _ _
    · rw [lookup_mockPlaced tokens htarget, if_neg (h.free_ne_active hfree)]
      exact h.unused k hfree

theorem activateMock_spec (h : w.Inv) (hcodec : w.executor.codec = none) {target : ℕ}
    {r : Representation} (hobject : w.objects.lookup target = some r)
    (hinactive : r.mapping ≠ w.executor.activeMapping) {previousHandle : ℕ}
    (hprevious : w.executor.representations.lookup w.executor.activeMapping = some previousHandle) :
    ∃ w', w.activateMock r.mapping w.executor.activeMapping previousHandle = (answered .ok, w') ∧
      w'.Inv ∧ w'.executor.codec = w.executor.codec ∧
        w.machine.Step (.activate target) w'.machine := by
  obtain ⟨c, hc⟩ := h.stored target r hobject
  have htokens : w.executor.mockMappings.lookup r.mapping = some c.tokens := by
    rw [← tokens_mockMapping hcodec hinactive r.state]
    exact tokens_of_content hc
  have hsaved : (w.executor.mockMappings.insert w.executor.activeMapping
      w.executor.mockState).lookup r.mapping = some c.tokens := by
    rw [AList.lookup_insert_ne hinactive]
    exact htokens
  unfold activateMock
  dsimp only
  rw [hsaved]
  exact ⟨_, rfl, (placed_mock h hcodec hinactive htokens).switched h hobject hinactive hprevious⟩

/-- The sequence of the target is live and the previous one saved in its bytes. -/
def sequencePlaced (w : World) (target previousHandle : ℕ) (prior : List UInt8)
    (sequence : List Token) : World :=
  { w.withSequence sequence with
    objects := (w.objects.modify target (setState [])).modify previousHandle (setState prior) }

section Sequence

variable {target previousHandle : ℕ} {r : Representation} {prior : List UInt8}
  {sequence : List Token} (h : w.Inv) (hcodec : w.executor.codec = some codec)
  (hobject : w.objects.lookup target = some r) (hinactive : r.mapping ≠ w.executor.activeMapping)
  (hprevious : w.executor.representations.lookup w.executor.activeMapping = some previousHandle)

theorem lookup_sequencePlaced (hne : target ≠ previousHandle) (p : ℕ) :
    (sequencePlaced w target previousHandle prior sequence).objects.lookup p =
      if p = previousHandle then (w.objects.lookup p).map (setState prior)
      else if p = target then (w.objects.lookup p).map (setState [])
      else w.objects.lookup p := by
  unfold sequencePlaced
  dsimp only
  rw [AList.lookup_modify, AList.lookup_modify]
  by_cases hp : p = previousHandle
  · rw [if_pos hp, if_pos hp, if_neg (fun heq => hne (heq.symm.trans hp))]
  · rw [if_neg hp, if_neg hp]

/-- What a mapping holds that is active neither before nor after. -/
theorem content_sequencePlaced {mapping k : UInt32} (hk : k ≠ mapping)
    (hk' : k ≠ w.executor.activeMapping) (state : List UInt8) :
    ((sequencePlaced w target previousHandle prior sequence).withActive mapping).content k state =
      w.content k state := by
  have hstays : k ≠ ((sequencePlaced w target previousHandle prior sequence).withActive
      mapping).executor.activeMapping := hk
  exact content_inactive hk' hstays rfl rfl rfl state

include h hcodec hobject hinactive hprevious

theorem placed_sequence (hprior : restored codec prior = some w.executor.sequence)
    (hsequence : restored codec r.state = some sequence) :
    Placed w (sequencePlaced w target previousHandle prior sequence) r.mapping := by
  obtain ⟨t, ht, hmapping⟩ := h.representation _ _ hprevious
  have hne : target ≠ previousHandle := by
    rintro rfl
    rw [hobject] at ht
    exact hinactive ((congrArg Representation.mapping (Option.some.inj ht)).trans hmapping)
  have hcodec' : ((sequencePlaced w target previousHandle prior sequence).withActive
      r.mapping).executor.codec = some codec := hcodec
  refine ⟨rfl, ?_, ?_, rfl, rfl, rfl, rfl, ?_, h.unused⟩
  · intro p a ha
    rw [lookup_sequencePlaced hne, ha]
    by_cases hp : p = previousHandle
    · -- the previous list is saved in its bytes
      subst hp
      obtain rfl := Option.some.inj (ha.symm.trans ht)
      rw [if_pos rfl]
      refine ⟨_, rfl, rfl, rfl, ?_⟩
      change (World.withActive _ r.mapping).content a.mapping prior = w.content a.mapping a.state
      unfold content
      rw [hmapping, tokens_restored hcodec' (Ne.symm hinactive), hprior, tokens_sequence hcodec]
      rfl
    · rw [if_neg hp]
      by_cases hp' : p = target
      · -- the list of the target is live
        subst hp'
        obtain rfl := Option.some.inj (ha.symm.trans hobject)
        rw [if_pos rfl]
        refine ⟨_, rfl, rfl, rfl, ?_⟩
        change (World.withActive _ a.mapping).content a.mapping [] = w.content a.mapping a.state
        have hlive : ((sequencePlaced w p previousHandle prior sequence).withActive
            a.mapping).tokens a.mapping [] = some sequence := tokens_sequence hcodec' []
        unfold content
        rw [hlive, tokens_restored hcodec hinactive, hsequence]
        rfl
      · rw [if_neg hp']
        refine ⟨a, rfl, rfl, rfl, content_sequencePlaced ?_ ?_ a.state⟩
        · exact fun heq => hp' (h.handle ha hobject heq)
        · exact fun heq => hp (h.handle ha ht (heq.trans hmapping.symm))
  · intro p hp
    rw [lookup_sequencePlaced hne, hp]
    simp
  · intro q f hf
    have hfree := h.fork q f hf
    refine content_sequencePlaced ?_ ?_ f.state
    · intro heq
      rw [heq, (h.object target r hobject).1] at hfree
      cases hfree
    · intro heq
      rw [heq, hprevious] at hfree
      cases hfree

theorem activateSequence_spec (hprior : restored codec prior = some w.executor.sequence)
    (hsequence : restored codec r.state = some sequence) (w' : World)
    (hw : w' = sequencePlaced w target previousHandle prior sequence) :
    (w'.switched r.mapping w.executor.activeMapping previousHandle).Inv ∧
      (w'.switched r.mapping w.executor.activeMapping previousHandle).executor.codec =
        w.executor.codec ∧
      w.machine.Step (.activate target)
        (w'.switched r.mapping w.executor.activeMapping previousHandle).machine := by
  rw [hw]
  exact (placed_sequence h hcodec hobject hinactive hprevious hprior hsequence).switched h hobject
    hinactive hprevious

end Sequence

/-- A call refines a step of the machine. -/
structure Refines (w : World) (a : Action) (out : Answer × World) : Prop where
  inv : out.2.Inv
  codec : out.2.executor.codec = w.executor.codec
  steps : ∃ e, Matches w.executor.codec ⟨a, out.1⟩ e ∧ w.machine.Step e out.2.machine

theorem Done.refines {a : Action} {out : Answer × World} {e : Event Token} (h : Done w a out e) :
    Refines w a out :=
  ⟨h.inv, h.codec, e, h.answer, Or.inl ⟨_, Machine.Reclaims.refl _, h.does⟩⟩

/-- A call that reclaims before it does something. -/
theorem Done.refines_reclaimed (h : w.Inv) {a : Action} {out : Answer × World} {e : Event Token}
    (hdone : Done w.reclaimUnreferencedRepresentations a out e) : Refines w a out := by
  obtain ⟨_, hreclaims, hcodec⟩ := reclaimUnreferenced_spec h
  refine ⟨hdone.inv, hdone.codec.trans hcodec, e, ?_, Or.inl ⟨_, hreclaims, hdone.does⟩⟩
  rw [← hcodec]
  exact hdone.answer

/-- A number is drawn before something is done with it. -/
theorem Done.of_drawn {a : Action} {out : Answer × World} {e : Event Token} (h : w.Inv)
    (hdone : Done w.drawMapping a out e) : Done w a out e := by
  obtain ⟨_, hmachine⟩ := drawMapping_spec h
  refine ⟨hdone.inv, hdone.codec, hdone.answer, ?_⟩
  rw [← hmachine]
  exact hdone.does

theorem prepareMappingFork_refines (h : w.Inv) (source : ℕ) (copied : Bool) {answer : Answer}
    (hfree : DrawsFree w ⟨.prepareMappingFork source copied, answer⟩) :
    Refines w (.prepareMappingFork source copied) (w.prepareMappingFork source copied) := by
  obtain ⟨hinv, _, _⟩ := reclaimUnreferenced_spec h
  unfold prepareMappingFork
  dsimp only
  cases hvalid : w.reclaimUnreferencedRepresentations.validRepresentation source with
  | none =>
    have hdone : Done w.reclaimUnreferencedRepresentations (.prepareMappingFork source copied)
        (answered .invalid, w.reclaimUnreferencedRepresentations) .idle :=
      ⟨hinv, rfl, Or.inr ⟨nofun, rfl⟩, rfl⟩
    exact hdone.refines_reclaimed h
  | some r =>
    have hnumber := hfree (by rw [hvalid]; rfl)
    rw [hinv.valid] at hvalid
    obtain ⟨e, hdone⟩ := prepareFork_spec (drawMapping_spec hinv).1 copied hvalid hnumber
    exact (hdone.of_drawn hinv).refines_reclaimed h

theorem importMapping_refines (h : w.Inv) (bytes : List UInt8) (position : UInt64) (copied : Bool)
    (set rollback : SetAnswer) {answer : Answer}
    (hfree : DrawsFree w ⟨.importMapping bytes position copied set rollback, answer⟩) :
    Refines w (.importMapping bytes position copied set rollback)
      (w.importMapping bytes position copied set rollback) := by
  obtain ⟨hinv, _, _⟩ := reclaimUnreferenced_spec h
  obtain ⟨e, hdone⟩ := importInto_spec (drawMapping_spec hinv).1 hfree bytes position
    copied set rollback
  exact (hdone.of_drawn hinv).refines_reclaimed h

theorem activateMapping_refines (h : w.Inv) (target : ℕ) (copied : Bool)
    (set rollback : SetAnswer) : Refines w (.activateMapping target copied set rollback)
      (w.activateMapping target copied set rollback) := by
  have hidle : ∀ status, status ≠ .ok → status ≠ .rollbackFailed →
      Refines w (.activateMapping target copied set rollback) (answered status, w) := by
    intro status hok hrollback
    have hdone : Done w (.activateMapping target copied set rollback) (answered status, w) .idle :=
      ⟨h, rfl, Or.inr (Or.inr ⟨hok, hrollback, rfl⟩), rfl⟩
    exact hdone.refines
  unfold activateMapping
  rw [h.valid]
  cases hobject : w.objects.lookup target with
  | none => exact hidle .invalid nofun nofun
  | some r =>
    obtain ⟨c, hc⟩ := h.stored target r hobject
    have hpublished : w.machine.published target = some c := by
      rw [h.published, hobject]
      exact hc
    dsimp only
    by_cases hactive : r.mapping = w.executor.activeMapping
    · rw [if_pos hactive]
      have hdone : Done w (.activateMapping target copied set rollback) (answered .ok, w)
          (.activate target) := by
        refine ⟨h, rfl, Or.inl ⟨rfl, rfl⟩, ⟨c, hpublished⟩, ?_⟩
        rw [(h.active_iff hobject).mpr hactive]
      exact hdone.refines
    · rw [if_neg hactive]
      obtain ⟨previousHandle, hprevious⟩ := h.active
      rw [hprevious]
      dsimp only
      cases hcodec : w.executor.codec with
      | none =>
        obtain ⟨w', hw', hinv, hsame, hstep⟩ :=
          activateMock_spec h hcodec hobject hactive hprevious
        dsimp only
        rw [hw']
        exact ⟨hinv, hsame, _, Or.inl ⟨rfl, rfl⟩, hstep⟩
      | some codec =>
        dsimp only
        unfold activateSequence
        cases hsnapshot : snapshotActiveSequence codec w copied with
        | none => exact hidle .backend nofun nofun
        | some prior =>
          have hprior := snapshot_restores hsnapshot
          have hstate : restored codec r.state = some c.tokens := by
            rw [← tokens_restored hcodec hactive]
            exact tokens_of_content hc
          dsimp only
          by_cases hempty : r.state = []
          · rw [if_pos hempty]
            have hnothing : restored codec r.state = some [] := by
              rw [hempty]
              rfl
            obtain ⟨hinv, hsame, hstep⟩ := activateSequence_spec h hcodec hobject hactive hprevious
              hprior hnothing _ rfl
            exact ⟨hinv, hsame, _, Or.inl ⟨rfl, rfl⟩, hstep⟩
          · rw [if_neg hempty]
            rcases hset : setData codec r.state set with ⟨taken, sequence⟩
            dsimp only
            cases taken with
            | true =>
              have hparse := parse_of_setData (congrArg Prod.fst hset)
              rw [hset] at hparse
              have hsequence : restored codec r.state = some sequence :=
                (if_neg hempty).trans hparse
              obtain ⟨hinv, hsame, hstep⟩ := activateSequence_spec h hcodec hobject hactive
                hprevious hprior hsequence _ rfl
              exact ⟨hinv, hsame, _, Or.inl ⟨rfl, rfl⟩, hstep⟩
            | false =>
              rw [if_neg Bool.false_ne_true]
              by_cases hprevempty : prior = []
              · rw [if_pos hprevempty]
                rw [hprevempty] at hprior
                have hsame : w.withSequence [] = w := by
                  unfold withSequence
                  rw [Option.some.inj hprior]
                rw [hsame]
                exact hidle .backend nofun nofun
              · rw [if_neg hprevempty]
                rcases rollback_cases hprior rollback with hback | ⟨left, hback⟩
                · rw [if_neg hprevempty] at hback
                  rw [hback]
                  exact hidle .backend nofun nofun
                · rw [if_neg hprevempty] at hback
                  rw [hback]
                  obtain ⟨hinv, hdoes⟩ := lose_spec h hcodec left
                  have hdone : Done w (.activateMapping target copied set rollback)
                      (answered .rollbackFailed, w.withSequence left) (.lose left) :=
                    ⟨hinv, rfl, Or.inr (Or.inl ⟨rfl, left, rfl⟩), hdoes⟩
                  exact hdone.refines

theorem act_refines (h : w.Inv) (x : Returned) (hfree : DrawsFree w x) :
    Refines w x.action (act w x.action) := by
  obtain ⟨action, answer⟩ := x
  cases action with
  | prepareMappingFork source copied => exact prepareMappingFork_refines h source copied hfree
  | commitMapping fork =>
    obtain ⟨_, hdone⟩ := commitMapping_spec h fork
    exact hdone.refines
  | preparedMappingFree fork =>
    obtain ⟨_, hdone⟩ := preparedMappingFree_spec h fork
    exact hdone.refines
  | activateMapping target copied set rollback =>
    exact activateMapping_refines h target copied set rollback
  | decode tokens decoded =>
    obtain ⟨_, hdone⟩ := decode_spec h tokens decoded
    exact hdone.refines
  | exportMapping source capacity copied =>
    obtain ⟨_, hdone⟩ := exportMapping_spec h source capacity copied
    exact hdone.refines
  | importMapping bytes position copied set rollback =>
    exact importMapping_refines h bytes position copied set rollback hfree
  | activeRepresentation =>
    obtain ⟨_, hdone⟩ := activeRepresentation_spec h
    exact hdone.refines
  | representationRetain handle =>
    obtain ⟨_, hdone⟩ := representationRetain_spec h handle
    exact hdone.refines
  | representationRelease handle =>
    obtain ⟨_, hdone⟩ := representationRelease_spec h handle
    exact hdone.refines
  | cancel =>
    obtain ⟨hinv, hmachine⟩ : (w.withCancel true).Inv ∧ (w.withCancel true).machine = w.machine :=
      quiet_spec h ⟨rfl, rfl, rfl, rfl, rfl, rfl⟩ (fun _ => ⟨rfl, rfl, rfl, rfl, rfl, rfl⟩)
    have hdone : Done w .cancel (answered .ok, w.withCancel true) .idle :=
      ⟨hinv, rfl, rfl, hmachine⟩
    exact hdone.refines
  | resetCancel =>
    obtain ⟨hinv, hmachine⟩ : (w.withCancel false).Inv ∧ (w.withCancel false).machine = w.machine :=
      quiet_spec h ⟨rfl, rfl, rfl, rfl, rfl, rfl⟩ (fun _ => ⟨rfl, rfl, rfl, rfl, rfl, rfl⟩)
    have hdone : Done w .resetCancel (answered .ok, w.withCancel false) .idle :=
      ⟨hinv, rfl, rfl, hmachine⟩
    exact hdone.refines

end Cusco.NativeMappings
