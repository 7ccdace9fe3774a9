import Cusco.MappingRefinement

/-!
Runs of the mapping layer. As long as no number is drawn that is in use, every run refines
the machine of token lists: live representations keep their lists, forks start with the list
of their source, exports and imports agree, and nothing that is live is reclaimed. After
2 ^ 32 numbers the next one is that of the root mapping, whose rows are then discarded.
-/

namespace Cusco.NativeMappings

open Runs Sequences World

variable {codec : Option StateCodec}

/-- What a call does to the representations. -/
structure Keeps (w : World) (x : Returned) (w' : World) : Prop where
  steps : ∃ e, Matches w.executor.codec x e ∧ w.machine.Step e w'.machine
  /-- Live representations have a list and a position. -/
  live : ∀ p, w'.machine.Live p → ∃ c, w'.machine.published p = some c
  /-- Lists and positions stay, except that decoding appends some of its tokens to the
  active list, and that the active list is lost with its rollback. -/
  kept : ∀ p c c', w.machine.published p = some c → w'.machine.published p = some c' →
    c' = c ∨
      (p = w.machine.active ∧ ∃ tokens decoded more, x.action = .decode tokens decoded ∧
        more <+: tokens ∧ c'.tokens = c.tokens ++ more ∧
          (x.answer.status = .ok → more = tokens)) ∨
      (p = w.machine.active ∧ x.answer.status = .rollbackFailed ∧ c'.position = c.position)
  /-- What is reclaimed is not active and has no references. -/
  reclaimed : ∀ p c, w.machine.published p = some c → w'.machine.published p = none →
    p ≠ w'.machine.active ∧ w.machine.references p = 0

/-- The bytes and the position of an export are imported as the same list. -/
def RoundTrip (w : World) (x y : Returned) (v' : World) : Prop :=
  ∀ source capacity copied copied' set rollback p,
    x.action = .exportMapping source capacity copied → x.answer.status = .ok →
      y.action = .importMapping x.answer.bytes x.answer.position copied' set rollback →
        y.answer = answeredHandle p →
          ∃ c, w.machine.published source = some c ∧ v'.machine.published p = some c

/-- A committed fork has the list that its source had when it was prepared. -/
def ForksStart (start : World) (run : List (Returned × World)) : Prop :=
  ∀ before between after x y w' v' source copied q p,
    run = before ++ (x, w') :: (between ++ (y, v') :: after) →
      x.action = .prepareMappingFork source copied → x.answer = answeredHandle q →
        y.action = .commitMapping q → y.answer = answeredHandle p →
          ∃ c, (last start before).machine.published source = some c ∧
            v'.machine.published p = some c

/-- The invariant of a run on one backend. -/
structure Sound (codec : Option StateCodec) (w : World) : Prop extends w.Inv where
  backend : w.executor.codec = codec

theorem sound_opened (codec : Option StateCodec) : Sound codec (opened codec) :=
  ⟨inv_opened codec, rfl⟩

theorem World.Inv.live_published {w : World} (h : w.Inv) {p : ℕ} (hp : w.machine.Live p) :
    ∃ c, w.machine.published p = some c := by
  rcases hp with rfl | hreferences
  · obtain ⟨c, hc, _⟩ := h.live
    exact ⟨c, hc⟩
  · cases hobject : w.objects.lookup p with
    | none =>
      unfold machine at hreferences
      dsimp only at hreferences
      rw [hobject] at hreferences
      exact absurd rfl hreferences
    | some r =>
      obtain ⟨c, hc⟩ := h.stored p r hobject
      refine ⟨c, ?_⟩
      rw [h.published, hobject]
      exact hc

/-- Only a decoding is an appending. -/
theorem append_of_matches {x : Returned} {tokens : List Token} {position : Content Token → UInt64}
    (h : Matches codec x (.append tokens position)) :
    ∃ all decoded, x.action = .decode all decoded ∧ tokens <+: all ∧
      (x.answer.status = .ok → tokens = all) := by
  obtain ⟨action, answer⟩ := x
  cases action with
  | decode all decoded =>
    rcases h with ⟨_, heq⟩ | ⟨hfailed, n, heq⟩
    · cases heq
      exact ⟨_, _, rfl, List.prefix_rfl, fun _ => rfl⟩
    · cases heq
      exact ⟨_, _, rfl, List.take_prefix n all, fun hok => absurd hok hfailed⟩
  | prepareMappingFork source copied => rcases h with ⟨_, _, heq⟩ | ⟨_, heq⟩ <;> cases heq
  | commitMapping fork => rcases h with ⟨_, _, heq⟩ | ⟨_, heq⟩ <;> cases heq
  | preparedMappingFree fork => cases h
  | activateMapping target copied set rollback =>
    rcases h with ⟨_, heq⟩ | ⟨_, _, heq⟩ | ⟨_, _, heq⟩ <;> cases heq
  | exportMapping source capacity copied => rcases h with ⟨_, _, _, heq⟩ | ⟨_, heq⟩ <;> cases heq
  | importMapping bytes position copied set rollback =>
    rcases h with ⟨_, _, _, _, heq⟩ | ⟨_, _, heq⟩ | ⟨_, _, heq⟩ <;> cases heq
  | activeRepresentation =>
    obtain ⟨_, _, heq⟩ := h
    cases heq
  | representationRetain handle => cases h
  | representationRelease handle => cases h
  | cancel => cases h
  | resetCancel => cases h

/-- A list is lost only with its rollback. -/
theorem lose_of_matches {x : Returned} {tokens : List Token} (h : Matches codec x (.lose tokens)) :
    x.answer.status = .rollbackFailed := by
  obtain ⟨action, answer⟩ := x
  cases action with
  | decode all decoded => rcases h with ⟨_, heq⟩ | ⟨_, _, heq⟩ <;> cases heq
  | prepareMappingFork source copied => rcases h with ⟨_, _, heq⟩ | ⟨_, heq⟩ <;> cases heq
  | commitMapping fork => rcases h with ⟨_, _, heq⟩ | ⟨_, heq⟩ <;> cases heq
  | preparedMappingFree fork => cases h
  | activateMapping target copied set rollback =>
    rcases h with ⟨_, heq⟩ | ⟨hfailed, _⟩ | ⟨_, _, heq⟩
    · cases heq
    · exact hfailed
    · cases heq
  | exportMapping source capacity copied => rcases h with ⟨_, _, _, heq⟩ | ⟨_, heq⟩ <;> cases heq
  | importMapping bytes position copied set rollback =>
    rcases h with ⟨_, _, _, _, heq⟩ | ⟨hfailed, _⟩ | ⟨_, _, heq⟩
    · cases heq
    · exact hfailed
    · cases heq
  | activeRepresentation =>
    obtain ⟨_, _, heq⟩ := h
    cases heq
  | representationRetain handle => cases h
  | representationRelease handle => cases h
  | cancel => cases h
  | resetCancel => cases h

theorem keeps_of_step {w w' : World} {x : Returned} (h : Sound codec w) (hstep : Step w x w')
    (hfree : DrawsFree w x) : Sound codec w' ∧ Keeps w x w' := by
  obtain ⟨hinv, hcodec, e, hmatches, hmachine⟩ := act_refines h.toInv x hfree
  rw [hstep] at hinv hcodec hmatches hmachine
  refine ⟨⟨hinv, hcodec.trans h.backend⟩, ⟨e, hmatches, hmachine⟩, fun p hp =>
    hinv.live_published hp, ?_, ?_⟩
  · intro p c c' hc hc'
    rcases hmachine.becomes h.toInv.bounded hc hc' with
      hsame | ⟨hp, tokens, position, rfl, rfl⟩ | ⟨hp, tokens, rfl, rfl⟩
    · exact Or.inl hsame
    · obtain ⟨all, decoded, haction, hprefix, hok⟩ := append_of_matches hmatches
      exact Or.inr (Or.inl ⟨hp, all, decoded, tokens, haction, hprefix, rfl, hok⟩)
    · exact Or.inr (Or.inr ⟨hp, lose_of_matches hmatches, rfl⟩)
  · intro p c hc hnone
    obtain ⟨hzero, hactive⟩ := hmachine.reclaimed h.toInv.bounded hc hnone
    exact ⟨hactive, hzero⟩

/-- Steps that draw free numbers. -/
def FreeStep (w : World) (x : Returned) (w' : World) : Prop := Step w x w' ∧ DrawsFree w x

theorem sound_of_free (w : World) (x : Returned) (w' : World) (h : Sound codec w)
    (hstep : FreeStep w x w') : Sound codec w' :=
  (keeps_of_step h hstep.1 hstep.2).1

theorem event_of_free {w w' : World} {x : Returned} (h : Sound codec w) (hstep : FreeStep w x w') :
    ∃ e, Matches codec x e ∧ w.machine.Step e w'.machine := by
  obtain ⟨e, hmatches, hmachine⟩ := (keeps_of_step h hstep.1 hstep.2).2.steps
  rw [h.backend] at hmatches
  exact ⟨e, hmatches, hmachine⟩

theorem export_of_matches {x : Returned} {e : Event Token} {source capacity : ℕ} {copied : Bool}
    (h : Matches codec x e) (haction : x.action = .exportMapping source capacity copied)
    (hok : x.answer.status = .ok) :
    ∃ tokens, Represents codec x.answer.bytes tokens ∧
      e = .read source ⟨tokens, x.answer.position⟩ := by
  unfold Matches at h
  rw [haction] at h
  rcases h with ⟨_, tokens, hrepresents, rfl⟩ | ⟨hfailed, _⟩
  · exact ⟨tokens, hrepresents, rfl⟩
  · exact absurd hok hfailed

theorem import_of_matches {y : Returned} {e : Event Token} {bytes : List UInt8} {position : UInt64}
    {copied : Bool} {set rollback : SetAnswer} {p : ℕ} (h : Matches codec y e)
    (haction : y.action = .importMapping bytes position copied set rollback)
    (hanswer : y.answer = answeredHandle p) :
    ∃ tokens, Represents codec bytes tokens ∧ e = .publish p ⟨tokens, position⟩ := by
  have hok : y.answer.status = .ok := by
    rw [hanswer]
    rfl
  unfold Matches at h
  rw [haction] at h
  rcases h with ⟨q, tokens, hhandle, hrepresents, rfl⟩ | ⟨hfailed, _⟩ | ⟨hfailed, _⟩
  · rw [hanswer] at hhandle
    cases hhandle
    exact ⟨tokens, hrepresents, rfl⟩
  · rw [hok] at hfailed
    cases hfailed
  · exact absurd hok hfailed

theorem roundTrip_of_steps {w w' v v' : World} {x y : Returned} (hw : Sound codec w)
    (hx : FreeStep w x w') (hv : Sound codec v) (hy : FreeStep v y v') : RoundTrip w x y v' := by
  intro source capacity copied copied' set rollback p hexport hok himport hanswer
  obtain ⟨e, hmatches, hstep⟩ := event_of_free hw hx
  obtain ⟨f, hmatches', hstep'⟩ := event_of_free hv hy
  obtain ⟨tokens, hrepresents, rfl⟩ := export_of_matches hmatches hexport hok
  obtain ⟨tokens', hrepresents', rfl⟩ := import_of_matches hmatches' himport hanswer
  obtain rfl := hrepresents.unique hrepresents'
  exact ⟨_, hstep.of_read, hstep'.of_publish⟩

theorem forksKept_of_run (w : World) (run : List (Returned × World)) (h : Sound codec w)
    (hrun : IsRun FreeStep w run) : w.machine.ForksKept (last w run).machine := by
  have hreaches : Reaches FreeStep w (last w run) := ⟨run, hrun, rfl⟩
  refine hreaches.relation (Sound codec) (fun v v' => v.machine.ForksKept v'.machine)
    sound_of_free (fun _ => Machine.ForksKept.refl _)
    (fun _ _ _ hab hbc => hab.trans hbc) ?_ h
  intro v x v' hv hstep
  obtain ⟨_, _, hmachine⟩ := event_of_free hv hstep
  exact hmachine.forksKept

theorem forksStart_of_run {start : World} {run : List (Returned × World)} (h : Sound codec start)
    (hrun : IsRun FreeStep start run) : ForksStart start run := by
  rintro before between after x y w' v' source copied q p rfl hfork hanswer hcommit hanswer'
  obtain ⟨hbefore, hx, hrest⟩ := (isRun_append _ _ _ _).mp hrun
  obtain ⟨hbetween, hy, _⟩ := (isRun_append _ _ _ _).mp hrest
  have hw := invariant_of_run FreeStep (Sound codec) sound_of_free start before h hbefore
  have hw' := sound_of_free _ x w' hw hx
  have hv := invariant_of_run FreeStep (Sound codec) sound_of_free w' between hw' hbetween
  obtain ⟨e, hmatches, hstep⟩ := event_of_free hw hx
  obtain ⟨f, hmatches', hstep'⟩ := event_of_free hv hy
  obtain rfl : e = .fork source q := by
    unfold Matches at hmatches
    rw [hfork] at hmatches
    rcases hmatches with ⟨q', hhandle, rfl⟩ | ⟨hfailed, _⟩
    · rw [hanswer] at hhandle
      cases hhandle
      rfl
    · rw [hanswer] at hfailed
      exact absurd rfl hfailed
  obtain rfl : f = .commit q p := by
    unfold Matches at hmatches'
    rw [hcommit] at hmatches'
    rcases hmatches' with ⟨p', hhandle, rfl⟩ | ⟨hfailed, _⟩
    · rw [hanswer'] at hhandle
      cases hhandle
      rfl
    · rw [hanswer'] at hfailed
      exact absurd rfl hfailed
  obtain ⟨hlt, c, hsource, hcopy⟩ := hstep.of_fork
  obtain ⟨c', hcopy', hpublished⟩ := hstep'.of_commit
  refine ⟨c, hsource, ?_⟩
  rcases (forksKept_of_run w' between hw' hbetween).2 q hlt with hsame | hgone
  · rw [hsame, hcopy] at hcopy'
    rw [Option.some.inj hcopy']
    exact hpublished
  · rw [hgone] at hcopy'
    cases hcopy'

/-- Every run on either backend whose numbers are free when they are drawn keeps the lists. -/
theorem lists_kept (codec : Option StateCodec) (run : List (Returned × World))
    (hrun : IsRun Step (opened codec) run) (hfree : Meets DrawsFree (opened codec) run) :
    Along Keeps (opened codec) run ∧
      Along (fun w x _ => Along (fun _ y v' => RoundTrip w x y v') (opened codec) run)
        (opened codec) run ∧
      ForksStart (opened codec) run := by
  have hfreeRun : IsRun FreeStep (opened codec) run :=
    isRun_of_meets Step DrawsFree (opened codec) run hrun hfree
  have hsound := sound_opened codec
  refine ⟨?_, ?_, forksStart_of_run hsound hfreeRun⟩
  · exact along_of_invariant FreeStep (Sound codec) Keeps
      (fun w x w' h hstep => keeps_of_step h hstep.1 hstep.2) _ run hsound hfreeRun
  · refine along_of_invariant FreeStep (Sound codec) _ ?_ _ run hsound hfreeRun
    intro w x w' hw hx
    refine ⟨sound_of_free w x w' hw hx, ?_⟩
    refine along_of_invariant FreeStep (Sound codec) _ ?_ _ run hsound hfreeRun
    intro v y v' hv hy
    exact ⟨sound_of_free v y v' hv hy, roundTrip_of_steps hw hx hv hy⟩

/-- The run of a list of calls. -/
def performed (w : World) : List Action → List (Returned × World)
  | [] => []
  | action :: rest =>
    (⟨action, (act w action).1⟩, (act w action).2) :: performed (act w action).2 rest

theorem isRun_performed (w : World) (calls : List Action) : IsRun Step w (performed w calls) := by
  induction calls generalizing w with
  | nil => trivial
  | cons action rest ih => exact ⟨rfl, ih _⟩

theorem length_bytesOf (tokens : List Token) : (bytesOf tokens).length = 4 * tokens.length := by
  induction tokens with
  | nil => rfl
  | cons token rest ih =>
    change (tokenBytes token ++ bytesOf rest).length = 4 * (rest.length + 1)
    rw [List.length_append, ih]
    change 4 + 4 * rest.length = 4 * (rest.length + 1)
    omega

/-- A sequence saved as the bytes of its tokens. -/
def tokenCodec : StateCodec where
  encode := bytesOf
  parse bytes := if bytes.length % 4 = 0 then some (tokensOf bytes) else none
  exact tokens := by
    rw [length_bytesOf, if_pos (Nat.mul_mod_right 4 _), tokensOf_bytesOf]
  nothing tokens h := by
    have hlength := length_bytesOf tokens
    rw [h, List.length_nil] at hlength
    exact List.length_eq_zero_iff.mp (by omega)

/-- A fork is committed and activated, its list exported and imported again, and the sequence
of the root mapping restored. -/
def branch : List Action :=
  [.decode [5] ⟨0, 1⟩, .prepareMappingFork 0 true, .commitMapping 1,
    .activateMapping 2 true ⟨true, []⟩ ⟨true, []⟩, .decode [6] ⟨0, 1⟩, .exportMapping 2 8 true,
    .importMapping [5, 0, 0, 0, 6, 0, 0, 0] 2 true ⟨true, []⟩ ⟨true, []⟩,
    .activateMapping 0 true ⟨true, []⟩ ⟨true, []⟩]

def branched : List (Returned × World) := performed (opened (some tokenCodec)) branch

theorem branch_kept : (last (opened (some tokenCodec)) branched).executor.sequence = [5] ∧
    Along Keeps (opened (some tokenCodec)) branched ∧
    Along (fun w x _ => Along (fun _ y v' => RoundTrip w x y v') (opened (some tokenCodec))
      branched) (opened (some tokenCodec)) branched ∧
    ForksStart (opened (some tokenCodec)) branched := by
  refine ⟨by decide, lists_kept (some tokenCodec) branched (isRun_performed _ branch) ?_⟩
  exact ⟨trivial, fun _ => rfl, trivial, trivial, trivial, trivial, rfl, trivial, trivial⟩

theorem erase_emplace {κ ν : Type} [DecidableEq κ] {key : κ} {t : Table κ ν} (value : ν)
    (hfresh : t.lookup key = none) : (emplace key value t).erase key = t := by
  have hkey : key ∉ t := AList.lookup_eq_none.mp hfresh
  have hentries : List.kerase key t.entries = t.entries :=
    List.kerase_of_notMem_keys hkey
  have hinsert : emplace key value t = t.insert key value := by
    unfold emplace
    rw [hfresh]
    rfl
  rw [hinsert]
  apply AList.ext
  have hhead : List.kerase key (t.insert key value).entries = List.kerase key t.entries :=
    List.kerase_cons_eq rfl
  exact hhead.trans hentries

/-- The executor after some forks of the root mapping that were freed. -/
def drawnUp (n : ℕ) : World :=
  { opened none with
    executor := { (opened none).executor with nextMapping := 1 + UInt32.ofNat n }
    nextHandle := 1 + n }

def forked (n : ℕ) : Returned := ⟨.prepareMappingFork 0 true, answeredHandle (1 + n)⟩

def freed (n : ℕ) : Returned := ⟨.preparedMappingFree (1 + n), answered .ok⟩

/-- The root mapping has been forked once more. -/
def forkedUp (n : ℕ) : World := (act (drawnUp n) (forked n).action).2

theorem forked_step (n : ℕ) : Step (drawnUp n) (forked n) (forkedUp n) := rfl

theorem act_freed (n : ℕ) : act (forkedUp n) (freed n).action = (answered .ok,
    { (forkedUp n).discardMapping (1 + UInt32.ofNat n) with
      prepared := (forkedUp n).prepared.erase (1 + n) }) := by
  have hprepared : (forkedUp n).prepared.lookup (1 + n) = some ⟨1 + UInt32.ofNat n, []⟩ :=
    AList.lookup_insert _
  change (forkedUp n).preparedMappingFree (1 + n) = _
  unfold preparedMappingFree
  rw [hprepared]

theorem erase_prepared (n : ℕ) : (forkedUp n).prepared.erase (1 + n) = ∅ := by
  have hemplace : (forkedUp n).prepared =
      emplace (1 + n) ⟨1 + UInt32.ofNat n, []⟩ (opened none).prepared := rfl
  rw [hemplace, erase_emplace _ rfl]
  rfl

/-- A number that is not that of the root mapping leaves nothing but the counters. -/
theorem freed_step {n : ℕ} (h : 1 + UInt32.ofNat n ≠ 0) :
    Step (forkedUp n) (freed n) (drawnUp (n + 1)) := by
  have hrow : ∀ {ν : Type} (value : ν),
      ((∅ : Table UInt32 ν).insert 0 value).lookup (1 + UInt32.ofNat n) = none := by
    intro ν value
    rw [AList.lookup_insert_ite, if_neg h]
    rfl
  have hblocks : (forkedUp n).executor.blockTable.erase (1 + UInt32.ofNat n) =
      (opened none).executor.blockTable := erase_emplace 0 (hrow 0)
  have hpositions : (forkedUp n).executor.positions.erase (1 + UInt32.ofNat n) =
      (opened none).executor.positions := erase_emplace 0 (hrow 0)
  have hmock : (forkedUp n).executor.mockMappings.erase (1 + UInt32.ofNat n) =
      (opened none).executor.mockMappings := erase_emplace [] rfl
  have hnext : (1 + UInt32.ofNat n) + 1 = 1 + UInt32.ofNat (n + 1) := by
    rw [UInt32.ofNat_add, ← UInt32.add_assoc]
    rfl
  unfold Step
  rw [act_freed, erase_prepared]
  unfold discardMapping
  rw [hblocks, hpositions, hmock]
  unfold drawnUp
  rw [← hnext]
  rfl

theorem reaches_drawnUp {n : ℕ} (h : n < 2 ^ 32) : Reaches Step (opened none) (drawnUp n) := by
  induction n with
  | zero => exact Reaches.refl Step (opened none)
  | succ n ih =>
    have hnumber : 1 + UInt32.ofNat n ≠ 0 := by
      intro hzero
      have hsame := congrArg UInt32.toNat hzero
      rw [UInt32.toNat_add, UInt32.toNat_ofNat', UInt32.toNat_one, UInt32.toNat_zero] at hsame
      omega
    exact ((ih (by omega)).step (forked_step n)).step (freed_step hnumber)

/-- The last number is that of the root mapping, which loses its position. -/
theorem position_lost : (forkedUp (2 ^ 32 - 1)).machine.published 0 = some ⟨[], 0⟩ ∧
    (act (forkedUp (2 ^ 32 - 1)) (freed (2 ^ 32 - 1)).action).2.machine.published 0 = none ∧
    (act (forkedUp (2 ^ 32 - 1)) (freed (2 ^ 32 - 1)).action).2.machine.active = 0 := by
  exact ⟨rfl, rfl, rfl⟩

/-- After 2 ^ 32 numbers a fork of the root mapping takes its list when it is freed. -/
theorem root_lost : ∃ run, IsRun Step (opened none) run ∧ ¬Along Keeps (opened none) run := by
  obtain ⟨run, hrun, hlast⟩ := (reaches_drawnUp (n := 2 ^ 32 - 1) (by decide)).step (forked_step _)
  obtain ⟨hbefore, hafter, hactive⟩ := position_lost
  refine ⟨run ++ [(freed (2 ^ 32 - 1),
    (act (forkedUp (2 ^ 32 - 1)) (freed (2 ^ 32 - 1)).action).2)],
    (isRun_append Step _ run _).mpr ⟨hrun, ?_, trivial⟩, fun h => ?_⟩
  · rw [hlast, Step, act_freed]
    rfl
  · obtain ⟨_, hkeeps, _⟩ := (along_append Keeps _ run _).mp h
    rw [hlast] at hkeeps
    exact (hkeeps.reclaimed 0 _ hbefore hafter).1 hactive.symm

end Cusco.NativeMappings
