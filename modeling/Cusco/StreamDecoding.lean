import Cusco.LossyDecoding
import Cusco.Tokenization

/-!
Streaming arbitrary bytes. As long as no stop occurs, what is emitted is the decoding of the
segments that the pushes take from what was held back. A push that takes whole characters cuts
no sequence. One that finds an invalid sequence takes everything, also an incomplete sequence at
the end, and if the bytes after it continue that sequence the deltas are not the decoding of the
bytes.
-/

namespace Cusco.StreamDecoding

open Utf8 Generation GenerationFrontier StopMatching StopDetection Tokenization

/-- What a push looks at: everything held back but what may become a stop. -/
def window (f : GenerationFrontier) (piece : List UInt8) : List UInt8 :=
  (f.pending ++ piece).take ((f.pending ++ piece).length -
    { f with pending := f.pending ++ piece }.longestPossibleStopSuffix)

/-- The window has an invalid sequence and ends in an incomplete one that what follows
continues. -/
def Severs (f : GenerationFrontier) (piece later : List UInt8) : Prop :=
  (validate (window f piece)).invalid = true ∧
    Continued (window f piece) ((f.pending ++ piece).drop (window f piece).length ++ later)

instance (f : GenerationFrontier) (piece later : List UInt8) : Decidable (Severs f piece later) :=
  inferInstanceAs (Decidable (_ ∧ _))

/-- No push severs a sequence, in the state that the pushes before it lead to. -/
def NeverSevers (ε : Type) (f : GenerationFrontier) (P : List (List UInt8)) : Prop :=
  ∀ before piece after controls deltas f', P = before ++ piece :: after →
    f.pushAll (accept (ε := ε)) (pieces before) = .ok (controls, deltas, f') →
      ¬Severs f' piece after.flatten

/-- Nothing has stopped the frontier, and it strips nothing. -/
structure Passes (stops : List (List UInt8)) (f : GenerationFrontier) : Prop where
  stops_eq : f.stops = stops
  running : f.finishReason = none
  raw : f.strippingLeadingWhitespace = false

variable {ε : Type} {stops : List (List UInt8)} {f : GenerationFrontier}

section Emission

/-- What is taken is emitted decoded. -/
theorem emitPrefix_raw (h : Passes stops f) (requested : ℕ) (finalFlush : Bool) (consumed : ℕ)
    (hconsumed : (if finalFlush then requested
      else utf8CompletePrefix (f.pending.take requested)) = consumed) :
    ∃ f' deltas, f.emitPrefix (accept (ε := ε)) requested finalFlush = (.ok (), f', deltas) ∧
      Passes stops f' ∧ f'.pending = f.pending.drop consumed ∧
      deltas.flatten = (lossy (f.pending.take consumed)).flatten := by
  unfold emitPrefix
  simp only [hconsumed]
  by_cases hzero : consumed = 0
  · rw [if_pos hzero]
    refine ⟨f, [], rfl, h, ?_, ?_⟩
    · rw [hzero, List.drop_zero]
    · rw [hzero, List.take_zero]
      rfl
  · rw [if_neg hzero]
    simp only [h.raw, Bool.false_eq_true, if_false, Bool.false_and]
    by_cases hempty : (lossy (f.pending.take consumed)).flatten.isEmpty = true
    · rw [if_pos hempty]
      exact ⟨_, [], rfl, ⟨h.stops_eq, h.running, rfl⟩, rfl,
        (List.isEmpty_iff.mp hempty).symm⟩
    · rw [if_neg hempty]
      exact ⟨_, _, rfl, ⟨h.stops_eq, h.running, rfl⟩, rfl, List.flatten_singleton⟩

theorem finish_raw (h : Passes stops f) : ∃ result deltas,
    f.finish (accept (ε := ε)) = (.ok result, deltas) ∧
      deltas.flatten = (lossy f.pending).flatten := by
  obtain ⟨f', deltas, hemit, -, -, hdeltas⟩ :=
    emitPrefix_raw (ε := ε) h f.pending.length true f.pending.length rfl
  refine ⟨f'.result .length, deltas, ?_, ?_⟩
  · unfold finish
    rw [h.running, hemit]
  · rw [hdeltas, List.take_length]

/-- The frontier with the piece sampled. -/
def sampled (f : GenerationFrontier) (piece : List UInt8) : GenerationFrontier :=
  { f with
    sampledTokens := f.sampledTokens + 1
    tokenBoundaries := f.tokenBoundaries ++
      [f.tokenBoundaries.getLast?.getD f.pendingOffset + piece.length]
    pending := f.pending ++ piece }

theorem not_contains_held (hne : ∀ stop ∈ stops, stop ≠ []) (h : Passes stops f)
    (piece later : List UInt8) (hfree : ¬Contains stops (f.pending ++ piece ++ later)) :
    (sampled f piece).stopMatch = none := by
  cases hmatch : (sampled f piece).stopMatch with
  | none => rfl
  | some found =>
    obtain ⟨order, stop, horder, hstarts, -⟩ :=
      firstStop_of_stopMatch (sampled f piece) (h.stops_eq ▸ hne) found.1 found.2 hmatch
    change f.stops[order]? = some stop at horder
    rw [h.stops_eq] at horder
    refine absurd ⟨stop, List.mem_of_getElem? horder, ?_⟩ hfree
    exact (hstarts.isInfix.trans (List.drop_suffix _ _).isInfix).trans
      (List.prefix_append _ _).isInfix

/-- A push emits the decoding of the complete prefix of its window. -/
theorem push_raw (hne : ∀ stop ∈ stops, stop ≠ []) (h : Passes stops f) (piece later : List UInt8)
    (hfree : ¬Contains stops (f.pending ++ piece ++ later)) :
    ∃ f' deltas, f.push (accept (ε := ε)) piece false = (.ok .continues, f', deltas) ∧
      Passes stops f' ∧
      f'.pending = (f.pending ++ piece).drop (utf8CompletePrefix (window f piece)) ∧
      deltas.flatten =
        (lossy ((f.pending ++ piece).take (utf8CompletePrefix (window f piece)))).flatten := by
  have hnone := not_contains_held hne h piece later hfree
  have hextended : Passes stops (sampled f piece) := ⟨h.stops_eq, h.running, h.raw⟩
  obtain ⟨f', deltas, hemit, hpasses, hpending, hdeltas⟩ :=
    emitPrefix_raw (ε := ε) hextended
      ((f.pending ++ piece).length - (sampled f piece).longestPossibleStopSuffix) false
      (utf8CompletePrefix (window f piece)) rfl
  let boundaries := f'.tokenBoundaries.filter (fun boundary => f'.pendingOffset ≤ boundary)
  refine ⟨{ f' with tokenBoundaries := boundaries }, deltas, ?_,
    ⟨hpasses.stops_eq, hpasses.running, hpasses.raw⟩, hpending, hdeltas⟩
  have hrunning : ¬f.finishReason.isSome = true := by
    rw [h.running]
    simp
  unfold push
  rw [if_neg hrunning]
  unfold sampled at hnone hemit
  simp only [Bool.false_eq_true, if_false, hnone]
  rw [hemit]

end Emission

section Cuts

theorem window_isPrefix (f : GenerationFrontier) (piece : List UInt8) :
    window f piece = (f.pending ++ piece).take (window f piece).length := by
  unfold window
  rw [List.length_take, ← List.take_eq_take_min]

/-- A push cuts a sequence exactly when it severs one. -/
theorem continued_iff (f : GenerationFrontier) (piece later : List UInt8) :
    Continued ((f.pending ++ piece).take (utf8CompletePrefix (window f piece)))
      ((f.pending ++ piece).drop (utf8CompletePrefix (window f piece)) ++ later) ↔
      Severs f piece later := by
  unfold Severs utf8CompletePrefix
  cases hvalidate : validate (window f piece) with
  | ok =>
    simp only [Validation.invalid]
    rw [← window_isPrefix]
    exact iff_of_false (not_continued_of_valid (valid_of_validate hvalidate)) (by simp)
  | error upTo errorLen =>
    cases errorLen with
    | none =>
      obtain ⟨hle, hvalid⟩ := valid_take_of_validate hvalidate
      have htake : (window f piece).take upTo = (f.pending ++ piece).take upTo := by
        rw [window_isPrefix, List.take_take, Nat.min_eq_left hle]
      simp only [Validation.invalid]
      rw [← htake]
      exact iff_of_false (not_continued_of_valid hvalid) (by simp)
    | some n =>
      simp only [Validation.invalid]
      rw [← window_isPrefix]
      exact ⟨fun h => ⟨trivial, h⟩, fun h => h.2⟩

theorem pushAll_cons_iff {f f' last : GenerationFrontier} {piece : List UInt8}
    {deltas : List (List UInt8)} {P : List (List UInt8)}
    (hpush : f.push (accept (ε := ε)) piece false = (.ok .continues, f', deltas)) :
    (∃ controls shown,
        f.pushAll (accept (ε := ε)) (pieces (piece :: P)) = .ok (controls, shown, last)) ↔
      ∃ controls shown, f'.pushAll (accept (ε := ε)) (pieces P) = .ok (controls, shown, last) := by
  change (∃ controls shown, f.pushAll _ ((piece, false) :: pieces P) = _) ↔ _
  simp only [pushAll, hpush]
  cases hrun : f'.pushAll (accept (ε := ε)) (pieces P) with
  | error e => simp
  | ok result =>
    obtain ⟨controls, shown, last'⟩ := result
    simp

theorem neverSevers_cons {f f' : GenerationFrontier} {piece : List UInt8}
    {deltas : List (List UInt8)}
    (hpush : f.push (accept (ε := ε)) piece false = (.ok .continues, f', deltas))
    (rest : List (List UInt8)) : NeverSevers ε f (piece :: rest) ↔
      ¬Severs f piece rest.flatten ∧ NeverSevers ε f' rest := by
  constructor
  · intro h
    refine ⟨h [] piece rest [] [] f rfl rfl, ?_⟩
    intro before next after controls shown last hrest hrun
    obtain ⟨controls', shown', hrun'⟩ := (pushAll_cons_iff hpush).mpr ⟨controls, shown, hrun⟩
    exact h (piece :: before) next after controls' shown' last
      (by rw [hrest, List.cons_append]) hrun'
  · intro ⟨hhere, hlater⟩ before next after controls shown last hrest hrun
    cases before with
    | nil =>
      cases hrun
      obtain ⟨rfl, rfl⟩ := List.cons.inj hrest
      exact hhere
    | cons head before =>
      obtain ⟨rfl, rfl⟩ := List.cons.inj hrest
      obtain ⟨controls', shown', hrun'⟩ := (pushAll_cons_iff hpush).mp ⟨controls, shown, hrun⟩
      exact hlater before next after controls' shown' last rfl hrun'

end Cuts

section Runs

/-- The characters emitted and held back are at least those of the text, and are these exactly
when no push severs a sequence. -/
structure Decodes (ε : Type) (f : GenerationFrontier) (P : List (List UInt8))
    (shown : List Encoded) :
    Prop where
  chars : ∀ c ∈ shown, IsChar c
  least : (lossy (f.pending ++ P.flatten)).length ≤ shown.length
  exact : shown = lossy (f.pending ++ P.flatten) ↔ NeverSevers ε f P

theorem pushAll_decodes (hne : ∀ stop ∈ stops, stop ≠ []) (P : List (List UInt8))
    (f : GenerationFrontier) (h : Passes stops f)
    (hfree : ¬Contains stops (f.pending ++ P.flatten)) : ∃ controls deltas last cs,
      f.pushAll (accept (ε := ε)) (pieces P) = .ok (controls, deltas, last) ∧
      Passes stops last ∧ deltas.flatten = cs.flatten ∧
      Decodes ε f P (cs ++ lossy last.pending) := by
  induction P generalizing f with
  | nil =>
    refine ⟨[], [], f, [], rfl, h, rfl, ?_⟩
    rw [List.nil_append]
    refine ⟨lossy_isChar _, ?_, ?_⟩
    · rw [List.flatten_nil, List.append_nil]
    · rw [List.flatten_nil, List.append_nil]
      refine iff_of_true rfl ?_
      intro before piece after _ _ _ hsplit
      cases before <;> cases hsplit
  | cons piece rest ih =>
    rw [List.flatten_cons, ← List.append_assoc] at hfree
    obtain ⟨f', deltas, hpush, hpasses, hpending, hdeltas⟩ :=
      push_raw (ε := ε) hne h piece rest.flatten hfree
    have hcut := continued_iff f piece rest.flatten
    have hsplit := List.take_append_drop (utf8CompletePrefix (window f piece)) (f.pending ++ piece)
    rw [← hpending] at hcut hsplit
    generalize (f.pending ++ piece).take (utf8CompletePrefix (window f piece)) = taken
      at hcut hsplit hdeltas
    have hwhole : f.pending ++ (piece :: rest).flatten = taken ++ (f'.pending ++ rest.flatten) := by
      rw [List.flatten_cons, ← List.append_assoc, ← hsplit, List.append_assoc]
    rw [← hsplit, List.append_assoc] at hfree
    have hrestfree : ¬Contains stops (f'.pending ++ rest.flatten) := by
      intro hcontains
      obtain ⟨stop, hstop, hinfix⟩ := hcontains
      exact hfree ⟨stop, hstop, hinfix.trans (List.suffix_append _ _).isInfix⟩
    obtain ⟨controls, more, last, cs, hrun, hlast, hmore, hdecodes⟩ := ih f' hpasses hrestfree
    refine ⟨.continues :: controls, deltas ++ more, last, lossy taken ++ cs, ?_, hlast, ?_, ?_⟩
    · change f.pushAll _ ((piece, false) :: pieces rest) = _
      simp only [pushAll, hpush, hrun]
    · rw [List.flatten_append, List.flatten_append, hdeltas, hmore]
    · rw [List.append_assoc]
      refine ⟨?_, ?_, ?_⟩
      · intro c hc
        exact (List.mem_append.mp hc).elim (lossy_isChar taken c) (hdecodes.chars c)
      · have hleast := hdecodes.least
        rw [hwhole, List.length_append]
        by_cases hcontinued : Continued taken (f'.pending ++ rest.flatten)
        · have hless := length_lossy_append_lt _ _ hcontinued
          omega
        · rw [lossy_append _ _ hcontinued, List.length_append]
          omega
      · rw [neverSevers_cons hpush, ← hcut, hwhole]
        by_cases hcontinued : Continued taken (f'.pending ++ rest.flatten)
        · refine iff_of_false ?_ (fun hnever => hnever.1 hcontinued)
          intro heq
          have hlength := congrArg List.length heq
          have hless := length_lossy_append_lt _ _ hcontinued
          have hleast := hdecodes.least
          rw [List.length_append] at hlength
          omega
        · rw [lossy_append _ _ hcontinued, List.append_cancel_left_eq, hdecodes.exact]
          exact ⟨fun hnever => ⟨hcontinued, hnever⟩, fun hnever => hnever.2⟩

theorem passes_new {admitted : List Text} {limit : ℕ}
    (hnew : withLimit admitted true limit = .ok f) :
    Passes (admitted.map Text.bytes) f ∧ f.pending = [] := by
  unfold withLimit at hnew
  split at hnew
  · cases hnew
  · split at hnew
    · cases hnew
    · cases hnew
      exact ⟨⟨rfl, rfl, rfl⟩, rfl⟩

/-- As long as no stop occurs, the deltas are the decoding of all bytes exactly when no push
severs a sequence. -/
theorem streamed_text (admitted : List Text) (limit : ℕ) (f : GenerationFrontier)
    (hnew : withLimit admitted true limit = .ok f) (P : List (List UInt8))
    (hfree : ¬Contains (admitted.map Text.bytes) P.flatten) :
    ∃ g, generate (accept (ε := ε)) f (pieces P) = .ok g ∧
      (g.deltas.flatten = (lossy P.flatten).flatten ↔ NeverSevers ε f P) := by
  obtain ⟨hpasses, hempty⟩ := passes_new hnew
  have hne : ∀ stop ∈ admitted.map Text.bytes, stop ≠ [] := by
    intro stop hstop
    exact ((ExactGeneration.tracks_new admitted true limit f hnew _
      (ExactGeneration.mem_boundariesFrom 0 [])).2 stop hstop).1
  have hwhole : f.pending ++ P.flatten = P.flatten := by rw [hempty, List.nil_append]
  obtain ⟨controls, deltas, last, cs, hrun, hlast, hdeltas, hdecodes⟩ :=
    pushAll_decodes (ε := ε) hne P f hpasses (hwhole.symm ▸ hfree)
  obtain ⟨result, more, hfinish, hmore⟩ := finish_raw (ε := ε) hlast
  refine ⟨⟨controls, deltas ++ more, result⟩, ?_, ?_⟩
  · simp only [generate, hrun, hfinish]
  · rw [List.flatten_append, hdeltas, hmore, ← List.flatten_append, ← hdecodes.exact, hwhole]
    constructor
    · exact eq_of_flatten_eq hdecodes.chars (lossy_isChar _)
    · intro heq
      rw [heq]

/-- A byte that starts nothing, and a character in two pieces. -/
def splitEuro : List (List UInt8) := [[0xFF], [0xE2, 0x82], [0xAC]]

theorem splitEuro_streamed : ∃ f g, withLimit [] true maxStopSequences = .ok f ∧
    generate (accept (ε := String)) f (pieces splitEuro) = .ok g ∧
    g.deltas.flatten = (lossy splitEuro.flatten).flatten := by
  obtain ⟨g, hg, hexact⟩ := streamed_text (ε := String) [] maxStopSequences _ rfl splitEuro
    (by decide)
  refine ⟨_, g, rfl, hg, hexact.mpr ?_⟩
  intro before piece after controls deltas f' hsplit hrun
  rcases before with _ | ⟨a, _ | ⟨b, _ | ⟨c, _ | ⟨d, before⟩⟩⟩⟩ <;> cases hsplit <;> cases hrun <;>
    decide

/-- The invalid byte and the first byte of the character in one piece: the byte is shown
before the bytes that complete it arrive. -/
theorem severed_euro : ∃ f g, withLimit [] true maxStopSequences = .ok f ∧
    generate (accept (ε := String)) f (pieces [[0xFF, 0xE2], [0x82, 0xAC]]) = .ok g ∧
    lossy [0xFF, 0xE2, 0x82, 0xAC] = [replacement, [0xE2, 0x82, 0xAC]] ∧
    g.deltas.flatten ≠ (lossy [0xFF, 0xE2, 0x82, 0xAC]).flatten := by
  refine ⟨_, ⟨[.continues, .continues], [replacement ++ replacement, replacement ++ replacement],
    ⟨replacement ++ replacement ++ replacement ++ replacement, 2, .length, none⟩⟩, rfl, ?_, ?_, ?_⟩
  · decide
  · decide
  · decide

end Runs

end Cusco.StreamDecoding
