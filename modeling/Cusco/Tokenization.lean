import Cusco.ExactGeneration

/-!
Two tokenizations of one text. Both runs end for the same reason, since a stop occurs in the
text however it is cut. Both show the text before the earliest stop of what was heard, and
what was heard goes up to the piece that completes the first stop: if no stop lies strictly
inside another the two runs show the same text, and in general they do exactly when both cut
it in the same place.
-/

namespace Cusco.Tokenization

open Utf8 Generation GenerationFrontier StopMatching StopDetection ExactGeneration

/-- The pushes of pieces that are not control tokens. -/
def pieces (P : List (List UInt8)) : List (List UInt8 × Bool) := P.map (fun piece => (piece, false))

/-- The text up to and including the piece that completes the first stop. -/
def heard (stops : List (List UInt8)) (P : List (List UInt8)) : List UInt8 :=
  heardFrom stops [] (pieces P)

/-- The earliest stops heard in both tokenizations leave the same text before them. -/
def SameCut (stops : List (List UInt8)) (raw : Bool) (P Q : List (List UInt8)) : Prop :=
  ∀ start finish start' finish', FirstStop stops (heard stops P) start finish →
    FirstStop stops (heard stops Q) start' finish' →
      trimmed raw (P.flatten.take start) = trimmed raw (Q.flatten.take start')

/-- No stop starts after and ends before another one that it occurs in. -/
def Separate (stops : List (List UInt8)) : Prop :=
  ∀ outer ∈ stops, ∀ inner ∈ stops, ∀ front back, outer = front ++ inner ++ back →
    front = [] ∨ back = []

variable {stops : List (List UInt8)} {raw : Bool}

section Heard

theorem spoken_pieces (P : List (List UInt8)) : spoken (pieces P) = P.flatten := by
  induction P with
  | nil => rfl
  | cons piece rest ih =>
    change spoken ((piece, false) :: pieces rest) = _
    rw [spoken_cons, ih, List.flatten_cons]

theorem heardFrom_isPrefix (text : List UInt8) (P : List (List UInt8)) :
    heardFrom stops text (pieces P) <+: text ++ P.flatten := by
  induction P generalizing text with
  | nil => simp [pieces, heardFrom]
  | cons piece rest ih =>
    change (if Contains stops (text ++ piece) then text ++ piece
      else heardFrom stops (text ++ piece) (pieces rest)) <+: _
    rw [List.flatten_cons, ← List.append_assoc]
    split
    · exact List.prefix_append _ _
    · exact ih (text ++ piece)

/-- A stop is heard if one occurs, and otherwise everything is heard. -/
theorem heardFrom_cases (text : List UInt8) (P : List (List UInt8)) :
    (Contains stops (text ++ P.flatten) → Contains stops (heardFrom stops text (pieces P))) ∧
      (¬Contains stops (text ++ P.flatten) →
        heardFrom stops text (pieces P) = text ++ P.flatten) := by
  induction P generalizing text with
  | nil => simp [pieces, heardFrom]
  | cons piece rest ih =>
    change (_ → Contains stops (if Contains stops (text ++ piece) then text ++ piece
      else heardFrom stops (text ++ piece) (pieces rest))) ∧
      (_ → (if Contains stops (text ++ piece) then text ++ piece
        else heardFrom stops (text ++ piece) (pieces rest)) = _)
    rw [List.flatten_cons, ← List.append_assoc]
    by_cases hhere : Contains stops (text ++ piece)
    · rw [if_pos hhere]
      refine ⟨fun _ => hhere, fun hfree => absurd ?_ hfree⟩
      obtain ⟨stop, hstop, hinfix⟩ := hhere
      exact ⟨stop, hstop, hinfix.trans (List.prefix_append _ _).isInfix⟩
    · rw [if_neg hhere]
      exact ih (text ++ piece)

theorem heard_isPrefix (P : List (List UInt8)) : heard stops P <+: P.flatten :=
  heardFrom_isPrefix [] P

theorem contains_heard (P : List (List UInt8)) :
    Contains stops (heard stops P) ↔ Contains stops P.flatten := by
  constructor
  · intro ⟨stop, hstop, hinfix⟩
    exact ⟨stop, hstop, hinfix.trans (heard_isPrefix P).isInfix⟩
  · exact (heardFrom_cases [] P).1

theorem heard_of_free (P : List (List UInt8)) (hfree : ¬Contains stops P.flatten) :
    heard stops P = P.flatten :=
  (heardFrom_cases [] P).2 hfree

end Heard

section Starts

variable {u v : List UInt8} {start finish start' finish' : ℕ}

theorem firstStop_le (hu : FirstStop stops u start finish) (hv : FirstStop stops v start' finish')
    (hinitial : u <+: v) : start' ≤ start := by
  obtain ⟨order, stop, horder, hstop, _, _⟩ := hu
  obtain ⟨_, _, _, _, _, hfirst⟩ := hv
  rcases hfirst order stop start horder (hstop.trans (hinitial.drop start)) with hlt | ⟨heq, _⟩
  · exact hlt.le
  · exact heq.le

/-- In a longer text the earliest stop starts earlier only if it contains the other. -/
theorem firstStop_eq (hseparate : Separate stops) (hne : ∀ stop ∈ stops, stop ≠ [])
    (hu : FirstStop stops u start finish) (hv : FirstStop stops v start' finish')
    (hinitial : u <+: v) : start' = start := by
  have hle := firstStop_le hu hv hinitial
  by_contra hstart
  obtain ⟨_, inner, hinner, hinneru, _, hfirst⟩ := hu
  obtain ⟨order, outer, houter, houterv, _, _⟩ := hv
  have hmem := List.mem_of_getElem? hinner
  obtain ⟨rest, hrest⟩ := houterv
  have hafter : outer.drop (start - start') ++ rest.drop (start - start' - outer.length) =
      v.drop start := by
    rw [← List.drop_append, hrest, List.drop_drop]
    congr 1
    omega
  have hlength := hinneru.length_le
  have hpos := List.length_pos_iff.mpr (hne inner hmem)
  rw [List.length_drop] at hlength
  -- the outer stop ends after the shorter text, or it would be the earliest there
  have hends : u.length < start' + outer.length := by
    by_contra hshort
    have houteru : outer <+: u.drop start' := by
      apply List.prefix_of_prefix_length_le ⟨rest, hrest⟩ (hinitial.drop start')
      rw [List.length_drop]
      omega
    rcases hfirst order outer start' houter houteru with hlt | ⟨heq, _⟩ <;> omega
  have hinside : inner <+: outer.drop (start - start') := by
    apply List.prefix_of_prefix_length_le (hinneru.trans (hinitial.drop start)) ⟨_, hafter⟩
    rw [List.length_drop]
    omega
  obtain ⟨back, hback⟩ := hinside
  have hwhole : outer = outer.take (start - start') ++ inner ++ back := by
    rw [List.append_assoc, hback, List.take_append_drop]
  have htotal := congrArg List.length hback
  rw [List.length_append, List.length_drop] at htotal
  rcases hseparate outer (List.mem_of_getElem? houter) inner hmem _ _ hwhole with hnil | hnil
  · have htake := congrArg List.length hnil
    rw [List.length_take, List.length_nil] at htake
    omega
  · rw [hnil, List.length_nil] at htotal
    omega

end Starts

section Reasons

variable {ε : Type} {boundaries : List ℕ}

/-- Pieces stop the frontier exactly when a stop occurs in the text. -/
theorem pushAll_reason (hne : ∀ stop ∈ stops, stop ≠ []) (hstops : ∀ stop ∈ stops, Valid stop)
    (P : List (List UInt8)) (f : GenerationFrontier) (text : List UInt8) (cs : List Encoded)
    (h : Tracks stops raw boundaries f text cs) (hagrees : Agrees boundaries text (pieces P))
    (hvalid : Valid (text ++ P.flatten)) : ∃ controls deltas last,
      f.pushAll (accept (ε := ε)) (pieces P) = .ok (controls, deltas, last) ∧
      (last.finishReason = some .stop ∧ Contains stops (text ++ P.flatten) ∨
        last.finishReason = none ∧ ¬Contains stops (text ++ P.flatten)) := by
  induction P generalizing f text cs with
  | nil =>
    refine ⟨[], [], f, rfl, Or.inr ⟨h.running, ?_⟩⟩
    rw [List.flatten_nil, List.append_nil]
    exact h.free
  | cons piece rest ih =>
    change Agrees boundaries text ((piece, false) :: pieces rest) at hagrees
    have hpushes : pieces (piece :: rest) = (piece, false) :: pieces rest := rfl
    have hbounds := bounds_of_agrees text piece false (pieces rest) hagrees
    rw [List.flatten_cons, ← List.append_assoc] at hvalid ⊢
    by_cases hcontains : Contains stops (text ++ piece)
    · obtain ⟨last, deltas, hpush, _, hreason, _⟩ :=
        push_stop (ε := ε) hne hstops h piece rest.flatten hbounds hvalid hcontains
      obtain ⟨stop, hstop, hinfix⟩ := hcontains
      refine ⟨.stop :: List.replicate (pieces rest).length .stop, deltas ++ [], last, ?_,
        Or.inl ⟨hreason, stop, hstop, hinfix.trans (List.prefix_append _ _).isInfix⟩⟩
      rw [hpushes]
      simp only [pushAll, hpush, pushAll_finished last .stop hreason]
    · obtain ⟨next, deltas, cs', hpush, _, hnext⟩ :=
        push_continues (ε := ε) hne h piece rest.flatten hbounds hvalid hcontains
      obtain ⟨controls, more, last, hrest, hlast⟩ := ih next (text ++ piece) cs' hnext
        (agrees_next text piece false (pieces rest) hagrees) hvalid
      refine ⟨.continues :: controls, deltas ++ more, last, ?_, hlast⟩
      rw [hpushes]
      simp only [pushAll, hpush, hrest]

theorem finish_reason (f : GenerationFrontier) (result : FrontierResult)
    (deltas : List (List UInt8)) (h : f.finish (accept (ε := ε)) = (.ok result, deltas)) :
    result.finishReason = f.finishReason.getD .length := by
  unfold finish at h
  split at h
  · rename_i hreason
    cases h
    rw [hreason]
    rfl
  · rename_i hreason
    rw [hreason]
    split at h
    · cases h
    · cases h
      rfl

theorem generate_reason (admitted : List Text) (limit : ℕ) (f : GenerationFrontier)
    (hnew : withLimit admitted raw limit = .ok f) (P : List (List UInt8))
    (hvalid : Valid P.flatten) (g : Generated)
    (hg : generate (accept (ε := ε)) f (pieces P) = .ok g) :
    (g.result.finishReason = .stop ↔ Contains (admitted.map Text.bytes) P.flatten) := by
  obtain ⟨htracks, hstops⟩ := tracks_new admitted raw limit f hnew (boundariesFrom 0 (pieces P))
    (mem_boundariesFrom 0 (pieces P))
  obtain ⟨controls, deltas, last, hpushes, hlast⟩ :=
    pushAll_reason (ε := ε) (fun stop h => (hstops stop h).1) (fun stop h => (hstops stop h).2) P f
      [] [] htracks (fun _ _ => Iff.rfl) hvalid
  unfold generate at hg
  rw [hpushes] at hg
  simp only at hg
  split at hg
  · cases hg
  · rename_i result more hfinish
    cases hg
    rw [finish_reason last result more hfinish]
    rcases hlast with ⟨hreason, hcontains⟩ | ⟨hreason, hfree⟩
    · rw [hreason]
      exact iff_of_true rfl hcontains
    · rw [hreason]
      exact iff_of_false (by simp) hfree

end Reasons

section Claim

variable {ε : Type}

theorem start_lt (hne : ∀ stop ∈ stops, stop ≠ []) {u : List UInt8} {start finish : ℕ}
    (h : FirstStop stops u start finish) : start < u.length := by
  obtain ⟨order, stop, horder, hstop, _⟩ := h
  have hlength := hstop.length_le
  have hpos := List.length_pos_iff.mpr (hne stop (List.mem_of_getElem? horder))
  rw [List.length_drop] at hlength
  omega

/-- The text shown is the one before the earliest stop heard. -/
theorem text_of_stop {P : List (List UInt8)} {g : Generated} {start finish : ℕ}
    (hne : ∀ stop ∈ stops, stop ≠ []) (hexact : Exact stops raw (pieces P) (heard stops P) g)
    (hfirst : FirstStop stops (heard stops P) start finish) :
    g.result.text = trimmed raw (P.flatten.take start) := by
  rw [(hexact.stopped start finish hfirst).1]
  congr 1
  obtain ⟨rest, (hrest : heard stops P ++ rest = P.flatten)⟩ := heard_isPrefix P
  rw [← hrest, List.take_append_of_le_length (start_lt hne hfirst).le]

/-- Two exact runs of one text, when a stop occurs in it. -/
theorem text_eq_iff {P Q : List (List UInt8)} {g g' : Generated} (hne : ∀ stop ∈ stops, stop ≠ [])
    (hexact : Exact stops raw (pieces P) (heard stops P) g)
    (hexact' : Exact stops raw (pieces Q) (heard stops Q) g') (hsame : P.flatten = Q.flatten) :
    g.result.text = g'.result.text ↔ SameCut stops raw P Q := by
  by_cases hcontains : Contains stops P.flatten
  · obtain ⟨start, finish, hfirst⟩ := hexact.found ((contains_heard P).mpr hcontains)
    obtain ⟨start', finish', hfirst'⟩ :=
      hexact'.found ((contains_heard Q).mpr (hsame ▸ hcontains))
    rw [text_of_stop hne hexact hfirst, text_of_stop hne hexact' hfirst']
    constructor
    · intro heq a b a' b' ha ha'
      obtain ⟨rfl, _⟩ := firstStop_unique _ _ _ _ _ _ hfirst ha
      obtain ⟨rfl, _⟩ := firstStop_unique _ _ _ _ _ _ hfirst' ha'
      exact heq
    · intro hcut
      exact hcut start finish start' finish' hfirst hfirst'
  · have hfree := mt (contains_heard P).mp hcontains
    have hfree' := mt (contains_heard Q).mp (hsame ▸ hcontains)
    refine iff_of_true ?_ ?_
    · rw [(hexact.unstopped hfree).1, (hexact'.unstopped hfree').1, heard_of_free P hcontains,
        heard_of_free Q (hsame ▸ hcontains), hsame]
    · intro start finish _ _ hfirst
      exact absurd (contains_of_firstStop _ start finish hfirst) hfree

theorem sameCut_of_separate (hseparate : Separate stops) (hne : ∀ stop ∈ stops, stop ≠ [])
    (P Q : List (List UInt8)) (hsame : P.flatten = Q.flatten) : SameCut stops raw P Q := by
  intro start finish start' finish' hfirst hfirst'
  have hstart : start = start' := by
    rcases List.prefix_or_prefix_of_prefix (heard_isPrefix P)
      (hsame ▸ heard_isPrefix Q) with hshort | hlong
    · exact (firstStop_eq hseparate hne hfirst hfirst' hshort).symm
    · exact firstStop_eq hseparate hne hfirst' hfirst hlong
  rw [hstart, hsame]

/-- The two runs end for the same reason. They show the same text exactly when both cut it in
the same place, which they do if no admitted stop lies strictly inside another. -/
theorem tokenizations_agree (admitted : List Text) (limit : ℕ) (f : GenerationFrontier)
    (hnew : withLimit admitted raw limit = .ok f) (P Q : List (List UInt8))
    (hsame : P.flatten = Q.flatten) (hvalid : Valid P.flatten) :
    ∃ g g', generate (accept (ε := ε)) f (pieces P) = .ok g ∧
      generate (accept (ε := ε)) f (pieces Q) = .ok g' ∧
      g.result.finishReason = g'.result.finishReason ∧
      (g.result.text = g'.result.text ↔ SameCut (admitted.map Text.bytes) raw P Q) ∧
      (Separate (admitted.map Text.bytes) → g.result.text = g'.result.text) := by
  have hne : ∀ stop ∈ admitted.map Text.bytes, stop ≠ [] := by
    intro stop hstop
    exact ((tracks_new admitted raw limit f hnew _ (mem_boundariesFrom 0 [])).2 stop hstop).1
  obtain ⟨g, hg, hexact⟩ := generate_exact (ε := ε) admitted raw limit f hnew (pieces P)
    ((spoken_pieces P).symm ▸ hvalid)
  obtain ⟨g', hg', hexact'⟩ := generate_exact (ε := ε) admitted raw limit f hnew (pieces Q)
    ((spoken_pieces Q).symm ▸ hsame ▸ hvalid)
  have hreason := generate_reason admitted limit f hnew P hvalid g hg
  have hreason' := generate_reason admitted limit f hnew Q (hsame ▸ hvalid) g' hg'
  have htext := text_eq_iff hne hexact hexact' hsame
  refine ⟨g, g', hg, hg', ?_, htext, fun hseparate =>
    htext.mpr (sameCut_of_separate hseparate hne P Q hsame)⟩
  rw [← hsame, ← hreason] at hreason'
  cases hfirst : g.result.finishReason <;> cases hsecond : g'.result.finishReason <;>
    simp [hfirst, hsecond] at hreason' ⊢

/-- `a END` cut inside the stop, and in one piece. -/
def cutInside : List (List UInt8) := [[0x61, 0x20, 0x45], [0x4E, 0x44]]
def onePiece : List (List UInt8) := [[0x61, 0x20, 0x45, 0x4E, 0x44]]

theorem cutInside_agrees :
    ∃ f g g', withLimit [endStop] false maxStopSequences = .ok f ∧
      generate (accept (ε := String)) f (pieces cutInside) = .ok g ∧
      generate (accept (ε := String)) f (pieces onePiece) = .ok g' ∧
      g.result.finishReason = g'.result.finishReason ∧ g.result.text = g'.result.text := by
  have hvalid : Valid cutInside.flatten :=
    ⟨[[0x61], [0x20], [0x45], [0x4E], [0x44]], by decide, rfl⟩
  obtain ⟨g, g', hg, hg', hreason, _, hagree⟩ := tokenizations_agree (ε := String) [endStop]
    maxStopSequences _ rfl cutInside onePiece rfl hvalid
  refine ⟨_, g, g', rfl, hg, hg', hreason, hagree ?_⟩
  intro outer houter inner hinner front back hwhole
  rw [List.map_singleton, List.mem_singleton] at houter hinner
  have hlength := congrArg List.length hwhole
  rw [houter, hinner, List.length_append, List.length_append] at hlength
  left
  apply List.eq_nil_of_length_eq_zero
  omega

/-- The stops `abcd` and `bc`. -/
def outerStop : Text := ⟨[0x61, 0x62, 0x63, 0x64], [[0x61], [0x62], [0x63], [0x64]], by decide, rfl⟩
def innerStop : Text := ⟨[0x62, 0x63], [[0x62], [0x63]], by decide, rfl⟩

/-- In one piece the outer stop is found. When the piece ends before it does, the inner stop
is found and `a` is shown. -/
theorem nested_stops_differ :
    ∃ f g g', withLimit [outerStop, innerStop] true maxStopSequences = .ok f ∧
      generate (accept (ε := String)) f (pieces [[0x61, 0x62, 0x63, 0x64]]) = .ok g ∧
      generate (accept (ε := String)) f (pieces [[0x61, 0x62, 0x63], [0x64]]) = .ok g' ∧
      Valid [0x61, 0x62, 0x63, 0x64] ∧ g.result.text = [] ∧ g'.result.text = [0x61] ∧
      g.result.text ≠ g'.result.text := by
  refine ⟨_, ⟨[.stop], [], ⟨[], 1, .stop, some .tokenAligned⟩⟩,
    ⟨[.stop, .stop], [[0x61]], ⟨[0x61], 1, .stop, some .intraToken⟩⟩, rfl, ?_, ?_, ?_, rfl, rfl, ?_⟩
  · decide
  · decide
  · exact outerStop.valid
  · decide

end Claim

end Cusco.Tokenization
