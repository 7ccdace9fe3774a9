import Cusco.StopDetection

/-!
A generation from its first push to its result. The pushes answer `Stop` from the
first one on that ends the text; the deltas make up the result, which is the text
before the first stop; and the alignment of the stop is its classification against
the boundaries of all pieces.
-/

namespace Cusco.ExactGeneration

open Utf8 Generation GenerationFrontier StopMatching StopDetection

variable {ε : Type} {stops : List (List UInt8)} {raw : Bool} {boundaries : List ℕ}

theorem spoken_cons (piece : List UInt8) (rest : List (List UInt8 × Bool)) :
    spoken ((piece, false) :: rest) = piece ++ spoken rest := by
  rfl

theorem spoken_control (piece : List UInt8) (rest : List (List UInt8 × Bool)) :
    spoken ((piece, true) :: rest) = [] := by
  rfl

theorem endsFrom_control (text piece : List UInt8) (rest : List (List UInt8 × Bool)) :
    EndsFrom stops text ((piece, true) :: rest) 0 :=
  ⟨piece, true, rfl, Or.inl rfl⟩

theorem endsFrom_zero (text piece : List UInt8) (rest : List (List UInt8 × Bool)) :
    EndsFrom stops text ((piece, false) :: rest) 0 ↔ Contains stops (text ++ piece) := by
  have hspoken : spoken (((piece, false) :: rest).take (0 + 1)) = piece := by
    rw [List.take_succ_cons, List.take_zero, spoken_cons]
    exact List.append_nil piece
  unfold EndsFrom
  rw [hspoken]
  constructor
  · intro h
    obtain ⟨_, _, hpush, hends⟩ := h
    cases hpush
    exact hends.resolve_left (by simp)
  · exact fun h => ⟨piece, false, rfl, Or.inr h⟩

theorem endsFrom_succ (text piece : List UInt8) (rest : List (List UInt8 × Bool)) (i : ℕ) :
    EndsFrom stops text ((piece, false) :: rest) (i + 1) ↔
      EndsFrom stops (text ++ piece) rest i := by
  unfold EndsFrom
  rw [List.take_succ_cons, spoken_cons, List.append_assoc]
  simp only [List.getElem?_cons_succ]

theorem le_of_mem_boundariesFrom (n : ℕ) (pushes : List (List UInt8 × Bool)) (b : ℕ)
    (h : b ∈ boundariesFrom n pushes) : n ≤ b := by
  induction pushes generalizing n with
  | nil => exact Nat.le_of_eq (List.mem_singleton.mp h).symm
  | cons push rest ih =>
    rcases List.mem_cons.mp h with rfl | h
    · exact le_rfl
    · exact Nat.le_of_add_right_le (ih _ h)

theorem mem_boundariesFrom (n : ℕ) (pushes : List (List UInt8 × Bool)) :
    n ∈ boundariesFrom n pushes := by
  cases pushes with
  | nil => exact List.mem_singleton.mpr rfl
  | cons push rest => exact List.mem_cons_self ..

/-- The boundaries from the end of the text on are those of the pieces still to come. -/
def Agrees (boundaries : List ℕ) (text : List UInt8) (pushes : List (List UInt8 × Bool)) : Prop :=
  ∀ b, text.length ≤ b → (b ∈ boundaries ↔ b ∈ boundariesFrom text.length pushes)

theorem bounds_of_agrees (text piece : List UInt8) (control : Bool)
    (rest : List (List UInt8 × Bool)) (h : Agrees boundaries text ((piece, control) :: rest)) :
    Bounds boundaries text piece := by
  constructor
  · rw [h _ (Nat.le_add_right _ _)]
    exact List.mem_cons_of_mem _ (mem_boundariesFrom _ rest)
  · intro b hb hinside
    rcases List.mem_cons.mp ((h b (Nat.le_of_lt hinside.1)).mp hb) with heq | hlater
    · omega
    · have hle := le_of_mem_boundariesFrom _ rest b hlater
      omega

theorem agrees_next (text piece : List UInt8) (control : Bool) (rest : List (List UInt8 × Bool))
    (h : Agrees boundaries text ((piece, control) :: rest)) :
    Agrees boundaries (text ++ piece) rest := by
  intro b hb
  rw [List.length_append] at hb ⊢
  rw [h b (by omega), boundariesFrom, List.mem_cons]
  constructor
  · intro hmem
    rcases hmem with heq | hmem
    · have hsame : b = text.length + piece.length := by omega
      rw [hsame]
      exact mem_boundariesFrom _ rest
    · exact hmem
  · exact Or.inr

/-- Once the frontier is finished, pushes change nothing. -/
theorem pushAll_finished (f : GenerationFrontier) (reason : FinishReason)
    (hf : f.finishReason = some reason) (pushes : List (List UInt8 × Bool)) :
    f.pushAll (accept (ε := ε)) pushes = .ok (List.replicate pushes.length .stop, [], f) := by
  induction pushes with
  | nil => rfl
  | cons push rest ih =>
    have hpush : f.push (accept (ε := ε)) push.1 push.2 = (.ok .stop, f, []) := by
      unfold GenerationFrontier.push
      rw [if_pos]
      rw [hf]
      rfl
    simp only [pushAll, hpush, ih]
    rfl

/-- Where the frontier stands after pushes that started from a text. -/
def Stands (stops : List (List UInt8)) (raw : Bool) (boundaries : List ℕ) (heard : List UInt8)
    (f : GenerationFrontier) : Prop :=
  (Valid heard ∧ ∃ cs, Tracks stops raw boundaries f heard cs) ∨
    f.finishReason = some .stop ∧ Shows stops raw boundaries heard f.visible f.stopAlignment

/-- The pushes answered `Stop` from the first one that ends the text. -/
structure Answers (stops : List (List UInt8)) (text : List UInt8)
    (pushes : List (List UInt8 × Bool)) (controls : List FrontierControl) : Prop where
  length : controls.length = pushes.length
  stops_at : ∀ (i : ℕ) (c : FrontierControl), controls[i]? = some c →
    (c = .stop ↔ ∃ j ≤ i, EndsFrom stops text pushes j)

/-- A push that ends the text is answered `Stop`, and so is every later one. -/
theorem answers_ended (text : List UInt8) (pushes : List (List UInt8 × Bool))
    (h : EndsFrom stops text pushes 0) :
    Answers stops text pushes (List.replicate pushes.length .stop) where
  length := List.length_replicate
  stops_at := by
    intro i c hc
    have hstop := List.eq_of_mem_replicate (List.mem_of_getElem? hc)
    exact iff_of_true hstop ⟨0, Nat.zero_le i, h⟩

theorem answers_next (text piece : List UInt8) (rest : List (List UInt8 × Bool))
    (controls : List FrontierControl) (hfree : ¬ Contains stops (text ++ piece))
    (h : Answers stops (text ++ piece) rest controls) :
    Answers stops text ((piece, false) :: rest) (.continues :: controls) where
  length := by rw [List.length_cons, List.length_cons, h.length]
  stops_at := by
    intro i c hc
    have hzero : ¬ EndsFrom stops text ((piece, false) :: rest) 0 := by
      rw [endsFrom_zero]
      exact hfree
    cases i with
    | zero =>
      cases hc
      refine iff_of_false (by simp) ?_
      intro hends
      obtain ⟨j, hj, hends⟩ := hends
      rw [Nat.le_zero.mp hj] at hends
      exact hzero hends
    | succ i =>
      rw [h.stops_at i c hc]
      constructor
      · intro hends
        obtain ⟨j, hj, hends⟩ := hends
        exact ⟨j + 1, by omega, (endsFrom_succ text piece rest j).mpr hends⟩
      · intro hends
        obtain ⟨j, hj, hends⟩ := hends
        cases j with
        | zero => exact absurd hends hzero
        | succ j => exact ⟨j, by omega, (endsFrom_succ text piece rest j).mp hends⟩

theorem pushAll_tracks (hne : ∀ stop ∈ stops, stop ≠ []) (hstops : ∀ stop ∈ stops, Valid stop)
    (pushes : List (List UInt8 × Bool)) (f : GenerationFrontier) (text : List UInt8)
    (cs : List Encoded) (h : Tracks stops raw boundaries f text cs)
    (hagrees : Agrees boundaries text pushes) (hvalid : Valid (text ++ spoken pushes)) :
    ∃ controls deltas last, f.pushAll (accept (ε := ε)) pushes = .ok (controls, deltas, last) ∧
      last.visible = f.visible ++ deltas.flatten ∧ Answers stops text pushes controls ∧
      Stands stops raw boundaries (heardFrom stops text pushes) last := by
  induction pushes generalizing f text cs with
  | nil =>
    have htext : Valid text := by simpa [spoken] using hvalid
    refine ⟨[], [], f, rfl, (List.append_nil _).symm, ⟨rfl, ?_⟩, Or.inl ⟨htext, cs, h⟩⟩
    intro i c hc
    cases hc
  | cons push rest ih =>
    obtain ⟨piece, control⟩ := push
    cases control with
    | true =>
      rw [spoken_control, List.append_nil] at hvalid
      obtain ⟨last, deltas, hpush, hvisible, hreason, hshows⟩ :=
        push_control (ε := ε) h hvalid piece
      refine ⟨_, deltas ++ [], last, ?_, by rw [List.append_nil]; exact hvisible,
        answers_ended text _ (endsFrom_control text piece rest), Or.inr ⟨hreason, hshows⟩⟩
      simp only [pushAll, hpush, pushAll_finished last .stop hreason]
      rfl
    | false =>
      rw [spoken_cons, ← List.append_assoc] at hvalid
      have hbounds := bounds_of_agrees text piece false rest hagrees
      by_cases hcontains : Contains stops (text ++ piece)
      · obtain ⟨last, deltas, hpush, hvisible, hreason, hshows⟩ :=
          push_stop (ε := ε) hne hstops h piece (spoken rest) hbounds hvalid hcontains
        refine ⟨_, deltas ++ [], last, ?_, by rw [List.append_nil]; exact hvisible,
          answers_ended text _ ((endsFrom_zero text piece rest).mpr hcontains),
            Or.inr ⟨hreason, ?_⟩⟩
        · simp only [pushAll, hpush, pushAll_finished last .stop hreason]
          rfl
        · simp only [heardFrom, Bool.false_eq_true, if_false, if_pos hcontains]
          exact hshows
      · obtain ⟨next, deltas, cs', hpush, hvisible, hnext⟩ :=
          push_continues (ε := ε) hne h piece (spoken rest) hbounds hvalid hcontains
        obtain ⟨controls, more, last, hrest, hlast, hanswers, hstands⟩ :=
          ih next (text ++ piece) cs' hnext (agrees_next text piece false rest hagrees) hvalid
        refine ⟨.continues :: controls, deltas ++ more, last, ?_, ?_,
          answers_next text piece rest controls hcontains hanswers, ?_⟩
        · simp only [pushAll, hpush, hrest]
        · rw [hlast, hvisible, List.flatten_append, List.append_assoc]
        · simp only [heardFrom, Bool.false_eq_true, if_false, if_neg hcontains]
          exact hstands

/-- What a generation shows, told from the text heard up to its end. -/
structure Exact (stops : List (List UInt8)) (raw : Bool) (pushes : List (List UInt8 × Bool))
    (heard : List UInt8) (g : Generated) : Prop where
  answers : Answers stops [] pushes g.controls
  deltas : g.deltas.flatten = g.result.text
  unstopped : ¬ Contains stops heard →
    g.result.text = trimmed raw heard ∧ g.result.stopAlignment = none
  found : Contains stops heard → ∃ start finish, FirstStop stops heard start finish
  stopped : ∀ start finish, FirstStop stops heard start finish →
    g.result.text = trimmed raw (heard.take start) ∧
      g.result.stopAlignment = some (classify (boundariesFrom 0 pushes) start finish)
  withheld : ∀ start finish, FirstStop stops heard start finish →
    g.deltas.flatten <:+ heard.take start

theorem trimmed_suffix (raw : Bool) (text : List UInt8) (h : Valid text) :
    trimmed raw text <:+ text := by
  obtain ⟨cs, hcs, rfl⟩ := h
  unfold trimmed
  split
  · exact List.suffix_refl _
  · rw [lossy_flatten cs hcs]
    exact (List.dropWhile_suffix _).flatten

theorem contains_of_firstStop (text : List UInt8) (start finish : ℕ)
    (h : FirstStop stops text start finish) : Contains stops text := by
  obtain ⟨order, stop, horder, hstarts, -⟩ := h
  exact (StopMatching.contains_iff stops text).mpr
    ⟨stop, List.mem_of_getElem? horder, start, hstarts⟩

theorem exact_of_shows (pushes : List (List UInt8 × Bool)) (heard : List UInt8) (g : Generated)
    (hanswers : Answers stops [] pushes g.controls) (hdeltas : g.deltas.flatten = g.result.text)
    (hshows : Shows stops raw (boundariesFrom 0 pushes) heard g.result.text
      g.result.stopAlignment) : Exact stops raw pushes heard g := by
  rcases hshows with ⟨hfree, htext, halignment⟩ | ⟨start, finish, hfirst, hvalid, htext, halignment⟩
  · have hnone : ∀ start finish, ¬ FirstStop stops heard start finish :=
      fun start finish hfirst => hfree (contains_of_firstStop heard start finish hfirst)
    exact ⟨hanswers, hdeltas, fun _ => ⟨htext, halignment⟩, fun hcontains => absurd hcontains hfree,
      fun start finish hfirst => absurd hfirst (hnone start finish),
      fun start finish hfirst => absurd hfirst (hnone start finish)⟩
  · have hcontains := contains_of_firstStop heard start finish hfirst
    refine ⟨hanswers, hdeltas, fun hfree => absurd hcontains hfree,
      fun _ => ⟨start, finish, hfirst⟩, ?_, ?_⟩
    · intro start' finish' hfirst'
      obtain ⟨rfl, rfl⟩ := firstStop_unique stops heard _ _ _ _ hfirst hfirst'
      exact ⟨htext, halignment⟩
    · intro start' finish' hfirst'
      obtain ⟨rfl, rfl⟩ := firstStop_unique stops heard _ _ _ _ hfirst hfirst'
      rw [hdeltas, htext]
      exact trimmed_suffix raw _ hvalid

/-- A new frontier tracks the empty text. -/
theorem tracks_new (admitted : List Text) (raw : Bool) (limit : ℕ) (f : GenerationFrontier)
    (hnew : withLimit admitted raw limit = .ok f) (boundaries : List ℕ) (hzero : 0 ∈ boundaries) :
    Tracks (admitted.map Text.bytes) raw boundaries f [] [] ∧
      ∀ stop ∈ admitted.map Text.bytes, stop ≠ [] ∧ Valid stop := by
  unfold withLimit at hnew
  split at hnew
  · cases hnew
  · split at hnew
    · cases hnew
    · rename_i hlengths
      cases hnew
      have hstops : ∀ stop ∈ admitted.map Text.bytes, stop ≠ [] ∧ Valid stop := by
        intro stop hstop
        obtain ⟨text, htext, rfl⟩ := List.mem_map.mp hstop
        refine ⟨?_, text.valid⟩
        intro hempty
        apply hlengths
        rw [List.any_eq_true]
        exact ⟨text, htext, by simp [hempty]⟩
      refine ⟨?_, hstops⟩
      constructor
      · rfl
      · rfl
      · rfl
      · exact fun c hc => nomatch hc
      · rfl
      · rfl
      · cases raw <;> rfl
      · cases raw <;> rfl
      · intro hcontains
        obtain ⟨stop, hstop, hinfix⟩ := hcontains
        exact (hstops stop hstop).1 (List.infix_nil.mp hinfix)
      · intro stop hstop k hk hsuffix
        have hlength := hsuffix.length_le
        rw [List.length_take] at hlength
        simp only [List.length_nil] at hlength ⊢
        omega
      · intro b _ hb
        have hb0 : b = 0 := Nat.le_zero.mp hb
        subst hb0
        exact iff_of_true (List.mem_singleton.mpr rfl) hzero
      · intro b hb
        exact Nat.le_of_eq (List.mem_singleton.mp hb)
      · rfl

/-- A generation of valid text is exact: its answers, its deltas, its result and its
alignment are those of the whole text. -/
theorem generate_exact (admitted : List Text) (raw : Bool) (limit : ℕ) (f : GenerationFrontier)
    (hnew : withLimit admitted raw limit = .ok f) (pushes : List (List UInt8 × Bool))
    (hvalid : Valid (spoken pushes)) :
    ∃ g, generate (accept (ε := ε)) f pushes = .ok g ∧
      Exact (admitted.map Text.bytes) raw pushes
        (heardFrom (admitted.map Text.bytes) [] pushes) g := by
  obtain ⟨htracks, hstops⟩ := tracks_new admitted raw limit f hnew (boundariesFrom 0 pushes)
    (mem_boundariesFrom 0 pushes)
  obtain ⟨controls, deltas, last, hpushes, hvisible, hanswers, hstands⟩ :=
    pushAll_tracks (ε := ε) (fun stop h => (hstops stop h).1) (fun stop h => (hstops stop h).2)
      pushes f [] [] htracks (fun _ _ => Iff.rfl) hvalid
  have hempty : f.visible = [] := by
    rw [htracks.visible]
    cases raw <;> rfl
  rw [hempty, List.nil_append] at hvisible
  rcases hstands with ⟨hheard, cs, hlast⟩ | ⟨hreason, hshows⟩
  · obtain ⟨result, more, hfinish, htext, hshows⟩ := finish_running (ε := ε) hlast hheard
    refine ⟨⟨controls, deltas ++ more, result⟩, ?_, exact_of_shows pushes _ _ hanswers ?_ hshows⟩
    · simp only [generate, hpushes, hfinish]
    · rw [List.flatten_append, ← hvisible, htext]
  · refine ⟨⟨controls, deltas ++ [], last.result .stop⟩, ?_,
      exact_of_shows pushes _ _ hanswers ?_ hshows⟩
    · simp only [generate, hpushes, GenerationFrontier.finish, hreason]
    · rw [List.append_nil, ← hvisible]
      rfl

/-- The stop string `END`. -/
def endStop : Text := ⟨[0x45, 0x4E, 0x44], [[0x45], [0x4E], [0x44]], by decide, rfl⟩

/-- ` E`, then `ND`, then a piece that is never looked at. -/
def splitStop : List (List UInt8 × Bool) :=
  [([0x61, 0x20, 0x45], false), ([0x4E, 0x44], false), ([0x62], false)]

theorem splitStop_exact :
    ∃ f g, withLimit [endStop] false maxStopSequences = .ok f ∧
      generate (accept (ε := String)) f splitStop = .ok g ∧
      Exact [endStop.bytes] false splitStop [0x61, 0x20, 0x45, 0x4E, 0x44] g := by
  have hvalid : Valid (spoken splitStop) :=
    ⟨[[0x61], [0x20], [0x45], [0x4E], [0x44], [0x62]], by decide, rfl⟩
  obtain ⟨g, hgenerate, hexact⟩ :=
    generate_exact (ε := String) [endStop] false maxStopSequences _ rfl splitStop hvalid
  have hheard : heardFrom ([endStop].map Text.bytes) [] splitStop =
      [0x61, 0x20, 0x45, 0x4E, 0x44] := by
    decide
  rw [hheard] at hexact
  exact ⟨_, g, rfl, hgenerate, hexact⟩

/-- Half a character, then its other half in a control push. -/
def splitByControl : List (List UInt8 × Bool) := [([0xF0, 0x9F], false), ([0x98, 0x80], true)]

/-- The bytes of a control push are never text: the pieces together are valid and contain
no stop, but the deltas are not their bytes. -/
theorem control_piece_is_lost :
    ∃ f g, withLimit [] true maxStopSequences = .ok f ∧
      generate (accept (ε := String)) f splitByControl = .ok g ∧
      Valid (splitByControl.map Prod.fst).flatten ∧
      ¬ Contains [] (splitByControl.map Prod.fst).flatten ∧
      g.deltas.flatten = replacement ∧
      g.deltas.flatten ≠ (splitByControl.map Prod.fst).flatten := by
  refine ⟨_, ⟨[.continues, .stop], [replacement], ⟨replacement, 2, .stop, none⟩⟩, rfl, ?_, ?_, ?_,
    rfl, ?_⟩
  · decide
  · exact ⟨[[0xF0, 0x9F, 0x98, 0x80]], by decide, rfl⟩
  · decide
  · decide

end Cusco.ExactGeneration
