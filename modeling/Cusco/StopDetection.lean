import Cusco.StopMatching

/-!
Whole generations. While no stop has occurred, the frontier has consumed whole
characters and still holds every byte a stop may start in, so that its match in
what it holds is the first stop of the whole text. From this, a generation of valid
text shows exactly the text before the first stop, answers `Stop` from that push
on, and classifies the stop against the boundaries of all tokens.
-/

namespace Cusco.StopDetection

open Utf8 Generation GenerationFrontier StopMatching

/-- The pieces before the first control push. -/
def spoken (pushes : List (List UInt8 × Bool)) : List UInt8 :=
  ((pushes.takeWhile (fun p => !p.2)).map Prod.fst).flatten

/-- A push that ends the generation of a text: a control push, or one after which the
text spoken so far contains a stop. -/
def EndsFrom (stops : List (List UInt8)) (text : List UInt8) (pushes : List (List UInt8 × Bool))
    (i : ℕ) : Prop :=
  ∃ piece control, pushes[i]? = some (piece, control) ∧
    (control = true ∨ Contains stops (text ++ spoken (pushes.take (i + 1))))

instance (stops : List (List UInt8)) (text : List UInt8) : Decidable (Contains stops text) :=
  inferInstanceAs (Decidable (∃ stop ∈ stops, stop <:+: text))

/-- The text up to and including the push that ends it. -/
def heardFrom (stops : List (List UInt8)) (text : List UInt8) :
    List (List UInt8 × Bool) → List UInt8
  | [] => text
  | (piece, control) :: rest =>
    if control then text
    else if Contains stops (text ++ piece) then text ++ piece
    else heardFrom stops (text ++ piece) rest

/-- The token boundaries of the pieces, from the first one on. -/
def boundariesFrom (n : ℕ) : List (List UInt8 × Bool) → List ℕ
  | [] => [n]
  | (piece, _) :: rest => n :: boundariesFrom (n + piece.length) rest

/-- The characters shown of those consumed. -/
def shown (raw : Bool) (cs : List Encoded) : List Encoded :=
  if raw then cs else cs.dropWhile isWhitespace

/-- The text with leading whitespace removed unless it is a raw continuation. -/
def trimmed (raw : Bool) (text : List UInt8) : List UInt8 :=
  if raw then text else ((lossy text).dropWhile isWhitespace).flatten

theorem trimmed_flatten (raw : Bool) (cs : List Encoded) (h : ∀ c ∈ cs, IsChar c) :
    trimmed raw cs.flatten = (shown raw cs).flatten := by
  unfold trimmed shown
  rw [lossy_flatten cs h]
  split <;> rfl

/-- The closure that takes every delta. -/
def accept {ε : Type} (_ : List UInt8) : Except ε Unit := .ok ()

theorem flatten_isEmpty_iff (cs : List Encoded) (h : ∀ c ∈ cs, IsChar c) :
    cs.flatten.isEmpty = cs.isEmpty := by
  cases cs with
  | nil => rfl
  | cons c cs =>
    obtain ⟨lead, rest, rfl, _⟩ := following_head c (h c (List.mem_cons_self ..))
    rfl

/-- The flag for leading whitespace after some characters. -/
def stripping (raw : Bool) (cs : List Encoded) : Bool :=
  !raw && (cs.dropWhile isWhitespace).isEmpty

/-- What is shown of further characters. -/
def shownNext (raw : Bool) (cs ds : List Encoded) : List Encoded :=
  if stripping raw cs then ds.dropWhile isWhitespace else ds

theorem shown_append (raw : Bool) (cs ds : List Encoded) :
    shown raw (cs ++ ds) = shown raw cs ++ shownNext raw cs ds := by
  unfold shown shownNext stripping
  cases raw with
  | true => rfl
  | false =>
    simp only [Bool.not_false, Bool.true_and, Bool.false_eq_true, if_false]
    rw [List.dropWhile_append]
    split
    · rename_i hempty
      rw [List.isEmpty_iff.mp hempty, List.nil_append]
    · rfl

theorem stripping_append (raw : Bool) (cs ds : List Encoded) :
    stripping raw (cs ++ ds) = (stripping raw cs && (shownNext raw cs ds).isEmpty) := by
  unfold shownNext stripping
  cases raw with
  | true => rfl
  | false =>
    simp only [Bool.not_false, Bool.true_and]
    rw [List.dropWhile_append]
    split
    · rename_i hempty
      rw [hempty, Bool.true_and]
    · rename_i hempty
      rw [Bool.not_eq_true] at hempty
      cases hkept : cs.dropWhile isWhitespace with
      | nil =>
        rw [hkept] at hempty
        cases hempty
      | cons c kept => rfl

/-- The frontier after the characters `ds` were taken from what it held back. -/
def takeChars (f : GenerationFrontier) (raw : Bool) (cs ds : List Encoded) (rest : List UInt8) :
    GenerationFrontier :=
  { f with
    pending := rest
    pendingOffset := f.pendingOffset + ds.flatten.length
    visible := (shown raw (cs ++ ds)).flatten
    strippingLeadingWhitespace := stripping raw (cs ++ ds) }

section Emission

variable {ε : Type} (f : GenerationFrontier) (raw : Bool) (cs ds : List Encoded)
  (rest : List UInt8) (hds : ∀ c ∈ ds, IsChar c) (hpending : f.pending = ds.flatten ++ rest)
  (hvisible : f.visible = (shown raw cs).flatten)
  (hstripping : f.strippingLeadingWhitespace = stripping raw cs)

include hds hpending hvisible hstripping in
/-- Taking whole characters emits what is shown of them. -/
theorem emitPrefix_chars (requested : ℕ) (finalFlush : Bool)
    (hconsumed : (if finalFlush then requested
      else utf8CompletePrefix (f.pending.take requested)) = ds.flatten.length) :
    ∃ deltas, f.emitPrefix (accept (ε := ε)) requested finalFlush =
      (.ok (), takeChars f raw cs ds rest, deltas) ∧
      (takeChars f raw cs ds rest).visible = f.visible ++ deltas.flatten := by
  unfold emitPrefix
  simp only [hconsumed]
  by_cases hnone : ds.flatten.length = 0
  · have hnil : ds = [] := by
      have hempty := flatten_isEmpty_iff ds hds
      rw [List.length_eq_zero_iff.mp hnone] at hempty
      exact List.isEmpty_iff.mp hempty.symm
    subst hnil
    refine ⟨[], ?_, ?_⟩
    · rw [if_pos hnone]
      unfold takeChars
      rw [List.append_nil, ← hvisible, ← hstripping]
      simp only [List.flatten_nil, List.nil_append] at hpending
      rw [← hpending]
      rfl
    · unfold takeChars
      simp [hvisible]
  · have hrendered : lossy (f.pending.take ds.flatten.length) = ds := by
      rw [hpending, List.take_left, lossy_flatten ds hds]
    have hdrop : f.pending.drop ds.flatten.length = rest := by
      rw [hpending, List.drop_left]
    have hdelta : (if f.strippingLeadingWhitespace = true then ds.dropWhile isWhitespace else ds) =
        shownNext raw cs ds := by
      unfold shownNext
      rw [hstripping]
    have hchars : ∀ c ∈ shownNext raw cs ds, IsChar c := by
      intro c hc
      unfold shownNext at hc
      split at hc
      · exact hds c ((List.dropWhile_suffix _).mem hc)
      · exact hds c hc
    have hflag : (f.strippingLeadingWhitespace && (shownNext raw cs ds).flatten.isEmpty) =
        stripping raw (cs ++ ds) := by
      rw [flatten_isEmpty_iff _ hchars, hstripping, stripping_append]
    rw [if_neg hnone]
    simp only [hrendered, hdelta, hflag]
    by_cases hshown : (shownNext raw cs ds).flatten.isEmpty = true
    · rw [if_pos hshown]
      have hsame : (shown raw (cs ++ ds)).flatten = f.visible := by
        rw [shown_append, List.flatten_append, List.isEmpty_iff.mp hshown, List.append_nil,
          hvisible]
      refine ⟨[], ?_, ?_⟩
      · unfold takeChars drain
        rw [hsame, hdrop]
      · show (shown raw (cs ++ ds)).flatten = _
        rw [hsame, List.flatten_nil, List.append_nil]
    · rw [if_neg hshown]
      have hgrown : (shown raw (cs ++ ds)).flatten =
          f.visible ++ (shownNext raw cs ds).flatten := by
        rw [shown_append, List.flatten_append, hvisible]
      refine ⟨[(shownNext raw cs ds).flatten], ?_, ?_⟩
      · unfold takeChars drain accept
        rw [hgrown]
        dsimp only
        rw [hdrop]
      · show (shown raw (cs ++ ds)).flatten = _
        rw [hgrown, List.flatten_singleton]

end Emission

/-- The frontier has seen `text`, consumed the characters `cs` of it, and holds the rest. -/
structure Tracks (stops : List (List UInt8)) (raw : Bool) (boundaries : List ℕ)
    (f : GenerationFrontier) (text : List UInt8) (cs : List Encoded) : Prop where
  stops_eq : f.stops = stops
  running : f.finishReason = none
  unaligned : f.stopAlignment = none
  chars : ∀ c ∈ cs, IsChar c
  split : text = cs.flatten ++ f.pending
  offset : f.pendingOffset = cs.flatten.length
  visible : f.visible = (shown raw cs).flatten
  stripping : f.strippingLeadingWhitespace = stripping raw cs
  free : ¬ Contains stops text
  covers : Covers stops text f.pending.length
  boundary : ∀ b, f.pendingOffset ≤ b → b ≤ text.length → (b ∈ f.tokenBoundaries ↔ b ∈ boundaries)
  bounded : ∀ b ∈ f.tokenBoundaries, b ≤ text.length
  last : f.tokenBoundaries.getLast? = some text.length

/-- What a generation shows of a text, and how it classifies its stop. -/
def Shows (stops : List (List UInt8)) (raw : Bool) (boundaries : List ℕ) (text : List UInt8)
    (visible : List UInt8) (alignment : Option StopAlignment) : Prop :=
  (¬ Contains stops text ∧ visible = trimmed raw text ∧ alignment = none) ∨
    ∃ start finish, FirstStop stops text start finish ∧ Valid (text.take start) ∧
      visible = trimmed raw (text.take start) ∧
      alignment = some (classify boundaries start finish)

theorem classify_congr (b b' : List ℕ) (start finish : ℕ)
    (h : ∀ n, start ≤ n → n ≤ finish → (n ∈ b ↔ n ∈ b')) (hle : start ≤ finish) :
    classify b start finish = classify b' start finish := by
  have hcontains : ∀ n, start ≤ n → n ≤ finish → b.contains n = b'.contains n := by
    intro n hstart hfinish
    rw [Bool.eq_iff_iff, List.contains_iff_mem, List.contains_iff_mem]
    exact h n hstart hfinish
  have hany : b.any (fun n => start < n && n < finish) =
      b'.any (fun n => start < n && n < finish) := by
    rw [Bool.eq_iff_iff, List.any_eq_true, List.any_eq_true]
    constructor
    · intro hb
      obtain ⟨n, hn, hin⟩ := hb
      simp only [Bool.and_eq_true, decide_eq_true_eq] at hin
      exact ⟨n, (h n (by omega) (by omega)).mp hn, by simpa using hin⟩
    · intro hb
      obtain ⟨n, hn, hin⟩ := hb
      simp only [Bool.and_eq_true, decide_eq_true_eq] at hin
      exact ⟨n, (h n (by omega) (by omega)).mpr hn, by simpa using hin⟩
  unfold classify
  rw [hcontains start le_rfl hle, hcontains finish hle le_rfl, hany]

section Push

variable {ε : Type} {stops : List (List UInt8)} {raw : Bool} {boundaries : List ℕ}
  {f : GenerationFrontier} {text : List UInt8} {cs : List Encoded}

/-- The frontier with a sampled piece and its boundary. -/
def sampledWith (f : GenerationFrontier) (text piece : List UInt8) : GenerationFrontier :=
  { f with
    sampledTokens := f.sampledTokens + 1
    tokenBoundaries := f.tokenBoundaries ++ [text.length + piece.length]
    pending := f.pending ++ piece }

/-- A boundary at the end of the piece and none inside it. -/
def Bounds (boundaries : List ℕ) (text piece : List UInt8) : Prop :=
  text.length + piece.length ∈ boundaries ∧
    ∀ b ∈ boundaries, ¬ (text.length < b ∧ b < text.length + piece.length)

theorem Tracks.boundary_sampled (h : Tracks stops raw boundaries f text cs) (piece : List UInt8)
    (hbounds : Bounds boundaries text piece) (b : ℕ) (hlow : f.pendingOffset ≤ b)
    (hhigh : b ≤ (text ++ piece).length) :
    b ∈ (sampledWith f text piece).tokenBoundaries ↔ b ∈ boundaries := by
  rw [List.length_append] at hhigh
  unfold sampledWith
  rw [List.mem_append, List.mem_singleton]
  by_cases hb : b ≤ text.length
  · rw [h.boundary b hlow hb]
    constructor
    · intro hmem
      rcases hmem with hmem | rfl
      · exact hmem
      · exact hbounds.1
    · exact Or.inl
  · constructor
    · intro hmem
      rcases hmem with hmem | rfl
      · exact absurd (h.bounded b hmem) hb
      · exact hbounds.1
    · intro hmem
      right
      have hnot := hbounds.2 b hmem
      omega

/-- Every occurrence in the longer text starts in what the frontier holds. -/
theorem Tracks.start_pending (h : Tracks stops raw boundaries f text cs) (piece : List UInt8)
    (stop : List UInt8) (hstop : stop ∈ stops) (start : ℕ)
    (hstarts : stop <+: (cs.flatten ++ (f.pending ++ piece)).drop start) :
    cs.flatten.length ≤ start := by
  rw [← List.append_assoc, ← h.split] at hstarts
  have hstart := start_of_appended stops text piece f.pending.length h.free h.covers stop hstop
    start hstarts
  have hlength := congrArg List.length h.split
  rw [List.length_append] at hlength
  omega

theorem Tracks.contains_iff (h : Tracks stops raw boundaries f text cs) (piece : List UInt8) :
    Contains stops (text ++ piece) ↔ Contains stops (f.pending ++ piece) := by
  rw [h.split, List.append_assoc]
  constructor
  · intro hcontains
    obtain ⟨stop, hstop, start, hstarts⟩ := (StopMatching.contains_iff _ _).mp hcontains
    obtain ⟨k, rfl⟩ := Nat.exists_eq_add_of_le (h.start_pending piece stop hstop start hstarts)
    exact (StopMatching.contains_iff _ _).mpr
      ⟨stop, hstop, k, (prefix_drop_iff _ _ stop k).mp hstarts⟩
  · intro hcontains
    obtain ⟨stop, hstop, hinfix⟩ := hcontains
    exact ⟨stop, hstop, hinfix.trans (List.suffix_append _ _).isInfix⟩

theorem push_running (h : Tracks stops raw boundaries f text cs) (piece : List UInt8)
    (emit : List UInt8 → Except ε Unit) : f.push emit piece false =
      match (sampledWith f text piece).stopMatch with
      | some (start, finish) =>
        match (sampledWith f text piece).emitPrefix emit start true with
        | (.error e, failed, deltas) => (.error e, failed, deltas)
        | (.ok (), flushed, deltas) =>
          (.ok .stop, { flushed with
            stopAlignment := some (flushed.classifyStop (f.pendingOffset + start)
              (f.pendingOffset + finish))
            pending := []
            pendingOffset := f.pendingOffset + finish
            finishReason := some .stop }, deltas)
      | none =>
        match (sampledWith f text piece).emitPrefix emit ((f.pending ++ piece).length -
            (sampledWith f text piece).longestPossibleStopSuffix) false with
        | (.error e, failed, deltas) => (.error e, failed, deltas)
        | (.ok (), shown, deltas) =>
          (.ok .continues, { shown with
            tokenBoundaries := shown.tokenBoundaries.filter
              (fun boundary => shown.pendingOffset ≤ boundary) }, deltas) := by
  have hrunning : ¬ f.finishReason.isSome = true := by
    rw [h.running]
    simp
  unfold push
  rw [if_neg hrunning, h.last]
  rfl

/-- A push after which the text contains a stop. -/
theorem push_stop (hne : ∀ stop ∈ stops, stop ≠ []) (hstops : ∀ stop ∈ stops, Valid stop)
    (h : Tracks stops raw boundaries f text cs) (piece future : List UInt8)
    (hbounds : Bounds boundaries text piece) (hvalid : Valid (text ++ piece ++ future))
    (hcontains : Contains stops (text ++ piece)) :
    ∃ last deltas, f.push (accept (ε := ε)) piece false = (.ok .stop, last, deltas) ∧
      last.visible = f.visible ++ deltas.flatten ∧ last.finishReason = some .stop ∧
      Shows stops raw boundaries (text ++ piece) last.visible last.stopAlignment := by
  have hsampled : (sampledWith f text piece).stops = stops := h.stops_eq
  cases hmatch : (sampledWith f text piece).stopMatch with
  | none =>
    have hnot := not_contains_of_stopMatch _ (by rw [hsampled]; exact hne) hmatch
    rw [hsampled] at hnot
    exact absurd ((h.contains_iff piece).mp hcontains) hnot
  | some range =>
    obtain ⟨start, finish⟩ := range
    have hfirst : FirstStop stops (f.pending ++ piece) start finish :=
      hsampled ▸ firstStop_of_stopMatch _ (by rw [hsampled]; exact hne) start finish hmatch
    have hshift := firstStop_shift stops cs.flatten (f.pending ++ piece) start finish
      (fun stop hstop start => h.start_pending piece stop hstop start) hfirst
    rw [← List.append_assoc, ← h.split] at hshift
    -- the bytes before the stop are whole characters
    obtain ⟨order, stop, horder, ⟨after, hafter⟩, hfinish, -⟩ := hfirst
    have hmem := List.mem_of_getElem? horder
    have hpending : f.pending ++ piece = (f.pending ++ piece).take start ++ stop ++ after := by
      rw [List.append_assoc, hafter, List.take_append_drop]
    have hbefore : Valid ((f.pending ++ piece).take start) := by
      apply valid_of_append cs.flatten _ (valid_flatten cs h.chars)
      apply valid_before _ stop (after ++ future) (hne stop hmem) (hstops stop hmem)
      rw [h.split] at hvalid
      have hwhole : cs.flatten ++ (f.pending ++ piece).take start ++ stop ++ (after ++ future) =
          cs.flatten ++ f.pending ++ piece ++ future := by
        conv_rhs => rw [List.append_assoc cs.flatten, hpending]
        simp only [List.append_assoc]
      rwa [hwhole]
    obtain ⟨ds, hds, hflatten⟩ := hbefore
    have hlength : start ≤ (f.pending ++ piece).length := by
      have hpos := List.length_pos_iff.mpr (hne stop hmem)
      have hle := congrArg List.length hafter
      rw [List.length_append, List.length_drop] at hle
      omega
    have hstart : ds.flatten.length = start := by
      rw [hflatten, List.length_take, Nat.min_eq_left hlength]
    obtain ⟨deltas, hemit, hvisible⟩ := emitPrefix_chars (ε := ε) (sampledWith f text piece) raw cs
      ds (stop ++ after) hds (by rw [hflatten, ← List.append_assoc]; exact hpending) h.visible
      h.stripping start true hstart.symm
    rw [push_running h piece, hmatch]
    simp only [hemit]
    have hchars : ∀ c ∈ cs ++ ds, IsChar c :=
      fun c hc => (List.mem_append.mp hc).elim (h.chars c) (hds c)
    have htake : (text ++ piece).take (cs.flatten.length + start) = (cs ++ ds).flatten := by
      rw [h.split, List.append_assoc, List.take_append, List.take_of_length_le (by omega),
        Nat.add_sub_cancel_left, ← hflatten, List.flatten_append]
    refine ⟨_, deltas, rfl, hvisible, rfl, Or.inr ⟨_, _, hshift, ?_, ?_, ?_⟩⟩
    · rw [htake]
      exact valid_flatten _ hchars
    · rw [htake, trimmed_flatten raw _ hchars]
      rfl
    · show some (classify _ _ _) = _
      rw [h.offset]
      congr 1
      apply classify_congr
      · intro n hlow hhigh
        apply h.boundary_sampled piece hbounds n (by rw [h.offset]; omega)
        have htotal := congrArg List.length hpending
        have hsplit := congrArg List.length h.split
        simp only [List.length_append, List.length_take] at htotal hsplit hlength ⊢
        omega
      · omega

/-- The whole characters of some bytes, by validation. -/
theorem completePrefix_of_valid (bytes more : List UInt8) (h : Valid (bytes ++ more)) :
    ∃ (ds : List Encoded) (q : List UInt8), (∀ c ∈ ds, IsChar c) ∧ bytes = ds.flatten ++ q ∧
      utf8CompletePrefix bytes = ds.flatten.length := by
  obtain ⟨ds, q, hds, rfl, hq⟩ := valid_prefix bytes more h
  refine ⟨ds, q, hds, rfl, ?_⟩
  unfold utf8CompletePrefix
  rw [validate_flatten ds q hds hq]
  by_cases hnil : q = []
  · rw [if_pos hnil, hnil, List.append_nil]
  · rw [if_neg hnil]

/-- A push after which the text contains no stop. -/
theorem push_continues (hne : ∀ stop ∈ stops, stop ≠ [])
    (h : Tracks stops raw boundaries f text cs) (piece future : List UInt8)
    (hbounds : Bounds boundaries text piece) (hvalid : Valid (text ++ piece ++ future))
    (hfree : ¬ Contains stops (text ++ piece)) :
    ∃ next deltas cs', f.push (accept (ε := ε)) piece false = (.ok .continues, next, deltas) ∧
      next.visible = f.visible ++ deltas.flatten ∧
      Tracks stops raw boundaries next (text ++ piece) cs' := by
  have hsampled : (sampledWith f text piece).stops = stops := h.stops_eq
  have hmatch : (sampledWith f text piece).stopMatch = none := by
    cases hmatch : (sampledWith f text piece).stopMatch with
    | none => rfl
    | some range =>
      have hfirst : FirstStop stops (f.pending ++ piece) range.1 range.2 :=
        hsampled ▸ firstStop_of_stopMatch _ (by rw [hsampled]; exact hne) range.1 range.2 hmatch
      obtain ⟨order, stop, horder, hstarts, -⟩ := hfirst
      have hcontains : Contains stops (f.pending ++ piece) :=
        (StopMatching.contains_iff _ _).mpr
          ⟨stop, List.mem_of_getElem? horder, range.1, hstarts⟩
      exact absurd ((h.contains_iff piece).mpr hcontains) hfree
  have hheld : text ++ piece = cs.flatten ++ (f.pending ++ piece) := by
    rw [h.split, List.append_assoc]
  have hlength := congrArg List.length hheld
  have hwhole : Valid ((f.pending ++ piece) ++ future) := by
    apply valid_of_append cs.flatten _ (valid_flatten cs h.chars)
    rwa [← List.append_assoc, ← hheld]
  generalize hretained : (sampledWith f text piece).longestPossibleStopSuffix = retained
  obtain ⟨ds, q, hds, hsafe, hcomplete⟩ := completePrefix_of_valid
    ((f.pending ++ piece).take ((f.pending ++ piece).length - retained))
    ((f.pending ++ piece).drop ((f.pending ++ piece).length - retained) ++ future)
    (by rwa [← List.append_assoc, List.take_append_drop])
  have hpending : f.pending ++ piece = ds.flatten ++
      (q ++ (f.pending ++ piece).drop ((f.pending ++ piece).length - retained)) := by
    rw [← List.append_assoc, ← hsafe, List.take_append_drop]
  generalize hrest : q ++ (f.pending ++ piece).drop ((f.pending ++ piece).length - retained) = rest
    at hpending
  obtain ⟨deltas, hemit, hvisible⟩ := emitPrefix_chars (ε := ε) (sampledWith f text piece) raw cs
    ds rest hds hpending h.visible h.stripping ((f.pending ++ piece).length - retained) false
    hcomplete
  refine ⟨{ takeChars (sampledWith f text piece) raw cs ds rest with
    tokenBoundaries := (sampledWith f text piece).tokenBoundaries.filter
      (fun boundary => f.pendingOffset + ds.flatten.length ≤ boundary) }, deltas, cs ++ ds, ?_,
    hvisible, ?_⟩
  · rw [push_running h piece, hmatch]
    simp only [hretained, hemit]
    rfl
  · -- what is held back is at least the retained suffix
    have hkept : min retained (f.pending ++ piece).length ≤ rest.length := by
      rw [← hrest]
      simp only [List.length_append, List.length_drop]
      omega
    have htotal := congrArg List.length hpending
    have hparts : (ds.flatten ++ rest).length = ds.flatten.length + rest.length :=
      List.length_append
    rw [hparts] at htotal
    constructor
    · exact h.stops_eq
    · exact h.running
    · exact h.unaligned
    · exact fun c hc => (List.mem_append.mp hc).elim (h.chars c) (hds c)
    · rw [hheld, hpending, List.flatten_append, List.append_assoc]
      rfl
    · show f.pendingOffset + ds.flatten.length = _
      rw [h.offset, List.flatten_append, List.length_append]
    · rfl
    · rfl
    · exact hfree
    · intro stop hstop k hk hsuffix
      show k ≤ rest.length
      have hle := covers_of_appended stops text piece f.pending.length h.covers stop hstop k hk
        hsuffix
      rw [← List.length_append] at hle
      have hheldSuffix : stop.take k <:+ f.pending ++ piece := by
        rw [hheld] at hsuffix
        apply List.suffix_of_suffix_length_le hsuffix (List.suffix_append _ _)
        rw [List.length_take]
        omega
      have hretain := le_longestPossibleStopSuffix (sampledWith f text piece) stop
        (by rw [hsampled]; exact hstop) k hk hheldSuffix
      rw [hretained] at hretain
      omega
    · intro b hlow hhigh
      have hlow' : f.pendingOffset + ds.flatten.length ≤ b := hlow
      rw [← h.boundary_sampled piece hbounds b (by omega) hhigh, List.mem_filter,
        decide_eq_true_eq]
      exact ⟨And.left, fun hmem => ⟨hmem, hlow⟩⟩
    · intro b hb
      rw [List.mem_filter] at hb
      rcases List.mem_append.mp hb.1 with hold | hnew
      · rw [List.length_append]
        exact Nat.le_add_right_of_le (h.bounded b hold)
      · rw [List.mem_singleton.mp hnew, List.length_append]
    · show (List.filter _ (f.tokenBoundaries ++ [text.length + piece.length])).getLast? = _
      rw [List.filter_append, List.filter_cons_of_pos, List.filter_nil, List.getLast?_append,
        List.length_append]
      · rfl
      · rw [decide_eq_true_eq]
        show f.pendingOffset + ds.flatten.length ≤ _
        rw [← List.length_append, hlength, List.length_append, h.offset]
        omega

/-- At the end of valid text, what is held back is whole characters. -/
theorem Tracks.pending_chars (h : Tracks stops raw boundaries f text cs) (hvalid : Valid text) :
    ∃ ds, (∀ c ∈ ds, IsChar c) ∧ f.pending = ds.flatten ∧
      (shown raw (cs ++ ds)).flatten = trimmed raw text := by
  obtain ⟨ds, hds, hflatten⟩ := valid_of_append cs.flatten f.pending (valid_flatten cs h.chars)
    (by rwa [← h.split])
  refine ⟨ds, hds, hflatten.symm, ?_⟩
  rw [← trimmed_flatten raw _ (fun c hc => (List.mem_append.mp hc).elim (h.chars c) (hds c)),
    List.flatten_append, hflatten, ← h.split]

/-- A control push ends the generation with all the text. -/
theorem push_control (h : Tracks stops raw boundaries f text cs) (hvalid : Valid text)
    (piece : List UInt8) :
    ∃ last deltas, f.push (accept (ε := ε)) piece true = (.ok .stop, last, deltas) ∧
      last.visible = f.visible ++ deltas.flatten ∧ last.finishReason = some .stop ∧
      Shows stops raw boundaries text last.visible last.stopAlignment := by
  obtain ⟨ds, hds, hpending, hshown⟩ := h.pending_chars hvalid
  obtain ⟨deltas, hemit, hvisible⟩ := emitPrefix_chars (ε := ε) { f with
      sampledTokens := f.sampledTokens + 1
      tokenBoundaries := f.tokenBoundaries ++ [text.length + piece.length] } raw cs ds [] hds
    (by rw [List.append_nil]; exact hpending) h.visible h.stripping f.pending.length true
    (by rw [hpending]; rfl)
  have hrunning : ¬ f.finishReason.isSome = true := by
    rw [h.running]
    simp
  refine ⟨{ takeChars { f with
      sampledTokens := f.sampledTokens + 1
      tokenBoundaries := f.tokenBoundaries ++ [text.length + piece.length] } raw cs ds [] with
    finishReason := some .stop }, deltas, ?_, hvisible, rfl,
    Or.inl ⟨h.free, hshown, h.unaligned⟩⟩
  unfold push
  rw [if_neg hrunning, h.last]
  simp only [Option.getD_some, if_true, hemit]

/-- Finishing a generation that nothing stopped shows all the text. -/
theorem finish_running (h : Tracks stops raw boundaries f text cs) (hvalid : Valid text) :
    ∃ result deltas, f.finish (accept (ε := ε)) = (.ok result, deltas) ∧
      result.text = f.visible ++ deltas.flatten ∧
      Shows stops raw boundaries text result.text result.stopAlignment := by
  obtain ⟨ds, hds, hpending, hshown⟩ := h.pending_chars hvalid
  obtain ⟨deltas, hemit, hvisible⟩ := emitPrefix_chars (ε := ε) f raw cs ds [] hds
    (by rw [List.append_nil]; exact hpending) h.visible h.stripping f.pending.length true
    (by rw [hpending]; rfl)
  refine ⟨(takeChars f raw cs ds []).result .length, deltas, ?_, hvisible,
    Or.inl ⟨h.free, hshown, h.unaligned⟩⟩
  unfold finish
  rw [h.running]
  simp only [hemit]

end Push

end Cusco.StopDetection
