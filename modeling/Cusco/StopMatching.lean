import Cusco.Generation

/-!
Occurrences of stop strings. The candidate chosen by the frontier is the stop that
starts first, and the first in the list among those; the suffix it holds back is
at least every proper prefix of a stop that the text ends with. A stop that occurs
after more text is appended starts in what was held back.
-/

namespace Cusco.StopMatching

open Generation GenerationFrontier

/-- Some stop occurs in the text. -/
def Contains (stops : List (List UInt8)) (text : List UInt8) : Prop :=
  ∃ stop ∈ stops, stop <:+: text

/-- A stop stands at `start` and ends at `finish`; every other occurrence starts
later, or there and comes later in the list. -/
def FirstStop (stops : List (List UInt8)) (text : List UInt8) (start finish : ℕ) : Prop :=
  ∃ order stop, stops[order]? = some stop ∧ stop <+: text.drop start ∧
    finish = start + stop.length ∧
    ∀ (order' : ℕ) (stop' : List UInt8) (start' : ℕ), stops[order']? = some stop' →
      stop' <+: text.drop start' → start < start' ∨ start = start' ∧ order ≤ order'

theorem infix_iff_drop (stop text : List UInt8) :
    stop <:+: text ↔ ∃ start, stop <+: text.drop start := by
  rw [List.infix_iff_prefix_suffix]
  constructor
  · intro h
    obtain ⟨t, hstop, hsuffix⟩ := h
    exact ⟨text.length - t.length, by rwa [← List.suffix_iff_eq_drop.mp hsuffix]⟩
  · intro h
    obtain ⟨start, hstart⟩ := h
    exact ⟨_, hstart, List.drop_suffix _ _⟩

theorem contains_iff (stops : List (List UInt8)) (text : List UInt8) :
    Contains stops text ↔ ∃ stop ∈ stops, ∃ start, stop <+: text.drop start := by
  unfold Contains
  simp only [infix_iff_drop]

theorem window_iff (stop text : List UInt8) (start : ℕ) :
    ((text.drop start).take stop.length == stop) = true ↔ stop <+: text.drop start := by
  rw [beq_iff_eq, List.prefix_iff_eq_take]
  exact eq_comm

theorem position_some (stop text : List UInt8) (start : ℕ) (h : position stop text = some start) :
    stop <+: text.drop start ∧ ∀ earlier, earlier < start → ¬ stop <+: text.drop earlier := by
  unfold position at h
  rw [List.find?_range_eq_some] at h
  obtain ⟨hstart, -, hearlier⟩ := h
  refine ⟨(window_iff stop text start).mp hstart, ?_⟩
  intro earlier hlt hstarts
  have hnot := hearlier earlier hlt
  rw [(window_iff stop text earlier).mpr hstarts] at hnot
  cases hnot

theorem position_isSome (stop text : List UInt8) (hne : stop ≠ []) (start : ℕ)
    (h : stop <+: text.drop start) : position stop text ≠ none := by
  intro hnone
  unfold position at hnone
  rw [List.find?_eq_none] at hnone
  have hlength := h.length_le
  have hpos := List.length_pos_iff.mpr hne
  rw [List.length_drop] at hlength
  refine hnone start (List.mem_range.mpr (by omega)) ?_
  exact (window_iff stop text start).mpr h

theorem mem_candidates (stops : List (List UInt8)) (text : List UInt8) (start order finish : ℕ) :
    (start, order, finish) ∈ candidates stops text ↔
      ∃ stop, stops[order]? = some stop ∧ position stop text = some start ∧
        finish = start + stop.length := by
  unfold candidates
  rw [List.mem_filterMap]
  constructor
  · intro h
    obtain ⟨⟨stop, order'⟩, hmem, hmap⟩ := h
    obtain ⟨start', hstart', heq⟩ := Option.map_eq_some_iff.mp hmap
    cases heq
    exact ⟨stop, List.mem_zipIdx_iff_getElem?.mp hmem, hstart', rfl⟩
  · intro h
    obtain ⟨stop, horder, hstart, hfinish⟩ := h
    refine ⟨(stop, order), List.mem_zipIdx_iff_getElem?.mpr horder, ?_⟩
    simp only [hstart, Option.map_some, hfinish]

theorem firstStop_of_stopMatch (f : GenerationFrontier) (hne : ∀ stop ∈ f.stops, stop ≠ [])
    (start finish : ℕ) (h : f.stopMatch = some (start, finish)) :
    FirstStop f.stops f.pending start finish := by
  unfold stopMatch at h
  obtain ⟨⟨first, order, last⟩, hmin, heq⟩ := Option.map_eq_some_iff.mp h
  obtain ⟨rfl, rfl⟩ := Prod.mk.inj heq
  have hmem := List.argmin_mem hmin
  obtain ⟨stop, horder, hposition, hfinish⟩ := (mem_candidates _ _ _ _ _).mp hmem
  refine ⟨order, stop, horder, (position_some stop _ _ hposition).1, hfinish, ?_⟩
  intro order' stop' start' horder' hstarts
  have hmem' := List.mem_of_getElem? horder'
  obtain ⟨least, hfirst⟩ := Option.ne_none_iff_exists'.mp
    (position_isSome stop' f.pending (hne stop' hmem') start' hstarts)
  have hle : least ≤ start' := by
    by_contra hlt
    exact (position_some stop' _ least hfirst).2 start' (by omega) hstarts
  have hkey := List.le_of_mem_argmin
    ((mem_candidates _ _ least order' _).mpr ⟨stop', horder', hfirst, rfl⟩) hmin
  rw [Prod.Lex.toLex_le_toLex] at hkey
  dsimp only at hkey
  omega

theorem not_contains_of_stopMatch (f : GenerationFrontier) (hne : ∀ stop ∈ f.stops, stop ≠ [])
    (h : f.stopMatch = none) : ¬ Contains f.stops f.pending := by
  rw [contains_iff]
  intro hcontains
  obtain ⟨stop, hstop, start, hstarts⟩ := hcontains
  unfold stopMatch at h
  rw [Option.map_eq_none_iff, List.argmin_eq_none] at h
  obtain ⟨order, horder⟩ := List.mem_iff_getElem?.mp hstop
  obtain ⟨first, hfirst⟩ := Option.ne_none_iff_exists'.mp
    (position_isSome stop f.pending (hne stop hstop) start hstarts)
  have hmem := (mem_candidates f.stops f.pending first order _).mpr ⟨stop, horder, hfirst, rfl⟩
  rw [h] at hmem
  cases hmem

/-- Two first stops end alike. -/
theorem firstStop_unique (stops : List (List UInt8)) (text : List UInt8) (a b c d : ℕ)
    (h : FirstStop stops text a b) (h' : FirstStop stops text c d) : a = c ∧ b = d := by
  obtain ⟨order, stop, horder, hstarts, hb, hfirst⟩ := h
  obtain ⟨order', stop', horder', hstarts', hd, hfirst'⟩ := h'
  have hle := hfirst order' stop' c horder' hstarts'
  have hle' := hfirst' order stop a horder hstarts
  have hac : a = c := by omega
  have hsame : order = order' := by omega
  subst hac hsame
  rw [horder] at horder'
  cases horder'
  exact ⟨rfl, hb.trans hd.symm⟩

theorem le_possibleSuffix (stop text : List UInt8) (n : ℕ) (hn : n < stop.length)
    (h : stop.take n <:+ text) : n ≤ possibleSuffix stop text := by
  by_cases hzero : n = 0
  · omega
  · have hlength := h.length_le
    rw [List.length_take, Nat.min_eq_left (by omega)] at hlength
    have hmem : n ∈ ((List.range (min (stop.length - 1) text.length)).map (· + 1)).reverse := by
      rw [List.mem_reverse, List.mem_map]
      exact ⟨n - 1, List.mem_range.mpr (by omega), by omega⟩
    have hordered : (((List.range (min (stop.length - 1) text.length)).map
        (· + 1)).reverse).Pairwise (fun a b => b < a) := by
      rw [List.pairwise_reverse, List.pairwise_map]
      exact List.pairwise_lt_range.imp (fun hlt => by omega)
    unfold possibleSuffix
    cases hfind : ((List.range (min (stop.length - 1) text.length)).map (· + 1)).reverse.find?
        (fun length => (stop.take length).isSuffixOf text) with
    | none =>
      rw [List.find?_eq_none] at hfind
      exact absurd (List.isSuffixOf_iff_suffix.mpr h) (hfind n hmem)
    | some m =>
      obtain ⟨-, before, after, hsplit, hbefore⟩ := List.find?_eq_some_iff_append.mp hfind
      simp only [hfind, Option.getD_some]
      rw [hsplit] at hmem hordered
      rcases List.mem_append.mp hmem with hin | hin
      · have hnot := hbefore n hin
        rw [List.isSuffixOf_iff_suffix.mpr h] at hnot
        cases hnot
      · rcases List.mem_cons.mp hin with rfl | hin
        · exact le_rfl
        · exact Nat.le_of_lt ((List.pairwise_cons.mp
          (List.pairwise_append.mp hordered).2.1).1 n hin)

theorem le_foldr_max (l : List ℕ) (n : ℕ) (h : n ∈ l) : n ≤ l.foldr max 0 := by
  induction l with
  | nil => cases h
  | cons m rest ih =>
    rw [List.foldr_cons]
    rcases List.mem_cons.mp h with rfl | h
    · exact le_max_left _ _
    · exact (ih h).trans (le_max_right _ _)

theorem le_longestPossibleStopSuffix (f : GenerationFrontier) (stop : List UInt8)
    (hstop : stop ∈ f.stops) (n : ℕ) (hn : n < stop.length) (h : stop.take n <:+ f.pending) :
    n ≤ f.longestPossibleStopSuffix :=
  (le_possibleSuffix stop f.pending n hn h).trans
    (le_foldr_max _ _ (List.mem_map.mpr ⟨stop, hstop, rfl⟩))

/-- Every proper prefix of a stop that the text ends with fits in its last `n` bytes. -/
def Covers (stops : List (List UInt8)) (text : List UInt8) (n : ℕ) : Prop :=
  ∀ stop ∈ stops, ∀ k, k < stop.length → stop.take k <:+ text → k ≤ n

/-- A stop that occurs once a piece is appended starts in the last `n` bytes before it. -/
theorem start_of_appended (stops : List (List UInt8)) (text piece : List UInt8) (n : ℕ)
    (hfree : ¬ Contains stops text) (hcovers : Covers stops text n) (stop : List UInt8)
    (hstop : stop ∈ stops) (start : ℕ) (h : stop <+: (text ++ piece).drop start) :
    text.length - n ≤ start := by
  by_contra hlt
  have hlt' : start < text.length := by omega
  rw [List.drop_append_of_le_length (by omega)] at h
  by_cases hlong : stop.length ≤ text.length - start
  · apply hfree
    rw [contains_iff]
    refine ⟨stop, hstop, start, ?_⟩
    refine List.prefix_of_prefix_length_le h (List.prefix_append _ _) ?_
    rw [List.length_drop]
    exact hlong
  · have hcut : stop.take (text.length - start) = text.drop start := by
      obtain ⟨rest, hrest⟩ := h
      have hlength : (text.drop start).length = text.length - start := List.length_drop
      have htake := congrArg (List.take (text.drop start).length) hrest
      rw [List.take_left, List.take_append_of_le_length (by omega), hlength] at htake
      exact htake
    have hk := hcovers stop hstop (text.length - start) (by omega)
      (by rw [hcut]; exact List.drop_suffix _ _)
    omega

/-- The same for the proper prefixes of stops that the longer text ends with. -/
theorem covers_of_appended (stops : List (List UInt8)) (text piece : List UInt8) (n : ℕ)
    (hcovers : Covers stops text n) : Covers stops (text ++ piece) (n + piece.length) := by
  intro stop hstop k hk hsuffix
  by_cases hlong : k ≤ piece.length
  · omega
  · have hcut : stop.take (k - piece.length) <:+ text := by
      obtain ⟨before, hbefore⟩ := hsuffix
      have hlength := congrArg List.length hbefore
      rw [List.length_append, List.length_append, List.length_take,
        Nat.min_eq_left (Nat.le_of_lt hk)] at hlength
      have hcut : min (text.length - before.length) k = k - piece.length := by omega
      have htake := congrArg (List.take text.length) hbefore
      rw [List.take_left, List.take_append, List.take_take, hcut] at htake
      exact ⟨before.take text.length, htake⟩
    have hle := hcovers stop hstop (k - piece.length) (by omega) hcut
    omega

/-- Occurrences in the text are those in what was held back, shifted. -/
theorem prefix_drop_iff (front back stop : List UInt8) (start : ℕ) :
    stop <+: (front ++ back).drop (front.length + start) ↔ stop <+: back.drop start := by
  rw [← List.drop_drop, List.drop_left]

/-- The first stop of the text is that of what was held back, shifted. -/
theorem firstStop_shift (stops : List (List UInt8)) (front back : List UInt8) (start finish : ℕ)
    (hstart : ∀ stop ∈ stops, ∀ start, stop <+: (front ++ back).drop start → front.length ≤ start)
    (h : FirstStop stops back start finish) :
    FirstStop stops (front ++ back) (front.length + start) (front.length + finish) := by
  obtain ⟨order, stop, horder, hstarts, hfinish, hfirst⟩ := h
  refine ⟨order, stop, horder, (prefix_drop_iff front back stop start).mpr hstarts, by omega, ?_⟩
  intro order' stop' start' horder' hstarts'
  have hge := hstart stop' (List.mem_of_getElem? horder') start' hstarts'
  obtain ⟨k, rfl⟩ := Nat.exists_eq_add_of_le hge
  have hcompare := hfirst order' stop' k horder'
    ((prefix_drop_iff front back stop' k).mp hstarts')
  omega

end Cusco.StopMatching
