import Cusco.WindowTail

/-!
What `window_tail` promises of its proposals: nothing is reordered or made up, the turns with
an anchor stay, the budget is exceeded only where it must be, and a second compaction changes
nothing.
-/

namespace Cusco.WindowConservation

open ContextStrategy WindowTail

variable {source : List Token} {target : ℕ}

/-- No turn fits, and of the newest one the last tokens are kept that fill the budget. -/
def CutNewest (source : List Token) (target : ℕ) (indices : List ℕ) : Prop :=
  (∀ turn ∈ splitIndexedTurns source, turnHasPolicyAnchor turn = false ∧
    selectionBudget target < turn.length) ∧
  ∃ newest, (splitIndexedTurns source).getLast? = some newest ∧
    indices = (newest.drop (newest.length - selectionBudget target)).map Prod.fst

structure Conserves (source : List Token) (target : ℕ) (p : CompactionProposal) : Prop where
  increasing : p.result.retainedIndices.Pairwise (· < ·)
  tokens : p.resultingTokens.map some = p.result.retainedIndices.map (fun i => source[i]?)
  anchored : ∀ turn ∈ splitIndexedTurns source, turnHasPolicyAnchor turn = true →
    ∀ t ∈ turn, t.1 ∈ p.result.retainedIndices
  whole : (∀ turn ∈ splitIndexedTurns source, (∀ t ∈ turn, t.1 ∈ p.result.retainedIndices) ∨
    ∀ t ∈ turn, t.1 ∉ p.result.retainedIndices) ∨
      CutNewest source target p.result.retainedIndices
  budget : requestedBudget target < p.resultingTokens.length →
    requestedBudget target <
      ((splitIndexedTurns source).filter turnHasPolicyAnchor).flatten.length ∨
    target < compactionBlockTokens ∧ ∃ newest,
      (splitIndexedTurns source).getLast? = some newest ∧
        p.result.retainedIndices = newest.map Prod.fst
  resultingBudget : p.result.resultingBudget = p.resultingTokens.length
  retainedMessages : p.result.retainedMessageCount =
    (splitIndexedTurns p.resultingTokens).length
  sourceMessages : p.result.sourceMessageCount = (splitIndexedTurns source).length
  anchors : p.result.retainedAnchorCount = (p.resultingTokens.filter isAnchor).length
  fallback : p.result.fallback = true ↔ requestedBudget target < p.resultingTokens.length

theorem sourceMessages_eq (hne : source ≠ []) :
    sourceMessages source = (splitIndexedTurns source).length := by
  have hflatten : (gatherTurns isRoleBoundary source []).flatten = source :=
    gatherTurns_flatten source []
  have hsome : gatherTurns isRoleBoundary source [] ≠ [] := by
    intro hnil
    rw [hnil] at hflatten
    exact hne hflatten.symm
  unfold sourceMessages splitTurns
  simp only [List.isEmpty_iff, if_neg hsome]
  exact (turns_length source).symm

theorem conserves_empty (target : ℕ) (requested : List String) :
    Conserves [] target (emptyProposal target requested) where
  increasing := List.Pairwise.nil
  tokens := rfl
  anchored := by
    intro turn hturn
    exact absurd hturn List.not_mem_nil
  whole := by
    left
    intro turn hturn
    exact absurd hturn List.not_mem_nil
  budget := by
    intro hlong
    exact absurd hlong (Nat.not_lt_zero _)
  resultingBudget := rfl
  retainedMessages := rfl
  sourceMessages := rfl
  anchors := rfl
  fallback := by simp [emptyProposal]

theorem mem_range_of_turn {turn : List (ℕ × Token)} {t : ℕ × Token}
    (hturn : turn ∈ splitIndexedTurns source) (ht : t ∈ turn) :
    t.1 ∈ List.range source.length := by
  rw [← indexed_fst]
  exact List.mem_map_of_mem (mem_indexed_of_mem_turn hturn ht)

theorem anchorIndices_length (source : List Token) :
    (anchorIndices source).length = (source.filter isAnchor).length := by
  unfold anchorIndices
  rw [List.length_map, ← List.countP_eq_length_filter, ← List.countP_eq_length_filter]
  conv_rhs => rw [← List.zipIdx_map_fst 0 source]
  rw [List.countP_map]
  rfl

theorem conserves_whole (target : ℕ) (requested : List String) (hne : source ≠ [])
    (hshort : source.length ≤ requestedBudget target) :
    Conserves source target (wholeProposal source target requested) where
  increasing := List.pairwise_lt_range
  tokens := by
    show source.map some = (List.range source.length).map (fun i => source[i]?)
    apply List.ext_getElem
    · simp
    · intro i h₁ h₂
      simp only [List.length_map] at h₁
      simp [h₁]
  anchored := fun turn hturn _ t ht => mem_range_of_turn hturn ht
  whole := Or.inl (fun turn hturn => Or.inl (fun t ht => mem_range_of_turn hturn ht))
  budget := by
    intro hlong
    exact absurd hlong (Nat.not_lt.mpr hshort)
  resultingBudget := rfl
  retainedMessages := sourceMessages_eq hne
  sourceMessages := sourceMessages_eq hne
  anchors := anchorIndices_length source
  fallback := by
    show false = true ↔ requestedBudget target < source.length
    simp only [Bool.false_eq_true, false_iff]
    exact Nat.not_lt.mpr hshort

section Trimmed

variable {kept : List (ℕ × Token)}

/-- The tokens of the proposal are the retained ones in order. -/
theorem trimmed_eq (requested : List String) (h : Retains source target kept)
    (hperm : (retainTurns source target).2.Perm kept) :
    (trimmedProposal source target requested).result.retainedIndices = kept.map Prod.fst ∧
      (trimmedProposal source target requested).resultingTokens = kept.map Prod.snd := by
  have hsort := sort_retained h.sublist hperm
  unfold trimmedProposal
  simp only [hsort, and_self]

theorem mem_indices {x : ℕ × Token} (hkept : kept.Sublist (indexed source))
    (hx : x ∈ indexed source) : x.1 ∈ kept.map Prod.fst ↔ x ∈ kept := by
  constructor
  · intro hmem
    obtain ⟨y, hy, hsame⟩ := List.mem_map.mp hmem
    have hget := getElem_of_mem_indexed (hkept.subset hy)
    rw [hsame, getElem_of_mem_indexed hx] at hget
    rw [show x = y from Prod.ext hsame.symm (Option.some.inj hget)]
    exact hy
  · exact fun hmem => List.mem_map_of_mem hmem

/-- The turns that are kept stay whole, the others go whole. -/
theorem mem_kept_iff {turn : List (ℕ × Token)} {x : ℕ × Token}
    (hturn : turn ∈ splitIndexedTurns source) (hx : x ∈ turn) :
    x.1 ∈ (keptTurns source target).flatten.map Prod.fst ↔ turn ∈ keptTurns source target := by
  have hsublist := keptTurns_sublist source target
  have hflatten : (keptTurns source target).flatten.Sublist (indexed source) := by
    rw [← turns_flatten]
    exact hsublist.flatten
  rw [mem_indices hflatten (mem_indexed_of_mem_turn hturn hx), List.mem_flatten]
  constructor
  · rintro ⟨other, hother, hmem⟩
    rw [turn_unique hturn (hsublist.subset hother) hx hmem]
    exact hother
  · exact fun hkept => ⟨turn, hkept, hx⟩

theorem retains_anchored (h : Retains source target kept) :
    ∀ turn ∈ splitIndexedTurns source, turnHasPolicyAnchor turn = true →
      ∀ t ∈ turn, t.1 ∈ kept.map Prod.fst := by
  intro turn hturn hanchor t ht
  cases h with
  | turns hsome =>
    refine (mem_kept_iff hturn ht).mpr (List.mem_filter.mpr ⟨hturn, ?_⟩)
    rw [hanchor, Bool.true_or]
  | newest newest hlast hlong hsmall =>
    rw [(hlong turn hturn).1] at hanchor
    exact absurd hanchor Bool.false_ne_true
  | tail newest hlast hlong hlarge =>
    rw [(hlong turn hturn).1] at hanchor
    exact absurd hanchor Bool.false_ne_true

theorem retains_whole (h : Retains source target kept) :
    (∀ turn ∈ splitIndexedTurns source, (∀ t ∈ turn, t.1 ∈ kept.map Prod.fst) ∨
      ∀ t ∈ turn, t.1 ∉ kept.map Prod.fst) ∨ CutNewest source target (kept.map Prod.fst) := by
  cases h with
  | turns hsome =>
    left
    intro turn hturn
    by_cases hkept : turn ∈ keptTurns source target
    · exact Or.inl (fun t ht => (mem_kept_iff hturn ht).mpr hkept)
    · exact Or.inr (fun t ht hmem => hkept ((mem_kept_iff hturn ht).mp hmem))
  | newest _ hlast hlong hsmall =>
    left
    intro turn hturn
    have hnewest := List.mem_of_getLast? hlast
    by_cases hsame : turn = kept
    · left
      intro t ht
      exact List.mem_map_of_mem (hsame ▸ ht)
    · right
      intro t ht hmem
      have hin := (mem_indices (sublist_of_turn hnewest) (mem_indexed_of_mem_turn hturn ht)).mp hmem
      exact hsame (turn_unique hturn hnewest ht hin)
  | tail newest hlast hlong hlarge => exact Or.inr ⟨hlong, newest, hlast, rfl⟩

theorem selectionBudget_le (target : ℕ) : selectionBudget target ≤ requestedBudget target := by
  simp only [selectionBudget]
  split_ifs
  · exact Nat.sub_le _ _
  · exact Nat.le_refl _

theorem target_of_small (h : selectionBudget target < compactionBlockTokens) :
    target < compactionBlockTokens := by
  have htarget : target ≤ requestedBudget target := Nat.le_max_left _ _
  simp only [selectionBudget] at h
  by_cases hlarge : requestedBudget target ≥ compactionBlockTokens
  · rw [if_pos hlarge] at h
    simp only [compactionBlockTokens] at *
    omega
  · omega

/-- The anchors stay whatever they take; with them, what is added fits. -/
theorem keptTurns_length (source : List Token) (target : ℕ) :
    (keptTurns source target).flatten.length ≤ selectionBudget target ∨
      (keptTurns source target).flatten.length = (anchorTurns source).flatten.length := by
  have hperm := (kept_perm source target).flatten.length_eq
  rw [List.flatten_append, List.length_append] at hperm
  rcases @fitting_length _ turnHasPolicyAnchor (selectionBudget target)
    (splitIndexedTurns source).reverse (anchorTurns source).flatten.length with hle | hnil
  · left
    exact hperm ▸ hle
  · right
    have hfits : fittingTurns source target = [] := hnil
    rw [← hperm, hfits, List.flatten_nil, List.length_nil, Nat.add_zero]

theorem retains_budget (h : Retains source target kept)
    (hlong : requestedBudget target < kept.length) :
    requestedBudget target < (anchorTurns source).flatten.length ∨
      target < compactionBlockTokens ∧ ∃ newest,
        (splitIndexedTurns source).getLast? = some newest ∧
          kept.map Prod.fst = newest.map Prod.fst := by
  have hle := selectionBudget_le target
  cases h with
  | turns hsome =>
    left
    rcases keptTurns_length source target with hfits | hanchors
    · omega
    · exact hanchors ▸ hlong
  | newest _ hlast _ hsmall => exact Or.inr ⟨target_of_small hsmall, kept, hlast, rfl⟩
  | tail turn hlast hturns hlarge =>
    rw [List.length_drop] at hlong
    omega

theorem retains_nonempty (h : Retains source target kept) : kept ≠ [] := by
  have hpositive := (turns_cut source).nonempty
  cases h with
  | turns hsome => exact fun hnil => hsome ((flatten_eq_nil_iff_of_kept source target).mp hnil)
  | newest _ hlast _ _ => exact hpositive kept (List.mem_of_getLast? hlast)
  | tail turn hlast hlong hlarge =>
    intro hnil
    have hturn := (hlong turn (List.mem_of_getLast? hlast)).2
    have hlength := congrArg List.length hnil
    rw [List.length_drop, List.length_nil] at hlength
    have hblock : 0 < compactionBlockTokens := Nat.succ_pos _
    omega

theorem conserves_trimmed (target : ℕ) (requested : List String) (hne : source ≠ []) :
    Conserves source target (trimmedProposal source target requested) := by
  obtain ⟨kept, h, hperm, hused⟩ := retainTurns_retains target hne
  obtain ⟨hindices, htokens⟩ := trimmed_eq requested h hperm
  have hlength : (trimmedProposal source target requested).resultingTokens.length =
      kept.length := by rw [htokens, List.length_map]
  refine ⟨?_, ?_, ?_, ?_, ?_, rfl, ?_, sourceMessages_eq hne, ?_, ?_⟩
  · rw [hindices, List.pairwise_map]
    exact increasing_of_sublist h.sublist
  · rw [hindices, htokens, List.map_map, List.map_map]
    apply List.map_congr_left
    intro x hx
    exact (getElem_of_mem_indexed (h.sublist.subset hx)).symm
  · rw [hindices]
    exact retains_anchored h
  · rw [hindices]
    exact retains_whole h
  · rw [hindices, hlength]
    exact retains_budget h
  · have hsome : (trimmedProposal source target requested).resultingTokens ≠ [] := by
      intro hnil
      rw [hnil] at hlength
      exact retains_nonempty h (List.eq_nil_of_length_eq_zero hlength.symm)
    exact sourceMessages_eq hsome
  · have hcount : (trimmedProposal source target requested).result.retainedAnchorCount =
        ((kept.map Prod.fst).filter (fun i => (anchorIndices source).contains i)).length := by
      rw [← hindices]
      rfl
    rw [hcount, htokens, List.filter_map, List.filter_map, List.length_map, List.length_map]
    congr 1
    apply List.filter_congr
    intro x hx
    exact anchor_of_index (h.sublist.subset hx)
  · have hfallback : (trimmedProposal source target requested).result.fallback =
        decide ((retainTurns source target).1 > requestedBudget target) := rfl
    rw [hfallback, hused, hlength, decide_eq_true_eq]

end Trimmed

/-- Whatever the context and the target, the proposal keeps what it must of the context. -/
theorem window_tail_conserves (source : List Token) (target : ℕ) (requested : List String) :
    ∃ p, applyWindowTailStrategy source target requested = .ok p ∧ Conserves source target p := by
  unfold applyWindowTailStrategy
  split_ifs with hempty hshort
  · rw [List.isEmpty_iff.mp hempty]
    exact ⟨_, rfl, conserves_empty target requested⟩
  · rw [List.isEmpty_iff] at hempty
    exact ⟨_, rfl, conserves_whole target requested hempty hshort⟩
  · rw [List.isEmpty_iff] at hempty
    exact ⟨_, rfl, conserves_trimmed target requested hempty⟩

section Again

variable {kept : List (ℕ × Token)}

/-- Splitting what kept turns hold gives those turns. -/
theorem turns_of_kept {turns : List (List (ℕ × Token))}
    (hturns : turns.Sublist (splitIndexedTurns source)) :
    (splitIndexedTurns (turns.flatten.map Prod.snd)).map (List.map Prod.snd) =
      turns.map (List.map Prod.snd) := by
  rw [turns_map, List.map_flatten]
  exact gatherTurns_of_cut _ ((turns_cut source).sublist hturns).map

/-- An anchor is one whatever its index. -/
theorem hasAnchor_of_map {turn turn' : List (ℕ × Token)}
    (hsame : turn'.map Prod.snd = turn.map Prod.snd) :
    turnHasPolicyAnchor turn' = turnHasPolicyAnchor turn := by
  have hmap : ∀ turn : List (ℕ × Token),
      turnHasPolicyAnchor turn = (turn.map Prod.snd).any isAnchor := by
    intro turn
    rw [List.any_map]
    rfl
  rw [hmap, hmap, hsame]

/-- What exceeds the budget are anchors, or the newest turn under a small target. -/
theorem retains_long (h : Retains source target kept)
    (hlong : requestedBudget target < kept.length) :
    (∀ turn ∈ splitIndexedTurns (kept.map Prod.snd), turnHasPolicyAnchor turn = true) ∨
      (splitIndexedTurns (kept.map Prod.snd)).length = 1 ∧
        selectionBudget target < compactionBlockTokens := by
  have hle := selectionBudget_le target
  cases h with
  | turns hsome =>
    left
    intro turn hturn
    have hmap := List.mem_map_of_mem (f := List.map Prod.snd) hturn
    rw [turns_of_kept (keptTurns_sublist source target)] at hmap
    obtain ⟨turn', hturn', hsame⟩ := List.mem_map.mp hmap
    rw [hasAnchor_of_map hsame.symm]
    rcases keptTurns_length source target with hfits | hanchors
    · omega
    · have hperm := (kept_perm source target).flatten.length_eq
      rw [List.flatten_append, List.length_append] at hperm
      have hnil : (fittingTurns source target).flatten = [] :=
        List.eq_nil_of_length_eq_zero (by omega)
      obtain ⟨hmem, hkept⟩ := List.mem_filter.mp hturn'
      rcases Bool.or_eq_true_iff.mp hkept with hanchor | hfit
      · exact hanchor
      · have hempty := List.flatten_eq_nil_iff.mp hnil turn' (List.contains_iff_mem.mp hfit)
        exact absurd hempty ((turns_cut source).nonempty turn' hmem)
  | newest _ hlast _ hsmall =>
    right
    have hsublist : [kept].Sublist (splitIndexedTurns source) :=
      List.singleton_sublist.mpr (List.mem_of_getLast? hlast)
    have hturns := congrArg List.length (turns_of_kept hsublist)
    rw [List.flatten_singleton, List.length_map, List.length_map] at hturns
    exact ⟨hturns, hsmall⟩
  | tail turn hlast hturns hlarge =>
    rw [List.length_drop] at hlong
    omega

/-- Where every turn has an anchor, or the only turn is kept whole, everything is retained. -/
theorem retains_all (h : Retains source target kept)
    (hall : (∀ turn ∈ splitIndexedTurns source, turnHasPolicyAnchor turn = true) ∨
      (splitIndexedTurns source).length = 1 ∧ selectionBudget target < compactionBlockTokens) :
    kept = indexed source := by
  have hflatten := turns_flatten source
  cases h with
  | turns hsome =>
    have hkept : keptTurns source target = splitIndexedTurns source := by
      rcases hall with hanchors | ⟨hone, _⟩
      · apply List.filter_eq_self.mpr
        intro turn hturn
        rw [hanchors turn hturn, Bool.true_or]
      · apply (keptTurns_sublist source target).eq_of_length_le
        have hpositive := List.length_pos_of_ne_nil hsome
        omega
    rw [hkept, hflatten]
  | newest _ hlast hlong hsmall =>
    have hmem := List.mem_of_getLast? hlast
    rcases hall with hanchors | ⟨hone, _⟩
    · have hanchor := hanchors kept hmem
      rw [(hlong kept hmem).1] at hanchor
      exact absurd hanchor Bool.false_ne_true
    · obtain ⟨turn, hturns⟩ := List.length_eq_one_iff.mp hone
      rw [hturns, List.mem_singleton] at hmem
      rw [hturns, List.flatten_singleton] at hflatten
      exact hmem.trans hflatten
  | tail turn hlast hlong hlarge =>
    have hmem := List.mem_of_getLast? hlast
    rcases hall with hanchors | ⟨_, hsmall⟩
    · have hanchor := hanchors turn hmem
      rw [(hlong turn hmem).1] at hanchor
      exact absurd hanchor Bool.false_ne_true
    · omega

theorem apply_long (requested : List String) (hlong : requestedBudget target < source.length) :
    applyWindowTailStrategy source target requested =
      .ok (trimmedProposal source target requested) := by
  have hsome : ¬source.isEmpty = true := by
    intro hempty
    rw [List.isEmpty_iff.mp hempty] at hlong
    exact absurd hlong (Nat.not_lt_zero _)
  unfold applyWindowTailStrategy
  rw [if_neg hsome, if_neg (Nat.not_le.mpr hlong)]

/-- A proposal that retains everything. -/
def Everything (source : List Token) (p : CompactionProposal) : Prop :=
  p.resultingTokens = source ∧ p.result.retainedIndices = List.range source.length

theorem everything_of_short (requested : List String)
    (hshort : source.length ≤ requestedBudget target) :
    ∃ p, applyWindowTailStrategy source target requested = .ok p ∧ Everything source p := by
  unfold applyWindowTailStrategy
  rw [if_pos hshort]
  split_ifs with hempty
  · rw [List.isEmpty_iff.mp hempty]
    exact ⟨_, rfl, rfl, rfl⟩
  · exact ⟨_, rfl, rfl, rfl⟩

/-- A second compaction under the same target retains everything. -/
theorem window_tail_idempotent (source : List Token) (target : ℕ)
    (requested requestedAgain : List String) :
    ∃ p, applyWindowTailStrategy source target requested = .ok p ∧
      ∃ q, applyWindowTailStrategy p.resultingTokens target requestedAgain = .ok q ∧
        Everything p.resultingTokens q := by
  by_cases hshort : source.length ≤ requestedBudget target
  · obtain ⟨p, hp, htokens, _⟩ := everything_of_short requested hshort
    refine ⟨p, hp, ?_⟩
    rw [htokens]
    exact everything_of_short requestedAgain hshort
  · have hlong := Nat.lt_of_not_le hshort
    have hne : source ≠ [] := by
      rintro rfl
      exact hshort (Nat.zero_le _)
    refine ⟨_, apply_long requested hlong, ?_⟩
    obtain ⟨kept, h, hperm, _⟩ := retainTurns_retains target hne
    obtain ⟨_, htokens⟩ := trimmed_eq requested h hperm
    rw [htokens]
    by_cases hfits : (kept.map Prod.snd).length ≤ requestedBudget target
    · exact everything_of_short requestedAgain hfits
    · have hmore := Nat.lt_of_not_le hfits
      have hagain : kept.map Prod.snd ≠ [] := by
        intro hnil
        exact retains_nonempty h (List.map_eq_nil_iff.mp hnil)
      obtain ⟨kept', h', hperm', _⟩ := retainTurns_retains target hagain
      obtain ⟨hindices', htokens'⟩ := trimmed_eq requestedAgain h' hperm'
      have hall := retains_all h'
        (retains_long h (by rwa [List.length_map] at hmore))
      refine ⟨_, apply_long requestedAgain hmore, ?_, ?_⟩
      · rw [htokens', hall, indexed_snd]
      · rw [hindices', hall, indexed_fst]

end Again

end Cusco.WindowConservation
