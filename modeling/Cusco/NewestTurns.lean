import Cusco.WindowConservation

/-!
Which of the turns without an anchor `window_tail` keeps. A turn that does not fit is passed
over and an older, shorter one may still be kept, so the kept ones are the newest exactly if
no turn older than one that was passed over would fit in its place.
-/

namespace Cusco.NewestTurns

open ContextStrategy WindowTail WindowConservation

/-- Of the turns without an anchor the newest are retained. -/
def NewestKept (source : List Token) (p : CompactionProposal) : Prop :=
  (splitIndexedTurns source).Pairwise (fun older newer =>
    turnHasPolicyAnchor older = false → turnHasPolicyAnchor newer = false →
      (∃ t ∈ older, t.1 ∈ p.result.retainedIndices) →
        ∀ t ∈ newer, t.1 ∈ p.result.retainedIndices)

/-- The turns without an anchor, newest first. -/
def plainTurns (source : List Token) : List (List (ℕ × Token)) :=
  (splitIndexedTurns source).reverse.filter (fun turn => !turnHasPolicyAnchor turn)

/-- Where a turn does not fit beside all newer ones, no older one would fit in its place. -/
def FitsInOrder {α : Type} (budget used : ℕ) (turns : List (List α)) : Prop :=
  ∀ newer turn older, turns = newer ++ turn :: older →
    budget < used + newer.flatten.length + turn.length →
      ∀ t ∈ older, budget < used + newer.flatten.length + t.length

/-- The context fits whole, or its turns without an anchor fit in order beside the anchors. -/
def InOrder (source : List Token) (target : ℕ) : Prop :=
  source.length ≤ requestedBudget target ∨
    FitsInOrder (selectionBudget target)
      ((splitIndexedTurns source).filter turnHasPolicyAnchor).flatten.length (plainTurns source)

section Order

variable {α : Type} {marked : List α → Bool} {budget : ℕ}

theorem fitting_filter (turns : List (List α)) (used : ℕ) :
    fitting marked budget turns used =
      fitting (fun _ => false) budget (turns.filter (fun turn => !marked turn)) used := by
  induction turns generalizing used with
  | nil => rfl
  | cons turn rest ih =>
    by_cases hmarked : marked turn = true
    · rw [fitting, if_pos hmarked, List.filter_cons_of_neg (by simpa using hmarked)]
      exact ih used
    · rw [fitting, if_neg hmarked, List.filter_cons_of_pos (by simpa using hmarked), fitting,
        if_neg Bool.false_ne_true, ih used, ih]

theorem fitting_nil_of_long (turns : List (List α)) (used : ℕ)
    (h : ∀ turn ∈ turns, used + turn.length > budget) :
    fitting (fun _ => false) budget turns used = [] := by
  induction turns with
  | nil => rfl
  | cons turn rest ih =>
    rw [fitting, if_neg Bool.false_ne_true, if_pos (h turn List.mem_cons_self)]
    exact ih (fun t ht => h t (List.mem_cons_of_mem _ ht))

theorem fitsInOrder_cons {turn : List α} {rest : List (List α)} {used : ℕ}
    (hfits : used + turn.length ≤ budget) :
    FitsInOrder budget used (turn :: rest) ↔ FitsInOrder budget (used + turn.length) rest := by
  have hsum : ∀ newer : List (List α), used + (turn :: newer).flatten.length =
      used + turn.length + newer.flatten.length := by
    intro newer
    rw [List.flatten_cons, List.length_append, Nat.add_assoc]
  constructor
  · intro h newer long older hrest hlong t ht
    rw [← hsum] at hlong ⊢
    exact h (turn :: newer) long older (by rw [hrest]; rfl) hlong t ht
  · intro h newer long older hrest hlong t ht
    cases newer with
    | nil =>
      obtain ⟨rfl, rfl⟩ := List.cons.inj hrest
      simp only [List.flatten_nil, List.length_nil] at hlong
      omega
    | cons first newer =>
      obtain ⟨rfl, htail⟩ := List.cons.inj hrest
      rw [hsum] at hlong ⊢
      exact h newer long older htail hlong t ht

/-- What fits is an initial part of the turns exactly if they fit in order. -/
theorem fitsInOrder_iff (turns : List (List α)) (used : ℕ) (hnodup : turns.Nodup) :
    FitsInOrder budget used turns ↔
      turns.Pairwise (fun newer older => older ∈ fitting (fun _ => false) budget turns used →
        newer ∈ fitting (fun _ => false) budget turns used) := by
  induction turns generalizing used with
  | nil =>
    simp only [List.Pairwise.nil, iff_true]
    intro newer turn older hnil
    simp at hnil
  | cons turn rest ih =>
    obtain ⟨hnew, hrest⟩ := List.nodup_cons.mp hnodup
    by_cases hfits : used + turn.length > budget
    · have hpassed : fitting (fun _ => false) budget (turn :: rest) used =
          fitting (fun _ => false) budget rest used := by
        rw [fitting, if_neg Bool.false_ne_true, if_pos hfits]
      rw [hpassed]
      have hsubset : ∀ t ∈ fitting (fun _ => false) budget rest used, t ∈ rest :=
        fun t ht => List.mem_of_mem_filter ((fitting_sublist rest used).subset ht)
      constructor
      · intro h
        have hnone : fitting (fun _ => false) budget rest used = [] := by
          apply fitting_nil_of_long
          intro t ht
          have hlong := h [] turn rest rfl (by simpa using hfits) t ht
          simpa using hlong
        rw [hnone]
        exact List.pairwise_of_forall (fun _ _ hmem => absurd hmem List.not_mem_nil)
      · intro h
        obtain ⟨hfirst, _⟩ := List.pairwise_cons.mp h
        have hnone : fitting (fun _ => false) budget rest used = [] := by
          apply List.eq_nil_iff_forall_not_mem.mpr
          intro t ht
          exact hnew (hsubset turn (hfirst t (hsubset t ht) ht))
        have hlong := fitting_eq_nil rest used hnone
        intro newer long older hturns _ t ht
        have hmem : t ∈ rest := by
          cases newer with
          | nil =>
            obtain ⟨rfl, rfl⟩ := List.cons.inj hturns
            exact ht
          | cons first newer =>
            obtain ⟨rfl, rfl⟩ := List.cons.inj hturns
            exact List.mem_append_right _ (List.mem_cons_of_mem _ ht)
        have hover := hlong t hmem rfl
        omega
    · have hkept : fitting (fun _ => false) budget (turn :: rest) used =
          turn :: fitting (fun _ => false) budget rest (used + turn.length) := by
        rw [fitting, if_neg Bool.false_ne_true, if_neg hfits]
      rw [fitsInOrder_cons (Nat.le_of_not_lt hfits), ih _ hrest, hkept, List.pairwise_cons]
      have hother : ∀ t ∈ rest,
          (t ∈ turn :: fitting (fun _ => false) budget rest (used + turn.length) ↔
            t ∈ fitting (fun _ => false) budget rest (used + turn.length)) := by
        intro t ht
        rw [List.mem_cons]
        constructor
        · rintro (rfl | hmem)
          · exact absurd ht hnew
          · exact hmem
        · exact Or.inr
      constructor
      · intro h
        refine ⟨fun _ _ _ => List.mem_cons_self, h.imp_of_mem ?_⟩
        intro newer older hnewer holder himp
        rw [hother newer hnewer, hother older holder]
        exact himp
      · rintro ⟨_, h⟩
        refine h.imp_of_mem ?_
        intro newer older hnewer holder himp
        rw [hother newer hnewer, hother older holder] at himp
        exact himp

end Order

section Source

variable {source : List Token} {target : ℕ}

theorem fittingTurns_eq (source : List Token) (target : ℕ) :
    fittingTurns source target = fitting (fun _ => false) (selectionBudget target)
      (plainTurns source) (anchorTurns source).flatten.length :=
  fitting_filter _ _

/-- The turns without an anchor fit in order exactly if, newer ones with older ones, they are
kept. -/
theorem fitsInOrder_iff_kept (source : List Token) (target : ℕ) :
    FitsInOrder (selectionBudget target) (anchorTurns source).flatten.length
        (plainTurns source) ↔
      (splitIndexedTurns source).Pairwise (fun older newer =>
        turnHasPolicyAnchor older = false → turnHasPolicyAnchor newer = false →
          older ∈ fittingTurns source target → newer ∈ fittingTurns source target) := by
  have hnodup : (plainTurns source).Nodup :=
    (List.nodup_reverse.mpr (turns_nodup source)).filter _
  rw [fitsInOrder_iff _ _ hnodup, ← fittingTurns_eq, plainTurns, List.pairwise_filter,
    List.pairwise_reverse]
  simp only [Bool.not_eq_true']
  constructor
  · exact fun h => h.imp (fun himp holder hnewer => himp hnewer holder)
  · exact fun h => h.imp (fun himp hnewer holder => himp holder hnewer)

/-- A turn without an anchor that is kept is one that fits. -/
theorem mem_keptTurns_iff {turn : List (ℕ × Token)} (hturn : turn ∈ splitIndexedTurns source)
    (hplain : turnHasPolicyAnchor turn = false) :
    turn ∈ keptTurns source target ↔ turn ∈ fittingTurns source target := by
  unfold keptTurns
  rw [List.mem_filter, hplain, Bool.false_or, List.contains_iff_mem]
  exact and_iff_right hturn

theorem retained_iff {turn : List (ℕ × Token)} (hturn : turn ∈ splitIndexedTurns source) :
    ((∃ t ∈ turn, t.1 ∈ (keptTurns source target).flatten.map Prod.fst) ↔
        turn ∈ keptTurns source target) ∧
      ((∀ t ∈ turn, t.1 ∈ (keptTurns source target).flatten.map Prod.fst) ↔
        turn ∈ keptTurns source target) := by
  have hne := (turns_cut source).nonempty turn hturn
  obtain ⟨first, hfirst⟩ := List.exists_mem_of_ne_nil turn hne
  refine ⟨⟨?_, ?_⟩, ⟨?_, ?_⟩⟩
  · rintro ⟨t, ht, hmem⟩
    exact (mem_kept_iff hturn ht).mp hmem
  · exact fun hkept => ⟨first, hfirst, (mem_kept_iff hturn hfirst).mpr hkept⟩
  · exact fun h => (mem_kept_iff hturn hfirst).mp (h first hfirst)
  · exact fun hkept t ht => (mem_kept_iff hturn ht).mpr hkept

/-- Where only tokens of the newest turn are retained, no older turn is. -/
theorem newestKept_of_newest {p : CompactionProposal} {newest : List (ℕ × Token)}
    (hlast : (splitIndexedTurns source).getLast? = some newest)
    (hindices : ∀ i ∈ p.result.retainedIndices, ∃ t ∈ newest, t.1 = i) :
    NewestKept source p := by
  obtain ⟨older, hturns⟩ := List.getLast?_eq_some_iff.mp hlast
  have hdisjoint := turns_disjoint source
  have hmem := List.mem_of_getLast? hlast
  refine hdisjoint.imp_of_mem ?_
  rintro a b ha hb hlt _ _ ⟨t, ht, hretained⟩
  obtain ⟨u, hu, hsame⟩ := hindices t.1 hretained
  have hget := getElem_of_mem_indexed (mem_indexed_of_mem_turn hmem hu)
  rw [hsame, getElem_of_mem_indexed (mem_indexed_of_mem_turn ha ht)] at hget
  have heq : t = u := Prod.ext hsame.symm (Option.some.inj hget)
  have hanewest : a = newest := turn_unique ha hmem ht (heq ▸ hu)
  obtain ⟨x, hx⟩ := List.exists_mem_of_ne_nil b ((turns_cut source).nonempty b hb)
  have hafter := hlt t ht x hx
  rw [hturns] at hdisjoint hb
  obtain ⟨_, _, hbefore⟩ := List.pairwise_append.mp hdisjoint
  rcases List.mem_append.mp hb with hb | hb
  · have hbad := hbefore b hb newest (List.mem_singleton_self _) x hx t (hanewest ▸ ht)
    omega
  · rw [List.mem_singleton.mp hb, ← hanewest] at hx
    have hbad := hlt
    rw [List.mem_singleton.mp hb, ← hanewest] at hbad
    exact absurd (hbad t ht t ht) (Nat.lt_irrefl _)

/-- Where every turn is too long, none fits. -/
theorem fittingTurns_eq_nil (hlong : ∀ t ∈ splitIndexedTurns source,
    turnHasPolicyAnchor t = false ∧ selectionBudget target < t.length) :
    fittingTurns source target = [] := by
  rw [fittingTurns_eq]
  apply fitting_nil_of_long
  intro turn hturn
  have hmem := List.mem_reverse.mp (List.mem_of_mem_filter hturn)
  exact Nat.lt_of_lt_of_le (hlong turn hmem).2 (Nat.le_add_left _ _)

theorem newestKept_trimmed (requested : List String) (hne : source ≠ []) :
    NewestKept source (trimmedProposal source target requested) ↔
      FitsInOrder (selectionBudget target) (anchorTurns source).flatten.length
        (plainTurns source) := by
  rw [fitsInOrder_iff_kept]
  obtain ⟨kept, h, hperm, _⟩ := retainTurns_retains target hne
  obtain ⟨hindices, _⟩ := trimmed_eq requested h hperm
  have hnothing : fittingTurns source target = [] →
      (splitIndexedTurns source).Pairwise (fun older newer =>
        turnHasPolicyAnchor older = false → turnHasPolicyAnchor newer = false →
          older ∈ fittingTurns source target → newer ∈ fittingTurns source target) := by
    intro hnil
    rw [hnil]
    exact List.pairwise_of_forall (fun _ _ _ _ hmem => absurd hmem List.not_mem_nil)
  cases h with
  | turns hsome =>
    unfold NewestKept
    rw [hindices]
    constructor
    · intro hkept
      refine hkept.imp_of_mem ?_
      intro older newer holder hnewer himp hplain hplain' hfit
      rw [← mem_keptTurns_iff hnewer hplain', ← (retained_iff hnewer).2]
      apply himp hplain hplain'
      rw [(retained_iff holder).1, mem_keptTurns_iff holder hplain]
      exact hfit
    · intro hfits
      refine hfits.imp_of_mem ?_
      intro older newer holder hnewer himp hplain hplain' hretained
      rw [(retained_iff hnewer).2, mem_keptTurns_iff hnewer hplain']
      apply himp hplain hplain'
      rw [← mem_keptTurns_iff holder hplain, ← (retained_iff holder).1]
      exact hretained
  | newest _ hlast hlong hsmall =>
    refine iff_of_true (newestKept_of_newest hlast ?_) (hnothing (fittingTurns_eq_nil hlong))
    intro i hi
    rw [hindices] at hi
    exact List.mem_map.mp hi
  | tail turn hlast hlong hlarge =>
    refine iff_of_true (newestKept_of_newest hlast ?_) (hnothing (fittingTurns_eq_nil hlong))
    intro i hi
    rw [hindices] at hi
    obtain ⟨t, ht, hsame⟩ := List.mem_map.mp hi
    exact ⟨t, List.mem_of_mem_drop ht, hsame⟩

end Source

/-- The newest turns without an anchor are the ones kept exactly if the turns fit in order. -/
theorem newest_kept_iff (source : List Token) (target : ℕ) (requested : List String) :
    ∃ p, applyWindowTailStrategy source target requested = .ok p ∧
      (NewestKept source p ↔ InOrder source target) := by
  by_cases hshort : source.length ≤ requestedBudget target
  · obtain ⟨p, hp, _, hindices⟩ := everything_of_short requested hshort
    refine ⟨p, hp, iff_of_true ?_ (Or.inl hshort)⟩
    unfold NewestKept
    rw [hindices]
    refine List.Pairwise.imp_of_mem ?_ (turns_disjoint source)
    intro older newer _ hnewer _ _ _ _ t ht
    exact mem_range_of_turn hnewer ht
  · have hlong := Nat.lt_of_not_le hshort
    have hne : source ≠ [] := by
      rintro rfl
      exact hshort (Nat.zero_le _)
    refine ⟨_, apply_long requested hlong, ?_⟩
    rw [newestKept_trimmed requested hne]
    exact (or_iff_right hshort).symm

/-- Two turns, of which only the older one fits into three tokens. -/
def longNewest : List Token :=
  [bytes "<start_of_turn>user", bytes "hello", bytes "<start_of_turn>assistant", bytes "a",
    bytes "long", bytes "reply"]

theorem longNewest_passed_over : ∃ p, applyWindowTailStrategy longNewest 3 [] = .ok p ∧
    ¬NewestKept longNewest p := by
  have hlong : requestedBudget 3 < longNewest.length := by decide
  refine ⟨_, apply_long [] hlong, ?_⟩
  have hne : longNewest ≠ [] := List.cons_ne_nil _ _
  rw [newestKept_trimmed [] hne]
  intro h
  have hplain : (plainTurns longNewest).map List.length = [4, 2] := by decide +kernel
  have hanchors : (anchorTurns longNewest).flatten.length = 0 := by decide +kernel
  cases hturns : plainTurns longNewest with
  | nil =>
    rw [hturns] at hplain
    simp at hplain
  | cons newest older =>
    rw [hturns, List.map_cons] at hplain
    obtain ⟨hfour, htwo⟩ := List.cons.inj hplain
    obtain ⟨turn, hturn, hlength⟩ := List.exists_of_mem_map (htwo ▸ List.mem_singleton_self 2)
    have hfit := h [] newest older hturns (by rw [hanchors, hfour]; decide) turn hturn
    rw [hanchors, hlength] at hfit
    exact absurd hfit (by decide)

end Cusco.NewestTurns
