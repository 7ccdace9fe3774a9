import Cusco.ContextStrategy
import Mathlib.Data.List.Flatten
import Mathlib.Data.List.Pairwise

/-!
What `window_tail` keeps of a context. The tokens it returns are those of whole turns, in
order, unless no turn fits; so splitting them again gives the turns that were kept.
-/

namespace Cusco.WindowTail

open ContextStrategy

section Turns

variable {α β : Type} {boundary : α → Bool}

/-- Turns as they are gathered: a boundary only opens a turn, and opens every turn but the
first. -/
structure Cut (boundary : α → Bool) (turns : List (List α)) : Prop where
  nonempty : ∀ turn ∈ turns, turn ≠ []
  inner : ∀ turn ∈ turns, ∀ x ∈ turn.tail, boundary x = false
  opened : ∀ turn ∈ turns.tail, ∃ x rest, turn = x :: rest ∧ boundary x = true

theorem gatherTurns_flatten (xs current : List α) :
    (gatherTurns boundary xs current).flatten = current ++ xs := by
  induction xs generalizing current with
  | nil =>
    unfold gatherTurns
    by_cases hempty : current = []
    · simp [hempty]
    · simp [hempty]
  | cons x xs ih =>
    unfold gatherTurns
    split_ifs with hopens
    · rw [List.flatten_cons, ih]
      rfl
    · rw [ih, List.append_assoc]
      rfl

/-- The turn that is being gathered stays the first one. -/
theorem gatherTurns_head (xs : List α) (x : α) (current : List α) :
    ∃ more turns, gatherTurns boundary xs (x :: current) = (x :: more) :: turns := by
  induction xs generalizing current with
  | nil => exact ⟨current, [], rfl⟩
  | cons y ys ih =>
    unfold gatherTurns
    split_ifs with hopens
    · exact ⟨current, _, rfl⟩
    · exact ih (current ++ [y])

theorem gatherTurns_cut (xs current : List α)
    (hcurrent : ∀ x ∈ current.tail, boundary x = false) :
    Cut boundary (gatherTurns boundary xs current) := by
  induction xs generalizing current with
  | nil =>
    unfold gatherTurns
    by_cases hempty : current = []
    · simp only [hempty, List.isEmpty_nil, if_true]
      exact ⟨by simp, by simp, by simp⟩
    · simp only [List.isEmpty_iff, hempty, if_false]
      exact ⟨by simpa using hempty, by simpa using hcurrent, by simp⟩
  | cons x xs ih =>
    unfold gatherTurns
    split_ifs with hopens
    · simp only [Bool.and_eq_true, Bool.not_eq_true', List.isEmpty_eq_false_iff] at hopens
      have hrest := ih [x] (by simp)
      obtain ⟨more, turns, hturns⟩ : ∃ more turns,
          gatherTurns boundary xs [x] = (x :: more) :: turns := gatherTurns_head xs x []
      rw [hturns] at hrest ⊢
      refine ⟨?_, ?_, ?_⟩
      · intro turn hturn
        rcases List.mem_cons.mp hturn with rfl | hturn
        · exact hopens.2
        · exact hrest.nonempty turn hturn
      · intro turn hturn
        rcases List.mem_cons.mp hturn with rfl | hturn
        · exact hcurrent
        · exact hrest.inner turn hturn
      · intro turn hturn
        rcases List.mem_cons.mp hturn with rfl | hturn
        · exact ⟨x, more, rfl, hopens.1⟩
        · exact hrest.opened turn hturn
    · apply ih
      intro y hy
      cases current with
      | nil => simp at hy
      | cons first rest =>
        rw [List.cons_append, List.tail_cons, List.mem_append] at hy
        rcases hy with hy | hy
        · exact hcurrent y hy
        · rw [List.mem_singleton.mp hy]
          simpa using hopens

theorem gatherTurns_inner (xs ys current : List α) (h : ∀ x ∈ xs, boundary x = false) :
    gatherTurns boundary (xs ++ ys) current = gatherTurns boundary ys (current ++ xs) := by
  induction xs generalizing current with
  | nil => simp
  | cons x xs ih =>
    rw [List.cons_append, gatherTurns, h x List.mem_cons_self, Bool.false_and,
      if_neg Bool.false_ne_true, ih _ (fun y hy => h y (List.mem_cons_of_mem _ hy))]
    simp

/-- Gathering what a cut holds gives the cut back. -/
theorem gatherTurns_of_cut (turns : List (List α)) (h : Cut boundary turns) :
    gatherTurns boundary turns.flatten [] = turns := by
  have hopened : ∀ (rest : List (List α)) (current : List α), current ≠ [] →
      (∀ turn ∈ rest, ∃ x more, turn = x :: more ∧ boundary x = true) →
      (∀ turn ∈ rest, ∀ x ∈ turn.tail, boundary x = false) →
      gatherTurns boundary rest.flatten current = current :: rest := by
    intro rest
    induction rest with
    | nil =>
      intro current hcurrent _ _
      simp [gatherTurns, hcurrent]
    | cons turn rest ih =>
      intro current hcurrent hopens hinner
      obtain ⟨x, more, rfl, hx⟩ := hopens turn List.mem_cons_self
      have hmore := hinner (x :: more) List.mem_cons_self
      rw [List.flatten_cons, List.cons_append, gatherTurns, hx, Bool.true_and, if_pos (by simpa),
        gatherTurns_inner more _ _ hmore]
      rw [List.cons_append, List.nil_append, ih (x :: more) (List.cons_ne_nil x more)
        (fun turn hturn => hopens turn (List.mem_cons_of_mem _ hturn))
        (fun turn hturn => hinner turn (List.mem_cons_of_mem _ hturn))]
  cases turns with
  | nil => rfl
  | cons turn rest =>
    cases turn with
    | nil => exact absurd rfl (h.nonempty [] List.mem_cons_self)
    | cons x more =>
      have hfirst : ∀ ys, gatherTurns boundary (x :: ys) [] = gatherTurns boundary ys [x] := by
        intro ys
        simp [gatherTurns]
      rw [List.flatten_cons, List.cons_append, hfirst,
        gatherTurns_inner more _ _ (h.inner (x :: more) List.mem_cons_self)]
      exact hopened rest (x :: more) (List.cons_ne_nil x more) h.opened
        (fun turn hturn => h.inner turn (List.mem_cons_of_mem _ hturn))

theorem gatherTurns_map (f : β → α) (xs current : List β) :
    gatherTurns boundary (xs.map f) (current.map f) =
      (gatherTurns (fun x => boundary (f x)) xs current).map (List.map f) := by
  induction xs generalizing current with
  | nil =>
    simp only [List.map_nil, gatherTurns, List.isEmpty_map]
    split_ifs <;> rfl
  | cons x xs ih =>
    simp only [List.map_cons, gatherTurns, List.isEmpty_map]
    split_ifs with hopens
    · rw [List.map_cons, ← ih [x]]
      rfl
    · rw [← ih (current ++ [x]), List.map_append]
      rfl

/-- Turns may be left out of a cut. -/
theorem Cut.sublist {turns kept : List (List α)} (h : Cut boundary turns)
    (hkept : kept.Sublist turns) : Cut boundary kept where
  nonempty := fun turn hturn => h.nonempty turn (hkept.subset hturn)
  inner := fun turn hturn => h.inner turn (hkept.subset hturn)
  opened := fun turn hturn => h.opened turn (hkept.tail.subset hturn)

theorem Cut.map {f : β → α} {turns : List (List β)}
    (h : Cut (fun x => boundary (f x)) turns) : Cut boundary (turns.map (List.map f)) := by
  refine ⟨?_, ?_, ?_⟩
  · intro turn hturn
    obtain ⟨turn, hmem, rfl⟩ := List.mem_map.mp hturn
    simpa using h.nonempty turn hmem
  · intro turn hturn x hx
    obtain ⟨turn, hmem, rfl⟩ := List.mem_map.mp hturn
    rw [← List.map_tail] at hx
    obtain ⟨y, hy, rfl⟩ := List.mem_map.mp hx
    exact h.inner turn hmem y hy
  · intro turn hturn
    rw [← List.map_tail] at hturn
    obtain ⟨turn, hmem, rfl⟩ := List.mem_map.mp hturn
    obtain ⟨x, rest, rfl, hx⟩ := h.opened turn hmem
    exact ⟨f x, rest.map f, rfl, hx⟩

end Turns

section Source

variable {tokens : List Token}

/-- The tokens with their indices. -/
def indexed (tokens : List Token) : List (ℕ × Token) := tokens.zipIdx.map Prod.swap

theorem indexed_snd (tokens : List Token) : (indexed tokens).map Prod.snd = tokens := by
  unfold indexed
  rw [List.map_map]
  exact List.zipIdx_map_fst 0 tokens

theorem indexed_fst (tokens : List Token) :
    (indexed tokens).map Prod.fst = List.range tokens.length := by
  unfold indexed
  rw [List.map_map, List.range_eq_range']
  exact List.zipIdx_map_snd 0 tokens

theorem indexed_increasing (tokens : List Token) :
    (indexed tokens).Pairwise (fun a b => a.1 < b.1) := by
  have h : (List.range tokens.length).Pairwise (· < ·) := List.pairwise_lt_range
  rw [← indexed_fst] at h
  exact List.pairwise_map.mp h

theorem getElem_of_mem_indexed {x : ℕ × Token} (h : x ∈ indexed tokens) :
    tokens[x.1]? = some x.2 := by
  obtain ⟨y, hy, rfl⟩ := List.mem_map.mp h
  exact List.mem_zipIdx_iff_getElem?.mp hy

theorem turns_flatten (tokens : List Token) :
    (splitIndexedTurns tokens).flatten = indexed tokens :=
  gatherTurns_flatten (indexed tokens) []

theorem turns_cut (tokens : List Token) :
    Cut (fun t => isRoleBoundary t.2) (splitIndexedTurns tokens) :=
  gatherTurns_cut _ [] (by simp)

theorem turns_map (tokens : List Token) :
    (splitIndexedTurns tokens).map (List.map Prod.snd) = gatherTurns isRoleBoundary tokens [] := by
  have h := @gatherTurns_map _ _ isRoleBoundary Prod.snd (indexed tokens) []
  rw [indexed_snd] at h
  exact h.symm

theorem turns_length (tokens : List Token) :
    (splitIndexedTurns tokens).length = (gatherTurns isRoleBoundary tokens []).length := by
  rw [← turns_map, List.length_map]

theorem mem_indexed_of_mem_turn {turn : List (ℕ × Token)} {x : ℕ × Token}
    (hturn : turn ∈ splitIndexedTurns tokens) (hx : x ∈ turn) : x ∈ indexed tokens := by
  rw [← turns_flatten]
  exact List.mem_flatten.mpr ⟨turn, hturn, hx⟩

/-- The turns of a context share no index. -/
theorem turns_disjoint (tokens : List Token) :
    (splitIndexedTurns tokens).Pairwise (fun a b => ∀ x ∈ a, ∀ y ∈ b, x.1 < y.1) := by
  have h := indexed_increasing tokens
  rw [← turns_flatten, List.pairwise_flatten] at h
  exact h.2

theorem turn_unique {a b : List (ℕ × Token)} {x : ℕ × Token} (ha : a ∈ splitIndexedTurns tokens)
    (hb : b ∈ splitIndexedTurns tokens) (hxa : x ∈ a) (hxb : x ∈ b) : a = b := by
  by_contra hne
  have hdisjoint : (splitIndexedTurns tokens).Pairwise (fun a b => ∀ z, z ∈ a → z ∉ b) :=
    (turns_disjoint tokens).imp (fun h z hza hzb => Nat.lt_irrefl _ (h z hza z hzb))
  have hsymm : Std.Symm (fun a b : List (ℕ × Token) => ∀ z, z ∈ a → z ∉ b) :=
    ⟨fun a b h z hzb hza => h z hza hzb⟩
  exact hdisjoint.forall ha hb hne x hxa hxb

theorem turns_nodup (tokens : List Token) : (splitIndexedTurns tokens).Nodup := by
  have hpositive := (turns_cut tokens).nonempty
  refine List.Pairwise.imp_of_mem ?_ (turns_disjoint tokens)
  rintro a b ha _ hlt rfl
  obtain ⟨x, hx⟩ := List.exists_mem_of_ne_nil a (hpositive a ha)
  exact Nat.lt_irrefl _ (hlt x hx x hx)

theorem anchor_of_index {x : ℕ × Token} (hx : x ∈ indexed tokens) :
    (anchorIndices tokens).contains x.1 = isAnchor x.2 := by
  have hget := getElem_of_mem_indexed hx
  rw [Bool.eq_iff_iff, List.contains_iff_mem, anchorIndices, List.mem_map]
  constructor
  · rintro ⟨y, hy, hsame⟩
    obtain ⟨hmem, hanchor⟩ := List.mem_filter.mp hy
    have hget' := List.mem_zipIdx_iff_getElem?.mp hmem
    rw [hsame, hget] at hget'
    exact (Option.some.inj hget') ▸ hanchor
  · intro hanchor
    exact ⟨(x.2, x.1), List.mem_filter.mpr
      ⟨List.mem_zipIdx_iff_getElem?.mpr hget, hanchor⟩, rfl⟩

/-- A turn has an anchor exactly if one of its indices is an anchor's. -/
theorem anchors_of_turn {turn : List (ℕ × Token)} (hturn : turn ∈ splitIndexedTurns tokens) :
    turn.any (fun t => (anchorIndices tokens).contains t.1) = turnHasPolicyAnchor turn := by
  have hindex : ∀ x ∈ turn, (anchorIndices tokens).contains x.1 = isAnchor x.2 :=
    fun x hx => anchor_of_index (mem_indexed_of_mem_turn hturn hx)
  unfold turnHasPolicyAnchor
  rw [Bool.eq_iff_iff, List.any_eq_true, List.any_eq_true]
  constructor
  · rintro ⟨x, hx, hanchor⟩
    exact ⟨x, hx, hindex x hx ▸ hanchor⟩
  · rintro ⟨x, hx, hanchor⟩
    exact ⟨x, hx, (hindex x hx).symm ▸ hanchor⟩

end Source

section Selection

/-- Of the turns that are not marked, those that fit into what is left of the budget. -/
def fitting {α : Type} (marked : List α → Bool) (budget : ℕ) : List (List α) → ℕ → List (List α)
  | [], _ => []
  | turn :: rest, used =>
    if marked turn then fitting marked budget rest used
    else if used + turn.length > budget then fitting marked budget rest used
    else turn :: fitting marked budget rest (used + turn.length)

variable {α : Type} {marked : List α → Bool} {budget : ℕ}

theorem fitting_sublist (turns : List (List α)) (used : ℕ) :
    (fitting marked budget turns used).Sublist (turns.filter (fun turn => !marked turn)) := by
  induction turns generalizing used with
  | nil => exact List.Sublist.refl _
  | cons turn rest ih =>
    unfold fitting
    by_cases hmarked : marked turn = true
    · rw [if_pos hmarked, List.filter_cons_of_neg (by simpa using hmarked)]
      exact ih used
    · rw [if_neg hmarked, List.filter_cons_of_pos (by simpa using hmarked)]
      split_ifs with hfits
      · exact (ih used).cons turn
      · exact (ih _).cons_cons turn

/-- What fits does not exceed the budget, if anything was added at all. -/
theorem fitting_length (turns : List (List α)) (used : ℕ) :
    used + (fitting marked budget turns used).flatten.length ≤ budget ∨
      fitting marked budget turns used = [] := by
  induction turns generalizing used with
  | nil => exact Or.inr rfl
  | cons turn rest ih =>
    unfold fitting
    split_ifs with hmarked hfits
    · exact ih used
    · exact ih used
    · left
      rw [List.flatten_cons, List.length_append]
      rcases ih (used + turn.length) with hle | hnil
      · omega
      · rw [hnil, List.flatten_nil, List.length_nil]
        omega

/-- Nothing fits only if every turn that is not marked is too long. -/
theorem fitting_eq_nil (turns : List (List α)) (used : ℕ)
    (h : fitting marked budget turns used = []) :
    ∀ turn ∈ turns, marked turn = false → budget < used + turn.length := by
  induction turns with
  | nil =>
    intro turn hturn
    simp at hturn
  | cons first rest ih =>
    unfold fitting at h
    split_ifs at h with hmarked hlong
    · intro turn hturn hunmarked
      rcases List.mem_cons.mp hturn with rfl | hturn
      · rw [hmarked] at hunmarked
        simp at hunmarked
      · exact ih h turn hturn hunmarked
    · intro turn hturn hunmarked
      rcases List.mem_cons.mp hturn with rfl | hturn
      · exact hlong
      · exact ih h turn hturn hunmarked

theorem fitTurns_eq (anchors : List ℕ) (marked : List (ℕ × Token) → Bool)
    (turns : List (List (ℕ × Token))) (used : ℕ) (retained : List (ℕ × Token))
    (hmarked : ∀ turn ∈ turns, turn.any (fun t => anchors.contains t.1) = marked turn) :
    fitTurns anchors budget turns used retained =
      (used + (fitting marked budget turns used).flatten.length,
        retained ++ (fitting marked budget turns used).flatten) := by
  induction turns generalizing used retained with
  | nil => simp [fitTurns, fitting]
  | cons turn rest ih =>
    have hrest : ∀ t ∈ rest, t.any (fun t => anchors.contains t.1) = marked t :=
      fun t ht => hmarked t (List.mem_cons_of_mem _ ht)
    unfold fitTurns fitting
    rw [hmarked turn List.mem_cons_self]
    split_ifs with hanchor hlong
    · exact ih used retained hrest
    · exact ih used retained hrest
    · rw [ih _ _ hrest, List.flatten_cons, List.length_append, List.append_assoc, Nat.add_assoc]

end Selection

section Kept

variable {tokens : List Token} {target : ℕ}

def anchorTurns (tokens : List Token) : List (List (ℕ × Token)) :=
  (splitIndexedTurns tokens).filter turnHasPolicyAnchor

/-- The other turns that are kept, newest first. -/
def fittingTurns (tokens : List Token) (target : ℕ) : List (List (ℕ × Token)) :=
  fitting turnHasPolicyAnchor (selectionBudget target) (splitIndexedTurns tokens).reverse
    (anchorTurns tokens).flatten.length

/-- The turns that are kept, in order. -/
def keptTurns (tokens : List Token) (target : ℕ) : List (List (ℕ × Token)) :=
  (splitIndexedTurns tokens).filter (fun turn => turnHasPolicyAnchor turn ||
    (fittingTurns tokens target).contains turn)

theorem mem_fittingTurns {turn : List (ℕ × Token)} (h : turn ∈ fittingTurns tokens target) :
    turn ∈ splitIndexedTurns tokens ∧ turnHasPolicyAnchor turn = false := by
  have hmem := (fitting_sublist _ _).subset h
  obtain ⟨hturn, hunmarked⟩ := List.mem_filter.mp hmem
  exact ⟨List.mem_reverse.mp hturn, by simpa using hunmarked⟩

theorem keptTurns_sublist (tokens : List Token) (target : ℕ) :
    (keptTurns tokens target).Sublist (splitIndexedTurns tokens) :=
  List.filter_sublist

theorem kept_perm (tokens : List Token) (target : ℕ) :
    (anchorTurns tokens ++ fittingTurns tokens target).Perm (keptTurns tokens target) := by
  have hnodup := turns_nodup tokens
  have hfits : (fittingTurns tokens target).Nodup :=
    ((List.nodup_reverse.mpr hnodup).filter _).sublist (fitting_sublist _ _)
  have hboth : (anchorTurns tokens ++ fittingTurns tokens target).Nodup := by
    refine List.nodup_append.mpr ⟨hnodup.filter _, hfits, ?_⟩
    rintro a ha b hb rfl
    have hmarked := (List.mem_filter.mp ha).2
    rw [(mem_fittingTurns hb).2] at hmarked
    simp at hmarked
  refine (List.perm_ext_iff_of_nodup hboth (hnodup.filter _)).mpr ?_
  intro turn
  unfold anchorTurns
  rw [List.mem_append, List.mem_filter, List.mem_filter, Bool.or_eq_true, List.contains_iff_mem]
  constructor
  · rintro (⟨hturn, hanchor⟩ | hfit)
    · exact ⟨hturn, Or.inl hanchor⟩
    · exact ⟨(mem_fittingTurns hfit).1, Or.inr hfit⟩
  · rintro ⟨hturn, hanchor | hfit⟩
    · exact Or.inl ⟨hturn, hanchor⟩
    · exact Or.inr hfit

theorem increasing_of_sublist {kept : List (ℕ × Token)} (h : kept.Sublist (indexed tokens)) :
    kept.Pairwise (fun a b => a.1 < b.1) :=
  (indexed_increasing tokens).sublist h

/-- Putting the retained tokens back in order gives them as the context has them. -/
theorem sort_retained {retained kept : List (ℕ × Token)} (hkept : kept.Sublist (indexed tokens))
    (hperm : retained.Perm kept) :
    retained.mergeSort (fun a b => decide (a.1 ≤ b.1)) = kept := by
  have hincreasing := increasing_of_sublist hkept
  have hsorted := @List.pairwise_mergeSort _ (fun a b : ℕ × Token => decide (a.1 ≤ b.1))
    (fun a b c hab hbc => by simp only [decide_eq_true_eq] at *; omega)
    (fun a b => by simp only [Bool.or_eq_true, decide_eq_true_eq]; omega) retained
  have hsame := (List.mergeSort_perm retained (fun a b => decide (a.1 ≤ b.1))).trans hperm
  refine @List.Perm.eq_of_pairwise _ (fun a b => a.1 ≤ b.1) _ _ ?_ ?_ ?_ hsame
  · intro a b ha hb hab hba
    have ha' := getElem_of_mem_indexed (hkept.subset (hsame.subset ha))
    have hb' := getElem_of_mem_indexed (hkept.subset hb)
    have hindex : a.1 = b.1 := Nat.le_antisymm hab hba
    rw [hindex, hb'] at ha'
    exact Prod.ext hindex (Option.some.inj ha').symm
  · exact hsorted.imp (fun h => of_decide_eq_true h)
  · exact hincreasing.imp Nat.le_of_lt

/-- The tokens that are retained, in order: those of the turns that are kept, or of the newest
turn where no turn fits. -/
inductive Retains (tokens : List Token) (target : ℕ) : List (ℕ × Token) → Prop
  | turns (hsome : keptTurns tokens target ≠ []) :
    Retains tokens target (keptTurns tokens target).flatten
  | newest (turn : List (ℕ × Token)) (hlast : (splitIndexedTurns tokens).getLast? = some turn)
    (hlong : ∀ t ∈ splitIndexedTurns tokens, turnHasPolicyAnchor t = false ∧
      selectionBudget target < t.length)
    (hsmall : selectionBudget target < compactionBlockTokens) : Retains tokens target turn
  | tail (turn : List (ℕ × Token)) (hlast : (splitIndexedTurns tokens).getLast? = some turn)
    (hlong : ∀ t ∈ splitIndexedTurns tokens, turnHasPolicyAnchor t = false ∧
      selectionBudget target < t.length)
    (hlarge : compactionBlockTokens ≤ selectionBudget target) :
    Retains tokens target (turn.drop (turn.length - selectionBudget target))

theorem sublist_of_turn {turn : List (ℕ × Token)} (hturn : turn ∈ splitIndexedTurns tokens) :
    turn.Sublist (indexed tokens) := by
  rw [← turns_flatten]
  exact List.sublist_flatten_of_mem hturn

theorem Retains.sublist {kept : List (ℕ × Token)} (h : Retains tokens target kept) :
    kept.Sublist (indexed tokens) := by
  cases h with
  | turns hsome =>
    rw [← turns_flatten]
    exact (keptTurns_sublist tokens target).flatten
  | newest _ hlast hlong hsmall => exact sublist_of_turn (List.mem_of_getLast? hlast)
  | tail turn hlast hlong hlarge =>
    exact (List.drop_sublist _ turn).trans (sublist_of_turn (List.mem_of_getLast? hlast))

theorem flatten_eq_nil_iff_of_kept (tokens : List Token) (target : ℕ) :
    (keptTurns tokens target).flatten = [] ↔ keptTurns tokens target = [] := by
  constructor
  · intro hnil
    rw [List.flatten_eq_nil_iff] at hnil
    apply List.eq_nil_iff_forall_not_mem.mpr
    intro turn hturn
    exact (turns_cut tokens).nonempty turn ((keptTurns_sublist tokens target).subset hturn)
      (hnil turn hturn)
  · intro hnil
    rw [hnil, List.flatten_nil]

/-- Where no turn is kept, none has an anchor and none fits. -/
theorem long_of_kept_nil (h : keptTurns tokens target = []) :
    ∀ t ∈ splitIndexedTurns tokens, turnHasPolicyAnchor t = false ∧
      selectionBudget target < t.length := by
  have hperm := kept_perm tokens target
  rw [h] at hperm
  obtain ⟨hanchors, hfits⟩ := List.append_eq_nil_iff.mp hperm.eq_nil
  intro turn hturn
  have hunmarked : turnHasPolicyAnchor turn = false := by
    have hnot := List.filter_eq_nil_iff.mp hanchors turn hturn
    simpa using hnot
  refine ⟨hunmarked, ?_⟩
  have hlong := fitting_eq_nil _ _ hfits turn (List.mem_reverse.mpr hturn) hunmarked
  rw [hanchors, List.flatten_nil, List.length_nil, Nat.zero_add] at hlong
  exact hlong

/-- What the passes over the turns retain, before the newest turn is taken instead of nothing. -/
theorem fitTurns_kept (tokens : List Token) (target : ℕ) :
    fitTurns (anchorIndices tokens) (selectionBudget target) (splitIndexedTurns tokens).reverse
        (anchorTurns tokens).flatten.length (anchorTurns tokens).flatten =
      ((anchorTurns tokens).flatten.length + (fittingTurns tokens target).flatten.length,
        (anchorTurns tokens).flatten ++ (fittingTurns tokens target).flatten) :=
  fitTurns_eq _ turnHasPolicyAnchor _ _ _
    (fun _ hturn => anchors_of_turn (List.mem_reverse.mp hturn))

theorem retainTurns_of_kept
    (h : ¬(anchorTurns tokens).flatten ++ (fittingTurns tokens target).flatten = []) :
    retainTurns tokens target =
      ((anchorTurns tokens).flatten.length + (fittingTurns tokens target).flatten.length,
        (anchorTurns tokens).flatten ++ (fittingTurns tokens target).flatten) := by
  unfold retainTurns
  simp only [List.isEmpty_iff]
  rw [← anchorTurns, fitTurns_kept, if_neg h]

theorem retainTurns_of_newest {turn : List (ℕ × Token)}
    (h : (anchorTurns tokens).flatten ++ (fittingTurns tokens target).flatten = [])
    (hlast : (splitIndexedTurns tokens).getLast? = some turn) :
    retainTurns tokens target =
      if selectionBudget target < compactionBlockTokens then (turn.length, turn)
      else ((turn.drop (turn.length - selectionBudget target)).length,
        turn.drop (turn.length - selectionBudget target)) := by
  unfold retainTurns
  simp only [List.isEmpty_iff]
  rw [← anchorTurns, fitTurns_kept, if_pos h, hlast]

theorem retainTurns_retains (target : ℕ) (hne : tokens ≠ []) :
    ∃ kept, Retains tokens target kept ∧ (retainTurns tokens target).2.Perm kept ∧
      (retainTurns tokens target).1 = kept.length := by
  have hperm := (kept_perm tokens target).flatten
  rw [List.flatten_append] at hperm
  have hlength := hperm.length_eq
  rw [List.length_append] at hlength
  by_cases hnil : keptTurns tokens target = []
  · have hempty := (flatten_eq_nil_iff_of_kept tokens target).mpr hnil
    have hlong := long_of_kept_nil hnil
    rw [hempty] at hperm
    cases hlast : (splitIndexedTurns tokens).getLast? with
    | none =>
      have hnone := List.getLast?_eq_none_iff.mp hlast
      have hflatten := turns_flatten tokens
      rw [hnone] at hflatten
      have hsnd := indexed_snd tokens
      rw [← hflatten] at hsnd
      exact absurd hsnd.symm hne
    | some turn =>
      rw [retainTurns_of_newest hperm.eq_nil hlast]
      by_cases hsmall : selectionBudget target < compactionBlockTokens
      · rw [if_pos hsmall]
        exact ⟨turn, .newest turn hlast hlong hsmall, List.Perm.refl _, rfl⟩
      · rw [if_neg hsmall]
        exact ⟨_, .tail turn hlast hlong (Nat.le_of_not_lt hsmall), List.Perm.refl _, rfl⟩
  · have hsome : ¬(anchorTurns tokens).flatten ++ (fittingTurns tokens target).flatten = [] := by
      intro happend
      rw [happend] at hperm
      exact hnil ((flatten_eq_nil_iff_of_kept tokens target).mp hperm.symm.eq_nil)
    rw [retainTurns_of_kept hsome]
    exact ⟨_, .turns hnil, hperm, hlength⟩

end Kept

end Cusco.WindowTail
