import Mathlib.Data.List.Infix
import Mathlib.Data.Nat.Notation

/-!
Words with markers in them. The first letter of a marker occurs nowhere else in it, so two
occurrences never overlap, and none begins in one word and ends in the next if that one begins
with a letter that has no place inside the marker.
-/

namespace Cusco.Markers

variable {α : Type}

section Splits

/-- The first letter of the marker occurs nowhere else in it. -/
def IsMarker (marker : List α) : Prop := ∃ c more, marker = c :: more ∧ c ∉ more

/-- A prefix does not reach beyond a letter that it does not have. -/
theorem prefix_append_iff {more a b : List α} (hb : ∀ d ∈ b.head?, d ∉ more) :
    more <+: a ++ b ↔ more <+: a := by
  constructor
  · intro h
    induction more generalizing a with
    | nil => exact List.nil_prefix
    | cons c more ih =>
      cases a with
      | nil =>
        obtain ⟨t, rfl⟩ := h
        exact absurd List.mem_cons_self (hb c rfl)
      | cons d a =>
        obtain ⟨rfl, hrest⟩ := List.cons_prefix_cons.mp h
        have hmore := ih (fun d hd hmem => hb d hd (List.mem_cons_of_mem _ hmem)) hrest
        exact List.cons_prefix_cons.mpr ⟨rfl, hmore⟩
  · intro h
    exact h.trans (List.prefix_append a b)

/-- A word without the marker ends where the marker first begins. -/
theorem not_prefix_of_split {marker b r t : List α} (hmarker : IsMarker marker) {d : α}
    (hb : ¬marker <:+: d :: b) (h : marker ++ r = d :: b ++ (marker ++ t)) : False := by
  obtain ⟨c, more, rfl, hc⟩ := hmarker
  obtain ⟨rfl, hrest⟩ := List.cons.inj h
  have hstarts : more <+: b ++ (c :: more ++ t) := ⟨r, hrest⟩
  have hinside : ∀ e ∈ (c :: more ++ t).head?, e ∉ more := by
    intro e he
    cases he
    exact hc
  have hmore : more <+: b := (prefix_append_iff hinside).mp hstarts
  exact hb (List.cons_prefix_cons.mpr ⟨rfl, hmore⟩).isInfix

/-- A word is split in one way at the marker after a part without it. -/
theorem split_unique {marker a b r t : List α} (hmarker : IsMarker marker)
    (ha : ¬marker <:+: a) (hb : ¬marker <:+: b) (h : a ++ (marker ++ r) = b ++ (marker ++ t)) :
    a = b ∧ r = t := by
  induction a generalizing b with
  | nil =>
    cases b with
    | nil => exact ⟨rfl, List.append_cancel_left h⟩
    | cons d b => exact (not_prefix_of_split hmarker hb h).elim
  | cons d a ih =>
    cases b with
    | nil => exact (not_prefix_of_split hmarker ha h.symm).elim
    | cons e b =>
      obtain ⟨rfl, hrest⟩ := List.cons.inj h
      have ha' : ¬marker <:+: a := fun hin => ha (hin.trans (List.suffix_cons d a).isInfix)
      have hb' : ¬marker <:+: b := fun hin => hb (hin.trans (List.suffix_cons d b).isInfix)
      obtain ⟨rfl, hsame⟩ := ih ha' hb' hrest
      exact ⟨rfl, hsame⟩

end Splits

section Counts

variable [DecidableEq α]

/-- At how many positions the pattern occurs. -/
def occurrences (pattern : List α) : List α → ℕ
  | [] => if pattern.isEmpty then 1 else 0
  | c :: rest => (if pattern.isPrefixOf (c :: rest) then 1 else 0) + occurrences pattern rest

theorem occurrences_eq_zero_iff {pattern : List α} (hne : pattern ≠ []) (s : List α) :
    occurrences pattern s = 0 ↔ ¬pattern <:+: s := by
  induction s with
  | nil =>
    have hempty : pattern.isEmpty = false := List.isEmpty_eq_false_iff.mpr hne
    simp [occurrences, hempty, hne]
  | cons c s ih =>
    unfold occurrences
    rw [List.infix_cons_iff, not_or, ← ih, ← List.isPrefixOf_iff_prefix]
    by_cases hstarts : pattern.isPrefixOf (c :: s) = true
    · simp [hstarts]
    · simp [hstarts]

theorem occurrences_cons_ne {c d : α} {more : List α} (hne : d ≠ c) (s : List α) :
    occurrences (c :: more) (d :: s) = occurrences (c :: more) s := by
  have hstarts : List.isPrefixOf (c :: more) (d :: s) = false := by
    rw [List.isPrefixOf_cons_cons, beq_false_of_ne (Ne.symm hne), Bool.false_and]
  simp [occurrences, hstarts]

/-- Occurrences are counted word by word where no word begins with a letter from inside of the
marker. -/
theorem occurrences_append {c : α} {more a b : List α} (hb : ∀ d ∈ b.head?, d ∉ more) :
    occurrences (c :: more) (a ++ b) = occurrences (c :: more) a + occurrences (c :: more) b := by
  induction a with
  | nil => simp [occurrences]
  | cons d a ih =>
    have hsame : List.isPrefixOf (c :: more) (d :: (a ++ b)) =
        List.isPrefixOf (c :: more) (d :: a) := by
      rw [Bool.eq_iff_iff, List.isPrefixOf_iff_prefix, List.isPrefixOf_iff_prefix,
        List.cons_prefix_cons, List.cons_prefix_cons, prefix_append_iff hb]
    rw [List.cons_append, occurrences, occurrences, hsame, ih]
    omega

end Counts

end Cusco.Markers
