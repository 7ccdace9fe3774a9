import Mathlib.Data.List.Basic
import Mathlib.Data.Nat.Notation

/-!
Classes of characters as grammars have them, and hexadecimal digits.
-/

namespace Cusco.Characters

/-- A class of characters: those of the ranges or, negated, all the others. -/
structure CharSet where
  negated : Bool
  ranges : List (Char × Char)
  deriving DecidableEq

def CharSet.has (set : CharSet) (c : Char) : Bool :=
  set.ranges.any (fun range => decide (range.1 ≤ c) && decide (c ≤ range.2)) != set.negated

/-- The class of these characters. -/
def CharSet.of (cs : List Char) : CharSet := ⟨false, cs.map (fun c => (c, c))⟩

theorem CharSet.has_of_iff (cs : List Char) (c : Char) :
    (CharSet.of cs).has c = true ↔ c ∈ cs := by
  unfold CharSet.has CharSet.of
  simp only [List.any_map, Bool.bne_false, List.any_eq_true, Function.comp_apply,
    Bool.and_eq_true, decide_eq_true_eq]
  constructor
  · rintro ⟨d, hd, hle, hge⟩
    exact Char.le_antisymm hge hle ▸ hd
  · intro hc
    exact ⟨c, hc, Char.le_refl c, Char.le_refl c⟩

section Hexadecimal

def hexDigit (c : Char) : Option ℕ :=
  if '0' ≤ c ∧ c ≤ '9' then some (c.toNat - '0'.toNat)
  else if 'a' ≤ c ∧ c ≤ 'f' then some (c.toNat - 'a'.toNat + 10)
  else if 'A' ≤ c ∧ c ≤ 'F' then some (c.toNat - 'A'.toNat + 10)
  else none

/-- The class of the hexadecimal digits. -/
def hexChars : CharSet := ⟨false, [('0', '9'), ('a', 'f'), ('A', 'F')]⟩

theorem hexDigit_isSome {c : Char} (hc : hexChars.has c = true) :
    ∃ digit, hexDigit c = some digit := by
  simp only [hexChars, CharSet.has, List.any_cons, List.any_nil, Bool.or_false, Bool.bne_false,
    Bool.or_eq_true, Bool.and_eq_true, decide_eq_true_eq] at hc
  unfold hexDigit
  rcases hc with hc | hc | hc
  · exact ⟨_, if_pos hc⟩
  · split_ifs
    · exact ⟨_, rfl⟩
    · exact ⟨_, rfl⟩
  · split_ifs
    · exact ⟨_, rfl⟩
    · exact ⟨_, rfl⟩
    · exact ⟨_, rfl⟩

end Hexadecimal

end Cusco.Characters
