import Cusco.ExpressibleValues
import Cusco.ScalarRules

/-!
The scalar rules leave no value of their types out: they derive every text of a number, and a text
for every string whose code units have sixteen bits.
-/

namespace Cusco.ScalarTexts

open Characters Gbnf JsonTexts JsonPrinting ScalarRules ExpressibleValues

variable {rules : Rules}

section Strings

theorem hexDigit_digitChar : ∀ n < 16, hexDigit (Nat.digitChar n) = some n ∧
    hexChars.has (Nat.digitChar n) = true := by
  decide

theorem derives_hex {a b c d : Char} (ha : hexChars.has a = true) (hb : hexChars.has b = true)
    (hc : hexChars.has c = true) (hd : hexChars.has d = true) :
    Derives rules characterExpr ['\\', 'u', a, b, c, d] := by
  simp only [characterExpr, escapeExpr, derives_alt_iff, derives_sequence_cons_iff,
    derives_sequence_nil_iff, derives_text_iff, derives_chars_iff]
  exact Or.inr ⟨_, _, rfl, ⟨_, _, Or.inr ⟨_, _, rfl, ⟨_, _, ⟨a, ha, rfl⟩, ⟨_, _, ⟨b, hb, rfl⟩,
    ⟨_, _, ⟨c, hc, rfl⟩, ⟨_, _, ⟨d, hd, rfl⟩, rfl, rfl⟩, rfl⟩, rfl⟩, rfl⟩, rfl⟩, rfl, rfl⟩, rfl⟩

theorem derives_escape {e : Char} (he : escapeChars.has e = true) :
    Derives rules characterExpr ['\\', e] := by
  simp only [characterExpr, escapeExpr, derives_alt_iff, derives_sequence_cons_iff,
    derives_sequence_nil_iff, derives_text_iff, derives_chars_iff]
  exact Or.inr ⟨_, _, rfl, ⟨_, _, Or.inl ⟨_, _, ⟨e, he, rfl⟩, rfl, rfl⟩, rfl, rfl⟩, rfl⟩

theorem derives_plain {c : Char} (hc : plainChars.has c = true) :
    Derives rules characterExpr [c] := by
  simp only [characterExpr, derives_alt_iff, derives_sequence_cons_iff,
    derives_sequence_nil_iff, derives_chars_iff]
  exact Or.inl ⟨_, _, ⟨c, hc, rfl⟩, rfl, rfl⟩

/-- Characters between quotes. -/
theorem derives_string {pieces : List (List Char)}
    (h : ∀ piece ∈ pieces, Derives rules characterExpr piece) :
    Derives rules stringExpr ('"' :: pieces.flatten ++ ['"']) := by
  simp only [stringExpr, derives_sequence_cons_iff, derives_sequence_nil_iff, derives_text_iff,
    derives_any_iff]
  exact ⟨_, _, rfl, ⟨_, _, ⟨pieces, h, rfl⟩, ⟨_, _, rfl, rfl, rfl⟩, rfl⟩, rfl⟩

/-- A code unit as four hexadecimal digits. -/
def hexPiece (unit : ℕ) : List Char :=
  ['\\', 'u', Nat.digitChar (unit / 0x1000), Nat.digitChar (unit / 0x100 % 16),
    Nat.digitChar (unit / 0x10 % 16), Nat.digitChar (unit % 16)]

theorem derives_hexPiece {unit : ℕ} (h : unit < 0x10000) :
    Derives rules characterExpr (hexPiece unit) :=
  derives_hex (hexDigit_digitChar _ (by omega)).2 (hexDigit_digitChar _ (by omega)).2
    (hexDigit_digitChar _ (by omega)).2 (hexDigit_digitChar _ (by omega)).2

theorem hexUnit_hexPiece {unit : ℕ} (h : unit < 0x10000) :
    hexUnit (Nat.digitChar (unit / 0x1000)) (Nat.digitChar (unit / 0x100 % 16))
      (Nat.digitChar (unit / 0x10 % 16)) (Nat.digitChar (unit % 16)) = some unit := by
  simp only [hexUnit, (hexDigit_digitChar (unit / 0x1000) (by omega)).1,
    (hexDigit_digitChar (unit / 0x100 % 16) (by omega)).1,
    (hexDigit_digitChar (unit / 0x10 % 16) (by omega)).1,
    (hexDigit_digitChar (unit % 16) (by omega)).1, Option.some.injEq]
  omega

theorem unitsText_hexPieces {units : List ℕ} (h : IsUnits units) :
    UnitsText (units.map hexPiece).flatten units := by
  induction units with
  | nil => exact .nil
  | cons unit units ih =>
    have hunit := hexUnit_hexPiece (h unit List.mem_cons_self)
    exact .hex _ _ _ _ unit _ units hunit (ih (fun u hu => h u (List.mem_cons_of_mem unit hu)))

/-- A text for every string. -/
theorem exists_string {units : List ℕ} (h : IsUnits units) :
    ∃ inside, Derives rules stringExpr ('"' :: inside ++ ['"']) ∧ UnitsText inside units := by
  refine ⟨(units.map hexPiece).flatten, derives_string ?_, unitsText_hexPieces h⟩
  intro piece hpiece
  obtain ⟨unit, hunit, rfl⟩ := List.mem_map.mp hpiece
  exact derives_hexPiece (h unit hunit)

end Strings

section Printed

/-- The character that the rule of strings wants escaped and that printing leaves as it is. -/
def delete : Char := Char.ofNat 0x7F

theorem plain_of {c : Char} (hquote : c ≠ '"') (hslash : c ≠ '\\') (hdelete : c ≠ delete)
    (hlow : 0x20 ≤ c.toNat) : plainChars.has c = true := by
  have hcontrol : ¬c ≤ Char.ofNat 0x1F := by
    intro hle
    have hnat : c.toNat ≤ 0x1F := hle
    omega
  have hsingle : ∀ d, c ≠ d → (decide (d ≤ c) && decide (c ≤ d)) = false := by
    intro d hne
    rw [Bool.and_eq_false_iff, decide_eq_false_iff_not, decide_eq_false_iff_not]
    by_contra hboth
    rw [not_or, not_not, not_not] at hboth
    exact hne (Char.le_antisymm hboth.2 hboth.1)
  simp only [plainChars, CharSet.has, List.any_cons, List.any_nil, hsingle '"' hquote,
    hsingle '\\' hslash, hsingle (Char.ofNat 0x7F) hdelete, decide_eq_false hcontrol,
    Bool.and_false, Bool.or_false]
  rfl

theorem derives_escapeChar {c : Char} (h : c ≠ delete) :
    Derives rules characterExpr (escapeChar c) := by
  unfold escapeChar
  split_ifs with hquote hslash hb hf hn hr ht hlow
  · exact derives_escape rfl
  · exact derives_escape rfl
  · exact derives_escape rfl
  · exact derives_escape rfl
  · exact derives_escape rfl
  · exact derives_escape rfl
  · exact derives_escape rfl
  · exact derives_hex rfl rfl (hexDigit_digitChar _ (by omega)).2
      (hexDigit_digitChar _ (by omega)).2
  · exact derives_plain (plain_of hquote hslash h (Nat.le_of_not_lt hlow))

/-- A string is derived as it is printed unless it holds the one character. -/
theorem derives_printString {s : String} (h : delete ∉ s.toList) :
    Derives rules stringExpr (printString s) := by
  unfold printString
  rw [List.flatMap_def]
  apply derives_string
  intro piece hpiece
  obtain ⟨c, hc, rfl⟩ := List.mem_map.mp hpiece
  exact derives_escapeChar (ne_of_mem_of_not_mem hc h)

theorem mem_printString {s : String} (h : delete ∈ s.toList) : delete ∈ printString s := by
  have hescaped : delete ∈ escapeChar delete := by decide
  exact List.mem_append_left _ (List.mem_cons_of_mem _ (List.mem_flatMap.mpr ⟨_, h, hescaped⟩))

end Printed

section Numbers

theorem derives_each {ds : List Char} (h : ds.all Char.isDigit = true) :
    ∀ piece ∈ ds.map (fun c => [c]), Derives rules digit piece := by
  intro piece hpiece
  obtain ⟨c, hc, rfl⟩ := List.mem_map.mp hpiece
  exact .chars _ c ((digit_iff c).mpr (List.all_eq_true.mp h c hc))

theorem flatten_each (ds : List Char) : (ds.map (fun c => [c])).flatten = ds := by
  induction ds with
  | nil => rfl
  | cons c ds ih => rw [List.map_cons, List.flatten_cons, ih, List.singleton_append]

theorem derives_digits {ds : List Char} (h : IsDigits ds) :
    Derives rules (.repeated digit 1 none) ds := by
  refine (derives_repeated_iff _ _ _).mpr ⟨_, ⟨?_, ?_⟩, derives_each h.2, (flatten_each ds).symm⟩
  · rw [List.length_map]
    exact List.length_pos_of_ne_nil h.1
  · exact fun m hm => absurd hm (by simp)

theorem nonzero_of {c : Char} (hdigit : c.isDigit = true) (hzero : c ≠ '0') :
    (CharSet.mk false [('1', '9')]).has c = true := by
  have hin := (digit_iff c).mpr hdigit
  unfold CharSet.has at hin ⊢
  simp only [List.any_cons, List.any_nil, Bool.or_false, Bool.bne_false, Bool.and_eq_true,
    decide_eq_true_eq] at hin ⊢
  refine ⟨?_, hin.2⟩
  have hle : '0'.toNat ≤ c.toNat := hin.1
  have hne : c.toNat ≠ '0'.toNat := fun h => hzero (Char.toNat_inj.mp h)
  have hone : '1'.toNat = '0'.toNat + 1 := rfl
  have hlt : '1'.toNat ≤ c.toNat := by omega
  exact hlt

theorem derives_natural {int : List Char} (h : IsInt int) : Derives rules naturalExpr int := by
  simp only [naturalExpr, derives_alt_iff, derives_sequence_cons_iff, derives_sequence_nil_iff,
    derives_chars_iff]
  rcases h with rfl | ⟨⟨hne, hall⟩, hhead⟩
  · exact Or.inl ⟨_, _, .chars _ '0' (by decide), rfl, rfl⟩
  · cases int with
    | nil => exact absurd rfl hne
    | cons c ds =>
      rw [List.all_cons, Bool.and_eq_true] at hall
      have hzero : c ≠ '0' := fun h => hhead (h ▸ rfl)
      have hrest : Derives rules (.repeated digit 0 none) ds :=
        (derives_any_iff _).mpr ⟨_, derives_each hall.2, (flatten_each ds).symm⟩
      exact Or.inr ⟨[c], ds, ⟨c, nonzero_of hall.1 hzero, rfl⟩,
        ⟨ds, [], hrest, rfl, (List.append_nil ds).symm⟩, rfl⟩

theorem derives_fraction {s ds : List Char} (h : FracText s ds) :
    Derives rules (.repeated fractionExpr 0 (some 1)) s := by
  simp only [fractionExpr, derives_optional_iff, derives_sequence_cons_iff,
    derives_sequence_nil_iff, derives_text_iff]
  cases h with
  | none => exact Or.inl rfl
  | some _ hds =>
    exact Or.inr ⟨['.'], ds, rfl, ⟨ds, [], derives_digits hds, rfl, (List.append_nil ds).symm⟩, rfl⟩

theorem derives_exponent {s : List Char} {e : ℤ} (h : ExpText s e) :
    Derives rules (.repeated exponentExpr 0 (some 1)) s := by
  simp only [exponentExpr, derives_optional_iff, derives_sequence_cons_iff,
    derives_sequence_nil_iff, derives_chars_iff, CharSet.has_of_iff]
  have hletter : ∀ c, c = 'e' ∨ c = 'E' → c ∈ ['e', 'E'] := by simp
  cases h with
  | none => exact Or.inl rfl
  | unsigned c hc ds hds =>
    exact Or.inr ⟨[c], ds, ⟨c, hletter c hc, rfl⟩, ⟨[], ds, Or.inl rfl,
      ⟨ds, [], derives_digits hds, rfl, (List.append_nil ds).symm⟩, rfl⟩, rfl⟩
  | plus c hc ds hds =>
    exact Or.inr ⟨[c], '+' :: ds, ⟨c, hletter c hc, rfl⟩, ⟨['+'], ds, Or.inr ⟨'+', by decide, rfl⟩,
      ⟨ds, [], derives_digits hds, rfl, (List.append_nil ds).symm⟩, rfl⟩, rfl⟩
  | minus c hc ds hds =>
    exact Or.inr ⟨[c], '-' :: ds, ⟨c, hletter c hc, rfl⟩, ⟨['-'], ds, Or.inr ⟨'-', by decide, rfl⟩,
      ⟨ds, [], derives_digits hds, rfl, (List.append_nil ds).symm⟩, rfl⟩, rfl⟩

theorem derives_minus (negative : Bool) :
    Derives rules minusExpr (if negative then ['-'] else []) := by
  simp only [minusExpr, derives_optional_iff, derives_text_iff]
  cases negative with
  | true => exact Or.inr rfl
  | false => exact Or.inl rfl

theorem derives_unsigned {s : List Char} {q : ℚ} (h : UnsignedText s q) (negative : Bool) :
    Derives rules numberExpr ((if negative then ['-'] else []) ++ s) := by
  simp only [numberExpr, derives_sequence_cons_iff, derives_sequence_nil_iff]
  cases h with
  | mk int frac exp digits e hint hfrac hexp =>
    exact ⟨_, _, derives_minus negative, ⟨int, _, derives_natural hint, ⟨frac, _,
      derives_fraction hfrac, ⟨exp, [], derives_exponent hexp, rfl, (List.append_nil exp).symm⟩,
      rfl⟩, rfl⟩, rfl⟩

/-- Every text of a number is derived. -/
theorem derives_number {s : List Char} {q : ℚ} (h : NumberText s q) :
    Derives rules numberExpr s := by
  cases h with
  | positive _ _ h => exact derives_unsigned h false
  | negative s _ h => exact derives_unsigned h true

theorem derives_printInt (n : ℤ) : Derives rules integerExpr (printInt n) := by
  have hdigits : Derives rules naturalExpr (Nat.toDigits 10 n.natAbs) :=
    derives_natural (isInt_toDigits n.natAbs)
  simp only [integerExpr, derives_sequence_cons_iff, derives_sequence_nil_iff]
  unfold printInt
  split_ifs
  · exact ⟨['-'], _, derives_minus true, ⟨_, [], hdigits, rfl, (List.append_nil _).symm⟩, rfl⟩
  · exact ⟨[], _, derives_minus false, ⟨_, [], hdigits, rfl, (List.append_nil _).symm⟩, rfl⟩

end Numbers

section Words

theorem derives_boolean (b : Bool) :
    Derives rules booleanExpr (if b then "true".toList else "false".toList) := by
  simp only [booleanExpr, derives_alt_iff, derives_sequence_cons_iff, derives_sequence_nil_iff,
    derives_text_iff]
  cases b with
  | true => exact Or.inl ⟨_, _, rfl, rfl, rfl⟩
  | false => exact Or.inr ⟨_, _, rfl, rfl, rfl⟩

theorem derives_null : Derives rules nullExpr "null".toList := by
  simp only [nullExpr, derives_sequence_cons_iff, derives_sequence_nil_iff, derives_text_iff]
  exact ⟨_, _, rfl, rfl, rfl⟩

end Words

end Cusco.ScalarTexts
