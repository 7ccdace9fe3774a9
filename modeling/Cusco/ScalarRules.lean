import Cusco.GbnfTexts
import Cusco.SchemaGrammars

/-!
The rules that every schema grammar has: white space and the scalar types. What the rule of a
type derives is the text of a value of that type.
-/

namespace Cusco.ScalarRules

open Characters Gbnf GbnfTexts JsonTexts SchemaGrammars

variable {s : List Char}

section Rules

def digit : Expr := .chars ⟨false, [('0', '9')]⟩

def plainChars : CharSet :=
  ⟨true, [('"', '"'), ('\\', '\\'), (Char.ofNat 0x7F, Char.ofNat 0x7F),
    (Char.ofNat 0, Char.ofNat 0x1F)]⟩

def escapeChars : CharSet := .of ['"', '\\', '/', 'b', 'f', 'n', 'r', 't']

def spaceExpr : Expr :=
  .alt (.alt (.text []) (.sequence [.text [' ']]))
    (.sequence [.text ['\n'], .repeated (.chars (.of [' ', '\t'])) 0 (some 20)])

def escapeExpr : Expr :=
  .alt (.sequence [.chars escapeChars])
    (.sequence [.text ['u'], .chars hexChars, .chars hexChars, .chars hexChars, .chars hexChars])

def characterExpr : Expr :=
  .alt (.sequence [.chars plainChars]) (.sequence [.text ['\\'], escapeExpr])

def stringExpr : Expr := .sequence [.text ['"'], .repeated characterExpr 0 none, .text ['"']]

def minusExpr : Expr := .repeated (.text ['-']) 0 (some 1)

def naturalExpr : Expr :=
  .alt (.sequence [digit]) (.sequence [.chars ⟨false, [('1', '9')]⟩, .repeated digit 0 none])

def fractionExpr : Expr := .sequence [.text ['.'], .repeated digit 1 none]

def exponentExpr : Expr :=
  .sequence [.chars (.of ['e', 'E']), .repeated (.chars (.of ['+', '-'])) 0 (some 1),
    .repeated digit 1 none]

def integerExpr : Expr := .sequence [minusExpr, naturalExpr]

def numberExpr : Expr :=
  .sequence [minusExpr, naturalExpr, .repeated fractionExpr 0 (some 1),
    .repeated exponentExpr 0 (some 1)]

def booleanExpr : Expr :=
  .alt (.sequence [.text "true".toList]) (.sequence [.text "false".toList])

def nullExpr : Expr := .sequence [.text "null".toList]

/-- What the callers append. -/
def appended : Rules :=
  [("json-string".toList, stringExpr), ("integer".toList, integerExpr),
    ("number".toList, numberExpr), ("boolean".toList, booleanExpr), ("null".toList, nullExpr)]

theorem spells_space (rs : Rules) (rest : List Char) :
    (Reading.mk rs .between).read .plain (spaceRule ++ '\n' :: rest) =
      (Reading.mk (rs ++ [("space".toList, spaceExpr)]) .between).read .plain rest := by
  rfl

theorem spells_string (rs : Rules) :
    Spells ⟨rs, .between⟩ stringRule ⟨rs ++ [("json-string".toList, stringExpr)], .between⟩ := by
  intro rest
  rfl

theorem spells_integer (rs : Rules) :
    Spells ⟨rs, .between⟩ integerRule ⟨rs ++ [("integer".toList, integerExpr)], .between⟩ := by
  intro rest
  rfl

theorem spells_number (rs : Rules) :
    Spells ⟨rs, .between⟩ numberRule ⟨rs ++ [("number".toList, numberExpr)], .between⟩ := by
  intro rest
  rfl

theorem spells_boolean (rs : Rules) :
    Spells ⟨rs, .between⟩ booleanRule ⟨rs ++ [("boolean".toList, booleanExpr)], .between⟩ := by
  intro rest
  rfl

theorem spells_null (rs : Rules) :
    Spells ⟨rs, .between⟩ nullRule ⟨rs ++ [("null".toList, nullExpr)], .between⟩ := by
  intro rest
  rfl

end Rules

section Strings

theorem plain_iff {c : Char} (hc : plainChars.has c = true) :
    c ≠ '"' ∧ c ≠ '\\' ∧ 0x20 ≤ c.toNat := by
  refine ⟨?_, ?_, ?_⟩
  · rintro rfl
    exact absurd hc (by decide)
  · rintro rfl
    exact absurd hc (by decide)
  · by_contra hlow
    have hin : (Char.ofNat 0 ≤ c) ∧ (c ≤ Char.ofNat 0x1F) := by
      refine ⟨Nat.zero_le _, ?_⟩
      have hle : c.toNat ≤ 0x1F := by omega
      exact hle
    simp only [plainChars, CharSet.has, List.any_cons, List.any_nil, decide_eq_true hin.1,
      decide_eq_true hin.2, Bool.and_true, Bool.or_true, Bool.true_or, bne_self_eq_false,
      Bool.false_eq_true] at hc

theorem escaped_isSome {c : Char} (hc : escapeChars.has c = true) : ∃ d, escaped c = some d := by
  have hmem := (CharSet.has_of_iff _ c).mp hc
  simp only [List.mem_cons, List.not_mem_nil, or_false] at hmem
  rcases hmem with rfl | rfl | rfl | rfl | rfl | rfl | rfl | rfl
  all_goals exact ⟨_, rfl⟩

/-- A character of a string goes before any others. -/
theorem unitsText_character {piece : List Char} (h : Derives [] characterExpr piece)
    {units : List ℕ} (hs : UnitsText s units) : ∃ units', UnitsText (piece ++ s) units' := by
  simp only [characterExpr, escapeExpr, derives_alt_iff, derives_sequence_cons_iff,
    derives_sequence_nil_iff, derives_text_iff, derives_chars_iff] at h
  rcases h with ⟨_, _, ⟨c, hc, rfl⟩, rfl, rfl⟩ | ⟨_, _, rfl, ⟨_, _, h, rfl, rfl⟩, rfl⟩
  · obtain ⟨hquote, hslash, hlow⟩ := plain_iff hc
    exact ⟨_, UnitsText.char c s units hquote hslash hlow hs⟩
  · rcases h with ⟨_, _, ⟨c, hc, rfl⟩, rfl, rfl⟩ |
      ⟨_, _, rfl, ⟨_, _, ⟨c₁, h₁, rfl⟩, ⟨_, _, ⟨c₂, h₂, rfl⟩, ⟨_, _, ⟨c₃, h₃, rfl⟩,
        ⟨_, _, ⟨c₄, h₄, rfl⟩, rfl, rfl⟩, rfl⟩, rfl⟩, rfl⟩, rfl⟩
    · obtain ⟨d, hd⟩ := escaped_isSome hc
      exact ⟨_, UnitsText.escape c d s units hd hs⟩
    · obtain ⟨d₁, h₁⟩ := hexDigit_isSome h₁
      obtain ⟨d₂, h₂⟩ := hexDigit_isSome h₂
      obtain ⟨d₃, h₃⟩ := hexDigit_isSome h₃
      obtain ⟨d₄, h₄⟩ := hexDigit_isSome h₄
      have hunit : hexUnit c₁ c₂ c₃ c₄ = some (((d₁ * 16 + d₂) * 16 + d₃) * 16 + d₄) := by
        simp only [hexUnit, h₁, h₂, h₃, h₄]
      exact ⟨_, UnitsText.hex c₁ c₂ c₃ c₄ _ s units hunit hs⟩

/-- What the rule of strings derives is the inside of a string between quotes. -/
theorem string_units (h : Derives [] stringExpr s) :
    ∃ inside units, s = '"' :: inside ++ ['"'] ∧ UnitsText inside units := by
  simp only [stringExpr, derives_sequence_cons_iff, derives_sequence_nil_iff, derives_text_iff,
    derives_any_iff] at h
  obtain ⟨_, _, rfl, ⟨_, _, ⟨pieces, hpieces, rfl⟩, ⟨_, _, rfl, rfl, rfl⟩, rfl⟩, rfl⟩ := h
  have hunits : ∃ units, UnitsText pieces.flatten units := by
    induction pieces with
    | nil => exact ⟨[], UnitsText.nil⟩
    | cons piece pieces ih =>
      obtain ⟨units, hunits⟩ := ih (fun p hp => hpieces p (List.mem_cons_of_mem piece hp))
      exact unitsText_character (hpieces piece List.mem_cons_self) hunits
  obtain ⟨units, hunits⟩ := hunits
  exact ⟨pieces.flatten, units, rfl, hunits⟩

theorem string_text (h : Derives [] stringExpr s) : ∃ units, IsText s (.string units) := by
  obtain ⟨inside, units, rfl, hunits⟩ := string_units h
  exact ⟨units, isText_string hunits⟩

end Strings

section Numbers

theorem digit_iff (c : Char) : (CharSet.mk false [('0', '9')]).has c = true ↔ c.isDigit = true := by
  unfold CharSet.has Char.isDigit
  simp only [List.any_cons, List.any_nil, Bool.or_false, Bool.bne_false, Bool.and_eq_true,
    decide_eq_true_eq]
  rfl

theorem nonzero_digit {c : Char} (hc : (CharSet.mk false [('1', '9')]).has c = true) :
    c.isDigit = true ∧ c ≠ '0' := by
  have hne : c ≠ '0' := by
    rintro rfl
    exact absurd hc (by decide)
  refine ⟨(digit_iff c).mp ?_, hne⟩
  unfold CharSet.has at hc ⊢
  simp only [List.any_cons, List.any_nil, Bool.or_false, Bool.bne_false, Bool.and_eq_true,
    decide_eq_true_eq] at hc ⊢
  exact ⟨Char.le_trans (by decide) hc.1, hc.2⟩

theorem digits_flatten {pieces : List (List Char)} (h : ∀ p ∈ pieces, Derives [] digit p) :
    pieces.flatten.all Char.isDigit = true ∧ pieces.flatten.length = pieces.length := by
  induction pieces with
  | nil => exact ⟨rfl, rfl⟩
  | cons piece pieces ih =>
    obtain ⟨hall, hlength⟩ := ih (fun p hp => h p (List.mem_cons_of_mem piece hp))
    obtain ⟨c, hc, rfl⟩ := (derives_chars_iff _).mp (h piece List.mem_cons_self)
    have hdigit := (digit_iff c).mp hc
    constructor
    · rw [List.flatten_cons, List.singleton_append, List.all_cons, hdigit, hall]
      rfl
    · rw [List.flatten_cons, List.singleton_append, List.length_cons, List.length_cons, hlength]

theorem isDigits_some (h : Derives [] (.repeated digit 1 none) s) : IsDigits s := by
  obtain ⟨pieces, hcount, hpieces, rfl⟩ := (derives_repeated_iff _ _ _).mp h
  obtain ⟨hall, hlength⟩ := digits_flatten hpieces
  refine ⟨?_, hall⟩
  intro hnil
  rw [hnil] at hlength
  have hone := hcount.1
  rw [← hlength] at hone
  exact absurd hone (by decide)

theorem isInt_natural (h : Derives [] naturalExpr s) : IsInt s := by
  simp only [naturalExpr, digit, derives_alt_iff, derives_sequence_cons_iff,
    derives_sequence_nil_iff, derives_chars_iff] at h
  rcases h with ⟨_, _, ⟨c, hc, rfl⟩, rfl, rfl⟩ | ⟨_, _, ⟨c, hc, rfl⟩, ⟨_, _, h, rfl, rfl⟩, rfl⟩
  · have hdigit := (digit_iff c).mp hc
    by_cases hzero : c = '0'
    · exact Or.inl (hzero ▸ rfl)
    · right
      refine ⟨⟨List.cons_ne_nil c [], ?_⟩, fun h => hzero (Option.some.inj h)⟩
      exact List.all_eq_true.mpr (by simpa using hdigit)
  · obtain ⟨hdigit, hzero⟩ := nonzero_digit hc
    obtain ⟨pieces, hpieces, rfl⟩ := (derives_any_iff _).mp h
    obtain ⟨hall, -⟩ := digits_flatten hpieces
    right
    rw [List.append_nil]
    refine ⟨⟨List.cons_ne_nil c _, ?_⟩, fun h => hzero (Option.some.inj h)⟩
    rw [List.singleton_append, List.all_cons, hdigit, hall]
    rfl

theorem fracText_fraction (h : Derives [] fractionExpr s) : ∃ digits, FracText s digits := by
  simp only [fractionExpr, derives_sequence_cons_iff, derives_sequence_nil_iff,
    derives_text_iff] at h
  obtain ⟨_, _, rfl, ⟨ds, _, hds, rfl, rfl⟩, rfl⟩ := h
  rw [List.append_nil]
  exact ⟨ds, FracText.some ds (isDigits_some hds)⟩

theorem expText_exponent (h : Derives [] exponentExpr s) : ∃ e, ExpText s e := by
  simp only [exponentExpr, derives_sequence_cons_iff, derives_sequence_nil_iff,
    derives_chars_iff, derives_optional_iff, CharSet.has_of_iff] at h
  obtain ⟨_, _, ⟨e, he, rfl⟩, ⟨sign, _, hsign, ⟨ds, _, hds, rfl, rfl⟩, rfl⟩, rfl⟩ := h
  have hletter : e = 'e' ∨ e = 'E' := by simpa using he
  have hdigits := isDigits_some hds
  rw [List.append_nil]
  rcases hsign with rfl | ⟨c, hc, rfl⟩
  · exact ⟨_, ExpText.unsigned e hletter ds hdigits⟩
  · have hsign : c = '+' ∨ c = '-' := by simpa using hc
    rcases hsign with rfl | rfl
    · exact ⟨_, ExpText.plus e hletter ds hdigits⟩
    · exact ⟨_, ExpText.minus e hletter ds hdigits⟩

/-- A sign before the text of a number. -/
theorem numberText_signed {sign s : List Char} (hsign : Derives [] minusExpr sign) {q : ℚ}
    (h : UnsignedText s q) : NumberText (sign ++ s) q ∨ NumberText (sign ++ s) (-q) := by
  simp only [minusExpr, derives_optional_iff, derives_text_iff] at hsign
  rcases hsign with rfl | rfl
  · exact Or.inl (NumberText.positive s q h)
  · exact Or.inr (NumberText.negative s q h)

theorem number_text (h : Derives [] numberExpr s) : ∃ q, IsText s (.number q) := by
  simp only [numberExpr, derives_sequence_cons_iff, derives_sequence_nil_iff,
    derives_optional_iff] at h
  obtain ⟨sign, _, hsign, ⟨int, _, hint, ⟨frac, _, hfrac, ⟨exp, _, hexp, rfl, rfl⟩, rfl⟩, rfl⟩,
    rfl⟩ := h
  obtain ⟨digits, hfrac⟩ : ∃ digits, FracText frac digits := by
    rcases hfrac with rfl | hfrac
    · exact ⟨[], FracText.none⟩
    · exact fracText_fraction hfrac
  obtain ⟨e, hexp⟩ : ∃ e, ExpText exp e := by
    rcases hexp with rfl | hexp
    · exact ⟨0, ExpText.none⟩
    · exact expText_exponent hexp
  have hunsigned := UnsignedText.mk int frac exp digits e (isInt_natural hint) hfrac hexp
  rw [List.append_nil]
  rcases numberText_signed hsign hunsigned with h | h
  · exact ⟨_, isText_number h⟩
  · exact ⟨_, isText_number h⟩

theorem integer_text (h : Derives [] integerExpr s) : ∃ n : ℤ, IsText s (.number n) := by
  simp only [integerExpr, derives_sequence_cons_iff, derives_sequence_nil_iff] at h
  obtain ⟨sign, _, hsign, ⟨int, _, hint, rfl, rfl⟩, rfl⟩ := h
  have hunsigned := UnsignedText.mk int [] [] [] 0 (isInt_natural hint) FracText.none ExpText.none
  have hvalue : decimal int [] 0 = ((Nat.ofDigitChars 10 int 0 : ℤ) : ℚ) := by
    unfold decimal
    simp
  rw [hvalue] at hunsigned
  rcases numberText_signed hsign hunsigned with h | h
  · exact ⟨_, isText_number h⟩
  · rw [← Int.cast_neg] at h
    exact ⟨_, isText_number h⟩

theorem boolean_text (h : Derives [] booleanExpr s) : ∃ b, IsText s (.bool b) := by
  simp only [booleanExpr, derives_alt_iff, derives_sequence_cons_iff, derives_sequence_nil_iff,
    derives_text_iff] at h
  rcases h with ⟨_, _, rfl, rfl, rfl⟩ | ⟨_, _, rfl, rfl, rfl⟩
  · rw [List.append_nil]
    exact ⟨true, isText_bool true⟩
  · rw [List.append_nil]
    exact ⟨false, isText_bool false⟩

theorem null_text (h : Derives [] nullExpr s) : IsText s .null := by
  simp only [nullExpr, derives_sequence_cons_iff, derives_sequence_nil_iff,
    derives_text_iff] at h
  obtain ⟨_, _, rfl, rfl, rfl⟩ := h
  rw [List.append_nil]
  exact isText_null

end Numbers

section Spaces

theorem space_text (h : Derives [] spaceExpr s) : IsSpace s := by
  simp only [spaceExpr, derives_alt_iff, derives_sequence_cons_iff, derives_sequence_nil_iff,
    derives_text_iff, derives_repeated_iff, derives_chars_iff, CharSet.has_of_iff] at h
  rcases h with (rfl | ⟨_, _, rfl, rfl, rfl⟩) |
    ⟨_, _, rfl, ⟨_, _, ⟨pieces, -, h, rfl⟩, rfl, rfl⟩, rfl⟩
  · rfl
  · rfl
  · have hpieces : pieces.flatten.all isSpace = true := by
      rw [List.all_eq_true]
      intro c hc
      obtain ⟨piece, hpiece, hc⟩ := List.mem_flatten.mp hc
      obtain ⟨d, hd, rfl⟩ := h piece hpiece
      simp only [List.mem_cons, List.not_mem_nil, or_false] at hc hd
      rcases hd with rfl | rfl
      · exact hc ▸ rfl
      · exact hc ▸ rfl
    rw [List.append_nil]
    exact Bool.and_eq_true_iff.mpr ⟨rfl, hpieces⟩

end Spaces

end Cusco.ScalarRules
