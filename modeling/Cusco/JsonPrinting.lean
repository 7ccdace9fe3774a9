import Cusco.EventSource
import Cusco.JsonTexts
import Cusco.JsonValues

/-!
The compact texts of JSON values as `serde_json` writes them, and what values they are the texts
of. The digits of a float are a parameter: they are those of a JSON number. What is built on a
printer needs less: its texts are lines that read as their values.
-/

namespace Cusco.JsonPrinting

open EventSource JsonTexts JsonValues

/-- The texts of floats and the numbers they stand for. -/
structure Floats where
  text : UInt64 → List Char
  value : UInt64 → ℚ
  reads : ∀ bits, NumberText (text bits) (value bits)

/-- The escape of a character within a string. -/
def escapeChar (c : Char) : List Char :=
  if c = '"' then ['\\', '"']
  else if c = '\\' then ['\\', '\\']
  else if c.toNat = 8 then ['\\', 'b']
  else if c.toNat = 12 then ['\\', 'f']
  else if c = '\n' then ['\\', 'n']
  else if c = '\r' then ['\\', 'r']
  else if c = '\t' then ['\\', 't']
  else if c.toNat < 0x20 then
    ['\\', 'u', '0', '0', Nat.digitChar (c.toNat / 16), Nat.digitChar (c.toNat % 16)]
  else [c]

def printString (s : String) : List Char := '"' :: s.toList.flatMap escapeChar ++ ['"']

def units (s : String) : List ℕ := s.toList.flatMap utf16

def printInt (n : ℤ) : List Char :=
  if n < 0 then '-' :: Nat.toDigits 10 n.natAbs else Nat.toDigits 10 n.natAbs

variable (floats : Floats)

def printNumber : Number → List Char
  | .posInt n => Nat.toDigits 10 n
  | .negInt n => printInt n
  | .float bits => floats.text bits

def numberValue : Number → ℚ
  | .posInt n => n
  | .negInt n => n
  | .float bits => floats.value bits

mutual

/-- `serde_json::to_string`. -/
def print : Json → List Char
  | .null => "null".toList
  | .bool b => if b then "true".toList else "false".toList
  | .number n => printNumber floats n
  | .string s => printString s
  | .array items => '[' :: (printItems items ++ [']'])
  | .object fields => '{' :: (printFields fields ++ ['}'])

def printItems : List Json → List Char
  | [] => []
  | [item] => print item
  | item :: next :: items => print item ++ ',' :: printItems (next :: items)

def printFields : List (String × Json) → List Char
  | [] => []
  | [(key, field)] => printString key ++ ':' :: print field
  | (key, field) :: next :: fields =>
    printString key ++ ':' :: print field ++ ',' :: printFields (next :: fields)

end

mutual

/-- The value that a text of the value has. -/
def denote : Json → Value
  | .null => .null
  | .bool b => .bool b
  | .number n => .number (numberValue floats n)
  | .string s => .string (units s)
  | .array items => .array (denoteItems items)
  | .object fields => .object (denoteFields fields)

def denoteItems : List Json → List Value
  | [] => []
  | item :: items => denote item :: denoteItems items

def denoteFields : List (String × Json) → List (List ℕ × Value)
  | [] => []
  | (key, field) :: fields => (units key, denote field) :: denoteFields fields

end

section Scalars

theorem unitsText_escapeChar (c : Char) {s : List Char} {u : List ℕ} (h : UnitsText s u) :
    UnitsText (escapeChar c ++ s) (utf16 c ++ u) := by
  have hcontrol : ∀ n < 0x20,
      hexUnit '0' '0' (Nat.digitChar (n / 16)) (Nat.digitChar (n % 16)) = some n := by decide
  have hchar : ∀ n, c.toNat = n → c = Char.ofNat n := by
    rintro n rfl
    exact (Char.ofNat_toNat c).symm
  unfold escapeChar
  split_ifs with hquote hslash hb hf hn hr ht hlow
  · exact hquote ▸ UnitsText.escape '"' '"' s u rfl h
  · exact hslash ▸ UnitsText.escape '\\' '\\' s u rfl h
  · exact hchar 8 hb ▸ UnitsText.escape 'b' (Char.ofNat 8) s u rfl h
  · exact hchar 12 hf ▸ UnitsText.escape 'f' (Char.ofNat 12) s u rfl h
  · exact hn ▸ UnitsText.escape 'n' '\n' s u rfl h
  · exact hr ▸ UnitsText.escape 'r' '\r' s u rfl h
  · exact ht ▸ UnitsText.escape 't' '\t' s u rfl h
  · have hunits : utf16 c = [c.toNat] := by
      unfold utf16
      rw [if_pos (by omega)]
    rw [hunits]
    exact UnitsText.hex '0' '0' _ _ c.toNat s u (hcontrol c.toNat hlow) h
  · exact UnitsText.char c s u hquote hslash (Nat.le_of_not_lt hlow) h

theorem unitsText_print (s : String) : UnitsText (s.toList.flatMap escapeChar) (units s) := by
  unfold units
  induction s.toList with
  | nil => exact UnitsText.nil
  | cons c cs ih => exact unitsText_escapeChar c ih

theorem head_toDigits (n : ℕ) (hn : n ≠ 0) : (Nat.toDigits 10 n).head? ≠ some '0' := by
  induction n using Nat.strongRecOn with
  | _ n ih =>
    by_cases hsmall : n < 10
    · have hdigit : ∀ d < 10, d ≠ 0 → d.digitChar ≠ '0' := by decide
      rw [Nat.toDigits_of_lt_base hsmall]
      intro h
      exact hdigit n hsmall hn (Option.some.inj h)
    · have hle : 10 ≤ n := Nat.le_of_not_lt hsmall
      have hrest := ih (n / 10) (by omega) (by omega)
      rw [Nat.toDigits_of_base_le (by decide) hle]
      obtain ⟨c, cs, hcs⟩ := List.exists_cons_of_ne_nil (@Nat.toDigits_ne_nil (n / 10) 10)
      rw [hcs] at hrest ⊢
      exact hrest

theorem isInt_toDigits (n : ℕ) : IsInt (Nat.toDigits 10 n) := by
  by_cases hn : n = 0
  · exact Or.inl (hn ▸ Nat.toDigits_zero 10)
  · right
    refine ⟨⟨Nat.toDigits_ne_nil, List.all_eq_true.mpr ?_⟩, head_toDigits n hn⟩
    intro c hc
    exact Nat.isDigit_of_mem_toDigits (by decide) (by decide) hc

theorem unsignedText_toDigits (n : ℕ) : UnsignedText (Nat.toDigits 10 n) n := by
  have h := UnsignedText.mk _ [] [] [] 0 (isInt_toDigits n) FracText.none ExpText.none
  have hvalue : decimal (Nat.toDigits 10 n) [] 0 = n := by
    unfold decimal
    rw [List.append_nil, Nat.ofDigitChars_ten_toDigits, List.length_nil]
    simp
  rw [hvalue, List.append_nil, List.append_nil] at h
  exact h

theorem numberText_printInt (n : ℤ) : NumberText (printInt n) n := by
  have h := unsignedText_toDigits n.natAbs
  unfold printInt
  split_ifs with hneg
  · have hn : n = -(n.natAbs : ℤ) := by omega
    have hvalue := congrArg (Int.cast : ℤ → ℚ) hn
    rw [Int.cast_neg, Int.cast_natCast] at hvalue
    rw [hvalue]
    exact NumberText.negative _ _ h
  · have hn : n = (n.natAbs : ℤ) := by omega
    have hvalue := congrArg (Int.cast : ℤ → ℚ) hn
    rw [Int.cast_natCast] at hvalue
    rw [hvalue]
    exact NumberText.positive _ _ h

theorem numberText_print (n : Number) :
    NumberText (printNumber floats n) (numberValue floats n) := by
  cases n with
  | posInt n => exact NumberText.positive _ _ (unsignedText_toDigits n)
  | negInt n => exact numberText_printInt n
  | float bits => exact floats.reads bits

end Scalars

section Units

theorem utf16_ne_nil (c : Char) : utf16 c ≠ [] := by
  unfold utf16
  split_ifs
  · exact List.cons_ne_nil _ _
  · exact List.cons_ne_nil _ _

/-- The code units of a character show which one it is, whatever follows. -/
theorem utf16_append_inj {c d : Char} {s t : List ℕ} (h : utf16 c ++ s = utf16 d ++ t) :
    c = d ∧ s = t := by
  have hrange : ∀ c : Char, c.toNat < 0xD800 ∨ 0xDFFF < c.toNat ∧ c.toNat < 0x110000 :=
    fun c => c.valid
  have hvalue : ∀ {c d : Char}, c.toNat = d.toNat → c = d := by
    intro c d heq
    rw [← Char.ofNat_toNat c, heq, Char.ofNat_toNat]
  have hc := hrange c
  have hd := hrange d
  unfold utf16 at h
  split_ifs at h with hsmall hsmall' hsmall'
  · obtain ⟨hhead, htail⟩ := List.cons.inj h
    exact ⟨hvalue hhead, htail⟩
  · obtain ⟨hhead, -⟩ := List.cons.inj h
    omega
  · obtain ⟨hhead, -⟩ := List.cons.inj h
    omega
  · obtain ⟨hhigh, hrest⟩ := List.cons.inj h
    obtain ⟨hlow, htail⟩ := List.cons.inj hrest
    exact ⟨hvalue (by omega), htail⟩

theorem flatMap_utf16_inj {a b : List Char} (h : a.flatMap utf16 = b.flatMap utf16) : a = b := by
  induction a generalizing b with
  | nil =>
    cases b with
    | nil => rfl
    | cons d b =>
      rw [List.flatMap_cons] at h
      exact absurd (List.append_eq_nil_iff.mp h.symm).1 (utf16_ne_nil d)
  | cons c a ih =>
    cases b with
    | nil =>
      rw [List.flatMap_cons] at h
      exact absurd (List.append_eq_nil_iff.mp h).1 (utf16_ne_nil c)
    | cons d b =>
      rw [List.flatMap_cons, List.flatMap_cons] at h
      obtain ⟨rfl, hrest⟩ := utf16_append_inj h
      rw [ih hrest]

theorem units_inj {s t : String} (h : units s = units t) : s = t :=
  String.toList_injective (flatMap_utf16_inj h)

end Units

section Values

theorem isSpace_nil : IsSpace [] := rfl

theorem isText_items (items : List Json)
    (h : items ≠ [] →
      Separated IsSpace IsText (printItems floats items) (denoteItems floats items)) :
    IsText (print floats (.array items)) (denote floats (.array items)) := by
  cases items with
  | nil => exact isText_emptyArray isSpace_nil
  | cons item items => exact isText_array (h (List.cons_ne_nil item items)) isSpace_nil

theorem isText_fields (fields : List (String × Json))
    (h : fields ≠ [] →
      Separated IsSpace IsMember (printFields floats fields) (denoteFields floats fields)) :
    IsText (print floats (.object fields)) (denote floats (.object fields)) := by
  cases fields with
  | nil => exact isText_emptyObject isSpace_nil
  | cons field fields => exact isText_object (h (List.cons_ne_nil field fields)) isSpace_nil

theorem isMember_print {key : String} {s : List Char} {v : Value} (h : IsText s v) :
    IsMember (printString key ++ ':' :: s) (units key, v) :=
  isMember_of (isText_string (unitsText_print key)) h isSpace_nil isSpace_nil

mutual

/-- The text of a value is read as the value. -/
theorem isText_print : (j : Json) → IsText (print floats j) (denote floats j)
  | .null => isText_null
  | .bool b => isText_bool b
  | .number n => isText_number (numberText_print floats n)
  | .string s => isText_string (unitsText_print s)
  | .array items => isText_items floats items (separated_items items)
  | .object fields => isText_fields floats fields (separated_fields fields)

theorem separated_items : (items : List Json) → items ≠ [] →
    Separated IsSpace IsText (printItems floats items) (denoteItems floats items)
  | [], h => absurd rfl h
  | [item], _ => .last _ _ (isText_print item)
  | item :: next :: items, _ =>
    .more _ _ [] _ _ (isText_print item) isSpace_nil
      (separated_items (next :: items) (List.cons_ne_nil next items))

theorem separated_fields : (fields : List (String × Json)) → fields ≠ [] →
    Separated IsSpace IsMember (printFields floats fields) (denoteFields floats fields)
  | [], h => absurd rfl h
  | [(_, field)], _ => .last _ _ (isMember_print (isText_print field))
  | (_, field) :: next :: fields, _ =>
    .more _ _ [] _ _ (isMember_print (isText_print field)) isSpace_nil
      (separated_fields (next :: fields) (List.cons_ne_nil next fields))

end

end Values

section Lines

theorem oneLine_digits {ds : List Char} (h : ds.all Char.isDigit = true) : OneLine ds := by
  rw [List.all_eq_true] at h
  refine ⟨?_, ?_⟩
  · intro hmem
    exact absurd (h _ hmem) (by decide)
  · intro hmem
    exact absurd (h _ hmem) (by decide)

theorem oneLine_int {int : List Char} (h : IsInt int) : OneLine int := by
  rcases h with rfl | ⟨hdigits, -⟩
  · exact oneLine_digits rfl
  · exact oneLine_digits hdigits.2

theorem oneLine_frac {s digits : List Char} (h : FracText s digits) : OneLine s := by
  cases h with
  | none => exact oneLine_nil
  | some ds hds => exact (oneLine_cons _ _).mpr ⟨⟨by decide, by decide⟩, oneLine_digits hds.2⟩

theorem oneLine_exp {s : List Char} {e : ℤ} (h : ExpText s e) : OneLine s := by
  have hletter : ∀ c : Char, c = 'e' ∨ c = 'E' → '\n' ≠ c ∧ '\r' ≠ c := by
    intro c hc
    rcases hc with rfl | rfl
    · exact ⟨by decide, by decide⟩
    · exact ⟨by decide, by decide⟩
  cases h with
  | none => exact oneLine_nil
  | unsigned c hc ds hds => exact (oneLine_cons _ _).mpr ⟨hletter c hc, oneLine_digits hds.2⟩
  | plus c hc ds hds =>
    simp only [oneLine_cons]
    exact ⟨hletter c hc, ⟨by decide, by decide⟩, oneLine_digits hds.2⟩
  | minus c hc ds hds =>
    simp only [oneLine_cons]
    exact ⟨hletter c hc, ⟨by decide, by decide⟩, oneLine_digits hds.2⟩

theorem oneLine_unsigned {s : List Char} {q : ℚ} (h : UnsignedText s q) : OneLine s := by
  obtain ⟨int, frac, exp, digits, e, hint, hfrac, hexp⟩ := h
  simp only [oneLine_append]
  exact ⟨oneLine_int hint, oneLine_frac hfrac, oneLine_exp hexp⟩

theorem oneLine_number {s : List Char} {q : ℚ} (h : NumberText s q) : OneLine s := by
  cases h with
  | positive s q h => exact oneLine_unsigned h
  | negative s q h => exact (oneLine_cons _ _).mpr ⟨⟨by decide, by decide⟩, oneLine_unsigned h⟩

/-- A line break within a string is escaped. -/
theorem oneLine_escapeChar (c : Char) : OneLine (escapeChar c) := by
  have hhex : ∀ n < 16, '\n' ≠ Nat.digitChar n ∧ '\r' ≠ Nat.digitChar n := by decide
  unfold escapeChar
  split_ifs with hquote hslash hb hf hn hr ht hlow
  · decide
  · decide
  · decide
  · decide
  · decide
  · decide
  · decide
  · simp only [oneLine_cons]
    refine ⟨by decide, by decide, by decide, by decide, hhex _ (by omega), hhex _ (by omega),
      oneLine_nil⟩
  · exact (oneLine_cons _ _).mpr ⟨⟨Ne.symm hn, Ne.symm hr⟩, oneLine_nil⟩

theorem oneLine_printString (s : String) : OneLine (printString s) := by
  have hbody : ∀ cs : List Char, OneLine (cs.flatMap escapeChar) := by
    intro cs
    induction cs with
    | nil => exact oneLine_nil
    | cons c cs ih => exact (oneLine_append _ _).mpr ⟨oneLine_escapeChar c, ih⟩
  unfold printString
  rw [List.cons_append, oneLine_cons, oneLine_append]
  exact ⟨⟨by decide, by decide⟩, hbody s.toList, by decide⟩

mutual

/-- The text of a value is one line. -/
theorem oneLine_print : (j : Json) → OneLine (print floats j)
  | .null => by simp only [print]; decide
  | .bool b => by
    simp only [print]
    cases b
    · decide
    · decide
  | .number n => oneLine_number (numberText_print floats n)
  | .string s => oneLine_printString s
  | .array items => by
    simp only [print, oneLine_cons, oneLine_append]
    exact ⟨by decide, oneLine_items items, by decide, oneLine_nil⟩
  | .object fields => by
    simp only [print, oneLine_cons, oneLine_append]
    exact ⟨by decide, oneLine_fields fields, by decide, oneLine_nil⟩

theorem oneLine_items : (items : List Json) → OneLine (printItems floats items)
  | [] => oneLine_nil
  | [item] => oneLine_print item
  | item :: next :: items => by
    simp only [printItems, oneLine_cons, oneLine_append]
    exact ⟨oneLine_print item, by decide, oneLine_items (next :: items)⟩

theorem oneLine_fields : (fields : List (String × Json)) → OneLine (printFields floats fields)
  | [] => oneLine_nil
  | [(key, field)] => by
    simp only [printFields, oneLine_cons, oneLine_append]
    exact ⟨oneLine_printString key, by decide, oneLine_print field⟩
  | (key, field) :: next :: fields => by
    simp only [printFields, oneLine_cons, oneLine_append]
    exact ⟨⟨oneLine_printString key, by decide, oneLine_print field⟩, by decide,
      oneLine_fields (next :: fields)⟩

end

end Lines

/-- A printer of JSON values: each text is one line and reads as its value. -/
structure Printer where
  text : Json → List Char
  reads : ∀ json, IsText (text json) (denote floats json)
  oneLine : ∀ json, OneLine (text json)

def compactPrinter : Printer floats := ⟨print floats, isText_print floats, oneLine_print floats⟩

variable {floats} (printer : Printer floats)

theorem Printer.readJson_text (json : Json) :
    readJson (printer.text json) = some (denote floats json) := by
  have hread := readJson_of_isText (printer.reads json) isSpace_nil
  rw [List.append_nil] at hread
  exact hread

def zeroFloats : Floats where
  text _ := "0.0".toList
  value _ := decimal ['0'] ['0'] 0
  reads _ := .positive _ _ (.mk ['0'] ['.', '0'] [] ['0'] 0 (Or.inl rfl)
    (.some ['0'] ⟨List.cons_ne_nil _ _, rfl⟩) .none)

/-- A printer for values without floats. -/
abbrev zeroPrinter : Printer zeroFloats := compactPrinter zeroFloats

end Cusco.JsonPrinting
