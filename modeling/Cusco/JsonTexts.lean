import Cusco.Characters
import Mathlib.Algebra.Order.Field.Rat
import Mathlib.Tactic.Common

/-!
JSON texts as RFC 8259 has them: a reader of values, and what a text has to look like for the
reader to take it as the text of a value, whatever follows it.
-/

namespace Cusco.JsonTexts

open Characters

variable {space : List Char}

/-- A JSON value. A string is its UTF-16 code units, an object its members as the text has them. -/
inductive Value
  | null
  | bool (b : Bool)
  | number (q : ℚ)
  | string (units : List ℕ)
  | array (items : List Value)
  | object (members : List (List ℕ × Value))

abbrev Reader (α : Type) := List Char → Option (α × List Char)

section Readers

def isSpace (c : Char) : Bool := c == ' ' || c == '\t' || c == '\n' || c == '\r'

def skipSpace (text : List Char) : List Char := text.dropWhile isSpace

/-- The code unit of four hexadecimal digits. -/
def hexUnit (a b c d : Char) : Option ℕ :=
  match hexDigit a, hexDigit b, hexDigit c, hexDigit d with
  | some a, some b, some c, some d => some (((a * 16 + b) * 16 + c) * 16 + d)
  | _, _, _, _ => none

/-- The character that a backslash and another character stand for. -/
def escaped (c : Char) : Option Char :=
  if c = '"' ∨ c = '\\' ∨ c = '/' then some c
  else if c = 'b' then some (Char.ofNat 8)
  else if c = 'f' then some (Char.ofNat 12)
  else if c = 'n' then some '\n'
  else if c = 'r' then some '\r'
  else if c = 't' then some '\t'
  else none

/-- The UTF-16 code units of a character. -/
def utf16 (c : Char) : List ℕ :=
  if c.toNat < 0x10000 then [c.toNat]
  else [0xD800 + (c.toNat - 0x10000) / 0x400, 0xDC00 + (c.toNat - 0x10000) % 0x400]

/-- The reader's result with these units before it. -/
def prepend (units : List ℕ) (read : Option (List ℕ × List Char)) :
    Option (List ℕ × List Char) :=
  read.map (fun read => (units ++ read.1, read.2))

/-- The rest of a string after its opening quote. -/
def readString : Reader (List ℕ)
  | [] => none
  | c :: rest =>
    if c = '"' then some ([], rest)
    else if c = '\\' then
      match rest with
      | [] => none
      | e :: rest =>
        if e = 'u' then
          match rest with
          | a :: b :: c :: d :: rest =>
            match hexUnit a b c d with
            | none => none
            | some unit => prepend [unit] (readString rest)
          | _ => none
        else
          match escaped e with
          | none => none
          | some c => prepend (utf16 c) (readString rest)
    else if c.toNat < 0x20 then none
    else prepend (utf16 c) (readString rest)

def readDigits : Reader (List Char) := fun text =>
  if text.takeWhile Char.isDigit = [] then none
  else some (text.takeWhile Char.isDigit, text.dropWhile Char.isDigit)

/-- The integer part, which has no leading zero. -/
def readInt : Reader (List Char)
  | [] => none
  | c :: rest => if c = '0' then some (['0'], rest) else readDigits (c :: rest)

def readFrac : Reader (List Char)
  | [] => some ([], [])
  | c :: rest => if c = '.' then readDigits rest else some ([], c :: rest)

def readExp : Reader ℤ
  | [] => some (0, [])
  | c :: rest =>
    if c = 'e' ∨ c = 'E' then
      match rest with
      | [] => none
      | sign :: digits =>
        if sign = '-' then
          (readDigits digits).map (fun read => (-(Nat.ofDigitChars 10 read.1 0 : ℤ), read.2))
        else if sign = '+' then
          (readDigits digits).map (fun read => ((Nat.ofDigitChars 10 read.1 0 : ℤ), read.2))
        else (readDigits rest).map (fun read => ((Nat.ofDigitChars 10 read.1 0 : ℤ), read.2))
    else some (0, c :: rest)

/-- The number of these digits before and after the point. -/
def decimal (int frac : List Char) (exp : ℤ) : ℚ :=
  (Nat.ofDigitChars 10 (int ++ frac) 0 : ℚ) * 10 ^ (exp - frac.length)

def readUnsigned : Reader ℚ := fun text =>
  match readInt text with
  | none => none
  | some (int, rest) =>
    match readFrac rest with
    | none => none
    | some (frac, rest) =>
      (readExp rest).map (fun read => (decimal int frac read.1, read.2))

def readNumber : Reader ℚ
  | [] => none
  | c :: rest =>
    if c = '-' then (readUnsigned rest).map (fun read => (-read.1, read.2))
    else readUnsigned (c :: rest)

/-- The rest of a literal name. -/
def readWord {α : Type} (word : List Char) (a : α) : Reader α := fun text =>
  if word.isPrefixOf text then some (a, text.drop word.length) else none

/-- What is separated by commas, up to the closing character. -/
def readSeparated {α : Type} (one : Reader α) (close : Char) : ℕ → Reader (List α)
  | 0, _ => none
  | fuel + 1, text =>
    match one text with
    | none => none
    | some (a, rest) =>
      match skipSpace rest with
      | [] => none
      | c :: rest =>
        if c = close then some ([a], rest)
        else if c = ',' then
          (readSeparated one close fuel rest).map (fun read => (a :: read.1, read.2))
        else none

/-- The rest of a list after its opening character. -/
def readListed {α : Type} (one : Reader α) (close : Char) (fuel : ℕ) : Reader (List α) :=
  fun text =>
    if (skipSpace text).head? = some close then some ([], (skipSpace text).tail)
    else readSeparated one close fuel text

def readMember (value : Reader Value) : Reader (List ℕ × Value) := fun text =>
  match skipSpace text with
  | [] => none
  | c :: rest =>
    if c = '"' then
      match readString rest with
      | none => none
      | some (name, rest) =>
        match skipSpace rest with
        | [] => none
        | c :: rest =>
          if c = ':' then (value rest).map (fun read => ((name, read.1), read.2)) else none
    else none

/-- A value after any white space. The bound is on the depth and the length of what is read. -/
def readValue : ℕ → Reader Value
  | 0, _ => none
  | fuel + 1, text =>
    match skipSpace text with
    | [] => none
    | c :: rest =>
      if c = '"' then (readString rest).map (fun read => (.string read.1, read.2))
      else if c = '[' then
        (readListed (readValue fuel) ']' fuel rest).map (fun read => (.array read.1, read.2))
      else if c = '{' then
        (readListed (readMember (readValue fuel)) '}' fuel rest).map
          (fun read => (.object read.1, read.2))
      else if c = 'n' then readWord "ull".toList .null rest
      else if c = 't' then readWord "rue".toList (.bool true) rest
      else if c = 'f' then readWord "alse".toList (.bool false) rest
      else (readNumber (c :: rest)).map (fun read => (.number read.1, read.2))

/-- The value of a JSON text. -/
def readJson (text : List Char) : Option Value :=
  match readValue (text.length + 1) text with
  | none => none
  | some (v, rest) => if rest.all isSpace then some v else none

end Readers

section Numbers

/-- The text does not continue a number. -/
def Follows (rest : List Char) : Prop :=
  ∀ c ∈ rest.head?, c.isDigit = false ∧ c ≠ '.' ∧ c ≠ 'e' ∧ c ≠ 'E'

/-- One digit or more. -/
def IsDigits (ds : List Char) : Prop := ds ≠ [] ∧ ds.all Char.isDigit = true

def IsInt (ds : List Char) : Prop := ds = ['0'] ∨ IsDigits ds ∧ ds.head? ≠ some '0'

/-- A fraction and its digits. -/
inductive FracText : List Char → List Char → Prop
  | none : FracText [] []
  | some (ds : List Char) (hds : IsDigits ds) : FracText ('.' :: ds) ds

/-- An exponent and its value. -/
inductive ExpText : List Char → ℤ → Prop
  | none : ExpText [] 0
  | unsigned (e : Char) (he : e = 'e' ∨ e = 'E') (ds : List Char) (hds : IsDigits ds) :
      ExpText (e :: ds) (Nat.ofDigitChars 10 ds 0)
  | plus (e : Char) (he : e = 'e' ∨ e = 'E') (ds : List Char) (hds : IsDigits ds) :
      ExpText (e :: '+' :: ds) (Nat.ofDigitChars 10 ds 0)
  | minus (e : Char) (he : e = 'e' ∨ e = 'E') (ds : List Char) (hds : IsDigits ds) :
      ExpText (e :: '-' :: ds) (-(Nat.ofDigitChars 10 ds 0 : ℤ))

inductive UnsignedText : List Char → ℚ → Prop
  | mk (int frac exp digits : List Char) (e : ℤ) (hint : IsInt int) (hfrac : FracText frac digits)
      (hexp : ExpText exp e) : UnsignedText (int ++ (frac ++ exp)) (decimal int digits e)

inductive NumberText : List Char → ℚ → Prop
  | positive (s : List Char) (q : ℚ) (h : UnsignedText s q) : NumberText s q
  | negative (s : List Char) (q : ℚ) (h : UnsignedText s q) : NumberText ('-' :: s) (-q)

theorem readDigits_append {ds rest : List Char} (hds : IsDigits ds)
    (hrest : ∀ c ∈ rest.head?, c.isDigit = false) : readDigits (ds ++ rest) = some (ds, rest) := by
  have hall : ∀ c ∈ ds, c.isDigit = true := List.all_eq_true.mp hds.2
  have htake : rest.takeWhile Char.isDigit = [] ∧ rest.dropWhile Char.isDigit = rest := by
    cases rest with
    | nil => exact ⟨rfl, rfl⟩
    | cons c rest =>
      have hc := hrest c rfl
      exact ⟨by rw [List.takeWhile_cons, hc]; rfl, by rw [List.dropWhile_cons, hc]; rfl⟩
  unfold readDigits
  rw [List.takeWhile_append_of_pos hall, List.dropWhile_append_of_pos hall, htake.1, htake.2,
    List.append_nil, if_neg hds.1]

theorem Follows.digit {rest : List Char} (h : Follows rest) :
    ∀ c ∈ rest.head?, c.isDigit = false := fun c hc => (h c hc).1

theorem IsDigits.head {c : Char} {ds : List Char} (h : IsDigits (c :: ds)) : c.isDigit = true :=
  List.all_eq_true.mp h.2 c List.mem_cons_self

theorem readInt_append {int rest : List Char} (hint : IsInt int)
    (hrest : ∀ c ∈ rest.head?, c.isDigit = false) : readInt (int ++ rest) = some (int, rest) := by
  rcases hint with rfl | ⟨hds, hzero⟩
  · rfl
  · obtain ⟨c, ds, rfl⟩ := List.exists_cons_of_ne_nil hds.1
    have hc : c ≠ '0' := fun h => hzero (congrArg some h)
    rw [List.cons_append, readInt, if_neg hc]
    exact readDigits_append hds hrest

theorem ExpText.parted {exp rest : List Char} {e : ℤ} (h : ExpText exp e) (hrest : Follows rest) :
    ∀ c ∈ (exp ++ rest).head?, c.isDigit = false ∧ c ≠ '.' := by
  have hletter : ∀ c : Char, c = 'e' ∨ c = 'E' → c.isDigit = false ∧ c ≠ '.' := by
    rintro c (rfl | rfl) <;> decide
  cases h with
  | none => exact fun c hc => ⟨(hrest c hc).1, (hrest c hc).2.1⟩
  | unsigned e he | plus e he | minus e he =>
    intro c hc
    cases hc
    exact hletter _ he

theorem readFrac_append {frac digits rest : List Char} (h : FracText frac digits)
    (hrest : ∀ c ∈ rest.head?, c.isDigit = false ∧ c ≠ '.') :
    readFrac (frac ++ rest) = some (digits, rest) := by
  cases h with
  | none =>
    rw [List.nil_append]
    cases rest with
    | nil => rfl
    | cons c rest =>
      rw [readFrac, if_neg (hrest c rfl).2]
  | some ds hds =>
    rw [List.cons_append, readFrac, if_pos rfl]
    exact readDigits_append hds (fun c hc => (hrest c hc).1)

theorem readExp_append {exp rest : List Char} {e : ℤ} (h : ExpText exp e) (hrest : Follows rest) :
    readExp (exp ++ rest) = some (e, rest) := by
  cases h with
  | none =>
    rw [List.nil_append]
    cases rest with
    | nil => rfl
    | cons c rest =>
      have hc := (hrest c rfl).2.2
      simp only [readExp, if_neg (not_or.mpr hc)]
  | unsigned e he ds hds =>
    obtain ⟨d, more, rfl⟩ := List.exists_cons_of_ne_nil hds.1
    have hd := hds.head
    have hminus : d ≠ '-' := by
      rintro rfl
      cases hd
    have hplus : d ≠ '+' := by
      rintro rfl
      cases hd
    have hread := readDigits_append hds hrest.digit
    simp only [List.cons_append] at hread
    simp only [List.cons_append, readExp, if_pos he, if_neg hminus, if_neg hplus, hread,
      Option.map_some]
  | plus e he ds hds =>
    have hminus : '+' ≠ '-' := by decide
    simp only [List.cons_append, readExp, if_pos he, if_neg hminus, if_true,
      readDigits_append hds hrest.digit, Option.map_some]
  | minus e he ds hds =>
    simp only [List.cons_append, readExp, if_pos he, if_true,
      readDigits_append hds hrest.digit, Option.map_some]

theorem readUnsigned_append {s rest : List Char} {q : ℚ} (h : UnsignedText s q)
    (hrest : Follows rest) : readUnsigned (s ++ rest) = some (q, rest) := by
  obtain ⟨int, frac, exp, digits, e, hint, hfrac, hexp⟩ := h
  have hparted : ∀ c ∈ (frac ++ (exp ++ rest)).head?, c.isDigit = false := by
    cases hfrac with
    | none => exact fun c hc => (hexp.parted hrest c hc).1
    | some ds hds =>
      intro c hc
      cases hc
      rfl
  unfold readUnsigned
  rw [List.append_assoc, List.append_assoc, readInt_append hint hparted]
  simp only [readFrac_append hfrac (hexp.parted hrest), readExp_append hexp hrest, Option.map_some]

theorem UnsignedText.head {s : List Char} {q : ℚ} (h : UnsignedText s q) :
    ∃ c more, s = c :: more ∧ c.isDigit = true := by
  obtain ⟨int, frac, exp, digits, e, hint, -, -⟩ := h
  rcases hint with rfl | ⟨hds, -⟩
  · exact ⟨'0', _, rfl, rfl⟩
  · obtain ⟨c, ds, rfl⟩ := List.exists_cons_of_ne_nil hds.1
    exact ⟨c, _, rfl, hds.head⟩

/-- A number's text is read whole where it cannot go on. -/
theorem readNumber_append {s rest : List Char} {q : ℚ} (h : NumberText s q)
    (hrest : Follows rest) : readNumber (s ++ rest) = some (q, rest) := by
  cases h with
  | positive _ _ h =>
    have hread := readUnsigned_append h hrest
    obtain ⟨c, more, rfl, hc⟩ := h.head
    have hminus : c ≠ '-' := by
      rintro rfl
      cases hc
    rw [List.cons_append] at hread ⊢
    rw [readNumber, if_neg hminus, hread]
  | negative s q h =>
    rw [List.cons_append, readNumber, if_pos rfl, readUnsigned_append h hrest]
    rfl

end Numbers

section Strings

/-- The inside of a string and its code units. -/
inductive UnitsText : List Char → List ℕ → Prop
  | nil : UnitsText [] []
  | char (c : Char) (s : List Char) (units : List ℕ) (hquote : c ≠ '"') (hescape : c ≠ '\\')
      (hcontrol : 0x20 ≤ c.toNat) (hs : UnitsText s units) : UnitsText (c :: s) (utf16 c ++ units)
  | escape (e c : Char) (s : List Char) (units : List ℕ) (he : escaped e = some c)
      (hs : UnitsText s units) : UnitsText ('\\' :: e :: s) (utf16 c ++ units)
  | hex (a b c d : Char) (unit : ℕ) (s : List Char) (units : List ℕ)
      (hunit : hexUnit a b c d = some unit) (hs : UnitsText s units) :
      UnitsText ('\\' :: 'u' :: a :: b :: c :: d :: s) (unit :: units)

/-- A string is read up to its closing quote. -/
theorem readString_append {s : List Char} {units : List ℕ} (h : UnitsText s units)
    (rest : List Char) : readString (s ++ '"' :: rest) = some (units, rest) := by
  have hslash : '\\' ≠ '"' := by decide
  induction h with
  | nil =>
    rw [List.nil_append, readString.eq_def]
    exact if_pos rfl
  | char c s units hquote hescape hcontrol _ ih =>
    have hnot : ¬c.toNat < 0x20 := Nat.not_lt.mpr hcontrol
    rw [List.cons_append, readString.eq_def]
    simp only [if_neg hquote, if_neg hescape, if_neg hnot, ih]
    rfl
  | escape e c s units he _ ih =>
    have hu : e ≠ 'u' := by
      rintro rfl
      cases he
    rw [List.cons_append, List.cons_append, readString.eq_def]
    simp only [if_neg hslash, if_true, if_neg hu, he, ih]
    rfl
  | hex a b c d unit s units hunit _ ih =>
    simp only [List.cons_append]
    rw [readString.eq_def]
    simp only [if_neg hslash, if_true, hunit, ih]
    rfl

end Strings

section Values

/-- White space. -/
def IsSpace (s : List Char) : Prop := s.all isSpace = true

/-- The reader takes the text for the value, whatever follows it, if its bound is above the
length. -/
def TextOf {α : Type} (one : ℕ → Reader α) (s : List Char) (a : α) : Prop :=
  ∀ fuel rest, s.length < fuel → Follows rest → one fuel (s ++ rest) = some (a, rest)

/-- Items separated by commas, each with a space before the comma. -/
inductive Separated {α : Type} (Space : List Char → Prop) (P : List Char → α → Prop) :
    List Char → List α → Prop
  | last (s : List Char) (a : α) (ha : P s a) : Separated Space P s [a]
  | more (s : List Char) (a : α) (space t : List Char) (items : List α) (ha : P s a)
      (hspace : Space space) (ht : Separated Space P t items) :
      Separated Space P (s ++ (space ++ ',' :: t)) (a :: items)

theorem isSpace_append {a b : List Char} (ha : IsSpace a) (hb : IsSpace b) : IsSpace (a ++ b) := by
  unfold IsSpace
  rw [List.all_append, ha, hb]
  rfl

theorem skipSpace_append (hspace : IsSpace space) (rest : List Char) :
    skipSpace (space ++ rest) = skipSpace rest :=
  List.dropWhile_append_of_pos (List.all_eq_true.mp hspace)

theorem skipSpace_cons {c : Char} (hc : isSpace c = false) (rest : List Char) :
    skipSpace (c :: rest) = c :: rest := by
  unfold skipSpace
  rw [List.dropWhile_cons, hc]
  rfl

theorem Follows.spaced {space rest : List Char} (hspace : IsSpace space) (hrest : Follows rest) :
    Follows (space ++ rest) := by
  cases space with
  | nil => exact hrest
  | cons c space =>
    have hc : isSpace c = true := (Bool.and_eq_true_iff.mp hspace).1
    intro d hd
    cases hd
    unfold isSpace at hc
    simp only [Bool.or_eq_true, beq_iff_eq] at hc
    rcases hc with ((rfl | rfl) | rfl) | rfl <;> decide

theorem Separated.map {α β : Type} {Space Space' : List Char → Prop} {P : List Char → α → Prop}
    {Q : List Char → β → Prop} {s : List Char} {items : List α} (h : Separated Space P s items)
    (f : α → β) (hspace : ∀ s, Space s → Space' s) (hitem : ∀ s, ∀ a ∈ items, P s a → Q s (f a)) :
    Separated Space' Q s (items.map f) := by
  induction h with
  | last s a ha => exact .last s (f a) (hitem s a List.mem_cons_self ha)
  | more s a space t items ha hs _ ih =>
    refine .more s (f a) space t _ (hitem s a List.mem_cons_self ha) (hspace space hs) (ih ?_)
    exact fun s b hb => hitem s b (List.mem_cons_of_mem a hb)

theorem Separated.count_le {α : Type} {Space : List Char → Prop} {P : List Char → α → Prop}
    {s : List Char} {items : List α} (h : Separated Space P s items) :
    items.length ≤ s.length + 1 := by
  induction h with
  | last s a _ => exact Nat.le_add_left 1 s.length
  | more s a space t items _ _ _ ih =>
    simp only [List.length_cons, List.length_append]
    omega

/-- Items are read one after the other, up to the closing character. -/
theorem readSeparated_append {α : Type} {one : ℕ → Reader α} {s : List Char} {items : List α}
    (h : Separated IsSpace (TextOf one) s items) {close : Char} (hclose : Follows [close])
    (hspaced : isSpace close = false) (hcomma : close ≠ ',') {fuel count : ℕ}
    (hfuel : s.length < fuel) (hcount : items.length ≤ count) (hspace : IsSpace space)
    (rest : List Char) :
    readSeparated (one fuel) close count (s ++ (space ++ close :: rest)) = some (items, rest) := by
  induction h generalizing count with
  | last s a ha =>
    have hone : 1 ≤ count := hcount
    obtain ⟨count, rfl⟩ := Nat.exists_eq_add_of_le' hone
    have hfollows : Follows (space ++ close :: rest) := Follows.spaced hspace hclose
    simp only [readSeparated, ha fuel _ hfuel hfollows, skipSpace_append hspace,
      skipSpace_cons hspaced, if_true]
  | more s a before t items ha hbefore _ ih =>
    simp only [List.length_cons, List.length_append] at hcount hfuel
    obtain ⟨count, rfl⟩ := Nat.exists_eq_add_of_le' (Nat.le_trans (Nat.le_add_left 1 _) hcount)
    have hfollows : Follows (before ++ ',' :: (t ++ (space ++ close :: rest))) := by
      apply Follows.spaced hbefore
      intro c hc
      cases hc
      decide
    have hcommas : isSpace ',' = false := rfl
    have hrest := ih (by omega) (by omega : items.length ≤ count)
    simp only [List.append_assoc, List.cons_append]
    simp only [readSeparated, ha fuel _ (by omega) hfollows, skipSpace_append hbefore,
      skipSpace_cons hcommas, if_neg (Ne.symm hcomma), if_true, hrest, Option.map_some]

theorem readValue_spaced (hspace : IsSpace space) (fuel : ℕ) (rest : List Char) :
    readValue fuel (space ++ rest) = readValue fuel rest := by
  cases fuel with
  | zero => rfl
  | succ fuel => simp only [readValue, skipSpace_append hspace]

theorem readMember_spaced (hspace : IsSpace space) (value : Reader Value) (rest : List Char) :
    readMember value (space ++ rest) = readMember value rest := by
  simp only [readMember, skipSpace_append hspace]

theorem textOf_spaced {α : Type} {one : ℕ → Reader α} {space s : List Char} {a : α}
    (hone : ∀ fuel rest, one fuel (space ++ rest) = one fuel rest) (h : TextOf one s a) :
    TextOf one (space ++ s) a := by
  intro fuel rest hfuel hrest
  rw [List.length_append] at hfuel
  rw [List.append_assoc, hone]
  exact h fuel rest (by omega) hrest

/-- A bracket opens a list unless nothing but white space is inside. -/
theorem readListed_append {α : Type} {one : ℕ → Reader α} {s : List Char} {items : List α}
    (h : Separated IsSpace (TextOf one) s items) {close : Char} (hclose : Follows [close])
    (hspaced : isSpace close = false) (hcomma : close ≠ ',')
    (hnone : ∀ fuel text, (skipSpace text).head? = some close → one fuel text = none) {fuel : ℕ}
    (hfuel : s.length < fuel) (hspace : IsSpace space) (rest : List Char) :
    readListed (one fuel) close fuel (s ++ (space ++ close :: rest)) = some (items, rest) := by
  have hread : ∀ a t, TextOf one a t → a.length < fuel → ∀ more, Follows more →
      (skipSpace (a ++ more)).head? ≠ some close := by
    intro a t ha hlength more hmore hhead
    have hsome := ha fuel more hlength hmore
    rw [hnone fuel _ hhead] at hsome
    cases hsome
  have hopen : (skipSpace (s ++ (space ++ close :: rest))).head? ≠ some close := by
    cases h with
    | last _ a ha => exact hread s a ha hfuel _ (Follows.spaced hspace hclose)
    | more t a before more items ha hbefore =>
      rw [List.length_append] at hfuel
      rw [List.append_assoc]
      apply hread t a ha (by omega)
      rw [List.append_assoc]
      apply Follows.spaced hbefore
      intro c hc
      cases hc
      decide
  unfold readListed
  rw [if_neg hopen]
  exact readSeparated_append h hclose hspaced hcomma hfuel
    (Nat.le_trans h.count_le hfuel) hspace rest

theorem readListed_empty {α : Type} (one : Reader α) {close : Char}
    (hspaced : isSpace close = false) (fuel : ℕ) (hspace : IsSpace space) (rest : List Char) :
    readListed one close fuel (space ++ close :: rest) = some ([], rest) := by
  unfold readListed
  rw [skipSpace_append hspace, skipSpace_cons hspaced, List.head?_cons, if_pos rfl, List.tail_cons]

theorem readValue_closing (fuel : ℕ) (text : List Char)
    (h : (skipSpace text).head? = some ']') : readValue fuel text = none := by
  obtain ⟨rest, hrest⟩ := List.head?_eq_some_iff.mp h
  cases fuel with
  | zero => rfl
  | succ fuel =>
    simp only [readValue, hrest]
    rfl

theorem readMember_closing (value : Reader Value) (text : List Char)
    (h : (skipSpace text).head? = some '}') : readMember value text = none := by
  obtain ⟨rest, hrest⟩ := List.head?_eq_some_iff.mp h
  simp only [readMember, hrest]
  rfl

/-- The text of a value. -/
abbrev IsText : List Char → Value → Prop := TextOf readValue

/-- The text of a member. -/
abbrev IsMember : List Char → List ℕ × Value → Prop :=
  TextOf (fun fuel => readMember (readValue fuel))

theorem isText_string {s : List Char} {units : List ℕ} (h : UnitsText s units) :
    IsText ('"' :: s ++ ['"']) (.string units) := by
  intro fuel rest hfuel _
  obtain ⟨fuel, rfl⟩ := Nat.exists_eq_add_of_le' (Nat.succ_le_of_lt (Nat.zero_lt_of_lt hfuel))
  have hread := readString_append h rest
  rw [List.cons_append, List.cons_append, List.append_assoc, List.singleton_append]
  simp only [readValue, skipSpace_cons (rfl : isSpace '"' = false), if_true, hread, Option.map_some]

theorem isText_number {s : List Char} {q : ℚ} (h : NumberText s q) : IsText s (.number q) := by
  intro fuel rest hfuel hrest
  obtain ⟨fuel, rfl⟩ := Nat.exists_eq_add_of_le' (Nat.succ_le_of_lt (Nat.zero_lt_of_lt hfuel))
  have hread := readNumber_append h hrest
  obtain ⟨c, more, rfl, hc⟩ : ∃ c more, s = c :: more ∧ (c.isDigit = true ∨ c = '-') := by
    cases h with
    | positive s q h =>
      obtain ⟨c, more, hs, hc⟩ := h.head
      exact ⟨c, more, hs, Or.inl hc⟩
    | negative s q h => exact ⟨'-', s, rfl, Or.inr rfl⟩
  have hne : ∀ d : Char, d.isDigit = false → d ≠ '-' → c ≠ d := by
    rintro d hd hminus rfl
    rcases hc with hc | hc
    · rw [hd] at hc
      cases hc
    · exact hminus hc
  have hspace : isSpace c = false := by
    unfold isSpace
    simp only [Bool.or_eq_false_iff, beq_eq_false_iff_ne]
    refine ⟨⟨⟨?_, ?_⟩, ?_⟩, ?_⟩ <;> exact hne _ rfl (by decide)
  rw [List.cons_append] at hread ⊢
  simp only [readValue, skipSpace_cons hspace, if_neg (hne '"' rfl (by decide)),
    if_neg (hne '[' rfl (by decide)), if_neg (hne '{' rfl (by decide)),
    if_neg (hne 'n' rfl (by decide)), if_neg (hne 't' rfl (by decide)),
    if_neg (hne 'f' rfl (by decide)), hread, Option.map_some]

theorem isText_word {word : List Char} {v : Value}
    (hword : ∀ fuel rest, readValue (fuel + 1) (word ++ rest) = some (v, rest)) :
    IsText word v := by
  intro fuel rest hfuel _
  obtain ⟨fuel, rfl⟩ := Nat.exists_eq_add_of_le' (Nat.succ_le_of_lt (Nat.zero_lt_of_lt hfuel))
  exact hword fuel rest

theorem isText_null : IsText "null".toList .null := isText_word (fun _ _ => rfl)

theorem isText_bool (b : Bool) :
    IsText (if b then "true".toList else "false".toList) (.bool b) := by
  cases b with
  | true => exact isText_word (fun _ _ => rfl)
  | false => exact isText_word (fun _ _ => rfl)

theorem isText_array {s : List Char} {items : List Value} (h : Separated IsSpace IsText s items)
    (hspace : IsSpace space) : IsText ('[' :: s ++ (space ++ [']'])) (.array items) := by
  intro fuel rest hfuel _
  obtain ⟨fuel, rfl⟩ := Nat.exists_eq_add_of_le' (Nat.succ_le_of_lt (Nat.zero_lt_of_lt hfuel))
  simp only [List.length_append, List.length_cons, List.length_nil] at hfuel
  have hclose : Follows [']'] := by
    intro c hc
    cases hc
    decide
  have hread := readListed_append h hclose rfl (by decide) readValue_closing
    (by omega : s.length < fuel) hspace rest
  rw [List.cons_append, List.cons_append, List.append_assoc, List.append_assoc,
    List.singleton_append]
  simp only [readValue, skipSpace_cons (rfl : isSpace '[' = false), if_true, hread,
    Option.map_some]
  rfl

theorem isText_emptyArray (hspace : IsSpace space) :
    IsText ('[' :: (space ++ [']'])) (.array []) := by
  apply isText_word
  intro fuel rest
  rw [List.cons_append, List.append_assoc, List.singleton_append]
  simp only [readValue, skipSpace_cons (rfl : isSpace '[' = false), if_true,
    readListed_empty _ (rfl : isSpace ']' = false) fuel hspace rest, Option.map_some]
  rfl

/-- What is read as a string begins with a quote. -/
theorem readString_of_readValue {fuel : ℕ} {text rest : List Char} {units : List ℕ}
    (h : readValue fuel text = some (.string units, rest)) :
    ∃ inside, skipSpace text = '"' :: inside ∧ readString inside = some (units, rest) := by
  have hword : ∀ {word text : List Char} {v : Value}, (∀ units, v ≠ .string units) →
      readWord word v text ≠ some (.string units, rest) := by
    intro word text v hv h
    unfold readWord at h
    split_ifs at h
    exact hv units (Prod.mk.inj (Option.some.inj h)).1
  cases fuel with
  | zero => cases h
  | succ fuel =>
    unfold readValue at h
    split at h
    · cases h
    · rename_i c inside htext
      split_ifs at h with hquote
      · obtain ⟨⟨read, after⟩, hread, heq⟩ := Option.map_eq_some_iff.mp h
        cases heq
        exact ⟨inside, hquote ▸ htext, hread⟩
      · obtain ⟨_, -, heq⟩ := Option.map_eq_some_iff.mp h
        cases heq
      · obtain ⟨_, -, heq⟩ := Option.map_eq_some_iff.mp h
        cases heq
      · exact absurd h (hword (by simp))
      · exact absurd h (hword (by simp))
      · exact absurd h (hword (by simp))
      · obtain ⟨_, -, heq⟩ := Option.map_eq_some_iff.mp h
        cases heq

theorem isMember_of {name : List Char} {units : List ℕ} {s : List Char} {v : Value}
    (hname : IsText name (.string units)) (hs : IsText s v) {before after : List Char}
    (hbefore : IsSpace before) (hafter : IsSpace after) :
    IsMember (name ++ (before ++ ':' :: (after ++ s))) (units, v) := by
  intro fuel rest hfuel hrest
  simp only [List.length_append, List.length_cons] at hfuel
  have hfollows : Follows (before ++ ':' :: (after ++ (s ++ rest))) := by
    apply Follows.spaced hbefore
    intro c hc
    cases hc
    decide
  obtain ⟨inside, hquote, hread⟩ :=
    readString_of_readValue (hname fuel _ (by omega) hfollows)
  have hvalue := hs fuel rest (by omega) hrest
  simp only [List.cons_append, List.append_assoc]
  simp only [readMember, hquote, if_true, hread,
    skipSpace_append hbefore, skipSpace_cons (rfl : isSpace ':' = false),
    readValue_spaced hafter, hvalue, Option.map_some]

theorem isText_object {s : List Char} {members : List (List ℕ × Value)}
    (h : Separated IsSpace IsMember s members) (hspace : IsSpace space) :
    IsText ('{' :: s ++ (space ++ ['}'])) (.object members) := by
  intro fuel rest hfuel _
  obtain ⟨fuel, rfl⟩ := Nat.exists_eq_add_of_le' (Nat.succ_le_of_lt (Nat.zero_lt_of_lt hfuel))
  simp only [List.length_append, List.length_cons, List.length_nil] at hfuel
  have hclose : Follows ['}'] := by
    intro c hc
    cases hc
    decide
  have hread := readListed_append h hclose rfl (by decide)
    (fun fuel => readMember_closing (readValue fuel)) (by omega : s.length < fuel) hspace rest
  rw [List.cons_append, List.cons_append, List.append_assoc, List.append_assoc,
    List.singleton_append]
  simp only [readValue, skipSpace_cons (rfl : isSpace '{' = false), if_true, hread,
    Option.map_some]
  rfl

theorem isText_emptyObject (hspace : IsSpace space) :
    IsText ('{' :: (space ++ ['}'])) (.object []) := by
  apply isText_word
  intro fuel rest
  rw [List.cons_append, List.append_assoc, List.singleton_append]
  simp only [readValue, skipSpace_cons (rfl : isSpace '{' = false), if_true,
    readListed_empty _ (rfl : isSpace '}' = false) fuel hspace rest, Option.map_some]
  rfl

/-- A text of a value with white space after it is a JSON text. -/
theorem readJson_of_isText {s space : List Char} {v : Value} (h : IsText s v)
    (hspace : IsSpace space) : readJson (s ++ space) = some v := by
  have hfollows : Follows (space ++ []) := by
    apply Follows.spaced hspace
    intro c hc
    cases hc
  rw [List.append_nil] at hfollows
  have hlength : s.length < (s ++ space).length + 1 := by
    rw [List.length_append]
    omega
  unfold readJson
  rw [h _ space hlength hfollows]
  exact if_pos hspace

end Values

end Cusco.JsonTexts
