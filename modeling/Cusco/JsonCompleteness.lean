import Cusco.JsonGrammar
import Cusco.ScalarTexts

/-!
The grammar of JSON leaves no value out: whatever a JSON text can say, some text that the grammar
derives says as well. The compact text of a value is itself derived unless it holds the one
character that the grammar wants escaped and that printing leaves as it is.
-/

namespace Cusco.JsonCompleteness

open Gbnf GbnfTexts JsonTexts JsonValues JsonPrinting ScalarRules JsonGrammar
open ExpressibleValues ScalarTexts

section Joined

/-- The texts with commas between them. -/
def joined (texts : List (List Char)) : List Char := [','].intercalate texts

theorem joined_more (text next : List Char) (texts : List (List Char)) :
    joined (text :: next :: texts) = text ++ ',' :: joined (next :: texts) := rfl

theorem joined_single (text : List Char) : joined [text] = text := List.append_nil text

theorem joined_cons (text : List Char) (texts : List (List Char)) :
    joined (text :: texts) = text ++ (texts.map (fun t => ',' :: t)).flatten := by
  induction texts generalizing text with
  | nil => rfl
  | cons next texts ih =>
    rw [joined_more, ih, List.map_cons, List.flatten_cons, List.cons_append]

theorem mem_joined {texts : List (List Char)} {text : List Char} (htext : text ∈ texts) {c : Char}
    (hc : c ∈ text) : c ∈ joined texts := by
  cases texts with
  | nil => cases htext
  | cons first texts =>
    rw [joined_cons, List.mem_append]
    rcases List.mem_cons.mp htext with rfl | htext
    · exact Or.inl hc
    · refine Or.inr (List.mem_flatten.mpr ⟨',' :: text, ?_, List.mem_cons_of_mem ',' hc⟩)
      exact List.mem_map_of_mem htext

theorem separated_joined {α : Type} {P : List Char → α → Prop} {texts : List (List Char)}
    {values : List α} (h : List.Forall₂ P texts values) (hne : texts ≠ []) :
    Separated IsSpace P (joined texts) values := by
  induction h with
  | nil => exact absurd rfl hne
  | @cons text value texts values hfirst hrest ih =>
    cases hrest with
    | nil =>
      rw [joined_single]
      exact .last text value hfirst
    | @cons next _ texts values hnext hrest =>
      rw [joined_more]
      exact .more text value [] _ _ hfirst isSpace_nil (ih (List.cons_ne_nil next texts))

theorem exists_texts {α : Type} {P : List Char → α → Prop} {Q : List Char → Prop} {values : List α}
    (h : ∀ a ∈ values, ∃ t, Q t ∧ P t a) :
    ∃ texts, (∀ t ∈ texts, Q t) ∧ List.Forall₂ P texts values := by
  induction values with
  | nil => exact ⟨[], fun t ht => absurd ht List.not_mem_nil, .nil⟩
  | cons a values ih =>
    obtain ⟨t, hq, hp⟩ := h a List.mem_cons_self
    obtain ⟨texts, hall, htexts⟩ := ih (fun b hb => h b (List.mem_cons_of_mem a hb))
    exact ⟨t :: texts, List.forall_mem_cons.mpr ⟨hq, hall⟩, .cons hp htexts⟩

end Joined

section Rules

theorem derives_space : Derives jsonRules spaceItem [] :=
  .rule _ spaceExpr [] rfl (.left _ _ _ (.left _ _ _ (.text [])))

theorem derives_separator : Derives jsonRules (.sequence separator) [','] := by
  simp only [separator, derives_sequence_cons_iff, derives_sequence_nil_iff, derives_text_iff]
  exact ⟨[], _, derives_space, ⟨_, [], rfl, ⟨[], [], derives_space, rfl, rfl⟩, rfl⟩, rfl⟩

theorem derives_separated {items : List Expr} {texts : List (List Char)} (hne : texts ≠ [])
    (h : ∀ text ∈ texts, Derives jsonRules (.sequence items) text) :
    Derives jsonRules (separated items) (joined texts) := by
  cases texts with
  | nil => exact absurd rfl hne
  | cons text texts =>
    have hnext : ∀ piece ∈ texts.map (fun t => ',' :: t),
        Derives jsonRules (.sequence (separator ++ items)) piece := by
      intro piece hpiece
      obtain ⟨t, ht, rfl⟩ := List.mem_map.mp hpiece
      exact (derives_sequence_append_iff _ _).mpr
        ⟨[','], t, derives_separator, h t (List.mem_cons_of_mem text ht), rfl⟩
    rw [joined_cons]
    refine (derives_sequence_append_iff _ _).mpr ⟨text, _, h text List.mem_cons_self, ?_, rfl⟩
    refine (derives_sequence_cons_iff _ _).mpr ⟨_, [], ?_, derives_sequence_nil_iff.mpr rfl,
      (List.append_nil _).symm⟩
    exact (derives_any_iff _).mpr ⟨_, hnext, rfl⟩

/-- The kinds of values. -/
def kinds : List (List Char) :=
  ["object".toList, "array".toList, "string".toList, "number".toList, "boolean".toList,
    "null".toList]

theorem derives_value {kind s : List Char} (hkind : kind ∈ kinds)
    (h : Derives jsonRules (.rule kind) s) : Derives jsonRules valueItem s := by
  have hsingle : Derives jsonRules (.sequence [.rule kind]) s :=
    (derives_sequence_cons_iff _ _).mpr ⟨s, [], h, derives_sequence_nil_iff.mpr rfl,
      (List.append_nil s).symm⟩
  refine .rule _ valueExpr s rfl ?_
  simp only [valueExpr, derives_alt_iff]
  simp only [kinds, List.mem_cons, List.not_mem_nil, or_false] at hkind
  rcases hkind with rfl | rfl | rfl | rfl | rfl | rfl
  · exact Or.inl (Or.inl (Or.inl (Or.inl (Or.inl hsingle))))
  · exact Or.inl (Or.inl (Or.inl (Or.inl (Or.inr hsingle))))
  · exact Or.inl (Or.inl (Or.inl (Or.inr hsingle)))
  · exact Or.inl (Or.inl (Or.inr hsingle))
  · exact Or.inl (Or.inr hsingle)
  · exact Or.inr hsingle

theorem derives_scalar (kind : List Char) {s : List Char} {e : Expr} (hkind : kind ∈ kinds)
    (he : jsonRules.lookup kind = some e) (h : Derives jsonRules e s) :
    Derives jsonRules valueItem s :=
  derives_value hkind (.rule kind e s he h)

theorem derives_member {name s : List Char} (hname : Derives jsonRules stringExpr name)
    (hs : Derives jsonRules valueItem s) :
    Derives jsonRules (.sequence memberItems) (name ++ ':' :: s) := by
  have hstring : Derives jsonRules stringItem name := .rule _ stringExpr name rfl hname
  simp only [memberItems, derives_sequence_cons_iff, derives_sequence_nil_iff, derives_text_iff]
  exact ⟨name, _, hstring, ⟨[], _, derives_space, ⟨[':'], _, rfl, ⟨[], _, derives_space,
    ⟨s, [], hs, rfl, (List.append_nil s).symm⟩, rfl⟩, rfl⟩, rfl⟩, rfl⟩

/-- Items between brackets. -/
theorem derives_bracketed {left right : Char} {items : List Expr} {texts : List (List Char)}
    (h : ∀ text ∈ texts, Derives jsonRules (.sequence items) text) :
    Derives jsonRules (.sequence [.text [left], spaceItem,
      .repeated (separated items) 0 (some 1), spaceItem, .text [right]])
      (left :: (joined texts ++ [right])) := by
  have hinner : Derives jsonRules (.repeated (separated items) 0 (some 1)) (joined texts) := by
    rw [derives_optional_iff]
    by_cases hne : texts = []
    · subst hne
      exact Or.inl rfl
    · exact Or.inr (derives_separated hne h)
  simp only [derives_sequence_cons_iff, derives_sequence_nil_iff, derives_text_iff]
  exact ⟨[left], _, rfl, ⟨[], _, derives_space, ⟨_, _, hinner, ⟨[], _, derives_space,
    ⟨[right], [], rfl, rfl, rfl⟩, rfl⟩, rfl⟩, rfl⟩, rfl⟩

theorem derives_array {texts : List (List Char)}
    (h : ∀ text ∈ texts, Derives jsonRules valueItem text) :
    Derives jsonRules valueItem ('[' :: (joined texts ++ [']'])) := by
  refine derives_scalar "array".toList (by decide) rfl (derives_bracketed ?_)
  intro text htext
  exact (derives_sequence_cons_iff _ _).mpr ⟨text, [], h text htext,
    derives_sequence_nil_iff.mpr rfl, (List.append_nil text).symm⟩

theorem derives_object {texts : List (List Char)}
    (h : ∀ text ∈ texts, Derives jsonRules (.sequence memberItems) text) :
    Derives jsonRules valueItem ('{' :: (joined texts ++ ['}'])) :=
  derives_scalar "object".toList (by decide) rfl (derives_bracketed h)

theorem derives_root {s : List Char} (h : Derives jsonRules valueItem s) :
    Derives jsonRules (.rule "root".toList) s := by
  refine .rule _ rootExpr s rfl ?_
  simp only [rootExpr, derives_sequence_cons_iff, derives_sequence_nil_iff]
  exact ⟨s, [], h, ⟨[], [], derives_space, rfl, rfl⟩, (List.append_nil s).symm⟩

end Rules

section Values

/-- Every value that a text can have has a text that the grammar derives. -/
theorem exists_derived {v : Value} (h : Expressible v) :
    ∃ s, Derives jsonRules valueItem s ∧ IsText s v := by
  induction h with
  | null => exact ⟨_, derives_scalar "null".toList (by decide) rfl derives_null, isText_null⟩
  | bool b =>
    exact ⟨_, derives_scalar "boolean".toList (by decide) rfl (derives_boolean b), isText_bool b⟩
  | number s q hs =>
    exact ⟨s, derives_scalar "number".toList (by decide) rfl (derives_number hs), isText_number hs⟩
  | string units hunits =>
    obtain ⟨inside, hinside, htext⟩ := exists_string hunits
    exact ⟨_, derives_scalar "string".toList (by decide) rfl hinside, isText_string htext⟩
  | array items _ ih =>
    obtain ⟨texts, hderives, htexts⟩ := exists_texts ih
    refine ⟨_, derives_array hderives, ?_⟩
    by_cases hne : texts = []
    · subst hne
      cases htexts
      exact isText_emptyArray isSpace_nil
    · exact isText_array (separated_joined htexts hne) isSpace_nil
  | object members hnames _ ih =>
    have hmembers : ∀ m ∈ members, ∃ s, Derives jsonRules (.sequence memberItems) s ∧
        IsMember s m := by
      intro m hm
      obtain ⟨s, hs, htext⟩ := ih m hm
      obtain ⟨inside, hinside, hname⟩ := exists_string (hnames m hm)
      refine ⟨_, derives_member hinside hs, ?_⟩
      exact isMember_of (isText_string hname) htext isSpace_nil isSpace_nil
    obtain ⟨texts, hderives, htexts⟩ := exists_texts hmembers
    refine ⟨_, derives_object hderives, ?_⟩
    by_cases hne : texts = []
    · subst hne
      cases htexts
      exact isText_emptyObject isSpace_nil
    · exact isText_object (separated_joined htexts hne) isSpace_nil

end Values

section Printed

variable (floats : Floats)

theorem printItems_joined (items : List Json) :
    printItems floats items = joined (items.map (print floats)) := by
  induction items with
  | nil => rfl
  | cons item items ih =>
    cases items with
    | nil => exact (joined_single (print floats item)).symm
    | cons next items =>
      rw [printItems, ih]
      rfl

def printField (field : String × Json) : List Char :=
  printString field.1 ++ ':' :: print floats field.2

theorem printFields_joined (fields : List (String × Json)) :
    printFields floats fields = joined (fields.map (printField floats)) := by
  induction fields with
  | nil => rfl
  | cons field fields ih =>
    cases fields with
    | nil => exact (joined_single (printField floats field)).symm
    | cons next fields =>
      rw [printFields, ih]
      rfl

theorem derives_printNumber (n : Number) :
    Derives jsonRules valueItem (print floats (.number n)) :=
  derives_scalar "number".toList (by decide) rfl (derives_number (numberText_print floats n))

mutual

/-- The strings and the member names in a value. -/
def texts : Json → List String
  | .string s => [s]
  | .array items => textsOfItems items
  | .object fields => textsOfFields fields
  | .null | .bool _ | .number _ => []

def textsOfItems : List Json → List String
  | [] => []
  | item :: items => texts item ++ textsOfItems items

def textsOfFields : List (String × Json) → List String
  | [] => []
  | (key, field) :: fields => key :: (texts field ++ textsOfFields fields)

end

/-- None of the texts holds the character. -/
def Free (texts : List String) : Prop := ∀ s ∈ texts, delete ∉ s.toList

theorem free_append_iff (a b : List String) : Free (a ++ b) ↔ Free a ∧ Free b :=
  List.forall_mem_append

theorem free_cons_iff (s : String) (b : List String) :
    Free (s :: b) ↔ delete ∉ s.toList ∧ Free b :=
  List.forall_mem_cons

mutual

theorem derives_print : (j : Json) → Free (texts j) → Derives jsonRules valueItem (print floats j)
  | .null, _ => derives_scalar "null".toList (by decide) rfl derives_null
  | .bool b, _ => derives_scalar "boolean".toList (by decide) rfl (derives_boolean b)
  | .number n, _ => derives_printNumber floats n
  | .string s, h => derives_scalar "string".toList (by decide) rfl
      (derives_printString (h s List.mem_cons_self))
  | .array items, h => by
    rw [print, printItems_joined]
    exact derives_array (derives_printItems items h)
  | .object fields, h => by
    rw [print, printFields_joined]
    exact derives_object (derives_printFields fields h)

theorem derives_printItems : (items : List Json) → Free (textsOfItems items) →
    ∀ text ∈ items.map (print floats), Derives jsonRules valueItem text
  | [], _ => fun _ h => absurd h List.not_mem_nil
  | item :: items, h => by
    obtain ⟨hitem, hitems⟩ := (free_append_iff _ _).mp h
    exact List.forall_mem_cons.mpr ⟨derives_print item hitem, derives_printItems items hitems⟩

theorem derives_printFields : (fields : List (String × Json)) → Free (textsOfFields fields) →
    ∀ text ∈ fields.map (printField floats), Derives jsonRules (.sequence memberItems) text
  | [], _ => fun _ h => absurd h List.not_mem_nil
  | (key, field) :: fields, h => by
    obtain ⟨hkey, h⟩ := (free_cons_iff _ _).mp h
    obtain ⟨hfield, hfields⟩ := (free_append_iff _ _).mp h
    exact List.forall_mem_cons.mpr
      ⟨derives_member (derives_printString hkey) (derives_print field hfield),
        derives_printFields fields hfields⟩

end

mutual

theorem mem_print : (j : Json) → ¬Free (texts j) → delete ∈ print floats j
  | .null, h | .bool _, h | .number _, h => absurd (fun _ hs => absurd hs List.not_mem_nil) h
  | .string s, h => by
    by_contra hnot
    exact h (List.forall_mem_singleton.mpr (fun hs => hnot (mem_printString hs)))
  | .array items, h => by
    obtain ⟨text, htext, hmem⟩ := mem_printItems items h
    rw [print, printItems_joined]
    exact List.mem_cons_of_mem _ (List.mem_append_left _ (mem_joined htext hmem))
  | .object fields, h => by
    obtain ⟨text, htext, hmem⟩ := mem_printFields fields h
    rw [print, printFields_joined]
    exact List.mem_cons_of_mem _ (List.mem_append_left _ (mem_joined htext hmem))

theorem mem_printItems : (items : List Json) → ¬Free (textsOfItems items) →
    ∃ text ∈ items.map (print floats), delete ∈ text
  | [], h => absurd (fun _ hs => absurd hs List.not_mem_nil) h
  | item :: items, h => by
    rcases not_and_or.mp (mt (free_append_iff _ _).mpr h) with hitem | hitems
    · exact ⟨_, List.mem_cons_self, mem_print item hitem⟩
    · obtain ⟨text, htext, hmem⟩ := mem_printItems items hitems
      exact ⟨text, List.mem_cons_of_mem _ htext, hmem⟩

theorem mem_printFields : (fields : List (String × Json)) → ¬Free (textsOfFields fields) →
    ∃ text ∈ fields.map (printField floats), delete ∈ text
  | [], h => absurd (fun _ hs => absurd hs List.not_mem_nil) h
  | (key, field) :: fields, h => by
    rcases not_and_or.mp (mt (free_cons_iff _ _).mpr h) with hkey | hrest
    · exact ⟨_, List.mem_cons_self,
        List.mem_append_left _ (mem_printString (not_not.mp hkey))⟩
    rcases not_and_or.mp (mt (free_append_iff _ _).mpr hrest) with hfield | hfields
    · exact ⟨_, List.mem_cons_self, List.mem_append_right _
        (List.mem_cons_of_mem ':' (mem_print field hfield))⟩
    · obtain ⟨text, htext, hmem⟩ := mem_printFields fields hfields
      exact ⟨text, List.mem_cons_of_mem _ htext, hmem⟩

end

/-- The character is printed only where a string or a member name holds it. -/
theorem free_iff (j : Json) : Free (texts j) ↔ delete ∉ print floats j := by
  constructor
  · intro h
    have hrules : ∀ rule ∈ jsonRules, rule.2.avoids delete = true := by decide
    exact not_mem_of_derives hrules rfl (derives_print floats j h)
  · exact fun h => not_not.mp (mt (mem_print floats j) h)

end Printed

section Theorems

/-- Whatever value a JSON text has, the grammar derives a text with this value. -/
theorem jsonGrammar_complete :
    ∃ rules, readGrammar jsonGrammar = some rules ∧
      ∀ text v, readJson text = some v →
        ∃ s, Derives rules (.rule "root".toList) s ∧ readJson s = some v := by
  refine ⟨jsonRules, readGrammar_jsonGrammar, ?_⟩
  intro text v htext
  obtain ⟨s, hs, hvalue⟩ := exists_derived (expressible_of_readJson htext)
  have hread := readJson_of_isText hvalue isSpace_nil
  rw [List.append_nil] at hread
  exact ⟨s, derives_root hs, hread⟩

/-- The compact text of a value is derived exactly when it does not hold the character U+007F,
and that is when no string and no member name of the value holds it. -/
theorem jsonGrammar_prints (floats : Floats) :
    ∃ rules, readGrammar jsonGrammar = some rules ∧
      ∀ j, (Derives rules (.rule "root".toList) (print floats j) ↔
          Char.ofNat 0x7F ∉ print floats j) ∧
        (Char.ofNat 0x7F ∉ print floats j ↔ ∀ s ∈ texts j, Char.ofNat 0x7F ∉ s.toList) := by
  refine ⟨jsonRules, readGrammar_jsonGrammar, ?_⟩
  intro j
  refine ⟨⟨?_, ?_⟩, (free_iff floats j).symm⟩
  · have hrules : ∀ rule ∈ jsonRules, rule.2.avoids delete = true := by decide
    exact not_mem_of_derives hrules rfl
  · exact fun h => derives_root (derives_print floats j ((free_iff floats j).mpr h))

end Theorems

end Cusco.JsonCompleteness
