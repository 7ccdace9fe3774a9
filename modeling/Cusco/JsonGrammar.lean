import Cusco.ScalarRules

/-!
The grammar of JSON that constrains generation when no schema is given. Every text that it derives
is read as a JSON value, nested to any depth: the meaning that reading gives to its names is kept
by each of its rules.
-/

namespace Cusco.JsonGrammar

open Gbnf GbnfTexts JsonTexts ScalarRules SchemaGrammars

section Lines

def rootLine : List Char := "root ::= value space\n".toList

def valueLine : List Char :=
  "value ::= object | array | string | number | boolean | null\n".toList

def objectLine : List Char :=
  "object ::= \"\x7b\" space (string space \":\" space value ".toList ++
    "(space \",\" space string space \":\" space value)*)? space \"\x7d\"\n".toList

def arrayLine : List Char :=
  "array ::= \"[\" space (value (space \",\" space value)*)? space \"]\"\n".toList

def stringLine : List Char :=
  "string ::= \"\\\"\" ([^\"\\\\\\x7F\\x00-\\x1F] | \"\\\\\" ".toList ++
    ("([\"\\\\/bfnrt] | \"u\" [0-9a-fA-F] [0-9a-fA-F] [0-9a-fA-F] [0-9a-fA-F]))* ".toList ++
      "\"\\\"\"\n".toList)

def spaceLine : List Char := "space ::= | \" \" | \"\\n\" [ \\t]{0,20}\n".toList

/-- `json_grammar`. -/
def jsonGrammar : List Char :=
  rootLine ++ (valueLine ++ (objectLine ++ (arrayLine ++ (stringLine ++ (numberRule ++
    (booleanRule ++ (nullRule ++ spaceLine)))))))

end Lines

section Rules

def spaceItem : Expr := .rule "space".toList

def stringItem : Expr := .rule "string".toList

def valueItem : Expr := .rule "value".toList

def rootExpr : Expr := .sequence [valueItem, spaceItem]

def valueExpr : Expr :=
  .alt (.alt (.alt (.alt (.alt (.sequence [.rule "object".toList])
    (.sequence [.rule "array".toList])) (.sequence [stringItem]))
    (.sequence [.rule "number".toList])) (.sequence [.rule "boolean".toList]))
    (.sequence [.rule "null".toList])

def memberItems : List Expr := [stringItem, spaceItem, .text [':'], spaceItem, valueItem]

def separator : List Expr := [spaceItem, .text [','], spaceItem]

/-- These items once or more, with commas between them. -/
def separated (items : List Expr) : Expr :=
  .sequence (items ++ [.repeated (.sequence (separator ++ items)) 0 none])

def objectExpr : Expr :=
  .sequence [.text ['{'], spaceItem, .repeated (separated memberItems) 0 (some 1), spaceItem,
    .text ['}']]

def arrayExpr : Expr :=
  .sequence [.text ['['], spaceItem, .repeated (separated [valueItem]) 0 (some 1), spaceItem,
    .text [']']]

def jsonRules : Rules :=
  [("root".toList, rootExpr), ("value".toList, valueExpr), ("object".toList, objectExpr),
    ("array".toList, arrayExpr), ("string".toList, stringExpr), ("number".toList, numberExpr),
    ("boolean".toList, booleanExpr), ("null".toList, nullExpr), ("space".toList, spaceExpr)]

theorem spells_root (rs : Rules) :
    Spells ⟨rs, .between⟩ rootLine ⟨rs ++ [("root".toList, rootExpr)], .between⟩ := by
  intro rest
  rfl

theorem spells_value (rs : Rules) :
    Spells ⟨rs, .between⟩ valueLine ⟨rs ++ [("value".toList, valueExpr)], .between⟩ := by
  intro rest
  rfl

theorem spells_object (rs : Rules) :
    Spells ⟨rs, .between⟩ objectLine ⟨rs ++ [("object".toList, objectExpr)], .between⟩ := by
  have hfirst : Spells ⟨rs, .between⟩
      "object ::= \"\x7b\" space (string space \":\" space value ".toList
      ⟨rs, .body "object".toList (Frame.new.pushAll memberItems)
        [Frame.new.pushAll [.text ['{'], spaceItem]]⟩ := by
    intro rest
    rfl
  have hothers : Spells ⟨rs, .body "object".toList (Frame.new.pushAll memberItems)
        [Frame.new.pushAll [.text ['{'], spaceItem]]⟩
      "(space \",\" space string space \":\" space value)*)? space \"\x7d\"\n".toList
      ⟨rs ++ [("object".toList, objectExpr)], .between⟩ := by
    intro rest
    rfl
  exact hfirst.append hothers

theorem spells_array (rs : Rules) :
    Spells ⟨rs, .between⟩ arrayLine ⟨rs ++ [("array".toList, arrayExpr)], .between⟩ := by
  intro rest
  rfl

theorem spells_string (rs : Rules) :
    Spells ⟨rs, .between⟩ stringLine ⟨rs ++ [("string".toList, stringExpr)], .between⟩ := by
  intro rest
  rfl

theorem spells_space (rs : Rules) :
    Spells ⟨rs, .between⟩ spaceLine ⟨rs ++ [("space".toList, spaceExpr)], .between⟩ := by
  intro rest
  rfl

theorem readGrammar_jsonGrammar : readGrammar jsonGrammar = some jsonRules := by
  have hspells := (spells_root []).append ((spells_value _).append ((spells_object _).append
    ((spells_array _).append ((spells_string _).append ((spells_number _).append
      ((spells_boolean _).append ((spells_null _).append (spells_space _))))))))
  have hread := hspells []
  rw [List.append_nil] at hread
  exact hread

end Rules

section Separations

variable {α : Type} {one : ℕ → Reader α}

/-- A comma between spaces, and the text of an item after it. -/
def IsNext (one : ℕ → Reader α) (piece : List Char) : Prop :=
  ∃ before after s a, IsSpace before ∧ IsSpace after ∧ TextOf one s a ∧
    piece = before ++ ',' :: (after ++ s)

theorem separated_of_pieces
    (hone : ∀ space, IsSpace space → ∀ fuel rest, one fuel (space ++ rest) = one fuel rest)
    (pieces : List (List Char)) (hpieces : ∀ piece ∈ pieces, IsNext one piece) {s : List Char}
    {a : α} (hs : TextOf one s a) :
    ∃ items, Separated IsSpace (TextOf one) (s ++ pieces.flatten) items := by
  induction pieces generalizing s a with
  | nil =>
    rw [List.flatten_nil, List.append_nil]
    exact ⟨[a], .last s a hs⟩
  | cons piece pieces ih =>
    obtain ⟨before, after, t, b, hbefore, hafter, ht, rfl⟩ := hpieces piece List.mem_cons_self
    obtain ⟨items, hitems⟩ := ih (fun piece hp => hpieces piece (List.mem_cons_of_mem _ hp))
      (textOf_spaced (hone after hafter) ht)
    have hmore := Separated.more s a before _ items hs hbefore hitems
    refine ⟨a :: items, ?_⟩
    rw [List.flatten_cons, List.append_assoc, List.cons_append]
    exact hmore

end Separations

section Meanings

/-- What reading makes of the texts of a name. -/
def meaning (name s : List Char) : Prop :=
  if name = "root".toList then ∃ v, readJson s = some v
  else if name = "space".toList then IsSpace s
  else if name = "string".toList then
    ∃ inside units, s = '"' :: inside ++ ['"'] ∧ UnitsText inside units
  else ∃ v, IsText s v

variable {s : List Char}

theorem denotes_space : spaceItem.Denotes meaning s ↔ IsSpace s := Iff.rfl

theorem denotes_string : stringItem.Denotes meaning s ↔
    ∃ inside units, s = '"' :: inside ++ ['"'] ∧ UnitsText inside units := Iff.rfl

theorem denotes_value : valueItem.Denotes meaning s ↔ ∃ v, IsText s v := Iff.rfl

theorem denotes_single {item : Expr} (h : (Expr.sequence [item]).Denotes meaning s) :
    item.Denotes meaning s := by
  simp only [denotes_sequence_cons_iff, denotes_sequence_nil_iff] at h
  obtain ⟨t, _, ht, rfl, rfl⟩ := h
  rw [List.append_nil]
  exact ht

theorem readJson_of_root (h : rootExpr.Denotes meaning s) : ∃ v, readJson s = some v := by
  simp only [rootExpr, denotes_sequence_cons_iff, denotes_sequence_nil_iff, denotes_space,
    denotes_value] at h
  obtain ⟨t, _, ⟨v, ht⟩, ⟨space, _, hspace, rfl, rfl⟩, rfl⟩ := h
  rw [List.append_nil]
  exact ⟨v, readJson_of_isText ht hspace⟩

theorem isText_of_string (h : stringItem.Denotes meaning s) : ∃ v, IsText s v := by
  obtain ⟨inside, units, rfl, hunits⟩ := denotes_string.mp h
  exact ⟨.string units, isText_string hunits⟩

theorem isText_of_value (h : valueExpr.Denotes meaning s) : ∃ v, IsText s v := by
  rcases h with ((((h | h) | h) | h) | h) | h
  · exact denotes_single h
  · exact denotes_single h
  · exact isText_of_string (denotes_single h)
  · exact denotes_single h
  · exact denotes_single h
  · exact denotes_single h

theorem isMember_of_member (h : (Expr.sequence memberItems).Denotes meaning s) :
    ∃ m, IsMember s m := by
  simp only [memberItems, denotes_sequence_cons_iff, denotes_sequence_nil_iff, denotes_space,
    denotes_string, denotes_value, Expr.Denotes] at h
  obtain ⟨_, _, ⟨name, units, rfl, hname⟩, ⟨before, _, hbefore, ⟨_, _, rfl, ⟨after, _, hafter,
    ⟨t, _, ⟨v, ht⟩, rfl, rfl⟩, rfl⟩, rfl⟩, rfl⟩, rfl⟩ := h
  have hmember := isMember_of (isText_string hname) ht hbefore hafter
  refine ⟨(units, v), ?_⟩
  simp only [List.append_assoc, List.cons_append, List.nil_append, List.append_nil] at hmember ⊢
  exact hmember

/-- Items with commas between them, after white space. -/
theorem separated_of_items {α : Type} {one : ℕ → Reader α}
    (hone : ∀ space, IsSpace space → ∀ fuel rest, one fuel (space ++ rest) = one fuel rest)
    (items : List Expr)
    (hitems : ∀ s, (Expr.sequence items).Denotes meaning s → ∃ a, TextOf one s a)
    (h : (separated items).Denotes meaning s) {space : List Char} (hspace : IsSpace space) :
    ∃ found, Separated IsSpace (TextOf one) (space ++ s) found := by
  simp only [separated, separator, denotes_sequence_append_iff, denotes_sequence_cons_iff,
    denotes_sequence_nil_iff, denotes_any_iff, denotes_space] at h
  obtain ⟨t, _, ht, ⟨_, _, ⟨pieces, hpieces, rfl⟩, rfl, rfl⟩, rfl⟩ := h
  obtain ⟨a, ha⟩ := hitems t ht
  have hnext : ∀ piece ∈ pieces, IsNext one piece := by
    intro piece hpiece
    obtain ⟨_, u, ⟨before, _, hbefore, ⟨_, _, hcomma, ⟨after, _, hafter, rfl, rfl⟩, rfl⟩, rfl⟩,
      hu, rfl⟩ := hpieces piece hpiece
    obtain rfl : _ = [','] := hcomma
    obtain ⟨b, hb⟩ := hitems u hu
    refine ⟨before, after, u, b, hbefore, hafter, hb, ?_⟩
    simp only [List.append_assoc, List.cons_append, List.nil_append]
  rw [List.append_nil, ← List.append_assoc]
  exact separated_of_pieces hone pieces hnext (textOf_spaced (hone space hspace) ha)

theorem isText_of_array (h : arrayExpr.Denotes meaning s) : ∃ v, IsText s v := by
  simp only [arrayExpr, denotes_sequence_cons_iff, denotes_sequence_nil_iff, denotes_space,
    denotes_optional_iff] at h
  obtain ⟨_, _, rfl, ⟨before, _, hbefore, ⟨inner, _, hinner, ⟨after, _, hafter, ⟨_, _, rfl, rfl,
    rfl⟩, rfl⟩, rfl⟩, rfl⟩, rfl⟩ := h
  have hitem : ∀ s, (Expr.sequence [valueItem]).Denotes meaning s → ∃ v, IsText s v :=
    fun s hs => denotes_value.mp (denotes_single hs)
  rcases hinner with rfl | hinner
  · have htext := isText_emptyArray (isSpace_append hbefore hafter)
    refine ⟨.array [], ?_⟩
    simp only [List.append_assoc, List.cons_append, List.nil_append] at htext ⊢
    exact htext
  · obtain ⟨values, hvalues⟩ :=
      separated_of_items (fun _ => readValue_spaced) [valueItem] hitem hinner hbefore
    have htext := isText_array hvalues hafter
    refine ⟨.array values, ?_⟩
    simp only [List.append_assoc, List.cons_append, List.nil_append] at htext ⊢
    exact htext

theorem isText_of_object (h : objectExpr.Denotes meaning s) : ∃ v, IsText s v := by
  simp only [objectExpr, denotes_sequence_cons_iff, denotes_sequence_nil_iff, denotes_space,
    denotes_optional_iff] at h
  obtain ⟨_, _, rfl, ⟨before, _, hbefore, ⟨inner, _, hinner, ⟨after, _, hafter, ⟨_, _, rfl, rfl,
    rfl⟩, rfl⟩, rfl⟩, rfl⟩, rfl⟩ := h
  rcases hinner with rfl | hinner
  · have htext := isText_emptyObject (isSpace_append hbefore hafter)
    refine ⟨.object [], ?_⟩
    simp only [List.append_assoc, List.cons_append, List.nil_append] at htext ⊢
    exact htext
  · obtain ⟨members, hmembers⟩ :=
      separated_of_items (fun _ hspace fuel => readMember_spaced hspace (readValue fuel))
        memberItems (fun _ => isMember_of_member) hinner hbefore
    have htext := isText_object hmembers hafter
    refine ⟨.object members, ?_⟩
    simp only [List.append_assoc, List.cons_append, List.nil_append] at htext ⊢
    exact htext

/-- The scalar rules name no others. -/
theorem derives_of_scalar {e : Expr} (hfree : e.ruleFree = true) (h : e.Denotes meaning s) :
    Derives [] e s :=
  (derives_iff e s).mpr ((denotes_of_ruleFree e hfree s).mp h)

/-- Every rule keeps the meaning of its name. -/
theorem meaning_of_rule {name : List Char} {e : Expr} (he : jsonRules.lookup name = some e)
    (hs : e.Denotes meaning s) : meaning name s := by
  have hmem : (name, e) ∈ jsonRules := mem_of_lookup he
  simp only [jsonRules, List.mem_cons, List.not_mem_nil, or_false, Prod.mk.injEq] at hmem
  rcases hmem with ⟨rfl, rfl⟩ | ⟨rfl, rfl⟩ | ⟨rfl, rfl⟩ | ⟨rfl, rfl⟩ | ⟨rfl, rfl⟩ | ⟨rfl, rfl⟩ |
    ⟨rfl, rfl⟩ | ⟨rfl, rfl⟩ | ⟨rfl, rfl⟩
  · exact readJson_of_root hs
  · exact isText_of_value hs
  · exact isText_of_object hs
  · exact isText_of_array hs
  · exact string_units (derives_of_scalar rfl hs)
  · obtain ⟨q, hq⟩ := number_text (derives_of_scalar rfl hs)
    exact ⟨.number q, hq⟩
  · obtain ⟨b, hb⟩ := boolean_text (derives_of_scalar rfl hs)
    exact ⟨.bool b, hb⟩
  · exact ⟨.null, null_text (derives_of_scalar rfl hs)⟩
  · exact space_text (derives_of_scalar rfl hs)

/-- Every text that the grammar derives is a JSON text. -/
theorem jsonGrammar_sound :
    ∃ rules, readGrammar jsonGrammar = some rules ∧
      ∀ s, Derives rules (.rule "root".toList) s → ∃ v, readJson s = some v := by
  refine ⟨jsonRules, readGrammar_jsonGrammar, ?_⟩
  intro s hs
  have hmeaning := denotes_of_closed (fun _ _ _ => meaning_of_rule) hs
  exact hmeaning

end Meanings

end Cusco.JsonGrammar
