import Cusco.ScalarRules
import Cusco.SchemaValidity

/-!
What the compiler makes of a schema: the cases of a compiled schema, the texts it stands for and
their values, and the reading of the rules it writes.
-/

namespace Cusco.CompiledSchemas

open Gbnf GbnfTexts JsonTexts JsonValues JsonPrinting SchemaGrammars SchemaValidity ScalarRules

variable {floats : Floats} {emits : Json → List Char → Value → Prop}

section Outcomes

/-- The types without parts. -/
inductive Scalar
  | string
  | integer
  | number
  | boolean
  | null

def Scalar.kind : Scalar → String
  | .string => "string"
  | .integer => "integer"
  | .number => "number"
  | .boolean => "boolean"
  | .null => "null"

def Scalar.ruleName : Scalar → List Char
  | .string => "json-string".toList
  | .integer => "integer".toList
  | .number => "number".toList
  | .boolean => "boolean".toList
  | .null => "null".toList

def Scalar.expr : Scalar → Expr
  | .string => stringExpr
  | .integer => integerExpr
  | .number => numberExpr
  | .boolean => booleanExpr
  | .null => nullExpr

variable (printer : Printer floats)

/-- How a schema was compiled, and what to. -/
inductive Outcome (bound : ℕ) (c : Compiler) (schema : Json) : List Char → Compiler → Prop
  | const (value : Json) (hvalue : schema.get "const" = some value) :
      Outcome bound c schema (literal printer value) c
  | enum (values : List Json) (hconst : schema.get "const" = none)
      (henum : schema.get "enum" = some (.array values)) (hne : values ≠ []) :
      Outcome bound c schema (" | ".toList.intercalate (values.map (literal printer))) c
  | scalar (kind : Scalar) (hplain : IsPlain schema)
      (htype : schema.get "type" = some (.string kind.kind)) :
      Outcome bound c schema kind.ruleName c
  | object (properties : List (String × Json)) (required : List Json) (path : String)
      (members : List (List Char)) (c' : Compiler) (hplain : IsPlain schema)
      (htype : schema.get "type" = some (.string "object"))
      (hadditional : schema.get "additionalProperties" = some (.bool false))
      (hproperties : schema.get "properties" = some (.object properties))
      (hrequired : schema.get "required" = some (.array required))
      (hlength : required.length = properties.length)
      (hall : ∀ property ∈ properties, .string property.1 ∈ required)
      (hmembers : c.members printer (Compiler.compile printer bound) path properties =
        some (.ok (members, c'))) :
      Outcome bound c schema (c'.rule "object".toList (objectBody members)).1
        (c'.rule "object".toList (objectBody members)).2
  | array (items : Json) (path : String) (item : List Char) (c' : Compiler)
      (hplain : IsPlain schema) (htype : schema.get "type" = some (.string "array"))
      (hitems : schema.get "items" = some items)
      (hitem : Compiler.compile printer bound c items path = some (.ok (item, c'))) :
      Outcome bound c schema (c'.rule "array".toList (arrayBody item)).1
        (c'.rule "array".toList (arrayBody item)).2

variable {printer}

theorem asStr_eq {j : Json} {s : String} (h : j.asStr = some s) : j = .string s := by
  cases j with
  | string t =>
    cases h
    rfl
  | _ => cases h

theorem object_ok {bound : ℕ} {c : Compiler} {schema : Json} {path : String} {t : List Char}
    {c' : Compiler} (hplain : IsPlain schema)
    (htype : schema.get "type" = some (.string "object"))
    (h : c.object printer (Compiler.compile printer bound) schema path = some (.ok (t, c'))) :
    Outcome printer bound c schema t c' := by
  unfold Compiler.object at h
  split at h
  · next hadditional =>
    split at h
    · next properties hproperties =>
      split at h
      · next required hrequired =>
        split_ifs at h with hcheck
        · cases h
        split at h
        · cases h
        · cases h
        · next members c' hmembers =>
          cases h
          obtain ⟨hlength, hall⟩ := not_or.mp hcheck
          refine .object properties required path members c' hplain htype hadditional hproperties
            hrequired (by simpa using hlength) ?_ hmembers
          intro property hproperty
          simp only [List.any_eq_true, Bool.not_eq_true', not_exists, not_and,
            Bool.not_eq_false] at hall
          obtain ⟨name, hname, heq⟩ := hall property hproperty
          exact asStr_eq (beq_iff_eq.mp heq) ▸ hname
      · cases h
    · cases h
  · cases h

theorem array_ok {bound : ℕ} {c : Compiler} {schema : Json} {path : String} {t : List Char}
    {c' : Compiler} (hplain : IsPlain schema)
    (htype : schema.get "type" = some (.string "array"))
    (h : c.array (Compiler.compile printer bound) schema path = some (.ok (t, c'))) :
    Outcome printer bound c schema t c' := by
  unfold Compiler.array at h
  split at h
  · cases h
  · next items hitems =>
    split at h
    · cases h
    · cases h
    · next item c' hitem =>
      cases h
      exact .array items _ item c' hplain htype hitems hitem

/-- A compiled schema has the supported keywords only, and one of five shapes. -/
theorem compile_ok {bound : ℕ} {c : Compiler} {schema : Json} {path : String} {t : List Char}
    {c' : Compiler}
    (h : Compiler.compile printer (bound + 1) c schema path = some (.ok (t, c'))) :
    (∃ fields, schema = .object fields ∧ ∀ field ∈ fields, field.1 ∈ supportedKeywords) ∧
      Outcome printer bound c schema t c' := by
  unfold Compiler.compile at h
  split at h
  · next fields =>
    split_ifs at h with hkeywords
    · cases h
    have hsupported : ∀ field ∈ fields, field.1 ∈ supportedKeywords := by
      intro field hfield
      by_contra hnot
      apply hkeywords
      rw [List.any_eq_true]
      exact ⟨field, hfield, by simpa using hnot⟩
    refine ⟨⟨fields, rfl, hsupported⟩, ?_⟩
    split at h
    · next value hvalue =>
      cases h
      exact .const value hvalue
    · next hconst =>
      split at h
      · next values henum =>
        split_ifs at h with hempty
        · cases h
        cases h
        exact .enum values hconst henum (by simpa using hempty)
      · cases h
      · next henum =>
        split at h
        · cases h
        · next kind hkind =>
          obtain ⟨json, hjson, hstr⟩ := Option.bind_eq_some_iff.mp hkind
          rw [asStr_eq hstr] at hjson
          have hscalar : ∀ k : Scalar, kind = k.kind →
              Outcome printer bound c (.object fields) k.ruleName c :=
            fun k hk => .scalar k ⟨hconst, henum⟩ (hk ▸ hjson)
          split_ifs at h with hobject harray hstring hinteger hnumber hboolean hnull
          · exact object_ok ⟨hconst, henum⟩ (hobject ▸ hjson) h
          · exact array_ok ⟨hconst, henum⟩ (harray ▸ hjson) h
          · cases h
            exact hscalar .string hstring
          · cases h
            exact hscalar .integer hinteger
          · cases h
            exact hscalar .number hnumber
          · cases h
            exact hscalar .boolean hboolean
          · cases h
            exact hscalar .null hnull
          · cases h
  · cases h

end Outcomes

section Emissions

/-- What the rule of white space derives. -/
def Space (s : List Char) : Prop := Derives [] spaceExpr s

/-- The item after a space. -/
def Spaced {α : Type} (P : List Char → α → Prop) (s : List Char) (a : α) : Prop :=
  ∃ space t, Space space ∧ P t a ∧ s = space ++ t

/-- A member with the schema and the value of its property. -/
def Member (printer : Printer floats) (emits : Json → List Char → Value → Prop) (s : List Char)
    (m : (String × Json) × Value) : Prop :=
  ∃ before after t, Space before ∧ Space after ∧ emits m.1.2 t m.2 ∧
    s = printer.text (.string m.1.1) ++ (before ++ ':' :: (after ++ t))

def memberValue (m : (String × Json) × Value) : List ℕ × Value := (units m.1.1, m.2)

/-- The texts and values of a compiled schema, given those of the schemas inside. -/
inductive Shape (printer : Printer floats) (emits : Json → List Char → Value → Prop)
    (schema : Json) : List Char → Value → Prop
  | literal (c : Json) (hoffers : Offers schema c) :
      Shape printer emits schema (printer.text c) (denote floats c)
  | scalar (kind : Scalar) (s : List Char) (v : Value) (hplain : IsPlain schema)
      (htype : schema.get "type" = some (.string kind.kind)) (hs : Derives [] kind.expr s)
      (htext : IsText s v) (hkind : HasType kind.kind v) : Shape printer emits schema s v
  | emptyObject (space : List Char) (hplain : IsPlain schema)
      (htype : schema.get "type" = some (.string "object"))
      (hproperties : schema.get "properties" = some (.object [])) (hspace : Space space) :
      Shape printer emits schema ('{' :: (space ++ ['}'])) (.object [])
  | object (members : List ((String × Json) × Value)) (body space : List Char)
      (hplain : IsPlain schema) (htype : schema.get "type" = some (.string "object"))
      (hproperties : schema.get "properties" = some (.object (members.map Prod.fst)))
      (hbody : Separated Space (Spaced (Member printer emits)) body members)
      (hspace : Space space) :
      Shape printer emits schema ('{' :: body ++ (space ++ ['}']))
        (.object (members.map memberValue))
  | emptyArray (before after : List Char) (hplain : IsPlain schema)
      (htype : schema.get "type" = some (.string "array")) (hbefore : Space before)
      (hafter : Space after) :
      Shape printer emits schema ('[' :: (before ++ after ++ [']'])) (.array [])
  | array (items : Json) (values : List Value) (body space : List Char) (hplain : IsPlain schema)
      (htype : schema.get "type" = some (.string "array"))
      (hitems : schema.get "items" = some items)
      (hbody : Separated Space (Spaced (emits items)) body values) (hspace : Space space) :
      Shape printer emits schema ('[' :: body ++ (space ++ [']'])) (.array values)

/-- The texts of a schema that is nested less deep than the bound, and their values. -/
def Emits (printer : Printer floats) : ℕ → Json → List Char → Value → Prop
  | 0 => fun _ _ _ => False
  | bound + 1 => Shape printer (Emits printer bound)

variable {printer : Printer floats}

theorem isText_spaced {s : List Char} {v : Value} (h : Spaced IsText s v) : IsText s v := by
  obtain ⟨space, t, hspace, ht, rfl⟩ := h
  exact textOf_spaced (readValue_spaced (space_text hspace)) ht

theorem isMember_spaced {s : List Char} {m : List ℕ × Value} (h : Spaced IsMember s m) :
    IsMember s m := by
  obtain ⟨space, t, hspace, ht, rfl⟩ := h
  exact textOf_spaced (fun fuel => readMember_spaced (space_text hspace) (readValue fuel)) ht

theorem isMember_of_member (hemits : ∀ schema s v, emits schema s v → IsText s v) {s : List Char}
    {m : (String × Json) × Value} (h : Member printer emits s m) : IsMember s (memberValue m) := by
  obtain ⟨before, after, t, hbefore, hafter, ht, rfl⟩ := h
  exact isMember_of (printer.reads (.string m.1.1)) (hemits m.1.2 t m.2 ht)
    (space_text hbefore) (space_text hafter)

theorem Spaced.imp {α β : Type} {P : List Char → α → Prop} {Q : List Char → β → Prop} {f : α → β}
    {s : List Char} {a : α} (h : Spaced P s a) (himp : ∀ t, P t a → Q t (f a)) :
    Spaced Q s (f a) := by
  obtain ⟨space, t, hspace, ht, hs⟩ := h
  exact ⟨space, t, hspace, himp t ht, hs⟩

theorem isText_shape (hemits : ∀ schema s v, emits schema s v → IsText s v) {schema : Json}
    {s : List Char} {v : Value} (h : Shape printer emits schema s v) : IsText s v := by
  cases h with
  | literal c _ => exact printer.reads c
  | scalar kind s v _ _ _ htext _ => exact htext
  | emptyObject space _ _ _ hspace => exact isText_emptyObject (space_text hspace)
  | object members body space _ _ _ hbody hspace =>
    refine isText_object (hbody.map memberValue (fun _ => space_text) ?_) (space_text hspace)
    exact fun s m _ hm => isMember_spaced (hm.imp (fun t => isMember_of_member hemits))
  | emptyArray before after _ _ hbefore hafter =>
    exact isText_emptyArray (isSpace_append (space_text hbefore) (space_text hafter))
  | array items values body space _ _ _ hbody hspace =>
    have htexts := hbody.map id (fun _ => space_text)
      (fun s v _ hv => isText_spaced (hv.imp (f := id) (fun t => hemits items t v)))
    rw [List.map_id] at htexts
    exact isText_array htexts (space_text hspace)

theorem not_offers {schema c : Json} (h : IsPlain schema) : ¬Offers schema c := by
  rintro (hconst | ⟨_, cs, henum, _⟩)
  · rw [h.1] at hconst
    cases hconst
  · rw [h.2] at henum
    cases henum

theorem kind_ne (kind : Scalar) : kind.kind ≠ "object" ∧ kind.kind ≠ "array" := by
  cases kind <;> decide

theorem type_unique {schema : Json} {kind kind' : String}
    (h : schema.get "type" = some (.string kind)) (h' : schema.get "type" = some (.string kind')) :
    kind = kind' :=
  Json.string.inj (Option.some.inj (h.symm.trans h'))

theorem shape_offers {schema : Json} (s : List Char) (v : Value) (hoffered : ∃ c, Offers schema c) :
    Shape printer emits schema s v ↔
      ∃ c, Offers schema c ∧ s = printer.text c ∧ v = denote floats c := by
  obtain ⟨c, hc⟩ := hoffered
  constructor
  · intro h
    cases h with
    | literal c hoffers => exact ⟨c, hoffers, rfl, rfl⟩
    | scalar _ _ _ hplain | emptyObject _ hplain | object _ _ _ hplain | emptyArray _ _ hplain
    | array _ _ _ _ hplain => exact absurd hc (not_offers hplain)
  · rintro ⟨c, hoffers, rfl, rfl⟩
    exact .literal c hoffers

theorem shape_scalar {schema : Json} {kind : Scalar} (hplain : IsPlain schema)
    (htype : schema.get "type" = some (.string kind.kind)) (s : List Char) (v : Value) :
    Shape printer emits schema s v ↔
      Derives [] kind.expr s ∧ IsText s v ∧ HasType kind.kind v := by
  constructor
  · intro h
    cases h with
    | literal c hoffers => exact absurd hoffers (not_offers hplain)
    | scalar kind' _ _ _ htype' hs htext hkind =>
      have hsame : kind' = kind := by
        have heq := type_unique htype' htype
        cases kind' <;> cases kind <;> first | rfl | exact absurd heq (by decide)
      exact hsame ▸ ⟨hs, htext, hkind⟩
    | emptyObject _ _ htype' | object _ _ _ _ htype' =>
      exact absurd (type_unique htype htype') (kind_ne kind).1
    | emptyArray _ _ _ htype' | array _ _ _ _ _ htype' =>
      exact absurd (type_unique htype htype') (kind_ne kind).2
  · rintro ⟨hs, htext, hkind⟩
    exact .scalar kind s v hplain htype hs htext hkind

theorem offers_const {schema value : Json} (h : schema.get "const" = some value) (c : Json) :
    Offers schema c ↔ c = value := by
  constructor
  · rintro (hconst | ⟨hconst, _⟩)
    · exact Option.some.inj (hconst.symm.trans h)
    · rw [h] at hconst
      cases hconst
  · rintro rfl
    exact Or.inl h

theorem offers_enum {schema : Json} {values : List Json} (hconst : schema.get "const" = none)
    (henum : schema.get "enum" = some (.array values)) (c : Json) :
    Offers schema c ↔ c ∈ values := by
  constructor
  · rintro (hsome | ⟨_, cs, hcs, hmem⟩)
    · rw [hconst] at hsome
      cases hsome
    · rw [henum] at hcs
      exact Json.array.inj (Option.some.inj hcs) ▸ hmem
  · intro hmem
    exact Or.inr ⟨hconst, values, henum, hmem⟩

/-- What the rule of a type derives is the text of a value of the type. -/
theorem scalar_text (kind : Scalar) {s : List Char} (h : Derives [] kind.expr s) :
    ∃ v, IsText s v ∧ HasType kind.kind v := by
  cases kind with
  | string =>
    obtain ⟨units, hs⟩ := string_text h
    exact ⟨_, hs, rfl⟩
  | integer =>
    obtain ⟨n, hs⟩ := integer_text h
    exact ⟨_, hs, Or.inr ⟨rfl, rfl⟩⟩
  | number =>
    obtain ⟨q, hs⟩ := number_text h
    exact ⟨_, hs, Or.inl rfl⟩
  | boolean =>
    obtain ⟨b, hs⟩ := boolean_text h
    exact ⟨_, hs, rfl⟩
  | null => exact ⟨_, null_text h, rfl⟩

theorem shape_object {schema : Json} {properties : List (String × Json)} (hplain : IsPlain schema)
    (htype : schema.get "type" = some (.string "object"))
    (hproperties : schema.get "properties" = some (.object properties)) {s : List Char} {v : Value}
    (h : Shape printer emits schema s v) :
    (properties = [] ∧ ∃ space, Space space ∧ s = '{' :: (space ++ ['}']) ∧ v = .object []) ∨
      ∃ members body space, members.map Prod.fst = properties ∧
        Separated Space (Spaced (Member printer emits)) body members ∧ Space space ∧
        s = '{' :: body ++ (space ++ ['}']) ∧ v = .object (members.map memberValue) := by
  cases h with
  | literal c hoffers => exact absurd hoffers (not_offers hplain)
  | scalar kind _ _ _ htype' => exact absurd (type_unique htype' htype) (kind_ne kind).1
  | emptyObject space _ _ hproperties' hspace =>
    rw [hproperties] at hproperties'
    exact Or.inl ⟨Json.object.inj (Option.some.inj hproperties'), space, hspace, rfl, rfl⟩
  | object members body space _ _ hproperties' hbody hspace =>
    rw [hproperties] at hproperties'
    exact Or.inr ⟨members, body, space, (Json.object.inj (Option.some.inj hproperties')).symm,
      hbody, hspace, rfl, rfl⟩
  | emptyArray _ _ _ htype' | array _ _ _ _ _ htype' =>
    exact absurd (type_unique htype htype') (by decide)

theorem shape_array {schema items : Json} (hplain : IsPlain schema)
    (htype : schema.get "type" = some (.string "array")) (hitems : schema.get "items" = some items)
    {s : List Char} {v : Value} (h : Shape printer emits schema s v) :
    (∃ before after, Space before ∧ Space after ∧ s = '[' :: (before ++ after ++ [']']) ∧
      v = .array []) ∨
      ∃ values body space, Separated Space (Spaced (emits items)) body values ∧ Space space ∧
        s = '[' :: body ++ (space ++ [']']) ∧ v = .array values := by
  cases h with
  | literal c hoffers => exact absurd hoffers (not_offers hplain)
  | scalar kind _ _ _ htype' => exact absurd (type_unique htype' htype) (kind_ne kind).2
  | emptyObject _ _ htype' | object _ _ _ _ htype' =>
    exact absurd (type_unique htype htype') (by decide)
  | emptyArray before after _ _ hbefore hafter =>
    exact Or.inl ⟨before, after, hbefore, hafter, rfl, rfl⟩
  | array items' values body space _ _ hitems' hbody hspace =>
    rw [hitems] at hitems'
    obtain rfl := Option.some.inj hitems'
    exact Or.inr ⟨values, body, space, hbody, hspace, rfl, rfl⟩

/-- What a schema stands for is read as its value. -/
theorem isText_emits (bound : ℕ) (schema : Json) (s : List Char) (v : Value)
    (h : Emits printer bound schema s v) : IsText s v := by
  induction bound generalizing schema s v with
  | zero => exact h.elim
  | succ bound ih => exact isText_shape ih h

end Emissions

end Cusco.CompiledSchemas
