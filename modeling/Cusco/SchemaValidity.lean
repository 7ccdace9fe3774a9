import Cusco.SchemaGrammars

/-!
Which values are valid under a schema, as JSON Schema 2020-12 has it for the keywords that the
compiler supports. Schemas with other keywords are judged by a parameter.
-/

namespace Cusco.SchemaValidity

open JsonTexts JsonValues JsonPrinting SchemaGrammars

section Equality

/-- Equal values: objects have the same members in any order. -/
inductive Same : Value → Value → Prop
  | null : Same .null .null
  | bool (b : Bool) : Same (.bool b) (.bool b)
  | number (q : ℚ) : Same (.number q) (.number q)
  | string (units : List ℕ) : Same (.string units) (.string units)
  | array (items items' : List Value) (hlength : items.length = items'.length)
      (h : ∀ (i : ℕ) v v', items[i]? = some v → items'[i]? = some v' → Same v v') :
      Same (.array items) (.array items')
  | object (members members' : List (List ℕ × Value))
      (hkeys : ∀ key, members.lookup key = none ↔ members'.lookup key = none)
      (h : ∀ key v v', members.lookup key = some v → members'.lookup key = some v' → Same v v') :
      Same (.object members) (.object members')

mutual

theorem same_refl : (v : Value) → Same v v
  | .null => .null
  | .bool b => .bool b
  | .number q => .number q
  | .string units => .string units
  | .array items => .array items items rfl (fun i v _ h h' =>
      Option.some.inj (h.symm.trans h') ▸ same_item items i v h)
  | .object members => .object members members (fun _ => Iff.rfl) (fun key v _ h h' =>
      Option.some.inj (h.symm.trans h') ▸ same_member members key v h)

theorem same_item : (items : List Value) → ∀ (i : ℕ) v, items[i]? = some v → Same v v
  | [], _, _, h => absurd h (by simp)
  | item :: _, 0, v, h => Option.some.inj h ▸ same_refl item
  | _ :: items, i + 1, v, h => same_item items i v h

theorem same_member : (members : List (List ℕ × Value)) → ∀ key v,
    members.lookup key = some v → Same v v
  | [], _, _, h => absurd h (by simp)
  | (name, member) :: members, key, v, h => by
    rw [List.lookup_cons] at h
    cases hname : key == name with
    | true =>
      rw [hname] at h
      exact Option.some.inj h ▸ same_refl member
    | false =>
      rw [hname] at h
      exact same_member members key v h

end

end Equality

section Validity

/-- The value is of the type of this name. -/
def HasType (kind : String) : Value → Prop
  | .null => kind = "null"
  | .bool _ => kind = "boolean"
  | .number q => kind = "number" ∨ kind = "integer" ∧ q.isInt = true
  | .string _ => kind = "string"
  | .array _ => kind = "array"
  | .object _ => kind = "object"

/-- What `type` requires: one type or one of several. -/
def TypeAllows (v : Value) : Json → Prop
  | .string kind => HasType kind v
  | .array kinds => ∃ kind, .string kind ∈ kinds ∧ HasType kind v
  | _ => True

variable (floats : Floats) (others : Json → Value → Prop)

/-- The value is valid under the schema. -/
inductive Valid : Json → Value → Prop
  | anything (v : Value) : Valid (.bool true) v
  | other (fields : List (String × Json)) (v : Value)
      (hother : ∃ field ∈ fields, field.1 ∉ supportedKeywords) (h : others (.object fields) v) :
      Valid (.object fields) v
  | checked (fields : List (String × Json)) (v : Value)
      (hsupported : ∀ field ∈ fields, field.1 ∈ supportedKeywords)
      (htype : ∀ kind, (Json.object fields).get "type" = some kind → TypeAllows v kind)
      (hconst : ∀ c, (Json.object fields).get "const" = some c → Same (denote floats c) v)
      (henum : ∀ cs, (Json.object fields).get "enum" = some (.array cs) →
        ∃ c ∈ cs, Same (denote floats c) v)
      (hrequired : ∀ names members name, (Json.object fields).get "required" = some (.array names) →
        v = .object members → .string name ∈ names → ∃ w, (units name, w) ∈ members)
      (hproperties : ∀ properties members name property w,
        (Json.object fields).get "properties" = some (.object properties) →
        v = .object members → (name, property) ∈ properties → (units name, w) ∈ members →
        Valid property w)
      (hadditional : ∀ schema members key w,
        (Json.object fields).get "additionalProperties" = some schema →
        v = .object members → (key, w) ∈ members →
        (∀ properties, (Json.object fields).get "properties" = some (.object properties) →
          ∀ property ∈ properties, units property.1 ≠ key) → Valid schema w)
      (hitems : ∀ schema items item, (Json.object fields).get "items" = some schema →
        v = .array items → item ∈ items → Valid schema item) :
      Valid (.object fields) v

end Validity

section Literals

/-- The schema has none of the keywords that the compiler looks for first. -/
def IsPlain (schema : Json) : Prop := schema.get "const" = none ∧ schema.get "enum" = none

/-- The second schema is compiled when the first one is. -/
inductive Visits : Json → Json → Prop
  | itself (schema : Json) : Visits schema schema
  | property (schema inner : Json) (properties : List (String × Json)) (property : String × Json)
      (hplain : IsPlain schema) (htype : schema.get "type" = some (.string "object"))
      (hproperties : schema.get "properties" = some (.object properties))
      (hmem : property ∈ properties) (h : Visits property.2 inner) : Visits schema inner
  | items (schema inner items : Json) (hplain : IsPlain schema)
      (htype : schema.get "type" = some (.string "array"))
      (hitems : schema.get "items" = some items) (h : Visits items inner) : Visits schema inner

/-- The schema is compiled to this value, among others. -/
def Offers (schema c : Json) : Prop :=
  schema.get "const" = some c ∨
    schema.get "const" = none ∧ ∃ cs, schema.get "enum" = some (.array cs) ∧ c ∈ cs

/-- The constants that are compiled are valid under the schemas they stand in. -/
def LiteralsValid (floats : Floats) (others : Json → Value → Prop) (schema : Json) : Prop :=
  ∀ inner c, Visits schema inner → Offers inner c → Valid floats others inner (denote floats c)

/-- No object has a key twice, as in every `serde_json::Map`. -/
inductive DistinctKeys : Json → Prop
  | null : DistinctKeys .null
  | bool (b : Bool) : DistinctKeys (.bool b)
  | number (n : Number) : DistinctKeys (.number n)
  | string (s : String) : DistinctKeys (.string s)
  | array (items : List Json) (h : ∀ item ∈ items, DistinctKeys item) : DistinctKeys (.array items)
  | object (fields : List (String × Json)) (hkeys : (fields.map Prod.fst).Nodup)
      (h : ∀ field ∈ fields, DistinctKeys field.2) : DistinctKeys (.object fields)

theorem mem_of_get {fields : List (String × Json)} {key : String} {j : Json}
    (h : (Json.object fields).get key = some j) : (key, j) ∈ fields := by
  obtain ⟨field, hfield, rfl⟩ := Option.map_eq_some_iff.mp h
  have hkey : field.1 = key := by simpa using List.find?_some hfield
  exact hkey ▸ List.mem_of_find?_eq_some hfield

theorem DistinctKeys.get {schema : Json} {key : String} {j : Json} (h : DistinctKeys schema)
    (hj : schema.get key = some j) : DistinctKeys j := by
  cases h with
  | object fields _ hfields => exact hfields _ (mem_of_get hj)
  | null | bool | number | string | array => cases hj

theorem DistinctKeys.listed {fields : List (String × Json)} (h : DistinctKeys (.object fields)) :
    (fields.map Prod.fst).Nodup ∧ ∀ field ∈ fields, DistinctKeys field.2 := by
  cases h with
  | object _ hkeys hfields => exact ⟨hkeys, hfields⟩

end Literals

end Cusco.SchemaValidity
