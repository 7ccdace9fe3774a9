import Cusco.GrammarSoundness
import Cusco.ScalarTexts

/-!
Completeness of schema grammars. Whatever value is valid under a schema that is compiled, the
grammar derives a text of an equal value: the members of an object come in the order of the
schema's properties, and a constant comes as the schema has it.
-/

namespace Cusco.SchemaCompleteness

open Gbnf GbnfTexts JsonTexts JsonValues JsonPrinting SchemaGrammars SchemaValidity ScalarRules
open CompiledSchemas GrammarReadings GrammarSoundness ExpressibleValues ScalarTexts

section Checks

variable {floats : Floats} {others : Json → Value → Prop} {schema : Json} {v : Value}

/-- What the keywords of a supported schema ask of a valid value. -/
structure Checked (floats : Floats) (others : Json → Value → Prop) (schema : Json) (v : Value) :
    Prop where
  type : ∀ kind, schema.get "type" = some (.string kind) → HasType kind v
  const : ∀ c, schema.get "const" = some c → Same (denote floats c) v
  enum : ∀ cs, schema.get "enum" = some (.array cs) → ∃ c ∈ cs, Same (denote floats c) v
  required : ∀ names members name, schema.get "required" = some (.array names) →
    v = .object members → .string name ∈ names → ∃ w, (units name, w) ∈ members
  properties : ∀ listed members name property w, schema.get "properties" = some (.object listed) →
    v = .object members → (name, property) ∈ listed → (units name, w) ∈ members →
    Valid floats others property w
  additional : ∀ inner members key w, schema.get "additionalProperties" = some inner →
    v = .object members → (key, w) ∈ members →
    (∀ listed, schema.get "properties" = some (.object listed) →
      ∀ property ∈ listed, units property.1 ≠ key) → Valid floats others inner w
  items : ∀ inner values w, schema.get "items" = some inner → v = .array values → w ∈ values →
    Valid floats others inner w

theorem checked_of_valid (honly : OnlySupported schema) (h : Valid floats others schema v) :
    Checked floats others schema v := by
  obtain ⟨fields, rfl, hsupported⟩ := honly
  cases h with
  | other _ _ hother =>
    obtain ⟨field, hfield, hnot⟩ := hother
    exact absurd (hsupported field hfield) hnot
  | checked _ _ _ htype hconst henum hrequired hproperties hadditional hitems =>
    exact ⟨fun kind => htype (.string kind), hconst, henum, hrequired, hproperties, hadditional,
      hitems⟩

theorem not_valid_false : ¬Valid floats others (.bool false) v := by
  intro h
  cases h

/-- A valid value of a schema with constants equals one of them. -/
theorem Checked.offered (h : Checked floats others schema v) {c : Json}
    (hoffers : Offers schema c) : ∃ c, Offers schema c ∧ Same (denote floats c) v := by
  rcases hoffers with hconst | ⟨hconst, cs, henum, _⟩
  · exact ⟨c, Or.inl hconst, h.const c hconst⟩
  · obtain ⟨c, hc, hsame⟩ := h.enum cs henum
    exact ⟨c, Or.inr ⟨hconst, cs, henum, hc⟩, hsame⟩

end Checks

section Scalars

variable {v : Value}

/-- A text for every value of a scalar type. -/
theorem exists_scalar_text (kind : Scalar) (hkind : HasType kind.kind v) (hv : Expressible v) :
    ∃ s, Derives [] kind.expr s ∧ IsText s v := by
  cases hv with
  | null =>
    cases kind with
    | null => exact ⟨_, derives_null, isText_null⟩
    | string | integer | number | boolean => simp [HasType, Scalar.kind] at hkind
  | bool b =>
    cases kind with
    | boolean => exact ⟨_, derives_boolean b, isText_bool b⟩
    | string | integer | number | null => simp [HasType, Scalar.kind] at hkind
  | number s q hs =>
    cases kind with
    | number => exact ⟨s, derives_number hs, isText_number hs⟩
    | integer =>
      rcases hkind with hkind | ⟨_, hint⟩
      · exact absurd hkind (by decide)
      · have hq : ((q.num : ℤ) : ℚ) = q := by
          have hden : q.den = 1 := by simpa [Rat.isInt] using hint
          exact Rat.coe_int_num_of_den_eq_one hden
        have htext := numberText_printInt q.num
        rw [hq] at htext
        exact ⟨_, derives_printInt q.num, isText_number htext⟩
    | string | boolean | null =>
      rcases hkind with hkind | ⟨hkind, _⟩
      · exact absurd hkind (by decide)
      · exact absurd hkind (by decide)
  | string units hunits =>
    cases kind with
    | string =>
      obtain ⟨inside, hinside, htext⟩ := exists_string hunits
      exact ⟨_, hinside, isText_string htext⟩
    | integer | number | boolean | null => simp [HasType, Scalar.kind] at hkind
  | array items _ => exact absurd hkind (kind_ne kind).2
  | object members _ _ => exact absurd hkind (kind_ne kind).1

theorem hasType_object (h : HasType "object" v) : ∃ members, v = .object members := by
  cases v with
  | object members => exact ⟨members, rfl⟩
  | number q =>
    rcases h with h | ⟨h, _⟩
    · exact absurd h (by decide)
    · exact absurd h (by decide)
  | null | bool | string | array => simp [HasType] at h

theorem hasType_array (h : HasType "array" v) : ∃ values, v = .array values := by
  cases v with
  | array values => exact ⟨values, rfl⟩
  | number q =>
    rcases h with h | ⟨h, _⟩
    · exact absurd h (by decide)
    · exact absurd h (by decide)
  | null | bool | string | object => simp [HasType] at h

end Scalars

section Lookups

variable {α : Type}

theorem mem_of_lookup_some {members : List (List ℕ × α)} {key : List ℕ} {a : α}
    (h : members.lookup key = some a) : (key, a) ∈ members := by
  obtain ⟨before, after, rfl, _⟩ := List.lookup_eq_some_iff.mp h
  exact List.mem_append_right before List.mem_cons_self

theorem exists_lookup {members : List (List ℕ × α)} {key : List ℕ} {a : α}
    (h : (key, a) ∈ members) : ∃ b, members.lookup key = some b := by
  cases hlookup : members.lookup key with
  | some b => exact ⟨b, rfl⟩
  | none =>
    have hnone := List.lookup_eq_none_iff.mp hlookup (key, a) h
    simp at hnone

end Lookups

section Objects

variable {listed : List (String × Json)} {members : List (List ℕ × Value)}
  {found : List ((String × Json) × Value)}

/-- Members found for every property, under the properties' names, make an equal object when no
other member is there. -/
theorem same_object (hfound : found.map Prod.fst = listed)
    (hmembers : ∀ m ∈ found, ∃ w, members.lookup (units m.1.1) = some w ∧ Same m.2 w)
    (honly : ∀ m ∈ members, ∃ property ∈ listed, units property.1 = m.1) :
    Same (.object (found.map memberValue)) (.object members) := by
  have hback : ∀ key v, (found.map memberValue).lookup key = some v →
      ∃ w, members.lookup key = some w ∧ Same v w := by
    intro key v hv
    obtain ⟨m, hm, heq⟩ := List.mem_map.mp (mem_of_lookup_some hv)
    obtain ⟨hname, rfl⟩ := Prod.mk.inj heq
    rw [← hname]
    exact hmembers m hm
  have hforth : ∀ key v, members.lookup key = some v →
      ∃ w, (found.map memberValue).lookup key = some w := by
    intro key v hv
    obtain ⟨property, hproperty, hname⟩ := honly _ (mem_of_lookup_some hv)
    rw [← hfound] at hproperty
    obtain ⟨m, hm, rfl⟩ := List.mem_map.mp hproperty
    have hmem : (key, m.2) ∈ found.map memberValue :=
      List.mem_map.mpr ⟨m, hm, by rw [memberValue, hname]⟩
    exact exists_lookup hmem
  refine .object _ _ ?_ ?_
  · intro key
    constructor
    · intro hnone
      by_contra hsome
      obtain ⟨v, hv⟩ := Option.ne_none_iff_exists'.mp hsome
      obtain ⟨w, hw⟩ := hforth key v hv
      rw [hnone] at hw
      cases hw
    · intro hnone
      by_contra hsome
      obtain ⟨v, hv⟩ := Option.ne_none_iff_exists'.mp hsome
      obtain ⟨w, hw, _⟩ := hback key v hv
      rw [hnone] at hw
      cases hw
  · intro key v w hv hw
    obtain ⟨w', hw', hsame⟩ := hback key v hv
    rw [Option.some.inj (hw.symm.trans hw')]
    exact hsame

theorem same_array {found values : List Value} (h : List.Forall₂ Same found values) :
    Same (.array found) (.array values) := by
  refine .array _ _ h.length_eq ?_
  intro i v w hv hw
  obtain ⟨hi, rfl⟩ := List.getElem?_eq_some_iff.mp hv
  obtain ⟨hi', rfl⟩ := List.getElem?_eq_some_iff.mp hw
  exact h.get hi hi'

end Objects

section Completeness

variable {floats : Floats} {printer : Printer floats} {others : Json → Value → Prop} {bound : ℕ}
  {schema : Json} {v : Value}

theorem exists_found {values : List Value} {P : Value → Prop}
    (h : ∀ w ∈ values, ∃ u, P u ∧ Same u w) :
    ∃ found, (∀ u ∈ found, P u) ∧ List.Forall₂ Same found values := by
  induction values with
  | nil => exact ⟨[], fun u hu => absurd hu List.not_mem_nil, .nil⟩
  | cons w values ih =>
    obtain ⟨u, hu, hsame⟩ := h w List.mem_cons_self
    obtain ⟨found, hall, hfound⟩ := ih (fun x hx => h x (List.mem_cons_of_mem w hx))
    exact ⟨u :: found, List.forall_mem_cons.mpr ⟨hu, hall⟩, .cons hsame hfound⟩

/-- A value that is valid under a supported schema equals one that some text of the schema has. -/
theorem exists_same (hsupported : Supported bound schema) (hvalid : Valid floats others schema v)
    (hv : Expressible v) :
    ∃ w, HasValue printer bound schema w ∧ Same w v := by
  induction hsupported generalizing v with
  | literal bound schema c honly hoffers =>
    obtain ⟨c, hc, hsame⟩ := (checked_of_valid honly hvalid).offered hoffers
    exact ⟨_, (hasValue_literal hc).mpr ⟨c, hc, rfl⟩, hsame⟩
  | scalar bound schema kind honly hplain htype =>
    have hkind := (checked_of_valid honly hvalid).type _ htype
    obtain ⟨s, hs, htext⟩ := exists_scalar_text kind hkind hv
    exact ⟨v, ⟨s, (shape_scalar hplain htype s v).mpr ⟨hs, htext, hkind⟩⟩, same_refl v⟩
  | object bound schema listed honly hclosed _ ih =>
    have hchecked := checked_of_valid honly hvalid
    obtain ⟨members, rfl⟩ := hasType_object (hchecked.type _ hclosed.type)
    obtain ⟨names, hnames, _, hall⟩ := hclosed.required
    have hinside : ∀ m ∈ members, Expressible m.2 := by
      cases hv with
      | object _ _ h => exact h
    have hchoices : ∀ property ∈ listed, ∃ u, HasValue printer bound property.2 u ∧
        ∃ w, members.lookup (units property.1) = some w ∧ Same u w := by
      intro property hproperty
      obtain ⟨w', hmem'⟩ := hchecked.required names members _ hnames rfl (hall property hproperty)
      obtain ⟨w, hw⟩ := exists_lookup hmem'
      have hmem := mem_of_lookup_some hw
      have hproper := hchecked.properties listed members _ _ w hclosed.properties rfl hproperty hmem
      obtain ⟨u, hu, hsame⟩ := ih property hproperty hproper (hinside _ hmem)
      exact ⟨u, hu, w, hw, hsame⟩
    obtain ⟨found, hfound, hmembers⟩ := exists_members listed hchoices
    refine ⟨_, (hasValue_object hclosed).mpr ⟨found, hfound, fun m hm => (hmembers m hm).1, rfl⟩,
      same_object hfound (fun m hm => (hmembers m hm).2) ?_⟩
    intro m hm
    by_contra hnone
    refine not_valid_false (hchecked.additional (.bool false) members m.1 m.2 hclosed.additional rfl
      hm ?_)
    intro listed' hlisted property hproperty hname
    obtain rfl := Json.object.inj (Option.some.inj (hlisted.symm.trans hclosed.properties))
    exact hnone ⟨property, hproperty, hname⟩
  | array bound schema items honly hplain htype hitems _ ih =>
    have hchecked := checked_of_valid honly hvalid
    obtain ⟨values, rfl⟩ := hasType_array (hchecked.type _ htype)
    have hinside : ∀ w ∈ values, Expressible w := by
      cases hv with
      | array _ h => exact h
    obtain ⟨found, hall, hfound⟩ := exists_found (fun w hw =>
      ih (hchecked.items items values w hitems rfl hw) (hinside w hw))
    exact ⟨_, (hasValue_array hplain htype hitems).mpr ⟨found, hall, rfl⟩, same_array hfound⟩

/-- Whatever JSON text has a value that is valid under the schema, the grammar derives a text of an
equal value. -/
theorem grammar_complete (printer : Printer floats) (others : Json → Value → Prop)
    (validate : Json → Option String) (schema : Json) (g : List Char)
    (hg : schemaGrammar printer validate schema = some (.ok g)) :
    ∃ rules, readGrammar (finishSchemaGrammar g) = some rules ∧
      ∀ text v, readJson text = some v → Valid floats others schema v →
        ∃ s w, Derives rules (.rule rootName) s ∧ readJson s = some w ∧ Same w v := by
  obtain ⟨rules, hrules, _, hcomplete⟩ := grammar_texts hg
  obtain ⟨value, c', hcompile, _⟩ := schemaGrammar_ok hg
  refine ⟨rules, hrules, ?_⟩
  intro text v htext hvalid
  obtain ⟨w, ⟨s, hs⟩, hsame⟩ := exists_same (supported_of_compile hcompile) hvalid
    (expressible_of_readJson htext)
  have hread := readJson_of_isText (isText_emits _ _ _ _ hs) isSpace_nil
  rw [List.append_nil] at hread
  exact ⟨s, w, hcomplete s w hs, hread, hsame⟩

/-- Lists of two words. -/
def wordsSchema : Json :=
  .object [("items", .object [("enum", .array [.string "yes", .string "no"])]),
    ("type", .string "array")]

theorem words_grammar_complete :
    ∃ g rules, schemaGrammar zeroPrinter (fun _ => none) wordsSchema = some (.ok g) ∧
      readGrammar (finishSchemaGrammar g) = some rules ∧
      ∀ text v, readJson text = some v → Valid zeroFloats (fun _ _ => False) wordsSchema v →
        ∃ s w, Derives rules (.rule rootName) s ∧ readJson s = some w ∧ Same w v := by
  obtain ⟨g, hg⟩ : ∃ g, schemaGrammar zeroPrinter (fun _ => none) wordsSchema = some (.ok g) :=
    ⟨_, rfl⟩
  obtain ⟨rules, hrules, hcomplete⟩ :=
    grammar_complete zeroPrinter (fun _ _ => False) (fun _ => none) wordsSchema g hg
  exact ⟨g, rules, hg, hrules, hcomplete⟩

end Completeness

end Cusco.SchemaCompleteness
