import Cusco.GrammarReadings
import Mathlib.Data.List.Nodup
import Mathlib.Data.List.Perm.Subperm

/-!
Soundness of schema grammars. The compiler takes a constant as it is, whatever the schema says
beside it, so a grammar derives valid values only exactly when every constant that is compiled is
valid under the schema it stands in.
-/

namespace Cusco.GrammarSoundness

open Gbnf GbnfTexts JsonTexts JsonValues JsonPrinting SchemaGrammars SchemaValidity ScalarRules
  CompiledSchemas GrammarReadings

section Supports

variable {floats : Floats} {printer : Printer floats}

/-- The schema has supported keywords only. -/
def OnlySupported (schema : Json) : Prop :=
  ∃ fields, schema = .object fields ∧ ∀ field ∈ fields, field.1 ∈ supportedKeywords

/-- An object schema that is compiled: every property is required and no other is allowed. -/
structure IsClosed (schema : Json) (listed : List (String × Json)) : Prop where
  plain : IsPlain schema
  type : schema.get "type" = some (.string "object")
  additional : schema.get "additionalProperties" = some (.bool false)
  properties : schema.get "properties" = some (.object listed)
  required : ∃ names, schema.get "required" = some (.array names) ∧
    names.length = listed.length ∧ ∀ property ∈ listed, .string property.1 ∈ names

/-- The schemas that the compiler supports, nested less deep than the bound. -/
inductive Supported : ℕ → Json → Prop
  | literal (bound : ℕ) (schema c : Json) (honly : OnlySupported schema)
      (hoffers : Offers schema c) : Supported (bound + 1) schema
  | scalar (bound : ℕ) (schema : Json) (kind : Scalar) (honly : OnlySupported schema)
      (hplain : IsPlain schema) (htype : schema.get "type" = some (.string kind.kind)) :
      Supported (bound + 1) schema
  | object (bound : ℕ) (schema : Json) (properties : List (String × Json))
      (honly : OnlySupported schema) (hclosed : IsClosed schema properties)
      (h : ∀ property ∈ properties, Supported bound property.2) : Supported (bound + 1) schema
  | array (bound : ℕ) (schema items : Json) (honly : OnlySupported schema)
      (hplain : IsPlain schema) (htype : schema.get "type" = some (.string "array"))
      (hitems : schema.get "items" = some items) (h : Supported bound items) :
      Supported (bound + 1) schema

theorem members_compiled {bound : ℕ} {path : String} (properties : List (String × Json))
    {c c' : Compiler} {members : List (List Char)}
    (h : c.members printer (Compiler.compile printer bound) path properties =
      some (.ok (members, c'))) :
    ∀ property ∈ properties, ∃ c path t c',
      Compiler.compile printer bound c property.2 path = some (.ok (t, c')) := by
  induction properties generalizing c members with
  | nil => simp
  | cons property properties ih =>
    obtain ⟨name, schema⟩ := property
    unfold Compiler.members at h
    split at h
    · cases h
    · cases h
    · next value c₁ hvalue =>
      split at h
      · cases h
      · cases h
      · next members c₂ hmembers =>
        cases h
        intro property hproperty
        rcases List.mem_cons.mp hproperty with rfl | hproperty
        · exact ⟨c, _, value, c₁, hvalue⟩
        · exact ih hmembers property hproperty

/-- What is compiled is supported. -/
theorem supported_of_compile {bound : ℕ} {c c' : Compiler} {schema : Json} {path : String}
    {t : List Char} (h : Compiler.compile printer bound c schema path = some (.ok (t, c'))) :
    Supported bound schema := by
  induction bound generalizing c schema path t c' with
  | zero => cases h
  | succ bound ih =>
    obtain ⟨honly, houtcome⟩ := compile_ok h
    cases houtcome with
    | const value hvalue => exact .literal bound schema value honly (Or.inl hvalue)
    | enum values hconst henum hne =>
      obtain ⟨value, hvalue⟩ := List.exists_mem_of_ne_nil values hne
      exact .literal bound schema value honly ((offers_enum hconst henum value).mpr hvalue)
    | scalar kind hplain htype => exact .scalar bound schema kind honly hplain htype
    | object properties required path members c₁ hplain htype hadditional hproperties hrequired
        hlength hall hmembers =>
      refine .object bound schema properties honly ⟨hplain, htype, hadditional, hproperties,
        ⟨required, hrequired, hlength, hall⟩⟩ ?_
      intro property hproperty
      obtain ⟨c, path, t, c', hcompile⟩ := members_compiled properties hmembers property hproperty
      exact ih hcompile
    | array items path item c₁ hplain htype hitems hitem =>
      exact .array bound schema items honly hplain htype hitems (ih hitem)

end Supports

section Values

variable {floats : Floats} {printer : Printer floats} {bound : ℕ} {schema : Json} {v : Value}

/-- Some text of the schema has the value. -/
def HasValue (printer : Printer floats) (bound : ℕ) (schema : Json) (v : Value) : Prop :=
  ∃ s, Emits printer bound schema s v

theorem separated_mem {α : Type} {P : List Char → α → Prop} {s : List Char} {items : List α}
    (h : Separated Space (Spaced P) s items) : ∀ a ∈ items, ∃ t, P t a := by
  induction h with
  | last s a ha =>
    intro b hb
    obtain rfl := List.mem_singleton.mp hb
    obtain ⟨_, t, _, ht, _⟩ := ha
    exact ⟨t, ht⟩
  | more s a space t items ha _ _ ih =>
    intro b hb
    rcases List.mem_cons.mp hb with rfl | hb
    · obtain ⟨_, t, _, ht, _⟩ := ha
      exact ⟨t, ht⟩
    · exact ih b hb

theorem exists_separated {α : Type} {P : List Char → α → Prop} {items : List α}
    (hne : items ≠ []) (h : ∀ a ∈ items, ∃ t, P t a) :
    ∃ s, Separated Space (Spaced P) s items := by
  induction items with
  | nil => exact absurd rfl hne
  | cons a items ih =>
    obtain ⟨t, ht⟩ := h a List.mem_cons_self
    have ha : Spaced P t a := ⟨[], t, space_nil, ht, rfl⟩
    by_cases hitems : items = []
    · subst hitems
      exact ⟨t, .last t a ha⟩
    · obtain ⟨s, hs⟩ := ih hitems (fun b hb => h b (List.mem_cons_of_mem a hb))
      exact ⟨_, .more t a [] s items ha space_nil hs⟩

theorem hasValue_literal {c : Json} (hoffers : Offers schema c) :
    HasValue printer (bound + 1) schema v ↔ ∃ c, Offers schema c ∧ v = denote floats c := by
  constructor
  · rintro ⟨s, hs⟩
    obtain ⟨c, hc, _, hv⟩ := (shape_offers s v ⟨c, hoffers⟩).mp hs
    exact ⟨c, hc, hv⟩
  · rintro ⟨c, hc, rfl⟩
    exact ⟨printer.text c, .literal c hc⟩

theorem hasValue_object {properties : List (String × Json)} (h : IsClosed schema properties) :
    HasValue printer (bound + 1) schema v ↔
      ∃ members : List ((String × Json) × Value), members.map Prod.fst = properties ∧
        (∀ m ∈ members, HasValue printer bound m.1.2 m.2) ∧
        v = .object (members.map memberValue) := by
  constructor
  · rintro ⟨s, hs⟩
    rcases shape_object h.plain h.type h.properties hs with
      ⟨rfl, _, _, _, rfl⟩ | ⟨members, body, _, hmembers, hbody, _, _, rfl⟩
    · exact ⟨[], rfl, by simp, rfl⟩
    · refine ⟨members, hmembers, ?_, rfl⟩
      intro m hm
      obtain ⟨_, _, _, t, _, _, ht, _⟩ := separated_mem hbody m hm
      exact ⟨t, ht⟩
  · rintro ⟨members, rfl, hvalues, rfl⟩
    by_cases hempty : members = []
    · subst hempty
      exact ⟨_, .emptyObject [] h.plain h.type h.properties space_nil⟩
    · have hmembers : ∀ m ∈ members, ∃ t, Member printer (Emits printer bound) t m := by
        intro m hm
        obtain ⟨t, ht⟩ := hvalues m hm
        exact ⟨_, [], [], t, space_nil, space_nil, ht, rfl⟩
      obtain ⟨body, hbody⟩ := exists_separated hempty hmembers
      exact ⟨_, .object members body [] h.plain h.type h.properties hbody space_nil⟩

theorem hasValue_array {items : Json} (hplain : IsPlain schema)
    (htype : schema.get "type" = some (.string "array"))
    (hitems : schema.get "items" = some items) :
    HasValue printer (bound + 1) schema v ↔
      ∃ values, (∀ w ∈ values, HasValue printer bound items w) ∧ v = .array values := by
  constructor
  · rintro ⟨s, hs⟩
    rcases shape_array hplain htype hitems hs with
      ⟨_, _, _, _, _, rfl⟩ | ⟨values, body, _, hbody, _, _, rfl⟩
    · exact ⟨[], by simp, rfl⟩
    · exact ⟨values, separated_mem hbody, rfl⟩
  · rintro ⟨values, hvalues, rfl⟩
    by_cases hempty : values = []
    · subst hempty
      exact ⟨_, .emptyArray [] [] hplain htype space_nil space_nil⟩
    · obtain ⟨body, hbody⟩ := exists_separated hempty hvalues
      exact ⟨_, .array items values body [] hplain htype hitems hbody space_nil⟩

/-- A text for every scalar type. -/
theorem exists_scalar (kind : Scalar) : ∃ s, Derives [] kind.expr s := by
  have hminus : Derives [] minusExpr [] := (derives_optional_iff _).mpr (Or.inl rfl)
  have hzero : Derives [] naturalExpr ['0'] := by
    have hdigit : Derives [] digit ['0'] := Derives.chars _ '0' (by decide)
    refine Derives.left _ _ _ ?_
    exact (derives_sequence_cons_iff _ _).mpr ⟨['0'], [], hdigit, derives_sequence_nil_iff.mpr rfl,
      rfl⟩
  cases kind with
  | string =>
    refine ⟨['"', '"'], ?_⟩
    simp only [Scalar.expr, stringExpr, derives_sequence_cons_iff, derives_sequence_nil_iff,
      derives_text_iff, derives_any_iff]
    exact ⟨_, _, rfl, ⟨[], _, ⟨[], by simp, rfl⟩, ⟨_, _, rfl, rfl, rfl⟩, rfl⟩, rfl⟩
  | integer =>
    refine ⟨['0'], ?_⟩
    simp only [Scalar.expr, integerExpr, derives_sequence_cons_iff, derives_sequence_nil_iff]
    exact ⟨[], _, hminus, ⟨['0'], _, hzero, rfl, rfl⟩, rfl⟩
  | number =>
    refine ⟨['0'], ?_⟩
    simp only [Scalar.expr, numberExpr, derives_sequence_cons_iff, derives_sequence_nil_iff,
      derives_optional_iff]
    exact ⟨[], _, hminus, ⟨['0'], _, hzero, ⟨[], _, Or.inl rfl, ⟨[], _, Or.inl rfl, rfl, rfl⟩, rfl⟩,
      rfl⟩, rfl⟩
  | boolean =>
    refine ⟨"true".toList, ?_⟩
    simp only [Scalar.expr, booleanExpr, derives_alt_iff, derives_sequence_cons_iff,
      derives_sequence_nil_iff, derives_text_iff]
    exact Or.inl ⟨_, _, rfl, rfl, rfl⟩
  | null =>
    refine ⟨"null".toList, ?_⟩
    simp only [Scalar.expr, nullExpr, derives_sequence_cons_iff, derives_sequence_nil_iff,
      derives_text_iff]
    exact ⟨_, _, rfl, rfl, rfl⟩

theorem exists_members {R : String × Json → Value → Prop} (properties : List (String × Json))
    (h : ∀ property ∈ properties, ∃ v, R property v) :
    ∃ members : List ((String × Json) × Value), members.map Prod.fst = properties ∧
      ∀ m ∈ members, R m.1 m.2 := by
  induction properties with
  | nil => exact ⟨[], rfl, by simp⟩
  | cons property properties ih =>
    obtain ⟨v, hv⟩ := h property List.mem_cons_self
    obtain ⟨members, rfl, hmembers⟩ := ih (fun p hp => h p (List.mem_cons_of_mem _ hp))
    exact ⟨(property, v) :: members, rfl, List.forall_mem_cons.mpr ⟨hv, hmembers⟩⟩

/-- Every supported schema has a text. -/
theorem exists_value (h : Supported bound schema) : ∃ v, HasValue printer bound schema v := by
  induction h with
  | literal bound schema c honly hoffers =>
    exact ⟨denote floats c, (hasValue_literal hoffers).mpr ⟨c, hoffers, rfl⟩⟩
  | scalar bound schema kind honly hplain htype =>
    obtain ⟨s, hs⟩ := exists_scalar kind
    obtain ⟨v, htext, hkind⟩ := scalar_text kind hs
    exact ⟨v, s, (shape_scalar hplain htype s v).mpr ⟨hs, htext, hkind⟩⟩
  | object bound schema properties honly hclosed _ ih =>
    obtain ⟨members, hmembers, hvalues⟩ := exists_members properties ih
    exact ⟨_, (hasValue_object hclosed).mpr ⟨members, hmembers, hvalues, rfl⟩⟩
  | array bound schema items honly hplain htype hitems _ _ =>
    exact ⟨_, (hasValue_array hplain htype hitems).mpr ⟨[], by simp, rfl⟩⟩

end Values

section Soundness

variable {floats : Floats} {printer : Printer floats} {others : Json → Value → Prop} {bound : ℕ}
  {schema : Json} {v : Value}

/-- What the keywords about members require. -/
structure MembersValid (floats : Floats) (others : Json → Value → Prop) (schema : Json)
    (members : List (List ℕ × Value)) : Prop where
  required : ∀ names name, schema.get "required" = some (.array names) →
    .string name ∈ names → ∃ w, (units name, w) ∈ members
  properties : ∀ properties name property w,
    schema.get "properties" = some (.object properties) → (name, property) ∈ properties →
    (units name, w) ∈ members → Valid floats others property w
  additional : ∀ inner key w, schema.get "additionalProperties" = some inner →
    (key, w) ∈ members →
    (∀ properties, schema.get "properties" = some (.object properties) →
      ∀ property ∈ properties, units property.1 ≠ key) → Valid floats others inner w

theorem valid_of_type {kind : String} (honly : OnlySupported schema) (hplain : IsPlain schema)
    (htype : schema.get "type" = some (.string kind)) (hkind : HasType kind v)
    (hmembers : ∀ members, v = .object members → MembersValid floats others schema members)
    (hitems : ∀ inner values, schema.get "items" = some inner → v = .array values →
      ∀ w ∈ values, Valid floats others inner w) : Valid floats others schema v := by
  obtain ⟨fields, rfl, hsupported⟩ := honly
  refine .checked fields v hsupported ?_ ?_ ?_ ?_ ?_ ?_ ?_
  · intro kind' hkind'
    obtain rfl := Option.some.inj (htype.symm.trans hkind')
    exact hkind
  · intro c hc
    rw [hplain.1] at hc
    cases hc
  · intro cs hcs
    rw [hplain.2] at hcs
    cases hcs
  · intro names members name hnames hv hname
    exact (hmembers members hv).required names name hnames hname
  · intro properties members name property w hproperties hv hproperty hw
    exact (hmembers members hv).properties properties name property w hproperties hproperty hw
  · intro inner members key w hinner hv hw hnone
    exact (hmembers members hv).additional inner key w hinner hw hnone
  · intro inner values item hinner hv hitem
    exact hitems inner values hinner hv item hitem

/-- As many names as properties, all of them among the names: no name is another. -/
theorem required_listed {names : List Json} {listed : List (String × Json)}
    (hlength : names.length = listed.length)
    (hall : ∀ property ∈ listed, .string property.1 ∈ names)
    (hkeys : (listed.map Prod.fst).Nodup) {name : String} (hname : .string name ∈ names) :
    ∃ property ∈ listed, property.1 = name := by
  have hnodup : ((listed.map Prod.fst).map Json.string).Nodup :=
    List.Nodup.map (fun a b h => Json.string.inj h) hkeys
  have hsubset : (listed.map Prod.fst).map Json.string ⊆ names := by
    intro json hjson
    simp only [List.map_map, List.mem_map, Function.comp_apply] at hjson
    obtain ⟨property, hproperty, rfl⟩ := hjson
    exact hall property hproperty
  have hperm := (List.subperm_of_subset hnodup hsubset).perm_of_length_le (by
    rw [List.length_map, List.length_map, hlength])
  have hmem := hperm.symm.subset hname
  simp only [List.map_map, List.mem_map, Function.comp_apply] at hmem
  obtain ⟨property, hproperty, heq⟩ := hmem
  exact ⟨property, hproperty, Json.string.inj heq⟩

theorem unique_property {listed : List (String × Json)} (hkeys : (listed.map Prod.fst).Nodup)
    {p q : String × Json} (hp : p ∈ listed) (hq : q ∈ listed) (h : p.1 = q.1) : p = q :=
  List.inj_on_of_nodup_map hkeys hp hq h

theorem membersValid_of {listed : List (String × Json)} (hclosed : IsClosed schema listed)
    (hkeys : (listed.map Prod.fst).Nodup) {members : List ((String × Json) × Value)}
    (hmembers : members.map Prod.fst = listed)
    (hvalid : ∀ m ∈ members, Valid floats others m.1.2 m.2) :
    MembersValid floats others schema (members.map memberValue) := by
  have hlisted : ∀ {properties}, schema.get "properties" = some (.object properties) →
      properties = listed := fun h =>
    Json.object.inj (Option.some.inj (h.symm.trans hclosed.properties))
  have hmem : ∀ m ∈ members, m.1 ∈ listed := fun m hm => hmembers ▸ List.mem_map_of_mem hm
  refine ⟨?_, ?_, ?_⟩
  · intro names name hnames hname
    obtain ⟨names', hrequired, hlength, hall⟩ := hclosed.required
    obtain rfl := Json.array.inj (Option.some.inj (hnames.symm.trans hrequired))
    obtain ⟨property, hproperty, rfl⟩ := required_listed hlength hall hkeys hname
    rw [← hmembers] at hproperty
    obtain ⟨m, hm, rfl⟩ := List.mem_map.mp hproperty
    exact ⟨m.2, List.mem_map_of_mem hm⟩
  · intro properties name property w hproperties hproperty hw
    obtain rfl := hlisted hproperties
    obtain ⟨m, hm, heq⟩ := List.mem_map.mp hw
    obtain ⟨hname, rfl⟩ := Prod.mk.inj heq
    have hsame := unique_property hkeys (hmem m hm) hproperty (units_inj hname)
    have hvalue := hvalid m hm
    rw [hsame] at hvalue
    exact hvalue
  · intro inner key w _ hw hnone
    obtain ⟨m, hm, heq⟩ := List.mem_map.mp hw
    exact absurd (Prod.mk.inj heq).1 (hnone listed hclosed.properties m.1 (hmem m hm))

/-- Where the constants are valid every text of the schema is. -/
theorem valid_of_hasValue (hsupported : Supported bound schema) (hdistinct : DistinctKeys schema)
    (hliterals : LiteralsValid floats others schema) (h : HasValue printer bound schema v) :
    Valid floats others schema v := by
  induction hsupported generalizing v with
  | literal bound schema c honly hoffers =>
    obtain ⟨c, hc, rfl⟩ := (hasValue_literal hoffers).mp h
    exact hliterals schema c (.itself schema) hc
  | scalar bound schema kind honly hplain htype =>
    obtain ⟨s, hs⟩ := h
    have hkind := ((shape_scalar hplain htype s v).mp hs).2.2
    refine valid_of_type honly hplain htype hkind ?_ ?_
    · rintro members rfl
      exact absurd hkind (kind_ne kind).1
    · rintro _ values _ rfl
      exact absurd hkind (kind_ne kind).2
  | object bound schema listed honly hclosed _ ih =>
    obtain ⟨members, hmembers, hvalues, rfl⟩ := (hasValue_object hclosed).mp h
    obtain ⟨hkeys, hproperties⟩ := (hdistinct.get hclosed.properties).listed
    refine valid_of_type honly hclosed.plain hclosed.type rfl ?_ ?_
    · intro found hfound
      obtain rfl := Value.object.inj hfound
      refine membersValid_of hclosed hkeys hmembers ?_
      intro m hm
      have hlisted : m.1 ∈ listed := hmembers ▸ List.mem_map_of_mem hm
      refine ih m.1 hlisted (hproperties m.1 hlisted) ?_ (hvalues m hm)
      intro inner c hvisits
      exact hliterals inner c
        (.property schema inner listed m.1 hclosed.plain hclosed.type hclosed.properties hlisted
          hvisits)
    · rintro _ values _ hvalue
      cases hvalue
  | array bound schema items honly hplain htype hitems _ ih =>
    obtain ⟨values, hvalues, rfl⟩ := (hasValue_array hplain htype hitems).mp h
    refine valid_of_type honly hplain htype rfl ?_ ?_
    · rintro members hmembers
      cases hmembers
    · intro inner found hinner hfound w hw
      obtain rfl := Value.array.inj hfound
      obtain rfl := Option.some.inj (hitems.symm.trans hinner)
      refine ih (hdistinct.get hitems) ?_ (hvalues w hw)
      intro inner c hvisits
      exact hliterals inner c (.items schema inner items hplain htype hitems hvisits)

end Soundness

section Necessity

variable {floats : Floats} {printer : Printer floats} {others : Json → Value → Prop} {bound : ℕ}
  {schema inner c : Json}

theorem supported_object (h : Supported bound schema) (hplain : IsPlain schema)
    (htype : schema.get "type" = some (.string "object")) :
    ∃ lower listed, bound = lower + 1 ∧ OnlySupported schema ∧ IsClosed schema listed ∧
      ∀ property ∈ listed, Supported lower property.2 := by
  cases h with
  | literal bound _ c _ hoffers => exact absurd hoffers (not_offers hplain)
  | scalar bound _ kind _ _ htype' => exact absurd (type_unique htype' htype) (kind_ne kind).1
  | object bound _ listed honly hclosed h => exact ⟨bound, listed, rfl, honly, hclosed, h⟩
  | array bound _ items _ _ htype' => exact absurd (type_unique htype htype') (by decide)

theorem supported_array (h : Supported bound schema) (hplain : IsPlain schema)
    (htype : schema.get "type" = some (.string "array")) :
    ∃ lower items, bound = lower + 1 ∧ OnlySupported schema ∧
      schema.get "items" = some items ∧ Supported lower items := by
  cases h with
  | literal bound _ c _ hoffers => exact absurd hoffers (not_offers hplain)
  | scalar bound _ kind _ _ htype' => exact absurd (type_unique htype' htype) (kind_ne kind).2
  | object bound _ listed _ hclosed _ => exact absurd (type_unique htype hclosed.type) (by decide)
  | array bound _ items honly _ _ hitems h => exact ⟨bound, items, rfl, honly, hitems, h⟩

/-- A valid object has valid properties. -/
theorem valid_property {listed : List (String × Json)} {members : List (List ℕ × Value)}
    (honly : OnlySupported schema) (hproperties : schema.get "properties" = some (.object listed))
    (h : Valid floats others schema (.object members)) {property : String × Json}
    (hproperty : property ∈ listed) {w : Value} (hw : (units property.1, w) ∈ members) :
    Valid floats others property.2 w := by
  obtain ⟨fields, rfl, hsupported⟩ := honly
  cases h with
  | other _ _ hother =>
    obtain ⟨field, hfield, hnot⟩ := hother
    exact absurd (hsupported field hfield) hnot
  | checked _ _ _ _ _ _ _ hvalid =>
    exact hvalid listed members property.1 property.2 w hproperties rfl hproperty hw

theorem valid_item {items : Json} {values : List Value} (honly : OnlySupported schema)
    (hitems : schema.get "items" = some items)
    (h : Valid floats others schema (.array values)) {w : Value} (hw : w ∈ values) :
    Valid floats others items w := by
  obtain ⟨fields, rfl, hsupported⟩ := honly
  cases h with
  | other _ _ hother =>
    obtain ⟨field, hfield, hnot⟩ := hother
    exact absurd (hsupported field hfield) hnot
  | checked _ _ _ _ _ _ _ _ _ hvalid => exact hvalid items values w hitems rfl hw

/-- Where every text of a schema is valid, the constants that it visits are. -/
theorem valid_visited (hvisits : Visits schema inner) (hoffers : Offers inner c)
    (hsupported : Supported bound schema)
    (hvalid : ∀ v, HasValue printer bound schema v → Valid floats others schema v) :
    Valid floats others inner (denote floats c) := by
  induction hvisits generalizing bound with
  | itself schema =>
    cases bound with
    | zero => cases hsupported
    | succ bound => exact hvalid _ ((hasValue_literal hoffers).mpr ⟨c, hoffers, rfl⟩)
  | property schema inner properties property hplain htype hproperties hmem _ ih =>
    obtain ⟨lower, listed, rfl, honly, hclosed, hinside⟩ := supported_object hsupported hplain htype
    obtain rfl := Json.object.inj (Option.some.inj (hproperties.symm.trans hclosed.properties))
    refine ih hoffers (hinside property hmem) ?_
    intro w hw
    -- The other members can have any values, this one has the value at hand.
    have hchoices : ∀ p ∈ properties, ∃ v, HasValue printer lower p.2 v ∧
        (p = property → v = w) := by
      intro p hp
      by_cases heq : p = property
      · exact ⟨w, heq ▸ hw, fun _ => rfl⟩
      · obtain ⟨v, hv⟩ := @exists_value floats printer _ _ (hinside p hp)
        exact ⟨v, hv, fun h => absurd h heq⟩
    obtain ⟨members, rfl, hmembers⟩ := exists_members _ hchoices
    have hobject := hvalid _ ((hasValue_object hclosed).mpr
      ⟨members, rfl, fun m hm => (hmembers m hm).1, rfl⟩)
    obtain ⟨m, hm, rfl⟩ := List.mem_map.mp hmem
    have hw := (hmembers m hm).2 rfl
    have hmember : (units m.1.1, w) ∈ members.map memberValue := hw ▸ List.mem_map_of_mem hm
    exact valid_property honly hproperties hobject hmem hmember
  | items schema inner items hplain htype hitems _ ih =>
    obtain ⟨lower, items', rfl, honly, hitems', hinside⟩ := supported_array hsupported hplain htype
    obtain rfl := Option.some.inj (hitems.symm.trans hitems')
    refine ih hoffers hinside ?_
    intro w hw
    have harray := hvalid _ ((hasValue_array hplain htype hitems).mpr
      ⟨[w], by simpa using hw, rfl⟩)
    exact valid_item honly hitems harray List.mem_cons_self

end Necessity

section Answers

variable {floats : Floats} {printer : Printer floats} {schema j : Json} {bound : ℕ}

theorem size_field {fields : List (String × Json)} {field : String × Json} (h : field ∈ fields) :
    size field.2 < size (.object fields) := by
  induction fields with
  | nil => cases h
  | cons first fields ih =>
    simp only [size, sizeFields] at ih ⊢
    rcases List.mem_cons.mp h with rfl | h
    · omega
    · have hlt := ih h
      omega

theorem size_get {key : String} (h : schema.get key = some j) : size j < size schema := by
  cases schema with
  | object fields => exact size_field (mem_of_get h)
  | null | bool | number | string | array => cases h

theorem members_answer (compile : Compiler → Json → String → Compiled (List Char)) (path : String)
    (properties : List (String × Json))
    (h : ∀ property ∈ properties, ∀ c path, ∃ r, compile c property.2 path = some r)
    (c : Compiler) : ∃ r, c.members printer compile path properties = some r := by
  induction properties generalizing c with
  | nil => exact ⟨_, rfl⟩
  | cons property properties ih =>
    obtain ⟨name, schema⟩ := property
    obtain ⟨r, hr⟩ := h (name, schema) List.mem_cons_self c s!"{path}.properties.{name}"
    unfold Compiler.members
    rw [hr]
    cases r with
    | error e => exact ⟨_, rfl⟩
    | ok result =>
      obtain ⟨r, hr⟩ := ih (fun p hp => h p (List.mem_cons_of_mem _ hp)) result.2
      simp only [hr]
      cases r with
      | error e => exact ⟨_, rfl⟩
      | ok members => exact ⟨_, rfl⟩

theorem object_answers {compile : Compiler → Json → String → Compiled (List Char)}
    (h : ∀ inner, size inner < size schema → ∀ c path, ∃ r, compile c inner path = some r)
    (c : Compiler) (path : String) : ∃ r, c.object printer compile schema path = some r := by
  unfold Compiler.object
  split
  · split
    · next properties hproperties =>
      have hmembers := @members_answer floats printer compile path properties
        (fun p hp => h p.2 (Nat.lt_trans (size_field hp) (size_get hproperties))) c
      obtain ⟨r, hr⟩ := hmembers
      split
      · split_ifs
        · exact ⟨_, rfl⟩
        · rw [hr]
          cases r with
          | error e => exact ⟨_, rfl⟩
          | ok members => exact ⟨_, rfl⟩
      · exact ⟨_, rfl⟩
    · exact ⟨_, rfl⟩
  · exact ⟨_, rfl⟩

theorem array_answers {compile : Compiler → Json → String → Compiled (List Char)}
    (h : ∀ inner, size inner < size schema → ∀ c path, ∃ r, compile c inner path = some r)
    (c : Compiler) (path : String) : ∃ r, c.array compile schema path = some r := by
  unfold Compiler.array
  split
  · exact ⟨_, rfl⟩
  · next items hitems =>
    obtain ⟨r, hr⟩ := h items (size_get hitems) c s!"{path}.items"
    rw [hr]
    cases r with
    | error e => exact ⟨_, rfl⟩
    | ok item => exact ⟨_, rfl⟩

/-- The bound is above the depth of every schema of this size. -/
theorem compile_answers (hsize : size schema ≤ bound) (c : Compiler) (path : String) :
    ∃ r, Compiler.compile printer bound c schema path = some r := by
  induction bound generalizing schema c path with
  | zero =>
    cases schema <;> simp only [size] at hsize <;> omega
  | succ bound ih =>
    have hinner : ∀ inner, size inner < size schema → ∀ c path,
        ∃ r, Compiler.compile printer bound c inner path = some r :=
      fun inner hlt c path => ih (by omega) c path
    unfold Compiler.compile
    split
    · split_ifs
      · exact ⟨_, rfl⟩
      · split
        · exact ⟨_, rfl⟩
        · split
          · split_ifs
            · exact ⟨_, rfl⟩
            · exact ⟨_, rfl⟩
          · exact ⟨_, rfl⟩
          · split
            · exact ⟨_, rfl⟩
            · split_ifs
              · exact object_answers hinner c path
              · exact array_answers hinner c path
              all_goals exact ⟨_, rfl⟩
    · exact ⟨_, rfl⟩

/-- Every schema is answered: with a grammar or with an error. -/
theorem schemaGrammar_answers (printer : Printer floats) (validate : Json → Option String)
    (schema : Json) :
    ∃ r, schemaGrammar printer validate schema = some r := by
  unfold schemaGrammar
  split
  · exact ⟨_, rfl⟩
  · obtain ⟨r, hr⟩ := @compile_answers floats printer schema _ (Nat.le_refl _) ⟨[spaceRule], 0⟩ "$"
    rw [hr]
    cases r with
    | error e => exact ⟨_, rfl⟩
    | ok result => exact ⟨_, rfl⟩

end Answers

section Theorem

variable {floats : Floats}

/-- A schema's grammar derives texts of valid values only exactly when every constant that is
compiled is valid under the schema it stands in. -/
theorem grammar_sound_iff (printer : Printer floats) (others : Json → Value → Prop)
    (validate : Json → Option String) (schema : Json) (hdistinct : DistinctKeys schema)
    (g : List Char) (hg : schemaGrammar printer validate schema = some (.ok g)) :
    ∃ rules, readGrammar (finishSchemaGrammar g) = some rules ∧
      ((∀ s, Derives rules (.rule rootName) s →
        ∃ v, readJson s = some v ∧ Valid floats others schema v) ↔
        LiteralsValid floats others schema) := by
  obtain ⟨rules, hrules, hsound, hcomplete⟩ := grammar_texts hg
  obtain ⟨value, c', hcompile, _⟩ := schemaGrammar_ok hg
  have hsupported := supported_of_compile hcompile
  refine ⟨rules, hrules, ?_, ?_⟩
  · intro hvalid inner c hvisits hoffers
    have hvalues : ∀ v, HasValue printer (size schema) schema v → Valid floats others schema v := by
      rintro v ⟨s, hs⟩
      obtain ⟨w, hw, hvalue⟩ := hvalid s (hcomplete s v hs)
      have hread := readJson_of_isText (isText_emits _ _ _ _ hs) isSpace_nil
      rw [List.append_nil] at hread
      obtain rfl := Option.some.inj (hread.symm.trans hw)
      exact hvalue
    exact valid_visited hvisits hoffers hsupported hvalues
  · intro hliterals s hs
    obtain ⟨a, b, v, ha, hb, rfl⟩ := hsound s hs
    refine ⟨v, readJson_of_isText (isText_emits _ _ _ _ ha) (space_text hb), ?_⟩
    exact valid_of_hasValue hsupported hdistinct hliterals ⟨a, ha⟩

def oneSchema : Json := .object [("const", natural 1), ("type", .string "integer")]

def pointSchema : Json :=
  .object [("additionalProperties", .bool false), ("properties", .object [("x", oneSchema)]),
    ("required", .array [.string "x"]), ("type", .string "object")]

theorem distinct_one : DistinctKeys oneSchema :=
  .object _ (by decide) (by simpa using ⟨DistinctKeys.number _, DistinctKeys.string "integer"⟩)

theorem distinct_point : DistinctKeys pointSchema := by
  have hproperties : DistinctKeys (.object [("x", oneSchema)]) :=
    .object _ (by decide) (by simpa using distinct_one)
  have hrequired : DistinctKeys (.array [.string "x"]) :=
    .array _ (by simpa using DistinctKeys.string "x")
  exact .object _ (by decide) (by simpa using ⟨DistinctKeys.bool false, hproperties, hrequired,
    DistinctKeys.string "object"⟩)

theorem one_valid : Valid zeroFloats (fun _ _ => False) oneSchema
    (denote zeroFloats (natural 1)) := by
  refine .checked _ _ (by decide) ?_ ?_ ?_ ?_ ?_ ?_ ?_
  · intro kind hkind
    obtain rfl := Option.some.inj hkind
    exact Or.inr ⟨rfl, by decide⟩
  · intro c hc
    obtain rfl := Option.some.inj hc
    exact same_refl _
  · intro cs hcs
    cases hcs
  · intro names _ _ hnames
    cases hnames
  · intro properties _ _ _ _ hproperties
    cases hproperties
  · intro schema _ _ _ hadditional
    cases hadditional
  · intro schema _ _ hitems
    cases hitems

/-- The only constant of the schema is an integer, as the type beside it asks. -/
theorem point_literals : LiteralsValid zeroFloats (fun _ _ => False) pointSchema := by
  intro inner c hvisits hoffers
  cases hvisits with
  | itself =>
    rcases hoffers with hconst | ⟨_, _, henum, _⟩
    · cases hconst
    · cases henum
  | property _ _ properties property _ _ hproperties hmem hinner =>
    cases hproperties
    obtain rfl := List.mem_singleton.mp hmem
    cases hinner with
    | itself =>
      rcases hoffers with hconst | ⟨hnone, _⟩
      · obtain rfl := Option.some.inj hconst
        exact one_valid
      · cases hnone
    | property _ _ _ _ hplain => cases hplain.1
    | items _ _ _ hplain => cases hplain.1
  | items _ _ _ _ htype =>
    have hkind : "object" = "array" := Json.string.inj (Option.some.inj htype)
    exact absurd hkind (by decide)

theorem point_grammar_sound :
    ∃ g rules, schemaGrammar zeroPrinter (fun _ => none) pointSchema = some (.ok g) ∧
      readGrammar (finishSchemaGrammar g) = some rules ∧
      ∀ s, Derives rules (.rule rootName) s →
        ∃ v, readJson s = some v ∧ Valid zeroFloats (fun _ _ => False) pointSchema v := by
  obtain ⟨g, hg⟩ : ∃ g, schemaGrammar zeroPrinter (fun _ => none) pointSchema = some (.ok g) :=
    ⟨_, rfl⟩
  obtain ⟨rules, hrules, hiff⟩ := grammar_sound_iff zeroPrinter (fun _ _ => False) (fun _ => none)
    pointSchema distinct_point g hg
  exact ⟨g, rules, hg, hrules, hiff.mpr point_literals⟩

def constSchema : Json := .object [("const", natural 1), ("type", .string "string")]

/-- The number of the constant is derived, the type beside it asks for a string. -/
theorem const_beside_type :
    ∃ g rules, schemaGrammar zeroPrinter (fun _ => none) constSchema = some (.ok g) ∧
      readGrammar (finishSchemaGrammar g) = some rules ∧
      Derives rules (.rule rootName) ['1'] ∧
      ∃ v, readJson ['1'] = some v ∧ ¬Valid zeroFloats (fun _ _ => False) constSchema v := by
  obtain ⟨g, hg⟩ : ∃ g, schemaGrammar zeroPrinter (fun _ => none) constSchema = some (.ok g) :=
    ⟨_, rfl⟩
  obtain ⟨rules, hrules, _, hcomplete⟩ := grammar_texts hg
  have hemits : Emits zeroPrinter (size constSchema) constSchema ['1']
      (denote zeroFloats (natural 1)) := .literal (natural 1) (Or.inl rfl)
  have hread := readJson_of_isText (isText_emits _ _ _ _ hemits) isSpace_nil
  refine ⟨g, rules, hg, hrules, hcomplete _ _ hemits, _, hread, ?_⟩
  intro hvalid
  cases hvalid with
  | other _ _ hother =>
    obtain ⟨field, hfield, hnot⟩ := hother
    have hall : ∀ key ∈ ["const", "type"], key ∈ supportedKeywords := by decide
    exact absurd (hall field.1 (List.mem_map_of_mem hfield)) hnot
  | checked _ _ _ htype =>
    rcases htype (.string "string") rfl with h | ⟨h, _⟩
    · exact absurd h (by decide)
    · exact absurd h (by decide)

end Theorem

end Cusco.GrammarSoundness
