import Cusco.CompiledRules

/-!
The whole grammar of a schema is read as its root, the rule of white space, the rules that the
compiler wrote and those of the scalar types. The root derives the texts of the schema, with white
space after some of them.
-/

namespace Cusco.GrammarReadings

open Gbnf GbnfTexts JsonTexts JsonValues JsonPrinting SchemaGrammars SchemaValidity ScalarRules
  CompiledSchemas CompiledRules

section Lines

abbrev rootName : List Char := "root".toList

theorem intercalate_lines (lines : List (List Char)) (hne : lines ≠ []) :
    "\n".toList.intercalate lines ++ "\n".toList =
      lines.flatMap (fun line => line ++ "\n".toList) := by
  induction lines with
  | nil => exact absurd rfl hne
  | cons line lines ih =>
    cases lines with
    | nil =>
      have hsingle : "\n".toList.intercalate [line] = line := List.append_nil line
      rw [hsingle, List.flatMap_singleton]
    | cons next lines =>
      have hcons : "\n".toList.intercalate (line :: next :: lines) =
          line ++ ("\n".toList ++ "\n".toList.intercalate (next :: lines)) := rfl
      rw [hcons, List.flatMap_cons, ← ih (List.cons_ne_nil next lines)]
      simp only [List.append_assoc]

/-- Lines are read one after the other. -/
theorem spells_lines {lines : List (List Char)} {new : Rules}
    (h : List.Forall₂ LineOf lines new) (rs : Rules) :
    Spells ⟨rs, .between⟩ (lines.flatMap (fun line => line ++ "\n".toList))
      ⟨rs ++ new, .between⟩ := by
  induction h generalizing rs with
  | nil =>
    intro rest
    rw [List.append_nil]
    rfl
  | @cons line rule lines new hline _ ih =>
    have hrest := ih (rs ++ [rule])
    rw [List.append_assoc, List.singleton_append] at hrest
    exact (hline rs).append hrest

theorem lineOf_space : LineOf spaceRule (spaceName, spaceExpr) := by
  intro rs rest
  rw [List.append_assoc]
  exact spells_space rs rest

theorem lineOf_root {value : List Char} {f : Frame} (h : ReadsValue value f) :
    LineOf ("root ::= ".toList ++ (value ++ " space".toList))
      (rootName, (f.push (.rule spaceName)).expr) := by
  have hspace : ∀ rs name outer, Reads ⟨rs, .body name f outer⟩ " space".toList
      ⟨rs, .body name (f.push (.rule spaceName)) outer⟩ := by
    intro rs name outer
    have hblank : Spells ⟨rs, .body name f outer⟩ [' '] ⟨rs, .body name f outer⟩ := by
      intro rest
      rfl
    have hchars : spaceName ≠ [] ∧ spaceName.all isNameChar = true := by decide
    exact hblank.before (reads_name hchars.1 hchars.2 rfl)
  have hparted : Parted " space".toList := by
    intro c hc
    cases hc
    rfl
  have hbody : ReadsValue (value ++ " space".toList) (f.push (.rule spaceName)) :=
    ⟨rfl, fun rs name outer => (h.reads rs name outer).append (hspace rs name outer) hparted⟩
  have hchars : rootName ≠ [] ∧ rootName.all isNameChar = true := by decide
  exact lineOf_rule hchars.1 hchars.2 hbody

theorem spells_scalars (rs : Rules) :
    Spells ⟨rs, .between⟩ scalarRules ⟨rs ++ appended, .between⟩ := by
  have hspells := (spells_string rs).append ((spells_integer _).append ((spells_number _).append
    ((spells_boolean _).append (spells_null _))))
  simp only [List.append_assoc] at hspells
  exact hspells

/-- The rules of the schema's grammar. -/
def grammarRules (f : Frame) (new : Rules) : Rules :=
  (rootName, (f.push (.rule spaceName)).expr) :: (spaceName, spaceExpr) :: (new ++ appended)

theorem readGrammar_finish {value : List Char} {f : Frame} {lines : List (List Char)} {new : Rules}
    (hvalue : ReadsValue value f) (hlines : List.Forall₂ LineOf lines new) :
    readGrammar (finishSchemaGrammar ("\n".toList.intercalate
      (("root ::= ".toList ++ (value ++ " space".toList)) :: ([spaceRule] ++ lines)) ++
        "\n".toList)) = some (grammarRules f new) := by
  have hall := List.Forall₂.cons (lineOf_root hvalue) (List.Forall₂.cons lineOf_space hlines)
  have hread := (spells_lines hall []).append (spells_scalars _) []
  rw [List.append_nil] at hread
  rw [intercalate_lines _ (List.cons_ne_nil _ _)]
  exact hread

end Lines

section Names

variable {c c' : Compiler} {new : Rules} {f : Frame}

theorem head_of_built (h : Built c c' new) {rule : List Char × Expr} (hrule : rule ∈ new) :
    rule.1.head? = some 'o' ∨ rule.1.head? = some 'a' := by
  obtain ⟨kind, number, hkind, hname, _⟩ := h.names rule hrule
  rw [hname]
  rcases hkind with rfl | rfl
  · exact Or.inl rfl
  · exact Or.inr rfl

/-- No two rules of the grammar have one name. -/
theorem nodup_names (h : Built c c' new) : ((grammarRules f new).map Prod.fst).Nodup := by
  have hfixed : ∀ name ∈ rootName :: spaceName :: appended.map Prod.fst,
      name.head? ≠ some 'o' ∧ name.head? ≠ some 'a' := by decide
  have hnew : ∀ name ∈ new.map Prod.fst, name ∉ rootName :: spaceName :: appended.map Prod.fst := by
    intro name hname hmem
    obtain ⟨rule, hrule, rfl⟩ := List.mem_map.mp hname
    rcases head_of_built h hrule with hhead | hhead
    · exact (hfixed rule.1 hmem).1 hhead
    · exact (hfixed rule.1 hmem).2 hhead
  have hothers : (rootName :: spaceName :: appended.map Prod.fst).Nodup := by decide
  have hperm : ((grammarRules f new).map Prod.fst).Perm
      (new.map Prod.fst ++ (rootName :: spaceName :: appended.map Prod.fst)) := by
    unfold grammarRules
    rw [List.map_cons, List.map_cons, List.map_append]
    exact (List.perm_append_comm_assoc [rootName, spaceName] _ _)
  rw [hperm.nodup_iff, List.nodup_append]
  refine ⟨h.nodup, hothers, ?_⟩
  rintro name hname _ hother rfl
  exact hnew name hname hother

theorem based_grammarRules (h : Built c c' new) : Based (grammarRules f new) where
  space := lookup_of_mem (nodup_names h) (List.mem_cons_of_mem _ List.mem_cons_self)
  scalar := by
    intro kind
    have hmem : (kind.ruleName, kind.expr) ∈ appended := by
      cases kind <;> decide
    exact lookup_of_mem (nodup_names h) (List.mem_cons_of_mem _ (List.mem_cons_of_mem _
      (List.mem_append_right new hmem)))

end Names

section Roots

variable {rules : Rules} {f : Frame}

theorem space_nil : Space [] := by
  have hempty : Derives [] (.text []) [] := Derives.text []
  exact Derives.left _ _ _ (Derives.left _ _ _ hempty)

/-- The last alternative of a frame and those before it. -/
theorem derives_frame (f : Frame) (s : List Char) :
    Derives rules f.expr s ↔
      (∃ left, f.left = some left ∧ Derives rules left s) ∨ Derives rules f.current s := by
  unfold Frame.expr
  cases f.left with
  | none => simp only [reduceCtorEq, false_and, exists_false, false_or]
  | some left => simp only [Option.some.injEq, exists_eq_left', derives_alt_iff]

theorem derives_current_push (item : Expr) (s : List Char) :
    Derives rules (f.push item).current s ↔
      ∃ a b, Derives rules f.current a ∧ Derives rules item b ∧ s = a ++ b := by
  have hcurrent : (f.push item).current = .seq f.current item := rfl
  rw [hcurrent]
  exact derives_seq_iff f.current item

/-- White space may follow the last alternative, and no other. -/
theorem derives_root (hbased : Based rules) {s : List Char}
    (h : Derives rules (f.push (.rule spaceName)).expr s) :
    ∃ a b, Derives rules f.expr a ∧ Space b ∧ s = a ++ b := by
  rcases (derives_frame _ s).mp h with ⟨left, hleft, hs⟩ | hs
  · refine ⟨s, [], ?_, space_nil, (List.append_nil s).symm⟩
    exact (derives_frame f s).mpr (Or.inl ⟨left, hleft, hs⟩)
  · obtain ⟨a, b, ha, hb, rfl⟩ := (derives_current_push _ s).mp hs
    exact ⟨a, b, (derives_frame f a).mpr (Or.inr ha), (derives_space hbased b).mp hb, rfl⟩

theorem derives_root_of (hbased : Based rules) {s : List Char} (h : Derives rules f.expr s) :
    Derives rules (f.push (.rule spaceName)).expr s := by
  rw [derives_frame] at h ⊢
  rcases h with hleft | hs
  · exact Or.inl hleft
  · have hnil := (derives_space hbased []).mpr space_nil
    exact Or.inr ((derives_current_push _ s).mpr ⟨s, [], hs, hnil, (List.append_nil s).symm⟩)

end Roots

section Grammars

variable {floats : Floats} {printer : Printer floats} {validate : Json → Option String}
  {schema : Json} {g : List Char}

theorem schemaGrammar_ok (h : schemaGrammar printer validate schema = some (.ok g)) :
    ∃ value c', Compiler.compile printer (size schema) ⟨[spaceRule], 0⟩ schema "$" =
        some (.ok (value, c')) ∧
      g = "\n".toList.intercalate
        (("root ::= ".toList ++ (value ++ " space".toList)) :: c'.rules) ++ "\n".toList := by
  unfold schemaGrammar at h
  split at h
  · cases h
  · split at h
    · cases h
    · cases h
    · next value c' hcompile =>
      cases h
      exact ⟨value, c', hcompile, rfl⟩

/-- What the root of a schema's grammar derives. -/
theorem grammar_texts (h : schemaGrammar printer validate schema = some (.ok g)) :
    ∃ rules, readGrammar (finishSchemaGrammar g) = some rules ∧
      (∀ s, Derives rules (.rule rootName) s →
        ∃ a b v, Emits printer (size schema) schema a v ∧ Space b ∧ s = a ++ b) ∧
      ∀ s v, Emits printer (size schema) schema s v → Derives rules (.rule rootName) s := by
  obtain ⟨value, c', hcompile, rfl⟩ := schemaGrammar_ok h
  obtain ⟨new, f, hbuilt, hreads, hmeaning⟩ := compiles hcompile
  obtain ⟨lines, hlines, hnew⟩ := hbuilt.rules
  have hbased : Based (grammarRules f new) := based_grammarRules hbuilt
  have hroot : (grammarRules f new).lookup rootName = some (f.push (.rule spaceName)).expr :=
    lookup_of_mem (nodup_names hbuilt) List.mem_cons_self
  have hrules : ∀ rule ∈ new, (grammarRules f new).lookup rule.1 = some rule.2 :=
    fun rule hrule => lookup_of_mem (nodup_names hbuilt) (List.mem_cons_of_mem _
      (List.mem_cons_of_mem _ (List.mem_append_left appended hrule)))
  refine ⟨grammarRules f new, ?_, ?_, ?_⟩
  · rw [hlines]
    exact readGrammar_finish hreads hnew
  · intro s hs
    obtain ⟨e, he, hs⟩ := (derives_rule_iff rootName s).mp hs
    obtain rfl := Option.some.inj (hroot.symm.trans he)
    obtain ⟨a, b, ha, hb, rfl⟩ := derives_root hbased hs
    obtain ⟨v, hv⟩ := (hmeaning _ hbased hrules a).mp ha
    exact ⟨a, b, v, hv, hb, rfl⟩
  · intro s v hv
    have hs := (hmeaning _ hbased hrules s).mpr ⟨v, hv⟩
    exact (derives_rule_iff rootName s).mpr ⟨_, hroot, derives_root_of hbased hs⟩

end Grammars

end Cusco.GrammarReadings
