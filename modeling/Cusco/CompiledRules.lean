import Cusco.CompiledSchemas

/-!
The reading of the rules that the compiler writes: each line of them gives one rule, and a compiled
schema derives the texts it stands for.
-/

namespace Cusco.CompiledRules

open Gbnf GbnfTexts JsonTexts JsonValues JsonPrinting SchemaGrammars SchemaValidity ScalarRules
  CompiledSchemas

section Readings

variable {floats : Floats} {printer : Printer floats}

abbrev spaceName : List Char := "space".toList

/-- The escape of a character is read as the character. -/
theorem read_escapedChar (r : Reading) (c : Char) (cs rest : List Char) :
    r.read (.text cs .none)
        (replaceChar '"' ['\\', '"'] (if c = '\\' then ['\\', '\\'] else [c]) ++ rest) =
      r.read (.text (cs ++ [c]) .none) rest := by
  by_cases hslash : c = '\\'
  · subst hslash
    have hnil : cs ++ [] ++ ['\\'] = cs ++ ['\\'] := by rw [List.append_nil]
    rw [← hnil]
    rfl
  · by_cases hquote : c = '"'
    · subst hquote
      have hnil : cs ++ [] ++ ['"'] = cs ++ ['"'] := by rw [List.append_nil]
      rw [← hnil]
      rfl
    · have hplain : replaceChar '"' ['\\', '"'] [c] = [c] := by
        unfold replaceChar
        rw [List.flatMap_singleton, if_neg hquote]
      have hstep : lexChar (.text cs .none) c = some ([], .text (cs ++ [c]) .none) := by
        simp only [lexChar, hquote, and_false, if_false, readChar, if_neg hslash,
          Option.map_some, Option.toList_some]
      rw [if_neg hslash, hplain, List.singleton_append, Reading.read, hstep]
      rfl

theorem read_escaped (r : Reading) (json cs rest : List Char) :
    r.read (.text cs .none)
        (replaceChar '"' ['\\', '"'] (replaceChar '\\' ['\\', '\\'] json) ++ rest) =
      r.read (.text (cs ++ json) .none) rest := by
  induction json generalizing cs with
  | nil =>
    rw [List.append_nil]
    rfl
  | cons c json ih =>
    have hcons : replaceChar '"' ['\\', '"'] (replaceChar '\\' ['\\', '\\'] (c :: json)) =
        replaceChar '"' ['\\', '"'] (if c = '\\' then ['\\', '\\'] else [c]) ++
          replaceChar '"' ['\\', '"'] (replaceChar '\\' ['\\', '\\'] json) := by
      unfold replaceChar
      rw [List.flatMap_cons, List.flatMap_append]
    rw [hcons, List.append_assoc, read_escapedChar, ih, List.append_assoc, List.singleton_append]

/-- A literal is read as the text of its value. -/
theorem spells_literal (printer : Printer floats) (value : Json) (rs : Rules) (name : List Char)
    (f : Frame) (outer : List Frame) :
    Spells ⟨rs, .body name f outer⟩ (literal printer value)
      ⟨rs, .body name (f.push (.text (printer.text value))) outer⟩ := by
  intro rest
  have hread := read_escaped ⟨rs, .body name f outer⟩ (printer.text value) [] ('"' :: rest)
  unfold literal
  rw [List.cons_append, List.cons_append, List.append_assoc, List.singleton_append]
  exact hread

/-- The value's text is read as what the frame holds. -/
structure ReadsValue (t : List Char) (f : Frame) : Prop where
  some : f.last.isSome = true
  reads : ∀ rs name outer, Reads ⟨rs, .body name .new outer⟩ t ⟨rs, .body name f outer⟩

/-- The line is read as the rule. -/
def LineOf (line : List Char) (rule : List Char × Expr) : Prop :=
  ∀ rs, Spells ⟨rs, .between⟩ (line ++ "\n".toList) ⟨rs ++ [rule], .between⟩

theorem lineOf_rule {name body : List Char} {f : Frame} (hne : name ≠ [])
    (hname : name.all isNameChar = true) (hbody : ReadsValue body f) :
    LineOf (name ++ (" ::= ".toList ++ body)) (name, f.expr) := by
  intro rs
  have hhead : Reads ⟨rs, .between⟩ name ⟨rs, .named name⟩ := reads_name hne hname rfl
  have hdefines : Spells ⟨rs, .named name⟩ " ::= ".toList ⟨rs, .body name .new []⟩ := by
    intro rest
    rfl
  have hend : Spells ⟨rs, .body name f []⟩ "\n".toList ⟨rs ++ [(name, f.expr)], .between⟩ := by
    intro rest
    have hstep : Reading.inBody ⟨rs, .body name f []⟩ name f [] .newline =
        some ⟨rs ++ [(name, f.expr)], .between⟩ := by
      simp only [Reading.inBody, hbody.some, and_self, if_true]
    have hlex : lexChar .plain '\n' = some ([.newline], .plain) := rfl
    have hline : "\n".toList ++ rest = '\n' :: rest := rfl
    rw [hline, Reading.read, hlex]
    simp only [Reading.tokens, Reading.token, hstep, Option.bind_some]
  have hrest : Spells ⟨rs, .named name⟩ (" ::= ".toList ++ (body ++ "\n".toList))
      ⟨rs ++ [(name, f.expr)], .between⟩ :=
    hdefines.append ((hbody.reads rs name []).before hend rfl)
  rw [List.append_assoc, List.append_assoc]
  exact hhead.before hrest rfl

/-- The items of an object's member. -/
def memberItems (printer : Printer floats) (name : String) (value : Expr) : List Expr :=
  [.text (printer.text (.string name)), .rule spaceName, .text [':'], .rule spaceName, value]

theorem spells_member {value : List Char} {fv : Frame} (hvalue : ReadsValue value fv)
    (key : String) (rs : Rules) (name : List Char) (f : Frame) (outer : List Frame) :
    Spells ⟨rs, .body name f outer⟩ (memberText printer key value)
      ⟨rs, .body name (f.pushAll (memberItems printer key fv.expr)) outer⟩ := by
  have hcolon : ∀ g : Frame, Spells ⟨rs, .body name g outer⟩ " space \":\" space (".toList
      ⟨rs, .body name .new
        (g.pushAll [.rule spaceName, .text [':'], .rule spaceName] :: outer)⟩ := by
    intro g rest
    rfl
  have hclose : ∀ g : Frame, Spells ⟨rs, .body name fv (g :: outer)⟩ ")".toList
      ⟨rs, .body name (g.push fv.expr) outer⟩ := by
    intro g rest
    rfl
  have hkey := spells_literal printer (.string key) rs name f outer
  exact hkey.append ((hcolon _).append ((hvalue.reads rs name _).before (hclose _) rfl))

def separator : List Expr := [.rule spaceName, .text [','], .rule spaceName]

/-- The items of an object's members. -/
def membersItems (printer : Printer floats) : List (String × Expr) → List Expr
  | [] => []
  | [m] => memberItems printer m.1 m.2
  | m :: next :: members =>
    memberItems printer m.1 m.2 ++ (separator ++ membersItems printer (next :: members))

def objectItems (printer : Printer floats) (members : List (String × Expr)) : List Expr :=
  if members = [] then [.text ['{'], .rule spaceName, .text ['}']]
  else
    [.text ['{'], .rule spaceName] ++
      (membersItems printer members ++ [.rule spaceName, .text ['}']])

/-- The text is read as the member. -/
def MemberOf (printer : Printer floats) (text : List Char) (m : String × Expr) : Prop :=
  ∀ rs name f outer, Spells ⟨rs, .body name f outer⟩ text
    ⟨rs, .body name (f.pushAll (memberItems printer m.1 m.2)) outer⟩

theorem spells_members {texts : List (List Char)} {members : List (String × Expr)}
    (h : List.Forall₂ (MemberOf printer) texts members) (rs : Rules) (name : List Char) (f : Frame)
    (outer : List Frame) :
    Spells ⟨rs, .body name f outer⟩ (" space \",\" space ".toList.intercalate texts)
      ⟨rs, .body name (f.pushAll (membersItems printer members)) outer⟩ := by
  induction h generalizing f with
  | nil =>
    intro rest
    rfl
  | @cons text m texts members hm hrest ih =>
    cases hrest with
    | nil =>
      have hsingle : " space \",\" space ".toList.intercalate [text] = text :=
        List.append_nil text
      rw [hsingle]
      exact hm rs name f outer
    | @cons next n texts members hn hrest =>
      have hseparator : ∀ g : Frame, Spells ⟨rs, .body name g outer⟩ " space \",\" space ".toList
          ⟨rs, .body name (g.pushAll separator) outer⟩ := by
        intro g rest
        rfl
      have hitems : f.pushAll (membersItems printer (m :: n :: members)) =
          ((f.pushAll (memberItems printer m.1 m.2)).pushAll separator).pushAll
            (membersItems printer (n :: members)) := by
        rw [← pushAll_append, ← pushAll_append]
        rfl
      rw [hitems]
      exact (hm rs name f outer).append ((hseparator _).append (ih _))

theorem spells_objectBody {texts : List (List Char)} {members : List (String × Expr)}
    (h : List.Forall₂ (MemberOf printer) texts members) :
    ReadsValue (objectBody texts) (Frame.new.pushAll (objectItems printer members)) := by
  cases h with
  | nil =>
    refine ⟨rfl, ?_⟩
    intro rs name outer rest _
    rfl
  | @cons text m texts members hm hrest =>
    have hopen : ∀ rs name outer, Spells ⟨rs, .body name .new outer⟩ "\"\x7b\" space ".toList
        ⟨rs, .body name (Frame.new.pushAll [.text ['{'], .rule spaceName]) outer⟩ := by
      intro rs name outer rest
      rfl
    have hclose : ∀ rs name f outer, Spells ⟨rs, .body name f outer⟩ " space \"\x7d\"".toList
        ⟨rs, .body name (f.pushAll [.rule spaceName, .text ['}']]) outer⟩ := by
      intro rs name f outer rest
      rfl
    have hitems : Frame.new.pushAll (objectItems printer (m :: members)) =
        ((Frame.new.pushAll [.text ['{'], .rule spaceName]).pushAll
          (membersItems printer (m :: members))).pushAll [.rule spaceName, .text ['}']] := by
      unfold objectItems
      rw [if_neg (List.cons_ne_nil m members), pushAll_append, pushAll_append]
    rw [hitems]
    refine ⟨rfl, ?_⟩
    intro rs name outer
    have hmembers := spells_members (List.Forall₂.cons hm hrest) rs name
      (Frame.new.pushAll [.text ['{'], .rule spaceName]) outer
    exact ((hopen rs name outer).append (hmembers.append (hclose rs name _ outer))).reads

def arrayItems (item : Expr) : List Expr :=
  [.text ['['], .rule spaceName,
    .repeated (.sequence [item, .repeated (.sequence (separator ++ [item])) 0 none]) 0 (some 1),
    .rule spaceName, .text [']']]

theorem spells_arrayBody {item : List Char} {f : Frame} (h : ReadsValue item f) :
    ReadsValue (arrayBody item) (Frame.new.pushAll (arrayItems f.expr)) := by
  have hopen : ∀ rs name outer, Spells ⟨rs, .body name .new outer⟩ "\"[\" space ((".toList
      ⟨rs, .body name .new
        (.new :: Frame.new.pushAll [.text ['['], .rule spaceName] :: outer)⟩ := by
    intro rs name outer rest
    rfl
  have hmiddle : ∀ rs name g outer, Spells ⟨rs, .body name f (g :: outer)⟩
      ") (space \",\" space (".toList
      ⟨rs, .body name .new (Frame.new.pushAll separator :: g.push f.expr :: outer)⟩ := by
    intro rs name g outer rest
    rfl
  have hclose : ∀ rs name (outer : List Frame), Spells ⟨rs, .body name f
      (Frame.new.pushAll separator :: Frame.new.push f.expr ::
        Frame.new.pushAll [.text ['['], .rule spaceName] :: outer)⟩
      "))*)? space \"]\"".toList
      ⟨rs, .body name (Frame.new.pushAll (arrayItems f.expr)) outer⟩ := by
    intro rs name outer rest
    rfl
  refine ⟨rfl, ?_⟩
  intro rs name outer
  have hlast := (h.reads rs name _).before (hclose rs name outer) rfl
  have hfirst := (h.reads rs name _).before ((hmiddle rs name .new _).append hlast) rfl
  exact ((hopen rs name outer).append hfirst).reads

/-- The frame of several literals, after those of a frame. -/
def literalsFrame (printer : Printer floats) : Frame → List Json → Frame
  | f, [] => f
  | f, [value] => f.push (.text (printer.text value))
  | f, value :: next :: values =>
    literalsFrame printer (f.push (.text (printer.text value))).bar (next :: values)

theorem spells_literals (values : List Json) (rs : Rules) (name : List Char) (f : Frame)
    (outer : List Frame) :
    Spells ⟨rs, .body name f outer⟩ (" | ".toList.intercalate (values.map (literal printer)))
      ⟨rs, .body name (literalsFrame printer f values) outer⟩ := by
  induction values generalizing f with
  | nil =>
    intro rest
    rfl
  | cons value values ih =>
    have hvalue := spells_literal printer value rs name f outer
    cases values with
    | nil =>
      have hsingle : " | ".toList.intercalate [literal printer value] = literal printer value :=
        List.append_nil _
      rw [List.map_cons, List.map_nil, hsingle]
      exact hvalue
    | cons next values =>
      have hbar : ∀ g : Frame, Spells ⟨rs, .body name g outer⟩ " | ".toList
          ⟨rs, .body name g.bar outer⟩ := by
        intro g rest
        rfl
      exact hvalue.append ((hbar _).append (ih _))

theorem literalsFrame_some (values : List Json) (hne : values ≠ []) (f : Frame) :
    (literalsFrame printer f values).last.isSome = true := by
  induction values generalizing f with
  | nil => exact absurd rfl hne
  | cons value values ih =>
    cases values with
    | nil => rfl
    | cons next values => exact ih (List.cons_ne_nil next values) _

theorem readsValue_literals {values : List Json} (hne : values ≠ []) :
    ReadsValue (" | ".toList.intercalate (values.map (literal printer)))
      (literalsFrame printer .new values) :=
  ⟨literalsFrame_some values hne .new,
    fun rs name outer => (spells_literals values rs name .new outer).reads⟩

theorem readsValue_literal (value : Json) :
    ReadsValue (literal printer value) (Frame.new.push (.text (printer.text value))) :=
  ⟨rfl, fun rs name outer => (spells_literal printer value rs name .new outer).reads⟩

/-- A name is read as the rule it names. -/
theorem readsValue_name {s : List Char} (hne : s ≠ []) (hname : s.all isNameChar = true) :
    ReadsValue s (Frame.new.push (.rule s)) :=
  ⟨rfl, fun _ _ _ => reads_name hne hname rfl⟩

theorem scalar_name (kind : Scalar) :
    kind.ruleName ≠ [] ∧ kind.ruleName.all isNameChar = true := by
  cases kind <;> exact ⟨by decide, by decide⟩

theorem isNameChar_of_digit {c : Char} (hc : c.isDigit = true) : isNameChar c = true := by
  unfold isNameChar Char.isAlphanum
  rw [hc, Bool.or_true, Bool.true_or]

theorem ruleName_chars {kind : List Char} (hkind : kind.all isNameChar = true) (number : ℕ) :
    ruleName kind number ≠ [] ∧ (ruleName kind number).all isNameChar = true := by
  have hdigits : (Nat.toDigits 10 number).all isNameChar = true := by
    rw [List.all_eq_true]
    intro c hc
    exact isNameChar_of_digit (Nat.isDigit_of_mem_toDigits (by decide) (by decide) hc)
  unfold ruleName
  constructor
  · exact List.append_ne_nil_of_right_ne_nil kind (List.cons_ne_nil _ _)
  · rw [List.all_append, List.all_cons, hkind, hdigits]
    rfl

end Readings

section Meanings

/-- The rules have those that every schema grammar has. -/
structure Based (rules : Rules) : Prop where
  space : rules.lookup spaceName = some spaceExpr
  scalar : ∀ kind : Scalar, rules.lookup kind.ruleName = some kind.expr

variable {rules : Rules} {floats : Floats} {printer : Printer floats}
  {emits : Json → List Char → Value → Prop}

theorem derives_space (h : Based rules) (s : List Char) :
    Derives rules (.rule spaceName) s ↔ Space s := by
  simp only [derives_rule_iff, h.space, Option.some.injEq, exists_eq_left']
  exact derives_of_ruleFree spaceExpr rfl s

theorem derives_scalar (h : Based rules) (kind : Scalar) (s : List Char) :
    Derives rules (.rule kind.ruleName) s ↔ Derives [] kind.expr s := by
  simp only [derives_rule_iff, h.scalar kind, Option.some.injEq, exists_eq_left']
  have hfree : kind.expr.ruleFree = true := by cases kind <;> rfl
  exact derives_of_ruleFree kind.expr hfree s

theorem derives_push (item : Expr) (s : List Char) :
    Derives rules (Frame.new.push item).expr s ↔ Derives rules item s := by
  have hitems : (Frame.new.push item).expr = .sequence [item] := expr_pushAll [item]
  rw [hitems]
  simp only [derives_sequence_cons_iff, derives_sequence_nil_iff, exists_and_left,
    exists_eq_left, List.append_nil, exists_eq_right']

theorem derives_literals (values : List Json) (hne : values ≠ []) (left : Option Expr)
    (s : List Char) :
    Derives rules (literalsFrame printer ⟨left, .text [], none⟩ values).expr s ↔
      (∃ e, left = some e ∧ Derives rules e s) ∨ ∃ value ∈ values, s = printer.text value := by
  have hpush : ∀ (left : Option Expr) (value : Json),
      Derives rules (Frame.push ⟨left, .text [], none⟩ (.text (printer.text value))).expr s ↔
        (∃ e, left = some e ∧ Derives rules e s) ∨ s = printer.text value := by
    intro left value
    have hcurrent := (derives_push (.text (printer.text value)) s).trans
      (@derives_text_iff rules s (printer.text value))
    cases left with
    | none =>
      simp only [reduceCtorEq, false_and, exists_false, false_or]
      exact hcurrent
    | some e =>
      simp only [Option.some.injEq, exists_eq_left']
      exact (derives_alt_iff e _).trans (or_congr Iff.rfl hcurrent)
  induction values generalizing left with
  | nil => exact absurd rfl hne
  | cons value values ih =>
    cases values with
    | nil =>
      simp only [literalsFrame, List.mem_singleton, exists_eq_left]
      exact hpush left value
    | cons next values =>
      have hrest := ih (List.cons_ne_nil next values)
        (some (Frame.push ⟨left, .text [], none⟩ (.text (printer.text value))).expr)
      simp only [Option.some.injEq, exists_eq_left', hpush] at hrest
      rw [literalsFrame]
      refine hrest.trans ?_
      rw [or_assoc]
      simp only [List.mem_cons, exists_eq_or_imp]

theorem derives_member (hbased : Based rules) {name : String} {schema : Json} {e : Expr}
    (he : ∀ s, Derives rules e s ↔ ∃ v, emits schema s v) (s : List Char) :
    Derives rules (.sequence (memberItems printer name e)) s ↔
      ∃ v, Member printer emits s ((name, schema), v) := by
  simp only [memberItems, derives_sequence_cons_iff, derives_sequence_nil_iff, derives_text_iff,
    derives_space hbased, he]
  constructor
  · rintro ⟨_, _, rfl, ⟨before, _, hbefore, ⟨_, _, rfl, ⟨after, _, hafter,
      ⟨t, _, ⟨v, ht⟩, rfl, rfl⟩, rfl⟩, rfl⟩, rfl⟩, rfl⟩
    refine ⟨v, before, after, t, hbefore, hafter, ht, ?_⟩
    rw [List.append_nil, List.singleton_append]
  · rintro ⟨v, before, after, t, hbefore, hafter, ht, rfl⟩
    refine ⟨_, _, rfl, ⟨before, _, hbefore, ⟨_, _, rfl, ⟨after, _, hafter,
      ⟨t, _, ⟨v, ht⟩, rfl, rfl⟩, rfl⟩, rfl⟩, rfl⟩, ?_⟩
    rw [List.append_nil, List.singleton_append]

def memberExpr (p : (String × Json) × Expr) : String × Expr := (p.1.1, p.2)

theorem derives_members (hbased : Based rules) (pairs : List ((String × Json) × Expr))
    (hne : pairs ≠ [])
    (hpairs : ∀ p ∈ pairs, ∀ s, Derives rules p.2 s ↔ ∃ v, emits p.1.2 s v) (s : List Char) :
    Derives rules (.sequence (.rule spaceName :: membersItems printer (pairs.map memberExpr))) s ↔
      ∃ members : List ((String × Json) × Value), members.map Prod.fst = pairs.map Prod.fst ∧
        Separated Space (Spaced (Member printer emits)) s members := by
  induction pairs generalizing s with
  | nil => exact absurd rfl hne
  | cons p pairs ih =>
    have hmember : ∀ s, Derives rules (.sequence (memberItems printer p.1.1 p.2)) s ↔
        ∃ v, Member printer emits s (p.1, v) := derives_member hbased (hpairs p List.mem_cons_self)
    cases pairs with
    | nil =>
      simp only [List.map_cons, List.map_nil, membersItems, memberExpr,
        derives_sequence_cons_iff, derives_space hbased, hmember]
      constructor
      · rintro ⟨space, t, hspace, ⟨v, ht⟩, rfl⟩
        exact ⟨[(p.1, v)], rfl, .last _ _ ⟨space, t, hspace, ht, rfl⟩⟩
      · rintro ⟨members, hmembers, hs⟩
        obtain ⟨m, rest, rfl, hm, hrest⟩ := List.map_eq_cons_iff.mp hmembers
        obtain rfl := List.map_eq_nil_iff.mp hrest
        cases hs with
        | last _ _ hspaced =>
          obtain ⟨space, t, hspace, ht, rfl⟩ := hspaced
          exact ⟨space, t, hspace, ⟨m.2, hm ▸ ht⟩, rfl⟩
        | more _ _ _ _ _ _ _ ht => cases ht
    | cons q pairs =>
      have hrest := ih (List.cons_ne_nil q pairs)
        (fun p hp => hpairs p (List.mem_cons_of_mem _ hp))
      have hitems : membersItems printer ((p :: q :: pairs).map memberExpr) =
          memberItems printer p.1.1 p.2 ++ (.rule spaceName :: .text [','] ::
            (.rule spaceName :: membersItems printer ((q :: pairs).map memberExpr))) := rfl
      rw [hitems, derives_sequence_cons_iff]
      simp only [derives_space hbased, derives_sequence_append_iff, hmember]
      constructor
      · rintro ⟨space, _, hspace, ⟨t, _, ⟨v, ht⟩, hmore, rfl⟩, rfl⟩
        obtain ⟨before, _, hbefore, htail, rfl⟩ := (derives_sequence_cons_iff _ _).mp hmore
        obtain ⟨_, more, hcomma, hnext, rfl⟩ := (derives_sequence_cons_iff _ _).mp htail
        obtain rfl := (derives_text_iff _).mp hcomma
        obtain ⟨members, hmembers, hseparated⟩ := (hrest more).mp hnext
        refine ⟨(p.1, v) :: members, congrArg (p.1 :: ·) hmembers, ?_⟩
        have hbefore := (derives_space hbased before).mp hbefore
        have hfirst : Spaced (Member printer emits) (space ++ t) (p.1, v) :=
          ⟨space, t, hspace, ht, rfl⟩
        have hs := Separated.more _ _ before more members hfirst hbefore hseparated
        rw [List.append_assoc] at hs
        exact hs
      · rintro ⟨members, hmembers, hs⟩
        obtain ⟨m, members, rfl, hm, hmembers⟩ := List.map_eq_cons_iff.mp hmembers
        cases hs with
        | last _ _ _ => cases hmembers
        | more _ _ before more _ hspaced hbefore hseparated =>
          obtain ⟨space, t, hspace, ht, rfl⟩ := hspaced
          have hbefore := (derives_space hbased before).mpr hbefore
          have hmore := (hrest more).mpr ⟨members, hmembers, hseparated⟩
          have hcomma := (derives_sequence_cons_iff _ _).mpr
            ⟨[','], more, (derives_text_iff [',']).mpr rfl, hmore, rfl⟩
          refine ⟨space, _, hspace, ⟨t, _, ⟨m.2, hm ▸ ht⟩,
            (derives_sequence_cons_iff _ _).mpr ⟨before, _, hbefore, hcomma, rfl⟩, rfl⟩, ?_⟩
          rw [List.append_assoc]
          rfl

/-- The separator and the item after it. -/
theorem derives_next (hbased : Based rules) {schema : Json} {e : Expr}
    (he : ∀ s, Derives rules e s ↔ ∃ v, emits schema s v) (s : List Char) :
    Derives rules (.sequence (separator ++ [e])) s ↔
      ∃ before after t v, Space before ∧ Space after ∧ emits schema t v ∧
        s = before ++ ',' :: (after ++ t) := by
  simp only [separator, List.cons_append, List.nil_append, derives_sequence_cons_iff,
    derives_sequence_nil_iff, derives_text_iff, derives_space hbased, he]
  constructor
  · rintro ⟨before, _, hbefore, ⟨_, _, rfl, ⟨after, _, hafter, ⟨t, _, ⟨v, ht⟩, rfl, rfl⟩, rfl⟩,
      rfl⟩, rfl⟩
    refine ⟨before, after, t, v, hbefore, hafter, ht, ?_⟩
    rw [List.append_nil, List.singleton_append]
  · rintro ⟨before, after, t, v, hbefore, hafter, ht, rfl⟩
    refine ⟨before, _, hbefore, ⟨_, _, rfl, ⟨after, _, hafter, ⟨t, _, ⟨v, ht⟩, rfl, rfl⟩, rfl⟩,
      rfl⟩, ?_⟩
    rw [List.append_nil, List.singleton_append]

theorem separated_of_pieces (hbased : Based rules) {schema : Json} {e : Expr}
    (he : ∀ s, Derives rules e s ↔ ∃ v, emits schema s v) {space t : List Char} {v : Value}
    (hspace : Space space) (ht : emits schema t v) (pieces : List (List Char))
    (hall : ∀ piece ∈ pieces, Derives rules (.sequence (separator ++ [e])) piece) :
    ∃ values, Separated Space (Spaced (emits schema)) (space ++ (t ++ pieces.flatten)) values := by
  induction pieces generalizing space t v with
  | nil =>
    rw [List.flatten_nil, List.append_nil]
    exact ⟨[v], .last _ _ ⟨space, t, hspace, ht, rfl⟩⟩
  | cons piece pieces ih =>
    obtain ⟨before, after, u, w, hbefore, hafter, hu, rfl⟩ :=
      (derives_next hbased he piece).mp (hall piece List.mem_cons_self)
    obtain ⟨values, hvalues⟩ := ih hafter hu (fun p hp => hall p (List.mem_cons_of_mem _ hp))
    have hs := Separated.more _ v before _ values ⟨space, t, hspace, ht, rfl⟩ hbefore hvalues
    refine ⟨v :: values, ?_⟩
    simpa using hs

theorem pieces_of_separated (hbased : Based rules) {schema : Json} {e : Expr}
    (he : ∀ s, Derives rules e s ↔ ∃ v, emits schema s v) {s : List Char} {values : List Value}
    (h : Separated Space (Spaced (emits schema)) s values) :
    ∃ space t v pieces, Space space ∧ emits schema t v ∧
      (∀ piece ∈ pieces, Derives rules (.sequence (separator ++ [e])) piece) ∧
      s = space ++ (t ++ List.flatten pieces) := by
  induction h with
  | last s v hs =>
    obtain ⟨space, t, hspace, ht, rfl⟩ := hs
    exact ⟨space, t, v, [], hspace, ht, by simp, by simp⟩
  | more s v before more values hs hbefore _ ih =>
    obtain ⟨space, t, hspace, ht, rfl⟩ := hs
    obtain ⟨after, u, w, pieces, hafter, hu, hall, rfl⟩ := ih
    refine ⟨space, t, v, (before ++ ',' :: (after ++ u)) :: pieces, hspace, ht, ?_, by simp⟩
    intro piece hpiece
    rcases List.mem_cons.mp hpiece with rfl | hpiece
    · exact (derives_next hbased he _).mpr ⟨before, after, u, w, hbefore, hafter, hu, rfl⟩
    · exact hall piece hpiece

/-- The items of an array, each after a space. -/
theorem derives_items (hbased : Based rules) {schema : Json} {e : Expr}
    (he : ∀ s, Derives rules e s ↔ ∃ v, emits schema s v) (s : List Char) :
    Derives rules (.sequence [.rule spaceName, e,
        .repeated (.sequence (separator ++ [e])) 0 none]) s ↔
      ∃ values, Separated Space (Spaced (emits schema)) s values := by
  simp only [derives_sequence_cons_iff, derives_sequence_nil_iff, derives_space hbased, he,
    derives_any_iff]
  constructor
  · rintro ⟨space, _, hspace, ⟨t, _, ⟨v, ht⟩, ⟨_, _, ⟨pieces, hall, rfl⟩, rfl, rfl⟩, rfl⟩, rfl⟩
    rw [List.append_nil]
    exact separated_of_pieces hbased he hspace ht pieces hall
  · rintro ⟨values, hvalues⟩
    obtain ⟨space, t, v, pieces, hspace, ht, hall, rfl⟩ := pieces_of_separated hbased he hvalues
    refine ⟨space, _, hspace, ⟨t, _, ⟨v, ht⟩, ⟨_, _, ⟨pieces, hall, rfl⟩, rfl, rfl⟩, rfl⟩, ?_⟩
    rw [List.append_nil]

theorem derives_objectItems (hbased : Based rules) {schema : Json}
    (pairs : List ((String × Json) × Expr)) (hplain : IsPlain schema)
    (htype : schema.get "type" = some (.string "object"))
    (hproperties : schema.get "properties" = some (.object (pairs.map Prod.fst)))
    (hpairs : ∀ p ∈ pairs, ∀ s, Derives rules p.2 s ↔ ∃ v, emits p.1.2 s v) (s : List Char) :
    Derives rules (.sequence (objectItems printer (pairs.map memberExpr))) s ↔
      ∃ v, Shape printer emits schema s v := by
  unfold objectItems
  by_cases hempty : pairs = []
  · subst hempty
    simp only [List.map_nil, if_true, derives_sequence_cons_iff, derives_sequence_nil_iff,
      derives_text_iff, derives_space hbased]
    constructor
    · rintro ⟨_, _, rfl, ⟨space, _, hspace, ⟨_, _, rfl, rfl, rfl⟩, rfl⟩, rfl⟩
      exact ⟨_, .emptyObject space hplain htype hproperties hspace⟩
    · rintro ⟨v, hshape⟩
      rcases shape_object hplain htype hproperties hshape with
        ⟨_, space, hspace, rfl, _⟩ | ⟨members, body, space, hmembers, hbody, _, _, _⟩
      · exact ⟨_, _, rfl, ⟨space, _, hspace, ⟨_, _, rfl, rfl, rfl⟩, rfl⟩, rfl⟩
      · obtain rfl := List.map_eq_nil_iff.mp hmembers
        cases hbody
  · have hne : pairs.map memberExpr ≠ [] := fun h => hempty (List.map_eq_nil_iff.mp h)
    have hitems : [.text ['{'], .rule spaceName] ++
        (membersItems printer (pairs.map memberExpr) ++ [.rule spaceName, .text ['}']]) =
        .text ['{'] :: ((.rule spaceName :: membersItems printer (pairs.map memberExpr)) ++
          [.rule spaceName, .text ['}']]) := rfl
    rw [if_neg hne, hitems, derives_sequence_cons_iff]
    simp only [derives_sequence_append_iff, derives_members hbased pairs hempty hpairs]
    simp only [derives_sequence_cons_iff, derives_sequence_nil_iff, derives_text_iff,
      derives_space hbased]
    constructor
    · rintro ⟨_, _, rfl, ⟨body, _, ⟨members, hmembers, hbody⟩, ⟨space, _, hspace, ⟨_, _, rfl, rfl,
        rfl⟩, rfl⟩, rfl⟩, rfl⟩
      exact ⟨_, .object members body space hplain htype (hmembers ▸ hproperties) hbody hspace⟩
    · rintro ⟨v, hshape⟩
      rcases shape_object hplain htype hproperties hshape with
        ⟨hnil, _⟩ | ⟨members, body, space, hmembers, hbody, hspace, rfl, _⟩
      · exact absurd (List.map_eq_nil_iff.mp hnil) hempty
      · exact ⟨_, _, rfl, ⟨body, _, ⟨members, hmembers, hbody⟩, ⟨space, _, hspace, ⟨_, _, rfl, rfl,
          rfl⟩, rfl⟩, rfl⟩, rfl⟩

theorem derives_arrayItems (hbased : Based rules) {schema items : Json} {e : Expr}
    (hplain : IsPlain schema) (htype : schema.get "type" = some (.string "array"))
    (hitems : schema.get "items" = some items)
    (he : ∀ s, Derives rules e s ↔ ∃ v, emits items s v) (s : List Char) :
    Derives rules (.sequence (arrayItems e)) s ↔ ∃ v, Shape printer emits schema s v := by
  have hspaced : ∀ before inner, Space before →
      Derives rules (.sequence [e, .repeated (.sequence (separator ++ [e])) 0 none]) inner →
      ∃ values, Separated Space (Spaced (emits items)) (before ++ inner) values := by
    intro before inner hbefore hinner
    have hbefore := (derives_space hbased before).mpr hbefore
    exact (derives_items hbased he _).mp
      ((derives_sequence_cons_iff _ _).mpr ⟨before, inner, hbefore, hinner, rfl⟩)
  unfold arrayItems
  generalize hrest : Expr.sequence [e, .repeated (.sequence (separator ++ [e])) 0 none] = rest at *
  simp only [derives_sequence_cons_iff, derives_sequence_nil_iff, derives_text_iff,
    derives_space hbased, derives_optional_iff]
  constructor
  · rintro ⟨_, _, rfl, ⟨before, _, hbefore, ⟨inner, _, hinner, ⟨after, _, hafter, ⟨_, _, rfl, rfl,
      rfl⟩, rfl⟩, rfl⟩, rfl⟩, rfl⟩
    rcases hinner with rfl | hinner
    · have hs : Shape printer emits schema _ _ :=
        .emptyArray before after hplain htype hbefore hafter
      rw [List.append_assoc] at hs
      exact ⟨_, hs⟩
    · obtain ⟨values, hvalues⟩ := hspaced before inner hbefore hinner
      have hs : Shape printer emits schema _ _ :=
        .array items values _ after hplain htype hitems hvalues hafter
      rw [List.cons_append, List.append_assoc] at hs
      exact ⟨_, hs⟩
  · rintro ⟨v, hshape⟩
    rcases shape_array hplain htype hitems hshape with
      ⟨before, after, hbefore, hafter, rfl, _⟩ | ⟨values, body, space, hbody, hspace, rfl, _⟩
    · refine ⟨_, _, rfl, ⟨before, _, hbefore,
      ⟨[], _, Or.inl rfl, ⟨after, _, hafter, ⟨_, _, rfl, rfl,
        rfl⟩, rfl⟩, rfl⟩, rfl⟩, ?_⟩
      rw [List.append_assoc]
      rfl
    · obtain ⟨before, inner, hbefore, hinner, rfl⟩ := (derives_sequence_cons_iff _ _).mp
        ((derives_items hbased he body).mpr ⟨values, hbody⟩)
      rw [hrest] at hinner
      have hbefore := (derives_space hbased before).mp hbefore
      refine ⟨_, _, rfl, ⟨before, _, hbefore,
        ⟨inner, _, Or.inr hinner, ⟨space, _, hspace, ⟨_, _, rfl,
        rfl, rfl⟩, rfl⟩, rfl⟩, rfl⟩, ?_⟩
      rw [List.cons_append, List.append_assoc]
      rfl

end Meanings

section Compilations

variable {floats : Floats} {printer : Printer floats} {c c' c'' : Compiler} {new new' : Rules}

/-- The compiler has written lines that are read as these rules, under numbers of its own. -/
structure Built (c c' : Compiler) (new : Rules) : Prop where
  rules : ∃ lines, c'.rules = c.rules ++ lines ∧ List.Forall₂ LineOf lines new
  le : c.nextRule ≤ c'.nextRule
  names : ∀ rule ∈ new, ∃ kind number, (kind = "object".toList ∨ kind = "array".toList) ∧
    rule.1 = ruleName kind number ∧ c.nextRule ≤ number ∧ number < c'.nextRule
  nodup : (new.map Prod.fst).Nodup

theorem Built.refl (c : Compiler) : Built c c [] where
  rules := ⟨[], (List.append_nil c.rules).symm, List.Forall₂.nil⟩
  le := Nat.le_refl c.nextRule
  names := by simp
  nodup := List.nodup_nil

theorem ruleName_inj {kind kind' : List Char} {number number' : ℕ}
    (hkind : kind = "object".toList ∨ kind = "array".toList)
    (hkind' : kind' = "object".toList ∨ kind' = "array".toList)
    (h : ruleName kind number = ruleName kind' number') : number = number' := by
  have hdigits : Nat.toDigits 10 number = Nat.toDigits 10 number' := by
    unfold ruleName at h
    rcases hkind with rfl | rfl <;> rcases hkind' with rfl | rfl
    · exact (List.cons.inj (List.append_cancel_left h)).2
    · exact absurd (List.cons.inj h).1 (by decide)
    · exact absurd (List.cons.inj h).1 (by decide)
    · exact (List.cons.inj (List.append_cancel_left h)).2
  have hvalue := congrArg (fun digits => Nat.ofDigitChars 10 digits 0) hdigits
  simpa only [Nat.ofDigitChars_ten_toDigits] using hvalue

theorem Built.trans (h : Built c c' new) (h' : Built c' c'' new') :
    Built c c'' (new ++ new') where
  rules := by
    obtain ⟨lines, hlines, hread⟩ := h.rules
    obtain ⟨lines', hlines', hread'⟩ := h'.rules
    refine ⟨lines ++ lines', ?_, List.rel_append hread hread'⟩
    rw [hlines', hlines, List.append_assoc]
  le := Nat.le_trans h.le h'.le
  names := by
    intro rule hrule
    rcases List.mem_append.mp hrule with hrule | hrule
    · obtain ⟨kind, number, hkind, hname, hlow, hhigh⟩ := h.names rule hrule
      exact ⟨kind, number, hkind, hname, hlow, Nat.lt_of_lt_of_le hhigh h'.le⟩
    · obtain ⟨kind, number, hkind, hname, hlow, hhigh⟩ := h'.names rule hrule
      exact ⟨kind, number, hkind, hname, Nat.le_trans h.le hlow, hhigh⟩
  nodup := by
    rw [List.map_append, List.nodup_append]
    refine ⟨h.nodup, h'.nodup, ?_⟩
    rintro name hname _ hname' rfl
    obtain ⟨rule, hrule, rfl⟩ := List.mem_map.mp hname
    obtain ⟨rule', hrule', heq⟩ := List.mem_map.mp hname'
    obtain ⟨kind, number, hkind, hone, _, hhigh⟩ := h.names rule hrule
    obtain ⟨kind', number', hkind', hother, hlow, _⟩ := h'.names rule' hrule'
    rw [hone, hother] at heq
    have hsame := ruleName_inj hkind' hkind heq
    omega

/-- Writing a rule. -/
theorem Built.rule {kind body : List Char} {f : Frame}
    (hkind : kind = "object".toList ∨ kind = "array".toList) (hbody : ReadsValue body f) :
    Built c (c.rule kind body).2 [(ruleName kind c.nextRule, f.expr)] where
  rules := by
    have hchars : kind.all isNameChar = true := by
      rcases hkind with rfl | rfl <;> decide
    obtain ⟨hne, hname⟩ := ruleName_chars hchars c.nextRule
    exact ⟨_, rfl, List.Forall₂.cons (lineOf_rule hne hname hbody) List.Forall₂.nil⟩
  le := Nat.le_succ c.nextRule
  names := by
    intro rule hrule
    rw [List.mem_singleton.mp hrule]
    exact ⟨kind, c.nextRule, hkind, rfl, Nat.le_refl _, Nat.lt_succ_self _⟩
  nodup := List.pairwise_singleton _ _

/-- The compiled text, read with the rules that were written for it, derives what the schema
stands for. -/
def Compiles (printer : Printer floats) (bound : ℕ) (c : Compiler) (schema : Json) (t : List Char)
    (c' : Compiler) : Prop :=
  ∃ new f, Built c c' new ∧ ReadsValue t f ∧
    ∀ rules, Based rules → (∀ rule ∈ new, rules.lookup rule.1 = some rule.2) →
      ∀ s, Derives rules f.expr s ↔ ∃ v, Emits printer bound schema s v

theorem compiles_members {bound : ℕ}
    (ih : ∀ {c : Compiler} {schema : Json} {path : String} {t : List Char} {c' : Compiler},
      Compiler.compile printer bound c schema path = some (.ok (t, c')) →
        Compiles printer bound c schema t c')
    {path : String} (properties : List (String × Json)) {texts : List (List Char)}
    (h : c.members printer (Compiler.compile printer bound) path properties =
      some (.ok (texts, c'))) :
    ∃ new, ∃ pairs : List ((String × Json) × Expr), pairs.map Prod.fst = properties ∧
      Built c c' new ∧ List.Forall₂ (MemberOf printer) texts (pairs.map memberExpr) ∧
      ∀ rules, Based rules → (∀ rule ∈ new, rules.lookup rule.1 = some rule.2) →
        ∀ p ∈ pairs, ∀ s, Derives rules p.2 s ↔ ∃ v, Emits printer bound p.1.2 s v := by
  induction properties generalizing c texts with
  | nil =>
    cases h
    exact ⟨[], [], rfl, Built.refl _, List.Forall₂.nil, by simp⟩
  | cons property properties ihp =>
    obtain ⟨name, schema⟩ := property
    unfold Compiler.members at h
    split at h
    · cases h
    · cases h
    · next value c₁ hvalue =>
      split at h
      · cases h
      · cases h
      · next members c₂ hmembers =>
        cases h
        obtain ⟨new, f, hbuilt, hreads, hmeaning⟩ := ih hvalue
        obtain ⟨new', pairs, rfl, hbuilt', hmembers', hmeaning'⟩ := ihp hmembers
        refine ⟨new ++ new', ((name, schema), f.expr) :: pairs, rfl, hbuilt.trans hbuilt',
          List.Forall₂.cons (spells_member hreads name) hmembers', ?_⟩
        intro rules hbased hrules p hp
        rcases List.mem_cons.mp hp with rfl | hp
        · exact hmeaning rules hbased (fun r hr => hrules r (List.mem_append_left new' hr))
        · exact hmeaning' rules hbased (fun r hr => hrules r (List.mem_append_right new hr)) p hp

theorem compiles {bound : ℕ} {schema : Json} {path : String} {t : List Char}
    (h : Compiler.compile printer bound c schema path = some (.ok (t, c'))) :
    Compiles printer bound c schema t c' := by
  induction bound generalizing c schema path t c' with
  | zero => cases h
  | succ bound ih =>
    have hname : ∀ {kind : List Char} (number : ℕ),
        kind = "object".toList ∨ kind = "array".toList →
          ReadsValue (ruleName kind number) (Frame.new.push (.rule (ruleName kind number))) := by
      intro kind number hkind
      have hchars : kind.all isNameChar = true := by
        rcases hkind with rfl | rfl <;> decide
      obtain ⟨hne, hall⟩ := ruleName_chars hchars number
      exact readsValue_name hne hall
    cases (compile_ok h).2 with
    | const value hvalue =>
      refine ⟨[], _, Built.refl _, readsValue_literal value, ?_⟩
      intro rules hbased _ s
      rw [derives_push, derives_text_iff]
      constructor
      · rintro rfl
        exact ⟨_, .literal value (Or.inl hvalue)⟩
      · rintro ⟨v, hshape⟩
        obtain ⟨c, hc, rfl, _⟩ := (shape_offers s v ⟨value, Or.inl hvalue⟩).mp hshape
        rw [(offers_const hvalue c).mp hc]
    | enum values hconst henum hne =>
      refine ⟨[], _, Built.refl _, readsValue_literals hne, ?_⟩
      intro rules hbased _ s
      have hliterals := @derives_literals rules floats printer values hne none s
      simp only [reduceCtorEq, false_and, exists_false, false_or] at hliterals
      refine hliterals.trans ?_
      constructor
      · rintro ⟨value, hmem, rfl⟩
        exact ⟨_, .literal value ((offers_enum hconst henum value).mpr hmem)⟩
      · rintro ⟨v, hshape⟩
        obtain ⟨value, hmem⟩ := List.exists_mem_of_ne_nil values hne
        obtain ⟨c, hc, rfl, _⟩ :=
          (shape_offers s v ⟨value, (offers_enum hconst henum value).mpr hmem⟩).mp hshape
        exact ⟨c, (offers_enum hconst henum c).mp hc, rfl⟩
    | scalar kind hplain htype =>
      refine ⟨[], _, Built.refl _, readsValue_name (scalar_name kind).1 (scalar_name kind).2, ?_⟩
      intro rules hbased _ s
      rw [derives_push, derives_scalar hbased]
      constructor
      · intro hs
        obtain ⟨v, htext, hkind⟩ := scalar_text kind hs
        exact ⟨v, (shape_scalar hplain htype s v).mpr ⟨hs, htext, hkind⟩⟩
      · rintro ⟨v, hshape⟩
        exact ((shape_scalar hplain htype s v).mp hshape).1
    | object properties required path members c₁ hplain htype _ hproperties _ _ _ hmembers =>
      obtain ⟨new, pairs, rfl, hbuilt, htexts, hmeaning⟩ := compiles_members ih properties hmembers
      have hbody := spells_objectBody htexts
      refine ⟨_, _, hbuilt.trans (Built.rule (Or.inl rfl) hbody), hname c₁.nextRule (Or.inl rfl),
        ?_⟩
      intro rules hbased hrules s
      have hlast := hrules (ruleName "object".toList c₁.nextRule, _)
        (List.mem_append_right new (List.mem_singleton_self _))
      have hpairs := hmeaning rules hbased (fun r hr => hrules r (List.mem_append_left _ hr))
      rw [derives_push, derives_rule_iff, hlast]
      simp only [Option.some.injEq, exists_eq_left', expr_pushAll]
      exact derives_objectItems hbased pairs hplain htype hproperties hpairs s
    | array items path item c₁ hplain htype hitems hitem =>
      obtain ⟨new, f, hbuilt, hreads, hmeaning⟩ := ih hitem
      have hbody := spells_arrayBody hreads
      refine ⟨_, _, hbuilt.trans (Built.rule (Or.inr rfl) hbody), hname c₁.nextRule (Or.inr rfl),
        ?_⟩
      intro rules hbased hrules s
      have hlast := hrules (ruleName "array".toList c₁.nextRule, _)
        (List.mem_append_right new (List.mem_singleton_self _))
      have hitem := hmeaning rules hbased (fun r hr => hrules r (List.mem_append_left _ hr))
      rw [derives_push, derives_rule_iff, hlast]
      simp only [Option.some.injEq, exists_eq_left', expr_pushAll]
      exact derives_arrayItems hbased hplain htype hitems hitem s

end Compilations

end Cusco.CompiledRules
