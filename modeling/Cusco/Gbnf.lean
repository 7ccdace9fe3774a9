import Cusco.Characters
import Mathlib.Data.List.Forall2

/-!
Grammars in the notation of GBNF: what an expression derives from the rules of a grammar, and
the meaning of expressions that the derivations are the least solution of.
-/

namespace Cusco.Gbnf

open Characters

/-- The right side of a rule. A repetition without an upper bound has the bound `none`. -/
inductive Expr
  | text (cs : List Char)
  | chars (set : CharSet)
  | rule (name : List Char)
  | seq (first second : Expr)
  | alt (left right : Expr)
  | repeated (e : Expr) (least : ℕ) (most : Option ℕ)
  deriving DecidableEq

/-- The rules of a grammar by their names. -/
abbrev Rules := List (List Char × Expr)

/-- This many repetitions are allowed. -/
def Allows (least : ℕ) (most : Option ℕ) (n : ℕ) : Prop :=
  least ≤ n ∧ ∀ m, most = some m → n ≤ m

/-- The expression derives the text. -/
inductive Derives (rules : Rules) : Expr → List Char → Prop
  | text (cs : List Char) : Derives rules (.text cs) cs
  | chars (set : CharSet) (c : Char) (hc : set.has c = true) : Derives rules (.chars set) [c]
  | rule (name : List Char) (e : Expr) (s : List Char) (he : rules.lookup name = some e)
      (hs : Derives rules e s) : Derives rules (.rule name) s
  | seq (first second : Expr) (s t : List Char) (hs : Derives rules first s)
      (ht : Derives rules second t) : Derives rules (.seq first second) (s ++ t)
  | left (left right : Expr) (s : List Char) (hs : Derives rules left s) :
      Derives rules (.alt left right) s
  | right (left right : Expr) (s : List Char) (hs : Derives rules right s) :
      Derives rules (.alt left right) s
  | repeated (e : Expr) (least : ℕ) (most : Option ℕ) (pieces : List (List Char))
      (hcount : Allows least most pieces.length) (hs : ∀ piece ∈ pieces, Derives rules e piece) :
      Derives rules (.repeated e least most) pieces.flatten

/-- The items one after the other. -/
def Expr.sequence (items : List Expr) : Expr := items.foldl .seq (.text [])

/-- The texts of an expression, given those of the rules it names. -/
def Expr.Denotes (meaning : List Char → List Char → Prop) : Expr → List Char → Prop
  | .text cs, s => s = cs
  | .chars set, s => ∃ c, set.has c = true ∧ s = [c]
  | .rule name, s => meaning name s
  | .seq first second, s =>
    ∃ a b, first.Denotes meaning a ∧ second.Denotes meaning b ∧ s = a ++ b
  | .alt left right, s => left.Denotes meaning s ∨ right.Denotes meaning s
  | .repeated e least most, s =>
    ∃ pieces : List (List Char), Allows least most pieces.length ∧
      (∀ piece ∈ pieces, e.Denotes meaning piece) ∧ s = pieces.flatten

section Denotations

variable {meaning meaning' : List Char → List Char → Prop} {s : List Char}

theorem denotes_any_iff (e : Expr) :
    (Expr.repeated e 0 none).Denotes meaning s ↔
      ∃ pieces : List (List Char), (∀ piece ∈ pieces, e.Denotes meaning piece) ∧
        s = pieces.flatten := by
  simp [Expr.Denotes, Allows]

theorem denotes_optional_iff (e : Expr) :
    (Expr.repeated e 0 (some 1)).Denotes meaning s ↔ s = [] ∨ e.Denotes meaning s := by
  constructor
  · rintro ⟨pieces, hcount, hpieces, rfl⟩
    match pieces with
    | [] => exact Or.inl rfl
    | [piece] =>
      right
      simpa using hpieces piece (List.mem_singleton_self piece)
    | _ :: _ :: _ =>
      have hle := hcount.2 1 rfl
      simp at hle
  · rintro (rfl | h)
    · exact ⟨[], ⟨Nat.zero_le _, fun m _ => Nat.zero_le m⟩, by simp, rfl⟩
    · refine ⟨[s], ⟨Nat.zero_le _, ?_⟩, by simpa using h, by simp⟩
      intro m hm
      cases hm
      exact Nat.le_refl 1

theorem denotes_foldl_iff (items : List Expr) (first : Expr) :
    (items.foldl .seq first).Denotes meaning s ↔
      ∃ a pieces, first.Denotes meaning a ∧
        List.Forall₂ (fun item => item.Denotes meaning) items pieces ∧ s = a ++ pieces.flatten := by
  induction items generalizing first with
  | nil =>
    constructor
    · intro h
      exact ⟨s, [], h, List.Forall₂.nil, (List.append_nil s).symm⟩
    · rintro ⟨a, pieces, ha, hpieces, rfl⟩
      cases hpieces
      rw [List.flatten_nil, List.append_nil]
      exact ha
  | cons item items ih =>
    rw [List.foldl_cons, ih]
    constructor
    · rintro ⟨_, pieces, ⟨b, piece, hb, hpiece, rfl⟩, hpieces, rfl⟩
      refine ⟨b, piece :: pieces, hb, List.Forall₂.cons hpiece hpieces, ?_⟩
      rw [List.flatten_cons, List.append_assoc]
    · rintro ⟨a, pieces, ha, hpieces, rfl⟩
      cases hpieces with
      | cons hpiece hpieces =>
        refine ⟨_, _, ⟨a, _, ha, hpiece, rfl⟩, hpieces, ?_⟩
        rw [List.flatten_cons, List.append_assoc]

theorem denotes_sequence_iff (items : List Expr) :
    (Expr.sequence items).Denotes meaning s ↔
      ∃ pieces, List.Forall₂ (fun item => item.Denotes meaning) items pieces ∧
        s = pieces.flatten := by
  unfold Expr.sequence
  rw [denotes_foldl_iff]
  simp only [Expr.Denotes, exists_and_left, exists_eq_left, List.nil_append]

theorem denotes_sequence_nil_iff : (Expr.sequence []).Denotes meaning s ↔ s = [] := Iff.rfl

theorem denotes_sequence_cons_iff (item : Expr) (items : List Expr) :
    (Expr.sequence (item :: items)).Denotes meaning s ↔
      ∃ a b, item.Denotes meaning a ∧ (Expr.sequence items).Denotes meaning b ∧ s = a ++ b := by
  simp only [denotes_sequence_iff]
  constructor
  · rintro ⟨pieces, hpieces, rfl⟩
    cases hpieces with
    | cons hpiece hpieces => exact ⟨_, _, hpiece, ⟨_, hpieces, rfl⟩, List.flatten_cons⟩
  · rintro ⟨a, b, ha, ⟨pieces, hpieces, rfl⟩, rfl⟩
    exact ⟨a :: pieces, List.Forall₂.cons ha hpieces, List.flatten_cons.symm⟩

theorem denotes_sequence_append_iff (first second : List Expr) :
    (Expr.sequence (first ++ second)).Denotes meaning s ↔
      ∃ a b, (Expr.sequence first).Denotes meaning a ∧ (Expr.sequence second).Denotes meaning b ∧
        s = a ++ b := by
  induction first generalizing s with
  | nil =>
    simp only [List.nil_append, denotes_sequence_nil_iff, exists_and_left, exists_eq_left,
      exists_eq_right']
  | cons item first ih =>
    rw [List.cons_append]
    simp only [denotes_sequence_cons_iff, ih]
    constructor
    · rintro ⟨a, b, ha, ⟨c, d, hc, hd, rfl⟩, rfl⟩
      exact ⟨a ++ c, d, ⟨a, c, ha, hc, rfl⟩, hd, (List.append_assoc a c d).symm⟩
    · rintro ⟨a, b, ⟨c, d, hc, hd, rfl⟩, hb, rfl⟩
      exact ⟨c, d ++ b, hc, ⟨d, b, hd, hb, rfl⟩, List.append_assoc c d b⟩

/-- No rule is named. -/
def Expr.ruleFree : Expr → Bool
  | .text _ => true
  | .chars _ => true
  | .rule _ => false
  | .seq first second => first.ruleFree && second.ruleFree
  | .alt left right => left.ruleFree && right.ruleFree
  | .repeated e _ _ => e.ruleFree

/-- What names no rule has the same meaning whatever the rules mean. -/
theorem denotes_of_ruleFree (e : Expr) (h : e.ruleFree = true) (s : List Char) :
    e.Denotes meaning s ↔ e.Denotes meaning' s := by
  induction e generalizing s with
  | text cs => exact Iff.rfl
  | chars set => exact Iff.rfl
  | rule name => cases h
  | seq first second ihf ihs =>
    obtain ⟨hfirst, hsecond⟩ := Bool.and_eq_true_iff.mp h
    simp only [Expr.Denotes, ihf hfirst, ihs hsecond]
  | alt left right ihl ihr =>
    obtain ⟨hleft, hright⟩ := Bool.and_eq_true_iff.mp h
    simp only [Expr.Denotes, ihl hleft, ihr hright]
  | repeated e least most ih => simp only [Expr.Denotes, ih h]

end Denotations

section Meanings

variable {rules : Rules}

/-- The derivations are the least meaning that the rules keep: what every rule's right side means
is meant by its name. -/
theorem denotes_of_closed {meaning : List Char → List Char → Prop}
    (hclosed : ∀ name e s, rules.lookup name = some e → e.Denotes meaning s → meaning name s)
    {e : Expr} {s : List Char} (h : Derives rules e s) : e.Denotes meaning s := by
  induction h with
  | text cs => exact rfl
  | chars set c hc => exact ⟨c, hc, rfl⟩
  | rule name e s he _ ih => exact hclosed name e s he ih
  | seq first second s t _ _ ihs iht => exact ⟨s, t, ihs, iht, rfl⟩
  | left left right s _ ih => exact Or.inl ih
  | right left right s _ ih => exact Or.inr ih
  | repeated e least most pieces hcount _ ih => exact ⟨pieces, hcount, ih, rfl⟩

theorem derives_of_denotes (e : Expr) (s : List Char)
    (h : e.Denotes (fun name => Derives rules (.rule name)) s) : Derives rules e s := by
  induction e generalizing s with
  | text cs =>
    cases h
    exact Derives.text cs
  | chars set =>
    obtain ⟨c, hc, rfl⟩ := h
    exact Derives.chars set c hc
  | rule name => exact h
  | seq first second ihs iht =>
    obtain ⟨a, b, ha, hb, rfl⟩ := h
    exact Derives.seq first second a b (ihs a ha) (iht b hb)
  | alt left right ihl ihr =>
    rcases h with h | h
    · exact Derives.left left right s (ihl s h)
    · exact Derives.right left right s (ihr s h)
  | repeated e least most ih =>
    obtain ⟨pieces, hcount, hpieces, rfl⟩ := h
    exact Derives.repeated e least most pieces hcount (fun piece hp => ih piece (hpieces piece hp))

/-- An expression derives what it denotes over the derivations of its rules. -/
theorem derives_iff (e : Expr) (s : List Char) :
    Derives rules e s ↔ e.Denotes (fun name => Derives rules (.rule name)) s := by
  constructor
  · apply denotes_of_closed
    intro name e s he hs
    exact Derives.rule name e s he (derives_of_denotes e s hs)
  · exact derives_of_denotes e s

theorem mem_of_lookup {name : List Char} {e : Expr} (h : rules.lookup name = some e) :
    (name, e) ∈ rules := by
  obtain ⟨before, after, rfl, _⟩ := List.lookup_eq_some_iff.mp h
  exact List.mem_append_right before List.mem_cons_self

/-- A rule is found by its name where no name is given twice. -/
theorem lookup_of_mem (hnames : (rules.map Prod.fst).Nodup) {rule : List Char × Expr}
    (h : rule ∈ rules) : rules.lookup rule.1 = some rule.2 := by
  obtain ⟨before, after, rfl⟩ := List.append_of_mem h
  refine List.lookup_eq_some_iff.mpr ⟨before, after, rfl, ?_⟩
  intro other hother
  rw [List.map_append, List.map_cons, List.nodup_append] at hnames
  have hne := hnames.2.2 other.1 (List.mem_map_of_mem hother) rule.1 List.mem_cons_self
  exact bne_iff_ne.mpr (Ne.symm hne)

theorem derives_rule_iff (name s : List Char) :
    Derives rules (.rule name) s ↔ ∃ e, rules.lookup name = some e ∧ Derives rules e s := by
  constructor
  · intro h
    cases h with
    | rule _ e _ he hs => exact ⟨e, he, hs⟩
  · rintro ⟨e, he, hs⟩
    exact Derives.rule name e s he hs

end Meanings

section Derivations

variable {rules : Rules} {s : List Char}

theorem derives_text_iff (cs : List Char) : Derives rules (.text cs) s ↔ s = cs :=
  derives_iff _ s

theorem derives_chars_iff (set : CharSet) :
    Derives rules (.chars set) s ↔ ∃ c, set.has c = true ∧ s = [c] :=
  derives_iff _ s

theorem derives_seq_iff (first second : Expr) :
    Derives rules (.seq first second) s ↔
      ∃ a b, Derives rules first a ∧ Derives rules second b ∧ s = a ++ b := by
  rw [derives_iff]
  simp only [Expr.Denotes, ← derives_iff]

theorem derives_alt_iff (left right : Expr) :
    Derives rules (.alt left right) s ↔ Derives rules left s ∨ Derives rules right s := by
  rw [derives_iff]
  simp only [Expr.Denotes, ← derives_iff]

theorem derives_repeated_iff (e : Expr) (least : ℕ) (most : Option ℕ) :
    Derives rules (.repeated e least most) s ↔
      ∃ pieces : List (List Char), Allows least most pieces.length ∧
        (∀ piece ∈ pieces, Derives rules e piece) ∧ s = pieces.flatten := by
  rw [derives_iff]
  simp only [Expr.Denotes, ← derives_iff]

theorem derives_any_iff (e : Expr) :
    Derives rules (.repeated e 0 none) s ↔
      ∃ pieces : List (List Char), (∀ piece ∈ pieces, Derives rules e piece) ∧
        s = pieces.flatten := by
  rw [derives_iff, denotes_any_iff]
  simp only [← derives_iff]

theorem derives_optional_iff (e : Expr) :
    Derives rules (.repeated e 0 (some 1)) s ↔ s = [] ∨ Derives rules e s := by
  rw [derives_iff, denotes_optional_iff, ← derives_iff]

/-- What names no rule derives the same from any rules. -/
theorem derives_of_ruleFree {rules rules' : Rules} (e : Expr) (h : e.ruleFree = true)
    (s : List Char) : Derives rules e s ↔ Derives rules' e s := by
  rw [derives_iff, derives_iff]
  exact denotes_of_ruleFree e h s

theorem derives_sequence_nil_iff : Derives rules (.sequence []) s ↔ s = [] :=
  derives_text_iff []

theorem derives_sequence_cons_iff (item : Expr) (items : List Expr) :
    Derives rules (.sequence (item :: items)) s ↔
      ∃ a b, Derives rules item a ∧ Derives rules (.sequence items) b ∧ s = a ++ b := by
  rw [derives_iff, denotes_sequence_cons_iff]
  simp only [← derives_iff]

theorem derives_sequence_append_iff (first second : List Expr) :
    Derives rules (.sequence (first ++ second)) s ↔
      ∃ a b, Derives rules (.sequence first) a ∧ Derives rules (.sequence second) b ∧
        s = a ++ b := by
  rw [derives_iff, denotes_sequence_append_iff]
  simp only [← derives_iff]

end Derivations

section Characters

/-- The character stands in none of the expression's texts and classes. -/
def Expr.avoids (c : Char) : Expr → Bool
  | .text cs => !cs.contains c
  | .chars set => !set.has c
  | .rule _ => true
  | .seq first second => first.avoids c && second.avoids c
  | .alt left right => left.avoids c && right.avoids c
  | .repeated e _ _ => e.avoids c

/-- What no rule holds is in no text that they derive. -/
theorem not_mem_of_derives {rules : Rules} {c : Char}
    (hrules : ∀ rule ∈ rules, rule.2.avoids c = true) {e : Expr} (he : e.avoids c = true)
    {s : List Char} (h : Derives rules e s) : c ∉ s := by
  induction h with
  | text cs => simpa [Expr.avoids] using he
  | chars set d hd =>
    intro hmem
    obtain rfl := List.mem_singleton.mp hmem
    simp only [Expr.avoids, hd, Bool.not_true, Bool.false_eq_true] at he
  | rule name e s hlookup _ ih => exact ih (hrules _ (mem_of_lookup hlookup))
  | seq first second s t _ _ ihs iht =>
    obtain ⟨hfirst, hsecond⟩ := Bool.and_eq_true_iff.mp he
    intro hmem
    rcases List.mem_append.mp hmem with hmem | hmem
    · exact ihs hfirst hmem
    · exact iht hsecond hmem
  | left left right s _ ih => exact ih (Bool.and_eq_true_iff.mp he).1
  | right left right s _ ih => exact ih (Bool.and_eq_true_iff.mp he).2
  | repeated e least most pieces _ _ ih =>
    intro hmem
    obtain ⟨piece, hpiece, hmem⟩ := List.mem_flatten.mp hmem
    exact ih piece hpiece he hmem

end Characters

end Cusco.Gbnf
