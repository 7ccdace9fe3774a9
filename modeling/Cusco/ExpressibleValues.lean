import Cusco.JsonTexts

/-!
The values that JSON texts have: a number is one that some digits write down, and the units of a
string and of a name have sixteen bits.
-/

namespace Cusco.ExpressibleValues

open Characters JsonTexts

section Values

def IsUnits (units : List ℕ) : Prop := ∀ unit ∈ units, unit < 0x10000

/-- Some text has the value. -/
inductive Expressible : Value → Prop
  | null : Expressible .null
  | bool (b : Bool) : Expressible (.bool b)
  | number (s : List Char) (q : ℚ) (h : NumberText s q) : Expressible (.number q)
  | string (units : List ℕ) (h : IsUnits units) : Expressible (.string units)
  | array (items : List Value) (h : ∀ item ∈ items, Expressible item) :
      Expressible (.array items)
  | object (members : List (List ℕ × Value)) (hnames : ∀ m ∈ members, IsUnits m.1)
      (h : ∀ m ∈ members, Expressible m.2) : Expressible (.object members)

theorem isUnits_append {a b : List ℕ} (ha : IsUnits a) (hb : IsUnits b) : IsUnits (a ++ b) := by
  intro unit hunit
  rcases List.mem_append.mp hunit with h | h
  · exact ha unit h
  · exact hb unit h

end Values

section Strings

theorem hexDigit_lt {c : Char} {digit : ℕ} (h : hexDigit c = some digit) : digit < 16 := by
  unfold hexDigit at h
  split_ifs at h with hdecimal hlower hupper
  · have hle : c.toNat ≤ '9'.toNat := hdecimal.2
    have hnine : '9'.toNat = '0'.toNat + 9 := rfl
    cases h
    omega
  · have hle : c.toNat ≤ 'f'.toNat := hlower.2
    have hlast : 'f'.toNat = 'a'.toNat + 5 := rfl
    cases h
    omega
  · have hle : c.toNat ≤ 'F'.toNat := hupper.2
    have hlast : 'F'.toNat = 'A'.toNat + 5 := rfl
    cases h
    omega

theorem hexUnit_lt {a b c d : Char} {unit : ℕ} (h : hexUnit a b c d = some unit) :
    unit < 0x10000 := by
  unfold hexUnit at h
  split at h
  · next ha hb hc hd =>
    have hlt := hexDigit_lt ha
    have hltb := hexDigit_lt hb
    have hltc := hexDigit_lt hc
    have hltd := hexDigit_lt hd
    cases h
    omega
  · cases h

theorem isUnits_utf16 (c : Char) : IsUnits (utf16 c) := by
  have hbound : c.toNat < 0x110000 := by
    rcases c.valid with h | h
    · have hlow : c.toNat < 0xD800 := h
      omega
    · exact h.2
  unfold utf16 IsUnits
  intro unit hunit
  split_ifs at hunit with hsmall
  · obtain rfl := List.mem_singleton.mp hunit
    exact hsmall
  · simp only [List.mem_cons, List.not_mem_nil, or_false] at hunit
    rcases hunit with hunit | hunit
    · omega
    · omega

theorem isUnits_prepend {units first : List ℕ} {rest : List Char}
    {read : Option (List ℕ × List Char)} (h : prepend first read = some (units, rest))
    (hfirst : IsUnits first)
    (hread : ∀ units rest, read = some (units, rest) → IsUnits units) : IsUnits units := by
  obtain ⟨⟨more, after⟩, hmore, heq⟩ := Option.map_eq_some_iff.mp h
  cases heq
  exact isUnits_append hfirst (hread more after hmore)

theorem isUnits_readString {text rest : List Char} {units : List ℕ}
    (h : readString text = some (units, rest)) : IsUnits units := by
  fun_induction readString text generalizing units rest with
  | case1 => cases h
  | case2 =>
    cases h
    exact fun unit hunit => absurd hunit List.not_mem_nil
  | case3 => cases h
  | case4 => cases h
  | case5 =>
    rename_i hunit _ ih
    refine isUnits_prepend h ?_ (fun _ _ => ih)
    intro u hu
    obtain rfl := List.mem_singleton.mp hu
    exact hexUnit_lt hunit
  | case6 => cases h
  | case7 => cases h
  | case8 _ _ _ c _ _ ih => exact isUnits_prepend h (isUnits_utf16 c) (fun _ _ => ih)
  | case9 => cases h
  | case10 c _ _ _ _ ih => exact isUnits_prepend h (isUnits_utf16 c) (fun _ _ => ih)

end Strings

section Numbers

variable {text rest : List Char}

theorem isDigits_of_readDigits {ds : List Char} (h : readDigits text = some (ds, rest)) :
    IsDigits ds := by
  unfold readDigits at h
  split_ifs at h with hnone
  cases h
  exact ⟨hnone, List.all_takeWhile⟩

theorem isInt_of_readInt {int : List Char} (h : readInt text = some (int, rest)) :
    IsInt int := by
  cases text with
  | nil => cases h
  | cons c text =>
    simp only [readInt] at h
    split_ifs at h with hzero
    · cases h
      exact Or.inl rfl
    · have hdigits := isDigits_of_readDigits h
      refine Or.inr ⟨hdigits, ?_⟩
      unfold readDigits at h
      split_ifs at h with hnone
      cases h
      rw [List.takeWhile_cons] at hnone ⊢
      split_ifs at hnone ⊢ with hdigit
      · exact fun hhead => hzero (Option.some.inj hhead)
      · exact absurd rfl hnone

theorem fracText_of_readFrac {frac : List Char} (h : readFrac text = some (frac, rest)) :
    ∃ s, FracText s frac := by
  cases text with
  | nil =>
    cases h
    exact ⟨[], .none⟩
  | cons c text =>
    simp only [readFrac] at h
    split_ifs at h
    · exact ⟨_, .some frac (isDigits_of_readDigits h)⟩
    · cases h
      exact ⟨[], .none⟩

theorem expText_of_readExp {exp : ℤ} (h : readExp text = some (exp, rest)) :
    ∃ s, ExpText s exp := by
  cases text with
  | nil =>
    cases h
    exact ⟨[], .none⟩
  | cons c text =>
    simp only [readExp] at h
    split_ifs at h with hletter
    · cases text with
      | nil => cases h
      | cons sign digits =>
        simp only at h
        split_ifs at h
        · obtain ⟨⟨ds, after⟩, hds, heq⟩ := Option.map_eq_some_iff.mp h
          cases heq
          exact ⟨_, .minus c hletter ds (isDigits_of_readDigits hds)⟩
        · obtain ⟨⟨ds, after⟩, hds, heq⟩ := Option.map_eq_some_iff.mp h
          cases heq
          exact ⟨_, .plus c hletter ds (isDigits_of_readDigits hds)⟩
        · obtain ⟨⟨ds, after⟩, hds, heq⟩ := Option.map_eq_some_iff.mp h
          cases heq
          exact ⟨_, .unsigned c hletter ds (isDigits_of_readDigits hds)⟩
    · cases h
      exact ⟨[], .none⟩

theorem unsignedText_of_readUnsigned {q : ℚ} (h : readUnsigned text = some (q, rest)) :
    ∃ s, UnsignedText s q := by
  unfold readUnsigned at h
  split at h
  · cases h
  · next int after hint =>
    split at h
    · cases h
    · next frac after hfrac =>
      obtain ⟨⟨exp, after⟩, hexp, heq⟩ := Option.map_eq_some_iff.mp h
      cases heq
      obtain ⟨fracs, hfracs⟩ := fracText_of_readFrac hfrac
      obtain ⟨exps, hexps⟩ := expText_of_readExp hexp
      exact ⟨_, .mk int fracs exps frac exp (isInt_of_readInt hint) hfracs hexps⟩

theorem numberText_of_readNumber {q : ℚ} (h : readNumber text = some (q, rest)) :
    ∃ s, NumberText s q := by
  cases text with
  | nil => cases h
  | cons c text =>
    simp only [readNumber] at h
    split_ifs at h
    · obtain ⟨⟨p, after⟩, hp, heq⟩ := Option.map_eq_some_iff.mp h
      cases heq
      obtain ⟨s, hs⟩ := unsignedText_of_readUnsigned hp
      exact ⟨_, .negative s p hs⟩
    · obtain ⟨s, hs⟩ := unsignedText_of_readUnsigned h
      exact ⟨s, .positive s q hs⟩

end Numbers

section Lists

variable {α : Type} {one : Reader α} {close : Char} {fuel : ℕ} {text rest : List Char}
  {items : List α}

/-- Every item of a list was read from some text. -/
theorem read_of_readSeparated (h : readSeparated one close fuel text = some (items, rest)) :
    ∀ a ∈ items, ∃ t after, one t = some (a, after) := by
  induction fuel generalizing text items with
  | zero => cases h
  | succ fuel ih =>
    unfold readSeparated at h
    split at h
    · cases h
    · next a after hone =>
      split at h
      · cases h
      · split_ifs at h
        · cases h
          intro b hb
          obtain rfl := List.mem_singleton.mp hb
          exact ⟨text, after, hone⟩
        · obtain ⟨⟨others, last⟩, hothers, heq⟩ := Option.map_eq_some_iff.mp h
          cases heq
          intro b hb
          rcases List.mem_cons.mp hb with rfl | hb
          · exact ⟨text, after, hone⟩
          · exact ih hothers b hb

theorem read_of_readListed (h : readListed one close fuel text = some (items, rest)) :
    ∀ a ∈ items, ∃ t after, one t = some (a, after) := by
  unfold readListed at h
  split_ifs at h
  · cases h
    exact fun a ha => absurd ha List.not_mem_nil
  · exact read_of_readSeparated h

theorem read_of_readMember {value : Reader Value} {m : List ℕ × Value}
    (h : readMember value text = some (m, rest)) :
    IsUnits m.1 ∧ ∃ t after, value t = some (m.2, after) := by
  unfold readMember at h
  split at h
  · cases h
  · split_ifs at h
    split at h
    · cases h
    · next name after hname =>
      split at h
      · cases h
      · next c inside _ =>
        split_ifs at h
        obtain ⟨⟨v, last⟩, hv, heq⟩ := Option.map_eq_some_iff.mp h
        cases heq
        exact ⟨isUnits_readString hname, inside, last, hv⟩

end Lists

section Texts

theorem expressible_of_readWord {word text rest : List Char} {v w : Value} (hw : Expressible w)
    (h : readWord word w text = some (v, rest)) : Expressible v := by
  unfold readWord at h
  split_ifs at h
  cases h
  exact hw

theorem expressible_of_readValue {fuel : ℕ} {text rest : List Char} {v : Value}
    (h : readValue fuel text = some (v, rest)) : Expressible v := by
  induction fuel generalizing text rest v with
  | zero => cases h
  | succ fuel ih =>
    unfold readValue at h
    split at h
    · cases h
    · split_ifs at h
      · obtain ⟨⟨units, after⟩, hunits, heq⟩ := Option.map_eq_some_iff.mp h
        cases heq
        exact .string units (isUnits_readString hunits)
      · obtain ⟨⟨items, after⟩, hitems, heq⟩ := Option.map_eq_some_iff.mp h
        cases heq
        refine .array items ?_
        intro item hitem
        obtain ⟨t, after, ht⟩ := read_of_readListed hitems item hitem
        exact ih ht
      · obtain ⟨⟨members, after⟩, hmembers, heq⟩ := Option.map_eq_some_iff.mp h
        cases heq
        have hread : ∀ m ∈ members, IsUnits m.1 ∧ Expressible m.2 := by
          intro m hm
          obtain ⟨t, after, ht⟩ := read_of_readListed hmembers m hm
          obtain ⟨hname, inside, last, hvalue⟩ := read_of_readMember ht
          exact ⟨hname, ih hvalue⟩
        exact .object members (fun m hm => (hread m hm).1) (fun m hm => (hread m hm).2)
      · exact expressible_of_readWord .null h
      · exact expressible_of_readWord (.bool true) h
      · exact expressible_of_readWord (.bool false) h
      · obtain ⟨⟨q, after⟩, hq, heq⟩ := Option.map_eq_some_iff.mp h
        cases heq
        obtain ⟨s, hs⟩ := numberText_of_readNumber hq
        exact .number s q hs

theorem expressible_of_readJson {text : List Char} {v : Value} (h : readJson text = some v) :
    Expressible v := by
  unfold readJson at h
  split at h
  · cases h
  · next w rest hw =>
    split_ifs at h
    cases h
    exact expressible_of_readValue hw

end Texts

end Cusco.ExpressibleValues
