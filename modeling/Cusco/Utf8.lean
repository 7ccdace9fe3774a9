import Mathlib.Data.List.Infix
import Mathlib.Tactic.Common

/-!
UTF-8 as byte strings. A lead byte says which ranges the bytes after it must lie in.
Validation stops at the first sequence that breaks this, and distinguishes a
sequence cut off by the end of the input; lossy decoding replaces both. Encoded
characters form a prefix code and only a lead byte can start one, so a boundary of
valid text is determined by the bytes on either side of it.
-/

namespace Cusco.Utf8

/-- The bytes of one encoded character. -/
abbrev Encoded := List UInt8

def inRange (range : UInt8 × UInt8) (b : UInt8) : Bool := range.1 ≤ b && b ≤ range.2

/-- `80..BF`, the range of every continuation byte. -/
def continuation : UInt8 × UInt8 := (0x80, 0xBF)

/-- The ranges of the bytes that follow a lead byte. -/
def following (lead : UInt8) : Option (List (UInt8 × UInt8)) :=
  if lead < 0x80 then some []
  else if lead < 0xC2 then none
  else if lead < 0xE0 then some [continuation]
  else if lead = 0xE0 then some [(0xA0, 0xBF), continuation]
  else if lead = 0xED then some [(0x80, 0x9F), continuation]
  else if lead < 0xF0 then some [continuation, continuation]
  else if lead = 0xF0 then some [(0x90, 0xBF), continuation, continuation]
  else if lead < 0xF4 then some [continuation, continuation, continuation]
  else if lead = 0xF4 then some [(0x80, 0x8F), continuation, continuation]
  else none

/-- What stands at the start of some bytes: a character of `n` bytes, a character cut
off by the end, or `n` bytes that start none. -/
inductive Next
  | char (n : ℕ)
  | incomplete
  | invalid (n : ℕ)
  deriving DecidableEq

def follow : List (UInt8 × UInt8) → List UInt8 → ℕ → Next
  | [], _, n => .char n
  | _ :: _, [], _ => .incomplete
  | range :: ranges, b :: rest, n =>
    if inRange range b then follow ranges rest (n + 1) else .invalid n

def next : List UInt8 → Next
  | [] => .incomplete
  | lead :: rest =>
    match following lead with
    | none => .invalid 1
    | some ranges => follow ranges rest 1

/-- The outcome of a validation: where it stopped, and the length of the sequence that
stopped it unless that was cut off. -/
inductive Validation
  | ok
  | error (validUpTo : ℕ) (errorLen : Option ℕ)
  deriving DecidableEq

def validateFrom : ℕ → ℕ → List UInt8 → Validation
  | 0, _, _ => .ok
  | _ + 1, _, [] => .ok
  | fuel + 1, upTo, bytes =>
    match next bytes with
    | .char n => validateFrom fuel (upTo + n) (bytes.drop n)
    | .incomplete => .error upTo none
    | .invalid n => .error upTo (some n)

/-- Every round takes at least one byte. -/
def validate (bytes : List UInt8) : Validation := validateFrom (bytes.length + 1) 0 bytes

/-- U+FFFD. -/
def replacement : Encoded := [0xEF, 0xBF, 0xBD]

def lossyFrom : ℕ → List UInt8 → List Encoded
  | 0, _ => []
  | _ + 1, [] => []
  | fuel + 1, bytes =>
    match next bytes with
    | .char n => bytes.take n :: lossyFrom fuel (bytes.drop n)
    | .incomplete => [replacement]
    | .invalid n => replacement :: lossyFrom fuel (bytes.drop n)

/-- The characters of the bytes, with what is not valid replaced. -/
def lossy (bytes : List UInt8) : List Encoded := lossyFrom (bytes.length + 1) bytes

/-- The code point of an encoded character. -/
def codePoint : Encoded → ℕ
  | [a] => a.toNat
  | [a, b] => (a.toNat - 0xC0) * 64 + (b.toNat - 0x80)
  | [a, b, c] => (a.toNat - 0xE0) * 4096 + (b.toNat - 0x80) * 64 + (c.toNat - 0x80)
  | [a, b, c, d] => (a.toNat - 0xF0) * 262144 + (b.toNat - 0x80) * 4096 +
      (c.toNat - 0x80) * 64 + (d.toNat - 0x80)
  | _ => 0

/-- The Unicode property `White_Space`. -/
def isWhitespace (c : Encoded) : Bool :=
  let p := codePoint c
  (9 ≤ p && p ≤ 13) || p == 32 || p == 0x85 || p == 0xA0 || p == 0x1680 ||
    (0x2000 ≤ p && p ≤ 0x200A) || p == 0x2028 || p == 0x2029 || p == 0x202F || p == 0x205F ||
    p == 0x3000

def newline : Encoded := [0x0A]

def carriageReturn : Encoded := [0x0D]

/-- `str::lines`: a line ends at a newline, which may follow a carriage return. -/
def lines : List Encoded → List (List Encoded)
  | [] => []
  | [c] => if c = newline then [[]] else [[c]]
  | c :: d :: rest =>
    if c = newline then [] :: lines (d :: rest)
    else if c = carriageReturn ∧ d = newline then [] :: lines rest
    else
      match lines (d :: rest) with
      | [] => [[c]]
      | line :: more => (c :: line) :: more

def trim (chars : List Encoded) : List Encoded :=
  ((chars.dropWhile isWhitespace).reverse.dropWhile isWhitespace).reverse

/-- The bytes encode one character. -/
def IsChar (c : Encoded) : Prop := c ≠ [] ∧ next c = .char c.length

instance (c : Encoded) : Decidable (IsChar c) := inferInstanceAs (Decidable (_ ∧ _))

/-- The bytes are a sequence of encoded characters. -/
def Valid (bytes : List UInt8) : Prop :=
  ∃ cs : List Encoded, (∀ c ∈ cs, IsChar c) ∧ cs.flatten = bytes

/-- A string: bytes that are valid UTF-8. -/
structure Text where
  bytes : List UInt8
  valid : Valid bytes

theorem follow_append (ranges : List (UInt8 × UInt8)) (bytes more : List UInt8) (n m : ℕ)
    (h : follow ranges bytes n = .char m) : follow ranges (bytes ++ more) n = .char m := by
  induction ranges generalizing bytes n with
  | nil =>
    simp only [follow] at h ⊢
    exact h
  | cons range ranges ih =>
    cases bytes with
    | nil => cases h
    | cons b rest =>
      simp only [follow, List.cons_append] at h ⊢
      split at h
      · rename_i hb
        rw [if_pos hb]
        exact ih rest (n + 1) h
      · cases h

theorem next_append (c more : List UInt8) (hc : IsChar c) :
    next (c ++ more) = .char c.length := by
  obtain ⟨hne, hchar⟩ := hc
  cases c with
  | nil => exact absurd rfl hne
  | cons lead rest =>
    simp only [next, List.cons_append] at hchar ⊢
    cases hranges : following lead with
    | none => simp [hranges] at hchar
    | some ranges =>
      simp only [hranges] at hchar ⊢
      exact follow_append ranges rest more 1 _ hchar

/-- Encoded characters form a prefix code. -/
theorem char_unique (c d more more' : List UInt8) (hc : IsChar c) (hd : IsChar d)
    (h : c ++ more = d ++ more') : c = d ∧ more = more' := by
  have hnext : next (c ++ more) = next (d ++ more') := congrArg next h
  rw [next_append c more hc, next_append d more' hd] at hnext
  exact List.append_inj h (Next.char.inj hnext)

theorem follow_char (ranges : List (UInt8 × UInt8)) (bytes : List UInt8) (n : ℕ)
    (h : follow ranges bytes n = .char (n + bytes.length)) :
    ranges.length = bytes.length ∧
      ∀ b ∈ bytes, ∃ range ∈ ranges, inRange range b = true := by
  induction ranges generalizing bytes n with
  | nil =>
    have hlength : n = n + bytes.length := Next.char.inj h
    have hnil : bytes = [] := List.length_eq_zero_iff.mp (by omega)
    subst hnil
    exact ⟨rfl, fun b hb => nomatch hb⟩
  | cons range ranges ih =>
    cases bytes with
    | nil => cases h
    | cons b rest =>
      simp only [follow] at h
      split at h
      · rename_i hb
        have hlength : n + (b :: rest).length = n + 1 + rest.length := by
          rw [List.length_cons]
          omega
        rw [hlength] at h
        obtain ⟨hsame, hall⟩ := ih rest (n + 1) h
        refine ⟨by rw [List.length_cons, List.length_cons, hsame], ?_⟩
        intro x hx
        rcases List.mem_cons.mp hx with rfl | hx
        · exact ⟨range, List.mem_cons_self .., hb⟩
        · obtain ⟨range', hrange', hin⟩ := hall x hx
          exact ⟨range', List.mem_cons_of_mem _ hrange', hin⟩
      · cases h

theorem follow_incomplete (ranges : List (UInt8 × UInt8)) (bytes more : List UInt8) (n : ℕ)
    (hmore : more ≠ []) (h : follow ranges (bytes ++ more) n =
      .char (n + (bytes ++ more).length)) : follow ranges bytes n = .incomplete := by
  induction ranges generalizing bytes n with
  | nil =>
    have hlength : n = n + (bytes ++ more).length := Next.char.inj h
    have hpos := List.length_pos_iff.mpr hmore
    rw [List.length_append] at hlength
    omega
  | cons range ranges ih =>
    cases bytes with
    | nil => rfl
    | cons b rest =>
      simp only [follow, List.cons_append] at h ⊢
      split at h
      · rename_i hb
        rw [if_pos hb]
        apply ih rest (n + 1)
        rw [h, List.length_cons]
        congr 1
        omega
      · cases h

/-- A character cut off by the end is incomplete. -/
theorem next_incomplete (p q : List UInt8) (hp : p ≠ []) (hq : q ≠ []) (hchar : IsChar (p ++ q)) :
    next p = .incomplete := by
  cases p with
  | nil => exact absurd rfl hp
  | cons lead rest =>
    have hnext := hchar.2
    simp only [next, List.cons_append] at hnext ⊢
    cases hranges : following lead with
    | none => simp [hranges] at hnext
    | some ranges =>
      simp only [hranges] at hnext ⊢
      apply follow_incomplete ranges rest q 1 hq
      rw [hnext, List.length_cons, Nat.add_comm]

theorem inRange_iff (range : UInt8 × UInt8) (b : UInt8) :
    inRange range b = true ↔ range.1.toNat ≤ b.toNat ∧ b.toNat ≤ range.2.toNat := by
  unfold inRange
  rw [Bool.and_eq_true, decide_eq_true_iff, decide_eq_true_iff, UInt8.le_iff_toNat_le,
    UInt8.le_iff_toNat_le]

theorem following_bounds (lead : UInt8) (ranges : List (UInt8 × UInt8))
    (h : following lead = some ranges) :
    ∀ range ∈ ranges, 0x80 ≤ range.1.toNat ∧ range.2.toNat ≤ 0xBF := by
  unfold following at h
  repeat' split at h
  all_goals cases h
  all_goals simp [continuation]

/-- A byte that a lead byte asks for is no lead byte. -/
theorem following_of_inRange (lead : UInt8) (ranges : List (UInt8 × UInt8))
    (h : following lead = some ranges) (range : UInt8 × UInt8) (hrange : range ∈ ranges)
    (b : UInt8) (hb : inRange range b = true) : following b = none := by
  obtain ⟨hlow, hhigh⟩ := following_bounds lead ranges h range hrange
  obtain ⟨hb1, hb2⟩ := (inRange_iff range b).mp hb
  have h80 : (0x80 : UInt8).toNat = 0x80 := rfl
  have hC2 : (0xC2 : UInt8).toNat = 0xC2 := rfl
  unfold following
  rw [if_neg, if_pos]
  · rw [UInt8.lt_iff_toNat_lt]
    omega
  · rw [UInt8.lt_iff_toNat_lt]
    omega

/-- Only the first byte of a character is a lead byte. -/
theorem following_tail (p : List UInt8) (b : UInt8) (q : List UInt8) (hp : p ≠ [])
    (hchar : IsChar (p ++ b :: q)) : following b = none := by
  cases p with
  | nil => exact absurd rfl hp
  | cons lead rest =>
    have hnext := hchar.2
    simp only [next, List.cons_append] at hnext
    cases hranges : following lead with
    | none => simp [hranges] at hnext
    | some ranges =>
      simp only [hranges] at hnext
      rw [List.length_cons, Nat.add_comm] at hnext
      obtain ⟨-, hall⟩ := follow_char ranges _ 1 hnext
      obtain ⟨range, hrange, hb⟩ := hall b (List.mem_append_right _ (List.mem_cons_self ..))
      exact following_of_inRange lead ranges hranges range hrange b hb

theorem following_head (c : List UInt8) (hc : IsChar c) :
    ∃ lead rest, c = lead :: rest ∧ following lead ≠ none := by
  obtain ⟨hne, hnext⟩ := hc
  cases c with
  | nil => exact absurd rfl hne
  | cons lead rest =>
    refine ⟨lead, rest, rfl, ?_⟩
    intro hnone
    simp [next, hnone] at hnext

/-- A cut of a sequence of strings falls between two of them or inside one. -/
theorem flatten_cut {α : Type} (cs : List (List α)) (u v : List α) (h : cs.flatten = u ++ v) :
    (∃ as bs, cs = as ++ bs ∧ as.flatten = u ∧ bs.flatten = v) ∨
      ∃ as p q bs, cs = as ++ (p ++ q) :: bs ∧ p ≠ [] ∧ q ≠ [] ∧ u = as.flatten ++ p ∧
        v = q ++ bs.flatten := by
  induction cs generalizing u with
  | nil =>
    obtain ⟨rfl, rfl⟩ := List.append_eq_nil_iff.mp h.symm
    exact Or.inl ⟨[], [], rfl, rfl, rfl⟩
  | cons c cs ih =>
    rw [List.flatten_cons] at h
    rcases List.append_eq_append_iff.mp h with ⟨u', rfl, hcs⟩ | ⟨q, rfl, rfl⟩
    · rcases ih u' hcs with ⟨as, bs, rfl, rfl, rfl⟩ | ⟨as, p, q, bs, rfl, hp, hq, rfl, rfl⟩
      · exact Or.inl ⟨c :: as, bs, rfl, rfl, rfl⟩
      · exact Or.inr ⟨c :: as, p, q, bs, rfl, hp, hq, by rw [List.flatten_cons, List.append_assoc],
          rfl⟩
    · by_cases hu : u = []
      · subst hu
        exact Or.inl ⟨[], q :: cs, rfl, rfl, rfl⟩
      · by_cases hq : q = []
        · subst hq
          exact Or.inl ⟨[u], cs, by rw [List.append_nil]; rfl, List.append_nil u, rfl⟩
        · exact Or.inr ⟨[], u, q, cs, rfl, hu, hq, rfl, rfl⟩

theorem valid_flatten (cs : List Encoded) (h : ∀ c ∈ cs, IsChar c) : Valid cs.flatten :=
  ⟨cs, h, rfl⟩

theorem valid_append (a b : List UInt8) (ha : Valid a) (hb : Valid b) : Valid (a ++ b) := by
  obtain ⟨as, has, rfl⟩ := ha
  obtain ⟨bs, hbs, rfl⟩ := hb
  refine ⟨as ++ bs, ?_, List.flatten_append⟩
  intro c hc
  exact (List.mem_append.mp hc).elim (has c) (hbs c)

/-- Valid text can be cut off in front of valid text. -/
theorem valid_of_append (a b : List UInt8) (ha : Valid a) (h : Valid (a ++ b)) : Valid b := by
  obtain ⟨as, has, rfl⟩ := ha
  obtain ⟨cs, hcs, heq⟩ := h
  induction as generalizing cs with
  | nil => exact ⟨cs, hcs, heq⟩
  | cons a as ih =>
    have ha := has a (List.mem_cons_self ..)
    cases cs with
    | nil =>
      rw [List.flatten_nil, List.flatten_cons, List.append_assoc] at heq
      exact absurd (List.append_eq_nil_iff.mp heq.symm).1 ha.1
    | cons c cs =>
      rw [List.flatten_cons, List.flatten_cons, List.append_assoc] at heq
      obtain ⟨-, hrest⟩ := char_unique c a _ _ (hcs c (List.mem_cons_self ..)) ha heq
      exact ih (fun x hx => has x (List.mem_cons_of_mem _ hx)) cs
        (fun x hx => hcs x (List.mem_cons_of_mem _ hx)) hrest

/-- What stands before valid text in valid text is valid. -/
theorem valid_before (a stop b : List UInt8) (hne : stop ≠ []) (hstop : Valid stop)
    (h : Valid (a ++ stop ++ b)) : Valid a := by
  obtain ⟨cs, hcs, heq⟩ := h
  rw [List.append_assoc] at heq
  rcases flatten_cut cs a (stop ++ b) heq with ⟨as, bs, rfl, rfl, _⟩ |
    ⟨as, p, q, bs, rfl, hp, hq, _, hv⟩
  · exact valid_flatten as (fun c hc => hcs c (List.mem_append_left _ hc))
  · obtain ⟨ss, hss, rfl⟩ := hstop
    cases ss with
    | nil => exact absurd rfl hne
    | cons s ss =>
      obtain ⟨lead, rest, rfl, hlead⟩ := following_head s (hss s (List.mem_cons_self ..))
      cases q with
      | nil => exact absurd rfl hq
      | cons b' q =>
        rw [List.flatten_cons, List.append_assoc, List.cons_append, List.cons_append] at hv
        obtain ⟨rfl, -⟩ := List.cons.inj hv
        exact absurd (following_tail p lead q hp
          (hcs _ (List.mem_append_right _ (List.mem_cons_self ..)))) hlead

/-- A prefix of valid text is valid text and then perhaps an incomplete character. -/
theorem valid_prefix (a b : List UInt8) (h : Valid (a ++ b)) :
    ∃ (cs : List Encoded) (p : List UInt8), (∀ c ∈ cs, IsChar c) ∧ a = cs.flatten ++ p ∧
      (p ≠ [] → next p = .incomplete) := by
  obtain ⟨cs, hcs, heq⟩ := h
  rcases flatten_cut cs a b heq with ⟨as, bs, rfl, rfl, _⟩ | ⟨as, p, q, bs, rfl, hp, hq, ha, _⟩
  · exact ⟨as, [], fun c hc => hcs c (List.mem_append_left _ hc), (List.append_nil _).symm,
      fun hne => absurd rfl hne⟩
  · refine ⟨as, p, fun c hc => hcs c (List.mem_append_left _ hc), ha, ?_⟩
    intro _
    exact next_incomplete p q hp hq (hcs _ (List.mem_append_right _ (List.mem_cons_self ..)))

theorem lossyFrom_flatten (cs : List Encoded) (h : ∀ c ∈ cs, IsChar c) (fuel : ℕ)
    (hfuel : cs.flatten.length < fuel) : lossyFrom fuel cs.flatten = cs := by
  induction cs generalizing fuel with
  | nil =>
    cases fuel with
    | zero => rfl
    | succ fuel => rfl
  | cons c cs ih =>
    have hc := h c (List.mem_cons_self ..)
    have hpos := List.length_pos_iff.mpr hc.1
    rw [List.flatten_cons, List.length_append] at hfuel
    cases fuel with
    | zero => omega
    | succ fuel =>
      have hnext := next_append c cs.flatten hc
      obtain ⟨lead, rest, rfl, -⟩ := following_head c hc
      rw [List.flatten_cons, List.cons_append] at *
      simp only [lossyFrom, hnext]
      rw [← List.cons_append, List.take_left, List.drop_left,
        ih (fun x hx => h x (List.mem_cons_of_mem _ hx)) fuel (by omega)]

/-- Decoding valid text gives its characters. -/
theorem lossy_flatten (cs : List Encoded) (h : ∀ c ∈ cs, IsChar c) : lossy cs.flatten = cs :=
  lossyFrom_flatten cs h _ (Nat.lt_succ_self _)

theorem validateFrom_flatten (cs : List Encoded) (p : List UInt8) (h : ∀ c ∈ cs, IsChar c)
    (hp : p ≠ [] → next p = .incomplete) (fuel upTo : ℕ)
    (hfuel : cs.flatten.length + p.length < fuel) :
    validateFrom fuel upTo (cs.flatten ++ p) =
      if p = [] then .ok else .error (upTo + cs.flatten.length) none := by
  induction cs generalizing fuel upTo with
  | nil =>
    cases fuel with
    | zero => omega
    | succ fuel =>
      cases p with
      | nil => rfl
      | cons b rest =>
        have hnext := hp (List.cons_ne_nil _ _)
        simp only [List.flatten_nil, List.nil_append, validateFrom, hnext]
        rw [if_neg (List.cons_ne_nil _ _), List.length_nil, Nat.add_zero]
  | cons c cs ih =>
    have hc := h c (List.mem_cons_self ..)
    have hpos := List.length_pos_iff.mpr hc.1
    rw [List.flatten_cons, List.length_append] at hfuel
    cases fuel with
    | zero => omega
    | succ fuel =>
      have hnext := next_append c (cs.flatten ++ p) hc
      have hrest := ih (fun x hx => h x (List.mem_cons_of_mem _ hx)) fuel (upTo + c.length)
        (by omega)
      rw [List.flatten_cons, List.append_assoc, List.length_append, ← Nat.add_assoc, ← hrest]
      obtain ⟨lead, rest, rfl, -⟩ := following_head c hc
      rw [List.cons_append] at *
      simp only [validateFrom, hnext]
      rw [← List.cons_append, List.drop_left]

theorem validate_flatten (cs : List Encoded) (p : List UInt8) (h : ∀ c ∈ cs, IsChar c)
    (hp : p ≠ [] → next p = .incomplete) :
    validate (cs.flatten ++ p) = if p = [] then .ok else .error cs.flatten.length none := by
  unfold validate
  rw [validateFrom_flatten cs p h hp _ 0 (by rw [List.length_append]; omega), Nat.zero_add]

end Cusco.Utf8
