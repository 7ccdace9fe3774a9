import Cusco.Utf8

/-!
Lossy decoding in segments. Every round of the decoder takes one sequence, whose later bytes
start none, so a sequence that starts in a suffix is met there. Decoding two segments one after
the other is decoding them together unless the first ends in an incomplete sequence that the
second continues; then the segments together decode to fewer characters.
-/

namespace Cusco.Utf8

/-- The number of bytes a round takes. -/
def Next.size (total : ℕ) : Next → ℕ
  | .char n => n
  | .incomplete => total
  | .invalid n => n

/-- The character a round shows. -/
def Next.shown (bytes : List UInt8) : Next → Encoded
  | .char n => bytes.take n
  | .incomplete => replacement
  | .invalid _ => replacement

/-- The validation stopped at a sequence that was not cut off. -/
def Validation.invalid : Validation → Bool
  | .error _ (some _) => true
  | _ => false

/-- The text ends in an incomplete sequence that the next byte continues. -/
def Continued (text later : List UInt8) : Prop :=
  ∃ part ∈ text.tails, part ≠ [] ∧ next part = .incomplete ∧
    ∃ b ∈ later.head?, ∀ n ≤ part.length, next (part ++ [b]) ≠ .invalid n

instance (text later : List UInt8) : Decidable (Continued text later) :=
  inferInstanceAs (Decidable (∃ part ∈ text.tails, part ≠ [] ∧ next part = .incomplete ∧
    ∃ b ∈ later.head?, ∀ n ≤ part.length, next (part ++ [b]) ≠ .invalid n))

section Follow

variable {ranges : List (UInt8 × UInt8)} {bytes : List UInt8} {n : ℕ}

/-- The bytes a sequence takes after its first one lie in the ranges. -/
theorem follow_taken (ranges : List (UInt8 × UInt8)) (bytes : List UInt8) (n : ℕ)
    (hin : ∀ range ∈ ranges, ∀ b, inRange range b = true → following b = none) :
    n ≤ (follow ranges bytes n).size (n + bytes.length) ∧
      (follow ranges bytes n).size (n + bytes.length) ≤ n + bytes.length ∧
      ∀ b ∈ bytes.take ((follow ranges bytes n).size (n + bytes.length) - n),
        following b = none := by
  induction ranges generalizing bytes n with
  | nil => simp [follow, Next.size]
  | cons range ranges ih =>
    cases bytes with
    | nil => simp [follow, Next.size]
    | cons b rest =>
      have htotal : n + (b :: rest).length = n + 1 + rest.length := by
        rw [List.length_cons]
        omega
      simp only [follow, htotal]
      split
      · rename_i hb
        obtain ⟨hlow, hhigh, hrest⟩ := ih rest (n + 1)
          (fun range' hrange' => hin range' (List.mem_cons_of_mem _ hrange'))
        refine ⟨by omega, hhigh, ?_⟩
        intro x hx
        have hsize : (follow ranges rest (n + 1)).size (n + 1 + rest.length) - n =
            (follow ranges rest (n + 1)).size (n + 1 + rest.length) - (n + 1) + 1 := by
          omega
        rw [hsize, List.take_succ_cons] at hx
        rcases List.mem_cons.mp hx with rfl | hx
        · exact hin range (List.mem_cons_self ..) x hb
        · exact hrest x hx
      · simp only [Next.size]
        refine ⟨by omega, by omega, ?_⟩
        intro x hx
        rw [Nat.sub_self, List.take_zero] at hx
        cases hx

theorem follow_append_of_complete (more : List UInt8) (h : follow ranges bytes n ≠ .incomplete) :
    follow ranges (bytes ++ more) n = follow ranges bytes n := by
  induction ranges generalizing bytes n with
  | nil => rfl
  | cons range ranges ih =>
    cases bytes with
    | nil => exact absurd rfl h
    | cons b rest =>
      simp only [follow, List.cons_append] at h ⊢
      split
      · rename_i hb
        rw [if_pos hb] at h
        exact ih h
      · rfl

/-- What continues an incomplete sequence is looked at where it ended. -/
theorem follow_append_of_incomplete (more : List UInt8)
    (h : follow ranges bytes n = .incomplete) :
    follow ranges (bytes ++ more) n =
      follow (ranges.drop bytes.length) more (n + bytes.length) := by
  induction ranges generalizing bytes n with
  | nil => cases h
  | cons range ranges ih =>
    cases bytes with
    | nil => rfl
    | cons b rest =>
      simp only [follow, List.cons_append] at h ⊢
      split at h
      · rename_i hb
        rw [if_pos hb, ih h, List.length_cons, List.drop_succ_cons, Nat.add_assoc,
          Nat.add_comm 1]
      · cases h

theorem follow_take_char {m : ℕ} (h : follow ranges bytes n = .char m) :
    follow ranges (bytes.take (m - n)) n = .char m ∧ n ≤ m := by
  induction ranges generalizing bytes n with
  | nil =>
    have hm : n = m := Next.char.inj h
    exact ⟨h, hm.le⟩
  | cons range ranges ih =>
    cases bytes with
    | nil => cases h
    | cons b rest =>
      simp only [follow] at h
      split at h
      · rename_i hb
        obtain ⟨hrest, hle⟩ := ih h
        have hsize : m - n = m - (n + 1) + 1 := by omega
        rw [hsize, List.take_succ_cons]
        simp only [follow, if_pos hb]
        exact ⟨hrest, by omega⟩
      · cases h

end Follow

section Rounds

variable {bytes : List UInt8}

theorem next_taken (hne : bytes ≠ []) :
    0 < (next bytes).size bytes.length ∧ (next bytes).size bytes.length ≤ bytes.length ∧
      ∀ b ∈ (bytes.take ((next bytes).size bytes.length)).tail, following b = none := by
  cases bytes with
  | nil => exact absurd rfl hne
  | cons lead rest =>
    simp only [next]
    cases hranges : following lead with
    | none => simp [Next.size]
    | some ranges =>
      have htaken := follow_taken ranges rest 1
        (fun range hrange b hb => following_of_inRange lead ranges hranges range hrange b hb)
      simp only [List.length_cons, Nat.add_comm rest.length]
      generalize (follow ranges rest 1).size (1 + rest.length) = size at htaken ⊢
      obtain ⟨hlow, hhigh, hrest⟩ := htaken
      refine ⟨hlow, hhigh, ?_⟩
      intro b hb
      have hsize : size = size - 1 + 1 := by omega
      rw [hsize, List.take_succ_cons, List.tail_cons] at hb
      exact hrest b hb

theorem next_append_of_complete (more : List UInt8) (hne : bytes ≠ [])
    (h : next bytes ≠ .incomplete) : next (bytes ++ more) = next bytes := by
  cases bytes with
  | nil => exact absurd rfl hne
  | cons lead rest =>
    simp only [next, List.cons_append] at h ⊢
    cases hranges : following lead with
    | none => rfl
    | some ranges =>
      rw [hranges] at h
      exact follow_append_of_complete more h

theorem length_le_size (more : List UInt8) (h : next bytes = .incomplete) :
    bytes.length ≤ (next (bytes ++ more)).size (bytes ++ more).length := by
  cases bytes with
  | nil => exact Nat.zero_le _
  | cons lead rest =>
    simp only [next, List.cons_append] at h ⊢
    cases hranges : following lead with
    | none =>
      rw [hranges] at h
      cases h
    | some ranges =>
      rw [hranges] at h
      have htaken := follow_taken (ranges.drop rest.length) more (1 + rest.length)
        (fun range hrange b hb =>
          following_of_inRange lead ranges hranges range (List.mem_of_mem_drop hrange) b hb)
      simp only at h ⊢
      rw [follow_append_of_incomplete more h, List.length_cons, List.length_cons,
        List.length_append, Nat.add_comm, Nat.add_comm (rest.length + more.length),
        ← Nat.add_assoc]
      exact htaken.1

/-- The byte after an incomplete sequence continues it or is the first that does not. -/
theorem next_append_byte (b : UInt8) (hne : bytes ≠ []) (h : next bytes = .incomplete) :
    next (bytes ++ [b]) = .invalid bytes.length ∨ following b = none ∧
      (next (bytes ++ [b]) = .incomplete ∨ next (bytes ++ [b]) = .char (bytes.length + 1)) := by
  cases bytes with
  | nil => exact absurd rfl hne
  | cons lead rest =>
    simp only [next, List.cons_append] at h ⊢
    cases hranges : following lead with
    | none =>
      rw [hranges] at h
      cases h
    | some ranges =>
      rw [hranges] at h
      simp only at h ⊢
      rw [follow_append_of_incomplete [b] h]
      cases hdrop : ranges.drop rest.length with
      | nil =>
        have hcomplete := follow_append_of_incomplete [] h
        rw [List.append_nil, hdrop, h] at hcomplete
        cases hcomplete
      | cons range more =>
        have hrange : range ∈ ranges := List.mem_of_mem_drop (hdrop ▸ List.mem_cons_self ..)
        simp only [follow]
        by_cases hb : inRange range b = true
        · rw [if_pos hb]
          refine Or.inr ⟨following_of_inRange lead ranges hranges range hrange b hb, ?_⟩
          cases more with
          | nil =>
            right
            rw [follow, List.length_cons, Nat.add_comm 1]
          | cons range' more => exact Or.inl rfl
        · rw [if_neg hb, List.length_cons, Nat.add_comm]
          exact Or.inl rfl

theorem isChar_take {n : ℕ} (hne : bytes ≠ []) (h : next bytes = .char n) :
    IsChar (bytes.take n) := by
  cases bytes with
  | nil => exact absurd rfl hne
  | cons lead rest =>
    obtain ⟨hpos, hle, -⟩ := next_taken hne
    rw [h] at hpos hle
    simp only [Next.size] at hpos hle
    simp only [next] at h
    cases hranges : following lead with
    | none =>
      rw [hranges] at h
      cases h
    | some ranges =>
      rw [hranges] at h
      obtain ⟨htake, -⟩ := follow_take_char h
      have hsize : n = n - 1 + 1 := by omega
      refine ⟨?_, ?_⟩
      · rw [hsize, List.take_succ_cons]
        exact List.cons_ne_nil _ _
      · rw [List.length_take, Nat.min_eq_left hle]
        rw [hsize, List.take_succ_cons, ← hsize]
        simp only [next, hranges]
        exact htake

theorem lossyFrom_fuel (fuel fuel' : ℕ) (bytes : List UInt8) (hfuel : bytes.length < fuel)
    (hfuel' : bytes.length < fuel') : lossyFrom fuel bytes = lossyFrom fuel' bytes := by
  induction fuel generalizing fuel' bytes with
  | zero => omega
  | succ fuel ih =>
    cases fuel' with
    | zero => omega
    | succ fuel' =>
      cases bytes with
      | nil => rfl
      | cons lead rest =>
        obtain ⟨hpos, hle, -⟩ := next_taken (List.cons_ne_nil lead rest)
        have hrest : ∀ k, 0 < k → lossyFrom fuel ((lead :: rest).drop k) =
            lossyFrom fuel' ((lead :: rest).drop k) := by
          intro k hk
          rw [List.length_cons] at hfuel hfuel'
          apply ih <;> rw [List.length_drop, List.length_cons] <;> omega
        simp only [lossyFrom]
        cases hnext : next (lead :: rest) with
        | incomplete => rfl
        | char n =>
          rw [hnext] at hpos
          simp only [hrest n hpos]
        | invalid n =>
          rw [hnext] at hpos
          simp only [hrest n hpos]

/-- One round of the decoder. -/
theorem lossy_next (hne : bytes ≠ []) : lossy bytes =
    (next bytes).shown bytes :: lossy (bytes.drop ((next bytes).size bytes.length)) := by
  cases bytes with
  | nil => exact absurd rfl hne
  | cons lead rest =>
    obtain ⟨hpos, hle, -⟩ := next_taken (List.cons_ne_nil lead rest)
    have hrest : ∀ k, 0 < k → lossyFrom (lead :: rest).length ((lead :: rest).drop k) =
        lossy ((lead :: rest).drop k) := by
      intro k hk
      apply lossyFrom_fuel
      · rw [List.length_drop, List.length_cons]
        omega
      · omega
    unfold lossy at hrest ⊢
    simp only [lossyFrom]
    cases hnext : next (lead :: rest) with
    | incomplete =>
      simp only [Next.shown, Next.size, List.drop_length]
      rfl
    | char n =>
      rw [hnext] at hpos
      simp only [Next.shown, Next.size] at hpos ⊢
      rw [hrest n hpos]
    | invalid n =>
      rw [hnext] at hpos
      simp only [Next.shown, Next.size] at hpos ⊢
      rw [hrest n hpos]

theorem lossy_nil : lossy [] = [] := rfl

/-- A byte that starts no sequence is replaced on its own. -/
theorem lossy_cons_of_none {b : UInt8} (rest : List UInt8) (h : following b = none) :
    lossy (b :: rest) = replacement :: lossy rest := by
  rw [lossy_next (List.cons_ne_nil b rest)]
  simp only [next, h, Next.shown, Next.size, List.drop_one, List.tail_cons]

theorem length_lossy_drop (k : ℕ) (bytes : List UInt8)
    (h : ∀ b ∈ bytes.take k, following b = none) :
    (lossy (bytes.drop k)).length ≤ (lossy bytes).length := by
  induction k generalizing bytes with
  | zero => exact le_rfl
  | succ k ih =>
    cases bytes with
    | nil => exact le_rfl
    | cons b rest =>
      rw [List.take_succ_cons] at h
      rw [List.drop_succ_cons, lossy_cons_of_none rest (h b (List.mem_cons_self ..)),
        List.length_cons]
      have := ih rest (fun x hx => h x (List.mem_cons_of_mem _ hx))
      omega

/-- Everything decoded is a character. -/
theorem lossy_isChar (bytes : List UInt8) : ∀ c ∈ lossy bytes, IsChar c := by
  induction hlength : bytes.length using Nat.strong_induction_on generalizing bytes with
  | h length ih =>
    intro c hc
    by_cases hne : bytes = []
    · subst hne
      cases hc
    · obtain ⟨hpos, hle, -⟩ := next_taken hne
      rw [lossy_next hne] at hc
      rcases List.mem_cons.mp hc with rfl | hc
      · cases hnext : next bytes with
        | char n => exact isChar_take hne hnext
        | incomplete => exact (by decide : IsChar replacement)
        | invalid n => exact (by decide : IsChar replacement)
      · refine ih _ ?_ _ rfl c hc
        rw [List.length_drop]
        omega

/-- Decoded texts with the same bytes have the same characters. -/
theorem eq_of_flatten_eq {cs ds : List Encoded} (hcs : ∀ c ∈ cs, IsChar c)
    (hds : ∀ c ∈ ds, IsChar c) (h : cs.flatten = ds.flatten) : cs = ds := by
  rw [← lossy_flatten cs hcs, ← lossy_flatten ds hds, h]

end Rounds

section Segments

variable {a b : List UInt8}

/-- A sequence that starts in a suffix is met there. -/
theorem suffix_drop_of_lead (hne : a ≠ []) {part : List UInt8} (hpart : part <:+ a)
    (hproper : part ≠ a) {lead : UInt8} (hhead : part.head? = some lead)
    (hlead : following lead ≠ none) : part <:+ a.drop ((next a).size a.length) := by
  obtain ⟨front, hfront⟩ := hpart
  obtain ⟨hpos, hle, htail⟩ := next_taken hne
  have hlong : (next a).size a.length ≤ front.length := by
    by_contra hshort
    apply hlead
    apply htail lead
    have hfrontne : front ≠ [] := by
      intro hnil
      rw [hnil, List.nil_append] at hfront
      exact hproper hfront
    have hfrontpos := List.length_pos_iff.mpr hfrontne
    have hindex : a[front.length]? = some lead := by
      rw [← hfront, List.getElem?_append_right le_rfl, Nat.sub_self, ← List.head?_eq_getElem?,
        hhead]
    apply List.mem_of_getElem? (i := front.length - 1)
    rw [List.getElem?_tail, Nat.sub_add_cancel hfrontpos, List.getElem?_take_of_lt (by omega),
      hindex]
  have hdrop : (front ++ part).drop ((next a).size a.length) =
      front.drop ((next a).size a.length) ++ part :=
    List.drop_append_of_le_length hlong
  rw [hfront] at hdrop
  rw [hdrop]
  exact List.suffix_append _ _

theorem lead_of_incomplete {part : List UInt8} (hne : part ≠ []) (h : next part = .incomplete) :
    ∃ lead, part.head? = some lead ∧ following lead ≠ none := by
  cases part with
  | nil => exact absurd rfl hne
  | cons lead rest =>
    refine ⟨lead, rfl, ?_⟩
    intro hnone
    simp [next, hnone] at h

theorem lossy_append_of_complete (hne : a ≠ []) (h : next a ≠ .incomplete) :
    lossy (a ++ b) = (next a).shown a :: lossy (a.drop ((next a).size a.length) ++ b) := by
  obtain ⟨-, hle, -⟩ := next_taken hne
  have hsame := next_append_of_complete b hne h
  rw [lossy_next (List.append_ne_nil_of_left_ne_nil hne b), hsame]
  cases hnext : next a with
  | incomplete => exact absurd hnext h
  | char n =>
    rw [hnext] at hle
    simp only [Next.shown, Next.size] at hle ⊢
    rw [List.take_append_of_le_length hle, List.drop_append_of_le_length hle]
  | invalid n =>
    rw [hnext] at hle
    simp only [Next.shown, Next.size] at hle ⊢
    rw [List.drop_append_of_le_length hle]

theorem Continued.of_suffix {part : List UInt8} (hpart : part <:+ a) (h : Continued part b) :
    Continued a b := by
  obtain ⟨inner, hinner, hrest⟩ := h
  exact ⟨inner, (List.mem_tails _ _).mpr (((List.mem_tails _ _).mp hinner).trans hpart), hrest⟩

/-- Decoding in two segments, when the cut is not inside a sequence. -/
theorem lossy_append (a b : List UInt8) (h : ¬Continued a b) :
    lossy (a ++ b) = lossy a ++ lossy b := by
  induction hlength : a.length using Nat.strong_induction_on generalizing a with
  | h length ih =>
    by_cases hne : a = []
    · subst hne
      rfl
    · by_cases hcomplete : next a = .incomplete
      · have hlossy : lossy a = [replacement] := by
          rw [lossy_next hne, hcomplete]
          simp only [Next.shown, Next.size, List.drop_length]
          rfl
        cases b with
        | nil => rw [lossy_nil, List.append_nil, List.append_nil]
        | cons x rest =>
          have hinvalid : next (a ++ [x]) = .invalid a.length := by
            rcases next_append_byte x hne hcomplete with hinvalid | ⟨-, hcontinues⟩
            · exact hinvalid
            · refine absurd ⟨a, (List.mem_tails _ _).mpr (List.suffix_refl a), hne, hcomplete, x,
                rfl, ?_⟩ h
              intro n _ hn
              rcases hcontinues with hagain | hchar
              · rw [hagain] at hn
                cases hn
              · rw [hchar] at hn
                cases hn
          have hwhole : next (a ++ x :: rest) = .invalid a.length := by
            rw [List.append_cons, next_append_of_complete rest (by simp) (by simp [hinvalid]),
              hinvalid]
          rw [hlossy, lossy_next (List.append_ne_nil_of_left_ne_nil hne _), hwhole]
          simp only [Next.shown, Next.size, List.drop_left]
          rfl
      · obtain ⟨hpos, hle, -⟩ := next_taken hne
        rw [lossy_append_of_complete hne hcomplete, lossy_next hne, List.cons_append]
        congr 1
        apply ih _ _ _ ?_ rfl
        · rw [List.length_drop]
          omega
        · exact mt (Continued.of_suffix (List.drop_suffix _ _)) h

/-- A sequence that reaches into the second segment is one character, and its bytes there
are decoded once more on their own. -/
theorem length_lossy_taken {y : UInt8} {rest : List UInt8} (hne : a ≠ [])
    (hincomplete : next a = .incomplete) (hnone : following y = none)
    (hlonger : a.length < (next (a ++ y :: rest)).size (a ++ y :: rest).length) :
    (lossy (a ++ y :: rest)).length < (lossy a).length + (lossy (y :: rest)).length := by
  have hwhole : a ++ y :: rest ≠ [] := List.append_ne_nil_of_left_ne_nil hne _
  obtain ⟨-, hle, htail⟩ := next_taken hwhole
  have hlossy : lossy a = [replacement] := by
    rw [lossy_next hne, hincomplete]
    simp only [Next.shown, Next.size, List.drop_length]
    rfl
  rw [hlossy, lossy_cons_of_none rest hnone, lossy_next hwhole]
  obtain ⟨more, hmore⟩ := Nat.exists_eq_add_of_lt hlonger
  rw [hmore] at htail ⊢
  have hdrop : (a ++ y :: rest).drop (a.length + more + 1) = rest.drop more := by
    rw [Nat.add_assoc, ← List.drop_drop, List.drop_left, List.drop_succ_cons]
  have hless : (lossy (rest.drop more)).length ≤ (lossy rest).length := by
    apply length_lossy_drop
    intro b hb
    apply htail
    rw [Nat.add_assoc, List.take_append, List.take_of_length_le (by omega), Nat.add_sub_cancel_left,
      List.take_succ_cons, List.tail_append_of_ne_nil hne]
    exact List.mem_append_right _ (List.mem_cons_of_mem _ hb)
  rw [hdrop, List.length_cons, List.length_cons, List.length_cons, List.length_nil]
  omega

/-- Decoding in two segments gives more characters when the cut is inside a sequence. -/
theorem length_lossy_append_lt (a b : List UInt8) (h : Continued a b) :
    (lossy (a ++ b)).length < (lossy a).length + (lossy b).length := by
  induction hlength : a.length using Nat.strong_induction_on generalizing a with
  | h length ih =>
    obtain ⟨part, hmem, hpartne, hincomplete, x, hx, hcontinues⟩ := h
    have hpart := (List.mem_tails _ _).mp hmem
    obtain ⟨lead, hhead, hlead⟩ := lead_of_incomplete hpartne hincomplete
    have hne : a ≠ [] := by
      intro hnil
      rw [hnil] at hpart
      exact hpartne (List.suffix_nil.mp hpart)
    by_cases hwhole : part = a
    · subst hwhole
      cases b with
      | nil => cases hx
      | cons y rest =>
        have hxy : y = x := Option.some.inj hx
        subst hxy
        obtain ⟨hnone, hlonger⟩ : following y = none ∧
            part.length < (next (part ++ y :: rest)).size (part ++ y :: rest).length := by
          rw [List.append_cons]
          rcases next_append_byte y hne hincomplete with hinvalid | ⟨hnone, hagain | hchar⟩
          · exact absurd hinvalid (hcontinues part.length le_rfl)
          · have hsize := length_le_size rest hagain
            rw [List.length_append, List.length_singleton] at hsize
            exact ⟨hnone, hsize⟩
          · refine ⟨hnone, ?_⟩
            rw [next_append_of_complete rest (by simp) (by simp [hchar]), hchar]
            exact Nat.lt_succ_self _
        exact length_lossy_taken hne hincomplete hnone hlonger
    · have hinner := suffix_drop_of_lead hne hpart hwhole hhead hlead
      have hcomplete : next a ≠ .incomplete := by
        intro hagain
        rw [hagain] at hinner
        simp only [Next.size, List.drop_length] at hinner
        exact hpartne (List.suffix_nil.mp hinner)
      obtain ⟨hpos, hle, -⟩ := next_taken hne
      rw [lossy_append_of_complete hne hcomplete, lossy_next hne, List.length_cons,
        List.length_cons]
      have hless := ih _ (by rw [List.length_drop]; omega) (a.drop ((next a).size a.length))
        ⟨part, (List.mem_tails _ _).mpr hinner, hpartne, hincomplete, x, hx, hcontinues⟩ rfl
      omega

/-- Valid text ends in no incomplete sequence. -/
theorem not_continued_of_valid (ha : Valid a) : ¬Continued a b := by
  intro h
  obtain ⟨part, hmem, hpartne, hincomplete, -⟩ := h
  obtain ⟨front, hfront⟩ := (List.mem_tails _ _).mp hmem
  obtain ⟨cs, hcs, hflat⟩ := ha
  rcases flatten_cut cs front part (hflat.trans hfront.symm) with ⟨as, bs, rfl, _, hbs⟩ |
    ⟨as, p, q, bs, rfl, hp, hq, _, hpart⟩
  · cases bs with
    | nil => exact hpartne hbs.symm
    | cons c bs =>
      have hnext := next_append c bs.flatten
        (hcs c (List.mem_append_right _ (List.mem_cons_self ..)))
      rw [← List.flatten_cons, hbs, hincomplete] at hnext
      cases hnext
  · cases q with
    | nil => exact hq rfl
    | cons x q =>
      have hnone := following_tail p x q hp
        (hcs _ (List.mem_append_right _ (List.mem_cons_self ..)))
      obtain ⟨lead, hhead, hlead⟩ := lead_of_incomplete hpartne hincomplete
      rw [hpart] at hhead
      exact hlead (Option.some.inj hhead ▸ hnone)

end Segments

section Validation

/-- What a validation passed over is valid. -/
theorem validateFrom_valid (fuel upTo : ℕ) (bytes : List UInt8) (hfuel : bytes.length < fuel) :
    (validateFrom fuel upTo bytes = .ok → Valid bytes) ∧
      ∀ n, validateFrom fuel upTo bytes = .error n none →
        upTo ≤ n ∧ n ≤ upTo + bytes.length ∧ Valid (bytes.take (n - upTo)) := by
  induction fuel generalizing upTo bytes with
  | zero => omega
  | succ fuel ih =>
    by_cases hne : bytes = []
    · subst hne
      exact ⟨fun _ => valid_flatten [] (fun c hc => nomatch hc), fun n hn => nomatch hn⟩
    · obtain ⟨hpos, hle, -⟩ := next_taken hne
      have hround : validateFrom (fuel + 1) upTo bytes =
          match next bytes with
          | .char n => validateFrom fuel (upTo + n) (bytes.drop n)
          | .incomplete => .error upTo none
          | .invalid n => .error upTo (some n) := by
        cases bytes with
        | nil => exact absurd rfl hne
        | cons lead rest => rfl
      rw [hround]
      cases hnext : next bytes with
      | incomplete =>
        refine ⟨by simp, ?_⟩
        intro n hn
        obtain ⟨rfl, -⟩ := Validation.error.inj hn
        rw [Nat.sub_self, List.take_zero]
        exact ⟨le_rfl, Nat.le_add_right _ _, valid_flatten [] (fun c hc => nomatch hc)⟩
      | invalid m => simp
      | char m =>
        rw [hnext] at hpos hle
        simp only [Next.size] at hpos hle
        have hchar : Valid (bytes.take m) := by
          refine ⟨[bytes.take m], ?_, List.flatten_singleton⟩
          intro c hc
          rw [List.mem_singleton.mp hc]
          exact isChar_take hne hnext
        obtain ⟨hok, herror⟩ := ih (upTo + m) (bytes.drop m) (by rw [List.length_drop]; omega)
        rw [List.length_drop] at herror
        refine ⟨?_, ?_⟩
        · intro h
          rw [← List.take_append_drop m bytes]
          exact valid_append _ _ hchar (hok h)
        · intro n hn
          obtain ⟨hlow, hhigh, hvalid⟩ := herror n hn
          have hsplit : bytes.take (n - upTo) =
              bytes.take m ++ (bytes.drop m).take (n - (upTo + m)) := by
            rw [← List.take_add]
            congr 1
            omega
          rw [hsplit]
          exact ⟨by omega, by omega, valid_append _ _ hchar hvalid⟩

theorem valid_of_validate {bytes : List UInt8} (h : validate bytes = .ok) : Valid bytes :=
  (validateFrom_valid _ _ bytes (Nat.lt_succ_self _)).1 h

theorem valid_take_of_validate {bytes : List UInt8} {n : ℕ}
    (h : validate bytes = .error n none) : n ≤ bytes.length ∧ Valid (bytes.take n) := by
  obtain ⟨-, hle, hvalid⟩ := (validateFrom_valid _ _ bytes (Nat.lt_succ_self _)).2 n h
  exact ⟨by omega, hvalid⟩

end Validation

end Cusco.Utf8
