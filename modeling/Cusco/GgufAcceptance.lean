import Cusco.GgufLayouts

/-!
What the metadata probe accepts: a file is answered with metadata exactly when it starts with a
header and the header names an architecture.
-/

namespace Cusco.GgufAcceptance

open ByteReaders GgufProbe GgufLayouts

section Strings

theorem encodeString_of {bytes : List UInt8} {s : String} (h : stringOfBytes bytes = some s) :
    stringBytes s = bytes := by
  unfold stringOfBytes String.fromUTF8? at h
  split_ifs at h with hvalid
  cases h
  rfl

theorem takes_readU32 : Takes (fun bytes n => bytes = toLeBytes 4 n ∧ n < 2 ^ 32) readU32 := by
  refine Takes.bind (Takes.readExact Error.io 4) ?_
  rintro first bytes ⟨rfl, hlength⟩
  refine Takes.pure ⟨?_, ?_⟩
  · rw [List.append_nil, ← hlength, toLeBytes_fromLeBytes]
  · have hlt := fromLeBytes_lt first
    rw [hlength] at hlt
    exact hlt

theorem takes_readU64 : Takes (fun bytes n => bytes = toLeBytes 8 n ∧ n < 2 ^ 64) readU64 := by
  refine Takes.bind (Takes.readExact Error.io 8) ?_
  rintro first bytes ⟨rfl, hlength⟩
  refine Takes.pure ⟨?_, ?_⟩
  · rw [List.append_nil, ← hlength, toLeBytes_fromLeBytes]
  · have hlt := fromLeBytes_lt first
    rw [hlength] at hlt
    exact hlt

theorem takes_readString :
    Takes (fun bytes s => bytes = encodeString s ∧ (stringBytes s).length ≤ maxString)
      readString := by
  refine Takes.bind takes_readU64 ?_
  rintro first length ⟨rfl, _⟩
  refine Takes.ite (fun _ => Takes.fail _) ?_
  intro hlong
  refine Takes.bind (Takes.readExact Error.io length) ?_
  rintro second bytes ⟨rfl, rfl⟩
  cases hs : stringOfBytes second with
  | none => exact Takes.fail _
  | some s =>
    refine Takes.pure ?_
    rw [encodeString, encodeString_of hs, List.append_nil]
    exact ⟨rfl, Nat.le_of_not_lt hlong⟩

end Strings

section Accepted

/-- What is skipped is a value. -/
theorem takes_skipValue (depth kind : ℕ) :
    Takes (fun bytes _ => IsValue kind bytes) (skipValue depth kind) := by
  induction depth generalizing kind with
  | zero => exact Takes.exhausted
  | succ depth ih =>
    unfold skipValue
    apply Takes.ite
    · rintro rfl
      refine Takes.bind takes_readString ?_
      rintro first s ⟨rfl, hshort⟩
      refine Takes.pure ?_
      rw [List.append_nil]
      exact .string s hshort
    · intro _
      apply Takes.ite
      · rintro rfl
        refine Takes.bind takes_readU32 ?_
        rintro _ element ⟨rfl, helement⟩
        refine Takes.bind takes_readU64 ?_
        rintro _ count ⟨rfl, _⟩
        refine Takes.ite (fun _ => Takes.fail _) ?_
        intro hfew
        refine (Takes.repeated (ih element) count).imp ?_
        rintro _ _ ⟨pieces, rfl, hpieces, rfl⟩
        exact .array element pieces helement (Nat.le_of_not_lt hfew) hpieces
      · intro _
        cases hscalar : scalarBytes kind with
        | none => exact Takes.fail _
        | some size =>
          refine Takes.bind (Takes.readExact Error.io size) ?_
          rintro first bytes ⟨rfl, rfl⟩
          refine Takes.pure ?_
          rw [List.append_nil]
          exact .scalar kind first hscalar

theorem takes_readEntry (depth : ℕ) (found : Found) :
    Takes (fun bytes found' => ∃ f : Field, bytes = f.encode ∧ found' = Found.after found f)
      (readEntry depth found) := by
  refine Takes.bind takes_readString ?_
  rintro _ key ⟨rfl, hshort⟩
  refine Takes.bind takes_readU32 ?_
  rintro _ kind ⟨rfl, hkind⟩
  apply Takes.ite
  · rintro ⟨hkey, rfl⟩
    refine Takes.bind takes_readString ?_
    rintro _ s ⟨rfl, hs⟩
    have hafter := fun f hf hvalue => after_string found (f := f) (s := s) hf hvalue
    apply Takes.ite
    · intro harchitecture
      refine Takes.pure ⟨⟨key, 8, encodeString s, hshort, hkind, .string s hs⟩, ?_, ?_⟩
      · rw [List.append_nil]
        rfl
      · rw [hafter _ rfl rfl hkey, if_pos harchitecture]
    · intro harchitecture
      refine Takes.pure ⟨⟨key, 8, encodeString s, hshort, hkind, .string s hs⟩, ?_, ?_⟩
      · rw [List.append_nil]
        rfl
      · rw [hafter _ rfl rfl hkey, if_neg harchitecture]
  · intro hskipped
    refine Takes.bind (takes_skipValue depth kind) ?_
    intro value _ hvalue
    refine Takes.pure ⟨⟨key, kind, value, hshort, hkind, hvalue⟩, ?_, ?_⟩
    · rw [List.append_nil]
      rfl
    · exact (after_skipped found _ hskipped).symm

theorem takes_readEntries (depth count : ℕ) (found : Found) :
    Takes (fun bytes found' => ∃ fields : List Field, fields.length = count ∧
      bytes = (fields.map Field.encode).flatten ∧ found' = fields.foldl Found.after found)
      (readEntries depth count found) := by
  induction count generalizing found with
  | zero => exact Takes.pure ⟨[], rfl, rfl, rfl⟩
  | succ count ih =>
    refine Takes.bind (takes_readEntry depth found) ?_
    rintro _ _ ⟨f, rfl, rfl⟩
    refine (ih (Found.after found f)).imp ?_
    rintro _ _ ⟨fields, rfl, rfl, rfl⟩
    exact ⟨f :: fields, rfl, rfl, rfl⟩

theorem takes_readHeader (depth : ℕ) :
    Takes (fun bytes found => ∃ l : Layout, bytes = l.encode ∧
      found = l.fields.foldl Found.after ⟨none, none⟩) (readHeader depth) := by
  refine Takes.bind (Takes.readExact Error.io 4) ?_
  rintro first start ⟨rfl, _⟩
  refine Takes.ite (fun _ => Takes.fail _) ?_
  intro hmagic
  obtain rfl := not_not.mp hmagic
  refine Takes.bind takes_readU32 ?_
  rintro _ version ⟨rfl, _⟩
  refine Takes.ite (fun _ => Takes.fail _) ?_
  intro hversion
  refine Takes.bind takes_readU64 ?_
  rintro _ tensorCount ⟨rfl, htensors⟩
  refine Takes.bind takes_readU64 ?_
  rintro _ metadataCount ⟨rfl, _⟩
  refine Takes.ite (fun _ => Takes.fail _) ?_
  intro hfew
  refine (takes_readEntries depth metadataCount _).imp ?_
  rintro _ _ ⟨fields, rfl, rfl, rfl⟩
  exact ⟨⟨version, not_not.mp hversion, tensorCount, htensors, fields, Nat.le_of_not_lt hfew⟩,
    rfl, rfl⟩

end Accepted

/-- A file is accepted exactly when it starts with a header whose last architecture and last name
are those of the answer. -/
theorem probe_accepts_iff (bytes : List UInt8) (m : ModelMetadata) :
    probeGguf (some bytes) = some (.ok m) ↔
      ∃ (l : Layout) (rest : List UInt8), bytes = l.encode ++ rest ∧
        l.lastText architectureKey = some m.architecture ∧ l.lastText nameKey = m.name := by
  constructor
  · intro h
    unfold probeGguf at h
    dsimp only at h
    split at h
    · cases h
    · cases h
    · next found rest hread =>
      obtain ⟨_, rfl, l, rfl, rfl⟩ := takes_readHeader _ _ _ _ hread
      rw [found_of_layout] at h
      split at h
      · cases h
      · next architecture harchitecture =>
        cases h
        exact ⟨l, rest, rfl, harchitecture, rfl⟩
  · rintro ⟨l, rest, rfl, harchitecture, hname⟩
    have hdepth : l.encode.length < (l.encode ++ rest).length + 1 := by
      rw [List.length_append]
      omega
    have hread := consumes_readHeader l _ hdepth rest
    rw [found_of_layout] at hread
    unfold probeGguf
    simp only [hread, harchitecture, hname]

end Cusco.GgufAcceptance
