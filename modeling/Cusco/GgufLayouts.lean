import Cusco.GgufProbe

/-!
The bytes of a GGUF header and what the probe reads of them. A value is described by the bytes
it takes, as the probe skips it: an array without elements may announce elements of any kind,
also of one that no value has.
-/

namespace Cusco.GgufLayouts

open ByteReaders GgufProbe

def encodeString (s : String) : List UInt8 :=
  toLeBytes 8 (stringBytes s).length ++ stringBytes s

/-- The bytes of a value of this kind. -/
inductive IsValue : ℕ → List UInt8 → Prop
  | scalar (kind : ℕ) (bytes : List UInt8) (h : scalarBytes kind = some bytes.length) :
      IsValue kind bytes
  | string (s : String) (hshort : (stringBytes s).length ≤ maxString) : IsValue 8 (encodeString s)
  | array (element : ℕ) (pieces : List (List UInt8)) (helement : element < 2 ^ 32)
      (hfew : pieces.length ≤ maxElements) (h : ∀ piece ∈ pieces, IsValue element piece) :
      IsValue 9 (toLeBytes 4 element ++ (toLeBytes 8 pieces.length ++ pieces.flatten))

/-- A key and the bytes of a value. -/
structure Field where
  key : String
  kind : ℕ
  value : List UInt8
  short : (stringBytes key).length ≤ maxString
  kind_lt : kind < 2 ^ 32
  valid : IsValue kind value

def Field.encode (f : Field) : List UInt8 :=
  encodeString f.key ++ (toLeBytes 4 f.kind ++ f.value)

/-- The string after its length. -/
def Field.text (f : Field) : Option String :=
  if f.kind = 8 then stringOfBytes (f.value.drop 8) else none

def Field.textOf (key : String) (f : Field) : Option String :=
  if f.key = key then f.text else none

structure Layout where
  version : ℕ
  supported : 2 ≤ version ∧ version ≤ 3
  tensorCount : ℕ
  tensors_lt : tensorCount < 2 ^ 64
  fields : List Field
  few : fields.length ≤ maxElements

def Layout.encode (l : Layout) : List UInt8 :=
  magic ++ (toLeBytes 4 l.version ++ (toLeBytes 8 l.tensorCount ++
    (toLeBytes 8 l.fields.length ++ (l.fields.map Field.encode).flatten)))

/-- The last string under this key. -/
def Layout.lastText (l : Layout) (key : String) : Option String :=
  (l.fields.filterMap (Field.textOf key)).getLast?

/-- What the loop has found after this field. -/
def Found.after (found : Found) (f : Field) : Found where
  architecture := (f.textOf architectureKey).or found.architecture
  name := (f.textOf nameKey).or found.name

theorem stringOfBytes_stringBytes (s : String) : stringOfBytes (stringBytes s) = some s := by
  have hbytes : (⟨(stringBytes s).toArray⟩ : ByteArray) = s.toByteArray := rfl
  unfold stringOfBytes String.fromUTF8?
  rw [hbytes, dif_pos s.isValidUTF8]
  rfl

theorem text_of_string {f : Field} {s : String} (hkind : f.kind = 8)
    (hvalue : f.value = encodeString s) : f.text = some s := by
  unfold Field.text
  rw [if_pos hkind, hvalue, encodeString, List.drop_left' (toLeBytes_length 8 _),
    stringOfBytes_stringBytes]

theorem after_skipped (found : Found) (f : Field)
    (h : ¬((f.key = architectureKey ∨ f.key = nameKey) ∧ f.kind = 8)) :
    Found.after found f = found := by
  have hnone : ∀ key, key = architectureKey ∨ key = nameKey → f.textOf key = none := by
    intro key hkey
    unfold Field.textOf Field.text
    split_ifs with hsame hkind
    · exact absurd ⟨hsame ▸ hkey, hkind⟩ h
    · rfl
    · rfl
  unfold Found.after
  rw [hnone _ (Or.inl rfl), hnone _ (Or.inr rfl), Option.none_or, Option.none_or]

theorem after_string (found : Found) {f : Field} {s : String} (hkind : f.kind = 8)
    (hvalue : f.value = encodeString s) (hkey : f.key = architectureKey ∨ f.key = nameKey) :
    Found.after found f = if f.key = architectureKey then { found with architecture := some s }
      else { found with name := some s } := by
  have hother : architectureKey ≠ nameKey := by decide
  unfold Found.after Field.textOf
  rw [text_of_string hkind hvalue]
  rcases hkey with hkey | hkey
  · rw [hkey, if_pos rfl, if_neg hother, if_pos rfl]
    rfl
  · rw [hkey, if_pos rfl, if_neg hother.symm, if_neg hother.symm]
    rfl

theorem consumes_readU32 (n : ℕ) (h : n < 2 ^ 32) : Consumes readU32 (toLeBytes 4 n) n := by
  have hread := (Consumes.readExact Error.io (toLeBytes 4 n)).map fromLeBytes
  rw [toLeBytes_length, fromLeBytes_toLeBytes 4 n (by simpa using h)] at hread
  exact hread

theorem consumes_readU64 (n : ℕ) (h : n < 2 ^ 64) : Consumes readU64 (toLeBytes 8 n) n := by
  have hread := (Consumes.readExact Error.io (toLeBytes 8 n)).map fromLeBytes
  rw [toLeBytes_length, fromLeBytes_toLeBytes 8 n (by simpa using h)] at hread
  exact hread

theorem consumes_readString (s : String) (h : (stringBytes s).length ≤ maxString) :
    Consumes readString (encodeString s) s := by
  have hlength : (stringBytes s).length < 2 ^ 64 := by
    unfold maxString at h
    omega
  refine Consumes.bind (consumes_readU64 _ hlength) ?_
  rw [if_neg (Nat.not_lt.mpr h)]
  apply Consumes.after (Consumes.readExact Error.io (stringBytes s))
  rw [stringOfBytes_stringBytes]
  exact Consumes.pure s

theorem scalar_other {kind size : ℕ} (h : scalarBytes kind = some size) :
    kind ≠ 8 ∧ kind ≠ 9 := by
  constructor
  · rintro rfl
    cases h
  · rintro rfl
    cases h

theorem consumes_pieces {x : Reader Error Unit} {pieces : List (List UInt8)}
    (h : ∀ piece ∈ pieces, Consumes x piece ()) :
    Consumes (repeated pieces.length x) pieces.flatten () := by
  induction pieces with
  | nil => exact Consumes.pure ()
  | cons piece pieces ih =>
    exact (h piece List.mem_cons_self).bind (ih (fun p hp => h p (List.mem_cons_of_mem piece hp)))

/-- A value is skipped whole, for any bound its length is below. -/
theorem consumes_skipValue {kind : ℕ} {bytes : List UInt8} (h : IsValue kind bytes) (depth : ℕ)
    (hdepth : bytes.length < depth) : Consumes (skipValue depth kind) bytes () := by
  induction h generalizing depth with
  | scalar kind bytes hsize =>
    obtain ⟨depth, rfl⟩ := Nat.exists_eq_add_of_le' (Nat.succ_le_of_lt (Nat.zero_lt_of_lt hdepth))
    obtain ⟨hstring, harray⟩ := scalar_other hsize
    rw [skipValue, if_neg hstring, if_neg harray, hsize]
    exact (Consumes.readExact Error.io bytes).map (fun _ => ())
  | string s hshort =>
    obtain ⟨depth, rfl⟩ := Nat.exists_eq_add_of_le' (Nat.succ_le_of_lt (Nat.zero_lt_of_lt hdepth))
    rw [skipValue, if_pos rfl]
    exact (consumes_readString s hshort).map (fun _ => ())
  | array element pieces helement hfew _ ih =>
    obtain ⟨depth, rfl⟩ := Nat.exists_eq_add_of_le' (Nat.succ_le_of_lt (Nat.zero_lt_of_lt hdepth))
    have hother : ¬9 = 8 := by decide
    have hcount : pieces.length < 2 ^ 64 := by
      unfold maxElements at hfew
      omega
    rw [skipValue, if_neg hother, if_pos rfl]
    refine (consumes_readU32 _ helement).bind ?_
    refine (consumes_readU64 _ hcount).bind ?_
    rw [if_neg (Nat.not_lt.mpr hfew)]
    apply consumes_pieces
    intro piece hpiece
    apply ih piece hpiece
    have hle := (List.sublist_flatten_of_mem hpiece).length_le
    simp only [List.length_append, toLeBytes_length] at hdepth
    omega

theorem isValue_string {bytes : List UInt8} (h : IsValue 8 bytes) :
    ∃ s, bytes = encodeString s ∧ (stringBytes s).length ≤ maxString := by
  cases h with
  | scalar _ _ hsize => exact absurd rfl (scalar_other hsize).1
  | string s hshort => exact ⟨s, rfl, hshort⟩

theorem consumes_readEntry (f : Field) (depth : ℕ) (hdepth : f.encode.length < depth)
    (found : Found) : Consumes (readEntry depth found) f.encode (Found.after found f) := by
  have hvalue : f.value.length < depth := by
    unfold Field.encode at hdepth
    rw [List.length_append, List.length_append] at hdepth
    omega
  refine (consumes_readString f.key f.short).bind ?_
  refine (consumes_readU32 _ f.kind_lt).bind ?_
  by_cases hread : (f.key = architectureKey ∨ f.key = nameKey) ∧ f.kind = 8
  · rw [if_pos hread]
    have hstring := f.valid
    rw [hread.2] at hstring
    obtain ⟨s, hs, hshort⟩ := isValue_string hstring
    rw [after_string found hread.2 hs hread.1, hs]
    apply Consumes.after (consumes_readString s hshort)
    by_cases hkey : f.key = architectureKey
    · rw [if_pos hkey, if_pos hkey]
      exact Consumes.pure _
    · rw [if_neg hkey, if_neg hkey]
      exact Consumes.pure _
  · rw [if_neg hread, after_skipped found f hread]
    exact (consumes_skipValue f.valid depth hvalue).map (fun _ => found)

theorem consumes_readEntries (fields : List Field) (depth : ℕ)
    (hdepth : ((fields.map Field.encode).flatten).length < depth) (found : Found) :
    Consumes (readEntries depth fields.length found) (fields.map Field.encode).flatten
      (fields.foldl Found.after found) := by
  induction fields generalizing found with
  | nil => exact Consumes.pure found
  | cons f fields ih =>
    rw [List.map_cons, List.flatten_cons, List.length_append] at hdepth
    exact (consumes_readEntry f depth (by omega) found).bind (ih (by omega) (Found.after found f))

theorem consumes_readHeader (l : Layout) (depth : ℕ) (hdepth : l.encode.length < depth) :
    Consumes (readHeader depth) l.encode (l.fields.foldl Found.after ⟨none, none⟩) := by
  have hfields : ((l.fields.map Field.encode).flatten).length < depth := by
    unfold Layout.encode at hdepth
    simp only [List.length_append] at hdepth
    omega
  have hversion : l.version < 2 ^ 32 := by
    have hle := l.supported.2
    omega
  have hcount : l.fields.length < 2 ^ 64 := by
    have hfew := l.few
    unfold maxElements at hfew
    omega
  refine (Consumes.readExact Error.io magic).bind ?_
  rw [if_neg (not_not.mpr rfl)]
  refine (consumes_readU32 _ hversion).bind ?_
  rw [if_neg (not_not.mpr l.supported)]
  refine (consumes_readU64 _ l.tensors_lt).bind ?_
  refine (consumes_readU64 _ hcount).bind ?_
  rw [if_neg (Nat.not_lt.mpr l.few)]
  exact consumes_readEntries l.fields depth hfields ⟨none, none⟩

theorem foldl_after (fields : List Field) (found : Found) :
    fields.foldl Found.after found =
      ⟨((fields.filterMap (Field.textOf architectureKey)).getLast?).or found.architecture,
        ((fields.filterMap (Field.textOf nameKey)).getLast?).or found.name⟩ := by
  have hlast : ∀ (key : String) (f : Field) (fields : List Field) (old : Option String),
      ((fields.filterMap (Field.textOf key)).getLast?).or ((f.textOf key).or old) =
        (((f :: fields).filterMap (Field.textOf key)).getLast?).or old := by
    intro key f fields old
    cases htext : f.textOf key with
    | none => rw [List.filterMap_cons_none htext, Option.none_or]
    | some s =>
      rw [List.filterMap_cons_some htext, List.getLast?_cons]
      cases (fields.filterMap (Field.textOf key)).getLast? with
      | none => rfl
      | some last => rfl
  induction fields generalizing found with
  | nil => rfl
  | cons f fields ih =>
    rw [List.foldl_cons, ih, Found.after]
    simp only [hlast]

theorem found_of_layout (l : Layout) :
    l.fields.foldl Found.after ⟨none, none⟩ =
      ⟨l.lastText architectureKey, l.lastText nameKey⟩ := by
  rw [foldl_after, Option.or_none, Option.or_none]
  rfl

end Cusco.GgufLayouts
