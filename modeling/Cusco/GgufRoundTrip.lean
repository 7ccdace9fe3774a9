import Cusco.GgufLayouts

/-!
GGUF headers and what the probe reads of them. A value knows its kind, an array the kind of
its elements, so that only well-formed headers can be written down.
-/

namespace Cusco.GgufRoundTrip

open ByteReaders GgufProbe GgufLayouts

inductive ScalarKind
  | uint8
  | int8
  | uint16
  | int16
  | uint32
  | int32
  | float32
  | bool
  | uint64
  | int64
  | float64
  deriving DecidableEq

def ScalarKind.code : ScalarKind → ℕ
  | uint8 => 0
  | int8 => 1
  | uint16 => 2
  | int16 => 3
  | uint32 => 4
  | int32 => 5
  | float32 => 6
  | bool => 7
  | uint64 => 10
  | int64 => 11
  | float64 => 12

def ScalarKind.size : ScalarKind → ℕ
  | uint8 | int8 | bool => 1
  | uint16 | int16 => 2
  | uint32 | int32 | float32 => 4
  | uint64 | int64 | float64 => 8

inductive Kind
  | scalar (k : ScalarKind)
  | string
  | array
  deriving DecidableEq

def Kind.code : Kind → ℕ
  | .scalar k => k.code
  | .string => 8
  | .array => 9

mutual

inductive Value : Kind → Type
  | scalar (k : ScalarKind) (payload : { bytes : List UInt8 // bytes.length = k.size }) :
    Value (.scalar k)
  | string (s : String) : Value .string
  | array (element : Kind) (items : Items element) : Value .array

/-- Elements of one kind. -/
inductive Items : Kind → Type
  | nil (k : Kind) : Items k
  | cons (k : Kind) (first : Value k) (rest : Items k) : Items k

end

def Items.count {k : Kind} : Items k → ℕ
  | .nil _ => 0
  | .cons _ _ rest => rest.count + 1

mutual

def Value.encode {k : Kind} : Value k → List UInt8
  | .scalar _ payload => payload.1
  | .string s => encodeString s
  | .array element items =>
    toLeBytes 4 element.code ++ (toLeBytes 8 items.count ++ items.encode)

def Items.encode {k : Kind} : Items k → List UInt8
  | .nil _ => []
  | .cons _ first rest => first.encode ++ rest.encode

end

mutual

/-- Strings of at most 16 MiB and arrays of at most a million elements. -/
def Value.Fits {k : Kind} : Value k → Prop
  | .scalar _ _ => True
  | .string s => (stringBytes s).length ≤ maxString
  | .array _ items => items.count ≤ maxElements ∧ items.Fits

def Items.Fits {k : Kind} : Items k → Prop
  | .nil _ => True
  | .cons _ first rest => first.Fits ∧ rest.Fits

end

/-- A key with a value. -/
structure Entry where
  key : String
  kind : Kind
  value : Value kind
  short : (stringBytes key).length ≤ maxString
  fits : value.Fits

def Entry.encode (e : Entry) : List UInt8 :=
  encodeString e.key ++ (toLeBytes 4 e.kind.code ++ e.value.encode)

structure Header where
  version : ℕ
  supported : 2 ≤ version ∧ version ≤ 3
  tensorCount : UInt64
  entries : List Entry
  few : entries.length ≤ maxElements

def Header.encode (h : Header) : List UInt8 :=
  magic ++ (toLeBytes 4 h.version ++ (toLeBytes 8 h.tensorCount.toNat ++
    (toLeBytes 8 h.entries.length ++ (h.entries.map Entry.encode).flatten)))

def Value.text {k : Kind} : Value k → Option String
  | .string s => some s
  | _ => none

/-- The string under this key, if the entry has one. -/
def Entry.textOf (key : String) (e : Entry) : Option String :=
  if e.key = key then e.value.text else none

/-- The last string under this key. -/
def Header.lastText (h : Header) (key : String) : Option String :=
  (h.entries.filterMap (Entry.textOf key)).getLast?

section Layouts

theorem Kind.code_lt (k : Kind) : k.code < 2 ^ 32 := by
  rcases k with k | _ | _
  · cases k <;> decide
  · decide
  · decide

theorem ScalarKind.scalarBytes_code (k : ScalarKind) : scalarBytes k.code = some k.size := by
  cases k <;> rfl

mutual

theorem Value.isValue {k : Kind} : (v : Value k) → v.Fits → IsValue k.code v.encode
  | .scalar k ⟨payload, hsize⟩, _ => .scalar k.code payload (hsize ▸ k.scalarBytes_code)
  | .string s, hshort => .string s hshort
  | .array element items, hfits => by
    obtain ⟨pieces, hcount, hbytes, hpieces⟩ := items.pieces hfits.2
    rw [Value.encode, ← hcount, ← hbytes]
    exact .array element.code pieces element.code_lt (hcount ▸ hfits.1) hpieces

theorem Items.pieces {k : Kind} : (items : Items k) → items.Fits →
    ∃ pieces : List (List UInt8), pieces.length = items.count ∧ pieces.flatten = items.encode ∧
      ∀ piece ∈ pieces, IsValue k.code piece
  | .nil _, _ => ⟨[], rfl, rfl, fun _ h => absurd h List.not_mem_nil⟩
  | .cons _ first rest, hfits => by
    obtain ⟨pieces, hcount, hbytes, hpieces⟩ := rest.pieces hfits.2
    refine ⟨first.encode :: pieces, congrArg (· + 1) hcount, ?_, ?_⟩
    · rw [List.flatten_cons, hbytes, Items.encode]
    · exact List.forall_mem_cons.mpr ⟨first.isValue hfits.1, hpieces⟩

end

def Entry.field (e : Entry) : Field :=
  ⟨e.key, e.kind.code, e.value.encode, e.short, e.kind.code_lt, e.value.isValue e.fits⟩

def Header.layout (h : Header) : Layout where
  version := h.version
  supported := h.supported
  tensorCount := h.tensorCount.toNat
  tensors_lt := h.tensorCount.toNat_lt
  fields := h.entries.map Entry.field
  few := (List.length_map Entry.field).symm ▸ h.few

theorem encode_layout (h : Header) : h.layout.encode = h.encode := by
  unfold Layout.encode Header.encode Header.layout
  rw [List.length_map, List.map_map]
  rfl

theorem Entry.textOf_field (key : String) (e : Entry) : e.field.textOf key = e.textOf key := by
  have htext : e.field.text = e.value.text := by
    obtain ⟨name, kind, value, hshort, hfits⟩ := e
    cases value with
    | scalar k payload =>
      exact if_neg (scalar_other k.scalarBytes_code).1
    | string s => exact text_of_string rfl rfl
    | array element items => rfl
  unfold Field.textOf Entry.textOf
  rw [htext]
  rfl

theorem lastText_layout (h : Header) (key : String) : h.layout.lastText key = h.lastText key := by
  have hsame : Field.textOf key ∘ Entry.field = Entry.textOf key :=
    funext (Entry.textOf_field key)
  unfold Layout.lastText Header.lastText Header.layout
  rw [List.filterMap_map, hsame]

end Layouts

/-- What the loop has found after this entry. -/
def Found.add (found : Found) (e : Entry) : Found where
  architecture := (e.textOf architectureKey).or found.architecture
  name := (e.textOf nameKey).or found.name

theorem consumes_entry (e : Entry) (depth : ℕ) (hdepth : e.encode.length < depth)
    (found : Found) : Consumes (readEntry depth found) e.encode (Found.add found e) := by
  have hadd : Found.add found e = Found.after found e.field := by
    unfold Found.add Found.after
    rw [e.textOf_field, e.textOf_field]
  rw [hadd]
  exact consumes_readEntry e.field depth hdepth found

/-- What the probe answers on a header. -/
def answer (h : Header) : Except Error ModelMetadata :=
  match h.lastText architectureKey with
  | none => .error (.invalidMetadata "general.architecture is absent")
  | some architecture => .ok ⟨architecture, h.lastText nameKey⟩

/-- The probe reads each entry of a header whole and answers with the last strings under the two
keys, whatever follows the header; and it answers on every file. -/
theorem probe_round_trip :
    (∀ (h : Header) (rest : List UInt8),
      probeGguf (some (h.encode ++ rest)) = some (answer h) ∧
        (∀ e ∈ h.entries, ∀ found, Consumes (readEntry ((h.encode ++ rest).length + 1) found)
          e.encode (Found.add found e)) ∧
        readHeader ((h.encode ++ rest).length + 1) (h.encode ++ rest) =
          some (.ok (⟨h.lastText architectureKey, h.lastText nameKey⟩, rest))) ∧
      ∀ file, ∃ answer, probeGguf file = some answer := by
  refine ⟨?_, probeGguf_answers⟩
  intro h rest
  have hdepth : h.encode.length < (h.encode ++ rest).length + 1 := by
    rw [List.length_append]
    omega
  have hread := consumes_readHeader h.layout _ (encode_layout h ▸ hdepth) rest
  rw [encode_layout, found_of_layout, lastText_layout, lastText_layout] at hread
  refine ⟨?_, ?_, hread⟩
  · unfold probeGguf answer
    simp only [hread]
    cases h.lastText architectureKey with
    | none => rfl
    | some architecture => rfl
  · intro e he found
    apply consumes_entry
    have hmem : e.encode ∈ h.entries.map Entry.encode := List.mem_map_of_mem he
    have hle := (List.sublist_flatten_of_mem hmem).length_le
    have hlonger : ((h.entries.map Entry.encode).flatten).length ≤ h.encode.length := by
      unfold Header.encode
      simp only [List.length_append]
      omega
    omega

end Cusco.GgufRoundTrip
