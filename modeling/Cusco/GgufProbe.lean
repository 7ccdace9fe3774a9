import Cusco.ByteReaders

/-!
The metadata probe of the model registry: it reads the header of a GGUF file and skips the
values it has no use for.
-/

namespace Cusco.GgufProbe

open ByteReaders

inductive Error
  | io
  | invalidMetadata (message : String)
  deriving DecidableEq

structure ModelMetadata where
  architecture : String
  name : Option String
  deriving DecidableEq

def readU32 : Reader Error ℕ :=
  Reader.bind (readExact .io 4) (fun bytes => Reader.pure (fromLeBytes bytes))

def readU64 : Reader Error ℕ :=
  Reader.bind (readExact .io 8) (fun bytes => Reader.pure (fromLeBytes bytes))

def maxString : ℕ := 16 * 2 ^ 20

def maxElements : ℕ := 1000000

def stringBytes (s : String) : List UInt8 := s.toUTF8.data.toList

def stringOfBytes (bytes : List UInt8) : Option String := String.fromUTF8? ⟨bytes.toArray⟩

def readString : Reader Error String :=
  Reader.bind readU64 (fun length =>
    if length > maxString then Reader.fail (.invalidMetadata "metadata string exceeds 16 MiB")
    else Reader.bind (readExact .io length) (fun bytes =>
      match stringOfBytes bytes with
      | none => Reader.fail (.invalidMetadata "metadata string is not UTF-8")
      | some s => Reader.pure s))

/-- The bytes a scalar of this kind takes. -/
def scalarBytes : ℕ → Option ℕ
  | 0 | 1 | 7 => some 1
  | 2 | 3 => some 2
  | 4 | 5 | 6 => some 4
  | 10 | 11 | 12 => some 8
  | _ => none

/-- The recursion goes no deeper than this depth, which the length of the file bounds: every level
takes twelve bytes. The call stack is taken as unbounded, though enough levels overflow that of a
thread. -/
def skipValue : ℕ → ℕ → Reader Error Unit
  | 0, _ => Reader.exhausted
  | depth + 1, kind =>
    if kind = 8 then Reader.bind readString (fun _ => Reader.pure ())
    else if kind = 9 then
      Reader.bind readU32 (fun element =>
        Reader.bind readU64 (fun count =>
          if count > maxElements then
            Reader.fail (.invalidMetadata "metadata array is unreasonably large")
          else repeated count (skipValue depth element)))
    else
      match scalarBytes kind with
      | some bytes => Reader.bind (readExact .io bytes) (fun _ => Reader.pure ())
      | none => Reader.fail (.invalidMetadata s!"unknown metadata type {kind}")

/-- What the loop of the probe has found. -/
structure Found where
  architecture : Option String
  name : Option String
  deriving DecidableEq

def architectureKey : String := "general.architecture"

def nameKey : String := "general.name"

/-- One round of the loop. -/
def readEntry (depth : ℕ) (found : Found) : Reader Error Found :=
  Reader.bind readString (fun key =>
    Reader.bind readU32 (fun kind =>
      if (key = architectureKey ∨ key = nameKey) ∧ kind = 8 then
        Reader.bind readString (fun value =>
          if key = architectureKey then Reader.pure { found with architecture := some value }
          else Reader.pure { found with name := some value })
      else Reader.bind (skipValue depth kind) (fun _ => Reader.pure found)))

def readEntries (depth : ℕ) : ℕ → Found → Reader Error Found
  | 0, found => Reader.pure found
  | count + 1, found => Reader.bind (readEntry depth found) (readEntries depth count)

/-- The bytes `GGUF`. -/
def magic : List UInt8 := [0x47, 0x47, 0x55, 0x46]

def readHeader (depth : ℕ) : Reader Error Found :=
  Reader.bind (readExact .io 4) (fun start =>
    if start ≠ magic then Reader.fail (.invalidMetadata "missing GGUF magic")
    else Reader.bind readU32 (fun version =>
      if ¬(2 ≤ version ∧ version ≤ 3) then
        Reader.fail (.invalidMetadata s!"unsupported GGUF version {version}")
      else Reader.bind readU64 (fun _tensorCount =>
        Reader.bind readU64 (fun metadataCount =>
          if metadataCount > maxElements then
            Reader.fail (.invalidMetadata "metadata entry count is unreasonably large")
          else readEntries depth metadataCount ⟨none, none⟩))))

/-- The metadata of a file, of which `none` cannot be opened. No value is nested as deep as the
file has bytes, so the bound on the recursion is never reached. -/
def probeGguf (file : Option (List UInt8)) : Option (Except Error ModelMetadata) :=
  match file with
  | none => some (.error .io)
  | some bytes =>
    match readHeader (bytes.length + 1) bytes with
    | none => none
    | some (.error e) => some (.error e)
    | some (.ok (found, _)) =>
      match found.architecture with
      | none => some (.error (.invalidMetadata "general.architecture is absent"))
      | some architecture => some (.ok ⟨architecture, found.name⟩)

section Halting

theorem halts_readU32 (limit : ℕ) : Halts limit 4 readU32 :=
  Halts.bind (Halts.readExact Error.io limit 4) (fun _ _ => Halts.pure _ _)

theorem halts_readU64 (limit : ℕ) : Halts limit 8 readU64 :=
  Halts.bind (Halts.readExact Error.io limit 8) (fun _ _ => Halts.pure _ _)

theorem halts_readString (limit : ℕ) : Halts limit 8 readString := by
  show Halts limit (8 + 0) readString
  apply Halts.bind (halts_readU64 limit)
  intro _ length
  refine Halts.ite (Halts.fail _ _ _) ?_
  apply Halts.after (Halts.readExact Error.io _ length)
  intro _ bytes
  cases stringOfBytes bytes with
  | none => exact Halts.fail _ _ _
  | some s => exact Halts.pure _ s

/-- A nested value starts after the twelve bytes that announce its array. -/
theorem halts_skipValue_of (depth kind : ℕ)
    (h : 12 ≤ depth → ∀ element, Halts (depth - 12) 0 (skipValue depth element)) :
    Halts depth 0 (skipValue (depth + 1) kind) := by
  unfold skipValue
  apply Halts.ite
  · apply Halts.after (halts_readString depth)
    exact fun _ s => Halts.pure _ ()
  apply Halts.ite
  · apply Halts.after (halts_readU32 depth)
    intro hfour element
    apply Halts.after (halts_readU64 (depth - 4))
    intro height count
    refine Halts.ite (Halts.fail _ _ _) (Halts.repeated ?_ count)
    exact (h (by omega) element).weaken (by omega) (Nat.le_refl 0)
  · cases scalarBytes kind with
    | none => exact Halts.fail _ _ _
    | some bytes =>
      apply Halts.after (Halts.readExact Error.io depth bytes)
      exact fun _ _ => Halts.pure _ ()

theorem halts_skipValue (depth kind : ℕ) : Halts depth 0 (skipValue (depth + 1) kind) := by
  induction depth generalizing kind with
  | zero =>
    apply halts_skipValue_of
    intro hlong
    omega
  | succ depth ih =>
    apply halts_skipValue_of
    intro hlong element
    exact (ih element).weaken (by omega) (Nat.le_refl 0)

theorem halts_readEntry (depth : ℕ) (found : Found) :
    Halts depth 0 (readEntry (depth + 1) found) := by
  apply Halts.after (halts_readString depth)
  intro _ key
  apply Halts.after (halts_readU32 _)
  intro _ kind
  apply Halts.ite
  · apply Halts.after (halts_readString _)
    exact fun _ value => Halts.ite (Halts.pure _ _) (Halts.pure _ _)
  · have hskip : Halts (depth - 8 - 4) 0 (skipValue (depth + 1) kind) :=
      (halts_skipValue depth kind).weaken (by omega) (Nat.le_refl 0)
    exact Halts.bind hskip (fun _ _ => Halts.pure _ found)

theorem halts_readEntries (depth count : ℕ) (found : Found) :
    Halts depth 0 (readEntries (depth + 1) count found) := by
  induction count generalizing found with
  | zero => exact Halts.pure depth found
  | succ count ih => exact Halts.bind (halts_readEntry depth found) (fun _ found => ih found)

theorem halts_readHeader (depth : ℕ) : Halts depth 0 (readHeader (depth + 1)) := by
  apply Halts.after (Halts.readExact Error.io depth 4)
  intro _ start
  refine Halts.ite (Halts.fail _ _ _) ?_
  apply Halts.after (halts_readU32 _)
  intro _ version
  refine Halts.ite (Halts.fail _ _ _) ?_
  apply Halts.after (halts_readU64 _)
  intro _ tensorCount
  apply Halts.after (halts_readU64 _)
  intro _ metadataCount
  refine Halts.ite (Halts.fail _ _ _) ?_
  exact (halts_readEntries depth metadataCount _).weaken (by omega) (Nat.le_refl 0)

/-- Whatever the file holds, the probe answers. -/
theorem probeGguf_answers (file : Option (List UInt8)) :
    ∃ answer, probeGguf file = some answer := by
  unfold probeGguf
  cases file with
  | none => exact ⟨_, rfl⟩
  | some bytes =>
    obtain ⟨answer, hanswer, _⟩ := halts_readHeader bytes.length bytes (Nat.le_refl _)
    rcases answer with e | ⟨found, rest⟩
    · simp only [hanswer]
      exact ⟨_, rfl⟩
    · cases harchitecture : found.architecture with
      | none =>
        simp only [hanswer, harchitecture]
        exact ⟨_, rfl⟩
      | some architecture =>
        simp only [hanswer, harchitecture]
        exact ⟨_, rfl⟩

end Halting

end Cusco.GgufProbe
