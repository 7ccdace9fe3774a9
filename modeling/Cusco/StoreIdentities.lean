import Cusco.PublicationIsolation
import Mathlib.Data.Set.Function

/-!
Mapping identities. The byte strings fed to the hash have fixed-width fields, so a
mapping's string determines its epochs and its branch, and a branch's string
determines the tokens. Where the hash takes no two of the strings hashed in a run
to one digest, an identity determines the epochs and the tokens of its mapping.
-/

namespace Cusco.StoreIdentities

open LogicalStore LogicalStore.ContextStore PublicationRuns

/-- The bytes hashed for a branch. -/
def branchBytes (tokens : PersistentTokenSequence) : List UInt8 :=
  tag "cusco-sequence-v2" ++ tokens.flatMap tokenBytes

/-- The bytes hashed for the identity of a mapping. -/
def mappingBytes (m : EvaluatedPrefix) : List UInt8 :=
  tag "cusco-evaluated-prefix-v2" ++ le64 m.modelEpoch.value.toNat ++
    le64 m.adapterEpoch.value.toNat ++ (m.parent.getD zeroDigest).toList ++ m.branch.toList ++
    le64 m.representedEnd ++ [m.requiredComponents.bits] ++ m.evaluationParameters.toList ++
    m.lineage.toList

theorem le64_length (n : ℕ) : (le64 n).length = 8 := by
  simp [le64]

theorem tokenBytes_length (t : Token) : (tokenBytes t).length = 4 := by
  simp [tokenBytes]

theorem byte_injective (a b : ℕ) (h : UInt8.ofNat a = UInt8.ofNat b) : a % 256 = b % 256 := by
  have hnat := congrArg UInt8.toNat h
  simpa using hnat

theorem le64_injective (a b : ℕ) (ha : a < 2 ^ 64) (hb : b < 2 ^ 64) (h : le64 a = le64 b) :
    a = b := by
  have hbyte : ∀ i, i < 8 → a / 256 ^ i % 256 = b / 256 ^ i % 256 := by
    intro i hi
    have hi' := congrArg (fun l => l[i]?) h
    simp only [le64, List.getElem?_map, List.getElem?_range hi, Option.map_some,
      Option.some.injEq] at hi'
    exact byte_injective _ _ hi'
  have h0 := hbyte 0 (by omega)
  have h1 := hbyte 1 (by omega)
  have h2 := hbyte 2 (by omega)
  have h3 := hbyte 3 (by omega)
  have h4 := hbyte 4 (by omega)
  have h5 := hbyte 5 (by omega)
  have h6 := hbyte 6 (by omega)
  have h7 := hbyte 7 (by omega)
  simp only [Nat.reducePow, Nat.div_one] at h0 h1 h2 h3 h4 h5 h6 h7 ha hb
  omega

theorem tokenBytes_injective (a b : Token) (h : tokenBytes a = tokenBytes b) : a = b := by
  have hbyte : ∀ i, i < 4 →
      a.toUInt32.toNat / 256 ^ i % 256 = b.toUInt32.toNat / 256 ^ i % 256 := by
    intro i hi
    have hi' := congrArg (fun l => l[i]?) h
    simp only [tokenBytes, List.getElem?_map, List.getElem?_range hi, Option.map_some,
      Option.some.injEq] at hi'
    exact byte_injective _ _ hi'
  have h0 := hbyte 0 (by omega)
  have h1 := hbyte 1 (by omega)
  have h2 := hbyte 2 (by omega)
  have h3 := hbyte 3 (by omega)
  simp only [Nat.reducePow, Nat.div_one] at h0 h1 h2 h3
  have ha := a.toUInt32.toNat_lt
  have hb := b.toUInt32.toNat_lt
  have hnat : a.toUInt32.toNat = b.toUInt32.toNat := by omega
  exact congrArg Int32.ofUInt32 (UInt32.toNat_inj.mp hnat)

theorem flatMap_tokenBytes_injective (a b : PersistentTokenSequence)
    (h : a.flatMap tokenBytes = b.flatMap tokenBytes) : a = b := by
  induction a generalizing b with
  | nil =>
    cases b with
    | nil => rfl
    | cons t rest =>
      have hlength := congrArg List.length h
      simp only [List.flatMap_nil, List.flatMap_cons, List.length_nil, List.length_append,
        tokenBytes_length] at hlength
      omega
  | cons t rest ih =>
    cases b with
    | nil =>
      have hlength := congrArg List.length h
      simp only [List.flatMap_nil, List.flatMap_cons, List.length_nil, List.length_append,
        tokenBytes_length] at hlength
      omega
    | cons t' rest' =>
      rw [List.flatMap_cons, List.flatMap_cons] at h
      obtain ⟨hhead, htail⟩ := List.append_inj h (by simp [tokenBytes_length])
      rw [tokenBytes_injective t t' hhead, ih rest' htail]

theorem branchBytes_injective (a b : PersistentTokenSequence)
    (h : branchBytes a = branchBytes b) : a = b :=
  flatMap_tokenBytes_injective a b (List.append_cancel_left h)

theorem mappingBytes_determines (m m' : EvaluatedPrefix) (h : mappingBytes m = mappingBytes m') :
    m.epochKey = m'.epochKey ∧ m.branch = m'.branch := by
  unfold mappingBytes at h
  have hdigest : ∀ d d' : Digest, d.toList.length = d'.toList.length := by simp
  obtain ⟨h, -⟩ := List.append_inj' h (hdigest _ _)
  obtain ⟨h, -⟩ := List.append_inj' h (hdigest _ _)
  obtain ⟨h, -⟩ := List.append_inj' h rfl
  obtain ⟨h, -⟩ := List.append_inj' h (by rw [le64_length, le64_length])
  obtain ⟨h, hbranch⟩ := List.append_inj' h (hdigest _ _)
  obtain ⟨h, -⟩ := List.append_inj' h (hdigest _ _)
  obtain ⟨h, hadapter⟩ := List.append_inj' h (by rw [le64_length, le64_length])
  obtain ⟨-, hmodel⟩ := List.append_inj' h (by rw [le64_length, le64_length])
  have hmodel' := le64_injective _ _ m.modelEpoch.value.toNat_lt m'.modelEpoch.value.toNat_lt hmodel
  have hadapter' :=
    le64_injective _ _ m.adapterEpoch.value.toNat_lt m'.adapterEpoch.value.toNat_lt hadapter
  refine ⟨?_, Vector.toList_inj.mp hbranch⟩
  unfold EvaluatedPrefix.epochKey
  congr 1
  · exact congrArg ModelEpoch.mk (UInt64.toNat_inj.mp hmodel')
  · exact congrArg AdapterEpoch.mk (UInt64.toNat_inj.mp hadapter')

end Cusco.StoreIdentities
