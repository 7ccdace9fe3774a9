import Mathlib.Algebra.Group.Nat.Defs
import Mathlib.Tactic.Common

/-!
Readers of byte strings. A reader takes bytes off the front and may fail. A reader whose
recursion is bounded answers `none` where the bound is reached, so that reaching it can be
told from every answer of the program.
-/

namespace Cusco.ByteReaders

def Reader (ε α : Type) : Type := List UInt8 → Option (Except ε (α × List UInt8))

variable {ε α β : Type}

namespace Reader

def pure (a : α) : Reader ε α := fun bytes => some (.ok (a, bytes))

def bind (x : Reader ε α) (f : α → Reader ε β) : Reader ε β := fun bytes =>
  match x bytes with
  | none => none
  | some (.error e) => some (.error e)
  | some (.ok (a, rest)) => f a rest

def fail (e : ε) : Reader ε α := fun _ => some (.error e)

/-- The bound is reached. -/
def exhausted : Reader ε α := fun _ => none

instance : Monad (Reader ε) where
  pure := pure
  bind := bind

end Reader

/-- `Read::read_exact` for this many bytes. -/
def readExact (eof : ε) (n : ℕ) : Reader ε (List UInt8) := fun bytes =>
  if bytes.length < n then some (.error eof) else some (.ok (bytes.take n, bytes.drop n))

def repeated : ℕ → Reader ε Unit → Reader ε Unit
  | 0, _ => Reader.pure ()
  | n + 1, x => Reader.bind x (fun _ => repeated n x)

section Consumes

/-- The reader takes exactly these bytes, whatever follows them. -/
def Consumes (x : Reader ε α) (bytes : List UInt8) (a : α) : Prop :=
  ∀ rest, x (bytes ++ rest) = some (.ok (a, rest))

theorem Consumes.pure (a : α) : Consumes (Reader.pure a : Reader ε α) [] a :=
  fun _ => rfl

theorem Consumes.bind {x : Reader ε α} {f : α → Reader ε β} {first second : List UInt8} {a : α}
    {b : β} (hx : Consumes x first a) (hf : Consumes (f a) second b) :
    Consumes (Reader.bind x f) (first ++ second) b := by
  intro rest
  unfold Reader.bind
  rw [List.append_assoc, hx (second ++ rest)]
  exact hf rest

theorem Consumes.after {x : Reader ε α} {f : α → Reader ε β} {first : List UInt8} {a : α} {b : β}
    (hx : Consumes x first a) (hf : Consumes (f a) [] b) :
    Consumes (Reader.bind x f) first b :=
  List.append_nil first ▸ Consumes.bind hx hf

theorem Consumes.readExact (eof : ε) (bytes : List UInt8) :
    Consumes (readExact eof bytes.length) bytes bytes := by
  intro rest
  have henough : ¬(bytes ++ rest).length < bytes.length := by
    rw [List.length_append]
    omega
  unfold ByteReaders.readExact
  rw [if_neg henough, List.take_left, List.drop_left]

theorem Consumes.map {x : Reader ε α} {bytes : List UInt8} {a : α} (hx : Consumes x bytes a)
    (f : α → β) : Consumes (Reader.bind x (fun a => Reader.pure (f a))) bytes (f a) := by
  have h : Consumes (Reader.bind x (fun a => Reader.pure (f a))) (bytes ++ []) (f a) :=
    hx.bind (Consumes.pure (f a))
  rwa [List.append_nil] at h

end Consumes

section Halts

/-- On at most this many bytes the reader answers, and takes at least so many. -/
def Halts (limit taken : ℕ) (x : Reader ε α) : Prop :=
  ∀ bytes, bytes.length ≤ limit → ∃ answer, x bytes = some answer ∧
    ∀ a rest, answer = .ok (a, rest) → rest.length + taken ≤ bytes.length

theorem Halts.pure (limit : ℕ) (a : α) : Halts limit 0 (Reader.pure a : Reader ε α) := by
  intro bytes _
  refine ⟨_, rfl, ?_⟩
  intro a' rest h
  cases h
  exact Nat.le_refl _

theorem Halts.fail (limit taken : ℕ) (e : ε) : Halts limit taken (Reader.fail e : Reader ε α) := by
  intro bytes _
  refine ⟨_, rfl, ?_⟩
  intro a rest h
  cases h

theorem Halts.weaken {x : Reader ε α} {limit taken : ℕ} (h : Halts limit taken x)
    {limit' taken' : ℕ} (hlimit : limit' ≤ limit) (htaken : taken' ≤ taken) :
    Halts limit' taken' x := by
  intro bytes hbytes
  obtain ⟨answer, hanswer, hrest⟩ := h bytes (by omega)
  refine ⟨answer, hanswer, ?_⟩
  intro a rest hok
  have hle := hrest a rest hok
  omega

theorem Halts.bind {x : Reader ε α} {f : α → Reader ε β} {limit taken more : ℕ}
    (hx : Halts limit taken x) (hf : taken ≤ limit → ∀ a, Halts (limit - taken) more (f a)) :
    Halts limit (taken + more) (Reader.bind x f) := by
  intro bytes hbytes
  obtain ⟨answer, hanswer, hrest⟩ := hx bytes hbytes
  unfold Reader.bind
  rw [hanswer]
  cases answer with
  | error e =>
    refine ⟨.error e, rfl, ?_⟩
    intro a rest h
    cases h
  | ok pair =>
    obtain ⟨a, rest⟩ := pair
    have hle := hrest a rest rfl
    obtain ⟨answer, hanswer, hrest'⟩ := hf (by omega) a rest (by omega)
    refine ⟨answer, hanswer, ?_⟩
    intro b rest' h
    have hle' := hrest' b rest' h
    omega

/-- What is read after a first part need not take anything itself. -/
theorem Halts.after {x : Reader ε α} {f : α → Reader ε β} {limit taken : ℕ}
    (hx : Halts limit taken x) (hf : taken ≤ limit → ∀ a, Halts (limit - taken) 0 (f a)) :
    Halts limit 0 (Reader.bind x f) :=
  (Halts.bind hx hf).weaken (Nat.le_refl limit) (Nat.zero_le _)

theorem Halts.readExact (eof : ε) (limit n : ℕ) : Halts limit n (readExact eof n) := by
  intro bytes _
  unfold ByteReaders.readExact
  by_cases hshort : bytes.length < n
  · rw [if_pos hshort]
    refine ⟨_, rfl, ?_⟩
    intro a rest h
    cases h
  · rw [if_neg hshort]
    refine ⟨_, rfl, ?_⟩
    intro a rest h
    cases h
    rw [List.length_drop]
    omega

theorem Halts.repeated {x : Reader ε Unit} {limit : ℕ} (hx : Halts limit 0 x) (n : ℕ) :
    Halts limit 0 (repeated n x) := by
  induction n with
  | zero => exact Halts.pure limit ()
  | succ n ih => exact Halts.bind hx (fun _ _ => ih)

theorem Halts.ite {p : Prop} [Decidable p] {x y : Reader ε α} {limit taken : ℕ}
    (hx : Halts limit taken x) (hy : Halts limit taken y) :
    Halts limit taken (if p then x else y) := by
  by_cases hp : p
  · rw [if_pos hp]
    exact hx
  · rw [if_neg hp]
    exact hy

end Halts

section Takes

/-- What the reader takes off the front, and what it makes of it, is of this form. -/
def Takes (G : List UInt8 → α → Prop) (x : Reader ε α) : Prop :=
  ∀ bytes a rest, x bytes = some (.ok (a, rest)) → ∃ taken, bytes = taken ++ rest ∧ G taken a

variable {G G' : List UInt8 → α → Prop} {x y : Reader ε α}

theorem Takes.imp (h : Takes G x) (himp : ∀ bytes a, G bytes a → G' bytes a) : Takes G' x := by
  intro bytes a rest hread
  obtain ⟨taken, hbytes, htaken⟩ := h bytes a rest hread
  exact ⟨taken, hbytes, himp taken a htaken⟩

theorem Takes.pure {a : α} (h : G [] a) : Takes G (Reader.pure a : Reader ε α) := by
  intro bytes b rest hread
  cases hread
  exact ⟨[], rfl, h⟩

theorem Takes.fail (e : ε) : Takes G (Reader.fail e : Reader ε α) := by
  intro bytes a rest hread
  cases hread

theorem Takes.exhausted : Takes G (Reader.exhausted : Reader ε α) := by
  intro bytes a rest hread
  cases hread

/-- What is read second follows what is read first. -/
theorem Takes.bind {f : α → Reader ε β} {H : List UInt8 → β → Prop} (hx : Takes G x)
    (hf : ∀ first a, G first a → Takes (fun second b => H (first ++ second) b) (f a)) :
    Takes H (Reader.bind x f) := by
  intro bytes b rest hread
  unfold Reader.bind at hread
  cases hfirst : x bytes with
  | none =>
    rw [hfirst] at hread
    cases hread
  | some answer =>
    rw [hfirst] at hread
    rcases answer with e | ⟨a, after⟩
    · cases hread
    · obtain ⟨first, rfl, ha⟩ := hx bytes a after hfirst
      obtain ⟨second, rfl, hb⟩ := hf first a ha after b rest hread
      exact ⟨first ++ second, (List.append_assoc _ _ _).symm, hb⟩

theorem Takes.ite {p : Prop} [Decidable p] (hx : p → Takes G x) (hy : ¬p → Takes G y) :
    Takes G (if p then x else y) := by
  by_cases hp : p
  · rw [if_pos hp]
    exact hx hp
  · rw [if_neg hp]
    exact hy hp

theorem Takes.readExact (eof : ε) (n : ℕ) :
    Takes (fun bytes a => bytes = a ∧ a.length = n) (readExact eof n) := by
  intro bytes a rest hread
  unfold ByteReaders.readExact at hread
  split_ifs at hread with hshort
  · cases hread
  · cases hread
    refine ⟨bytes.take n, (List.take_append_drop n bytes).symm, rfl, ?_⟩
    rw [List.length_take]
    omega

/-- Pieces of one form after one another. -/
theorem Takes.repeated {P : List UInt8 → Prop} {x : Reader ε Unit}
    (hx : Takes (fun bytes _ => P bytes) x) (n : ℕ) :
    Takes (fun bytes _ => ∃ pieces : List (List UInt8), pieces.length = n ∧
      (∀ piece ∈ pieces, P piece) ∧ bytes = pieces.flatten) (repeated n x) := by
  induction n with
  | zero => exact Takes.pure ⟨[], rfl, fun p hp => absurd hp List.not_mem_nil, rfl⟩
  | succ n ih =>
    refine Takes.bind hx ?_
    intro first _ hfirst
    refine ih.imp ?_
    rintro second _ ⟨pieces, hlength, hpieces, rfl⟩
    refine ⟨first :: pieces, ?_, List.forall_mem_cons.mpr ⟨hfirst, hpieces⟩,
      List.flatten_cons.symm⟩
    rw [List.length_cons, hlength]

end Takes

section LittleEndian

/-- `from_le_bytes`. -/
def fromLeBytes : List UInt8 → ℕ
  | [] => 0
  | b :: rest => b.toNat + 256 * fromLeBytes rest

/-- `to_le_bytes` of a number of this many bytes. -/
def toLeBytes : ℕ → ℕ → List UInt8
  | 0, _ => []
  | width + 1, n => UInt8.ofNat (n % 256) :: toLeBytes width (n / 256)

theorem toLeBytes_length (width n : ℕ) : (toLeBytes width n).length = width := by
  induction width generalizing n with
  | zero => rfl
  | succ width ih => simp only [toLeBytes, List.length_cons, ih]

theorem fromLeBytes_toLeBytes (width n : ℕ) (h : n < 256 ^ width) :
    fromLeBytes (toLeBytes width n) = n := by
  induction width generalizing n with
  | zero =>
    rw [Nat.pow_zero, Nat.lt_one_iff] at h
    rw [h]
    rfl
  | succ width ih =>
    have hquotient : n / 256 < 256 ^ width := by
      rw [Nat.pow_succ] at h
      omega
    have hbyte : (UInt8.ofNat (n % 256)).toNat = n % 256 := by
      simp
    rw [toLeBytes, fromLeBytes, ih (n / 256) hquotient, hbyte]
    omega

theorem toLeBytes_fromLeBytes (bytes : List UInt8) :
    toLeBytes bytes.length (fromLeBytes bytes) = bytes := by
  induction bytes with
  | nil => rfl
  | cons b bytes ih =>
    have hb : b.toNat < 256 := b.toNat_lt
    have hmod : (b.toNat + 256 * fromLeBytes bytes) % 256 = b.toNat := by omega
    have hdiv : (b.toNat + 256 * fromLeBytes bytes) / 256 = fromLeBytes bytes := by omega
    rw [fromLeBytes, List.length_cons, toLeBytes, hmod, hdiv, ih, UInt8.ofNat_toNat]

theorem fromLeBytes_lt (bytes : List UInt8) : fromLeBytes bytes < 256 ^ bytes.length := by
  induction bytes with
  | nil => exact Nat.one_pos
  | cons b bytes ih =>
    have hb : b.toNat < 256 := b.toNat_lt
    rw [fromLeBytes, List.length_cons, Nat.pow_succ]
    omega

end LittleEndian

end Cusco.ByteReaders
