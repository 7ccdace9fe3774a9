import Cusco.LogicalStore
import Cusco.Sha256

/-!
Persistent token sequences. A sequence is a chain of immutable chunks of which the last may
be visible in part; chunks are shared, and an append starts a new chunk on top of a truncated
one. Lengths, identities and equality each take a shortcut through the chain. The hash state
is the byte string fed so far, and a chunk has the address it was allocated at, which is free
for reuse once no value holds it. Every value built so is the list of its tokens.
-/

namespace Cusco.TokenSequences

open LogicalStore (Token Digest BranchId tag tokenBytes branchId)
open Runs

def logicalChunkTokens : ℕ := 256

/-- A hash state: the bytes it has been fed. -/
structure Sha256 where
  fed : List UInt8
  deriving DecidableEq

namespace Sha256

def new : Sha256 := ⟨[]⟩

def update (hash : Sha256) (bytes : List UInt8) : Sha256 := ⟨hash.fed ++ bytes⟩

def finalize (sha : List UInt8 → Digest) (hash : Sha256) : Digest := sha hash.fed

end Sha256

def emptySequenceHash : Sha256 := Sha256.new.update (tag "cusco-sequence-v2")

def hashTokens (hash : Sha256) (tokens : List Token) : Sha256 :=
  tokens.foldl (fun hash token => hash.update (tokenBytes token)) hash

/-- A chunk, without its parent. -/
structure SequenceChunk where
  address : ℕ
  startLen : ℕ
  tokens : List Token
  startHash : Sha256
  endHash : BranchId
  deriving DecidableEq

/-- An optional tail: a chunk, the parent of the chunk, and how much of it is visible. -/
inductive SequenceTail
  | none
  | some (parent : SequenceTail) (chunk : SequenceChunk) (visible : ℕ)
  deriving DecidableEq

structure PersistentTokenSequence where
  tail : SequenceTail
  deriving DecidableEq

namespace SequenceTail

def visible : SequenceTail → ℕ
  | none => 0
  | some _ _ visible => visible

/-- The tokens from the last one on: those of the chunk below the offset, one after the other,
and then those of its parent. -/
def iterRev : SequenceTail → ℕ → List Token
  | none, _ => []
  | some parent chunk visible, offset + 1 =>
    chunk.tokens.getD offset 0 :: iterRev (some parent chunk visible) offset
  | some parent _ _, 0 => iterRev parent parent.visible
termination_by tail offset => (sizeOf tail, offset)

/-- The first chunk from the end that starts before `len`, visible up to there. -/
def prefixFrom (len : ℕ) : SequenceTail → SequenceTail
  | none => none
  | some parent chunk _ =>
    if len > chunk.startLen then some parent chunk (len - chunk.startLen)
    else prefixFrom len parent

end SequenceTail

/-- `slice::chunks`. -/
def chunksFrom (size : ℕ) : ℕ → List Token → List (List Token)
  | 0, _ => []
  | _ + 1, [] => []
  | fuel + 1, tokens => tokens.take size :: chunksFrom size fuel (tokens.drop size)

def chunks (size : ℕ) (tokens : List Token) : List (List Token) :=
  chunksFrom size tokens.length tokens

def allocated (allocate : ℕ → ℕ) (pieces : List (List Token)) : List (ℕ × List Token) :=
  ((List.range pieces.length).map allocate).zip pieces

namespace PersistentTokenSequence

/-- `PersistentTokenSequence::default`. -/
def empty : PersistentTokenSequence := ⟨.none⟩

def len (s : PersistentTokenSequence) : ℕ :=
  match s.tail with
  | .none => 0
  | .some _ chunk visible => chunk.startLen + visible

def isEmpty (s : PersistentTokenSequence) : Bool :=
  match s.tail with
  | .none => true
  | .some _ _ _ => false

def tokens (s : PersistentTokenSequence) : List Token :=
  (s.tail.iterRev s.tail.visible).reverse

def hashState (s : PersistentTokenSequence) : Sha256 :=
  match s.tail with
  | .none => emptySequenceHash
  | .some _ chunk visible => hashTokens chunk.startHash (chunk.tokens.take visible)

def prefixOf (s : PersistentTokenSequence) (len : ℕ) : Option PersistentTokenSequence :=
  if len > s.len then none else some ⟨s.tail.prefixFrom len⟩

/-- `Arc::ptr_eq` compares the addresses of the chunks. -/
def sharesTail : SequenceTail → SequenceTail → Bool
  | .some _ left visible, .some _ right visible' =>
    visible == visible' && left.address == right.address
  | _, _ => false

def eq (s other : PersistentTokenSequence) : Bool :=
  if s.len ≠ other.len then false
  else if s.isEmpty && other.isEmpty then true
  else if sharesTail s.tail other.tail then true
  else s.tail.iterRev s.tail.visible == other.tail.iterRev other.tail.visible

section Identity

variable (sha : List UInt8 → Digest)

def id (s : PersistentTokenSequence) : BranchId :=
  match s.tail with
  | .none => emptySequenceHash.finalize sha
  | .some _ chunk visible =>
    if visible = chunk.tokens.length then chunk.endHash
    else (hashTokens chunk.startHash (chunk.tokens.take visible)).finalize sha

/-- The loop of `append`: every chunk is allocated on top of the one before it. -/
def appendChunks (s : PersistentTokenSequence) (hash : Sha256) :
    List (ℕ × List Token) → PersistentTokenSequence
  | [] => s
  | (address, tokens) :: rest =>
    let next := hashTokens hash tokens
    let chunk : SequenceChunk := ⟨address, s.len, tokens, hash, next.finalize sha⟩
    appendChunks ⟨.some s.tail chunk chunk.tokens.length⟩ next rest

/-- The `i`-th chunk is allocated at the address `allocate i`. -/
def append (allocate : ℕ → ℕ) (s : PersistentTokenSequence) (tokens : List Token) :
    PersistentTokenSequence :=
  s.appendChunks sha s.hashState (allocated allocate (chunks logicalChunkTokens tokens))

end Identity

end PersistentTokenSequence

open PersistentTokenSequence

/-- The chunks of a chain, each with its parent. -/
def SequenceTail.held : SequenceTail → List (SequenceTail × SequenceChunk)
  | .none => []
  | .some parent chunk _ => (parent, chunk) :: parent.held

/-- The addresses in use. -/
def inUse (values : List PersistentTokenSequence) : List ℕ :=
  (values.flatMap (fun s => s.tail.held)).map (fun held => held.2.address)

inductive Act
  | default
  | append (i : ℕ) (tokens : List Token) (allocate : ℕ → ℕ)
  | prefixOf (i len : ℕ)
  | clone (i : ℕ)
  | drop (i : ℕ)

/-- The addresses of an append are distinct and not in use. -/
def Allocates (values : List PersistentTokenSequence) (allocate : ℕ → ℕ) (n : ℕ) : Prop :=
  ((List.range n).map allocate).Nodup ∧ ∀ i < n, allocate i ∉ inUse values

instance (values : List PersistentTokenSequence) (allocate : ℕ → ℕ) (n : ℕ) :
    Decidable (Allocates values allocate n) :=
  inferInstanceAs (Decidable (_ ∧ _))

section Steps

variable (sha : List UInt8 → Digest)

/-- A value is built, or one is dropped. -/
def act (values : List PersistentTokenSequence) : Act → Option (List PersistentTokenSequence)
  | .default => some (.empty :: values)
  | .append i tokens allocate =>
    match values[i]? with
    | none => none
    | some s =>
      if Allocates values allocate (chunks logicalChunkTokens tokens).length then
        some (s.append sha allocate tokens :: values)
      else none
  | .prefixOf i len =>
    match values[i]? with
    | none => none
    | some s =>
      match s.prefixOf len with
      | none => some values
      | some cut => some (cut :: values)
  | .clone i =>
    match values[i]? with
    | none => none
    | some s => some (s :: values)
  | .drop i => some (values.eraseIdx i)

def Step (values : List PersistentTokenSequence) (a : Act)
    (values' : List PersistentTokenSequence) : Prop :=
  act sha values a = some values'

end Steps

/-- The tokens that are visible. -/
def SequenceTail.content : SequenceTail → List Token
  | .none => []
  | .some parent chunk visible => parent.content ++ chunk.tokens.take visible

/-- The bytes that are hashed for a sequence. -/
def hashed (tokens : List Token) : List UInt8 :=
  tag "cusco-sequence-v2" ++ tokens.flatMap tokenBytes

/-- A chunk starts where its parent is cut, and its hash states are those of the tokens up to
its start and up to its end. -/
structure SoundChunk (sha : List UInt8 → Digest) (parent : List Token) (chunk : SequenceChunk)
    (visible : ℕ) : Prop where
  positive : 0 < visible
  bounded : visible ≤ chunk.tokens.length
  startLen : chunk.startLen = parent.length
  startHash : chunk.startHash.fed = hashed parent
  endHash : chunk.endHash = sha (hashed (parent ++ chunk.tokens))

def SequenceTail.Sound (sha : List UInt8 → Digest) : SequenceTail → Prop
  | .none => True
  | .some parent chunk visible => parent.Sound sha ∧ SoundChunk sha parent.content chunk visible

section Chains

variable {sha : List UInt8 → Digest} {tail : SequenceTail}

theorem fed_hashTokens (hash : Sha256) (tokens : List Token) :
    (hashTokens hash tokens).fed = hash.fed ++ tokens.flatMap tokenBytes := by
  induction tokens generalizing hash with
  | nil => simp [hashTokens]
  | cons token rest ih =>
    change (hashTokens (hash.update (tokenBytes token)) rest).fed = _
    rw [ih, List.flatMap_cons, ← List.append_assoc]
    rfl

theorem hashed_append (tokens more : List Token) :
    hashed (tokens ++ more) = hashed tokens ++ more.flatMap tokenBytes := by
  unfold hashed
  rw [List.flatMap_append, List.append_assoc]

theorem iterRev_chunk (parent : SequenceTail) (chunk : SequenceChunk) (visible offset : ℕ)
    (hbounded : offset ≤ chunk.tokens.length) :
    (SequenceTail.some parent chunk visible).iterRev offset =
      (chunk.tokens.take offset).reverse ++ parent.iterRev parent.visible := by
  induction offset with
  | zero => rw [SequenceTail.iterRev, List.take_zero, List.reverse_nil, List.nil_append]
  | succ offset ih =>
    have hlt : offset < chunk.tokens.length := hbounded
    rw [SequenceTail.iterRev, ih (by omega), List.take_succ_eq_append_getElem hlt,
      List.reverse_append, List.getD_eq_getElem?_getD, List.getElem?_eq_getElem hlt]
    rfl

theorem iterRev_eq (h : tail.Sound sha) : tail.iterRev tail.visible = tail.content.reverse := by
  induction tail with
  | none =>
    rw [SequenceTail.iterRev]
    rfl
  | some parent chunk visible ih =>
    change (SequenceTail.some parent chunk visible).iterRev visible = _
    rw [iterRev_chunk parent chunk visible visible h.2.bounded, ih h.1]
    exact List.reverse_append.symm

theorem tokens_eq (s : PersistentTokenSequence) (h : s.tail.Sound sha) :
    s.tokens = s.tail.content := by
  unfold PersistentTokenSequence.tokens
  rw [iterRev_eq h, List.reverse_reverse]

theorem len_eq (s : PersistentTokenSequence) (h : s.tail.Sound sha) :
    s.len = s.tail.content.length := by
  obtain ⟨tail⟩ := s
  cases tail with
  | none => rfl
  | some parent chunk visible =>
    obtain ⟨-, hchunk⟩ := h
    have hbounded := hchunk.bounded
    simp only [PersistentTokenSequence.len, SequenceTail.content, List.length_append,
      List.length_take, hchunk.startLen]
    omega

theorem isEmpty_iff (s : PersistentTokenSequence) (h : s.tail.Sound sha) :
    s.isEmpty = true ↔ s.tail.content = [] := by
  have hlen := len_eq s h
  obtain ⟨tail⟩ := s
  cases tail with
  | none => exact iff_of_true rfl rfl
  | some parent chunk visible =>
    refine iff_of_false Bool.false_ne_true ?_
    intro hnil
    have hpositive := h.2.positive
    rw [hnil, List.length_nil] at hlen
    simp only [PersistentTokenSequence.len] at hlen
    omega

theorem fed_hashState (s : PersistentTokenSequence) (h : s.tail.Sound sha) :
    s.hashState.fed = hashed s.tail.content := by
  obtain ⟨tail⟩ := s
  cases tail with
  | none =>
    change [] ++ tag "cusco-sequence-v2" = hashed []
    rw [List.nil_append, hashed, List.flatMap_nil, List.append_nil]
  | some parent chunk visible =>
    simp only [PersistentTokenSequence.hashState, SequenceTail.content]
    rw [fed_hashTokens, h.2.startHash, hashed_append]

/-- The cached hash of a whole chunk is the one that would be computed. -/
theorem id_eq (s : PersistentTokenSequence) (h : s.tail.Sound sha) :
    s.id sha = branchId sha s.tail.content := by
  have hstate := fed_hashState s h
  obtain ⟨tail⟩ := s
  cases tail with
  | none => exact congrArg sha hstate
  | some parent chunk visible =>
    simp only [PersistentTokenSequence.id]
    split
    · rename_i hwhole
      rw [h.2.endHash, SequenceTail.content, hwhole, List.take_length]
      rfl
    · exact congrArg sha hstate

end Chains

section Operations

variable {sha : List UInt8 → Digest}

theorem flatten_chunksFrom (size fuel : ℕ) (tokens : List Token) (hsize : 0 < size)
    (hfuel : tokens.length ≤ fuel) : (chunksFrom size fuel tokens).flatten = tokens ∧
      ∀ chunk ∈ chunksFrom size fuel tokens, 0 < chunk.length := by
  induction fuel generalizing tokens with
  | zero =>
    have hnil : tokens = [] := List.eq_nil_of_length_eq_zero (by omega)
    subst hnil
    exact ⟨rfl, fun chunk hchunk => nomatch hchunk⟩
  | succ fuel ih =>
    cases tokens with
    | nil => exact ⟨rfl, fun chunk hchunk => nomatch hchunk⟩
    | cons token rest =>
      obtain ⟨hflat, hpositive⟩ := ih ((token :: rest).drop size)
        (by rw [List.length_drop]; omega)
      refine ⟨?_, ?_⟩
      · change ((token :: rest).take size :: chunksFrom size fuel _).flatten = _
        rw [List.flatten_cons, hflat, List.take_append_drop]
      · intro chunk hchunk
        rcases List.mem_cons.mp hchunk with rfl | hchunk
        · rw [List.length_take, List.length_cons]
          omega
        · exact hpositive chunk hchunk

theorem flatten_chunks (tokens : List Token) : (chunks logicalChunkTokens tokens).flatten = tokens ∧
    ∀ chunk ∈ chunks logicalChunkTokens tokens, 0 < chunk.length :=
  flatten_chunksFrom logicalChunkTokens _ tokens (by decide) le_rfl

/-- The loop of `append` keeps the chain sound, and adds its chunks to the tokens. -/
theorem appendChunks_sound (pieces : List (ℕ × List Token)) (s : PersistentTokenSequence)
    (hash : Sha256) (h : s.tail.Sound sha) (hhash : hash.fed = hashed s.tail.content)
    (hpositive : ∀ piece ∈ pieces, 0 < piece.2.length) :
    (s.appendChunks sha hash pieces).tail.Sound sha ∧
      (s.appendChunks sha hash pieces).tail.content =
        s.tail.content ++ (pieces.map Prod.snd).flatten := by
  induction pieces generalizing s hash with
  | nil => exact ⟨h, (List.append_nil _).symm⟩
  | cons piece rest ih =>
    obtain ⟨address, tokens⟩ := piece
    have hnext : (hashTokens hash tokens).fed = hashed (s.tail.content ++ tokens) := by
      rw [fed_hashTokens, hhash, hashed_append]
    have hcontent : s.tail.content ++ tokens.take tokens.length = s.tail.content ++ tokens := by
      rw [List.take_length]
    have hsound : (SequenceTail.some s.tail ⟨address, s.len, tokens, hash,
        (hashTokens hash tokens).finalize sha⟩ tokens.length).Sound sha :=
      ⟨h, hpositive _ (List.mem_cons_self ..), le_rfl, len_eq s h, hhash, congrArg sha hnext⟩
    obtain ⟨hrest, hmore⟩ := ih ⟨_⟩ (hashTokens hash tokens) hsound (by
        rw [hnext, SequenceTail.content, hcontent])
      (fun piece hpiece => hpositive piece (List.mem_cons_of_mem _ hpiece))
    refine ⟨hrest, hmore.trans ?_⟩
    simp only [SequenceTail.content, List.map_cons, List.flatten_cons, hcontent,
      List.append_assoc]

theorem append_sound (s : PersistentTokenSequence) (h : s.tail.Sound sha) (allocate : ℕ → ℕ)
    (tokens : List Token) : (s.append sha allocate tokens).tail.Sound sha ∧
      (s.append sha allocate tokens).tail.content = s.tail.content ++ tokens := by
  obtain ⟨hflat, hpositive⟩ := flatten_chunks tokens
  have hpieces : (allocated allocate (chunks logicalChunkTokens tokens)).map Prod.snd =
      chunks logicalChunkTokens tokens := by
    unfold allocated
    rw [List.map_snd_zip (by rw [List.length_map, List.length_range])]
  obtain ⟨hsound, hcontent⟩ := appendChunks_sound
    (allocated allocate (chunks logicalChunkTokens tokens)) s s.hashState h (fed_hashState s h) (by
      intro piece hpiece
      apply hpositive
      rw [← hpieces]
      exact List.mem_map_of_mem hpiece)
  refine ⟨hsound, hcontent.trans ?_⟩
  rw [hpieces, hflat]

theorem prefixFrom_sound (len : ℕ) (tail : SequenceTail) (h : tail.Sound sha)
    (hlen : len ≤ tail.content.length) : (tail.prefixFrom len).Sound sha ∧
      (tail.prefixFrom len).content = tail.content.take len := by
  induction tail with
  | none => exact ⟨trivial, List.take_nil.symm⟩
  | some parent chunk visible ih =>
    obtain ⟨hparent, hchunk⟩ := h
    have hstart := hchunk.startLen
    have hbounded := hchunk.bounded
    rw [SequenceTail.content, List.length_append, List.length_take] at hlen
    rw [SequenceTail.prefixFrom, SequenceTail.content]
    by_cases hafter : len > chunk.startLen
    · rw [if_pos hafter]
      refine ⟨⟨hparent, by omega, by omega, hstart, hchunk.startHash, hchunk.endHash⟩, ?_⟩
      have hwhole : parent.content.length ≤ len := by omega
      have hcut : len - parent.content.length ≤ visible := by omega
      rw [SequenceTail.content, List.take_append, List.take_of_length_le hwhole, List.take_take,
        hstart, Nat.min_eq_left hcut]
    · rw [if_neg hafter, List.take_append_of_le_length (by omega)]
      exact ih hparent (by omega)

end Operations

/-- Chunks at one address are one chunk. -/
def Coherent (held : List (SequenceTail × SequenceChunk)) : Prop :=
  ∀ a ∈ held, ∀ b ∈ held, a.2.address = b.2.address → a = b

section Sharing

variable {sha : List UInt8 → Digest} {held held' : List (SequenceTail × SequenceChunk)}

theorem Coherent.subset (h : Coherent held) (hsubset : held' ⊆ held) : Coherent held' :=
  fun a ha b hb haddress => h a (hsubset ha) b (hsubset hb) haddress

theorem Coherent.cons (h : Coherent held) (parent : SequenceTail) (chunk : SequenceChunk)
    (hfresh : ∀ x ∈ held, x.2.address ≠ chunk.address) : Coherent ((parent, chunk) :: held) := by
  intro a ha b hb haddress
  rcases List.mem_cons.mp ha with rfl | ha
  · rcases List.mem_cons.mp hb with rfl | hb
    · rfl
    · exact absurd haddress.symm (hfresh b hb)
  · rcases List.mem_cons.mp hb with rfl | hb
    · exact absurd haddress (hfresh a ha)
    · exact h a ha b hb haddress

/-- The chunks of an append are new, the others are those of the sequence. -/
theorem appendChunks_coherent (pieces : List (ℕ × List Token)) (s : PersistentTokenSequence)
    (hash : Sha256) (held : List (SequenceTail × SequenceChunk)) (hheld : s.tail.held ⊆ held)
    (hcoherent : Coherent held) (hnodup : (pieces.map Prod.fst).Nodup)
    (hfresh : ∀ piece ∈ pieces, ∀ x ∈ held, x.2.address ≠ piece.1) :
    Coherent ((s.appendChunks sha hash pieces).tail.held ++ held) := by
  induction pieces generalizing s hash held with
  | nil =>
    apply hcoherent.subset
    intro x hx
    exact (List.mem_append.mp hx).elim (fun hin => hheld hin) (fun hin => hin)
  | cons piece rest ih =>
    obtain ⟨address, tokens⟩ := piece
    rw [List.map_cons, List.nodup_cons] at hnodup
    have hcons := hcoherent.cons s.tail ⟨address, s.len, tokens, hash,
      (hashTokens hash tokens).finalize sha⟩ (hfresh _ (List.mem_cons_self ..))
    have hrest := ih ⟨.some s.tail ⟨address, s.len, tokens, hash,
      (hashTokens hash tokens).finalize sha⟩ tokens.length⟩ (hashTokens hash tokens) _
      (List.cons_subset_cons _ hheld) hcons hnodup.2
    refine (hrest ?_).subset ?_
    · intro piece hpiece x hx
      rcases List.mem_cons.mp hx with rfl | hx
      · intro heq
        have hmem := List.mem_map_of_mem (f := Prod.fst) hpiece
        rw [← heq] at hmem
        exact hnodup.1 hmem
      · exact hfresh piece (List.mem_cons_of_mem _ hpiece) x hx
    · intro x hx
      rcases List.mem_append.mp hx with hx | hx
      · exact List.mem_append_left _ hx
      · exact List.mem_append_right _ (List.mem_cons_of_mem _ hx)

theorem held_prefixFrom (len : ℕ) (tail : SequenceTail) :
    (tail.prefixFrom len).held ⊆ tail.held := by
  induction tail with
  | none => exact List.Subset.refl _
  | some parent chunk visible ih =>
    rw [SequenceTail.prefixFrom]
    split
    · exact List.Subset.refl _
    · exact List.Subset.trans ih (List.subset_cons_self _ _)

/-- Every value is a sound chain, and what the values share is one chunk. -/
structure Built (sha : List UInt8 → Digest) (values : List PersistentTokenSequence) : Prop where
  sound : ∀ s ∈ values, s.tail.Sound sha
  coherent : Coherent (values.flatMap (fun s => s.tail.held))

variable {values values' : List PersistentTokenSequence}

theorem Built.cons (h : Built sha values) {s : PersistentTokenSequence} (hs : s.tail.Sound sha)
    (hcoherent : Coherent (s.tail.held ++ values.flatMap (fun s => s.tail.held))) :
    Built sha (s :: values) := by
  refine ⟨?_, hcoherent⟩
  intro t ht
  rcases List.mem_cons.mp ht with rfl | ht
  · exact hs
  · exact h.sound t ht

/-- A value whose chunks are in use already. -/
theorem Built.cons_of_held (h : Built sha values) {s t : PersistentTokenSequence}
    (hs : s.tail.Sound sha) (ht : t ∈ values) (hheld : s.tail.held ⊆ t.tail.held) :
    Built sha (s :: values) := by
  refine h.cons hs (h.coherent.subset ?_)
  intro x hx
  rcases List.mem_append.mp hx with hx | hx
  · exact List.mem_flatMap.mpr ⟨t, ht, hheld hx⟩
  · exact hx

theorem Built.append (h : Built sha values) {s : PersistentTokenSequence} (hs : s ∈ values)
    (tokens : List Token) (allocate : ℕ → ℕ)
    (hallocates : Allocates values allocate (chunks logicalChunkTokens tokens).length) :
    Built sha (s.append sha allocate tokens :: values) := by
  refine h.cons (append_sound s (h.sound s hs) allocate tokens).1 ?_
  apply appendChunks_coherent _ _ _ _ ?_ h.coherent
  · unfold allocated
    rw [List.map_fst_zip (by rw [List.length_map, List.length_range])]
    exact hallocates.1
  · intro piece hpiece x hx heq
    obtain ⟨i, hi, hpieceaddress⟩ := List.mem_map.mp (List.of_mem_zip hpiece).1
    apply hallocates.2 i (List.mem_range.mp hi)
    rw [hpieceaddress, ← heq]
    exact List.mem_map_of_mem hx
  · intro x hx
    exact List.mem_flatMap.mpr ⟨s, hs, hx⟩

theorem Built.prefixOf (h : Built sha values) {s cut : PersistentTokenSequence} (hs : s ∈ values)
    {len : ℕ} (hcut : s.prefixOf len = some cut) : Built sha (cut :: values) := by
  obtain ⟨hle, hcut⟩ := Option.ite_none_left_eq_some.mp hcut
  rw [len_eq s (h.sound s hs)] at hle
  cases hcut
  exact h.cons_of_held (prefixFrom_sound len s.tail (h.sound s hs) (by omega)).1 hs
    (held_prefixFrom len s.tail)

theorem built_step (a : Act) (h : Built sha values) (hstep : Step sha values a values') :
    Built sha values' := by
  cases a with
  | default =>
    cases hstep
    exact h.cons trivial h.coherent
  | append i tokens allocate =>
    cases hs : values[i]? with
    | none => simp [Step, act, hs] at hstep
    | some s =>
      simp only [Step, act, hs] at hstep
      obtain ⟨hallocates, hstep⟩ := Option.ite_none_right_eq_some.mp hstep
      cases hstep
      exact h.append (List.mem_of_getElem? hs) tokens allocate hallocates
  | prefixOf i len =>
    cases hs : values[i]? with
    | none => simp [Step, act, hs] at hstep
    | some s =>
      cases hcut : s.prefixOf len with
      | none =>
        simp only [Step, act, hs, hcut] at hstep
        cases hstep
        exact h
      | some cut =>
        simp only [Step, act, hs, hcut] at hstep
        cases hstep
        exact h.prefixOf (List.mem_of_getElem? hs) hcut
  | clone i =>
    cases hs : values[i]? with
    | none => simp [Step, act, hs] at hstep
    | some s =>
      simp only [Step, act, hs] at hstep
      cases hstep
      have hmem := List.mem_of_getElem? hs
      exact h.cons_of_held (h.sound s hmem) hmem (List.Subset.refl _)
  | drop i =>
    cases hstep
    have hsublist := List.eraseIdx_sublist values i
    refine ⟨fun s hs => h.sound s (hsublist.subset hs), h.coherent.subset ?_⟩
    intro x hx
    obtain ⟨s, hs, hx⟩ := List.mem_flatMap.mp hx
    exact List.mem_flatMap.mpr ⟨s, hsublist.subset hs, hx⟩

theorem built_of_reaches (hreach : Reaches (Step sha) [] values) : Built sha values := by
  apply hreach.invariant (Built sha) (fun _ a _ h hstep => built_step a h hstep)
  refine ⟨?_, ?_⟩
  · intro s hs
    cases hs
  · intro x hx
    cases hx

/-- Tails that share their last chunk and show as much of it are equal. -/
theorem Built.tail_eq (h : Built sha values) {s t : PersistentTokenSequence} (hs : s ∈ values)
    (ht : t ∈ values) (hshares : sharesTail s.tail t.tail = true) : s.tail = t.tail := by
  have hheld : ∀ u ∈ values, ∀ x ∈ u.tail.held,
      x ∈ values.flatMap (fun s => s.tail.held) :=
    fun u hu x hx => List.mem_flatMap.mpr ⟨u, hu, hx⟩
  have hleft := hheld s hs
  have hright := hheld t ht
  cases hstail : s.tail with
  | none =>
    rw [hstail] at hshares
    cases hshares
  | some parent chunk visible =>
    cases httail : t.tail with
    | none =>
      rw [hstail, httail] at hshares
      cases hshares
    | some parent' chunk' visible' =>
      rw [hstail] at hshares hleft
      rw [httail] at hshares hright
      obtain ⟨hvisible, haddress⟩ := (Bool.and_eq_true_iff).mp hshares
      have hsame := h.coherent _ (hleft _ (List.mem_cons_self ..)) _
        (hright _ (List.mem_cons_self ..)) (eq_of_beq haddress)
      obtain ⟨rfl, rfl⟩ := Prod.mk.inj hsame
      rw [eq_of_beq hvisible]

theorem Built.eq_iff (h : Built sha values) {s t : PersistentTokenSequence} (hs : s ∈ values)
    (ht : t ∈ values) : s.eq t = true ↔ s.tail.content = t.tail.content := by
  have hsound := h.sound s hs
  have htsound := h.sound t ht
  unfold PersistentTokenSequence.eq
  by_cases hlen : s.len = t.len
  · rw [if_neg (not_not_intro hlen)]
    by_cases hempty : (s.isEmpty && t.isEmpty) = true
    · rw [if_pos hempty]
      obtain ⟨hsempty, htempty⟩ := (Bool.and_eq_true_iff).mp hempty
      rw [(isEmpty_iff s hsound).mp hsempty, (isEmpty_iff t htsound).mp htempty]
      exact iff_of_true rfl rfl
    · rw [if_neg hempty]
      by_cases hshares : sharesTail s.tail t.tail = true
      · rw [if_pos hshares, h.tail_eq hs ht hshares]
        exact iff_of_true rfl rfl
      · rw [if_neg hshares, beq_iff_eq, iterRev_eq hsound, iterRev_eq htsound]
        exact List.reverse_inj
  · rw [if_pos hlen]
    refine iff_of_false Bool.false_ne_true ?_
    intro hcontent
    rw [len_eq s hsound, len_eq t htsound, hcontent] at hlen
    exact hlen rfl

end Sharing

section Refinement

variable {sha : List UInt8 → Digest} {values : List PersistentTokenSequence}

/-- The operations on a value are those on its tokens. -/
structure Refines (sha : List UInt8 → Digest) (s : PersistentTokenSequence) : Prop where
  append : ∀ allocate tokens, (s.append sha allocate tokens).tokens = s.tokens ++ tokens
  prefix_none : ∀ len, s.prefixOf len = none ↔ s.len < len
  prefix_some : ∀ len cut, s.prefixOf len = some cut → cut.tokens = s.tokens.take len
  len : s.len = s.tokens.length
  isEmpty : s.isEmpty = true ↔ s.tokens = []
  id : s.id sha = branchId sha s.tokens

theorem refines_of_sound (s : PersistentTokenSequence) (h : s.tail.Sound sha) : Refines sha s := by
  have htokens := tokens_eq s h
  refine ⟨?_, ?_, ?_, ?_, ?_, ?_⟩
  · intro allocate tokens
    obtain ⟨hsound, hcontent⟩ := append_sound s h allocate tokens
    rw [tokens_eq _ hsound, hcontent, htokens]
  · intro len
    unfold PersistentTokenSequence.prefixOf
    split <;> simp_all
  · intro len cut hcut
    obtain ⟨hle, hcut⟩ := Option.ite_none_left_eq_some.mp hcut
    cases hcut
    rw [len_eq s h] at hle
    obtain ⟨hsound, hcontent⟩ := prefixFrom_sound len s.tail h (by omega)
    rw [tokens_eq _ hsound, hcontent, htokens]
  · rw [htokens, len_eq s h]
  · rw [htokens, isEmpty_iff s h]
  · rw [htokens, id_eq s h]

/-- Values built by appends and prefixes, in any order and sharing any chunks, are their lists
of tokens, and they are equal exactly when these are. -/
theorem values_refine (hreach : Reaches (Step sha) [] values) :
    (∀ s ∈ values, Refines sha s) ∧
      ∀ s ∈ values, ∀ t ∈ values, s.eq t = true ↔ s.tokens = t.tokens := by
  have h := built_of_reaches hreach
  refine ⟨fun s hs => refines_of_sound s (h.sound s hs), ?_⟩
  intro s hs t ht
  rw [h.eq_iff hs ht, tokens_eq s (h.sound s hs), tokens_eq t (h.sound t ht)]

/-- Three tokens, two of them, and another token on top of the two. -/
theorem branch_refines : ∃ values branch, Reaches (Step Sha256.sha256) [] values ∧
    branch ∈ values ∧ branch.tokens = [1, 2, 5] ∧
    branch.id Sha256.sha256 = branchId Sha256.sha256 [1, 2, 5] := by
  let whole := PersistentTokenSequence.empty.append Sha256.sha256 (fun _ => 0) [1, 2, 3]
  let cut : PersistentTokenSequence := ⟨whole.tail.prefixFrom 2⟩
  let branch := cut.append Sha256.sha256 (fun _ => 1) [5]
  have hempty : Reaches (Step Sha256.sha256) [] [.empty] :=
    (Reaches.refl _ _).step (a := .default) rfl
  have hwhole : Reaches (Step Sha256.sha256) [] [whole, .empty] :=
    hempty.step (a := .append 0 [1, 2, 3] (fun _ => 0)) rfl
  have hcut : Reaches (Step Sha256.sha256) [] [cut, whole, .empty] :=
    hwhole.step (a := .prefixOf 0 2) rfl
  have hbranch : Reaches (Step Sha256.sha256) [] [branch, cut, whole, .empty] :=
    hcut.step (a := .append 0 [5] (fun _ => 1)) rfl
  obtain ⟨hrefines, -⟩ := values_refine hbranch
  have h0 := hrefines .empty (by simp)
  have h1 := hrefines whole (by simp)
  have h2 := hrefines cut (by simp)
  have h3 := hrefines branch (by simp)
  have htokens : branch.tokens = [1, 2, 5] := by
    rw [h2.append (fun _ => 1) [5], h1.prefix_some 2 cut rfl, h0.append (fun _ => 0) [1, 2, 3],
      h0.isEmpty.mp rfl]
    rfl
  exact ⟨_, branch, hbranch, by simp, htokens, htokens ▸ h3.id⟩

end Refinement

end Cusco.TokenSequences
