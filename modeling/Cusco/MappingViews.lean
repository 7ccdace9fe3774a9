import Cusco.NativeMappings
import Cusco.Sequences

/-!
The executor as a machine of token lists. A representation stands for the live sequence
while it is active, for its row in the table of the mock backend, or for the sequence that
its bytes restore. Tables and objects are linked one to one as long as no mapping number is
in use twice.
-/

namespace Cusco.NativeMappings

open Sequences

variable {w : World}

theorem tokensOf_tokenBytes (token : Token) (rest : List UInt8) :
    tokensOf (tokenBytes token ++ rest) = token :: tokensOf rest := by
  have hlt : token.toNat < 4294967296 := token.toNat_lt
  have htoken : UInt32.ofNat ((UInt8.ofNat token.toNat).toNat +
      2 ^ 8 * (UInt8.ofNat (token.toNat / 2 ^ 8)).toNat +
      2 ^ 16 * (UInt8.ofNat (token.toNat / 2 ^ 16)).toNat +
      2 ^ 24 * (UInt8.ofNat (token.toNat / 2 ^ 24)).toNat) = token := by
    apply UInt32.toNat_inj.mp
    simp only [UInt8.toNat_ofNat', UInt32.toNat_ofNat']
    omega
  exact congrArg (fun first => first :: tokensOf rest) htoken

theorem tokensOf_bytesOf (tokens : List Token) : tokensOf (bytesOf tokens) = tokens := by
  induction tokens with
  | nil => rfl
  | cons token rest ih =>
    change tokensOf (tokenBytes token ++ bytesOf rest) = token :: rest
    rw [tokensOf_tokenBytes, ih]

/-- The sequence that saved bytes restore. -/
def restored (codec : StateCodec) (state : List UInt8) : Option (List Token) :=
  if state = [] then some [] else codec.parse state

theorem restored_encode (codec : StateCodec) (tokens : List Token) :
    restored codec (codec.encode tokens) = some tokens := by
  unfold restored
  by_cases hempty : codec.encode tokens = []
  · rw [if_pos hempty, codec.nothing tokens hempty]
  · rw [if_neg hempty, codec.exact]

/-- What exported bytes stand for. -/
def Represents (codec : Option StateCodec) (bytes : List UInt8) (tokens : List Token) : Prop :=
  match codec with
  | none => tokensOf bytes = tokens
  | some codec => restored codec bytes = some tokens

theorem Represents.unique {codec : Option StateCodec} {bytes : List UInt8} {a b : List Token}
    (ha : Represents codec bytes a) (hb : Represents codec bytes b) : a = b := by
  unfold Represents at ha hb
  cases codec with
  | none => exact ha.symm.trans hb
  | some codec => exact Option.some.inj (ha.symm.trans hb)

namespace World

def tokens (w : World) (mapping : UInt32) (state : List UInt8) : Option (List Token) :=
  match w.executor.codec with
  | none => w.mockTokens mapping
  | some codec =>
    if mapping = w.executor.activeMapping then some w.executor.sequence
    else restored codec state

def content (w : World) (mapping : UInt32) (state : List UInt8) : Option (Content Token) :=
  (w.tokens mapping state).bind (fun tokens =>
    (w.executor.positions.lookup mapping).map (fun position => ⟨tokens, position⟩))

def machine (w : World) : Machine Token where
  published p := (w.validRepresentation p).bind (fun r => w.content r.mapping r.state)
  references p := ((w.objects.lookup p).map Representation.references).getD 0
  forks q := (w.prepared.lookup q).bind (fun f => w.content f.mapping f.state)
  active := (w.executor.representations.lookup w.executor.activeMapping).getD 0
  next := w.nextHandle

/-- What the content of a mapping depends on. -/
structure Agrees (w w' : World) (mapping : UInt32) : Prop where
  codec : w'.executor.codec = w.executor.codec
  active : w'.executor.activeMapping = w.executor.activeMapping
  sequence : w'.executor.sequence = w.executor.sequence
  mockState : w'.executor.mockState = w.executor.mockState
  mockMapping : w'.executor.mockMappings.lookup mapping = w.executor.mockMappings.lookup mapping
  position : w'.executor.positions.lookup mapping = w.executor.positions.lookup mapping

theorem Agrees.content {w w' : World} {mapping : UInt32} (h : Agrees w w' mapping)
    (state : List UInt8) : w'.content mapping state = w.content mapping state := by
  unfold World.content World.tokens World.mockTokens
  rw [h.codec, h.active, h.sequence, h.mockState, h.mockMapping, h.position]

theorem tokens_mock (h : w.executor.codec = none) (state : List UInt8) :
    w.tokens w.executor.activeMapping state = some w.executor.mockState := by
  unfold World.tokens mockTokens
  rw [h]
  exact if_pos rfl

theorem tokens_sequence {codec : StateCodec} (h : w.executor.codec = some codec)
    (state : List UInt8) : w.tokens w.executor.activeMapping state = some w.executor.sequence := by
  unfold World.tokens
  rw [h]
  exact if_pos rfl

theorem tokens_restored {codec : StateCodec} (h : w.executor.codec = some codec) {k : UInt32}
    (hk : k ≠ w.executor.activeMapping) (state : List UInt8) :
    w.tokens k state = restored codec state := by
  unfold World.tokens
  rw [h]
  exact if_neg hk

/-- The content of a mapping that is not active does not depend on the live sequence. -/
theorem content_inactive {w w' : World} {k : UInt32} (hk : k ≠ w.executor.activeMapping)
    (hk' : k ≠ w'.executor.activeMapping) (hcodec : w'.executor.codec = w.executor.codec)
    (hrow : w'.executor.mockMappings.lookup k = w.executor.mockMappings.lookup k)
    (hposition : w'.executor.positions.lookup k = w.executor.positions.lookup k)
    (state : List UInt8) : w'.content k state = w.content k state := by
  unfold content World.tokens mockTokens
  rw [hcodec, if_neg hk, if_neg hk', hrow, hposition]
  cases w.executor.codec with
  | none => rfl
  | some codec =>
    dsimp only
    rw [if_neg hk, if_neg hk']

/-- Objects and tables refer to each other. -/
structure Linked (w : World) : Prop where
  object : ∀ p r, w.objects.lookup p = some r →
    w.executor.representations.lookup r.mapping = some p ∧
      r.mapping ∈ w.executor.publishedMappings
  representation : ∀ k p, w.executor.representations.lookup k = some p →
    ∃ r, w.objects.lookup p = some r ∧ r.mapping = k
  fork : ∀ q f, w.prepared.lookup q = some f →
    w.executor.representations.lookup f.mapping = none
  distinct : ∀ q q' f f', w.prepared.lookup q = some f → w.prepared.lookup q' = some f' →
    f.mapping = f'.mapping → q = q'
  active : ∃ p, w.executor.representations.lookup w.executor.activeMapping = some p
  object_lt : ∀ p r, w.objects.lookup p = some r → p < w.nextHandle
  fork_lt : ∀ q f, w.prepared.lookup q = some f → q < w.nextHandle

/-- Every representation and every fork has a content. -/
structure Inv (w : World) : Prop extends Linked w where
  stored : ∀ p r, w.objects.lookup p = some r → ∃ c, w.content r.mapping r.state = some c
  forked : ∀ q f, w.prepared.lookup q = some f → ∃ c, w.content f.mapping f.state = some c
  unused : ∀ k, w.executor.positions.lookup k = none → w.executor.mockMappings.lookup k = none

theorem Linked.valid (h : w.Linked) (p : ℕ) : w.validRepresentation p = w.objects.lookup p := by
  unfold validRepresentation
  cases hobject : w.objects.lookup p with
  | none => rfl
  | some r =>
    obtain ⟨hrepresentation, hpublished⟩ := h.object p r hobject
    exact if_pos ⟨hpublished, hrepresentation⟩

theorem Linked.published (h : w.Linked) (p : ℕ) :
    w.machine.published p = (w.objects.lookup p).bind (fun r => w.content r.mapping r.state) := by
  unfold machine
  dsimp only
  rw [h.valid p]

/-- The handle of the active representation. -/
theorem Linked.activeObject (h : w.Linked) :
    ∃ p r, w.executor.representations.lookup w.executor.activeMapping = some p ∧
      w.machine.active = p ∧ w.objects.lookup p = some r ∧
      r.mapping = w.executor.activeMapping := by
  obtain ⟨p, hp⟩ := h.active
  obtain ⟨r, hobject, hmapping⟩ := h.representation _ p hp
  refine ⟨p, r, hp, ?_, hobject, hmapping⟩
  unfold machine
  rw [hp]
  rfl

/-- Representations of one mapping are the same. -/
theorem Linked.handle (h : w.Linked) {p q : ℕ} {r s : Representation}
    (hp : w.objects.lookup p = some r) (hq : w.objects.lookup q = some s)
    (hmapping : r.mapping = s.mapping) : p = q := by
  have hsame := (h.object q s hq).1
  rw [← hmapping, (h.object p r hp).1] at hsame
  exact Option.some.inj hsame

theorem Linked.active_iff (h : w.Linked) {p : ℕ} {r : Representation}
    (hp : w.objects.lookup p = some r) :
    p = w.machine.active ↔ r.mapping = w.executor.activeMapping := by
  obtain ⟨a, s, _, hactive, hobject, hmapping⟩ := h.activeObject
  rw [hactive, ← hmapping]
  constructor
  · rintro rfl
    rw [hp] at hobject
    rw [Option.some.inj hobject]
  · exact h.handle hp hobject

theorem Inv.bounded (h : w.Inv) : w.machine.Bounded := by
  refine ⟨?_, ?_⟩
  · intro p hp
    rw [h.published]
    cases hobject : w.objects.lookup p with
    | none => rfl
    | some r => exact absurd (h.object_lt p r hobject) (Nat.not_lt.mpr hp)
  · intro q hq
    unfold machine
    dsimp only
    cases hfork : w.prepared.lookup q with
    | none => rfl
    | some f => exact absurd (h.fork_lt q f hfork) (Nat.not_lt.mpr hq)

/-- A used mapping has a position. -/
theorem position_of_content {k : UInt32} {state : List UInt8} {c : Content Token}
    (h : w.content k state = some c) : w.executor.positions.lookup k = some c.position := by
  obtain ⟨tokens, _, hposition⟩ := Option.bind_eq_some_iff.mp h
  obtain ⟨position, hlookup, rfl⟩ := Option.map_eq_some_iff.mp hposition
  exact hlookup

theorem tokens_of_content {k : UInt32} {state : List UInt8} {c : Content Token}
    (h : w.content k state = some c) : w.tokens k state = some c.tokens := by
  obtain ⟨tokens, htokens, hposition⟩ := Option.bind_eq_some_iff.mp h
  obtain ⟨position, _, rfl⟩ := Option.map_eq_some_iff.mp hposition
  exact htokens

theorem content_of {k : UInt32} {state : List UInt8} {tokens : List Token} {position : UInt64}
    (htokens : w.tokens k state = some tokens)
    (hposition : w.executor.positions.lookup k = some position) :
    w.content k state = some ⟨tokens, position⟩ := by
  unfold content
  rw [htokens, hposition]
  rfl

theorem Inv.representation_none (h : w.Inv) {k : UInt32}
    (hk : w.executor.positions.lookup k = none) :
    w.executor.representations.lookup k = none := by
  cases hrepresentation : w.executor.representations.lookup k with
  | none => rfl
  | some p =>
    obtain ⟨r, hobject, rfl⟩ := h.representation k p hrepresentation
    obtain ⟨c, hcontent⟩ := h.stored p r hobject
    rw [position_of_content hcontent] at hk
    cases hk

end World

theorem inv_opened (codec : Option StateCodec) : (opened codec).Inv := by
  have hobject : ∀ p r, (opened codec).objects.lookup p = some r → p = 0 ∧
      r = ⟨0, 0, 1, 0, []⟩ := by
    intro p r h
    unfold opened at h
    rw [AList.lookup_insert_ite] at h
    by_cases hp : p = 0
    · rw [if_pos hp] at h
      exact ⟨hp, (Option.some.inj h).symm⟩
    · rw [if_neg hp] at h
      cases h
  have hfork : ∀ q f, (opened codec).prepared.lookup q = some f → False :=
    fun q f h => nomatch h
  refine { object := ?_, representation := ?_, fork := ?_, distinct := ?_, active := ?_,
           object_lt := ?_, fork_lt := ?_, stored := ?_, forked := ?_, unused := ?_ }
  · intro p r h
    obtain ⟨rfl, rfl⟩ := hobject p r h
    exact ⟨AList.lookup_insert _, Finset.mem_singleton_self _⟩
  · intro k p h
    change ((∅ : Table UInt32 ℕ).insert 0 0).lookup k = some p at h
    rw [AList.lookup_insert_ite] at h
    by_cases hk : k = 0
    · rw [if_pos hk] at h
      obtain rfl := Option.some.inj h
      exact ⟨_, AList.lookup_insert _, hk.symm⟩
    · rw [if_neg hk] at h
      cases h
  · exact fun q f h => (hfork q f h).elim
  · exact fun q _ f _ h _ _ => (hfork q f h).elim
  · exact ⟨0, AList.lookup_insert _⟩
  · intro p r h
    obtain ⟨rfl, rfl⟩ := hobject p r h
    exact Nat.one_pos
  · exact fun q f h => (hfork q f h).elim
  · intro p r h
    obtain ⟨rfl, rfl⟩ := hobject p r h
    cases codec with
    | none => exact ⟨⟨[], 0⟩, World.content_of rfl (AList.lookup_insert _)⟩
    | some codec => exact ⟨⟨[], 0⟩, World.content_of rfl (AList.lookup_insert _)⟩
  · exact fun q f h => (hfork q f h).elim
  · exact fun _ _ => rfl

end Cusco.NativeMappings
