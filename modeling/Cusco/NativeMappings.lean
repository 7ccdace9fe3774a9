import Cusco.Tables
import Mathlib.Algebra.Group.Nat.Defs
import Mathlib.Data.Finset.Basic
import Mathlib.Data.Nat.Notation

/-!
The mapping layer of the native executor. Only the active mapping has a live sequence; the
others keep their tokens in a table, on the mock backend, or as the bytes of a saved
sequence. Handles are numbers that are not used again, and a handle that names no object is
like a null pointer. What llama.cpp answers is part of each call; memory never runs out.
-/

namespace Cusco.NativeMappings

abbrev Token := UInt32

/-- The four bytes of an `int32_t`. -/
def tokenBytes (token : Token) : List UInt8 :=
  [UInt8.ofNat token.toNat, UInt8.ofNat (token.toNat / 2 ^ 8),
    UInt8.ofNat (token.toNat / 2 ^ 16), UInt8.ofNat (token.toNat / 2 ^ 24)]

def bytesOf (tokens : List Token) : List UInt8 := tokens.flatMap tokenBytes

def tokensOf : List UInt8 → List Token
  | a :: b :: c :: d :: rest =>
    UInt32.ofNat (a.toNat + 2 ^ 8 * b.toNat + 2 ^ 16 * c.toNat + 2 ^ 24 * d.toNat) ::
      tokensOf rest
  | _ => []

/-- `llama_state_seq_get_data` and `llama_state_seq_set_data`, when they succeed: a sequence
is copied exactly, and only an empty one may have no bytes. -/
structure StateCodec where
  encode : List Token → List UInt8
  parse : List UInt8 → Option (List Token)
  exact : ∀ tokens, parse (encode tokens) = some tokens
  nothing : ∀ tokens, encode tokens = [] → tokens = []

/-- What `llama_state_seq_set_data` answers; when it fails it leaves a sequence behind. -/
structure SetAnswer where
  succeeds : Bool
  leaves : List Token
  deriving DecidableEq

/-- Whether all bytes are taken, and the sequence afterwards. -/
def setData (codec : StateCodec) (bytes : List UInt8) (answer : SetAnswer) : Bool × List Token :=
  match answer.succeeds, codec.parse bytes with
  | true, some tokens => (true, tokens)
  | _, _ => (false, answer.leaves)

inductive Status
  | ok
  | invalid
  | nomem
  | backend
  | cancelled
  | incompatible
  | rollbackFailed
  | bufferTooSmall
  deriving DecidableEq

/-- `cusco_representation`; its owner is the executor as long as it exists. -/
structure Representation where
  mapping : UInt32
  identity : UInt64
  references : UInt32
  completionFence : UInt64
  state : List UInt8
  deriving DecidableEq

/-- `cusco_prepared_mapping`; a committed one does not exist any more. -/
structure PreparedMapping where
  mapping : UInt32
  state : List UInt8
  deriving DecidableEq

/-- Without a codec this is the mock backend. The sequence zero of llama.cpp is `sequence`. -/
structure Executor where
  codec : Option StateCodec
  sequence : List Token
  mockState : List Token
  mockMappings : Table UInt32 (List Token)
  blockTable : Table UInt32 ℕ
  positions : Table UInt32 UInt64
  publishedMappings : Finset UInt32
  representations : Table UInt32 ℕ
  activeMapping : UInt32
  nextMapping : UInt32
  mappingEpoch : UInt64
  referenceSwitches : UInt64
  mappingForkBytesCopied : UInt64
  mappingExportBytesCopied : UInt64
  mappingImportBytesCopied : UInt64
  completionFence : UInt64
  cancel : Bool

/-- The executor with the objects that handles point to. -/
structure World where
  executor : Executor
  objects : Table ℕ Representation
  prepared : Table ℕ PreparedMapping
  nextHandle : ℕ

/-- What a call returns: its status and what it writes to its out parameters. -/
structure Answer where
  status : Status
  handle : Option ℕ
  written : ℕ
  bytes : List UInt8
  position : UInt64
  deriving DecidableEq

def answered (status : Status) : Answer := ⟨status, none, 0, [], 0⟩

def answeredHandle (handle : ℕ) : Answer := ⟨.ok, some handle, 0, [], 0⟩

/-- `emplace` of a map: a key that is there keeps its value. -/
def emplace {κ ν : Type} [DecidableEq κ] (key : κ) (value : ν) (t : Table κ ν) : Table κ ν :=
  if (t.lookup key).isSome then t else t.insert key value

/-- `cusco_executor_open`. -/
def opened (codec : Option StateCodec) : World where
  executor :=
    { codec := codec
      sequence := []
      mockState := []
      mockMappings := ∅
      blockTable := (∅ : Table UInt32 ℕ).insert 0 0
      positions := (∅ : Table UInt32 UInt64).insert 0 0
      publishedMappings := {0}
      representations := (∅ : Table UInt32 ℕ).insert 0 0
      activeMapping := 0
      nextMapping := 1
      mappingEpoch := 1
      referenceSwitches := 0
      mappingForkBytesCopied := 0
      mappingExportBytesCopied := 0
      mappingImportBytesCopied := 0
      completionFence := 0
      cancel := false }
  objects := (∅ : Table ℕ Representation).insert 0 ⟨0, 0, 1, 0, []⟩
  prepared := ∅
  nextHandle := 1

namespace World

/-- `discard_mapping`. -/
def discardMapping (w : World) (mapping : UInt32) : World :=
  { w with executor := { w.executor with
      blockTable := w.executor.blockTable.erase mapping
      positions := w.executor.positions.erase mapping
      mockMappings := w.executor.mockMappings.erase mapping } }

/-- `valid_representation`: the representation behind a valid handle. Published mappings
always have a representation, so `at` does not throw. -/
def validRepresentation (w : World) (handle : ℕ) : Option Representation :=
  match w.objects.lookup handle with
  | none => none
  | some r =>
    if r.mapping ∈ w.executor.publishedMappings ∧
        w.executor.representations.lookup r.mapping = some handle then some r
    else none

def reclaimRepresentation (w : World) (handle : ℕ) : World :=
  match w.objects.lookup handle with
  | none => w
  | some r =>
    { w with
      executor := { w.executor with
        publishedMappings := w.executor.publishedMappings.erase r.mapping
        blockTable := w.executor.blockTable.erase r.mapping
        positions := w.executor.positions.erase r.mapping
        mockMappings := w.executor.mockMappings.erase r.mapping
        representations := w.executor.representations.erase r.mapping }
      objects := w.objects.erase handle }

def reclaimable (w : World) : List ℕ :=
  (w.executor.representations.entries.filter (fun e =>
    e.1 ≠ w.executor.activeMapping ∧
      (w.objects.lookup e.2).any (fun r => r.references = 0))).map (fun e => e.2)

def reclaimUnreferencedRepresentations (w : World) : World :=
  w.reclaimable.foldl reclaimRepresentation w

def setReferences (references : UInt32) (r : Representation) : Representation :=
  { r with references := references }

def setState (state : List UInt8) (r : Representation) : Representation :=
  { r with state := state }

def representationRetain (w : World) (handle : ℕ) : Answer × World :=
  (answered .ok, { w with
    objects := w.objects.modify handle (fun r => setReferences (r.references + 1) r) })

def representationRelease (w : World) (handle : ℕ) : Answer × World :=
  (answered .ok, { w with
    objects := w.objects.modify handle (fun r => setReferences (r.references - 1) r) })

/-- The active mapping always has a representation. -/
def activeRepresentation (w : World) : Answer × World :=
  match w.executor.representations.lookup w.executor.activeMapping with
  | none => (answered .invalid, w)
  | some handle => (answeredHandle handle, (w.representationRetain handle).2)

/-- `snapshot_active_sequence`: none if llama.cpp does not copy all bytes. -/
def snapshotActiveSequence (codec : StateCodec) (w : World) (copied : Bool) :
    Option (List UInt8) :=
  let required := codec.encode w.executor.sequence
  if required = [] then some []
  else if copied then some required else none

def mockTokens (w : World) (mapping : UInt32) : Option (List Token) :=
  if mapping = w.executor.activeMapping then some w.executor.mockState
  else w.executor.mockMappings.lookup mapping

/-- The state of a fork: it is entered into the tables of the mock backend at once. -/
def forkState (w : World) (source : Representation) (mapping : UInt32) (copied : Bool) :
    Option (List UInt8 × World) :=
  match w.executor.codec with
  | none =>
    (w.mockTokens source.mapping).map (fun state =>
      ([], { w with executor := { w.executor with
          mockMappings := emplace mapping state w.executor.mockMappings
          mappingForkBytesCopied :=
            w.executor.mappingForkBytesCopied + UInt64.ofNat (4 * state.length) } }))
  | some codec =>
    (if source.mapping = w.executor.activeMapping then snapshotActiveSequence codec w copied
    else some source.state).map (fun state =>
      (state, { w with executor := { w.executor with
          mappingForkBytesCopied :=
            w.executor.mappingForkBytesCopied + UInt64.ofNat state.length } }))

/-- `next_mapping++`. -/
def drawMapping (w : World) : World :=
  { w with executor := { w.executor with nextMapping := w.executor.nextMapping + 1 } }

/-- The mapping is discarded when a part of the preparation fails. -/
def prepareFork (w : World) (source : Representation) (mapping : UInt32) (copied : Bool) :
    Answer × World :=
  match w.forkState source mapping copied with
  | none => (answered .backend, w.discardMapping mapping)
  | some (state, forked) =>
    match forked.executor.positions.lookup source.mapping with
    | none => (answered .backend, forked.discardMapping mapping)
    | some position =>
      (answeredHandle forked.nextHandle, { forked with
        executor := { forked.executor with
          blockTable := emplace mapping 0 forked.executor.blockTable
          positions := emplace mapping position forked.executor.positions }
        prepared := forked.prepared.insert forked.nextHandle ⟨mapping, state⟩
        nextHandle := forked.nextHandle + 1 })

def prepareMappingFork (w : World) (source : ℕ) (copied : Bool) : Answer × World :=
  let reclaimed := w.reclaimUnreferencedRepresentations
  match reclaimed.validRepresentation source with
  | none => (answered .invalid, reclaimed)
  | some r => reclaimed.drawMapping.prepareFork r reclaimed.executor.nextMapping copied

def preparedMappingFree (w : World) (fork : ℕ) : Answer × World :=
  match w.prepared.lookup fork with
  | none => (answered .ok, w)
  | some p => (answered .ok, { w.discardMapping p.mapping with prepared := w.prepared.erase fork })

/-- A new representation is entered into the tables. -/
def publish (w : World) (mapping : UInt32) (state : List UInt8) : World :=
  let identity := w.executor.mappingEpoch + 1
  let fence := w.executor.completionFence + 1
  { w with
    executor := { w.executor with
      mappingEpoch := identity
      completionFence := fence
      publishedMappings := insert mapping w.executor.publishedMappings
      representations := emplace mapping w.nextHandle w.executor.representations }
    objects := w.objects.insert w.nextHandle ⟨mapping, identity, 1, fence, state⟩
    nextHandle := w.nextHandle + 1 }

def commitMapping (w : World) (fork : ℕ) : Answer × World :=
  match w.prepared.lookup fork with
  | none => (answered .invalid, w)
  | some p =>
    (answeredHandle w.nextHandle,
      { w.publish p.mapping p.state with prepared := w.prepared.erase fork })

def withActive (w : World) (mapping : UInt32) : World :=
  { w with executor := { w.executor with
    activeMapping := mapping
    referenceSwitches := w.executor.referenceSwitches + 1 } }

/-- The previous representation goes if nothing refers to it. -/
def switched (w : World) (mapping previous : UInt32) (previousHandle : ℕ) : World :=
  if previous ≠ 0 ∧ (w.objects.lookup previousHandle).any (fun r => r.references = 0) then
    (w.withActive mapping).reclaimRepresentation previousHandle
  else w.withActive mapping

def activateMock (w : World) (mapping previous : UInt32) (previousHandle : ℕ) : Answer × World :=
  let saved := w.executor.mockMappings.insert previous w.executor.mockState
  match saved.lookup mapping with
  | none => (answered .backend, { w with executor := { w.executor with mockMappings := saved } })
  | some tokens =>
    (answered .ok, { w with executor := { w.executor with
        mockMappings := saved.erase mapping
        mockState := tokens } }.switched mapping previous previousHandle)

def withSequence (w : World) (sequence : List Token) : World :=
  { w with executor := { w.executor with sequence := sequence } }

def activateSequence (codec : StateCodec) (w : World) (target : ℕ) (representation : Representation)
    (previous : UInt32) (previousHandle : ℕ) (copied : Bool) (set rollback : SetAnswer) :
    Answer × World :=
  match snapshotActiveSequence codec w copied with
  | none => (answered .backend, w)
  | some prior =>
    let moved (sequence : List Token) : Answer × World :=
      (answered .ok, { w.withSequence sequence with
        objects := (w.objects.modify target (setState [])).modify previousHandle
          (setState prior) }.switched representation.mapping previous previousHandle)
    if representation.state = [] then moved []
    else
      let (taken, sequence) := setData codec representation.state set
      if taken then moved sequence
      else if prior = [] then (answered .backend, w.withSequence [])
      else
        let (restored, sequence) := setData codec prior rollback
        (answered (if restored then .backend else .rollbackFailed), w.withSequence sequence)

def activateMapping (w : World) (target : ℕ) (copied : Bool) (set rollback : SetAnswer) :
    Answer × World :=
  match w.validRepresentation target with
  | none => (answered .invalid, w)
  | some r =>
    if r.mapping = w.executor.activeMapping then (answered .ok, w)
    else
      match w.executor.representations.lookup w.executor.activeMapping with
      | none => (answered .backend, w)
      | some previousHandle =>
        match w.executor.codec with
        | none => w.activateMock r.mapping w.executor.activeMapping previousHandle
        | some codec => activateSequence codec w target r w.executor.activeMapping previousHandle
            copied set rollback

/-- What `llama_decode` returns; when it fails it may have processed some of the tokens. -/
structure DecodeAnswer where
  result : Int
  processed : ℕ
  deriving DecidableEq

def decodeMock (w : World) (tokens : List Token) : Answer × World :=
  let state := w.executor.mockState ++ tokens
  (answered .ok, { w with executor := { w.executor with
    mockState := state
    mockMappings := w.executor.mockMappings.insert w.executor.activeMapping state
    positions := w.executor.positions.insert w.executor.activeMapping
      (UInt64.ofNat state.length) } })

def decodeSequence (w : World) (tokens : List Token) (answer : DecodeAnswer) : Answer × World :=
  match w.executor.blockTable.lookup w.executor.activeMapping,
      w.executor.positions.lookup w.executor.activeMapping with
  | some _, some position =>
    if answer.result = 0 then
      (answered .ok, { w with executor := { w.executor with
        sequence := w.executor.sequence ++ tokens
        positions := w.executor.positions.insert w.executor.activeMapping
          (position + UInt64.ofNat tokens.length) } })
    else
      (answered (if answer.result = 2 then .cancelled else .backend),
        w.withSequence (w.executor.sequence ++ tokens.take answer.processed))
  | _, _ => (answered .backend, w)

def decode (w : World) (tokens : List Token) (answer : DecodeAnswer) : Answer × World :=
  if tokens = [] then (answered .invalid, w)
  else
    let taken := { w with executor := { w.executor with cancel := false } }
    if w.executor.cancel then (answered .cancelled, taken)
    else
      match w.executor.codec with
      | none => taken.decodeMock tokens
      | some _ => taken.decodeSequence tokens answer

/-- The bytes of a representation; llama.cpp copies those of the active sequence. -/
def exportedBytes (w : World) (r : Representation) : Option (List UInt8) :=
  match w.executor.codec with
  | none => (w.mockTokens r.mapping).map bytesOf
  | some codec =>
    some (if r.mapping = w.executor.activeMapping then codec.encode w.executor.sequence
      else r.state)

def copiesSequence (w : World) (r : Representation) : Bool :=
  w.executor.codec.isSome && r.mapping = w.executor.activeMapping

def exportMapping (w : World) (source capacity : ℕ) (copied : Bool) : Answer × World :=
  match w.validRepresentation source with
  | none => (answered .invalid, w)
  | some r =>
    match w.exportedBytes r, w.executor.positions.lookup r.mapping with
    | some bytes, some position =>
      if capacity < bytes.length then (⟨.bufferTooSmall, none, bytes.length, [], position⟩, w)
      else if w.copiesSequence r && bytes ≠ [] && !copied then
        (⟨.backend, none, bytes.length, [], position⟩, w)
      else
        (⟨.ok, none, bytes.length, bytes, position⟩, { w with executor := { w.executor with
          mappingExportBytesCopied :=
            w.executor.mappingExportBytesCopied + UInt64.ofNat bytes.length } })
    | _, _ => (answered .backend, w)

/-- The last part of an import. -/
def enterImport (w : World) (mapping : UInt32) (state : List UInt8) (position : UInt64)
    (copiedBytes : ℕ) : Answer × World :=
  (answeredHandle w.nextHandle, { w with executor := { w.executor with
      blockTable := emplace mapping 0 w.executor.blockTable
      positions := emplace mapping position w.executor.positions
      mappingImportBytesCopied :=
        w.executor.mappingImportBytesCopied + UInt64.ofNat copiedBytes } }.publish mapping state)

/-- The bytes are tried on the live sequence, which is restored afterwards. -/
def importSequence (codec : StateCodec) (w : World) (mapping : UInt32) (bytes : List UInt8)
    (position : UInt64) (copied : Bool) (set rollback : SetAnswer) : Answer × World :=
  match snapshotActiveSequence codec w copied with
  | none => (answered .backend, w)
  | some prior =>
    let consumed := (setData codec bytes set).1
    let (restored, sequence) := if prior = [] then (true, []) else setData codec prior rollback
    let rolledBack := w.withSequence sequence
    if !restored then (answered .rollbackFailed, rolledBack)
    else if !consumed then (answered .incompatible, rolledBack)
    else rolledBack.enterImport mapping bytes position
      (2 * bytes.length + 2 * prior.length)

def importInto (w : World) (mapping : UInt32) (bytes : List UInt8) (position : UInt64)
    (copied : Bool) (set rollback : SetAnswer) : Answer × World :=
  match w.executor.codec with
  | none =>
    if bytes.length % 4 ≠ 0 then (answered .incompatible, w)
    else { w with executor := { w.executor with
        mockMappings := emplace mapping (tokensOf bytes) w.executor.mockMappings } }.enterImport
      mapping [] position bytes.length
  | some codec =>
    if bytes = [] then w.enterImport mapping [] position 0
    else importSequence codec w mapping bytes position copied set rollback

def importMapping (w : World) (bytes : List UInt8) (position : UInt64) (copied : Bool)
    (set rollback : SetAnswer) : Answer × World :=
  let reclaimed := w.reclaimUnreferencedRepresentations
  reclaimed.drawMapping.importInto reclaimed.executor.nextMapping bytes position copied set
    rollback

end World

inductive Action
  | prepareMappingFork (source : ℕ) (copied : Bool)
  | commitMapping (fork : ℕ)
  | preparedMappingFree (fork : ℕ)
  | activateMapping (target : ℕ) (copied : Bool) (set rollback : SetAnswer)
  | decode (tokens : List Token) (answer : World.DecodeAnswer)
  | exportMapping (source capacity : ℕ) (copied : Bool)
  | importMapping (bytes : List UInt8) (position : UInt64) (copied : Bool)
      (set rollback : SetAnswer)
  | activeRepresentation
  | representationRetain (handle : ℕ)
  | representationRelease (handle : ℕ)
  | cancel
  | resetCancel
  deriving DecidableEq

def World.withCancel (w : World) (cancel : Bool) : World :=
  { w with executor := { w.executor with cancel := cancel } }

def act (w : World) : Action → Answer × World
  | .prepareMappingFork source copied => w.prepareMappingFork source copied
  | .commitMapping fork => w.commitMapping fork
  | .preparedMappingFree fork => w.preparedMappingFree fork
  | .activateMapping target copied set rollback => w.activateMapping target copied set rollback
  | .decode tokens answer => w.decode tokens answer
  | .exportMapping source capacity copied => w.exportMapping source capacity copied
  | .importMapping bytes position copied set rollback =>
    w.importMapping bytes position copied set rollback
  | .activeRepresentation => w.activeRepresentation
  | .representationRetain handle => w.representationRetain handle
  | .representationRelease handle => w.representationRelease handle
  | .cancel => (answered .ok, w.withCancel true)
  | .resetCancel => (answered .ok, w.withCancel false)

/-- A call and what it returned. -/
structure Returned where
  action : Action
  answer : Answer
  deriving DecidableEq

def Step (w : World) (x : Returned) (w' : World) : Prop := act w x.action = (x.answer, w')

end Cusco.NativeMappings
