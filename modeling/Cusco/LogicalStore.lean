import Cusco.Calls
import Cusco.Tables
import Cusco.Runs
import Cusco.MachineIntegers
import Mathlib.Data.Vector.Basic

/-!
The logical context store. Contexts are token histories with epochs and at most
one evaluated mapping; mappings are immutable prefixes that other mappings may
depend on. A publication is prepared against a context, then validated and
committed later. SHA-256 enters as the function `sha` on the bytes fed to it;
every identity is computed from the same byte strings as the source. A token
sequence is the list of its tokens: chunking only shares storage.
-/

namespace Cusco.LogicalStore

open Calls

abbrev Token := Int32

abbrev Digest := Vector UInt8 32

abbrev BranchId := Digest
abbrev EvaluatedPrefixId := Digest
abbrev DependencyHash := Digest

structure LogicalContextId where
  value : ℕ
  deriving DecidableEq

structure ModelEpoch where
  value : UInt64
  deriving DecidableEq

structure AdapterEpoch where
  value : UInt64
  deriving DecidableEq

structure ComponentMask where
  bits : UInt8
  deriving DecidableEq

namespace ComponentMask

def empty : ComponentMask := ⟨0⟩
def globalKv : ComponentMask := ⟨1⟩
def swa : ComponentMask := ⟨2⟩
def recurrent : ComponentMask := ⟨4⟩

def union (a b : ComponentMask) : ComponentMask := ⟨a.bits ||| b.bits⟩

def contains (a required : ComponentMask) : Bool := a.bits &&& required.bits == required.bits

end ComponentMask

abbrev PersistentTokenSequence := List Token

/-- `PersistentTokenSequence::prefix`. -/
def prefixOf (tokens : PersistentTokenSequence) (len : ℕ) : Option PersistentTokenSequence :=
  if len > tokens.length then none else some (tokens.take len)

structure EvaluatedPrefix where
  id : EvaluatedPrefixId
  branch : BranchId
  representedEnd : ℕ
  modelEpoch : ModelEpoch
  adapterEpoch : AdapterEpoch
  parent : Option EvaluatedPrefixId
  lineage : DependencyHash
  requiredComponents : ComponentMask
  completeComponents : ComponentMask
  evaluationParameters : Digest
  sequence : PersistentTokenSequence
  deriving DecidableEq

structure LogicalContext where
  id : LogicalContextId
  tokens : PersistentTokenSequence
  modelEpoch : ModelEpoch
  adapterEpoch : AdapterEpoch
  evaluated : Option EvaluatedPrefixId
  revision : ℕ
  deriving DecidableEq

structure ReferenceCounts where
  catalog : ℕ
  contexts : ℕ
  dependents : ℕ
  deriving DecidableEq

namespace ReferenceCounts

def addContext (r : ReferenceCounts) : ReferenceCounts := { r with contexts := r.contexts + 1 }

def dropContext (r : ReferenceCounts) : ReferenceCounts := { r with contexts := r.contexts - 1 }

def addDependent (r : ReferenceCounts) : ReferenceCounts :=
  { r with dependents := r.dependents + 1 }

def dropDependent (r : ReferenceCounts) : ReferenceCounts :=
  { r with dependents := r.dependents - 1 }

def dropCatalog (r : ReferenceCounts) : ReferenceCounts := { r with catalog := r.catalog - 1 }

end ReferenceCounts

structure MappingEntry where
  mapping : EvaluatedPrefix
  references : ReferenceCounts
  deriving DecidableEq

structure MappingEpochKey where
  modelEpoch : ModelEpoch
  adapterEpoch : AdapterEpoch
  deriving DecidableEq

structure PreparedPublication where
  context : LogicalContextId
  expectedRevision : ℕ
  expectedCurrent : Option EvaluatedPrefixId
  mapping : EvaluatedPrefix
  deriving DecidableEq

inductive Error
  | contextNotFound
  | prefixOutOfBounds
  | incompatibleEpoch
  | incompleteComponents
  | invalidDependency
  | publicationConflict
  | mappingNotFound
  | identityConflict
  deriving DecidableEq

abbrev PrefixIndex := Table MappingEpochKey (Table ℕ (List EvaluatedPrefixId))

structure ContextStore where
  nextContext : ℕ
  contexts : Table LogicalContextId LogicalContext
  mappings : Table EvaluatedPrefixId MappingEntry
  prefixIndex : PrefixIndex
  deriving DecidableEq

def EvaluatedPrefix.epochKey (m : EvaluatedPrefix) : MappingEpochKey :=
  ⟨m.modelEpoch, m.adapterEpoch⟩

def LogicalContext.epochKey (c : LogicalContext) : MappingEpochKey :=
  ⟨c.modelEpoch, c.adapterEpoch⟩

/-- `u64::to_le_bytes`. -/
def le64 (n : ℕ) : List UInt8 :=
  (List.range 8).map (fun i => UInt8.ofNat (n / 256 ^ i))

/-- `i32::to_le_bytes`. -/
def tokenBytes (t : Token) : List UInt8 :=
  (List.range 4).map (fun i => UInt8.ofNat (t.toUInt32.toNat / 256 ^ i))

section Identity

variable (sha : List UInt8 → Digest)

/-- The bytes of an ASCII domain tag. -/
def tag (text : String) : List UInt8 := text.toList.map (fun c => UInt8.ofNat c.toNat)

/-- `PersistentTokenSequence::id`. -/
def branchId (tokens : PersistentTokenSequence) : BranchId :=
  sha (tag "cusco-sequence-v2" ++ tokens.flatMap tokenBytes)

def dependencyHash (parent : DependencyHash) (branch : BranchId) (representedEnd : ℕ) :
    DependencyHash :=
  sha (tag "cusco-dependency-v2" ++ parent.toList ++ branch.toList ++ le64 representedEnd)

def zeroDigest : Digest := Vector.replicate 32 0

def mappingId (model : ModelEpoch) (adapter : AdapterEpoch)
    (parent : Option EvaluatedPrefixId) (branch : BranchId) (representedEnd : ℕ)
    (components : ComponentMask) (parameters : Digest) (lineage : DependencyHash) :
    EvaluatedPrefixId :=
  sha (tag "cusco-evaluated-prefix-v2" ++ le64 model.value.toNat ++
    le64 adapter.value.toNat ++ (parent.getD zeroDigest).toList ++ branch.toList ++
    le64 representedEnd ++ [components.bits] ++ parameters.toList ++ lineage.toList)

end Identity

namespace ContextStore

/-- `ContextStore::default`. -/
def empty : ContextStore := ⟨0, ∅, ∅, ∅⟩

def create (s : ContextStore) (tokens : PersistentTokenSequence) (modelEpoch : ModelEpoch)
    (adapterEpoch : AdapterEpoch) : Outcome ContextStore Error LogicalContextId :=
  if s.nextContext = u64Max then .panics
  else
    let id : LogicalContextId := ⟨s.nextContext⟩
    .returns (.ok id) { s with
      nextContext := s.nextContext + 1
      contexts := s.contexts.insert id ⟨id, tokens, modelEpoch, adapterEpoch, none, 0⟩ }

def branch (s : ContextStore) (source : LogicalContextId) (at' : ℕ) :
    Outcome ContextStore Error LogicalContextId :=
  match s.contexts.lookup source with
  | none => .returns (.error .contextNotFound) s
  | some context =>
    match prefixOf context.tokens at' with
    | none => .returns (.error .prefixOutOfBounds) s
    | some tokens => s.create tokens context.modelEpoch context.adapterEpoch

def append (s : ContextStore) (id : LogicalContextId) (tokens : List Token) :
    Outcome ContextStore Error Unit :=
  match s.contexts.lookup id with
  | none => .returns (.error .contextNotFound) s
  | some context =>
    if tokens = [] then .returns (.ok ()) s
    else if context.revision = u64Max then .panics
    else .returns (.ok ()) { s with
      contexts := s.contexts.insert id { context with
        tokens := context.tokens ++ tokens
        revision := context.revision + 1 } }

/-- The lengths of one epoch key after a mapping is taken out of its bucket. -/
def trimLengths (lengths : Table ℕ (List EvaluatedPrefixId)) (n : ℕ) (id : EvaluatedPrefixId) :
    Table ℕ (List EvaluatedPrefixId) :=
  match lengths.lookup n with
  | none => lengths
  | some ids =>
    let ids' := ids.filter (fun candidate => candidate ≠ id)
    if ids' = [] then lengths.erase n else lengths.insert n ids'

/-- Take a reclaimed mapping out of the index, dropping levels left empty. -/
def removeFromIndex (index : PrefixIndex) (mapping : EvaluatedPrefix)
    (id : EvaluatedPrefixId) : PrefixIndex :=
  match index.lookup mapping.epochKey with
  | none => index
  | some lengths =>
    let lengths' := trimLengths lengths mapping.representedEnd id
    if lengths'.entries = [] then index.erase mapping.epochKey
    else index.insert mapping.epochKey lengths'

/-- Remove one mapping and give up its reference to its parent. -/
def dropMapping (s : ContextStore) (id : EvaluatedPrefixId) (removed : MappingEntry) :
    ContextStore :=
  let mappings := s.mappings.erase id
  { s with
    mappings := match removed.mapping.parent with
      | none => mappings
      | some parent => mappings.modify parent
          (fun e => { e with references := e.references.dropDependent })
    prefixIndex := removeFromIndex s.prefixIndex removed.mapping id }

/-- The loop of `reclaim`; each round removes a mapping, so the number of
mappings bounds the rounds. -/
def reclaimLoop : ℕ → ContextStore → Option EvaluatedPrefixId → ContextStore
  | 0, s, _ => s
  | _ + 1, s, none => s
  | fuel + 1, s, some id =>
    match s.mappings.lookup id with
    | none => s
    | some entry =>
      if entry.references = ⟨0, 0, 0⟩ then
        reclaimLoop fuel (s.dropMapping id entry) entry.mapping.parent
      else s

def reclaim (s : ContextStore) (id : EvaluatedPrefixId) : ContextStore :=
  reclaimLoop (s.mappings.entries.length + 1) s (some id)

/-- Write a mapping's entry in place. -/
def setEntry (s : ContextStore) (id : EvaluatedPrefixId) (entry : MappingEntry) : ContextStore :=
  { s with mappings := s.mappings.insert id entry }

def adjustContextRefs (s : ContextStore) (id : EvaluatedPrefixId) (increment : Bool) :
    ContextStore :=
  match s.mappings.lookup id with
  | none => s
  | some entry =>
    if increment then
      s.setEntry id { entry with references := entry.references.addContext }
    else
      reclaim (s.setEntry id { entry with references := entry.references.dropContext }) id

def removeContext (s : ContextStore) (id : LogicalContextId) : Outcome ContextStore Error Unit :=
  match s.contexts.lookup id with
  | none => .returns (.error .contextNotFound) s
  | some context =>
    let s' := { s with contexts := s.contexts.erase id }
    match context.evaluated with
    | none => .returns (.ok ()) s'
    | some mapping => .returns (.ok ()) (s'.adjustContextRefs mapping false)

def setEpochs (s : ContextStore) (id : LogicalContextId) (modelEpoch : ModelEpoch)
    (adapterEpoch : AdapterEpoch) : Outcome ContextStore Error Unit :=
  match s.contexts.lookup id with
  | none => .returns (.error .contextNotFound) s
  | some context =>
    if context.modelEpoch = modelEpoch ∧ context.adapterEpoch = adapterEpoch then
      .returns (.ok ()) s
    else if context.revision = u64Max then .panics
    else
      let s' := { s with contexts := s.contexts.insert id { context with
        evaluated := none
        modelEpoch := modelEpoch
        adapterEpoch := adapterEpoch
        revision := context.revision + 1 } }
      match context.evaluated with
      | none => .returns (.ok ()) s'
      | some mapping => .returns (.ok ()) (s'.adjustContextRefs mapping false)

def releaseMapping (s : ContextStore) (id : EvaluatedPrefixId) : Outcome ContextStore Error Unit :=
  match s.mappings.lookup id with
  | none => .returns (.error .mappingNotFound) s
  | some entry =>
    .returns (.ok ())
      (reclaim (s.setEntry id { entry with references := entry.references.dropCatalog }) id)

/-- The walk over the ancestors in `mapping_valid_for_context`. Every round moves
to a smaller `representedEnd`, so `representedEnd + 1` rounds never run out. -/
def ancestorsValid (s : ContextStore) : ℕ → EvaluatedPrefix → Bool
  | 0, _ => false
  | fuel + 1, child =>
    match child.parent with
    | none => true
    | some parentId =>
      match s.mappings.lookup parentId with
      | none => false
      | some entry =>
        if child.representedEnd ≤ entry.mapping.representedEnd ∨
            entry.mapping.modelEpoch ≠ child.modelEpoch ∨
            entry.mapping.adapterEpoch ≠ child.adapterEpoch ∨
            entry.mapping.completeComponents.contains
              entry.mapping.requiredComponents = false then false
        else ancestorsValid s fuel entry.mapping

def mappingValidForContext (s : ContextStore) (mapping : EvaluatedPrefix)
    (context : LogicalContext) (childEnd : Option ℕ) : Bool :=
  if mapping.modelEpoch ≠ context.modelEpoch ∨
      mapping.adapterEpoch ≠ context.adapterEpoch ∨
      mapping.completeComponents.contains mapping.requiredComponents = false ∨
      mapping.representedEnd > context.tokens.length ∨
      childEnd.any (fun e => mapping.representedEnd > e) = true ∨
      prefixOf context.tokens mapping.representedEnd ≠ some mapping.sequence then false
  else ancestorsValid s (mapping.representedEnd + 1) mapping

/-- `min_by_key(|mapping| mapping.id)`: the first of the mappings with the least id. -/
def minById : List EvaluatedPrefix → Option EvaluatedPrefix
  | [] => none
  | m :: rest =>
    match minById rest with
    | none => some m
    | some best => if best.id < m.id then some best else some m

def validMappingFromIds (s : ContextStore) (context : LogicalContext)
    (ids : List EvaluatedPrefixId) : Option EvaluatedPrefix :=
  minById (((ids.filterMap s.mappings.lookup).map MappingEntry.mapping).filter
    (fun m => s.mappingValidForContext m context none))

/-- The stored lengths not above `n`, longest first: `range(..=n).rev()`. -/
def lengthsDown (lengths : Table ℕ (List EvaluatedPrefixId)) (n : ℕ) : List ℕ :=
  (lengths.keys.filter (· ≤ n)).mergeSort (fun a b => b ≤ a)

def longestValidPrefix (s : ContextStore) (id : LogicalContextId) :
    Except Error (Option EvaluatedPrefix) :=
  match s.contexts.lookup id with
  | none => .error .contextNotFound
  | some context =>
    match s.prefixIndex.lookup context.epochKey with
    | none => .ok none
    | some lengths =>
      .ok ((lengthsDown lengths context.tokens.length).findSome? (fun n =>
        (lengths.lookup n).bind (s.validMappingFromIds context)))

section Publication

variable (sha : List UInt8 → Digest)

def preparePublication (s : ContextStore) (contextId : LogicalContextId) (representedEnd : ℕ)
    (parent : Option EvaluatedPrefixId) (requiredComponents completeComponents : ComponentMask)
    (evaluationParameters : Digest) : Except Error PreparedPublication :=
  match s.contexts.lookup contextId with
  | none => .error .contextNotFound
  | some context =>
    if representedEnd > context.tokens.length then .error .prefixOutOfBounds
    else if completeComponents.contains requiredComponents = false then
      .error .incompleteComponents
    else
      let prefix' := context.tokens.take representedEnd
      let parentLineage : Except Error DependencyHash := match parent with
        | none => .ok zeroDigest
        | some id =>
          match s.mappings.lookup id with
          | none => .error .invalidDependency
          | some entry =>
            if representedEnd ≤ entry.mapping.representedEnd ∨
                s.mappingValidForContext entry.mapping context (some representedEnd) = false then
              .error .invalidDependency
            else .ok entry.mapping.lineage
      match parentLineage with
      | .error e => .error e
      | .ok parentLineage =>
        let lineage := dependencyHash sha parentLineage (branchId sha prefix') representedEnd
        .ok {
          context := contextId
          expectedCurrent := context.evaluated
          expectedRevision := context.revision
          mapping := {
            id := mappingId sha context.modelEpoch context.adapterEpoch parent
              (branchId sha prefix') representedEnd requiredComponents evaluationParameters lineage
            branch := branchId sha prefix'
            representedEnd := representedEnd
            modelEpoch := context.modelEpoch
            adapterEpoch := context.adapterEpoch
            parent := parent
            lineage := lineage
            requiredComponents := requiredComponents
            completeComponents := completeComponents
            evaluationParameters := evaluationParameters
            sequence := prefix' } }

end Publication

def validatePublication (s : ContextStore) (prepared : PreparedPublication) : Except Error Unit :=
  match s.contexts.lookup prepared.context with
  | none => .error .contextNotFound
  | some context =>
    if context.evaluated ≠ prepared.expectedCurrent ∨
        context.revision ≠ prepared.expectedRevision then .error .publicationConflict
    else if context.modelEpoch ≠ prepared.mapping.modelEpoch ∨
        context.adapterEpoch ≠ prepared.mapping.adapterEpoch then .error .incompatibleEpoch
    else if prefixOf context.tokens prepared.mapping.representedEnd ≠
        some prepared.mapping.sequence then .error .publicationConflict
    else
      match s.mappings.lookup prepared.mapping.id with
      | some existing =>
        if existing.mapping ≠ prepared.mapping then .error .identityConflict else .ok ()
      | none =>
        match prepared.mapping.parent with
        | none => .ok ()
        | some parent =>
          if s.mappings.lookup parent = none then .error .invalidDependency else .ok ()

/-- `entry(..).or_default().entry(..).or_default().push(id)`. -/
def pushIndex (index : PrefixIndex) (mapping : EvaluatedPrefix) (id : EvaluatedPrefixId) :
    PrefixIndex :=
  let lengths := (index.lookup mapping.epochKey).getD ∅
  let ids := (lengths.lookup mapping.representedEnd).getD []
  index.insert mapping.epochKey (lengths.insert mapping.representedEnd (ids ++ [id]))

/-- The part of `commit_publication` that stores a mapping not yet present. -/
def storeMapping (s : ContextStore) (mapping : EvaluatedPrefix) : Except Error ContextStore :=
  let stored (mappings : Table EvaluatedPrefixId MappingEntry) : ContextStore := { s with
    mappings := mappings.insert mapping.id ⟨mapping, ⟨1, 0, 0⟩⟩
    prefixIndex := pushIndex s.prefixIndex mapping mapping.id }
  match mapping.parent with
  | none => .ok (stored s.mappings)
  | some parent =>
    match s.mappings.lookup parent with
    | none => .error .invalidDependency
    | some entry => .ok (stored (s.mappings.insert parent
        { entry with references := entry.references.addDependent }))

/-- `Ok(self.mappings[&id].mapping.clone())`, which panics when the key is gone. -/
def publishedMapping (s : ContextStore) (id : EvaluatedPrefixId) :
    Outcome ContextStore Error EvaluatedPrefix :=
  match s.mappings.lookup id with
  | none => .panics
  | some entry => .returns (.ok entry.mapping) s

/-- Give up the reference of a context's binding, if it has one. -/
def giveUp (s : ContextStore) (current : Option EvaluatedPrefixId) : ContextStore :=
  match current with
  | none => s
  | some old => s.adjustContextRefs old false

/-- Move the context's binding: the old reference is given up first, then the
new one is taken, then the context is updated. -/
def rebind (s : ContextStore) (contextId : LogicalContextId) (current : Option EvaluatedPrefixId)
    (id : EvaluatedPrefixId) : Option ContextStore :=
  let acquired := (s.giveUp current).adjustContextRefs id true
  match acquired.contexts.lookup contextId with
  | none => none
  | some context =>
    if context.revision = u64Max then none
    else some { acquired with contexts := acquired.contexts.insert contextId { context with
      evaluated := some id
      revision := context.revision + 1 } }

/-- The part of `commit_publication` after the mapping is stored. -/
def bindPublished (s : ContextStore) (contextId : LogicalContextId)
    (current : Option EvaluatedPrefixId) (id : EvaluatedPrefixId) :
    Outcome ContextStore Error EvaluatedPrefix :=
  if current = some id then s.publishedMapping id
  else
    match s.rebind contextId current id with
    | none => .panics
    | some bound => bound.publishedMapping id

def commitPublication (s : ContextStore) (prepared : PreparedPublication) :
    Outcome ContextStore Error EvaluatedPrefix :=
  match s.validatePublication prepared with
  | .error e => .returns (.error e) s
  | .ok () =>
    match s.contexts.lookup prepared.context with
    | none => .panics
    | some context =>
      let id := prepared.mapping.id
      let stored := if s.mappings.lookup id = none then s.storeMapping prepared.mapping else .ok s
      match stored with
      | .error e => .returns (.error e) s
      | .ok stored => stored.bindPublished prepared.context context.evaluated id

end ContextStore

end Cusco.LogicalStore
