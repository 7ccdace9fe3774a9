import Cusco.Utf8
import Mathlib.Data.List.MinMax
import Mathlib.Data.Prod.Lex

/-!
The generation frontier. Pieces of tokens are pushed as they are sampled; the
frontier holds back what may still become a stop string, emits the rest as soon as
it consists of whole characters, and classifies a stop against the boundaries of
the tokens. Text is the list of its bytes, and every push returns the deltas it
emitted. The closure that receives them may refuse, which ends the push.
-/

namespace Cusco.Generation

open Utf8

def maxStopSequences : ℕ := 4
def maxStopBytes : ℕ := 256
def maxEffectiveStopSequences : ℕ := maxStopSequences + 3

inductive FinishReason
  | stop
  | length
  deriving DecidableEq

inductive StopAlignment
  | tokenAligned
  | crossToken
  | intraToken
  deriving DecidableEq

inductive FrontierControl
  | continues
  | stop
  deriving DecidableEq

structure FrontierResult where
  text : List UInt8
  generatedTokens : ℕ
  finishReason : FinishReason
  stopAlignment : Option StopAlignment
  deriving DecidableEq

structure GenerationFrontier where
  stops : List (List UInt8)
  pending : List UInt8
  pendingOffset : ℕ
  tokenBoundaries : List ℕ
  sampledTokens : ℕ
  visible : List UInt8
  strippingLeadingWhitespace : Bool
  finishReason : Option FinishReason
  stopAlignment : Option StopAlignment
  deriving DecidableEq

namespace GenerationFrontier

def withLimit (stops : List Text) (rawContinuation : Bool) (limit : ℕ) :
    Except String GenerationFrontier :=
  if stops.length > limit then .error "too many stop sequences"
  else if stops.any (fun stop => stop.bytes.length = 0 || stop.bytes.length > maxStopBytes) then
    .error "stop sequences must contain 1 to 256 UTF-8 bytes"
  else .ok {
    stops := stops.map Text.bytes
    pending := []
    pendingOffset := 0
    tokenBoundaries := [0]
    sampledTokens := 0
    visible := []
    strippingLeadingWhitespace := !rawContinuation
    finishReason := none
    stopAlignment := none }

def new (stops : List Text) (rawContinuation : Bool) : Except String GenerationFrontier :=
  withLimit stops rawContinuation maxStopSequences

def newEffective (stops : List Text) (rawContinuation : Bool) :
    Except String GenerationFrontier :=
  withLimit stops rawContinuation maxEffectiveStopSequences

/-- `windows(stop.len()).position(|window| window == stop)`. -/
def position (stop text : List UInt8) : Option ℕ :=
  (List.range (text.length + 1 - stop.length)).find?
    (fun start => (text.drop start).take stop.length == stop)

/-- Each stop that occurs, as its first start, its place in the list and its end. -/
def candidates (stops : List (List UInt8)) (text : List UInt8) : List (ℕ × ℕ × ℕ) :=
  stops.zipIdx.filterMap (fun (stop, order) =>
    (position stop text).map (fun start => (start, order, start + stop.length)))

def stopMatch (f : GenerationFrontier) : Option (ℕ × ℕ) :=
  ((candidates f.stops f.pending).argmin (fun c => toLex (c.1, c.2.1))).map
    (fun c => (c.1, c.2.2))

/-- The longest proper prefix of one stop that the text ends with. -/
def possibleSuffix (stop text : List UInt8) : ℕ :=
  let maximum := min (stop.length - 1) text.length
  (((List.range maximum).map (· + 1)).reverse.find?
    (fun length => (stop.take length).isSuffixOf text)).getD 0

def longestPossibleStopSuffix (f : GenerationFrontier) : ℕ :=
  (f.stops.map (fun stop => possibleSuffix stop f.pending)).foldr max 0

def classify (boundaries : List ℕ) (start finish : ℕ) : StopAlignment :=
  if boundaries.contains start && boundaries.contains finish then .tokenAligned
  else if boundaries.any (fun boundary => start < boundary && boundary < finish) then .crossToken
  else .intraToken

def classifyStop (f : GenerationFrontier) (start finish : ℕ) : StopAlignment :=
  classify f.tokenBoundaries start finish

def utf8CompletePrefix (bytes : List UInt8) : ℕ :=
  match validate bytes with
  | .ok => bytes.length
  | .error validUpTo none => validUpTo
  | .error _ (some _) => bytes.length

/-- `pending.drain(..consumed)`. -/
def drain (f : GenerationFrontier) (consumed : ℕ) : GenerationFrontier :=
  { f with
    pending := f.pending.drop consumed
    pendingOffset := f.pendingOffset + consumed }

section Emission

variable {ε : Type} (emit : List UInt8 → Except ε Unit)

/-- The outcome, the frontier after it and the deltas emitted. -/
def emitPrefix (f : GenerationFrontier) (requested : ℕ) (finalFlush : Bool) :
    Except ε Unit × GenerationFrontier × List (List UInt8) :=
  let consumed :=
    if finalFlush then requested else utf8CompletePrefix (f.pending.take requested)
  if consumed = 0 then (.ok (), f, [])
  else
    let rendered := lossy (f.pending.take consumed)
    let delta := if f.strippingLeadingWhitespace then rendered.dropWhile isWhitespace else rendered
    let stripped := { f with
      strippingLeadingWhitespace := f.strippingLeadingWhitespace && delta.flatten.isEmpty }
    if delta.flatten.isEmpty then (.ok (), stripped.drain consumed, [])
    else
      match emit delta.flatten with
      | .error e => (.error e, stripped, [])
      | .ok () => (.ok (), { stripped with visible := f.visible ++ delta.flatten }.drain consumed,
          [delta.flatten])

def push (f : GenerationFrontier) (piece : List UInt8) (terminalOrControl : Bool) :
    Except ε FrontierControl × GenerationFrontier × List (List UInt8) :=
  if f.finishReason.isSome then (.ok .stop, f, [])
  else
    let tokenStart := f.tokenBoundaries.getLast?.getD f.pendingOffset
    let sampled := { f with
      sampledTokens := f.sampledTokens + 1
      tokenBoundaries := f.tokenBoundaries ++ [tokenStart + piece.length] }
    if terminalOrControl then
      match sampled.emitPrefix emit sampled.pending.length true with
      | (.error e, failed, deltas) => (.error e, failed, deltas)
      | (.ok (), flushed, deltas) =>
        (.ok .stop, { flushed with finishReason := some .stop }, deltas)
    else
      let extended := { sampled with pending := sampled.pending ++ piece }
      match extended.stopMatch with
      | some (start, finish) =>
        let absoluteStart := extended.pendingOffset + start
        let absoluteEnd := extended.pendingOffset + finish
        match extended.emitPrefix emit start true with
        | (.error e, failed, deltas) => (.error e, failed, deltas)
        | (.ok (), flushed, deltas) =>
          (.ok .stop, { flushed with
            stopAlignment := some (flushed.classifyStop absoluteStart absoluteEnd)
            pending := []
            pendingOffset := absoluteEnd
            finishReason := some .stop }, deltas)
      | none =>
        let retained := extended.longestPossibleStopSuffix
        match extended.emitPrefix emit (extended.pending.length - retained) false with
        | (.error e, failed, deltas) => (.error e, failed, deltas)
        | (.ok (), shown, deltas) =>
          (.ok .continues, { shown with
            tokenBoundaries := shown.tokenBoundaries.filter
              (fun boundary => shown.pendingOffset ≤ boundary) }, deltas)

def result (f : GenerationFrontier) (finishReason : FinishReason) : FrontierResult :=
  ⟨f.visible, f.sampledTokens, finishReason, f.stopAlignment⟩

def finish (f : GenerationFrontier) : Except ε FrontierResult × List (List UInt8) :=
  match f.finishReason with
  | some reason => (.ok (f.result reason), [])
  | none =>
    match f.emitPrefix emit f.pending.length true with
    | (.error e, _, deltas) => (.error e, deltas)
    | (.ok (), flushed, deltas) => (.ok (flushed.result .length), deltas)

/-- Pieces pushed one after the other, as long as no push fails. -/
def pushAll (f : GenerationFrontier) : List (List UInt8 × Bool) →
    Except ε (List FrontierControl × List (List UInt8) × GenerationFrontier)
  | [] => .ok ([], [], f)
  | (piece, terminalOrControl) :: rest =>
    match f.push emit piece terminalOrControl with
    | (.error e, _, _) => .error e
    | (.ok control, next, deltas) =>
      match next.pushAll rest with
      | .error e => .error e
      | .ok (controls, more, last) => .ok (control :: controls, deltas ++ more, last)

end Emission

end GenerationFrontier

/-- What a whole generation shows: the answer to every push, every delta and the result. -/
structure Generated where
  controls : List FrontierControl
  deltas : List (List UInt8)
  result : FrontierResult
  deriving DecidableEq

/-- Every piece is pushed and then the frontier is finished. -/
def generate {ε : Type} (emit : List UInt8 → Except ε Unit) (f : GenerationFrontier)
    (pushes : List (List UInt8 × Bool)) : Except ε Generated :=
  match f.pushAll emit pushes with
  | .error e => .error e
  | .ok (controls, deltas, last) =>
    match last.finish emit with
    | (.error e, _) => .error e
    | (.ok result, more) => .ok ⟨controls, deltas ++ more, result⟩

end Cusco.Generation
