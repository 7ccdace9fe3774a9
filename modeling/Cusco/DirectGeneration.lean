import Cusco.Scheduler

/-!
Direct generation, the loop an engine runs for one request: it steps the session, hands each
token to the sink, and finishes the session when the sink asks to stop. What an engine does
with a request is left open. The deterministic engine gives the words of the prompt backwards,
and over again, until the limit; its control may be in any state at each call.
-/

namespace Cusco.DirectGeneration

open Admission (ControlState)
open Generation (FrontierControl)
open Infer (Error EngineOutput check splitWhitespace)
open Scheduler (SessionStep)

universe u v

/-- What the calls of an engine may return; a step leaves its session in a new state. -/
structure InferenceEngine (R : Type u) (S : Type v) where
  startSession : R → Except Error S → Prop
  step : S → Except Error SessionStep → S → Prop
  finish : S → Except Error EngineOutput → Prop

structure Token where
  id : ℤ
  piece : List UInt8
  terminalOrControl : Bool
  deriving DecidableEq

/-- The answer of a sink to a token, which comes last among all it was handed. -/
abbrev TokenSink := List Token → Except Error FrontierControl

section Loop

variable {R : Type u} {S : Type v} (engine : InferenceEngine R S) (sink : TokenSink) (request : R)

/-- The states of the loop: the tokens handed over, the session, and whether the sink has
yet to answer the last token. -/
inductive Drives : List Token → S → Bool → Prop
  | start (session : S) (h : engine.startSession request (.ok session)) : Drives [] session false
  | progress (toks : List Token) (session session' : S) (charged : ℕ)
      (hdrives : Drives toks session false)
      (h : engine.step session (.ok (.progress charged)) session') : Drives toks session' false
  | token (toks : List Token) (session session' : S) (t : Token) (charged : ℕ)
      (hdrives : Drives toks session false)
      (h : engine.step session (.ok (.token t.id t.piece t.terminalOrControl charged))
        session') : Drives (toks ++ [t]) session' true
  | continues (toks : List Token) (session : S) (hdrives : Drives toks session true)
      (h : sink toks = .ok .continues) : Drives toks session false

/-- What `generate` returns, with the tokens it handed to the sink. -/
inductive Generates : List Token → Except Error EngineOutput → Prop
  | refused (e : Error) (h : engine.startSession request (.error e)) : Generates [] (.error e)
  | failed (toks : List Token) (session session' : S) (e : Error)
      (hdrives : Drives engine sink request toks session false)
      (h : engine.step session (.error e) session') : Generates toks (.error e)
  | finished (toks : List Token) (session session' : S) (output : EngineOutput)
      (hdrives : Drives engine sink request toks session false)
      (h : engine.step session (.ok (.finished output)) session') : Generates toks (.ok output)
  | stopped (toks : List Token) (session : S) (result : Except Error EngineOutput)
      (hdrives : Drives engine sink request toks session true) (hstop : sink toks = .ok .stop)
      (h : engine.finish session result) : Generates toks result
  | unheard (toks : List Token) (session : S) (e : Error)
      (hdrives : Drives engine sink request toks session true) (h : sink toks = .error e) :
      Generates toks (.error e)

/-- Nothing was handed over yet, or the loop has come this far. -/
def Progresses (toks : List Token) : Prop :=
  toks = [] ∨ ∃ session awaits, Drives engine sink request toks session awaits

variable {engine sink request}

theorem Drives.progresses {toks : List Token} {session : S} {awaits : Bool}
    (h : Drives engine sink request toks session awaits) : Progresses engine sink request toks :=
  Or.inr ⟨session, awaits, h⟩

end Loop

section Deterministic

structure DeterministicRequest where
  prompt : List UInt8
  maxTokens : ℕ
  priorTokens : List ℤ
  deriving DecidableEq

structure DeterministicSession where
  request : DeterministicRequest
  pieces : List (List UInt8)
  index : ℕ
  prepared : Bool
  deriving DecidableEq

/-- `as i32`. -/
def asI32 (n : ℕ) : ℤ := Int.bmod n (2 ^ 32)

namespace DeterministicSession

def finish (control : ControlState) (s : DeterministicSession) : Except Error EngineOutput :=
  match check control with
  | .error e => .error e
  | .ok () => .ok ⟨s.request.priorTokens, s.pieces.length, 0, s.pieces.length⟩

/-- The piece of the next token; every piece but the first follows a blank. -/
def nextPiece (s : DeterministicSession) : List UInt8 :=
  let piece := s.pieces.getD (s.index % s.pieces.length) []
  if s.index = 0 then piece else 32 :: piece

def step (control : ControlState) (s : DeterministicSession) :
    Except Error SessionStep × DeterministicSession :=
  match check control with
  | .error e => (.error e, s)
  | .ok () =>
    if !s.prepared then (.ok (.progress s.pieces.length), { s with prepared := true })
    else if s.index ≥ s.request.maxTokens || s.pieces.isEmpty then
      ((s.finish control).map .finished, s)
    else
      (.ok (.token (-(asI32 s.index) - 1) s.nextPiece false 1), { s with index := s.index + 1 })

end DeterministicSession

end Deterministic

end Cusco.DirectGeneration
