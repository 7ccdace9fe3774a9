import Mathlib.Data.List.Infix
import Mathlib.Data.List.Sort
import Mathlib.Tactic.Common

/-!
Compaction of a context. The tokens of a context are words of its text; a turn runs from
one role boundary to the next. `window_tail` keeps the turns with a policy anchor and, of
the others, the newest ones that fit.
-/

namespace Cusco.ContextStrategy

/-- A word of the text, as its bytes. -/
abbrev Token := List UInt8

def bytes (s : String) : List UInt8 := s.toUTF8.data.toList

def compactionBlockTokens : ℕ := 64

def windowTailStrategyId : String := "window_tail"

inductive CompactionNoMatchFallback
  | noCompact
  | reject
  deriving DecidableEq

structure CompactionRequest where
  declarationId : Option String
  strategyPreferences : List String
  fallbackWhenNoMatch : CompactionNoMatchFallback
  targetTokens : Option ℕ
  deriving DecidableEq

inductive CompactionResultReason
  | requestSatisfied
  | anchorsOnly
  | budgetTrimmed
  | none
  deriving DecidableEq

structure CompactionResult where
  compactMode : String
  compactReason : CompactionResultReason
  requestedStrategyIds : List String
  selectedStrategyId : Option String
  requestedStrategyBudget : ℕ
  resultingBudget : ℕ
  retainedIndices : List ℕ
  retainedMessageCount : ℕ
  sourceMessageCount : ℕ
  retainedAnchorCount : ℕ
  success : Bool
  fallback : Bool
  resultingContextEpoch : ℕ
  deriving DecidableEq

structure CompactionProposal where
  resultingTokens : List Token
  result : CompactionResult
  deriving DecidableEq

/-- The identifiers in the strategy catalog. -/
def strategyIds : List String := [windowTailStrategyId]

def selectStrategy (preferences : List String) : Option String :=
  if preferences.isEmpty then some windowTailStrategyId
  else preferences.find? (fun requested => strategyIds.contains requested)

theorem selectStrategy_known (preferences : List String) (selected : String)
    (h : selectStrategy preferences = some selected) : selected = windowTailStrategyId := by
  unfold selectStrategy at h
  split at h
  · exact (Option.some.inj h).symm
  · simpa [strategyIds] using List.find?_some h

def deterministicStrategyId (strategy : String) : String := strategy ++ ":v1"

def isRoleBoundary (token : Token) : Bool :=
  decide (bytes "<start_of_turn" <:+: token) || token == bytes "</s>"

/-- The prefixes that make a token an anchor. -/
def isAnchor (token : Token) : Bool :=
  (bytes "<start_of_turn>system").isPrefixOf token ||
    (bytes "<start_of_turn>tool").isPrefixOf token ||
    (bytes "<system").isPrefixOf token || (bytes "<|system|>").isPrefixOf token

/-- Elements are gathered into a turn until the next boundary. -/
def gatherTurns {α : Type} (boundary : α → Bool) : List α → List α → List (List α)
  | [], current => if current.isEmpty then [] else [current]
  | x :: rest, current =>
    if boundary x && !current.isEmpty then current :: gatherTurns boundary rest [x]
    else gatherTurns boundary rest (current ++ [x])

def splitIndexedTurns (tokens : List Token) : List (List (ℕ × Token)) :=
  gatherTurns (fun t => isRoleBoundary t.2) (tokens.zipIdx.map Prod.swap) []

/-- No token still makes one, empty turn. -/
def splitTurns (tokens : List Token) : List (List Token) :=
  let turns := gatherTurns isRoleBoundary tokens []
  if turns.isEmpty then [tokens] else turns

def sourceMessages (tokens : List Token) : ℕ := (splitTurns tokens).length

def anchorIndices (tokens : List Token) : List ℕ :=
  (tokens.zipIdx.filter (fun t => isAnchor t.1)).map Prod.snd

def turnHasPolicyAnchor (turn : List (ℕ × Token)) : Bool := turn.any (fun t => isAnchor t.2)

/-- The turns without an anchor that still fit, newest first. -/
def fitTurns (anchors : List ℕ) (budget : ℕ) :
    List (List (ℕ × Token)) → ℕ → List (ℕ × Token) → ℕ × List (ℕ × Token)
  | [], used, retained => (used, retained)
  | turn :: rest, used, retained =>
    if turn.any (fun t => anchors.contains t.1) then fitTurns anchors budget rest used retained
    else if used + turn.length > budget then fitTurns anchors budget rest used retained
    else fitTurns anchors budget rest (used + turn.length) (retained ++ turn)

def requestedBudget (target : ℕ) : ℕ := max target 1

/-- Budgets of a block or more are rounded down to whole blocks. -/
def selectionBudget (target : ℕ) : ℕ :=
  let requested := requestedBudget target
  if requested ≥ compactionBlockTokens then requested - requested % compactionBlockTokens
  else requested

/-- The tokens used and retained, before they are put back in order. -/
def retainTurns (sourceTokens : List Token) (target : ℕ) : ℕ × List (ℕ × Token) :=
  let turns := splitIndexedTurns sourceTokens
  let anchored := (turns.filter turnHasPolicyAnchor).flatten
  let kept := fitTurns (anchorIndices sourceTokens) (selectionBudget target) turns.reverse
    anchored.length anchored
  if kept.2.isEmpty then
    match turns.getLast? with
    | none => kept
    | some turn =>
      if selectionBudget target < compactionBlockTokens then (turn.length, turn)
      else
        let tail := turn.drop (turn.length - selectionBudget target)
        (tail.length, tail)
  else kept

/-- The proposal for no tokens. -/
def emptyProposal (target : ℕ) (requested : List String) : CompactionProposal where
  resultingTokens := []
  result := {
    compactMode := "window_tail"
    compactReason := .none
    requestedStrategyIds := requested
    selectedStrategyId := some windowTailStrategyId
    requestedStrategyBudget := requestedBudget target
    resultingBudget := 0
    retainedIndices := []
    retainedMessageCount := 0
    sourceMessageCount := 0
    retainedAnchorCount := 0
    success := true
    fallback := false
    resultingContextEpoch := 1 }

/-- The proposal for tokens that all fit. -/
def wholeProposal (sourceTokens : List Token) (target : ℕ) (requested : List String) :
    CompactionProposal where
  resultingTokens := sourceTokens
  result := {
    compactMode := "window_tail"
    compactReason := .requestSatisfied
    requestedStrategyIds := requested
    selectedStrategyId := some windowTailStrategyId
    requestedStrategyBudget := requestedBudget target
    resultingBudget := sourceTokens.length
    retainedIndices := List.range sourceTokens.length
    retainedMessageCount := sourceMessages sourceTokens
    sourceMessageCount := sourceMessages sourceTokens
    retainedAnchorCount := (anchorIndices sourceTokens).length
    success := true
    fallback := false
    resultingContextEpoch := 1 }

/-- The proposal that keeps some turns. -/
def trimmedProposal (sourceTokens : List Token) (target : ℕ) (requested : List String) :
    CompactionProposal :=
  let anchors := anchorIndices sourceTokens
  let usedTokens := (retainTurns sourceTokens target).1
  let retained := (retainTurns sourceTokens target).2.mergeSort (fun a b => decide (a.1 ≤ b.1))
  let retainedIndices := retained.map Prod.fst
  let resultingTokens := retained.map Prod.snd
  { resultingTokens := resultingTokens
    result := {
      compactMode := "window_tail"
      compactReason :=
        if usedTokens > requestedBudget target ||
            (!anchors.isEmpty && !retainedIndices.any (fun index => anchors.contains index)) then
          .anchorsOnly
        else .budgetTrimmed
      requestedStrategyIds := requested
      selectedStrategyId := some windowTailStrategyId
      requestedStrategyBudget := requestedBudget target
      resultingBudget := resultingTokens.length
      retainedIndices := retainedIndices
      retainedMessageCount := (splitTurns resultingTokens).length
      sourceMessageCount := sourceMessages sourceTokens
      retainedAnchorCount := (retainedIndices.filter (fun index => anchors.contains index)).length
      success := true
      fallback := decide (usedTokens > requestedBudget target)
      resultingContextEpoch := 1 } }

def applyWindowTailStrategy (sourceTokens : List Token) (target : ℕ) (requested : List String) :
    Except String CompactionProposal :=
  if sourceTokens.isEmpty then .ok (emptyProposal target requested)
  else if sourceTokens.length ≤ requestedBudget target then
    .ok (wholeProposal sourceTokens target requested)
  else .ok (trimmedProposal sourceTokens target requested)

/-- The strategy never fails. -/
theorem applyWindowTailStrategy_ok (sourceTokens : List Token) (target : ℕ)
    (requested : List String) :
    ∃ proposal, applyWindowTailStrategy sourceTokens target requested = .ok proposal := by
  unfold applyWindowTailStrategy
  split_ifs
  · exact ⟨_, rfl⟩
  · exact ⟨_, rfl⟩
  · exact ⟨_, rfl⟩

end Cusco.ContextStrategy
