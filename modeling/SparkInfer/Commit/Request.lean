import Mathlib.Data.Int.Notation
import Mathlib.Data.Nat.Notation
import Mathlib.Logic.Function.Basic

/-!
# Committed tokens

A request on its way through the scheduler (`schedule_batch.py`,
`batch_result_processor.py`): what the host knows of it, what the launched forwards have
sampled and written, and how a result ends the request.

The host runs behind the device: under the overlap schedule the result of a launch is
processed after the next launch.  `seqLen` and `lastToken` are the state of the device,
`row` is what the launched forwards have written: the input token at each position.
-/

namespace SparkInfer.Commit

/-- A token id; a broken forward can sample a negative one. -/
abbrev Token := ℤ

inductive FinishReason
  | matchedToken (matched : Token)
  | matchedStr (matched : String)
  | matchedRegex (matched : String)
  | length (length : ℕ)
  | abort
deriving DecidableEq

structure Params where
  stopTokenIds : List Token
  eosTokenIds : List Token
  tokenizerEos : Option Token
  additionalStopTokenIds : List Token
  ignoreEos : Bool
  vocabSize : Option ℕ
  maxNewTokens : ℕ

/-- A grammar backend: `accept_token`, where none is a `ValueError`, and
`is_terminated`. -/
structure Grammar (G : Type) where
  acceptToken : G → Token → Option G
  isTerminated : G → Bool

/-- How the stop strings and patterns turn out for the text of the output. -/
inductive StrOutcome
  | noMatch
  | matched (reason : FinishReason) (finishedLen : Option ℕ)
  /-- The pattern is invalid: the request is aborted, and the other checks go on. -/
  | invalid

inductive Kind
  | extend
  | decode
  /-- A decode row of an extend batch. -/
  | mixed
  | verify
deriving DecidableEq

/-- The result of a launch, for one request. -/
structure Pending where
  kind : Kind
  tokens : List Token
  retained : Option (List Token)
  grammarAdvanced : Bool

structure Req (G : Type) where
  params : Params
  originInputIds : List Token
  outputIds : List Token
  fillIds : List Token
  prefixLen : ℕ
  extendEnd : ℕ
  kvCommittedLen : ℕ
  holdsKv : Bool
  inflightMiddleChunks : ℕ
  grammar : Option G
  toFinish : Option FinishReason
  finishedReason : Option FinishReason
  finishedLen : Option ℕ
  isRetracted : Bool
  seqLen : ℕ
  lastToken : Token
  row : ℕ → Option Token
  pending : Option Pending

namespace Req

variable {G : Type}

def new (params : Params) (originInputIds : List Token) (grammar : Option G)
    (toFinish : Option FinishReason) : Req G where
  params := params
  originInputIds := originInputIds
  outputIds := []
  fillIds := []
  prefixLen := 0
  extendEnd := 0
  kvCommittedLen := 0
  holdsKv := false
  inflightMiddleChunks := 0
  grammar := grammar
  toFinish := toFinish
  finishedReason := none
  finishedLen := none
  isRetracted := false
  seqLen := 0
  lastToken := 0
  row := fun _ => none
  pending := none

variable (gr : Grammar G) (r : Req G)

def finished : Bool := r.finishedReason.isSome

def refreshFillIds : Req G :=
  let nHaveOutput := r.fillIds.length - r.originInputIds.length
  if r.originInputIds.length ≤ r.fillIds.length ∧ nHaveOutput ≤ r.outputIds.length then
    { r with fillIds := r.fillIds ++ r.outputIds.drop nHaveOutput }
  else { r with fillIds := r.originInputIds ++ r.outputIds }

def getFillIds : List Token := r.fillIds.take r.extendEnd

/-! ## The end of a request -/

def outOfVocab (tokenId : Token) : Bool :=
  tokenId < 0 || r.params.vocabSize.any (fun n => tokenId ≥ n)

/-- The checks see the last tokens of the output; Python reads `[-0:]` as the whole
list. -/
def newAcceptedTokens (newAcceptedLen : ℕ) : List Token :=
  if newAcceptedLen = 0 then r.outputIds
  else r.outputIds.drop (r.outputIds.length - newAcceptedLen)

def sanitize (offset : ℕ) : List Token :=
  let ids := match r.params.stopTokenIds with
    | [] => r.outputIds
    | stop :: _ => r.outputIds.set offset stop
  match r.params.eosTokenIds with
  | [] => ids
  | eos :: _ => ids.set offset eos

variable (newAcceptedTokens : List Token)

def checkVocabBoundaryFinish : Option (Req G) :=
  match newAcceptedTokens.findIdx? r.outOfVocab with
  | none => none
  | some i =>
    let offset := r.outputIds.length - newAcceptedTokens.length + i
    some { r with
      outputIds := r.sanitize offset
      finishedReason := some (.matchedStr "NaN happened")
      finishedLen := some (offset + 1) }

def isStopToken (tokenId : Token) : Bool :=
  tokenId ∈ r.params.stopTokenIds || tokenId ∈ r.params.eosTokenIds ||
    r.params.tokenizerEos = some tokenId || tokenId ∈ r.params.additionalStopTokenIds

def checkTokenBasedFinish : Option (Req G) :=
  if r.params.ignoreEos then none
  else
    match newAcceptedTokens.findIdx? r.isStopToken with
    | none => none
    | some i =>
      some { r with
        finishedReason := some (.matchedToken ((newAcceptedTokens[i]?).getD 0))
        finishedLen := some (r.outputIds.length - newAcceptedTokens.length + i + 1) }

def capFinishedLenAtMaxNewTokens : Req G :=
  match r.finishedLen with
  | some n =>
    if n > r.params.maxNewTokens then
      { r with
        finishedReason := some (.length r.params.maxNewTokens)
        finishedLen := some r.params.maxNewTokens }
    else r
  | none => r

/-- The checks after those of the stop strings. -/
def finishByTokens : Req G :=
  match r.checkTokenBasedFinish newAcceptedTokens with
  | some r => r.capFinishedLenAtMaxNewTokens
  | none =>
    if r.outputIds.length ≥ r.params.maxNewTokens then
      { r with
        finishedReason := some (.length r.params.maxNewTokens)
        finishedLen := some r.params.maxNewTokens }
    else if r.grammar.any gr.isTerminated then
      { r with finishedReason := some (.matchedToken (r.outputIds.getLast?.getD 0)) }
    else r

def updateFinishState (str : StrOutcome) (r : Req G) (newAcceptedLen : ℕ) : Req G :=
  if r.finished then r
  else if r.toFinish.isSome then { r with finishedReason := r.toFinish, toFinish := none }
  else
    let newAcceptedTokens := r.newAcceptedTokens newAcceptedLen
    match r.checkVocabBoundaryFinish newAcceptedTokens with
    | some r => r.capFinishedLenAtMaxNewTokens
    | none =>
      match str with
      | .matched reason finishedLen =>
        { r with finishedReason := some reason, finishedLen := finishedLen }.capFinishedLenAtMaxNewTokens
      | .invalid => { r with finishedReason := some .abort }.finishByTokens gr newAcceptedTokens
      | .noMatch => r.finishByTokens gr newAcceptedTokens

/-! ## Grammars -/

/-- The loop of `_accept_grammar_tokens`: the state, the retained tokens, and whether
`accept_token` raised. -/
def acceptLoop (gr : Grammar G) : G → List Token → G × List Token × Bool
  | g, [] => (g, [], false)
  | g, tokenId :: rest =>
    match gr.acceptToken g tokenId with
    | none => (g, [], true)
    | some g =>
      if gr.isTerminated g then (g, [tokenId], false)
      else
        let (g, retained, failed) := acceptLoop gr g rest
        (g, tokenId :: retained, failed)

def acceptGrammarTokens (tokens : List Token) : Req G × List Token :=
  match r.grammar with
  | none => (r, tokens)
  | some g =>
    let (g, retained, failed) := acceptLoop gr g tokens
    ({ r with grammar := some g, toFinish := if failed then some .abort else r.toFinish }, retained)

/-- `advance_grammar_fsm`, for one request of the batch.  A decode batch without
speculation is left alone. -/
def advanceGrammarFsm (result : Pending) : Req G × Pending :=
  if result.grammarAdvanced ∨ r.grammar.isNone then (r, result)
  else
    match result.kind with
    | .decode => (r, result)
    | .verify =>
      if r.isRetracted || r.finished then (r, { result with grammarAdvanced := true })
      else
        let (r, retained) := r.acceptGrammarTokens gr result.tokens
        (r, { result with retained := some retained, grammarAdvanced := true })
    | _ =>
      if r.isRetracted || r.finished || r.inflightMiddleChunks > 0 then
        (r, { result with grammarAdvanced := true })
      else ((r.acceptGrammarTokens gr result.tokens).1, { result with grammarAdvanced := true })

end Req

end SparkInfer.Commit
