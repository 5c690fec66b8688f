import Mathlib.Algebra.Ring.Int.Defs
import Mathlib.Algebra.Ring.Nat
import Mathlib.Data.List.Basic

/-!
# Requests of the Rust server and their lifecycle

`utils/fsm.rs`, the request types and the checks of `to_scheduler_validation.rs`.  A
request carries its lifecycle state; every stage applies its own events.  Byte
contents, the prompt text and the columns of log probabilities are left out.
-/

namespace SparkInfer.Server

/-- The identity of a request; `Rid::from_client` makes it unique. -/
abbrev Rid := ℕ

inductive Error
  | validation (message : String)
  | tokenize (message : String)
  | encode (message : String)
  | detokenize (message : String)
  | queueFull
  | disconnected
  | codec (message : String)
  | internal (message : String)
  deriving DecidableEq, Repr

inductive RequestState
  | received
  | validating
  | normalizing
  | encoding
  | tokenizing
  | preSendValidating
  | queued
  | streaming (chunksSent : ℕ)
  | finalizing
  | completed
  | failed (e : Error)
  | aborted
  deriving DecidableEq, Repr

inductive ValidationOutcome
  | hasMultimodal | needsTokenize | alreadyTokenized
  deriving DecidableEq

inductive Event
  | validated (outcome : ValidationOutcome)
  | needsNormalize
  | encodeDone
  | tokenizeDone
  | preSendValidated
  | schedulerPicked
  | chunk (finish : Bool)
  | finalFrameSent
  | error (e : Error)
  | disconnect

namespace RequestState

def isTerminal : RequestState → Bool
  | .completed | .failed _ | .aborted => true
  | _ => false

/-- `RequestState::apply`; `none` is `TransitionError::Illegal`. -/
def apply (s : RequestState) : Event → Option RequestState
  | .error e => some (if s.isTerminal then s else .failed e)
  | .disconnect => some (if s.isTerminal then s else .aborted)
  | event =>
    match s, event with
    | .received, .validated _ => some .validating
    | .validating, .needsNormalize => some .normalizing
    | .validating, .validated .alreadyTokenized => some .preSendValidating
    | .normalizing, .validated .hasMultimodal => some .encoding
    | .normalizing, .validated .needsTokenize => some .tokenizing
    | .normalizing, .validated .alreadyTokenized => some .preSendValidating
    | .encoding, .encodeDone => some .preSendValidating
    | .tokenizing, .tokenizeDone => some .preSendValidating
    | .preSendValidating, .preSendValidated => some .queued
    | .queued, .schedulerPicked => some (.streaming 0)
    | .streaming n, .chunk false => some (.streaming (n + 1))
    | .streaming _, .chunk true => some .finalizing
    | .finalizing, .finalFrameSent => some .completed
    | _, _ => none

/-- `let _ = state.apply(event)`: an illegal event leaves the state. -/
def after (s : RequestState) (event : Event) : RequestState := (s.apply event).getD s

/-- The text of the states that no request of the intake is in. -/
def debug : RequestState → String
  | .streaming n => s!"Streaming \x7b chunks_sent: {n} \x7d"
  | .finalizing => "Finalizing"
  | .completed => "Completed"
  | .aborted => "Aborted"
  | _ => ""

end RequestState

structure SamplingParams where
  maxNewTokens : Option ℤ
  minNewTokens : ℤ
  noStopTrim : Bool

structure GenerateRequest where
  inputIds : Option (List ℤ)
  /-- `has_multimodal()`: the request carries a usable multimodal payload. -/
  hasMultimodal : Bool
  tokenIdsLogprob : Option (List ℤ)
  returnHiddenStates : Bool
  samplingParams : SamplingParams
  /-- The rid starts with `HEALTH_CHECK_RID_PREFIX`. -/
  isHealthCheck : Bool

namespace GenerateRequest

def alreadyTokenized (g : GenerateRequest) : Bool := g.inputIds.any fun ids => !ids.isEmpty

/-- The request after `take_mm_work`: the ids and the media have moved to the worker. -/
def takeMmWork (g : GenerateRequest) : GenerateRequest :=
  { g with inputIds := none, hasMultimodal := false }

end GenerateRequest

inductive RequestKind
  | generate (g : GenerateRequest)
  | control
  | detokenize (tokenIds : List ℤ)

/-- The flag that `register_detok` carries. -/
def RequestKind.noStopTrim : RequestKind → Bool
  | .generate g => g.samplingParams.noStopTrim
  | .control | .detokenize _ => false

/-- `Request`; its sink is the channel of its rid. -/
structure Request where
  rid : Rid
  clientRidLen : ℕ
  state : RequestState
  kind : RequestKind

variable (req : Request) (limits : Limits)

def Request.apply (event : Event) : Request :=
  { req with state := req.state.after event }

structure Limits where
  skipTokenizerInit : Bool
  vocabSize : ℕ
  contextLen : ℕ
  numReservedTokens : ℕ
  allowAutoTruncate : Bool
  enableReturnHiddenStates : Bool

def maxRidLen : ℕ := 128

/-! ## Validation -/

def outOfVocabulary (vocabSize : ℕ) (ids : List ℤ) : Option ℤ :=
  ids.find? fun id => decide (id < 0 ∨ (vocabSize : ℤ) ≤ id)

def checkIds (g : GenerateRequest) : Except Error Unit := do
  match g.inputIds.bind (outOfVocabulary limits.vocabSize) with
  | some id =>
    throw (.validation (s!"input_ids contains out-of-vocabulary token id {id}; " ++
      s!"valid range is [0, {limits.vocabSize})"))
  | none => pure ()
  match g.tokenIdsLogprob.bind (outOfVocabulary limits.vocabSize) with
  | some id =>
    throw (.validation ("token_ids_logprob contains out-of-vocabulary token id " ++
      s!"{id}; valid range is [0, {limits.vocabSize})"))
  | none => pure ()

def validateKind : Except Error Unit := do
  if req.clientRidLen > maxRidLen then
    throw (.validation s!"rid is {req.clientRidLen} bytes, over the {maxRidLen}-byte limit")
  match req.kind with
  | .generate g =>
    if limits.skipTokenizerInit && !g.alreadyTokenized then
      throw (.validation "skip_tokenizer_init is set: request must provide input_ids")
    checkIds limits g
    if !limits.enableReturnHiddenStates && g.returnHiddenStates then
      throw (.validation ("The server is not configured to return the hidden states. " ++
        "Please set `--enable-return-hidden-states` to enable this feature."))
  | .control => pure ()
  | .detokenize tokenIds =>
    match tokenIds.find? fun id => decide (id < 0 ∨ 2 ^ 32 ≤ id) with
    | some id => throw (.validation s!"Token ID {id} is out of range")
    | none => pure ()

/-- `validate`: the request moves on to `Validating` before anything is checked. -/
def validate : Request × Except Error Unit :=
  (req.apply (.validated .needsTokenize), validateKind req limits)

def GenerateRequest.inputLen (g : GenerateRequest) (limits : Limits) : ℕ :=
  (g.inputIds.map List.length).getD 0 + limits.numReservedTokens

def saturatingAdd (a b : ℕ) : ℕ := min (a + b) (2 ^ 64 - 1)

/-- `check_total_tokens`; it may shorten the ids and lower `max_new_tokens`. -/
def checkTotalTokens (g : GenerateRequest) (limits : Limits) : Except Error GenerateRequest := do
  let inputLen := g.inputLen limits
  if limits.contextLen ≤ inputLen ∧ limits.allowAutoTruncate = false then
    throw (.validation (s!"The input ({inputLen} tokens) is longer than the model's context " ++
      s!"length ({limits.contextLen} tokens)."))
  let g := if limits.contextLen ≤ inputLen then
      { g with inputIds := g.inputIds.map (List.take limits.contextLen) }
    else g
  let inputLen := g.inputLen limits
  match g.samplingParams.maxNewTokens with
  | none => pure g
  | some maxNewTokens =>
    let total := saturatingAdd inputLen (max maxNewTokens 0).toNat
    if total ≤ limits.contextLen then
      return g
    if limits.allowAutoTruncate = false then
      throw (.validation ("Requested token count exceeds the model's maximum context length of " ++
        s!"{limits.contextLen} tokens. You requested a total of {total} tokens: {inputLen} " ++
        s!"tokens from the input messages and {maxNewTokens} tokens for the " ++
        "completion. Please reduce the number of tokens in the input messages or " ++
        "the completion to fit within the limit."))
    let clamped : ℤ := (limits.contextLen - inputLen : ℕ)
    if clamped < g.samplingParams.minNewTokens then
      throw (.validation (s!"min_new_tokens must be in [0, max_new_tokens({clamped})], " ++
        s!"got {g.samplingParams.minNewTokens}"))
    pure { g with samplingParams.maxNewTokens := some clamped }

end SparkInfer.Server
