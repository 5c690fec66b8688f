import SparkInfer.Commit.Request
import SparkInfer.Lib.Run

/-!
# The scheduler loop, for one request at a time

One iteration of `event_loop_normal` or `event_loop_overlap`: an abort may come in, the
request is scheduled (which already counts the positions of a plain decode as committed),
launched, and a result is processed: the one of this launch, or, with overlap, the one
of the iteration before.  Requests meet only in the prefix cache, so the iterations of
different requests can be taken in any order.

What the model decides is passed in: the sampled tokens, the drafts and how many of them
are accepted, the verdicts on stop strings, and which cached entry each position of a
matched row comes from.
-/

namespace SparkInfer.Commit

structure Config (G : Type) where
  overlap : Bool
  spec : Bool
  pageSize : ℕ
  grammar : Grammar G

/-- What was handed to the radix tree: the token ids of the key, the handled length, and
what the positions of the row hold. -/
structure Handed where
  key : List Token
  len : ℕ
  row : ℕ → Option Token

def Handed.cachedLen (pageSize : ℕ) (h : Handed) : ℕ := h.key.length / pageSize * pageSize

/-- A node made of `h` can lie at position `i` of the path of `key`. -/
def Handed.serves (pageSize : ℕ) (h : Handed) (key : List Token) (i : ℕ) : Bool :=
  i < h.cachedLen pageSize && h.key.take (i + 1) = key.take (i + 1)

/-- The row after a match: position `i` is taken from the entry `sources[i]`. -/
def matchRow (pageSize : ℕ) (cached : List Handed) (key : List Token) (sources : List ℕ)
    (row : ℕ → Option Token) : Option (ℕ → Option Token) :=
  let source := fun i => (sources[i]?).bind (cached[·]?)
  if (List.range sources.length).all (fun i => (source i).any (·.serves pageSize key i)) then
    some fun i => match source i with
      | some h => h.row i
      | none => row i
  else none

structure Verdict where
  str : StrOutcome
  /-- `strip_thinking_cache`, for a request that has reasoned. -/
  stripped : Bool
  isInsert : Bool
  caches : Bool
  sources : List ℕ

inductive Action
  | idle
  | admitted (sources : List ℕ) (extendEnd : ℕ) (token : Token)
  /-- The next chunk of a chunked request. -/
  | chunk (caches : Bool) (sources : List ℕ) (extendEnd : ℕ) (token : Token)
  /-- A chunked request for which there is no room. -/
  | park (caches : Bool) (sources : List ℕ)
  | decode (token : Token)
  | mixed (token : Token)
  | verify (drafts : List Token) (accepted : ℕ) (bonus : Token)
  /-- `dropOutput`: the request came with input embeddings. -/
  | retract (dropOutput : Bool)
  | abortChunked

structure Iteration where
  abort : Bool
  /-- The overlap is disabled for the batch: the last result comes before the launch. -/
  processFirst : Bool
  /-- The grammar barrier runs inside the launch. -/
  barrier : Bool
  action : Action
  verdict : Verdict

variable {G : Type}

namespace Req

/-! ## The prefix cache -/

variable (cfg : Config G) (v : Verdict) (r : Req G) (cached : List Handed) (result : Pending)

/-- `release_kv_cache`, with what it hands to the tree. -/
def releaseKvCache (isInsert stripped : Bool) : Req G × List Handed :=
  if r.holdsKv then
    let handled := if stripped then min r.kvCommittedLen r.originInputIds.length else r.kvCommittedLen
    let tokenIds := (r.originInputIds ++ r.outputIds).take handled
    ({ r with holdsKv := false },
      if isInsert then [{ key := tokenIds, len := handled, row := r.row }] else [])
  else (r, [])

/-- `cache_unfinished_req`: the row then refers to the slots of the tree. -/
def cacheUnfinishedReq (sources : List ℕ) : Option (Req G × List Handed) :=
  let tokenIds := r.getFillIds
  let cached := cached ++ [{ key := tokenIds, len := tokenIds.length, row := r.row }]
  match matchRow cfg.pageSize cached tokenIds sources r.row with
  | none => none
  | some row => some ({ r with row := row, prefixLen := tokenIds.length }, cached)

def stashChunkedRequest (caches : Bool) (sources : List ℕ) : Option (Req G × List Handed) :=
  if r.extendEnd > r.prefixLen ∧ caches then r.cacheUnfinishedReq cfg cached sources
  else some (r, cached)

/-! ## Scheduling -/

def isChunked : Bool := r.holdsKv && !r.finished && r.extendEnd < r.fillIds.length

def isRunning : Bool := r.holdsKv && !r.finished && r.extendEnd = r.fillIds.length

def prepareForExtend (extendEnd : ℕ) : Option (Req G) :=
  if r.prefixLen < extendEnd ∧ extendEnd ≤ r.fillIds.length then
    some { r with
      extendEnd := extendEnd
      kvCommittedLen := extendEnd
      holdsKv := true
      inflightMiddleChunks := r.inflightMiddleChunks + if extendEnd < r.fillIds.length then 1 else 0
      isRetracted := false }
  else none

/-- `alloc_for_decode`; a speculative decode commits nothing yet. -/
def prepareForDecode : Req G :=
  if cfg.spec then r else { r with kvCommittedLen := r.kvCommittedLen + 1 }

def resetForRetract (dropOutput : Bool) : Req G :=
  { r with
    prefixLen := 0
    extendEnd := 0
    kvCommittedLen := 0
    inflightMiddleChunks := 0
    isRetracted := true
    outputIds := if dropOutput then [] else r.outputIds }

def schedule : Action → Option (Req G × List Handed)
  | .idle => some (r, cached)
  | .admitted sources extendEnd _ =>
    if r.holdsKv || r.finished then none
    else do
      let r := r.refreshFillIds
      let row ← matchRow cfg.pageSize cached r.fillIds sources fun _ => none
      let r ← { r with row := row, prefixLen := sources.length }.prepareForExtend extendEnd
      some (r, cached)
  | .chunk caches sources extendEnd _ =>
    if r.isChunked then do
      let (r, cached) ← r.stashChunkedRequest cfg cached caches sources
      let r ← r.refreshFillIds.prepareForExtend extendEnd
      some (r, cached)
    else none
  | .park caches sources => if r.isChunked then r.stashChunkedRequest cfg cached caches sources else none
  | .decode _ => if r.isRunning && !cfg.spec then some (r.prepareForDecode cfg, cached) else none
  | .mixed _ =>
    if r.isRunning then
      let r := (r.prepareForDecode cfg).refreshFillIds
      some ({ r with extendEnd := r.fillIds.length }, cached)
    else none
  | .verify drafts accepted _ =>
    if r.isRunning && cfg.spec && accepted ≤ drafts.length then some (r.prepareForDecode cfg, cached)
    else none
  | .retract dropOutput =>
    if r.holdsKv && !r.finished then
      some ((r.releaseKvCache false false).1.resetForRetract dropOutput, cached)
    else none
  | .abortChunked =>
    if r.isChunked then
      let r := { r with finishedReason := some .abort, toFinish := none }
      some ((r.releaseKvCache false false).1, cached)
    else none

/-! ## Launching -/

def write (row : ℕ → Option Token) (start : ℕ) (tokens : List Token) : ℕ → Option Token := fun i =>
  if i < start then row i else (tokens[i - start]?).or (row i)

def launched (start : ℕ) (input : List Token) (seqLen : ℕ) (kind : Kind) (tokens : List Token) :
    Req G :=
  { r with
    row := write r.row start input
    seqLen := seqLen
    lastToken := tokens.getLast?.getD r.lastToken
    pending := some { kind := kind, tokens := tokens, retained := none, grammarAdvanced := false } }

/-- Where the row of a decode request stands in a mixed batch, and its input: without
overlap a speculative tail is rebuilt from the state of the request. -/
def mixedTail : ℕ × Token :=
  if cfg.spec && !cfg.overlap then
    (r.originInputIds.length + r.outputIds.length - 1, r.outputIds.getLast?.getD 0)
  else (r.seqLen, r.lastToken)

def launch : Action → Req G
  | .admitted _ _ token | .chunk _ _ _ token =>
    r.launched r.prefixLen (r.getFillIds.drop r.prefixLen) r.extendEnd .extend [token]
  | .decode token => r.launched r.seqLen [r.lastToken] (r.seqLen + 1) .decode [token]
  | .mixed token =>
    let (position, input) := r.mixedTail cfg
    r.launched position [input] (position + 1) .mixed [token]
  | .verify drafts accepted bonus =>
    r.launched r.seqLen (r.lastToken :: drafts) (r.seqLen + accepted + 1) .verify
      (drafts.take accepted ++ [bonus])
  | _ => r

/-! ## Results -/

/-- The part of `process_batch_result_prefill` for a request whose prefill is done. -/
def finishPrefill : Option (Req G × List Handed) :=
  let r := { r with outputIds := r.outputIds ++ result.tokens }.updateFinishState cfg.grammar v.str 1
  if r.finished then
    let (r, handed) := r.releaseKvCache v.isInsert v.stripped
    some (r, cached ++ handed)
  else if result.kind = .mixed then
    -- the token at the tail was pending until now
    some (if cfg.spec then { r with kvCommittedLen := r.kvCommittedLen + 1 } else r, cached)
  else if v.caches then r.cacheUnfinishedReq cfg cached v.sources
  else some (r, cached)

def processBatchResultPrefill : Option (Req G × List Handed) :=
  if (r.finished && r.inflightMiddleChunks = 0) || r.isRetracted then some (r, cached)
  else if r.inflightMiddleChunks = 0 then
    match r.finishPrefill cfg v cached result with
    | none => none
    | some (r, cached) =>
      some (if result.grammarAdvanced then r else (r.acceptGrammarTokens cfg.grammar result.tokens).1,
        cached)
  else some ({ r with inflightMiddleChunks := r.inflightMiddleChunks - 1 }, cached)

def resolveSpecV2Tokens : Option (Req G × List Token) :=
  let (r, result) := r.advanceGrammarFsm cfg.grammar result
  if r.isRetracted || r.finished then some (r, result.tokens)
  else
    -- without a memo for a request with a grammar the source fails on `len(None)`
    match (if r.grammar.isSome then result.retained else some result.tokens) with
    | none => none
    | some tokens => some ({ r with kvCommittedLen := r.kvCommittedLen + tokens.length }, tokens)

/-- One iteration of the loop of `process_batch_result_decode`. -/
def commitTokens (tokens : List Token) : Req G × List Handed :=
  if cfg.overlap && (r.finished || r.isRetracted) then (r, cached)
  else
    let r := { r with outputIds := r.outputIds ++ tokens }.updateFinishState cfg.grammar v.str
      tokens.length
    let (r, handed) := if r.finished then r.releaseKvCache v.isInsert v.stripped else (r, [])
    (if cfg.spec then r else (r.acceptGrammarTokens cfg.grammar tokens).1, cached ++ handed)

def processBatchResultDecode : Option (Req G × List Handed) :=
  if cfg.spec then
    match r.resolveSpecV2Tokens cfg result with
    | none => none
    | some (r, tokens) => some (r.commitTokens cfg v cached tokens)
  else some (r.commitTokens cfg v cached result.tokens)

def processBatchResult : Option Pending → Option (Req G × List Handed)
  | none => some (r, cached)
  | some result =>
    match result.kind with
    | .extend | .mixed => r.processBatchResultPrefill cfg v cached result
    | .decode | .verify => r.processBatchResultDecode cfg v cached result

/-! ## One iteration -/

def ready (it : Iteration) (r : Req G) : Req G × Option Pending :=
  if cfg.overlap then
    if it.processFirst then ({ r with pending := none }, r.pending)
    else
      let r' := { r with pending := none }.launch cfg it.action
      match r.pending with
      | some result =>
        if it.barrier then
          let (r', result) := r'.advanceGrammarFsm cfg.grammar result
          (r', some result)
        else (r', some result)
      | none => (r', none)
  else
    let r' := r.launch cfg it.action
    ({ r' with pending := none }, r'.pending)

def abortRequest : Req G :=
  if r.holdsKv && !r.finished then { r with toFinish := some .abort } else r

def iterate (it : Iteration) (r : Req G) (cached : List Handed) : Option (Req G × List Handed) := do
  let (r, cached) ← (if it.abort then r.abortRequest else r).schedule cfg cached it.action
  let (r, result) := r.ready cfg it
  let (r, cached) ← r.processBatchResult cfg it.verdict cached result
  some (if cfg.overlap && it.processFirst then r.launch cfg it.action else r, cached)

end Req

structure State (G : Type) where
  reqs : ℕ → Req G
  cached : List Handed

def State.iterate (cfg : Config G) (s : State G) (op : ℕ × Iteration) : Option (State G) := do
  let (r, cached) ← (s.reqs op.1).iterate cfg op.2 s.cached
  some { reqs := Function.update s.reqs op.1 r, cached := cached }

def run (cfg : Config G) (init : ℕ → Req G) (ops : List (ℕ × Iteration)) : Option (State G) :=
  Lib.runFrom (State.iterate cfg) { reqs := init, cached := [] } ops

end SparkInfer.Commit
