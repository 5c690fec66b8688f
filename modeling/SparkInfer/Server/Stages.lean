import SparkInfer.Server.Request
import Mathlib.Logic.Function.Basic

/-!
# The stages between the HTTP handlers and the scheduler

`to_scheduler.rs`, `from_scheduler.rs`, `detokenizer.rs` and `guard.rs`.  The stages are
threads joined by first-in first-out channels; each function below is what one thread
does with one message.  A send to another stage always finds it alive: the failures of a
closed channel belong to shutdown.
-/

namespace SparkInfer.Server

abbrev Text := List Char
abbrev Bytes := List UInt8

inductive Matched
  | token (id : ℤ)
  | str (stop : Text)
  | tokens (ids : List ℤ)
  deriving DecidableEq

/-- Of a finish reason only the stop it matched is read. -/
structure FinishReason where
  matched : Option Matched
  deriving DecidableEq

structure ChunkEvent where
  rid : Rid
  tokenIds : List ℤ
  finishReason : Option FinishReason
  text : Text := []
  completionTokens : ℕ := 0
  deriving DecidableEq

inductive ResponseItem
  | frame (ev : ChunkEvent)
  | done (ev : ChunkEvent)
  | control (payload : Bytes)
  | data (text : Text)
  | error (e : Error)
  deriving DecidableEq

/-- Every item but an intermediate frame ends the response. -/
def ResponseItem.isTerminal : ResponseItem → Bool
  | .frame _ => false
  | _ => true

/-- `SchedulerRequest`, by the header it carries. -/
inductive SchedulerRequest
  | generate (rid : Rid) (g : GenerateRequest)
  | control (rid : Rid)
  | abortReq (rid : Rid)

inductive TmEvent
  | intake (req : Request)
  | tokenized (req : Request)
  | mmEncoded (rid : Rid) (inputIds : List ℤ)
  | mmFailed (rid : Rid) (message : String)

/-- `AbortSource`: an `AbortGuard` or a terminal path of the detokenizer. -/
inductive AbortSource
  | guard (rid : Rid)
  | detok (rid : Rid)
  deriving DecidableEq

def AbortSource.rid : AbortSource → Rid
  | .guard r | .detok r => r

inductive DetokMsg
  | register (rid : Rid) (noStopTrim : Bool)
  | chunks (evs : List ChunkEvent)
  | decode (rid : Rid) (tokenIds : List ℤ)
  | result (rid : Rid) (payload : Bytes)
  | fail (rid : Rid) (message : String)
  | deregister (rid : Rid)

/-- A frame of the scheduler's output as the dispatcher decodes it. -/
inductive OutputFrame
  | batch (evs : List ChunkEvent)
  /-- A batch that does not decode; `recover_rids` still reads its rids. -/
  | rejected (rids : List Rid)
  /-- A batch that does not decode and names nobody. -/
  | unreadable
  | result (rid : Rid) (payload : Bytes)
  | error (rid : Rid) (message : String)

/-- The detokenizer backend: `newDecoder` is `none` with `skip_tokenizer_init`. -/
structure Backend (σ : Type) where
  newDecoder : Option σ
  step : σ → List ℤ → Except Error (Text × σ)
  decodeOnce : List ℤ → Except Error Text

structure DetokState (σ : Type) where
  noStopTrim : Bool
  decoder : Option σ
  fsm : RequestState

structure Shard (σ : Type) where
  queue : List DetokMsg
  table : Rid → Option (DetokState σ)

/-- An HTTP handler's side of one request: its guard and its response channel. -/
structure Client where
  armed : Bool
  abandoned : Bool
  closed : Bool
  /-- All items the channel accepted; the handler has taken the first `taken`. -/
  sent : List ResponseItem
  taken : ℕ

structure Config (σ : Type) where
  limits : Limits
  mmEnabled : Bool
  normalize : SamplingParams → Except Error SamplingParams
  encodeHeader : GenerateRequest → Except Error Unit
  ringCap : ℕ
  responseBuf : ℕ
  responseBuf_pos : 0 < responseBuf
  numShards : ℕ
  numShards_pos : 0 < numShards
  hash : Rid → ℕ
  backend : Backend σ

structure World (σ : Type) where
  clients : Rid → Option Client
  inbox : List TmEvent
  abortLane : List AbortSource
  /-- Requests queued for, or at, a tokenizer worker. -/
  tokenizing : List Request
  /-- Requests queued for, or at, a multimodal worker. -/
  encoding : List Rid
  pendingMm : Rid → Option Request
  /-- What the scheduler has read from the ring, oldest first. -/
  drained : List SchedulerRequest
  ring : List SchedulerRequest
  shards : ℕ → Shard σ
  outputs : List OutputFrame
  /-- Requests the scheduler took and has not ended, was told to abort, or passed over. -/
  owed : List Rid
  aborted : List Rid
  skipped : List Rid

variable {σ : Type} (cfg : Config σ)

def Config.shard (r : Rid) : ℕ := cfg.hash r % cfg.numShards

/-! ## Channels -/

inductive SinkError
  | full | closed
  deriving DecidableEq

namespace Client

def full (c : Client) : Bool := cfg.responseBuf ≤ c.sent.length - c.taken

def trySend (c : Client) (item : ResponseItem) : Client × Except SinkError Unit :=
  if c.closed then (c, .error .closed)
  else if c.full cfg then (c, .error .full)
  else ({ c with sent := c.sent ++ [item] }, .ok ())

end Client

namespace World

variable (w : World σ)

def setClient (r : Rid) (c : Client) : World σ :=
  { w with clients := Function.update w.clients r (some c) }

def trySend (r : Rid) (item : ResponseItem) : World σ × Except SinkError Unit :=
  match w.clients r with
  | none => (w, .error .closed)
  | some c => (w.setClient r (c.trySend cfg item).1, (c.trySend cfg item).2)

def sendAbort (source : AbortSource) : World σ :=
  { w with abortLane := w.abortLane ++ [source] }

def setShard (s : ℕ) (shard : Shard σ) : World σ :=
  { w with shards := Function.update w.shards s shard }

def addEvent (event : TmEvent) : World σ := { w with inbox := w.inbox ++ [event] }

def enqueue (s : ℕ) (msg : DetokMsg) : World σ :=
  w.setShard s { w.shards s with queue := (w.shards s).queue ++ [msg] }

def tell (r : Rid) (msg : DetokMsg) : World σ := w.enqueue (cfg.shard r) msg

def hasRoom : Bool := w.ring.length < cfg.ringCap

def push (msg : SchedulerRequest) : World σ := { w with ring := w.ring ++ [msg] }

def setEntry (s : ℕ) (r : Rid) (st : Option (DetokState σ)) : World σ :=
  w.setShard s { w.shards s with table := Function.update (w.shards s).table r st }

def setPending (r : Rid) (req : Option Request) : World σ :=
  { w with pendingMm := Function.update w.pendingMm r req }

end World

/-! ## To the scheduler -/

namespace World

variable (w : World σ) (mmFull : Bool) (req : Request)

def fail (err : Error) (registered : Bool) : World σ :=
  let w := (w.trySend cfg req.rid (.error err)).1
  if registered then w.tell cfg req.rid (.deregister req.rid) else w

def registerDetok : World σ :=
  w.tell cfg req.rid (.register req.rid req.kind.noStopTrim)

def pushToRing : World σ :=
  let serialized : Except Error GenerateRequest := match req.kind with
    | .generate g =>
      if g.alreadyTokenized then (cfg.encodeHeader g).map fun _ => g
      else .error (.tokenize "empty input_ids")
    | _ => .error (.internal "non-generate request reached push_to_ring")
  match serialized with
  | .error e => w.fail cfg req e true
  | .ok g =>
    if w.hasRoom cfg then w.push (.generate req.rid g)
    else w.fail cfg req .queueFull true

/-- `push_control_to_ring`; a control header always encodes. -/
def pushControlToRing : World σ :=
  if w.hasRoom cfg then w.push (.control req.rid)
  else w.fail cfg req .queueFull true

def pushDetokenizeToShard : World σ :=
  match req.kind with
  | .detokenize tokenIds => w.tell cfg req.rid (.decode req.rid tokenIds)
  | _ => w.fail cfg req
      (.internal "non-detokenize request reached push_detokenize_to_shard") true

def normalizing (g : GenerateRequest) : Except Error (GenerateRequest × ValidationOutcome) := do
  let params ← cfg.normalize g.samplingParams
  let g := { g with samplingParams := params }
  if cfg.mmEnabled && g.hasMultimodal then pure (g, .hasMultimodal)
  else if g.alreadyTokenized then pure (g, .alreadyTokenized)
  else pure (g, .needsTokenize)

/-- `Intake::drive`, one round of the loop for each unit of fuel; `mmFull` says that the
channel of the multimodal pool is full. -/
def driveLoop (mmFull : Bool) : ℕ → World σ → Request → Bool → World σ
  | 0, w, _, _ => w
  | fuel + 1, w, req, registered =>
    match req.state with
    | .received =>
      match validate req cfg.limits with
      | (req, .error e) => driveLoop mmFull fuel w (req.apply (.error e)) registered
      | (req, .ok ()) => driveLoop mmFull fuel (w.registerDetok cfg req) req true
    | .validating =>
      match req.kind with
      | .control | .detokenize _ =>
        driveLoop mmFull fuel w (req.apply (.validated .alreadyTokenized)) registered
      | .generate _ => driveLoop mmFull fuel w (req.apply .needsNormalize) registered
    | .normalizing =>
      match req.kind with
      | .generate g =>
        match normalizing cfg g with
        | .error e => driveLoop mmFull fuel w (req.apply (.error e)) registered
        | .ok (g, outcome) =>
          let req := { req with kind := .generate g }
          driveLoop mmFull fuel w (req.apply (.validated outcome)) registered
      | _ => w.fail cfg req (.internal "non-generate request in Normalizing") registered
    | .encoding =>
      match req.kind with
      | .generate g =>
        let req := { req with kind := .generate g.takeMmWork }
        if mmFull then w.fail cfg req .queueFull registered
        else { w with encoding := w.encoding ++ [req.rid] }.setPending req.rid (some req)
      | _ => w.fail cfg req (.internal "non-generate request in Encoding") registered
    | .tokenizing => { w with tokenizing := w.tokenizing ++ [req] }
    | .preSendValidating =>
      match req.kind with
      | .generate g =>
        match checkTotalTokens g cfg.limits with
        | .error e => driveLoop mmFull fuel w (req.apply (.error e)) registered
        | .ok g =>
          let req := { req with kind := .generate g }
          driveLoop mmFull fuel w (req.apply .preSendValidated) registered
      | _ => driveLoop mmFull fuel w (req.apply .preSendValidated) registered
    | .queued =>
      match req.kind with
      | .generate _ => w.pushToRing cfg req
      | .control => w.pushControlToRing cfg req
      | .detokenize _ => w.pushDetokenizeToShard cfg req
    | .failed e => w.fail cfg req e registered
    | .streaming _ | .finalizing | .completed | .aborted =>
      w.fail cfg req (.internal ("unexpected state: " ++ req.state.debug)) registered

/-- `Intake::drive`; a request passes through at most six states. -/
def drive : World σ :=
  driveLoop cfg mmFull 7 w req (decide (req.state ≠ .received))

def onMmEncoded (r : Rid) (inputIds : List ℤ) : World σ :=
  match w.pendingMm r with
  | none => w
  | some req =>
    let kind := match req.kind with
      | .generate g => .generate { g with inputIds := some inputIds }
      | kind => kind
    (w.setPending r none).drive cfg mmFull ({ req with kind := kind }.apply .encodeDone)

def onMmFailed (r : Rid) (message : String) : World σ :=
  match w.pendingMm r with
  | none => w
  | some req => (w.setPending r none).fail cfg req (.encode message) true

/-- `on_abort`; a push that finds the ring full is only logged. -/
def onAbort (source : AbortSource) : World σ :=
  let r := source.rid
  let w := (w.setPending r none).tell cfg r (.deregister r)
  if w.hasRoom cfg then w.push (.abortReq r) else w

/-- The body of `Intake::run` for an event of the inbox. -/
def onEvent : TmEvent → World σ
  | .intake req | .tokenized req => w.drive cfg mmFull req
  | .mmEncoded r inputIds => w.onMmEncoded cfg mmFull r inputIds
  | .mmFailed r message => w.onMmFailed cfg r message

/-! ## From the scheduler -/

/-- The bucket of shard `s`, sent when it is not empty. -/
def sendBucket (evs : List ChunkEvent) (w : World σ) (s : ℕ) : World σ :=
  let bucket := evs.filter fun ev => cfg.shard ev.rid = s
  if bucket.isEmpty then w else w.enqueue s (.chunks bucket)

/-- The body of `Dispatcher::run`. -/
def dispatch : OutputFrame → World σ
  | .batch evs => (List.range cfg.numShards).foldl (sendBucket cfg evs) w
  | .rejected rids =>
    rids.foldl (fun w r =>
      w.tell cfg r (.fail r "internal error: malformed scheduler output frame")) w
  | .unreadable => w
  | .result r payload => w.tell cfg r (.result r payload)
  | .error r message => w.tell cfg r (.fail r message)

end World

/-! ## Detokenizer shards -/

def trimStopToken (tokenIds : List ℤ) (matched : Option Matched) (noStopTrim : Bool) : List ℤ :=
  match matched with
  | some (.token t) => if !noStopTrim && t != 0 then tokenIds.dropLast else tokenIds
  | _ => tokenIds

def findStr (stop : Text) : Text → Option ℕ
  | [] => if stop.isEmpty then some 0 else none
  | c :: text => if stop.isPrefixOf (c :: text) then some 0 else (findStr stop text).map (· + 1)

def trimStopStr (text stop : Text) (noStopTrim : Bool) : Text :=
  if stop.isEmpty then text
  else match findStr stop text with
    | some pos => text.take (if noStopTrim then pos + stop.length else pos)
    | none => text

/-- The delta of a chunk: the decoder is fed the ids, the matched stop is cut off. -/
def DetokState.decodeChunk (st : DetokState σ) (ev : ChunkEvent) :
    Except Error (ChunkEvent × Option σ) := do
  let matched := ev.finishReason.bind FinishReason.matched
  let tokenIds := trimStopToken ev.tokenIds matched st.noStopTrim
  let (delta, decoder) ← match st.decoder with
    | some decoder => (cfg.backend.step decoder tokenIds).map fun p => (p.1, some p.2)
    | none => pure ([], none)
  let delta := match matched with
    | some (.str stop) => trimStopStr delta stop st.noStopTrim
    | _ => delta
  pure ({ ev with tokenIds, text := delta, completionTokens := ev.tokenIds.length }, decoder)

namespace World

variable (w : World σ)

def handleChunk (s : ℕ) (w : World σ) (ev : ChunkEvent) : World σ :=
  match (w.shards s).table ev.rid with
  | none => w
  | some st =>
    let fsm := if st.fsm = .queued then st.fsm.after .schedulerPicked else st.fsm
    match st.decodeChunk cfg ev with
    | .error e =>
      (((w.sendAbort (.detok ev.rid)).trySend cfg ev.rid (.error e)).1).setEntry s ev.rid none
    | .ok (out, decoder) =>
      if ev.finishReason.isSome then
        (w.trySend cfg ev.rid (.done out)).1.setEntry s ev.rid none
      else match w.trySend cfg ev.rid (.frame out) with
        | (w, .ok ()) =>
          w.setEntry s ev.rid (some { st with decoder, fsm := fsm.after (.chunk false) })
        | (w, .error .full) => (w.sendAbort (.detok ev.rid)).setEntry s ev.rid none
        | (w, .error .closed) => w.setEntry s ev.rid none

def handleDecode (s : ℕ) (r : Rid) (tokenIds : List ℤ) : World σ :=
  match (w.shards s).table r with
  | none => w
  | some _ =>
    let item := match cfg.backend.decodeOnce tokenIds with
      | .ok text => .data text
      | .error e => .error e
    (w.trySend cfg r item).1.setEntry s r none

def handleResult (s : ℕ) (r : Rid) (payload : Bytes) : World σ :=
  match (w.shards s).table r with
  | none => w
  | some _ => (w.trySend cfg r (.control payload)).1.setEntry s r none

def handleFail (s : ℕ) (r : Rid) (message : String) : World σ :=
  match (w.shards s).table r with
  | none => w
  | some _ =>
    ((w.sendAbort (.detok r)).trySend cfg r (.error (.internal message))).1.setEntry s r none

/-- The body of `DetokenizerWorker::run`. -/
def handleMsg (s : ℕ) : DetokMsg → World σ
  | .register r noStopTrim =>
    w.setEntry s r (some ⟨noStopTrim, cfg.backend.newDecoder, .queued⟩)
  | .chunks evs => evs.foldl (handleChunk cfg s) w
  | .decode r tokenIds => w.handleDecode cfg s r tokenIds
  | .result r payload => w.handleResult cfg s r payload
  | .fail r message => w.handleFail cfg s r message
  | .deregister r => w.setEntry s r none

end World

end SparkInfer.Server
