import SparkInfer.Server.Stages
import SparkInfer.Lib.Run

/-!
# The threads of the server together

A step is one thread handling one message, a handler acting on its request, or the
scheduler reading its ring or answering.  The scheduler answers only requests it has
taken, and it may leave a request without an answer in two cases: it was told to abort
the request, or the request is a health probe that came while it was busy.
-/

namespace SparkInfer.Server

open Lib

variable {σ : Type}

/-- What the scheduler does with the next message of the ring. -/
inductive Reading
  | takes
  /-- The header does not decode. -/
  | refuses (message : String)
  /-- A busy scheduler passes over a health probe. -/
  | passesOver

/-- How the dispatcher decodes a batch frame. -/
inductive Decoding
  | good | named | nameless
  deriving DecidableEq

inductive Act
  /-- `submit`, and the guard of the request. -/
  | submit (req : Request)
  /-- The handler takes an item from its channel. -/
  | receive (r : Rid)
  /-- `guard.disarm(rid)`, after the terminal item. -/
  | disarm (r : Rid)
  | dropGuard (r : Rid)
  | close (r : Rid)
  | tokenizerDone (i : ℕ) (ids : Except Error (List ℤ))
  | mmDone (i : ℕ) (ids : Except String (List ℤ))
  | intakeEvent (mmFull : Bool)
  | intakeAbort
  | shard (s : ℕ)
  | dispatch
  | readRing (reading : Reading)
  | emitBatch (evs : List ChunkEvent) (decoding : Decoding)
  | emitResult (r : Rid) (payload : Bytes)
  /-- The scheduler drops a request it was told to abort. -/
  | forget (r : Rid)

namespace SchedulerRequest

def rid : SchedulerRequest → Rid
  | .generate r _ | .control r | .abortReq r => r

def isHealthCheck : SchedulerRequest → Bool
  | .generate _ g => g.isHealthCheck
  | _ => false

end SchedulerRequest

/-- A service call of the server itself has no guard. -/
def RequestKind.guarded : RequestKind → Bool
  | .detokenize _ => false
  | _ => true

def Client.new (kind : RequestKind) : Client := ⟨kind.guarded, false, false, [], 0⟩

namespace World

variable (cfg : Config σ) (w : World σ)

def dropGuard (r : Rid) (c : Client) : World σ :=
  if c.armed then
    (w.setClient r { c with armed := false, abandoned := true }).sendAbort (.guard r)
  else w

def tokenized (req : Request) : Except Error (List ℤ) → TmEvent
  | .error e => .tokenized (req.apply (.error e))
  | .ok ids =>
    let kind := match req.kind with
      | .generate g => .generate { g with inputIds := some ids }
      | kind => kind
    .tokenized ({ req with kind := kind }.apply .tokenizeDone)

/-- What the scheduler makes of a message of the ring. -/
def read (msg : SchedulerRequest) (reading : Reading) : Option (World σ) :=
  match msg, reading with
  | .abortReq r, .takes => some { w with aborted := r :: w.aborted }
  | .abortReq _, _ => none
  | msg, .takes => some { w with owed := msg.rid :: w.owed }
  | msg, .refuses message =>
    some { w with outputs := w.outputs ++ [.error msg.rid s!"invalid request: {message}"] }
  | msg, .passesOver =>
    if msg.isHealthCheck then some { w with skipped := msg.rid :: w.skipped } else none

/-- The batch as the dispatcher will see it. -/
def outputFrame (evs : List ChunkEvent) : Decoding → OutputFrame
  | .good => .batch evs
  | .named => .rejected (evs.map ChunkEvent.rid)
  | .nameless => .unreadable

def pushed : List SchedulerRequest := w.drained ++ w.ring

def step : Act → Option (World σ)
  | .submit req =>
    if (w.clients req.rid).isNone ∧ req.state = .received then
      some ((w.setClient req.rid (.new req.kind)).addEvent (.intake req))
    else none
  | .receive r => (w.clients r).bind fun c =>
    if c.taken < c.sent.length then some (w.setClient r { c with taken := c.taken + 1 })
    else none
  | .disarm r => (w.clients r).bind fun c =>
    if (c.sent.take c.taken).any ResponseItem.isTerminal then
      some (w.setClient r { c with armed := false })
    else none
  | .dropGuard r => (w.clients r).map fun c => w.dropGuard r c
  | .close r => (w.clients r).map fun c => w.setClient r { c with closed := true }
  | .tokenizerDone i ids => w.tokenizing[i]?.map fun req =>
    { w with tokenizing := w.tokenizing.eraseIdx i }.addEvent (tokenized req ids)
  | .mmDone i ids => w.encoding[i]?.map fun r =>
    let event := match ids with
      | .ok ids => .mmEncoded r ids
      | .error message => .mmFailed r message
    { w with encoding := w.encoding.eraseIdx i }.addEvent event
  | .intakeEvent mmFull =>
    match w.inbox with
    | [] => none
    | event :: rest => some ({ w with inbox := rest }.onEvent cfg mmFull event)
  | .intakeAbort =>
    match w.abortLane with
    | [] => none
    | source :: rest => some ({ w with abortLane := rest }.onAbort cfg source)
  | .shard s =>
    match (w.shards s).queue with
    | [] => none
    | msg :: rest => some ((w.setShard s { w.shards s with queue := rest }).handleMsg cfg s msg)
  | .dispatch =>
    match w.outputs with
    | [] => none
    | frame :: rest => some ({ w with outputs := rest }.dispatch cfg frame)
  | .readRing reading =>
    match w.ring with
    | [] => none
    | msg :: rest => { w with ring := rest, drained := w.drained ++ [msg] }.read msg reading
  | .emitBatch evs decoding =>
    if evs.all fun ev => w.owed.contains ev.rid then
      let ended := (evs.filter fun ev => ev.finishReason.isSome).map ChunkEvent.rid
      some { w with
        owed := w.owed.filter fun r => !ended.contains r
        outputs := w.outputs ++ [outputFrame evs decoding] }
    else none
  | .emitResult r payload =>
    if w.owed.contains r then
      some { w with
        owed := w.owed.filter fun x => x != r
        outputs := w.outputs ++ [.result r payload] }
    else none
  | .forget r =>
    if w.owed.contains r && w.aborted.contains r then
      some { w with owed := w.owed.filter fun x => x != r }
    else none

def empty : World σ where
  clients := fun _ => none
  inbox := []
  abortLane := []
  tokenizing := []
  encoding := []
  pendingMm := fun _ => none
  drained := []
  ring := []
  shards := fun _ => ⟨[], fun _ => none⟩
  outputs := []
  owed := []
  aborted := []
  skipped := []

end World

end SparkInfer.Server
