import SparkInfer.Commit.Outcome
import SparkInfer.Commit.Runs

/-!
# The KV of a streaming session

A streaming session (`streaming_session.py`, `session_controller.py`) keeps the KV of its
last request in a slot and hands it to the next turn.  A turn is a request like any other,
with three differences: it may start from the slot, it is not inserted into the tree when
it ends, and its end fills the slot.  The ordinary requests run beside the sessions and
share the tree with them.

The turns of a session follow one another: the next is created when the last has ended,
was dropped from the queue, or has left the session.  What depends on the NPU and on the
SWA eviction cursor is passed in: whether a cut goes down to whole pages.
-/

namespace SparkInfer.Streaming.Turns

open Commit

variable {G : Type}

/-- The KV record of a slot.  `row` and `seqLen` are the state of the device: what the
forwards launched for the last request have written, and up to where. -/
structure Slot where
  kvCommittedLen : ℕ
  kvAllocatedLen : ℕ
  row : ℕ → Option Token
  seqLen : ℕ

inductive Cut
  | whole
  /-- On an NPU, or when the SWA eviction cursor lies past the prefix. -/
  | pages
  /-- On an NPU, when no whole page of the slot is left: the slot is given up. -/
  | released
deriving DecidableEq

structure Turn (G : Type) where
  req : Req G
  kvAllocatedLen : ℕ
  /-- A retraction has put the request into `req_nodes`. -/
  saved : Bool

def Turn.new (params : Params) (originInputIds fillIds : List Token) (grammar : Option G)
    (toFinish : Option FinishReason) : Turn G where
  req := { Req.new params originInputIds grammar toFinish with fillIds := fillIds }
  kvAllocatedLen := 0
  saved := false

structure Session (G : Type) where
  /-- The prompt and the output, up to `max_new_tokens`, of the request in `req_nodes`. -/
  lastIds : List Token
  /-- That request has left the session and generates on. -/
  detached : Bool
  slot : Option Slot
  turn : Option (Turn G)

def Session.new : Session G := { lastIds := [], detached := false, slot := none, turn := none }

/-! ## The slot -/

def Slot.freeTail (slot : Slot) (prefixLen : ℕ) : Slot :=
  { slot with
    kvAllocatedLen := prefixLen
    kvCommittedLen := min slot.kvCommittedLen prefixLen }

/-- `try_match_prefix` for a key of `keyLen` tokens: the slot and the prefix length, or
none when the slot is given up. -/
def Slot.tryMatchPrefix (pageSize : ℕ) (cut : Cut) (slot : Slot) (keyLen : ℕ) : Option (Slot × ℕ) :=
  let prefixLen := min slot.kvCommittedLen keyLen
  match cut with
  | .whole => some (slot.freeTail prefixLen, prefixLen)
  | .pages =>
    let prefixLen := prefixLen / pageSize * pageSize
    some (slot.freeTail prefixLen, prefixLen)
  | .released => none

/-- The request is matched with the whole prompt but its last token. -/
def Turn.tryMatchPrefix (cfg : Config G) (cut : Cut) (turn : Turn G) (slot : Slot) : Option (Slot × ℕ) :=
  slot.tryMatchPrefix cfg.pageSize cut (turn.req.refreshFillIds.fillIds.length - 1)

/-- `try_cache_finished_req` for a request that is not aborted: the overshoot is trimmed,
`floored` to whole pages when the SWA eviction cursor lies past it, and the slot takes the
record over.  With it, the ids that the next turn builds on. -/
def Turn.cacheFinishedReq (cfg : Config G) (floored : Bool) (turn : Turn G) : Slot × List Token :=
  let r := turn.req
  let finishedLen := r.finishedLen.getD r.outputIds.length
  let target := r.originInputIds.length + finishedLen
  let kvAllocatedLen := min turn.kvAllocatedLen
    (if floored then target / cfg.pageSize * cfg.pageSize else target)
  ({ kvCommittedLen := min target kvAllocatedLen, kvAllocatedLen := kvAllocatedLen, row := r.row
     seqLen := r.seqLen },
    r.originInputIds ++ (r.outputIds.take finishedLen).take r.params.maxNewTokens)

/-! ## The turns -/

namespace Session

variable (s : Session G)

/-- `create_req`.  A turn that is refused on the way in keeps none of its prompt. -/
def createReq (params : Params) (inputIds : List Token) (grammar : Option G)
    (carryFill aborted : Bool) : Option (Session G) :=
  if s.turn.isSome then none
  else
    let originInputIds := if aborted then [0] else s.lastIds ++ inputIds
    let fillIds := if carryFill && !aborted then originInputIds else []
    some { s with
      turn := some (.new params originInputIds fillIds grammar (if aborted then some .abort else none)) }

/-- The turn goes on without the session; a saved one stays in `req_nodes`. -/
def leave (turn : Turn G) : Session G :=
  { s with turn := none, detached := s.detached || turn.saved }

/-- An abort in the middle of the turn releases the slot. -/
def abortTurn (turn : Turn G) : Session G :=
  { lastIds := if turn.saved then
      turn.req.originInputIds ++ turn.req.outputIds.take turn.req.params.maxNewTokens else s.lastIds
    detached := s.detached && !turn.saved
    slot := none
    turn := none }

def finishTurn (cfg : Config G) (floored : Bool) (s : Session G) (turn : Turn G) : Session G :=
  if turn.req.finishedReason = some .abort then s.abortTurn turn
  else
    let (slot, lastIds) := turn.cacheFinishedReq cfg floored
    { lastIds := lastIds, detached := false, slot := some slot, turn := none }

def matchOnly (cfg : Config G) (cut : Cut) (s : Session G) : Option (Session G) :=
  match s.turn, s.slot with
  | some turn, some slot =>
    if turn.req.holdsKv then none
    else if turn.req.toFinish.isSome then some (s.leave turn)
    else some { s with slot := (turn.tryMatchPrefix cfg cut slot).map Prod.fst }
  | _, _ => none

def dropTurn : Option (Session G) :=
  match s.turn with
  | some turn => if turn.req.holdsKv then none else some { s with turn := none }
  | none => none

/-- The request that has left the session generates on. -/
def grow (tokens : List Token) : Option (Session G) :=
  if s.detached && s.turn.isNone then some { s with lastIds := s.lastIds ++ tokens } else none

end Session

/-! ## One iteration of a turn -/

structure Step where
  it : Iteration
  cut : Cut
  floored : Bool
  reserve : ℕ

inductive Scheduled (G : Type)
  | goes (s : Session G) (turn : Turn G) (cached : List Handed)
  | leaves (s : Session G)

variable (cfg : Config G) (s : Session G) (turn : Turn G)

/-- The slots of a decode: a speculative one reserves room ahead. -/
def Turn.allocForDecode (reserve : ℕ) (turn : Turn G) : ℕ :=
  if cfg.spec then
    max turn.kvAllocatedLen
      ((turn.req.kvCommittedLen + reserve + cfg.pageSize - 1) / cfg.pageSize * cfg.pageSize)
  else turn.kvAllocatedLen + 1

/-- `try_cache_unfinished_req` for a chunk: the row as it is. -/
def Turn.stash (caches : Bool) : Req G :=
  if turn.req.extendEnd > turn.req.prefixLen ∧ caches then
    { turn.req with prefixLen := turn.req.extendEnd }
  else turn.req

/-- The action as for an ordinary request, which then has `kvAllocatedLen` slots. -/
def Turn.scheduleRaw (cached : List Handed) (action : Action) (kvAllocatedLen : ℕ) :
    Option (Scheduled G) :=
  match turn.req.schedule cfg cached action with
  | none => none
  | some (r, cached) => some (.goes s { turn with req := r, kvAllocatedLen := kvAllocatedLen } cached)

/-- A chunk of the prompt, after what is in place. -/
def Turn.scheduleChunk (cached : List Handed) (r : Req G) (extendEnd : ℕ) : Option (Scheduled G) :=
  match r.prepareForExtend extendEnd with
  | none => none
  | some r => some (.goes s { turn with req := r, kvAllocatedLen := extendEnd } cached)

def Turn.resetForRetract (turn : Turn G) : Turn G where
  req := (turn.req.releaseKvCache false false).1.resetForRetract false
  kvAllocatedLen := 0
  saved := true

def Session.schedule (step : Step) (s : Session G) (turn : Turn G) (cached : List Handed) :
    Option (Scheduled G) :=
  match step.it.action with
  | .idle => some (.goes s turn cached)
  | .admitted sources extendEnd token =>
    if turn.req.holdsKv then none
    else
      match s.slot with
      | none => turn.scheduleRaw cfg s cached (.admitted sources extendEnd token) extendEnd
      | some slot =>
        if turn.req.toFinish.isSome then some (.leaves (s.leave turn))
        else
          match turn.tryMatchPrefix cfg step.cut slot with
          | none =>
            turn.scheduleRaw cfg { s with slot := none } cached (.admitted sources extendEnd token) extendEnd
          | some (slot, prefixLen) =>
            turn.scheduleChunk { s with slot := some slot } cached
              { turn.req.refreshFillIds with row := slot.row, prefixLen := prefixLen } extendEnd
  | .chunk caches _ extendEnd _ =>
    if turn.req.isChunked then turn.scheduleChunk s cached (turn.stash caches).refreshFillIds extendEnd
    else none
  | .park caches _ =>
    if turn.req.isChunked then some (.goes s { turn with req := turn.stash caches } cached) else none
  | .decode token =>
    turn.scheduleRaw cfg s cached (.decode token) (turn.allocForDecode cfg step.reserve)
  | .mixed token =>
    turn.scheduleRaw cfg s cached (.mixed token) (turn.allocForDecode cfg step.reserve)
  | .verify drafts accepted bonus =>
    turn.scheduleRaw cfg s cached (.verify drafts accepted bonus) (turn.allocForDecode cfg step.reserve)
  | .retract _ =>
    if turn.req.holdsKv then
      let (slot, lastIds) := turn.cacheFinishedReq cfg step.floored
      let s := { s with lastIds := lastIds, detached := false, slot := some slot }
      -- the second time, `finish_req` takes the request for its own predecessor
      if turn.saved then some (.leaves (s.leave turn))
      else some (.goes s turn.resetForRetract cached)
    else none
  | .abortChunked => if turn.req.isChunked then some (.leaves (s.abortTurn turn)) else none

/-- A finished turn is not inserted, and only the first one is cached while it runs. -/
def Session.verdict (v : Verdict) : Verdict :=
  { v with isInsert := false, caches := v.caches && s.slot.isNone }

def Turn.abort (turn : Turn G) (abort : Bool) : Turn G :=
  { turn with req := if abort then turn.req.abortRequest else turn.req }

/-- When the overlap is off for the batch, the launch comes after the result. -/
def finalReq (it : Iteration) (r : Req G) : Req G :=
  if cfg.overlap && it.processFirst then r.launch cfg it.action else r

def Session.iterate (step : Step) (s : Session G) (cached : List Handed) :
    Option (Session G × List Handed) :=
  match s.turn with
  | none => none
  | some turn =>
    match s.schedule cfg step (turn.abort step.it.abort) cached with
    | none => none
    | some (.leaves s) => some (s, cached)
    | some (.goes s turn cached) =>
      match (turn.req.ready cfg step.it).1.processBatchResult cfg (s.verdict step.it.verdict) cached
          (turn.req.ready cfg step.it).2 with
      | none => none
      | some (r, cached) =>
        let turn := { turn with req := finalReq cfg step.it r }
        if turn.req.finished then
          -- a stop string is located inside the output
          if step.it.verdict.str.located turn.req.outputIds.length then
            some (s.finishTurn cfg step.floored turn, cached)
          else none
        else some ({ s with turn := some turn }, cached)

/-! ## Sessions beside ordinary requests -/

inductive Event (G : Type)
  | createReq (params : Params) (inputIds : List Token) (grammar : Option G) (carryFill aborted : Bool)
  | matchOnly (cut : Cut)
  | dropTurn
  | grow (tokens : List Token)
  | iterate (step : Step)
  | release

structure World (G : Type) where
  base : State G
  sessions : ℕ → Session G

inductive Op (G : Type)
  | request (op : ℕ × Iteration)
  | session (sid : ℕ) (event : Event G)

def Session.step (cfg : Config G) (s : Session G) (cached : List Handed) :
    Event G → Option (Session G × List Handed)
  | .createReq params inputIds grammar carryFill aborted =>
    (s.createReq params inputIds grammar carryFill aborted).map (·, cached)
  | .matchOnly cut => (s.matchOnly cfg cut).map (·, cached)
  | .dropTurn => s.dropTurn.map (·, cached)
  | .grow tokens => (s.grow tokens).map (·, cached)
  | .iterate step => s.iterate cfg step cached
  | .release => if s.turn.isSome then none else some (.new, cached)

def World.step (cfg : Config G) (w : World G) : Op G → Option (World G)
  | .request op => (w.base.iterate cfg op).map fun base => { w with base := base }
  | .session sid event =>
    ((w.sessions sid).step cfg w.base.cached event).map fun (s, cached) =>
      { base := { w.base with cached := cached }, sessions := Function.update w.sessions sid s }

def run (init : ℕ → Req G) (ops : List (Op G)) : Option (World G) :=
  Lib.runFrom (World.step cfg) { base := { reqs := init, cached := [] }, sessions := fun _ => .new } ops

/-- What the next match of the waiting turn reuses: the prefix length, the ids of the turn
and the row. -/
def Session.reuse (cut : Cut) (s : Session G) : Option (ℕ × List Token × (ℕ → Option Token)) :=
  match s.turn, s.slot with
  | some turn, some slot =>
    if turn.req.holdsKv || turn.req.toFinish.isSome then none
    else (turn.tryMatchPrefix cfg cut slot).map fun (slot, prefixLen) =>
      (prefixLen, turn.req.refreshFillIds.fillIds, slot.row)
  | _, _ => none

end SparkInfer.Streaming.Turns
