import SparkInfer.Lib.PyVal
import Mathlib.Data.Int.Notation
import Mathlib.Data.Nat.Notation
import Mathlib.Logic.Function.Basic

/-!
# Mamba slots

The slots of the Mamba state pool and everyone who refers to one: the slot allocator
(`allocator/mamba.py`), the requests and the per-row mappings of
`HybridReqToTokenPool` (`memory_pool.py`), and the values of the tree nodes
(`mamba_component.py`).  Slots are integers; a ping-pong entry without a slot is -1.
With an int8 checkpoint pool the values of the nodes are slots of that pool.

Which nodes an eviction takes, and at which node an insert ends, is up to the tree;
the operations take both as arguments.
-/

namespace SparkInfer.Mamba

open Lib

abbrev Slot := ℤ

abbrev ReqId := ℕ

abbrev NodeId := ℕ

abbrev Row := ℕ

/-- An index of a ping-pong buffer: 0 or 1. -/
abbrev TrackIdx := Fin 2

structure Config where
  size : ℕ
  ckptSize : ℕ
  overlap : Bool
  extraBuffer : Bool
  lazy : Bool
  int8 : Bool
  /-- The rows of `req_to_token`, the padding row aside. -/
  numRows : ℕ

def Config.trackBufferSize (cfg : Config) : ℕ := if cfg.overlap then 2 else 1

structure SlotAllocator where
  freeSlots : List Slot
  allocIter : Option (List Slot)

namespace SlotAllocator

/-- Slot 0 is reserved. -/
def new (size : ℕ) : SlotAllocator :=
  { freeSlots := (List.range size).map fun i => Int.ofNat (i + 1), allocIter := none }

variable (a : SlotAllocator)

def doAlloc (needSize : ℕ) : Option (List Slot × SlotAllocator) :=
  if needSize > a.freeSlots.length then none
  else some (a.freeSlots.take needSize, { a with freeSlots := a.freeSlots.drop needSize })

def alloc (needSize : ℕ) : Option (List Slot × SlotAllocator) :=
  match a.allocIter with
  | some (slot :: rest) =>
    if needSize = 1 then some ([slot], { a with allocIter := some rest }) else a.doAlloc needSize
  | _ => a.doAlloc needSize

def free (freeIndex : List Slot) : SlotAllocator :=
  { a with freeSlots := a.freeSlots ++ freeIndex }

def allocGroupBegin (numReqs : ℕ) : SlotAllocator :=
  let a := { a with allocIter := none }
  if numReqs > 0 then
    match a.doAlloc numReqs with
    | some (result, a) => { a with allocIter := some result }
    | none => a
  else a

def allocGroupEnd : SlotAllocator :=
  { a.free (a.allocIter.getD []) with allocIter := none }

end SlotAllocator

/-- What `req.kv` says about the row and the Mamba state of a request. -/
structure ReqKv where
  reqPoolIdx : Option Row
  mambaPoolIdx : Option Slot
  pingPongTrackBuffer : Option (List Slot)
  nextTrackIdx : Option TrackIdx
  lastTrackIdx : Option TrackIdx
  lastTrackSeqlen : Option ℕ

def ReqKv.blank : ReqKv :=
  { reqPoolIdx := none, mambaPoolIdx := none, pingPongTrackBuffer := none, nextTrackIdx := none
    lastTrackIdx := none, lastTrackSeqlen := none }

structure Pool where
  rows : List Row
  allocator : SlotAllocator
  ckpt : SlotAllocator
  mambaIndexMapping : Row → Slot
  pingPongMapping : Row → List Slot
  reqs : ReqId → ReqKv
  values : NodeId → Option Slot

/-- Indexing `None`, or beyond the end of a buffer. -/
def noState : PyError := .indexError "no mamba state"

/-- A call for a request without a row; the source does not check it. -/
def noRow : PyError := .indexError "no row"

namespace Pool

variable (cfg : Config) (p : Pool) (ckpt : Bool) (r : ReqId) (evicted : List NodeId)
variable (choice : TreeChoice)

def new : Pool where
  rows := (List.range cfg.numRows).map (· + 1)
  allocator := .new cfg.size
  ckpt := .new cfg.ckptSize
  mambaIndexMapping := fun _ => 0
  pingPongMapping := fun _ => List.replicate cfg.trackBufferSize 0
  reqs := fun _ => .blank
  values := fun _ => none

def setReq (kv : ReqKv) : Pool :=
  { p with reqs := Function.update p.reqs r kv }

def setValue (n : NodeId) (value : Option Slot) : Pool :=
  { p with values := Function.update p.values n value }

def side : SlotAllocator := if ckpt then p.ckpt else p.allocator

def setSide (a : SlotAllocator) : Pool :=
  if ckpt then { p with ckpt := a } else { p with allocator := a }

def freeSlots (slots : List Slot) : Pool :=
  p.setSide ckpt ((p.side ckpt).free slots)

def alloc1 : Option (Slot × Pool) :=
  match (p.side ckpt).alloc 1 with
  | some ([slot], a) => some (slot, p.setSide ckpt a)
  | _ => none

/-! ## Rows and allocation -/

def bindRows : List ReqId → List Row → Pool → Pool
  | r :: reqs, row :: rows, p =>
    if (p.reqs r).reqPoolIdx.isSome then bindRows reqs (row :: rows) p
    else bindRows reqs rows (p.setReq r { p.reqs r with reqPoolIdx := some row })
  | _, _, p => p

/-- `ReqToTokenPool.alloc`: rows for the requests that have none, from the end of the
free list. -/
def allocRows (reqs : List ReqId) : Option Pool :=
  let needSize := reqs.countP fun r => (p.reqs r).reqPoolIdx.isNone
  if needSize > p.rows.length then none
  else
    let keep := p.rows.length - needSize
    some (bindRows reqs (p.rows.drop keep) { p with rows := p.rows.take keep })

def getMambaPingPongOtherIdx (mambaNextTrackIdx : TrackIdx) : TrackIdx :=
  if cfg.trackBufferSize = 2 then 1 - mambaNextTrackIdx else mambaNextTrackIdx

def allocPingPongBuffer : Except PyError Pool :=
  let n := if cfg.lazy then 1 else cfg.trackBufferSize
  match p.allocator.alloc n with
  | none => .error (.assertionError
      "Not enough space for mamba ping pong idx, try to increase --mamba-full-memory-ratio.")
  | some (slots, a) =>
    let buf := slots ++ List.replicate (cfg.trackBufferSize - n) (-1)
    .ok ({ p with allocator := a }.setReq r
      { p.reqs r with
        pingPongTrackBuffer := some buf
        nextTrackIdx := some 0
        lastTrackIdx := some (if cfg.lazy then 0 else getMambaPingPongOtherIdx cfg 0) })

/-- The running slot, unless the request holds one already. -/
def allocRunning : Except PyError Pool :=
  if (p.reqs r).mambaPoolIdx.isSome then .ok p
  else
    match p.alloc1 false with
    | none => .error (.assertionError ("Not enough space for mamba cache, " ++
        "try to increase --mamba-full-memory-ratio or --max-mamba-cache-size."))
    | some (mid, p) => .ok (p.setReq r { p.reqs r with mambaPoolIdx := some mid })

def allocReq : Except PyError Pool := do
  let p ← p.allocRunning r
  if cfg.extraBuffer ∧ (p.reqs r).pingPongTrackBuffer = none then allocPingPongBuffer cfg p r
  else .ok p

/-- The writes of the two mappings for the rows of the batch. -/
def writeMappings : Pool :=
  match (p.reqs r).reqPoolIdx with
  | none => p
  | some row =>
    let kv := p.reqs r
    let index := Function.update p.mambaIndexMapping row (kv.mambaPoolIdx.getD 0)
    let p := { p with mambaIndexMapping := index }
    if cfg.extraBuffer then
      let pingPong := Function.update p.pingPongMapping row (kv.pingPongTrackBuffer.getD [])
      { p with pingPongMapping := pingPong }
    else p

/-- `HybridReqToTokenPool.alloc`; without enough rows nothing happens. -/
def alloc (reqs : List ReqId) : Except PyError Pool :=
  match p.allocRows reqs with
  | none => .ok p
  | some p => do
    let p ← reqs.foldlM (allocReq cfg) p
    .ok (reqs.foldl (writeMappings cfg) p)

/-! ## Ping-pong entries -/

def setMambaPingPongSlot (idx : TrackIdx) (value : Slot) : Except PyError Pool :=
  match (p.reqs r).pingPongTrackBuffer, (p.reqs r).reqPoolIdx with
  | none, _ => .error noState
  | some _, none => .error noRow
  | some buf, some row =>
    if idx.val < buf.length then
      .ok ({ p with pingPongMapping := Function.update p.pingPongMapping row (buf.set idx value) }.setReq
        r { p.reqs r with pingPongTrackBuffer := some (buf.set idx value) })
    else .error noState

def trackEntry (idx : Option TrackIdx) : Except PyError Slot :=
  match (p.reqs r).pingPongTrackBuffer, idx with
  | some buf, some idx =>
    match buf[idx.val]? with
    | some slot => .ok slot
    | none => .error noState
  | _, _ => .error noState

/-- The slot that `req` has tracked into goes to the caller, and `newSlot` takes its
place. -/
def donateMambaPingPongSlot (newSlot : Slot) : Except PyError (Slot × Pool) := do
  let donated ← p.trackEntry r (p.reqs r).lastTrackIdx
  let p ← p.setMambaPingPongSlot r ((p.reqs r).lastTrackIdx.getD 0) newSlot
  .ok (donated, p)

def trackSlotsToFree (buf : List Slot) (keep : Option TrackIdx) : Except PyError (List Slot) :=
  match keep with
  | none => .ok buf
  | some k =>
    if cfg.trackBufferSize = 2 then .ok ((buf.drop (1 - k : TrackIdx).val).take 1)
    else if k = 0 then .ok []
    else .error (.assertionError ("mamba_ping_pong_track_buffer_to_keep must be 0 when " ++
      "mamba_ping_pong_track_buffer_size is 1"))

def freeMambaCache (keep : Option TrackIdx) : Except PyError Pool :=
  match (p.reqs r).mambaPoolIdx with
  | none => .error (.assertionError "double free? mamba_index is None")
  | some mambaIndex =>
    let p := (p.freeSlots false [mambaIndex]).setReq r { p.reqs r with mambaPoolIdx := none }
    if cfg.extraBuffer then
      match (p.reqs r).reqPoolIdx with
      | none => .error noRow
      | some row => do
        let toFree ← trackSlotsToFree cfg (p.pingPongMapping row) keep
        let toFree := if cfg.lazy then toFree.filter (· ≠ -1) else toFree
        -- the source goes on to clear `req.mamba_ping_pong_track_buffer` and its like,
        -- attributes of the request that nothing reads: those of `req.kv` stay
        .ok (p.freeSlots false toFree)
    else .ok p

/-! ## Lazy mode -/

/-- The part that `mamba_lazy_prealloc_at_boundary` and `mamba_lazy_spec_prepare` share,
for a request that reaches its boundary: a second slot, unless there is one already or
none can be had.  `swap` makes it the entry to track into. -/
def lazyReserve (allocFails swap : Bool) : Except PyError Pool :=
  match (p.reqs r).nextTrackIdx with
  | none => .error noState
  | some next => do
    let entry ← p.trackEntry r (some (1 - next))
    if entry ≠ -1 ∨ allocFails then .ok p
    else
      match p.alloc1 false with
      | none => .ok p
      | some (newSlot, p) =>
        let p ← p.setMambaPingPongSlot r (1 - next) newSlot
        .ok (if swap then p.setReq r { p.reqs r with nextTrackIdx := some (1 - next) } else p)

def mambaLazyPreallocAtBoundary (allocFails : Bool) : Except PyError Pool :=
  p.lazyReserve r allocFails true

def mambaLazySpecPrepare (allocFails : Bool) : Except PyError Pool :=
  p.lazyReserve r allocFails false

def mambaLazyPostDecodeAtBoundary (trackIdx : TrackIdx) : Except PyError Pool := do
  let p := p.setReq r { p.reqs r with lastTrackIdx := some trackIdx, nextTrackIdx := some trackIdx }
  let other ← p.trackEntry r (some (1 - trackIdx))
  if other ≠ -1 then (p.freeSlots false [other]).setMambaPingPongSlot r (1 - trackIdx) (-1)
  else .ok p

def promoteTrackIdx (plannedPos : TrackIdx) : Except PyError Pool :=
  if some plannedPos = (p.reqs r).nextTrackIdx then .ok p
  else do
    let keepVal ← p.trackEntry r (p.reqs r).nextTrackIdx
    let p ← (p.freeSlots false [keepVal]).setMambaPingPongSlot r ((p.reqs r).nextTrackIdx.getD 0) (-1)
    .ok (p.setReq r { p.reqs r with nextTrackIdx := some plannedPos })

/-- `_mamba_lazy_spec_update` for a running request whose step crossed a boundary. -/
def mambaLazySpecUpdate (plannedPos : TrackIdx) (trackSeqlen : ℕ) : Except PyError Pool := do
  let p ← p.promoteTrackIdx r plannedPos
  .ok (p.setReq r
    { p.reqs r with lastTrackIdx := some plannedPos, lastTrackSeqlen := some trackSeqlen })

/-! ## The tree -/

/-- `_free_mamba_value`: with a checkpoint pool the values of the tree are its slots. -/
def freeMambaValue (value : Slot) : Pool := p.freeSlots cfg.int8 [value]

/-- The device part of `evict_component`, and the free that follows. -/
def evictComponent (node : NodeId) : Pool :=
  match p.values node with
  | none => p
  | some value => (p.setValue node none).freeMambaValue cfg value

def evict (nodes : List NodeId) : Pool := nodes.foldl (evictComponent cfg) p

def allocOrEvict (msg : String) : Except PyError (Slot × Pool) :=
  match p.alloc1 ckpt with
  | some r => .ok r
  | none =>
    match (p.evict cfg evicted).alloc1 ckpt with
    | some r => .ok r
    | none => .error (.assertionError msg)

def allocMambaSlot : Except PyError (Slot × Pool) :=
  p.allocOrEvict cfg false evicted "Can not alloc mamba cache"

def allocInt8CkptSlot : Except PyError (Slot × Pool) :=
  p.allocOrEvict cfg true evicted "Can not alloc int8 mamba checkpoint slot"

/-- `finalize_match_result_in_cache`: a slot for the copy of a matched state. -/
def cowMamba : Except PyError Pool :=
  if (p.reqs r).mambaPoolIdx.isSome then .ok p
  else do
    let (dst, p) ← p.allocMambaSlot cfg evicted
    .ok (p.setReq r { p.reqs r with mambaPoolIdx := some dst })

/-- What the tree decides while a request is cached: the nodes its evictions take, the
node where the insert ends (none where it has nothing to insert), and the nodes that the
cap on the states of a path evicts. -/
structure TreeChoice where
  evictedActive : List NodeId
  evictedCkpt : List NodeId
  target : Option NodeId
  excess : List NodeId

/-- `commit_insert_component_data`, as `mamba_exist` and the pool. -/
def commitInsertComponentData (node : NodeId) (value : Slot) (excess : List NodeId) : Bool × Pool :=
  match p.values node with
  | none => (false, (p.setValue node (some value)).evict cfg excess)
  | some _ => (true, p)

/-- The insert of a value, if there is one; whether the tree took it. -/
def insertValue (value : Option Slot) (target : Option NodeId) (excess : List NodeId) :
    Bool × Pool :=
  match value, target with
  | some value, some node =>
    let (exist, p) := p.commitInsertComponentData cfg node value excess
    (!exist, p)
  | _, _ => (false, p)

/-- `mamba_last_track_seqlen` bounds the length that is cached; nothing is inserted
below a length of 0. -/
def insertTarget : Option NodeId :=
  if cfg.extraBuffer ∧ (p.reqs r).lastTrackSeqlen.getD 0 = 0 then none else choice.target

def activeValue : Except PyError Slot :=
  if cfg.extraBuffer then p.trackEntry r (p.reqs r).lastTrackIdx
  else
    match (p.reqs r).mambaPoolIdx with
    | some slot => .ok slot
    | none => .error noState

/-- `prepare_for_caching_req` of a finished request: the value to insert. -/
def prepareFinished : Except PyError (Slot × Pool) := do
  let activeValue ← p.activeValue cfg r
  if cfg.int8 then p.allocInt8CkptSlot cfg choice.evictedCkpt else .ok (activeValue, p)

/-- The tracked slot of an unfinished request, which a new slot replaces. -/
def donateTracked : Except PyError (Slot × Pool) := do
  let (newSlot, p) ← p.allocMambaSlot cfg choice.evictedActive
  let (donated, p) ← p.donateMambaPingPongSlot r newSlot
  if cfg.int8 then do
    let (ckptSlot, p) ← p.allocInt8CkptSlot cfg choice.evictedCkpt
    .ok (ckptSlot, p.freeSlots false [donated])
  else .ok (donated, p)

def copyRunning : Except PyError (Slot × Pool) :=
  if cfg.int8 then p.allocInt8CkptSlot cfg choice.evictedCkpt
  else p.allocMambaSlot cfg choice.evictedActive

def stateToCache : Except PyError (Slot × Pool) :=
  if cfg.extraBuffer then p.donateTracked cfg r choice else p.copyRunning cfg choice

def prepareUnfinished : Except PyError (Option Slot × Pool) :=
  if cfg.extraBuffer ∧ (p.reqs r).lastTrackSeqlen = none then .ok (none, p)
  else do
    let (slot, p) ← p.stateToCache cfg r choice
    .ok (some slot, p)

def cleanupFinished (inserted : Bool) (value : Option Slot) : Except PyError Pool :=
  if cfg.int8 then
    let p :=
      match inserted, value with
      | false, some value => p.freeMambaValue cfg value
      | _, _ => p
    p.freeMambaCache cfg r none
  else if cfg.extraBuffer then
    p.freeMambaCache cfg r (if inserted then (p.reqs r).lastTrackIdx else none)
  else if inserted then .ok p else p.freeMambaCache cfg r none

def cleanupUnfinished (inserted : Bool) (value : Option Slot) : Pool :=
  let p :=
    match inserted, value with
    | false, some value => p.freeMambaValue cfg value
    | _, _ => p
  p.setReq r { p.reqs r with lastTrackSeqlen := none }

def cacheFinishedReq (isInsert : Bool) (choice : TreeChoice) : Except PyError Pool :=
  if isInsert then do
    let target := p.insertTarget cfg r choice
    let (value, p) ← p.prepareFinished cfg r choice
    let (inserted, p) := p.insertValue cfg (some value) target choice.excess
    p.cleanupFinished cfg r inserted (some value)
  else p.cleanupFinished cfg r false none

def cacheUnfinishedReq : Except PyError Pool := do
  let target := p.insertTarget cfg r choice
  let (value, p) ← p.prepareUnfinished cfg r choice
  let (inserted, p) := p.insertValue cfg value target choice.excess
  .ok (p.cleanupUnfinished cfg r inserted value)

/-! ## Release -/

def freeRow : Pool :=
  match (p.reqs r).reqPoolIdx with
  | none => p
  | some row => { p with rows := p.rows ++ [row] }.setReq r { p.reqs r with reqPoolIdx := none }

/-- The Mamba part of `release_kv_cache`. -/
def releaseKvCache (isInsert : Bool) (choice : TreeChoice) : Except PyError Pool :=
  if (p.reqs r).reqPoolIdx.isNone then
    match (p.reqs r).mambaPoolIdx with
    | none => .ok p
    | some slot => .ok ((p.freeSlots false [slot]).setReq r { p.reqs r with mambaPoolIdx := none })
  else do
    let p ← p.cacheFinishedReq cfg r isInsert choice
    .ok (p.freeRow r)

/-- `reset_for_retract` of a request without a row. -/
def resetForRetract : Pool :=
  p.setReq r
    { p.reqs r with
      mambaPoolIdx := none, pingPongTrackBuffer := none, nextTrackIdx := none, lastTrackIdx := none
      lastTrackSeqlen := none }

end Pool

end SparkInfer.Mamba
