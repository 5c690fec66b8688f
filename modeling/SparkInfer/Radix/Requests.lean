import SparkInfer.Alloc.Pages
import SparkInfer.Radix.System

/-!
# Requests over a radix cache

A live request owns a row of `req_to_token`.  Admission fills it with the matched
prefix, the allocator lengthens it, `cache_unfinished_req` hands its pages to the
tree, and `release_kv_cache` gives everything back when the request ends.
-/

namespace SparkInfer.Radix

open Lib Lib.CommonPrefix Alloc

structure Req where
  originInputIds : List Int
  outputIds : List Int
  extraKey : Option String
  cacheSalt : Option String
  priority : Option Int
  /-- `req_to_token[req_pool_idx, :kv_allocated_len]`, from admission on. -/
  row : List Int
  prefixIndices : List Int
  cacheProtectedLen : Nat
  lastNode : NodeId

namespace Req

def tokenIds (r : Req) : List Int := r.originInputIds ++ r.outputIds

/-- The key of the first `n` tokens as the `cache_*_req` methods build it. -/
def radixKey (cfg : Config) (r : Req) (n : Nat) : RadixKey :=
  (RadixKey.new (r.tokenIds.take n) r.extraKey cfg.isEagle none r.cacheSalt).pageAligned
    cfg.pageSize

def matchKey (r : Req) (limit : Option Nat) : RadixKey :=
  .new r.tokenIds r.extraKey false limit r.cacheSalt

/-- The row range `[cache_protected_len, kv_allocated_len)`. -/
def unprotected (r : Req) : List Int := r.row.drop r.cacheProtectedLen

end Req

namespace RadixCache

variable {H B : Type} [DecidableEq B] (cfg : Config) (hf : HashFns H B)
variable (c : RadixCache H B) (r : Req) (isInsert : Bool)

/-- `match_prefix` and `inc_lock_ref` for a request that is scheduled. -/
def admitReq (limit : Option Nat) : Except PyError (RadixCache H B × Req) := do
  let (c, result) ← c.matchPrefix cfg (r.matchKey limit)
  let (c, _) ← c.incLockRef cfg result.lastDeviceNode
  pure (c, { r with
    row := result.deviceIndices
    prefixIndices := result.deviceIndices
    cacheProtectedLen := result.deviceIndices.length
    lastNode := result.lastDeviceNode })

/-- The slots of a chunk that ends at `seqLen`; without room nothing happens. -/
def extendReq (seqLen : Nat) : RadixCache H B × Req :=
  match c.allocator.allocForExtend r.prefixIndices.length seqLen
      (r.prefixIndices.getLast?.getD (-1)) with
  | (none, a) => ({ c with allocator := a }, r)
  | (some out, a) => ({ c with allocator := a }, { r with row := r.prefixIndices ++ out })

def decodeReq : RadixCache H B × Req :=
  match c.allocator.allocForDecode (r.row.length + 1) (r.row.getLast?.getD (-1)) with
  | (none, a) => ({ c with allocator := a }, r)
  | (some out, a) => ({ c with allocator := a }, { r with row := r.row ++ out })

def cacheUnfinishedReq (fillLen : Nat) (chunked : Bool) : Except PyError (RadixCache H B × Req) :=
  if cfg.disable then .ok (c, r)
  else do
    let tokenIds := r.tokenIds.take fillLen
    let kvIndices := r.row.take tokenIds.length
    let radixKey := r.radixKey cfg fillLen
    let values := kvIndices.take radixKey.len
    let (c, result) ← c.insert cfg hf radixKey (some values) (r.priority.getD 0) chunked
    let allocator := c.allocator.freeSegment
      (slice kvIndices r.cacheProtectedLen result.prefixLen) r.cacheProtectedLen
    let (c, found) ← { c with allocator := allocator }.matchPrefix cfg radixKey
    let newIndices := found.deviceIndices
    if newIndices.length ≠ radixKey.len then
      throw (.assertionError
        s!"len(new_indices)={newIndices.length}, len(radix_key)={radixKey.len}")
    let row := r.row.take r.cacheProtectedLen ++ newIndices.drop r.cacheProtectedLen ++
      r.row.drop newIndices.length
    let (c, _) ← c.decLockRef cfg r.lastNode
    let (c, _) ← c.incLockRef cfg found.lastDeviceNode
    pure (c, { r with
      row := row
      cacheProtectedLen := newIndices.length
      prefixIndices :=
        -- a cut last page, or the last token of a bigram key, stays with the request
        if newIndices.length < kvIndices.length then
          newIndices ++ kvIndices.drop newIndices.length
        else newIndices
      lastNode := found.lastDeviceNode })

/-- `insert` of `cache_finished_req`, and the end of what is freed before it. -/
def insertFinished (key : RadixKey) (values : List Int) : Except PyError (RadixCache H B × Nat) :=
  if isInsert then do
    let (c, result) ← c.insert cfg hf key (some values) (r.priority.getD 0) false
    pure (c, result.prefixLen)
  else .ok (c, key.len)

def cacheFinishedReq (kvLenToHandle : Nat) : Except PyError (RadixCache H B) :=
  let isInsert := if cfg.disableFinishedInsert then false else isInsert
  if cfg.disable then
    .ok { c with
      allocator := c.allocator.freeSegment (slice r.row r.cacheProtectedLen kvLenToHandle)
        r.cacheProtectedLen }
  else do
    let tokenIds := r.tokenIds.take kvLenToHandle
    let kvIndices := r.row.take tokenIds.length
    let radixKey := r.radixKey cfg kvLenToHandle
    let keyLen := radixKey.len
    let values := kvIndices.take keyLen
    let (c, freedEnd) ← insertFinished cfg hf c r isInsert radixKey values
    let allocator := c.allocator.freeSegments
      [(slice kvIndices r.cacheProtectedLen freedEnd, r.cacheProtectedLen),
        (kvIndices.drop keyLen, keyLen)]
    let (c, _) ← { c with allocator := allocator }.decLockRef cfg r.lastNode
    pure c

def releaseOverallocated (a : Paged) (r : Req) (startP : Nat) : Paged :=
  let startP := if 1 < a.pageSize then Paged.ceilDiv startP a.pageSize * a.pageSize else startP
  if startP < r.row.length then a.freeSegments [(slice r.row startP r.row.length, startP)] else a

def releaseKvCache (kvLen : Nat) : Except PyError (RadixCache H B) := do
  let c ← cacheFinishedReq cfg hf c r isInsert kvLen
  pure { c with allocator := releaseOverallocated c.allocator r kvLen }

def flush : RadixCache H B :=
  { c.reset cfg with allocator := c.allocator.clear }

end RadixCache

/-! ## Runs -/

structure World (H B : Type) where
  cache : RadixCache H B
  live : List Req

inductive Act
  | admitReq (r : Req) (limit : Option Nat)
  | matchPrefix (key : RadixKey)
  | output (i : Nat) (tokens : List Int)
  | extend (i seqLen : Nat)
  | decode (i : Nat)
  | cacheUnfinished (i fillLen : Nat) (chunked : Bool)
  | finish (i : Nat) (isInsert : Bool) (kvLen : Nat)
  | evict (tie : List NodeId → Nat) (numTokens : Nat)
  | freeGroupBegin
  | freeGroupEnd
  | flush
  | reset

namespace World

variable {H B : Type} [DecidableEq B]

def init (cfg : Config) (counter size : Nat) (needSort : Bool) : World H B :=
  { cache := .init cfg counter (.new size cfg.pageSize needSort), live := [] }

def onReq (w : World H B) (i : Nat)
    (f : RadixCache H B → Req → Except PyError (RadixCache H B × Req)) :
    Except PyError (World H B) :=
  match w.live[i]? with
  | none => .ok w
  | some r => do
    let (c, r) ← f w.cache r
    pure { cache := c, live := w.live.set i r }

def step (cfg : Config) (hf : HashFns H B) (w : World H B) : Act → Except PyError (World H B)
  | .admitReq r limit => do
    let (c, r) ← w.cache.admitReq cfg r limit
    pure { cache := c, live := r :: w.live }
  | .matchPrefix key => do
    let (c, _) ← w.cache.matchPrefix cfg key
    pure { w with cache := c }
  | .output i tokens => w.onReq i fun c r => .ok (c, { r with outputIds := r.outputIds ++ tokens })
  | .extend i seqLen => w.onReq i fun c r => .ok (c.extendReq r seqLen)
  | .decode i => w.onReq i fun c r => .ok (c.decodeReq r)
  | .cacheUnfinished i fillLen chunked =>
    w.onReq i fun c r => c.cacheUnfinishedReq cfg hf r fillLen chunked
  | .finish i isInsert kvLen =>
    match w.live[i]? with
    | none => .ok w
    | some r => do
      let c ← w.cache.releaseKvCache cfg hf r isInsert kvLen
      pure { cache := c, live := w.live.eraseIdx i }
  | .evict tie numTokens => do
    let (c, _) ← w.cache.evict cfg hf tie numTokens
    pure { w with cache := c }
  | .freeGroupBegin =>
    .ok { w with cache := { w.cache with allocator := w.cache.allocator.freeGroupBegin } }
  | .freeGroupEnd =>
    .ok { w with cache := { w.cache with allocator := w.cache.allocator.freeGroupEnd } }
  | .flush => .ok { w with cache := w.cache.flush cfg }
  | .reset => .ok { w with cache := w.cache.reset cfg }

/-- The KV of the first `n` tokens is in the row, and their key covers the
protected prefix. -/
structure CanCache (cfg : Config) (r : Req) (n : Nat) : Prop where
  le_row : n ≤ r.row.length
  le_tokens : n ≤ r.tokenIds.length
  covers : r.cacheProtectedLen ≤ (r.radixKey cfg n).len

/-- What the scheduler promises. -/
def Legal (cfg : Config) (w : World H B) : Act → Prop
  -- the prefix of a chunk is the whole row written so far
  | .extend i seqLen => ∀ r, w.live[i]? = some r →
      r.prefixIndices.length = r.row.length ∧ r.row.length ≤ seqLen
  | .cacheUnfinished i fillLen _ => ∀ r, w.live[i]? = some r → CanCache cfg r fillLen
  | .finish i _ kvLen => ∀ r, w.live[i]? = some r → CanCache cfg r kvLen
  -- free groups do not nest
  | .freeGroupBegin => w.cache.allocator.freeGroup = none
  -- the server is idle
  | .flush => w.live = []
  | _ => True

inductive ReachBy (cfg : Config) (hf : HashFns H B) (allowed : Act → Prop) : World H B → Prop
  | init (counter size : Nat) (needSort : Bool) :
      ReachBy cfg hf allowed (init cfg counter size needSort)
  | step {w w' : World H B} {act : Act} (h : ReachBy cfg hf allowed w) (legal : w.Legal cfg act)
      (hact : allowed act) (hstep : w.step cfg hf act = .ok w') : ReachBy cfg hf allowed w'

end World

end SparkInfer.Radix
