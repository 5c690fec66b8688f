import SparkInfer.Alloc.Paged
import SparkInfer.Radix.Recorder
import Mathlib.Data.Finset.Sort

/-!
# `RadixCache`

The public operations of `radix_cache.py` with their loops.  A loop is structural
recursion on a bound for its number of rounds; the bound is always large enough
(see `SparkInfer.Radix.Walk` and `SparkInfer.Radix.Locks`).
-/

namespace SparkInfer.Radix

open Lib Alloc

structure Config where
  pageSize : Nat
  pageSize_pos : 0 < pageSize
  isEagle : Bool
  disable : Bool
  disableFinishedInsert : Bool
  evictionPolicy : EvictionPolicy
  enableKvCacheEvents : Bool
  /-- The `k`-th reading of `time.monotonic()`. -/
  monotonic : Nat → Int

structure RadixCache (H B : Type) where
  tree : Tree
  stats : Stats
  kvEvents : Recorder H B
  allocator : Paged

structure MatchResult where
  deviceIndices : List Int
  lastDeviceNode : NodeId

structure InsertResult where
  prefixLen : Nat
  lastDeviceNode : Option NodeId

namespace RadixCache

variable {H B : Type} [DecidableEq B] (cfg : Config) (hf : HashFns H B)
variable (c : RadixCache H B) (node : NodeId) (key : RadixKey)

/-- `reset`; the root starts with priority `-sys.maxsize`. -/
def reset : RadixCache H B :=
  let root := c.tree.counter
  let events := c.kvEvents.newNode root
  { c with
    tree := c.tree.reset
    stats := c.stats.newNode cfg.monotonic root (-(2 ^ 63 - 1)) 0
    kvEvents := Recorder.recordAllCleared cfg.enableKvCacheEvents
      { events with hashValue := Function.update events.hashValue root (some []) } }

def init (counter : Nat) (allocator : Paged) : RadixCache H B :=
  reset cfg
    { tree := .blank counter, stats := .blank, kvEvents := .blank, allocator := allocator }

def readClock : Int × RadixCache H B :=
  (cfg.monotonic c.stats.ticks, { c with stats := { c.stats with ticks := c.stats.ticks + 1 } })

/-! ## Splits -/

def applySplit (child parent : NodeId) (splitLen : Nat) (headKey tailKey : PyVal) :
    RadixCache H B :=
  let newNode := c.tree.counter
  { c with
    tree := c.tree.splitNode child parent splitLen headKey tailKey
    stats := c.stats.newNode cfg.monotonic newNode (c.stats.priority child)
      (c.stats.hitCount child)
    kvEvents := (c.kvEvents.newNode newNode).splitNode child newNode splitLen cfg.pageSize }

def splitNode (child : NodeId) (splitLen : Nat) : Except PyError (RadixCache H B × NodeId) := do
  let tailKey ← (key.getSlice splitLen key.len).childKey cfg.pageSize
  let parent ←
    match c.tree.parent child with
    | some p => pure p
    | none => throw (.attributeError "'NoneType' object has no attribute 'children'")
  let headKey ← key.childKey cfg.pageSize
  pure (applySplit cfg c child parent splitLen headKey tailKey, c.tree.counter)

/-! ## Matching -/

/-- `if len(key): child_key = key.child_key(self.page_size)`. -/
def nextChildKey (childKey : PyVal) : Except PyError PyVal :=
  if 0 < key.len then key.childKey cfg.pageSize else .ok childKey

def matchLoop (accessTime : Int) : Nat → RadixCache H B → NodeId → RadixKey → PyVal →
    List (List Int) → Except PyError (RadixCache H B × List (List Int) × NodeId)
  | 0, _, _, _, _, _ => .error .outOfFuel
  | fuel + 1, c, node, key, childKey, value =>
    if key.len = 0 then .ok (c, value, node)
    else
      match (c.tree.children node).lookup childKey with
      | none => .ok (c, value, node)
      | some child => do
        let c := { c with stats := c.stats.touch child accessTime }
        let prefixLen ← (c.tree.key child).matchKey key cfg.pageSize
        if prefixLen < (c.tree.key child).len then
          let (c, newNode) ← splitNode cfg c (c.tree.key child) child prefixLen
          pure (c, value ++ [c.tree.value newNode], newNode)
        else
          let value := value ++ [c.tree.value child]
          let key := key.getSlice prefixLen key.len
          let childKey ← nextChildKey cfg key childKey
          matchLoop accessTime fuel c child key childKey value

def matchPrefixHelper : Except PyError (RadixCache H B × List (List Int) × NodeId) := do
  let (accessTime, c) := readClock cfg c
  let c := { c with stats := c.stats.touch node accessTime }
  let childKey ← key.childKey cfg.pageSize
  matchLoop cfg accessTime (key.len + 1) c node key childKey []

def matchPrefix : Except PyError (RadixCache H B × MatchResult) :=
  let emptyMatchResult : MatchResult := ⟨[], c.tree.rootNode⟩
  let key := (key.maybeToBigramView cfg.isEagle none).1
  if cfg.disable || key.len == 0 then .ok (c, emptyMatchResult)
  else
    let key := key.pageAligned cfg.pageSize
    if key.len = 0 then .ok (c, emptyMatchResult)
    else do
      let (c, value, lastNode) ← matchPrefixHelper cfg c c.tree.rootNode key
      return (c, ⟨value.flatten, lastNode⟩)

/-! ## Insertion -/

structure InsertCursor where
  node : NodeId
  key : RadixKey
  value : List Int
  totalPrefixLength : Nat
  childKey : PyVal

/-- The node a round of `_insert_helper` continues from: `node`, or its first
part when the key matches only that. -/
def landOn (prefixLen : Nat) : Except PyError (RadixCache H B × NodeId) :=
  if prefixLen < (c.tree.key node).len then splitNode cfg c (c.tree.key node) node prefixLen
  else .ok (c, node)

def insertLoop (priority : Int) (chunked : Bool) (accessTime : Int) :
    Nat → RadixCache H B → InsertCursor → Except PyError (RadixCache H B × InsertCursor)
  | 0, _, _ => .error .outOfFuel
  | fuel + 1, c, cur =>
    if cur.key.len = 0 then .ok (c, cur)
    else
      match (c.tree.children cur.node).lookup cur.childKey with
      | none => .ok (c, cur)
      | some node => do
        let c := { c with stats := c.stats.touch node accessTime }
        let prefixLen ← (c.tree.key node).matchKey cur.key cfg.pageSize
        let key := cur.key.getSlice prefixLen cur.key.len
        let value := cur.value.drop prefixLen
        let (c, node) ← landOn cfg c node prefixLen
        let c :=
          { c with stats := (c.stats.raisePriority node priority).incHitCount node chunked }
        let childKey ← nextChildKey cfg key cur.childKey
        insertLoop priority chunked accessTime fuel c
          { node := node
            key := key
            value := value
            totalPrefixLength := cur.totalPrefixLength + prefixLen
            childKey := childKey }

/-- The end of `_insert_helper`: what is left of the key becomes a new leaf. -/
def addLeaf (cur : InsertCursor) (priority : Int) (chunked : Bool) :
    Except PyError (RadixCache H B × NodeId) := do
  let newNode := c.tree.counter
  let tree := c.tree.addLeaf cur.node cur.key cur.value cur.childKey
  let stats := (c.stats.newNode cfg.monotonic newNode priority 0).incHitCount newNode chunked
  let kvEvents ← (c.kvEvents.newNode newNode).recordStore hf tree cfg.pageSize
    cfg.enableKvCacheEvents newNode .gpu
  pure ({ c with tree := tree, stats := stats, kvEvents := kvEvents }, newNode)

def insertHelper (value : List Int) (priority : Int) (chunked : Bool) :
    Except PyError (RadixCache H B × Nat × NodeId) := do
  let (accessTime, c) := readClock cfg c
  let c := { c with stats := (c.stats.touch node accessTime).raisePriority node priority }
  if key.len = 0 then pure (c, 0, node)
  else
    let childKey ← key.childKey cfg.pageSize
    let (c, cur) ← insertLoop cfg priority chunked accessTime (key.len + 1) c
      { node := node, key := key, value := value, totalPrefixLength := 0, childKey := childKey }
    if cur.key.len = 0 then pure (c, cur.totalPrefixLength, cur.node)
    else
      let (c, newNode) ← addLeaf cfg hf c cur priority chunked
      pure (c, cur.totalPrefixLength, newNode)

/-- The indices to store along an aligned key; without a value the token ids
stand in for it. -/
def valueOrTokenIds (value : Option (List Int)) (key : RadixKey) : List Int :=
  match value with
  | some value => value.take key.len
  | none => key.tokenIds.take key.len

def insert (value : Option (List Int)) (priority : Int) (chunked : Bool) :
    Except PyError (RadixCache H B × InsertResult) :=
  if cfg.disable then .ok (c, ⟨0, none⟩)
  else
    let view := key.maybeToBigramView cfg.isEagle value
    let key := view.1.pageAligned cfg.pageSize
    let value := valueOrTokenIds view.2 key
    do
      let (c, prefixLen, lastNode) ← insertHelper cfg hf c c.tree.rootNode key value priority chunked
      return (c, ⟨prefixLen, some lastNode⟩)

/-! ## Locks -/

def incLockLoop : Nat → Tree → NodeId → Int → Except PyError (Tree × Int)
  | 0, _, _, _ => .error .outOfFuel
  | fuel + 1, t, node, delta =>
    if node = t.rootNode then .ok (t, delta)
    else
      let delta := if t.lockRef node = 0 then delta - (t.key node).len else delta
      match t.parent node with
      | none => .error (.attributeError "'NoneType' object has no attribute 'lock_ref'")
      | some p => incLockLoop fuel (t.incLock node) p delta

def incLockRef : Except PyError (RadixCache H B × Int) :=
  if cfg.disable then .ok (c, 0)
  else do
    let (tree, delta) ← incLockLoop (c.tree.counter + 1) c.tree node 0
    return ({ c with tree := tree }, delta)

def decLockLoop : Nat → Tree → NodeId → Int → Except PyError (Tree × Int)
  | 0, _, _, _ => .error .outOfFuel
  | fuel + 1, t, node, delta =>
    if node = t.rootNode then .ok (t, delta)
    else
      let delta := if t.lockRef node = 1 then delta + (t.key node).len else delta
      match t.parent node with
      | none => .error (.assertionError "This request holds the node from another tree")
      | some p => decLockLoop fuel (t.decLock node) p delta

def decLockRef : Except PyError (RadixCache H B × Int) :=
  if cfg.disable then .ok (c, 0)
  else do
    let (tree, delta) ← decLockLoop (c.tree.counter + 1) c.tree node 0
    return ({ c with tree := tree }, delta)

/-! ## Eviction -/

/-- A heap entry: the strategy's priority, then the `last_access_time` that
`TreeNode.__lt__` compares. -/
def heapEntry : List Int × NodeId :=
  (cfg.evictionPolicy.getPriority c.stats node ++ [c.stats.lastAccessTime node], node)

/-- `heapq.heappop`: a least entry; among equal ones `tie` decides. -/
def heappop (tie : List NodeId → Nat) (heap : List (List Int × NodeId)) :
    Option ((List Int × NodeId) × List (List Int × NodeId)) :=
  let least := heap.filter fun x => heap.all fun y => decide (¬ y.1 < x.1)
  match least[tie (heap.map Prod.snd) % least.length]? with
  | none => none
  | some x => some (x, heap.erase x)

def deleteLeaf (t : Tree) (node : NodeId) : Except PyError Tree := do
  let key ← (t.key node).childKey cfg.pageSize
  match t.parent node with
  | none => throw (.attributeError "'NoneType' object has no attribute 'children'")
  | some p =>
    if (t.children p).lookup key = some node then return t.deleteLeaf node p key
    else throw (.assertionError "parent does not have child key")

def evictLoop (tie : List NodeId → Nat) (numTokens : Nat) :
    Nat → RadixCache H B → List (List Int × NodeId) → Nat → Except PyError (RadixCache H B × Nat)
  | 0, _, _, _ => .error .outOfFuel
  | fuel + 1, c, heap, numEvicted =>
    if numTokens ≤ numEvicted then .ok (c, numEvicted)
    else
      match heappop tie heap with
      | none => .ok (c, numEvicted)
      | some ((_, x), heap) => do
        let allocator := c.allocator.freeSegment (c.tree.value x) 0
        let numEvicted := numEvicted + (c.tree.value x).length
        let tree ← deleteLeaf cfg c.tree x
        let c := { c with tree := tree, allocator := allocator }
        let heap :=
          match c.tree.parent x with
          | none => heap
          | some p =>
            if (c.tree.children p).keys = [] ∧ c.tree.lockRef p = 0 then
              heap ++ [heapEntry cfg c p]
            else heap
        let kvEvents ← c.kvEvents.recordRemove hf c.tree cfg.pageSize cfg.enableKvCacheEvents x .gpu
        evictLoop tie numTokens fuel { c with kvEvents := kvEvents } heap numEvicted

def evict (tie : List NodeId → Nat) (c : RadixCache H B) (numTokens : Nat) :
    Except PyError (RadixCache H B × Nat) :=
  if cfg.disable then .ok (c, 0)
  else
    let leaves := c.tree.evictableLeaves.sort (· ≤ ·)
    evictLoop cfg hf tie numTokens (c.tree.counter + 1) c (leaves.map (heapEntry cfg c)) 0

end RadixCache

end SparkInfer.Radix
