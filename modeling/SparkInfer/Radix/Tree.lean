import SparkInfer.Radix.Key
import Mathlib.Data.Finset.Erase
import Mathlib.Data.Finset.Insert
import Mathlib.Data.List.AList

/-!
# The node heap of the radix tree

`TreeNode` objects are mutable and shared, so the tree is a heap: every field is
a function of the node, and a write is `Function.update`.  A deleted node keeps
its fields; it is only taken out of its parent's `children`.  `value` is never
`None` in `RadixCache`, so `evicted` is false of every node and is not kept.

The functions here are the straight-line writes of `_split_node`,
`_insert_helper`, `_delete_leaf` and the lock walks; `SparkInfer.Radix.Cache`
puts the loops around them.
-/

namespace SparkInfer.Radix

open Lib Function

abbrev NodeId := Nat

structure Skeleton where
  counter : Nat
  rootNode : NodeId
  parent : NodeId → Option NodeId
  children : NodeId → AList fun _ : PyVal => NodeId
  key : NodeId → RadixKey
  value : NodeId → List Int

namespace Skeleton

def reset (s : Skeleton) : Skeleton where
  counter := s.counter + 1
  rootNode := s.counter
  parent := update s.parent s.counter none
  children := update s.children s.counter ∅
  key := update s.key s.counter .empty
  value := update s.value s.counter []

/-- The writes of `_split_node`: the new node `s.counter` takes the first
`splitLen` units of `child` and its place below `parent`. -/
def splitNode (s : Skeleton) (child parent : NodeId) (splitLen : Nat)
    (headKey tailKey : PyVal) : Skeleton :=
  let newNode := s.counter
  let children := update s.children newNode (AList.insert tailKey child ∅)
  { s with
    counter := s.counter + 1
    parent := update (update s.parent newNode (s.parent child)) child
      (some newNode)
    children := update children parent (AList.insert headKey newNode (children parent))
    key := update (update s.key newNode ((s.key child).getSlice 0 splitLen))
      child ((s.key child).getSlice splitLen (s.key child).len)
    value := update (update s.value newNode ((s.value child).take splitLen))
      child ((s.value child).drop splitLen) }

def addLeaf (s : Skeleton) (node : NodeId) (key : RadixKey) (value : List Int)
    (childKey : PyVal) : Skeleton :=
  let newNode := s.counter
  let children := update s.children newNode ∅
  { s with
    counter := s.counter + 1
    parent := update s.parent newNode (some node)
    children := update children node (AList.insert childKey newNode (children node))
    key := update s.key newNode key
    value := update s.value newNode value }

/-- `node.parent.children.pop(key)`. -/
def removeChild (s : Skeleton) (parent : NodeId) (key : PyVal) : Skeleton :=
  { s with children := update s.children parent ((s.children parent).erase key) }

end Skeleton

structure Tree extends Skeleton where
  lockRef : NodeId → Int
  evictableSize : Int
  protectedSize : Int
  evictableLeaves : Finset NodeId

namespace Tree

/-- The heap before the first `reset`; `counter` is class-wide and may already
have been used by other trees. -/
def blank (counter : Nat) : Tree where
  counter := counter
  rootNode := 0
  parent := fun _ => none
  children := fun _ => ∅
  key := fun _ => .empty
  value := fun _ => []
  lockRef := fun _ => 0
  evictableSize := 0
  protectedSize := 0
  evictableLeaves := ∅

def reset (t : Tree) : Tree where
  toSkeleton := t.toSkeleton.reset
  lockRef := update t.lockRef t.counter 1
  evictableSize := 0
  protectedSize := 0
  evictableLeaves := ∅

variable (t : Tree) (node : NodeId)

def updateLeafStatus : Tree :=
  if 0 < t.lockRef node then
    { t with evictableLeaves := t.evictableLeaves.erase node }
  else if (t.children node).keys ≠ [] then
    { t with evictableLeaves := t.evictableLeaves.erase node }
  else
    { t with evictableLeaves := insert node t.evictableLeaves }

def splitNode (t : Tree) (child parent : NodeId) (splitLen : Nat) (headKey tailKey : PyVal) :
    Tree :=
  { t with
    toSkeleton := t.toSkeleton.splitNode child parent splitLen headKey tailKey
    lockRef := update t.lockRef t.counter (t.lockRef child) }

def addLeaf (t : Tree) (node : NodeId) (key : RadixKey) (value : List Int) (childKey : PyVal) :
    Tree :=
  let t' : Tree :=
    { t with
      toSkeleton := t.toSkeleton.addLeaf node key value childKey
      lockRef := update t.lockRef t.counter 0
      evictableSize := t.evictableSize + key.len }
  (t'.updateLeafStatus node).updateLeafStatus t.counter

def deleteLeaf (node parent : NodeId) (key : PyVal) : Tree :=
  let t' : Tree :=
    { t with
      toSkeleton := t.toSkeleton.removeChild parent key
      evictableSize := t.evictableSize - (t.key node).len
      evictableLeaves := t.evictableLeaves.erase node }
  t'.updateLeafStatus parent

def incLock : Tree :=
  let moved : Int := if t.lockRef node = 0 then (t.key node).len else 0
  let t' : Tree :=
    { t with
      evictableSize := t.evictableSize - moved
      protectedSize := t.protectedSize + moved
      lockRef := update t.lockRef node (t.lockRef node + 1) }
  t'.updateLeafStatus node

def decLock : Tree :=
  let moved : Int := if t.lockRef node = 1 then (t.key node).len else 0
  let t' : Tree :=
    { t with
      evictableSize := t.evictableSize + moved
      protectedSize := t.protectedSize - moved
      lockRef := update t.lockRef node (t.lockRef node - 1) }
  t'.updateLeafStatus node

/-! The bookkeeping never touches links or contents. -/

@[simp] theorem updateLeafStatus_toSkeleton :
    (t.updateLeafStatus node).toSkeleton = t.toSkeleton := by
  unfold updateLeafStatus
  split_ifs <;> rfl

@[simp] theorem updateLeafStatus_lockRef : (t.updateLeafStatus node).lockRef = t.lockRef := by
  unfold updateLeafStatus
  split_ifs <;> rfl

@[simp] theorem updateLeafStatus_evictableSize :
    (t.updateLeafStatus node).evictableSize = t.evictableSize := by
  unfold updateLeafStatus
  split_ifs <;> rfl

@[simp] theorem updateLeafStatus_protectedSize :
    (t.updateLeafStatus node).protectedSize = t.protectedSize := by
  unfold updateLeafStatus
  split_ifs <;> rfl

theorem mem_updateLeafStatus (node x : NodeId) : x ∈ (t.updateLeafStatus node).evictableLeaves ↔
      if x = node then t.lockRef node ≤ 0 ∧ (t.children node).keys = []
      else x ∈ t.evictableLeaves := by
  unfold updateLeafStatus
  by_cases hx : x = node
  · subst hx
    rw [if_pos rfl]
    split_ifs with hlock hkeys
    · simp [hlock]
    · simp [hkeys]
    · have hkeys' : (t.children x).keys = [] := by simpa using hkeys
      simp [hkeys', not_lt.mp hlock]
  · rw [if_neg hx]
    split_ifs <;> simp [hx]

@[simp] theorem addLeaf_toSkeleton (key : RadixKey) (value : List Int) (childKey : PyVal) :
    (t.addLeaf node key value childKey).toSkeleton =
      t.toSkeleton.addLeaf node key value childKey := by
  simp [addLeaf]

@[simp] theorem deleteLeaf_toSkeleton (node parent : NodeId) (key : PyVal) :
    (t.deleteLeaf node parent key).toSkeleton = t.toSkeleton.removeChild parent key := by
  simp [deleteLeaf]

@[simp] theorem incLock_toSkeleton : (t.incLock node).toSkeleton = t.toSkeleton := by
  simp [incLock]

@[simp] theorem decLock_toSkeleton : (t.decLock node).toSkeleton = t.toSkeleton := by
  simp [decLock]

end Tree

/-! ## Access statistics -/

/-- The node fields only the eviction strategies read.  `ticks` counts the
readings of `time.monotonic()` so far. -/
structure Stats where
  ticks : Nat
  lastAccessTime : NodeId → Int
  creationTime : NodeId → Int
  hitCount : NodeId → Nat
  priority : NodeId → Int

namespace Stats

def blank : Stats where
  ticks := 0
  lastAccessTime := fun _ => 0
  creationTime := fun _ => 0
  hitCount := fun _ => 0
  priority := fun _ => 0

/-- The field initialisers of `TreeNode.__init__`, with `hit_count` as the
caller sets it afterwards. -/
def newNode (clock : Nat → Int) (s : Stats) (node : NodeId) (priority : Int) (hitCount : Nat) :
    Stats where
  ticks := s.ticks + 2
  lastAccessTime := update s.lastAccessTime node (clock s.ticks)
  creationTime := update s.creationTime node (clock (s.ticks + 1))
  hitCount := update s.hitCount node hitCount
  priority := update s.priority node priority

def touch (s : Stats) (node : NodeId) (accessTime : Int) : Stats :=
  { s with lastAccessTime := update s.lastAccessTime node accessTime }

def raisePriority (s : Stats) (node : NodeId) (priority : Int) : Stats :=
  { s with priority := update s.priority node (max (s.priority node) priority) }

def incHitCount (s : Stats) (node : NodeId) (chunked : Bool) : Stats :=
  if chunked then s
  else { s with hitCount := update s.hitCount node (s.hitCount node + 1) }

end Stats

inductive EvictionPolicy
  | lru | lfu | fifo | mru | filo | priority | slru
  deriving DecidableEq, Repr

/-- `get_priority` of the seven strategies; a scalar is a one-element tuple. -/
def EvictionPolicy.getPriority (policy : EvictionPolicy) (s : Stats) (node : NodeId) : List Int :=
  match policy with
  | .lru => [s.lastAccessTime node]
  | .lfu => [s.hitCount node, s.lastAccessTime node]
  | .fifo => [s.creationTime node]
  | .mru => [-s.lastAccessTime node]
  | .filo => [-s.creationTime node]
  | .priority => [s.priority node, s.lastAccessTime node]
  | .slru => [if 2 ≤ s.hitCount node then 1 else 0, s.lastAccessTime node]

end SparkInfer.Radix
