import SparkInfer.Unified.Core

/-!
# Locks of the unified tree

A lock on a node pins, in each component, the values the holder needs: the path
for `FULL`, the trailing sliding window for `SWA`, the node for `MAMBA`.  What was
pinned is not stored; the holder keeps the node, the mark of the node where the
window was complete, and the nodes that had nothing to pin.
-/

namespace SparkInfer.Unified

inductive LockError
  | unknownNode
  /-- `FULL invariant broken: evicted ancestor above device-on segment`. -/
  | evictedAncestor
  /-- `assert cd.value is not None`, or `len` of a missing value. -/
  | valueIsNone
  | lockNotPositive
  deriving DecidableEq, Repr

/-- `DecLockRefParams`; the two `swa_uuid` fields are indexed by the layer. -/
structure DecLockRefParams where
  swaUuid : Layer → Option Nat
  skipLockNodeIds : ComponentType → Finset NodeId

structure IncLockRefResult extends DecLockRefParams where
  delta : Option Int

def IncLockRefResult.empty : IncLockRefResult where
  swaUuid := fun _ => none
  skipLockNodeIds := fun _ => ∅
  delta := none

/-- `result.skip_lock_node_ids.setdefault(ct, set())` with `ns` added. -/
def IncLockRefResult.skip (r : IncLockRefResult) (ct : ComponentType) (ns : Finset NodeId) :
    IncLockRefResult :=
  { r with skipLockNodeIds :=
      Function.update r.skipLockNodeIds ct (r.skipLockNodeIds ct ∪ ns) }

namespace Core

variable (cfg : CoreConfig)

/-! ## Acquiring -/

/-- The second loop of `FullComponent.acquire_component_lock`. -/
def fullLockUp (c : Core) (delta : Int) : List NodeId → Except LockError (Core × Int)
  | [] => .ok (c, delta)
  | cur :: rest =>
    match c.value .device .full cur with
    | none => .error .evictedAncestor
    | some v =>
      let moved : Int := if c.lockRef .device .full cur = 0 then v.length else 0
      let c := c.protect .full moved
      let c := c.setLockRef .device .full cur (c.lockRef .device .full cur + 1)
      let c := c.discardDeviceLeaf cur
      c.fullLockUp (delta + moved) rest

variable (c : Core) (l : Layer) (node : NodeId) (ct : ComponentType) (params : DecLockRefParams)
variable (cur : NodeId) (result : IncLockRefResult)

def fullAcquire : Except LockError (Core × IncLockRefResult) :=
  match l with
  | .host =>
    if c.value .host .full node = none ∧ cfg.isWriteBack = false then .ok (c, result)
    else
      let c := c.setLockRef .host .full node (c.lockRef .host .full node + 1)
      .ok (c.updateEvictableLeafSets node, result)
  | .device => do
    let path := c.tree.climb node
    let evicted := fun cur => decide (c.value .device .full cur = none)
    let (c, delta) ← c.fullLockUp 0 (path.dropWhile evicted)
    .ok (c, { result.skip .full (path.takeWhile evicted).toFinset with delta := some delta })

/-- What locking one more node does before the count goes up. -/
def beforeFirstLock (len : Nat) : Core :=
  if c.lockRef l ct cur = 0 then
    match l with
    | .host => c.detachLru .host ct cur
    | .device => c.protect ct len
  else c

/-- The mark of a node whose window is complete, a new one if it has none. -/
def markWindow : Core × Nat :=
  match c.uuid l cur with
  | some u => (c, u)
  | none =>
    let u := c.uuidCounter + 1
    ({ c with toData := { c.toData.setUuid l cur (some u) with uuidCounter := u } }, u)

/-- The loop of `SWAComponent.acquire_component_lock`. -/
def swaLockUp (l : Layer) : Core → Nat → Finset NodeId → Option Nat → List NodeId →
    Core × Finset NodeId × Option Nat
  | c, _, skip, uuid, [] => (c, skip, uuid)
  | c, size, skip, uuid, cur :: rest =>
    if size < cfg.slidingWindowSize then
      match c.value l .swa cur with
      | none => swaLockUp l c size (insert cur skip) uuid rest
      | some v =>
        let c := c.beforeFirstLock l .swa cur (c.tree.keyLen cur)
        let c := c.setLockRef l .swa cur (c.lockRef l .swa cur + 1)
        if cfg.slidingWindowSize ≤ size + v.length then
          let (c, u) := c.markWindow l cur
          swaLockUp l c (size + v.length) skip (some u) rest
        else swaLockUp l c (size + v.length) skip uuid rest
    else (c, skip, uuid)

def swaAcquire : Core × IncLockRefResult :=
  let (c, skip, uuid) := swaLockUp cfg l c 0 ∅ none (c.tree.climb node)
  let result := result.skip .swa skip
  (c, { result with swaUuid := Function.update result.swaUuid l uuid })

def mambaAcquire : Core × IncLockRefResult :=
  if node = c.tree.rootNode then (c, result)
  else match c.value l .mamba node with
    | none => (c, result.skip .mamba {node})
    | some v =>
      let c := c.beforeFirstLock l .mamba node v.length
      (c.setLockRef l .mamba node (c.lockRef l .mamba node + 1), result)

def acquireComponentLock (node : NodeId) (result : IncLockRefResult) :
    Except LockError (Core × IncLockRefResult) :=
  match ct with
  | .full => c.fullAcquire cfg l node result
  | .swa => .ok (c.swaAcquire cfg l node result)
  | .mamba => .ok (c.mambaAcquire l node result)

/-- The component loop of `inc_lock_ref` and `inc_host_lock_ref`. -/
def acquireAll (l : Layer) (node : NodeId) (skipLockComponents : List ComponentType) :
    List ComponentType → Core → IncLockRefResult → Except LockError (Core × IncLockRefResult)
  | [], c, result => .ok (c, result)
  | ct :: rest, c, result => do
    if ct ∈ skipLockComponents then
      let result := if node = c.tree.rootNode then result else result.skip ct {node}
      acquireAll l node skipLockComponents rest c result
    else
      let (c, result) ← c.acquireComponentLock cfg l ct node result
      acquireAll l node skipLockComponents rest c result

def incLockRef (skipLockComponents : List ComponentType) :
    Except LockError (Core × IncLockRefResult) :=
  if node ∉ c.tree.arena then .error .unknownNode
  else do
    let (c, result) ← acquireAll cfg .device node skipLockComponents cfg.components c .empty
    .ok (c.updateEvictableLeafSets node, result)

def incHostLockRef : Except LockError (Core × IncLockRefResult) :=
  if node ∉ c.tree.arena then .error .unknownNode
  else do
    let (c, result) ← acquireAll cfg .host node [] cfg.components c .empty
    .ok (c.updateEvictableLeafSets node, result)

/-! ## Releasing -/

/-- The loop of `FullComponent.release_component_lock`. -/
def fullRelease (skip : Finset NodeId) : Core → List NodeId → Except LockError Core
  | c, [] => .ok c
  | c, cur :: rest =>
    if cur ∈ skip then fullRelease skip c rest
    else match c.value .device .full cur with
      | none => .error .valueIsNone
      | some v =>
        if 0 < c.lockRef .device .full cur then
          let moved : Int := if c.lockRef .device .full cur = 1 then v.length else 0
          let c := c.protect .full (-moved)
          let c := c.setLockRef .device .full cur (c.lockRef .device .full cur - 1)
          let c := if c.lockRef .device .full cur = 0 then c.updateEvictableLeafSets cur else c
          fullRelease skip c rest
        else .error .lockNotPositive

/-- `FullComponent.release_component_lock` on the host layer. -/
def fullReleaseHost : Core :=
  if c.lockRef .host .full node = 0 then c
  else if c.value .host .full node = none ∧ cfg.isWriteBack = false then c
  else
    let c := c.setLockRef .host .full node (c.lockRef .host .full node - 1)
    c.updateEvictableLeafSets node

/-- What releasing the last lock on a node does before the count goes down. -/
def beforeLastRelease : Except LockError Core :=
  if c.lockRef l ct cur = 1 then
    match l with
    | .host =>
      if c.value .device ct cur = none ∧ c.value .host ct cur ≠ none then
        .ok (c.attachLru .host ct cur)
      else .ok c
    | .device =>
      match c.value .device ct cur with
      | some v => .ok (c.protect ct (-v.length))
      | none => .error .valueIsNone
  else .ok c

/-- The loop of `SWAComponent.release_component_lock`. -/
def swaRelease (l : Layer) (uuid : Option Nat) (skip : Finset NodeId) :
    Core → List NodeId → Except LockError Core
  | c, [] => .ok c
  | c, cur :: rest =>
    if cur ∈ skip then swaRelease l uuid skip c rest
    else if c.lockRef l .swa cur = 0 then swaRelease l uuid skip c rest
    else do
      let c ← c.beforeLastRelease l .swa cur
      let c := c.setLockRef l .swa cur (c.lockRef l .swa cur - 1)
      if uuid ≠ none ∧ c.uuid l cur = uuid then .ok c
      else swaRelease l uuid skip c rest

def mambaRelease (skip : Finset NodeId) : Except LockError Core :=
  if node = c.tree.rootNode then .ok c
  else if node ∈ skip then .ok c
  else match l with
    | .host =>
      let c := c.setLockRef .host .mamba node (c.lockRef .host .mamba node - 1)
      if c.lockRef .host .mamba node = 0 ∧ c.value .device .mamba node = none ∧
          c.value .host .mamba node ≠ none then
        .ok (c.attachLru .host .mamba node)
      else .ok c
    | .device =>
      if 0 < c.lockRef .device .mamba node then do
        let c ← c.beforeLastRelease .device .mamba node
        .ok (c.setLockRef .device .mamba node (c.lockRef .device .mamba node - 1))
      else .ok c

def releaseComponentLock (node : NodeId) (params : DecLockRefParams) : Except LockError Core :=
  match ct with
  | .full =>
    match l with
    | .device => fullRelease (params.skipLockNodeIds .full) c (c.tree.climb node)
    | .host => .ok (c.fullReleaseHost cfg node)
  | .swa => swaRelease l (params.swaUuid l) (params.skipLockNodeIds .swa) c (c.tree.climb node)
  | .mamba => c.mambaRelease l node (params.skipLockNodeIds .mamba)

/-- The component loop of the two releases; `skipSwa` leaves `SWA` out. -/
def releaseAll (l : Layer) (node : NodeId) (params : DecLockRefParams) (skipSwa : Bool) :
    List ComponentType → Core → Except LockError Core
  | [], c => .ok c
  | ct :: rest, c => do
    if skipSwa = true ∧ ct = .swa then releaseAll l node params skipSwa rest c
    else
      let c ← c.releaseComponentLock cfg l ct node params
      releaseAll l node params skipSwa rest c

def decLockRef (skipSwa : Bool) : Except LockError Core :=
  if node ∉ c.tree.arena then .error .unknownNode
  else do
    let c ← releaseAll cfg .device node params skipSwa cfg.components c
    .ok (c.updateEvictableLeafSets node)

def decHostLockRef : Except LockError Core :=
  if node ∉ c.tree.arena then .error .unknownNode
  else do
    let c ← releaseAll cfg .host node params false cfg.components c
    .ok (c.updateEvictableLeafSets node)

/-- The loop of `SWAComponent.release_window_lock`. -/
def releaseWindowLock (uuid : Option Nat) : Core → List NodeId → Core
  | c, [] => c
  | c, cur :: rest =>
    let last : Bool := decide (uuid ≠ none ∧ c.uuid .device cur = uuid)
    if c.value .device .swa cur = none ∨ c.lockRef .device .swa cur = 0 then
      if last then c else releaseWindowLock uuid c rest
    else
      let c := c.setLockRef .device .swa cur (c.lockRef .device .swa cur - 1)
      let c :=
        if c.lockRef .device .swa cur = 0 then
          let c := c.protect .swa (-(c.tree.keyLen cur : Int))
          if c.IsDeviceLeaf cur then c.evictAuxDevice .swa cur else c
        else c
      if last then c else releaseWindowLock uuid c rest

def evictionPriority : ComponentType → Nat
  | .full => 2
  | .swa => 1
  | .mamba => 0

/-- The last loop of `dec_swa_lock_only`. -/
def releaseBelowSwa (node : NodeId) (params : DecLockRefParams) :
    List ComponentType → Core → Except LockError Core
  | [], c => .ok c
  | ct :: rest, c => do
    if evictionPriority ct < evictionPriority .swa then
      let c ← c.releaseComponentLock cfg .device ct node params
      releaseBelowSwa node params rest c
    else releaseBelowSwa node params rest c

def decSwaLockOnly : Except LockError Core :=
  if node ∉ c.tree.arena then .error .unknownNode
  else if .swa ∉ cfg.components then .ok c
  else
    let c := releaseWindowLock (params.swaUuid .device) c (c.tree.climb node)
    releaseBelowSwa cfg node params cfg.components c

end Core

end SparkInfer.Unified
