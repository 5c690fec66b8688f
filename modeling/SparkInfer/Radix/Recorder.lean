import SparkInfer.Lib.Chain
import SparkInfer.Radix.Tree

/-!
# KV placement events

`KVCacheEventRecorder` and the page hashes of `mem_cache/utils.py`.  SHA-256 and
its 64-bit truncation are parameters: `page` hashes one page of units after an
optional prior digest, `salt` seeds the chain of a salted key, `toInt64` is the
block id an event carries.
-/

namespace SparkInfer.Radix

open Lib Lib.CommonPrefix Function

structure HashFns (H B : Type) where
  page : Option H → List PyVal → H
  salt : String → H
  toInt64 : H → B

inductive StorageMedium
  | gpu | cpu | disk | external
  deriving DecidableEq, Repr

structure BlockStored (B : Type) where
  blockHashes : List B
  parentBlockHash : Option B
  tokenIds : List PyVal
  blockSize : Nat
  loraId : Option Int
  medium : StorageMedium
  /-- The `cache_salt` of `BlockStoredWithMetadata`, absent on a plain `BlockStored`. -/
  metadata : Option String
  deriving DecidableEq, Repr

inductive KVEvent (B : Type)
  | blockStored (e : BlockStored B)
  | blockRemoved (blockHashes : List B) (medium : StorageMedium)
  | allBlocksCleared
  deriving DecidableEq, Repr

/-- The recorder's queue and the memoised hashes of the nodes. -/
structure Recorder (H B : Type) where
  hashValue : NodeId → Option (List H)
  eventHashValue : NodeId → Option (List H)
  queue : List (KVEvent B)

/-- Where two adjacent events are merged by `enqueue`. -/
def coalesce {B : Type} [DecidableEq B] : KVEvent B → KVEvent B → Option (KVEvent B)
  | .blockRemoved hs m, .blockRemoved hs' m' =>
    if m = m' then some (.blockRemoved (hs ++ hs') m) else none
  | .blockStored tail, .blockStored e =>
    if tail.medium = e.medium ∧ tail.loraId = e.loraId ∧ tail.blockSize = e.blockSize ∧
        tail.metadata = e.metadata ∧ tail.blockHashes ≠ [] ∧
        e.parentBlockHash = tail.blockHashes.getLast? then
      some (.blockStored { tail with
          blockHashes := tail.blockHashes ++ e.blockHashes
          tokenIds := tail.tokenIds ++ e.tokenIds })
    else none
  | _, _ => none

def enqueue {B : Type} [DecidableEq B] (queue : List (KVEvent B)) (e : KVEvent B) :
    List (KVEvent B) :=
  match queue.getLast? with
  | none => queue ++ [e]
  | some tail =>
    match coalesce tail e with
    | some merged => queue.dropLast ++ [merged]
    | none => queue ++ [e]

section Hashes

variable {H B : Type} (hf : HashFns H B)

/-- `get_hash_str(key, prior, page_size)`: the chained hashes of the key's pages. -/
def getHashStr (key : RadixKey) (prior : Option H) (pageSize : Nat) : List H :=
  Chain.chain hf.page pageSize prior key.units

def computeNodeHashValues (t : Tree) (hashValue : NodeId → Option (List H)) (pageSize : Nat)
    (node : NodeId) : List H :=
  let parentHash : Option H :=
    match t.parent node with
    | none => none
    | some p =>
      match hashValue p with
      | none => none
      | some hs => if 0 < (t.key p).len then hs.getLast? else none
  getHashStr hf (t.key node) parentHash pageSize

def mismatchedSalt : PyError :=
  .valueError "Radix path contains mismatched cache_salt values"

/-- The upward loop of `compute_node_event_hash_values`: the nodes without a
memoised hash, nearest first, and the node the loop stopped at. -/
def missingNodes (t : Tree) (eventHashValue : NodeId → Option (List H)) (salt : Option String) :
    Nat → NodeId → List NodeId → Except PyError (List NodeId × Option NodeId)
  | 0, _, _ => .error .outOfFuel
  | fuel + 1, current, missing =>
    if 0 < (t.key current).len ∧ eventHashValue current = none then
      if (t.key current).cacheSalt ≠ salt then .error mismatchedSalt
      else
        match t.parent current with
        | none => .ok (missing ++ [current], none)
        | some p => missingNodes t eventHashValue salt fuel p (missing ++ [current])
    else .ok (missing, some current)

/-- The downward loop: fill in the missing hashes from `parentHash` on. -/
def fillHashes (t : Tree) (pageSize : Nat) :
    List NodeId → H → (NodeId → Option (List H)) → (NodeId → Option (List H))
  | [], _, eventHashValue => eventHashValue
  | n :: ns, parentHash, eventHashValue =>
    let hashValues := getHashStr hf (t.key n) (some parentHash) pageSize
    fillHashes t pageSize ns (hashValues.getLast?.getD parentHash)
      (update eventHashValue n (some hashValues))

/-- `compute_node_event_hash_values` of a salted node, with the memo it writes. -/
def computeNodeEventHashValues (t : Tree) (eventHashValue : NodeId → Option (List H))
    (pageSize : Nat) (node : NodeId) (salt : String) :
    Except PyError (List H × (NodeId → Option (List H))) :=
  match eventHashValue node with
  | some hs => .ok (hs, eventHashValue)
  | none => do
    let (missing, current) ← missingNodes t eventHashValue (some salt) (t.counter + 1) node []
    let above : Option (List H) ←
      match current with
      | none => pure none
      | some c =>
        if 0 < (t.key c).len ∧ (t.key c).cacheSalt ≠ some salt then throw mismatchedSalt
        else pure (eventHashValue c)
    let parentHash := (above.bind List.getLast?).getD (hf.salt salt)
    let eventHashValue := fillHashes hf t pageSize missing.reverse parentHash eventHashValue
    match eventHashValue node with
    | some hs => pure (hs, eventHashValue)
    | none => throw (.assertionError "")

def splitNodeHashValue (childHashValue : Option (List H)) (splitLen pageSize : Nat) :
    Option (List H) × Option (List H) :=
  match childHashValue with
  | none => (none, none)
  | some hs =>
    let splitPages := if pageSize = 1 then splitLen else splitLen / pageSize
    (some (hs.take splitPages), some (hs.drop splitPages))

end Hashes

namespace Recorder

variable {H B : Type} (hf : HashFns H B) (r : Recorder H B) (t : Tree) (pageSize : Nat)

def blank : Recorder H B where
  hashValue := fun _ => none
  eventHashValue := fun _ => none
  queue := []

def newNode (r : Recorder H B) (node : NodeId) : Recorder H B :=
  { r with
    hashValue := update r.hashValue node none
    eventHashValue := update r.eventHashValue node none }

def splitNode (r : Recorder H B) (child newNode : NodeId) (splitLen pageSize : Nat) :
    Recorder H B :=
  let plain := splitNodeHashValue (r.hashValue child) splitLen pageSize
  let event := splitNodeHashValue (r.eventHashValue child) splitLen pageSize
  { r with
    hashValue := update (update r.hashValue newNode plain.1) child plain.2
    eventHashValue :=
      update (update r.eventHashValue newNode event.1) child event.2 }

def nodeEventHashValues (node : NodeId) : Except PyError (List H × Recorder H B) :=
  let (hashes, r) :=
    match r.hashValue node with
    | some hs => (hs, r)
    | none =>
      let hs := computeNodeHashValues hf t r.hashValue pageSize node
      (hs, { r with hashValue := update r.hashValue node (some hs) })
  match (t.key node).cacheSalt with
  | none => .ok (hashes, r)
  | some salt => do
    let (hs, ev) ← computeNodeEventHashValues hf t r.eventHashValue pageSize node salt
    pure (hs, { r with eventHashValue := ev })

def parentBlockHash (node : NodeId) : Except PyError (Option B) :=
  match t.parent node with
  | none => .ok none
  | some p =>
    if t.parent p = none then .ok none
    else do
      let hs : List H ←
        if (t.key node).cacheSalt ≠ none then
          match r.eventHashValue p with
          | some hs => pure hs
          | none => throw (.assertionError "")
        else pure ((r.hashValue p).getD [])
      pure (hs.getLast?.map hf.toInt64)

def pageEvent (key : RadixKey) (tokenIds : List PyVal) (parent : Option B) (block : B)
    (medium : StorageMedium) : KVEvent B :=
  .blockStored
    { blockHashes := [block]
      parentBlockHash := parent
      tokenIds := tokenIds
      blockSize := tokenIds.length
      loraId := none
      medium := medium
      metadata := key.cacheSalt }

def storePages [DecidableEq B] (key : RadixKey) (medium : StorageMedium) :
    Nat → List PyVal → List H → Option B → List (KVEvent B) → Except PyError (List (KVEvent B))
  | 0, _, _, _, queue => .ok queue
  | fuel + 1, units, hashes, parent, queue =>
    if units = [] then .ok queue
    else
      match hashes with
      | [] => .error (.indexError "list index out of range")
      | h :: hashes =>
        let block := hf.toInt64 h
        storePages key medium fuel (units.drop pageSize) hashes (some block)
          (enqueue queue (pageEvent key (units.take pageSize) parent block medium))

variable (enabled : Bool)

def recordStore [DecidableEq B] (node : NodeId) (medium : StorageMedium) :
    Except PyError (Recorder H B) :=
  if !enabled then .ok r
  else do
    let (hashes, r) ← nodeEventHashValues hf r t pageSize node
    let parent ← parentBlockHash hf r t node
    let queue ← storePages hf pageSize (t.key node) medium (t.key node).len (t.key node).units
      hashes parent r.queue
    pure { r with queue := queue }

def removedHashes : Nat → List PyVal → List H → Except PyError (List B)
  | 0, _, _ => .ok []
  | fuel + 1, units, hashes =>
    if units = [] then .ok []
    else
      match hashes with
      | [] => .error (.indexError "list index out of range")
      | h :: hashes => do
        let rest ← removedHashes fuel (units.drop pageSize) hashes
        pure (hf.toInt64 h :: rest)

def recordRemove [DecidableEq B] (node : NodeId) (medium : StorageMedium) :
    Except PyError (Recorder H B) :=
  if !enabled then .ok r
  else do
    let (hashes, r) ← nodeEventHashValues hf r t pageSize node
    let blocks ← removedHashes hf pageSize (t.key node).len (t.key node).units hashes
    if blocks = [] then pure r
    else pure { r with queue := enqueue r.queue (.blockRemoved blocks medium) }

def recordAllCleared [DecidableEq B] (r : Recorder H B) : Recorder H B :=
  if !enabled then r else { r with queue := enqueue r.queue .allBlocksCleared }

def take (r : Recorder H B) : List (KVEvent B) × Recorder H B :=
  if !enabled then ([], r) else (r.queue, { r with queue := [] })

end Recorder

end SparkInfer.Radix
