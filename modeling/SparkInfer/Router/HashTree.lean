import SparkInfer.Lib.Traverse

/-!
# The router's hash tree

`policies/kv_events/tree.rs`: an arena of nodes, one per block hash and position,
with the workers that hold the chain ending there, and a reverse index from block
hashes to nodes.  The workers' event streams feed it and the routing policy
queries it.

Hash maps and hash sets are finite maps and finite sets; what the source does
while iterating over one is run in the order an `IterOrder` gives.  The clock is
the argument `now`.
-/

namespace SparkInfer.Router

open Lib

abbrev BlockHash := Int64

abbrev NodeId := ℕ

structure KvWorkerId where
  url : String
  dpRank : UInt32
deriving DecidableEq, Repr

structure MatchResult where
  matchedBlocks : ℕ
  workers : Finset KvWorkerId
deriving DecidableEq

structure Node where
  blockHash : BlockHash
  parentBlockHash : Option BlockHash
  parent : Option NodeId
  workers : Finset KvWorkerId
  children : Finmap fun _ : BlockHash => NodeId
  lastUsed : ℕ

def Node.newChild (blockHash : BlockHash) (parentBlockHash : Option BlockHash) (parent : NodeId)
    (now : ℕ) : Node :=
  { blockHash, parentBlockHash, parent := some parent, workers := ∅, children := ∅, lastUsed := now }

def Node.mark (worker : KvWorkerId) (now : ℕ) (n : Node) : Node :=
  { n with workers := insert worker n.workers, lastUsed := now }

def Node.prunable (n : Node) : Bool := n.workers = ∅ ∧ n.children = ∅

structure TreeState where
  nodes : Finmap fun _ : NodeId => Node
  byHash : Finmap fun _ : BlockHash => Finset NodeId
  nextId : NodeId

def rootId : NodeId := 0

def rootHashSentinel : BlockHash := Int64.minValue

namespace TreeState

variable (order : IterOrder NodeId) (worker : KvWorkerId) (now : ℕ) (blockHashes : List BlockHash)

def new : TreeState where
  nodes := (∅ : Finmap fun _ : NodeId => Node).insert rootId
    { blockHash := rootHashSentinel, parentBlockHash := none, parent := none, workers := ∅,
      children := ∅, lastUsed := now }
  byHash := ∅
  nextId := 1

variable (s : TreeState) (id : NodeId)

def modify (f : Node → Node) : TreeState :=
  match s.nodes.lookup id with
  | none => s
  | some n => { s with nodes := s.nodes.insert id (f n) }

def childOf (current : NodeId) (h : BlockHash) : Option NodeId :=
  (s.nodes.lookup current).bind fun n => n.children.lookup h

def createChild (parentId : NodeId) (h : BlockHash) (parentBlockHash : Option BlockHash) :
    TreeState × Option NodeId :=
  let id := s.nextId
  let s := { s with nextId := s.nextId + 1
                    nodes := s.nodes.insert id (Node.newChild h parentBlockHash parentId now) }
  match s.nodes.lookup parentId with
  | none => ({ s with nodes := s.nodes.erase id }, none)
  | some parent =>
    ({ s with nodes := s.nodes.insert parentId { parent with children := parent.children.insert h id }
              byHash := s.byHash.insert h (insert id ((s.byHash.lookup h).getD ∅)) }, some id)

def resolveParent : Option BlockHash → NodeId
  | none => rootId
  | some parentHash =>
    match s.byHash.lookup parentHash with
    | none => rootId
    | some candidates =>
      if candidates.card = 1 then (order.visit candidates).headD rootId
      else ((order.visit candidates).find? fun cand =>
        (s.nodes.lookup cand).any fun n => worker ∈ n.workers).getD rootId

/-- One iteration of the loop of `insert`: the child it moves to, or `none` where
the source gives up on a broken invariant. -/
def insertStep (s : TreeState) (current : NodeId) (prevHash : Option BlockHash) (h : BlockHash) :
    TreeState × Option NodeId :=
  let (s, child) := match s.childOf current h with
    | some id => (s, some id)
    | none => s.createChild now current h prevHash
  match child with
  | none => (s, none)
  | some id =>
    match s.nodes.lookup id with
    | none => (s, none)
    | some _ => (s.modify id (Node.mark worker now), some id)

def insertLoop (worker : KvWorkerId) (now : ℕ) :
    TreeState → NodeId → Option BlockHash → List BlockHash → TreeState
  | s, _, _, [] => s
  | s, current, prevHash, h :: hs =>
    match insertStep worker now s current prevHash h with
    | (s, none) => s
    | (s, some id) => insertLoop worker now s id (some h) hs

def insert (worker : KvWorkerId) (parentHash : Option BlockHash) (blockHashes : List BlockHash) :
    TreeState :=
  insertLoop worker now s (s.resolveParent order worker parentHash) parentHash blockHashes

/-- The body of the loop of `prune_cascade`: unlink a node from its parent, the
reverse index and the arena. -/
def detach (id parentId : NodeId) (h : BlockHash) : TreeState :=
  let s := s.modify parentId fun p => { p with children := p.children.erase h }
  let s := match s.byHash.lookup h with
    | none => s
    | some set =>
      if set.erase id = ∅ then { s with byHash := s.byHash.erase h }
      else { s with byHash := s.byHash.insert h (set.erase id) }
  { s with nodes := s.nodes.erase id }

def pruneLoop : ℕ → TreeState → NodeId → TreeState
  | 0, s, _ => s
  | fuel + 1, s, cursor =>
    if cursor = rootId then s
    else
      match s.nodes.lookup cursor with
      | none => s
      | some n =>
        match n.parent with
        | none => s
        | some parentId =>
          if n.prunable then
            let s := s.detach cursor parentId n.blockHash
            match s.nodes.lookup parentId with
            | none => s
            | some p => if parentId ≠ rootId ∧ p.prunable then pruneLoop fuel s parentId else s
          else s

/-- Every iteration drops one node, so as many iterations as there are nodes are
enough. -/
def pruneCascade (start : NodeId) : TreeState :=
  pruneLoop s.nodes.keys.card s start

def pruneIfEmpty : TreeState :=
  if (s.nodes.lookup id).any Node.prunable then s.pruneCascade id else s

def removeOne (s : TreeState) (id : NodeId) : TreeState :=
  (s.modify id fun n => { n with workers := n.workers.erase worker }).pruneIfEmpty id

def removeTargets : List NodeId :=
  blockHashes.flatMap fun h => order.visit ((s.byHash.lookup h).getD ∅)

def remove : TreeState :=
  (s.removeTargets order blockHashes).foldl (removeOne worker) s

/-- One iteration of the first loop of `clear_worker`, with the candidates so far. -/
def clearOne (acc : TreeState × List NodeId) (id : NodeId) : TreeState × List NodeId :=
  match acc.1.nodes.lookup id with
  | none => acc
  | some n =>
    let s := acc.1.modify id fun n => { n with workers := n.workers.erase worker }
    if worker ∈ n.workers ∧ n.workers.erase worker = ∅ ∧ n.children = ∅ then (s, acc.2 ++ [id])
    else (s, acc.2)

def pruneIfPresent : TreeState :=
  if id ∈ s.nodes then s.pruneCascade id else s

def clearWorker : TreeState :=
  let ids := (order.visit s.nodes.keys).filter (· ≠ rootId)
  let (s, pruneCandidates) := ids.foldl (clearOne worker) (s, [])
  pruneCandidates.foldl pruneIfPresent s

def touch (id : NodeId) : TreeState :=
  s.modify id fun n => { n with lastUsed := now }

def matchStart : Option BlockHash → NodeId
  | none => rootId
  | some p =>
    match s.byHash.lookup p with
    | none => rootId
    | some set => if set.card = 1 then (order.visit set).headD rootId else rootId

def matchLoop (now : ℕ) :
    TreeState → NodeId → ℕ → Option NodeId → List BlockHash → TreeState × ℕ × Option NodeId
  | s, _, matched, lastMatchNode, [] => (s, matched, lastMatchNode)
  | s, current, matched, lastMatchNode, h :: hs =>
    match s.childOf current h with
    | some id => matchLoop now (s.touch now id) id (matched + 1) (some id) hs
    | none => (s, matched, lastMatchNode)

def workersAt : Finset KvWorkerId :=
  (s.nodes.lookup id).elim ∅ Node.workers

def matchPrefix (parentHash : Option BlockHash) (blockHashes : List BlockHash) :
    TreeState × MatchResult :=
  let (s, matched, lastMatchNode) :=
    matchLoop now s (s.matchStart order parentHash) 0 none blockHashes
  (s, { matchedBlocks := matched, workers := lastMatchNode.elim ∅ s.workersAt })

def nodeCount : ℕ := s.nodes.keys.card - 1

def evictEmpty (maxSize : ℕ) : TreeState → List NodeId → TreeState
  | s, [] => s
  | s, id :: ids => if s.nodeCount ≤ maxSize then s else evictEmpty maxSize (s.pruneIfPresent id) ids

/-- The scan for the least recently used leaf; of two leaves used at the same time
the one visited first is kept. -/
def olderLeaf (oldest : Option (ℕ × NodeId)) (id : NodeId) : Option (ℕ × NodeId) :=
  match s.nodes.lookup id with
  | none => oldest
  | some n =>
    if id = rootId ∨ n.children ≠ ∅ then oldest
    else
      match oldest with
      | none => some (n.lastUsed, id)
      | some (cur, _) => if n.lastUsed < cur then some (n.lastUsed, id) else oldest

def oldestLeaf : Option (ℕ × NodeId) :=
  (order.visit s.nodes.keys).foldl s.olderLeaf none

/-- The second phase of `evict_lru`; the counter is what is left of `max_iters`. -/
def evictLoop (order : IterOrder NodeId) (maxSize : ℕ) : ℕ → TreeState → TreeState
  | 0, s => s
  | iters + 1, s =>
    if s.nodeCount ≤ maxSize then s
    else
      match s.oldestLeaf order with
      | none => s
      | some (_, victim) =>
        evictLoop order maxSize iters
          ((s.modify victim fun n => { n with workers := ∅ }).pruneCascade victim)

def emptyLeaves : List NodeId :=
  (order.visit s.nodes.keys).filter fun id =>
    id ≠ rootId ∧ (s.nodes.lookup id).any Node.prunable

def evictLru (maxSize : ℕ) : TreeState × ℕ :=
  if s.nodeCount ≤ maxSize then (s, 0)
  else
    let countBefore := s.nodes.keys.card
    let s := evictEmpty maxSize s (s.emptyLeaves order)
    let s := evictLoop order maxSize (s.nodes.keys.card + 1) s
    (s, countBefore - s.nodes.keys.card)

end TreeState

end SparkInfer.Router
