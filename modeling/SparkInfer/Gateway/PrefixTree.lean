import SparkInfer.Gateway.Text
import SparkInfer.Lib.Traverse

/-!
# The gateway's prefix tree

`policies/tree.rs` of the gateway: a radix tree over characters that several tenants
share.  A node keeps, for every tenant that has it, the epoch of its last access, and
the tree keeps the number of characters of every tenant.

A node behind an `Arc` is an entry of `nodes`; a node that is unlinked from its
parent stays there, as it does for whoever still holds a reference.  The epoch
counter is a global of the source and a field here.
-/

namespace SparkInfer.Gateway

open Lib

abbrev TenantId := String

abbrev NodeId := ℕ

structure PrefixMatchResult where
  tenant : TenantId
  matchedCharCount : ℕ
  inputCharCount : ℕ
deriving DecidableEq

structure Node where
  children : Finmap fun _ : Char => NodeId
  text : NodeText
  tenantLastAccessTime : Finmap fun _ : TenantId => UInt64
  parent : Option NodeId
  lastTenant : Option TenantId

def Node.blank : Node :=
  { children := ∅, text := .empty, tenantLastAccessTime := ∅, parent := none, lastTenant := none }

structure Tree where
  nodes : NodeId → Node
  nextId : NodeId
  tenantCharCount : Finmap fun _ : TenantId => ℕ
  epoch : UInt64

/-- The orders in which an operation visits the hash maps it iterates over. -/
structure Orders where
  children : IterOrder Char
  tenants : IterOrder TenantId

def rootId : NodeId := 0

structure EvictionEntry where
  timestamp : UInt64
  tenant : TenantId
  node : NodeId

abbrev EvictionHeap := PopOrder EvictionEntry EvictionEntry.timestamp

namespace Tree

def new (epoch : UInt64) : Tree :=
  { nodes := fun _ => .blank, nextId := 1, tenantCharCount := ∅, epoch }

variable (s : Tree) (orders : Orders) (text : List Char) (id : NodeId) (tenant : TenantId)

/-- `get_epoch`: the counter before it is increased. -/
def bumpEpoch : Tree := { s with epoch := s.epoch + 1 }

def modify (f : Node → Node) : Tree :=
  { s with nodes := Function.update s.nodes id (f (s.nodes id)) }

def alloc (n : Node) : Tree :=
  { s with nodes := Function.update s.nodes s.nextId n, nextId := s.nextId + 1 }

def has : Bool :=
  tenant ∈ (s.nodes id).tenantLastAccessTime

def setAccess (time : UInt64) : Tree :=
  s.modify id fun n => { n with tenantLastAccessTime := n.tenantLastAccessTime.insert tenant time }

def setChild (c : Char) (child : NodeId) : Tree :=
  s.modify id fun n => { n with children := n.children.insert c child }

/-- `entry(tenant).and_modify(|count| *count += n).or_insert(n)`. -/
def addCount (n : ℕ) : Tree :=
  { s with tenantCharCount :=
      s.tenantCharCount.insert tenant ((s.tenantCharCount.lookup tenant).getD 0 + n) }

/-- Give a node on the way to the end of an inserted text to the tenant. -/
def attachTenant (id : NodeId) (charCount : ℕ) : Tree :=
  if s.has id tenant then s else (s.addCount tenant charCount).setAccess id tenant 0

/-- The vacant entry of `insert`: the rest of the text becomes a leaf. -/
def addLeaf (prev : NodeId) (c : Char) (remaining : List Char) : Tree :=
  let leaf : Node :=
    { children := ∅, text := .new remaining, tenantLastAccessTime := (∅ : Finmap _).insert tenant s.epoch,
      parent := some prev, lastTenant := some tenant }
  (((s.bumpEpoch.alloc leaf).addCount tenant remaining.length).setChild prev c s.nextId)

/-- The split of `insert`: a new node takes the first `k` characters of `id`, and a
copy of its tenants, and comes between it and `prev`. -/
def splitNode (prev : NodeId) (c : Char) (id : NodeId) (k : ℕ) : Tree :=
  let node := s.nodes id
  let (matchedText, contractedText) := node.text.splitAtChar k
  let newNode : Node :=
    { children := (∅ : Finmap _).insert (contractedText.firstChar.getD default) id
      text := matchedText, tenantLastAccessTime := node.tenantLastAccessTime
      parent := some prev, lastTenant := node.lastTenant }
  ((s.alloc newNode).setChild prev c s.nextId).modify id fun n =>
    { n with text := contractedText, parent := some s.nextId }

/-- The loop of `insert`.  Every iteration uses up a character at least, so as many
iterations as there are characters are enough. -/
def insertLoop (tenant : TenantId) : ℕ → Tree → NodeId → List Char → Tree
  | _, s, prev, [] => (s.setAccess prev tenant s.epoch).bumpEpoch
  | 0, s, _, _ :: _ => s
  | fuel + 1, s, prev, c :: rest =>
    match (s.nodes prev).children.lookup c with
    | none => s.addLeaf tenant prev c (c :: rest)
    | some id =>
      let text := (s.nodes id).text
      let sharedCount := sharedPrefixCount (c :: rest) text.text
      if sharedCount < text.charCount then
        let new := s.nextId
        insertLoop tenant fuel ((s.splitNode prev c id sharedCount).attachTenant tenant new sharedCount)
          new (advanceByChars (c :: rest) sharedCount)
      else
        insertLoop tenant fuel (s.attachTenant tenant id text.charCount) id
          (advanceByChars (c :: rest) sharedCount)

/-- `entry(tenant).or_insert(0)` at the root and in the counts. -/
def ensureTenant : Tree :=
  let s := if s.has rootId tenant then s else s.setAccess rootId tenant 0
  if tenant ∈ s.tenantCharCount then s
  else { s with tenantCharCount := s.tenantCharCount.insert tenant 0 }

def insert : Tree :=
  insertLoop tenant text.length (s.ensureTenant tenant) rootId text

/-- The descent of the two lookups: go down while the whole text of a child matches
and `allowed` lets it. -/
def descend (s : Tree) (allowed : NodeId → Bool) : ℕ → NodeId → ℕ → List Char → NodeId × ℕ
  | _, prev, matched, [] => (prev, matched)
  | 0, prev, matched, _ :: _ => (prev, matched)
  | fuel + 1, prev, matched, c :: rest =>
    match (s.nodes prev).children.lookup c with
    | none => (prev, matched)
    | some id =>
      if allowed id then
        let sharedCount := sharedPrefixCount (c :: rest) (s.nodes id).text.text
        if sharedCount = (s.nodes id).text.charCount then
          descend s allowed fuel id (matched + sharedCount) (advanceByChars (c :: rest) sharedCount)
        else (id, matched + sharedCount)
      else (prev, matched)

/-- The tenant that a lookup reports for a node: the cached one while the node still
has it, otherwise whichever comes first, which is cached again. -/
def chooseTenant : Tree × TenantId :=
  let first := ((orders.tenants.visit (s.nodes id).tenantLastAccessTime.keys).head?).getD "empty"
  match (s.nodes id).lastTenant with
  | none => (s.modify id fun n => { n with lastTenant := some first }, first)
  | some t =>
    if s.has id t then (s, t)
    else (s.modify id fun n => { n with lastTenant := some first }, first)

def prefixMatchWithCounts : Tree × PrefixMatchResult :=
  let (curr, matched) := s.descend (fun _ => true) text.length rootId 0 text
  let (s, tenant) := s.chooseTenant orders curr
  let epoch := s.epoch
  let s := s.bumpEpoch
  let s := if epoch &&& 7 = 0 then s.setAccess curr tenant epoch else s
  (s, { tenant, matchedCharCount := matched, inputCharCount := text.length })

def prefixMatchTenant : Tree × List Char :=
  let (curr, matched) := s.descend (fun id => s.has id tenant) text.length rootId 0 text
  let s := if s.has curr tenant then (s.setAccess curr tenant s.epoch).bumpEpoch else s
  (s, takeChars text matched)

def childList : List NodeId :=
  (orders.children.visit (s.nodes id).children.keys).filterMap fun c =>
    (s.nodes id).children.lookup c

def hasChildWith : Bool :=
  (s.childList orders id).any fun child => s.has child tenant

def isLeafFor : Bool :=
  s.has id tenant && !s.hasChildWith orders id tenant

def leafOf : List TenantId :=
  (orders.tenants.visit (s.nodes id).tenantLastAccessTime.keys).filter fun t =>
    !s.hasChildWith orders id t

/-- The loop over a stack that starts at the root; there are at most as many nodes as
were ever made. -/
def allNodes : List NodeId :=
  dfs (s.childList orders) s.nextId [rootId]

def accessEntry : Option EvictionEntry :=
  ((s.nodes id).tenantLastAccessTime.lookup tenant).map fun timestamp =>
    { timestamp, tenant, node := id }

/-- Take the tenant from a node, and unlink the node when nothing is left of it. -/
def dropTenant : Tree :=
  let s := s.modify id fun n =>
    { n with tenantLastAccessTime := n.tenantLastAccessTime.erase tenant }
  let node := s.nodes id
  if node.children = ∅ ∧ node.tenantLastAccessTime.keys = ∅ then
    match node.parent, node.text.firstChar with
    | some p, some fc => s.modify p fun n => { n with children := n.children.erase fc }
    | _, _ => s
  else s

/-- The parent of a node that has just lost the tenant, where that makes it a leaf of
the tenant. -/
def newLeaf : Option NodeId :=
  (s.nodes id).parent.filter fun p => s.isLeafFor orders p tenant

def shrinkCount (n : ℕ) : Tree :=
  match s.tenantCharCount.lookup tenant with
  | none => s
  | some count => { s with tenantCharCount := s.tenantCharCount.insert tenant (count - n) }

def evictLoop (orders : Orders) (heap : EvictionHeap) (maxSize : ℕ) :
    ℕ → Tree → List EvictionEntry → Tree
  | 0, s, _ => s
  | fuel + 1, s, pq =>
    match heap.pop pq with
    | none => s
    | some (e, pq) =>
      if (s.tenantCharCount.lookup e.tenant).any (· ≤ maxSize) then
        evictLoop orders heap maxSize fuel s pq
      else if s.isLeafFor orders e.node e.tenant then
        let s := (s.shrinkCount e.tenant (s.nodes e.node).text.charCount).dropTenant e.node e.tenant
        let entry := (s.newLeaf orders e.node e.tenant).bind fun p => s.accessEntry p e.tenant
        evictLoop orders heap maxSize fuel s (entry.toList ++ pq)
      else evictLoop orders heap maxSize fuel s pq

def leafEntries : List EvictionEntry :=
  (s.allNodes orders).flatMap fun id => (s.leafOf orders id).filterMap (s.accessEntry id)

/-- Every iteration takes an entry off the heap, and puts one on it only when it takes
a tenant from a node. -/
def evictTenantBySize (heap : EvictionHeap) (maxSize : ℕ) : Tree :=
  let pq := s.leafEntries orders
  let fuel := pq.length +
    ((s.allNodes orders).map fun id => (s.nodes id).tenantLastAccessTime.keys.card).sum
  evictLoop orders heap maxSize fuel s pq

def removeLoop (orders : Orders) (tenant : TenantId) : ℕ → Tree → List NodeId → Tree
  | 0, s, _ => s
  | _ + 1, s, [] => s
  | fuel + 1, s, curr :: queue =>
    let s := s.dropTenant curr tenant
    removeLoop orders tenant fuel s (queue ++ (s.newLeaf orders curr tenant).toList)

def removeTenant : Tree :=
  let nodes := s.allNodes orders
  let s := removeLoop orders tenant nodes.length s
    (nodes.filter fun id => s.isLeafFor orders id tenant)
  { s with tenantCharCount := s.tenantCharCount.erase tenant }

def addUsed (used : Finmap fun _ : TenantId => ℕ) (id : NodeId) : Finmap fun _ : TenantId => ℕ :=
  (orders.tenants.visit (s.nodes id).tenantLastAccessTime.keys).foldl
    (fun used t => used.insert t ((used.lookup t).getD 0 + (s.nodes id).text.charCount)) used

def getUsedSizePerTenant : Finmap fun _ : TenantId => ℕ :=
  (s.allNodes orders).foldl (s.addUsed orders) ∅

end Tree

end SparkInfer.Gateway
