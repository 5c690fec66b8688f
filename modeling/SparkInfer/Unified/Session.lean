import SparkInfer.Unified.Tree
import Mathlib.Data.List.AList
import Mathlib.Data.Finset.Union

/-!
# Session references of the tree components

With `--enable-session-radix-cache` every component of the unified tree tags the
nodes a session may come back to.  A component keeps, for each session, its
frontier nodes; the frontier nodes keep the session in `session_ids`; and the
nodes a frontier protects keep a count, `session_ref`.  What a frontier protects
depends on the component: the whole path for `FULL`, the node alone for `MAMBA`,
and for `SWA` a window of tokens whose length is remembered.

`_refresh_session_partition` only reorders the LRU lists and is left out.
-/

namespace SparkInfer.Unified

open Function

variable {S : Type} [DecidableEq S]

inductive SessionError
  | refNotPositive | leafNotIndexed | markerMissing
  | alreadyCovered | nothingCovered | notCovered | coverageChanged
  deriving DecidableEq, Repr

/-- The reports of `validate_session_state`, those of `SWAComponent` last. -/
inductive SessionReport (S : Type)
  | emptyLeafIndex (session : S)
  | unreachableLeaf (session : S) (leaf : NodeId)
  | missingMarker (session : S) (leaf : NodeId)
  | negativeRef (node : NodeId)
  | emptyMarker (node : NodeId)
  | markerNotIndexed (node : NodeId) (session : S)
  | coverageNotIndexed (session : S) (leaf : NodeId)
  | coveredLenNotPositive (session : S) (leaf : NodeId)
  | noCoverageRecord (session : S) (leaf : NodeId)
  deriving DecidableEq

structure SessionConfig where
  enableSessionRadixCache : Bool
  components : List ComponentType
  components_nodup : components.Nodup
  slidingWindowSize : Nat
  pageSize : Nat
  page_pos : 0 < pageSize

/-- A closure made by `create_match_validator`: its answer may depend on the nodes
it was asked about before, the latest first. -/
abbrev MatchValidator := List NodeId → Bool

/-- The session fields of one component and of its data on the nodes. -/
structure SessionState (S : Type) where
  sessionRef : NodeId → Int
  sessionIds : NodeId → Option (Finset S)
  sessionLeaves : AList fun _ : S => Finset NodeId
  sessionLeafCoveredLen : AList fun _ : S => AList fun _ : NodeId => Nat

namespace SessionState

def blank : SessionState S where
  sessionRef := fun _ => 0
  sessionIds := fun _ => none
  sessionLeaves := ∅
  sessionLeafCoveredLen := ∅

variable (cfg : SessionConfig) (t : Tree) (ct : ComponentType) (st : SessionState S) (node : NodeId)
variable (session : S) (leaf : NodeId)

def leavesOf : Finset NodeId :=
  (st.sessionLeaves.lookup session).getD ∅

def idsOf : Finset S := (st.sessionIds node).getD ∅

def addRef (delta : Int) : SessionState S :=
  { st with sessionRef := update st.sessionRef node (st.sessionRef node + delta) }

/-! ## The index -/

def markSessionLeaf : SessionState S :=
  { st with
    sessionLeaves := st.sessionLeaves.insert session (insert leaf (st.leavesOf session))
    sessionIds := update st.sessionIds leaf (some (insert session (st.idsOf leaf))) }

def unmarkSessionLeaf : Except SessionError (SessionState S) :=
  if leaf ∉ st.leavesOf session then .error .leafNotIndexed
  else if session ∉ st.idsOf leaf then .error .markerMissing
  else
    let leaves := (st.leavesOf session).erase leaf
    let ids := (st.idsOf leaf).erase session
    .ok { st with
      sessionIds := update st.sessionIds leaf (if ids = ∅ then none else some ids)
      sessionLeaves :=
        if leaves = ∅ then st.sessionLeaves.erase session
        else st.sessionLeaves.insert session leaves }

def nearestSessionAncestor (newLeaf : NodeId) (currentLeaves : Finset NodeId) : Option NodeId :=
  match t.parent newLeaf with
  | some p => (t.climb p).find? fun cur => decide (cur ∈ currentLeaves)
  | none => none

/-! ## Coverage -/

/-- The walk of `FullComponent` up to `stop`, adding one. -/
def incWalk (st : SessionState S) : List NodeId → SessionState S
  | [] => st
  | node :: rest => (st.addRef node 1).incWalk rest

/-- The walk of `FullComponent` up to `stop`, taking one. -/
def decWalk (st : SessionState S) : List NodeId → Except SessionError (SessionState S)
  | [] => .ok st
  | node :: rest =>
    if 0 < st.sessionRef node then (st.addRef node (-1)).decWalk rest
    else .error .refNotPositive

/-- `SWAComponent._walk_session_coverage`, from `covered` tokens on. -/
def walkSessionCoverage (keyLen : NodeId → Nat) (span : Nat) (delta : Int) :
    SessionState S → Nat → List NodeId → Except SessionError (Nat × SessionState S)
  | st, covered, [] => .ok (covered, st)
  | st, covered, node :: rest =>
    if covered < span then
      if delta < 0 ∧ ¬ 0 < st.sessionRef node then .error .refNotPositive
      else walkSessionCoverage keyLen span delta (st.addRef node delta) (covered + keyLen node) rest
    else .ok (covered, st)

def incWindow : Except SessionError (SessionState S) :=
  let coveredByLeaf := (st.sessionLeafCoveredLen.lookup session).getD ∅
  if leaf ∈ coveredByLeaf then .error .alreadyCovered
  else do
    let (covered, st) ← walkSessionCoverage t.keyLen (cfg.slidingWindowSize + cfg.pageSize) 1
      st 0 (t.climb leaf)
    if covered = 0 then .error .nothingCovered
    else .ok { st with
      sessionLeafCoveredLen :=
        st.sessionLeafCoveredLen.insert session (coveredByLeaf.insert leaf covered) }

def decWindow : Except SessionError (SessionState S) :=
  match st.sessionLeafCoveredLen.lookup session with
  | none => .error .notCovered
  | some coveredByLeaf =>
    match coveredByLeaf.lookup leaf with
    | none => .error .notCovered
    | some coveredLen => do
      let coveredByLeaf := coveredByLeaf.erase leaf
      let (actual, st) ← walkSessionCoverage t.keyLen coveredLen (-1)
        { st with
          sessionLeafCoveredLen :=
            if coveredByLeaf.keys = [] then st.sessionLeafCoveredLen.erase session
            else st.sessionLeafCoveredLen.insert session coveredByLeaf }
        0 (t.climb leaf)
      if actual = coveredLen then .ok st else .error .coverageChanged

def incNode : SessionState S := st.addRef leaf 1

def decNode : Except SessionError (SessionState S) :=
  if 0 < st.sessionRef leaf then .ok (st.addRef leaf (-1)) else .error .refNotPositive

def decSessionCoverage : Except SessionError (SessionState S) :=
  match ct with
  | .full => st.decWalk (t.climb leaf)
  | .swa => st.decWindow t session leaf
  | .mamba => st.decNode leaf

def advanceSessionCoverage (oldAncestor : Option NodeId) : Except SessionError (SessionState S) :=
  match ct with
  | .full =>
    let stop := oldAncestor.getD t.rootNode
    .ok (st.incWalk ((t.climb leaf).takeWhile fun node => decide (node ≠ stop)))
  | .swa => do
    let st ← st.incWindow cfg t session leaf
    match oldAncestor with
    | some ancestor => st.decWindow t session ancestor
    | none => .ok st
  | .mamba =>
    let st := st.incNode leaf
    match oldAncestor with
    | some ancestor => st.decNode ancestor
    | none => .ok st

def recedeSessionCoverage (fallback : Option NodeId) : Except SessionError (SessionState S) :=
  match ct with
  | .full =>
    let stop := fallback.getD t.rootNode
    st.decWalk ((t.climb leaf).takeWhile fun node => decide (node ≠ stop))
  | .swa => do
    let st ← st.decWindow t session leaf
    match fallback with
    | some ancestor => st.incWindow cfg t session ancestor
    | none => .ok st
  | .mamba => do
    let st ← st.decNode leaf
    match fallback with
    | some ancestor => .ok (st.incNode ancestor)
    | none => .ok st

/-! ## The operations -/

def registerSessionLeaf (leaf : Option NodeId) : Except SessionError (SessionState S) :=
  match leaf with
  | none => .ok st
  | some leaf =>
    if cfg.enableSessionRadixCache = false ∨ leaf = t.rootNode then .ok st
    else
      let currentLeaves := st.leavesOf session
      -- `_session_leaves` is a defaultdict: the lookup makes the entry
      let st : SessionState S :=
        { st with sessionLeaves := st.sessionLeaves.insert session currentLeaves }
      if leaf ∈ currentLeaves then .ok st
      else do
        let oldAncestor := nearestSessionAncestor t leaf currentLeaves
        let st ← st.advanceSessionCoverage cfg t ct session leaf oldAncestor
        let st := st.markSessionLeaf session leaf
        match oldAncestor with
        | some ancestor => st.unmarkSessionLeaf session ancestor
        | none => .ok st

/-- The loop of `release_session` over the frontier, in the order it is listed. -/
def releaseSession (t : Tree) (ct : ComponentType) (session : S) :
    List NodeId → SessionState S → Except SessionError (SessionState S)
  | [], st => .ok st
  | leaf :: rest, st => do
    let st ← st.decSessionCoverage t ct session leaf
    let st ← st.unmarkSessionLeaf session leaf
    releaseSession t ct session rest st

/-- The loop of `_find_reusable_session_leaf`. -/
def firstAccepted (validator : MatchValidator) (asked : List NodeId) : List NodeId → Option NodeId
  | [] => none
  | cur :: rest =>
    if validator (cur :: asked) then some cur else firstAccepted validator (cur :: asked) rest

def findReusableSessionLeaf (validator : MatchValidator) (node : Option NodeId) : Option NodeId :=
  match node with
  | some n => firstAccepted validator [] (t.climb n)
  | none => none

/-- The loop of `discard_deleted_session_leaf` over the markers of `node`. -/
def discardDeletedSessionLeaf (cfg : SessionConfig) (t : Tree) (ct : ComponentType)
    (validator : MatchValidator) (node : NodeId) :
    List S → SessionState S → Except SessionError (SessionState S)
  | [], st => .ok st
  | session :: rest, st =>
    if node ∉ st.leavesOf session then .error .leafNotIndexed
    else do
      let fallback := (findReusableSessionLeaf t validator (t.parent node)).filter
        fun cur => decide (cur ∉ st.leavesOf session)
      let st ← st.recedeSessionCoverage cfg t ct session node fallback
      let st ← st.unmarkSessionLeaf session node
      let st := match fallback with
        | some cur => st.markSessionLeaf session cur
        | none => st
      discardDeletedSessionLeaf cfg t ct validator node rest st

/-- The pairs `_session_leaf_covered_len` has a length for. -/
def recorded : Finset (S × NodeId) :=
  st.sessionLeafCoveredLen.keys.toFinset.biUnion fun session =>
    (((st.sessionLeafCoveredLen.lookup session).getD ∅).keys.toFinset).image fun leaf =>
      (session, leaf)

/-- The coverage length remembered for a frontier node. -/
def coveredLen (q : S × NodeId) : Option Nat :=
  (st.sessionLeafCoveredLen.lookup q.1).bind fun byLeaf => byLeaf.lookup q.2

/-- `validate_session_state`: what it reports, the order aside. -/
def validateSessionState (reachableNodes : Finset NodeId) (st : SessionState S) :
    Finset (SessionReport S) :=
  (st.sessionLeaves.keys.toFinset.biUnion fun session =>
    (if st.leavesOf session = ∅ then {.emptyLeafIndex session} else ∅) ∪
    (st.leavesOf session).biUnion fun leaf =>
      (if leaf ∉ reachableNodes then {.unreachableLeaf session leaf} else ∅) ∪
      (if session ∉ st.idsOf leaf then {.missingMarker session leaf} else ∅)) ∪
  (reachableNodes.biUnion fun node =>
    (if st.sessionRef node < 0 then {.negativeRef node} else ∅) ∪
    (if st.sessionIds node = some ∅ then {.emptyMarker node} else ∅) ∪
    (st.idsOf node).biUnion fun session =>
      if node ∉ st.leavesOf session then {.markerNotIndexed node session} else ∅) ∪
  match ct with
  | .full | .mamba => ∅
  | .swa =>
    (st.recorded.biUnion fun q =>
      (if q.2 ∉ st.leavesOf q.1 then {.coverageNotIndexed q.1 q.2} else ∅) ∪
      (if (st.coveredLen q).getD 0 = 0 then {.coveredLenNotPositive q.1 q.2} else ∅)) ∪
    st.sessionLeaves.keys.toFinset.biUnion fun session =>
      (st.leavesOf session).biUnion fun leaf =>
        if (session, leaf) ∉ st.recorded then {.noCoverageRecord session leaf} else ∅

/-- The session part of `redistribute_on_node_split`. -/
def splitNode (newNode child : NodeId) : SessionState S :=
  { st with
    sessionRef := update st.sessionRef newNode
      (match ct with
        | .full | .swa => st.sessionRef child
        | .mamba => 0)
    sessionIds := update st.sessionIds newNode none }

def newNode : SessionState S :=
  { st with
    sessionRef := update st.sessionRef node 0
    sessionIds := update st.sessionIds node none }

end SessionState

/-! ## Runs -/

structure SessionWorld (S : Type) where
  tree : Tree
  component : ComponentType → SessionState S

/-- `xs` lists the elements of the set `s`, as `tuple(s)` does. -/
def Lists {α : Type} [DecidableEq α] (xs : List α) (s : Finset α) : Prop :=
  xs.Nodup ∧ xs.toFinset = s

inductive SessionOp (S : Type)
  | register (ct : ComponentType) (session : S) (leaf : Option NodeId)
  | release (ct : ComponentType) (session : S) (order : List NodeId)
  | split (child : NodeId) (splitLen : Nat)
  | addNode (parent : NodeId) (keyLen : Nat)
  | delete (node : NodeId) (validator : ComponentType → MatchValidator)
      (order : ComponentType → List S)

namespace SessionWorld

def init (counter : Nat) : SessionWorld S where
  tree := .fresh counter
  component := fun _ => .blank

def onComponent (w : SessionWorld S) (ct : ComponentType)
    (f : SessionState S → Except SessionError (SessionState S)) :
    Except SessionError (SessionWorld S) := do
  let st ← f (w.component ct)
  .ok { w with component := update w.component ct st }

/-- The component loop of `_remove_leaf_from_parent`. -/
def discardAll (cfg : SessionConfig) (node : NodeId) (validator : ComponentType → MatchValidator)
    (order : ComponentType → List S) :
    List ComponentType → SessionWorld S → Except SessionError (SessionWorld S)
  | [], w => .ok w
  | ct :: rest, w => do
    let w ← w.onComponent ct
      (SessionState.discardDeletedSessionLeaf cfg w.tree ct (validator ct) node (order ct))
    discardAll cfg node validator order rest w

def step (cfg : SessionConfig) (w : SessionWorld S) :
    SessionOp S → Except SessionError (SessionWorld S)
  | .register ct session leaf =>
    w.onComponent ct fun st => st.registerSessionLeaf cfg w.tree ct session leaf
  | .release ct session order =>
    w.onComponent ct fun st => SessionState.releaseSession w.tree ct session order st
  | .split child splitLen =>
    .ok { tree := w.tree.splitNode child splitLen
          component := fun ct => (w.component ct).splitNode ct w.tree.counter child }
  | .addNode parent keyLen =>
    .ok { tree := w.tree.addNode parent keyLen
          component := fun ct => (w.component ct).newNode w.tree.counter }
  | .delete node validator order => do
    let w ← discardAll cfg node validator order cfg.components w
    .ok { w with tree := w.tree.removeNode node }

/-- What the callers of the operations keep to: nodes of the tree, splits inside a
node, and deletion of nodes without children. -/
def Legal (cfg : SessionConfig) (w : SessionWorld S) : SessionOp S → Prop
  | .register ct _ leaf => ct ∈ cfg.components ∧ ∀ n ∈ leaf, n ∈ w.tree.arena
  | .release ct session order =>
    ct ∈ cfg.components ∧ Lists order ((w.component ct).leavesOf session)
  | .split child splitLen =>
    child ∈ w.tree.arena ∧ child ≠ w.tree.rootNode ∧ 0 < splitLen ∧ splitLen < w.tree.keyLen child
  | .addNode parent keyLen => parent ∈ w.tree.arena ∧ 0 < keyLen
  | .delete node _ order =>
    node ∈ w.tree.arena ∧ node ≠ w.tree.rootNode ∧ w.tree.children node = ∅ ∧
      ∀ ct ∈ cfg.components, Lists (order ct) ((w.component ct).idsOf node)

inductive Reach (cfg : SessionConfig) : SessionWorld S → Prop
  | init (counter : Nat) : Reach cfg (init counter)
  | step {w w' : SessionWorld S} {op : SessionOp S} (h : Reach cfg w) (legal : w.Legal cfg op)
      (run : w.step cfg op = .ok w') : Reach cfg w'

end SessionWorld

end SparkInfer.Unified
