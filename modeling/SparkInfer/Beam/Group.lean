import SparkInfer.Lib.Table

/-!
# A beam search group

One request, the leader, and `beam_width - 1` bare rows decode in lockstep.  A
selection moves every row onto the history of its parent, so rows share slots; the
slots that no row names any more are found later, when the selection is committed.
The model is the slot and row bookkeeping of one group.  Scores are left out: which
parents a selection chooses, whether a step is the last one and whether a commit
finishes the group are inputs.
-/

namespace SparkInfer.Beam

open Lib.Table

abbrev Slot := ℕ
abbrev Row := ℕ

structure StagedOrphans where
  tick : ℕ
  oldMapping : List (List Slot)
  newMapping : List (List Slot)

structure Kv where
  reqPoolIdx : Option Row
  kvCommittedLen : ℕ
  kvAllocatedLen : ℕ
  cacheProtectedLen : ℕ

structure BeamGroup where
  beamWidth : ℕ
  promptLen : ℕ
  numGenerated : ℕ
  finished : Bool
  retired : Bool
  memberRows : Option (List Row)
  allRows : Option (List Row)
  pendingOrphans : List StagedOrphans
  slotsFreed : ℕ

inductive Via
  | orphan | group | leader
  deriving DecidableEq

structure State where
  freeSlots : List Slot
  freeRows : List Row
  reqToToken : Row → ℕ → Slot
  kv : Kv
  outputLen : ℕ
  group : BeamGroup
  /-- The slots and rows of everybody else, the tree among them. -/
  otherSlots : List Slot
  otherRows : List Row
  /-- History: the slots the allocator gave out for the group, and those it got back. -/
  granted : List Slot
  returned : List (Via × Slot)

inductive Verdict
  | goesOn | finishes | aborts

/-- `tensor.flatten().unique()`; the order does not matter. -/
def unique (m : List (List Slot)) : List Slot := m.flatten.dedup

def collectOrphanSlots (oldMapping newMapping : List (List Slot)) : List Slot :=
  (unique oldMapping).filter fun x => decide (x ∉ unique newMapping)

def StagedOrphans.slots (e : StagedOrphans) : List Slot :=
  collectOrphanSlots e.oldMapping e.newMapping

namespace State

variable (s : State)

/-! ## Pools -/

def alloc (needSize : ℕ) : Option (List Slot × State) :=
  if needSize > s.freeSlots.length then none
  else
    some (s.freeSlots.take needSize, { s with
        freeSlots := s.freeSlots.drop needSize
        granted := s.granted ++ s.freeSlots.take needSize })

def free (via : Via) (xs : List Slot) : State :=
  { s with freeSlots := s.freeSlots ++ xs, returned := s.returned ++ xs.map (via, ·) }

def allocRows (needSize : ℕ) : Option (List Row × State) :=
  if needSize > s.freeRows.length then none
  else
    let rest := s.freeRows.length - needSize
    some (s.freeRows.drop rest, { s with freeRows := s.freeRows.take rest })

def returnRows (rows : List Row) : State := { s with freeRows := s.freeRows ++ rows }

/-! ## Selection -/

def spawnMemberRows (leaderRow : Row) : Option State := do
  let (rows, s) ← s.allocRows (s.group.beamWidth - 1)
  let prompt := (List.range s.group.promptLen).map (s.reqToToken leaderRow)
  some { s with
    reqToToken := store s.reqToToken rows 0 (rows.map fun _ => prompt)
    group := { s.group with memberRows := some rows, allRows := some (leaderRow :: rows) } }

def selectLeaderPrefill (leaderRow : Row) (final : Bool) : Option State :=
  let s := { s with group := { s.group with numGenerated := s.group.numGenerated + 1 } }
  if final then some s
  else do
    let s ← s.spawnMemberRows leaderRow
    some { s with outputLen := s.outputLen + 1 }

/-- `remap_kv_mapping` as `_apply_survivors` calls it, and the placeholder. -/
def applySurvivors (tick : ℕ) : Option (List ℕ) → State
  | none => s
  | some parentIdx =>
    let rows := s.group.allRows.getD []
    let oldMapping := window s.reqToToken rows s.group.promptLen s.kv.kvCommittedLen
    let newMapping := parentIdx.map fun i => oldMapping.getD i []
    { s with
      reqToToken := store s.reqToToken rows s.group.promptLen newMapping
      outputLen := s.outputLen + 1
      group := { s.group with
        pendingOrphans := s.group.pendingOrphans ++ [⟨tick, oldMapping, newMapping⟩] } }

/-! ## Giving slots back -/

/-- The loop of `_reclaim_orphans`. -/
def freeStaged (s : State) : List StagedOrphans → State
  | [] => s
  | e :: rest =>
    let s := { s with group := { s.group with slotsFreed := s.group.slotsFreed + e.slots.length } }
    (s.free .orphan e.slots).freeStaged rest

def reclaimOrphans (upToTick : Option ℕ) : State :=
  let due := fun e : StagedOrphans => upToTick.all fun t => decide (e.tick ≤ t)
  let staged := s.group.pendingOrphans.filter due
  let kept := s.group.pendingOrphans.filter fun e => !due e
  freeStaged { s with group := { s.group with pendingOrphans := kept } } staged

def freeMemberRows : State :=
  match s.group.memberRows with
  | none => s
  | some memberRows =>
    let start := s.group.promptLen
    let stop := s.kv.kvAllocatedLen
    let s :=
      if stop > start then
        let slots := unique (window s.reqToToken (s.group.allRows.getD []) start stop)
        { s.free .group slots with
          kv := { s.kv with kvCommittedLen := start, kvAllocatedLen := start } }
      else s
    let s := s.returnRows memberRows
    { s with group := { s.group with memberRows := none, allRows := none } }

def retire : State :=
  if s.group.retired then s
  else
    let s := s.reclaimOrphans none
    { s with group := { s.group with retired := true } }

def retireGroup : State :=
  if s.group.retired then s
  else retire { s with group := { s.group with finished := true } }

/-- `release_kv_cache` of the leader, which is never inserted into the tree: its
slots above the cached prefix go back, and its row. -/
def releaseKvCache : Option State := do
  let row ← s.kv.reqPoolIdx
  -- `assert start_p == end_p`: nothing is allocated beyond what is committed
  if s.kv.kvCommittedLen ≠ s.kv.kvAllocatedLen then none
  else
    let slots := (window s.reqToToken [row] s.kv.cacheProtectedLen s.kv.kvCommittedLen).flatten
    let s := (s.free .leader slots).returnRows [row]
    some { s with kv := { s.kv with reqPoolIdx := none, kvAllocatedLen := 0 } }

/-- `_finish_group` or `_abort_group`, and the release of the leader that follows. -/
def endGroup : Option State :=
  let s := { s with group := { s.group with finished := true } }
  ((s.reclaimOrphans none).freeMemberRows.retire).releaseKvCache

/-- The part of `reset_for_retract` about the KV. -/
def resetForRetract : State :=
  { s with kv := { s.kv with kvCommittedLen := 0, cacheProtectedLen := 0 } }

/-! ## What the scheduler does with the group -/

/-- The leader's prefill: its row, the matched prefix, slots for the rest, and the
first selection.  A leader that selected before it was retracted does not select
again. -/
def prefill (cached : List Slot) (final : Bool) : Option State :=
  let fillLen := s.group.promptLen + s.outputLen
  if s.kv.reqPoolIdx.isSome ∨ s.group.finished ∨ cached.length > s.group.promptLen then none
  else do
    let (rows, s) ← s.allocRows 1
    let row ← rows.head?
    let (slots, s) ← s.alloc (fillLen - cached.length)
    let s := { s with
      reqToToken := store s.reqToToken [row] 0 [cached ++ slots]
      kv := ⟨some row, fillLen, fillLen, cached.length⟩ }
    if s.group.numGenerated > 0 then some s else s.selectLeaderPrefill row final

def beamTail : List Row :=
  if s.group.retired then [] else s.group.memberRows.getD []

def allocForDecode : Option State := do
  let row ← s.kv.reqPoolIdx
  let rows := row :: s.beamTail
  let (slots, s) ← s.alloc rows.length
  some { s with
    reqToToken := store s.reqToToken rows s.kv.kvAllocatedLen (slots.map ([·]))
    kv := { s.kv with
      kvCommittedLen := s.kv.kvCommittedLen + 1, kvAllocatedLen := s.kv.kvAllocatedLen + 1 } }

/-- What `joint_select` returns: a parent for every row, or `None` on a final step. -/
def ValidParents (parentIdx : Option (List ℕ)) : Prop :=
  ∀ ps, parentIdx = some ps → ps.length = s.group.beamWidth ∧ ∀ i ∈ ps, i < s.group.beamWidth

/-- A decode step is prepared, launched and, if the group has a tail in the batch,
selected. -/
def launch (tick : ℕ) (parentIdx : Option (List ℕ)) : Option State := do
  let s' ← s.allocForDecode
  if s.group.memberRows = none ∨ s.group.retired ∨ s.group.finished then some s'
  else
    let s' := { s' with group := { s'.group with numGenerated := s'.group.numGenerated + 1 } }
    some (s'.applySurvivors tick parentIdx)

def commitPrefill (upToTick : Option ℕ) (v : Verdict) : Option State :=
  if s.group.retired then some s
  else match v with
    | .aborts => s.endGroup
    | .finishes => (s.reclaimOrphans upToTick).endGroup
    | .goesOn => some (s.reclaimOrphans upToTick)

def commitDecode (tick : ℕ) (v : Verdict) : Option State :=
  if s.group.retired then some s
  else
    let s := s.reclaimOrphans (some tick)
    match v with
    | .aborts => s.endGroup
    | .finishes => s.endGroup
    | .goesOn => some s

/-- `retract_decode` of the leader: the group is not requeued but ended. -/
def retractDecode : Option State := do
  let s ← s.freeMemberRows.releaseKvCache
  some s.resetForRetract.retireGroup

/-- `retract_all` of a pause, or a preemption: the leader goes back to the queue. -/
def retractAll : Option State := do
  let s ← s.releaseKvCache
  some s.resetForRetract

def abortQueued : Option State :=
  if s.kv.reqPoolIdx.isSome then none else some s.retireGroup

def extraUncachedTokens : ℤ :=
  if s.group.allRows = none then 0
  else
    let grown : ℤ := s.kv.kvAllocatedLen - s.group.promptLen
    s.group.beamWidth * grown - s.group.slotsFreed - grown

end State

end SparkInfer.Beam
