import SparkInfer.Alloc.Batch
import SparkInfer.Radix.Requests

/-!
# Decode steps

`check_decode_mem` computes the tokens of the next decode step and evicts for
them; `retract_decode` gives up requests until the rest passes the check;
`prepare_for_decode` allocates, and raises where it cannot.  The three use
different formulas for the pages of a step.
-/

namespace SparkInfer.Sched

open Lib Alloc Radix

structure SpecParams where
  numSteps : Nat
  eagleTopk : Nat
  numDraftTokens : Nat
  maxDraftTokens : Nat
  isNgram : Bool
  isDflash : Bool
  draft_le : numDraftTokens ≤ maxDraftTokens

variable (s : SpecParams) (pageSize : Nat)

def SpecParams.allocLenPerDecode : Nat :=
  if pageSize = 1 ∨ s.eagleTopk = 1 ∨ s.isNgram = true then
    max (s.numSteps * s.eagleTopk) s.maxDraftTokens
  else
    let numNewPagesPerTopk := (pageSize - 1 + s.numSteps + pageSize - 1) / pageSize
    max (numNewPagesPerTopk * pageSize * s.eagleTopk) s.maxDraftTokens

def SpecParams.allocReservePerDecode : Nat :=
  2 * s.allocLenPerDecode pageSize

def SpecParams.prepareReserve : Nat :=
  if s.isDflash then 2 * s.numDraftTokens else s.allocReservePerDecode pageSize

structure BeamGroup where
  promptLen : Nat
  /-- The rows of the members; `None` before the spawn and after the free. -/
  memberRows : Option (List (List Int))
  retired : Bool

def BeamGroup.numMemberRows (g : BeamGroup) : Nat := (g.memberRows.getD []).length

def BeamGroup.tail (g : BeamGroup) : List (List Int) :=
  if g.retired then [] else g.memberRows.getD []

/-- A request of the running batch; `req.row` is allocated as a whole, so its length
is `kv_allocated_len`. -/
structure DecodeReq where
  req : Req
  kvCommittedLen : Nat
  reasoningTokens : Nat
  beamGroup : Option BeamGroup
  finished : Bool

namespace DecodeReq

def numMemberRows (r : DecodeReq) : Nat := (r.beamGroup.map BeamGroup.numMemberRows).getD 0

def tail (r : DecodeReq) : List (List Int) := (r.beamGroup.map BeamGroup.tail).getD []

end DecodeReq

structure DecodeConfig where
  cache : Config
  spec : Option SpecParams
  stripThinkingCache : Bool
  retractDecodeSteps : Nat
  /-- Ties of the eviction heap. -/
  tie : List NodeId → Nat

section Model

variable {H B : Type} [DecidableEq B] (cfg : DecodeConfig) (hf : HashFns H B)
variable (c : RadixCache H B) (r : DecodeReq) (reqs : List DecodeReq)

def evictFromTreeCache (numTokens : Nat) : Except PyError (RadixCache H B) :=
  if c.allocator.availableSize < numTokens then do
    let (c, _) ← c.evict cfg.cache hf cfg.tie (numTokens - c.allocator.availableSize)
    pure c
  else .ok c

/-! ## The check -/

def ceilAlign (n pageSize : Nat) : Nat := Paged.ceilDiv n pageSize * pageSize

def newTokensRequiredNextDecode (pageSize : Nat) (reqs : List DecodeReq) : Nat :=
  match cfg.spec with
  | none =>
    (reqs.countP fun r => r.kvCommittedLen % pageSize = 0) * pageSize +
      (reqs.map DecodeReq.numMemberRows).sum
  | some s =>
    (reqs.map fun r =>
      let x := r.kvCommittedLen + s.allocReservePerDecode pageSize - r.req.row.length
      let cur := r.req.row.length
      ceilAlign (cur + x) pageSize - ceilAlign cur pageSize).sum

def checkDecodeMem : Except PyError (RadixCache H B × Bool) := do
  let numTokens := newTokensRequiredNextDecode cfg c.allocator.pageSize reqs
  let c ← evictFromTreeCache cfg hf c numTokens
  pure (c, decide (numTokens ≤ c.allocator.availableSize))

/-! ## The allocation -/

def allocTokenSlots (numTokens : Nat) : Except PyError (RadixCache H B × List Int) := do
  let c ← evictFromTreeCache cfg hf c numTokens
  match c.allocator.alloc numTokens with
  | (none, _) => throw (.runtimeError "Out of memory. Try to lower your batch size.")
  | (some out, a) => pure ({ c with allocator := a }, out)

def lastLoc (row : List Int) (len : Nat) : Int := row.getD (len - 1) (-1)

/-- Every row with its length after the step and its last slot, the member rows of
the beam groups behind the requests. -/
def decodeRows : List (Nat × Int) :=
  (reqs.map fun r => (r.kvCommittedLen + 1, lastLoc r.req.row r.kvCommittedLen)) ++
    reqs.flatMap fun r => r.tail.map fun row => (r.kvCommittedLen + 1, lastLoc row r.kvCommittedLen)

def BeamGroup.append (g : BeamGroup) (slots : List Int) : BeamGroup :=
  if g.retired then g
  else { g with memberRows := g.memberRows.map fun rows => rows.zipWith (fun row s => row ++ [s]) slots }

def writeDecode : List DecodeReq → List Int → List Int → List DecodeReq
  | r :: reqs, slot :: slots, tails => { r with
      req := { r.req with row := r.req.row ++ [slot] }
      kvCommittedLen := r.kvCommittedLen + 1
      beamGroup := r.beamGroup.map fun g => g.append (tails.take r.tail.length) } ::
      writeDecode reqs slots (tails.drop r.tail.length)
  | _, _, _ => []

def allocForDecode : Except PyError (RadixCache H B × List DecodeReq) := do
  let rows := decodeRows reqs
  if c.allocator.pageSize = 1 then
    let (c, out) ← allocTokenSlots cfg hf c rows.length
    pure (c, writeDecode reqs out (out.drop reqs.length))
  else
    -- over-estimated as one page for each row
    let c ← evictFromTreeCache cfg hf c (rows.length * c.allocator.pageSize)
    match c.allocator.allocDecodeBatch rows with
    | (none, _) => throw (.runtimeError "Decode out of memory. Try to lower your batch size.")
    | (some out, a) => pure ({ c with allocator := a }, writeDecode reqs out (out.drop reqs.length))

/-- `page_aligned_decode_alloc_lens` for one request: the length after the step. -/
def nextKvLen (reserve pageSize : Nat) (r : DecodeReq) : Nat :=
  max r.req.row.length ((r.kvCommittedLen + reserve + pageSize - 1) / pageSize * pageSize)

def splitSlots : List Nat → List Int → List (List Int)
  | [], _ => []
  | n :: ns, slots => slots.take n :: splitSlots ns (slots.drop n)

def writeRows (outs : List (List Int)) : List DecodeReq :=
  reqs.zipWith (fun r out => { r with req := { r.req with row := r.req.row ++ out } }) outs

/-- `alloc_for_spec_decode` with the lengths of `page_aligned_decode_alloc_lens`. -/
def allocForSpecDecode (s : SpecParams) (c : RadixCache H B) (reqs : List DecodeReq) :
    Except PyError (RadixCache H B × List DecodeReq) := do
  let k := c.allocator.pageSize
  let needs := reqs.map fun r => nextKvLen (s.prepareReserve k) k r - r.req.row.length
  let numNeededTokens := needs.sum
  if numNeededTokens = 0 then pure (c, reqs)
  else if k = 1 then
    let (c, out) ← allocTokenSlots cfg hf c numNeededTokens
    pure (c, writeRows reqs (splitSlots needs out))
  else
    let rows := reqs.map fun r =>
      (⟨r.req.row.length, nextKvLen (s.prepareReserve k) k r,
        lastLoc r.req.row r.req.row.length⟩ : Paged.RowEnd)
    let c ← evictFromTreeCache cfg hf c (numNeededTokens + rows.length * k)
    match c.allocator.allocExtendBatch rows with
    | (none, _) => throw (.runtimeError "Prefill out of memory. Try to lower your batch size.")
    | (some outs, a) => pure ({ c with allocator := a }, writeRows reqs outs)

def prepareForDecode : Except PyError (RadixCache H B × List DecodeReq) :=
  match cfg.spec with
  | none => allocForDecode cfg hf c reqs
  | some s => allocForSpecDecode cfg hf s c reqs

/-! ## Retraction -/

def effectiveKvCommittedLen : Nat :=
  if cfg.stripThinkingCache = true ∧ 0 < r.reasoningTokens then
    min r.kvCommittedLen r.req.originInputIds.length
  else r.kvCommittedLen

/-- `release_kv_cache` without an insert, and its check for slots past the committed
length. -/
def releaseDecodeReq : Except PyError (RadixCache H B) := do
  let kvLen := effectiveKvCommittedLen cfg r
  let c ← c.cacheFinishedReq cfg.cache hf r.req false kvLen
  if cfg.spec.isNone = true ∧ cfg.stripThinkingCache = false ∧ kvLen ≠ r.req.row.length then
    throw (.assertionError "Unexpected overallocated KV cache")
  else pure { c with allocator := RadixCache.releaseOverallocated c.allocator r.req kvLen }

def releaseReq (remainingReqCount : Nat) : Except PyError (RadixCache H B) := do
  let c ← releaseDecodeReq cfg hf c r
  evictFromTreeCache cfg hf c (remainingReqCount * cfg.retractDecodeSteps)

/-- `free_member_rows`: the decode region of the group goes back once, and the leader is
cut to its prompt. -/
def freeMemberRows : RadixCache H B × DecodeReq :=
  match r.beamGroup with
  | none => (c, r)
  | some g =>
    match g.memberRows with
    | none => (c, r)
    | some rows =>
      let spent : Option BeamGroup := some { g with memberRows := none }
      if g.promptLen < r.req.row.length then
        let slots := ((r.req.row :: rows).flatMap fun row => row.drop g.promptLen).dedup
        ({ c with allocator := c.allocator.free slots }, { r with
            req := { r.req with row := r.req.row.take g.promptLen }
            kvCommittedLen := g.promptLen
            beamGroup := spent })
      else (c, { r with beamGroup := spent })

structure Retraction where
  kept : List DecodeReq
  retracted : List DecodeReq
  aborted : List DecodeReq

/-- One round of the loop of `retract_decode`: a beam group is aborted, any other request
retracted, or aborted if its backup was not saved. -/
def retractOne (saved : DecodeReq → Bool) (c : RadixCache H B) (r : DecodeReq) (remaining : Nat)
    (out : Retraction) : Except PyError (RadixCache H B × Retraction) :=
  match r.beamGroup with
  | some _ => do
    let (c, freed) := freeMemberRows c r
    let c ← releaseReq cfg hf c freed remaining
    pure (c, { out with aborted := out.aborted ++ [r] })
  | none => do
    let c ← releaseReq cfg hf c r remaining
    if saved r then pure (c, { out with retracted := out.retracted ++ [r] })
    else pure (c, { out with aborted := out.aborted ++ [r] })

/-- Whether the loop ends: `not first_iter and check_decode_mem(...)`. -/
def loopTest (firstIter : Bool) (c : RadixCache H B) (selected : List DecodeReq) :
    Except PyError (RadixCache H B × Bool) :=
  if firstIter then .ok (c, false) else checkDecodeMem cfg hf c selected

/-- The loop of `retract_decode`.  The list is `sorted_indices` from its end, where the
loop pops. -/
def retractLoop (saved : DecodeReq → Bool) : Bool → RadixCache H B → List DecodeReq → Retraction →
    Except PyError (RadixCache H B × Retraction)
  | firstIter, c, [], out => do
    let (c, passed) ← loopTest cfg hf firstIter c []
    if passed then pure (c, { out with kept := [] })
    else throw (.indexError "pop from empty list")
  | firstIter, c, [r], out => do
    let (c, _) ← loopTest cfg hf firstIter c [r]
    pure (c, { out with kept := [r] })
  | firstIter, c, r :: next :: rest, out => do
    let (c, passed) ← loopTest cfg hf firstIter c (r :: next :: rest).reverse
    if passed then pure (c, { out with kept := (r :: next :: rest).reverse })
    else
      let (c, out) ← retractOne cfg hf saved c r (next :: rest).length out
      retractLoop saved false c (next :: rest) out

def beamRetractionOrder (sorted : List DecodeReq) : List DecodeReq :=
  if sorted.any (·.beamGroup.isSome) then
    sorted.filter (·.beamGroup.isSome) ++ sorted.filter (fun r => !r.beamGroup.isSome)
  else sorted

/-- `retract_decode`; `sorted` is the batch in the order of the retraction policy, best
first. -/
def retractDecode (saved : DecodeReq → Bool) (c : RadixCache H B) (sorted : List DecodeReq) :
    Except PyError (RadixCache H B × Retraction) := do
  let order := beamRetractionOrder sorted
  let (c, out) ← retractLoop cfg hf saved true c order.reverse ⟨[], [], []⟩
  if 1 < out.kept.length then pure (c, out)
  else
    let (c, passed) ← checkDecodeMem cfg hf c out.kept
    if passed then pure (c, out)
    else
      match out.kept.reverse with
      | [] => throw (.indexError "pop from empty list")
      | last :: rest =>
        let (c, freed) := freeMemberRows c last
        let c ← releaseReq cfg hf c freed 0
        pure (c, { out with kept := rest.reverse, aborted := out.aborted ++ [last] })

/-- The batch after the retraction, if there is one; `order` is the retraction policy. -/
def makeRoom (order : List DecodeReq → List DecodeReq) (saved : DecodeReq → Bool) (retract : Bool)
    (c : RadixCache H B) (reqs : List DecodeReq) : Except PyError (RadixCache H B × Retraction) :=
  if retract then retractDecode cfg hf saved c (order reqs) else .ok (c, ⟨reqs, [], []⟩)

structure Updated (H B : Type) where
  cache : RadixCache H B
  split : Retraction
  batch : List DecodeReq

/-- `update_running_batch`; `testRetract` is the forced retraction of tests. -/
def updateRunningBatch (order : List DecodeReq → List DecodeReq) (saved : DecodeReq → Bool)
    (testRetract : Bool) (c : RadixCache H B) (reqs : List DecodeReq) :
    Except PyError (Updated H B) := do
  let reqs := reqs.filter fun r => !r.finished
  if reqs = [] then pure ⟨c, ⟨[], [], []⟩, []⟩
  else
    let (c, passed) ← checkDecodeMem cfg hf c reqs
    let (c, split) ← makeRoom cfg hf order saved (!passed || testRetract) c reqs
    if split.kept = [] then pure ⟨c, split, []⟩
    else
      let (c, batch) ← prepareForDecode cfg hf c split.kept
      pure ⟨c, split, batch⟩

end Model

end SparkInfer.Sched
