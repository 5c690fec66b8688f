import SparkInfer.Radix.Cache
import Mathlib.Data.Rat.Floor

/-!
# `PrefillAdder`

The admission pass of `schedule_policy.py` over a `RadixCache` and a paged
allocator without sliding window or recurrent state.  Budgets are offsets against
the live total of free and evictable tokens; the estimate for running requests is
a rational number, since `new_token_ratio` is.
-/

namespace SparkInfer.Sched

open Lib Alloc Radix

inductive AddReqResult
  | continue | noToken | other
  deriving DecidableEq, Repr

structure WaitingReq where
  originLen : Nat
  outputLen : Nat
  prefixLen : Nat
  lastNode : NodeId
  maxNewTokens : Nat
  ignoreEos : Bool
  /-- `prefix_indices` are of a prefix of the fill ids. -/
  prefix_le : prefixLen ≤ originLen + outputLen
  deriving DecidableEq, Repr

def WaitingReq.fillLen (r : WaitingReq) : Nat := r.originLen + r.outputLen

def WaitingReq.candExtendInputLen (r : WaitingReq) : Int := (r.fillLen : Int) - r.prefixLen

structure RunningReq where
  originLen : Nat
  outputLen : Nat
  maxNewTokens : Nat
  ignoreEos : Bool
  deriving DecidableEq, Repr

/-- An entry of `can_run_list`: the request and the end of its extend range, which
starts at `len(req.prefix_indices)`. -/
structure Admitted where
  req : WaitingReq
  extendEnd : Int
  deriving DecidableEq, Repr

structure AdderConfig where
  cache : Config
  clipMaxNewTokens : Nat
  prefillMaxRequests : Option Nat
  dsaPrefillCpInSeqSplit : Bool
  /-- `_check_prefill_tile_budget` on the admitted lengths and the candidate. -/
  tileStop : List Int → Int → Bool

structure PrefillAdder (H B : Type) where
  cache : RadixCache H B
  runningBatch : List RunningReq
  newTokenRatio : ℚ
  remInputTokens : Int
  remChunkTokens : Option Int
  remTotalTokenOffset : ℚ
  curRemTokenOffset : Int
  reqStates : Option (List (ℚ × Nat))
  canRunList : List Admitted
  newChunkedReq : Option WaitingReq

namespace PrefillAdder

variable {H B : Type} (cfg : AdderConfig)

def ceilPagedTokens (tokens : Int) : Int := -(-tokens / cfg.cache.pageSize) * cfg.cache.pageSize

/-- Python's `int` of a fraction. -/
def truncate (x : ℚ) : Int := if 0 ≤ x then ⌊x⌋ else ⌈x⌉

variable (ratio : ℚ) (a : PrefillAdder H B) (r : WaitingReq)

def runningOffset (r : RunningReq) : ℚ :=
  ((min ((r.maxNewTokens : Int) - r.outputLen) cfg.clipMaxNewTokens : Int) : ℚ) * ratio

def init (cache : RadixCache H B) (runningBatch : List RunningReq) (newTokenRatio : ℚ)
    (remInputTokens : Int) (remChunkTokens : Option Int) (numMixedDecodeTokens : Nat) :
    PrefillAdder H B where
  cache := cache
  runningBatch := runningBatch
  newTokenRatio := newTokenRatio
  remInputTokens := remInputTokens - numMixedDecodeTokens
  remChunkTokens := remChunkTokens.map (· - numMixedDecodeTokens)
  remTotalTokenOffset :=
    numMixedDecodeTokens + (runningBatch.map (runningOffset cfg newTokenRatio)).sum
  curRemTokenOffset := numMixedDecodeTokens
  reqStates := none
  canRunList := []
  newChunkedReq := none

def availableAndEvictable : Int :=
  a.cache.allocator.availableSize + a.cache.tree.evictableSize

def remTotalTokens : ℚ := a.availableAndEvictable - a.remTotalTokenOffset

def curRemTokens : Int := a.availableAndEvictable - a.curRemTokenOffset

def budgetState : AddReqResult :=
  if a.remTotalTokens ≤ 0 ∨ a.curRemTokens ≤ 0 then .noToken
  else if a.remInputTokens ≤ 0 then .other
  else match a.remChunkTokens with
    | some chunk => if chunk ≤ 0 then .other else .continue
    | none => .continue

/-- `_update_prefill_budget`, without the hit-rate counters. -/
def updatePrefillBudget (extendInputLen maxNewTokens : Int) : PrefillAdder H B :=
  let extend := ceilPagedTokens cfg extendInputLen
  { a with
    remTotalTokenOffset :=
      a.remTotalTokenOffset + ((extend + maxNewTokens + cfg.cache.pageSize : Int) : ℚ)
    curRemTokenOffset := a.curRemTokenOffset + (extend + cfg.cache.pageSize)
    remInputTokens := a.remInputTokens - extend
    remChunkTokens := a.remChunkTokens.map (· - extend) }

def admitReq (extendLen : Int) : PrefillAdder H B :=
  { a with canRunList := a.canRunList ++ [⟨r, r.prefixLen + extendLen⟩] }

/-- `_check_prefill_tile_budget`; it never stops the first request. -/
def tileStops (extendLen : Int) : Bool :=
  !a.canRunList.isEmpty &&
    cfg.tileStop (a.canRunList.map fun x => x.extendEnd - x.req.prefixLen) extendLen

/-! ## Chunked requests -/

/-- `add_chunked_req`; the second component is the request if it is not finished. -/
def addChunkedReq : Except PyError (PrefillAdder H B × Option WaitingReq) :=
  match a.remChunkTokens with
  | none => .error (.valueError "'<' not supported between instances of 'int' and 'NoneType'")
  | some chunk =>
    let rem := min chunk (truncate a.remTotalTokens)
    -- the request must run, or its pages would leak
    let rem := if rem ≤ 0 then chunk else rem
    let truncated : Bool := decide (rem < r.candExtendInputLen)
    let newLen := min r.candExtendInputLen rem
    let a := a.admitReq r newLen
    let maxNew : Int := if truncated then 0 else min (r.maxNewTokens : Int) cfg.clipMaxNewTokens
    .ok (a.updatePrefillBudget cfg newLen maxNew, if truncated then some r else none)

def FallbackTaken : Prop :=
  ∀ chunk, a.remChunkTokens = some chunk → min chunk (truncate a.remTotalTokens) ≤ 0

/-! ## Requests that ignore the end of sequence, without a prefix cache -/

/-- `add_req_state`: what is left to decode and what is occupied, if anything is
left. -/
def reqState (originLen outputLen maxNewTokens : Nat) (ignoreEos : Bool) : Option (ℚ × Nat) :=
  let left := (maxNewTokens : ℚ) * (if ignoreEos then 1 else ratio) - outputLen
  if left ≤ 0 then none else some (left, originLen + outputLen)

def waitingState : Option (ℚ × Nat) :=
  reqState ratio r.originLen r.outputLen r.maxNewTokens r.ignoreEos

def runningState (r : RunningReq) : Option (ℚ × Nat) :=
  reqState ratio r.originLen r.outputLen r.maxNewTokens r.ignoreEos

/-- The position `insert_sort` inserts at: the loop variable after the loop, so
the last position, not the end, if no entry is large enough. -/
def insertPos (left : ℚ) : List (ℚ × Nat) → Nat
  | [] => 0
  | [_] => 0
  | x :: rest => if left ≤ x.1 then 0 else insertPos left rest + 1

def statesWith : List (ℚ × Nat) :=
  match a.reqStates with
  | none =>
    let states := (waitingState a.newTokenRatio r).toList ++
      a.runningBatch.filterMap (runningState a.newTokenRatio) ++
      a.canRunList.filterMap fun x => waitingState a.newTokenRatio x.req
    states.mergeSort fun x y => decide (x.1 ≤ y.1)
  | some states =>
    match waitingState a.newTokenRatio r with
    | none => states
    | some st => states.insertIdx (insertPos st.1 states) st

/-- The loop over `req_states`: whether some request would be left without memory
(`IGNORE_EOS_RESERVE_TOKENS` is one). -/
def runsShort (curRem : ℚ) : ℚ → List (ℚ × Nat) → Bool
  | _, [] => false
  | freed, (left, occupied) :: rest =>
    let bs : ℚ := ((rest.length + 1 : Nat) : ℚ)
    if curRem + freed - left * bs ≤ bs then true
    else runsShort curRem (freed + occupied) rest

def addOneReqIgnoreEos (allow : Bool) : Except PyError (PrefillAdder H B × AddReqResult) :=
  let cand := r.candExtendInputLen
  let paged := ceilPagedTokens cfg cand
  if min (a.curRemTokens : ℚ) a.remTotalTokens < paged then .ok (a, .noToken)
  else
    let a := { a with reqStates := some (a.statesWith r) }
    if runsShort ((a.curRemTokens - paged : Int) : ℚ) 0 (a.reqStates.getD []) then .ok (a, .noToken)
    else if allow = false then .ok (a, .other)
    else
      match a.remChunkTokens with
      | none =>
        if a.tileStops cfg cand then .ok (a, .other)
        else
          let a := (a.admitReq r cand).updatePrefillBudget cfg cand
            (min (r.maxNewTokens : Int) cfg.clipMaxNewTokens)
          .ok (a, a.budgetState)
      | some chunk =>
        if cand ≤ chunk then
          if a.tileStops cfg cand then .ok (a, .other)
          else
            let a := (a.admitReq r cand).updatePrefillBudget cfg cand
              (min (r.maxNewTokens : Int) cfg.clipMaxNewTokens)
            .ok (a, a.budgetState)
        else if chunk ≤ 0 then .ok (a, .other)
        else if a.tileStops cfg chunk then .ok (a, .other)
        else if r.prefixLen ≠ 0 then .error (.assertionError "len(req.prefix_indices) == 0")
        else
          let a := ({ a.admitReq r chunk with newChunkedReq := some r }).updatePrefillBudget cfg chunk 0
          .ok (a, a.budgetState)

/-! ## `add_one_req` -/

/-- The length of a truncated chunk: whole pages of the limit, then of the
alignment, then up to a page boundary of the row. -/
def truncLen (limit : Int) (align : Option Nat) (prefixLen : Nat) : Option Int :=
  let p : Int := cfg.cache.pageSize
  let trunc := limit / p * p
  if trunc ≤ 0 then none
  else
    let aligned : Option Int :=
      match align with
      | none => some trunc
      | some k => if trunc < k then none else some (k * (trunc / k))
    match aligned with
    | none => none
    | some trunc =>
      let trunc := (trunc + prefixLen) / p * p - prefixLen
      if trunc ≤ 0 then none else some trunc

/-- The body of `with self._lock_node(req.last_node)`; `none` is a return before
the request is added. -/
def addLocked (align : Option Nat) (allow : Bool) (total : Int) :
    Except PyError (PrefillAdder H B × Option AddReqResult) :=
  if a.remTotalTokens ≤ total then .ok (a, some .noToken)
  else if allow = false then .ok (a, some .other)
  else
    let input := ceilPagedTokens cfg r.candExtendInputLen
    if a.remChunkTokens = none ∧ a.canRunList ≠ [] ∧ a.remInputTokens ≤ input then
      .ok (a, some .other)
    else
      match a.remChunkTokens with
      | none =>
        if a.tileStops cfg input then .ok (a, some .other)
        else do
          let a := a.admitReq r r.candExtendInputLen
          let (cache, _) ← a.cache.incLockRef cfg.cache r.lastNode
          .ok ({ a with cache := cache }.updatePrefillBudget cfg input
            (min (r.maxNewTokens : Int) cfg.clipMaxNewTokens), none)
      | some chunk =>
        if input ≤ chunk then
          if a.tileStops cfg input then .ok (a, some .other)
          else do
            let a := a.admitReq r r.candExtendInputLen
            let (cache, _) ← a.cache.incLockRef cfg.cache r.lastNode
            .ok ({ a with cache := cache }.updatePrefillBudget cfg input
              (min (r.maxNewTokens : Int) cfg.clipMaxNewTokens), none)
        else
          match truncLen cfg chunk align r.prefixLen with
          | none => .ok (a, some .other)
          | some trunc =>
            if a.tileStops cfg trunc then .ok (a, some .other)
            else do
              let a := { a.admitReq r trunc with newChunkedReq := some r }
              let (cache, _) ← a.cache.incLockRef cfg.cache r.lastNode
              .ok ({ a with cache := cache }.updatePrefillBudget cfg trunc 0, none)

/-- `len(self.can_run_list) >= self.prefill_max_requests`, if that is set. -/
def atMaxRequests : Bool :=
  match cfg.prefillMaxRequests with
  | some x => decide (x ≤ a.canRunList.length)
  | none => false

/-- `add_one_req`; `allow` is the verdict of the prefill delayer.  A `RadixCache`
has no host copies, so nothing is loaded back. -/
def addOneReq (align : Option Nat) (allow : Bool) :
    Except PyError (PrefillAdder H B × AddReqResult) :=
  if cfg.dsaPrefillCpInSeqSplit = true ∧ a.canRunList ≠ [] then .ok (a, .other)
  else if a.atMaxRequests cfg then .ok (a, .other)
  else if r.ignoreEos = true ∧ cfg.cache.disable = true then a.addOneReqIgnoreEos cfg r allow
  else
    let maxNew := min (max ((r.maxNewTokens : Int) - r.outputLen) 0) cfg.clipMaxNewTokens
    let total := r.candExtendInputLen + maxNew + cfg.cache.pageSize
    if a.remTotalTokens ≤ total then .ok (a, .noToken)
    else if a.remChunkTokens = none ∧ a.canRunList ≠ [] ∧
        a.remInputTokens ≤ ceilPagedTokens cfg r.candExtendInputLen then .ok (a, .other)
    else do
      let (cache, _) ← a.cache.incLockRef cfg.cache r.lastNode
      let (a, answer) ← { a with cache := cache }.addLocked cfg r align allow total
      -- leaving the block gives the temporary lock back, then `budget_state` is read
      let (cache, _) ← a.cache.decLockRef cfg.cache r.lastNode
      let a := { a with cache := cache }
      .ok (a, answer.getD a.budgetState)

end PrefillAdder

end SparkInfer.Sched
