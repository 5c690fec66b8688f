import SparkInfer.Mamba.Caching

/-!
# Runs of the Mamba pool

Any sequence of operations on any requests, from the empty pool.  `free_mamba_cache`
leaves the ping-pong buffer in `req.kv`, and a finished request whose running slot the
tree took still refers to it, so a request that was freed has to be reset before it is
used again.
-/

namespace SparkInfer.Mamba

open Lib Lib.Ledger Multiset SlotAllocator List Option Bool

variable {isInsert : Bool} {choice : TreeChoice} {cfg : Config} {p : Pool}

/-- What happens to a request after its state was freed: nothing, or its row is freed
and it is reset, as for a retraction (or dropped). -/
inductive Next
  | keep
  | reset

def Next.apply (p : Pool) (r : ReqId) : Next → Pool
  | keep => p
  | reset => (p.freeRow r).resetForRetract r

inductive Op
  | alloc (reqs : List ReqId)
  | cowMamba (r : ReqId) (evicted : List NodeId)
  | mambaLazyPreallocAtBoundary (r : ReqId) (allocFails : Bool)
  | mambaLazySpecPrepare (r : ReqId) (allocFails : Bool)
  | mambaLazyPostDecodeAtBoundary (r : ReqId) (trackIdx : TrackIdx)
  | mambaLazySpecUpdate (r : ReqId) (plannedPos : TrackIdx) (trackSeqlen : ℕ)
  /-- The writes to the track indices and lengths while a batch is prepared and its
  results are processed. -/
  | track (r : ReqId) (next last : Option TrackIdx) (seqlen : Option ℕ)
  | cacheUnfinishedReq (r : ReqId) (choice : Pool.TreeChoice)
  | releaseKvCache (r : ReqId) (isInsert : Bool) (choice : Pool.TreeChoice) (next : Next)
  | freeMambaCache (r : ReqId) (next : Next)
  | evict (nodes : List NodeId)
  | allocGroupBegin (numReqs : ℕ)
  | allocGroupEnd

namespace Op

def apply (cfg : Config) (p : Pool) : Op → Except PyError Pool
  | alloc reqs => p.alloc cfg reqs
  | cowMamba r evicted => p.cowMamba cfg r evicted
  | mambaLazyPreallocAtBoundary r allocFails => p.mambaLazyPreallocAtBoundary r allocFails
  | mambaLazySpecPrepare r allocFails => p.mambaLazySpecPrepare r allocFails
  | mambaLazyPostDecodeAtBoundary r trackIdx => p.mambaLazyPostDecodeAtBoundary r trackIdx
  | mambaLazySpecUpdate r plannedPos trackSeqlen => p.mambaLazySpecUpdate r plannedPos trackSeqlen
  | track r next last seqlen => .ok (p.setReq r
      { p.reqs r with nextTrackIdx := next, lastTrackIdx := last, lastTrackSeqlen := seqlen })
  | cacheUnfinishedReq r choice => p.cacheUnfinishedReq cfg r choice
  | releaseKvCache r isInsert choice next => do
    let p ← p.releaseKvCache cfg r isInsert choice
    .ok (next.apply p r)
  | freeMambaCache r next => do
    let p ← p.freeMambaCache cfg r none
    .ok (next.apply p r)
  | evict nodes => .ok (p.evict cfg nodes)
  | allocGroupBegin numReqs => .ok { p with allocator := p.allocator.allocGroupBegin numReqs }
  | allocGroupEnd => .ok { p with allocator := p.allocator.allocGroupEnd }

/-- A request that still refers to slots it gave up is reset; a group starts when the
last one has nothing left. -/
def Safe (cfg : Config) (p : Pool) : Op → Prop
  | releaseKvCache _ isInsert _ next =>
    cfg.extraBuffer = true ∨ (isInsert = true ∧ cfg.int8 = false) → next = .reset
  | freeMambaCache _ next => cfg.extraBuffer = true → next = .reset
  | allocGroupBegin _ => p.allocator.allocIter.getD [] = []
  | _ => True

end Op

def run (cfg : Config) (ops : List Op) : Except PyError Pool :=
  ops.foldlM (fun p op => op.apply cfg p) (Pool.new cfg)

def SafeRun (cfg : Config) (ops : List Op) : Prop :=
  ∀ done op rest p, ops = done ++ op :: rest → run cfg done = .ok p → op.Safe cfg p

namespace Pool

variable {p' : Pool} {r : ReqId} {hand : Multiset Asset}

/-! ## Steps -/

theorem Settled.reset {given : Prop} (h : Settled cfg p p' r given) :
    Kept cfg p (Next.reset.apply p' r) := by
  refine ⟨?_, fun hand => (h.flow hand).congr (held_resetForRetract_freeRow p' r)⟩
  rw [Next.apply, resetForRetract_freeRow]
  exact h.wired.dropRow rfl rfl

theorem flow_of_reset (hslots : (p'.reqs r).slots = []) (h : Flow cfg p hand (p'.resetForRetract r) hand) :
    Flow cfg p hand p' hand := by
  have hheld : (p'.resetForRetract r).held cfg = p'.held cfg :=
    held_congr rfl rfl rfl (apply_setReq ReqKv.slots hslots.symm)
  exact h.congr hheld.symm

theorem Wired.releaseEarly (hw : p.Wired cfg) (hrow : (p.reqs r).reqPoolIdx = none)
    (h : p.releaseKvCache cfg r isInsert choice = .ok p') :
    Kept cfg p p' ∧ (p'.reqs r).slots = [] := by
  have hbuf := hw.bare r (.inr hrow)
  unfold Pool.releaseKvCache at h
  rw [if_pos (by rw [hrow]; rfl)] at h
  split at h
  · rename_i hnone
    cases h
    refine ⟨hw.kept, ?_⟩
    rw [ReqKv.slots, hnone, hbuf]
    rfl
  rename_i slot hslot
  cases h
  obtain ⟨hslots, hflow⟩ : _ ∧ ∀ hand, Flow cfg p hand _ hand := flow_freeRunning hbuf hslot
  rw [reqs_setReq_self]
  exact ⟨⟨(hw.congr (sameReqs_freeSlots p false [slot])).setReq rfl rfl, hflow⟩, hslots⟩

theorem freeRow_freeRow : (p.freeRow r).freeRow r = p.freeRow r := by
  have hnone : ((p.freeRow r).reqs r).reqPoolIdx = none := by
    rw [freeRow_eq, reqs_setReq_self]
  rw [freeRow, hnone]

theorem Wired.releaseKvCache (hw : p.Wired cfg) {next : Next}
    (hnext : cfg.extraBuffer = true ∨ (isInsert = true ∧ cfg.int8 = false) → next = .reset)
    (h : p.releaseKvCache cfg r isInsert choice = .ok p') :
    Kept cfg p (next.apply p' r) := by
  cases hrow : (p.reqs r).reqPoolIdx with
  | none =>
    obtain ⟨hkept, hslots⟩ := hw.releaseEarly hrow h
    cases next with
    | keep => exact hkept
    | reset =>
      have hreset : Settled cfg p p' r True := by
        refine ⟨hkept.1, fun _ _ => hslots, fun hand => ?_⟩
        have hkv : Flow cfg p' hand (p'.resetForRetract r) (hand + real false (p'.reqs r).slots) :=
          flow_resetForRetract r hand
        rw [hslots, real_nil, add_zero] at hkv
        exact (hkept.2 hand).trans hkv
      exact hreset.reset
  | some row =>
    unfold Pool.releaseKvCache at h
    rw [if_neg (by rw [hrow]; exact false_ne_true)] at h
    obtain ⟨p₁, hcache, h⟩ := bind_ok h
    cases h
    have hsettled := hw.cacheFinishedReq hcache
    cases next with
    | reset =>
      rw [Next.apply, freeRow_freeRow]
      exact hsettled.reset
    | keep =>
      have hno : ¬(cfg.extraBuffer = true ∨ (isInsert = true ∧ cfg.int8 = false)) :=
        fun hgiven => nomatch hnext hgiven
      have hextra : cfg.extraBuffer = false := eq_false_iff.mpr fun hyes => hno (.inl hyes)
      have hslots := hsettled.bare hextra fun hgiven => hno (.inr hgiven)
      refine ⟨?_, fun hand => (flow_of_reset hslots (hsettled.flow hand)).congr (held_freeRow p₁ r)⟩
      rw [freeRow_eq]
      exact hsettled.wired.dropRow rfl (hsettled.wired.bare r (.inl hextra))

/-! ## Groups of allocations -/

theorem real_allocGroupBegin {a : SlotAllocator} (h : a.allocIter.getD [] = []) (numReqs : ℕ) (b : Bool) :
    real b (a.allocGroupBegin numReqs).freeSlots + real b ((a.allocGroupBegin numReqs).allocIter.getD []) =
      real b a.freeSlots + real b (a.allocIter.getD []) := by
  rw [h, real_nil, add_zero]
  unfold allocGroupBegin doAlloc
  dsimp only
  split
  · split
    · rename_i result a' hdo
      split at hdo
      · cases hdo
      · cases hdo
        rw [getD_some, add_comm, ← real_append, take_append_drop]
    · exact add_zero _
  · exact add_zero _

theorem real_allocGroupEnd (a : SlotAllocator) (b : Bool) :
    real b a.allocGroupEnd.freeSlots + real b (a.allocGroupEnd.allocIter.getD []) =
      real b a.freeSlots + real b (a.allocIter.getD []) := by
  change real b (a.freeSlots ++ a.allocIter.getD []) + real b [] = _
  rw [real_append, real_nil, add_zero]

theorem flow_setAllocator (a : SlotAllocator)
    (h : real false a.freeSlots + real false (a.allocIter.getD []) =
      real false p.allocator.freeSlots + real false (p.allocator.allocIter.getD []))
    (hand : Multiset Asset) : Flow cfg p hand { p with allocator := a } hand :=
  flow_setSide false a (congrArg (hand + ·) h)

theorem Wired.apply (hw : p.Wired cfg) {op : Op} (hsafe : op.Safe cfg p) (h : op.apply cfg p = .ok p') :
    Kept cfg p p' := by
  cases op with
  | alloc reqs =>
    obtain ⟨hw', hflow, -⟩ := hw.alloc h
    exact ⟨hw', hflow⟩
  | cowMamba r evicted => exact hw.cowMamba h
  | mambaLazyPreallocAtBoundary r allocFails | mambaLazySpecPrepare r allocFails =>
    exact hw.lazyReserve h
  | mambaLazyPostDecodeAtBoundary r trackIdx => exact hw.postDecode h
  | mambaLazySpecUpdate r plannedPos trackSeqlen => exact hw.specUpdate h
  | track r next last seqlen =>
    cases h
    exact hw.kept.setReq rfl rfl rfl
  | cacheUnfinishedReq r choice => exact hw.cacheUnfinishedReq h
  | releaseKvCache r isInsert choice next =>
    obtain ⟨p₁, hrelease, h⟩ := bind_ok h
    cases h
    exact hw.releaseKvCache hsafe hrelease
  | freeMambaCache r next =>
    obtain ⟨p₁, hfree, h⟩ := bind_ok h
    cases h
    cases next with
    | keep =>
      have hextra : cfg.extraBuffer = false := eq_false_iff.mpr fun hyes => nomatch hsafe hyes
      exact ⟨hw.freeMambaCache hfree, (hw.freeMambaCache_bare hextra hfree).2⟩
    | reset => exact (hw.settled_freeMambaCache False hfree).reset
  | evict nodes =>
    cases h
    exact ⟨hw.congr (sameReqs_evict cfg p nodes), flow_evict nodes⟩
  | allocGroupBegin numReqs =>
    cases h
    exact ⟨hw.congr ⟨rfl, rfl, rfl⟩, flow_setAllocator _ (real_allocGroupBegin hsafe numReqs false)⟩
  | allocGroupEnd =>
    cases h
    exact ⟨hw.congr ⟨rfl, rfl, rfl⟩, flow_setAllocator _ (real_allocGroupEnd p.allocator false)⟩

theorem wired_new : (Pool.new cfg).Wired cfg where
  nodup := List.Nodup.map (Nat.succ_injective) nodup_range
  inj h := nomatch h
  not_free h := nomatch h
  mapped _ _ _ h := nomatch h
  bare _ _ := rfl

end Pool

open Pool

variable {ops : List Op}

theorem run_snoc (op : Op) : run cfg (ops ++ [op]) = (run cfg ops >>= fun p => op.apply cfg p) := by
  rw [run, foldlM_append]
  congr 1
  simp [-pure_ok]

theorem run_kept (hrun : run cfg ops = .ok p) (hsafe : SafeRun cfg ops) :
    p.Wired cfg ∧ Flow cfg (Pool.new cfg) 0 p 0 := by
  induction ops using reverseRecOn generalizing p with
  | nil =>
    cases hrun
    exact ⟨wired_new, .refl cfg _ 0⟩
  | append_singleton ops op ih =>
    rw [run_snoc] at hrun
    obtain ⟨p₁, hdone, hop⟩ := bind_ok hrun
    obtain ⟨hw, hflow⟩ := ih hdone fun done o rest q heq hq =>
      hsafe done o (rest ++ [op]) q (by simp [heq]) hq
    obtain ⟨hw', hstep⟩ := hw.apply (hsafe ops op [] p₁ rfl hdone) hop
    exact ⟨hw', hflow.trans (hstep 0)⟩

/-! ## Owners -/

theorem mem_real_iff {b c : Bool} {l : List Slot} {x : Slot} :
    (c, x) ∈ real b l ↔ c = b ∧ x ∈ l ∧ 0 < x := by
  simp only [real, mem_coe, List.mem_map, List.mem_filter, decide_eq_true_eq, Prod.mk.injEq]
  constructor
  · rintro ⟨y, ⟨hy, hpos⟩, rfl, rfl⟩
    exact ⟨rfl, hy, hpos⟩
  · rintro ⟨rfl, hx, hpos⟩
    exact ⟨x, ⟨hx, hpos⟩, rfl, rfl⟩

theorem sole_new (b : Bool) {x : ℕ} (hx : 1 ≤ x)
    (hsize : x ≤ if b then cfg.ckptSize else cfg.size) :
    Sole ((Pool.new cfg).heldWith cfg 0) (b, (x : Slot)) := by
  have hone : ∀ c n, x ≤ n → (real c (new n).freeSlots).count (c, (x : Slot)) = 1 := by
    intro c n hn
    refine Multiset.count_eq_one_of_mem ?_ (mem_real_iff.mpr ⟨rfl, ?_, Int.natCast_pos.mpr hx⟩)
    · refine coe_nodup.mpr (((nodup_range.map ?_).filter _).map (Prod.mk_right_injective c))
      intro i j hij
      simpa using hij
    · exact List.mem_map.mpr ⟨x - 1, List.mem_range.mpr (by omega),
        congrArg Int.ofNat (Nat.sub_add_cancel hx)⟩
  have hother : ∀ c n, c ≠ b → (real c (SlotAllocator.new n).freeSlots).count (b, (x : Slot)) = 0 :=
    fun c n hc => count_eq_zero.mpr fun hmem => hc (mem_real_iff.mp hmem).1.symm
  refine ⟨some .free, ?_, fun o ho hmem => ?_⟩
  · change (real false (new cfg.size).freeSlots +
      real true (new cfg.ckptSize).freeSlots).count _ = 1
    rw [count_add]
    cases b with
    | false => rw [hone false cfg.size hsize, hother true _ (by decide)]
    | true => rw [hone true cfg.ckptSize hsize, hother false _ (by decide)]
  · cases o with
    | none => cases hmem
    | some o =>
      cases o with
      | free => exact ho rfl
      | group | request r | node n => cases hmem

theorem sole_of_heldWith {x : Asset} (h : Sole (p.heldWith cfg 0) x) : Sole (p.held cfg) x := by
  obtain ⟨o, hone, hno⟩ := h
  cases o with
  | none => cases hone
  | some o => exact ⟨o, hone, fun o' ho' => hno (some o') fun heq => ho' (some.inj heq)⟩

def Config.buffered : Config :=
  { size := 5, ckptSize := 0, overlap := false, extraBuffer := true, lazy := false, int8 := false
    numRows := 3 }

end SparkInfer.Mamba
