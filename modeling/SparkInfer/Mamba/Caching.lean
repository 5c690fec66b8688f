import SparkInfer.Mamba.Allocation

/-!
# Tracking, caching and release

What the operations on single requests do with the slots.  A finished request hands
one of its slots to the tree before it gives the rest back, so for a while two places
refer to it; the flow is that of the same calls for a request that refers to nothing.
-/

namespace SparkInfer.Mamba.Pool

open Lib List Function Option ReqKv Bool

variable {cfg : Config} {p p' q : Pool} {r : ReqId} {hand : Multiset Asset} {slot value : Slot}
variable {buf : List Slot} {choice : TreeChoice} {keep : Option TrackIdx} {k : TrackIdx}

/-! ## Tracking -/

/-- The rows stay wired, and slots only change hands. -/
def Kept (cfg : Config) (p p' : Pool) : Prop := p'.Wired cfg ∧ ∀ hand, Flow cfg p hand p' hand

theorem Kept.setReq (h : Kept cfg p p') {kv : ReqKv} (hrow : kv.reqPoolIdx = (p'.reqs r).reqPoolIdx)
    (hbuf : kv.pingPongTrackBuffer = (p'.reqs r).pingPongTrackBuffer)
    (hslots : kv.slots = (p'.reqs r).slots) : Kept cfg p (p'.setReq r kv) :=
  ⟨h.1.setReq hrow hbuf, fun hand => (h.2 hand).trans (flow_setReq _ (by rw [hslots]))⟩

/-- A request gives up some of its slots. -/
theorem flow_freeOwn {slots : List Slot} (kv : ReqKv)
    (h : real false kv.slots + real false slots = real false (p.reqs r).slots) (hand : Multiset Asset) :
    Flow cfg p hand ((p.freeSlots false slots).setReq r kv) hand := by
  have htake : Flow cfg p hand (p.setReq r kv) (hand + real false slots) := by
    refine flow_setReq kv ?_
    rw [← h, add_assoc, add_comm (real false slots)]
  exact (htake.trans (flow_freeSlots false slots hand)).congr rfl

theorem flow_freeEntry {i : TrackIdx} {old : Slot}
    (h : (p.freeSlots false [old]).setMambaPingPongSlot r i (-1) = .ok p')
    (hbuf : (p.reqs r).pingPongTrackBuffer = some buf) (hold : buf[i.val]? = some old)
    (hand : Multiset Asset) : Flow cfg p hand p' hand := by
  obtain ⟨buf', row, hbuf', -, rfl⟩ := setMambaPingPongSlot_ok h
  obtain rfl : buf = buf' := some.inj (hbuf.symm.trans hbuf')
  have hset := real_set false (-1) hold
  rw [real_neg_one, add_zero] at hset
  refine (flow_freeOwn { p.reqs r with pingPongTrackBuffer := some (buf.set i (-1)) } ?_ hand).congr
    rfl
  rw [slots, slots, hbuf, real_append, real_append, getD_some, getD_some, ← hset, add_assoc]

/-- A request without buffers gives up its running slot. -/
theorem flow_freeRunning (hbuf : (p.reqs r).pingPongTrackBuffer = none)
    (hrunning : (p.reqs r).mambaPoolIdx = some slot) :
    { p.reqs r with mambaPoolIdx := none }.slots = [] ∧ ∀ hand, Flow cfg p hand
      ((p.freeSlots false [slot]).setReq r { p.reqs r with mambaPoolIdx := none }) hand := by
  have hslots : { p.reqs r with mambaPoolIdx := none }.slots = [] := by
    rw [slots, hbuf]
    rfl
  refine ⟨hslots, flow_freeOwn _ ?_⟩
  rw [hslots, slots, hbuf, hrunning]
  exact zero_add _

section

variable (hw : p.Wired cfg)
include hw

theorem Wired.kept : Kept cfg p p := ⟨hw, .refl cfg p⟩

theorem Wired.lazyReserve {allocFails swap : Bool} (h : p.lazyReserve r allocFails swap = .ok p') :
    Kept cfg p p' := by
  unfold Pool.lazyReserve at h
  split at h
  · cases h
  obtain ⟨entry, hentry, h⟩ := bind_ok h
  obtain ⟨buf, i, hbuf, hi, hat⟩ := trackEntry_ok hentry
  cases hi
  split at h
  · cases h
    exact hw.kept
  rename_i hfree
  split at h
  · cases h
    exact hw.kept
  rename_i newSlot p₁ halloc
  obtain ⟨p₂, hset, h⟩ := bind_ok h
  have hsame := sameReqs_alloc1 halloc
  obtain rfl : entry = -1 := by
    by_contra hne
    exact hfree (.inl hne)
  have hkept : Kept cfg p p₂ := by
    refine ⟨(hw.congr hsame).setMambaPingPongSlot hset, fun hand => ?_⟩
    have hput : Flow cfg p₁ (hand + real false [newSlot]) p₂ (hand + real false [-1]) :=
      flow_setMambaPingPongSlot hset (by rw [hsame.reqs]; exact hbuf) hat hand
    rw [real_neg_one, add_zero] at hput
    exact (flow_alloc1 halloc hand).trans hput
  cases h
  split
  · exact hkept.setReq rfl rfl rfl
  · exact hkept

theorem Wired.postDecode {trackIdx : TrackIdx}
    (h : p.mambaLazyPostDecodeAtBoundary r trackIdx = .ok p') :
    Kept cfg p p' := by
  obtain ⟨other, hother, h⟩ := bind_ok h
  obtain ⟨buf, i, hbuf, hi, hat⟩ := trackEntry_ok hother
  cases hi
  have hkept : Kept cfg p (p.setReq r
      { p.reqs r with lastTrackIdx := some trackIdx, nextTrackIdx := some trackIdx }) :=
    hw.kept.setReq rfl rfl rfl
  rw [reqs_setReq_self] at hbuf
  split at h
  · exact ⟨(hkept.1.congr (sameReqs_freeSlots _ false [other])).setMambaPingPongSlot h, fun hand =>
      (hkept.2 hand).trans (flow_freeEntry h (by rw [reqs_setReq_self]; exact hbuf) hat hand)⟩
  · cases h
    exact hkept

theorem Wired.specUpdate {plannedPos : TrackIdx} {trackSeqlen : ℕ}
    (h : p.mambaLazySpecUpdate r plannedPos trackSeqlen = .ok p') :
    Kept cfg p p' := by
  obtain ⟨p₁, hpromote, h⟩ := bind_ok h
  have hfirst : Kept cfg p p₁ := by
    unfold promoteTrackIdx at hpromote
    split at hpromote
    · cases hpromote
      exact hw.kept
    obtain ⟨keepVal, hkeep, hpromote⟩ := bind_ok hpromote
    obtain ⟨buf, i, hbuf, hi, hat⟩ := trackEntry_ok hkeep
    obtain ⟨p₂, hset, hpromote⟩ := bind_ok hpromote
    cases hpromote
    rw [hi] at hset
    have hkept : Kept cfg p p₂ :=
      ⟨(hw.congr (sameReqs_freeSlots p false [keepVal])).setMambaPingPongSlot hset,
        flow_freeEntry hset hbuf hat⟩
    exact hkept.setReq rfl rfl rfl
  cases h
  exact hfirst.setReq rfl rfl rfl

/-! ## Unfinished requests -/

theorem Wired.cowMamba {evicted : List NodeId} (h : p.cowMamba cfg r evicted = .ok p') :
    Kept cfg p p' := by
  unfold Pool.cowMamba at h
  split_ifs at h with hnone
  · cases h
    exact hw.kept
  obtain ⟨⟨dst, p₁⟩, halloc, h⟩ := bind_ok h
  cases h
  have hsame : SameReqs p p₁ := (flow_allocOrEvict halloc 0).1
  refine ⟨(hw.congr hsame).setReq rfl rfl, fun hand => ?_⟩
  refine (flow_allocOrEvict halloc hand).2.trans (flow_setReq _ ?_)
  have hrunning : (p₁.reqs r).mambaPoolIdx = none := by
    rw [hsame.reqs]
    exact not_isSome_iff_eq_none.mp hnone
  rw [slots, slots, hrunning, real_append, toList_some, toList_none, nil_append, add_assoc]

theorem Wired.donate {newSlot donated : Slot}
    (h : p.donateMambaPingPongSlot r newSlot = .ok (donated, p')) : p'.Wired cfg ∧
      ∀ hand, Flow cfg p (hand + real false [newSlot]) p' (hand + real false [donated]) := by
  obtain ⟨old, hold, h⟩ := bind_ok h
  obtain ⟨p₁, hset, h⟩ := bind_ok h
  cases h
  obtain ⟨buf, i, hbuf, hi, hat⟩ := trackEntry_ok hold
  rw [hi] at hset
  exact ⟨hw.setMambaPingPongSlot hset, flow_setMambaPingPongSlot hset hbuf hat⟩

theorem Wired.stateToCache (h : p.stateToCache cfg r choice = .ok (value, p')) :
    p'.Wired cfg ∧ ∀ hand, Flow cfg p hand p' (hand + real cfg.int8 [value]) := by
  unfold Pool.stateToCache at h
  split at h
  · obtain ⟨⟨newSlot, p₁⟩, hnew, h⟩ := bind_ok h
    obtain ⟨⟨donated, p₂⟩, hdonate, h⟩ := bind_ok h
    have hw₁ := hw.congr (flow_allocOrEvict hnew 0).1
    obtain ⟨hw₂, hflow₂⟩ := hw₁.donate hdonate
    have hflow : ∀ hand, Flow cfg p hand p₂ (hand + real false [donated]) :=
      fun hand => (flow_allocOrEvict hnew hand).2.trans (hflow₂ hand)
    dsimp only at h
    split_ifs at h with hint8
    · obtain ⟨⟨ckptSlot, p₃⟩, hckpt, h⟩ := bind_ok h
      cases h
      refine ⟨(hw₂.congr (flow_allocOrEvict hckpt 0).1).congr (sameReqs_freeSlots p₃ false [donated]),
        fun hand => ?_⟩
      -- the donated slot goes back once its state is in the checkpoint pool
      have hback : Flow cfg p₃ (hand + real false [donated] + real true [ckptSlot])
          (p₃.freeSlots false [donated]) (hand + real true [ckptSlot]) := by
        rw [add_right_comm]
        exact flow_freeSlots false [donated] _
      rw [hint8]
      exact ((hflow hand).trans (flow_allocOrEvict hckpt _).2).trans hback
    · cases h
      rw [eq_false_iff.mpr hint8]
      exact ⟨hw₂, hflow⟩
  · unfold copyRunning at h
    split_ifs at h with hint8
    · rw [hint8]
      exact ⟨hw.congr (flow_allocOrEvict h 0).1, fun hand => (flow_allocOrEvict h hand).2⟩
    · rw [eq_false_iff.mpr hint8]
      exact ⟨hw.congr (flow_allocOrEvict h 0).1, fun hand => (flow_allocOrEvict h hand).2⟩

omit hw in
theorem flow_freeMambaValue :
    Flow cfg p (hand + real cfg.int8 [value]) (p.freeMambaValue cfg value) hand :=
  flow_freeSlots cfg.int8 [value] hand

theorem Wired.cacheUnfinishedReq (h : p.cacheUnfinishedReq cfg r choice = .ok p') :
    Kept cfg p p' := by
  obtain ⟨⟨value, p₁⟩, hprepare, h⟩ := bind_ok h
  unfold prepareUnfinished at hprepare
  split at hprepare
  · cases hprepare
    cases h
    exact hw.kept.setReq rfl rfl rfl
  obtain ⟨⟨slot, p₂⟩, hstate, hprepare⟩ := bind_ok hprepare
  cases hprepare
  obtain ⟨hw₁, hflow⟩ := hw.stateToCache hstate
  have hinsert := flow_insertValue cfg p₁ slot (p.insertTarget cfg r choice) choice.excess
  have hw₂ := hw₁.congr (hinsert 0).1
  rcases hresult : p₁.insertValue cfg (some slot) (p.insertTarget cfg r choice) choice.excess with
    ⟨inserted, p₂⟩
  simp only [hresult] at h hinsert hw₂
  cases h
  cases inserted with
  | true =>
    have hkept : Kept cfg p p₂ := ⟨hw₂, fun hand => (hflow hand).trans (hinsert hand).2⟩
    exact hkept.setReq rfl rfl rfl
  | false =>
    have hkept : Kept cfg p (p₂.freeMambaValue cfg slot) := ⟨hw₂.congr (sameReqs_freeSlots _ _ _),
      fun hand => ((hflow hand).trans (hinsert hand).2).trans flow_freeMambaValue⟩
    exact hkept.setReq rfl rfl rfl

end

/-! ## Freeing the state of a request -/

theorem freeMambaCache_ok (h : p.freeMambaCache cfg r keep = .ok p') :
    ∃ running tracked, (p.reqs r).mambaPoolIdx = some running ∧
      (cfg.extraBuffer = false → tracked = []) ∧
      (cfg.extraBuffer = true → ∃ row buf, (p.reqs r).reqPoolIdx = some row ∧
        trackSlotsToFree cfg (p.pingPongMapping row) keep = .ok buf ∧
        real false tracked = real false buf) ∧
      p' = (p.freeSlots false (running :: tracked)).setReq r { p.reqs r with mambaPoolIdx := none } := by
  unfold freeMambaCache at h
  split at h
  · cases h
  rename_i running hrunning
  refine ⟨running, ?_⟩
  dsimp only at h
  split at h
  · rename_i hextra
    split at h
    · cases h
    rename_i row hrow
    obtain ⟨buf, hbuf, h⟩ := bind_ok h
    rw [reqs_setReq_self] at hrow
    refine ⟨if cfg.lazy then buf.filter (· ≠ -1) else buf, hrunning, fun hno => ?_, fun _ => ?_, ?_⟩
    · rw [hno] at hextra
      cases hextra
    · refine ⟨row, buf, hrow, hbuf, ?_⟩
      split
      · exact real_filter_ne false buf
      · rfl
    · cases h
      simp only [freeSlots, setSide, side, setReq, SlotAllocator.free, false_eq_true, if_false,
        append_assoc, singleton_append]
  · rename_i hextra
    cases h
    exact ⟨[], hrunning, fun _ => rfl, fun hyes => absurd hyes hextra, rfl⟩

theorem Wired.freeMambaCache (hw : p.Wired cfg)
    (h : p.freeMambaCache cfg r keep = .ok p') : p'.Wired cfg := by
  obtain ⟨running, tracked, -, -, -, rfl⟩ := freeMambaCache_ok h
  exact (hw.congr (sameReqs_freeSlots p false (running :: tracked))).setReq rfl rfl

theorem Wired.freeMambaCache_bare (hw : p.Wired cfg)
    (hextra : cfg.extraBuffer = false) (h : p.freeMambaCache cfg r keep = .ok p') :
    (p'.reqs r).slots = [] ∧ ∀ hand, Flow cfg p hand p' hand := by
  obtain ⟨running, tracked, hrunning, htracked, -, rfl⟩ := freeMambaCache_ok h
  rw [htracked hextra, reqs_setReq_self]
  exact flow_freeRunning (hw.bare r (.inl hextra)) hrunning

theorem flow_resetForRetract (r : ReqId) (hand : Multiset Asset) :
    Flow cfg p hand (p.resetForRetract r) (hand + real false (p.reqs r).slots) :=
  flow_setReq _ (add_zero _)

theorem freeMambaCache_reset {running : Slot} {tracked : List Slot} :
    ((p.freeSlots false (running :: tracked)).setReq r
      { p.reqs r with mambaPoolIdx := none }).resetForRetract r =
      (p.resetForRetract r).freeSlots false (running :: tracked) := by
  simp only [resetForRetract, freeSlots, setSide, side, setReq, false_eq_true, if_false,
    update_self, update_idem]

theorem Wired.freeMambaCache_all (hw : p.Wired cfg) (h : p.freeMambaCache cfg r none = .ok p') :
    Flow cfg (p.resetForRetract r) (hand + real false (p.reqs r).slots) (p'.resetForRetract r) hand := by
  obtain ⟨running, tracked, hrunning, hbare, htracked, rfl⟩ := freeMambaCache_ok h
  have hslots : real false (p.reqs r).slots = real false (running :: tracked) := by
    rw [slots, hrunning, real_append, real_cons false running tracked]
    congr 1
    cases hextra : cfg.extraBuffer with
    | false =>
      rw [hbare hextra, hw.bare r (.inl hextra)]
      rfl
    | true =>
      obtain ⟨row, buf, hrow, hfree, hreal⟩ := htracked hextra
      obtain ⟨_, hbuf, hmapped, -⟩ := hw.mapped hextra r row hrow
      cases hfree
      rw [hreal, hbuf, hmapped, getD_some]
  rw [hslots, freeMambaCache_reset]
  exact flow_freeSlots false _ hand

theorem trackSlotsToFree_keep {toFree : List Slot} {kept : Slot}
    (h : trackSlotsToFree cfg buf (some k) = .ok toFree) (hlen : buf.length = cfg.trackBufferSize)
    (hk : buf[k.val]? = some kept) : real false buf = real false toFree + real false [kept] := by
  unfold trackSlotsToFree at h
  dsimp only at h
  split at h
  · rename_i htwo
    rw [htwo] at hlen
    obtain ⟨x, y, rfl⟩ := length_eq_two.mp hlen
    cases h
    obtain rfl | rfl : k = 0 ∨ k = 1 := (by decide : ∀ i : Fin 2, i = 0 ∨ i = 1) k
    · cases hk
      exact (real_cons false kept [y]).trans (add_comm _ _)
    · cases hk
      exact real_cons false x [kept]
  · split at h
    · rename_i htwo hzero
      cases h
      have hone : buf.length = 1 := by
        rw [hlen, Config.trackBufferSize]
        rw [Config.trackBufferSize] at htwo
        split_ifs at htwo with hno
        · exact absurd rfl htwo
        · rw [if_neg hno]
      obtain ⟨x, rfl⟩ := length_eq_one_iff.mp hone
      rw [hzero] at hk
      cases hk
      exact (zero_add _).symm
    · cases h

theorem Wired.freeMambaCache_keep (hw : p.Wired cfg) {kept : Slot}
    (hbuf : (p.reqs r).pingPongTrackBuffer = some buf) (hk : buf[k.val]? = some kept)
    (h : p.freeMambaCache cfg r (some k) = .ok p') :
    ∃ rest, real false (p.reqs r).slots = rest + real false [kept] ∧
      ∀ hand, Flow cfg (p.resetForRetract r) (hand + rest) (p'.resetForRetract r) hand := by
  obtain ⟨running, tracked, hrunning, -, htracked, rfl⟩ := freeMambaCache_ok h
  have hextra := hw.extraBuffer hbuf
  obtain ⟨row, toFree, hrow, hfree, hreal⟩ := htracked hextra
  obtain ⟨_, hbuf', hmapped, hlen⟩ := hw.mapped hextra r row hrow
  obtain rfl := some.inj (hbuf.symm.trans hbuf')
  rw [hmapped] at hfree
  refine ⟨real false (running :: tracked), ?_, fun hand => ?_⟩
  · rw [slots, hrunning, hbuf, real_append, getD_some,
      trackSlotsToFree_keep hfree hlen hk, ← hreal, ← add_assoc]
    rw [real_cons false running tracked]
    rfl
  · rw [freeMambaCache_reset]
    exact flow_freeSlots false _ hand

/-! ## Finished requests -/

theorem evictComponent_setReq (kv : ReqKv) (n : NodeId) :
    (p.setReq r kv).evictComponent cfg n = (p.evictComponent cfg n).setReq r kv := by
  have hvalues : (p.setReq r kv).values n = p.values n := rfl
  unfold evictComponent
  rw [hvalues]
  cases p.values n with
  | none => rfl
  | some value =>
    simp only [freeMambaValue]
    cases cfg.int8 <;> rfl

theorem evict_setReq (kv : ReqKv) (nodes : List NodeId) :
    (p.setReq r kv).evict cfg nodes = (p.evict cfg nodes).setReq r kv := by
  unfold evict
  induction nodes generalizing p with
  | nil => rfl
  | cons n nodes ih => rw [foldl_cons, foldl_cons, evictComponent_setReq, ih]

theorem insertValue_setReq (kv : ReqKv) (v : Option Slot)
    (target : Option NodeId) (excess : List NodeId) :
    (p.setReq r kv).insertValue cfg v target excess =
      ((p.insertValue cfg v target excess).1, (p.insertValue cfg v target excess).2.setReq r kv) := by
  cases v with
  | none => rfl
  | some v =>
    cases target with
    | none => rfl
    | some n =>
      have hvalues : (p.setReq r kv).values n = p.values n := rfl
      simp only [insertValue, commitInsertComponentData, hvalues]
      cases p.values n with
      | none =>
        change (_, ((p.setValue n (some v)).setReq r kv).evict cfg excess) = _
        rw [evict_setReq]
      | some w => rfl

theorem insertValue_resetForRetract (v : Slot) (target : Option NodeId) (excess : List NodeId) :
    (p.resetForRetract r).insertValue cfg (some v) target excess =
      ((p.insertValue cfg (some v) target excess).1,
        (p.insertValue cfg (some v) target excess).2.resetForRetract r) := by
  have hreqs := (flow_insertValue cfg p v target excess 0).1.reqs
  rw [resetForRetract, insertValue_setReq, resetForRetract, hreqs]

theorem insertValue_refused {v : Option Slot} {target : Option NodeId} {excess : List NodeId}
    (h : p.insertValue cfg v target excess = (false, q)) : q = p := by
  rcases insertValue_cases v target excess with heq | ⟨n, -, heq⟩
  · exact congrArg Prod.snd (h.symm.trans heq)
  · cases h.symm.trans heq

section

variable (hw : p.Wired cfg)
include hw

/-- How `cache_finished_req` leaves a request: resetting it settles the accounts, and
without buffers, unless the tree took the slot itself, there is nothing left to reset. -/
structure Settled (cfg : Config) (p p' : Pool) (r : ReqId) (given : Prop) : Prop where
  wired : p'.Wired cfg
  bare : cfg.extraBuffer = false → ¬given → (p'.reqs r).slots = []
  flow : ∀ hand, Flow cfg p hand (p'.resetForRetract r) hand

theorem Wired.settled_freeMambaCache (given : Prop)
    (h : p.freeMambaCache cfg r none = .ok p') : Settled cfg p p' r given :=
  ⟨hw.freeMambaCache h, fun hextra _ => (hw.freeMambaCache_bare hextra h).1,
    fun hand => (flow_resetForRetract r hand).trans (hw.freeMambaCache_all h)⟩

theorem Wired.settled_int8 (hint8 : cfg.int8 = true)
    (h : p.cacheFinishedReq cfg r true choice = .ok p') : Settled cfg p p' r False := by
  obtain ⟨⟨value, p₁⟩, hprepare, h⟩ := bind_ok h
  obtain ⟨active, -, hckpt⟩ := bind_ok hprepare
  rw [if_pos hint8] at hckpt
  have hsame₁ := (flow_allocOrEvict hckpt 0).1
  have hinsert := flow_insertValue cfg p₁ value (p.insertTarget cfg r choice) choice.excess
  rcases hresult : p₁.insertValue cfg (some value) (p.insertTarget cfg r choice) choice.excess with
    ⟨inserted, p₂⟩
  simp only [hresult, hint8] at h hinsert
  unfold cleanupFinished at h
  rw [if_pos hint8] at h
  have hsettled : ∃ p₃, SameReqs p p₃ ∧ (∀ hand, Flow cfg p hand p₃ hand) ∧
      p₃.freeMambaCache cfg r none = .ok p' := by
    cases inserted with
    | true =>
      exact ⟨p₂, hsame₁.trans (hinsert 0).1,
        fun hand => (flow_allocOrEvict hckpt hand).2.trans (hinsert hand).2, h⟩
    | false =>
      refine ⟨p₂.freeMambaValue cfg value,
        (hsame₁.trans (hinsert 0).1).trans (sameReqs_freeSlots _ _ _), fun hand => ?_, h⟩
      have hfree : Flow cfg p₂ (hand + real cfg.int8 [value]) (p₂.freeMambaValue cfg value) hand :=
        flow_freeMambaValue
      rw [hint8] at hfree
      exact ((flow_allocOrEvict hckpt hand).2.trans (hinsert hand).2).trans hfree
  obtain ⟨p₃, hsame, hflow, hfree⟩ := hsettled
  have hfreed := (hw.congr hsame).settled_freeMambaCache False hfree
  exact { hfreed with flow := fun hand => (hflow hand).trans (hfreed.flow hand) }

theorem Wired.settled_active (hint8 : cfg.int8 = false)
    (h : p.cacheFinishedReq cfg r true choice = .ok p') : Settled cfg p p' r True := by
  have hno : ¬cfg.int8 = true := by
    rw [hint8]
    exact false_ne_true
  obtain ⟨⟨value, p₁⟩, hprepare, h⟩ := bind_ok h
  obtain ⟨active, hactive, hprepare⟩ := bind_ok hprepare
  rw [if_neg hno] at hprepare
  cases hprepare
  rcases hresult : p.insertValue cfg (some value) (p.insertTarget cfg r choice) choice.excess with
    ⟨inserted, p₂⟩
  simp only [hresult] at h
  unfold cleanupFinished at h
  rw [if_neg hno] at h
  cases inserted with
  | false =>
    simp only [insertValue_refused hresult, false_eq_true, if_false, ite_self] at h
    exact hw.settled_freeMambaCache True h
  | true =>
    have hsame := (flow_insertValue cfg p value (p.insertTarget cfg r choice) choice.excess 0).1
    rw [hresult] at hsame
    -- the insert as it runs for a request that refers to nothing
    have hinsert : ∀ hand rest, real false (p.reqs r).slots = rest + real false [value] →
        Flow cfg p hand (p₂.resetForRetract r) (hand + rest) := by
      intro hand rest hrest
      have hreset : Flow cfg p hand (p.resetForRetract r) (hand + rest + real cfg.int8 [value]) := by
        rw [hint8, add_assoc, ← hrest]
        exact flow_resetForRetract r hand
      have htaken := (flow_insertValue cfg (p.resetForRetract r) value (p.insertTarget cfg r choice)
        choice.excess (hand + rest)).2
      rw [insertValue_resetForRetract, hresult] at htaken
      exact hreset.trans htaken
    unfold activeValue at hactive
    cases hextra : cfg.extraBuffer with
    | true =>
      rw [if_pos hextra] at h hactive
      obtain ⟨buf, k, hbuf, hlast, hk⟩ := trackEntry_ok hactive
      rw [← hsame.reqs] at hbuf hlast
      rw [hlast] at h
      have hw₂ := hw.congr hsame
      obtain ⟨rest, hrest, hfreed⟩ := hw₂.freeMambaCache_keep hbuf hk h
      rw [hsame.reqs] at hrest
      exact ⟨hw₂.freeMambaCache h, fun _ hgiven => absurd trivial hgiven,
        fun hand => (hinsert hand rest hrest).trans (hfreed hand)⟩
    | false =>
      have hbare : ¬cfg.extraBuffer = true := by
        rw [hextra]
        exact false_ne_true
      rw [if_neg hbare] at h hactive
      cases h
      split at hactive
      · rename_i running hrunning
        cases hactive
        refine ⟨hw.congr hsame, fun _ hgiven => absurd trivial hgiven, fun hand => ?_⟩
        have hslots : real false (p.reqs r).slots = 0 + real false [value] := by
          rw [slots, hrunning, hw.bare r (.inl hextra)]
          rfl
        have h := hinsert hand 0 hslots
        rwa [add_zero] at h
      · cases hactive

theorem Wired.cacheFinishedReq {isInsert : Bool}
    (h : p.cacheFinishedReq cfg r isInsert choice = .ok p') :
    Settled cfg p p' r (isInsert = true ∧ cfg.int8 = false) := by
  cases isInsert with
  | true =>
    cases hint8 : cfg.int8 with
    | true =>
      have hsettled := hw.settled_int8 hint8 h
      exact { hsettled with bare := fun hextra _ => hsettled.bare hextra id }
    | false =>
      have hsettled := hw.settled_active hint8 h
      exact { hsettled with bare := fun _ hgiven => absurd ⟨rfl, rfl⟩ hgiven }
  | false =>
    refine hw.settled_freeMambaCache _ ?_
    change p.cleanupFinished cfg r false none = .ok p' at h
    simpa only [cleanupFinished, false_eq_true, if_false, ite_self] using h

/-! ## Rows of finished requests -/

theorem Wired.dropRow {kv : ReqKv} (hrow : kv.reqPoolIdx = none)
    (hbuf : kv.pingPongTrackBuffer = none) :
    ({ p with rows := p.rows ++ (p.reqs r).reqPoolIdx.toList }.setReq r kv).Wired cfg := by
  have hne : ∀ {r' k}, (({ p with rows := p.rows ++ (p.reqs r).reqPoolIdx.toList }.setReq r kv).reqs
      r').reqPoolIdx = some k → r' ≠ r ∧ (p.reqs r').reqPoolIdx = some k := by
    intro r' k hk
    by_cases hr : r' = r
    · rw [hr, reqs_setReq_self, hrow] at hk
      cases hk
    · rw [reqs_setReq_of_ne kv hr] at hk
      exact ⟨hr, hk⟩
  refine ⟨⟨?_, ?_, ?_⟩, ?_, ?_⟩
  · have hone : (p.reqs r).reqPoolIdx.toList.Nodup := by
      cases (p.reqs r).reqPoolIdx <;> simp
    refine nodup_append.mpr ⟨hw.nodup, hone, fun k hk k' hk' heq => ?_⟩
    subst heq
    exact hw.not_free (mem_toList.mp hk') hk
  · intro r₁ r₂ k h₁ h₂
    exact hw.inj (hne h₁).2 (hne h₂).2
  · intro r₁ k h₁ hk
    obtain ⟨hr, h₁⟩ := hne h₁
    rcases mem_append.mp hk with hfree | hmine
    · exact hw.not_free h₁ hfree
    · exact hr (hw.inj h₁ (mem_toList.mp hmine))
  · intro hextra r₁ k h₁
    obtain ⟨hr, h₁⟩ := hne h₁
    rw [reqs_setReq_of_ne kv hr]
    exact hw.mapped hextra r₁ k h₁
  · intro r₁ h₁
    by_cases hr : r₁ = r
    · rwa [hr, reqs_setReq_self]
    · rw [reqs_setReq_of_ne kv hr] at h₁ ⊢
      exact hw.bare r₁ h₁

end

variable (p : Pool)

theorem freeRow_eq :
    p.freeRow r = { p with rows := p.rows ++ (p.reqs r).reqPoolIdx.toList }.setReq r
      { p.reqs r with reqPoolIdx := none } := by
  unfold freeRow
  cases hrow : (p.reqs r).reqPoolIdx with
  | none =>
    have hkv : { p.reqs r with reqPoolIdx := none } = p.reqs r := by rw [← hrow]
    rw [hkv, toList_none, append_nil, setReq, update_eq_self]
  | some row => rfl

theorem held_setReq {kv kv' : ReqKv} (h : kv.slots = kv'.slots) :
    (p.setReq r kv).held cfg = (p.setReq r kv').held cfg := by
  refine held_congr rfl rfl rfl fun r' => ?_
  by_cases hr : r' = r
  · rw [hr, reqs_setReq_self, reqs_setReq_self, h]
  · rw [reqs_setReq_of_ne _ hr, reqs_setReq_of_ne _ hr]

theorem held_freeRow (r : ReqId) : (p.freeRow r).held cfg = p.held cfg := by
  rw [freeRow_eq]
  exact held_congr rfl rfl rfl (apply_setReq slots rfl)

theorem resetForRetract_freeRow : (p.freeRow r).resetForRetract r =
      ({ p with rows := p.rows ++ (p.reqs r).reqPoolIdx.toList }.setReq r .blank) := by
  rw [freeRow_eq]
  simp only [resetForRetract, setReq, update_self, update_idem]
  rfl

theorem held_resetForRetract_freeRow (r : ReqId) :
    ((p.freeRow r).resetForRetract r).held cfg = (p.resetForRetract r).held cfg := by
  rw [resetForRetract_freeRow]
  exact held_setReq p rfl

end SparkInfer.Mamba.Pool
