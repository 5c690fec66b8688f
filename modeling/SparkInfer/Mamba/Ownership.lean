import SparkInfer.Lib.Ledger
import SparkInfer.Mamba.Pool
import Mathlib.Data.Multiset.Filter
import Mathlib.Tactic.Abel

/-!
# Who owns a Mamba slot

Every operation of the pool only moves slots between the allocator, the requests, the
tree nodes and the call in progress.
-/

namespace SparkInfer.Mamba

open Lib Lib.Ledger List Function

variable {a a' : SlotAllocator} {n : ℕ} {idx : TrackIdx}

/-- A slot of the active pool, or of the checkpoint pool. -/
abbrev Asset := Bool × Slot

/-- The slots among the entries of a list; -1 and the reserved slot 0 are none. -/
def real (ckpt : Bool) (l : List Slot) : Multiset Asset := ↑((l.filter (0 < ·)).map (Prod.mk ckpt))

variable (b : Bool)

@[simp] theorem real_nil : real b [] = 0 := rfl

@[simp] theorem real_append (l m : List Slot) : real b (l ++ m) = real b l + real b m := by
  simp [real]

theorem real_cons (x : Slot) (l : List Slot) : real b (x :: l) = real b [x] + real b l :=
  real_append b [x] l

@[simp] theorem real_replicate : real b (List.replicate n (-1)) = 0 := by
  simp [real]

@[simp] theorem real_neg_one : real b [-1] = 0 := rfl

theorem real_perm {l m : List Slot} (h : l ~ m) : real b l = real b m :=
  Quot.sound ((h.filter _).map _)

theorem real_filter_ne (l : List Slot) : real b (l.filter (· ≠ -1)) = real b l := by
  unfold real
  rw [filter_filter]
  congr 2
  refine filter_congr fun x _ => ?_
  by_cases hx : 0 < x
  · have hne : x ≠ -1 := fun heq => nomatch heq ▸ hx
    simp [hne]
  · simp [hx]

theorem real_set {l : List Slot} {i : ℕ} {x : Slot} (y : Slot) (hi : l[i]? = some x) :
    real b (l.set i y) + real b [x] = real b l + real b [y] := by
  induction l generalizing i with
  | nil => simp at hi
  | cons z l ih =>
    cases i with
    | zero =>
      cases hi
      rw [set_cons_zero, real_cons b y l, real_cons b x l]
      abel
    | succ i =>
      rw [set_cons_succ, real_cons b z (l.set i y), real_cons b z l, add_assoc, ih hi, add_assoc]

def ReqKv.slots (kv : ReqKv) : List Slot := kv.mambaPoolIdx.toList ++ kv.pingPongTrackBuffer.getD []

inductive Owner
  | free
  | group
  | request (r : ReqId)
  | node (n : NodeId)
deriving DecidableEq

namespace Pool

variable {cfg : Config} {p p' q : Pool} {r r' : ReqId} {hand hand' hand'' : Multiset Asset}
  {slot value : Slot} {b : Bool} {slots : List Slot}

def held (cfg : Config) (p : Pool) : Owner → Multiset Asset
  | .free => real false p.allocator.freeSlots + real true p.ckpt.freeSlots
  | .group => real false (p.allocator.allocIter.getD []) + real true (p.ckpt.allocIter.getD [])
  | .request r => real false (p.reqs r).slots
  | .node n => real cfg.int8 (p.values n).toList

/-- The places, with the call in progress as one more. -/
def heldWith (cfg : Config) (p : Pool) (hand : Multiset Asset) : Option Owner → Multiset Asset
  | none => hand
  | some o => p.held cfg o

def Flow (cfg : Config) (p : Pool) (hand : Multiset Asset) (p' : Pool) (hand' : Multiset Asset) : Prop :=
  Exchange (p.heldWith cfg hand) (p'.heldWith cfg hand')

theorem Flow.refl (cfg : Config) (p : Pool) (hand : Multiset Asset) : Flow cfg p hand p hand :=
  Exchange.refl _

theorem Flow.trans (h : Flow cfg p hand p' hand') (h' : Flow cfg p' hand' q hand'') :
    Flow cfg p hand q hand'' :=
  Exchange.trans h h'

theorem Flow.congr (h : Flow cfg p hand p' hand') (hq : q.held cfg = p'.held cfg) :
    Flow cfg p hand q hand' := by
  have heq : q.heldWith cfg hand' = p'.heldWith cfg hand' := by
    funext o
    cases o with
    | none => rfl
    | some o => exact congrFun hq o
  rwa [Flow, heq]

/-! ## Single writes -/

theorem reqs_setReq_self (kv : ReqKv) : (p.setReq r kv).reqs r = kv :=
  update_self _ _ _

theorem reqs_setReq_of_ne (kv : ReqKv) (h : r' ≠ r) : (p.setReq r kv).reqs r' = p.reqs r' :=
  update_of_ne h _ _

theorem apply_setReq {α : Type} (f : ReqKv → α) {kv : ReqKv} (h : f kv = f (p.reqs r)) (r' : ReqId) :
    f ((p.setReq r kv).reqs r') = f (p.reqs r') := by
  by_cases hr : r' = r
  · rw [hr, reqs_setReq_self, h]
  · rw [reqs_setReq_of_ne kv hr]

theorem held_congr (hallocator : p'.allocator = p.allocator) (hckpt : p'.ckpt = p.ckpt)
    (hvalues : p'.values = p.values) (hreqs : ∀ r, (p'.reqs r).slots = (p.reqs r).slots) :
    p'.held cfg = p.held cfg := by
  funext o
  cases o with
  | free | group => simp only [held, hallocator, hckpt]
  | request r => rw [held, held, hreqs]
  | node n => rw [held, held, hvalues]

theorem flow_setReq (kv : ReqKv) (h : hand' + real false kv.slots = hand + real false (p.reqs r).slots) :
    Flow cfg p hand (p.setReq r kv) hand' := by
  refine Exchange.two (a := none) (b := some (.request r)) (by simp) (fun o hnone hreq => ?_) ?_
  · cases o with
    | none => exact absurd rfl hnone
    | some o =>
      cases o with
      | request r' =>
        have hne : r' ≠ r := fun heq => hreq (by rw [heq])
        change real false (update p.reqs r kv r').slots = _
        rw [update_of_ne hne]
        rfl
      | _ => rfl
  · change hand' + real false (update p.reqs r kv r).slots = _
    rwa [update_self]

theorem flow_setValue (n : NodeId) (v : Option Slot)
    (h : hand' + real cfg.int8 v.toList = hand + real cfg.int8 (p.values n).toList) :
    Flow cfg p hand (p.setValue n v) hand' := by
  refine Exchange.two (a := none) (b := some (.node n)) (by simp) (fun o hnone hnode => ?_) ?_
  · cases o with
    | none => exact absurd rfl hnone
    | some o =>
      cases o with
      | node m =>
        have hne : m ≠ n := fun heq => hnode (by rw [heq])
        change real cfg.int8 (update p.values n v m).toList = _
        rw [update_of_ne hne]
        rfl
      | _ => rfl
  · change hand' + real cfg.int8 (update p.values n v n).toList = _
    rwa [update_self]

theorem flow_setSide (b : Bool) (a : SlotAllocator)
    (h : hand' + (real b a.freeSlots + real b (a.allocIter.getD [])) =
      hand + (real b (p.side b).freeSlots + real b ((p.side b).allocIter.getD []))) :
    Flow cfg p hand (p.setSide b a) hand' := by
  refine Exchange.three (a := none) (b := some .free) (c := some .group) (by simp) (by simp)
    (by simp) (fun o hnone hfree hgroup => ?_) ?_
  · cases o with
    | none => exact absurd rfl hnone
    | some o =>
      cases o with
      | free => exact absurd rfl hfree
      | group => exact absurd rfl hgroup
      | _ => cases b <;> rfl
  -- the other side keeps its free and its grouped slots
  have hother : ∀ free group, hand' + (real b a.freeSlots + free +
      (real b (a.allocIter.getD []) + group)) = hand + (real b (p.side b).freeSlots + free +
        (real b ((p.side b).allocIter.getD []) + group)) := by
    intro free group
    rw [add_add_add_comm, ← add_assoc, h, add_assoc, add_add_add_comm]
  cases b with
  | false => exact hother _ _
  | true =>
    have hmain := hother (real false p.allocator.freeSlots) (real false (p.allocator.allocIter.getD []))
    simp only [add_comm _ (real false _)] at hmain
    exact hmain

theorem flow_freeSlots (b : Bool) (slots : List Slot) (hand : Multiset Asset) :
    Flow cfg p (hand + real b slots) (p.freeSlots b slots) hand := by
  refine flow_setSide b _ ?_
  rw [SlotAllocator.free, real_append]
  abel

theorem doAlloc_perm (h : a.doAlloc n = some (slots, a')) : slots.length = n ∧
    slots ++ (a'.freeSlots ++ a'.allocIter.getD []) ~ a.freeSlots ++ a.allocIter.getD [] := by
  unfold SlotAllocator.doAlloc at h
  split at h
  · cases h
  cases h
  refine ⟨by rw [length_take]; omega, ?_⟩
  rw [← append_assoc, take_append_drop]

theorem alloc_perm (h : a.alloc n = some (slots, a')) : slots.length = n ∧
    slots ++ (a'.freeSlots ++ a'.allocIter.getD []) ~ a.freeSlots ++ a.allocIter.getD [] := by
  unfold SlotAllocator.alloc at h
  split at h
  · rename_i slot rest hiter
    split_ifs at h with hn
    · cases h
      rw [hiter]
      exact ⟨hn.symm, (@perm_middle _ slot a.freeSlots rest).symm⟩
    · exact doAlloc_perm h
  · exact doAlloc_perm h

theorem flow_alloc (h : (p.side b).alloc n = some (slots, a))
    (hand : Multiset Asset) : Flow cfg p hand (p.setSide b a) (hand + real b slots) := by
  refine flow_setSide b a ?_
  rw [add_assoc, ← real_append, ← real_append, ← real_append, real_perm b (alloc_perm h).2]

theorem flow_alloc1 (h : p.alloc1 b = some (slot, p')) (hand : Multiset Asset) :
    Flow cfg p hand p' (hand + real b [slot]) := by
  unfold alloc1 at h
  split at h
  · rename_i x a halloc
    cases h
    exact flow_alloc halloc hand
  · cases h

/-! ## Rows, requests and the mapping stay -/

/-- Writes to the allocators and the tree only. -/
structure SameReqs (p p' : Pool) : Prop where
  reqs : p'.reqs = p.reqs
  rows : p'.rows = p.rows
  mapping : p'.pingPongMapping = p.pingPongMapping

theorem SameReqs.refl (p : Pool) : SameReqs p p := ⟨rfl, rfl, rfl⟩

theorem SameReqs.trans (h : SameReqs p p') (h' : SameReqs p' q) : SameReqs p q :=
  ⟨h'.reqs.trans h.reqs, h'.rows.trans h.rows, h'.mapping.trans h.mapping⟩

theorem sameReqs_setSide : SameReqs p (p.setSide b a) := by
  cases b <;> exact ⟨rfl, rfl, rfl⟩

theorem sameReqs_freeSlots (p : Pool) (b : Bool) (slots : List Slot) :
    SameReqs p (p.freeSlots b slots) :=
  sameReqs_setSide

theorem sameReqs_alloc1 (h : p.alloc1 b = some (slot, p')) : SameReqs p p' := by
  unfold alloc1 at h
  split at h
  · cases h
    exact sameReqs_setSide
  · cases h

theorem sameReqs_evictComponent (n : NodeId) : SameReqs p (p.evictComponent cfg n) := by
  unfold evictComponent
  split
  · exact .refl p
  · have hset : SameReqs p (p.setValue n none) := ⟨rfl, rfl, rfl⟩
    exact hset.trans (sameReqs_freeSlots _ _ _)

theorem sameReqs_evict (cfg : Config) (p : Pool) (nodes : List NodeId) :
    SameReqs p (p.evict cfg nodes) := by
  induction nodes generalizing p with
  | nil => exact .refl p
  | cons n nodes ih => exact (sameReqs_evictComponent n).trans (ih _)

/-! ## The tree -/

theorem flow_evictComponent (n : NodeId) : Flow cfg p hand (p.evictComponent cfg n) hand := by
  unfold evictComponent
  split
  · exact .refl cfg p hand
  rename_i v hv
  have htake : Flow cfg p hand (p.setValue n none) (hand + real cfg.int8 [v]) := by
    refine flow_setValue n none ?_
    rw [hv]
    exact add_zero _
  exact htake.trans (flow_freeSlots cfg.int8 [v] hand)

theorem flow_evict (nodes : List NodeId) (hand : Multiset Asset) :
    Flow cfg p hand (p.evict cfg nodes) hand := by
  induction nodes generalizing p with
  | nil => exact .refl cfg p hand
  | cons n nodes ih => exact (flow_evictComponent n).trans ih

theorem flow_allocOrEvict {evicted : List NodeId} {msg : String}
    (h : p.allocOrEvict cfg b evicted msg = .ok (slot, p')) (hand : Multiset Asset) :
    SameReqs p p' ∧ Flow cfg p hand p' (hand + real b [slot]) := by
  unfold allocOrEvict at h
  split at h
  · rename_i r hr
    cases h
    exact ⟨sameReqs_alloc1 hr, flow_alloc1 hr hand⟩
  split at h
  · rename_i r hr
    cases h
    exact ⟨(sameReqs_evict cfg p evicted).trans (sameReqs_alloc1 hr),
      (flow_evict evicted hand).trans (flow_alloc1 hr hand)⟩
  · cases h

theorem insertValue_cases (v : Option Slot) (target : Option NodeId) (excess : List NodeId) :
    p.insertValue cfg v target excess = (false, p) ∨ ∃ n, p.values n = none ∧
      p.insertValue cfg v target excess = (true, (p.setValue n v).evict cfg excess) := by
  cases v with
  | none => exact .inl rfl
  | some v =>
    cases target with
    | none => exact .inl rfl
    | some n =>
      simp only [insertValue, commitInsertComponentData]
      cases hv : p.values n with
      | none => exact .inr ⟨n, hv, rfl⟩
      | some w => exact .inl rfl

theorem flow_insertValue (cfg : Config) (p : Pool) (v : Slot) (target : Option NodeId) (excess : List NodeId)
    (hand : Multiset Asset) : SameReqs p (p.insertValue cfg (some v) target excess).2 ∧
    Flow cfg p (hand + real cfg.int8 [v]) (p.insertValue cfg (some v) target excess).2
      (if (p.insertValue cfg (some v) target excess).1 then hand else hand + real cfg.int8 [v]) := by
  rcases insertValue_cases (some v) target excess with heq | ⟨n, hv, heq⟩ <;> rw [heq]
  · exact ⟨.refl p, .refl cfg p _⟩
  have hset : SameReqs p (p.setValue n (some v)) := ⟨rfl, rfl, rfl⟩
  refine ⟨hset.trans (sameReqs_evict cfg _ excess),
    Flow.trans (flow_setValue n (some v) ?_) (flow_evict excess hand)⟩
  rw [hv]
  exact (add_zero _).symm

/-! ## Ping-pong entries -/

theorem trackEntry_ok {idx : Option TrackIdx} (h : p.trackEntry r idx = .ok slot) :
    ∃ buf i, (p.reqs r).pingPongTrackBuffer = some buf ∧ idx = some i ∧ buf[i.val]? = some slot := by
  unfold trackEntry at h
  split at h
  · rename_i buf i hbuf
    split at h
    · rename_i x hx
      cases h
      exact ⟨buf, i, hbuf, rfl, hx⟩
    · cases h
  · cases h

theorem setMambaPingPongSlot_ok (h : p.setMambaPingPongSlot r idx value = .ok p') :
    ∃ buf row, (p.reqs r).pingPongTrackBuffer = some buf ∧ (p.reqs r).reqPoolIdx = some row ∧
      p' = { p with pingPongMapping := update p.pingPongMapping row (buf.set idx value) }.setReq
        r { p.reqs r with pingPongTrackBuffer := some (buf.set idx value) } := by
  unfold setMambaPingPongSlot at h
  split at h
  · cases h
  · cases h
  · rename_i buf row hbuf hrow
    split at h <;> cases h
    exact ⟨buf, row, hbuf, hrow, rfl⟩

theorem flow_setMambaPingPongSlot {buf : List Slot} {old : Slot}
    (h : p.setMambaPingPongSlot r idx value = .ok p')
    (hbuf : (p.reqs r).pingPongTrackBuffer = some buf) (hold : buf[idx.val]? = some old)
    (hand : Multiset Asset) :
    Flow cfg p (hand + real false [value]) p' (hand + real false [old]) := by
  obtain ⟨buf', row, hbuf', -, rfl⟩ := setMambaPingPongSlot_ok h
  obtain rfl : buf = buf' := Option.some.inj (hbuf.symm.trans hbuf')
  have hset := real_set false value hold
  suffices hreq : Flow cfg p (hand + real false [value])
      (p.setReq r { p.reqs r with pingPongTrackBuffer := some (buf.set idx value) })
      (hand + real false [old]) from hreq.congr rfl
  refine flow_setReq _ ?_
  rw [ReqKv.slots, ReqKv.slots, hbuf, real_append, real_append, Option.getD_some, Option.getD_some]
  calc hand + real false [old] + (real false (p.reqs r).mambaPoolIdx.toList + real false (buf.set idx value))
      = hand + real false (p.reqs r).mambaPoolIdx.toList +
          (real false (buf.set idx value) + real false [old]) := by abel
    _ = hand + real false (p.reqs r).mambaPoolIdx.toList + (real false buf + real false [value]) := by
          rw [hset]
    _ = _ := by abel

/-! ## Rows and the mapping of the ping-pong buffers -/

structure RowsOwned (p : Pool) : Prop where
  nodup : p.rows.Nodup
  inj : ∀ {r r' k}, (p.reqs r).reqPoolIdx = some k → (p.reqs r').reqPoolIdx = some k → r = r'
  not_free : ∀ {r k}, (p.reqs r).reqPoolIdx = some k → k ∉ p.rows

/-- The mapping has, for the row of a request, the buffer of the request. -/
def Mapped (cfg : Config) (p : Pool) (r : ReqId) : Prop :=
  ∀ k, (p.reqs r).reqPoolIdx = some k → ∃ buf, (p.reqs r).pingPongTrackBuffer = some buf ∧
    p.pingPongMapping k = buf ∧ buf.length = cfg.trackBufferSize

structure Wired (cfg : Config) (p : Pool) : Prop extends RowsOwned p where
  mapped : cfg.extraBuffer = true → ∀ r, p.Mapped cfg r
  bare : ∀ r, cfg.extraBuffer = false ∨ (p.reqs r).reqPoolIdx = none →
    (p.reqs r).pingPongTrackBuffer = none

theorem RowsOwned.of_eq (h : p.RowsOwned) (hfree : p'.rows = p.rows)
    (hrow : ∀ r, (p'.reqs r).reqPoolIdx = (p.reqs r).reqPoolIdx) : p'.RowsOwned := by
  refine ⟨hfree ▸ h.nodup, fun h₁ h₂ => ?_, fun h₁ => ?_⟩
  · rw [hrow] at h₁ h₂
    exact h.inj h₁ h₂
  · rw [hrow] at h₁
    rw [hfree]
    exact h.not_free h₁

section

variable (hw : p.Wired cfg)
include hw

theorem Wired.of_eq (hfree : p'.rows = p.rows) (hmap : p'.pingPongMapping = p.pingPongMapping)
    (hrow : ∀ r, (p'.reqs r).reqPoolIdx = (p.reqs r).reqPoolIdx)
    (hbuf : ∀ r, (p'.reqs r).pingPongTrackBuffer = (p.reqs r).pingPongTrackBuffer) : p'.Wired cfg := by
  refine ⟨hw.toRowsOwned.of_eq hfree hrow, fun hextra r => ?_, fun r => ?_⟩
  · rw [Mapped, hrow, hbuf, hmap]
    exact hw.mapped hextra r
  · rw [hrow, hbuf]
    exact hw.bare r

theorem Wired.congr (h : SameReqs p p') : p'.Wired cfg :=
  hw.of_eq h.rows h.mapping (fun r => by rw [h.reqs]) fun r => by rw [h.reqs]

theorem Wired.setReq {kv : ReqKv} (hrow : kv.reqPoolIdx = (p.reqs r).reqPoolIdx)
    (hbuf : kv.pingPongTrackBuffer = (p.reqs r).pingPongTrackBuffer) : (p.setReq r kv).Wired cfg :=
  hw.of_eq rfl rfl (apply_setReq ReqKv.reqPoolIdx hrow) (apply_setReq ReqKv.pingPongTrackBuffer hbuf)

theorem Wired.extraBuffer {buf : List Slot} (hbuf : (p.reqs r).pingPongTrackBuffer = some buf) :
    cfg.extraBuffer = true := by
  by_contra hno
  rw [hw.bare r (.inl (Bool.eq_false_iff.mpr hno))] at hbuf
  cases hbuf

theorem Wired.setMambaPingPongSlot (h : p.setMambaPingPongSlot r idx value = .ok p') :
    p'.Wired cfg := by
  obtain ⟨buf, row, hbuf, hrow, hp'⟩ := setMambaPingPongSlot_ok h
  have hextra := hw.extraBuffer hbuf
  have hrows : ∀ r', (p'.reqs r').reqPoolIdx = (p.reqs r').reqPoolIdx := by
    rw [hp']
    exact apply_setReq ReqKv.reqPoolIdx rfl
  have hother : ∀ r', r' ≠ r → p'.reqs r' = p.reqs r' := by
    intro r' hr
    rw [hp', reqs_setReq_of_ne _ hr]
  have hmap : p'.pingPongMapping = update p.pingPongMapping row (buf.set idx value) := by
    rw [hp']
    rfl
  refine ⟨hw.toRowsOwned.of_eq (by rw [hp']; rfl) hrows, fun _ r₁ k h₁ => ?_, fun r₁ h₁ => ?_⟩
  · rw [hrows] at h₁
    rw [hmap]
    by_cases hr : r₁ = r
    · subst hr
      obtain rfl : row = k := Option.some.inj (hrow.symm.trans h₁)
      obtain ⟨buf', hbuf', -, hlen⟩ := hw.mapped hextra r₁ row hrow
      obtain rfl : buf = buf' := Option.some.inj (hbuf.symm.trans hbuf')
      refine ⟨_, by rw [hp', reqs_setReq_self], update_self _ _ _, ?_⟩
      rw [length_set, hlen]
    · have hk : k ≠ row := by
        rintro rfl
        exact hr (hw.inj h₁ hrow)
      rw [hother r₁ hr, update_of_ne hk]
      exact hw.mapped hextra r₁ k h₁
  · rw [hextra, hrows] at h₁
    have hnone := h₁.resolve_left Bool.noConfusion
    have hr : r₁ ≠ r := by
      rintro rfl
      rw [hrow] at hnone
      cases hnone
    rw [hother r₁ hr]
    exact hw.bare r₁ (.inr hnone)

end

end Pool

end SparkInfer.Mamba
