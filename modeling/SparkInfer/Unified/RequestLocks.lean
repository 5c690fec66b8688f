import SparkInfer.Unified.DeviceLocks

/-!
# Locks of requests

A request keeps what it needs to give its lock back in four fields: the node, the
mark of its window, the skip ids and whether the window was released early.
Admission, `cache_unfinished_req`, `maybe_evict_swa` and `cache_finished_req` each
write some of them.  Admission drops the skip ids of its lock.
-/

namespace SparkInfer.Unified

open Lib Finset Function Core
open Core (Releases visited)

variable {req : Req} {c' : Core} {result : IncLockRefResult}
variable {v : LockWorld} {op : LockOp} {c : Core} {node : NodeId} {ok : ReqWorld → ReqOp → Prop}
variable {w : ReqWorld}

/-! ## The fields and the calls that use them -/

structure Req where
  lastNode : NodeId
  swaUuidForLock : Option Nat
  skipLockNodeIds : ComponentType → Finset NodeId
  swaPrefixLockReleased : Bool

/-- A request that waits, matched at `node`: the fields are as `Req.__init__` or
`reset_for_retract` left them. -/
def Req.waiting (node : NodeId) : Req where
  lastNode := node
  swaUuidForLock := none
  skipLockNodeIds := fun _ => ∅
  swaPrefixLockReleased := false

def Req.params (req : Req) : DecLockRefParams where
  swaUuid := fun
    | .device => req.swaUuidForLock
    | .host => none
  skipLockNodeIds := req.skipLockNodeIds

namespace Core

variable (cfg : CoreConfig)

/-- `PrefillAdder._req_inc_lock_ref`.  The allocator is a sliding-window one
(`is_hybrid_swa`) exactly when there is a `SWA` component, which asserts it. -/
def reqIncLockRef (c : Core) (req : Req) : Except LockError (Core × IncLockRefResult × Req) := do
  let (c, result) ← c.incLockRef cfg req.lastNode []
  let req := if .swa ∈ cfg.components then { req with swaUuidForLock := result.swaUuid .device } else req
  .ok (c, result, { req with skipLockNodeIds := fun _ => ∅ })

/-- `UnifiedRadixCache._dec_req_lock`. -/
def decReqLock (c : Core) (req : Req) (skipSwa : Bool) : Except LockError Core :=
  c.decLockRef cfg req.lastNode req.params skipSwa

/-- The request is past its window (`decode_batch_idx`, and the option is on): the
last branch of the decode part of `maybe_evict_swa`. -/
def releaseLeafLock (c : Core) (req : Req) : Except LockError (Core × Req) :=
  if req.swaPrefixLockReleased = false ∧ req.swaUuidForLock ≠ none then do
    let c ← c.decSwaLockOnly cfg req.lastNode req.params
    .ok (c, { req with swaPrefixLockReleased := true })
  else .ok (c, req)

/-- What `cache_unfinished_req` leaves out of the new lock
(`SGLANG_OPT_MAMBA_SKIP_DECODE_LOCK`). -/
def decodeSkips (skipDecodeLock : Bool) : List ComponentType :=
  if skipDecodeLock then [.mamba] else []

end Core

def Req.relocked (newLastNode : NodeId) (result : IncLockRefResult) : Req where
  lastNode := newLastNode
  swaUuidForLock := result.swaUuid .device
  skipLockNodeIds := result.skipLockNodeIds
  swaPrefixLockReleased := false

/-! ## Runs -/

/-- Requests beside the other holders of locks (the temporary lock of admission,
backups and load-backs). -/
structure ReqWorld extends LockWorld where
  req : Nat → Req
  /-- The lock that a running request took last. -/
  lockOf : Nat → Nat
  running : Finset Nat

namespace ReqWorld

def heldBy (w : ReqWorld) (r : Nat) : Lock := w.lock (w.lockOf r)

def locked (w : ReqWorld) (r : Nat) (c' : Core) (result : IncLockRefResult) (req : Req) : ReqWorld where
  toLockWorld := w.acquire .device c' result req.lastNode
  req := Function.update w.req r req
  lockOf := Function.update w.lockOf r w.next
  running := insert r w.running

def unlocked (w : ReqWorld) (r : Nat) (c' : Core) : ReqWorld :=
  { w with toLockWorld := w.release (w.lockOf r) c', running := w.running.erase r }

def windowless (cfg : CoreConfig) (w : ReqWorld) (r : Nat) (c' : Core) (req : Req) : ReqWorld :=
  { w with
    core := c'
    lock := Function.update w.lock (w.lockOf r) ((w.heldBy r).releaseWindow cfg)
    req := Function.update w.req r req }

end ReqWorld

inductive ReqOp
  | schedule (r : Nat) (node : NodeId)
  | cacheUnfinished (r : Nat) (newLastNode : NodeId) (skipDecodeLock : Bool)
  | releaseEarly (r : Nat)
  | cacheFinished (r : Nat)
  | tree (op : LockOp)

/-- The holder whose lock an operation gives back. -/
def LockOp.holder : LockOp → Option Nat
  | .dec q => some q
  | .decSwa q => some q
  | _ => none

/-- The inserts and matches around the calls are steps of the tree. -/
inductive ReqStep (cfg : CoreConfig) (w : ReqWorld) : ReqOp → ReqWorld → Prop
  | schedule {r : Nat} {node : NodeId} {c' : Core} {result : IncLockRefResult} {req : Req}
      (hr : r ∉ w.running)
      (h : w.core.reqIncLockRef cfg (.waiting node) = .ok (c', result, req)) :
      ReqStep cfg w (.schedule r node) (w.locked r c' result req)
  | cacheUnfinished {r : Nat} {newLastNode : NodeId} {skipDecodeLock : Bool} {c₁ c₂ : Core}
      {result : IncLockRefResult} (hr : r ∈ w.running)
      (hdec : w.core.decReqLock cfg (w.req r) false = .ok c₁)
      (hinc : c₁.incLockRef cfg newLastNode (decodeSkips skipDecodeLock) = .ok (c₂, result)) :
      ReqStep cfg w (.cacheUnfinished r newLastNode skipDecodeLock)
        ((w.unlocked r c₁).locked r c₂ result (.relocked newLastNode result))
  | releaseEarly {r : Nat} {c' : Core} {req : Req} (hr : r ∈ w.running)
      (hdue : (w.req r).swaPrefixLockReleased = false ∧ (w.req r).swaUuidForLock ≠ none)
      (h : w.core.releaseLeafLock cfg (w.req r) = .ok (c', req)) :
      ReqStep cfg w (.releaseEarly r) (w.windowless cfg r c' req)
  | cacheFinished {r : Nat} {c' : Core} (hr : r ∈ w.running)
      (h : w.core.decReqLock cfg (w.req r) (w.req r).swaPrefixLockReleased = .ok c') :
      ReqStep cfg w (.cacheFinished r) (w.unlocked r c')
  | tree {op : LockOp} {w' : LockWorld} (hother : ∀ r ∈ w.running, op.holder ≠ some (w.lockOf r))
      (h : LockStep cfg w.toLockWorld op w') :
      ReqStep cfg w (.tree op) { w with toLockWorld := w' }

/-- No node that the lock of `r` skipped, and that the request no longer knows it
skipped, has been locked since. -/
def Unclaimed (cfg : CoreConfig) (w : ReqWorld) (r : Nat) : Prop :=
  ∀ ct ∈ visited (w.req r).swaPrefixLockReleased cfg.components,
    ∀ n ∈ (w.heldBy r).params.skipLockNodeIds ct, n ∉ (w.req r).skipLockNodeIds ct →
      ct ≠ .full ∧ w.core.lockRef .device ct n = 0

/-- The steps of the tree are careful, and so is the early release; what admission
forgot is unclaimed at each release; a request whose window was released early is
not cached as unfinished. -/
def ReqCareful (cfg : CoreConfig) (w : ReqWorld) : ReqOp → Prop
  | .schedule _ _ => True
  | .cacheUnfinished r _ _ => (w.req r).swaPrefixLockReleased = false ∧ Unclaimed cfg w r
  | .releaseEarly r => Careful cfg w.toLockWorld (.decSwa (w.lockOf r)) ∧ Unclaimed cfg w r
  | .cacheFinished r => Unclaimed cfg w r
  | .tree op => Careful cfg w.toLockWorld op

/-- The worlds reached from an empty tree without requests by steps that meet `ok`. -/
inductive ReqReach (cfg : CoreConfig) (ok : ReqWorld → ReqOp → Prop) : ReqWorld → Prop
  | start (counter uuidCounter : Nat) (lock : Nat → Lock) (req : Nat → Req) (lockOf : Nat → Nat) :
      ReqReach cfg ok ⟨⟨fresh cfg counter uuidCounter, ∅, lock, 0⟩, req, lockOf, ∅⟩
  | step {w w' : ReqWorld} {op : ReqOp} (h : ReqReach cfg ok w) (hok : ok w op)
      (hstep : ReqStep cfg w op w') : ReqReach cfg ok w'

/-! ## Forgotten skip ids

A release that does not know a node was skipped passes over it all the same while
nothing is locked there; only the `FULL` release insists on a lock. -/

section Forget

variable {cfg : CoreConfig} {c₁ : Core} {d : Data} {l : Layer} {ct : ComponentType}
variable {n : NodeId} {skip known : Finset NodeId} {uuid : Option Nat}

theorem Core.beforeLastRelease_toData (h : c.beforeLastRelease l ct n = .ok c₁) :
    c₁.toData = c.toData := by
  unfold beforeLastRelease at h
  split at h
  · cases l with
    | host =>
      dsimp only at h
      split at h
      · cases h
        exact attachLru_toData ..
      · cases h
        rfl
    | device =>
      dsimp only at h
      split at h
      · cases h
        rfl
      · cases h
  · cases h
    rfl

theorem Core.swaRelease_forget (hsub : known ⊆ skip) (ns : List NodeId)
    (hidle : ∀ n ∈ skip, n ∉ known → c.lockRef l .swa n = 0) :
    swaRelease l uuid known c ns = swaRelease l uuid skip c ns := by
  induction ns generalizing c with
  | nil => rfl
  | cons cur ns ih =>
    rw [swaRelease, swaRelease]
    by_cases hknown : cur ∈ known
    · rw [if_pos hknown, if_pos (hsub hknown)]
      exact ih hidle
    by_cases hskip : cur ∈ skip
    · rw [if_neg hknown, if_pos (hidle cur hskip hknown), if_pos hskip]
      exact ih hidle
    rw [if_neg hknown]
    split
    · exact ih hidle
    cases hbefore : c.beforeLastRelease l .swa cur with
    | error e => rfl
    | ok c₁ =>
      have hdata := beforeLastRelease_toData hbefore
      have hrest : ∀ n ∈ skip, n ∉ known →
          (c₁.setLockRef l .swa cur (c₁.lockRef l .swa cur - 1)).lockRef l .swa n = 0 := by
        intro n hn hforgot
        have hne : n ∉ [cur] := fun he => hskip (mem_singleton.mp he ▸ hn)
        rw [unlockOne_toData, Data.bump_lockRef_of_not_mem hne, hdata]
        exact hidle n hn hforgot
      dsimp only [ok_bind]
      rw [ih hrest]

theorem Core.mambaRelease_forget (hsub : known ⊆ skip)
    (hidle : ∀ n ∈ skip, n ∉ known → c.lockRef .device .mamba n = 0) :
    c.mambaRelease .device node known = c.mambaRelease .device node skip := by
  unfold mambaRelease
  by_cases hknown : node ∈ known
  · rw [if_pos hknown, if_pos (hsub hknown)]
  by_cases hskip : node ∈ skip
  · have hzero := hidle node hskip hknown
    simp only [hknown, hskip, hzero, lt_irrefl, if_true, if_false]
  · rw [if_neg hknown, if_neg hskip]

theorem Core.Releases.forget {p known : DecLockRefParams} {ns : List NodeId}
    (h : Releases cfg .device node p d ct ns)
    (huuid : ct = .swa → known.swaUuid .device = p.swaUuid .device)
    (hsub : known.skipLockNodeIds ct ⊆ p.skipLockNodeIds ct)
    (hidle : ∀ n ∈ p.skipLockNodeIds ct, n ∉ known.skipLockNodeIds ct →
      ct ≠ .full ∧ d.lockRef .device ct n = 0) : Releases cfg .device node known d ct ns := by
  intro c htree hvalue hmarks hlocks
  have hzero : ∀ n ∈ p.skipLockNodeIds ct, n ∉ known.skipLockNodeIds ct →
      c.lockRef .device ct n = 0 := fun n hn hforgot => (hlocks n).trans (hidle n hn hforgot).2
  have hsame : c.releaseComponentLock cfg .device ct node known =
      c.releaseComponentLock cfg .device ct node p := by
    cases ct with
    | full =>
      have hskips : known.skipLockNodeIds .full = p.skipLockNodeIds .full :=
        hsub.antisymm fun n hn => by
          by_contra hforgot
          exact (hidle n hn hforgot).1 rfl
      simp only [releaseComponentLock, hskips]
    | swa =>
      simp only [releaseComponentLock, huuid rfl]
      exact swaRelease_forget hsub _ hzero
    | mamba => exact mambaRelease_forget hsub hzero
  rw [hsame]
  exact h c htree hvalue hmarks hlocks

end Forget

/-! ## What the fields say about the lock -/

structure Mirrors (cfg : CoreConfig) (req : Req) (lk : Lock) : Prop where
  node : lk.node = req.lastNode
  uuid : .swa ∈ cfg.components → req.swaUuidForLock = lk.params.swaUuid .device
  skips : ∀ ct, req.skipLockNodeIds ct ⊆ lk.params.skipLockNodeIds ct
  released : lk.swaReleased = req.swaPrefixLockReleased

structure Carried (cfg : CoreConfig) (w : ReqWorld) : Prop where
  balanced : Balanced cfg w.toLockWorld
  held : ∀ r ∈ w.running, w.lockOf r ∈ w.held
  inj : ∀ r ∈ w.running, ∀ s ∈ w.running, w.lockOf r = w.lockOf s → r = s
  fields : ∀ r ∈ w.running, Mirrors cfg (w.req r) (w.heldBy r)

section Steps

variable {cfg : CoreConfig} {w' : ReqWorld} {r : Nat}

theorem Mirrors.congr {lk lk' : Lock} (h : Mirrors cfg req lk)
    (hnode : lk'.node = lk.node) (hparams : lk'.params = lk.params)
    (hreleased : lk'.swaReleased = lk.swaReleased) : Mirrors cfg req lk' where
  node := hnode.trans h.node
  uuid := by
    rw [hparams]
    exact h.uuid
  skips := by
    rw [hparams]
    exact h.skips
  released := hreleased.trans h.released

section

variable (h : Carried cfg w)
include h

theorem Carried.dec_ok (hr : r ∈ w.running) (hfree : Unclaimed cfg w r) :
    ∃ c', w.core.decReqLock cfg (w.req r) (w.req r).swaPrefixLockReleased = .ok c' ∧
      Given w.toLockWorld (w.heldBy r).cov c'.toData := by
  have hm := h.fields r hr
  have hq := h.held r hr
  have hok := h.balanced.dec_with hq (p := (w.req r).params) fun ct hct => by
    obtain ⟨ns, hrel, hcov⟩ := h.balanced.releases hq hct
    have hmem : ct ∈ cfg.components := (List.mem_filter.mp hct).1
    refine ⟨ns, hrel.forget (fun hswa => hm.uuid (hswa ▸ hmem)) (hm.skips ct) ?_, hcov⟩
    have hvisit : (w.lock (w.lockOf r)).swaReleased = (w.req r).swaPrefixLockReleased := hm.released
    rw [hvisit] at hct
    exact hfree ct hct
  have hnode : (w.lock (w.lockOf r)).node = (w.req r).lastNode := hm.node
  have hvisit : (w.lock (w.lockOf r)).swaReleased = (w.req r).swaPrefixLockReleased := hm.released
  rwa [hnode, hvisit] at hok

theorem Carried.releaseEarly_ok (hr : r ∈ w.running)
    (hdue : (w.req r).swaPrefixLockReleased = false ∧ (w.req r).swaUuidForLock ≠ none)
    (hcare : ReqCareful cfg w (.releaseEarly r)) : ∃ c', w.core.releaseLeafLock cfg (w.req r) =
        .ok (c', { w.req r with swaPrefixLockReleased := true }) ∧
      Given w.toLockWorld (windowCov cfg (w.heldBy r)) c'.toData := by
  have hm := h.fields r hr
  have hq := h.held r hr
  obtain ⟨hswa, hfree⟩ := hcare
  have hfirst := hm.released.trans hdue.1
  have hnode : (w.lock (w.lockOf r)).node = (w.req r).lastNode := hm.node
  obtain ⟨c', hok, hgiven⟩ := h.balanced.decSwa_with hq hfirst hswa (p := (w.req r).params) hm.uuid
    fun hmem hskip => by
      by_cases hknown : (w.lock (w.lockOf r)).node ∈ (w.req r).skipLockNodeIds .mamba
      · exact .inl hknown
      · have hvisit : ComponentType.mamba ∈ visited (w.req r).swaPrefixLockReleased cfg.components :=
          List.mem_filter.mpr ⟨hmem, by simp⟩
        exact .inr (hfree .mamba hvisit _ hskip hknown).2
  rw [hnode] at hok
  refine ⟨c', ?_, hgiven⟩
  rw [releaseLeafLock, if_pos hdue, hok]
  rfl

omit h in
theorem LockStep.other_lock {v' : LockWorld} {q : Nat} (h : LockStep cfg v op v') (hq : q ∈ v.held)
    (hnext : q < v.next) (hother : op.holder ≠ some q) :
    q ∈ v'.held ∧ (v'.lock q).node = (v.lock q).node ∧ (v'.lock q).params = (v.lock q).params ∧
      (v'.lock q).swaReleased = (v.lock q).swaReleased := by
  cases h with
  | inc hrun =>
    simp only [LockWorld.acquire, update_of_ne hnext.ne]
    exact ⟨mem_insert_of_mem hq, trivial, trivial, trivial⟩
  | dec hp hrun =>
    have hne : q ≠ _ := fun he => hother (congrArg some he.symm)
    exact ⟨mem_erase.mpr ⟨hne, hq⟩, rfl, rfl, rfl⟩
  | decSwa hp hfirst hrun =>
    have hne : q ≠ _ := fun he => hother (congrArg some he.symm)
    simp [update_of_ne hne, hq]
  | split hc hne hpos hlt hdata | add hp hlen hdata | remove hn hne hleaf hfree hdata
  | setValue hfree hdata | other hsame => exact ⟨hq, rfl, rfl, rfl⟩

theorem Carried.tree (hcare : Careful cfg w.toLockWorld op)
    (hother : ∀ r ∈ w.running, op.holder ≠ some (w.lockOf r))
    (hstep : LockStep cfg w.toLockWorld op v) : Carried cfg { w with toLockWorld := v } := by
  have hlock := fun r hr => hstep.other_lock (h.held r hr) (h.balanced.next _ (h.held r hr))
    (hother r hr)
  refine ⟨h.balanced.step hcare hstep, fun r hr => (hlock r hr).1, h.inj, fun r hr => ?_⟩
  obtain ⟨-, hnode, hparams, hreleased⟩ := hlock r hr
  exact (h.fields r hr).congr hnode hparams hreleased

theorem Carried.unlocked (hr : r ∈ w.running)
    (hg : Given w.toLockWorld (w.heldBy r).cov c'.toData) : Carried cfg (w.unlocked r c') where
  balanced := h.balanced.given (h.held r hr) hg
  held := fun s hs => by
    obtain ⟨hne, hs⟩ := mem_erase.mp hs
    exact mem_erase.mpr ⟨fun he => hne (h.inj s hs r hr he), h.held s hs⟩
  inj := fun s hs t ht => h.inj s (mem_of_mem_erase hs) t (mem_of_mem_erase ht)
  fields := fun s hs => h.fields s (mem_of_mem_erase hs)

theorem Carried.windowless (hr : r ∈ w.running)
    (hcare : Careful cfg w.toLockWorld (.decSwa (w.lockOf r)))
    (hg : Given w.toLockWorld (windowCov cfg (w.heldBy r)) c'.toData) :
    Carried cfg (w.windowless cfg r c' { w.req r with swaPrefixLockReleased := true }) where
  balanced := h.balanced.givenWindow (h.held r hr) hcare hg
  held := h.held
  inj := h.inj
  fields := fun s hs => by
    by_cases hsr : s = r
    · subst hsr
      have hm := h.fields s hs
      simp only [ReqWorld.windowless, ReqWorld.heldBy, update_self]
      exact { hm with released := rfl }
    · have hne : w.lockOf s ≠ w.lockOf r := fun he => hsr (h.inj s hs r hr he)
      simp only [ReqWorld.windowless, ReqWorld.heldBy, update_of_ne hsr, update_of_ne hne]
      exact h.fields s hs

end

theorem ReqWorld.locked_lockOf_self (w : ReqWorld) (r : Nat) (c' : Core)
    (result : IncLockRefResult) (req : Req) : (w.locked r c' result req).lockOf r = w.next :=
  update_self ..

theorem ReqWorld.locked_lockOf {s : Nat} (hr : r ∉ w.running) (hs : s ∈ w.running) :
    (w.locked r c' result req).lockOf s = w.lockOf s := by
  refine update_of_ne (fun he => hr ?_) ..
  rwa [← he]

theorem Carried.locked {skips : List ComponentType} (h : Carried cfg w) (hr : r ∉ w.running)
    (hskips : ∀ ct ∈ skips, ct = .mamba)
    (hrun : w.core.incLockRef cfg req.lastNode skips = .ok (c', result))
    (huuid : .swa ∈ cfg.components → req.swaUuidForLock = result.swaUuid .device)
    (hknown : ∀ ct, req.skipLockNodeIds ct ⊆ result.skipLockNodeIds ct)
    (hfresh : req.swaPrefixLockReleased = false) : Carried cfg (w.locked r c' result req) where
  balanced := h.balanced.inc hskips hrun
  held := fun s hs => by
    rcases mem_insert.mp hs with rfl | hs
    · rw [w.locked_lockOf_self]
      exact mem_insert_self ..
    · rw [ReqWorld.locked_lockOf hr hs]
      exact mem_insert_of_mem (h.held s hs)
  inj := by
    -- the new lock is not one of those held before
    have hnew : ∀ s ∈ w.running, w.lockOf s ≠ w.next :=
      fun s hs => (h.balanced.next _ (h.held s hs)).ne
    intro s hs t ht he
    rcases mem_insert.mp hs with hsr | hsr <;> rcases mem_insert.mp ht with htr | htr
    · rw [hsr, htr]
    · rw [hsr, w.locked_lockOf_self, ReqWorld.locked_lockOf hr htr] at he
      exact absurd he.symm (hnew t htr)
    · rw [htr, w.locked_lockOf_self, ReqWorld.locked_lockOf hr hsr] at he
      exact absurd he (hnew s hsr)
    · rw [ReqWorld.locked_lockOf hr hsr, ReqWorld.locked_lockOf hr htr] at he
      exact h.inj s hsr t htr he
  fields := fun s hs => by
    rcases mem_insert.mp hs with rfl | hs
    · simp only [ReqWorld.locked, ReqWorld.heldBy, LockWorld.acquire, update_self]
      exact ⟨rfl, huuid, hknown, hfresh.symm⟩
    have hsr : s ≠ r := fun he => hr (he ▸ hs)
    have hne : w.lockOf s ≠ w.next := (h.balanced.next _ (h.held s hs)).ne
    simp only [ReqWorld.locked, ReqWorld.heldBy, LockWorld.acquire, update_of_ne hsr,
      update_of_ne hne]
    exact h.fields s hs

theorem Core.reqIncLockRef_spec (h : c.reqIncLockRef cfg (.waiting node) = .ok (c', result, req)) :
    c.incLockRef cfg node [] = .ok (c', result) ∧ req.lastNode = node ∧
      (.swa ∈ cfg.components → req.swaUuidForLock = result.swaUuid .device) ∧
      (∀ ct, req.skipLockNodeIds ct = ∅) ∧ req.swaPrefixLockReleased = false := by
  obtain ⟨⟨c₁, result₁⟩, hinc, hrest⟩ := bind_ok h
  split_ifs at hrest with hno
  · cases hrest
    exact ⟨hinc, rfl, fun _ => rfl, fun _ => rfl, rfl⟩
  · cases hrest
    exact ⟨hinc, rfl, fun hswa => absurd hswa hno, fun _ => rfl, rfl⟩

theorem Carried.step {op : ReqOp} (h : Carried cfg w) (hcare : ReqCareful cfg w op)
    (hstep : ReqStep cfg w op w') : Carried cfg w' := by
  cases hstep with
  | schedule hr hrun =>
    obtain ⟨hinc, hnode, huuid, hskips, hfresh⟩ := reqIncLockRef_spec hrun
    rw [← hnode] at hinc
    refine h.locked hr (fun _ hct => absurd hct List.not_mem_nil) hinc huuid (fun ct => ?_) hfresh
    rw [hskips ct]
    exact empty_subset _
  | cacheUnfinished hr hdec hinc =>
    obtain ⟨hopen, hfree⟩ := hcare
    obtain ⟨c₁, hok, hg⟩ := h.dec_ok hr hfree
    rw [hopen, hdec] at hok
    cases hok
    refine (h.unlocked hr hg).locked (notMem_erase _ _) (fun ct hct => ?_) hinc
      (fun _ => rfl) (fun _ => Finset.Subset.refl _) rfl
    unfold decodeSkips at hct
    split at hct
    · exact mem_singleton.mp hct
    · exact absurd hct List.not_mem_nil
  | releaseEarly hr hdue hrun =>
    obtain ⟨c₁, hok, hg⟩ := h.releaseEarly_ok hr hdue hcare
    rw [hrun] at hok
    cases hok
    exact h.windowless hr hcare.1 hg
  | cacheFinished hr hrun =>
    obtain ⟨c₁, hok, hg⟩ := h.dec_ok hr hcare
    rw [hrun] at hok
    cases hok
    exact h.unlocked hr hg
  | tree hother hrun => exact h.tree hcare hother hrun

theorem ReqReach.carried (h : ReqReach cfg (ReqCareful cfg) w) : Carried cfg w := by
  induction h with
  | start counter uuidCounter lock req lockOf =>
    exact ⟨.start counter uuidCounter lock, fun r hr => absurd hr (notMem_empty r),
      fun r hr => absurd hr (notMem_empty r), fun r hr => absurd hr (notMem_empty r)⟩
  | step _ hcare hstep ih => exact ih.step hcare hstep

/-- In every run of careful steps each release for a request succeeds and takes back
what the request's last acquire put there and it has not given back yet. -/
theorem request_releases_own_lock (h : ReqReach cfg (ReqCareful cfg) w) (hr : r ∈ w.running) :
    (ReqCareful cfg w (.cacheFinished r) → ∃ c',
      w.core.decReqLock cfg (w.req r) (w.req r).swaPrefixLockReleased = .ok c' ∧
      ∀ ct n, c'.lockRef .device ct n =
        w.core.lockRef .device ct n - if n ∈ (w.heldBy r).cov ct then 1 else 0) ∧
    (∀ newLastNode skipDecodeLock,
      ReqCareful cfg w (.cacheUnfinished r newLastNode skipDecodeLock) → ∃ c',
        w.core.decReqLock cfg (w.req r) false = .ok c' ∧ ∀ ct n, c'.lockRef .device ct n =
          w.core.lockRef .device ct n - if n ∈ (w.heldBy r).cov ct then 1 else 0) ∧
    ((w.req r).swaPrefixLockReleased = false → (w.req r).swaUuidForLock ≠ none →
      ReqCareful cfg w (.releaseEarly r) → ∃ c' req',
        w.core.releaseLeafLock cfg (w.req r) = .ok (c', req') ∧ ∀ ct n, c'.lockRef .device ct n =
          w.core.lockRef .device ct n - if n ∈ windowCov cfg (w.heldBy r) ct then 1 else 0) := by
  have hcarried := h.carried
  refine ⟨fun hfree => ?_, fun _ _ hcare => ?_, fun hopen huuid hcare => ?_⟩
  · obtain ⟨c', hok, hg⟩ := hcarried.dec_ok hr hfree
    exact ⟨c', hok, hg.lockRef⟩
  · obtain ⟨hopen, hfree⟩ := hcare
    obtain ⟨c', hok, hg⟩ := hcarried.dec_ok hr hfree
    rw [hopen] at hok
    exact ⟨c', hok, hg.lockRef⟩
  · obtain ⟨c', hok, hg⟩ := hcarried.releaseEarly_ok hr ⟨hopen, huuid⟩ hcare
    exact ⟨c', _, hok, hg.lockRef⟩

end Steps

/-! ## Runs of two requests -/

namespace ReqWorld

variable (cfg : CoreConfig) (w : ReqWorld)

def schedule (r : Nat) (node : NodeId) : ReqWorld :=
  match w.core.reqIncLockRef cfg (.waiting node) with
  | .ok (c', result, req) => w.locked r c' result req
  | .error _ => w

def cacheUnfinished (r : Nat) (newLastNode : NodeId) : ReqWorld :=
  match w.core.decReqLock cfg (w.req r) false with
  | .ok c₁ =>
    match c₁.incLockRef cfg newLastNode (decodeSkips false) with
    | .ok (c₂, result) => (w.unlocked r c₁).locked r c₂ result (.relocked newLastNode result)
    | .error _ => w
  | .error _ => w

def releaseEarly (r : Nat) : ReqWorld :=
  match w.core.releaseLeafLock cfg (w.req r) with
  | .ok (c', req) => w.windowless cfg r c' req
  | .error _ => w

def add (parent : NodeId) (value : List Int) : ReqWorld :=
  { w with core := { w.core with
      toData := w.core.toData.addNode parent value.length .device value } }

def recover (ct : ComponentType) (n : NodeId) (value : List Int) : ReqWorld :=
  { w with core := { w.core with toData := w.core.toData.setValue .device ct n (some value) } }

def empty (cfg : CoreConfig) : ReqWorld :=
  let noLock : Lock := ⟨0, IncLockRefResult.empty.toDecLockRefParams, fun _ => ∅, false⟩
  ⟨⟨fresh cfg 0 0, ∅, fun _ => noLock, 0⟩, fun _ => .waiting 0, fun _ => 0, ∅⟩

end ReqWorld

section Reach

variable {cfg : CoreConfig}

variable (h : ReqReach cfg ok w)
include h

theorem ReqReach.schedule (r : Nat) (node : NodeId) (hok : ok w (.schedule r node))
    (hr : r ∉ w.running) (hrun : (w.core.reqIncLockRef cfg (.waiting node)).isOk = true) :
    ReqReach cfg ok (w.schedule cfg r node) := by
  obtain ⟨result, hstep⟩ := exists_ok hrun
  rw [ReqWorld.schedule, hstep]
  exact .step h hok (.schedule hr hstep)

theorem ReqReach.cacheUnfinished (r : Nat) (newLastNode : NodeId)
    (hok : ok w (.cacheUnfinished r newLastNode false)) (hr : r ∈ w.running)
    (hrun : (w.core.decReqLock cfg (w.req r) false >>= fun c₁ =>
      c₁.incLockRef cfg newLastNode (decodeSkips false)).isOk = true) :
    ReqReach cfg ok (w.cacheUnfinished cfg r newLastNode) := by
  obtain ⟨result, hboth⟩ := exists_ok hrun
  obtain ⟨c₁, hdec, hinc⟩ := bind_ok hboth
  simp only [ReqWorld.cacheUnfinished, hdec, hinc]
  exact .step h hok (.cacheUnfinished hr hdec hinc)

theorem ReqReach.releaseEarly (r : Nat) (hok : ok w (.releaseEarly r)) (hr : r ∈ w.running)
    (hdue : (w.req r).swaPrefixLockReleased = false ∧ (w.req r).swaUuidForLock ≠ none)
    (hrun : (w.core.releaseLeafLock cfg (w.req r)).isOk = true) :
    ReqReach cfg ok (w.releaseEarly cfg r) := by
  obtain ⟨result, hstep⟩ := exists_ok hrun
  rw [ReqWorld.releaseEarly, hstep]
  exact .step h hok (.releaseEarly hr hdue hstep)

theorem ReqReach.add (parent : NodeId) (value : List Int)
    (hok : ok w (.tree (.add parent value.length .device value))) (hp : parent ∈ w.core.tree.arena)
    (hlen : 0 < value.length) : ReqReach cfg ok (w.add parent value) :=
  .step h hok (.tree (fun _ _ => by simp [LockOp.holder]) (.add hp hlen rfl))

theorem ReqReach.recover (ct : ComponentType) (n : NodeId) (value : List Int)
    (hok : ok w (.tree (.setValue ct n (some value)))) : ReqReach cfg ok (w.recover ct n value) :=
  .step h hok (.tree (fun _ _ => by simp [LockOp.holder])
    (.setValue (fun hv => absurd hv (Option.some_ne_none _)) rfl))

end Reach

def slidingConfig : CoreConfig where
  components := [.full, .swa]
  components_nodup := fullSwa_nodup
  slidingWindowSize := 3
  window_pos := by decide
  isWriteBack := false

/-- The node `2` below the node `1`, whose window value is gone; request `0` is
admitted at `2`. -/
def overTombstone : ReqWorld :=
  ((((ReqWorld.empty slidingConfig).add 0 [5, 6]).add 1 [7, 8]).recover .swa 2 [7, 8]).schedule
    slidingConfig 0 2

theorem overTombstone_reach (hschedule : ∀ w r n, ok w (.schedule r n))
    (hadd : ∀ w p len l v, ok w (.tree (.add p len l v)))
    (hset : ∀ w ct n v, ok w (.tree (.setValue ct n v))) :
    ReqReach slidingConfig ok overTombstone := by
  have h₀ : ReqReach slidingConfig ok (ReqWorld.empty slidingConfig) := .start 0 0 _ _ _
  have h₁ := h₀.add 0 [5, 6] (hadd ..) (by decide) (by decide)
  have h₂ := h₁.add 1 [7, 8] (hadd ..) (by decide) (by decide)
  have h₃ := h₂.recover .swa 2 [7, 8] (hset ..)
  exact h₃.schedule 0 2 (hschedule ..) (by decide) (by decide)

/-- The lock passed over the node `1`; while nobody else has locked it, the release
of the request does too. -/
theorem request_releases_own_lock_tombstone :
    ∃ w, ReqReach slidingConfig (ReqCareful slidingConfig) w ∧ 0 ∈ w.running ∧
      1 ∈ (w.heldBy 0).params.skipLockNodeIds .swa ∧ ∃ c',
        w.core.decReqLock slidingConfig (w.req 0) (w.req 0).swaPrefixLockReleased = .ok c' ∧
        c'.lockRef .device .swa 1 = 0 ∧ c'.lockRef .device .swa 2 = 0 := by
  have h : ReqReach slidingConfig (ReqCareful slidingConfig) overTombstone :=
    overTombstone_reach (fun _ _ _ => trivial) (fun _ _ _ _ _ => trivial) fun _ _ _ _ => trivial
  have hr : 0 ∈ overTombstone.running := by decide
  have hfree : Unclaimed slidingConfig overTombstone 0 := by
    unfold Unclaimed
    decide
  obtain ⟨c', hok, hlocks⟩ := (request_releases_own_lock h hr).1 hfree
  refine ⟨_, h, hr, by decide, c', hok, ?_, ?_⟩
  · rw [hlocks]
    decide
  · rw [hlocks]
    decide

/-- A request is cached at the new leaf `1`, where a second one is admitted; the
first one then gives its window back early. -/
def sharedLeaf : ReqWorld :=
  let admitted := (ReqWorld.empty hybridConfig).schedule hybridConfig 0 0
  let cached := ((admitted.add 0 [5, 6]).recover .swa 1 [5, 6]).recover .mamba 1 [3]
  ((cached.cacheUnfinished hybridConfig 0 1).schedule hybridConfig 1 1).releaseEarly hybridConfig 0

theorem sharedLeaf_reach : ReqReach hybridConfig (fun _ _ => True) sharedLeaf := by
  have h₀ : ReqReach hybridConfig (fun _ _ => True) (ReqWorld.empty hybridConfig) := .start 0 0 _ _ _
  have h₁ := h₀.schedule 0 0 trivial (by decide) (by decide)
  have h₂ := h₁.add 0 [5, 6] trivial (by decide) (by decide)
  have h₃ := (h₂.recover .swa 1 [5, 6] trivial).recover .mamba 1 [3] trivial
  have h₄ := h₃.cacheUnfinished 0 1 trivial (by decide) (by decide)
  have h₅ := h₄.schedule 1 1 trivial (by decide) (by decide)
  exact h₅.releaseEarly 0 trivial (by decide) (by decide) (by decide)

/-- Two requests hold locks and the release for the first one takes a lock of the
second one away: the window lock on a node that was skipped and has come back, since
admission dropped the skip ids; and the `MAMBA` lock, which the early release has
given back already. -/
theorem request_releases_other_lock :
    (∃ w c', ReqReach slidingConfig (fun _ _ => True) w ∧ w.running = {0, 1} ∧
      w.core.decReqLock slidingConfig (w.req 0) (w.req 0).swaPrefixLockReleased = .ok c' ∧
      1 ∉ (w.heldBy 0).cov .swa ∧ 1 ∈ (w.heldBy 1).cov .swa ∧
      w.core.lockRef .device .swa 1 = 1 ∧ c'.lockRef .device .swa 1 = 0) ∧
    (∃ w c', ReqReach hybridConfig (fun _ _ => True) w ∧ w.running = {0, 1} ∧
      w.core.decReqLock hybridConfig (w.req 0) (w.req 0).swaPrefixLockReleased = .ok c' ∧
      1 ∉ (w.heldBy 0).cov .mamba ∧ 1 ∈ (w.heldBy 1).cov .mamba ∧
      w.core.lockRef .device .mamba 1 = 1 ∧ c'.lockRef .device .mamba 1 = 0) := by
  constructor
  · have h₀ : ReqReach slidingConfig (fun _ _ => True) overTombstone :=
      overTombstone_reach (fun _ _ _ => trivial) (fun _ _ _ _ _ => trivial) fun _ _ _ _ => trivial
    have h₁ := h₀.recover .swa 1 [5, 6] trivial
    have h₂ := h₁.schedule 1 2 trivial (by decide) (by decide)
    exact ⟨_, _, h₂, by decide, rfl, by decide, by decide, by decide, by decide⟩
  · exact ⟨_, _, sharedLeaf_reach, by decide, rfl, by decide, by decide, by decide, by decide⟩

end SparkInfer.Unified
