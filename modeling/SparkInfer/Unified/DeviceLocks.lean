import SparkInfer.Unified.LockWorld

/-!
# Balance of the device locks

A run takes and releases device locks in between splits, insertions, evictions,
recoveries and deletions.  The counts are those of the outstanding locks as long
as every step is careful: the skip ids of a lock are not kept up to date when a
node is split, and the early release of a window reads the counts instead of them.
-/

namespace SparkInfer.Unified

open Lib List Finset Function Data Core Lock LockWorld
open Core (WindowStop WindowFreed Released Releases Locked Acquired visited)

variable {node : NodeId} {skips : List ComponentType} {r : IncLockRefResult}
variable {p : DecLockRefParams} {cov : ComponentType → Finset NodeId} {c' : Core} {child : NodeId}
variable {splitLen : Nat} {ok : LockWorld → LockOp → Prop}

/-! ## Runs -/

inductive LockOp
  | inc (node : NodeId) (skipLockComponents : List ComponentType)
  | dec (q : Nat)
  | decSwa (q : Nat)
  | split (child : NodeId) (splitLen : Nat)
  | add (parent : NodeId) (keyLen : Nat) (l : Layer) (value : List Int)
  | remove (n : NodeId)
  | setValue (ct : ComponentType) (n : NodeId) (v : Option (List Int))
  | other

/-- The host layer and the indexes may differ. -/
structure SameDevice (d d' : Data) : Prop where
  tree : d'.tree = d.tree
  value : ∀ ct n, d'.value .device ct n = d.value .device ct n
  lockRef : ∀ ct n, d'.lockRef .device ct n = d.lockRef .device ct n
  uuid : ∀ n, d'.uuid .device n = d.uuid .device n
  uuidCounter : d.uuidCounter ≤ d'.uuidCounter

/-- The locks as the source takes and releases them, and what else happens to the
device layer: a value is only dropped where nothing is locked (the assertions of
`_should_cascade_evict_component`, `_is_device_leaf` and `get_lru_no_lock`), and so
is a node.  The indexes may change in any way. -/
inductive LockStep (cfg : CoreConfig) (w : LockWorld) : LockOp → LockWorld → Prop
  | inc {node : NodeId} {skips : List ComponentType} {c' : Core} {r : IncLockRefResult}
      (h : w.core.incLockRef cfg node skips = .ok (c', r)) :
      LockStep cfg w (.inc node skips) (w.acquire .device c' r node)
  | dec {q : Nat} {c' : Core} (hq : q ∈ w.held)
      (h : w.core.decLockRef cfg (w.lock q).node (w.lock q).params (w.lock q).swaReleased = .ok c') :
      LockStep cfg w (.dec q) (w.release q c')
  | decSwa {q : Nat} {c' : Core} (hq : q ∈ w.held) (hfirst : (w.lock q).swaReleased = false)
      (h : w.core.decSwaLockOnly cfg (w.lock q).node (w.lock q).params = .ok c') :
      LockStep cfg w (.decSwa q)
        { w with core := c', lock := update w.lock q ((w.lock q).releaseWindow cfg) }
  | split {child : NodeId} {splitLen : Nat} {c' : Core} (hc : child ∈ w.core.tree.arena)
      (hne : child ≠ w.core.tree.rootNode) (hpos : 0 < splitLen)
      (hlt : splitLen < w.core.tree.keyLen child)
      (h : c'.toData = w.core.toData.splitNode child splitLen) :
      LockStep cfg w (.split child splitLen)
        { w with
          core := c'
          lock := fun q => (w.lock q).split [.full, .swa] child w.core.tree.counter }
  | add {parent : NodeId} {keyLen : Nat} {l : Layer} {value : List Int} {c' : Core}
      (hp : parent ∈ w.core.tree.arena) (hlen : 0 < keyLen)
      (h : c'.toData = w.core.toData.addNode parent keyLen l value) :
      LockStep cfg w (.add parent keyLen l value) { w with core := c' }
  | remove {n : NodeId} {c' : Core} (hn : n ∈ w.core.tree.arena) (hne : n ≠ w.core.tree.rootNode)
      (hleaf : w.core.tree.children n = ∅) (hfree : ∀ ct, w.core.lockRef .device ct n = 0)
      (h : c'.toData = { w.core.toData with tree := w.core.tree.removeNode n }) :
      LockStep cfg w (.remove n) { w with core := c' }
  | setValue {ct : ComponentType} {n : NodeId} {v : Option (List Int)} {c' : Core}
      (hfree : v = none → w.core.lockRef .device ct n = 0)
      (h : c'.toData = w.core.toData.setValue .device ct n v) :
      LockStep cfg w (.setValue ct n v) { w with core := c' }
  | other {c' : Core} (h : SameDevice w.core.toData c'.toData) :
      LockStep cfg w .other { w with core := c' }

/-- Only `MAMBA` is left out of an acquire; no node that an outstanding lock
skipped is split; a window is released early only by a lock that took no `MAMBA`
lock and whose skipped nodes are still unlocked; the node of an outstanding lock
is not deleted. -/
def Careful (cfg : CoreConfig) (w : LockWorld) : LockOp → Prop
  | .inc _ skips => ∀ ct ∈ skips, ct = .mamba
  | .decSwa q => .swa ∈ cfg.components → (w.lock q).cov .mamba = ∅ ∧
      ∀ n ∈ (w.lock q).params.skipLockNodeIds .swa,
        w.core.value .device .swa n = none ∨ w.core.lockRef .device .swa n = 0
  | .split child _ => ∀ q ∈ w.held, child ∉ (w.lock q).params.skipLockNodeIds .full ∧
      ((w.lock q).swaReleased = false → child ∉ (w.lock q).params.skipLockNodeIds .swa)
  | .remove n => ∀ q ∈ w.held, n ≠ (w.lock q).node
  | _ => True

/-- The worlds reached from an empty tree by steps that meet `ok`. -/
inductive LockReach (cfg : CoreConfig) (ok : LockWorld → LockOp → Prop) : LockWorld → Prop
  | start (counter uuidCounter : Nat) (lock : Nat → Lock) :
      LockReach cfg ok ⟨fresh cfg counter uuidCounter, ∅, lock, 0⟩
  | step {w w' : LockWorld} {op : LockOp} (h : LockReach cfg ok w) (hok : ok w op)
      (hstep : LockStep cfg w op w') : LockReach cfg ok w'

/-! ## The invariant -/

structure Described (cfg : CoreConfig) (d : Data) (lk : Lock) : Prop where
  node_mem : lk.node ∈ d.tree.arena
  skip_lt : ∀ ct, ∀ n ∈ lk.params.skipLockNodeIds ct, n < d.tree.counter
  full : .full ∈ cfg.components → lk.cov .full =
    (unskipped (lk.params.skipLockNodeIds .full) (d.tree.climb lk.node)).toFinset
  swa : .swa ∈ cfg.components → lk.swaReleased = false → ∃ ns above, WindowOf d .device lk ns above
  released : lk.swaReleased = true → lk.cov .swa = ∅
  mamba : .mamba ∈ cfg.components → MambaOf d lk
  absent : ∀ ct, ct ∉ cfg.components → lk.cov ct = ∅

/-- The locks on a node, not counting the one that `reset` puts on the root. -/
def lockCount (cfg : CoreConfig) (d : Data) (ct : ComponentType) (n : NodeId) : Int :=
  d.lockRef .device ct n - if ct ∈ cfg.components ∧ n = d.tree.rootNode then 1 else 0

structure Balanced (cfg : CoreConfig) (w : LockWorld) : Prop where
  wf : w.core.tree.WF
  counts : ∀ ct, Counts (lockCount cfg w.core.toData ct) w.held fun q => (w.lock q).cov ct
  present : ∀ ct n, n ≠ w.core.tree.rootNode → 0 < w.core.lockRef .device ct n →
    w.core.value .device ct n ≠ none
  marks : Marks w.core.toData .device
  locks : ∀ q ∈ w.held, Described cfg w.core.toData (w.lock q)
  next : ∀ q ∈ w.held, q < w.next

variable {cfg : CoreConfig} {d d' : Data} {lk : Lock} {w : LockWorld} {q : Nat}
variable {ct : ComponentType} {n : NodeId}

theorem Described.cov_mem (hwf : d.tree.WF) (h : Described cfg d lk) (hn : n ∈ lk.cov ct) :
    n ∈ d.tree.arena ∧ n ≠ d.tree.rootNode := by
  have hct : ct ∈ cfg.components := by
    by_contra hct
    rw [h.absent ct hct] at hn
    exact notMem_empty n hn
  cases ct with
  | full =>
    rw [h.full hct, mem_toFinset, mem_unskipped] at hn
    exact hwf.mem_climb h.node_mem hn.1
  | swa =>
    cases hrel : lk.swaReleased with
    | true =>
      rw [h.released hrel] at hn
      exact absurd hn (notMem_empty n)
    | false =>
      obtain ⟨ns, above, hwin⟩ := h.swa hct hrel
      rw [hwin.cov, mem_toFinset, mem_unskipped] at hn
      refine hwf.mem_climb h.node_mem ?_
      rw [hwin.climb]
      exact mem_append_left _ hn.1
  | mamba =>
    have hcov := h.mamba hct
    rw [hcov] at hn
    split_ifs at hn with hroot
    · exact absurd hn (notMem_empty n)
    · rw [Finset.mem_singleton.mp hn]
      exact ⟨h.node_mem, fun he => hroot (.inl he)⟩

section

variable (h : Balanced cfg w)
include h

theorem Balanced.counter_fresh (q : Nat) (hq : q ∈ w.held)
    (ct : ComponentType) : w.core.tree.counter ∉ (w.lock q).cov ct :=
  fun hmem => h.wf.counter_not_mem ((h.locks q hq).cov_mem h.wf hmem).1

variable (hq : q ∈ w.held)
include hq

theorem Balanced.locked (hn : n ∈ (w.lock q).cov ct) : Locked w.core.toData .device ct n := by
  obtain ⟨-, hne⟩ := (h.locks q hq).cov_mem h.wf hn
  have hpos : 0 < lockCount cfg w.core.toData ct n := (h.counts ct).pos hq hn
  rw [lockCount, if_neg fun hx => hne hx.2, Int.sub_zero] at hpos
  exact ⟨hpos, fun _ => h.present ct n hne hpos⟩

/-! ## Releases -/

theorem Balanced.releases (hct : ct ∈ visited (w.lock q).swaReleased cfg.components) :
    ∃ ns, Releases cfg .device (w.lock q).node (w.lock q).params w.core.toData ct ns ∧
      ns.toFinset = (w.lock q).cov ct := by
  have hlk := h.locks q hq
  have hnd := h.wf.climb_nodup hlk.node_mem
  obtain ⟨hmem, hvisit⟩ := mem_filter.mp hct
  cases ct with
  | full =>
    have hcov := hlk.full hmem
    refine ⟨_, releases_full hnd fun n hn hs => h.locked hq ?_, hcov.symm⟩
    rw [hcov, mem_toFinset, mem_unskipped]
    exact ⟨hn, hs⟩
  | swa =>
    have hrel : (w.lock q).swaReleased = false := by simpa using hvisit
    obtain ⟨ns, above, hwin⟩ := hlk.swa hmem hrel
    rw [hwin.climb] at hnd
    refine ⟨_, releases_swa hwin.climb hnd.of_append_left hwin.stop
      fun n hn hs => h.locked hq ?_, hwin.cov.symm⟩
    rw [hwin.cov, mem_toFinset, mem_unskipped]
    exact ⟨hn, hs⟩
  | mamba =>
    have hcov := hlk.mamba hmem
    refine ⟨_, releases_mamba fun _ hr hs => h.locked hq ?_, ?_⟩
    · rw [hcov, if_neg (not_or.mpr ⟨hr, hs⟩)]
      exact Finset.mem_singleton_self _
    · rw [hcov]
      split_ifs <;> rfl

structure Given (w : LockWorld) (cov : ComponentType → Finset NodeId) (d' : Data) : Prop where
  tree : d'.tree = w.core.tree
  uuid : d'.uuid = w.core.uuid
  uuidCounter : d'.uuidCounter = w.core.uuidCounter
  lockRef : ∀ ct n, d'.lockRef .device ct n =
    w.core.lockRef .device ct n - if n ∈ cov ct then 1 else 0
  value : ∀ ct n, 0 < d'.lockRef .device ct n → d'.value .device ct n = w.core.value .device ct n

/-- A release that walks over what the lock `q` covers, whatever the parameters. -/
theorem Balanced.dec_with
    (hrel : ∀ ct ∈ visited (w.lock q).swaReleased cfg.components, ∃ ns, Releases cfg .device (w.lock q).node p w.core.toData ct ns ∧ ns.toFinset = (w.lock q).cov ct) :
    ∃ c', w.core.decLockRef cfg (w.lock q).node p (w.lock q).swaReleased = .ok c' ∧
      Given w (w.lock q).cov c'.toData := by
  have hlk := h.locks q hq
  choose! rel hrun hcov using hrel
  obtain ⟨c', hok, hreleased⟩ := decLockRef_spec hlk.node_mem hrun
  refine ⟨c', hok, hreleased.tree, hreleased.uuid, hreleased.uuidCounter, fun ct n => ?_,
    fun ct n _ => by rw [hreleased.value]⟩
  rw [hreleased.lockRef]
  by_cases hct : ct ∈ visited (w.lock q).swaReleased cfg.components
  · simp only [hct, true_and, ← hcov ct hct, mem_toFinset]
  · -- nothing is left to release of a component that is not visited
    have hnone : (w.lock q).cov ct = ∅ := by
      by_cases hmem : ct ∈ cfg.components
      · have hskip : (w.lock q).swaReleased = true ∧ ct = .swa := by
          by_contra hx
          exact hct (mem_filter.mpr ⟨hmem, by rw [decide_eq_false hx]; rfl⟩)
        rw [hskip.2]
        exact hlk.released hskip.1
      · exact hlk.absent ct hmem
    simp [hct, hnone]

theorem Balanced.dec_ok :
    ∃ c', w.core.decLockRef cfg (w.lock q).node (w.lock q).params (w.lock q).swaReleased = .ok c' ∧
      Given w (w.lock q).cov c'.toData :=
  h.dec_with hq fun _ hct => h.releases hq hct

def windowCov (cfg : CoreConfig) (lk : Lock) (ct : ComponentType) : Finset NodeId :=
  if .swa ∈ cfg.components ∧ ct ≠ .full then lk.cov ct else ∅

/-- The early release reads the mark and, for `MAMBA`, the skip ids of its parameters. -/
theorem Balanced.decSwa_with
    (hfirst : (w.lock q).swaReleased = false) (hcare : Careful cfg w (.decSwa q))
    (huuid : .swa ∈ cfg.components → p.swaUuid .device = (w.lock q).params.swaUuid .device)
    (hbelow : .mamba ∈ cfg.components → (w.lock q).node ∈ (w.lock q).params.skipLockNodeIds .mamba → (w.lock q).node ∈ p.skipLockNodeIds .mamba ∨ w.core.lockRef .device .mamba (w.lock q).node = 0) :
    ∃ c', w.core.decSwaLockOnly cfg (w.lock q).node p = .ok c' ∧
      Given w (windowCov cfg (w.lock q)) c'.toData := by
  have hlk := h.locks q hq
  rw [decSwaLockOnly, if_neg (not_not.mpr hlk.node_mem)]
  by_cases hswa : .swa ∈ cfg.components
  · rw [if_neg (not_not.mpr hswa)]
    obtain ⟨hmamba, hidle⟩ := hcare hswa
    obtain ⟨ns, above, hwin⟩ := hlk.swa hswa hfirst
    have hnd := h.wf.climb_nodup hlk.node_mem
    rw [hwin.climb] at hnd
    have hfreed := releaseWindowLock_spec hnd.of_append_left hwin.stop fun n hn =>
      ⟨fun hs => h.locked hq (by
        rw [hwin.cov, mem_toFinset, mem_unskipped]
        exact ⟨hn, hs⟩), hidle n⟩
    rw [← hwin.climb, ← huuid hswa] at hfreed
    refine ⟨_, releaseBelowSwa_idle fun hmem => ?_, hfreed.tree, hfreed.uuid,
      hfreed.uuidCounter, fun ct n => ?_, fun ct n hpos => ?_⟩
    · have hcov := hlk.mamba hmem
      rw [MambaOf, hmamba] at hcov
      have hskip : (w.lock q).node = w.core.tree.rootNode ∨
          (w.lock q).node ∈ (w.lock q).params.skipLockNodeIds .mamba := by
        by_contra hx
        rw [if_neg hx] at hcov
        exact notMem_empty _ (hcov ▸ Finset.mem_singleton_self _)
      rw [hfreed.tree, hfreed.lockRef]
      simp only [bump, reduceCtorEq, false_and, and_false, if_false, Int.add_zero]
      exact hskip.imp_right (hbelow hmem)
    · rw [hfreed.lockRef]
      cases ct with
      | full => simp [bump, windowCov]
      | mamba => simp [bump, windowCov, hmamba]
      | swa =>
        have hcov : windowCov cfg (w.lock q) .swa = (w.lock q).cov .swa :=
          if_pos ⟨hswa, by decide⟩
        rw [hcov, bump_lockRef_self, hwin.cov]
        simp only [mem_toFinset]
        split_ifs <;> omega
    · cases hfreed.value .device ct n with
      | inl hv => exact hv
      | inr hv =>
        rw [hv.2.1, hv.2.2.2] at hpos
        exact absurd hpos (lt_irrefl 0)
  · rw [if_pos hswa]
    refine ⟨w.core, rfl, rfl, rfl, rfl, fun ct n => ?_, fun ct n _ => rfl⟩
    have hcov : windowCov cfg (w.lock q) ct = ∅ := if_neg fun hx => hswa hx.1
    rw [hcov, if_neg (notMem_empty n), Int.sub_zero]

theorem Balanced.decSwa_ok
    (hfirst : (w.lock q).swaReleased = false) (hcare : Careful cfg w (.decSwa q)) :
    ∃ c', w.core.decSwaLockOnly cfg (w.lock q).node (w.lock q).params = .ok c' ∧
      Given w (windowCov cfg (w.lock q)) c'.toData :=
  h.decSwa_with hq hfirst hcare (fun _ => rfl) fun _ => .inl

end

/-! ## Steps -/

theorem Described.keep (h : Described cfg d lk) (hmarks : Marks d .device)
    (hmem : lk.node ∈ d'.tree.arena) (hroot : d'.tree.rootNode = d.tree.rootNode)
    (hcounter : d.tree.counter ≤ d'.tree.counter)
    (hclimb : d'.tree.climb lk.node = d.tree.climb lk.node)
    (huuid : ∀ n ∈ d.tree.climb lk.node, d'.uuid .device n = d.uuid .device n ∨
      (d.uuid .device n = none ∧ d'.uuid .device n = some (d.uuidCounter + 1))) :
    Described cfg d' lk where
  node_mem := hmem
  skip_lt := fun ct n hn => lt_of_lt_of_le (h.skip_lt ct n hn) hcounter
  full := by
    intro hct
    rw [hclimb]
    exact h.full hct
  swa := by
    intro hct hrel
    obtain ⟨ns, above, hwin⟩ := h.swa hct hrel
    exact ⟨ns, above, hwin.keep hmarks hclimb huuid⟩
  released := h.released
  mamba := by
    intro hct
    rw [MambaOf, hroot]
    exact h.mamba hct
  absent := h.absent

theorem Described.same (h : Described cfg d lk) (hmarks : Marks d .device)
    (htree : d'.tree = d.tree) (huuid : ∀ n, d'.uuid .device n = d.uuid .device n ∨
      (d.uuid .device n = none ∧ d'.uuid .device n = some (d.uuidCounter + 1))) :
    Described cfg d' lk :=
  h.keep hmarks (by rw [htree]; exact h.node_mem) (by rw [htree]) (by rw [htree])
    (by rw [htree]) fun n _ => huuid n

theorem Given.present (h : Balanced cfg w) (hg : Given w cov d') (ct : ComponentType) (n : NodeId)
    (hne : n ≠ w.core.tree.rootNode) (hpos : 0 < d'.lockRef .device ct n) :
    d'.value .device ct n ≠ none := by
  rw [hg.value ct n hpos]
  refine h.present ct n hne ?_
  have hle := hg.lockRef ct n
  split_ifs at hle <;> omega

theorem Given.lockCount (hg : Given w cov d') (ct : ComponentType) (n : NodeId) :
    lockCount cfg d' ct n = lockCount cfg w.core.toData ct n - if n ∈ cov ct then 1 else 0 := by
  rw [Unified.lockCount, Unified.lockCount, hg.tree, hg.lockRef]
  omega

/-- What is left to show of a release: the locks that stay have the counts. -/
theorem Balanced.rest (h : Balanced cfg w) (hg : Given w cov c'.toData) {held : Finset Nat}
    {lock : Nat → Lock} (hheld : held ⊆ w.held)
    (hcounts : ∀ ct, Counts (lockCount cfg c'.toData ct) held fun q => (lock q).cov ct)
    (hlocks : ∀ q ∈ held, Described cfg c'.toData (w.lock q) → Described cfg c'.toData (lock q)) :
    Balanced cfg ⟨c', held, lock, w.next⟩ where
  wf := hg.tree ▸ h.wf
  counts := hcounts
  present ct n hne := hg.present h ct n (hg.tree ▸ hne)
  marks := h.marks.congr (fun n => by rw [hg.uuid]) (by rw [hg.uuidCounter])
  locks q hq := hlocks q hq ((h.locks q (hheld hq)).same h.marks hg.tree
    fun n => .inl (by rw [hg.uuid]))
  next q hq := h.next q (hheld hq)

theorem Balanced.given (h : Balanced cfg w) (hq : q ∈ w.held)
    (hg : Given w (w.lock q).cov c'.toData) : Balanced cfg (w.release q c') :=
  h.rest hg (erase_subset _ _) (fun ct => (h.counts ct).erase hq (hg.lockCount ct)) fun _ _ => id

theorem Balanced.givenWindow (h : Balanced cfg w) (hq : q ∈ w.held)
    (hcare : Careful cfg w (.decSwa q)) (hg : Given w (windowCov cfg (w.lock q)) c'.toData) :
    Balanced cfg { w with
      core := c', lock := update w.lock q ((w.lock q).releaseWindow cfg) } := by
  have hother : ∀ p, p ≠ q → update w.lock q ((w.lock q).releaseWindow cfg) p = w.lock p :=
    fun p hp => update_of_ne hp ..
  refine h.rest hg (Finset.Subset.refl _) ?_ ?_
  · intro ct
    refine (h.counts ct).move hq (fun p _ hp => by simp only [hother p hp]) fun n => ?_
    rw [hg.lockCount]
    simp only [update_self, windowCov, releaseWindow]
    by_cases hct : .swa ∈ cfg.components ∧ ct ≠ .full
    · simp only [if_pos hct, if_neg (notMem_empty n)]
      omega
    · simp only [if_neg hct, if_neg (notMem_empty n)]
      omega
  · intro p hp hp'
    by_cases hpq : p = q
    · subst hpq
      simp only [update_self]
      refine ⟨hp'.node_mem, hp'.skip_lt, ?_, fun _ hrel => ?_, fun _ => ?_, fun hct => ?_, ?_⟩
      · intro hct
        simp only [releaseWindow, ne_eq, not_true, and_false]
        exact hp'.full hct
      · cases hrel
      · by_cases hswa : .swa ∈ cfg.components
        · simp [releaseWindow, hswa]
        · simp only [releaseWindow, hswa]
          exact hp'.absent .swa hswa
      · by_cases hswa : .swa ∈ cfg.components
        · have hcov := hp'.mamba hct
          rw [MambaOf, (hcare hswa).1] at hcov
          simp only [releaseWindow, hswa]
          exact hcov
        · simp only [releaseWindow, hswa]
          exact hp'.mamba hct
      · intro ct hct
        simp only [releaseWindow]
        split_ifs
        · rfl
        · exact hp'.absent ct hct
    · rwa [hother p hpq]

section

variable (hwf : d.tree.WF) (hnode : node ∈ d.tree.arena)
  (h : Acquired cfg .device node skips cfg.components d .empty d' r)
include hwf hnode h

/-- The path a new lock covers is what the skip ids leave of the climb. -/
theorem full_acquired (hfull : .full ∈ cfg.components ∧ .full ∉ skips) : raised .device d d' .full =
      (unskipped (r.skipLockNodeIds .full) (d'.tree.climb node)).toFinset := by
  rw [acquired_skip h hfull.1, newSkips, if_neg hfull.2, raised_eq hwf hnode h, if_pos hfull,
    h.tree, skipped]
  have hnd := hwf.climb_nodup hnode
  rw [← takeWhile_append_dropWhile (l := d.tree.climb node), nodup_append] at hnd
  ext n
  rw [mem_toFinset, mem_toFinset, mem_unskipped, mem_toFinset]
  constructor
  · intro hn
    exact ⟨(dropWhile_sublist _).subset hn, fun ht => hnd.2.2 n ht n hn rfl⟩
  rintro ⟨hn, ht⟩
  rw [← takeWhile_append_dropWhile (l := d.tree.climb node)] at hn
  exact (mem_append.mp hn).resolve_left ht

theorem Described.acquired (hmarks : Marks d' .device) (hskips : ∀ ct ∈ skips, ct = .mamba) :
    Described cfg d' ⟨node, r.toDecLockRefParams, raised .device d d', false⟩ where
  node_mem := by
    rwa [h.tree]
  skip_lt := by
    intro ct n hn
    rw [h.tree]
    exact acquired_skip_lt hwf hnode h hn
  full := fun hct =>
    full_acquired hwf hnode h ⟨hct, fun hmem => nomatch hskips _ hmem⟩
  swa := fun hct _ => windowOf_acquired hwf hnode h hmarks
    ⟨hct, fun hmem => nomatch hskips _ hmem⟩
  released := fun hrel => by cases hrel
  mamba := mambaOf_acquired hwf hnode h
  absent := by
    intro ct hct
    simp only [raised_eq hwf hnode h, hct, false_and, if_false]

end

theorem Balanced.inc (h : Balanced cfg w) (hcare : Careful cfg w (.inc node skips))
    (hrun : w.core.incLockRef cfg node skips = .ok (c', r)) :
    Balanced cfg (w.acquire .device c' r node) := by
  obtain ⟨hnode, hacq⟩ := incLockRef_spec h.wf hrun
  have hmarks := hacq.marks _ rfl
  generalize (if .swa ∈ cfg.components ∧ .swa ∉ skips then w.core.toData.windowEnd cfg .device node
    else none) = e at hmarks
  have hnext : w.next ∉ w.held := fun hmem => absurd (h.next _ hmem) (lt_irrefl _)
  have hother : ∀ p ∈ w.held, (w.acquire .device c' r node).lock p = w.lock p := by
    intro p hp
    refine update_of_ne (fun he => hnext ?_) ..
    rwa [← he]
  have hnew : (w.acquire .device c' r node).lock w.next =
      ⟨node, r.toDecLockRefParams, raised .device w.core.toData c'.toData, false⟩ :=
    update_self ..
  have hmarks' : Marks c'.toData .device :=
    (h.marks.marked e).congr (fun n => by rw [hmarks.1]) (by rw [hmarks.2])
  constructor
  · exact hacq.tree ▸ h.wf
  · intro ct
    have hold : Counts (lockCount cfg w.core.toData ct) w.held
        fun p => ((w.acquire .device c' r node).lock p).cov ct :=
      (h.counts ct).congr fun p hp => by rw [hother p hp]
    refine hold.insert hnext fun n => ?_
    simp only [hnew, raised_eq h.wf hnode hacq]
    change lockCount cfg c'.toData ct n = _
    rw [lockCount, lockCount, hacq.lockRef, hacq.tree]
    by_cases htaken : ct ∈ cfg.components ∧ ct ∉ skips
    · simp only [htaken, true_and, not_false_eq_true, if_true, mem_toFinset]
      omega
    · rw [if_neg htaken, if_neg (fun hx => htaken hx.2.1), if_neg (notMem_empty n)]
      omega
  · intro ct n hne hpos
    change 0 < c'.lockRef .device ct n at hpos
    change c'.value .device ct n ≠ none
    rw [hacq.lockRef] at hpos
    rw [hacq.value]
    split_ifs at hpos with hcov
    · exact hacq.present ct hcov.2.1.1 hcov.2.1.2 (fun _ => rfl) n hcov.2.2
    · refine h.present ct n ?_ (by omega)
      rwa [← hacq.tree]
  · exact hmarks'
  · intro p hp
    rcases mem_insert.mp hp with rfl | hp
    · rw [hnew]
      exact .acquired h.wf hnode hacq hmarks' hcare
    rw [hother p hp]
    refine (h.locks p hp).same h.marks hacq.tree fun n => ?_
    change c'.uuid .device n = _ ∨ (_ ∧ c'.uuid .device n = _)
    rw [hmarks.1]
    rcases marked_uuid w.core.toData .device e n with hn | ⟨hnone, -, hn, -⟩
    · exact .inl hn
    · exact .inr ⟨hnone, hn⟩
  · intro p hp
    rcases mem_insert.mp hp with rfl | hp
    · exact Nat.lt_succ_self _
    · exact Nat.lt_succ_of_lt (h.next p hp)

/-- A step that only adds the node `counter` starts that node with its own locks. -/
theorem lockCount_new (d' : Data) (hwf : d.tree.WF) (hroot : d'.tree.rootNode = d.tree.rootNode)
    (hold : ∀ n, n ≠ d.tree.counter → d'.lockRef .device ct n = d.lockRef .device ct n) :
    lockCount cfg d' ct = update (lockCount cfg d ct) d.tree.counter
      (d'.lockRef .device ct d.tree.counter) := by
  funext n
  rw [lockCount, hroot]
  by_cases hn : n = d.tree.counter
  · subst hn
    have hne := hwf.ne_counter hwf.root_mem
    rw [update_self, if_neg fun hx => hne hx.2.symm, Int.sub_zero]
  · rw [update_of_ne hn, hold n hn, lockCount]

/-- The mark of a node goes up to the part that ends the window. -/
theorem Marks.splitNode (h : Marks d .device) : Marks (d.splitNode child splitLen) .device := by
  -- every mark after the split was on one node before it
  have hfrom : ∀ {n v}, (d.splitNode child splitLen).uuid .device n = some v →
      ∃ x, d.uuid .device x = some v ∧ (n = d.tree.counter ∧ x = child ∨
        n ≠ d.tree.counter ∧ x ≠ child ∧ n = x) := by
    intro n v hn
    simp only [Data.splitNode] at hn
    split_ifs at hn with h₁ h₂
    · exact ⟨child, hn, .inl ⟨h₁, rfl⟩⟩
    · exact ⟨n, hn, .inr ⟨h₁, h₂, rfl⟩⟩
  constructor
  · intro n k v hn hk
    obtain ⟨x, hx, hnx⟩ := hfrom hn
    obtain ⟨y, hy, hky⟩ := hfrom hk
    have hxy := h.inj hx hy
    rcases hnx with ⟨rfl, rfl⟩ | ⟨-, hxc, rfl⟩ <;> rcases hky with ⟨rfl, rfl⟩ | ⟨-, hyc, rfl⟩
    · rfl
    · exact absurd hxy.symm hyc
    · exact absurd hxy hxc
    · exact hxy
  · intro n v hn
    obtain ⟨x, hx, -⟩ := hfrom hn
    exact h.le hx

theorem Described.split (h : Described cfg d lk) (hwf : d.tree.WF) (hc : child ∈ d.tree.arena)
    (hne : child ≠ d.tree.rootNode) (hpos : 0 < splitLen) (hlt : splitLen < d.tree.keyLen child)
    (hfull : child ∉ lk.params.skipLockNodeIds .full)
    (hswa : lk.swaReleased = false → child ∉ lk.params.skipLockNodeIds .swa) :
    Described cfg (d.splitNode child splitLen) (lk.split [.full, .swa] child d.tree.counter) := by
  have hnew : ∀ ct, d.tree.counter ∉ lk.params.skipLockNodeIds ct :=
    fun ct hmem => absurd (h.skip_lt ct _ hmem) (lt_irrefl _)
  have hclimb := hwf.climb_splitNode hc hne hpos hlt h.node_mem
  have hnd := hwf.climb_nodup h.node_mem
  have hfresh : d.tree.counter ∉ d.tree.climb lk.node :=
    fun hmem => hwf.counter_not_mem (hwf.mem_climb h.node_mem hmem).1
  -- both coverages are those of a list with `child` replaced by its two parts
  have hlist : ∀ {ct : ComponentType} {ns : List NodeId}, ct ∈ [ComponentType.full, .swa] →
      child ∉ lk.params.skipLockNodeIds ct →
      lk.cov ct = (unskipped (lk.params.skipLockNodeIds ct) ns).toFinset →
      (lk.split [.full, .swa] child d.tree.counter).cov ct =
        (unskipped (lk.params.skipLockNodeIds ct)
          (Tree.splitClimb child d.tree.counter ns)).toFinset := by
    intro ct ns hct hskip hcov
    have hchild : child ∈ lk.cov ct ↔ child ∈ ns := by
      rw [hcov, mem_toFinset, mem_unskipped]
      exact and_iff_left hskip
    ext n
    simp only [Lock.split, hct, true_and, hchild]
    rw [mem_toFinset, mem_unskipped, Tree.mem_splitClimb]
    split_ifs with hmem
    · rw [mem_insert, hcov, mem_toFinset, mem_unskipped]
      grind
    · rw [hcov, mem_toFinset, mem_unskipped]
      simp [hmem]
  constructor
  · exact mem_insert_of_mem h.node_mem
  · exact fun ct n hn => Nat.lt_succ_of_lt (h.skip_lt ct n hn)
  · intro hct
    have hcov := hlist (by decide) hfull (h.full hct)
    rwa [← hclimb] at hcov
  · intro hct hrel
    obtain ⟨ns, above, hwin⟩ := h.swa hct hrel
    rw [hwin.climb] at hclimb hnd hfresh
    rw [Tree.splitClimb_append] at hclimb
    refine ⟨_, _, hclimb, ?_, hlist (by decide) (hswa hrel) hwin.cov⟩
    refine hwin.stop.split hnd.of_append_left (hswa hrel) (hnew .swa)
      (fun hmem => hfresh (mem_append_left _ hmem)) ?_ ?_ fun n hn hnc => ?_
    · simp [splitNode]
    · simp [splitNode, hwf.ne_counter hc]
    · simp [splitNode, hn, hnc]
  · intro hrel
    simp [Lock.split, h.released hrel]
  · intro hct
    have hcov := h.mamba hct
    exact hcov
  · intro ct hct
    simp [Lock.split, h.absent ct hct]

/-- The new node has the count of `child`, except for `MAMBA`. -/
theorem lockCount_splitNode (hwf : d.tree.WF) (hne : child ≠ d.tree.rootNode) (ct : ComponentType) :
    lockCount cfg (d.splitNode child splitLen) ct = update (lockCount cfg d ct) d.tree.counter
        (if ct = .mamba then 0 else lockCount cfg d ct child) := by
  rw [lockCount_new (d.splitNode child splitLen) hwf rfl fun n hn => if_neg hn]
  cases ct <;> simp [lockCount, splitNode, hne]

theorem present_splitNode
    (h : ∀ ct n, n ≠ d.tree.rootNode → 0 < d.lockRef .device ct n → d.value .device ct n ≠ none)
    (hne : child ≠ d.tree.rootNode) (ct : ComponentType) (n : NodeId) (hn : n ≠ d.tree.rootNode)
    (hpos : 0 < (d.splitNode child splitLen).lockRef .device ct n) :
    (d.splitNode child splitLen).value .device ct n ≠ none := by
  by_cases hnm : n = d.tree.counter
  · cases ct with
    | full | swa =>
      simp only [splitNode, if_pos hnm] at hpos ⊢
      simpa using h _ child hne hpos
    | mamba => simp [splitNode, hnm] at hpos
  have hold : 0 < d.lockRef .device ct n := by
    simpa only [splitNode, if_neg hnm] using hpos
  cases ct with
  | full | swa =>
    by_cases hnc : n = child
    · simp only [splitNode, if_neg hnm]
      subst hnc
      simpa using h _ n hn hold
    · simp only [splitNode, if_neg hnm, if_neg hnc]
      exact h _ n hn hold
  | mamba =>
    simp only [splitNode, if_neg hnm]
    exact h _ n hn hold

theorem Balanced.split (h : Balanced cfg w) (hc : child ∈ w.core.tree.arena)
    (hne : child ≠ w.core.tree.rootNode) (hpos : 0 < splitLen)
    (hlt : splitLen < w.core.tree.keyLen child)
    (hdata : c'.toData = w.core.toData.splitNode child splitLen)
    (hcare : Careful cfg w (.split child splitLen)) : Balanced cfg { w with
      core := c'
      lock := fun q => (w.lock q).split [.full, .swa] child w.core.tree.counter } := by
  have hfresh := h.counter_fresh
  cases c'
  cases hdata
  constructor
  · exact h.wf.splitNode hc hne hpos hlt
  · intro ct
    change Counts (lockCount cfg (w.core.toData.splitNode child splitLen) ct) w.held _
    rw [lockCount_splitNode h.wf hne]
    by_cases hct : ct ∈ [ComponentType.full, .swa]
    · have hnot : ct ≠ .mamba := by
        rintro rfl
        exact absurd hct (by decide)
      rw [if_neg hnot]
      refine (h.counts ct).split (c := child) (m := w.core.tree.counter) ?_ ?_ ?_
      · intro q hq n hn
        simp only [split]
        split_ifs
        · rw [mem_insert]
          exact or_iff_right hn
        · rfl
      · intro q hq
        simp only [split, hct, true_and]
        split_ifs with hmem
        · exact iff_of_true (mem_insert_self _ _) hmem
        · exact iff_of_false (hfresh q hq ct) hmem
      · rfl
    · have hmamba : ct = .mamba := by
        cases ct with
        | full | swa => exact absurd hct (by decide)
        | mamba => rfl
      rw [if_pos hmamba]
      simp only [split, hct, false_and, if_false]
      exact (h.counts ct).fresh fun q hq => hfresh q hq ct
  · exact fun ct n hn => present_splitNode h.present hne ct n hn
  · exact h.marks.splitNode
  · exact fun q hq => (h.locks q hq).split h.wf hc hne hpos hlt (hcare q hq).1 (hcare q hq).2
  · exact h.next

theorem Balanced.add {parent : NodeId} {keyLen : Nat} {l : Layer} {value : List Int}
    (h : Balanced cfg w) (hp : parent ∈ w.core.tree.arena) (hlen : 0 < keyLen)
    (hdata : c'.toData = w.core.toData.addNode parent keyLen l value) :
    Balanced cfg { w with core := c' } := by
  cases c'
  cases hdata
  constructor
  · exact h.wf.addNode hp hlen
  · intro ct
    change Counts (lockCount cfg (w.core.toData.addNode parent keyLen l value) ct) w.held _
    rw [lockCount_new (w.core.toData.addNode _ _ _ _) h.wf rfl fun n hn => if_neg hn]
    simp only [addNode, if_true]
    exact (h.counts ct).fresh fun q hq => h.counter_fresh q hq ct
  · intro ct n hn hpos
    dsimp only at hpos ⊢
    split_ifs at hpos with hnm
    · exact absurd hpos (lt_irrefl 0)
    · rw [if_neg hnm]
      exact h.present ct n hn hpos
  · have hold : ∀ {n v}, (w.core.toData.addNode parent keyLen l value).uuid .device n = some v →
        w.core.uuid .device n = some v := by
      intro n v hn
      simp only [addNode] at hn
      split_ifs at hn
      exact hn
    exact ⟨fun hn hm => h.marks.inj (hold hn) (hold hm), fun hn => h.marks.le (hold hn)⟩
  · intro q hq
    have hlk := h.locks q hq
    refine hlk.keep h.marks (mem_insert_of_mem hlk.node_mem) rfl (Nat.le_succ _)
      (h.wf.climb_addNode hp hlen hlk.node_mem) fun n hn => .inl ?_
    exact if_neg (h.wf.ne_counter (h.wf.mem_climb hlk.node_mem hn).1)
  · exact h.next

theorem Balanced.remove (h : Balanced cfg w) (hn : n ∈ w.core.tree.arena)
    (hne : n ≠ w.core.tree.rootNode) (hleaf : w.core.tree.children n = ∅)
    (hdata : c'.toData = { w.core.toData with tree := w.core.tree.removeNode n })
    (hcare : Careful cfg w (.remove n)) : Balanced cfg { w with core := c' } := by
  cases c'
  cases hdata
  refine ⟨h.wf.removeNode hn hne hleaf, h.counts, h.present, h.marks.congr (fun _ => rfl) le_rfl,
    fun q hq => ?_, h.next⟩
  have hlk := h.locks q hq
  have hnode : (w.lock q).node ≠ n := Ne.symm (hcare q hq)
  exact hlk.keep h.marks (mem_erase.mpr ⟨hnode, hlk.node_mem⟩) rfl le_rfl
    (h.wf.climb_removeNode hn hne hleaf hlk.node_mem hnode) fun m _ => .inl rfl

theorem Balanced.same (h : Balanced cfg w) (htree : c'.tree = w.core.tree)
    (hlock : ∀ ct n, c'.lockRef .device ct n = w.core.lockRef .device ct n)
    (huuid : ∀ n, c'.uuid .device n = w.core.uuid .device n)
    (hcounter : w.core.uuidCounter ≤ c'.uuidCounter)
    (hvalue : ∀ ct n, 0 < w.core.lockRef .device ct n → w.core.value .device ct n ≠ none →
      c'.value .device ct n ≠ none) : Balanced cfg { w with core := c' } := by
  constructor
  · exact htree ▸ h.wf
  · intro ct
    have hcount : lockCount cfg c'.toData ct = lockCount cfg w.core.toData ct := by
      funext n
      rw [lockCount, lockCount, hlock, htree]
    rw [hcount]
    exact h.counts ct
  · intro ct n hn hpos
    rw [hlock] at hpos
    rw [htree] at hn
    exact hvalue ct n hpos (h.present ct n hn hpos)
  · exact h.marks.congr huuid hcounter
  · exact fun q hq => (h.locks q hq).same h.marks htree fun n => .inl (huuid n)
  · exact h.next

theorem Balanced.setValue {v : Option (List Int)} (h : Balanced cfg w)
    (hfree : v = none → w.core.lockRef .device ct n = 0)
    (hdata : c'.toData = w.core.toData.setValue .device ct n v) :
    Balanced cfg { w with core := c' } := by
  cases c'
  cases hdata
  refine h.same rfl (fun _ _ => rfl) (fun _ => rfl) le_rfl fun ct' m hpos hval => ?_
  dsimp only
  split_ifs with hx
  · rintro rfl
    rw [hx.2.1, hx.2.2, hfree rfl] at hpos
    exact lt_irrefl 0 hpos
  · exact hval

/-! ## Runs -/

theorem Balanced.start (counter uuidCounter : Nat) (lock : Nat → Lock) :
    Balanced cfg ⟨fresh cfg counter uuidCounter, ∅, lock, 0⟩ := by
  constructor
  · exact Tree.WF.ofFresh counter
  · intro ct n
    have hroot : (fresh cfg counter uuidCounter).tree.rootNode = counter := rfl
    rw [lockCount, hroot]
    by_cases hx : ct ∈ cfg.components ∧ n = counter
    · have hone : (fresh cfg counter uuidCounter).lockRef .device ct n = 1 := if_pos ⟨rfl, hx⟩
      rw [hone, if_pos hx]
      rfl
    have hzero : (fresh cfg counter uuidCounter).lockRef .device ct n = 0 :=
      if_neg fun hy => hx hy.2
    rw [hzero, if_neg hx]
    rfl
  · intro ct n hn hpos
    simp only [fresh] at hpos
    rw [if_neg fun hx => hn hx.2.2] at hpos
    exact absurd hpos (lt_irrefl 0)
  · constructor
    · intro n m v hn
      cases hn
    · intro n v hn
      cases hn
  · exact fun q hq => absurd hq (notMem_empty q)
  · exact fun q hq => absurd hq (notMem_empty q)

theorem Balanced.step {w' : LockWorld} {op : LockOp} (h : Balanced cfg w)
    (hcare : Careful cfg w op) (hstep : LockStep cfg w op w') : Balanced cfg w' := by
  cases hstep with
  | inc hrun => exact h.inc hcare hrun
  | dec hq hrun =>
    obtain ⟨c₁, hok, hg⟩ := h.dec_ok hq
    rw [hrun] at hok
    cases hok
    exact h.given hq hg
  | decSwa hq hfirst hrun =>
    obtain ⟨c₁, hok, hg⟩ := h.decSwa_ok hq hfirst hcare
    rw [hrun] at hok
    cases hok
    exact h.givenWindow hq hcare hg
  | split hc hne hpos hlt hdata => exact h.split hc hne hpos hlt hdata hcare
  | add hp hlen hdata => exact h.add hp hlen hdata
  | remove hn hne hleaf _ hdata => exact h.remove hn hne hleaf hdata hcare
  | setValue hfree hdata => exact h.setValue hfree hdata
  | other hsame =>
    refine h.same hsame.tree hsame.lockRef hsame.uuid hsame.uuidCounter fun ct n _ hval => ?_
    rwa [hsame.value]

theorem LockReach.balanced (h : LockReach cfg (Careful cfg) w) : Balanced cfg w := by
  induction h with
  | start counter uuidCounter lock => exact .start counter uuidCounter lock
  | step _ hcare hstep ih => exact ih.step hcare hstep

/-- In every run of careful steps the counts are those of the outstanding locks,
every release succeeds and takes back what its own acquire put there, and after
the last release nothing is locked. -/
theorem device_locks_balanced (h : LockReach cfg (Careful cfg) w) :
    (∀ ct ∈ cfg.components, ∀ n, n ≠ w.core.tree.rootNode →
      w.core.lockRef .device ct n = load w.held (fun q => (w.lock q).cov ct) n) ∧
    (∀ q ∈ w.held, ∃ c',
      w.core.decLockRef cfg (w.lock q).node (w.lock q).params (w.lock q).swaReleased = .ok c' ∧
      ∀ ct n, c'.lockRef .device ct n =
        w.core.lockRef .device ct n - if n ∈ (w.lock q).cov ct then 1 else 0) ∧
    (∀ q ∈ w.held, (w.lock q).swaReleased = false → Careful cfg w (.decSwa q) → ∃ c',
      w.core.decSwaLockOnly cfg (w.lock q).node (w.lock q).params = .ok c' ∧
      ∀ ct n, c'.lockRef .device ct n =
        w.core.lockRef .device ct n - if n ∈ windowCov cfg (w.lock q) ct then 1 else 0) ∧
    (w.held = ∅ → ∀ ct ∈ cfg.components, ∀ n, n ≠ w.core.tree.rootNode →
      w.core.lockRef .device ct n = 0) := by
  have hb := h.balanced
  have hcount : ∀ ct n, n ≠ w.core.tree.rootNode →
      w.core.lockRef .device ct n = load w.held (fun q => (w.lock q).cov ct) n := by
    intro ct n hn
    have hc := hb.counts ct n
    rwa [lockCount, if_neg fun hx => hn hx.2, Int.sub_zero] at hc
  refine ⟨fun ct _ => hcount ct, fun q hq => ?_, fun q hq hfirst hcare => ?_,
    fun hempty ct _ n hn => ?_⟩
  · obtain ⟨c', hok, hg⟩ := hb.dec_ok hq
    exact ⟨c', hok, hg.lockRef⟩
  · obtain ⟨c', hok, hg⟩ := hb.decSwa_ok hq hfirst hcare
    exact ⟨c', hok, hg.lockRef⟩
  · rw [hcount ct n hn, hempty]
    rfl

/-! ## Two runs -/

namespace LockWorld

variable (cfg : CoreConfig) (w : LockWorld)

def inc (node : NodeId) : LockWorld :=
  match w.core.incLockRef cfg node [] with
  | .ok (c', r) => w.acquire .device c' r node
  | .error _ => w

def dec (q : Nat) : LockWorld :=
  match w.core.decLockRef cfg (w.lock q).node (w.lock q).params (w.lock q).swaReleased with
  | .ok c' => w.release q c'
  | .error _ => w

def decSwa (q : Nat) : LockWorld :=
  match w.core.decSwaLockOnly cfg (w.lock q).node (w.lock q).params with
  | .ok c' =>
    { w with core := c', lock := update w.lock q ((w.lock q).releaseWindow cfg) }
  | .error _ => w

def insertLeaf (full swa mamba : List Int) : LockWorld :=
  let n := w.core.tree.counter
  let d := w.core.toData.addNode w.core.tree.rootNode full.length .device full
  { w with core := { w.core with
      toData := (d.setValue .device .swa n (some swa)).setValue .device .mamba n (some mamba) } }

def splitAt (child : NodeId) (splitLen : Nat) : LockWorld :=
  { w with
    core := { w.core with toData := w.core.toData.splitNode child splitLen }
    lock := fun q => (w.lock q).split [.full, .swa] child w.core.tree.counter }

end LockWorld

section

variable (h : LockReach cfg ok w)
include h

theorem LockReach.inc (hok : ok w (.inc node []))
    (hrun : (w.core.incLockRef cfg node []).isOk = true) : LockReach cfg ok (w.inc cfg node) := by
  obtain ⟨r, hr⟩ := exists_ok hrun
  rw [LockWorld.inc, hr]
  exact .step h hok (.inc hr)

theorem LockReach.dec (hq : q ∈ w.held) (hok : ok w (.dec q))
    (hrun : (w.core.decLockRef cfg (w.lock q).node (w.lock q).params (w.lock q).swaReleased).isOk = true) :
    LockReach cfg ok (w.dec cfg q) := by
  obtain ⟨c', hr⟩ := exists_ok hrun
  rw [LockWorld.dec, hr]
  exact .step h hok (.dec hq hr)

theorem LockReach.decSwa (hq : q ∈ w.held) (hok : ok w (.decSwa q))
    (hfirst : (w.lock q).swaReleased = false)
    (hrun : (w.core.decSwaLockOnly cfg (w.lock q).node (w.lock q).params).isOk = true) :
    LockReach cfg ok (w.decSwa cfg q) := by
  obtain ⟨c', hr⟩ := exists_ok hrun
  rw [LockWorld.decSwa, hr]
  exact .step h hok (.decSwa hq hfirst hr)

theorem LockReach.insertLeaf {full swa mamba : List Int} (hwf : w.core.tree.WF)
    (hadd : ∀ w p len l v, ok w (.add p len l v)) (hset : ∀ w ct n v, ok w (.setValue ct n v))
    (hlen : 0 < full.length) : LockReach cfg ok (w.insertLeaf full swa mamba) := by
  let n := w.core.tree.counter
  let d := w.core.toData.addNode w.core.tree.rootNode full.length .device full
  have h₁ : LockReach cfg ok { w with core := { w.core with toData := d } } :=
    .step h (hadd ..) (.add hwf.root_mem hlen rfl)
  have h₂ : LockReach cfg ok { w with core := { w.core with
      toData := d.setValue .device .swa n (some swa) } } :=
    .step h₁ (hset ..) (.setValue (fun hv => by cases hv) rfl)
  exact .step h₂ (hset ..) (.setValue (fun hv => by cases hv) rfl)

theorem LockReach.splitAt (hok : ok w (.split child splitLen)) (hc : child ∈ w.core.tree.arena)
    (hne : child ≠ w.core.tree.rootNode) (hpos : 0 < splitLen)
    (hlt : splitLen < w.core.tree.keyLen child) : LockReach cfg ok (w.splitAt child splitLen) :=
  .step h hok (.split hc hne hpos hlt rfl)

end

/-- A model with all three components and a window of two tokens. -/
def hybridConfig : CoreConfig where
  components := [.full, .swa, .mamba]
  components_nodup := fullSwaMamba_nodup
  slidingWindowSize := 2
  window_pos := by decide
  isWriteBack := false

/-- One cached leaf of two tokens, the node `1`. -/
def oneLeaf : LockWorld :=
  let noLock : Lock := ⟨0, IncLockRefResult.empty.toDecLockRefParams, fun _ => ∅, false⟩
  insertLeaf ⟨fresh hybridConfig 0 0, ∅, fun _ => noLock, 0⟩ [5, 6] [5, 6] [3]

theorem oneLeaf_reach (hadd : ∀ w p len l v, ok w (.add p len l v))
    (hset : ∀ w ct n v, ok w (.setValue ct n v)) : LockReach hybridConfig ok oneLeaf :=
  LockReach.insertLeaf (.start 0 0 _) (Tree.WF.ofFresh 0) hadd hset (by decide)

/-- The leaf is locked, split and locked again: the parts are counted twice. -/
theorem device_locks_balanced_split :
    ∃ w, LockReach hybridConfig (Careful hybridConfig) w ∧ w.core.lockRef .device .swa 2 = 2 ∧
      w.core.lockRef .device .swa 2 = load w.held (fun q => (w.lock q).cov .swa) 2 := by
  have h₀ : LockReach hybridConfig (Careful hybridConfig) oneLeaf :=
    oneLeaf_reach (fun _ _ _ _ _ => trivial) fun _ _ _ _ => trivial
  have h₁ : LockReach hybridConfig (Careful hybridConfig) (oneLeaf.inc hybridConfig 1) :=
    h₀.inc (by simp [Careful]) (by decide)
  have h₂ : LockReach hybridConfig (Careful hybridConfig)
      ((oneLeaf.inc hybridConfig 1).splitAt 1 1) :=
    h₁.splitAt (by unfold Careful; decide) (by decide) (by decide) (by decide) (by decide)
  have h₃ : LockReach hybridConfig (Careful hybridConfig)
      (((oneLeaf.inc hybridConfig 1).splitAt 1 1).inc hybridConfig 1) :=
    h₂.inc (by simp [Careful]) (by decide)
  exact ⟨_, h₃, by decide, (device_locks_balanced h₃).1 .swa (by decide) 2 (by decide)⟩

/-- Two holders lock a node; the first one gives its window back early and then
the rest of its lock.  Both calls release the `MAMBA` lock, so the second holder's
is gone while it is outstanding. -/
theorem mamba_lock_released_twice :
    ∃ w, LockReach hybridConfig (fun _ _ => True) w ∧ w.held = {1} ∧ (w.lock 1).cov .mamba = {1} ∧
      w.core.lockRef .device .mamba 1 = 0 := by
  have h₀ : LockReach hybridConfig (fun _ _ => True) oneLeaf :=
    oneLeaf_reach (fun _ _ _ _ _ => trivial) fun _ _ _ _ => trivial
  have h₁ : LockReach hybridConfig (fun _ _ => True) (oneLeaf.inc hybridConfig 1) :=
    h₀.inc trivial (by decide)
  have h₂ : LockReach hybridConfig (fun _ _ => True)
      ((oneLeaf.inc hybridConfig 1).inc hybridConfig 1) := h₁.inc trivial (by decide)
  have h₃ := h₂.decSwa (q := 0) (by decide) trivial (by decide) (by decide)
  have h₄ := h₃.dec (q := 0) (by decide) trivial (by decide)
  exact ⟨_, h₄, by decide, by decide, by decide⟩

end SparkInfer.Unified
