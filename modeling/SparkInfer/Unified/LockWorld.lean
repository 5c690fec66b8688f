import SparkInfer.Unified.ReleaseSpecs
import SparkInfer.Lib.Coverage

/-!
# Holders of locks

A holder keeps the node it locked and the parameters of the release.  What its
acquire covered is not stored anywhere in the source: `cov` is the history of the
lock, the nodes whose count the acquire raised, carried through splits.
-/

namespace SparkInfer.Unified

open Lib List Finset Data

variable {ns above : List NodeId} {ct : ComponentType} {n child : NodeId}

structure Lock where
  node : NodeId
  params : DecLockRefParams
  cov : ComponentType → Finset NodeId
  /-- `dec_swa_lock_only` has been called. -/
  swaReleased : Bool

def raised (l : Layer) (d d' : Data) (ct : ComponentType) : Finset NodeId :=
  d.tree.arena.filter fun n => d.lockRef l ct n < d'.lockRef l ct n

def Lock.split (lk : Lock) (cts : List ComponentType) (child newNode : NodeId) : Lock :=
  { lk with cov := fun ct =>
      if ct ∈ cts ∧ child ∈ lk.cov ct then insert newNode (lk.cov ct) else lk.cov ct }

/-- `dec_swa_lock_only` gives back the window and what ranks below it. -/
def Lock.releaseWindow (cfg : CoreConfig) (lk : Lock) : Lock :=
  { lk with
    cov := fun ct => if .swa ∈ cfg.components ∧ ct ≠ .full then ∅ else lk.cov ct
    swaReleased := true }

structure LockWorld where
  core : Core
  held : Finset Nat
  lock : Nat → Lock
  next : Nat

def LockWorld.acquire (w : LockWorld) (l : Layer) (c' : Core) (r : IncLockRefResult)
    (node : NodeId) : LockWorld where
  core := c'
  held := insert w.next w.held
  lock := Function.update w.lock w.next
    { node := node, params := r.toDecLockRefParams,
      cov := raised l w.core.toData c'.toData, swaReleased := false }
  next := w.next + 1

def LockWorld.release (w : LockWorld) (q : Nat) (c' : Core) : LockWorld :=
  { w with core := c', held := w.held.erase q }

/-! ## Windows

A release finds its window again by the mark of its last node. -/

namespace Core.WindowStop

open Core

variable {mark mark' : NodeId → Option Nat} {skip : Finset NodeId} {uuid : Option Nat}
variable {above' : List NodeId} {m : NodeId}

theorem grow {w : Nat} (h : WindowStop mark skip uuid ns above) (hw : uuid ≠ some w)
    (hmark : ∀ n ∈ ns, mark' n = mark n ∨ (mark n = none ∧ mark' n = some w)) :
    WindowStop mark' skip uuid ns above := by
  cases h with
  | root => exact .root ns
  | @mark v last first _ hskip hlast hfirst =>
    refine .mark first above hskip ?_ fun n hn => ?_
    · cases hmark last (by simp) with
      | inl h => rw [h, hlast]
      | inr h =>
        rw [hlast] at h
        exact absurd h.1 (by simp)
    · cases hmark n (mem_append_left _ hn) with
      | inl h =>
        rw [h]
        exact hfirst n hn
      | inr h =>
        rw [h.2]
        exact Ne.symm hw

theorem split (h : WindowStop mark skip uuid ns above) (hnd : ns.Nodup) (hchild : child ∉ skip)
    (hm : m ∉ skip) (hmns : m ∉ ns) (hnew : mark' m = mark child) (hold : mark' child = none)
    (hrest : ∀ n, n ≠ m → n ≠ child → mark' n = mark n) :
    WindowStop mark' skip uuid (Tree.splitClimb child m ns) (Tree.splitClimb child m above) := by
  cases h with
  | root => exact .root _
  | @mark v last first _ hskip hlast hfirst =>
    have hm' : ∀ n ∈ first, n ≠ m := fun n hn he => hmns (he ▸ mem_append_left _ hn)
    rw [Tree.splitClimb_append]
    by_cases hc : last = child
    · subst hc
      rw [nodup_append] at hnd
      have hnot : last ∉ first := fun hx => hnd.2.2 last hx last (List.mem_singleton_self _) rfl
      rw [Tree.splitClimb_of_not_mem hnot, Tree.splitClimb_cons_self, append_cons first last _]
      refine .mark (first ++ [last]) _ hm (by rw [hnew, hlast]) fun n hn => ?_
      rcases mem_append.mp hn with hn | hn
      · rw [hrest n (hm' n hn) fun he => hnot (he ▸ hn)]
        exact hfirst n hn
      · rw [List.mem_singleton.mp hn, hold]
        simp
    · have hlm : last ≠ m := fun he => hmns (he ▸ by simp)
      rw [Tree.splitClimb_cons_of_ne hc]
      refine .mark _ _ hskip (by rw [hrest last hlm hc, hlast]) fun n hn => ?_
      rcases Tree.mem_splitClimb.mp hn with hn | ⟨hn, hmem⟩
      · by_cases hnc : n = child
        · rw [hnc, hold]
          simp
        · rw [hrest n (hm' n hn) hnc]
          exact hfirst n hn
      · rw [hn, hnew]
        exact hfirst child hmem

end Core.WindowStop

open Core (WindowStop)

variable {cfg : CoreConfig} {l : Layer} {d d' : Data} {lk : Lock}

structure WindowOf (d : Data) (l : Layer) (lk : Lock) (ns above : List NodeId) : Prop where
  climb : d.tree.climb lk.node = ns ++ above
  stop : WindowStop (d.uuid l) (lk.params.skipLockNodeIds .swa) (lk.params.swaUuid l) ns above
  cov : lk.cov .swa = (unskipped (lk.params.skipLockNodeIds .swa) ns).toFinset

def MambaOf (d : Data) (lk : Lock) : Prop :=
  lk.cov .mamba =
    if lk.node = d.tree.rootNode ∨ lk.node ∈ lk.params.skipLockNodeIds .mamba then ∅ else {lk.node}

/-! ## Marks -/

/-- No two nodes share a mark, and new marks are larger than all given out. -/
structure Marks (d : Data) (l : Layer) : Prop where
  inj : ∀ {n m v}, d.uuid l n = some v → d.uuid l m = some v → n = m
  le : ∀ {n v}, d.uuid l n = some v → v ≤ d.uuidCounter

theorem Marks.congr (h : Marks d l) (huuid : ∀ n, d'.uuid l n = d.uuid l n)
    (hcounter : d.uuidCounter ≤ d'.uuidCounter) : Marks d' l where
  inj := by
    intro n m v hn hm
    rw [huuid] at hn hm
    exact h.inj hn hm
  le := by
    intro n v hn
    rw [huuid] at hn
    exact le_trans (h.le hn) hcounter

theorem marked_uuid (d : Data) (l : Layer) (e : Option NodeId) (n : NodeId) :
    (d.marked l e).uuid l n = d.uuid l n ∨
      (d.uuid l n = none ∧ e = some n ∧ (d.marked l e).uuid l n = some (d.uuidCounter + 1) ∧
        (d.marked l e).uuidCounter = d.uuidCounter + 1) := by
  cases e with
  | none => exact .inl rfl
  | some m =>
    simp only [marked]
    cases hm : d.uuid l m with
    | some u => exact .inl rfl
    | none =>
      by_cases hn : n = m
      · subst hn
        right
        refine ⟨hm, rfl, ?_, rfl⟩
        simp [setUuid]
      · left
        simp [setUuid, hn]

theorem marked_uuidCounter (e : Option NodeId) : d.uuidCounter ≤ (d.marked l e).uuidCounter := by
  cases e with
  | none => exact le_rfl
  | some m =>
    simp only [marked]
    cases d.uuid l m with
    | some u => exact le_rfl
    | none => exact Nat.le_succ _

theorem marked_uuid_self : (d.marked l (some n)).uuid l n = some (d.windowMark l n) := by
  simp only [marked, windowMark]
  cases hn : d.uuid l n with
  | some u => exact hn
  | none => simp [setUuid]

theorem Marks.marked (h : Marks d l) (e : Option NodeId) : Marks (d.marked l e) l where
  inj := by
    intro n m v hn hm
    rcases marked_uuid d l e n with hn' | ⟨-, hen, hn', -⟩ <;>
      rcases marked_uuid d l e m with hm' | ⟨-, hem, hm', -⟩
    · rw [hn'] at hn
      rw [hm'] at hm
      exact h.inj hn hm
    · rw [hm'] at hm
      cases hm
      rw [hn'] at hn
      have := h.le hn
      omega
    · rw [hn'] at hn
      cases hn
      rw [hm'] at hm
      have := h.le hm
      omega
    · rw [hen] at hem
      exact Option.some.inj hem
  le := by
    intro n v hn
    rcases marked_uuid d l e n with hn' | ⟨-, -, hn', hcounter⟩
    · rw [hn'] at hn
      exact le_trans (h.le hn) (marked_uuidCounter e)
    · rw [hn'] at hn
      cases hn
      rw [hcounter]

theorem WindowOf.keep (h : WindowOf d l lk ns above) (hmarks : Marks d l)
    (hclimb : d'.tree.climb lk.node = d.tree.climb lk.node)
    (huuid : ∀ n ∈ d.tree.climb lk.node, d'.uuid l n = d.uuid l n ∨ (d.uuid l n = none ∧ d'.uuid l n = some (d.uuidCounter + 1))) :
    WindowOf d' l lk ns above where
  climb := by rw [hclimb, h.climb]
  stop := by
    refine h.stop.grow (fun hold => ?_) fun n hn =>
      huuid n (by rw [h.climb]; exact mem_append_left _ hn)
    -- the mark looked for is on a node already
    have hstop := h.stop
    rw [hold] at hstop
    cases hstop with
    | mark first above hskip hlast hfirst =>
      have := hmarks.le hlast
      omega
  cov := h.cov

/-! ## What a new lock records -/

open Core (Acquired newSkips)

section Acquired

variable {node : NodeId} {skips : List ComponentType} {r : IncLockRefResult}

theorem covered_mem (hwf : d.tree.WF) (hnode : node ∈ d.tree.arena)
    (hn : n ∈ d.covered cfg l node ct) : n ∈ d.tree.arena := by
  cases ct with
  | full =>
    cases l with
    | device => exact (hwf.mem_climb hnode ((dropWhile_sublist _).subset hn)).1
    | host =>
      simp only [covered] at hn
      split_ifs at hn
      · cases hn
      · rwa [List.mem_singleton.mp hn]
  | swa =>
    exact (hwf.mem_climb hnode (windowWalk_subset (mem_filter.mp hn).1)).1
  | mamba =>
    simp only [covered] at hn
    split_ifs at hn
    · cases hn
    · rwa [List.mem_singleton.mp hn]

variable (hwf : d.tree.WF) (hnode : node ∈ d.tree.arena)
  (h : Acquired cfg l node skips cfg.components d .empty d' r)
include hwf hnode h

theorem raised_eq (ct : ComponentType) : raised l d d' ct = if ct ∈ cfg.components ∧ ct ∉ skips then
      (d.covered cfg l node ct).toFinset else ∅ := by
  ext n
  rw [raised, Finset.mem_filter, h.lockRef]
  by_cases htaken : ct ∈ cfg.components ∧ ct ∉ skips
  · rw [if_pos htaken, mem_toFinset]
    by_cases hn : n ∈ d.covered cfg l node ct
    · rw [if_pos ⟨rfl, htaken, hn⟩]
      exact ⟨fun _ => hn, fun _ => ⟨covered_mem hwf hnode hn, by omega⟩⟩
    · rw [if_neg fun hx => hn hx.2.2]
      exact ⟨fun hx => absurd hx.2 (by omega), fun hx => absurd hx hn⟩
  · rw [if_neg htaken, if_neg fun hx => htaken hx.2.1]
    exact ⟨fun hx => absurd hx.2 (by omega), fun hx => absurd hx (notMem_empty n)⟩

omit hwf hnode in
theorem acquired_skip (hct : ct ∈ cfg.components) :
    r.skipLockNodeIds ct = newSkips cfg d l node skips ct := by
  rw [h.skip ct, if_pos hct]
  exact empty_union _

theorem acquired_skip_lt (hn : n ∈ r.skipLockNodeIds ct) : n < d.tree.counter := by
  have hclimb : n ∈ d.tree.climb node → n ∈ d.tree.arena := fun hx => (hwf.mem_climb hnode hx).1
  refine hwf.fresh n ?_
  rw [h.skip ct, mem_union] at hn
  rcases hn with hn | hn
  · exact absurd hn (notMem_empty n)
  split_ifs at hn
  · rw [newSkips] at hn
    split_ifs at hn with hs hroot
    · exact absurd hn (notMem_empty n)
    · rwa [Finset.mem_singleton.mp hn]
    cases ct with
    | full =>
      cases l with
      | device =>
        rw [skipped, mem_toFinset] at hn
        exact hclimb ((takeWhile_sublist _).subset hn)
      | host => exact absurd hn (notMem_empty n)
    | swa =>
      rw [skipped, mem_toFinset, List.mem_filter] at hn
      exact hclimb (windowWalk_subset hn.1)
    | mamba =>
      rw [skipped] at hn
      split_ifs at hn
      · rwa [Finset.mem_singleton.mp hn]
      · exact absurd hn (notMem_empty n)
  · exact absurd hn (notMem_empty n)

theorem windowOf_acquired (hmarks : Marks d' l) (hswa : .swa ∈ cfg.components ∧ .swa ∉ skips) :
    ∃ ns above, WindowOf d' l ⟨node, r.toDecLockRefParams, raised l d d', false⟩ ns above := by
  obtain ⟨above, habove, -⟩ :=
    windowWalk_stops (d.swaLen l) cfg.slidingWindowSize 0 (d.tree.climb node)
  have hskip := acquired_skip h hswa.1
  rw [newSkips, if_neg hswa.2, skipped] at hskip
  have huuid := h.swaUuid
  rw [if_pos hswa] at huuid
  have hmark := (h.marks _ (if_pos hswa).symm).1
  have hnd := hwf.climb_nodup hnode
  refine ⟨_, above, by rw [h.tree]; exact habove, ?_, ?_⟩
  · simp only [hskip, huuid, Function.update_self]
    cases hend : d.windowEnd cfg l node with
    | none =>
      have hall := windowWalk_of_last_none cfg.window_pos hend
      rw [hall] at habove
      have hnil : above = [] := self_eq_append_right.mp habove
      rw [hnil]
      exact .root _
    | some last =>
      obtain ⟨first, hwalk, hhas⟩ := windowWalk_of_last_some cfg.window_pos hend
      rw [hend] at hmark
      have hlast : d'.uuid l last = some (d.windowMark l last) := by
        rw [hmark, marked_uuid_self]
      rw [hwalk] at habove ⊢
      refine .mark first above ?_ hlast fun n hn heq => ?_
      · simp [hhas]
      · rw [habove, append_assoc, nodup_append] at hnd
        exact hnd.2.2 n hn last (by simp) (hmarks.inj heq hlast)
  · simp only [raised_eq hwf hnode h, if_pos hswa, hskip]
    congr 1
    refine List.filter_congr fun n hn => ?_
    simp only [mem_toFinset, List.mem_filter, hn]
    cases d.has l .swa n <;> decide

theorem mambaOf_acquired (hmamba : .mamba ∈ cfg.components) :
    MambaOf d' ⟨node, r.toDecLockRefParams, raised l d d', false⟩ := by
  have hskip := acquired_skip h hmamba
  simp only [MambaOf, h.tree, raised_eq hwf hnode h, hskip]
  by_cases hs : .mamba ∈ skips
  · rw [if_neg fun hx => hx.2 hs, newSkips, if_pos hs]
    by_cases hroot : node = d.tree.rootNode
    · rw [if_pos (.inl hroot)]
    · rw [if_neg hroot, if_pos (.inr (Finset.mem_singleton_self _))]
  rw [if_pos ⟨hmamba, hs⟩, newSkips, if_neg hs, covered, skipped]
  by_cases hroot : node = d.tree.rootNode
  · rw [if_pos (.inl hroot), if_pos (.inl hroot)]
    rfl
  · by_cases hv : d.value l .mamba node = none <;> simp [hroot, hv]

end Acquired

end SparkInfer.Unified
